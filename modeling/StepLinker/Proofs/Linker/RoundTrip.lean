import StepLinker.Proofs.Declaration.Instance
import StepLinker.Proofs.Declaration.Quoted
import StepLinker.Proofs.Linker.Binding
import StepLinker.Proofs.Statement.Escape
import StepLinker.Proofs.Statement.Slice

/-!
# Passing a text through a step

A text that is escaped and put between quote marks comes back as it was. The declaration compiles to
words and one quoted argument, the statement is lexed to the same words around the tokens of the
text, so the argument takes up just these tokens; what they say is the escaped text, it has the type
text unless the text is a number, and taking the backslashes off undoes the escaping.
-/

namespace StepLinker

open Text

/-! ## The statement -/

/-- The statement has the escaped value tightly between the marks. -/
theorem exists_enclosed (q : QuoteMark) {before : List Char} (hbefore : IsPlain before)
    (value after : List Char) :
    ∃ first last inside n,
      Enclosed (.ofText (String.ofList (q.enclose before (escape value) after)))
        (before ++ [q.toChar]) (q.toChar :: after) (Token.place 0 (lexemes true before))
        ((Token.place (byteLength [q.toChar]) (lexemes true after)).map (Token.shift n))
        first last (lexemes true (escape value)) inside ∧
      first.kind = .quote q ∧ last.kind = .quote q := by
  have hinert : ∀ l ∈ lexemes true (escape value), l.Inert := inert_of_mem_lexemes_escape
  have hinside : Lexeme.dangling ∉ lexemes true (escape value) := fun hmem =>
    (hinert _ hmem).ne_dangling rfl
  have hleft : byteLength (before ++ [q.toChar]) = 0 + byteLength before + byteLength [q.toChar] := by
    rw [byteLength_append, Nat.zero_add]
  refine ⟨⟨byteLength before, String.ofList [q.toChar], .quote q⟩,
    ⟨byteLength (before ++ [q.toChar]) + byteLength (escape value), String.ofList [q.toChar],
      .quote q⟩,
    _, byteLength (before ++ [q.toChar]) + byteLength (escape value),
    ⟨?_, ?_, rfl, ?_, ?_, ?_⟩, rfl, rfl⟩
  · rw [flatMap_chars_lexemes]
    simp [Statement.ofText, QuoteMark.enclose]
  · show Token.ofText (String.ofList _).toList = _
    rw [Token.ofText, String.toList_ofList, QuoteMark.enclose,
      Token.place_lexemes_quote 0 q _ (hbefore.dangling_not_mem true),
      Token.place_lexemes_quote _ q after hinside, ← Token.place_add, hleft, Nat.zero_add]
  · rw [Token.stop, Token.length, String.toList_ofList, hleft, Nat.zero_add]
  · rw [flatMap_chars_lexemes, hleft]
  · intro c hmem
    obtain ⟨_, _, htoken, -⟩ := (hinert _ hmem).token
    cases htoken

section
variable {s : Statement} {left right : List Char} {ts us inside : List Token} {n : Nat}
  {first last : Token} {ls : List Lexeme} {q : QuoteMark} {p : Placeholder}

/-- The words around a quoted argument read the statement. -/
theorem Enclosed.readable
    (h : Enclosed s left right ts (us.map (Token.shift n)) first last ls inside)
    (hfirst : first.kind = .quote q) (hlast : last.kind = .quote q)
    (hplain : ∀ t ∈ inside, t.kind ≠ .quote q) (hquote : p.quote = some q) :
    Readable (Pattern.words ts ++ .argument p :: Pattern.words us) s.tokens.toList := by
  have hright : Readable (Pattern.words us) (us.map (Token.shift n)) := by
    simpa using readable_nil.words n us
  have hargument := hright.cons (.quoted hquote hfirst hplain hlast)
  have hread := hargument.words 0 ts
  rw [Token.map_shift_zero] at hread
  rw [h.tokens]
  simpa using hread

theorem Enclosed.argumentsFrom_eq
    (h : Enclosed s left right ts (us.map (Token.shift n)) first last ls inside)
    (hquote : p.quote = some q) {pieces : List (List Token)}
    (hread : IsReading (Pattern.words ts ++ .argument p :: Pattern.words us) s.tokens.toList
      pieces) :
    argumentsFrom 0 (Pattern.words ts ++ .argument p :: Pattern.words us) pieces =
      [⟨p, .quoted ts.length inside.length⟩] := by
  have hlength : s.tokens.toList.length = ts.length + inside.length + 2 + us.length := by
    rw [h.tokens]
    simp
    omega
  rw [argumentsFrom_between hread, hlength, Nat.add_sub_cancel, hquote]
  rfl

end

/-! ## The value that comes back -/

theorem Enclosed.kind_of_mem {s : Statement} {left right value : List Char}
    {before after inside : List Token} {first last t : Token}
    (h : Enclosed s left right before after first last (lexemes true (escape value)) inside)
    (ht : t ∈ inside) : t.kind.isDynamic = false ∧ ∀ q, t.kind ≠ .quote q := by
  rw [h.placed] at ht
  obtain ⟨text, hmem⟩ := Token.exists_mem_of_mem_place _ ht
  obtain ⟨kind, _, htoken, hkind⟩ := (inert_of_mem_lexemes_escape _ hmem).token
  cases htoken
  exact hkind

/-- The argument for an escaped value has nothing wrong with it and stands for the value. -/
theorem Enclosed.value_eq {step : Step} {left right value : List Char}
    {before after inside : List Token} {first last : Token} {m : ArgumentMatch}
    (h : Enclosed step.statement left right before after first last
      (lexemes true (escape value)) inside)
    (hspan : m.span = .quoted before.length inside.length)
    (hhint : ∀ hint ∈ m.placeholder.hint, hint = .text)
    (hinteger : Lexeme.isInteger value = false) (hdecimal : Lexeme.isDecimal value = false)
    (warn : Bool) :
    m.findings step warn = [] ∧
      (m.bind step.statement).value = .text (String.ofList value) := by
  have htype : m.type? step.statement = some .text := by
    refine h.type?_eq_text hspan (fun t ht => (h.kind_of_mem ht).1) fun t ht => ?_
    obtain ⟨text, hls⟩ := h.eq_singleton ht
    exact Lexeme.type?_of_lexemes_escape hls hinteger hdecimal
  refine ⟨h.findings_eq_nil hspan htype hhint warn, ?_⟩
  rw [ArgumentMatch.bind, htype, h.raw_eq hspan, flatMap_chars_lexemes, ArgumentBinding.value]
  rw [String.toList_ofList, unescape_escape]

namespace Linker

section
variable {l : Linker} {step : Step}

/-- If there is no other definition, the one that fits is the one that matches. -/
theorem Consistent.matching_eq_singleton (h : l.Consistent) {d : Definition}
    (honly : l.tree.live = [d]) (hfits : l.Fits step d) :
    (l.matching step).map (·.definition) = [d] := by
  have hmem (d' : Definition) : d' ∈ (l.matching step).map (·.definition) ↔ d' ∈ [d] := by
    rw [h.mem_matching_definitions, List.mem_singleton]
    constructor
    · intro hfits'
      have hlive := MatchingTree.mem_live.2 hfits'.live
      rw [honly] at hlive
      exact List.mem_singleton.1 hlive
    · rintro rfl
      exact hfits
  have hperm := (List.perm_ext_iff_of_nodup h.nodup_matching (List.nodup_singleton d)).2 hmem
  exact List.perm_singleton.1 hperm

theorem Consistent.bind_of_only (h : l.Consistent) {d : Definition} (honly : l.tree.live = [d])
    (hfits : l.Fits step d) (htable : d.table = .optional) (source : Option String) :
    ∃ m ∈ l.matching step, m.definition = d ∧ l.bind source step =
      ({ step with binding := some ⟨d, m.arguments.map (·.bind step.statement)⟩ },
        (m.arguments.flatMap (·.findings step l.options.whitespaceWarnings)).map
          (.ofFinding source)) := by
  have hsettled := h.settled_bind source step
  rw [h.matching_eq_singleton honly hfits] at hsettled
  generalize l.bind source step = outcome at hsettled
  cases hsettled with
  | ambiguous several => simp at several
  | bound _ matched _ _ made _ _ _ report =>
    obtain ⟨m, hm, hdefinition, rfl⟩ := matched
    subst made
    refine ⟨m, hm, hdefinition, ?_⟩
    cases report with
    | missing required _ => cases htable.symm.trans required
    | unwanted notSupported _ => cases htable.symm.trans notSupported
    | fine _ _ => rw [List.append_nil]

/-- A match by words around a quoted argument has that argument, whichever reading it comes from. -/
theorem Consistent.exists_argument (h : l.Consistent) {m : Match} (hm : m ∈ l.matching step)
    {p : Pattern} (hp : Pattern.ofDeclaration m.definition.declaration = .ok p)
    {ts us inside : List Token} {placeholder : Placeholder} {q : QuoteMark}
    (hparts : p.parts = Pattern.words ts ++ .argument placeholder :: Pattern.words us)
    (hquote : placeholder.quote = some q) {left right : List Char} {n : Nat} {first last : Token}
    {ls : List Lexeme}
    (henclosed : Enclosed step.statement left right ts (us.map (Token.shift n)) first last ls
      inside) :
    ∃ a, m.arguments = [a] ∧ a.placeholder = placeholder ∧
      a.span = .quoted ts.length inside.length := by
  obtain ⟨p', pieces, hp', hread, harguments⟩ := h.exists_reading_of_mem_matching hm
  obtain rfl : p' = p := Except.ok.inj (hp'.symm.trans hp)
  rw [hparts] at hread harguments
  rw [henclosed.argumentsFrom_eq hquote hread] at harguments
  exact ⟨_, harguments, rfl, rfl⟩

end

/-- A declaration with a placeholder for a text between quote marks is accepted. What is written
between the marks of an only definition like that comes back as it was, whatever it is, if it is
escaped and no number. -/
theorem Reachable.bind_quoted {l : Linker} (hl : l.Reachable) {q : QuoteMark}
    {before after name : List Char} {hint : Option (List Char)} (hbefore : IsPlain before)
    (hafter : IsPlain after) (hname : Item.isName name = true)
    (hhint : ∀ cs ∈ hint, ArgumentType.ofHint? (String.ofList cs) = some .text) :
    let declaration := String.ofList (q.enclose before (Item.placeholder name hint).source after)
    (∃ p, Pattern.ofDeclaration declaration = .ok p) ∧
      ∀ d : Definition, l.tree.live = [d] → d.declaration = declaration → d.table = .optional →
        ∀ value : List Char, Lexeme.isInteger value = false → Lexeme.isDecimal value = false →
          ∀ (source : Option String) (step : Step), step.bindingType = d.type →
            step.statement =
              .ofText (String.ofList (q.enclose before (escape value) after)) →
            (l.bind source step).2 = [] ∧ ∃ b, (l.bind source step).1.binding = some b ∧
              b.definition = d ∧ (b.argument? (String.ofList name)).map (·.value) =
                some (.text (String.ofList value)) := by
  intro declaration
  have h := hl.consistent
  obtain ⟨p, hp, hparts⟩ := Pattern.ofDeclaration_quoted hbefore hafter hname
    (fun cs hcs => by rw [hhint cs hcs]; rfl) q
  refine ⟨⟨p, hp⟩, fun d honly hdeclaration htable value hinteger hdecimal source step htype
    hstatement => ?_⟩
  rw [show String.ofList (q.enclose before _ after) = _ from hdeclaration.symm] at hp
  obtain ⟨first, last, inside, n, henclosed, hfirst, hlast⟩ :=
    exists_enclosed q hbefore value after
  rw [← hstatement] at henclosed
  obtain ⟨pieces, hpieces⟩ : Readable p.parts step.statement.tokens.toList := by
    rw [hparts]
    exact henclosed.readable hfirst hlast (fun t ht => (henclosed.kind_of_mem ht).2 q) rfl
  have hlive : ∃ k, l.tree.get? k = some d :=
    MatchingTree.mem_live.1 (honly ▸ List.mem_singleton_self d)
  have hfits : l.Fits step d := ⟨hlive, htype.symm, p, pieces, hp, hpieces⟩
  obtain ⟨m, hm, rfl, hbind⟩ := h.bind_of_only honly hfits htable source
  obtain ⟨a, harguments, hplaceholder, hspan⟩ :=
    h.exists_argument hm hp hparts rfl henclosed
  obtain ⟨hfindings, hvalue⟩ := henclosed.value_eq hspan
    (hplaceholder ▸ Item.hintedType_eq_text hhint) hinteger hdecimal l.options.whitespaceWarnings
  rw [hbind, harguments]
  refine ⟨?_, _, rfl, rfl, ?_⟩
  · rw [List.flatMap_singleton, hfindings]
    rfl
  · have hfound : Binding.argument? ⟨m.definition, [a.bind step.statement]⟩ (String.ofList name) =
        some (a.bind step.statement) := by
      simp [Binding.argument?, ArgumentMatch.bind, hplaceholder]
    rw [List.map_singleton, hfound, Option.map_some, hvalue]

/-- The text has quote marks, blanks at its front and a backslash at its end, and what would be a
parameter and an interpolation. -/
theorem bind_quoted_say :
    let say : Definition :=
      ⟨"voice", .phase .action, "I say '{what:Text}' (twice)", .optional, .native "say" none, none⟩
    let l := ((new .standard).register (.native "voice" "handlers"
      [⟨.phase .action, say.declaration, "say", .optional, none⟩])).2
    let step := Step.ofText (.phase .action) (.phase .action)
      "I say '\\ it\\'s\\ \\\"5\\\"\\ \\:a\\<b>\\\\' (twice)" ⟨1, 3⟩ none
    l.Reachable ∧ (l.bind none step).2 = [] ∧ ∃ b, (l.bind none step).1.binding = some b ∧
      b.definition = say ∧
      (b.argument? "what").map (·.value) = some (.text " it's \"5\" :a<b>\\") := by
  intro say l step
  have hl : l.Reachable := .register (.new .standard) (.native _ _ _)
  have honly : l.tree.live = [say] := by decide +kernel
  have hhint : ∀ cs ∈ some "Text".toList, ArgumentType.ofHint? (String.ofList cs) = some .text := by
    decide +kernel
  have hdeclaration : say.declaration = String.ofList (QuoteMark.single.enclose "I say ".toList
      (Item.placeholder "what".toList (some "Text".toList)).source " (twice)".toList) := by
    decide +kernel
  have hstatement : step.statement = .ofText (String.ofList (QuoteMark.single.enclose
      "I say ".toList (escape " it's \"5\" :a<b>\\".toList) " (twice)".toList)) := by
    decide +kernel
  have hbefore : IsPlain "I say ".toList := by decide
  have hafter : IsPlain " (twice)".toList := by decide
  have hname : Item.isName "what".toList = true := by decide
  obtain ⟨-, hbind⟩ := hl.bind_quoted (q := .single) hbefore hafter hname hhint
  have hbound := hbind say honly hdeclaration rfl _ (by decide) (by decide) none step rfl hstatement
  rw [String.ofList_toList, String.ofList_toList] at hbound
  exact ⟨hl, hbound⟩

end Linker

end StepLinker

import StepLinker.Declaration.Pattern
import StepLinker.Proofs.Declaration.Segmented
import StepLinker.Proofs.Statement.Cut
import StepLinker.Proofs.Tree.Exact

/-!
# Instances of a declaration

Writing a value for each placeholder of a declaration gives a statement. The declaration is lexed
piece by piece, between its placeholders, and the statement in one go. If every placeholder stands
between blanks, quote marks and the ends of the declaration, both come to the same tokens: the
places of the values are cuts. So the statement is matched by what the declaration compiles to.
-/

namespace StepLinker

open Text

/-! ## Values for placeholders -/

def Item.filled (value : String → List Char) : Item → List Char
  | placeholder name _ => value (String.ofList name)
  | item => item.literal

def Segment.filled (value : String → List Char) : Segment → List Char
  | literal text => text
  | placeholder name _ => value name

/-- Whether the value may stand for a placeholder with this hint: digits for a number, and letters
and digits for anything else. -/
def Suits (hint : Option ArgumentType) (value : List Char) : Prop :=
  value ≠ [] ∧ ∀ c ∈ value, (if hint.any (·.isNumeric) then c.isDigit else c.isAlphanum) = true

instance (hint : Option ArgumentType) (value : List Char) : Decidable (Suits hint value) :=
  @instDecidableAnd _ _ _ (List.decidableBAll _ value)

/-- Whether the item is literal text or the value suits it. -/
def Item.Admits (value : String → List Char) : Item → Prop
  | placeholder name hint => Suits (hintedType hint) (value (String.ofList name))
  | _ => True

instance (value : String → List Char) : (item : Item) → Decidable (item.Admits value)
  | .placeholder _ _ => inferInstanceAs (Decidable (Suits _ _))
  | .plain _ => isTrue trivial
  | .escape _ => isTrue trivial
  | .doubled _ => isTrue trivial
  | .stray _ => isTrue trivial

def Segment.Admits (value : String → List Char) : Segment → Prop
  | literal _ => True
  | placeholder name type => Suits type (value name)

theorem Segment.flatMap_filled_withLiteral (value : String → List Char) (text : List Char)
    (segs : List Segment) :
    (withLiteral text segs).flatMap (filled value) = text ++ segs.flatMap (filled value) := by
  unfold withLiteral
  split
  · simp [filled]
  · simp [filled]

theorem Item.filled_eq_literal {item : Item} (value : String → List Char)
    (h : item.isPlaceholder = false) : item.filled value = item.literal := by
  cases item with
  | placeholder name hint => cases h
  | _ => rfl

/-- The segments of a declaration read the same as its items. -/
theorem Segmented.flatMap_filled {items : List Item} {segs : List Segment}
    (h : Segmented items segs) (value : String → List Char) :
    segs.flatMap (Segment.filled value) = items.flatMap (Item.filled value) := by
  induction h with
  | nil => rfl
  | literal hitem _ ih =>
    rw [Segment.flatMap_filled_withLiteral, ih, List.flatMap_cons, Item.filled_eq_literal _ hitem]
  | placeholder _ ih =>
    rw [List.flatMap_cons, List.flatMap_cons, ih]
    rfl

theorem Segmented.admits {items : List Item} {segs : List Segment} (h : Segmented items segs)
    {value : String → List Char} (hvalue : ∀ item ∈ items, item.Admits value) :
    ∀ seg ∈ segs, seg.Admits value := by
  induction h with
  | nil => nofun
  | @literal item rest segs hitem _ ih =>
    have hrest := ih (List.forall_mem_cons.1 hvalue).2
    unfold Segment.withLiteral
    split
    · exact List.forall_mem_cons.2 ⟨trivial, (List.forall_mem_cons.1 hrest).2⟩
    · exact List.forall_mem_cons.2 ⟨trivial, hrest⟩
  | placeholder _ ih =>
    obtain ⟨hfirst, hrest⟩ := List.forall_mem_cons.1 hvalue
    exact List.forall_mem_cons.2 ⟨hfirst, ih hrest⟩

section
variable {hint : Option ArgumentType} {value : List Char}

theorem Suits.isAlphanum (h : Suits hint value) : ∀ c ∈ value, c.isAlphanum = true := by
  intro c hc
  have hchar := h.2 c hc
  split at hchar
  · exact Bool.or_eq_true_iff.2 (.inr hchar)
  · exact hchar

theorem Suits.runKind (h : Suits hint value) (hnumeric : hint.any (·.isNumeric) = true) :
    Lexeme.runKind value = .integer := by
  obtain ⟨hne, hdigits⟩ := h
  simp only [hnumeric, if_true] at hdigits
  have hsign : Lexeme.unsigned value = value := by
    unfold Lexeme.unsigned
    split
    · exact absurd (hdigits '+' List.mem_cons_self) (by decide)
    · exact absurd (hdigits '-' List.mem_cons_self) (by decide)
    · rfl
  have hinteger : Lexeme.isInteger value = true := by
    rw [Lexeme.isInteger, hsign, Lexeme.isDigits, Bool.and_eq_true, List.all_eq_true]
    exact ⟨by simpa using hne, hdigits⟩
  rw [Lexeme.runKind, if_pos hinteger]

end

/-! ## Placeholders apart from words -/

/-- Whether each placeholder among the items has nothing on either side, or a blank or a quote mark.
`left` is the character before the items. -/
def Item.spaced (left : Option Char) : List Item → Bool
  | [] => true
  | item :: rest =>
    (!item.isPlaceholder || left.all Lexeme.isBoundary &&
      (rest.flatMap source).head?.all Lexeme.isBoundary) && spaced item.source.getLast? rest

/-- Literal text and placeholders take turns, with a boundary between any two of them. -/
inductive Spaced : List Segment → Prop where
  | nil : Spaced []
  | lastLiteral (text : List Char) : Spaced [.literal text]
  | literal {text : List Char} {c : Char} {name : String} {type : Option ArgumentType}
      {rest : List Segment} (last : text.getLast? = some c)
      (boundary : Lexeme.isBoundary c = true) (noBracket : '<' ∉ text) :
      Spaced (.placeholder name type :: rest) → Spaced (.literal text :: .placeholder name type :: rest)
  | lastPlaceholder (name : String) (type : Option ArgumentType) : Spaced [.placeholder name type]
  | placeholder {text : List Char} {c : Char} {name : String} {type : Option ArgumentType}
      {rest : List Segment} (first : text.head? = some c) (boundary : Lexeme.isBoundary c = true) :
      Spaced (.literal text :: rest) → Spaced (.placeholder name type :: .literal text :: rest)

theorem Spaced.tail {seg : Segment} {rest : List Segment} (h : Spaced (seg :: rest)) :
    Spaced rest := by
  cases h with
  | lastLiteral => exact .nil
  | literal _ _ _ hrest => exact hrest
  | lastPlaceholder => exact .nil
  | placeholder _ _ hrest => exact hrest

theorem Item.eq_plain_of_boundary {item : Item} {c : Char} (h : item.source.head? = some c)
    (hc : Lexeme.isBoundary c = true) : item = .plain c := by
  have hbackslash : Lexeme.isBoundary '\\' = false := by decide +kernel
  have hbrace (b : Brace) : Lexeme.isBoundary b.toChar = false := by cases b <;> decide +kernel
  cases item with
  | plain c' =>
    cases h
    rfl
  | escape e =>
    cases h
    rw [hbackslash] at hc
    cases hc
  | doubled b =>
    cases h
    rw [hbrace] at hc
    cases hc
  | stray b =>
    cases h
    rw [hbrace] at hc
    cases hc
  | placeholder name hint =>
    have hopen : c = Brace.opening.toChar := by
      cases hint <;> exact (Option.some.inj h).symm
    rw [hopen, hbrace] at hc
    cases hc

theorem Item.getLast?_literal {item : Item} (h : item.isPlaceholder = false) :
    item.literal.getLast? = item.source.getLast? := by
  cases item with
  | placeholder name hint => cases h
  | _ => rfl

theorem Item.literal_subset (item : Item) : item.literal ⊆ item.source := by
  cases item <;> simp [literal, source]

theorem Item.spaced_cons {left : Option Char} {item : Item} {rest : List Item} :
    Item.spaced left (item :: rest) = true ↔
      (item.isPlaceholder = true → left.all Lexeme.isBoundary = true ∧
        (rest.flatMap Item.source).head?.all Lexeme.isBoundary = true) ∧
      Item.spaced item.source.getLast? rest = true := by
  rw [Item.spaced]
  cases item.isPlaceholder <;> simp

theorem Segmented.spaced {items : List Item} {segs : List Segment} (h : Segmented items segs)
    {left : Option Char} (hspaced : Item.spaced left items = true)
    (hopen : '<' ∉ items.flatMap Item.source) : Spaced segs := by
  induction h generalizing left with
  | nil => exact .nil
  | @placeholder name hint rest segs hrest ih =>
    obtain ⟨hsides, hspaced⟩ := Item.spaced_cons.1 hspaced
    have hspacedRest := ih hspaced fun hmem => hopen (by simp [hmem])
    rcases rest with _ | ⟨item, rest⟩
    · cases hrest
      exact .lastPlaceholder _ _
    · -- what comes next begins with a boundary, so it is literal text
      obtain ⟨c, tail, hsource⟩ := List.exists_cons_of_ne_nil item.source_ne_nil
      have hboundary : Lexeme.isBoundary c = true := by
        simpa [hsource] using (hsides rfl).2
      obtain rfl := Item.eq_plain_of_boundary (by rw [hsource]; rfl) hboundary
      cases hrest with
      | @literal _ _ segs _ _ =>
        obtain ⟨more, tail, heq⟩ := Segment.withLiteral_eq (Item.plain c).literal segs
        rw [heq] at hspacedRest ⊢
        exact .placeholder rfl hboundary hspacedRest
  | @literal item rest segs hitem hrest ih =>
    obtain ⟨-, hspaced⟩ := Item.spaced_cons.1 hspaced
    have hspacedRest := ih hspaced fun hmem => hopen (by simp [hmem])
    have hitemOpen : '<' ∉ item.literal := fun hmem =>
      hopen (List.mem_append_left _ (item.literal_subset hmem))
    have hlast {name : String} {type : Option ArgumentType} {more : List Segment}
        (hsegs : segs = .placeholder name type :: more) :
        ∃ c, item.literal.getLast? = some c ∧ Lexeme.isBoundary c = true := by
      obtain ⟨chars, hint, rest, rfl⟩ := hrest.eq_placeholder hsegs
      have hleft := ((Item.spaced_cons.1 hspaced).1 rfl).1
      rw [Item.getLast?_literal hitem]
      rw [List.getLast?_eq_some_getLast item.source_ne_nil] at hleft ⊢
      exact ⟨_, rfl, hleft⟩
    cases hspacedRest with
    | nil => exact .lastLiteral _
    | lastLiteral text => exact .lastLiteral _
    | @literal text c name type rest last boundary noBracket hspacedRest =>
      refine .literal (c := c) ?_ boundary ?_ hspacedRest
      · simp [List.getLast?_append, last]
      · simp [hitemOpen, noBracket]
    | lastPlaceholder name type =>
      obtain ⟨c, hlast, hboundary⟩ := hlast rfl
      exact .literal hlast hboundary hitemOpen (.lastPlaceholder name type)
    | placeholder first boundary hspacedRest =>
      obtain ⟨c, hlast, hboundary⟩ := hlast rfl
      exact .literal hlast hboundary hitemOpen (.placeholder first boundary hspacedRest)

/-! ## The tokens of an instance -/

def Readable (parts : List Part) (tokens : List Token) : Prop :=
  ∃ pieces, IsReading parts tokens pieces

theorem readable_nil : Readable [] [] :=
  ⟨[], .nil, rfl⟩

theorem Readable.cons {part : Part} {parts : List Part} {taken tokens : List Token}
    (h : Readable parts tokens) (htakes : part.Takes taken) :
    Readable (part :: parts) (taken ++ tokens) := by
  obtain ⟨pieces, hpieces, rfl⟩ := h
  exact ⟨taken :: pieces, .cons htakes hpieces, rfl⟩

theorem Readable.words {parts : List Part} {tokens : List Token} (h : Readable parts tokens)
    (n : Nat) (ts : List Token) :
    Readable (Pattern.words ts ++ parts) (ts.map (Token.shift n) ++ tokens) := by
  induction ts with
  | nil => exact h
  | cons t ts ih => exact ih.cons (.word (t.shift n))

section
variable {value : String → List Char}

theorem Suits.takes {hint : Option ArgumentType} {text : List Char} (h : Suits hint text)
    (name : String) (start : Nat) :
    (Part.argument ⟨name, hint, none⟩).Takes [⟨start, String.ofList text, Lexeme.runKind text⟩] := by
  cases hnumeric : hint.any (·.isNumeric) with
  | true => exact .number rfl hnumeric (.inl (h.runKind hnumeric))
  | false => exact .free rfl hnumeric (List.cons_ne_nil _ _)

theorem Suits.head?_ne {hint : Option ArgumentType} {text : List Char}
    (h : Suits hint text) (more : List Char) : (text ++ more).head? ≠ some ':' := by
  obtain ⟨c, tail, rfl⟩ := List.exists_cons_of_ne_nil h.1
  have hc := (Lexeme.isWordChar_of_isAlphanum (h.isAlphanum c List.mem_cons_self)).2
  simpa using hc

theorem Spaced.beside {name : String} {type : Option ArgumentType} {rest : List Segment}
    (h : Spaced (.placeholder name type :: rest)) (value : String → List Char) :
    Beside Lexeme.isBoundary [] (rest.flatMap (Segment.filled value)) := by
  cases h with
  | lastPlaceholder => exact .inl rfl
  | @placeholder text c _ _ rest first boundary _ =>
    refine .inr ⟨c, boundary, .inr ?_⟩
    obtain ⟨tail, rfl⟩ := List.head?_eq_some_iff.1 first
    rfl

/-- A value is one token. -/
theorem Spaced.place_placeholder {name : String} {type : Option ArgumentType}
    {rest : List Segment} (h : Spaced (.placeholder name type :: rest))
    (hvalue : Suits type (value name)) (offset : Nat) :
    Token.place offset
        (lexemes true ((Segment.placeholder name type :: rest).flatMap (Segment.filled value))) =
      ⟨offset, String.ofList (value name), Lexeme.runKind (value name)⟩ ::
        Token.place (offset + byteLength (value name))
          (lexemes true (rest.flatMap (Segment.filled value))) := by
  have hbeside := h.beside value
  have hword : ∀ c ∈ value name, Lexeme.isWordChar c = true := fun c hc =>
    (Lexeme.isWordChar_of_isAlphanum (hvalue.isAlphanum c hc)).1
  rw [List.flatMap_cons]
  generalize rest.flatMap (Segment.filled value) = more at hbeside
  have hcut : Cut (value name) more :=
    ⟨hbeside.of_nil _, fun hopen => absurd (hword '<' hopen) (by decide)⟩
  have hlast : (value name).getLast? ≠ some '\\' := fun hlast =>
    absurd (hword '\\' (List.mem_of_getLast? hlast)) (by decide)
  have hhead : more.head? ≠ some ':' := by
    rcases hbeside.head with rfl | ⟨c, tail, hc, rfl⟩
    · nofun
    · simpa using (Lexeme.isBoundary_spec hc).2.2.2.2.1
  have hplace := Token.place_lexemes_append offset hcut (dangling_not_mem true hlast)
  rw [lexemes_run true hvalue.1 hword, lexemes_of_head?_ne true hhead] at hplace
  exact hplace

/-- Literal text has the tokens that it has alone. -/
theorem Spaced.place_literal {text : List Char} {rest : List Segment}
    (h : Spaced (.literal text :: rest))
    (hvalue : ∀ seg ∈ rest, seg.Admits value)
    (offset : Nat) :
    Token.place offset
        (lexemes true ((Segment.literal text :: rest).flatMap (Segment.filled value))) =
      (Token.ofText text).map (Token.shift offset) ++
        Token.place (offset + byteLength text)
          (lexemes true (rest.flatMap (Segment.filled value))) := by
  rw [Token.ofText, ← Token.place_add, Nat.add_zero]
  cases h with
  | lastLiteral => simp [Segment.filled, lexemes, Token.place]
  | @literal _ c name type rest last boundary noBracket =>
    have hcut : Cut text ((Segment.placeholder name type :: rest).flatMap (Segment.filled value)) :=
      ⟨.inr ⟨c, boundary, .inl last⟩, fun hopen => absurd hopen noBracket⟩
    have hlast : text.getLast? ≠ some '\\' := by
      rw [last]
      simpa using (Lexeme.isBoundary_spec boundary).2.2.2.2.2
    have hhead : ((Segment.placeholder name type :: rest).flatMap
        (Segment.filled value)).head? ≠ some ':' :=
      Suits.head?_ne (hvalue _ List.mem_cons_self) _
    have hplace :=
      Token.place_lexemes_append offset hcut (dangling_not_mem true hlast)
    rw [lexemes_of_head?_ne true hhead] at hplace
    exact hplace

/-! ## The reading of an instance -/

theorem openingMark_eq_some {text : List Char} {q : QuoteMark}
    (h : Pattern.openingMark text = some q) :
    ∃ t ts, Token.ofText text = t :: ts ∧ t.kind = .quote q := by
  unfold Pattern.openingMark at h
  split at h
  · next hhead =>
    cases h
    obtain ⟨ts, hts⟩ := List.head?_eq_some_iff.1 hhead
    exact ⟨_, ts, hts, rfl⟩
  · cases h

theorem closingMark_eq_some {text : List Char} {tokens : List Token} {q : QuoteMark}
    (h : Pattern.closingMark text tokens = some q) :
    ∃ t, tokens = tokens.dropLast ++ [t] ∧ t.kind = .quote q := by
  unfold Pattern.closingMark at h
  split at h
  · next hlast =>
    split at h
    · cases h
      exact ⟨_, (List.dropLast_append_getLast? _ hlast).symm, rfl⟩
    · cases h
  · cases h

theorem foldedMark_eq_some {text : List Char} {before : List Token} {segs : List Segment}
    {q : QuoteMark} (h : Pattern.foldedMark text before segs = some q) :
    Pattern.closingMark text before = some q ∧
      ∃ after rest, segs = .literal after :: rest ∧ Pattern.openingMark after = some q := by
  unfold Pattern.foldedMark at h
  split at h
  · next after rest =>
    split at h
    · next q' hclosing =>
      split at h
      · next hopening =>
        cases h
        exact ⟨hclosing, after, rest, rfl, hopening⟩
      · cases h
    · cases h
  · cases h

/-- If the quote mark in front belongs to a placeholder, there is one. -/
def MarkInFront (folded : Bool) (segs : List Segment) : Prop :=
  folded = true → ∃ text rest q, segs = .literal text :: rest ∧ Pattern.openingMark text = some q

theorem markInFront_false (segs : List Segment) : MarkInFront false segs :=
  nofun

theorem MarkInFront.drop_append {α : Type} {folded : Bool} {text : List Char} {rest : List Segment}
    (h : MarkInFront folded (.literal text :: rest)) (f : Token → α) (more : List α) :
    ((Token.ofText text).map f ++ more).drop (if folded then 1 else 0) =
      ((Token.ofText text).drop (if folded then 1 else 0)).map f ++ more := by
  cases folded with
  | false => rfl
  | true =>
    obtain ⟨_, _, q, heq, hopening⟩ := h rfl
    cases heq
    obtain ⟨t, ts, hts, -⟩ := openingMark_eq_some hopening
    rw [hts]
    rfl

/-- What segments compile to has a reading of their text with the values in it. -/
theorem Spaced.readable {folded : Bool} {segs : List Segment} (h : Spaced segs)
    (hvalue : ∀ seg ∈ segs, seg.Admits value)
    (hfolded : MarkInFront folded segs) (offset : Nat) :
    Readable (Pattern.assemble folded segs)
      ((Token.place offset (lexemes true (segs.flatMap (Segment.filled value)))).drop
        (if folded then 1 else 0)) := by
  fun_induction Pattern.assemble folded segs generalizing offset with
  | case1 folded =>
    rw [List.flatMap_nil, lexemes, Token.place, List.drop_nil]
    exact readable_nil
  | case2 folded name hint rest ih =>
    have hmark : folded = false := by
      by_contra hmark
      obtain ⟨_, _, _, heq, -⟩ := hfolded (eq_true_of_ne_false hmark)
      cases heq
    obtain ⟨hsuits, hrest⟩ := List.forall_mem_cons.1 hvalue
    rw [hmark, h.place_placeholder hsuits]
    exact (ih h.tail hrest (markInFront_false _) _).cons (Suits.takes hsuits name offset)
  | case3 folded text tokens name hint rest q hmark ih =>
    obtain ⟨-, hvalue⟩ := List.forall_mem_cons.1 hvalue
    obtain ⟨hsuits, hrest⟩ := List.forall_mem_cons.1 hvalue
    obtain ⟨hclosing, after, more, rfl, hopening⟩ := foldedMark_eq_some hmark
    obtain ⟨first, hfirst, hopens⟩ := closingMark_eq_some hclosing
    obtain ⟨last, ts, hlast, hcloses⟩ := openingMark_eq_some hopening
    -- the mark on the left ends the words, and the mark on the right begins what follows the value
    have hleft : tokens.map (Token.shift offset) =
        tokens.dropLast.map (Token.shift offset) ++ [first.shift offset] := by
      conv_lhs => rw [hfirst, List.map_append]
      rfl
    have hright := h.tail.tail.place_literal (List.forall_mem_cons.1 hrest).2
      (offset + byteLength text + byteLength (value name))
    rw [hlast] at hright
    have ih := ih h.tail.tail hrest (fun _ => ⟨after, more, q, rfl, hopening⟩)
      (offset + byteLength text + byteLength (value name))
    rw [hright] at ih
    rw [h.place_literal hvalue, hfolded.drop_append, h.tail.place_placeholder hsuits, hright]
    have htakes : (Part.argument ⟨name, hint, some q⟩).Takes
        (first.shift offset ::
          [⟨offset + byteLength text, String.ofList (value name), Lexeme.runKind (value name)⟩] ++
            [last.shift (offset + byteLength text + byteLength (value name))]) :=
      .quoted rfl hopens (by simpa using Lexeme.runKind_ne_quote _ q) hcloses
    show Readable _ (tokens.map (Token.shift offset) ++ _)
    rw [hleft, List.append_assoc]
    exact (ih.cons htakes).words offset tokens.dropLast
  | case4 folded text tokens name hint rest hmark ih =>
    obtain ⟨-, hvalue⟩ := List.forall_mem_cons.1 hvalue
    obtain ⟨hsuits, hrest⟩ := List.forall_mem_cons.1 hvalue
    rw [h.place_literal hvalue, hfolded.drop_append, h.tail.place_placeholder hsuits]
    exact ((ih h.tail.tail hrest (markInFront_false _) _).cons (Suits.takes hsuits name _)).words offset tokens
  | case5 folded text tokens rest hother ih =>
    obtain ⟨-, hrest⟩ := List.forall_mem_cons.1 hvalue
    rw [h.place_literal hrest, hfolded.drop_append]
    exact (ih h.tail hrest (markInFront_false _) _).words offset tokens

end

namespace MatchingTree

/-- A definition is matched by what its parts have a reading of. -/
theorem WellFormed.exists_match_of_readable {t : MatchingTree} (h : t.WellFormed) {k : SlotKey}
    {d : Definition} (hd : t.get? k = some d) {phase : Phase} {p : Pattern}
    (hplace : d.place? = some (phase, p)) {statement : Statement}
    (hread : Readable p.parts statement.tokens.toList) (allowPartial : Bool) :
    ∃ m ∈ t.exactMatches (.phase phase) statement allowPartial, m.key = k ∧ m.definition = d := by
  have hsome := (Definition.isSome_match? hplace k statement.tokens).2 hread
  obtain ⟨m, hm⟩ := Option.isSome_iff_exists.1 hsome
  exact ⟨m, h.mem_exactMatches.2 ⟨k, d, hd, (Definition.place?_eq_some.1 hplace).1, hm⟩,
    Definition.key_of_match? hm, Definition.definition_of_match? hm⟩

/-- A definition is matched by every instance of its declaration, if there are no angle brackets in
the declaration and its placeholders are spaced. -/
theorem Reachable.instance_matches {t : MatchingTree} (ht : t.Reachable) {k : SlotKey}
    {d : Definition} (hd : t.get? k = some d) {phase : Phase} (htype : d.type = .phase phase)
    (hopen : '<' ∉ d.declaration.toList) :
    ∃ declared, items 0 d.declaration.toList = .ok declared ∧
      (Item.spaced none declared = true → ∀ value : String → List Char,
        (∀ item ∈ declared, item.Admits value) → ∀ allowPartial,
          ∃ m ∈ t.search (.phase phase)
              (.ofText (String.ofList (declared.flatMap (Item.filled value)))) allowPartial,
            m.exact = true ∧ m.key = k ∧ m.definition = d) := by
  have h := ht.wellFormed
  obtain ⟨e, he, rfl⟩ := get?_eq_some.1 hd
  obtain ⟨phase', p, hplace, -⟩ := h.exists_place? he
  obtain ⟨htype', hp⟩ := Definition.place?_eq_some.1 hplace
  obtain rfl : phase = phase' := StepType.phase.inj (htype.symm.trans htype')
  obtain ⟨declared, segs, hitems, hsegs, hparts⟩ :=
    Pattern.ofDeclaration_eq_ok ((h.compiled he).symm.trans hp)
  refine ⟨declared, hitems, fun hspaced value hvalue allowPartial => ?_⟩
  have hsegmented := segmented_of_segments hsegs
  rw [← flatMap_source_items hitems] at hopen
  have hread : Readable (Pattern.assemble false segs)
      (Token.place 0 (lexemes true (segs.flatMap (Segment.filled value)))) :=
    (hsegmented.spaced hspaced hopen).readable (hsegmented.admits hvalue) (markInFront_false segs) 0
  rw [← hparts, hsegmented.flatMap_filled] at hread
  have htokens : (Statement.ofText (String.ofList
      (declared.flatMap (Item.filled value)))).tokens.toList =
        Token.place 0 (lexemes true (declared.flatMap (Item.filled value))) := by
    show Token.ofText (String.ofList _).toList = _
    rw [String.toList_ofList]
    rfl
  rw [← htokens] at hread
  obtain ⟨m, hm, hkey, hdefinition⟩ := h.exists_match_of_readable hd hplace hread allowPartial
  obtain ⟨hm, hexact⟩ := List.mem_filter.1 hm
  exact ⟨m, hm, hexact, hkey, hdefinition⟩

/-- Doubled braces, a quoted name and a number. -/
theorem instance_matches_pay :
    let pay : Definition :=
      ⟨"shop", .phase .action, "I {{pay}} '{who}' {n:int} coins", .optional,
        .native "pay" none, none⟩
    let t := empty.run (.addOrUpdate pay)
    t.Reachable ∧ t.get? ⟨0, 0⟩ = some pay ∧
      ∃ m ∈ t.search (.phase .action) (.ofText "I {pay} 'Ann1' 12 coins") true,
        m.exact = true ∧ m.key = ⟨0, 0⟩ ∧ m.definition = pay := by
  intro pay t
  have ht : t.Reachable := .step _ .empty rfl
  have hd : t.get? ⟨0, 0⟩ = some pay := by decide +kernel
  obtain ⟨declared, hdeclared, hmatch⟩ := ht.instance_matches hd rfl (by decide +kernel)
  obtain rfl : (items 0 pay.declaration.toList).toOption.getD [] = declared := by
    rw [hdeclared]
    rfl
  let value (name : String) : List Char := if name = "n" then ['1', '2'] else ['A', 'n', 'n', '1']
  have htext : String.ofList (((items 0 pay.declaration.toList).toOption.getD []).flatMap
      (Item.filled value)) = "I {pay} 'Ann1' 12 coins" := by
    decide +kernel
  rw [← htext]
  exact ⟨ht, hd, hmatch (by decide +kernel) value (by decide +kernel) true⟩

end MatchingTree

end StepLinker

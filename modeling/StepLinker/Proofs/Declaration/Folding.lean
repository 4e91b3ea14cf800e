import StepLinker.Proofs.Declaration.Grammar
import StepLinker.Proofs.Declaration.Instance
import StepLinker.Proofs.Statement.Pairing

/-!
# Folded quote marks

A placeholder takes in the quote marks around it if both are there and are the same, and each mark
is taken in once. The compiler works on segments and looks at tokens. Here the same is said of the
items, which are read one by one: a mark is free unless a backslash protects it or the placeholder
in front has taken it (`Item.folded`). The marks are not lost either: with each of them put back in
its place the parts are the tokens of the literal texts and the placeholders, in order
(`ofDeclaration_folds`).
-/

namespace StepLinker

open Text

/-! ## Literal text between placeholders -/

namespace Item

def mark? : Item → Option QuoteMark
  | plain c => QuoteMark.ofChar? c
  | _ => none

theorem mark?_eq_some {item : Item} {q : QuoteMark} :
    item.mark? = some q ↔ item = .plain q.toChar := by
  cases item with
  | plain c => simp [mark?, Lexeme.ofChar?_eq_some]
  | _ => simp [mark?]

theorem literal_ne_nil {item : Item} (h : item.isPlaceholder = false) : item.literal ≠ [] := by
  cases item with
  | placeholder name hint => cases h
  | _ => simp [literal]

section
variable {item : Item} {run declared : List Item} {rest : List Char} {q : QuoteMark}

theorem Stands.paired (h : Stands item rest) (hrest : rest ≠ []) : Paired item.literal := by
  cases h with
  | escape c => exact .escaped c .nil
  | lastEscape => exact absurd rfl hrest
  | doubled b => exact .plain (by cases b <;> decide) .nil
  | placeholder => exact .nil
  | opening => exact .plain (by decide) .nil
  | closing => exact .plain (by decide) .nil
  | plain ordinary => exact .plain ordinary.1 .nil

/-- Only at its end can a declaration have a backslash that protects nothing. -/
theorem Reading.paired (h : Reading run rest) (hrest : rest ≠ []) :
    Paired (run.flatMap literal) := by
  induction h with
  | nil => exact .nil
  | cons stands behind ih =>
    exact (paired_append_iff (stands.paired (by simp [hrest]))).2 (ih hrest)

theorem reading_append {more : List Item} : Reading (run ++ more) rest ↔
    Reading run (more.flatMap source ++ rest) ∧ Reading more rest := by
  constructor
  · intro h
    induction run with
    | nil => exact ⟨.nil _, h⟩
    | cons item run ih =>
      cases h with
      | cons stands behind =>
        obtain ⟨hrun, hmore⟩ := ih behind
        refine ⟨.cons ?_ hrun, hmore⟩
        rwa [← List.append_assoc, ← List.flatMap_append]
  · rintro ⟨hrun, hmore⟩
    induction run with
    | nil => exact hmore
    | cons item run ih =>
      cases hrun with
      | cons stands behind =>
        rw [List.cons_append]
        refine .cons ?_ (ih behind)
        rwa [List.flatMap_append, List.append_assoc]

end

end Item

section
variable {declared : List Item} {segs : List Segment} {text : List Char} {seg : Segment}

theorem Segmented.placeholder_inv {name : String} {type : Option ArgumentType}
    (h : Segmented declared (.placeholder name type :: segs)) :
    ∃ chars hint rest, declared = .placeholder chars hint :: rest ∧ name = String.ofList chars ∧
      type = Item.hintedType hint ∧ Segmented rest segs := by
  obtain ⟨chars, hint, rest, rfl⟩ := h.eq_placeholder rfl
  generalize heq : Segment.placeholder name type :: segs = all at h
  cases h with
  | literal hitem => cases hitem
  | placeholder hrest =>
    cases heq
    exact ⟨chars, hint, rest, rfl, rfl, rfl, hrest⟩

theorem Segmented.literal_inv (h : Segmented declared (.literal text :: segs)) :
    ∃ run rest, declared = run ++ rest ∧ run ≠ [] ∧ (∀ item ∈ run, item.isPlaceholder = false) ∧
      text = run.flatMap Item.literal ∧ Segmented rest segs ∧
      ∀ more tail, segs ≠ .literal more :: tail := by
  generalize heq : Segment.literal text :: segs = all at h
  induction h generalizing text with
  | nil => cases heq
  | placeholder => cases heq
  | @literal item rest segs' hitem hrest ih =>
    rcases segs' with _ | ⟨seg, segs'⟩
    · cases heq
      exact ⟨[item], rest, rfl, List.cons_ne_nil _ _, by simpa using hitem, by simp, hrest, nofun⟩
    cases seg with
    | placeholder name type =>
      cases heq
      exact ⟨[item], rest, rfl, List.cons_ne_nil _ _, by simpa using hitem, by simp, hrest, nofun⟩
    | literal more =>
      cases heq
      obtain ⟨run, rest, rfl, -, hrun, rfl, hrest, hnext⟩ := ih rfl
      exact ⟨item :: run, rest, rfl, List.cons_ne_nil _ _, List.forall_mem_cons.2 ⟨hitem, hrun⟩,
        rfl, hrest, hnext⟩

end

/-! ## The marks beside a placeholder -/

namespace Item

section
variable {run : List Item} {rest : List Char} {q : QuoteMark}

theorem head?_literal {item : Item} {c : Char} (hitem : item.isPlaceholder = false)
    (h : item.literal.head? = some c) : item.source.head? = some c := by
  cases item with
  | placeholder name hint => cases hitem
  | _ => exact h

theorem head?_literal_iff (hrun : ∀ item ∈ run, item.isPlaceholder = false) :
    (run.flatMap literal).head? = some q.toChar ↔ run.head?.bind mark? = some q := by
  rcases run with _ | ⟨item, run⟩
  · simp
  have hitem := hrun item List.mem_cons_self
  obtain ⟨c, cs, hliteral⟩ := List.exists_cons_of_ne_nil (literal_ne_nil hitem)
  rw [List.head?_cons, Option.bind_some, mark?_eq_some, List.flatMap_cons, hliteral,
    List.cons_append, List.head?_cons, Option.some_inj]
  constructor
  · rintro rfl
    refine eq_plain_of_boundary (head?_literal hitem (by rw [hliteral]; rfl)) ?_
    exact Lexeme.isBoundary_of_isQuoteMark (Lexeme.isQuoteMark_iff.2 ⟨q, rfl⟩)
  · rintro rfl
    exact (List.cons.inj hliteral).1.symm

theorem exists_front_iff (hrun : ∀ item ∈ run, item.isPlaceholder = false)
    (hreading : Reading run rest) (hrest : rest ≠ []) :
    (∃ front, run.flatMap literal = front ++ [q.toChar] ∧ Paired front) ↔
      run.getLast?.bind mark? = some q := by
  rcases List.eq_nil_or_concat run with rfl | ⟨run, item, rfl⟩
  · simp
  rw [List.concat_eq_append] at hrun hreading ⊢
  have hpaired : Paired (run.flatMap literal) := by
    refine (reading_append.1 hreading).1.paired ?_
    simp [hrest]
  rw [List.getLast?_concat, Option.bind_some, mark?_eq_some, List.flatMap_append,
    List.flatMap_singleton]
  constructor
  · rintro ⟨front, htext, hfront⟩
    have hlast {c : Char} (hliteral : item.literal = [c]) :
        c = q.toChar := by
      rw [hliteral] at htext
      exact List.singleton_inj.1 (List.append_inj' htext rfl).2
    cases item with
    | plain c => rw [hlast rfl]
    | escape c =>
      exfalso
      cases c with
      | none => exact absurd (hlast rfl) (by cases q <;> decide)
      | some c =>
        -- the backslash would be left without the character it protects
        have hsplit : run.flatMap literal ++ ['\\'] ++ [c] = front ++ [q.toChar] := by
          rw [← htext, List.append_assoc]
          rfl
        rw [← (List.append_inj' hsplit rfl).1, paired_append_iff hpaired] at hfront
        exact not_paired_backslash hfront
    | doubled b => exact absurd (hlast rfl) (by cases b <;> cases q <;> decide)
    | stray b => exact absurd (hlast rfl) (by cases b <;> cases q <;> decide)
    | placeholder name hint => cases hrun _ (List.mem_append_right _ List.mem_cons_self)
  · rintro rfl
    exact ⟨_, rfl, hpaired⟩

end

end Item

namespace Pattern

section
variable {text : List Char} {tokens : List Token} {q : QuoteMark}

theorem openingMark_eq_some_iff : openingMark text = some q ↔ text.head? = some q.toChar := by
  constructor
  · intro h
    unfold openingMark at h
    split at h
    · next mark q' hhead =>
      cases h
      have hmem := List.mem_of_head? hhead
      have hmark := Token.text_of_kind_quote hmem rfl
      obtain ⟨before, after, hlexemes, hstart⟩ := Token.exists_split_of_mem_place hmem
      have htext := flatMap_chars_lexemes true text
      rw [hlexemes, hmark, List.flatMap_append] at htext
      have hnil : before.flatMap Lexeme.chars = [] :=
        byteLength_eq_zero.1 (by simpa using hstart.symm)
      rw [← htext, hnil]
      rfl
    · cases h
  · intro h
    obtain ⟨rest, rfl⟩ := List.head?_eq_some_iff.1 h
    rw [openingMark, Token.ofText, lexemes_quote]
    rfl

theorem closingMark_eq_some_iff : closingMark text tokens = some q ↔
    ∃ t, tokens.getLast? = some t ∧ t.kind = .quote q ∧ t.stop = byteLength text := by
  rw [closingMark]
  cases tokens.getLast? with
  | none => simp
  | some t =>
    obtain ⟨start, mark, kind⟩ := t
    cases kind with
    | quote q' => simp [Token.stop, Token.length, and_comm]
    | _ => simp

theorem closingMark_shift_eq_some_iff (front : List Char) :
    closingMark (front ++ text) ((Token.ofText text).map (Token.shift (byteLength front))) =
        some q ↔ ∃ before, text = before ++ [q.toChar] ∧ Paired before := by
  rw [closingMark_eq_some_iff, ← Token.getLast?_quote_iff, byteLength_append]
  simp only [List.getLast?_map, Option.map_eq_some_iff]
  constructor
  · rintro ⟨_, ⟨t, hlast, rfl⟩, hkind, hstop⟩
    refine ⟨t, hlast, hkind, ?_⟩
    simp only [Token.stop, Token.shift, Token.length] at hstop ⊢
    omega
  · rintro ⟨t, hlast, hkind, hstop⟩
    refine ⟨_, ⟨t, hlast, rfl⟩, hkind, ?_⟩
    simp only [Token.stop, Token.shift, Token.length] at hstop ⊢
    omega

end

theorem closingMark_run {folded : Bool} {run : List Item} {rest : List Char}
    (hrun : ∀ item ∈ run, item.isPlaceholder = false) (hreading : Item.Reading run rest)
    (hrest : rest ≠ []) (hfolded : folded = true → ∃ q, run.head?.bind Item.mark? = some q) :
    closingMark (run.flatMap Item.literal)
        ((Token.ofText (run.flatMap Item.literal)).drop (if folded then 1 else 0)) =
      (run.drop (if folded then 1 else 0)).getLast?.bind Item.mark? := by
  obtain ⟨front, later, rfl, hdrop, htokens⟩ : ∃ front later, run = front ++ later ∧
      run.drop (if folded then 1 else 0) = later ∧
      (Token.ofText (run.flatMap Item.literal)).drop (if folded then 1 else 0) =
        (Token.ofText (later.flatMap Item.literal)).map
          (Token.shift (byteLength (front.flatMap Item.literal))) := by
    cases folded with
    | false => exact ⟨[], run, rfl, rfl, (Token.map_shift_zero _).symm⟩
    | true =>
      obtain ⟨q, hmark⟩ := hfolded rfl
      obtain ⟨item, hhead, hitem⟩ := Option.bind_eq_some_iff.1 hmark
      rw [Item.mark?_eq_some] at hitem
      subst hitem
      obtain ⟨later, rfl⟩ := List.head?_eq_some_iff.1 hhead
      refine ⟨[.plain q.toChar], later, rfl, rfl, ?_⟩
      show (Token.ofText (q.toChar :: later.flatMap Item.literal)).drop 1 = _
      rw [Token.ofText, lexemes_quote, Token.place, Nat.zero_add, Token.ofText, ← Token.place_add,
        Nat.add_zero]
      rfl
  rw [hdrop, htokens, List.flatMap_append]
  ext q
  rw [closingMark_shift_eq_some_iff]
  exact Item.exists_front_iff (fun item hitem => hrun item (List.mem_append_right _ hitem))
    (Item.reading_append.1 hreading).2 hrest

end Pattern

/-! ## Folding item by item -/

namespace Item

/-- The mark that a placeholder takes in, if `mark` is free in front of it and `rest` follows. -/
def taken? (mark : Option QuoteMark) (rest : List Item) : Option QuoteMark :=
  if rest.head?.bind mark? = mark then mark else none

theorem taken?_eq_some {mark : Option QuoteMark} {rest : List Item} {q : QuoteMark} :
    taken? mark rest = some q ↔ mark = some q ∧ rest.head?.bind mark? = some q := by
  unfold taken?
  split
  · next h => simp [h]
  · next h => exact iff_of_false nofun fun ⟨hmark, hhead⟩ => h (hhead.trans hmark.symm)

@[simp] theorem taken?_none (rest : List Item) : taken? none rest = none := by
  simp [taken?]

/-- The placeholders among the items, with the marks they take in. `mark` is the quote mark in front
of the items that is free, and `taken` says whether the placeholder in front has taken the first of
them. -/
def folded (taken : Bool) (mark : Option QuoteMark) : List Item → List Placeholder
  | [] => []
  | .placeholder name hint :: rest =>
    ⟨String.ofList name, hintedType hint, taken? mark rest⟩ ::
      folded (taken? mark rest).isSome none rest
  | item :: rest => folded false (if taken then none else item.mark?) rest

theorem folded_cons {item : Item} (h : item.isPlaceholder = false) (taken : Bool)
    (mark : Option QuoteMark) (rest : List Item) :
    folded taken mark (item :: rest) = folded false (if taken then none else item.mark?) rest := by
  cases item with
  | placeholder name hint => cases h
  | _ => rfl

/-- Of literal text it matters which mark it ends in. -/
theorem folded_run {run : List Item} (hne : run ≠ [])
    (hrun : ∀ item ∈ run, item.isPlaceholder = false) (taken : Bool) (mark : Option QuoteMark)
    (rest : List Item) :
    folded taken mark (run ++ rest) =
      folded false ((run.drop (if taken then 1 else 0)).getLast?.bind mark?) rest := by
  induction run generalizing taken mark with
  | nil => exact absurd rfl hne
  | cons item run ih =>
    obtain ⟨hitem, hrun⟩ := List.forall_mem_cons.1 hrun
    rw [List.cons_append, folded_cons hitem]
    by_cases hnil : run = []
    · subst hnil
      cases taken <;> rfl
    · rw [ih hnil hrun]
      obtain ⟨next, run, rfl⟩ := List.exists_cons_of_ne_nil hnil
      cases taken <;> simp

end Item

section
variable {declared : List Item} {segs : List Segment}

theorem Segmented.eq_nil (h : Segmented declared []) : declared = [] := by
  generalize hsegs : ([] : List Segment) = segs at h
  cases h with
  | nil => rfl
  | @literal item rest segs hitem hrest =>
    obtain ⟨more, tail, heq⟩ := Segment.withLiteral_eq item.literal segs
    rw [heq] at hsegs
    cases hsegs
  | placeholder => cases hsegs

theorem Segmented.head_mark_iff (h : Segmented declared segs) {q : QuoteMark} :
    declared.head?.bind Item.mark? = some q ↔
      ∃ text rest, segs = .literal text :: rest ∧ Pattern.openingMark text = some q := by
  rcases segs with _ | ⟨seg, segs⟩
  · simp [h.eq_nil]
  cases seg with
  | placeholder name type =>
    obtain ⟨chars, hint, rest, rfl, -⟩ := h.placeholder_inv
    simp [Item.mark?]
  | literal text =>
    obtain ⟨run, rest, rfl, hne, hrun, rfl, -⟩ := h.literal_inv
    obtain ⟨item, run, rfl⟩ := List.exists_cons_of_ne_nil hne
    rw [List.cons_append, List.head?_cons, ← List.head?_cons (l := run),
      ← Item.head?_literal_iff hrun, ← Pattern.openingMark_eq_some_iff]
    simp

theorem Segmented.foldedMark (h : Segmented declared segs) (text : List Char)
    (before : List Token) :
    Pattern.foldedMark text before segs =
      Item.taken? (Pattern.closingMark text before) declared := by
  ext q
  rw [Item.taken?_eq_some, h.head_mark_iff]
  constructor
  · exact foldedMark_eq_some
  · rintro ⟨hclosing, after, rest, rfl, hopening⟩
    simp [Pattern.foldedMark, hclosing, hopening]

theorem filterMap_words (tokens : List Token) (parts : List Part) :
    (Pattern.words tokens ++ parts).filterMap Part.placeholder? =
      parts.filterMap Part.placeholder? := by
  simp [Pattern.words, Part.placeholder?]

/-- A literal text and a placeholder behind it, which finds the mark that is left of the text. -/
theorem Segmented.folded_literal {folded : Bool} {text : List Char} {name : String}
    {type : Option ArgumentType}
    (h : Segmented declared (.literal text :: .placeholder name type :: segs))
    (hreading : Item.Reading declared [])
    (hfolded : MarkInFront folded (.literal text :: .placeholder name type :: segs)) :
    ∃ behind quote, Segmented behind segs ∧ Item.Reading behind [] ∧
      quote = Pattern.foldedMark text ((Token.ofText text).drop (if folded then 1 else 0)) segs ∧
      Item.folded folded none declared =
        ⟨name, type, quote⟩ :: Item.folded quote.isSome none behind := by
  have hmark (hfront : folded = true) : ∃ q, declared.head?.bind Item.mark? = some q := by
    obtain ⟨text, rest, q, hsegs⟩ := hfolded hfront
    exact ⟨q, h.head_mark_iff.2 ⟨text, rest, hsegs⟩⟩
  obtain ⟨run, rest, rfl, hne, hrun, rfl, hrest, -⟩ := h.literal_inv
  obtain ⟨chars, hint, behind, rfl, rfl, rfl, hbehind⟩ := hrest.placeholder_inv
  obtain ⟨hreadingRun, hreadingRest⟩ := Item.reading_append.1 hreading
  have hhead : (run ++ Item.placeholder chars hint :: behind).head? = run.head? :=
    List.head?_append_of_ne_nil _ hne
  rw [hhead] at hmark
  have hclosing := Pattern.closingMark_run hrun hreadingRun
    (by simp [Item.source_ne_nil]) hmark
  refine ⟨behind, _, hbehind, ?_, rfl, ?_⟩
  · cases hreadingRest with
    | cons _ behind => exact behind
  · rw [Item.folded_run hne hrun, ← hclosing, hbehind.foldedMark]
    rfl

/-- The placeholders of a pattern are the placeholders among the items, with the marks they take
in. -/
theorem Segmented.placeholders_assemble (declared : List Item) {folded : Bool}
    (h : Segmented declared segs) (hreading : Item.Reading declared [])
    (hfolded : MarkInFront folded segs) :
    (Pattern.assemble folded segs).filterMap Part.placeholder? =
      Item.folded folded none declared := by
  fun_induction Pattern.assemble folded segs generalizing declared with
  | case1 folded =>
    rw [h.eq_nil]
    rfl
  | case2 folded name type segs ih =>
    have hmark : folded = false := by
      by_contra hmark
      obtain ⟨_, _, _, heq, -⟩ := hfolded (eq_true_of_ne_false hmark)
      cases heq
    obtain ⟨chars, hint, rest, rfl, rfl, rfl, hrest⟩ := h.placeholder_inv
    cases hreading with
    | cons _ behind =>
      show _ :: (Pattern.assemble false segs).filterMap Part.placeholder? = _
      rw [ih _ hrest behind (markInFront_false _), hmark, Item.folded, Item.taken?_none]
      rfl
  | case3 folded text tokens name type segs q hmark ih =>
    obtain ⟨behind, quote, hbehind, hreading, hquote, hitems⟩ := h.folded_literal hreading hfolded
    obtain rfl : quote = some q := hquote.trans hmark
    obtain ⟨-, after, rest, hsegs, hopening⟩ := foldedMark_eq_some hmark
    rw [filterMap_words, hitems, Option.isSome_some,
      ← ih _ hbehind hreading fun _ => ⟨after, rest, q, hsegs, hopening⟩]
    rfl
  | case4 folded text tokens name type segs hmark ih =>
    obtain ⟨behind, quote, hbehind, hreading, hquote, hitems⟩ := h.folded_literal hreading hfolded
    obtain rfl : quote = none := hquote.trans hmark
    rw [filterMap_words, hitems, Option.isSome_none, ← ih _ hbehind hreading (markInFront_false _)]
    rfl
  | case5 folded text tokens segs hother ih =>
    obtain ⟨run, rest, rfl, hne, hrun, -, hrest, hnext⟩ := h.literal_inv
    -- behind the text there is neither a placeholder nor more text
    obtain rfl : segs = [] := by
      rcases segs with _ | ⟨seg, segs⟩
      · rfl
      cases seg with
      | literal more => exact absurd rfl (hnext more segs)
      | placeholder name type => exact (hother name type segs rfl).elim
    rw [filterMap_words, hrest.eq_nil, Item.folded_run hne hrun]
    rfl

end

/-! ## Which marks are taken in -/

namespace Item

/-- The last of the items is the mark `q`, and the placeholder in front of it has taken it in. The
placeholders of the items are `placeholders`. -/
def IsSpent (placeholders : List Placeholder) (items : List Item) (q : QuoteMark) : Prop :=
  ∃ earlier name hint p, items = earlier ++ [.placeholder name hint, .plain q.toChar] ∧
    placeholders[earlier.countP isPlaceholder]? = some p ∧ p.quote = some q

section
variable {placeholders : List Placeholder} {p : Placeholder} {item : Item} {items : List Item}
  {q : QuoteMark} {name : List Char} {hint : Option (List Char)}

@[simp] theorem not_isSpent_nil : ¬ IsSpent placeholders [] q := by
  rintro ⟨earlier, _, _, _, heq, -⟩
  simp at heq

theorem isSpent_cons_literal (hitem : item.isPlaceholder = false) :
    IsSpent placeholders (item :: items) q ↔ IsSpent placeholders items q := by
  constructor
  · rintro ⟨earlier, name, hint, p, heq, hp⟩
    rcases earlier with _ | ⟨first, earlier⟩
    · cases heq
      cases hitem
    · obtain ⟨rfl, rfl⟩ := List.cons.inj heq
      rw [List.countP_cons_of_neg (by simp [hitem])] at hp
      exact ⟨earlier, name, hint, p, rfl, hp⟩
  · rintro ⟨earlier, name, hint, p, rfl, hp⟩
    refine ⟨item :: earlier, name, hint, p, rfl, ?_⟩
    rwa [List.countP_cons_of_neg (by simp [hitem])]

theorem isSpent_cons_placeholder :
    IsSpent (p :: placeholders) (.placeholder name hint :: items) q ↔
      (items = [.plain q.toChar] ∧ p.quote = some q) ∨ IsSpent placeholders items q := by
  have hcount (earlier : List Item) :
      (p :: placeholders)[(placeholder name hint :: earlier).countP isPlaceholder]? =
        placeholders[earlier.countP isPlaceholder]? := by
    rw [List.countP_cons_of_pos rfl, List.getElem?_cons_succ]
  constructor
  · rintro ⟨earlier, name', hint', p', heq, hp, hquote⟩
    rcases earlier with _ | ⟨first, earlier⟩
    · cases heq
      cases hp
      exact .inl ⟨rfl, hquote⟩
    · obtain ⟨rfl, rfl⟩ := List.cons.inj heq
      rw [hcount] at hp
      exact .inr ⟨earlier, name', hint', p', rfl, hp, hquote⟩
  · rintro (⟨rfl, hquote⟩ | ⟨earlier, name', hint', p', rfl, hp, hquote⟩)
    · exact ⟨[], name, hint, p, rfl, rfl, hquote⟩
    · exact ⟨.placeholder name hint :: earlier, name', hint', p', rfl, (hcount earlier).trans hp,
        hquote⟩

theorem bind_mark?_eq_some {item? : Option Item} :
    item?.bind mark? = some q ↔ item? = some (.plain q.toChar) := by
  cases item? <;> simp [mark?_eq_some]

/-- A placeholder takes in a mark if the same stands on either side of it and the one in front is
free: at the front of the items as `taken` and `mark` tell, and behind others if it is not spent. -/
theorem getElem?_folded (taken : Bool) (mark : Option QuoteMark) (before : List Item)
    (name : List Char) (hint : Option (List Char)) (after : List Item) :
    ∃ quote, (folded taken mark (before ++ .placeholder name hint :: after))[
        before.countP isPlaceholder]? = some ⟨String.ofList name, hintedType hint, quote⟩ ∧
      ∀ q, quote = some q ↔ after.head? = some (.plain q.toChar) ∧
        ((before = [] ∧ mark = some q) ∨ (before.getLast? = some (.plain q.toChar) ∧
          ¬ (taken = true ∧ before = [.plain q.toChar]) ∧
          ¬ IsSpent (folded taken mark (before ++ .placeholder name hint :: after)) before q)) := by
  induction before generalizing taken mark with
  | nil =>
    refine ⟨taken? mark after, rfl, fun q => ?_⟩
    rw [taken?_eq_some, bind_mark?_eq_some]
    simp [and_comm]
  | cons item before ih =>
    cases hitem : item.isPlaceholder with
    | false =>
      rw [List.cons_append, folded_cons hitem, List.countP_cons_of_neg (by simp [hitem])]
      obtain ⟨quote, hquote, hiff⟩ := ih false (if taken then none else item.mark?)
      refine ⟨quote, hquote, fun q => ?_⟩
      rw [hiff, isSpent_cons_literal hitem]
      rcases before with _ | ⟨next, before⟩
      · cases taken <;> simp [mark?_eq_some]
      · simp
    | true =>
      obtain ⟨name', hint', rfl⟩ : ∃ name' hint', item = .placeholder name' hint' := by
        cases item with
        | placeholder name' hint' => exact ⟨name', hint', rfl⟩
        | _ => cases hitem
      obtain ⟨quote, hquote, hiff⟩ :=
        ih (taken? mark (before ++ .placeholder name hint :: after)).isSome none
      refine ⟨quote, ?_, fun q => ?_⟩
      · rw [List.countP_cons_of_pos rfl]
        exact hquote
      -- what is taken of a single mark is that mark
      have htake (hbefore : before = [.plain q.toChar]) :
          (taken? mark (before ++ .placeholder name hint :: after)).isSome = true ↔
            taken? mark (before ++ .placeholder name hint :: after) = some q := by
        refine ⟨fun hsome => ?_, fun h => by rw [h, Option.isSome_some]⟩
        obtain ⟨q', hq'⟩ := Option.isSome_iff_exists.1 hsome
        have hmark := (taken?_eq_some.1 hq').2
        rw [hbefore, List.cons_append, List.head?_cons, Option.bind_some,
          mark?_eq_some.2 rfl] at hmark
        rw [hq', hmark]
      rw [hiff, List.cons_append, folded, isSpent_cons_placeholder, and_comm (b := before = _),
        and_congr_right htake]
      rcases before with _ | ⟨next, before⟩
      · simp
      · simp

end

end Item

/-! ## Nothing is lost -/

/-- The part with its quote marks as words on either side. -/
def Part.unfolded : Part → List Part
  | word text => [word text]
  | argument ⟨name, hint, none⟩ => [argument ⟨name, hint, none⟩]
  | argument ⟨name, hint, some q⟩ =>
    [word (String.singleton q.toChar), argument ⟨name, hint, none⟩,
      word (String.singleton q.toChar)]

/-- The segment with its text read as words, alone. -/
def Segment.plainParts : Segment → List Part
  | literal text => Pattern.words (Token.ofText text)
  | placeholder name hint => [.argument ⟨name, hint, none⟩]

/-- The items with each literal text between placeholders read as words, alone. `text` is the text
right in front of them. -/
def Item.plainParts (text : List Char) : List Item → List Part
  | [] => Pattern.words (Token.ofText text)
  | .placeholder name hint :: rest => Pattern.words (Token.ofText text) ++
      .argument ⟨String.ofList name, hintedType hint, none⟩ :: plainParts [] rest
  | item :: rest => plainParts (text ++ item.literal) rest

theorem Segment.flatMap_plainParts_withLiteral_nil (segs : List Segment) :
    (withLiteral [] segs).flatMap plainParts = segs.flatMap plainParts := by
  unfold withLiteral
  split
  · rfl
  · simp [plainParts, Pattern.words, Token.ofText, lexemes, Token.place]

theorem Item.plainParts_cons {item : Item} (h : item.isPlaceholder = false) (text : List Char)
    (rest : List Item) :
    plainParts text (item :: rest) = plainParts (text ++ item.literal) rest := by
  cases item with
  | placeholder name hint => cases h
  | _ => rfl

section
variable {declared : List Item} {segs : List Segment} {text : List Char}

theorem Segmented.flatMap_plainParts (h : Segmented declared segs) (text : List Char) :
    (Segment.withLiteral text segs).flatMap Segment.plainParts = Item.plainParts text declared := by
  induction h generalizing text with
  | nil => simp [Segment.withLiteral, Segment.plainParts, Item.plainParts]
  | literal hitem _ ih => rw [Segment.withLiteral_append, ih, Item.plainParts_cons hitem]
  | placeholder _ ih =>
    rw [Item.plainParts, ← ih, Segment.flatMap_plainParts_withLiteral_nil]
    rfl

theorem flatMap_unfolded_words (tokens : List Token) (parts : List Part) :
    (Pattern.words tokens ++ parts).flatMap Part.unfolded =
      Pattern.words tokens ++ parts.flatMap Part.unfolded := by
  rw [List.flatMap_append, Pattern.words, List.flatMap_map]
  simp [Part.unfolded, List.map_eq_flatMap]

theorem word_of_kind_quote {t : Token} {q : QuoteMark} (h : t ∈ Token.ofText text)
    (hkind : t.kind = .quote q) : Part.word t.text = .word (String.singleton q.toChar) := by
  rw [String.singleton_eq_ofList, ← Token.text_of_kind_quote h hkind, String.ofList_toList]

theorem MarkInFront.drop_plainParts {folded : Bool}
    (h : MarkInFront folded (.literal text :: segs)) :
    ((Segment.literal text :: segs).flatMap Segment.plainParts).drop (if folded then 1 else 0) =
      Pattern.words ((Token.ofText text).drop (if folded then 1 else 0)) ++
        segs.flatMap Segment.plainParts :=
  h.drop_append (fun t => Part.word t.text) (segs.flatMap Segment.plainParts)

/-- Putting back the marks gives every literal text its words again. -/
theorem flatMap_unfolded_assemble {folded : Bool} (hfolded : MarkInFront folded segs) :
    (Pattern.assemble folded segs).flatMap Part.unfolded =
      (segs.flatMap Segment.plainParts).drop (if folded then 1 else 0) := by
  fun_induction Pattern.assemble folded segs with
  | case1 => rw [List.flatMap_nil, List.flatMap_nil, List.drop_nil]
  | case2 folded name type segs ih =>
    have hmark : folded = false := by
      by_contra hmark
      obtain ⟨_, _, _, heq, -⟩ := hfolded (eq_true_of_ne_false hmark)
      cases heq
    rw [List.flatMap_cons, ih (markInFront_false _), hmark]
    rfl
  | case3 folded text tokens name type segs q hmark ih =>
    obtain ⟨hclosing, after, rest, hsegs, hopening⟩ := foldedMark_eq_some hmark
    obtain ⟨first, hfirst, hopens⟩ := closingMark_eq_some hclosing
    obtain ⟨last, ts, hlast, hcloses⟩ := openingMark_eq_some hopening
    have hleft : first ∈ Token.ofText text := by
      refine List.mem_of_mem_drop (i := if folded then 1 else 0) ?_
      show first ∈ tokens
      rw [hfirst]
      simp
    have hright : last ∈ Token.ofText after := by
      simp [hlast]
    have hwords : Pattern.words tokens =
        Pattern.words tokens.dropLast ++ [.word (String.singleton q.toChar)] := by
      conv_lhs => rw [hfirst, Pattern.words, List.map_append]
      rw [← word_of_kind_quote hleft hopens]
      rfl
    obtain ⟨more, hmore⟩ : ∃ more,
        segs.flatMap Segment.plainParts = .word (String.singleton q.toChar) :: more := by
      rw [← word_of_kind_quote hright hcloses, hsegs, List.flatMap_cons, Segment.plainParts, hlast]
      exact ⟨_, rfl⟩
    rw [flatMap_unfolded_words, List.flatMap_cons, ih fun _ => ⟨after, rest, q, hsegs, hopening⟩,
      hfolded.drop_plainParts, List.flatMap_cons, hmore]
    show _ = Pattern.words tokens ++ _
    rw [hwords, List.append_assoc]
    rfl
  | case4 folded text tokens name type segs hmark ih =>
    rw [flatMap_unfolded_words, List.flatMap_cons, ih (markInFront_false _),
      hfolded.drop_plainParts, List.flatMap_cons]
    rfl
  | case5 folded text tokens segs hother ih =>
    rw [flatMap_unfolded_words, ih (markInFront_false _), hfolded.drop_plainParts]
    rfl

end

/-! ## Folding -/

namespace Pattern

/-- A placeholder is quoted by a mark if the same mark stands, unprotected, right before it and
right behind it, and the one before it has not been taken in by the placeholder in front of that.
With each mark put back where it was taken from, the parts of the pattern are the tokens of the
literal texts of the declaration, each read alone, with the placeholders between them. -/
theorem ofDeclaration_folds {declaration : String} {p : Pattern}
    (h : ofDeclaration declaration = .ok p) :
    ∃ declared, ReadsAs declaration.toList declared ∧
      (∀ before name hint after, declared = before ++ .placeholder name hint :: after →
        ∃ quote, p.placeholders[before.countP Item.isPlaceholder]? =
            some ⟨String.ofList name, Item.hintedType hint, quote⟩ ∧
          ∀ q, quote = some q ↔ before.getLast? = some (.plain q.toChar) ∧
            after.head? = some (.plain q.toChar) ∧ ¬ Item.IsSpent p.placeholders before q) ∧
      p.parts.flatMap Part.unfolded = Item.plainParts [] declared := by
  obtain ⟨declared, segs, hitems, hsegs, hparts⟩ := ofDeclaration_eq_ok h
  have hreads := items_eq_ok_iff.1 hitems
  have hsegmented := segmented_of_segments hsegs
  have hplaceholders : p.placeholders = Item.folded false none declared := by
    rw [placeholders, hparts]
    exact hsegmented.placeholders_assemble declared hreads.2 (markInFront_false segs)
  refine ⟨declared, hreads, ?_, ?_⟩
  · rintro before name hint after rfl
    obtain ⟨quote, hquote, hiff⟩ := Item.getElem?_folded false none before name hint after
    rw [← hplaceholders] at hquote hiff
    refine ⟨quote, hquote, fun q => ?_⟩
    rw [hiff]
    simp [and_left_comm]
  · rw [hparts, flatMap_unfolded_assemble (markInFront_false segs), ← hsegmented.flatMap_plainParts,
      Segment.flatMap_plainParts_withLiteral_nil]
    rfl

/-- A mark between two placeholders is taken in once, and a protected one not at all. -/
theorem ofDeclaration_folds_shared :
    ∃ p, ofDeclaration "'{a}'{b}' \\'{c}'" = .ok p ∧
      p.placeholders = [⟨"a", none, some .single⟩, ⟨"b", none, none⟩, ⟨"c", none, none⟩] ∧
      p.parts.flatMap Part.unfolded =
        [.word "'", .argument ⟨"a", none, none⟩, .word "'", .argument ⟨"b", none, none⟩, .word "'",
          .word "\\'", .argument ⟨"c", none, none⟩, .word "'"] := by
  have hplaceholders : (ofDeclaration "'{a}'{b}' \\'{c}'").toOption.map placeholders =
      some [⟨"a", none, some .single⟩, ⟨"b", none, none⟩, ⟨"c", none, none⟩] := by
    decide +kernel
  have hitems : items 0 "'{a}'{b}' \\'{c}'".toList =
      .ok [.plain '\'', .placeholder ['a'] none, .plain '\'', .placeholder ['b'] none,
        .plain '\'', .plain ' ', .escape (some '\''), .placeholder ['c'] none, .plain '\''] := by
    decide +kernel
  cases h : ofDeclaration "'{a}'{b}' \\'{c}'" with
  | error e =>
    rw [h] at hplaceholders
    cases hplaceholders
  | ok p =>
    rw [h] at hplaceholders
    obtain ⟨declared, hreads, -, hparts⟩ := ofDeclaration_folds h
    have hread : items 0 "'{a}'{b}' \\'{c}'".toList = .ok declared := items_eq_ok_iff.2 hreads
    rw [hitems] at hread
    cases hread
    exact ⟨p, rfl, Option.some.inj hplaceholders, hparts.trans (by decide +kernel)⟩

end Pattern

end StepLinker

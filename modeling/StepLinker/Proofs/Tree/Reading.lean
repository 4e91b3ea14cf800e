import StepLinker.Tree.Edge
import Mathlib.Data.List.Forall2

/-!
# Readings

A statement is an instance of a pattern when its tokens can be dealt out to the parts in order, so
that each part takes what it may take (`Part.Takes`) and no token is left (`IsReading`). This says
nothing about nodes, edges or positions. `Part.Spans` says what a part may take between two
positions, which is how a walk sees it, and `stop?_eq_some` and `spans_of_free` join it to the edges
of the tree.
-/

namespace StepLinker

/-- The part takes up exactly these tokens. -/
inductive Part.Takes : Part → List Token → Prop where
  | word (t : Token) : Takes (.word t.text) [t]
  | quoted {p : Placeholder} {q : QuoteMark} {first last : Token} {inside : List Token}
      (quote : p.quote = some q) (opens : first.kind = .quote q)
      (plain : ∀ t ∈ inside, t.kind ≠ .quote q) (closes : last.kind = .quote q) :
      Takes (.argument p) (first :: inside ++ [last])
  | number {p : Placeholder} {t : Token} (quote : p.quote = none)
      (numeric : p.hint.any (·.isNumeric) = true)
      (kind : t.kind = .integer ∨ t.kind = .decimal ∨ ∃ name, t.kind = .parameter name) :
      Takes (.argument p) [t]
  | free {p : Placeholder} {tokens : List Token} (quote : p.quote = none)
      (notNumeric : p.hint.any (·.isNumeric) = false) (some : tokens ≠ []) :
      Takes (.argument p) tokens

/-- The parts take up all the tokens in order, one piece each. -/
def IsReading (parts : List Part) (tokens : List Token) (pieces : List (List Token)) : Prop :=
  List.Forall₂ Part.Takes parts pieces ∧ pieces.flatten = tokens

/-! ## Readings between positions -/

/-- The part takes the tokens from position `i` up to position `j`. -/
def Part.Spans (tokens : List Token) (part : Part) (i j : Nat) : Prop :=
  ∃ taken, part.Takes taken ∧ i + taken.length = j ∧ tokens.drop i = taken ++ tokens.drop j

section
variable {tokens : List Token} {i j : Nat}

theorem drop_add_of_drop (taken : List Token) {rest : List Token}
    (h : tokens.drop i = taken ++ rest) :
    tokens.drop (i + taken.length) = rest := by
  rw [← List.drop_drop, h, List.drop_left]

theorem Part.Takes.ne_nil {part : Part} {taken : List Token} (h : part.Takes taken) :
    taken ≠ [] := by
  cases h with
  | word t => exact List.cons_ne_nil _ _
  | quoted => exact List.cons_ne_nil _ _
  | number => exact List.cons_ne_nil _ _
  | free _ _ some => exact some

theorem Part.Spans.lt {part : Part} (h : part.Spans tokens i j) : i < j ∧ j ≤ tokens.length := by
  obtain ⟨taken, htakes, rfl, hdrop⟩ := h
  have hpos := List.length_pos_iff.2 htakes.ne_nil
  have hlen := congrArg List.length hdrop
  simp only [List.length_append, List.length_drop] at hlen
  omega

/-- A part that may take any number of tokens gets from any position to any later one. -/
theorem spans_of_free {p : Placeholder} (quote : p.quote = none)
    (notNumeric : p.hint.any (·.isNumeric) = false) :
    (Part.argument p).Spans tokens i j ↔ i < j ∧ j ≤ tokens.length := by
  refine ⟨Part.Spans.lt, fun ⟨hlt, hle⟩ => ?_⟩
  have hlen : i + ((tokens.drop i).take (j - i)).length = j := by
    simp only [List.length_take, List.length_drop]
    omega
  refine ⟨(tokens.drop i).take (j - i), .free quote notNumeric ?_, hlen, ?_⟩
  · rw [← List.length_pos_iff]
    omega
  · conv_lhs => rw [← List.take_append_drop (j - i) (tokens.drop i), List.drop_drop]
    rw [show i + (j - i) = j by omega]

end

/-! ## Edges -/

section
variable {tokens : Array Token} {i j : Nat}

theorem tokenAt_iff {f : Token → Bool} : Edge.tokenAt tokens i f = true ↔
    ∃ t, tokens.toList.drop i = t :: tokens.toList.drop (i + 1) ∧ f t = true := by
  unfold Edge.tokenAt
  by_cases hi : i < tokens.size
  · have hdrop := List.drop_eq_getElem_cons (l := tokens.toList) (i := i) (by simpa using hi)
    rw [hdrop]
    simp [hi]
  · have hdrop : tokens.toList.drop i = [] := List.drop_eq_nil_of_le (by simpa using hi)
    rw [hdrop]
    simp [Array.getElem?_eq_none (Nat.not_lt.1 hi)]

/-- The first quote mark behind `i` that is of the kind `mark`, if `n` reaches to the end. -/
theorem firstMark?_eq_some {mark : QuoteMark} {n c : Nat} (hn : tokens.size ≤ i + n) :
    Edge.firstMark? tokens mark i n = some c ↔
      ∃ inside last, tokens.toList.drop i = inside ++ last :: tokens.toList.drop (c + 1) ∧
        i + inside.length = c ∧ last.kind = .quote mark ∧ ∀ t ∈ inside, t.kind ≠ .quote mark := by
  induction n generalizing i with
  | zero =>
    have hdrop : tokens.toList.drop i = [] := List.drop_eq_nil_of_le (by simpa using hn)
    simp [Edge.firstMark?, hdrop]
  | succ n ih =>
    unfold Edge.firstMark?
    split
    · next h =>
      obtain ⟨t, ht, hmark⟩ := tokenAt_iff.1 h
      have hmark : t.kind = .quote mark := by simpa using hmark
      constructor
      · rintro h
        cases h
        exact ⟨[], t, ht, rfl, hmark, by simp⟩
      · rintro ⟨inside, last, hdrop, rfl, -, hplain⟩
        cases inside with
        | nil => rfl
        | cons t' inside =>
          rw [ht] at hdrop
          exact absurd hmark ((List.cons.inj hdrop).1 ▸ hplain t' List.mem_cons_self)
    · next h =>
      rw [ih (by omega)]
      constructor
      · rintro ⟨inside, last, hdrop, rfl, hlast, hplain⟩
        have hi : i < tokens.toList.length := by
          by_contra hi
          rw [List.drop_eq_nil_of_le (by omega)] at hdrop
          simp at hdrop
        have hcons := List.drop_eq_getElem_cons hi
        refine ⟨tokens.toList[i] :: inside, last, ?_, by simp; omega, hlast, ?_⟩
        · rw [hcons, hdrop]
          rfl
        · refine List.forall_mem_cons.2 ⟨fun hmark => h ?_, hplain⟩
          exact tokenAt_iff.2 ⟨_, hcons, by simpa using hmark⟩
      · rintro ⟨inside, last, hdrop, hc, hlast, hplain⟩
        cases inside with
        | nil =>
          have hrest : tokens.toList.drop (i + 1) = _ := drop_add_of_drop [last] hdrop
          exact absurd (tokenAt_iff.2 ⟨last, by rw [hrest]; exact hdrop, by simpa using hlast⟩) h
        | cons t inside =>
          have hrest := drop_add_of_drop [t] hdrop
          exact ⟨inside, last, hrest, by simp at hc; omega, hlast,
            (List.forall_mem_cons.1 hplain).2⟩

theorem mayBeNumber_iff {kind : TokenKind} : kind.mayBeNumber = true ↔
    kind = .integer ∨ kind = .decimal ∨ ∃ name, kind = .parameter name := by
  cases kind <;> simp [TokenKind.mayBeNumber]

theorem isFree_edge {part : Part} : part.edge.isFree = true ↔
    ∃ p, part = .argument p ∧ p.quote = none ∧ p.hint.any (·.isNumeric) = false := by
  rcases part with text | ⟨name, hint, _ | q⟩ <;> simp [Part.edge, Edge.isFree]

theorem spans_word {text : String} : (Part.word text).Spans tokens.toList i j ↔
    Edge.tokenAt tokens i (·.text = text) = true ∧ i + 1 = j := by
  constructor
  · rintro ⟨taken, htakes, rfl, hdrop⟩
    cases htakes with
    | word t => exact ⟨tokenAt_iff.2 ⟨t, hdrop, by simp⟩, rfl⟩
  · rintro ⟨hat, rfl⟩
    obtain ⟨t, hdrop, htext⟩ := tokenAt_iff.1 hat
    obtain rfl : t.text = text := by simpa using htext
    exact ⟨[t], .word t, rfl, hdrop⟩

theorem spans_number {p : Placeholder} (quote : p.quote = none)
    (numeric : p.hint.any (·.isNumeric) = true) : (Part.argument p).Spans tokens.toList i j ↔
      Edge.tokenAt tokens i (·.kind.mayBeNumber) = true ∧ i + 1 = j := by
  constructor
  · rintro ⟨taken, htakes, rfl, hdrop⟩
    cases htakes with
    | quoted quote' => simp [quote] at quote'
    | number _ _ kind => exact ⟨tokenAt_iff.2 ⟨_, hdrop, mayBeNumber_iff.2 kind⟩, rfl⟩
    | free _ notNumeric => simp [numeric] at notNumeric
  · rintro ⟨hat, rfl⟩
    obtain ⟨t, hdrop, hkind⟩ := tokenAt_iff.1 hat
    exact ⟨[t], .number quote numeric (mayBeNumber_iff.1 hkind), rfl, hdrop⟩

theorem spans_quoted {p : Placeholder} {q : QuoteMark} (quote : p.quote = some q) :
    (Part.argument p).Spans tokens.toList i j ↔
      Edge.tokenAt tokens i (·.kind = .quote q) = true ∧
        ∃ c, Edge.closing? tokens q i = some c ∧ c + 1 = j := by
  have hend : tokens.size ≤ i + 1 + (tokens.size - (i + 1)) := by omega
  constructor
  · rintro ⟨taken, htakes, rfl, hdrop⟩
    cases htakes with
    | number quote' => simp [quote] at quote'
    | free quote' => simp [quote] at quote'
    | @quoted _ q' first last inside quote' opens plain closes =>
      obtain rfl : q = q' := by simpa [quote] using quote'
      rw [List.append_assoc, List.cons_append] at hdrop
      have hrest := drop_add_of_drop [first] hdrop
      refine ⟨tokenAt_iff.2 ⟨first, ?_, by simpa using opens⟩, i + 1 + inside.length, ?_, ?_⟩
      · rw [hdrop]
        exact congrArg (first :: ·) hrest.symm
      · refine (firstMark?_eq_some hend).2 ⟨inside, last, ?_, rfl, closes, plain⟩
        rw [show i + 1 + inside.length + 1 = i + (first :: inside ++ [last]).length by
          simp; omega]
        exact hrest
      · simp
        omega
  · rintro ⟨hopen, c, hc, rfl⟩
    obtain ⟨first, hfirst, hmark⟩ := tokenAt_iff.1 hopen
    obtain ⟨inside, last, hdrop, rfl, hlast, hplain⟩ := (firstMark?_eq_some hend).1 hc
    refine ⟨first :: inside ++ [last],
      .quoted quote (by simpa using hmark) hplain hlast, by simp; omega, ?_⟩
    rw [hfirst, hdrop]
    simp

/-- Where an edge that is not free leads is where its part gets to. -/
theorem stop?_eq_some {part : Part} (h : part.edge.isFree = false) :
    part.edge.stop? tokens i = some j ↔ part.Spans tokens.toList i j := by
  rcases part with text | ⟨name, hint, _ | q⟩
  · rw [spans_word]
    simp [Part.edge, Edge.stop?]
  · rw [spans_number rfl (by simpa [Part.edge, Edge.isFree] using h)]
    simp [Part.edge, Edge.stop?]
  · rw [spans_quoted rfl]
    simp [Part.edge, Edge.stop?]

end

end StepLinker

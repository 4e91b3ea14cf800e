import StepLinker.Proofs.Tree.Arguments

/-!
# Beginnings

A statement that is not an instance of a pattern may still become one when more is written. It is a
beginning of the pattern if some of the parts, but not all, take up its first tokens and what is
left breaks off in the next part (`IsBeginning`): nothing is left, or one token that is the
beginning of a word, or an opening quote mark without a closing one. As with readings, this says
nothing about forests or positions. `breaksOff_iff` joins it to the edges of the tree. There may be
several ways in which a statement is a beginning, and each of them is a `PartialReading`.
-/

namespace StepLinker

/-- The tokens break off in the part: they may be a beginning of what it takes up, and it is not
over. -/
inductive Part.BreaksOff : Part → List Token → Prop where
  /-- The part has not begun. -/
  | before (part : Part) : BreaksOff part []
  | inWord {text : String} {last : Token} {more : List Char}
      (starts : text.toList = last.text.toList ++ more) (properly : more ≠ []) :
      BreaksOff (.word text) [last]
  | inQuotes {p : Placeholder} {q : QuoteMark} {first : Token} {later : List Token}
      (quote : p.quote = some q) (opens : first.kind = .quote q)
      (unclosed : ∀ t ∈ later, t.kind ≠ .quote q) :
      BreaksOff (.argument p) (first :: later)

/-- Some of the parts, but not all, take up the first tokens in order, and the tokens that are left
break off in the next part. -/
def IsBeginning (parts : List Part) (tokens : List Token) : Prop :=
  ∃ begun next rest read left pieces, parts = begun ++ next :: rest ∧ tokens = read ++ left ∧
    IsReading begun read pieces ∧ next.BreaksOff left

/-! ## Edges -/

section
variable {tokens : Array Token} {i : Nat}

theorem firstMark?_eq_none {mark : QuoteMark} {n : Nat} (hn : tokens.size ≤ i + n) :
    Edge.firstMark? tokens mark i n = none ↔
      ∀ t ∈ tokens.toList.drop i, t.kind ≠ .quote mark := by
  induction n generalizing i with
  | zero =>
    have hdrop : tokens.toList.drop i = [] := List.drop_eq_nil_of_le (by simpa using hn)
    simp [Edge.firstMark?, hdrop]
  | succ n ih =>
    unfold Edge.firstMark?
    split
    · next h =>
      obtain ⟨t, ht, hmark⟩ := tokenAt_iff.1 h
      have hmark : t.kind = .quote mark := by simpa using hmark
      refine iff_of_false (by simp) fun hplain => hplain t ?_ hmark
      rw [ht]
      exact List.mem_cons_self
    · next h =>
      rw [ih (by omega)]
      by_cases hi : i < tokens.toList.length
      · have hcons := List.drop_eq_getElem_cons hi
        have hhead : tokens.toList[i].kind ≠ .quote mark := by
          intro hmark
          exact h (tokenAt_iff.2 ⟨_, hcons, by simpa using hmark⟩)
        rw [hcons, List.forall_mem_cons]
        exact ⟨fun hplain => ⟨hhead, hplain⟩, And.right⟩
      · rw [List.drop_eq_nil_of_le (by omega), List.drop_eq_nil_of_le (by omega)]

theorem isBeginning_iff {text whole : String} : Edge.isBeginning text whole = true ↔
    ∃ more, whole.toList = text.toList ++ more ∧ more ≠ [] := by
  unfold Edge.isBeginning
  rw [Bool.and_eq_true, List.isPrefixOf_iff_prefix, bne_iff_ne]
  constructor
  · rintro ⟨⟨more, hmore⟩, hne⟩
    refine ⟨more, hmore.symm, ?_⟩
    rintro rfl
    rw [List.append_nil] at hmore
    exact hne (String.toList_inj.1 hmore)
  · rintro ⟨more, hwhole, hmore⟩
    refine ⟨⟨more, hwhole.symm⟩, ?_⟩
    rintro rfl
    exact hmore (List.self_eq_append_right.1 hwhole)

theorem breaksOff_word {text : String} :
    (Edge.word text).breaksOff tokens i = true ↔
      ∃ last more, tokens.toList.drop i = [last] ∧ text.toList = last.text.toList ++ more ∧
        more ≠ [] := by
  simp only [Edge.breaksOff, Bool.and_eq_true, decide_eq_true_eq]
  constructor
  · rintro ⟨hsize, hat⟩
    obtain ⟨last, hdrop, hbegins⟩ := tokenAt_iff.1 hat
    obtain ⟨more, htext, hmore⟩ := isBeginning_iff.1 hbegins
    have hrest : tokens.toList.drop (i + 1) = [] :=
      List.drop_eq_nil_of_le (by simp; omega)
    exact ⟨last, more, by rw [hdrop, hrest], htext, hmore⟩
  · rintro ⟨last, more, hdrop, htext, hmore⟩
    have hlen := congrArg List.length hdrop
    simp only [List.length_drop, List.length_singleton, Array.length_toList] at hlen
    have hrest : tokens.toList.drop (i + 1) = [] :=
      List.drop_eq_nil_of_le (by simp; omega)
    exact ⟨by omega, tokenAt_iff.2 ⟨last, by rw [hdrop, hrest],
      isBeginning_iff.2 ⟨more, htext, hmore⟩⟩⟩

theorem breaksOff_quoted {hint : Option ArgumentType} {q : QuoteMark} :
    (Edge.argument hint (some q)).breaksOff tokens i = true ↔
      ∃ first later, tokens.toList.drop i = first :: later ∧ first.kind = .quote q ∧
        ∀ t ∈ later, t.kind ≠ .quote q := by
  have hend : tokens.size ≤ i + 1 + (tokens.size - (i + 1)) := by omega
  simp only [Edge.breaksOff, Bool.and_eq_true, Option.isNone_iff_eq_none, Edge.closing?,
    firstMark?_eq_none hend, tokenAt_iff, decide_eq_true_eq]
  constructor
  · rintro ⟨⟨first, hdrop, hopens⟩, hunclosed⟩
    exact ⟨first, _, hdrop, hopens, hunclosed⟩
  · rintro ⟨first, later, hdrop, hopens, hunclosed⟩
    have hrest : tokens.toList.drop (i + 1) = later := drop_add_of_drop [first] hdrop
    rw [hrest]
    exact ⟨⟨first, hdrop, hopens⟩, hunclosed⟩

/-- The tokens from position `i` on break off in the part if and only if there are none or the edge
of the part says so. -/
theorem breaksOff_iff {part : Part} :
    tokens.size ≤ i ∨ part.edge.breaksOff tokens i = true ↔
      part.BreaksOff (tokens.toList.drop i) := by
  have hover : tokens.size ≤ i ↔ tokens.toList.drop i = [] := by
    rw [List.drop_eq_nil_iff, Array.length_toList]
  rw [hover]
  constructor
  · intro h
    rcases h with hnil | hedge
    · rw [hnil]
      exact .before part
    · rcases part with text | ⟨name, hint, _ | q⟩
      · obtain ⟨last, more, hdrop, htext, hmore⟩ := breaksOff_word.1 hedge
        rw [hdrop]
        exact .inWord htext hmore
      · simp [Part.edge, Edge.breaksOff] at hedge
      · obtain ⟨first, later, hdrop, hopens, hunclosed⟩ := breaksOff_quoted.1 hedge
        rw [hdrop]
        exact .inQuotes rfl hopens hunclosed
  · intro h
    generalize hdrop : tokens.toList.drop i = left at h
    cases h with
    | before => exact .inl rfl
    | inWord htext hmore => exact .inr (breaksOff_word.2 ⟨_, _, hdrop, htext, hmore⟩)
    | @inQuotes p q first later quote hopens hunclosed =>
      right
      rw [Part.edge, quote]
      exact breaksOff_quoted.2 ⟨first, later, hdrop, hopens, hunclosed⟩

end

/-! ## Partial readings -/

/-- The argument in which the tokens from `start` on break off, if it is one in which they do. -/
def Part.openArgument? (start : Nat) : Part → List Token → Option ArgumentMatch
  | .argument p, first :: later => some ⟨p, ⟨start, start + (first :: later).length, true, false⟩⟩
  | _, _ => none

/-- A way in which the tokens are a beginning of the parts. Those in `begun` take up the first
tokens in order, one piece each, and the tokens that are left break off in the part after them. -/
structure PartialReading (parts : List Part) (tokens : List Token) where
  begun : List Part
  next : Part
  rest : List Part
  pieces : List (List Token)
  left : List Token
  parts_eq : parts = begun ++ next :: rest
  tokens_eq : tokens = pieces.flatten ++ left
  takes : List.Forall₂ Part.Takes begun pieces
  breaksOff : next.BreaksOff left

namespace PartialReading

section
variable {part : Part} {parts : List Part} {piece tokens later : List Token}

def words (b : PartialReading parts tokens) : Nat :=
  b.begun.countP (·.placeholder?.isNone)

/-- The arguments, the open one included, if the first token is token `i`. -/
def argumentsFrom (i : Nat) (b : PartialReading parts tokens) : List ArgumentMatch :=
  StepLinker.argumentsFrom i b.begun b.pieces ++
    (b.next.openArgument? (i + b.pieces.flatten.length) b.left).toList

def arguments (b : PartialReading parts tokens) : List ArgumentMatch :=
  b.argumentsFrom 0

def here (parts : List Part) (h : part.BreaksOff tokens) :
    PartialReading (part :: parts) tokens where
  begun := []
  next := part
  rest := parts
  pieces := []
  left := tokens
  parts_eq := rfl
  tokens_eq := rfl
  takes := .nil
  breaksOff := h

def cons (htakes : part.Takes piece) (htokens : tokens = piece ++ later)
    (b : PartialReading parts later) : PartialReading (part :: parts) tokens where
  begun := part :: b.begun
  next := b.next
  rest := b.rest
  pieces := piece :: b.pieces
  left := b.left
  parts_eq := congrArg (part :: ·) b.parts_eq
  tokens_eq := by
    rw [htokens, List.flatten_cons, List.append_assoc]
    exact congrArg (piece ++ ·) b.tokens_eq
  takes := .cons htakes b.takes
  breaksOff := b.breaksOff

theorem argumentsFrom_cons (htakes : part.Takes piece) (htokens : tokens = piece ++ later)
    (b : PartialReading parts later) (i : Nat) :
    (cons htakes htokens b).argumentsFrom i =
      (part.placeholder?.map fun p =>
        ⟨p, ⟨i, i + piece.length, p.quote.isSome, p.quote.isSome⟩⟩).toList ++
          b.argumentsFrom (i + piece.length) := by
  simp only [argumentsFrom, cons, StepLinker.argumentsFrom, List.flatten_cons, List.length_append,
    Nat.add_assoc, List.append_assoc]

theorem words_cons (htakes : part.Takes piece) (htokens : tokens = piece ++ later)
    (b : PartialReading parts later) :
    (cons htakes htokens b).words = part.edge.isWord.toNat + b.words := by
  unfold words
  cases part <;> simp [cons, Part.placeholder?, Part.edge, Edge.isWord, Nat.add_comm]

theorem argumentsFrom_here (h : part.BreaksOff tokens) (parts : List Part) (i : Nat) :
    (here parts h).argumentsFrom i = (part.openArgument? i tokens).toList := rfl

theorem here_or_cons (b : PartialReading (part :: parts) tokens) :
    (∃ h : part.BreaksOff tokens, b = here parts h) ∨
      ∃ (piece later : List Token) (htakes : part.Takes piece) (htokens : tokens = piece ++ later)
        (b' : PartialReading parts later), b = cons htakes htokens b' := by
  obtain ⟨begun, next, rest, pieces, left, hparts, rfl, htakes, hoff⟩ := b
  cases htakes with
  | nil =>
    obtain ⟨rfl, rfl⟩ := List.cons.inj hparts
    exact .inl ⟨hoff, rfl⟩
  | @cons part' piece begun pieces htake htakes =>
    obtain ⟨rfl, hrest⟩ := List.cons.inj hparts
    refine .inr ⟨piece, pieces.flatten ++ left, htake, ?_, ?_⟩
    · rw [List.flatten_cons, List.append_assoc]
    · exact ⟨⟨begun, next, rest, pieces, left, hrest, rfl, htakes, hoff⟩, rfl⟩

/-- Where no token is left the first part takes up none. -/
theorem eq_here_of_nil (htokens : tokens = []) (b : PartialReading (part :: parts) tokens) :
    ∃ h : part.BreaksOff tokens, b = here parts h := by
  rcases b.here_or_cons with hhere | ⟨piece, later, htakes, hdrop, -⟩
  · exact hhere
  · rw [htokens, eq_comm, List.append_eq_nil_iff] at hdrop
    exact absurd hdrop.1 htakes.ne_nil

theorem false_of_nil (b : PartialReading [] tokens) : False := by
  have hparts := b.parts_eq
  simp at hparts

/-- Who begins more parts takes in no fewer words. -/
theorem words_le {b b' : PartialReading parts tokens}
    (h : b'.begun.length ≤ b.begun.length) : b'.words ≤ b.words := by
  have hprefix : b.begun <+: parts := ⟨b.next :: b.rest, b.parts_eq.symm⟩
  have hprefix' : b'.begun <+: parts := ⟨b'.next :: b'.rest, b'.parts_eq.symm⟩
  exact (List.prefix_of_prefix_length_le hprefix' hprefix h).sublist.countP_le

theorem placeholders_prefix (b : PartialReading parts tokens) :
    b.arguments.map (·.placeholder) <+: parts.filterMap Part.placeholder? := by
  have hopen : ((b.next.openArgument? (0 + b.pieces.flatten.length) b.left).toList.map
      (·.placeholder)) <+: (b.next :: b.rest).filterMap Part.placeholder? := by
    unfold Part.openArgument?
    split
    · next p _ _ hnext _ => simp [hnext, Part.placeholder?]
    · exact List.nil_prefix
  have hparts : parts.filterMap Part.placeholder? =
      b.begun.filterMap Part.placeholder? ++ (b.next :: b.rest).filterMap Part.placeholder? := by
    rw [← List.filterMap_append]
    exact congrArg _ b.parts_eq
  rw [hparts, arguments, argumentsFrom, List.map_append, map_placeholder_argumentsFrom b.takes]
  exact (List.prefix_append_right_inj _).2 hopen

theorem nonempty_iff : Nonempty (PartialReading parts tokens) ↔ IsBeginning parts tokens := by
  constructor
  · rintro ⟨b⟩
    exact ⟨b.begun, b.next, b.rest, b.pieces.flatten, b.left, b.pieces, b.parts_eq, b.tokens_eq,
      ⟨b.takes, rfl⟩, b.breaksOff⟩
  · rintro ⟨begun, next, rest, _, left, pieces, hparts, htokens, ⟨htakes, rfl⟩, hoff⟩
    exact ⟨⟨begun, next, rest, pieces, left, hparts, htokens, htakes, hoff⟩⟩

end

end PartialReading

end StepLinker

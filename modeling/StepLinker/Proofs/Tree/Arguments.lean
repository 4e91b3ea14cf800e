import StepLinker.Proofs.Tree.Reading
import StepLinker.Tree.MatchingTree

/-!
# Arguments of a reading

A reading by the parts of a pattern gives each placeholder the tokens of its piece (`argumentsFrom`),
in the order of the declaration. Where only one part is an argument, it takes up all that the words
around it leave.
-/

namespace StepLinker

/-- The arguments among the parts, each with the piece of the tokens that it takes up. The first
piece begins at token `i`. -/
def argumentsFrom (i : Nat) : List Part → List (List Token) → List ArgumentMatch
  | part :: parts, piece :: pieces =>
    (part.placeholder?.map fun p =>
      ⟨p, ⟨i, i + piece.length, p.quote.isSome, p.quote.isSome⟩⟩).toList ++
        argumentsFrom (i + piece.length) parts pieces
  | _, _ => []

theorem map_placeholder_argumentsFrom {parts : List Part} {pieces : List (List Token)}
    (h : List.Forall₂ Part.Takes parts pieces) (i : Nat) :
    (argumentsFrom i parts pieces).map (·.placeholder) = parts.filterMap Part.placeholder? := by
  induction h generalizing i with
  | nil => rfl
  | @cons part piece parts pieces _ _ ih =>
    rw [argumentsFrom, List.map_append, ih]
    cases part <;> rfl

theorem zip_spans {arguments : List ArgumentMatch} {placeholders : List Placeholder}
    (h : arguments.map (·.placeholder) <+: placeholders) :
    (placeholders.zip (arguments.map (·.span))).map
      (fun (placeholder, span) => (⟨placeholder, span⟩ : ArgumentMatch)) = arguments := by
  obtain ⟨more, rfl⟩ := h
  induction arguments with
  | nil => simp
  | cons m arguments ih =>
    simp only [List.map_cons, List.cons_append, List.zip_cons_cons, ih]

theorem Part.Takes.length_word {text : String} {taken : List Token}
    (h : (Part.word text).Takes taken) : taken.length = 1 := by
  cases h
  rfl

/-- Words take up one token each and are no arguments. -/
theorem argumentsFrom_words {ts : List Token} {parts : List Part} {pieces : List (List Token)}
    (h : List.Forall₂ Part.Takes (Pattern.words ts ++ parts) pieces) (i : Nat) :
    ∃ pieces', List.Forall₂ Part.Takes parts pieces' ∧
      pieces.flatten.length = ts.length + pieces'.flatten.length ∧
      argumentsFrom i (Pattern.words ts ++ parts) pieces =
        argumentsFrom (i + ts.length) parts pieces' := by
  induction ts generalizing i pieces with
  | nil => exact ⟨pieces, h, by simp, rfl⟩
  | cons t ts ih =>
    cases h with
    | @cons _ piece _ pieces htakes hpieces =>
      obtain ⟨pieces', hpieces', hlength, hfrom⟩ := ih hpieces (i + 1)
      have hpiece := htakes.length_word
      refine ⟨pieces', hpieces', ?_, ?_⟩
      · simp only [List.flatten_cons, List.length_append, List.length_cons]
        omega
      · rw [show i + (t :: ts).length = i + 1 + ts.length by simp; omega, ← hfrom, ← hpiece]
        rfl

/-- A single argument between words takes up all the tokens that they leave. -/
theorem argumentsFrom_between {ts us tokens : List Token} {p : Placeholder}
    {pieces : List (List Token)}
    (h : IsReading (Pattern.words ts ++ .argument p :: Pattern.words us) tokens pieces) :
    argumentsFrom 0 (Pattern.words ts ++ .argument p :: Pattern.words us) pieces =
      [⟨p, ⟨ts.length, tokens.length - us.length, p.quote.isSome, p.quote.isSome⟩⟩] := by
  obtain ⟨hpieces, rfl⟩ := h
  obtain ⟨pieces', hpieces', hlength, hfrom⟩ := argumentsFrom_words hpieces 0
  rw [hfrom, hlength]
  cases hpieces' with
  | @cons _ piece _ pieces htakes hpieces =>
    rw [← List.append_nil (Pattern.words us)] at hpieces ⊢
    obtain ⟨pieces'', hpieces'', hlength', hfrom'⟩ :=
      argumentsFrom_words hpieces (0 + ts.length + piece.length)
    cases hpieces''
    rw [argumentsFrom, hfrom', List.flatten_cons, List.length_append, hlength']
    simp only [List.flatten_nil, List.length_nil, Nat.add_zero, Nat.zero_add, ← Nat.add_assoc,
      Nat.add_sub_cancel]
    rfl

/-- An argument takes up one of the pieces, where its span says. -/
theorem exists_split_of_mem_argumentsFrom {parts : List Part} {pieces : List (List Token)}
    (h : List.Forall₂ Part.Takes parts pieces) {i : Nat} {a : ArgumentMatch}
    (ha : a ∈ argumentsFrom i parts pieces) :
    ∃ before taken after, pieces.flatten = before ++ (taken ++ after) ∧
      (Part.argument a.placeholder).Takes taken ∧
      a.span = ⟨i + before.length, i + before.length + taken.length, a.placeholder.quote.isSome,
        a.placeholder.quote.isSome⟩ := by
  induction h generalizing i with
  | nil => cases ha
  | @cons part piece parts pieces htakes _ ih =>
    rw [argumentsFrom, List.mem_append] at ha
    rcases ha with ha | ha
    · cases part with
      | word text => cases ha
      | argument p =>
        obtain rfl := List.mem_singleton.1 ha
        exact ⟨[], piece, pieces.flatten, rfl, htakes, rfl⟩
    · obtain ⟨before, taken, after, hflatten, htaken, hspan⟩ := ih ha
      refine ⟨piece ++ before, taken, after, ?_, htaken, ?_⟩
      · rw [List.flatten_cons, hflatten, List.append_assoc]
      · rw [hspan, List.length_append, Nat.add_assoc i]

end StepLinker

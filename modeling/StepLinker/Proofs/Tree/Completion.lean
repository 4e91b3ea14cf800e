import StepLinker.Proofs.Tree.Beginning
import StepLinker.Proofs.Tree.Exact

/-!
# Completions

What a search of a well-formed tree finds without matching it exactly. Along the path of a definition
a walk comes across its partial readings (`Query.mem_along_partial`), and it keeps the first of them
if there is no reading. So the definitions to which a statement can be completed are those of the
type of which it is a beginning and not an instance.
-/

namespace StepLinker

/-- What is found of a definition by a partial reading from here on. -/
def Reach.beginning {parts : List Part} {tokens : List Token} (r : Reach)
    (b : PartialReading parts tokens) : Finding :=
  ⟨false, r.spans ++ (b.argumentsFrom r.position).map (·.span), r.literals + b.words⟩

theorem Reach.beginning_cons {part : Part} {parts : List Part} {piece tokens later : List Token}
    (r : Reach) (htakes : part.Takes piece) (htokens : tokens = piece ++ later)
    (b : PartialReading parts later) : r.beginning (.cons htakes htokens b) =
      (r.take part.edge (r.position + piece.length)).beginning b := by
  simp only [Reach.beginning, PartialReading.argumentsFrom_cons, PartialReading.words_cons]
  cases part <;>
    simp [Reach.take, Part.edge, Edge.span?, Edge.isWord, Part.placeholder?, Nat.add_assoc]

theorem map_span_openArgument? {part : Part} {tokens : Array Token} {i : Nat}
    (h : i < tokens.size) : (part.openArgument? i (tokens.toList.drop i)).map (·.span) =
      part.edge.brokenSpan? tokens i := by
  have hlength : (tokens.toList.drop i).length = tokens.size - i := by
    rw [List.length_drop, Array.length_toList]
  obtain ⟨first, later, hdrop⟩ := List.exists_cons_of_length_pos
    (hlength ▸ Nat.sub_pos_of_lt h)
  rw [hdrop] at hlength ⊢
  cases part with
  | word text => rfl
  | argument p =>
    simp only [Part.openArgument?, Option.map_some, Part.edge, Edge.brokenSpan?, hlength]
    rw [Nat.add_sub_cancel' h.le]

namespace Query

section
variable {q : Query} {path : List Edge} {part : Part} {parts : List Part} {r : Reach}
  {found : Finding}

theorem beginning_here_of_size_le (hi : q.tokens.size ≤ r.position)
    (h : part.BreaksOff (q.tokens.toList.drop r.position)) :
    r.beginning (.here parts h) = r.finding false := by
  have hdrop : q.tokens.toList.drop r.position = [] :=
    List.drop_eq_nil_of_le (by simpa using hi)
  have hopen : part.openArgument? r.position (q.tokens.toList.drop r.position) = none := by
    rw [hdrop]
    cases part <;> rfl
  rw [Reach.beginning, PartialReading.argumentsFrom_here, hopen]
  simp [PartialReading.words, PartialReading.here, Reach.finding]

theorem beginning_here (hi : ¬ q.tokens.size ≤ r.position)
    (h : part.BreaksOff (q.tokens.toList.drop r.position)) :
    r.beginning (.here parts h) = r.broken q.tokens part.edge := by
  rw [Reach.beginning, PartialReading.argumentsFrom_here, ← Option.toList_map,
    map_span_openArgument? (Nat.lt_of_not_le hi)]
  simp [PartialReading.words, PartialReading.here, Reach.broken]

theorem mem_along_partial_of_size_le (hi : q.tokens.size ≤ r.position) :
    found ∈ q.along ((part :: parts).map Part.edge) r ∧ found.exact = false ↔
      q.allowPartial = true ∧
        ∃ b : PartialReading (part :: parts) (q.tokens.toList.drop r.position),
          found = r.beginning b := by
  have hoff := breaksOff_iff.1 (.inl hi : q.tokens.size ≤ r.position ∨
    part.edge.breaksOff q.tokens r.position = true)
  rw [List.map_cons, along, if_pos hi]
  constructor
  · rintro ⟨hmem, -⟩
    split at hmem
    · next hpartial =>
      obtain rfl := List.mem_singleton.1 hmem
      exact ⟨hpartial, .here parts hoff, (beginning_here_of_size_le hi hoff).symm⟩
    · cases hmem
  · rintro ⟨hpartial, b, rfl⟩
    obtain ⟨h, rfl⟩ := b.eq_here_of_nil (List.drop_eq_nil_of_le (by simpa using hi))
    rw [if_pos hpartial, beginning_here_of_size_le hi h]
    exact ⟨List.mem_singleton_self _, rfl⟩

/-- The partial findings along the edges of some parts are the partial readings by the parts. -/
theorem mem_along_partial : found ∈ q.along (parts.map Part.edge) r ∧ found.exact = false ↔
    q.allowPartial = true ∧
      ∃ b : PartialReading parts (q.tokens.toList.drop r.position), found = r.beginning b := by
  induction parts generalizing r with
  | nil =>
    refine iff_of_false (fun ⟨hmem, hexact⟩ => ?_) fun ⟨_, b, _⟩ => b.false_of_nil
    simp only [List.map_nil, along] at hmem
    split at hmem
    · obtain rfl := List.mem_singleton.1 hmem
      cases hexact
    · cases hmem
  | cons part parts ih =>
    by_cases hi : q.tokens.size ≤ r.position
    · exact mem_along_partial_of_size_le hi
    · rw [List.map_cons, along, if_neg hi, List.mem_append, List.mem_flatMap, or_and_right]
      constructor
      · rintro (⟨⟨stop, hstop, hmem⟩, hexact⟩ | ⟨hmem, -⟩)
        · obtain ⟨piece, htakes, rfl, hdrop⟩ := mem_stops.1 hstop
          obtain ⟨hpartial, b, rfl⟩ := ih.1 ⟨hmem, hexact⟩
          exact ⟨hpartial, .cons htakes hdrop b, (r.beginning_cons htakes hdrop b).symm⟩
        · split at hmem
          · next hoff =>
            rw [Bool.and_eq_true] at hoff
            obtain rfl := List.mem_singleton.1 hmem
            have hoff' := breaksOff_iff.1 (.inr hoff.2)
            exact ⟨hoff.1, .here parts hoff', (beginning_here hi hoff').symm⟩
          · cases hmem
      · rintro ⟨hpartial, b, rfl⟩
        rcases b.here_or_cons with ⟨h, rfl⟩ | ⟨piece, later, htakes, hdrop, b, rfl⟩
        · have hoff := (breaksOff_iff.2 h).resolve_left hi
          rw [beginning_here hi h, hpartial, hoff]
          exact .inr ⟨List.mem_singleton_self _, rfl⟩
        · have hrest := drop_add_of_drop piece hdrop
          subst hrest
          have hfound := r.beginning_cons htakes hdrop b
          refine .inl ⟨⟨r.position + piece.length, mem_stops.2 ⟨piece, htakes, rfl, hdrop⟩, ?_⟩, rfl⟩
          exact (ih.2 ⟨hpartial, b, hfound⟩).1

/-- The best of what there is along a path is partial if there is no reading. -/
theorem best_along_partial :
    best (q.along path r) = some found ∧ found.exact = false ↔
      q.readings path r = [] ∧ (q.along path r).head? = some found := by
  have hnone : (q.along path r).find? (·.exact) = none ↔ q.readings path r = [] := by
    rw [find?_exact_along, Option.map_eq_none_iff, List.head?_eq_none_iff]
  constructor
  · rintro ⟨hbest, hexact⟩
    cases hfind : (q.along path r).find? (·.exact) with
    | some found' =>
      rw [best, hfind, Option.some_or] at hbest
      cases hbest
      have hexact' : found.exact = true := by simpa using List.find?_some hfind
      rw [hexact] at hexact'
      cases hexact'
    | none =>
      rw [best, hfind, Option.none_or] at hbest
      exact ⟨hnone.1 hfind, hbest⟩
  · rintro ⟨hreadings, hhead⟩
    have hfind := hnone.2 hreadings
    refine ⟨by rw [best, hfind, Option.none_or, hhead], ?_⟩
    simpa using List.find?_eq_none.1 hfind found (List.mem_of_head? hhead)

/-- A statement is found to break off on the path of the parts if it is a beginning of them and has
no reading. -/
theorem exists_best_along_partial (hq : q.allowPartial = true) :
    (∃ found, best (q.along (parts.map Part.edge) .start) = some found ∧ found.exact = false) ↔
      (¬ ∃ pieces, IsReading parts q.tokens.toList pieces) ∧ IsBeginning parts q.tokens.toList := by
  have hreadings : q.readings (parts.map Part.edge) .start = [] ↔
      ¬ ∃ pieces, IsReading parts q.tokens.toList pieces := by
    rw [List.eq_nil_iff_forall_not_mem]
    simp only [mem_readings_start]
    constructor
    · rintro h ⟨pieces, hreading⟩
      exact h _ ⟨pieces, hreading, rfl⟩
    · rintro h r ⟨pieces, hreading, -⟩
      exact h ⟨pieces, hreading⟩
  simp only [best_along_partial, exists_and_left]
  rw [hreadings, ← PartialReading.nonempty_iff]
  refine and_congr_right fun hno => ?_
  rw [← hreadings] at hno
  constructor
  · rintro ⟨found, hhead⟩
    obtain ⟨-, hexact⟩ := best_along_partial.2 ⟨hno, hhead⟩
    obtain ⟨-, b, -⟩ := mem_along_partial.1 ⟨List.mem_of_head? hhead, hexact⟩
    exact ⟨b⟩
  · rintro ⟨b⟩
    have hmem := (mem_along_partial (q := q) (r := .start)).2 ⟨hq, b, rfl⟩
    exact Option.isSome_iff_exists.1 (List.isSome_head?.2 (List.ne_nil_of_mem hmem.1))

end

end Query

namespace MatchingTree

/-- A statement can be completed to exactly those definitions of the type of whose patterns it is a
beginning and not an instance, and each of them is found once. -/
theorem Reachable.completion_iff_beginning {t : MatchingTree} (ht : t.Reachable) (phase : Phase)
    (statement : Statement) :
    ((t.completions (.phase phase) statement).map (·.key)).Nodup ∧
      ∀ k, k ∈ (t.completions (.phase phase) statement).map (·.key) ↔
        ∃ d p, t.get? k = some d ∧ d.type = .phase phase ∧
          Pattern.ofDeclaration d.declaration = .ok p ∧
          (¬ ∃ pieces, IsReading p.parts statement.tokens.toList pieces) ∧
          IsBeginning p.parts statement.tokens.toList := by
  have h := ht.wellFormed
  refine ⟨(t.nodup_search (.phase phase) statement true).sublist (List.filter_sublist.map _), ?_⟩
  intro k
  have hfound (p : Pattern) :
      (∃ found, best (Query.along ⟨statement.tokens, true⟩ p.edges .start) = some found ∧
        found.exact = false) ↔ _ := Query.exists_best_along_partial rfl
  simp only [completions, List.mem_map, List.mem_filter, h.mem_search, Bool.not_eq_true']
  constructor
  · rintro ⟨_, ⟨⟨k, d, p, found, hd, hplace, hbest, rfl⟩, hexact⟩, rfl⟩
    obtain ⟨e, he, rfl⟩ := get?_eq_some.1 hd
    obtain ⟨htype, hp⟩ := Definition.place?_eq_some.1 hplace
    exact ⟨e.definition, p, hd, htype, (h.compiled he).symm.trans hp,
      (hfound p).1 ⟨found, hbest, hexact⟩⟩
  · rintro ⟨d, p, hd, htype, hp, hbegins⟩
    obtain ⟨e, he, rfl⟩ := get?_eq_some.1 hd
    have hplace := Definition.place?_eq_some.2 ⟨htype, (h.compiled he).trans hp⟩
    obtain ⟨found, hbest, hexact⟩ := (hfound p).2 hbegins
    exact ⟨_, ⟨⟨k, _, p, found, hd, hplace, hbest, rfl⟩, hexact⟩, rfl⟩

/-- The word that would end one definition stands in the open quotes of another, and a definition
is gone. -/
theorem completion_iff_beginning_press :
    let press (declaration : String) : Definition :=
      ⟨"keys", .phase .action, declaration, .optional, .native "press" none, none⟩
    let t := (((empty.run (.addOrUpdate (press "I type {what}"))).run
      (.addOrUpdate (press "I type '{text}' and press enter"))).run
      (.addOrUpdate (press "I press"))).run (.remove ⟨0, 0⟩)
    let tokens := (Statement.ofText "I type 'a press").tokens.toList
    t.Reachable ∧ ∃ d p, t.get? ⟨1, 0⟩ = some d ∧ d.type = .phase .action ∧
      Pattern.ofDeclaration d.declaration = .ok p ∧ (¬ ∃ pieces, IsReading p.parts tokens pieces) ∧
      IsBeginning p.parts tokens := by
  intro press t tokens
  have ht : t.Reachable := .step _ (.step _ (.step _ (.step _ .empty rfl) rfl) rfl) trivial
  exact ⟨ht, ((ht.completion_iff_beginning .action (.ofText "I type 'a press")).2 ⟨1, 0⟩).1
    (by decide +kernel)⟩

end MatchingTree

end StepLinker

import StepLinker.Proofs.Tree.Arguments
import StepLinker.Proofs.Tree.Contents
import StepLinker.Proofs.Tree.Path

/-!
# Exact matches

The ways to read a statement to its end along the path of a definition (`Query.readings`) are its
readings by the pattern, in the order of the walk, and the exact match is the first of them
(`Definition.match?`). So the exact matches of a search depend on the definitions of the type and the
tokens only (`WellFormed.mem_exactMatches`), each key is among them once at most, and it is if and
only if the pattern of its definition has a reading of the statement.
-/

namespace StepLinker

/-! ## The readings along a path -/

/-- Where parts that take up the pieces lead from here. -/
def Reach.after (r : Reach) (parts : List Part) (pieces : List (List Token)) : Reach where
  position := r.position + pieces.flatten.length
  spans := r.spans ++ (argumentsFrom r.position parts pieces).map (·.span)
  literals := r.literals + parts.countP (·.placeholder?.isNone)

theorem Reach.after_nil (r : Reach) : r.after [] [] = r := by
  simp [Reach.after, argumentsFrom]

theorem Reach.after_cons (r : Reach) (part : Part) (parts : List Part) (piece : List Token)
    (pieces : List (List Token)) : r.after (part :: parts) (piece :: pieces) =
      (r.take part.edge (r.position + piece.length)).after parts pieces := by
  cases part <;>
    simp [Reach.after, Reach.take, argumentsFrom, Part.edge, Edge.span?, Edge.isWord,
      Part.placeholder?, Nat.add_assoc, Nat.add_comm 1]

theorem exists_parts (path : List Edge) : ∃ parts : List Part, parts.map Part.edge = path := by
  induction path with
  | nil => exact ⟨[], rfl⟩
  | cons edge path ih =>
    obtain ⟨part, rfl⟩ := edge.exists_part
    obtain ⟨parts, rfl⟩ := ih
    exact ⟨part :: parts, rfl⟩

namespace Query

/-- The ways to read all tokens that are left along the path, in the order of the walk. -/
def readings (q : Query) : List Edge → Reach → List Reach
  | [], r => if q.tokens.size ≤ r.position then [r] else []
  | edge :: path, r =>
    (q.stops edge r.position).flatMap fun stop => q.readings path (r.take edge stop)

section
variable {q : Query} {path : List Edge} {parts : List Part} {r r' : Reach}

theorem readings_eq (q : Query) (path : List Edge) (r : Reach) :
    q.readings path r = (⟨q.tokens, false⟩ : Query).readings path r := by
  induction path generalizing r with
  | nil => rfl
  | cons edge path ih => exact List.flatMap_congr fun stop _ => ih _

theorem stops_of_size_le {edge : Edge} {i : Nat} (h : q.tokens.size ≤ i) :
    q.stops edge i = [] := by
  obtain ⟨part, rfl⟩ := edge.exists_part
  refine List.eq_nil_iff_forall_not_mem.2 fun stop hstop => ?_
  have hspans := (mem_stops.1 hstop).lt
  rw [Array.length_toList] at hspans
  omega

theorem mem_readings : r' ∈ q.readings (parts.map Part.edge) r ↔
    ∃ pieces, List.Forall₂ Part.Takes parts pieces ∧
      q.tokens.toList.drop r.position = pieces.flatten ∧ r' = r.after parts pieces := by
  induction parts generalizing r with
  | nil =>
    have hover : q.tokens.size ≤ r.position ↔ q.tokens.toList.drop r.position = [] := by
      rw [List.drop_eq_nil_iff, Array.length_toList]
    simp only [List.map_nil, readings, List.forall₂_nil_left_iff, exists_eq_left,
      List.flatten_nil, Reach.after_nil, ← hover]
    split
    · next hi => simp [hi]
    · next hi => simp [hi]
  | cons part parts ih =>
    simp only [List.map_cons, readings, List.mem_flatMap, mem_stops, ih]
    constructor
    · rintro ⟨stop, ⟨piece, htakes, rfl, hdrop⟩, pieces, hpieces, hrest, rfl⟩
      refine ⟨piece :: pieces, .cons htakes hpieces, ?_, (r.after_cons ..).symm⟩
      rw [hdrop, List.flatten_cons]
      exact congrArg (piece ++ ·) hrest
    · rintro ⟨pieces, hpieces, hdrop, rfl⟩
      cases hpieces with
      | @cons _ piece _ pieces htakes hpieces =>
        rw [List.flatten_cons] at hdrop
        have hrest := drop_add_of_drop piece hdrop
        exact ⟨r.position + piece.length, ⟨piece, htakes, rfl, by rw [hdrop, hrest]⟩, pieces,
          hpieces, hrest, r.after_cons ..⟩

theorem mem_readings_start : r' ∈ q.readings (parts.map Part.edge) .start ↔
    ∃ pieces, IsReading parts q.tokens.toList pieces ∧ r' = Reach.start.after parts pieces := by
  rw [mem_readings]
  simp only [IsReading, Reach.start, List.drop_zero, and_assoc, eq_comm]

/-- What is found exactly along a path are its readings. -/
theorem filter_exact_along (q : Query) (path : List Edge) (r : Reach) :
    (q.along path r).filter (·.exact) = (q.readings path r).map (·.finding true) := by
  induction path generalizing r with
  | nil =>
    unfold along readings
    split <;> simp [Reach.finding]
  | cons edge path ih =>
    unfold along readings
    split
    · next hi =>
      rw [stops_of_size_le hi]
      split <;> simp [Reach.finding]
    · have hbroken : (if q.allowPartial && edge.breaksOff q.tokens r.position then
          [r.broken q.tokens edge] else []).filter (·.exact) = [] := by
        split <;> simp [Reach.broken]
      rw [List.filter_append, hbroken, List.append_nil, List.filter_flatMap, List.map_flatMap]
      exact List.flatMap_congr fun stop _ => ih _

theorem find?_exact_along (q : Query) (path : List Edge) (r : Reach) :
    (q.along path r).find? (·.exact) = (q.readings path r).head?.map (·.finding true) := by
  rw [← List.head?_filter, filter_exact_along, List.head?_map]

/-- The best of what there is along a path is exact if it is the first of the readings. -/
theorem best_along_exact {found : Finding} :
    best (q.along path r) = some found ∧ found.exact = true ↔
      ∃ r', (q.readings path r).head? = some r' ∧ found = r'.finding true := by
  unfold best
  rw [find?_exact_along]
  cases hreadings : (q.readings path r).head? with
  | some r' =>
    simp only [Option.map_some, Option.some_or, Option.some.injEq, exists_eq_left']
    constructor
    · rintro ⟨rfl, -⟩
      rfl
    · rintro rfl
      exact ⟨rfl, rfl⟩
  | none =>
    simp only [Option.map_none, Option.none_or, reduceCtorEq, false_and, exists_false, iff_false]
    rintro ⟨hhead, hexact⟩
    have hmem := List.mem_filter.2 ⟨List.mem_of_head? hhead, hexact⟩
    rw [filter_exact_along, List.head?_eq_none_iff.1 hreadings] at hmem
    cases hmem

end

end Query

/-! ## Exact matches of a definition -/

def Definition.match? (d : Definition) (k : SlotKey) (tokens : Array Token) : Option Match :=
  match d.place? with
  | none => none
  | some (_, p) =>
    ((⟨tokens, false⟩ : Query).readings p.edges .start).head?.map fun r =>
      .ofFinding k d p (.ofPattern p) (r.finding true)

namespace Definition

section
variable {d : Definition} {k : SlotKey} {tokens : Array Token} {m : Match} {phase : Phase}
  {p : Pattern}

theorem match?_eq_some (hplace : d.place? = some (phase, p)) : d.match? k tokens = some m ↔
    ∃ r, ((⟨tokens, false⟩ : Query).readings p.edges .start).head? = some r ∧
      m = .ofFinding k d p (.ofPattern p) (r.finding true) := by
  rw [match?, hplace]
  exact Option.map_eq_some_iff.trans (exists_congr fun r => and_congr_right fun _ => eq_comm)

theorem exists_place?_of_match? (h : d.match? k tokens = some m) :
    ∃ phase p, d.place? = some (phase, p) := by
  unfold match? at h
  cases hplace : d.place? with
  | none => simp [hplace] at h
  | some place => exact ⟨place.1, place.2, rfl⟩

theorem key_of_match? (h : d.match? k tokens = some m) : m.key = k := by
  obtain ⟨phase, p, hplace⟩ := exists_place?_of_match? h
  obtain ⟨r, -, rfl⟩ := (match?_eq_some hplace).1 h
  rfl

theorem definition_of_match? (h : d.match? k tokens = some m) : m.definition = d := by
  obtain ⟨phase, p, hplace⟩ := exists_place?_of_match? h
  obtain ⟨r, -, rfl⟩ := (match?_eq_some hplace).1 h
  rfl

theorem isSome_match? (hplace : d.place? = some (phase, p)) (k : SlotKey)
    (tokens : Array Token) :
    (d.match? k tokens).isSome ↔ ∃ pieces, IsReading p.parts tokens.toList pieces := by
  have hsome : (d.match? k tokens).isSome = true ↔
      (⟨tokens, false⟩ : Query).readings (p.parts.map Part.edge) .start ≠ [] := by
    rw [match?, hplace]
    exact Option.isSome_map.symm ▸ List.isSome_head?
  rw [hsome]
  constructor
  · intro hne
    obtain ⟨r, hr⟩ := List.exists_mem_of_ne_nil _ hne
    obtain ⟨pieces, hreading, -⟩ := Query.mem_readings_start.1 hr
    exact ⟨pieces, hreading⟩
  · rintro ⟨pieces, hreading⟩
    exact List.ne_nil_of_mem (Query.mem_readings_start.2 ⟨pieces, hreading, rfl⟩)

/-- An exact match is the first of the readings, with its arguments and the words of the
pattern. -/
theorem exists_reading_of_match? (hplace : d.place? = some (phase, p))
    (h : d.match? k tokens = some m) :
    ∃ pieces, IsReading p.parts tokens.toList pieces ∧
      ((⟨tokens, false⟩ : Query).readings p.edges .start).head? =
        some (Reach.start.after p.parts pieces) ∧
      m.arguments = argumentsFrom 0 p.parts pieces ∧ m.literals = p.literalCount := by
  obtain ⟨r, hr, rfl⟩ := (match?_eq_some hplace).1 h
  obtain ⟨pieces, hreading, rfl⟩ := Query.mem_readings_start.1 (List.mem_of_head? hr)
  refine ⟨pieces, hreading, hr, ?_, ?_⟩
  · simp only [Match.ofFinding, Reach.finding, Reach.after, Reach.start, List.nil_append]
    refine zip_spans ?_
    rw [map_placeholder_argumentsFrom hreading.1]
    exact List.prefix_rfl
  · simp [Match.ofFinding, Reach.finding, Reach.after, Reach.start, Pattern.literalCount]

end

end Definition

/-- What a match says apart from the key. -/
def Match.view (m : Match) : Definition × List ArgumentMatch × Nat × Specificity :=
  (m.definition, m.arguments, m.literals, m.specificity)

theorem Definition.view_match? (d : Definition) (k k' : SlotKey) (tokens : Array Token) :
    (d.match? k tokens).map Match.view = (d.match? k' tokens).map Match.view := by
  unfold match?
  cases d.place? with
  | none => rfl
  | some place => simp only [Option.map_map, Function.comp_def, Match.view, Match.ofFinding]

/-! ## Exact matches of a search -/

namespace MatchingTree

def exactMatches (t : MatchingTree) (type : StepType) (statement : Statement)
    (allowPartial : Bool) : List Match :=
  (t.search type statement allowPartial).filter (·.exact)

section
variable {t t' : MatchingTree} {phase : Phase} {statement : Statement} {allowPartial : Bool}
  {m : Match}

theorem WellFormed.mem_exactMatches (h : t.WellFormed) :
    m ∈ t.exactMatches (.phase phase) statement allowPartial ↔
      ∃ k d, t.get? k = some d ∧ d.type = .phase phase ∧
        d.match? k statement.tokens = some m := by
  have hreadings (p : Pattern) : (⟨statement.tokens, false⟩ : Query).readings p.edges .start =
      (⟨statement.tokens, allowPartial⟩ : Query).readings p.edges .start :=
    (Query.readings_eq ⟨statement.tokens, allowPartial⟩ p.edges .start).symm
  rw [exactMatches, List.mem_filter, h.mem_search]
  constructor
  · rintro ⟨⟨k, d, p, found, hd, hplace, hbest, rfl⟩, hexact⟩
    obtain ⟨r, hr, rfl⟩ := Query.best_along_exact.1 ⟨hbest, hexact⟩
    refine ⟨k, d, hd, (Definition.place?_eq_some.1 hplace).1, ?_⟩
    exact (Definition.match?_eq_some hplace).2 ⟨r, by rw [hreadings, hr], rfl⟩
  · rintro ⟨k, d, hd, htype, hm⟩
    obtain ⟨phase', p, hplace⟩ := Definition.exists_place?_of_match? hm
    obtain rfl : phase' = phase := by
      rw [(Definition.place?_eq_some.1 hplace).1] at htype
      exact StepType.phase.inj htype
    obtain ⟨r, hr, rfl⟩ := (Definition.match?_eq_some hplace).1 hm
    rw [hreadings] at hr
    obtain ⟨hbest, hexact⟩ := Query.best_along_exact.2 ⟨r, hr, rfl⟩
    exact ⟨⟨k, d, p, _, hd, hplace, hbest, rfl⟩, hexact⟩

theorem nodup_exactMatches (t : MatchingTree) (type : StepType) (statement : Statement)
    (allowPartial : Bool) : ((t.exactMatches type statement allowPartial).map (·.key)).Nodup :=
  (t.nodup_search type statement allowPartial).sublist (List.filter_sublist.map _)

theorem WellFormed.get?_of_mem_exactMatches (h : t.WellFormed)
    (hm : m ∈ t.exactMatches (.phase phase) statement allowPartial) :
    t.get? m.key = some m.definition := by
  obtain ⟨k, d, hd, -, hmatch⟩ := h.mem_exactMatches.1 hm
  rw [Definition.key_of_match? hmatch, Definition.definition_of_match? hmatch, hd]

theorem WellFormed.mem_views (h : t.WellFormed)
    {v : Definition × List ArgumentMatch × Nat × Specificity} :
    v ∈ (t.exactMatches (.phase phase) statement allowPartial).map Match.view ↔
      ∃ d ∈ t.live, d.type = .phase phase ∧
        (d.match? ⟨0, 0⟩ statement.tokens).map Match.view = some v := by
  simp only [List.mem_map, h.mem_exactMatches, mem_live]
  constructor
  · rintro ⟨m, ⟨k, d, hd, htype, hm⟩, rfl⟩
    refine ⟨d, ⟨k, hd⟩, htype, ?_⟩
    rw [d.view_match? _ k, hm]
    rfl
  · rintro ⟨d, ⟨k, hd⟩, htype, hv⟩
    rw [d.view_match? _ k, Option.map_eq_some_iff] at hv
    obtain ⟨m, hm, rfl⟩ := hv
    exact ⟨m, ⟨k, d, hd, htype, hm⟩, rfl⟩

theorem WellFormed.nodup_definitions (h : t.WellFormed)
    (hinj : ∀ k k' d, t.get? k = some d → t.get? k' = some d → k = k') (phase : Phase) :
    ((t.exactMatches (.phase phase) statement allowPartial).map (·.definition)).Nodup := by
  have hkeys := t.nodup_exactMatches (.phase phase) statement allowPartial
  refine hkeys.of_map.map_on fun m hm m' hm' hd => ?_
  have hget := h.get?_of_mem_exactMatches hm
  have hget' := h.get?_of_mem_exactMatches hm'
  exact List.inj_on_of_nodup_map hkeys hm hm' (hinj _ _ _ hget (hd ▸ hget'))

theorem WellFormed.nodup_views (h : t.WellFormed)
    (hinj : ∀ k k' d, t.get? k = some d → t.get? k' = some d → k = k') (phase : Phase) :
    ((t.exactMatches (.phase phase) statement allowPartial).map Match.view).Nodup := by
  have hnodup : (((t.exactMatches (.phase phase) statement allowPartial).map Match.view).map
      Prod.fst).Nodup := by
    rw [List.map_map]
    exact h.nodup_definitions hinj phase
  exact hnodup.of_map

/-- Trees with the same definitions, none of them twice, have the same exact matches, keys apart. -/
theorem WellFormed.perm_views (h : t.WellFormed) (h' : t'.WellFormed)
    (hinj : ∀ k k' d, t.get? k = some d → t.get? k' = some d → k = k')
    (hinj' : ∀ k k' d, t'.get? k = some d → t'.get? k' = some d → k = k')
    (hlive : ∀ d, d ∈ t.live ↔ d ∈ t'.live) (type : StepType) :
    ((t.exactMatches type statement allowPartial).map Match.view).Perm
      ((t'.exactMatches type statement allowPartial).map Match.view) := by
  cases type with
  | phase phase =>
    rw [List.perm_ext_iff_of_nodup (h.nodup_views hinj phase) (h'.nodup_views hinj' phase)]
    intro v
    rw [h.mem_views, h'.mem_views]
    simp only [hlive]
  | conjunction => exact .refl _

/-- The exact matches of a search have the arguments of readings by their declarations. -/
theorem WellFormed.exists_reading_of_mem_exactMatches (h : t.WellFormed) {type : StepType}
    (hm : m ∈ t.exactMatches type statement allowPartial) :
    ∃ p pieces, Pattern.ofDeclaration m.definition.declaration = .ok p ∧
      IsReading p.parts statement.tokens.toList pieces ∧
      m.arguments = argumentsFrom 0 p.parts pieces := by
  cases type with
  | conjunction => cases hm
  | phase phase =>
    obtain ⟨k, d, hd, -, hmatch⟩ := h.mem_exactMatches.1 hm
    obtain ⟨e, he, rfl⟩ := get?_eq_some.1 hd
    obtain ⟨phase', p, hplace⟩ := Definition.exists_place?_of_match? hmatch
    obtain ⟨pieces, hreading, -, harguments, -⟩ := Definition.exists_reading_of_match? hplace hmatch
    refine ⟨p, pieces, ?_, hreading, harguments⟩
    rw [Definition.definition_of_match? hmatch, ← h.compiled he]
    exact (Definition.place?_eq_some.1 hplace).2

end

/-- A search of a tree matches exactly those definitions of the type whose patterns have a reading
of the statement, and each of them once. -/
theorem Reachable.exact_iff_reading {t : MatchingTree} (ht : t.Reachable) (phase : Phase)
    (statement : Statement) (allowPartial : Bool) :
    (((t.search (.phase phase) statement allowPartial).filter (·.exact)).map (·.key)).Nodup ∧
      ∀ k, k ∈ ((t.search (.phase phase) statement allowPartial).filter (·.exact)).map (·.key) ↔
        ∃ d p, t.get? k = some d ∧ d.type = .phase phase ∧
          Pattern.ofDeclaration d.declaration = .ok p ∧
          ∃ pieces, IsReading p.parts statement.tokens.toList pieces := by
  have h := ht.wellFormed
  refine ⟨t.nodup_exactMatches (.phase phase) statement allowPartial, fun k => ?_⟩
  rw [List.mem_map]
  constructor
  · rintro ⟨m, hm, rfl⟩
    obtain ⟨k, d, hd, htype, hmatch⟩ := h.mem_exactMatches.1 hm
    obtain ⟨p, pieces, hp, hreading, -⟩ := h.exists_reading_of_mem_exactMatches hm
    rw [Definition.definition_of_match? hmatch] at hp
    rw [Definition.key_of_match? hmatch]
    exact ⟨d, p, hd, htype, hp, pieces, hreading⟩
  · rintro ⟨d, p, hd, htype, hp, hreading⟩
    obtain ⟨e, he, rfl⟩ := get?_eq_some.1 hd
    have hplace := Definition.place?_eq_some.2 ⟨htype, (h.compiled he).trans hp⟩
    have hsome := (Definition.isSome_match? hplace k statement.tokens).2 hreading
    obtain ⟨m, hm⟩ := Option.isSome_iff_exists.1 hsome
    exact ⟨m, h.mem_exactMatches.2 ⟨k, _, hd, htype, hm⟩, Definition.key_of_match? hm⟩

/-- The word after an argument stands in the argument too, and a definition is gone. -/
theorem exact_iff_reading_say :
    let say (declaration : String) : Definition :=
      ⟨"talk", .phase .action, declaration, .optional, .native "say" none, none⟩
    let t := ((empty.run (.addOrUpdate (say "I say {what} and go"))).run
      (.addOrUpdate (say "I say {what}"))).run (.remove ⟨1, 0⟩)
    t.Reachable ∧ ∃ d p, t.get? ⟨0, 0⟩ = some d ∧ d.type = .phase .action ∧
      Pattern.ofDeclaration d.declaration = .ok p ∧
      ∃ pieces, IsReading p.parts (Statement.ofText "I say yes and no and go").tokens.toList
        pieces := by
  intro say t
  have ht : t.Reachable := .step _ (.step _ (.step _ .empty rfl) rfl) trivial
  exact ⟨ht, ((ht.exact_iff_reading .action (.ofText "I say yes and no and go") true).2 ⟨0, 0⟩).1
    (by decide +kernel)⟩

end MatchingTree

end StepLinker

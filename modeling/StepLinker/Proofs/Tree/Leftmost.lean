import Mathlib.Data.List.Lex
import StepLinker.Proofs.Tree.Exact

/-!
# Leftmost readings

A statement may have several readings by one pattern. The one that an exact match shows is lazy:
each argument, from the left, stops as early as it can (`Reachable.exact_leftmost`). The walk tries
the stops of an argument in order and all that is behind one before it comes to the next, so the
readings come in the order of their stops, taken as words of a dictionary (`Query.pairwise_readings`).
-/

namespace StepLinker

/-! ## The order of readings -/

def Reach.stops (r : Reach) : List Nat :=
  r.spans.map (·.stop)

theorem Reach.stops_after (r : Reach) (parts : List Part) (pieces : List (List Token)) :
    (r.after parts pieces).stops =
      r.stops ++ (argumentsFrom r.position parts pieces).map (·.span.stop) := by
  simp [Reach.stops, Reach.after]

theorem Reach.stops_take (r : Reach) {edge : Edge} (h : edge.isWord = false) (stop : Nat) :
    (r.take edge stop).stops = r.stops ++ [stop] := by
  cases edge with
  | word text => cases h
  | argument hint quote => simp [Reach.stops, Reach.take, Edge.span?]

namespace Query

section
variable {q : Query} {r : Reach} {parts : List Part}

theorem pairwise_readings (q : Query) (parts : List Part) (r : Reach) :
    (q.readings (parts.map Part.edge) r).Pairwise fun a b =>
      a.stops = b.stops ∨ a.stops < b.stops := by
  induction parts generalizing r with
  | nil =>
    simp only [List.map_nil, readings]
    split <;> simp
  | cons part parts ih =>
    rw [List.map_cons, readings, List.pairwise_flatMap]
    refine ⟨fun stop _ => ih _, (q.pairwise_stops part.edge r.position).imp ?_⟩
    -- two ways that part here are in order, whatever comes behind
    rintro s s' ⟨hlt, hword⟩ a ha b hb
    obtain ⟨pieces, -, -, rfl⟩ := mem_readings.1 ha
    obtain ⟨pieces', -, -, rfl⟩ := mem_readings.1 hb
    simp only [Reach.stops_after, r.stops_take hword, List.append_assoc]
    exact .inr (List.append_left_lt (.rel hlt))

/-- The first reading stops its arguments no later than any other does. -/
theorem stops_head_readings {a b : Reach}
    (ha : (q.readings (parts.map Part.edge) r).head? = some a)
    (hb : b ∈ q.readings (parts.map Part.edge) r) : a.stops = b.stops ∨ a.stops < b.stops := by
  have hordered := q.pairwise_readings parts r
  obtain ⟨rest, hreadings⟩ := List.head?_eq_some_iff.1 ha
  rw [hreadings] at hordered hb
  rcases List.mem_cons.1 hb with rfl | hb
  · exact .inl rfl
  · exact List.rel_of_pairwise_cons hordered hb

end

end Query

/-! ## Spans -/

/-- The spans of a reading are not empty, lie within the tokens, and have the quote marks that the
placeholders ask for. -/
theorem span_of_mem_argumentsFrom {parts : List Part} {pieces : List (List Token)}
    (h : List.Forall₂ Part.Takes parts pieces) {i : Nat} {m : ArgumentMatch}
    (hm : m ∈ argumentsFrom i parts pieces) :
    m.span.start < m.span.stop ∧ m.span.stop ≤ i + pieces.flatten.length ∧
      m.span.opened = m.placeholder.quote.isSome ∧ m.span.closed = m.placeholder.quote.isSome := by
  induction h generalizing i with
  | nil => cases hm
  | @cons part piece parts pieces htakes _ ih =>
    have hlength := List.length_pos_iff.2 htakes.ne_nil
    rw [List.flatten_cons, List.length_append]
    rw [argumentsFrom, List.mem_append, Option.mem_toList, Option.map_eq_some_iff] at hm
    rcases hm with ⟨p, -, rfl⟩ | hm
    · exact ⟨by simpa using hlength, by simp, rfl, rfl⟩
    · obtain ⟨hlt, hle, hmarks⟩ := ih hm
      exact ⟨hlt, by omega, hmarks⟩

/-! ## Exact matches -/

/-- The arguments are those of the reading in which each of them, from the left, stops as early as
it can. -/
structure LeftmostReading (p : Pattern) (tokens : List Token) (arguments : List ArgumentMatch) :
    Prop where
  /-- There is one for each placeholder, in the order of the declaration. -/
  placeholders : arguments.map (·.placeholder) = p.placeholders
  bounds : ∀ m ∈ arguments, m.span.start < m.span.stop ∧ m.span.stop ≤ tokens.length
  marks : ∀ m ∈ arguments, m.span.opened = m.placeholder.quote.isSome ∧
    m.span.closed = m.placeholder.quote.isSome
  reading : ∃ pieces, IsReading p.parts tokens pieces ∧ arguments = argumentsFrom 0 p.parts pieces
  /-- Where two readings first part, this one stops earlier. -/
  least : ∀ pieces, IsReading p.parts tokens pieces →
    arguments.map (·.span.stop) = (argumentsFrom 0 p.parts pieces).map (·.span.stop) ∨
      arguments.map (·.span.stop) < (argumentsFrom 0 p.parts pieces).map (·.span.stop)

theorem Definition.leftmostReading_of_match? {d : Definition} {phase : Phase} {p : Pattern}
    (hplace : d.place? = some (phase, p)) {k : SlotKey} {tokens : Array Token} {m : Match}
    (h : d.match? k tokens = some m) :
    LeftmostReading p tokens.toList m.arguments ∧ m.literals = p.literalCount := by
  obtain ⟨pieces, hreading, hhead, harguments, hliterals⟩ := exists_reading_of_match? hplace h
  have hspan {a : ArgumentMatch} (ha : a ∈ m.arguments) :=
    span_of_mem_argumentsFrom hreading.1 (harguments ▸ ha)
  rw [hreading.2, Nat.zero_add] at hspan
  refine ⟨⟨?_, ?_, ?_, ⟨pieces, hreading, harguments⟩, ?_⟩, hliterals⟩
  · rw [harguments, map_placeholder_argumentsFrom hreading.1, Pattern.placeholders]
  · exact fun a ha => ⟨(hspan ha).1, (hspan ha).2.1⟩
  · exact fun a ha => (hspan ha).2.2
  · intro pieces' hreading'
    have hleast := Query.stops_head_readings hhead
      (Query.mem_readings_start.2 ⟨pieces', hreading', rfl⟩)
    rw [Reach.stops_after, Reach.stops_after] at hleast
    exact harguments ▸ hleast

namespace MatchingTree

/-- An exact match is one of a definition of the type, and shows its leftmost reading. -/
theorem Reachable.exact_leftmost {t : MatchingTree} (ht : t.Reachable) {type : StepType}
    {statement : Statement} {allowPartial : Bool} {m : Match}
    (hm : m ∈ t.search type statement allowPartial) (hexact : m.exact = true) :
    t.get? m.key = some m.definition ∧ m.definition.type = type ∧
      ∃ p, Pattern.ofDeclaration m.definition.declaration = .ok p ∧
        LeftmostReading p statement.tokens.toList m.arguments ∧ m.literals = p.literalCount := by
  cases type with
  | conjunction => cases hm
  | phase phase =>
    have h := ht.wellFormed
    obtain ⟨k, d, hd, htype, hmatch⟩ := h.mem_exactMatches.1 (List.mem_filter.2 ⟨hm, hexact⟩)
    obtain ⟨phase', p, hplace⟩ := Definition.exists_place?_of_match? hmatch
    obtain ⟨hleftmost, hliterals⟩ := Definition.leftmostReading_of_match? hplace hmatch
    rw [Definition.key_of_match? hmatch, Definition.definition_of_match? hmatch]
    refine ⟨hd, htype, p, ?_, hleftmost, hliterals⟩
    obtain ⟨e, he, rfl⟩ := get?_eq_some.1 hd
    exact (h.compiled he).symm.trans (Definition.place?_eq_some.1 hplace).2

/-- The word between the arguments is said twice, so the first of them may stop before either. The
statement breaks off in one definition before it is found to match another. -/
theorem exact_leftmost_say :
    let say (declaration : String) : Definition :=
      ⟨"talk", .phase .action, declaration, .optional, .native "say" none, none⟩
    let t := ((empty.run (.addOrUpdate (say "I say {what} and {more} and leave"))).run
      (.addOrUpdate (say "I say {what:text} and '{more}'"))).run
      (.addOrUpdate (say "I say {what} and {more} and go"))
    let statement := Statement.ofText "I say a and b and c and go"
    t.Reachable ∧ ∃ m ∈ t.search (.phase .action) statement true, m.exact = true ∧
      m.arguments.map (·.span.stop) = [3, 7] ∧ m.definition.type = .phase .action ∧
      ∃ p, Pattern.ofDeclaration m.definition.declaration = .ok p ∧
        LeftmostReading p statement.tokens.toList m.arguments ∧ m.literals = p.literalCount := by
  intro say t statement
  have ht : t.Reachable := .step _ (.step _ (.step _ .empty rfl) rfl) rfl
  have hfound : (t.get? ⟨2, 0⟩).map (fun d => (d.type, (d.match? ⟨2, 0⟩ statement.tokens).map
      (·.arguments.map (·.span.stop)))) = some (.phase .action, some [3, 7]) := by
    decide +kernel
  obtain ⟨d, hd, hvalue⟩ := Option.map_eq_some_iff.1 hfound
  obtain ⟨htype, hmatch⟩ := Prod.mk.inj hvalue
  obtain ⟨m, hm, hmstops⟩ := Option.map_eq_some_iff.1 hmatch
  obtain ⟨hmem, hexact⟩ := List.mem_filter.1
    (ht.wellFormed.mem_exactMatches.2 ⟨⟨2, 0⟩, d, hd, htype, hm⟩)
  obtain ⟨-, htype, p, hp, hleftmost, hliterals⟩ := ht.exact_leftmost hmem hexact
  exact ⟨ht, m, hmem, hexact, hmstops, htype, p, hp, hleftmost, hliterals⟩

end MatchingTree

end StepLinker

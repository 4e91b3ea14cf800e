import StepLinker.Proofs.Linker.Binding
import StepLinker.Proofs.Linker.RawText
import StepLinker.Proofs.Number.Numeral

/-!
# Integers among arguments

An argument is of the type integer if its value is a single integer token that no blank separates
from its quote marks. Then it is written as an optional sign and digits, and its value is the number
that these denote, or the text itself if the number has more than 64 bits. What the type is depends
only on the tokens that an argument takes up, and these lie in the statement whatever is in the tree,
so nothing is asked of the definitions here.
-/

namespace StepLinker

/-! ## Spans -/

section
variable {q : Query} {f : Forest} {n : Nat} {id root : SlotKey} {r : Reach}

theorem mem_of_best {findings : List Finding} {found : Finding} (h : best findings = some found) :
    found ∈ findings := by
  rcases Option.or_eq_some_iff.1 h with h | ⟨-, h⟩
  · exact List.mem_of_find?_eq_some h
  · exact List.mem_of_head? h

/-- What a walk comes across exactly, in whatever forest, is a reading along some path. -/
theorem Query.exists_reading_of_mem_sightings {s : SlotKey × Finding}
    (hs : s ∈ q.sightings f n id r) (hexact : s.2.exact = true) :
    ∃ path, ∃ r' ∈ q.readings path r, s.2 = r'.finding true := by
  induction n generalizing id r with
  | zero => cases hs
  | succ n ih =>
    unfold sightings at hs
    split at hs
    · cases hs
    · split at hs
      · next hi =>
        rcases List.mem_append.1 hs with hs | hs
        · obtain ⟨k, -, rfl⟩ := List.mem_map.1 hs
          exact ⟨[], r, by simp [readings, hi], rfl⟩
        · -- what is below is not found exactly
          split at hs
          · obtain ⟨k, -, rfl⟩ := List.mem_map.1 hs
            cases hexact
          · cases hs
      · obtain ⟨move, hmove, hs⟩ := List.mem_flatMap.1 hs
        cases move with
        | enter edge child stop =>
          obtain ⟨path, r', hr', hfound⟩ := ih hs
          have hstop := (of_enter_mem_moves hmove).2
          exact ⟨edge :: path, r', List.mem_flatMap.2 ⟨stop, hstop, hr'⟩, hfound⟩
        | breakOff edge child =>
          obtain ⟨k, -, rfl⟩ := List.mem_map.1 hs
          cases hexact

/-- The spans of what a walk finds exactly are those of arguments of a reading. -/
theorem Query.exists_holds_of_mem_run {s : Statement} {allowPartial : Bool} {k : SlotKey}
    {found : Finding} (hfound : (k, found) ∈ Query.run ⟨s.tokens, allowPartial⟩ f root)
    (hexact : found.exact = true) {span : Span} (hspan : span ∈ found.spans) :
    ∃ a : ArgumentMatch, a.span = span ∧ ∃ marks content, a.Holds s marks content := by
  have hbest := (distinct_run _ _ _).find?_eq_some.2 hfound
  rw [find?_run] at hbest
  obtain ⟨⟨k', found'⟩, hmem, rfl⟩ := List.mem_map.1 (mem_of_best hbest)
  obtain ⟨path, r, hr, rfl⟩ :=
    exists_reading_of_mem_sightings (List.mem_of_mem_filter hmem) hexact
  obtain ⟨parts, rfl⟩ := exists_parts path
  obtain ⟨pieces, hreading, rfl⟩ := mem_readings_start.1 hr
  obtain ⟨a, ha, rfl⟩ := List.mem_map.1 hspan
  exact ⟨a, rfl, ArgumentMatch.exists_holds_of_isReading hreading ha⟩

end

/-- In any tree, an argument of an exact match takes up tokens of the statement. They may be those
of another placeholder than its own, if the tree does not fit its definitions. -/
theorem MatchingTree.exists_holds_of_mem_search {t : MatchingTree} {type : StepType} {s : Statement}
    {allowPartial : Bool} {m : Match} (hm : m ∈ t.search type s allowPartial)
    (hexact : m.exact = true) {a : ArgumentMatch} (ha : a ∈ m.arguments) :
    ∃ a' : ArgumentMatch, a'.span = a.span ∧ ∃ marks content, a'.Holds s marks content := by
  obtain ⟨phase, k, found, -, hfound, hmatch⟩ := exists_of_mem_search hm
  obtain ⟨e, p, -, -, rfl⟩ := match?_eq_some.1 hmatch
  obtain ⟨⟨placeholder, span⟩, hzip, rfl⟩ := List.mem_map.1 ha
  exact Query.exists_holds_of_mem_run hfound hexact (List.of_mem_zip hzip).2

/-! ## Values -/

theorem ArgumentMatch.Holds.integral {s : Statement} {a : ArgumentMatch}
    {marks : Option (Token × Token)} {content : List Token} 
    (h : Holds s a marks content) (htype : a.type? s = some .integer) :
    Lexeme.Integral (a.raw s).toList := by
  obtain ⟨t, rfl, hkind, -⟩ := (h.typing).integer.1 htype
  obtain ⟨before, after, htokens, -⟩ := h.exists_places
  have ht : t ∈ s.tokens := by
    rw [← Array.mem_toList_iff, htokens]
    simp
  obtain ⟨_, _, -, -, -, -, -, hraw⟩ := h.raw_eq (List.cons_ne_nil _ _)
  rw [hraw]
  exact (Statement.hasRun ht (.inr (.inl hkind))).integer.1 hkind

section
variable {b : ArgumentBinding} {n : Int}

theorem ArgumentBinding.value_of_denotes (htype : b.type = some .integer)
    (h : Numeral.Denotes b.raw.toList n) :
    b.value = if -2 ^ 63 ≤ n ∧ n ≤ 2 ^ 63 - 1 then .integer n else .text b.raw := by
  rw [value, htype]
  dsimp only
  rw [Numeral.word64?_of_denotes h]
  split <;> rfl

theorem ArgumentBinding.type_of_value_integer (h : b.value = .integer n) :
    b.type = some .integer := by
  unfold value at h
  split at h
  · assumption
  · cases hbinary : Numeral.binary64? b.raw.toList <;> simp [hbinary] at h
  · cases h
  · cases h

end

namespace Linker

/-- An argument that is bound with the type integer is written as an optional sign and digits. Its
value is the number that they denote if this is a signed 64-bit one, and what is written otherwise.
Arguments of other types are no integers. -/
theorem bind_integers (l : Linker) (source : Option String) {step : Step} {b : Binding}
    (hb : (l.bind source step).1.binding = some b) {a : ArgumentBinding} (ha : a ∈ b.arguments) :
    (a.type = some .integer → (∃ n, Numeral.Denotes a.raw.toList n) ∧
      ∀ n, Numeral.Denotes a.raw.toList n →
        a.value = if -2 ^ 63 ≤ n ∧ n ≤ 2 ^ 63 - 1 then .integer n else .text a.raw) ∧
    ∀ n, a.value = .integer n → a.type = some .integer := by
  refine ⟨fun htype => ⟨?_, fun n => a.value_of_denotes htype⟩, fun n => a.type_of_value_integer⟩
  obtain ⟨found, hmatching, rfl⟩ := exists_matching_of_binding hb
  obtain ⟨m, hm, rfl⟩ := List.mem_map.1 ha
  have hfound : found ∈ l.matching step := hmatching ▸ List.mem_cons_self
  obtain ⟨hsearch, hexact⟩ := List.mem_filter.1 hfound
  obtain ⟨a', hspan, marks, content, hholds⟩ :=
    MatchingTree.exists_holds_of_mem_search hsearch hexact hm
  -- the type and the text of an argument depend on its span only
  obtain ⟨p, span⟩ := m
  subst hspan
  have hintegral : Lexeme.Integral (a'.raw step.statement).toList := hholds.integral htype
  exact Numeral.exists_denotes_iff.2 hintegral

/-- The least integer stands between quote marks, and the one that follows is too large by one. -/
theorem bind_integers_owe :
    let l := ((new .standard).register (.native "bank" "handlers"
      [⟨.phase .action, "I owe '{least:int}' and {more} of {rate:decimal}", "owe", .optional,
        none⟩])).2
    let step := Step.ofText (.phase .action) (.phase .action)
      "I owe '-9223372036854775808' and +09223372036854775808 of 7.0" ⟨1, 1⟩ none
    ∃ b, (l.bind none step).1.binding = some b ∧
      b.arguments.map (·.type) = [some .integer, some .integer, some .decimal] ∧
      (b.arguments.take 2).map (·.value) =
        [.integer (-9223372036854775808), .text "+09223372036854775808"] ∧
      ∀ a ∈ b.arguments,
        (a.type = some .integer → (∃ n, Numeral.Denotes a.raw.toList n) ∧
          ∀ n, Numeral.Denotes a.raw.toList n →
            a.value = if -2 ^ 63 ≤ n ∧ n ≤ 2 ^ 63 - 1 then .integer n else .text a.raw) ∧
        ∀ n, a.value = .integer n → a.type = some .integer := by
  intro l step
  have hbound : ((l.bind none step).1.binding.map fun b =>
      (b.arguments.map (·.type), (b.arguments.take 2).map (·.value))) =
      some ([some .integer, some .integer, some .decimal],
        [.integer (-9223372036854775808), .text "+09223372036854775808"]) := by
    decide +kernel
  obtain ⟨b, hb, heq⟩ := Option.map_eq_some_iff.1 hbound
  obtain ⟨htypes, hvalues⟩ := Prod.mk.inj heq
  exact ⟨b, hb, htypes, hvalues, fun a ha => l.bind_integers none hb ha⟩

end Linker

end StepLinker

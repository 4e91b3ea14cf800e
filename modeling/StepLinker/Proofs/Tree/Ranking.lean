import StepLinker.Proofs.Tree.Completion

/-!
# The rank of a partial match

A statement may be a beginning of a pattern in several ways (`PartialReading`), and its partial
matches are ranked by the words they take in. The one that is shown takes in as many as any
(`Reachable.partial_best`), although a walk keeps the first that it comes across and never compares
two of them by their words. An edge that is entered later is left later (`stop?_lt`), and who gets
through an edge entered it before anyone whose statement breaks off in it (`lt_of_breaksOff`), so
who gets to a node first has the most before it (`Query.exists_most_of_head?`).
-/

namespace StepLinker

/-! ## Edges entered later -/

namespace Edge

section
variable {tokens : Array Token} {i j s s' : Nat}

theorem lt_size_of_tokenAt {p : Token → Bool} (h : tokenAt tokens i p = true) :
    i < tokens.size := by
  obtain ⟨t, hdrop, -⟩ := tokenAt_iff.1 h
  have hlength := congrArg List.length hdrop
  simp only [List.length_drop, Array.length_toList, List.length_cons] at hlength
  omega

theorem firstMark?_le {mark : QuoteMark} {n : Nat}
    (h : tokenAt tokens j (·.kind = .quote mark) = true) (hle : i ≤ j) (hlt : j < i + n) :
    ∃ c, firstMark? tokens mark i n = some c ∧ c ≤ j := by
  induction n generalizing i with
  | zero => omega
  | succ n ih =>
    unfold firstMark?
    split
    · exact ⟨i, rfl, hle⟩
    · next hno =>
      have hne : i ≠ j := fun heq => hno (heq ▸ h)
      exact ih (by omega) (by omega)

/-- The mark that matches a quote mark is no later than any other of its kind. -/
theorem closing?_le {mark : QuoteMark} (hij : i < j)
    (h : tokenAt tokens j (·.kind = .quote mark) = true) :
    ∃ c, closing? tokens mark i = some c ∧ c ≤ j := by
  have hj := lt_size_of_tokenAt h
  exact firstMark?_le h hij (by omega)

theorem lt_of_closing? {mark : QuoteMark} {c : Nat} (h : closing? tokens mark i = some c) :
    i < c := by
  obtain ⟨inside, -, -, hc, -⟩ := (firstMark?_eq_some (by omega)).1 h
  omega

theorem stop?_lt {edge : Edge} (hi : edge.stop? tokens i = some s)
    (hj : edge.stop? tokens j = some s') (hij : i < j) : s < s' := by
  rcases edge with text | ⟨hint, _ | mark⟩
  · simp only [stop?, Option.ite_none_right_eq_some, Option.some.injEq] at hi hj
    omega
  · simp only [stop?, Option.ite_none_right_eq_some, Option.some.injEq] at hi hj
    omega
  · simp only [stop?, Option.ite_none_right_eq_some, Option.map_eq_some_iff] at hi hj
    obtain ⟨-, c, hc, rfl⟩ := hi
    obtain ⟨hopens, c', hc', rfl⟩ := hj
    -- the mark that opens the later argument closes the earlier one, if none before it does
    obtain ⟨c'', hc'', hle⟩ := closing?_le hij hopens
    obtain rfl : c = c'' := Option.some.inj (hc.symm.trans hc'')
    have := lt_of_closing? hc'
    omega

/-- A statement breaks off in an edge further on than where another way gets through. -/
theorem lt_of_breaksOff {edge : Edge} (h : edge.breaksOff tokens i = true)
    (hj : edge.stop? tokens j = some s) : j < i := by
  rcases edge with text | ⟨hint, _ | mark⟩
  · simp only [breaksOff, Bool.and_eq_true, decide_eq_true_eq] at h
    simp only [stop?, Option.ite_none_right_eq_some] at hj
    have hlt := lt_size_of_tokenAt hj.1
    have hne : j ≠ i := by
      rintro rfl
      obtain ⟨t, hdrop, hbegins⟩ := tokenAt_iff.1 h.2
      obtain ⟨t', hdrop', htext⟩ := tokenAt_iff.1 hj.1
      obtain rfl : t = t' := (List.cons.inj (hdrop.symm.trans hdrop')).1
      simp [isBeginning, of_decide_eq_true htext] at hbegins
    omega
  · cases h
  · simp only [breaksOff, Bool.and_eq_true, Option.isNone_iff_eq_none] at h
    simp only [stop?, Option.ite_none_right_eq_some, Option.map_eq_some_iff] at hj
    obtain ⟨hopens, c, hc, -⟩ := hj
    rcases Nat.lt_trichotomy j i with hlt | rfl | hgt
    · exact hlt
    · rw [h.2] at hc
      cases hc
    · obtain ⟨c', hc', -⟩ := closing?_le hgt hopens
      rw [h.2] at hc'
      cases hc'

theorem isFree_of_breaksOff {edge : Edge} (h : edge.breaksOff tokens i = true) :
    edge.isFree = false := by
  rcases edge with text | ⟨hint, _ | mark⟩
  · rfl
  · cases h
  · rfl

end

end Edge

/-! ## The first partial reading -/

namespace Query

section
variable {q : Query} {part : Part} {parts : List Part} {r : Reach} {found : Finding}

/-- Where the first stop that leads on is, no way that comes to the edge later has stopped
before. -/
theorem le_stop_of_first {before after : List Nat} {s y s' : Nat}
    (hstops : q.stops part.edge r.position = before ++ s :: after)
    (hfirst : s' ∉ before) (hy : r.position ≤ y) (hspans : part.Spans q.tokens.toList y s') :
    s ≤ s' := by
  have hs : part.Spans q.tokens.toList r.position s :=
    mem_stops.1 (hstops ▸ List.mem_append_right _ List.mem_cons_self)
  cases hfree : part.edge.isFree with
  | true =>
    obtain ⟨p, rfl, quote, notNumeric⟩ := isFree_edge.1 hfree
    have hlt := hspans.lt
    have hs' : s' ∈ before ++ s :: after := by
      rw [← hstops]
      exact mem_stops.2 ((spans_of_free quote notNumeric).2 ⟨by omega, hlt.2⟩)
    rcases List.mem_append.1 hs' with hmem | hmem
    · exact absurd hmem hfirst
    · have hordered := q.pairwise_stops (Part.argument p).edge r.position
      rw [hstops, List.pairwise_append] at hordered
      rcases List.mem_cons.1 hmem with rfl | hmem
      · exact Nat.le_refl _
      · exact Nat.le_of_lt (List.rel_of_pairwise_cons hordered.2.1 hmem).1
  | false =>
    have hstop := (stop?_eq_some hfree).2 hs
    have hstop' := (stop?_eq_some hfree).2 hspans
    rcases Nat.lt_or_eq_of_le hy with hlt | rfl
    · exact Nat.le_of_lt (Edge.stop?_lt hstop hstop' hlt)
    · exact Nat.le_of_eq (Option.some.inj (hstop.symm.trans hstop'))

/-- Every way that gets through an edge in which the statement breaks off has entered it before. -/
theorem eq_here_of_breaksOff {i y : Nat} (hoff : part.edge.breaksOff q.tokens i = true)
    (hy : i ≤ y) (b : PartialReading (part :: parts) (q.tokens.toList.drop y)) :
    ∃ h, b = .here parts h := by
  rcases b.here_or_cons with ⟨h, rfl⟩ | ⟨piece, later, htakes, hdrop, -⟩
  · exact ⟨h, rfl⟩
  · have hlater := drop_add_of_drop piece hdrop
    subst hlater
    have hstop := (stop?_eq_some (Edge.isFree_of_breaksOff hoff)).2 ⟨piece, htakes, rfl, hdrop⟩
    exact absurd (Edge.lt_of_breaksOff hoff hstop) (Nat.not_lt.2 hy)

/-- What a walk comes across first on a path, if that is not exact, is a partial reading. None from
here or from a later token begins more of the parts. -/
theorem exists_most_of_head? (hq : q.allowPartial = true)
    (h : (q.along (parts.map Part.edge) r).head? = some found) (hexact : found.exact = false) :
    ∃ b : PartialReading parts (q.tokens.toList.drop r.position), found = r.beginning b ∧
      ∀ y, r.position ≤ y → ∀ b' : PartialReading parts (q.tokens.toList.drop y),
        b'.begun.length ≤ b.begun.length := by
  induction parts generalizing r with
  | nil =>
    obtain ⟨-, b, -⟩ := mem_along_partial.1 ⟨List.mem_of_head? h, hexact⟩
    exact b.false_of_nil.elim
  | cons part parts ih =>
    by_cases hi : q.tokens.size ≤ r.position
    · -- no token is left, so nothing is begun
      obtain ⟨-, b, hfound⟩ := mem_along_partial.1 ⟨List.mem_of_head? h, hexact⟩
      refine ⟨b, hfound, fun y hy b' => ?_⟩
      obtain ⟨-, rfl⟩ := b'.eq_here_of_nil (List.drop_eq_nil_of_le (by simpa using hi.trans hy))
      exact Nat.zero_le _
    · rw [List.map_cons, along, if_neg hi, List.head?_append, Option.or_eq_some_iff] at h
      rcases h with h | ⟨hnone, h⟩
      · rw [List.head?_flatMap, List.findSome?_eq_some_iff] at h
        obtain ⟨before, s, after, hstops, hs, hbefore⟩ := h
        obtain ⟨b, rfl, hmost⟩ := ih hs
        obtain ⟨piece, htakes, rfl, hdrop⟩ := mem_stops.1
          (hstops ▸ List.mem_append_right _ List.mem_cons_self)
        refine ⟨.cons htakes hdrop b, (r.beginning_cons htakes hdrop b).symm, fun y hy b' => ?_⟩
        rcases b'.here_or_cons with ⟨_, rfl⟩ | ⟨piece', later, htakes', hdrop', b', rfl⟩
        · exact Nat.zero_le _
        · have hlater := drop_add_of_drop piece' hdrop'
          subst hlater
          -- a stop from which there is a partial reading is not passed over
          have hfirst : y + piece'.length ∉ before := by
            intro hmem
            have hhere := (mem_along_partial (r := r.take part.edge (y + piece'.length))).2
              ⟨hq, b', rfl⟩
            exact List.ne_nil_of_mem hhere.1 (List.head?_eq_none_iff.1 (hbefore _ hmem))
          have hle := le_stop_of_first hstops hfirst hy ⟨piece', htakes', rfl, hdrop'⟩
          exact Nat.succ_le_succ (hmost _ hle b')
      · obtain ⟨hoff, hfound⟩ : part.edge.breaksOff q.tokens r.position = true ∧
            r.broken q.tokens part.edge = found := by
          rw [hq, Bool.true_and] at h
          split at h
          · next hoff => exact ⟨hoff, Option.some.inj h⟩
          · cases h
        have hhere := breaksOff_iff.1 (.inr hoff)
        refine ⟨.here parts hhere, by rw [beginning_here hi hhere, hfound], fun y hy b' => ?_⟩
        obtain ⟨-, rfl⟩ := eq_here_of_breaksOff hoff hy b'
        exact Nat.le_refl _

/-- What is kept of a path, if that is not exact, is a partial reading that takes in as many words
as any. -/
theorem exists_most_of_best (h : best (q.along (parts.map Part.edge) .start) = some found)
    (hexact : found.exact = false) :
    ∃ b : PartialReading parts q.tokens.toList, found = Reach.start.beginning b ∧
      ∀ b' : PartialReading parts q.tokens.toList, b'.words ≤ b.words := by
  obtain ⟨-, hhead⟩ := best_along_partial.1 ⟨h, hexact⟩
  have hq := (mem_along_partial.1 ⟨List.mem_of_head? hhead, hexact⟩).1
  obtain ⟨b, hfound, hmost⟩ := exists_most_of_head? hq hhead hexact
  exact ⟨b, hfound, fun b' => PartialReading.words_le (hmost 0 (Nat.le_refl 0) b')⟩

end

end Query

/-! ## Partial matches -/

namespace MatchingTree

/-- A partial match is one of a definition of the type of which the statement is a beginning. It
shows a way in which it is, and none takes in more words. -/
theorem Reachable.partial_best {t : MatchingTree} (ht : t.Reachable) {type : StepType}
    {statement : Statement} {allowPartial : Bool} {m : Match}
    (hm : m ∈ t.search type statement allowPartial) (hexact : m.exact = false) :
    t.get? m.key = some m.definition ∧ m.definition.type = type ∧
      ∃ p, Pattern.ofDeclaration m.definition.declaration = .ok p ∧
        ∃ b : PartialReading p.parts statement.tokens.toList,
          m.arguments = b.arguments ∧ m.literals = b.words ∧
          ∀ b' : PartialReading p.parts statement.tokens.toList, b'.words ≤ m.literals := by
  cases type with
  | conjunction => cases hm
  | phase phase =>
    have h := ht.wellFormed
    obtain ⟨k, d, p, found, hd, hplace, hbest, rfl⟩ := h.mem_search.1 hm
    obtain ⟨b, rfl, hmost⟩ := Query.exists_most_of_best hbest hexact
    obtain ⟨htype, hp⟩ := Definition.place?_eq_some.1 hplace
    obtain ⟨e, he, rfl⟩ := get?_eq_some.1 hd
    refine ⟨hd, htype, p, (h.compiled he).symm.trans hp, b, zip_spans b.placeholders_prefix, ?_,
      fun b' => ?_⟩
    · exact Nat.zero_add _
    · exact (hmost b').trans (Nat.le_of_eq (Nat.zero_add _).symm)

/-- The statement is a beginning of the pattern in three ways, as the words between its arguments
are the same. The last of them breaks off in the quotes. -/
theorem partial_best_say :
    let t := empty.run (.addOrUpdate ⟨"talk", .phase .action,
      "I say {what} and {more} and '{rest}' loudly", .optional, .native "say" none, none⟩)
    let statement := Statement.ofText "I say a and b and 'c"
    t.Reachable ∧ ∃ m ∈ t.search (.phase .action) statement true, m.exact = false ∧
      m.arguments.map (·.span) =
        [⟨2, 3, false, false⟩, ⟨4, 5, false, false⟩, ⟨6, 8, true, false⟩] ∧ m.literals = 4 ∧
      t.get? m.key = some m.definition ∧ m.definition.type = .phase .action ∧
      ∃ p, Pattern.ofDeclaration m.definition.declaration = .ok p ∧
        ∃ b : PartialReading p.parts statement.tokens.toList,
          m.arguments = b.arguments ∧ m.literals = b.words ∧
          ∀ b' : PartialReading p.parts statement.tokens.toList, b'.words ≤ m.literals := by
  intro t statement
  have ht : t.Reachable := .step _ .empty rfl
  have hfound : (t.search (.phase .action) statement true).map
      (fun m => (m.exact, m.arguments.map (·.span), m.literals)) =
      [(false, [⟨2, 3, false, false⟩, ⟨4, 5, false, false⟩, ⟨6, 8, true, false⟩], 4)] := by
    decide +kernel
  obtain ⟨m, hm, hvalue⟩ := List.mem_map.1 (hfound ▸ List.mem_singleton_self _)
  obtain ⟨hexact, hspans, hliterals⟩ : m.exact = false ∧ m.arguments.map (·.span) = _ ∧
      m.literals = 4 := by
    simpa using hvalue
  exact ⟨ht, m, hm, hexact, hspans, hliterals, ht.partial_best hm hexact⟩

end MatchingTree

end StepLinker

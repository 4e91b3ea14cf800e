import Mathlib.Data.List.Induction
import StepLinker.Proofs.Declaration.Grammar
import StepLinker.Proofs.Statement.Layout

/-!
# The verdict on a declaration

A declaration that can be read is still refused if one of its items is at fault behind the items
before it: a brace that closes what is not open, a hint that names no type, a name that was there
already. `Fault` says so of a single item, so the first fault is the item that is at fault behind
items that are not. The walk over the items finds just that one (`segments_append`,
`segments_of_fault`). What is left to go wrong are braces that stay open and a declaration with
nothing in it; otherwise the declaration compiles (`ofDeclaration_verdict`).
-/

namespace StepLinker

open Text

/-- Whether the text is a word for a type. -/
def ArgumentType.IsSpelling (hint : List Char) : Prop :=
  ∃ type : ArgumentType, (String.ofList hint).toLower ∈ type.spellings

theorem ArgumentType.isSome_ofHint?_iff {hint : List Char} :
    (ofHint? (String.ofList hint)).isSome = true ↔ IsSpelling hint := by
  rw [ofHint?, List.find?_isSome]
  constructor
  · rintro ⟨type, -, htype⟩
    exact ⟨type, by simpa using htype⟩
  · rintro ⟨type, htype⟩
    exact ⟨type, by cases type <;> simp, by simpa using htype⟩

namespace Item

/-! ## Faults -/

def name? : Item → Option String
  | placeholder name _ => some (String.ofList name)
  | _ => none

def names (items : List Item) : List String :=
  items.filterMap name?

def strays (b : Brace) (items : List Item) : Nat :=
  items.count (.stray b)

/-- The item cannot stand behind the items `before`. -/
inductive Fault (before : List Item) : Item → DeclarationError → Prop where
  | unmatched (closed : strays .opening before ≤ strays .closing before) :
      Fault before (.stray .closing) (.unmatchedClosingBrace (byteLength (before.flatMap source)))
  | unknownHint {name hint : List Char} (unknown : ¬ ArgumentType.IsSpelling hint) :
      Fault before (.placeholder name (some hint))
        (.unknownHint (String.ofList name) (String.ofList hint))
  | duplicate {name : List Char} {hint : Option (List Char)}
      (known : ∀ cs ∈ hint, ArgumentType.IsSpelling cs)
      (twice : String.ofList name ∈ names before) :
      Fault before (.placeholder name hint) (.duplicatePlaceholder (String.ofList name))

def Faultless (items : List Item) : Prop :=
  ∀ before item after, items = before ++ item :: after → ∀ e, ¬ Fault before item e

/-- What the items of a declaration have to meet. -/
structure Sound (items : List Item) : Prop where
  hints : ∀ name cs, .placeholder name (some cs) ∈ items → ArgumentType.IsSpelling cs
  distinct : (names items).Nodup
  /-- Nothing is closed that is not open. -/
  opened : ∀ before, before <+: items → strays .closing before ≤ strays .opening before
  closed : strays .opening items = strays .closing items
  /-- There is a placeholder or a character that is not blank. -/
  substance : ∃ item ∈ items, item.isPlaceholder = true ∨ ∃ c ∈ item.literal, isBlank c = false

section
variable {items before more : List Item} {item : Item} {e : DeclarationError}

theorem faultless_nil : Faultless [] := by
  intro before item after h
  simp at h

theorem faultless_concat :
    Faultless (items ++ [item]) ↔ Faultless items ∧ ∀ e, ¬ Fault items item e := by
  constructor
  · intro h
    refine ⟨fun before i after heq => h before i (after ++ [item]) ?_, h items item [] rfl⟩
    simp [heq]
  · rintro ⟨hitems, hitem⟩ before i after heq
    rcases List.eq_nil_or_concat after with rfl | ⟨after, last, rfl⟩
    · obtain ⟨rfl, hi⟩ := List.append_inj' heq rfl
      obtain rfl := (List.cons.inj hi).1
      exact hitem
    · rw [List.concat_eq_append, ← List.cons_append, ← List.append_assoc] at heq
      exact hitems before i after (List.append_inj' heq rfl).1

theorem Faultless.of_append (h : Faultless (before ++ more)) : Faultless before := by
  intro front item after heq
  refine h front item (after ++ more) ?_
  simp [heq]

/-- Of items that are at fault one is the first. -/
theorem faultless_or_first_fault (items : List Item) :
    Faultless items ∨ ∃ before item after e,
      items = before ++ item :: after ∧ Faultless before ∧ Fault before item e := by
  induction items using List.reverseRecOn with
  | nil => exact .inl faultless_nil
  | append_singleton items item ih =>
    rcases ih with hitems | ⟨before, first, after, e, rfl, hbefore, hfault⟩
    · by_cases hitem : ∃ e, Fault items item e
      · obtain ⟨e, hfault⟩ := hitem
        exact .inr ⟨items, item, [], e, rfl, hitems, hfault⟩
      · exact .inl (faultless_concat.2 ⟨hitems, not_exists.1 hitem⟩)
    · exact .inr ⟨before, first, after ++ [item], e, by simp, hbefore, hfault⟩

theorem strays_concat (b : Brace) :
    strays b (items ++ [item]) = strays b items + if item = .stray b then 1 else 0 := by
  simp [strays, List.count_append, List.count_singleton]

theorem Faultless.strays_le (h : Faultless items) :
    strays .closing items ≤ strays .opening items := by
  induction items using List.reverseRecOn with
  | nil => exact Nat.le_refl _
  | append_singleton items item ih =>
    obtain ⟨hitems, hitem⟩ := faultless_concat.1 h
    have hle := ih hitems
    rw [strays_concat, strays_concat]
    by_cases hclosing : item = .stray .closing
    · subst hclosing
      have hopen : ¬ strays .opening items ≤ strays .closing items :=
        fun hclosed => hitem _ (.unmatched hclosed)
      simp
      omega
    · rw [if_neg hclosing]
      omega

theorem names_concat : names (items ++ [item]) = names items ++ item.name?.toList := by
  rw [names, List.filterMap_append]
  cases h : item.name? <;> simp [h, names]

theorem Faultless.nodup_names (h : Faultless items) : (names items).Nodup := by
  induction items using List.reverseRecOn with
  | nil => exact List.nodup_nil
  | append_singleton items item ih =>
    obtain ⟨hitems, hitem⟩ := faultless_concat.1 h
    rw [names_concat]
    cases item with
    | placeholder name hint =>
      refine List.nodup_append.2 ⟨ih hitems, List.nodup_cons.2 ⟨List.not_mem_nil, .nil⟩, ?_⟩
      rintro a ha b hb rfl
      obtain rfl := List.mem_singleton.1 hb
      -- its hint is known, or that would be the fault
      refine hitem _ (.duplicate (fun cs hcs => ?_) ha)
      by_contra hunknown
      obtain rfl := hcs
      exact hitem _ (.unknownHint hunknown)
    | _ => simpa [name?] using ih hitems

theorem Faultless.isSpelling (h : Faultless items) {name cs : List Char}
    (hmem : .placeholder name (some cs) ∈ items) : ArgumentType.IsSpelling cs := by
  obtain ⟨before, after, rfl⟩ := List.append_of_mem hmem
  by_contra hunknown
  exact h before _ after rfl _ (.unknownHint hunknown)

theorem Sound.faultless (h : Sound items) : Faultless items := by
  rintro before item after rfl e hfault
  cases hfault with
  | unmatched closed =>
    have hprefix : before ++ [.stray .closing] <+: before ++ .stray .closing :: after :=
      ⟨after, by simp⟩
    have hle := h.opened _ hprefix
    rw [strays_concat, strays_concat] at hle
    simp at hle
    omega
  | @unknownHint name hint unknown => exact unknown (h.hints name hint (by simp))
  | @duplicate name hint known twice =>
    have hnodup := h.distinct
    rw [Item.names, List.filterMap_append, List.filterMap_cons] at hnodup
    exact (List.nodup_append.1 hnodup).2.2 _ twice _ List.mem_cons_self rfl

theorem Faultless.sound (h : Faultless items)
    (hclosed : strays .opening items = strays .closing items)
    (hsubstance : ∃ item ∈ items,
      item.isPlaceholder = true ∨ ∃ c ∈ item.literal, isBlank c = false) :
    Sound items where
  hints _ _ hmem := h.isSpelling hmem
  distinct := h.nodup_names
  opened before := by
    rintro ⟨more, rfl⟩
    exact h.of_append.strays_le
  closed := hclosed
  substance := hsubstance

end

end Item

/-! ## The walk over the items -/

section
open Item
variable {before more rest declared : List Item} {item : Item} {e : DeclarationError}

/-- The walk over the items `rest` of a declaration, the items `before` being behind it. -/
def segmentsBehind (before rest : List Item) : Except DeclarationError (List Segment) :=
  segments (byteLength (before.flatMap source)) (strays .opening before - strays .closing before)
    (names before).reverse rest

theorem byteLength_source_concat : byteLength ((before ++ [item]).flatMap source) =
    byteLength (before.flatMap source) + byteLength item.source := by
  simp [byteLength_append]

/-- The walk ends at an item that is at fault. -/
theorem segments_of_fault (h : Fault before item e) (rest : List Item) :
    segmentsBehind before (item :: rest) = .error e := by
  unfold segmentsBehind
  cases h with
  | unmatched closed =>
    rw [segments, if_pos (Nat.sub_eq_zero_of_le closed)]
  | @unknownHint name hint unknown =>
    have hnone : ArgumentType.ofHint? (String.ofList hint) = none := by
      rw [← Option.not_isSome_iff_eq_none, ArgumentType.isSome_ofHint?_iff]
      exact unknown
    simp [segments, Segment.hintType, hnone, bind, Except.bind]
  | @duplicate name hint known twice =>
    have hhint : Segment.hintType (String.ofList name) hint = .ok (hintedType hint) :=
      Segment.hintType_of_isSome fun cs hcs => ArgumentType.isSome_ofHint?_iff.2 (known cs hcs)
    simp [segments, hhint, twice, bind, Except.bind]

theorem segments_of_not_fault (hbefore : Faultless before) (hitem : ∀ e, ¬ Fault before item e)
    (rest : List Item) : ∃ f : List Segment → List Segment,
      segmentsBehind before (item :: rest) = (segmentsBehind (before ++ [item]) rest).map f := by
  have hle := hbefore.strays_le
  have hliteral : segmentsBehind before (item :: rest) =
      (segmentsBehind (before ++ [item]) rest).map (Segment.withLiteral item.literal) →
      ∃ f : List Segment → List Segment, segmentsBehind before (item :: rest) =
        (segmentsBehind (before ++ [item]) rest).map f := fun h => ⟨_, h⟩
  unfold segmentsBehind at hliteral ⊢
  simp only [byteLength_source_concat, strays_concat, names_concat] at hliteral ⊢
  cases item with
  | plain c => exact hliteral (by simp [segments, name?])
  | escape c => exact hliteral (by simp [segments, name?])
  | doubled b => exact hliteral (by simp [segments, name?])
  | stray b =>
    cases b with
    | opening =>
      refine hliteral ?_
      simp [segments, name?, Nat.sub_add_comm hle]
    | closing =>
      have hopen : ¬ strays .opening before ≤ strays .closing before :=
        fun hclosed => hitem _ (.unmatched hclosed)
      refine hliteral ?_
      simp [segments, name?, Nat.sub_eq_zero_iff_le, hopen, Nat.sub_sub]
  | placeholder name hint =>
    have hknown : ∀ cs ∈ hint, ArgumentType.IsSpelling cs := by
      rintro cs rfl
      by_contra hunknown
      exact hitem _ (.unknownHint hunknown)
    have hnew : String.ofList name ∉ (names before).reverse := fun htwice =>
      hitem _ (.duplicate hknown (List.mem_reverse.1 htwice))
    have hwalk := segments_placeholder
      (fun cs hcs => ArgumentType.isSome_ofHint?_iff.2 (hknown cs hcs)) hnew
      (byteLength (before.flatMap source)) (strays .opening before - strays .closing before) rest
    refine ⟨(.placeholder (String.ofList name) (hintedType hint) :: ·), hwalk.trans ?_⟩
    simp [name?]

theorem segments_append (h : Faultless (before ++ more)) (rest : List Item) :
    ∃ f : List Segment → List Segment,
      segmentsBehind before (more ++ rest) = (segmentsBehind (before ++ more) rest).map f := by
  induction more generalizing before with
  | nil =>
    refine ⟨id, ?_⟩
    rw [List.append_nil, List.nil_append]
    cases segmentsBehind before rest <;> rfl
  | cons item more ih =>
    have hsplit : before ++ item :: more = (before ++ [item]) ++ more := by simp
    rw [hsplit] at h ⊢
    obtain ⟨hbefore, hitem⟩ := faultless_concat.1 h.of_append
    obtain ⟨f, hf⟩ := segments_of_not_fault hbefore hitem (more ++ rest)
    obtain ⟨g, hg⟩ := ih h
    rw [List.cons_append, hf, hg]
    refine ⟨f ∘ g, ?_⟩
    cases segmentsBehind (before ++ [item] ++ more) rest <;> rfl

theorem segments_append_of_faultless (h : Faultless before) (rest : List Item) :
    ∃ f : List Segment → List Segment,
      segments 0 0 [] (before ++ rest) = (segmentsBehind before rest).map f := by
  rw [← List.nil_append before] at h
  obtain ⟨f, hf⟩ := segments_append h rest
  rw [List.nil_append] at hf
  exact ⟨f, hf⟩

/-- At the end of items that are not at fault it matters whether a brace is open. -/
theorem segments_of_faultless (h : Faultless declared) :
    (strays .opening declared = strays .closing declared →
      ∃ segs, segments 0 0 [] declared = .ok segs) ∧
    (strays .opening declared ≠ strays .closing declared → segments 0 0 [] declared =
      .error (.unbalancedBraces (byteLength (declared.flatMap source)))) := by
  have hle := h.strays_le
  obtain ⟨f, hf⟩ := segments_append_of_faultless h []
  rw [List.append_nil] at hf
  rw [hf]
  unfold segmentsBehind segments
  refine ⟨fun hclosed => ?_, fun hunclosed => ?_⟩
  · rw [if_pos (by omega)]
    exact ⟨_, rfl⟩
  · rw [if_neg (by omega)]
    rfl

theorem segments_of_first_fault (hbefore : Faultless before) (hfault : Fault before item e)
    (after : List Item) : segments 0 0 [] (before ++ item :: after) = .error e := by
  obtain ⟨f, hf⟩ := segments_append_of_faultless hbefore (item :: after)
  rw [hf, segments_of_fault hfault]
  rfl

end

/-! ## Declarations with nothing in them -/

theorem Token.ofText_eq_nil_iff {text : List Char} :
    ofText text = [] ↔ ∀ c ∈ text, isBlank c = true := by
  obtain ⟨laid, trail, rfl, hlaid, htrail⟩ := exists_laid_place true text 0
  rw [← ofText] at hlaid
  constructor
  · intro hnil
    rw [hnil] at hlaid
    cases hlaid
    exact htrail
  · intro hblank
    generalize ofText (laid ++ trail) = tokens at hlaid ⊢
    cases hlaid with
    | nil => rfl
    | @cons _ gap rest t ts _ _ solid _ =>
      obtain ⟨c, cs, htext, hc⟩ := solid
      rw [hblank c (by simp [htext])] at hc
      cases hc

section
variable {declared : List Item} {segs : List Segment}

theorem Segmented.exists_placeholder (h : Segmented declared segs)
    (hdeclared : ∃ item ∈ declared, item.isPlaceholder = true) :
    ∃ name type, .placeholder name type ∈ segs := by
  induction h with
  | nil => simp at hdeclared
  | placeholder => exact ⟨_, _, List.mem_cons_self⟩
  | @literal item rest segs hitem _ ih =>
    obtain ⟨name, type, hmem⟩ := ih (by simpa [hitem] using hdeclared)
    refine ⟨name, type, ?_⟩
    unfold Segment.withLiteral
    split
    · simpa using hmem
    · exact List.mem_cons_of_mem _ hmem

theorem Segmented.eq_literal (h : Segmented declared segs) (hne : declared ≠ [])
    (hdeclared : ∀ item ∈ declared, item.isPlaceholder = false) :
    segs = [.literal (declared.flatMap Item.literal)] := by
  induction h with
  | nil => exact absurd rfl hne
  | placeholder => exact absurd (hdeclared _ List.mem_cons_self) (by simp [Item.isPlaceholder])
  | @literal item rest segs hitem hrest ih =>
    rcases rest with _ | ⟨next, rest⟩
    · cases hrest
      simp [Segment.withLiteral]
    · rw [ih (List.cons_ne_nil _ _) (List.forall_mem_cons.1 hdeclared).2]
      simp [Segment.withLiteral]

/-- Nothing is compiled from blanks, and something from everything else. -/
theorem Segmented.assemble_eq_nil_iff (h : Segmented declared segs) :
    Pattern.assemble false segs = [] ↔
      ¬ ∃ item ∈ declared, item.isPlaceholder = true ∨ ∃ c ∈ item.literal, isBlank c = false := by
  by_cases hplaceholder : ∃ item ∈ declared, item.isPlaceholder = true
  · obtain ⟨name, type, hmem⟩ := h.exists_placeholder hplaceholder
    obtain ⟨item, hitem, hisPlaceholder⟩ := hplaceholder
    exact iff_of_false (Pattern.assemble_ne_nil hmem)
      (not_not_intro ⟨item, hitem, .inl hisPlaceholder⟩)
  · have hliteral : ∀ item ∈ declared, item.isPlaceholder = false := fun item hitem =>
      eq_false_of_ne_true fun htrue => hplaceholder ⟨item, hitem, htrue⟩
    by_cases hnil : declared = []
    · subst hnil
      cases h
      simp [Pattern.assemble]
    · have hwords : Pattern.assemble false [.literal (declared.flatMap Item.literal)] =
          Pattern.words (Token.ofText (declared.flatMap Item.literal)) := by
        simp [Pattern.assemble]
      rw [h.eq_literal hnil hliteral, hwords, Pattern.words, List.map_eq_nil_iff,
        Token.ofText_eq_nil_iff]
      constructor
      · rintro hblank ⟨item, hitem, hisPlaceholder | ⟨c, hc, hno⟩⟩
        · exact hplaceholder ⟨item, hitem, hisPlaceholder⟩
        · rw [hblank c (List.mem_flatMap.2 ⟨item, hitem, hc⟩)] at hno
          cases hno
      · intro hnone c hc
        obtain ⟨item, hitem, hc⟩ := List.mem_flatMap.1 hc
        by_contra hno
        exact hnone ⟨item, hitem, .inr ⟨c, hc, eq_false_of_ne_true hno⟩⟩

end

/-! ## The verdict -/

/-- The declaration can be read and its items meet what they have to meet. -/
def Accepted (text : List Char) : Prop :=
  ∃ declared, ReadsAs text declared ∧ Item.Sound declared

/-- What a declaration is refused for. A malformed placeholder comes before everything else and the
first fault before what is wrong with the declaration as a whole. -/
inductive Refused (text : List Char) : DeclarationError → Prop where
  | malformed {declared : List Item} {rest : List Char} {e : DeclarationError}
      (text_eq : text = declared.flatMap Item.source ++ rest) (reading : Item.Reading declared rest)
      (malformed : Item.IsMalformed rest)
      (broken : Item.Broken (byteLength (declared.flatMap Item.source)) rest e) : Refused text e
  | fault {before after : List Item} {item : Item} {e : DeclarationError}
      (reads : ReadsAs text (before ++ item :: after)) (faultless : Item.Faultless before)
      (fault : Item.Fault before item e) : Refused text e
  | unbalanced {declared : List Item} (reads : ReadsAs text declared)
      (faultless : Item.Faultless declared)
      (unclosed : Item.strays .closing declared < Item.strays .opening declared) :
      Refused text (.unbalancedBraces (byteLength text))
  | empty {declared : List Item} (reads : ReadsAs text declared)
      (faultless : Item.Faultless declared)
      (closed : Item.strays .opening declared = Item.strays .closing declared)
      (bare : ∀ item ∈ declared,
        item.isPlaceholder = false ∧ ∀ c ∈ item.literal, isBlank c = true) :
      Refused text .empty

section
variable {declaration : String} {declared : List Item} {e : DeclarationError}

theorem accepted_or_refused (text : List Char) : Accepted text ∨ ∃ e, Refused text e := by
  rcases readsAs_or_broken 0 text with ⟨declared, hreads⟩ |
    ⟨declared, rest, e, htext, hreading, hbroken⟩
  · rcases Item.faultless_or_first_fault declared with hfaultless |
      ⟨before, item, after, e, rfl, hbefore, hfault⟩
    · rcases Nat.lt_or_eq_of_le hfaultless.strays_le with hunclosed | hclosed
      · exact .inr ⟨_, .unbalanced hreads hfaultless hunclosed⟩
      by_cases hsubstance : ∃ item ∈ declared,
          item.isPlaceholder = true ∨ ∃ c ∈ item.literal, isBlank c = false
      · exact .inl ⟨declared, hreads, hfaultless.sound hclosed.symm hsubstance⟩
      · refine .inr ⟨_, .empty hreads hfaultless hclosed.symm fun item hitem => ?_⟩
        refine ⟨eq_false_of_ne_true fun htrue => hsubstance ⟨item, hitem, .inl htrue⟩,
          fun c hc => ?_⟩
        by_contra hno
        exact hsubstance ⟨item, hitem, .inr ⟨c, hc, eq_false_of_ne_true hno⟩⟩
    · exact .inr ⟨e, .fault hreads hbefore hfault⟩
  · rw [Nat.zero_add] at hbroken
    exact .inr ⟨e, .malformed htext hreading ((Item.exists_broken_iff _).1 ⟨e, hbroken⟩) hbroken⟩

namespace Pattern

theorem ofDeclaration_of_items_error (h : items 0 declaration.toList = .error e) :
    ofDeclaration declaration = .error e := by
  simp only [ofDeclaration, bind, Except.bind, h]

theorem ofDeclaration_of_segments_error (hitems : items 0 declaration.toList = .ok declared)
    (h : segments 0 0 [] declared = .error e) : ofDeclaration declaration = .error e := by
  simp only [ofDeclaration, bind, Except.bind, hitems, h]

theorem ofDeclaration_of_assemble_nil {segs : List Segment}
    (hitems : items 0 declaration.toList = .ok declared)
    (hsegs : segments 0 0 [] declared = .ok segs) (hnil : assemble false segs = []) :
    ofDeclaration declaration = .error .empty := by
  simp only [ofDeclaration, bind, Except.bind, hitems, hsegs]
  split
  · rfl
  · next hcons =>
    rw [hnil] at hcons
    cases hcons

theorem ofDeclaration_of_accepted (h : Accepted declaration.toList) :
    ∃ p, ofDeclaration declaration = .ok p := by
  obtain ⟨declared, hreads, hsound⟩ := h
  obtain ⟨segs, hsegs⟩ := (segments_of_faultless hsound.faultless).1 hsound.closed
  have hne : assemble false segs ≠ [] := fun hnil =>
    (segmented_of_segments hsegs).assemble_eq_nil_iff.1 hnil hsound.substance
  obtain ⟨p, hp, -⟩ := ofDeclaration_of_assemble (items_of_readsAs hreads 0) hsegs hne
  exact ⟨p, hp⟩

theorem ofDeclaration_of_refused (h : Refused declaration.toList e) :
    ofDeclaration declaration = .error e := by
  cases h with
  | malformed text_eq reading _ broken =>
    refine ofDeclaration_of_items_error (items_eq_error_iff.2 ⟨_, _, text_eq, reading, ?_⟩)
    rwa [Nat.zero_add]
  | fault reads faultless fault =>
    exact ofDeclaration_of_segments_error (items_of_readsAs reads 0)
      (segments_of_first_fault faultless fault _)
  | unbalanced reads faultless unclosed =>
    rw [reads.1]
    exact ofDeclaration_of_segments_error (items_of_readsAs reads 0)
      ((segments_of_faultless faultless).2 (Nat.ne_of_gt unclosed))
  | empty reads faultless closed bare =>
    obtain ⟨segs, hsegs⟩ := (segments_of_faultless faultless).1 closed
    refine ofDeclaration_of_assemble_nil (items_of_readsAs reads 0) hsegs
      ((segmented_of_segments hsegs).assemble_eq_nil_iff.2 ?_)
    rintro ⟨item, hitem, hisPlaceholder | ⟨c, hc, hno⟩⟩
    · rw [(bare item hitem).1] at hisPlaceholder
      cases hisPlaceholder
    · rw [(bare item hitem).2 c hc] at hno
      cases hno

/-- A declaration compiles just if it can be read and its items meet what they have to meet, and
otherwise is refused for the first thing that is wrong with it. -/
theorem ofDeclaration_verdict (declaration : String) :
    ((∃ p, ofDeclaration declaration = .ok p) ↔ Accepted declaration.toList) ∧
      ∀ e, ofDeclaration declaration = .error e ↔ Refused declaration.toList e := by
  rcases accepted_or_refused declaration.toList with haccepted | ⟨e, hrefused⟩
  · obtain ⟨p, hp⟩ := ofDeclaration_of_accepted haccepted
    refine ⟨iff_of_true ⟨p, hp⟩ haccepted, fun e => ⟨fun h => ?_, ofDeclaration_of_refused⟩⟩
    rw [hp] at h
    cases h
  · have herror := ofDeclaration_of_refused hrefused
    refine ⟨⟨fun ⟨p, hp⟩ => ?_, ofDeclaration_of_accepted⟩, fun e' =>
      ⟨fun h => ?_, ofDeclaration_of_refused⟩⟩
    · rw [herror] at hp
      cases hp
    · rw [herror] at h
      cases h
      exact hrefused

end Pattern

end

end StepLinker

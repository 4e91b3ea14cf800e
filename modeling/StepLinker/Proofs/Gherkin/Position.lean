import StepLinker.Gherkin.Conversion
import StepLinker.Proofs.Linker.Columns
import StepLinker.Proofs.Text.LineIndex

/-!
# Where a step is placed

A step knows the offset of its keyword but not that of its text, so its text is searched for from
the keyword on. The search ends on the line of the step, and it finds the text where it is written
unless the text begins earlier, inside the keyword or the blanks behind it (`RecursIn`). A step that
is placed rightly has its diagnostics on its own text, and on nothing of the keyword
(`convertSteps_places`).
-/

namespace StepLinker

open Text

theorem WrittenStep.getElem?_resolveAll {ws : List WrittenStep} {i : Nat} {w : WrittenStep}
    (h : ws[i]? = some w) (previous : Option StepType) :
    ∃ bindingType, (resolveAll previous ws)[i]? =
      some (.ofText w.type bindingType w.text w.location w.table) := by
  induction ws generalizing i previous with
  | nil => cases h
  | cons first ws ih =>
    cases i with
    | zero =>
      cases h
      exact ⟨_, rfl⟩
    | succ i => exact ih h _

/-! ## Ranges of diagnostics -/

theorem Step.exists_piece_tokenRange {step : Step} (hne : step.text.toList ≠ []) (a b : Nat) :
    ∃ left piece right, step.text.toList = left ++ (piece ++ right) ∧ piece ≠ [] ∧
      step.tokenRange a b = ⟨step.location.advance left.length,
        step.location.advance (left.length + piece.length - 1)⟩ := by
  by_cases h : a < b ∧ b ≤ step.statement.length
  · obtain ⟨hab, hb⟩ := h
    have hb : b ≤ step.statement.tokens.size := hb
    have hfirst : step.statement.tokens[a]? = some step.statement.tokens[a] :=
      Array.getElem?_eq_getElem _
    have hlast : step.statement.tokens[b - 1]? = some step.statement.tokens[b - 1] :=
      Array.getElem?_eq_getElem _
    have hpiece := Statement.isPiece_extract (Nat.le_sub_one_of_lt hab) hfirst hlast
    obtain ⟨hne, left, right, htext, hrange⟩ :=
      tokenRange_eq_of_isPiece hab hfirst hlast hpiece
    exact ⟨left, _, right, htext, hne, hrange⟩
  · refine ⟨[], step.text.toList, [], (List.append_nil _).symm, hne, ?_⟩
    rw [tokenRange_eq_range h, range, Range.ofText, ← String.length_toList, List.length_nil,
      Nat.zero_add]
    rfl

/-- A diagnostic is about a table, or about some tokens of the step or all of it. -/
theorem Linker.exists_range_of_mem_bind {l : Linker} {source : Option String} {step : Step}
    {d : Diagnostic} (h : d ∈ (l.bind source step).2) :
    (∃ table, step.table = some table ∧ d.range = .point table.location) ∨
      ∃ a b, d.range = step.tokenRange a b := by
  have hwhole : step.range = step.tokenRange 0 0 := rfl
  obtain ⟨f, hf, rfl⟩ := List.mem_map.1 h
  have hf : f ∈ (l.verdict step).2 := hf
  unfold verdict at hf
  split at hf
  · rw [List.mem_singleton.1 hf]
    exact .inr ⟨0, 0, hwhole⟩
  · rcases List.mem_append.1 hf with hargument | htable
    · obtain ⟨m, -, hm⟩ := List.mem_flatMap.1 hargument
      exact .inr (ArgumentMatch.of_mem_findings hm).2
    · unfold tableFinding? at htable
      split at htable
      · rw [List.mem_singleton.1 htable]
        exact .inr ⟨0, 0, hwhole⟩
      · next table _ htaken =>
        rw [List.mem_singleton.1 htable]
        exact .inl ⟨table, htaken, rfl⟩
      · cases htable
  · rw [List.mem_singleton.1 hf]
    exact .inr ⟨0, 0, hwhole⟩

/-! ## Steps in a text -/

namespace Gherkin

/-- The step is written behind `front`: first its keyword, then the blanks `gap` and then its text,
all on one line. What follows is `after`. -/
structure Step.IsWritten (s : Step) (text front gap after : List Char) : Prop where
  text_eq : text = front ++ (s.keyword.toList ++ gap ++ (s.text.toList ++ after))
  offset : s.offset = byteLength front
  blank : ∀ c ∈ gap, Grammar.isBlankInLine c = true
  keyword : s.keyword ≠ ""
  line : '\n' ∉ s.keyword.toList ++ s.text.toList

/-- The text of the step also begins inside `lead`, which leads up to it. -/
def Step.RecursIn (s : Step) (lead after : List Char) : Prop :=
  ∃ n < lead.length, s.text.toList <+: (lead ++ (s.text.toList ++ after)).drop n

instance (s : Step) (lead after : List Char) : Decidable (s.RecursIn lead after) :=
  Nat.decidableExistsLT lead.length

/-- The range reaches from the first character to the last of a piece of the text of the step, which
stands behind `before`. -/
def Step.Covers (s : Step) (before : List Char) (range : Text.Range) : Prop :=
  ∃ left piece right, s.text.toList = left ++ (piece ++ right) ∧ piece ≠ [] ∧
    range = ⟨.behind (before ++ left), .behind (before ++ (left ++ piece.dropLast))⟩

section
variable {s : Step} {text front gap lead after first : List Char}

theorem Step.isFirst_lead_iff
    (h : LineIndex.IsFirst s.text.toList (lead ++ (s.text.toList ++ after)) first) :
    first <+: lead ∧ (first = lead ↔ ¬ s.RecursIn lead after) := by
  obtain ⟨back, hback⟩ := h.occurs
  have hle := h.least lead after rfl
  have hbegins : first <+: lead :=
    List.prefix_of_prefix_length_le ⟨_, hback.symm⟩ (List.prefix_append _ _) hle
  refine ⟨hbegins, ?_, ?_⟩
  · rintro rfl ⟨n, hn, back', hdrop⟩
    have hsplit := (List.take_append_drop n (first ++ (s.text.toList ++ after))).symm
    rw [← hdrop] at hsplit
    have hfirst := h.least _ _ hsplit
    rw [List.length_take] at hfirst
    omega
  · intro hno
    by_contra hne
    have hlt : first.length < lead.length :=
      Nat.lt_of_le_of_ne hle fun heq => hne (hbegins.eq_of_length heq)
    refine hno ⟨first.length, hlt, back, ?_⟩
    rw [hback, List.drop_left]

theorem Step.IsWritten.lead_line (h : s.IsWritten text front gap after) :
    '\n' ∉ s.keyword.toList ++ gap := by
  intro hmem
  rcases List.mem_append.1 hmem with hkeyword | hgap
  · exact h.line (List.mem_append_left _ hkeyword)
  · exact absurd (h.blank _ hgap) (by decide)

/-- A step is placed where its text first occurs behind its offset. -/
theorem Step.IsWritten.exists_first (h : s.IsWritten text front gap after) :
    ∃ first, first <+: s.keyword.toList ++ gap ∧
      (first = s.keyword.toList ++ gap ↔ ¬ s.RecursIn (s.keyword.toList ++ gap) after) ∧
      (s.convert (.ofText text)).location = .behind (front ++ first) := by
  have hoccurs : s.text.toList <:+: s.keyword.toList ++ gap ++ (s.text.toList ++ after) :=
    ⟨_, _, List.append_assoc _ _ _⟩
  obtain ⟨first, hfirst⟩ := LineIndex.exists_isFirst hoccurs
  obtain ⟨hbegins, hiff⟩ := isFirst_lead_iff hfirst
  refine ⟨first, hbegins, hiff, ?_⟩
  rw [convert, h.offset, h.text_eq, LineIndex.find?_of_isFirst hfirst]
  rfl

theorem Step.IsWritten.text_ne_nil (h : s.IsWritten text front gap after)
    (hno : ¬ s.RecursIn (s.keyword.toList ++ gap) after) : s.text.toList ≠ [] := by
  intro hnil
  have hkeyword : s.keyword.toList ≠ [] := fun heq => h.keyword (String.toList_eq_nil_iff.1 heq)
  refine hno ⟨0, ?_, ?_⟩
  · rw [List.length_append]
    exact Nat.add_pos_left (List.length_pos_iff.2 hkeyword) _
  · rw [hnil]
    exact List.nil_prefix

/-- What the diagnostics of a rightly placed step point at is a part of its text. -/
theorem Step.IsWritten.covers (h : s.IsWritten text front gap after)
    (hne : s.text.toList ≠ []) {step : StepLinker.Step} (htext : step.text = s.text)
    (hlocation : step.location = .behind (front ++ (s.keyword.toList ++ gap))) (a b : Nat) :
    s.Covers (front ++ (s.keyword.toList ++ gap)) (step.tokenRange a b) := by
  rw [← htext] at hne
  obtain ⟨left, piece, right, hsplit, hpiece, hrange⟩ :=
    StepLinker.Step.exists_piece_tokenRange hne a b
  rw [htext] at hsplit
  have hline : '\n' ∉ left ++ piece := by
    intro hmem
    refine h.line (List.mem_append_right _ ?_)
    rw [hsplit, ← List.append_assoc]
    exact List.mem_append_left _ hmem
  obtain ⟨hleft, hpieceLine⟩ := not_or.1 (mt List.mem_append.2 hline)
  have hlast : '\n' ∉ left ++ piece.dropLast := by
    intro hmem
    exact (List.mem_append.1 hmem).elim hleft fun h => hpieceLine (List.dropLast_subset _ h)
  have hcount : left.length + piece.length - 1 = (left ++ piece.dropLast).length := by
    have hpos := List.length_pos_iff.2 hpiece
    rw [List.length_append, List.length_dropLast]
    omega
  refine ⟨left, piece, right, hsplit, hpiece, ?_⟩
  rw [hrange, hlocation, hcount, Location.behind_append hleft, Location.behind_append hlast]

/-- A step that is written in the text is placed at the first character of its text just if the text
does not begin earlier, inside the keyword or the blanks. It is placed at the earlier occurrence
otherwise. What is reported of a rightly placed step is at its table, or at a piece of its text. -/
theorem convertSteps_places {steps : List Step} {i : Nat} (hs : steps[i]? = some s)
    (h : s.IsWritten text front gap after) :
    ∃ step, (convertSteps (.ofText text) steps)[i]? = some step ∧ step.text = s.text ∧
      (step.location = .behind (front ++ (s.keyword.toList ++ gap)) ↔
        ¬ s.RecursIn (s.keyword.toList ++ gap) after) ∧
      (∃ first, first <+: s.keyword.toList ++ gap ∧ step.location = .behind (front ++ first)) ∧
      (¬ s.RecursIn (s.keyword.toList ++ gap) after →
        ∀ (l : Linker) (source : Option String), ∀ d ∈ (l.bind source step).2,
          (∃ table, step.table = some table ∧ d.range = .point table.location) ∨
            s.Covers (front ++ (s.keyword.toList ++ gap)) d.range) := by
  have hwritten : (steps.map (·.convert (.ofText text)))[i]? = some (s.convert (.ofText text)) := by
    rw [List.getElem?_map, hs]
    rfl
  obtain ⟨bindingType, hstep⟩ := WrittenStep.getElem?_resolveAll hwritten none
  obtain ⟨first, hbegins, hiff, hlocation⟩ := h.exists_first
  have hplace : (s.convert (.ofText text)).location = .behind (front ++ (s.keyword.toList ++ gap)) ↔
      first = s.keyword.toList ++ gap := by
    have hfirst : '\n' ∉ first := fun hmem => h.lead_line (hbegins.subset hmem)
    rw [hlocation, Location.behind_append hfirst, Location.behind_append h.lead_line]
    constructor
    · intro heq
      exact hbegins.eq_of_length (Nat.add_left_cancel (congrArg Location.column heq))
    · rintro rfl
      rfl
  refine ⟨_, hstep, rfl, hplace.trans hiff, ⟨first, hbegins, hlocation⟩, ?_⟩
  intro hno l source d hd
  refine (Linker.exists_range_of_mem_bind hd).imp_right ?_
  rintro ⟨a, b, hrange⟩
  rw [hrange]
  exact h.covers (h.text_ne_nil hno) rfl (hplace.2 (hiff.2 hno)) a b

end

/-- A step behind two blanks and a character of two bytes. -/
theorem convertSteps_places_knock :
    let text := "Feature: f\n  Scenario: é\n    Given  I knock\n".toList
    let s : Step := ⟨30, "Given ", .context, "I knock", none⟩
    let front := "Feature: f\n  Scenario: é\n    ".toList
    s.IsWritten text front [' '] ['\n'] ∧ ¬ s.RecursIn "Given  ".toList ['\n'] ∧
      ∃ step, (convertSteps (.ofText text) [s])[0]? = some step ∧ step.location = ⟨3, 12⟩ ∧
        ∀ (l : Linker) (source : Option String), ∀ d ∈ (l.bind source step).2,
          (∃ table, step.table = some table ∧ d.range = .point table.location) ∨
            s.Covers (front ++ "Given  ".toList) d.range := by
  intro text s front
  have hwritten : s.IsWritten text front [' '] ['\n'] :=
    ⟨by decide +kernel, by decide +kernel, List.forall_mem_singleton.2 rfl, by decide +kernel,
      by decide +kernel⟩
  have hno : ¬ s.RecursIn "Given  ".toList ['\n'] := by
    decide +kernel
  have hlead : s.keyword.toList ++ [' '] = "Given  ".toList := by
    decide +kernel
  have hs : [s][0]? = some s := rfl
  obtain ⟨step, hstep, -, hlocation, -, hranges⟩ := convertSteps_places hs hwritten
  rw [hlead] at hlocation hranges
  refine ⟨hwritten, hno, step, hstep, ?_, hranges hno⟩
  rw [hlocation.2 hno]
  decide +kernel

/-- The text of the step is also the last letter of the keyword, and it is there that the step is
placed and what is wrong with it is reported. -/
theorem convertSteps_misplaces :
    let text := "Feature: f\n  Scenario: s\n    Given n\n".toList
    let s : Step := ⟨29, "Given ", .context, "n", none⟩
    let front := "Feature: f\n  Scenario: s\n    ".toList
    s.IsWritten text front [] ['\n'] ∧ .behind (front ++ "Given ".toList) = (⟨3, 11⟩ : Location) ∧
      ∃ step, convertSteps (.ofText text) [s] = [step] ∧ step.location = ⟨3, 9⟩ ∧
        ((Linker.new .standard).bind none step).2.map (·.range) = [⟨⟨3, 9⟩, ⟨3, 9⟩⟩] := by
  intro text s front
  refine ⟨?_, by decide +kernel, ?_⟩
  · exact ⟨by decide +kernel, by decide +kernel, nofun, by decide +kernel, by decide +kernel⟩
  · exact ⟨_, rfl, by decide +kernel, by decide +kernel⟩

end Gherkin

end StepLinker

import StepLinker.Proofs.Linker.Binding
import StepLinker.Proofs.Linker.RawText

/-!
# Columns

Tokens are placed by bytes and diagnostics by columns, which count characters and name the last
character of a range and not the one behind it. `Delimits` says that a range is on the line of the
step, inside the step, and that a given text is what stands between its columns. The range of a run
of tokens delimits the text from the first of them to the last, and the range of a value that does
not have the type asked for delimits the value as it is written. That is so of any step whose last
column can be represented.
-/

namespace StepLinker

open Text

/-- The characters of the statement from the first column of the range to the last. -/
def Step.excerpt (step : Step) (range : Text.Range) : List Char :=
  step.text.toList.extract (range.start.column - step.location.column)
    (range.stop.column - step.location.column + 1)

/-- The range is a part of the step, and the text is what stands there. -/
structure Step.Delimits (step : Step) (range : Text.Range) (text : List Char) : Prop where
  start : range.start.Representable
  stop : range.stop.Representable
  startLine : range.start.line = step.location.line
  stopLine : range.stop.line = step.location.line
  ordered : range.start.column ≤ range.stop.column
  notBefore : step.range.start.column ≤ range.start.column
  notBehind : range.stop.column ≤ step.range.stop.column
  excerpt : step.excerpt range = text

namespace Statement

section
variable {s : Statement} {first last : Token} {piece : List Char} {i j : Nat}

theorem start_le_start (hij : i ≤ j) (hfirst : s.tokens[i]? = some first)
    (hlast : s.tokens[j]? = some last) : first.start ≤ last.start := by
  rcases Nat.lt_or_eq_of_le hij with hlt | rfl
  · exact Nat.le_of_lt (stop_le_start hlt hfirst hlast).1
  · obtain rfl := Option.some.inj (hfirst.symm.trans hlast)
    exact Nat.le_refl _

theorem IsPiece.append_eq {before after : List Char} (h : s.IsPiece last last last.text.toList)
    (htext : s.text.toList = before ++ (piece ++ after))
    (hstop : last.stop = byteLength before + byteLength piece) :
    ∃ front, before ++ piece = front ++ last.text.toList ∧ last.start = byteLength front := by
  obtain ⟨front, rest, hfront, hstart, -⟩ := h
  have hboth : (before ++ piece) ++ after = (front ++ last.text.toList) ++ rest := by
    rw [List.append_assoc, List.append_assoc, ← htext, hfront]
  have hlength : byteLength (before ++ piece) = byteLength (front ++ last.text.toList) := by
    rw [byteLength_append, byteLength_append, ← hstop, ← hstart, Token.stop_eq]
  exact ⟨front, (append_inj_of_byteLength hboth hlength).1, hstart⟩

theorem IsPiece.ne_nil (h : s.IsPiece first last piece) (hle : first.start ≤ last.start)
    (hlast : last.IsSolid) : piece ≠ [] := by
  rintro rfl
  obtain ⟨before, after, -, hstart, hstop⟩ := h
  have hpos := hlast.length_pos
  rw [Token.stop_eq, byteLength] at hstop
  rw [Token.length] at hpos
  omega

end

end Statement

namespace Step

section
variable {step : Step} {first last : Token} {before piece after : List Char} {a b : Nat}

theorem locationOf_byteLength (htext : step.text.toList = before ++ after) :
    step.locationOf (byteLength before) = step.location.advance before.length := by
  rw [locationOf, htext, takeBytes_append]

/-- The range from the first to the last of some characters of the statement delimits them. -/
theorem delimits_of_append (hfits : step.range.stop.Representable)
    (htext : step.text.toList = before ++ (piece ++ after))
    (hne : piece ≠ []) :
    step.Delimits ⟨step.location.advance before.length,
      step.location.advance (before.length + piece.length - 1)⟩ piece := by
  have hpos : 0 < piece.length := List.length_pos_iff.2 hne
  have hlength : step.text.length = before.length + (piece.length + after.length) := by
    rw [← String.length_toList, htext, List.length_append, List.length_append]
  -- no column is behind the last of the step
  have hlast : step.range.stop.column = step.location.column + (step.text.length - 1) := rfl
  obtain ⟨hline, hcolumn⟩ := hfits
  rw [hlast] at hcolumn
  have hstart : step.location.column + before.length < UInt64.size := by omega
  have hstop : step.location.column + (before.length + piece.length - 1) < UInt64.size := by omega
  refine ⟨⟨hline, hstart⟩, ⟨hline, hstop⟩, rfl, rfl, ?_, ?_, ?_, ?_⟩
  · simp only [Location.advance]
    omega
  · exact Nat.le_add_right _ _
  · rw [hlast]
    simp only [Location.advance]
    omega
  · have hfrom : step.location.column + before.length - step.location.column = before.length := by
      omega
    have hcount : step.location.column + (before.length + piece.length - 1) -
        step.location.column + 1 - before.length = piece.length := by
      omega
    simp only [excerpt, Location.advance]
    rw [List.extract_eq_take_drop, hfrom, hcount, htext, List.drop_left, List.take_left]

/-- The columns of a run of tokens are those of the text from the first of them to the last. -/
theorem tokenRange_eq_of_isPiece (hab : a < b)
    (hfirst : step.statement.tokens[a]? = some first)
    (hlast : step.statement.tokens[b - 1]? = some last)
    (hpiece : step.statement.IsPiece first last piece) :
    piece ≠ [] ∧ ∃ before after, step.text.toList = before ++ (piece ++ after) ∧
      step.tokenRange a b = ⟨step.location.advance before.length,
        step.location.advance (before.length + piece.length - 1)⟩ := by
  have hmem : last ∈ step.statement.tokens := Array.mem_of_getElem? hlast
  obtain ⟨laid, trail, -, hlaid, -⟩ := step.statement.exists_laid
  have hsolid : last.IsSolid := hlaid.solid last (Array.mem_toList_iff.2 hmem)
  have hle := Statement.start_le_start (Nat.le_sub_one_of_lt hab) hfirst hlast
  have hne := hpiece.ne_nil hle hsolid
  obtain ⟨before, after, htext, hstart, hstop⟩ := hpiece
  obtain ⟨front, hfront, hlastStart⟩ :=
    (Statement.isPiece_token hmem).append_eq htext hstop
  have htext' : step.text.toList = front ++ (last.text.toList ++ after) := by
    rw [← List.append_assoc, ← hfront, List.append_assoc]
    exact htext
  -- the column of the last character is counted from the last token
  have hcount : before.length + piece.length - 1 = front.length + (last.text.length - 1) := by
    have hlength := congrArg List.length hfront
    obtain ⟨c, cs, hsolid, -⟩ := hsolid
    rw [List.length_append, List.length_append] at hlength
    rw [← String.length_toList, hlength, hsolid, List.length_cons]
    rfl
  refine ⟨hne, before, after, htext, ?_⟩
  rw [tokenRange, if_pos hab, hfirst, hlast]
  dsimp only
  rw [hstart, hlastStart, locationOf_byteLength htext, locationOf_byteLength htext', hcount]
  simp only [Location.advance, Nat.add_assoc]

theorem delimits_tokenRange (hfits : step.range.stop.Representable) (hab : a < b)
    (hfirst : step.statement.tokens[a]? = some first)
    (hlast : step.statement.tokens[b - 1]? = some last)
    (hpiece : step.statement.IsPiece first last piece) :
    step.Delimits (step.tokenRange a b) piece := by
  obtain ⟨hne, before, after, htext, hrange⟩ :=
    tokenRange_eq_of_isPiece hab hfirst hlast hpiece
  rw [hrange]
  exact delimits_of_append hfits htext hne

theorem tokenRange_eq_range (h : ¬ (a < b ∧ b ≤ step.statement.length)) :
    step.tokenRange a b = step.range := by
  unfold tokenRange
  split
  · next hab =>
    have hsize : step.statement.length ≤ b - 1 := by omega
    rw [Array.getElem?_eq_none hsize]
    cases step.statement.tokens[a]? <;> rfl
  · rfl

end

end Step

/-- What is found about the type of an argument is found where its value stands. -/
theorem ArgumentMatch.Holds.delimits_of_mem_findings {step : Step} {m : ArgumentMatch}
    {marks : Option (Token × Token)} {content : List Token} {warn : Bool}
    {f : Cause × Text.Range} (hfits : step.range.stop.Representable)
    (h : m.Holds step.statement marks content) (hf : f ∈ m.findings step warn)
    (hcode : f.1.code = .typeNotCompatible) :
    ∃ hint, f.1 = .typeNotCompatible (m.raw step.statement) hint m.placeholder.name ∧
      step.Delimits f.2 (m.raw step.statement).toList := by
  have hisType : f.1.isTypeError = true := by
    cases hcause : f.1 <;> simp_all [Cause.isTypeError, Cause.code]
  have hmem : f ∈ m.typeErrors step warn := List.mem_filter.2 ⟨hf, hisType⟩
  have hreport := h.typeReport warn
  generalize m.typeErrors step warn = errors at hreport hmem
  cases hreport with
  | valueRequired =>
    rw [List.mem_singleton.1 hmem] at hcode
    cases hcode
  | @notCompatible hint _ _ _ nonempty =>
    obtain rfl := List.mem_singleton.1 hmem
    obtain ⟨first, last, -, -, hfirst, hlast, hpiece, hraw⟩ := h.raw_eq nonempty
    have hab : m.span.content.1 < m.span.content.2 := by
      have hempty : m.isEmpty ≠ true := mt h.isEmpty_iff.1 nonempty
      simpa [ArgumentMatch.isEmpty] using hempty
    refine ⟨hint, rfl, ?_⟩
    rw [hraw]
    exact Step.delimits_tokenRange hfits hab hfirst hlast hpiece
  | fine => cases hmem

namespace Linker

section
variable {l : Linker} {step : Step}

/-- A report about the type of a value belongs to an argument of the binding. -/
theorem Consistent.delimits_of_mem_bind (h : l.Consistent)
    (hfits : step.range.stop.Representable) {source : Option String} {d : Diagnostic}
    (hd : d ∈ (l.bind source step).2) (hcode : d.cause.code = .typeNotCompatible) :
    ∃ binding, (l.bind source step).1.binding = some binding ∧ ∃ b ∈ binding.arguments, ∃ hint,
      d.cause = .typeNotCompatible b.raw hint b.placeholder.name ∧
        step.Delimits d.range b.raw.toList := by
  have hsettled := h.settled_bind source step
  generalize l.bind source step = outcome, (l.matching step).map (·.definition) = fitting
    at hsettled hd ⊢
  cases hsettled with
  | unmatched =>
    rw [List.mem_singleton.1 hd] at hcode
    cases hcode
  | ambiguous =>
    rw [List.mem_singleton.1 hd] at hcode
    cases hcode
  | bound _ matched _ _ made _ _ _ report =>
    rcases List.mem_append.1 hd with hfinding | htable
    · obtain ⟨f, hf, rfl⟩ := List.mem_map.1 hfinding
      obtain ⟨a, ha, hfound⟩ := List.mem_flatMap.1 hf
      obtain ⟨m, hm, -, rfl⟩ := matched
      obtain ⟨marks, content, hholds⟩ := h.tree.wellFormed.exists_holds hm ha
      obtain ⟨hint, hcause, hdelimits⟩ := hholds.delimits_of_mem_findings hfits hfound hcode
      subst made
      exact ⟨_, rfl, a.bind step.statement, List.mem_map_of_mem ha, hint, hcause, hdelimits⟩
    · cases report with
      | missing | unwanted =>
        rw [List.mem_singleton.1 htable] at hcode
        cases hcode
      | fine => cases htable

end

end Linker

namespace Step

/-- The columns of a range of tokens delimit what the tokens say, and those of a report about the
type of a value delimit the value. Without such tokens the range is that of the step. The step is any
that ends at a representable place. -/
theorem ranges_delimit {step : Step} (hfits : step.range.stop.Representable) :
    (∀ a b,
      (a < b ∧ b ≤ step.statement.length → ∃ first last piece,
        step.statement.tokens[a]? = some first ∧ step.statement.tokens[b - 1]? = some last ∧
          step.statement.IsPiece first last piece ∧ step.Delimits (step.tokenRange a b) piece) ∧
      (¬ (a < b ∧ b ≤ step.statement.length) → step.tokenRange a b = step.range)) ∧
    ∀ l : Linker, l.Reachable → ∀ source, ∀ d ∈ (l.bind source step).2,
      d.cause.code = .typeNotCompatible →
        ∃ binding, (l.bind source step).1.binding = some binding ∧ ∃ b ∈ binding.arguments,
          ∃ hint, d.cause = .typeNotCompatible b.raw hint b.placeholder.name ∧
            step.Delimits d.range b.raw.toList := by
  refine ⟨fun a b => ⟨fun ⟨hab, hb⟩ => ?_, tokenRange_eq_range⟩,
    fun l hl source d hd hcode => hl.consistent.delimits_of_mem_bind hfits hd hcode⟩
  have hb : b ≤ step.statement.tokens.size := hb
  have hfirst : step.statement.tokens[a]? = some step.statement.tokens[a] :=
    Array.getElem?_eq_getElem _
  have hlast : step.statement.tokens[b - 1]? = some step.statement.tokens[b - 1] :=
    Array.getElem?_eq_getElem _
  have hpiece := Statement.isPiece_extract (Nat.le_sub_one_of_lt hab) hfirst hlast
  exact ⟨_, _, _, hfirst, hlast, hpiece, delimits_tokenRange hfits hab hfirst hlast hpiece⟩

/-- Characters of several bytes stand before the value and in it, and blanks around it. -/
theorem ranges_delimit_cafe :
    let l := ((Linker.new .standard).register (.native "shop" "handlers"
      [⟨.phase .action, "The café pays '{sum:int}'", "pay", .optional, none⟩])).2
    let step : Step := .ofText (.phase .action) (.phase .action)
      "The café pays ' 12 € '" ⟨7, 5⟩ none
    l.Reachable ∧ step.range.stop.Representable ∧
      (step.Delimits (step.tokenRange 4 6) "12 €".toList ∧
        step.tokenRange 4 6 = ⟨⟨7, 21⟩, ⟨7, 24⟩⟩) ∧
      step.tokenRange 6 8 = step.range ∧
      ∃ d ∈ (l.bind none step).2, d.cause = .typeNotCompatible "12 €" .integer "sum" ∧
        step.Delimits d.range "12 €".toList := by
  intro l step
  have hl : l.Reachable := .register (.new .standard) (.native _ _ _)
  have hfits : step.range.stop.Representable := by decide +kernel
  obtain ⟨hranges, hreports⟩ := ranges_delimit hfits
  refine ⟨hl, hfits, ⟨?_, by decide +kernel⟩, (hranges 6 8).2 (by decide +kernel), ?_⟩
  · obtain ⟨first, last, piece, -, -, -, hdelimits⟩ := (hranges 4 6).1 (by decide +kernel)
    have htext : "12 €".toList = piece := by
      rw [← hdelimits.excerpt]
      decide +kernel
    rwa [htext]
  · obtain ⟨d, hd, hcause⟩ : ∃ d ∈ (l.bind none step).2,
        d.cause = .typeNotCompatible "12 €" .integer "sum" := by
      decide +kernel
    have hcode : d.cause.code = .typeNotCompatible := by
      rw [hcause]
      rfl
    obtain ⟨binding, -, b, -, hint, hcause', hdelimits⟩ := hreports l hl none d hd hcode
    have hraw : b.raw = "12 €" := by
      rw [hcause] at hcause'
      injection hcause' with hvalue
      exact hvalue.symm
    rw [hraw] at hdelimits
    exact ⟨d, hd, hcause, hdelimits⟩

end Step

end StepLinker

import StepLinker.Proofs.Linker.Typing
import StepLinker.Proofs.Statement.Run

/-!
# Texts of arguments

An argument is known by the places of its tokens, and its value as it is written is cut out of the
statement by their byte offsets. `Written` says the same of the characters: between two quote marks
stands the value with blanks on either side, which are what the warning is about, or nothing but
blanks, which stand for no value and are not warned of. The value begins with a character that is
not blank and ends where its last token does, so a blank at its end is an escaped one.
-/

namespace StepLinker

open Text

namespace Statement

section
variable {s : Statement} {before inside after : List Token} {first last head final : Token}
  {i : Nat}

/-- Between two tokens stand the tokens between them and the gaps on either side of these. -/
theorem between_eq 
    (htokens : s.tokens.toList = before ++ first :: (inside ++ last :: after))
    (hhead : inside.head? = some head) (hfinal : inside.getLast? = some final) :
    s.between first last =
      s.between first head ++ (s.joined inside ++ s.between final last) := by
  obtain ⟨more, hmore⟩ := List.head?_eq_some_iff.1 hhead
  obtain ⟨front, hfront⟩ := List.getLast?_eq_some_iff.1 hfinal
  have hjoined : s.joined (first :: (inside ++ [last])) = first.text.toList ++
      ((s.between first head ++ (s.joined inside ++ s.between final last)) ++
        last.text.toList) := by
    have hright : s.joined (inside ++ [last]) =
        s.joined inside ++ (s.between final last ++ last.text.toList) := by
      rw [hfront, List.append_assoc]
      exact s.joined_append front [] final last
    rw [hmore] at hright ⊢
    rw [List.cons_append] at hright ⊢
    rw [joined, hright]
    simp
  have htokens' : s.tokens.toList = before ++ (first :: (inside ++ [last]) ++ after) := by
    simp [htokens]
  have hlast : (first :: (inside ++ [last])).getLast? = some last := by
    rw [← List.cons_append, List.getLast?_concat]
  obtain ⟨left, right, htext, hstart, hstop⟩ := isPiece_joined htokens' rfl hlast
  rw [hjoined] at htext hstop
  generalize s.between first head ++ (s.joined inside ++ s.between final last) = middle at *
  have hfirst : first.stop = byteLength (left ++ first.text.toList) := by
    rw [Token.stop_eq, hstart, byteLength_append]
  have hsecond : last.start = byteLength (left ++ first.text.toList) + byteLength middle := by
    simp only [byteLength_append] at hstop ⊢
    rw [Token.stop_eq] at hstop
    omega
  have htext' : s.text.toList = (left ++ first.text.toList) ++
      (middle ++ (last.text.toList ++ right)) := by
    simp [htext]
  rw [between, hfirst, hsecond, htext', byteSlice_append]

theorem hasGapAfter_eq_true_iff (hfirst : s.tokens[i]? = some first)
    (hlast : s.tokens[i + 1]? = some last) :
    s.hasGapAfter i = true ↔ s.between first last ≠ [] := by
  simp [hasGapAfter_iff_between, hfirst, hlast]

/-- The text of a run of tokens does not begin with a blank, and ends in one only if that is the
escaped character of the last token. -/
theorem joined_ends 
    (htokens : s.tokens.toList = before ++ (inside ++ after))
    (hfinal : inside.getLast? = some final) :
    (∃ c cs, s.joined inside = c :: cs ∧ isBlank c = false) ∧
      ∀ e, (s.joined inside).getLast? = some e → isBlank e = true → final.kind = .escaped e := by
  have hmem (t : Token) (ht : t ∈ inside) : t ∈ s.tokens := by
    rw [← Array.mem_toList_iff, htokens]
    simp [ht]
  obtain ⟨laid, trail, -, hlaid, -⟩ := s.exists_laid
  have hsolid (t : Token) (ht : t ∈ inside) : t.IsSolid :=
    hlaid.solid t (Array.mem_toList_iff.2 (hmem t ht))
  constructor
  · rcases inside with _ | ⟨t, ts⟩
    · cases hfinal
    · obtain ⟨rest, hrest⟩ := s.exists_joined_cons t ts
      obtain ⟨c, cs, htext, hc⟩ := hsolid t List.mem_cons_self
      exact ⟨c, cs ++ rest, by rw [hrest, htext, List.cons_append], hc⟩
  · intro e he hblank
    have hfinalmem := List.mem_of_getLast? hfinal
    obtain ⟨ts, rfl⟩ := List.getLast?_eq_some_iff.1 hfinal
    obtain ⟨front, hfront⟩ := s.exists_joined_concat ts final
    obtain ⟨c, cs, htext, -⟩ := hsolid final hfinalmem
    rw [hfront, htext, List.getLast?_append_cons, ← htext] at he
    exact kind_of_isBlank (hmem final hfinalmem) he hblank

end

end Statement

namespace ArgumentMatch

/-- The warnings about blanks around the value, among all that is found about the argument. -/
def paddingWarnings (a : ArgumentMatch) (step : Step) (warn : Bool) : List (Cause × Text.Range) :=
  (a.findings step warn).filter (·.1.code = .surroundingWhitespace)

/-- How the value of an argument with the content is written in the statement. -/
inductive Written (step : Step) (a : ArgumentMatch) :
    Option (Token × Token) → List Token → Prop where
  /-- Blanks alone between the marks stand for no value. -/
  | blank {first last : Token} {content : List Token}
      (blank : ∀ c ∈ step.statement.between first last, isBlank c = true)
      (raw : (a.bind step.statement).raw = "") (quiet : ∀ warn, a.paddingWarnings step warn = []) :
      Written step a (some (first, last)) content
  /-- Anything else between the marks is the value, perhaps with blanks on either side. -/
  | value {first last final : Token} {content : List Token} {left right cs : List Char} {c : Char}
      (between : step.statement.between first last =
        left ++ ((a.bind step.statement).raw.toList ++ right))
      (leftBlank : ∀ c ∈ left, isBlank c = true) (rightBlank : ∀ c ∈ right, isBlank c = true)
      (begins : (a.bind step.statement).raw.toList = c :: cs) (solid : isBlank c = false)
      (isLast : content.getLast? = some final)
      (ends : final.stop = first.stop + byteLength left +
        byteLength (a.bind step.statement).raw.toList)
      (escaped : ∀ e, (a.bind step.statement).raw.toList.getLast? = some e → isBlank e = true →
        final.kind = .escaped e)
      (warned : ∀ warn, a.paddingWarnings step warn =
        if warn = true ∧ (left ≠ [] ∨ right ≠ []) then
          [(.surroundingWhitespace a.placeholder.name,
            step.tokenRange a.span.start a.span.stop)]
        else []) :
      Written step a (some (first, last)) content
  /-- Without marks the value is all that is matched. -/
  | bare {first last : Token} {content : List Token} (isFirst : content.head? = some first)
      (isLast : content.getLast? = some last)
      (piece : step.statement.IsPiece first last (a.bind step.statement).raw.toList)
      (quiet : ∀ warn, a.paddingWarnings step warn = []) : Written step a none content

section
variable {s : Statement} {step : Step} {a : ArgumentMatch} {marks : Option (Token × Token)}
  {content : List Token}

theorem Holds.paddingWarnings_eq (h : Holds step.statement a marks content) (warn : Bool) :
    a.paddingWarnings step warn =
      if warn = true ∧ a.isPadded step.statement = true then
        [(.surroundingWhitespace a.placeholder.name, step.tokenRange a.span.start a.span.stop)]
      else [] := by
  have htype : (a.typeError? step).toList.filter (·.1.code = .surroundingWhitespace) = [] := by
    refine List.filter_eq_nil_iff.2 fun f hf => ?_
    have herror := h.typeReport_typeError?.isTypeError f hf
    cases hcause : f.1 <;> simp_all [Cause.isTypeError, Cause.code]
  rw [paddingWarnings, findings, List.filter_append, htype, List.nil_append, padding?]
  cases warn <;> cases a.isPadded step.statement <;> rfl

/-- The value is the piece of the text from the first token of the content to the last. -/
theorem Holds.raw_eq (h : Holds s a marks content)
    (hne : content ≠ []) :
    ∃ first last, content.head? = some first ∧ content.getLast? = some last ∧
      s.tokens[a.span.content.1]? = some first ∧ s.tokens[a.span.content.2 - 1]? = some last ∧
      s.IsPiece first last (s.joined content) ∧ (a.raw s).toList = s.joined content := by
  obtain ⟨before, after, htokens, hcontent⟩ := h.exists_places
  have hempty : a.isEmpty ≠ true := mt h.isEmpty_iff.1 hne
  have hhead : content.head? = some (content.head hne) := List.head?_eq_some_head hne
  have hlast : content.getLast? = some (content.getLast hne) := List.getLast?_eq_some_getLast hne
  have hpiece := Statement.isPiece_joined htokens hhead hlast
  have hlength := List.length_pos_iff.2 hne
  have hfirstAt : s.tokens[a.span.content.1]? = some (content.head hne) := by
    have hget := Statement.getElem?_of_tokens htokens 0
    rw [hcontent, ← hhead, List.head?_eq_getElem?]
    rwa [List.getElem?_append_left hlength] at hget
  have hlastAt : s.tokens[a.span.content.2 - 1]? = some (content.getLast hne) := by
    have hget := Statement.getElem?_of_tokens htokens (content.length - 1)
    rw [hcontent, ← hlast, List.getLast?_eq_getElem?]
    rw [List.getElem?_append_left (by omega)] at hget
    rw [← hget]
    congr 1
    dsimp only
    omega
  refine ⟨_, _, hhead, hlast, hfirstAt, hlastAt, hpiece, ?_⟩
  rw [raw, if_neg hempty, Statement.slice_eq_of_isPiece hfirstAt hlastAt hpiece,
    String.toList_ofList]

/-! ## Padding -/

theorem isPadded_eq_false_of_isEmpty (h : a.isEmpty = true) : a.isPadded s = false := by
  rw [isPadded, h]
  rfl

theorem isPadded_quoted {before inside : Nat} (hspan : a.span = .quoted before inside)
    (hempty : a.isEmpty = false) :
    a.isPadded s = (s.hasGapAfter before || s.hasGapAfter (before + inside)) := by
  have hlast : before + 1 + inside - 1 = before + inside := by omega
  rw [isPadded, hempty, hspan, Span.content_quoted, hlast]
  rfl

theorem Holds.written_nil {first last : Token} 
    (h : Holds step.statement a (some (first, last)) []) :
    Written step a (some (first, last)) [] := by
  have hempty : a.isEmpty = true := h.isEmpty_iff.2 rfl
  have hwarnings := h.paddingWarnings_eq
  cases h with
  | @quoted q before _ after _ _ quote tokens span opens plain closes =>
    have hfirst := Statement.getElem?_of_tokens tokens 0
    have hlast := Statement.getElem?_of_tokens tokens 1
    refine .blank (Statement.exists_gap hfirst hlast).2 (if_pos hempty) fun warn => ?_
    rw [hwarnings, isPadded_eq_false_of_isEmpty hempty]
    simp

theorem Holds.written_cons {first last : Token} 
    (h : Holds step.statement a (some (first, last)) content) (hne : content ≠ []) :
    Written step a (some (first, last)) content := by
  obtain ⟨head, final, hhead, hfinal, hheadAt, hfinalAt, hpiece, hraw⟩ := h.raw_eq hne
  have hempty : a.isEmpty = false := by
    rw [Bool.eq_false_iff]
    exact mt h.isEmpty_iff.1 hne
  have hwarnings := h.paddingWarnings_eq
  cases h with
  | @quoted q before _ after _ _ quote tokens span opens plain closes =>
    have hfirstAt : step.statement.tokens[before.length]? = some first :=
      Statement.getElem?_of_tokens tokens 0
    have hlastAt : step.statement.tokens[before.length + content.length + 1]? = some last := by
      rw [Nat.add_assoc, Statement.getElem?_of_tokens tokens]
      simp
    rw [span, Span.content_quoted] at hheadAt hfinalAt
    rw [show before.length + 1 + content.length - 1 = before.length + content.length by omega]
      at hfinalAt
    obtain ⟨hstart, hleft⟩ := Statement.exists_gap hfirstAt hheadAt
    obtain ⟨-, hright⟩ := Statement.exists_gap hfinalAt hlastAt
    have hpadded : a.isPadded step.statement = true ↔
        step.statement.between first head ≠ [] ∨ step.statement.between final last ≠ [] := by
      rw [isPadded_quoted span hempty, Bool.or_eq_true_iff,
        Statement.hasGapAfter_eq_true_iff hfirstAt hheadAt,
        Statement.hasGapAfter_eq_true_iff hfinalAt hlastAt]
    have hinside : step.statement.tokens.toList =
        (before ++ [first]) ++ (content ++ (last :: after)) := by
      simp [tokens]
    obtain ⟨⟨c, cs, hbegins, hsolid⟩, hescaped⟩ := Statement.joined_ends hinside hfinal
    have hbetween := Statement.between_eq tokens hhead hfinal
    obtain ⟨_, _, -, hheadStart, hfinalStop⟩ := hpiece
    rw [← hraw] at hbetween hbegins hescaped hfinalStop
    refine .value hbetween hleft hright hbegins hsolid hfinal ?_ hescaped fun warn => ?_
    · rw [hfinalStop, ← hheadStart, hstart]
      rfl
    · rw [hwarnings]
      simp only [hpadded]

theorem Holds.written_bare 
    (h : Holds step.statement a none content) : Written step a none content := by
  have hne : content ≠ [] := by
    cases h with
    | unquoted _ _ _ nonempty => exact nonempty
  obtain ⟨head, final, hhead, hfinal, -, -, hpiece, hraw⟩ := h.raw_eq hne
  have hwarnings := h.paddingWarnings_eq
  rw [← hraw] at hpiece
  refine .bare hhead hfinal hpiece fun warn => ?_
  cases h with
  | unquoted _ _ span _ =>
    rw [hwarnings]
    simp [isPadded, span]

theorem Holds.written 
    (h : Holds step.statement a marks content) : Written step a marks content := by
  rcases marks with _ | ⟨first, last⟩
  · exact h.written_bare
  · by_cases hne : content = []
    · subst hne
      exact h.written_nil
    · exact h.written_cons hne

end

end ArgumentMatch

namespace MatchingTree

/-- The text of an argument of an exact match and the warning about blanks around it are what its
quote marks enclose, or what it takes up without them. -/
theorem Reachable.arguments_written {t : MatchingTree} (ht : t.Reachable) {step : Step}
    {type : StepType} {allowPartial : Bool}
    {m : Match} (hm : m ∈ t.search type step.statement allowPartial) (hexact : m.exact = true)
    {a : ArgumentMatch} (ha : a ∈ m.arguments) :
    ∃ marks content, a.Holds step.statement marks content ∧ a.Written step marks content := by
  have hmatch : m ∈ t.exactMatches type step.statement allowPartial :=
    List.mem_filter.2 ⟨hm, hexact⟩
  obtain ⟨marks, content, hholds⟩ := ht.wellFormed.exists_holds hmatch ha
  exact ⟨marks, content, hholds, hholds.written⟩

/-- The blank behind the backslash belongs to the value, and the two at the marks do not. -/
theorem arguments_written_say :
    let say : Definition := ⟨"voice", .phase .action, "I say '{what}' to {whom}", .optional,
      .native "say" none, none⟩
    let t := empty.run (.addOrUpdate say)
    let step : Step := .ofText (.phase .action) (.phase .action)
      "I say '\u3000<é>\\  ' to  me " ⟨1, 1⟩ none
    let what : ArgumentMatch := ⟨⟨"what", none, some .single⟩, ⟨2, 6, true, true⟩⟩
    t.Reachable ∧
      (∃ m ∈ t.search (.phase .action) step.statement false, m.exact = true ∧
        what ∈ m.arguments) ∧
      (∃ marks content, what.Holds step.statement marks content ∧
        what.Written step marks content) ∧
      (what.bind step.statement).raw = "<é>\\ " ∧
      (what.paddingWarnings step true).length = 1 ∧ what.paddingWarnings step false = [] := by
  intro say t step what
  have ht : t.Reachable := .step _ .empty rfl
  have hsearch : (t.search (.phase .action) step.statement false).any
      (fun m => m.exact && m.arguments.contains what) = true := by
    decide +kernel
  obtain ⟨m, hm, hfound⟩ := List.any_eq_true.1 hsearch
  obtain ⟨hexact, hwhat⟩ := Bool.and_eq_true_iff.1 hfound
  have hwhat : what ∈ m.arguments := List.contains_iff_mem.1 hwhat
  exact ⟨ht, ⟨m, hm, hexact, hwhat⟩, ht.arguments_written hm hexact hwhat,
    by decide +kernel, by decide +kernel, by decide +kernel⟩

end MatchingTree

end StepLinker

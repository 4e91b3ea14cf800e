import StepLinker.Proofs.Statement.Slice

/-!
# Gaps

Between two neighbouring tokens of a statement stand blank characters or nothing
(`Statement.exists_gap`). A match sees a gap in the byte offsets of the tokens; `hasGapAfter_iff`
says that it sees one exactly where a blank stands in the text.
-/

namespace StepLinker

open Text

theorem Text.byteLength_eq_zero {cs : List Char} : byteLength cs = 0 ↔ cs = [] := by
  cases cs with
  | nil => simp [byteLength]
  | cons c cs =>
    have hpos := c.utf8Size_pos
    simp only [byteLength, reduceCtorEq, iff_false]
    omega

theorem Lexeme.isBlank_of_next {boundary : Bool} {c c' : Char} {rest : List Char}
    (h : (next boundary c rest).1 = .blank c') : isBlank c' = true := by
  unfold next at h
  split at h
  · next hblank =>
    cases h
    exact hblank
  · split at h
    · split at h <;> cases h
    · split at h
      · cases h
      · split at h
        · split at h <;> cases h
        · split at h
          · cases h
          · split at h <;> cases h

theorem isBlank_of_mem_lexemes {boundary : Bool} {text : List Char} {c : Char}
    (h : .blank c ∈ lexemes boundary text) : isBlank c = true := by
  fun_induction lexemes boundary text with
  | case1 => cases h
  | case2 boundary c' rest ih =>
    rcases List.mem_cons.1 h with hfirst | hothers
    · exact Lexeme.isBlank_of_next hfirst.symm
    · exact ih hothers

namespace Token

section
variable {ls : List Lexeme} {offset : Nat} {a b : Token}

theorem exists_gap_before (h : (place offset ls)[0]? = some a) :
    ∃ gap after, ls.flatMap Lexeme.chars = gap ++ after ∧ a.start = offset + byteLength gap ∧
      ∀ c ∈ gap, .blank c ∈ ls := by
  induction ls generalizing offset with
  | nil => cases h
  | cons l ls ih =>
    cases l with
    | blank c =>
      obtain ⟨gap, after, htext, hstart, hgap⟩ := ih h
      refine ⟨c :: gap, after, congrArg (c :: ·) htext, hstart.trans (Nat.add_assoc _ _ _), ?_⟩
      exact List.forall_mem_cons.2
        ⟨List.mem_cons_self, fun c hc => List.mem_cons_of_mem _ (hgap c hc)⟩
    | token kind text =>
      cases h
      exact ⟨[], _, rfl, rfl, nofun⟩

theorem exists_gap_between {i : Nat} (ha : (place offset ls)[i]? = some a)
    (hb : (place offset ls)[i + 1]? = some b) :
    ∃ before gap after, ls.flatMap Lexeme.chars = before ++ (gap ++ after) ∧
      a.stop = offset + byteLength before ∧ b.start = a.stop + byteLength gap ∧
      ∀ c ∈ gap, .blank c ∈ ls := by
  induction ls generalizing offset i with
  | nil => cases ha
  | cons l ls ih =>
    cases l with
    | blank c =>
      obtain ⟨before, gap, after, htext, hstop, hstart, hgap⟩ := ih ha hb
      refine ⟨c :: before, gap, after, congrArg (c :: ·) htext,
        hstop.trans (Nat.add_assoc _ _ _), hstart, fun c hc => ?_⟩
      exact List.mem_cons_of_mem _ (hgap c hc)
    | token kind text =>
      cases i with
      | zero =>
        -- the gap begins right behind this token
        cases ha
        obtain ⟨gap, after, htext, hstart, hgap⟩ := exists_gap_before hb
        refine ⟨text, gap, after, congrArg (text ++ ·) htext, ?_, ?_, fun c hc => ?_⟩
        · simp [stop, length]
        · simpa [stop, length] using hstart
        · exact List.mem_cons_of_mem _ (hgap c hc)
      | succ i =>
        obtain ⟨before, gap, after, htext, hstop, hstart, hgap⟩ := ih ha hb
        refine ⟨text ++ before, gap, after, ?_, ?_, hstart, fun c hc => ?_⟩
        · rw [List.flatMap_cons, htext, List.append_assoc]
          rfl
        · rw [hstop, byteLength_append, Nat.add_assoc]
        · exact List.mem_cons_of_mem _ (hgap c hc)

end

end Token

namespace Statement

def between (s : Statement) (a b : Token) : List Char :=
  byteSlice s.text.toList a.stop b.start

section
variable {s : Statement} {i : Nat} {a b : Token}

theorem exists_gap (ha : s.tokens[i]? = some a)
    (hb : s.tokens[i + 1]? = some b) :
    b.start = a.stop + byteLength (s.between a b) ∧ ∀ c ∈ s.between a b, isBlank c = true := by
  simp only [s.tokenised, Token.ofText, List.getElem?_toArray] at ha hb
  obtain ⟨before, gap, after, htext, hstop, hstart, hgap⟩ := Token.exists_gap_between ha hb
  rw [flatMap_chars_lexemes] at htext
  have hbetween : s.between a b = gap := by
    rw [between, hstart, hstop, htext, Nat.zero_add]
    exact byteSlice_append before gap after
  rw [hbetween]
  exact ⟨hstart, fun c hc => isBlank_of_mem_lexemes (hgap c hc)⟩

/-- The offsets of the tokens show a gap where a blank stands between them. -/
theorem hasGapAfter_iff (ha : s.tokens[i]? = some a)
    (hb : s.tokens[i + 1]? = some b) :
    s.hasGapAfter i = true ↔ ∃ c ∈ s.between a b, isBlank c = true := by
  obtain ⟨hstart, hblank⟩ := exists_gap ha hb
  rw [hasGapAfter, ha, hb]
  simp only [decide_eq_true_eq]
  constructor
  · intro hlt
    have hne : s.between a b ≠ [] := by
      intro hnil
      rw [hnil] at hstart
      exact absurd hstart (Nat.ne_of_gt hlt)
    obtain ⟨c, hc⟩ := List.exists_mem_of_ne_nil _ hne
    exact ⟨c, hc, hblank c hc⟩
  · rintro ⟨c, hc, -⟩
    have hne : byteLength (s.between a b) ≠ 0 := fun hzero =>
      List.ne_nil_of_mem hc (byteLength_eq_zero.1 hzero)
    omega

theorem hasGapAfter_eq_false_iff (ha : s.tokens[i]? = some a)
    (hb : s.tokens[i + 1]? = some b) :
    s.hasGapAfter i = false ↔ ∀ c ∈ s.between a b, isBlank c = false := by
  rw [← Bool.not_eq_true, hasGapAfter_iff ha hb]
  simp

end

end Statement

end StepLinker

import StepLinker.Argument
import StepLinker.Proofs.Statement.Cut

/-!
# Values between quote marks

A slice is cut out by byte offsets and a gap is seen in them, while a match knows its argument by
the places of tokens. `Enclosed` describes a statement around a value without blank characters in
it that stands tightly between two quote marks. An argument that spans it all has the tokens of the
value for its content, is not padded, and reads the value.
-/

namespace StepLinker

open Text

namespace Text

theorem dropBytes_append (as bs : List Char) : dropBytes (byteLength as) (as ++ bs) = bs := by
  induction as with
  | nil => cases bs <;> rfl
  | cons a as ih =>
    have hpos := a.utf8Size_pos
    rw [byteLength, List.cons_append, dropBytes, if_neg (by omega), Nat.add_sub_cancel_left, ih]

theorem takeBytes_append (as bs : List Char) : takeBytes (byteLength as) (as ++ bs) = as := by
  induction as with
  | nil => cases bs <;> rfl
  | cons a as ih =>
    have hpos := a.utf8Size_pos
    rw [byteLength, List.cons_append, takeBytes, if_neg (by omega), Nat.add_sub_cancel_left, ih]

theorem byteSlice_append (before text after : List Char) :
    byteSlice (before ++ (text ++ after)) (byteLength before)
      (byteLength before + byteLength text) = text := by
  rw [byteSlice, dropBytes_append, Nat.add_sub_cancel_left, takeBytes_append]

end Text

/-! ## The tokens at the ends -/

namespace Token

section
variable {ls : List Lexeme} (offset : Nat)

/-- The first token begins where the text does, if no blank is in front of it. -/
theorem start_place (hsolid : ∀ c, .blank c ∉ ls) (hne : ls ≠ []) :
    ∃ t ts, place offset ls = t :: ts ∧ t.start = offset := by
  rcases ls with _ | ⟨l, ls⟩
  · exact absurd rfl hne
  cases l with
  | blank c => exact absurd List.mem_cons_self (hsolid c)
  | token kind text => exact ⟨_, _, rfl, rfl⟩

/-- The last token ends where the text does, if no blank is behind it. -/
theorem stop_place (hsolid : ∀ c, .blank c ∉ ls) (hne : ls ≠ []) :
    ∃ ts t, place offset ls = ts ++ [t] ∧
      t.stop = offset + byteLength (ls.flatMap Lexeme.chars) := by
  obtain ⟨ls, l, rfl⟩ := (List.eq_nil_or_concat ls).resolve_left hne
  rw [List.concat_eq_append] at hsolid ⊢
  cases l with
  | blank c => exact absurd (List.mem_append_right _ List.mem_cons_self) (hsolid c)
  | token kind text =>
    refine ⟨_, _, place_append offset ls [.token kind text], ?_⟩
    simp [stop, length, Lexeme.chars, byteLength_append, Nat.add_assoc]

theorem exists_mem_of_mem_place {t : Token} (h : t ∈ place offset ls) :
    ∃ text, .token t.kind text ∈ ls := by
  induction ls generalizing offset with
  | nil => cases h
  | cons l ls ih =>
    cases l with
    | blank c =>
      obtain ⟨text, hmem⟩ := ih _ h
      exact ⟨text, List.mem_cons_of_mem _ hmem⟩
    | token kind text =>
      rcases List.mem_cons.1 h with rfl | h
      · exact ⟨text, List.mem_cons_self⟩
      · obtain ⟨text', hmem⟩ := ih _ h
        exact ⟨text', List.mem_cons_of_mem _ hmem⟩

end

end Token

/-! ## The value -/

/-- The statement has the tokens `inside`, which are those of the lexemes `ls`, tightly between the
tokens `first` and `last`. -/
structure Enclosed (s : Statement) (left right : List Char) (before after : List Token)
    (first last : Token) (ls : List Lexeme) (inside : List Token) : Prop where
  text : s.text.toList = left ++ (ls.flatMap Lexeme.chars ++ right)
  tokens : s.tokens.toList = before ++ first :: (inside ++ last :: after)
  placed : inside = Token.place (byteLength left) ls
  opens : first.stop = byteLength left
  closes : last.start = byteLength left + byteLength (ls.flatMap Lexeme.chars)
  solid : ∀ c, .blank c ∉ ls

/-- The span from one mark to the other, with `before` tokens in front of it and `inside` tokens
between the marks. -/
def Span.quoted (before inside : Nat) : Span :=
  ⟨before, before + inside + 2, true, true⟩

theorem Span.content_quoted (before inside : Nat) :
    (quoted before inside).content = (before + 1, before + 1 + inside) := by
  simp only [quoted, content, Bool.toNat_true]
  congr 1
  omega

theorem Statement.getElem?_of_tokens {s : Statement} {before rest : List Token}
    (h : s.tokens.toList = before ++ rest) (i : Nat) : s.tokens[before.length + i]? = rest[i]? := by
  rw [← Array.getElem?_toList, h, List.getElem?_append_right (by omega), Nat.add_sub_cancel_left]

theorem ArgumentMatch.content_eq {s : Statement} {m : ArgumentMatch}
    {before inside after : List Token} (htokens : s.tokens.toList = before ++ (inside ++ after))
    (hcontent : m.span.content = (before.length, before.length + inside.length)) :
    m.content s = inside := by
  rw [content, hcontent, Array.toList_extract, List.extract_eq_take_drop, htokens, List.drop_left,
    Nat.add_sub_cancel_left, List.take_left]

theorem ArgumentMatch.isEmpty_iff {m : ArgumentMatch} {first count : Nat}
    (hcontent : m.span.content = (first, first + count)) : m.isEmpty = true ↔ count = 0 := by
  simp only [isEmpty, hcontent, decide_eq_true_eq]
  omega

theorem Statement.hasGapAfter_eq_false {s : Statement} {i : Nat} {a b : Token}
    (ha : s.tokens[i]? = some a) (hb : s.tokens[i + 1]? = some b) (h : b.start ≤ a.stop) :
    s.hasGapAfter i = false := by
  rw [hasGapAfter, ha, hb]
  exact decide_eq_false (Nat.not_lt.2 h)

namespace Enclosed

section
variable {s : Statement} {left right : List Char} {before after inside : List Token}
  {first last : Token} {ls : List Lexeme} {m : ArgumentMatch}

theorem getElem? (h : Enclosed s left right before after first last ls inside) (i : Nat) :
    s.tokens[before.length + i]? = (first :: (inside ++ last :: after))[i]? :=
  Statement.getElem?_of_tokens h.tokens i

theorem inside_eq_nil (h : Enclosed s left right before after first last ls inside) :
    inside = [] ↔ ls = [] := by
  rw [h.placed]
  constructor
  · intro hnil
    by_contra hne
    obtain ⟨t, ts, hcons, -⟩ := Token.start_place (byteLength left) h.solid hne
    rw [hnil] at hcons
    cases hcons
  · rintro rfl
    rfl

theorem eq_singleton (h : Enclosed s left right before after first last ls inside) {t : Token}
    (ht : inside = [t]) : ∃ text, ls = [.token t.kind text] := by
  have hplaced := h.placed
  have hsolid := h.solid
  rw [ht] at hplaced
  rcases ls with _ | ⟨l, ls⟩
  · cases hplaced
  cases l with
  | blank c => exact absurd List.mem_cons_self (hsolid c)
  | token kind text =>
    obtain ⟨rfl, hrest⟩ := List.cons.inj hplaced
    refine ⟨text, ?_⟩
    by_cases hne : ls = []
    · rw [hne]
    · obtain ⟨t', ts, hcons, -⟩ := Token.start_place _
        (fun c hmem => hsolid c (List.mem_cons_of_mem _ hmem)) hne
      rw [hcons] at hrest
      cases hrest

theorem isEmpty_eq (h : Enclosed s left right before after first last ls inside)
    (hspan : m.span = .quoted before.length inside.length) : m.isEmpty = ls.isEmpty := by
  rw [Bool.eq_iff_iff, List.isEmpty_iff, ← h.inside_eq_nil, ← List.length_eq_zero_iff]
  exact ArgumentMatch.isEmpty_iff (hspan ▸ Span.content_quoted _ _)

theorem content_eq (h : Enclosed s left right before after first last ls inside)
    (hspan : m.span = .quoted before.length inside.length) : m.content s = inside := by
  have hmarks : s.tokens.toList = (before ++ [first]) ++ (inside ++ last :: after) := by
    simp [h.tokens]
  refine ArgumentMatch.content_eq hmarks ?_
  rw [hspan, Span.content_quoted, List.length_append, List.length_singleton]

theorem first_getElem? (h : Enclosed s left right before after first last ls inside) :
    s.tokens[before.length]? = some first :=
  h.getElem? 0

theorem last_getElem? (h : Enclosed s left right before after first last ls inside) :
    s.tokens[before.length + inside.length + 1]? = some last := by
  rw [Nat.add_assoc, h.getElem?, List.getElem?_cons_succ,
    List.getElem?_append_right (Nat.le_refl _), Nat.sub_self]
  rfl

theorem exists_start (h : Enclosed s left right before after first last ls inside)
    (hne : ls ≠ []) :
    ∃ t, s.tokens[before.length + 1]? = some t ∧ t.start = byteLength left := by
  obtain ⟨t, ts, hplace, hstart⟩ := Token.start_place (byteLength left) h.solid hne
  refine ⟨t, ?_, hstart⟩
  rw [h.getElem?, h.placed, hplace]
  rfl

theorem exists_stop (h : Enclosed s left right before after first last ls inside)
    (hne : ls ≠ []) :
    ∃ t, s.tokens[before.length + inside.length]? = some t ∧
      t.stop = byteLength left + byteLength (ls.flatMap Lexeme.chars) := by
  obtain ⟨ts, t, hplace, hstop⟩ := Token.stop_place (byteLength left) h.solid hne
  refine ⟨t, ?_, hstop⟩
  rw [h.getElem?, h.placed, hplace]
  simp

theorem isPadded_eq_false (h : Enclosed s left right before after first last ls inside)
    (hspan : m.span = .quoted before.length inside.length) : m.isPadded s = false := by
  by_cases hne : ls = []
  · rw [ArgumentMatch.isPadded, h.isEmpty_eq hspan, hne]
    rfl
  obtain ⟨a, ha, hstart⟩ := h.exists_start hne
  obtain ⟨b, hb, hstop⟩ := h.exists_stop hne
  have hopens : s.hasGapAfter before.length = false :=
    Statement.hasGapAfter_eq_false h.first_getElem? ha (by rw [hstart, h.opens])
  have hcloses : s.hasGapAfter (before.length + inside.length) = false :=
    Statement.hasGapAfter_eq_false hb h.last_getElem? (by rw [hstop, h.closes])
  have hlast : before.length + 1 + inside.length - 1 = before.length + inside.length := by omega
  rw [ArgumentMatch.isPadded, hspan, Span.content_quoted, hlast, hcloses]
  show (_ && (_ && s.hasGapAfter before.length || _)) = false
  rw [hopens]
  simp

theorem raw_eq (h : Enclosed s left right before after first last ls inside)
    (hspan : m.span = .quoted before.length inside.length) :
    m.raw s = String.ofList (ls.flatMap Lexeme.chars) := by
  rw [ArgumentMatch.raw, h.isEmpty_eq hspan]
  by_cases hne : ls = []
  · rw [hne]
    rfl
  obtain ⟨a, ha, hstart⟩ := h.exists_start hne
  obtain ⟨b, hb, hstop⟩ := h.exists_stop hne
  have hlast : before.length + 1 + inside.length - 1 = before.length + inside.length := by omega
  rw [if_neg (by simpa using hne), hspan, Span.content_quoted, hlast, Statement.slice, ha, hb]
  dsimp only
  rw [hstart, hstop, if_pos (Nat.le_add_right _ _), h.text, byteSlice_append]

/-- The value is text if nothing in it is only known when the step runs and it is no number. -/
theorem type?_eq_text (h : Enclosed s left right before after first last ls inside)
    (hspan : m.span = .quoted before.length inside.length)
    (hstatic : ∀ t ∈ inside, t.kind.isDynamic = false)
    (hsingle : ∀ t, inside = [t] → t.kind.type? = some .text) : m.type? s = some .text := by
  have hany : inside.any (·.kind.isDynamic) = false := by simpa using hstatic
  rw [ArgumentMatch.type?, h.content_eq hspan, h.isPadded_eq_false hspan]
  cases m.isEmpty with
  | true => rfl
  | false =>
    rcases inside with _ | ⟨t, _ | ⟨t', ts⟩⟩
    · rfl
    · exact hsingle t rfl
    · simp [hany]

theorem findings_eq_nil {step : Step}
    (h : Enclosed step.statement left right before after first last ls inside)
    (hspan : m.span = .quoted before.length inside.length)
    (htype : m.type? step.statement = some .text)
    (hhint : ∀ hint ∈ m.placeholder.hint, hint = .text) (warn : Bool) :
    m.findings step warn = [] := by
  have herror : m.typeError? step = none := by
    unfold ArgumentMatch.typeError?
    cases hm : m.placeholder.hint with
    | none => rfl
    | some hint =>
      obtain rfl := hhint hint hm
      simp [htype, ArgumentType.isNumeric, ArgumentType.satisfies]
  have hpadding : m.padding? step = none := by
    rw [ArgumentMatch.padding?, h.isPadded_eq_false hspan]
    rfl
  rw [ArgumentMatch.findings, herror, hpadding, ite_self]
  rfl

end

end Enclosed

end StepLinker

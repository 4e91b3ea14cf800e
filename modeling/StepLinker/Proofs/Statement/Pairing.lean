import StepLinker.Proofs.Statement.Separation

/-!
# Backslashes in pairs

A backslash protects the character behind it, so whether a character at the end of a text is
protected is decided from the left: `Paired` texts are those in which every backslash has a
character of its own. They are the ones without a dangling backslash (`dangling_mem_lexemes_iff`),
and the lexer never stops inside a pair, so the text before a lexeme is paired
(`paired_of_lexemes`). Hence a quote mark at the end of a text is a token of its own just if what
precedes it is paired (`Token.getLast?_quote_iff`).
-/

namespace StepLinker

open Text

/-- Every backslash protects a character. -/
inductive Paired : List Char → Prop where
  | nil : Paired []
  | escaped (c : Char) {text : List Char} (behind : Paired text) : Paired ('\\' :: c :: text)
  | plain {c : Char} {text : List Char} (plain : c ≠ '\\') (behind : Paired text) :
      Paired (c :: text)

section
variable {boundary : Bool} {text more : List Char} {c : Char}

theorem not_paired_backslash : ¬ Paired ['\\'] := by
  intro h
  cases h with
  | plain plain => exact plain rfl

theorem paired_escaped_iff : Paired ('\\' :: c :: text) ↔ Paired text := by
  refine ⟨fun h => ?_, .escaped c⟩
  cases h with
  | escaped _ behind => exact behind
  | plain plain => exact absurd rfl plain

theorem paired_cons_iff (hc : c ≠ '\\') : Paired (c :: text) ↔ Paired text := by
  refine ⟨fun h => ?_, .plain hc⟩
  cases h with
  | escaped => exact absurd rfl hc
  | plain _ behind => exact behind

theorem paired_append_iff (h : Paired text) : Paired (text ++ more) ↔ Paired more := by
  induction h with
  | nil => rfl
  | escaped c _ ih => rw [← ih, List.cons_append, List.cons_append, paired_escaped_iff]
  | plain hc _ ih => rw [← ih, List.cons_append, paired_cons_iff hc]

theorem paired_of_not_mem (h : '\\' ∉ text) : Paired text := by
  induction text with
  | nil => exact .nil
  | cons c text ih =>
    obtain ⟨hc, htext⟩ := not_or.1 (mt List.mem_cons.2 h)
    exact .plain (Ne.symm hc) (ih htext)

/-! ## Paired lexemes -/

/-- A lexeme takes in a backslash together with what it protects. -/
theorem Lexeme.paired_chars_next (h : (next boundary c text).1 ≠ dangling) :
    Paired (next boundary c text).1.chars := by
  have hreads := reads_next boundary c text
  have hsingle {c : Char} (hc : c ≠ '\\') : Paired [c] := .plain hc .nil
  generalize next boundary c text = n at h hreads
  cases hreads with
  | blank blank =>
    refine hsingle ?_
    rintro rfl
    exact absurd blank (by decide)
  | backslash slash => exact absurd (congrArg (token .punctuation [·]) slash) h
  | escaped slash =>
    subst slash
    exact .escaped _ .nil
  | @quote mark quote =>
    rw [ofChar?_eq_some.1 quote]
    exact hsingle (by cases mark <;> decide)
  | @parameter name more opens closes =>
    subst opens
    have hname : '\\' ∉ name := by
      unfold parameter? at closes
      split at closes
      · split at closes
        · cases closes
          exact fun hmem => absurd (List.mem_takeWhile_imp hmem) (by decide +kernel)
        · cases closes
      · cases closes
    exact paired_of_not_mem (by simp [chars, hname])
  | interpolation colon =>
    refine hsingle ?_
    rw [colon]
    decide
  | punctuation mark =>
    refine hsingle ?_
    rintro rfl
    exact absurd mark (by decide)
  | run word =>
    exact paired_of_not_mem fun hmem =>
      absurd ((run_splitRun (c :: text)).chars '\\' hmem (.inr (.inr (.inl rfl)))) (by decide)

/-- A text ends in a backslash that protects nothing if its backslashes do not come out even. -/
theorem dangling_mem_lexemes_iff : Lexeme.dangling ∈ lexemes boundary text ↔ ¬ Paired text := by
  fun_induction lexemes boundary text with
  | case1 => simpa using Paired.nil
  | case2 boundary c rest ih =>
    by_cases hfirst : (Lexeme.next boundary c rest).1 = Lexeme.dangling
    · rw [Lexeme.next_eq_dangling hfirst, hfirst]
      simpa using not_paired_backslash
    · rw [List.mem_cons, or_iff_right (Ne.symm hfirst), ih,
        ← paired_append_iff (Lexeme.paired_chars_next hfirst), Lexeme.next_append]

/-- What comes before a lexeme protects nothing in it. -/
theorem paired_of_lexemes {before after : List Lexeme} {l : Lexeme}
    (h : lexemes boundary text = before ++ l :: after) : Paired (before.flatMap Lexeme.chars) := by
  fun_induction lexemes boundary text generalizing before with
  | case1 => simp at h
  | case2 boundary c rest ih =>
    rcases before with _ | ⟨first, before⟩
    · exact .nil
    obtain ⟨rfl, htail⟩ := List.cons.inj h
    refine (paired_append_iff (Lexeme.paired_chars_next fun hfirst => ?_)).2 (ih htail)
    -- a dangling backslash would be the last lexeme
    have happend := Lexeme.next_append boundary c rest
    rw [hfirst, Lexeme.next_eq_dangling hfirst] at happend
    have hnil : (Lexeme.next boundary c rest).2 = [] := (List.cons.inj happend).2
    rw [hnil, lexemes] at htail
    simp at htail

end

/-! ## A mark at the end of a text -/

theorem Token.exists_split_of_mem_place {ls : List Lexeme} {offset : Nat} {t : Token}
    (h : t ∈ place offset ls) :
    ∃ before after, ls = before ++ .token t.kind t.text.toList :: after ∧
      t.start = offset + byteLength (before.flatMap Lexeme.chars) := by
  induction ls generalizing offset with
  | nil => cases h
  | cons l ls ih =>
    have hlater (h : t ∈ place (offset + byteLength l.chars) ls) :
        ∃ before after, l :: ls = before ++ .token t.kind t.text.toList :: after ∧
          t.start = offset + byteLength (before.flatMap Lexeme.chars) := by
      obtain ⟨before, after, rfl, hstart⟩ := ih h
      refine ⟨l :: before, after, rfl, ?_⟩
      rw [hstart, List.flatMap_cons, byteLength_append, Nat.add_assoc]
    cases l with
    | blank c => exact hlater h
    | token kind text =>
      rcases List.mem_cons.1 h with rfl | h
      · exact ⟨[], ls, by simp, rfl⟩
      · exact hlater h

theorem Token.ofText_quote {text : List Char} (q : QuoteMark) (h : Paired text) :
    ofText (text ++ [q.toChar]) =
      ofText text ++ [⟨byteLength text, String.ofList [q.toChar], .quote q⟩] := by
  rw [ofText, place_lexemes_quote 0 q [] fun hmem => dangling_mem_lexemes_iff.1 hmem h,
    Nat.zero_add, lexemes]
  rfl

theorem Token.text_of_kind_quote {boundary : Bool} {text : List Char} {offset : Nat} {t : Token}
    {q : QuoteMark} (h : t ∈ place offset (lexemes boundary text)) (hkind : t.kind = .quote q) :
    t.text.toList = [q.toChar] := by
  obtain ⟨_, c, rest, _, -, -, -, hreads⟩ := exists_reads_of_mem h
  rw [hkind] at hreads
  generalize htoken : Lexeme.token (.quote q) t.text.toList = l at hreads
  cases hreads with
  | quote quote =>
    obtain ⟨hmark, htext⟩ := Lexeme.token.inj htoken
    cases hmark
    rw [htext, Lexeme.ofChar?_eq_some.1 quote]
  | run =>
    exact absurd (Lexeme.token.inj htoken).1.symm (Lexeme.runKind_ne_quote _ q)
  | _ => cases htoken

/-- A text ends in a quote mark just if it ends in the character and nothing protects that. -/
theorem Token.getLast?_quote_iff {text : List Char} {q : QuoteMark} :
    (∃ t, (ofText text).getLast? = some t ∧ t.kind = .quote q ∧ t.stop = byteLength text) ↔
      ∃ front, text = front ++ [q.toChar] ∧ Paired front := by
  constructor
  · rintro ⟨t, hlast, hkind, hstop⟩
    have hmem := List.mem_of_getLast? hlast
    have htext := text_of_kind_quote hmem hkind
    obtain ⟨before, after, hlexemes, hstart⟩ := exists_split_of_mem_place hmem
    have hchars := flatMap_chars_lexemes true text
    rw [hlexemes, htext] at hchars
    simp only [List.flatMap_append, List.flatMap_cons, Lexeme.chars] at hchars
    have happend : (before.flatMap Lexeme.chars ++ [q.toChar]) ++ after.flatMap Lexeme.chars =
        text ++ [] := by
      rw [List.append_nil, List.append_assoc, hchars]
    have hlength : byteLength (before.flatMap Lexeme.chars ++ [q.toChar]) = byteLength text := by
      rw [← hstop, stop_eq, hstart, htext, byteLength_append, Nat.zero_add]
    exact ⟨before.flatMap Lexeme.chars, (append_inj_of_byteLength happend hlength).1.symm,
      paired_of_lexemes hlexemes⟩
  · rintro ⟨front, rfl, hpaired⟩
    rw [ofText_quote q hpaired]
    refine ⟨_, List.getLast?_concat, rfl, ?_⟩
    rw [stop_eq, String.toList_ofList, byteLength_append]

end StepLinker

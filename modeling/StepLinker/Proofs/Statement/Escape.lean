import StepLinker.Proofs.Statement.Cut
import StepLinker.Step

/-!
# Escaped text

A backslash protects any character, so with one before each special character (`escape`) any text
can stand between quote marks. Taking the backslashes off gives the text back (`unescape_escape`),
and to the lexer there is nothing in it but protected characters, other punctuation and runs
(`inert_of_mem_lexemes_escape`): no blank, no quote mark and nothing that is only known when the
step runs.
-/

namespace StepLinker

open Text

/-- Whether the character means something to the lexer that it shall not mean in a value. -/
def isSpecial (c : Char) : Bool :=
  c = '\\' || Lexeme.isBoundary c || c = '<' || c = ':'

/-- The text with a backslash before each special character. -/
def escape (text : List Char) : List Char :=
  text.flatMap fun c => if isSpecial c then ['\\', c] else [c]

theorem escape_special {c : Char} (h : isSpecial c = true) (text : List Char) :
    escape (c :: text) = '\\' :: c :: escape text := by
  simp [escape, h]

theorem escape_plain {c : Char} (h : isSpecial c = false) (text : List Char) :
    escape (c :: text) = c :: escape text := by
  simp [escape, h]

theorem ne_backslash_of_plain {c : Char} (h : isSpecial c = false) : c ≠ '\\' := by
  rintro rfl
  cases h

theorem unescape_plain {c : Char} (h : c ≠ '\\') (text : List Char) :
    unescape (c :: text) = c :: unescape text := by
  rw [unescape]
  rintro _ _ rfl
  exact absurd rfl h

theorem unescape_escape (text : List Char) : unescape (escape text) = text := by
  induction text with
  | nil => rfl
  | cons c text ih =>
    cases h : isSpecial c with
    | true => rw [escape_special h, unescape, ih]
    | false => rw [escape_plain h, unescape_plain (ne_backslash_of_plain h), ih]

theorem escape_eq_self {text : List Char} (h : '\\' ∉ escape text) : escape text = text := by
  induction text with
  | nil => rfl
  | cons c text ih =>
    cases hc : isSpecial c with
    | true =>
      rw [escape_special hc] at h
      exact absurd List.mem_cons_self h
    | false =>
      rw [escape_plain hc] at h ⊢
      rw [ih fun hmem => h (List.mem_cons_of_mem _ hmem)]

namespace Lexeme

/-! ## Runs in escaped text -/

theorem isSpecial_of_isWordChar {c : Char} (h : isWordChar c = true) : isSpecial c = false := by
  have hboundary := isBoundary_of_isWordChar h
  have hno : c ≠ '\\' ∧ c ≠ '<' ∧ c ≠ ':' := by
    refine ⟨?_, ?_, ?_⟩ <;>
      · rintro rfl
        revert h
        decide
  simp [isSpecial, hboundary, hno]

/-- A run of word characters ends where it would without the backslashes. -/
theorem takeWhile_escape (text : List Char) :
    (escape text).takeWhile isWordChar = text.takeWhile isWordChar ∧
      (escape text).dropWhile isWordChar = escape (text.dropWhile isWordChar) := by
  have hbackslash : isWordChar '\\' = false := by decide
  induction text with
  | nil => exact ⟨rfl, rfl⟩
  | cons c text ih =>
    cases hword : isWordChar c with
    | true => simp [escape_plain (isSpecial_of_isWordChar hword), hword, ih]
    | false =>
      cases h : isSpecial c with
      | true => simp [escape_special h, hword, hbackslash]
      | false => simp [escape_plain h, hword]

theorem fraction?_of_head?_ne {text : List Char} (h : text.head? ≠ some '.') :
    fraction? text = none := by
  unfold fraction?
  split
  · exact absurd rfl h
  · rfl

theorem fraction?_escape (text : List Char) :
    fraction? (escape text) = (fraction? text).map escape := by
  rcases text with _ | ⟨c, text⟩
  · rfl
  by_cases hc : c = '.'
  · subst hc
    rw [escape_plain (by decide +kernel)]
    rcases text with _ | ⟨d, text⟩
    · rfl
    cases hd : isSpecial d with
    | true =>
      have hdigit : d.isDigit = false := by
        by_contra hdigit
        have hword := isWordChar_of_isAlphanum
          (Bool.or_eq_true_iff.2 (.inr (eq_true_of_ne_false hdigit)))
        rw [isSpecial_of_isWordChar hword.1] at hd
        cases hd
      rw [escape_special hd]
      simp [fraction?, hdigit]
    | false =>
      rw [escape_plain hd]
      cases hdigit : d.isDigit <;> simp [fraction?, hdigit, escape_plain hd]
  · have hnone : fraction? (c :: text) = none := fraction?_of_head?_ne (by simpa using hc)
    rw [hnone]
    cases h : isSpecial c with
    | true =>
      rw [escape_special h]
      exact fraction?_of_head?_ne (by simp)
    | false =>
      rw [escape_plain h]
      exact fraction?_of_head?_ne (by simpa using hc)

theorem splitRun_escape (text : List Char) :
    splitRun (escape text) = ((splitRun text).1, escape (splitRun text).2) := by
  obtain ⟨htake, hdrop⟩ := takeWhile_escape text
  unfold splitRun
  dsimp only
  rw [htake, hdrop, fraction?_escape]
  cases isInteger (text.takeWhile isWordChar) with
  | false => rfl
  | true =>
    cases fraction? (text.dropWhile isWordChar) with
    | none => rfl
    | some fraction =>
      obtain ⟨htake', hdrop'⟩ := takeWhile_escape fraction
      simp only [if_true, Option.map_some, htake', hdrop']

/-! ## The lexemes of escaped text -/

/-- The lexemes that have no meaning of their own inside a value. -/
inductive Inert : Lexeme → Prop where
  | escaped (c : Char) : Inert (.token (.escaped c) ['\\', c])
  | punctuation {c : Char} (h : c ≠ '\\') : Inert (.token .punctuation [c])
  | run (cs : List Char) : Inert (.token (runKind cs) cs)

/-- The first lexeme of escaped text, and what it leaves. -/
theorem next_escape (boundary : Bool) {text rest : List Char} {c : Char}
    (h : escape text = c :: rest) :
    (next boundary c rest).1.Inert ∧ ∃ more, (next boundary c rest).2 = escape more := by
  rcases text with _ | ⟨a, text⟩
  · cases h
  cases ha : isSpecial a with
  | true =>
    rw [escape_special ha] at h
    cases h
    exact ⟨.escaped a, text, rfl⟩
  | false =>
    rw [escape_plain ha] at h
    obtain ⟨rfl, rfl⟩ := List.cons.inj h
    have hrun := splitRun_escape (a :: text)
    rw [escape_plain ha] at hrun
    simp only [isSpecial, isBoundary, Bool.or_eq_false_iff, decide_eq_false_iff_not,
      Option.isSome_eq_false_iff, Option.isNone_iff_eq_none] at ha
    obtain ⟨⟨⟨hslash, hblank, hquote⟩, hopen⟩, hcolon⟩ := ha
    cases hpunctuation : isPunctuation a with
    | true =>
      simp only [next, hblank, hslash, hquote, hopen, hcolon, hpunctuation]
      exact ⟨.punctuation hslash, text, rfl⟩
    | false =>
      simp only [next, hblank, hslash, hquote, hopen, hcolon, hpunctuation, hrun]
      exact ⟨.run _, _, rfl⟩

end Lexeme

theorem inert_of_mem_lexemes_escape {boundary : Bool} {text : List Char} :
    ∀ l ∈ lexemes boundary (escape text), l.Inert := by
  generalize hescaped : escape text = escaped
  fun_induction lexemes boundary escaped generalizing text with
  | case1 => exact List.forall_mem_nil _
  | case2 boundary c rest ih =>
    obtain ⟨hfirst, more, hmore⟩ := Lexeme.next_escape boundary hescaped
    exact List.forall_mem_cons.2 ⟨hfirst, ih hmore.symm⟩

namespace Lexeme

theorem Inert.ne_dangling {l : Lexeme} (h : l.Inert) : l ≠ dangling := by
  intro hl
  cases h with
  | escaped c => cases hl
  | punctuation h =>
    cases hl
    exact h rfl
  | run cs =>
    obtain ⟨hkind, -⟩ := Lexeme.token.inj hl
    rcases runKind_cases cs with ⟨h, -⟩ | ⟨h, -⟩ | h <;> rw [h] at hkind <;> cases hkind

theorem Inert.token {l : Lexeme} (h : l.Inert) : ∃ kind text, l = .token kind text ∧
    kind.isDynamic = false ∧ ∀ q, kind ≠ .quote q := by
  cases h with
  | escaped c => exact ⟨_, _, rfl, rfl, nofun⟩
  | punctuation h => exact ⟨_, _, rfl, rfl, nofun⟩
  | run cs =>
    refine ⟨_, _, rfl, ?_⟩
    rcases runKind_cases cs with ⟨h, -⟩ | ⟨h, -⟩ | h <;> rw [h] <;> exact ⟨rfl, nofun⟩

theorem mem_unsigned {text : List Char} {c : Char} (h : c ∈ text) :
    c ∈ unsigned text ∨ c = '+' ∨ c = '-' := by
  unfold unsigned
  split
  · exact (List.mem_cons.1 h).symm.imp_right .inl
  · exact (List.mem_cons.1 h).symm.imp_right .inr
  · exact .inl h

theorem backslash_not_mem {text : List Char} (h : isInteger text = true ∨ isDecimal text = true) :
    '\\' ∉ text := by
  intro hmem
  have hdigits {cs : List Char} (hcs : isDigits cs = true) : '\\' ∉ cs := fun hmem =>
    absurd (List.all_eq_true.1 (Bool.and_eq_true_iff.1 hcs).2 _ hmem) (by decide)
  have hunsigned : '\\' ∈ unsigned text := (mem_unsigned hmem).resolve_right (by decide)
  rcases h with hinteger | hdecimal
  · exact hdigits hinteger hunsigned
  · unfold isDecimal at hdecimal
    split at hdecimal
    · next fraction hrest =>
      obtain ⟨hwhole, hfraction⟩ := Bool.and_eq_true_iff.1 hdecimal
      rw [← List.takeWhile_append_dropWhile (p := Char.isDigit) (l := unsigned text), hrest]
        at hunsigned
      rcases List.mem_append.1 hunsigned with hmem | hmem
      · exact hdigits hwhole hmem
      · exact hdigits hfraction ((List.mem_cons.1 hmem).resolve_left (by decide))
    · cases hdecimal

/-- A value that is a single token is text, unless it is a number. -/
theorem type?_of_lexemes_escape {boundary : Bool} {text cs : List Char} {kind : TokenKind}
    (h : lexemes boundary (escape text) = [.token kind cs]) (hinteger : isInteger text = false)
    (hdecimal : isDecimal text = false) : kind.type? = some .text := by
  have hcs : cs = escape text := by
    have hchars := flatMap_chars_lexemes boundary (escape text)
    rw [h] at hchars
    simpa [chars] using hchars
  have hinert : Inert (.token kind cs) := inert_of_mem_lexemes_escape _ (by rw [h]; simp)
  -- a run that is a number has nothing escaped in it, so it is the value itself
  have hvalue (hnumber : isInteger cs = true ∨ isDecimal cs = true) : cs = text := by
    have hbackslash := backslash_not_mem hnumber
    rw [hcs] at hbackslash ⊢
    exact escape_eq_self hbackslash
  cases hinert with
  | escaped c => rfl
  | punctuation _ => rfl
  | run =>
    rcases runKind_cases cs with ⟨-, hnumber⟩ | ⟨-, hnumber⟩ | hword
    · rw [hvalue (.inl hnumber), hinteger] at hnumber
      cases hnumber
    · rw [hvalue (.inr hnumber), hdecimal] at hnumber
      cases hnumber
    · rw [hword]
      rfl

end Lexeme

end StepLinker

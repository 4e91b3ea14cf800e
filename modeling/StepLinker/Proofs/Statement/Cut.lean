import Mathlib.Data.List.TakeWhile
import StepLinker.Statement

/-!
# Lexing piece by piece

A lexeme looks ahead: at the character that a backslash protects, at the closing bracket of a
parameter, at the letter behind a colon, at the digit behind a point. `Cut` says of two texts that
nothing on the left looks across to the right, which blanks and quote marks at the cut see to. Then
the two are lexed apart (`lexemes_append`), unless the left one ends in a backslash of its own.
-/

namespace StepLinker

open Text

namespace Lexeme

/-! ## Boundary characters -/

def isQuoteMark (c : Char) : Bool :=
  (QuoteMark.ofChar? c).isSome

theorem ofChar?_eq_some {c : Char} {q : QuoteMark} :
    QuoteMark.ofChar? c = some q ↔ c = q.toChar := by
  constructor
  · intro h
    unfold QuoteMark.ofChar? at h
    split at h
    · cases h
      assumption
    · split at h
      · cases h
        assumption
      · cases h
  · rintro rfl
    cases q <;> rfl

theorem isQuoteMark_iff {c : Char} : isQuoteMark c = true ↔ ∃ q : QuoteMark, c = q.toChar := by
  simp only [isQuoteMark, Option.isSome_iff_exists, ofChar?_eq_some]

theorem isBoundary_of_isQuoteMark {c : Char} (h : isQuoteMark c = true) : isBoundary c = true :=
  Bool.or_eq_true_iff.2 (.inr h)

def boundaries : List Char :=
  ['\'', '"'] ++ (List.range' 9 5 ++ [0x20, 0x85, 0xA0, 0x1680] ++ List.range' 0x2000 11 ++
    [0x2028, 0x2029, 0x202F, 0x205F, 0x3000]).map Char.ofNat

theorem mem_boundaries {c : Char} (h : isBoundary c = true) : c ∈ boundaries := by
  rcases Bool.or_eq_true_iff.1 h with hblank | hquote
  · refine List.mem_append_right _ (List.mem_map.2 ⟨c.toNat, ?_, Char.ofNat_toNat c⟩)
    simp only [isBlank, Bool.or_eq_true, Bool.and_eq_true, decide_eq_true_eq] at hblank
    simp only [List.mem_append, List.mem_range'_1, List.mem_cons, List.not_mem_nil, or_false]
    omega
  · obtain ⟨q, rfl⟩ := isQuoteMark_iff.1 hquote
    cases q <;> decide

theorem isBoundary_spec {c : Char} (h : isBoundary c = true) :
    isWordChar c = false ∧ c.isDigit = false ∧ isNameStart c = false ∧ c ≠ '.' ∧ c ≠ ':' ∧
      c ≠ '\\' := by
  have hall : boundaries.all (fun c => decide (isWordChar c = false ∧ c.isDigit = false ∧
      isNameStart c = false ∧ c ≠ '.' ∧ c ≠ ':' ∧ c ≠ '\\')) = true := by
    decide +kernel
  exact of_decide_eq_true (List.all_eq_true.1 hall c (mem_boundaries h))

theorem isQuoteMark_spec {c : Char} (h : isQuoteMark c = true) :
    isNameChar c = false ∧ c ≠ '>' := by
  obtain ⟨q, rfl⟩ := isQuoteMark_iff.1 h
  cases q <;> decide +kernel

theorem isBoundary_of_isWordChar {c : Char} (h : isWordChar c = true) : isBoundary c = false := by
  by_contra hc
  rw [(isBoundary_spec (eq_true_of_ne_false hc)).1] at h
  cases h

theorem isQuoteMark_of_isNameChar {c : Char} (h : isNameChar c = true) : isQuoteMark c = false := by
  by_contra hc
  rw [(isQuoteMark_spec (eq_true_of_ne_false hc)).1] at h
  cases h

def alphanumerics : List Char :=
  (List.range' 0x30 10 ++ List.range' 0x41 26 ++ List.range' 0x61 26).map Char.ofNat

theorem mem_alphanumerics {c : Char} (h : c.isAlphanum = true) : c ∈ alphanumerics := by
  refine List.mem_map.2 ⟨c.toNat, ?_, Char.ofNat_toNat c⟩
  have hranges : (decide (c.val ≥ 'A'.val ∧ c.val ≤ 'Z'.val) ||
      (decide (c.val ≥ 'a'.val) && decide (c.val ≤ 'z'.val)) ||
        (decide (c.val ≥ '0'.val) && decide (c.val ≤ '9'.val))) = true := h
  simp only [Bool.or_eq_true, Bool.and_eq_true, decide_eq_true_eq, UInt32.le_iff_toNat_le,
    ge_iff_le] at hranges
  have hval : c.val.toNat = c.toNat := rfl
  have hlimits : '0'.val.toNat = 0x30 ∧ '9'.val.toNat = 0x39 ∧ 'A'.val.toNat = 0x41 ∧
      'Z'.val.toNat = 0x5A ∧ 'a'.val.toNat = 0x61 ∧ 'z'.val.toNat = 0x7A := by
    decide
  simp only [List.mem_append, List.mem_range'_1]
  omega

theorem isWordChar_of_isAlphanum {c : Char} (h : c.isAlphanum = true) :
    isWordChar c = true ∧ c ≠ ':' := by
  have hall : alphanumerics.all (fun c => decide (isWordChar c = true ∧ c ≠ ':')) = true := by
    decide +kernel
  exact of_decide_eq_true (List.all_eq_true.1 hall c (mem_alphanumerics h))

end Lexeme

/-! ## Cuts -/

/-- The cut between the texts is at the end, or beside a character of the kind `p`. -/
def Beside (p : Char → Bool) (text more : List Char) : Prop :=
  more = [] ∨ ∃ c, p c = true ∧ (text.getLast? = some c ∨ more.head? = some c)

section
variable {p p' : Char → Bool} {before text more : List Char}

theorem Beside.mono (h : Beside p text more) (hp : ∀ c, p c = true → p' c = true) :
    Beside p' text more :=
  h.imp_right fun ⟨c, hc, hside⟩ => ⟨c, hp c hc, hside⟩

theorem Beside.suffix (h : Beside p (before ++ text) more) (hne : text ≠ []) :
    Beside p text more := by
  have hlast : (before ++ text).getLast? = text.getLast? := by
    rw [List.getLast?_append, List.getLast?_eq_some_getLast hne, Option.some_or]
  unfold Beside at h
  rwa [hlast] at h

theorem Beside.of_append (h : Beside p (before ++ text) more) (hno : ∀ c ∈ before, p c = false) :
    Beside p text more := by
  by_cases hnil : text = []
  · subst hnil
    refine h.imp_right fun ⟨c, hc, hside⟩ => ⟨c, hc, .inr (hside.resolve_left fun hlast => ?_)⟩
    rw [List.append_nil] at hlast
    rw [hno c (List.mem_of_getLast? hlast)] at hc
    cases hc
  · exact h.suffix hnil

theorem Beside.of_cons {c : Char} (h : Beside p (c :: text) more) (hc : p c = false) :
    Beside p text more :=
  (show Beside p ([c] ++ text) more from h).of_append (by simpa using hc)

theorem Beside.of_nil (h : Beside p [] more) (text : List Char) : Beside p text more :=
  h.imp_right fun ⟨c, hc, hside⟩ => ⟨c, hc, .inr (hside.resolve_left nofun)⟩

theorem Beside.head (h : Beside p [] more) : more = [] ∨ ∃ c rest, p c = true ∧ more = c :: rest := by
  refine h.imp_right fun ⟨c, hc, hside⟩ => ?_
  obtain ⟨rest, hrest⟩ := List.head?_eq_some_iff.1 (hside.resolve_left nofun)
  exact ⟨c, rest, hc, hrest⟩

theorem Beside.takeWhile_append (h : Beside p' text more) (hp : ∀ c, p c = true → p' c = false) :
    (text ++ more).takeWhile p = text.takeWhile p ∧
      (text ++ more).dropWhile p = text.dropWhile p ++ more := by
  by_cases hall : ∀ c ∈ text, p c = true
  · have hmore : more.takeWhile p = [] ∧ more.dropWhile p = more := by
      have hnil : Beside p' (text ++ []) more := by
        rwa [List.append_nil]
      rcases (hnil.of_append fun c hc => hp c (hall c hc)).head with rfl | ⟨c, rest, hc, rfl⟩
      · exact ⟨rfl, rfl⟩
      · have hc : p c = false := by
          by_contra hpc
          rw [hp c (eq_true_of_ne_false hpc)] at hc
          cases hc
        simp [hc]
    rw [List.takeWhile_append_of_pos hall, List.dropWhile_append_of_pos hall, hmore.1, hmore.2,
      List.takeWhile_eq_self_iff.2 hall, List.dropWhile_eq_nil_iff.2 hall]
    simp
  · have htake : (text.takeWhile p).length ≠ text.length := by
      intro hlength
      refine hall fun c hc => List.mem_takeWhile_imp (l := text) ?_
      rwa [List.IsPrefix.eq_of_length (List.takeWhile_prefix p) hlength]
    have hdrop : (text.dropWhile p).isEmpty = false := by
      rw [List.isEmpty_eq_false_iff, Ne, List.dropWhile_eq_nil_iff]
      exact hall
    rw [List.takeWhile_append, List.dropWhile_append, if_neg htake, hdrop]
    simp

theorem Beside.dropWhile (h : Beside p' text more) (hp : ∀ c, p c = true → p' c = false) :
    Beside p' (text.dropWhile p) more := by
  rw [← List.takeWhile_append_dropWhile (p := p) (l := text)] at h
  exact h.of_append fun c hc => hp c (List.mem_takeWhile_imp hc)

end

/-- Nothing in `text` goes on in `more`. Only a quote mark keeps the name of a parameter from going
on, as it may contain blanks. -/
structure Cut (text more : List Char) : Prop where
  boundary : Beside Lexeme.isBoundary text more
  quote : '<' ∈ text → Beside Lexeme.isQuoteMark text more

theorem Cut.suffix {before text more : List Char} (h : Cut (before ++ text) more)
    (hne : text ≠ []) : Cut text more where
  boundary := h.boundary.suffix hne
  quote hmem := (h.quote (List.mem_append_right _ hmem)).suffix hne

/-- The text `inside` between two quote marks, with text on either side. -/
def QuoteMark.enclose (q : QuoteMark) (before inside after : List Char) : List Char :=
  before ++ q.toChar :: (inside ++ q.toChar :: after)

theorem cut_quote (q : QuoteMark) (text more : List Char) : Cut text (q.toChar :: more) := by
  have hquote : Lexeme.isQuoteMark q.toChar = true := Lexeme.isQuoteMark_iff.2 ⟨q, rfl⟩
  exact ⟨.inr ⟨_, Lexeme.isBoundary_of_isQuoteMark hquote, .inr rfl⟩,
    fun _ => .inr ⟨_, hquote, .inr rfl⟩⟩

namespace Lexeme

section
variable {c : Char} {text rest more : List Char}

theorem fraction?_append (h : Beside isBoundary text more) :
    fraction? (text ++ more) = (fraction? text).map (· ++ more) := by
  -- a point, or a point and a digit, would have to stand beside the cut
  rcases text with _ | ⟨c, rest⟩
  · rcases h.head with rfl | ⟨b, tail, hb, rfl⟩
    · rfl
    · have hpoint := (isBoundary_spec hb).2.2.2.1
      unfold fraction?
      split <;> simp_all
  by_cases hc : c = '.'
  · subst hc
    have hrest : Beside isBoundary rest more := h.of_cons (by decide +kernel)
    rcases rest with _ | ⟨d, rest⟩
    · rcases hrest.head with rfl | ⟨b, tail, hb, rfl⟩
      · rfl
      · simp [fraction?, (isBoundary_spec hb).2.1]
    · by_cases hd : d.isDigit = true
      · simp [fraction?, hd]
      · simp [fraction?, hd]
  · unfold fraction?
    split <;> simp_all

theorem fraction?_eq_some (h : fraction? text = some rest) : text = '.' :: rest := by
  unfold fraction? at h
  split at h
  · split at h
    · cases h
      rfl
    · cases h
  · cases h

theorem splitRun_append_of_cut (h : Beside isBoundary text more) :
    splitRun (text ++ more) = ((splitRun text).1, (splitRun text).2 ++ more) := by
  have hrest := h.dropWhile fun _ => isBoundary_of_isWordChar
  obtain ⟨htake, hdrop⟩ := h.takeWhile_append fun _ => isBoundary_of_isWordChar
  unfold splitRun
  dsimp only
  rw [htake, hdrop, fraction?_append hrest]
  cases isInteger (text.takeWhile isWordChar) with
  | false => rfl
  | true =>
    cases hfraction : fraction? (text.dropWhile isWordChar) with
    | none => rfl
    | some fraction =>
      rw [fraction?_eq_some hfraction] at hrest
      have hbeside : Beside isBoundary fraction more :=
        hrest.of_cons (by decide +kernel)
      obtain ⟨htake', hdrop'⟩ := hbeside.takeWhile_append fun _ => isBoundary_of_isWordChar
      simp only [if_true, Option.map_some, htake', hdrop']

theorem startsName_append (h : Beside isBoundary text more) :
    startsName (text ++ more) = startsName text := by
  rcases text with _ | ⟨c, text⟩
  · rcases h.head with rfl | ⟨b, tail, hb, rfl⟩
    · rfl
    · exact (isBoundary_spec hb).2.2.1
  · rfl

theorem parameter?_append_of_cut (h : Beside isQuoteMark text more) :
    parameter? (text ++ more) = (parameter? text).map fun (name, rest) => (name, rest ++ more) := by
  have hrest := h.dropWhile fun _ => isQuoteMark_of_isNameChar
  obtain ⟨htake, hdrop⟩ := h.takeWhile_append fun _ => isQuoteMark_of_isNameChar
  unfold parameter?
  rw [startsName_append (h.mono fun _ => isBoundary_of_isQuoteMark), htake, hdrop]
  by_cases hstart : startsName text = true
  · rw [if_pos hstart, if_pos hstart]
    generalize text.dropWhile isNameChar = rest at hrest
    rcases rest with _ | ⟨c, rest⟩
    · rcases hrest.head with rfl | ⟨b, tail, hb, rfl⟩
      · rfl
      · simp [(isQuoteMark_spec hb).2]
    · by_cases hc : c = '>'
      · subst hc
        rfl
      · simp [hc]
  · rw [if_neg hstart, if_neg hstart]
    rfl

/-- The lexeme of a backslash with nothing behind it. -/
def dangling : Lexeme :=
  .token .punctuation ['\\']

/-- The first lexeme before a cut does not depend on what is behind the cut. -/
theorem next_append_of_cut (boundary : Bool) (h : Cut (c :: rest) more)
    (hdangling : (next boundary c rest).1 ≠ dangling) :
    next boundary c (rest ++ more) =
      ((next boundary c rest).1, (next boundary c rest).2 ++ more) := by
  unfold next at hdangling ⊢
  by_cases hblank : isBlank c = true
  · simp [hblank]
  by_cases hslash : c = '\\'
  · subst hslash
    rcases rest with _ | ⟨e, rest⟩
    · simp [hblank, dangling] at hdangling
    · simp [hblank]
  cases hquote : QuoteMark.ofChar? c with
  | some q => simp [hblank, hslash]
  | none =>
    have hno : isBoundary c = false := by
      simp [isBoundary, hblank, hquote]
    have hrest : Beside isBoundary rest more :=
      h.boundary.of_cons hno
    by_cases hopen : c = '<'
    · subst hopen
      have hname : Beside isQuoteMark rest more :=
        (h.quote List.mem_cons_self).of_cons (by decide +kernel)
      rw [parameter?_append_of_cut hname]
      cases parameter? rest <;> simp [hblank]
    · have hrun := splitRun_append_of_cut h.boundary
      rw [List.cons_append] at hrun
      rw [startsName_append hrest, hrun]
      simp only [hblank, hslash, hopen, if_false]
      split_ifs <;> rfl

theorem next_eq_dangling {boundary : Bool} (h : (next boundary c rest).1 = dangling) :
    c :: rest = ['\\'] := by
  have happend := next_append boundary c rest
  rw [h] at happend
  obtain ⟨rfl, hrest⟩ := List.cons.inj happend
  rcases rest with _ | ⟨e, rest⟩
  · rfl
  · simp [next, dangling, show isBlank '\\' = false by decide] at h

theorem next_of_isWordChar (boundary : Bool) (h : isWordChar c = true) :
    next boundary c rest =
      (.token (runKind (splitRun (c :: rest)).1) (splitRun (c :: rest)).1,
        (splitRun (c :: rest)).2) := by
  simp only [isWordChar, Bool.and_eq_true, Bool.not_eq_true', bne_iff_ne,
    Option.isNone_iff_eq_none] at h
  obtain ⟨⟨⟨hblank, hquote⟩, hslash⟩, hpunctuation⟩ := h
  have hopen : c ≠ '<' := by
    rintro rfl
    revert hpunctuation
    decide
  have hcolon : c ≠ ':' := by
    rintro rfl
    revert hpunctuation
    decide
  simp [next, hblank, hquote, hslash, hpunctuation, hopen, hcolon]

theorem runKind_cases (run : List Char) :
    (runKind run = .integer ∧ isInteger run = true) ∨
      (runKind run = .decimal ∧ isDecimal run = true) ∨ runKind run = .word := by
  unfold runKind
  split_ifs with hinteger hdecimal
  · exact .inl ⟨rfl, hinteger⟩
  · exact .inr (.inl ⟨rfl, hdecimal⟩)
  · exact .inr (.inr rfl)

theorem runKind_ne_quote (run : List Char) (q : QuoteMark) : runKind run ≠ .quote q := by
  rcases runKind_cases run with ⟨h, -⟩ | ⟨h, -⟩ | h <;> rw [h] <;> nofun

theorem splitRun_of_forall (h : ∀ c ∈ text, isWordChar c = true) : splitRun text = (text, []) := by
  rw [splitRun, List.takeWhile_eq_self_iff.2 h, List.dropWhile_eq_nil_iff.2 h]
  dsimp only [fraction?]
  rw [ite_self]

end

end Lexeme

section
variable {boundary : Bool} {text more : List Char}

/-- The lexemes are the text, piece by piece. -/
theorem flatMap_chars_lexemes (boundary : Bool) (text : List Char) :
    (lexemes boundary text).flatMap Lexeme.chars = text := by
  fun_induction lexemes boundary text with
  | case1 => rfl
  | case2 boundary c rest ih => rw [List.flatMap_cons, ih, Lexeme.next_append]

/-- Whether a colon after the text may open an interpolation. -/
def boundaryAfter (boundary : Bool) (text : List Char) : Bool :=
  (text.getLast?.map Lexeme.isBoundary).getD boundary

theorem boundaryAfter_next (boundary : Bool) (c : Char) (rest : List Char) :
    boundaryAfter (Lexeme.next boundary c rest).1.endsAtBoundary (Lexeme.next boundary c rest).2 =
      boundaryAfter boundary (c :: rest) := by
  rw [← Lexeme.next_append boundary c rest]
  have hne := Lexeme.chars_next_ne_nil boundary c rest
  generalize Lexeme.next boundary c rest = n at hne
  unfold boundaryAfter Lexeme.endsAtBoundary
  rw [List.getLast?_append]
  cases n.2.getLast? <;> simp [List.getLast?_eq_some_getLast hne]

/-- A cut separates the lexemes, unless a backslash before it would protect the character behind
it. -/
theorem lexemes_append (h : Cut text more) (hdangling : Lexeme.dangling ∉ lexemes boundary text) :
    lexemes boundary (text ++ more) =
      lexemes boundary text ++ lexemes (boundaryAfter boundary text) more := by
  fun_induction lexemes boundary text with
  | case1 => rfl
  | case2 boundary c rest ih =>
    obtain ⟨hfirst, hothers⟩ := not_or.1 (mt List.mem_cons.2 hdangling)
    rw [List.cons_append, lexemes, Lexeme.next_append_of_cut boundary h (Ne.symm hfirst)]
    rw [← boundaryAfter_next, List.cons_append]
    by_cases hrest : (Lexeme.next boundary c rest).2 = []
    · rw [hrest]
      simp [lexemes, boundaryAfter]
    · rw [ih ?_ hothers]
      rw [← Lexeme.next_append boundary c rest] at h
      exact h.suffix hrest

/-- Only a text that ends in a backslash can end in one that protects nothing. -/
theorem dangling_not_mem (boundary : Bool) (hlast : text.getLast? ≠ some '\\') :
    Lexeme.dangling ∉ lexemes boundary text := by
  intro h
  apply hlast
  clear hlast
  fun_induction lexemes boundary text with
  | case1 => cases h
  | case2 boundary c rest ih =>
    rcases List.mem_cons.1 h with hfirst | hothers
    · rw [Lexeme.next_eq_dangling hfirst.symm]
      rfl
    · rw [← Lexeme.next_append boundary c rest, List.getLast?_append, ih hothers]
      rfl

/-- It matters to a colon only whether an interpolation may begin. -/
theorem lexemes_of_head?_ne (boundary' : Bool) (h : text.head? ≠ some ':') :
    lexemes boundary text = lexemes boundary' text := by
  rcases text with _ | ⟨c, rest⟩
  · simp only [lexemes]
  · have hc : c ≠ ':' := by simpa using h
    have hnext : Lexeme.next boundary c rest = Lexeme.next boundary' c rest := by
      simp [Lexeme.next, hc]
    rw [lexemes, lexemes, hnext]

theorem lexemes_quote (boundary : Bool) (q : QuoteMark) (text : List Char) :
    lexemes boundary (q.toChar :: text) =
      .token (.quote q) [q.toChar] :: lexemes true text := by
  have hnext : Lexeme.next boundary q.toChar text = (.token (.quote q) [q.toChar], text) := by
    cases q <;> rfl
  have hends : (Lexeme.token (.quote q) [q.toChar]).endsAtBoundary = true := by
    cases q <;> rfl
  rw [lexemes, hnext, hends]

theorem lexemes_run (boundary : Bool) (hne : text ≠ [])
    (hword : ∀ c ∈ text, Lexeme.isWordChar c = true) :
    lexemes boundary text = [.token (Lexeme.runKind text) text] := by
  rcases text with _ | ⟨c, rest⟩
  · exact absurd rfl hne
  · rw [lexemes, Lexeme.next_of_isWordChar boundary (hword c List.mem_cons_self),
      Lexeme.splitRun_of_forall hword]
    simp only [lexemes]

end

/-! ## Tokens -/

namespace Token

def shift (n : Nat) (t : Token) : Token :=
  { t with start := n + t.start }

theorem map_shift_zero (ts : List Token) : ts.map (shift 0) = ts := by
  have hzero : shift 0 = id := by
    funext t
    simp [shift]
  rw [hzero, List.map_id]

theorem place_append (offset : Nat) (ls ls' : List Lexeme) :
    place offset (ls ++ ls') =
      place offset ls ++ place (offset + byteLength (ls.flatMap Lexeme.chars)) ls' := by
  induction ls generalizing offset with
  | nil => rfl
  | cons l ls ih =>
    cases l with
    | blank c => simp [place, ih, Lexeme.chars, byteLength, Nat.add_assoc]
    | token kind text => simp [place, ih, Lexeme.chars, byteLength_append, Nat.add_assoc]

theorem place_add (n offset : Nat) (ls : List Lexeme) :
    place (n + offset) ls = (place offset ls).map (shift n) := by
  induction ls generalizing offset with
  | nil => rfl
  | cons l ls ih =>
    cases l with
    | blank c => simp [place, ← ih, Nat.add_assoc]
    | token kind text => simp [place, ← ih, Nat.add_assoc, shift]

/-- The tokens of a text that is cut are those of its two halves. -/
theorem place_lexemes_append {boundary : Bool} {text more : List Char} (offset : Nat)
    (h : Cut text more) (hdangling : Lexeme.dangling ∉ lexemes boundary text) :
    place offset (lexemes boundary (text ++ more)) = place offset (lexemes boundary text) ++
      place (offset + byteLength text) (lexemes (boundaryAfter boundary text) more) := by
  rw [lexemes_append h hdangling, place_append, flatMap_chars_lexemes]

/-- A quote mark stands apart from the text on either side of it. -/
theorem place_lexemes_quote {boundary : Bool} {text : List Char} (offset : Nat) (q : QuoteMark)
    (more : List Char) (hdangling : Lexeme.dangling ∉ lexemes boundary text) :
    place offset (lexemes boundary (text ++ q.toChar :: more)) =
      place offset (lexemes boundary text) ++
        ⟨offset + byteLength text, String.ofList [q.toChar], .quote q⟩ ::
          place (offset + byteLength text + byteLength [q.toChar]) (lexemes true more) := by
  rw [place_lexemes_append offset (cut_quote q text more) hdangling, lexemes_quote]
  rfl

end Token

end StepLinker

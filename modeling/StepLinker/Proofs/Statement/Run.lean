import StepLinker.Proofs.Statement.Layout

/-!
# Runs of word characters

Words and numbers are runs: characters that neither are blank nor form a token of their own, and in
a number one point. `Reads` lists what can be read off the front of a text, `Run` says of a run and
of what is behind it where a run may contain a point and where it has to end. The kind of a run
follows from its text alone (`ofText_runs`), and since a run ends only before a character that
separates, two runs never touch.
-/

namespace StepLinker

open Text

/-! ## What a lexeme can be -/

namespace Lexeme

/-- What the first lexeme of the text `c :: rest` can be, with what follows it. -/
inductive Reads (c : Char) (rest : List Char) : Lexeme × List Char → Prop where
  | blank (blank : isBlank c = true) : Reads c rest (.blank c, rest)
  | backslash (slash : c = '\\') (last : rest = []) : Reads c rest (.token .punctuation [c], [])
  | escaped {e : Char} {more : List Char} (slash : c = '\\') (protects : rest = e :: more) :
      Reads c rest (.token (.escaped e) [c, e], more)
  | quote {mark : QuoteMark} (quote : QuoteMark.ofChar? c = some mark) :
      Reads c rest (.token (.quote mark) [c], rest)
  | parameter {name more : List Char} (opens : c = '<')
      (closes : parameter? rest = some (name, more)) :
      Reads c rest (.token (.parameter (String.ofList (trim name))) (c :: name ++ ['>']), more)
  | interpolation (colon : c = ':') : Reads c rest (.token .interpolation [c], rest)
  | punctuation (mark : isPunctuation c = true) : Reads c rest (.token .punctuation [c], rest)
  | run (word : isWordChar c = true) :
      Reads c rest (.token (runKind (splitRun (c :: rest)).1) (splitRun (c :: rest)).1,
        (splitRun (c :: rest)).2)

theorem reads_next (boundary : Bool) (c : Char) (rest : List Char) :
    Reads c rest (next boundary c rest) := by
  unfold next
  split
  · next hblank => exact .blank hblank
  · next hblank =>
    split
    · next hslash =>
      split
      · exact .backslash hslash rfl
      · exact .escaped hslash rfl
    · next hslash =>
      split
      · next hmark => exact .quote hmark
      · next hmark =>
        split
        · next hopens =>
          split
          · next hcloses => exact .parameter hopens hcloses
          · exact .punctuation (by rw [hopens]; decide)
        · split
          · next hcolon => exact .interpolation (by simp_all)
          · split
            · next hpunctuation => exact .punctuation hpunctuation
            · exact .run (by simp_all [isWordChar])

end Lexeme

theorem Token.exists_reads_of_mem {boundary : Bool} {text : List Char} {offset : Nat} {t : Token}
    (h : t ∈ place offset (lexemes boundary text)) :
    ∃ before c rest after, text = before ++ c :: rest ∧ t.start = offset + byteLength before ∧
      isBlank c = false ∧ Lexeme.Reads c rest (.token t.kind t.text.toList, after) := by
  fun_induction lexemes boundary text generalizing offset with
  | case1 => cases h
  | case2 boundary c rest ih =>
    have happend := Lexeme.next_append boundary c rest
    have hreads := Lexeme.reads_next boundary c rest
    rcases hnext : Lexeme.next boundary c rest with ⟨l, more⟩
    rw [hnext] at h ih happend hreads
    -- a token that is read later begins behind this lexeme
    have hlater {n : Nat} (h : t ∈ place (offset + n) (lexemes l.endsAtBoundary more))
        (hn : n = byteLength l.chars) :
        ∃ before c' rest' after, c :: rest = before ++ c' :: rest' ∧
          t.start = offset + byteLength before ∧ isBlank c' = false ∧
          Lexeme.Reads c' rest' (.token t.kind t.text.toList, after) := by
      obtain ⟨before, c', rest', after, hmore, hstart, hreads'⟩ := ih h
      refine ⟨l.chars ++ before, c', rest', after, ?_, ?_, hreads'⟩
      · rw [← happend, hmore, List.append_assoc]
      · rw [hstart, hn, byteLength_append, Nat.add_assoc]
    cases l with
    | blank c' => exact hlater h rfl
    | token kind text =>
      rcases List.mem_cons.1 h with rfl | h
      · obtain ⟨cs, -, hblank⟩ := Lexeme.exists_cons_of_next (congrArg Prod.fst hnext)
        refine ⟨[], c, rest, more, rfl, rfl, hblank, ?_⟩
        rwa [String.toList_ofList]
      · exact hlater h rfl

namespace Lexeme

/-! ## Numbers -/

def Digits (cs : List Char) : Prop :=
  cs ≠ [] ∧ ∀ c ∈ cs, c.isDigit = true

def IsSign (cs : List Char) : Prop :=
  cs = [] ∨ cs = ['+'] ∨ cs = ['-']

def Integral (cs : List Char) : Prop :=
  ∃ sign digits, cs = sign ++ digits ∧ IsSign sign ∧ Digits digits

def Fractional (cs : List Char) : Prop :=
  ∃ sign whole fraction, cs = sign ++ (whole ++ '.' :: fraction) ∧ IsSign sign ∧ Digits whole ∧
    Digits fraction

section
variable {cs sign : List Char}

theorem isDigits_iff : isDigits cs = true ↔ Digits cs := by
  simp [isDigits, Digits]

theorem exists_sign (cs : List Char) : ∃ sign, IsSign sign ∧ cs = sign ++ unsigned cs := by
  unfold unsigned
  split
  · exact ⟨['+'], .inr (.inl rfl), rfl⟩
  · exact ⟨['-'], .inr (.inr rfl), rfl⟩
  · exact ⟨[], .inl rfl, rfl⟩

theorem unsigned_append (hsign : IsSign sign) {d : Char} (hd : d.isDigit = true) :
    unsigned (sign ++ d :: cs) = d :: cs := by
  rcases hsign with rfl | rfl | rfl
  · unfold unsigned
    split
    · next h =>
      obtain ⟨rfl, -⟩ := List.cons.inj h
      cases hd
    · next h =>
      obtain ⟨rfl, -⟩ := List.cons.inj h
      cases hd
    · rfl
  · rfl
  · rfl

theorem isInteger_iff : isInteger cs = true ↔ Integral cs := by
  rw [isInteger, isDigits_iff]
  constructor
  · intro h
    obtain ⟨sign, hsign, hcs⟩ := exists_sign cs
    exact ⟨sign, unsigned cs, hcs, hsign, h⟩
  · rintro ⟨sign, digits, rfl, hsign, hne, hdigits⟩
    obtain ⟨d, ds, rfl⟩ := List.exists_cons_of_ne_nil hne
    rw [unsigned_append hsign (hdigits d List.mem_cons_self)]
    exact ⟨hne, hdigits⟩

theorem isDecimal_iff : isDecimal cs = true ↔ Fractional cs := by
  have hpoint : ('.' : Char).isDigit = false := by decide
  constructor
  · intro h
    unfold isDecimal at h
    split at h
    · next fraction hrest =>
      obtain ⟨hwhole, hfraction⟩ := Bool.and_eq_true_iff.1 h
      obtain ⟨sign, hsign, hcs⟩ := exists_sign cs
      refine ⟨sign, _, fraction, ?_, hsign, isDigits_iff.1 hwhole, isDigits_iff.1 hfraction⟩
      rwa [← hrest, List.takeWhile_append_dropWhile]
    · cases h
  · rintro ⟨sign, whole, fraction, rfl, hsign, hwhole, hfraction⟩
    obtain ⟨d, ds, rfl⟩ := List.exists_cons_of_ne_nil hwhole.1
    have htake : ((d :: ds) ++ '.' :: fraction).takeWhile Char.isDigit = d :: ds := by
      rw [List.takeWhile_append_of_pos hwhole.2, List.takeWhile_cons_of_neg (by simp [hpoint]),
        List.append_nil]
    have hdrop : ((d :: ds) ++ '.' :: fraction).dropWhile Char.isDigit = '.' :: fraction := by
      rw [List.dropWhile_append_of_pos hwhole.2, List.dropWhile_cons_of_neg (by simp [hpoint])]
    rw [isDecimal, List.cons_append, unsigned_append hsign (hwhole.2 d List.mem_cons_self),
      ← List.cons_append, hdrop, htake]
    exact Bool.and_eq_true_iff.2 ⟨isDigits_iff.2 hwhole, isDigits_iff.2 hfraction⟩

theorem Integral.point_not_mem (h : Integral cs) : '.' ∉ cs := by
  obtain ⟨sign, digits, rfl, hsign, -, hdigits⟩ := h
  rw [List.mem_append, not_or]
  refine ⟨?_, fun hmem => absurd (hdigits _ hmem) (by decide)⟩
  rcases hsign with rfl | rfl | rfl <;> decide

theorem Fractional.point_mem (h : Fractional cs) : '.' ∈ cs := by
  obtain ⟨sign, whole, fraction, rfl, -⟩ := h
  simp

theorem runKind_eq_integer : runKind cs = .integer ↔ Integral cs := by
  rw [← isInteger_iff, runKind]
  split_ifs <;> simp_all

theorem runKind_eq_decimal : runKind cs = .decimal ↔ Fractional cs := by
  have hexclusive (h : Fractional cs) : ¬ isInteger cs = true := fun hinteger =>
    (isInteger_iff.1 hinteger).point_not_mem h.point_mem
  rw [← isDecimal_iff] at hexclusive ⊢
  rw [runKind]
  split_ifs <;> simp_all

theorem runKind_eq_word : runKind cs = .word ↔ ¬ Integral cs ∧ ¬ Fractional cs := by
  rw [← isInteger_iff, ← isDecimal_iff, runKind]
  split_ifs <;> simp_all

end

/-! ## Runs -/

/-- Blank characters, quote marks, backslashes and punctuation marks are no word characters. -/
def Separates (c : Char) : Prop :=
  isBlank c = true ∨ (∃ q : QuoteMark, c = q.toChar) ∨ c = '\\' ∨ isPunctuation c = true

theorem isWordChar_eq_false_iff {c : Char} : isWordChar c = false ↔ Separates c := by
  have hquote : (QuoteMark.ofChar? c).isNone = false ↔ ∃ q : QuoteMark, c = q.toChar := by
    rw [← isQuoteMark_iff, isQuoteMark]
    cases QuoteMark.ofChar? c <;> simp
  simp only [isWordChar, Bool.and_eq_false_iff, Bool.not_eq_false', bne_eq_false_iff_eq, hquote,
    Separates, or_assoc]

def OpensWithDigit (cs : List Char) : Prop :=
  ∃ d ds, cs = d :: ds ∧ d.isDigit = true

/-- `run` is a run in front of the text `after`. -/
structure Run (run after : List Char) : Prop where
  /-- A point is the only mark in a run. -/
  chars : ∀ c ∈ run, Separates c → c = '.'
  atMostOnePoint : run.count '.' ≤ 1
  point : ∀ whole fraction, run = whole ++ '.' :: fraction →
    Integral whole ∧ OpensWithDigit fraction
  /-- The character behind the run cannot be part of it. -/
  ends : ∀ c rest, after = c :: rest →
    Separates c ∧ (c = '.' → ¬ (Integral run ∧ OpensWithDigit rest))

section
variable {cs run whole fraction after : List Char}

theorem point_not_mem (h : ∀ c ∈ cs, isWordChar c = true) : '.' ∉ cs := fun hmem =>
  absurd (h _ hmem) (by decide)

theorem not_separates {c : Char} (h : isWordChar c = true) : ¬ Separates c := by
  rw [← isWordChar_eq_false_iff, h]
  nofun

theorem Run.plain (hrun : ∀ c ∈ run, isWordChar c = true)
    (hends : ∀ c rest, after = c :: rest →
      Separates c ∧ (c = '.' → ¬ (Integral run ∧ OpensWithDigit rest))) : Run run after where
  chars c hc hseparates := absurd hseparates (not_separates (hrun c hc))
  atMostOnePoint := by
    rw [List.count_eq_zero.2 (point_not_mem hrun)]
    omega
  point whole fraction h := absurd (by simp [h]) (point_not_mem hrun)
  ends := hends

theorem Run.pointed (hinteger : Integral whole) (hwhole : ∀ c ∈ whole, isWordChar c = true)
    (hdigit : OpensWithDigit fraction) (hfraction : ∀ c ∈ fraction, isWordChar c = true)
    (hends : ∀ c rest, after = c :: rest → Separates c) : Run (whole ++ '.' :: fraction) after where
  chars c hc hseparates := by
    rcases List.mem_append.1 hc with hc | hc
    · exact absurd hseparates (not_separates (hwhole c hc))
    rcases List.mem_cons.1 hc with rfl | hc
    · rfl
    · exact absurd hseparates (not_separates (hfraction c hc))
  atMostOnePoint := by
    rw [List.count_append, List.count_cons_self, List.count_eq_zero.2 (point_not_mem hwhole),
      List.count_eq_zero.2 (point_not_mem hfraction)]
  point whole' fraction' h := by
    -- there is one point only, so it is the one behind the integer
    rcases mem_of_append_eq h with ⟨more, rfl⟩ | ⟨more, rfl, hmore⟩
    · exact absurd (by simp) (point_not_mem hwhole)
    cases more with
    | nil =>
      obtain ⟨-, rfl⟩ := List.cons.inj hmore
      rw [List.append_nil]
      exact ⟨hinteger, hdigit⟩
    | cons d more =>
      obtain ⟨-, rfl⟩ := List.cons.inj hmore
      exact absurd (by simp) (point_not_mem hfraction)
  ends c rest h := by
    refine ⟨hends c rest h, fun _ hmore => ?_⟩
    exact hmore.1.point_not_mem (by simp)

theorem fraction?_eq_some_iff : fraction? cs = some fraction ↔
    cs = '.' :: fraction ∧ OpensWithDigit fraction := by
  constructor
  · intro h
    obtain rfl := fraction?_eq_some h
    rcases fraction with _ | ⟨d, ds⟩
    · cases h
    · rw [fraction?, Option.ite_none_right_eq_some] at h
      exact ⟨rfl, d, ds, rfl, h.1⟩
  · rintro ⟨rfl, d, ds, rfl, hd⟩
    rw [fraction?, if_pos hd]

theorem separates_of_dropWhile {c : Char} {rest : List Char}
    (h : cs.dropWhile isWordChar = c :: rest) : Separates c := by
  have hhead := List.head?_dropWhile_not isWordChar cs
  rw [h] at hhead
  exact isWordChar_eq_false_iff.1 hhead

theorem run_splitRun (cs : List Char) : Run (splitRun cs).1 (splitRun cs).2 := by
  have hword (cs : List Char) : ∀ c ∈ cs.takeWhile isWordChar, isWordChar c = true := fun c =>
    List.mem_takeWhile_imp
  unfold splitRun
  dsimp only
  split
  · next more h =>
    obtain ⟨hinteger, hfraction⟩ := Option.ite_none_right_eq_some.1 h
    obtain ⟨-, d, ds, rfl, hd⟩ := fraction?_eq_some_iff.1 hfraction
    have hdigit : isWordChar d = true :=
      (isWordChar_of_isAlphanum (by simp [Char.isAlphanum, hd])).1
    refine .pointed (isInteger_iff.1 hinteger) (hword cs) ?_ (hword _)
      fun c rest => separates_of_dropWhile
    exact ⟨d, _, List.takeWhile_cons_of_pos hdigit, hd⟩
  · next h =>
    refine .plain (hword cs) fun c rest hrest => ⟨separates_of_dropWhile hrest, ?_⟩
    rintro rfl ⟨hinteger, hdigit⟩
    have hsome := fraction?_eq_some_iff.2 ⟨hrest, hdigit⟩
    rw [if_pos (isInteger_iff.2 hinteger), hsome] at h
    cases h

end

end Lexeme

/-! ## The runs of a statement -/

def TokenKind.IsRun (kind : TokenKind) : Prop :=
  kind = .word ∨ kind = .integer ∨ kind = .decimal

theorem Lexeme.Reads.run_of_isRun {c : Char} {rest text after : List Char} {kind : TokenKind}
    (h : Reads c rest (.token kind text, after)) (hkind : kind.IsRun) :
    c :: rest = text ++ after ∧ isWordChar c = true ∧ kind = runKind text ∧ Run text after := by
  cases h with
  | run word => exact ⟨(splitRun_append _).symm, word, rfl, run_splitRun _⟩
  | _ => simp [TokenKind.IsRun] at hkind

/-- Only an escaped character at the end of a token can be blank. -/
theorem Lexeme.Reads.kind_of_isBlank {c e : Char} {rest text after : List Char} {kind : TokenKind}
    (h : Reads c rest (.token kind text, after)) (hc : isBlank c = false)
    (hlast : text.getLast? = some e) (he : isBlank e = true) : kind = .escaped e := by
  have hsingle (htext : text = [c]) : kind = .escaped e := by
    rw [htext, List.getLast?_singleton, Option.some_inj] at hlast
    rw [← hlast, hc] at he
    cases he
  cases h with
  | escaped =>
    cases hlast
    rfl
  | parameter =>
    rw [List.getLast?_concat] at hlast
    cases hlast
    exact absurd he (by decide)
  | run =>
    have hmem := List.mem_of_getLast? hlast
    rw [(run_splitRun _).chars e hmem (.inl he)] at he
    exact absurd he (by decide)
  | _ => exact hsingle rfl

namespace Statement

/-- The token is a run in front of the rest of the text, and has the kind of what it says. -/
structure HasRun (s : Statement) (t : Token) : Prop where
  run : ∃ before after, s.text.toList = before ++ (t.text.toList ++ after) ∧
    t.start = byteLength before ∧ Lexeme.Run t.text.toList after
  integer : t.kind = .integer ↔ Lexeme.Integral t.text.toList
  decimal : t.kind = .decimal ↔ Lexeme.Fractional t.text.toList
  word : t.kind = .word ↔
    ¬ Lexeme.Integral t.text.toList ∧ ¬ Lexeme.Fractional t.text.toList

section
variable {s : Statement} {t a b : Token}

/-- A word or a number is what a scan of word characters finds. -/
theorem exists_run (ht : t ∈ s.tokens) (hkind : t.kind.IsRun) :
    ∃ before after c rest, s.text.toList = before ++ (t.text.toList ++ after) ∧
      t.start = byteLength before ∧ t.text.toList ++ after = c :: rest ∧
      Lexeme.isWordChar c = true ∧ t.kind = Lexeme.runKind t.text.toList ∧
      Lexeme.Run t.text.toList after := by
  rw [s.tokenised] at ht
  obtain ⟨before, c, rest, after, htext, hstart, -, hreads⟩ :=
    Token.exists_reads_of_mem (Array.mem_toList_iff.2 ht)
  rw [Nat.zero_add] at hstart
  obtain ⟨happend, hword, hrunKind, hrun⟩ := hreads.run_of_isRun hkind
  rw [happend] at htext
  exact ⟨before, after, c, rest, htext, hstart, happend.symm, hword, hrunKind, hrun⟩

theorem kind_of_isBlank (ht : t ∈ s.tokens) {e : Char}
    (hlast : t.text.toList.getLast? = some e) (he : isBlank e = true) : t.kind = .escaped e := by
  rw [s.tokenised] at ht
  obtain ⟨_, c, _, _, -, -, hc, hreads⟩ :=
    Token.exists_reads_of_mem (Array.mem_toList_iff.2 ht)
  exact hreads.kind_of_isBlank hc hlast he

theorem hasRun (ht : t ∈ s.tokens) (hkind : t.kind.IsRun) :
    s.HasRun t := by
  obtain ⟨before, after, c, rest, htext, hstart, -, -, hrunKind, hrun⟩ := exists_run ht hkind
  refine ⟨⟨before, after, htext, hstart, hrun⟩, ?_, ?_, ?_⟩
  · rw [hrunKind, Lexeme.runKind_eq_integer]
  · rw [hrunKind, Lexeme.runKind_eq_decimal]
  · rw [hrunKind, Lexeme.runKind_eq_word]

/-- A run that began where another one ends would be part of it. -/
theorem stop_ne_start (ha : a ∈ s.tokens) (hb : b ∈ s.tokens)
    (hakind : a.kind.IsRun) (hbkind : b.kind.IsRun) : a.stop ≠ b.start := by
  intro htouch
  obtain ⟨before, after, _, _, htext, hstart, -, -, -, hrun⟩ := exists_run ha hakind
  obtain ⟨before', _, c, rest, htext', hstart', hfront, hword, -⟩ := exists_run hb hbkind
  rw [hfront, htext, ← List.append_assoc] at htext'
  have hlength : byteLength (before ++ a.text.toList) = byteLength before' := by
    rw [byteLength_append, ← hstart, ← hstart', ← htouch, Token.stop_eq]
  obtain ⟨-, hafter⟩ := append_inj_of_byteLength htext' hlength
  exact Lexeme.not_separates hword (hrun.ends c rest hafter).1

end

/-- Words and numbers are told apart by their texts and go on as far as they can, so there is
always a blank between two of them. -/
theorem ofText_runs (text : String) :
    (∀ t ∈ (ofText text).tokens, t.kind.IsRun → (ofText text).HasRun t) ∧
      ∀ (i : Nat) (a b : Token), (ofText text).tokens[i]? = some a →
        (ofText text).tokens[i + 1]? = some b → a.kind.IsRun → b.kind.IsRun →
          (ofText text).between a b ≠ [] ∧ ∀ c ∈ (ofText text).between a b, isBlank c = true := by
  refine ⟨fun t => hasRun, fun i a b ha hb hakind hbkind => ?_⟩
  obtain ⟨hstart, hblank⟩ := exists_gap ha hb
  refine ⟨fun hnil => ?_, hblank⟩
  rw [hnil, byteLength, Nat.add_zero] at hstart
  exact stop_ne_start (Array.mem_of_getElem? ha) (Array.mem_of_getElem? hb) hakind hbkind
    hstart.symm

/-- The second point of a number is not part of it, and neither is a full stop. -/
theorem ofText_runs_price :
    let s : Statement := .ofText "é -1.50.x 2.5b 7."
    let price : Token := ⟨3, "-1.50", .decimal⟩
    let size : Token := ⟨11, "2.5b", .word⟩
    let count : Token := ⟨16, "7", .integer⟩
    (price ∈ s.tokens ∧ price.kind.IsRun ∧ s.HasRun price) ∧
      s.tokens[4]? = some size ∧ s.tokens[5]? = some count ∧ size.kind.IsRun ∧ count.kind.IsRun ∧
      s.between size count ≠ [] ∧ ∀ c ∈ s.between size count, isBlank c = true := by
  intro s price size count
  have hprice : price ∈ s.tokens := by decide +kernel
  have hrun : price.kind.IsRun := .inr (.inr rfl)
  have hsize : s.tokens[4]? = some size := by decide +kernel
  have hcount : s.tokens[5]? = some count := by decide +kernel
  obtain ⟨hpiece, hgap⟩ := ofText_runs "é -1.50.x 2.5b 7."
  exact ⟨⟨hprice, hrun, hpiece price hprice hrun⟩, hsize, hcount, .inl rfl, .inr (.inl rfl),
    hgap 4 size count hsize hcount (.inl rfl) (.inr (.inl rfl))⟩

end Statement

end StepLinker

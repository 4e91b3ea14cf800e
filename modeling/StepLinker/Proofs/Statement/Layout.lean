import StepLinker.Proofs.Statement.Gap

/-!
# The layout of a statement

Lexing a statement loses nothing and invents nothing. `Laid` says how tokens lie in their text: one
behind the other, each with blank characters in front of it and with a text that begins with
another character. So a run of tokens is a piece of the text, and the gaps between them and around
them make up the rest (`ofText_partition`).
-/

namespace StepLinker

open Text

namespace Text

section
variable {as bs cs ds : List Char}

theorem append_inj_of_byteLength (h : as ++ bs = cs ++ ds)
    (hlength : byteLength as = byteLength cs) : as = cs ∧ bs = ds := by
  have htake := takeBytes_append cs ds
  have hdrop := dropBytes_append cs ds
  rw [← h, ← hlength] at htake hdrop
  rw [takeBytes_append] at htake
  rw [dropBytes_append] at hdrop
  exact ⟨htake, hdrop⟩

theorem mem_of_append_eq {c : Char} (h : as ++ bs = cs ++ c :: ds) :
    (∃ more, as = cs ++ c :: more) ∨ ∃ more, cs = as ++ more ∧ bs = more ++ c :: ds := by
  rcases List.append_eq_append_iff.1 h with ⟨more, hcs, hbs⟩ | ⟨more, has, hds⟩
  · exact .inr ⟨more, hcs, hbs⟩
  · cases more with
    | nil => exact .inr ⟨[], by simpa using has.symm, by simpa using hds.symm⟩
    | cons d more =>
      obtain ⟨rfl, -⟩ := List.cons.inj hds
      exact .inl ⟨more, has⟩

end

end Text

/-! ## Texts of tokens -/

/-- The text of the token begins with a character that is not blank. -/
def Token.IsSolid (t : Token) : Prop :=
  ∃ c cs, t.text.toList = c :: cs ∧ isBlank c = false

theorem Token.IsSolid.length_pos {t : Token} (h : t.IsSolid) : 0 < t.length := by
  obtain ⟨c, cs, htext, -⟩ := h
  have hpos := c.utf8Size_pos
  rw [length, htext, byteLength]
  omega

/-- A token begins where it is read off the text. -/
theorem Lexeme.exists_cons_of_next {boundary : Bool} {c : Char} {rest text : List Char}
    {kind : TokenKind} (h : (next boundary c rest).1 = .token kind text) :
    ∃ cs, text = c :: cs ∧ isBlank c = false := by
  have hblank : isBlank c = false := by
    by_contra hc
    unfold next at h
    rw [if_pos (eq_true_of_ne_false hc)] at h
    cases h
  have happend := next_append boundary c rest
  have hne := chars_next_ne_nil boundary c rest
  rw [h] at happend hne
  obtain ⟨d, cs, rfl⟩ := List.exists_cons_of_ne_nil hne
  obtain ⟨rfl, -⟩ := List.cons.inj happend
  exact ⟨cs, rfl, hblank⟩

/-! ## Tokens in their text -/

/-- The text from the byte `offset` up to the end of the last token consists of the tokens and of
blank characters in front of each. -/
inductive Laid : Nat → List Token → List Char → Prop where
  | nil (offset : Nat) : Laid offset [] []
  | cons {offset : Nat} {gap rest : List Char} {t : Token} {ts : List Token}
      (blank : ∀ c ∈ gap, isBlank c = true) (starts : t.start = offset + byteLength gap)
      (solid : t.IsSolid) (behind : Laid t.stop ts rest) :
      Laid offset (t :: ts) (gap ++ (t.text.toList ++ rest))

section
variable {offset : Nat} {ts us : List Token} {t : Token} {laid : List Char}

theorem Token.stop_eq (t : Token) : t.stop = t.start + byteLength t.text.toList :=
  rfl

theorem Laid.cons_blank {c : Char} (h : Laid (offset + c.utf8Size) (t :: ts) laid)
    (hc : isBlank c = true) : Laid offset (t :: ts) (c :: laid) := by
  cases h with
  | cons blank starts solid behind =>
    refine .cons (List.forall_mem_cons.2 ⟨hc, blank⟩) ?_ solid behind
    rw [starts, byteLength, Nat.add_assoc]

theorem Laid.cons_tight {rest : List Char} (h : Laid t.stop ts rest) (ht : t.IsSolid) :
    Laid t.start (t :: ts) (t.text.toList ++ rest) :=
  @Laid.cons t.start [] rest t ts nofun rfl ht h

/-- The tokens that are read off a text lie in it, with blanks behind them. -/
theorem exists_laid_place (boundary : Bool) (text : List Char) (offset : Nat) :
    ∃ laid trail, text = laid ++ trail ∧
      Laid offset (Token.place offset (lexemes boundary text)) laid ∧
      ∀ c ∈ trail, isBlank c = true := by
  fun_induction lexemes boundary text generalizing offset with
  | case1 => exact ⟨[], [], rfl, .nil _, List.forall_mem_nil _⟩
  | case2 boundary c rest ih =>
    have happend := Lexeme.next_append boundary c rest
    rcases hnext : Lexeme.next boundary c rest with ⟨l, more⟩
    rw [hnext] at happend ih
    cases l with
    | blank c' =>
      have hblank := Lexeme.isBlank_of_next (congrArg Prod.fst hnext)
      obtain ⟨laid, trail, rfl, hlaid, htrail⟩ := ih (offset + c'.utf8Size)
      rw [Token.place, ← happend]
      generalize Token.place _ _ = ts at hlaid ⊢
      cases ts with
      | nil =>
        -- there is no token for the blank to stand in front of
        cases hlaid
        exact ⟨[], c' :: trail, rfl, .nil _, List.forall_mem_cons.2 ⟨hblank, htrail⟩⟩
      | cons t ts => exact ⟨c' :: laid, trail, rfl, hlaid.cons_blank hblank, htrail⟩
    | token kind text =>
      obtain ⟨cs, htext, hblank⟩ := Lexeme.exists_cons_of_next (congrArg Prod.fst hnext)
      obtain ⟨laid, trail, rfl, hlaid, htrail⟩ := ih (offset + byteLength text)
      rw [Token.place, ← happend]
      generalize Token.place _ _ = ts at hlaid ⊢
      generalize ht : (⟨offset, String.ofList text, kind⟩ : Token) = t
      have htoken : t.text.toList = text := by
        rw [← ht, String.toList_ofList]
      have hsolid : t.IsSolid := ⟨c, cs, by rw [htoken, htext], hblank⟩
      have hstart : t.start = offset := by
        rw [← ht]
      rw [← htoken, ← hstart] at hlaid
      have hfront := hlaid.cons_tight hsolid
      rw [hstart, htoken] at hfront
      exact ⟨text ++ laid, trail, by simp [Lexeme.chars], hfront, htrail⟩

/-- Neighbouring runs of tokens lie in neighbouring pieces of the text. -/
theorem Laid.exists_append (h : Laid offset (ts ++ us) laid) :
    ∃ left right, laid = left ++ right ∧ Laid offset ts left ∧
      Laid (offset + byteLength left) us right := by
  induction ts generalizing offset laid with
  | nil => exact ⟨[], laid, rfl, .nil _, h⟩
  | cons t ts ih =>
    cases h with
    | @cons _ gap rest _ _ blank starts solid behind =>
      obtain ⟨left, right, rfl, hleft, hright⟩ := ih behind
      refine ⟨gap ++ (t.text.toList ++ left), right, by simp, .cons blank starts solid hleft, ?_⟩
      have hstop : t.stop + byteLength left =
          offset + byteLength (gap ++ (t.text.toList ++ left)) := by
        simp only [Token.stop_eq, starts, byteLength_append]
        omega
      rwa [← hstop]

theorem Laid.stop_eq_of_concat (h : Laid offset (ts ++ [t]) laid) :
    t.stop = offset + byteLength laid := by
  obtain ⟨left, right, rfl, -, hright⟩ := h.exists_append
  cases hright with
  | cons blank starts solid behind =>
    cases behind
    simp only [Token.stop_eq, starts, byteLength_append, byteLength]
    omega

theorem Laid.solid (h : Laid offset ts laid) : ∀ t ∈ ts, t.IsSolid := by
  induction h with
  | nil => nofun
  | cons _ _ solid _ ih => exact List.forall_mem_cons.2 ⟨solid, ih⟩

theorem Laid.le_start (h : Laid offset ts laid) : ∀ t ∈ ts, offset ≤ t.start := by
  induction h with
  | nil => nofun
  | cons blank starts solid behind ih =>
    refine List.forall_mem_cons.2 ⟨by omega, fun t ht => ?_⟩
    have hstop := ih t ht
    rw [Token.stop_eq] at hstop
    omega

theorem Laid.pairwise (h : Laid offset ts laid) :
    ts.Pairwise fun a b => a.start < b.start ∧ a.stop ≤ b.start := by
  induction h with
  | nil => exact .nil
  | cons blank starts solid behind ih =>
    refine .cons (fun t ht => ?_) ih
    have hstop := behind.le_start t ht
    have hpos := solid.length_pos
    refine ⟨?_, hstop⟩
    unfold Token.stop at hstop
    omega

theorem Laid.isBlank_or_exists (h : Laid offset ts laid) {before after : List Char} {c : Char}
    (htext : laid = before ++ c :: after) :
    isBlank c = true ∨
      ∃ t ∈ ts, t.start ≤ offset + byteLength before ∧ offset + byteLength before < t.stop := by
  induction h generalizing before with
  | nil => simp at htext
  | @cons offset gap rest t ts blank starts solid behind ih =>
    have hpos := c.utf8Size_pos
    rcases mem_of_append_eq htext with ⟨more, rfl⟩ | ⟨between, rfl, hbehind⟩
    · exact .inl (blank c (by simp))
    rcases mem_of_append_eq hbehind with ⟨more, hinside⟩ | ⟨before, rfl, hrest⟩
    · refine .inr ⟨t, List.mem_cons_self, ?_, ?_⟩
      · simp only [starts, byteLength_append]
        omega
      · simp only [Token.stop_eq, starts, hinside, byteLength_append, byteLength]
        omega
    · have hoffset : offset + byteLength (gap ++ (t.text.toList ++ before)) =
          t.stop + byteLength before := by
        simp only [Token.stop_eq, starts, byteLength_append]
        omega
      rw [hoffset]
      rcases ih hrest with hc | ⟨u, hu, hcovers⟩
      · exact .inl hc
      · exact .inr ⟨u, List.mem_cons_of_mem _ hu, hcovers⟩

end

/-! ## Pieces of the text -/

namespace Statement

/-- `piece` is the text from the first byte of `first` to the last byte of `last`. -/
def IsPiece (s : Statement) (first last : Token) (piece : List Char) : Prop :=
  ∃ before after, s.text.toList = before ++ (piece ++ after) ∧ first.start = byteLength before ∧
    last.stop = byteLength before + byteLength piece

def joined (s : Statement) : List Token → List Char
  | [] => []
  | [t] => t.text.toList
  | t :: u :: ts => t.text.toList ++ (s.between t u ++ s.joined (u :: ts))

theorem joined_append (s : Statement) (ts us : List Token) (a b : Token) :
    s.joined (ts ++ a :: b :: us) =
      s.joined (ts ++ [a]) ++ (s.between a b ++ s.joined (b :: us)) := by
  induction ts with
  | nil => rfl
  | cons t ts ih =>
    cases ts with
    | nil => simp [joined]
    | cons u ts =>
      rw [List.cons_append, List.cons_append] at ih
      simp only [List.cons_append, joined, ih, List.append_assoc]

theorem exists_joined_cons (s : Statement) (t : Token) (ts : List Token) :
    ∃ rest, s.joined (t :: ts) = t.text.toList ++ rest := by
  cases ts with
  | nil => exact ⟨[], (List.append_nil _).symm⟩
  | cons u ts => exact ⟨_, rfl⟩

theorem exists_joined_concat (s : Statement) (ts : List Token) (t : Token) :
    ∃ front, s.joined (ts ++ [t]) = front ++ t.text.toList := by
  rcases List.eq_nil_or_concat ts with rfl | ⟨ts, u, rfl⟩
  · exact ⟨[], rfl⟩
  · refine ⟨s.joined (ts ++ [u]) ++ s.between u t, ?_⟩
    rw [List.concat_eq_append, List.append_assoc, List.append_assoc]
    exact s.joined_append ts [] u t

end Statement

/-- Behind the first gap, the text that tokens lie in is theirs. -/
theorem Laid.exists_gap_joined {s : Statement} {t : Token} {ts : List Token}
    {left right laid : List Char} (h : Laid (byteLength left) (t :: ts) laid)
    (htext : s.text.toList = left ++ (laid ++ right)) :
    ∃ gap, laid = gap ++ s.joined (t :: ts) ∧ t.start = byteLength left + byteLength gap ∧
      ∀ c ∈ gap, isBlank c = true := by
  induction ts generalizing t left laid with
  | nil =>
    cases h with
    | @cons _ gap _ _ _ blank starts solid behind =>
      cases behind
      exact ⟨gap, by rw [List.append_nil, Statement.joined], starts, blank⟩
  | cons u us ih =>
    cases h with
    | @cons _ gap rest _ _ blank starts solid behind =>
      have hstop : t.stop = byteLength (left ++ (gap ++ t.text.toList)) := by
        simp only [Token.stop_eq, starts, byteLength_append, Nat.add_assoc]
      rw [hstop] at behind
      have htext' : s.text.toList = (left ++ (gap ++ t.text.toList)) ++ (rest ++ right) := by
        simp [htext]
      obtain ⟨gap', hrest, hstart, -⟩ := ih behind htext'
      have hbetween : s.between t u = gap' := by
        rw [Statement.between, hstart, hstop, htext', hrest, List.append_assoc gap',
          byteSlice_append]
      refine ⟨gap, ?_, starts, blank⟩
      rw [Statement.joined, hbetween, hrest]

namespace Statement

section
variable {s : Statement} {t first last : Token} {ts before inside after : List Token}
  {piece : List Char} {i j : Nat}

theorem exists_laid (s : Statement) :
    ∃ laid trail, s.text.toList = laid ++ trail ∧ Laid 0 s.tokens.toList laid ∧
      ∀ c ∈ trail, isBlank c = true := by
  rw [s.tokenised]
  exact exists_laid_place true s.text.toList 0

/-- A run of tokens is the piece of the text from the first of them to the last. -/
theorem isPiece_joined 
    (htokens : s.tokens.toList = before ++ (inside ++ after)) (hfirst : inside.head? = some first)
    (hlast : inside.getLast? = some last) : s.IsPiece first last (s.joined inside) := by
  obtain ⟨laid, trail, htext, hlaid, -⟩ := s.exists_laid
  rw [htokens] at hlaid
  obtain ⟨left, rest, rfl, -, hrest⟩ := hlaid.exists_append
  obtain ⟨middle, right, rfl, hmiddle, -⟩ := hrest.exists_append
  rw [Nat.zero_add] at hmiddle
  obtain ⟨ts, rfl⟩ := List.head?_eq_some_iff.1 hfirst
  obtain ⟨us, hinside⟩ := List.getLast?_eq_some_iff.1 hlast
  have hstop : last.stop = byteLength left + byteLength middle := by
    rw [hinside] at hmiddle
    exact hmiddle.stop_eq_of_concat
  have htext' : s.text.toList = left ++ (middle ++ (right ++ trail)) := by
    simp [htext]
  obtain ⟨gap, rfl, hstart, -⟩ := hmiddle.exists_gap_joined htext'
  refine ⟨left ++ gap, right ++ trail, by simp [htext'], ?_, ?_⟩
  · rw [hstart, byteLength_append]
  · rw [hstop, byteLength_append, byteLength_append, Nat.add_assoc]

theorem slice_eq_of_isPiece (hfirst : s.tokens[i]? = some first) (hlast : s.tokens[j]? = some last)
    (h : s.IsPiece first last piece) : s.slice i j = String.ofList piece := by
  obtain ⟨before, after, htext, hstart, hstop⟩ := h
  rw [slice, hfirst, hlast]
  dsimp only
  rw [if_pos (by omega), htext, hstart, hstop, byteSlice_append]

end

/-! ## The whole text -/

/-- The text in front of the first token, which is all of it if there is none. -/
def leading (s : Statement) : List Char :=
  match s.tokens.toList.head? with
  | some t => takeBytes t.start s.text.toList
  | none => s.text.toList

def trailing (s : Statement) : List Char :=
  match s.tokens.toList.getLast? with
  | some t => dropBytes t.stop s.text.toList
  | none => []

/-- The byte at `position` belongs to the token `i`. -/
def Covers (s : Statement) (i position : Nat) : Prop :=
  ∃ t, s.tokens[i]? = some t ∧ t.start ≤ position ∧ position < t.stop

/-- The tokens and the gaps around them make up the text. -/
structure Partition (s : Statement) : Prop where
  /-- Each token is a piece of the text that does not begin with a blank. -/
  piece : ∀ t ∈ s.tokens, s.IsPiece t t t.text.toList ∧ t.IsSolid
  ordered : s.tokens.toList.Pairwise fun a b => a.start < b.start ∧ a.stop ≤ b.start
  leading : ∀ c ∈ s.leading, isBlank c = true
  between : ∀ i a b, s.tokens[i]? = some a → s.tokens[i + 1]? = some b →
    ∀ c ∈ s.between a b, isBlank c = true
  trailing : ∀ c ∈ s.trailing, isBlank c = true
  whole : s.text.toList = s.leading ++ (s.joined s.tokens.toList ++ s.trailing)
  /-- A character belongs to just one token, or to none if it is a blank in a gap. -/
  once : ∀ before c after, s.text.toList = before ++ c :: after →
    (∃! i, s.Covers i (byteLength before)) ∨
      ((¬ ∃ i, s.Covers i (byteLength before)) ∧ isBlank c = true)
  /-- A slice is the tokens with the gaps between them, if they are all there. -/
  slice : ∀ i j, i ≤ j → (s.slice i j).toList =
    if j < s.length then s.joined (s.tokens.extract i (j + 1)).toList else []
  gapAfter : ∀ i, s.hasGapAfter i = true ↔
    ∃ a b, s.tokens[i]? = some a ∧ s.tokens[i + 1]? = some b ∧ s.between a b ≠ []

section
variable {s : Statement} {t first last : Token} {ts before inside after : List Token}
  {piece : List Char} {i j : Nat}

theorem isPiece_extract (hij : i ≤ j) (hfirst : s.tokens[i]? = some first)
    (hlast : s.tokens[j]? = some last) :
    s.IsPiece first last (s.joined (s.tokens.extract i (j + 1)).toList) := by
  have hinside : (s.tokens.extract i (j + 1)).toList =
      (s.tokens.toList.drop i).take (j + 1 - i) := by
    rw [Array.toList_extract, List.extract_eq_take_drop]
  have htokens : s.tokens.toList = s.tokens.toList.take i ++
      ((s.tokens.extract i (j + 1)).toList ++ (s.tokens.toList.drop i).drop (j + 1 - i)) := by
    rw [hinside, List.take_append_drop, List.take_append_drop]
  rw [← Array.getElem?_toList] at hfirst hlast
  have hcount : j + 1 - i ≠ 0 := by omega
  have hplace : i + (j + 1 - i - 1) = j := by omega
  refine isPiece_joined htokens ?_ ?_
  · rw [hinside, List.head?_take, if_neg hcount, List.head?_drop, hfirst]
  · rw [hinside, List.getLast?_take, if_neg hcount, List.getElem?_drop, hplace, hlast]
    rfl

theorem isPiece_token (ht : t ∈ s.tokens) :
    s.IsPiece t t t.text.toList := by
  obtain ⟨before, after, htokens⟩ := List.append_of_mem (Array.mem_toList_iff.2 ht)
  exact isPiece_joined (show _ = before ++ ([t] ++ after) from htokens) rfl rfl

theorem toList_slice (hij : i ≤ j) :
    (s.slice i j).toList =
      if j < s.length then s.joined (s.tokens.extract i (j + 1)).toList else [] := by
  split
  · next hj =>
    have hj : j < s.tokens.size := hj
    have hfirst : s.tokens[i]? = some s.tokens[i] := Array.getElem?_eq_getElem _
    have hlast : s.tokens[j]? = some s.tokens[j] := Array.getElem?_eq_getElem _
    rw [slice_eq_of_isPiece hfirst hlast (isPiece_extract hij hfirst hlast),
      String.toList_ofList]
  · next hj =>
    have hlast : s.tokens[j]? = none := Array.getElem?_eq_none (Nat.not_lt.1 hj)
    rw [slice, hlast]
    cases s.tokens[i]? <;> rfl

/-- The text is made up of the tokens and of blanks. -/
theorem exists_whole (s : Statement) :
    s.text.toList = s.leading ++ (s.joined s.tokens.toList ++ s.trailing) ∧
      (∀ c ∈ s.leading, isBlank c = true) ∧ ∀ c ∈ s.trailing, isBlank c = true := by
  obtain ⟨laid, trail, htext, hlaid, htrail⟩ := s.exists_laid
  unfold leading trailing
  rcases htokens : s.tokens.toList with _ | ⟨t, ts⟩
  · rw [htokens] at hlaid
    cases hlaid
    refine ⟨by simp [joined], ?_, nofun⟩
    dsimp only [List.head?]
    rwa [htext]
  · rw [htokens] at hlaid
    have hlaid' : Laid (byteLength []) (t :: ts) laid := hlaid
    obtain ⟨gap, rfl, hstart, hgap⟩ := hlaid'.exists_gap_joined htext
    have hstart : t.start = byteLength gap := hstart.trans (Nat.zero_add _)
    have hlast := List.getLast?_eq_some_getLast (List.cons_ne_nil t ts)
    generalize (t :: ts).getLast _ = last at hlast
    obtain ⟨us, hconcat⟩ := List.getLast?_eq_some_iff.1 hlast
    rw [hconcat] at hlaid
    have hstop := hlaid.stop_eq_of_concat
    have hleading : takeBytes t.start s.text.toList = gap := by
      rw [hstart, htext, List.append_assoc, takeBytes_append]
    have htrailing : dropBytes last.stop s.text.toList = trail := by
      rw [hstop, Nat.zero_add, htext, hconcat, dropBytes_append]
    rw [hlast]
    dsimp only [List.head?]
    rw [hleading, htrailing]
    exact ⟨by rw [htext, List.append_assoc], hgap, htrail⟩

theorem hasGapAfter_iff_between :
    s.hasGapAfter i = true ↔
      ∃ a b, s.tokens[i]? = some a ∧ s.tokens[i + 1]? = some b ∧ s.between a b ≠ [] := by
  constructor
  · intro hgap
    unfold hasGapAfter at hgap
    split at hgap
    · next a b ha hb =>
      refine ⟨a, b, ha, hb, fun hnil => ?_⟩
      obtain ⟨hstart, -⟩ := exists_gap ha hb
      rw [hnil, byteLength] at hstart
      have hlt := of_decide_eq_true hgap
      omega
    · cases hgap
  · rintro ⟨a, b, ha, hb, hne⟩
    obtain ⟨c, hc⟩ := List.exists_mem_of_ne_nil _ hne
    exact (hasGapAfter_iff ha hb).2 ⟨c, hc, (exists_gap ha hb).2 c hc⟩

theorem stop_le_start (hij : i < j) (hfirst : s.tokens[i]? = some first)
    (hlast : s.tokens[j]? = some last) : first.start < last.start ∧ first.stop ≤ last.start := by
  obtain ⟨laid, trail, -, hlaid, -⟩ := s.exists_laid
  rw [← Array.getElem?_toList] at hfirst hlast
  obtain ⟨hi, rfl⟩ := List.getElem?_eq_some_iff.1 hfirst
  obtain ⟨hj, rfl⟩ := List.getElem?_eq_some_iff.1 hlast
  exact List.pairwise_iff_getElem.1 hlaid.pairwise i j hi hj hij

theorem eq_of_covers {position : Nat} (hi : s.Covers i position)
    (hj : s.Covers j position) : i = j := by
  obtain ⟨a, ha, hai, hai'⟩ := hi
  obtain ⟨b, hb, hbj, hbj'⟩ := hj
  rcases Nat.lt_trichotomy i j with hij | rfl | hji
  · have hstop := (stop_le_start hij ha hb).2
    omega
  · rfl
  · have hstop := (stop_le_start hji hb ha).2
    omega

theorem existsUnique_covers {before after : List Char} {c : Char}
    (htext : s.text.toList = before ++ c :: after) :
    (∃! i, s.Covers i (byteLength before)) ∨
      ((¬ ∃ i, s.Covers i (byteLength before)) ∧ isBlank c = true) := by
  by_cases hcovered : ∃ i, s.Covers i (byteLength before)
  · obtain ⟨i, hi⟩ := hcovered
    exact .inl ⟨i, hi, fun j hj => eq_of_covers hj hi⟩
  · refine .inr ⟨hcovered, ?_⟩
    obtain ⟨laid, trail, hlaidtext, hlaid, htrail⟩ := s.exists_laid
    rw [hlaidtext] at htext
    rcases mem_of_append_eq htext with ⟨more, hinside⟩ | ⟨more, -, hbehind⟩
    · refine (hlaid.isBlank_or_exists hinside).resolve_right ?_
      rintro ⟨t, ht, hstart, hstop⟩
      obtain ⟨i, hi⟩ := List.mem_iff_getElem?.1 ht
      rw [Nat.zero_add] at hstart hstop
      exact hcovered ⟨i, t, by rwa [← Array.getElem?_toList], hstart, hstop⟩
    · exact htrail c (by simp [hbehind])

end

/-- Every text is the tokens that are read off it and the blanks around them, and nothing else. -/
theorem ofText_partition (text : String) :
    (ofText text).text = text ∧ (ofText text).Partition := by
  obtain ⟨laid, trail, -, hlaid, -⟩ := (ofText text).exists_laid
  obtain ⟨hwhole, hleading, htrailing⟩ := (ofText text).exists_whole
  refine ⟨rfl, ?_, hlaid.pairwise, hleading, fun i a b ha hb => (exists_gap ha hb).2, htrailing,
    hwhole, fun before c after => existsUnique_covers, fun i j => toList_slice,
    fun i => hasGapAfter_iff_between⟩
  intro t ht
  exact ⟨isPiece_token ht, hlaid.solid t (Array.mem_toList_iff.2 ht)⟩

end Statement

end StepLinker

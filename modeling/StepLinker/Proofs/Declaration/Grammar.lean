import StepLinker.Proofs.Declaration.Quoted

/-!
# The grammar of declarations

What a declaration is, said without reading it: `Item.Stands` tells what item the text begins with
from the source of the item and what follows it, and `Item.Broken` tells when a brace opens a
placeholder and no placeholder stands there. Every text begins with one or the other, so the reading
of a declaration is the only one there is (`items_eq_ok_iff`), and it fails at the leftmost broken
placeholder (`items_eq_error_iff`).
-/

namespace StepLinker

open Text

namespace Item

/-! ## One item -/

/-- The name is letters, digits and underscores and does not begin with a digit. The hint, if there
is one, is not empty and has neither blanks nor braces. -/
structure IsProper (name : List Char) (hint : Option (List Char)) : Prop where
  name : isName name = true
  hint : ∀ cs ∈ hint, cs ≠ [] ∧ ∀ c ∈ cs, isBlank c = false ∧ c ≠ '{' ∧ c ≠ '}'

/-- The text that consists of the source of the item and of `rest` begins with that item. -/
inductive Stands : Item → List Char → Prop where
  /-- A backslash takes the character behind it, whatever it is. -/
  | escape (c : Char) (rest : List Char) : Stands (.escape (some c)) rest
  | lastEscape : Stands (.escape none) []
  | doubled (b : Brace) (rest : List Char) : Stands (.doubled b) rest
  | placeholder {name : List Char} {hint : Option (List Char)} (proper : IsProper name hint)
      (rest : List Char) : Stands (.placeholder name hint) rest
  | opening {rest : List Char} (single : rest.head? ≠ some '{')
      (stray : opensPlaceholder rest = false) : Stands (.stray .opening) rest
  | closing {rest : List Char} (single : rest.head? ≠ some '}') : Stands (.stray .closing) rest
  | plain {c : Char} (ordinary : c ≠ '\\' ∧ c ≠ '{' ∧ c ≠ '}') (rest : List Char) :
      Stands (.plain c) rest

/-- A brace opens a placeholder at the front of the text, and no placeholder stands there. -/
def IsMalformed (text : List Char) : Prop :=
  (∃ rest, text = '{' :: rest ∧ opensPlaceholder rest = true) ∧
    ∀ name hint rest, IsProper name hint → text ≠ (placeholder name hint).source ++ rest

/-- The ways in which a placeholder at the front of a text can be malformed, with what is said of
it. The brace stands at byte `start`. -/
inductive Broken (start : Nat) : List Char → DeclarationError → Prop where
  | unclosedName {name : List Char} (isName : isName name = true) :
      Broken start ('{' :: name) (.unclosedPlaceholder start (String.ofList name))
  | unclosedHint {name more : List Char} (isName : isName name = true) (unclosed : '}' ∉ more) :
      Broken start ('{' :: (name ++ ':' :: more))
        (.unclosedPlaceholder start (String.ofList name))
  | name {name : List Char} {c : Char} {rest : List Char} (isName : isName name = true)
      (stops : isNameChar c = false ∧ c ≠ '}' ∧ c ≠ ':') :
      Broken start ('{' :: (name ++ c :: rest))
        (.malformedPlaceholder start (String.ofList name))
  | hint {name hint rest : List Char} (isName : isName name = true) (closed : '}' ∉ hint)
      (wrong : hint = [] ∨ ∃ c ∈ hint, isBlank c = true ∨ c = '{') :
      Broken start ('{' :: (name ++ ':' :: (hint ++ '}' :: rest)))
        (.malformedPlaceholder start (String.ofList name))

theorem isHint_eq_true_iff {cs : List Char} :
    isHint cs = true ↔ cs ≠ [] ∧ ∀ c ∈ cs, isBlank c = false ∧ c ≠ '{' := by
  simp [isHint]

section
variable {item : Item} {c : Char} {name text rest more : List Char} {e : DeclarationError}

theorem IsProper.isHint {hint : Option (List Char)} (h : IsProper name hint) :
    ∀ cs ∈ hint, isHint cs = true ∧ '}' ∉ cs := by
  intro cs hcs
  obtain ⟨hne, hchars⟩ := h.hint cs hcs
  exact ⟨isHint_eq_true_iff.2 ⟨hne, fun c hc => ⟨(hchars c hc).1, (hchars c hc).2.1⟩⟩,
    fun hmem => (hchars _ hmem).2.2 rfl⟩

theorem next_of_stands (h : Stands item rest) (htext : item.source ++ rest = c :: more)
    (start : Nat) : next start c more = .ok (item, rest) := by
  cases h with
  | escape d rest =>
    cases htext
    rfl
  | lastEscape =>
    cases htext
    rfl
  | doubled b rest =>
    cases b <;> cases htext <;> rfl
  | @placeholder name hint proper rest =>
    obtain ⟨more', hsource, hread⟩ := readPlaceholder_source proper.name proper.isHint start rest
    rw [hsource] at htext
    cases htext
    rw [next_brace proper.name, hread]
  | opening single stray =>
    cases htext
    simp [next, Brace.toChar, single, stray]
  | closing single =>
    cases htext
    simp [next, Brace.toChar, single]
  | plain ordinary rest =>
    cases htext
    simp [next, ordinary]

theorem name_ends (hname : isName name = true) (hc : isNameChar c = false) (rest : List Char) :
    (name ++ c :: rest).takeWhile isNameChar = name ∧
      (name ++ c :: rest).dropWhile isNameChar = c :: rest :=
  takeWhile_dropWhile_append_cons (List.all_eq_true.1 (Bool.and_eq_true_iff.1 hname).2) hc rest

theorem hint_ends (hclosed : '}' ∉ text) (rest : List Char) :
    (text ++ '}' :: rest).takeWhile (· != '}') = text ∧
      (text ++ '}' :: rest).dropWhile (· != '}') = '}' :: rest := by
  refine takeWhile_dropWhile_append_cons (fun c hc => ?_) (by decide) rest
  simpa using fun heq : c = '}' => hclosed (heq ▸ hc)

theorem readPlaceholder_of_broken {start : Nat} (h : Broken start ('{' :: more) e) :
    readPlaceholder start more = .error e ∧ ∃ name rest, more = name ++ rest ∧
      isName name = true := by
  have hcolon : isNameChar ':' = false := by decide
  cases h with
  | unclosedName hname =>
    refine ⟨?_, _, [], (List.append_nil _).symm, hname⟩
    have hchars := List.all_eq_true.1 (Bool.and_eq_true_iff.1 hname).2
    rw [readPlaceholder, List.takeWhile_eq_self_iff.2 hchars, List.dropWhile_eq_nil_iff.2 hchars]
  | @unclosedHint name text hname hunclosed =>
    refine ⟨?_, name, _, rfl, hname⟩
    obtain ⟨htake, hdrop⟩ := name_ends hname hcolon text
    have hnone : text.dropWhile (· != '}') = [] := by
      rw [List.dropWhile_eq_nil_iff]
      intro c hc
      simpa using fun heq : c = '}' => hunclosed (heq ▸ hc)
    simp [readPlaceholder, htake, hdrop, hnone]
  | @name name c rest hname stops =>
    obtain ⟨hc, hclose, hcolon⟩ := stops
    obtain ⟨htake, hdrop⟩ := name_ends hname hc rest
    refine ⟨?_, name, _, rfl, hname⟩
    rw [readPlaceholder, htake, hdrop]
    dsimp only
    split
    · next heq => exact absurd (List.cons.inj heq).1 hclose
    · next heq => exact absurd (List.cons.inj heq).1 hcolon
    · next heq => cases heq
    · rfl
  | @hint name text rest hname hclosed hwrong =>
    refine ⟨?_, name, _, rfl, hname⟩
    obtain ⟨htake, hdrop⟩ := name_ends hname hcolon (text ++ '}' :: rest)
    obtain ⟨htake', hdrop'⟩ := hint_ends hclosed rest
    have hno : Item.isHint text = false := by
      rw [← Bool.not_eq_true, isHint_eq_true_iff]
      rintro ⟨hne, hchars⟩
      rcases hwrong with rfl | ⟨c, hc, hblank | rfl⟩
      · exact hne rfl
      · rw [(hchars c hc).1] at hblank
        cases hblank
      · exact (hchars _ hc).2 rfl
    simp [readPlaceholder, htake, hdrop, htake', hdrop', hno]

theorem next_of_broken {start : Nat} (h : Broken start (c :: more) e) :
    next start c more = .error e := by
  obtain rfl : c = '{' := by
    cases h <;> rfl
  obtain ⟨hread, name, rest, rfl, hname⟩ := readPlaceholder_of_broken h
  rw [next_brace hname, hread]

theorem stands_or_broken_of_opens (start : Nat) (hopens : opensPlaceholder rest = true) :
    (∃ name hint more, '{' :: rest = (placeholder name hint).source ++ more ∧
      IsProper name hint) ∨ ∃ e, Broken start ('{' :: rest) e := by
  have hchars : ∀ c ∈ rest.takeWhile isNameChar, isNameChar c = true := fun c =>
    List.mem_takeWhile_imp
  have hstart : opensPlaceholder (rest.takeWhile isNameChar) = true := by
    rcases rest with _ | ⟨c, rest⟩
    · cases hopens
    have hc : isNameStart c = true := hopens
    have hchar : isNameChar c = true := by
      simp only [isNameStart, isNameChar, Char.isAlphanum, Bool.or_eq_true] at hc ⊢
      exact hc.imp_left .inl
    rw [List.takeWhile_cons_of_pos hchar]
    exact hopens
  have hname : isName (rest.takeWhile isNameChar) = true :=
    Bool.and_eq_true_iff.2 ⟨hstart, List.all_eq_true.2 hchars⟩
  have htext := List.takeWhile_append_dropWhile (p := isNameChar) (l := rest)
  have hstop := List.head?_dropWhile_not isNameChar rest
  generalize rest.takeWhile isNameChar = name at hname htext
  generalize rest.dropWhile isNameChar = more at hstop htext
  subst htext
  rcases more with _ | ⟨c, more⟩
  · rw [List.append_nil]
    exact .inr ⟨_, .unclosedName hname⟩
  have hc : isNameChar c = false := hstop
  by_cases hclose : c = '}'
  · subst hclose
    exact .inl ⟨name, none, more, by simp [source], hname, nofun⟩
  by_cases hcolon : c = ':'
  · subst hcolon
    by_cases hunclosed : '}' ∈ more
    · obtain ⟨hint, tail, rfl, hclosed⟩ := List.eq_append_cons_of_mem hunclosed
      by_cases hwrong : hint = [] ∨ ∃ c ∈ hint, isBlank c = true ∨ c = '{'
      · exact .inr ⟨_, .hint hname hclosed hwrong⟩
      · obtain ⟨hne, hno⟩ := not_or.1 hwrong
        refine .inl ⟨name, some hint, tail, by simp [source], hname, ?_⟩
        rintro _ ⟨⟩
        refine ⟨hne, fun c hc => ?_⟩
        obtain ⟨hblank, hopen⟩ := not_or.1 fun h => hno ⟨c, hc, h⟩
        exact ⟨eq_false_of_ne_true hblank, hopen, fun heq => hclosed (heq ▸ hc)⟩
    · exact .inr ⟨_, .unclosedHint hname hunclosed⟩
  · exact .inr ⟨_, .name hname ⟨hc, hclose, hcolon⟩⟩

/-- Every text begins with an item or with a broken placeholder. -/
theorem stands_or_broken (start : Nat) (c : Char) (rest : List Char) :
    (∃ item more, c :: rest = item.source ++ more ∧ Stands item more) ∨
      ∃ e, Broken start (c :: rest) e := by
  by_cases hslash : c = '\\'
  · subst hslash
    rcases rest with _ | ⟨d, rest⟩
    · exact .inl ⟨.escape none, [], rfl, .lastEscape⟩
    · exact .inl ⟨.escape (some d), rest, rfl, .escape d rest⟩
  by_cases hopen : c = '{'
  · subst hopen
    by_cases hdouble : rest.head? = some '{'
    · obtain ⟨tail, rfl⟩ := List.head?_eq_some_iff.1 hdouble
      exact .inl ⟨.doubled .opening, tail, rfl, .doubled .opening tail⟩
    cases hopens : opensPlaceholder rest with
    | true =>
      refine (stands_or_broken_of_opens start hopens).imp_left ?_
      rintro ⟨name, hint, more, htext, hproper⟩
      exact ⟨_, more, htext, .placeholder hproper more⟩
    | false => exact .inl ⟨.stray .opening, rest, rfl, .opening hdouble hopens⟩
  by_cases hclose : c = '}'
  · subst hclose
    by_cases hdouble : rest.head? = some '}'
    · obtain ⟨tail, rfl⟩ := List.head?_eq_some_iff.1 hdouble
      exact .inl ⟨.doubled .closing, tail, rfl, .doubled .closing tail⟩
    · exact .inl ⟨.stray .closing, rest, rfl, .closing hdouble⟩
  · exact .inl ⟨.plain c, rest, rfl, .plain ⟨hslash, hopen, hclose⟩ rest⟩

theorem next_eq_ok_iff {start : Nat} :
    next start c more = .ok (item, rest) ↔ c :: more = item.source ++ rest ∧ Stands item rest := by
  constructor
  · intro h
    refine ⟨(next_append h).symm, ?_⟩
    rcases stands_or_broken start c more with ⟨item', rest', htext, hstands⟩ | ⟨e, hbroken⟩
    · rw [next_of_stands hstands htext.symm] at h
      cases h
      exact hstands
    · rw [next_of_broken hbroken] at h
      cases h
  · rintro ⟨htext, hstands⟩
    exact next_of_stands hstands htext.symm start

theorem next_eq_error_iff {start : Nat} :
    next start c more = .error e ↔ Broken start (c :: more) e := by
  refine ⟨fun h => ?_, next_of_broken⟩
  rcases stands_or_broken start c more with ⟨item', rest', htext, hstands⟩ | ⟨e', hbroken⟩
  · rw [next_of_stands hstands htext.symm] at h
    cases h
  · rw [next_of_broken hbroken] at h
    cases h
    exact hbroken

theorem exists_broken_iff (start : Nat) : (∃ e, Broken start text e) ↔ IsMalformed text := by
  constructor
  · rintro ⟨e, h⟩
    obtain ⟨rest, rfl⟩ : ∃ rest, text = '{' :: rest := by
      cases h <;> exact ⟨_, rfl⟩
    obtain ⟨-, name, more, rfl, hname⟩ := readPlaceholder_of_broken h
    have hopens : opensPlaceholder (name ++ more) = true := by
      obtain ⟨hopens, -⟩ := Bool.and_eq_true_iff.1 hname
      cases name with
      | nil => cases hopens
      | cons c cs => exact hopens
    refine ⟨⟨_, rfl, hopens⟩, fun name' hint rest hproper htext => ?_⟩
    have hnext := next_of_stands (.placeholder hproper rest) htext.symm start
    rw [next_of_broken h] at hnext
    cases hnext
  · rintro ⟨⟨rest, rfl, hopens⟩, hnone⟩
    refine (stands_or_broken_of_opens start hopens).resolve_left ?_
    rintro ⟨name, hint, more, htext, hproper⟩
    exact hnone name hint more hproper htext

end

/-! ## All items -/

/-- A text that consists of the sources of the items and of `rest` begins with these items. -/
inductive Reading : List Item → List Char → Prop where
  | nil (rest : List Char) : Reading [] rest
  | cons {item : Item} {items : List Item} {rest : List Char}
      (stands : Stands item (items.flatMap source ++ rest)) (behind : Reading items rest) :
      Reading (item :: items) rest

end Item

def ReadsAs (text : List Char) (declared : List Item) : Prop :=
  text = declared.flatMap Item.source ∧ Item.Reading declared []

section
variable {start : Nat} {text rest : List Char} {declared : List Item} {e : DeclarationError}

theorem items_append (h : Item.Reading declared rest) (start : Nat) :
    items start (declared.flatMap Item.source ++ rest) =
      (items (start + byteLength (declared.flatMap Item.source)) rest).map (declared ++ ·) := by
  induction h generalizing start with
  | nil rest =>
    show items start rest = _
    cases h : items start rest <;> simp [byteLength, h, Except.map]
  | @cons item declared rest stands behind ih =>
    obtain ⟨c, more, hsource⟩ := List.exists_cons_of_ne_nil item.source_ne_nil
    have htext : item.source ++ (declared.flatMap Item.source ++ rest) =
        c :: (more ++ (declared.flatMap Item.source ++ rest)) := by
      rw [hsource, List.cons_append]
    rw [List.flatMap_cons, List.append_assoc, htext,
      items_cons_of_next (Item.next_of_stands stands htext start), ih, byteLength_append,
      Nat.add_assoc]
    cases items (start + (byteLength item.source + byteLength (declared.flatMap Item.source)))
      rest <;> rfl

theorem items_of_readsAs (h : ReadsAs text declared) (start : Nat) :
    items start text = .ok declared := by
  obtain ⟨rfl, hreading⟩ := h
  have happend := items_append hreading start
  rw [List.append_nil] at happend
  rw [happend, items]
  simp [Except.map]

theorem items_of_broken (h : Item.Reading declared rest)
    (hbroken : Item.Broken (start + byteLength (declared.flatMap Item.source)) rest e) :
    items start (declared.flatMap Item.source ++ rest) = .error e := by
  obtain ⟨more, rfl⟩ : ∃ more, rest = '{' :: more := by
    cases hbroken <;> exact ⟨_, rfl⟩
  rw [items_append h, items]
  split
  · next heq =>
    rw [Item.next_of_broken hbroken] at heq
    cases heq
    rfl
  · next heq =>
    rw [Item.next_of_broken hbroken] at heq
    cases heq

/-- A declaration can be read to its end or up to a broken placeholder. -/
theorem readsAs_or_broken (start : Nat) (text : List Char) :
    (∃ declared, ReadsAs text declared) ∨ ∃ declared rest e,
      text = declared.flatMap Item.source ++ rest ∧ Item.Reading declared rest ∧
        Item.Broken (start + byteLength (declared.flatMap Item.source)) rest e := by
  fun_induction items start text with
  | case1 => exact .inl ⟨[], rfl, .nil []⟩
  | case2 start c rest e hnext =>
    exact .inr ⟨[], c :: rest, e, rfl, .nil _, Item.next_eq_error_iff.1 hnext⟩
  | case3 start c rest item rest' hnext _ hitems ih
  | case4 start c rest item rest' hnext _ hitems ih =>
    obtain ⟨htext, hstands⟩ := Item.next_eq_ok_iff.1 hnext
    rcases ih with ⟨declared, rfl, hreading⟩ | ⟨declared, bad, e, rfl, hreading, hbroken⟩
    · refine .inl ⟨item :: declared, htext, .cons ?_ hreading⟩
      rwa [List.append_nil]
    · refine .inr ⟨item :: declared, bad, e, ?_, .cons hstands hreading, ?_⟩
      · rw [htext, List.flatMap_cons, List.append_assoc]
      · rwa [List.flatMap_cons, byteLength_append, ← Nat.add_assoc]

theorem items_eq_ok_iff : items start text = .ok declared ↔ ReadsAs text declared := by
  refine ⟨fun h => ?_, fun h => items_of_readsAs h start⟩
  rcases readsAs_or_broken start text with ⟨declared', hreads⟩ | ⟨_, _, _, rfl, hreading, hbroken⟩
  · rw [items_of_readsAs hreads] at h
    cases h
    exact hreads
  · rw [items_of_broken hreading hbroken] at h
    cases h

/-- Reading fails at the leftmost broken placeholder. -/
theorem items_eq_error_iff : items start text = .error e ↔ ∃ declared rest,
    text = declared.flatMap Item.source ++ rest ∧ Item.Reading declared rest ∧
      Item.Broken (start + byteLength (declared.flatMap Item.source)) rest e := by
  constructor
  · intro h
    rcases readsAs_or_broken start text with ⟨declared, hreads⟩ |
      ⟨declared, rest, e', htext, hreading, hbroken⟩
    · rw [items_of_readsAs hreads] at h
      cases h
    · rw [htext, items_of_broken hreading hbroken] at h
      cases h
      exact ⟨declared, rest, htext, hreading, hbroken⟩
  · rintro ⟨declared, rest, rfl, hreading, hbroken⟩
    exact items_of_broken hreading hbroken

end

end StepLinker

import StepLinker.Proofs.Statement.Slice
import StepLinker.Text.LineIndex

/-!
# Looking up lines and columns

`Location.behind` is where one gets to by reading a text: one line further for each line feed, and
one column for each character of the last line. The index gets there without reading the text again
(`location_ofText`): the lines that begin by an offset come before those that begin behind it, so
the binary search counts them. What is searched for is placed where it first occurs
(`find?_of_isFirst`).
-/

namespace StepLinker.Text

/-- The place behind a text that begins at the first line. -/
def Location.behind (before : List Char) : Location :=
  ⟨before.count '\n' + 1, (before.reverse.takeWhile (· != '\n')).length + 1⟩

def IsLines (text : List Char) : Prop :=
  text = [] ∨ ∃ front, text = front ++ ['\n']

/-- A text consists of whole lines and the beginning of another. -/
theorem exists_lines (text : List Char) :
    ∃ lines line, text = lines ++ line ∧ IsLines lines ∧ '\n' ∉ line := by
  refine ⟨(text.reverse.dropWhile (· != '\n')).reverse,
    (text.reverse.takeWhile (· != '\n')).reverse, ?_, ?_, ?_⟩
  · rw [← List.reverse_append, List.takeWhile_append_dropWhile, List.reverse_reverse]
  · have hhead := List.head?_dropWhile_not (· != '\n') text.reverse
    generalize text.reverse.dropWhile (· != '\n') = front at hhead
    rcases front with _ | ⟨c, cs⟩
    · exact .inl rfl
    · obtain rfl : c = '\n' := by simpa using hhead
      exact .inr ⟨cs.reverse, List.reverse_cons⟩
  · intro hmem
    simpa using List.mem_takeWhile_imp (List.mem_reverse.1 hmem)

section
variable {lines line before more : List Char}

theorem Location.behind_append (hmore : '\n' ∉ more) :
    behind (before ++ more) = (behind before).advance more.length := by
  have hall : ∀ c ∈ more.reverse, (c != '\n') = true := by
    intro c hc
    simpa using fun heq : c = '\n' => hmore (heq ▸ List.mem_reverse.1 hc)
  rw [behind, List.count_append, List.count_eq_zero.2 hmore, List.reverse_append,
    List.takeWhile_append_of_pos hall, List.length_append, List.length_reverse]
  simp only [behind, advance, Nat.add_zero]
  congr 1
  omega

theorem Location.behind_lines (hlines : IsLines lines) :
    behind lines = ⟨lines.count '\n' + 1, 1⟩ := by
  rcases hlines with rfl | ⟨front, rfl⟩
  · rfl
  · simp [behind]

end

/-! ## The starts of lines -/

namespace LineStart

theorem lt_of_mem_further {offset : Nat} {text : List Char} {l : LineStart}
    (h : l ∈ further offset text) : offset < l.offset := by
  induction text generalizing offset with
  | nil => cases h
  | cons c text ih =>
    have hpos := c.utf8Size_pos
    rw [further] at h
    split at h
    · rcases List.mem_cons.1 h with rfl | h
      · exact Nat.lt_add_of_pos_right hpos
      · have := ih h
        omega
    · have := ih h
      omega

theorem exists_further_append (offset : Nat) (before after : List Char) :
    ∃ starts, further offset (before ++ after) =
        starts ++ further (offset + byteLength before) after ∧
      starts.length = before.count '\n' ∧ ∀ l ∈ starts, l.offset ≤ offset + byteLength before := by
  induction before generalizing offset with
  | nil => exact ⟨[], rfl, rfl, nofun⟩
  | cons c before ih =>
    obtain ⟨starts, hfurther, hlength, hle⟩ := ih (offset + c.utf8Size)
    rw [byteLength, ← Nat.add_assoc, List.cons_append, further, hfurther]
    split
    · next hc =>
      refine ⟨⟨offset + c.utf8Size, before ++ after⟩ :: starts, rfl, ?_, ?_⟩
      · rw [hc, List.count_cons_self, List.length_cons, hlength]
      · exact List.forall_mem_cons.2 ⟨Nat.le_add_right _ _, hle⟩
    · next hc => exact ⟨starts, rfl, by rw [List.count_cons_of_ne hc, hlength], hle⟩

end LineStart

namespace LineIndex

/-- The binary search finds the point below which `p` holds and from which on it does not. -/
theorem partitionPoint_eq {p : Nat → Bool} {low point high : Nat} (hlow : low ≤ point)
    (hhigh : point ≤ high) (hbelow : ∀ i < point, p i = true)
    (habove : ∀ i, point ≤ i → i < high → p i = false) : partitionPoint p low high = point := by
  fun_induction partitionPoint p low high with
  | case1 low high hlt middle hmiddle ih =>
    refine ih ?_ hhigh habove
    by_contra hle
    rw [habove middle (by omega) (by omega)] at hmiddle
    cases hmiddle
  | case2 low high hlt middle hmiddle ih =>
    refine ih hlow ?_ fun i hi hlt => habove i hi (by omega)
    by_contra hle
    exact hmiddle (hbelow middle (by omega))
  | case3 low high hge => omega

section
variable {before after lines rest : List Char}

theorem exists_lines_ofText (before after : List Char) :
    ∃ starts : List LineStart,
      (ofText (before ++ after)).lines.toList =
        starts ++ LineStart.further (byteLength before) after ∧
      starts.length = before.count '\n' + 1 ∧ ∀ l ∈ starts, l.offset ≤ byteLength before := by
  obtain ⟨starts, hfurther, hlength, hle⟩ := LineStart.exists_further_append 0 before after
  rw [Nat.zero_add] at hfurther hle
  refine ⟨⟨0, before ++ after⟩ :: starts, ?_, ?_, ?_⟩
  · rw [ofText, List.toList_toArray, hfurther, List.cons_append]
  · rw [List.length_cons, hlength]
  · exact List.forall_mem_cons.2 ⟨Nat.zero_le _, hle⟩

/-- The lines that begin by an offset are one more than the line feeds before it. -/
theorem lineNumber_ofText (before after : List Char) :
    (ofText (before ++ after)).lineNumber (byteLength before) = before.count '\n' + 1 := by
  obtain ⟨starts, hlines, hlength, hle⟩ := exists_lines_ofText before after
  have hget (i : Nat) : (ofText (before ++ after)).lines[i]? =
      (starts ++ LineStart.further (byteLength before) after)[i]? := by
    rw [← hlines, Array.getElem?_toList]
  have hsize : (ofText (before ++ after)).lines.size =
      starts.length + (LineStart.further (byteLength before) after).length := by
    rw [← Array.length_toList, hlines, List.length_append]
  rw [← hlength]
  refine partitionPoint_eq (Nat.zero_le _) (by omega) (fun i hi => ?_) fun i hi hlt => ?_
  · rw [beginsBy, hget, List.getElem?_append_left hi, List.getElem?_eq_getElem hi]
    simpa using hle _ (List.getElem_mem hi)
  · have hi' : i - starts.length < (LineStart.further (byteLength before) after).length := by
      omega
    rw [beginsBy, hget, List.getElem?_append_right hi, List.getElem?_eq_getElem hi']
    simpa using LineStart.lt_of_mem_further (List.getElem_mem hi')

/-- The line behind some whole lines begins where they end. -/
theorem getElem?_lines_ofText (hlines : IsLines lines) (rest : List Char) :
    (ofText (lines ++ rest)).lines[lines.count '\n']? = some ⟨byteLength lines, rest⟩ := by
  rcases hlines with rfl | ⟨front, rfl⟩
  · rfl
  · obtain ⟨starts, hstarts, hlength, -⟩ := exists_lines_ofText front ('\n' :: rest)
    rw [List.append_assoc, List.singleton_append, ← Array.getElem?_toList, hstarts,
      List.count_append, List.count_singleton_self, ← hlength,
      List.getElem?_append_right (Nat.le_refl _), Nat.sub_self, byteLength_append]
    rfl

/-- What the index holds about the line of an offset. -/
theorem lineStart_ofText (hlines : IsLines lines) {line : List Char} (hline : '\n' ∉ line)
    (after : List Char) :
    (ofText (lines ++ line ++ after)).lineStart (byteLength (lines ++ line)) =
      ⟨byteLength lines, line ++ after⟩ := by
  rw [lineStart, lineNumber_ofText, List.count_append, List.count_eq_zero.2 hline, Nat.add_zero,
    Nat.add_sub_cancel, List.append_assoc, getElem?_lines_ofText hlines]
  rfl

theorem location_ofText (before after : List Char) :
    (ofText (before ++ after)).location (byteLength before) = .behind before := by
  obtain ⟨lines, line, rfl, hlines, hline⟩ := exists_lines before
  rw [location, lineNumber_ofText, lineStart_ofText hlines hline, byteLength_append,
    Nat.add_sub_cancel_left, takeBytes_append, Location.behind_append hline,
    Location.behind_lines hlines, List.count_append, List.count_eq_zero.2 hline]
  simp only [Location.advance, Nat.add_zero, Nat.add_comm]

theorem restAt_ofText (before after : List Char) :
    (ofText (before ++ after)).restAt (byteLength before) = after := by
  obtain ⟨lines, line, rfl, hlines, hline⟩ := exists_lines before
  rw [restAt, lineStart_ofText hlines hline, byteLength_append, Nat.add_sub_cancel_left,
    dropBytes_append]

end

/-! ## Searching -/

/-- The needle occurs behind `before`, and nowhere before that. -/
structure IsFirst (needle text before : List Char) : Prop where
  occurs : ∃ after, text = before ++ (needle ++ after)
  least : ∀ front after, text = front ++ (needle ++ after) → before.length ≤ front.length

section
variable {needle text before : List Char} {start n : Nat}

theorem isFirst_cons_iff {c : Char} (h : needle.isPrefixOf (c :: text) = false) :
    IsFirst needle (c :: text) (c :: before) ↔ IsFirst needle text before := by
  have hbegins (front after : List Char) (heq : c :: text = front ++ (needle ++ after)) :
      ∃ tail, front = c :: tail ∧ text = tail ++ (needle ++ after) := by
    rcases front with _ | ⟨d, tail⟩
    · rw [← Bool.not_eq_true, List.isPrefixOf_iff_prefix] at h
      exact absurd ⟨after, heq.symm⟩ h
    · obtain ⟨rfl, htext⟩ := List.cons.inj heq
      exact ⟨tail, rfl, htext⟩
  constructor
  · rintro ⟨⟨after, htext⟩, hleast⟩
    refine ⟨⟨after, (List.cons.inj htext).2⟩, fun front after heq => ?_⟩
    have hle := hleast (c :: front) after (by rw [heq, List.cons_append])
    simpa using hle
  · rintro ⟨⟨after, rfl⟩, hleast⟩
    refine ⟨⟨after, rfl⟩, fun front after heq => ?_⟩
    obtain ⟨tail, rfl, htext⟩ := hbegins front after heq
    simpa using hleast tail after htext

theorem search?_of_isFirst (h : IsFirst needle text before) (start : Nat) :
    search? needle start text = some (start + byteLength before) := by
  induction text generalizing before start with
  | nil =>
    obtain ⟨after, hnil⟩ := h.occurs
    obtain ⟨hbefore, hneedle⟩ := List.append_eq_nil_iff.1 hnil.symm
    obtain ⟨rfl, -⟩ := List.append_eq_nil_iff.1 hneedle
    rw [hbefore]
    rfl
  | cons c text ih =>
    rw [search?]
    cases hbegins : needle.isPrefixOf (c :: text) with
    | true =>
      obtain ⟨after, htext⟩ := List.isPrefixOf_iff_prefix.1 hbegins
      have hle := h.least [] after htext.symm
      rw [List.length_nil, Nat.le_zero, List.length_eq_zero_iff] at hle
      rw [hle]
      rfl
    | false =>
      rcases before with _ | ⟨d, before⟩
      · obtain ⟨after, htext⟩ := h.occurs
        rw [List.isPrefixOf_iff_prefix.2 ⟨after, htext.symm⟩] at hbegins
        cases hbegins
      obtain ⟨after, htext⟩ := h.occurs
      obtain rfl := (List.cons.inj htext).1
      rw [if_neg nofun, ih ((isFirst_cons_iff hbegins).1 h), byteLength, Nat.add_assoc]

theorem exists_isFirst (h : needle <:+: text) : ∃ before, IsFirst needle text before := by
  induction text with
  | nil =>
    obtain rfl := List.infix_nil.1 h
    exact ⟨[], ⟨[], rfl⟩, fun _ _ _ => Nat.zero_le _⟩
  | cons c text ih =>
    cases hbegins : needle.isPrefixOf (c :: text) with
    | true =>
      obtain ⟨after, htext⟩ := List.isPrefixOf_iff_prefix.1 hbegins
      exact ⟨[], ⟨after, htext.symm⟩, fun _ _ _ => Nat.zero_le _⟩
    | false =>
      have hno : ¬ needle <+: c :: text := by
        rw [← List.isPrefixOf_iff_prefix, hbegins]
        nofun
      obtain ⟨before, hbefore⟩ := ih ((List.infix_cons_iff.1 h).resolve_left hno)
      exact ⟨c :: before, (isFirst_cons_iff hbegins).2 hbefore⟩

end

/-- What is searched for behind a text is placed where it first occurs. -/
theorem find?_of_isFirst {needle before rest first : List Char} (h : IsFirst needle rest first) :
    (ofText (before ++ rest)).find? (byteLength before) needle =
      some (.behind (before ++ first)) := by
  obtain ⟨after, hrest⟩ := h.occurs
  have hplace := location_ofText (before ++ first) (needle ++ after)
  rw [List.append_assoc, ← hrest] at hplace
  rw [find?, restAt_ofText, search?_of_isFirst h, ← byteLength_append, Option.map_some, hplace]

end LineIndex

end StepLinker.Text

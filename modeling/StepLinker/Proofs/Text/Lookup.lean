import StepLinker.Proofs.Statement.Layout
import StepLinker.Proofs.Text.LineIndex
import Mathlib.Order.Bounds.Defs

/-!
# Lookups by offset

Offsets count bytes, and places lines and characters. Both grow along a text, so the index tells
the boundaries between its characters apart and keeps them in order. A search from a boundary on
ends at the least offset at which the needle occurs (`Finds`).
-/

namespace StepLinker.Text

/-- The byte offset is where a character of the text begins, or the end of the text. -/
def IsBoundary (text : List Char) (offset : Nat) : Prop :=
  ∃ before, before <+: text ∧ byteLength before = offset

def OccursAt (needle text : List Char) (offset : Nat) : Prop :=
  ∃ before after, text = before ++ (needle ++ after) ∧ byteLength before = offset

def Location.Precedes (l l' : Location) : Prop :=
  l.line < l'.line ∨ l.line = l'.line ∧ l.column < l'.column

section
variable {text before before' more : List Char}

theorem Location.Precedes.ne {l l' : Location} (h : l.Precedes l') : l ≠ l' := by
  rintro rfl
  rcases h with h | ⟨-, h⟩ <;> omega

theorem Location.Precedes.not_precedes {l l' : Location} (h : l.Precedes l') :
    ¬ l'.Precedes l := by
  rintro (h' | ⟨heq', h'⟩) <;> rcases h with h | ⟨heq, h⟩ <;> omega

theorem Location.behind_precedes (hmore : more ≠ []) :
    (behind before).Precedes (behind (before ++ more)) := by
  by_cases hline : '\n' ∈ more
  · have hcount := List.count_pos_iff.2 hline
    refine .inl ?_
    simp only [behind, List.count_append]
    omega
  · have hlength := List.length_pos_iff.2 hmore
    rw [behind_append hline]
    exact .inr ⟨rfl, Nat.lt_add_of_pos_right hlength⟩

/-- Of two beginnings of a text the shorter one begins the longer one. -/
theorem exists_append_of_byteLength_le (h : before <+: text) (h' : before' <+: text)
    (hle : byteLength before ≤ byteLength before') : ∃ more, before' = before ++ more := by
  rcases List.prefix_or_prefix_of_prefix h h' with ⟨more, hmore⟩ | ⟨more, rfl⟩
  · exact ⟨more, hmore.symm⟩
  · rw [byteLength_append] at hle
    obtain rfl : more = [] := byteLength_eq_zero.1 (by omega)
    exact ⟨[], by simp⟩

end

namespace LineIndex

section
variable {text needle before rest : List Char} {start a b : Nat}

theorem location_eq_behind (h : before <+: text) :
    (ofText text).location (byteLength before) = .behind before := by
  obtain ⟨after, rfl⟩ := h
  exact location_ofText before after

theorem location_precedes (ha : IsBoundary text a) (hb : IsBoundary text b) (hlt : a < b) :
    ((ofText text).location a).Precedes ((ofText text).location b) := by
  obtain ⟨before, hbefore, rfl⟩ := ha
  obtain ⟨before', hbefore', rfl⟩ := hb
  obtain ⟨more, rfl⟩ :=
    exists_append_of_byteLength_le hbefore hbefore' (Nat.le_of_lt hlt)
  have hmore : more ≠ [] := by
    rintro rfl
    rw [List.append_nil] at hlt
    exact Nat.lt_irrefl _ hlt
  rw [location_eq_behind hbefore, location_eq_behind hbefore']
  exact Location.behind_precedes hmore

theorem location_inj (ha : IsBoundary text a) (hb : IsBoundary text b) :
    (ofText text).location a = (ofText text).location b ↔ a = b := by
  refine ⟨fun heq => ?_, fun heq => heq ▸ rfl⟩
  rcases Nat.lt_trichotomy a b with hlt | heq' | hlt
  · exact absurd heq (location_precedes ha hb hlt).ne
  · exact heq'
  · exact absurd heq.symm (location_precedes hb ha hlt).ne

theorem location_precedes_iff (ha : IsBoundary text a) (hb : IsBoundary text b) :
    ((ofText text).location a).Precedes ((ofText text).location b) ↔ a < b := by
  refine ⟨fun h => ?_, location_precedes ha hb⟩
  by_contra hle
  rcases Nat.eq_or_lt_of_le (Nat.not_lt.1 hle) with heq | hlt
  · exact h.ne (heq ▸ rfl)
  · exact (location_precedes hb ha hlt).not_precedes h

/-! ## Searching -/

/-- Where a search from the offset `start` on ends. -/
inductive Finds (text needle : List Char) (start : Nat) : Option Location → Prop where
  | first {offset : Nat} (least : IsLeast {o | start ≤ o ∧ OccursAt needle text o} offset) :
      Finds text needle start (some ((ofText text).location offset))
  | nowhere (absent : ∀ offset, start ≤ offset → ¬ OccursAt needle text offset) :
      Finds text needle start none

theorem search?_of_not_infix (h : ¬ needle <:+: text) (start : Nat) :
    search? needle start text = none := by
  induction text generalizing start with
  | nil =>
    rw [search?, if_neg]
    rw [List.isEmpty_iff]
    rintro rfl
    exact h List.nil_infix
  | cons c text ih =>
    obtain ⟨hbegins, hrest⟩ := not_or.1 (mt List.infix_cons_iff.2 h)
    rw [search?, if_neg (mt List.isPrefixOf_iff_prefix.1 hbegins), ih hrest]

theorem exists_occurrence (h : OccursAt needle (before ++ rest) a) (hle : byteLength before ≤ a) :
    ∃ front after, rest = front ++ (needle ++ after) ∧ a = byteLength (before ++ front) := by
  obtain ⟨front, after, htext, rfl⟩ := h
  obtain ⟨more, rfl⟩ :=
    exists_append_of_byteLength_le (List.prefix_append before rest) ⟨_, htext.symm⟩ hle
  rw [List.append_assoc] at htext
  exact ⟨more, after, List.append_cancel_left htext, rfl⟩

theorem isLeast_of_isFirst {first : List Char} (h : IsFirst needle rest first) :
    IsLeast {o | byteLength before ≤ o ∧ OccursAt needle (before ++ rest) o}
      (byteLength (before ++ first)) := by
  obtain ⟨back, hback⟩ := h.occurs
  constructor
  · refine ⟨?_, before ++ first, back, ?_, rfl⟩
    · rw [byteLength_append]
      exact Nat.le_add_right _ _
    · rw [hback, List.append_assoc]
  · rintro offset ⟨hle, hoccurs⟩
    obtain ⟨front, after, hfront, rfl⟩ := exists_occurrence hoccurs hle
    obtain ⟨more, rfl⟩ : first <+: front :=
      List.prefix_of_prefix_length_le ⟨_, hback.symm⟩ ⟨_, hfront.symm⟩ (h.least front after hfront)
    simp only [byteLength_append]
    omega

theorem finds_find? (h : IsBoundary text start) (needle : List Char) :
    Finds text needle start ((ofText text).find? start needle) := by
  obtain ⟨before, ⟨rest, rfl⟩, rfl⟩ := h
  by_cases hoccurs : needle <:+: rest
  · obtain ⟨first, hfirst⟩ := exists_isFirst hoccurs
    have hprefix : before ++ first <+: before ++ rest := by
      obtain ⟨back, hback⟩ := hfirst.occurs
      exact ⟨needle ++ back, by rw [hback, List.append_assoc]⟩
    rw [find?_of_isFirst hfirst, ← location_eq_behind hprefix]
    exact .first (isLeast_of_isFirst hfirst)
  · rw [find?, restAt_ofText, search?_of_not_infix hoccurs, Option.map_none]
    refine .nowhere fun offset hle hat => ?_
    obtain ⟨front, after, hrest, -⟩ := exists_occurrence hat hle
    exact hoccurs ⟨front, after, by rw [hrest, List.append_assoc]⟩

end

/-- The place of a boundary is found by counting: its line by the line feeds in front of it, and its
column by the characters behind the last of them. So different boundaries have different places, in
the order of the text, and a search is placed where the needle occurs first. -/
theorem ofText_places (text : List Char) :
    (∀ before, before <+: text →
      (ofText text).location (byteLength before) =
        ⟨1 + before.count '\n', 1 + (before.reverse.takeWhile (· != '\n')).length⟩) ∧
    (∀ a b, IsBoundary text a → IsBoundary text b →
      ((ofText text).location a = (ofText text).location b ↔ a = b) ∧
        (((ofText text).location a).Precedes ((ofText text).location b) ↔ a < b)) ∧
    ∀ start needle, IsBoundary text start →
      Finds text needle start ((ofText text).find? start needle) := by
  refine ⟨fun before hbefore => ?_, fun a b ha hb => ?_, fun start needle hstart => ?_⟩
  · rw [location_eq_behind hbefore, Location.behind, Nat.add_comm 1, Nat.add_comm 1]
  · exact ⟨location_inj ha hb, location_precedes_iff ha hb⟩
  · exact finds_find? hstart needle

/-- The needle occurs before the search begins, too, and the last line has no end. -/
theorem ofText_places_letters :
    let text := "é\n\n𝒳n\nn".toList
    let before := "é\n\n𝒳".toList
    before <+: text ∧ IsBoundary text 9 ∧ IsBoundary text 11 ∧ byteLength before = 8 ∧
      (ofText text).location 8 = ⟨1 + 2, 1 + 1⟩ ∧
      ((ofText text).location 9).Precedes ((ofText text).location 11) ∧
      Finds text ['n'] 9 ((ofText text).find? 9 ['n']) ∧
      (ofText text).find? 9 ['n'] = some ⟨4, 1⟩ := by
  intro text before
  have hbefore : before <+: text := ⟨['n', '\n', 'n'], by decide +kernel⟩
  have hnine : IsBoundary text 9 :=
    ⟨"é\n\n𝒳n".toList, ⟨['\n', 'n'], by decide +kernel⟩, by decide +kernel⟩
  have hend : IsBoundary text 11 := ⟨text, List.prefix_rfl, by decide +kernel⟩
  obtain ⟨hcounts, hordered, hfinds⟩ := ofText_places text
  refine ⟨hbefore, hnine, hend, by decide +kernel, ?_, ?_, hfinds 9 ['n'] hnine, by decide +kernel⟩
  · exact hcounts before hbefore
  · exact (hordered 9 11 hnine hend).2.2 (by decide)

end LineIndex

end StepLinker.Text

import StepLinker.Declaration.Pattern
import Mathlib.Data.List.Basic

/-!
# Items and segments

A declaration compiles in three steps, and `ofDeclaration_eq_ok` takes them apart again. The items
are the declaration, piece by piece. `segments` walks over them once and gives up at the first one
that is at fault; if it gets to the end, its segments are the items with the literal text between
two placeholders joined (`Segmented`), whatever it counted on the way.
-/

namespace StepLinker

def Item.isPlaceholder : Item → Bool
  | placeholder _ _ => true
  | _ => false

def Item.hintedType (hint : Option (List Char)) : Option ArgumentType :=
  hint.bind fun cs => ArgumentType.ofHint? (String.ofList cs)

inductive Segmented : List Item → List Segment → Prop where
  | nil : Segmented [] []
  | literal {item : Item} {rest : List Item} {segs : List Segment} :
      item.isPlaceholder = false → Segmented rest segs →
        Segmented (item :: rest) (Segment.withLiteral item.literal segs)
  | placeholder {name : List Char} {hint : Option (List Char)} {rest : List Item}
      {segs : List Segment} : Segmented rest segs →
        Segmented (.placeholder name hint :: rest)
          (.placeholder (String.ofList name) (Item.hintedType hint) :: segs)

theorem Segment.withLiteral_eq (text : List Char) (segs : List Segment) :
    ∃ more rest, withLiteral text segs = .literal (text ++ more) :: rest := by
  unfold withLiteral
  split
  · next more rest => exact ⟨more, rest, rfl⟩
  · exact ⟨[], segs, by rw [List.append_nil]⟩

theorem Segmented.eq_placeholder {items : List Item} {segs more : List Segment} {name : String}
    {type : Option ArgumentType} (h : Segmented items segs)
    (hsegs : segs = .placeholder name type :: more) :
    ∃ chars hint rest, items = .placeholder chars hint :: rest := by
  cases h with
  | nil => cases hsegs
  | @literal item rest segs _ _ =>
    obtain ⟨text, tail, heq⟩ := Segment.withLiteral_eq item.literal segs
    rw [heq] at hsegs
    cases hsegs
  | placeholder _ => exact ⟨_, _, _, rfl⟩

theorem Segment.hintType_eq_ok {name : String} {hint : Option (List Char)}
    {type : Option ArgumentType} (h : Segment.hintType name hint = .ok type) :
    type = Item.hintedType hint := by
  unfold Segment.hintType at h
  split at h
  · cases h
    rfl
  · split at h
    · next hfound =>
      cases h
      exact hfound.symm
    · cases h

theorem segmented_of_segments {offset depth : Nat} {names : List String} {items : List Item}
    {segs : List Segment} (h : segments offset depth names items = .ok segs) :
    Segmented items segs := by
  induction items generalizing offset depth names segs with
  | nil =>
    unfold segments at h
    split at h
    · cases h
      exact .nil
    · cases h
  | cons item rest ih =>
    have hliteral {r : Except DeclarationError (List Segment)}
        (hr : r.map (Segment.withLiteral item.literal) = .ok segs)
        (hitem : item.isPlaceholder = false) (hrest : ∀ segs, r = .ok segs → Segmented rest segs) :
        Segmented (item :: rest) segs := by
      rcases r with e | segs'
      · cases hr
      · cases hr
        exact .literal hitem (hrest segs' rfl)
    cases item with
    | placeholder name hint =>
      simp only [segments, bind, Except.bind, pure, Except.pure] at h
      split at h
      · cases h
      · next type htype =>
        rw [Segment.hintType_eq_ok htype] at h
        split at h
        · cases h
        · split at h
          · cases h
          · next segs' hrest =>
            cases h
            exact .placeholder (ih hrest)
    | plain c => exact hliteral h rfl fun _ => ih
    | escape c => exact hliteral h rfl fun _ => ih
    | doubled b => exact hliteral h rfl fun _ => ih
    | stray b =>
      cases b with
      | opening => exact hliteral h rfl fun _ => ih
      | closing =>
        simp only [segments] at h
        split at h
        · cases h
        · exact hliteral h rfl fun _ => ih

theorem flatMap_source_items {offset : Nat} {text : List Char} {declared : List Item}
    (h : items offset text = .ok declared) : declared.flatMap Item.source = text := by
  fun_induction items offset text generalizing declared with
  | case1 =>
    cases h
    rfl
  | case2 => cases h
  | case3 => cases h
  | case4 offset c rest item rest' hnext more hmore ih =>
    cases h
    rw [List.flatMap_cons, ih hmore, Item.next_append hnext]

theorem Pattern.assemble_ne_nil {folded : Bool} {segs : List Segment} {name : String}
    {type : Option ArgumentType} (h : .placeholder name type ∈ segs) :
    assemble folded segs ≠ [] := by
  fun_induction assemble folded segs with
  | case1 => cases h
  | case2 => exact List.cons_ne_nil _ _
  | case3 => simp
  | case4 => simp
  | case5 folded text tokens rest hother ih =>
    have hrest := ih ((List.mem_cons.1 h).resolve_left nofun)
    simp [hrest]

theorem Pattern.ofDeclaration_eq_ok {declaration : String} {p : Pattern}
    (h : ofDeclaration declaration = .ok p) :
    ∃ declared segs, items 0 declaration.toList = .ok declared ∧
      segments 0 0 [] declared = .ok segs ∧ p.parts = assemble false segs := by
  unfold ofDeclaration at h
  simp only [bind, Except.bind] at h
  split at h
  · cases h
  · next declared hdeclared =>
    split at h
    · cases h
    · next segs hsegs =>
      split at h
      · cases h
      · cases h
        exact ⟨declared, segs, hdeclared, hsegs, rfl⟩

end StepLinker

import StepLinker.Declaration.Error
import StepLinker.Text.Blank
import StepLinker.Text.Bytes

/-!
# Items of a declaration

The reading of a declaration from left to right: a backslash with the character it protects, a
doubled brace, a placeholder, a stray brace, or any other character. An item is exactly the text
it was read from (`source`), so the sources of the items make up the declaration again. The only
way for a reading to fail is a brace that opens a placeholder and does not go on as one.
-/

namespace StepLinker

open Text

inductive Brace where
  | opening
  | closing
  deriving DecidableEq, Repr

def Brace.toChar : Brace → Char
  | opening => '{'
  | closing => '}'

inductive Item where
  | plain (char : Char)
  /-- A backslash and the character after it, if the declaration does not end there. -/
  | escape (char : Option Char)
  /-- A brace written twice stands for one brace of text. -/
  | doubled (brace : Brace)
  /-- A single brace that opens no placeholder. -/
  | stray (brace : Brace)
  | placeholder (name : List Char) (hint : Option (List Char))
  deriving DecidableEq, Repr

namespace Item

def source : Item → List Char
  | plain c => [c]
  | escape c => '\\' :: c.toList
  | doubled b => [b.toChar, b.toChar]
  | stray b => [b.toChar]
  | placeholder name none => '{' :: name ++ ['}']
  | placeholder name (some hint) => '{' :: name ++ ':' :: hint ++ ['}']

/-- The text the item stands for, if it is no placeholder. A backslash stays, for it protects its
character in a statement too. -/
def literal : Item → List Char
  | plain c => [c]
  | escape c => '\\' :: c.toList
  | doubled b => [b.toChar]
  | stray b => [b.toChar]
  | placeholder _ _ => []

/-- The characters with which the name of a placeholder may begin. They are ASCII. -/
def isNameStart (c : Char) : Bool :=
  c.isAlpha || c = '_'

/-- The characters of which the name of a placeholder consists. They are ASCII. -/
def isNameChar (c : Char) : Bool :=
  c.isAlphanum || c = '_'

def isHint (cs : List Char) : Bool :=
  !cs.isEmpty && cs.all fun c => !isBlank c && c != '{'

/-- The placeholder whose brace stands at byte `start`, read from the text after the brace, and
what follows its closing brace. -/
def readPlaceholder (start : Nat) (cs : List Char) :
    Except DeclarationError (Item × List Char) :=
  let name := cs.takeWhile isNameChar
  match cs.dropWhile isNameChar with
  | '}' :: rest => .ok (placeholder name none, rest)
  | ':' :: more =>
    match more.dropWhile (· != '}') with
    | [] => .error (.unclosedPlaceholder start (String.ofList name))
    | _ :: rest =>
      let hint := more.takeWhile (· != '}')
      if isHint hint then .ok (placeholder name (some hint), rest)
      else .error (.malformedPlaceholder start (String.ofList name))
  | [] => .error (.unclosedPlaceholder start (String.ofList name))
  | _ => .error (.malformedPlaceholder start (String.ofList name))

def opensPlaceholder : List Char → Bool
  | [] => false
  | c :: _ => isNameStart c

/-- The first item of the text `c :: rest`, which stands at byte `start`, and what follows it. -/
def next (start : Nat) (c : Char) (rest : List Char) :
    Except DeclarationError (Item × List Char) :=
  if c = '\\' then .ok (escape rest.head?, rest.tail)
  else if c = '{' then
    if rest.head? = some '{' then .ok (doubled .opening, rest.tail)
    else if opensPlaceholder rest then readPlaceholder start rest
    else .ok (stray .opening, rest)
  else if c = '}' then
    if rest.head? = some '}' then .ok (doubled .closing, rest.tail)
    else .ok (stray .closing, rest)
  else .ok (plain c, rest)

/-! ## Nothing is lost

The source of an item and what follows it are the text it was taken from. -/

theorem dropWhile_ne_head {cs rest : List Char} {c d : Char}
    (h : cs.dropWhile (· != d) = c :: rest) : c = d := by
  have := List.head?_dropWhile_not (· != d) cs
  rw [h] at this
  simpa using this

theorem readPlaceholder_append {start : Nat} {cs rest : List Char} {item : Item}
    (h : readPlaceholder start cs = .ok (item, rest)) : item.source ++ rest = '{' :: cs := by
  unfold readPlaceholder at h
  dsimp only at h
  have hname := List.takeWhile_append_dropWhile (p := isNameChar) (l := cs)
  generalize cs.takeWhile isNameChar = name at h hname
  split at h
  · next heq =>
    cases h
    rw [heq] at hname
    simp [source, hname]
  · next more heq =>
    rw [heq] at hname
    split at h
    · cases h
    · next c rest' heq' =>
      have hhint := List.takeWhile_append_dropWhile (p := (· != '}')) (l := more)
      generalize more.takeWhile (· != '}') = hint at h hhint
      split at h
      · cases h
        rw [heq', dropWhile_ne_head heq'] at hhint
        simp [source, hhint, hname]
      · cases h
  · cases h
  · cases h

theorem next_append {start : Nat} {c : Char} {rest rest' : List Char} {item : Item}
    (h : next start c rest = .ok (item, rest')) : item.source ++ rest' = c :: rest := by
  unfold next at h
  split at h
  · cases h; subst_vars; cases rest <;> rfl
  · split at h
    · subst_vars
      split at h
      · next hd =>
        cases h
        cases rest with
        | nil => simp at hd
        | cons d ds => simp at hd; subst hd; rfl
      · split at h
        · exact readPlaceholder_append h
        · cases h; rfl
    · split at h
      · subst_vars
        split at h
        · next hd =>
          cases h
          cases rest with
          | nil => simp at hd
          | cons d ds => simp at hd; subst hd; rfl
        · cases h; rfl
      · cases h; rfl

theorem source_ne_nil (item : Item) : item.source ≠ [] := by
  unfold source
  split <;> simp

theorem length_next {start : Nat} {c : Char} {rest rest' : List Char} {item : Item}
    (h : next start c rest = .ok (item, rest')) : rest'.length < (c :: rest).length := by
  have hlen := congrArg List.length (next_append h)
  have hpos := List.length_pos_iff.mpr (source_ne_nil item)
  simp only [List.length_append] at hlen
  omega

end Item

/-- The items of a text that stands at byte `start` of a declaration. -/
def items (start : Nat) : List Char → Except DeclarationError (List Item)
  | [] => .ok []
  | c :: rest =>
    match _h : Item.next start c rest with
    | .error e => .error e
    | .ok (item, rest') =>
      match items (start + byteLength item.source) rest' with
      | .error e => .error e
      | .ok more => .ok (item :: more)
termination_by cs => cs.length
decreasing_by exact Item.length_next _h

end StepLinker

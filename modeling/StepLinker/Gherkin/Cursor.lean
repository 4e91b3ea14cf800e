import StepLinker.Text.Bytes

/-!
# Cursors

A parser takes what it recognises off the text at a cursor, or fails and leaves the cursor where it
is. Choices are ordered and repetitions greedy: what has been taken is not given back. A repetition
ends when its parser fails or takes nothing, so it always ends.
-/

namespace StepLinker.Gherkin

/-- A place in a text: what is left of it, and the byte offset of that. -/
structure Cursor where
  offset : Nat
  rest : List Char
  /-- The number of characters that are left. -/
  size : Nat
  size_eq : size = rest.length
  deriving DecidableEq, Repr

def Cursor.ofText (text : List Char) : Cursor :=
  ⟨0, text, text.length, rfl⟩

abbrev Parser := StateT Cursor Option

namespace Parser

variable {α β σ : Type}

def offset : Parser Nat := fun c =>
  some (c.offset, c)

def skip (n : Nat) : Parser Unit := fun c =>
  some ((), ⟨c.offset + Text.byteLength (c.rest.take n), c.rest.drop n, c.size - n,
    by simp [c.size_eq]⟩)

/-- Takes the characters up to the first that fails `p`. -/
def takeWhile (p : Char → Bool) : Parser (List Char) := do
  let taken := (← get).rest.takeWhile p
  skip taken.length
  return taken

def word (w : List Char) : Parser Unit := do
  if w.isPrefixOf (← get).rest then skip w.length else failure

def atEnd : Parser Unit := do
  if (← get).rest.isEmpty then pure () else failure

/-- Takes nothing, and succeeds where `p` fails. -/
def no (p : Parser α) : Parser Unit := fun c =>
  match p c with
  | some _ => none
  | none => some ((), c)

def opt (p : Parser α) : Parser (Option α) :=
  (some <$> p) <|> pure none

/-- `p`, as long as it takes something. -/
def taking (p : Parser α) : Parser α := fun c =>
  (p c).filter fun (_, c') => c'.size < c.size

/-- Repeats `p`, which passes a state from one time to the next. -/
def iterate (p : σ → Parser (α × σ)) (s : σ) (c : Cursor) : List α × Cursor :=
  match p s c with
  | none => ([], c)
  | some ((a, s'), c') =>
    if c'.size < c.size then
      let (more, c'') := iterate p s' c'
      (a :: more, c'')
    else ([], c)
termination_by c.size

def many (p : Parser α) : Parser (List α) := fun c =>
  some (iterate (fun _ => (·, ()) <$> p) () c)

/-- `p` at least once, with `separator` in between. -/
def sepBy1 (p : Parser α) (separator : Parser β) : Parser (List α) := do
  let first ← p
  return first :: (← many (separator *> p))

def sepBy (p : Parser α) (separator : Parser β) : Parser (List α) :=
  sepBy1 p separator <|> pure []

end Parser

end StepLinker.Gherkin

import StepLinker.Json.Value

/-!
# Reading JSON

A strict reader: no mark at the front, no comments, no superfluous commas or zeros, no control
characters in strings, and surrogates only in pairs. A step of the reader takes a value, a member,
an element or a character of a string off the front of a text. Of two steps, one inside the other,
at least one takes a character of its own, so a text of `n` characters needs no more than
`2 * n + 2` of them.
-/

namespace StepLinker.Json

def isSpace (c : Char) : Bool :=
  c = ' ' || c = '\n' || c = '\r' || c = '\t'

def skipSpace (cs : List Char) : List Char :=
  cs.dropWhile isSpace

/-! ## Strings -/

def hexValue? (c : Char) : Option Nat :=
  if c.isDigit then some (c.toNat - '0'.toNat)
  else if 'a' ≤ c && c ≤ 'f' then some (c.toNat - 'a'.toNat + 10)
  else if 'A' ≤ c && c ≤ 'F' then some (c.toNat - 'A'.toNat + 10)
  else none

/-- The number written with the first four characters in base sixteen. -/
def hex4? : List Char → Option (Nat × List Char)
  | a :: b :: c :: d :: rest => do
    let digits ← [a, b, c, d].mapM hexValue?
    some (digits.foldl (fun n d => 16 * n + d) 0, rest)
  | _ => none

/-- The character whose UTF-16 code begins with `unit`, with what follows its escape. A high
surrogate needs a low one after it. -/
def utf16? (unit : Nat) (rest : List Char) : Option (Char × List Char) :=
  if unit < 0xD800 || 0xDFFF < unit then some (Char.ofNat unit, rest)
  else if 0xDC00 ≤ unit then none
  else
    match rest with
    | '\\' :: 'u' :: rest => do
      let (low, rest) ← hex4? rest
      if 0xDC00 ≤ low && low ≤ 0xDFFF then
        some (Char.ofNat (0x10000 + (unit - 0xD800) * 0x400 + (low - 0xDC00)), rest)
      else none
    | _ => none

/-- The character that an escape stands for, read after its backslash. -/
def escaped? : List Char → Option (Char × List Char)
  | '"' :: rest => some ('"', rest)
  | '\\' :: rest => some ('\\', rest)
  | '/' :: rest => some ('/', rest)
  | 'b' :: rest => some ('\x08', rest)
  | 'f' :: rest => some ('\x0c', rest)
  | 'n' :: rest => some ('\n', rest)
  | 'r' :: rest => some ('\r', rest)
  | 't' :: rest => some ('\t', rest)
  | 'u' :: rest => do
    let (unit, rest) ← hex4? rest
    utf16? unit rest
  | _ => none

/-- The rest of a string after its opening quote. -/
def stringTail? : Nat → List Char → Option (List Char × List Char)
  | 0, _ => none
  | _, [] => none
  | fuel + 1, c :: cs =>
    if c = '"' then some ([], cs)
    else if c = '\\' then do
      let (d, rest) ← escaped? cs
      let (ds, rest) ← stringTail? fuel rest
      some (d :: ds, rest)
    else if c.toNat < 0x20 then none
    else do
      let (ds, rest) ← stringTail? fuel cs
      some (c :: ds, rest)

/-! ## Numbers -/

def digits? (cs : List Char) : Option (List Char × List Char) :=
  if cs.head?.any Char.isDigit then some (cs.takeWhile Char.isDigit, cs.dropWhile Char.isDigit)
  else none

/-- Digits that do not begin with a superfluous zero. -/
def whole? : List Char → Option (List Char × List Char)
  | '0' :: cs => if cs.head?.any Char.isDigit then none else some (['0'], cs)
  | cs => digits? cs

def fraction? : List Char → Option (List Char × List Char)
  | '.' :: cs => do
    let (ds, rest) ← digits? cs
    some ('.' :: ds, rest)
  | cs => some ([], cs)

def exponent? : List Char → Option (List Char × List Char)
  | [] => some ([], [])
  | c :: cs =>
    if c = 'e' || c = 'E' then
      let sign := cs.take (if cs.head? = some '+' || cs.head? = some '-' then 1 else 0)
      do
        let (ds, rest) ← digits? (cs.drop sign.length)
        some (c :: sign ++ ds, rest)
    else some ([], c :: cs)

def number? (cs : List Char) : Option (Value × List Char) := do
  let sign := cs.take (if cs.head? = some '-' then 1 else 0)
  let (whole, rest) ← whole? (cs.drop sign.length)
  let (fraction, rest) ← fraction? rest
  let (exponent, rest) ← exponent? rest
  some (.number (String.ofList (sign ++ whole ++ fraction ++ exponent)), rest)

/-! ## Values -/

def after? (word : String) (cs : List Char) : Option (List Char) :=
  if word.toList.isPrefixOf cs then some (cs.drop word.length) else none

/-- What follows the character, with blanks before it. -/
def punctuation? (c : Char) (cs : List Char) : Option (List Char) :=
  match skipSpace cs with
  | [] => none
  | d :: rest => if d = c then some rest else none

def name? (fuel : Nat) (cs : List Char) : Option (String × List Char) := do
  let rest ← punctuation? '"' cs
  let (name, rest) ← stringTail? fuel rest
  let rest ← punctuation? ':' rest
  some (String.ofList name, rest)

mutual

/-- A value at the front of the text, with blanks before it. -/
def value? : Nat → List Char → Option (Value × List Char)
  | 0, _ => none
  | fuel + 1, cs =>
    match skipSpace cs with
    | '[' :: rest =>
      match punctuation? ']' rest with
      | some rest => some (.array [], rest)
      | none => (elements? fuel rest).map fun (vs, rest) => (.array vs, rest)
    | '{' :: rest =>
      match punctuation? '}' rest with
      | some rest => some (.object [], rest)
      | none => (members? fuel rest).map fun (ms, rest) => (.object ms, rest)
    | '"' :: rest =>
      (stringTail? fuel rest).map fun (s, rest) => (.string (String.ofList s), rest)
    | rest =>
      (after? "null" rest).map (.null, ·) <|> (after? "true" rest).map (.bool true, ·) <|>
        (after? "false" rest).map (.bool false, ·) <|> number? rest

/-- The elements of an array, up to its closing bracket. There is at least one. -/
def elements? : Nat → List Char → Option (List Value × List Char)
  | 0, _ => none
  | fuel + 1, cs => do
    let (v, rest) ← value? fuel cs
    match punctuation? ',' rest with
    | some rest =>
      let (vs, rest) ← elements? fuel rest
      some (v :: vs, rest)
    | none =>
      let rest ← punctuation? ']' rest
      some ([v], rest)

/-- The members of an object, up to its closing brace. There is at least one. -/
def members? : Nat → List Char → Option (List (String × Value) × List Char)
  | 0, _ => none
  | fuel + 1, cs => do
    let (k, rest) ← name? fuel cs
    let (v, rest) ← value? fuel rest
    match punctuation? ',' rest with
    | some rest =>
      let (ms, rest) ← members? fuel rest
      some ((k, v) :: ms, rest)
    | none =>
      let rest ← punctuation? '}' rest
      some ([(k, v)], rest)

end

/-- The value that a text denotes, with nothing but blanks around it. -/
def Value.ofText? (text : String) : Option Value := do
  let cs := text.toList
  let (v, rest) ← value? (2 * cs.length + 2) cs
  if (skipSpace rest).isEmpty then some v else none

end StepLinker.Json

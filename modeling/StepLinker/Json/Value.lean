/-!
# JSON values

Documents as data, and their printed form with two blanks of indentation for each level. A number
keeps the literal it is written with, and an object its members in order, repeated names and all.
-/

namespace StepLinker.Json

inductive Value where
  | null
  | bool (b : Bool)
  | number (literal : String)
  | string (s : String)
  | array (elements : List Value)
  | object (members : List (String × Value))
  deriving Repr

def hexDigit (n : Nat) : Char :=
  if n < 10 then Char.ofNat ('0'.toNat + n) else Char.ofNat ('a'.toNat + (n - 10))

/-- A character as it stands in a string. Quotes, backslashes and control characters are escaped,
the common ones by a letter. -/
def escape (c : Char) : List Char :=
  match c with
  | '"' => ['\\', '"']
  | '\\' => ['\\', '\\']
  | '\n' => ['\\', 'n']
  | '\r' => ['\\', 'r']
  | '\t' => ['\\', 't']
  | '\x08' => ['\\', 'b']
  | '\x0c' => ['\\', 'f']
  | c =>
    if c.toNat < 0x20 then
      ['\\', 'u', '0', '0', hexDigit (c.toNat / 16), hexDigit (c.toNat % 16)]
    else [c]

def quoted (s : String) : String :=
  String.ofList ('"' :: s.toList.flatMap escape ++ ['"'])

def newline (level : Nat) : String :=
  String.ofList ('\n' :: List.replicate (2 * level) ' ')

/-- Printed parts between brackets, each on a line of its own at the level below. Without parts the
brackets stand together. -/
def bracketed (level : Nat) (opening closing : String) (parts : List String) : String :=
  if parts.isEmpty then opening ++ closing
  else
    opening ++ newline (level + 1) ++ ("," ++ newline (level + 1)).intercalate parts ++
      newline level ++ closing

mutual

/-- The printed form of a value that begins at the given level. -/
def Value.pretty (level : Nat) : Value → String
  | .null => "null"
  | .bool b => if b then "true" else "false"
  | .number literal => literal
  | .string s => quoted s
  | .array vs => bracketed level "[" "]" (prettyElements (level + 1) vs)
  | .object ms => bracketed level "\x7b" "\x7d" (prettyMembers (level + 1) ms)

def prettyElements (level : Nat) : List Value → List String
  | [] => []
  | v :: vs => v.pretty level :: prettyElements level vs

def prettyMembers (level : Nat) : List (String × Value) → List String
  | [] => []
  | (k, v) :: ms => (quoted k ++ ": " ++ v.pretty level) :: prettyMembers level ms

end

def Value.ofNat (n : Nat) : Value :=
  .number (toString n)

end StepLinker.Json

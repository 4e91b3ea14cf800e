import StepLinker.ArgumentType
import StepLinker.Text.Bytes

/-!
# Tokens

A statement is read as a sequence of tokens. A token knows the byte it starts at and the text it
covers; its kind says what the text stands for.
-/

namespace StepLinker

/-- The marks that may stand around an argument. -/
inductive QuoteMark where
  | single
  | double
  deriving DecidableEq, Repr

namespace QuoteMark

def toChar : QuoteMark → Char
  | single => '\''
  | double => '"'

def ofChar? (c : Char) : Option QuoteMark :=
  if c = '\'' then some single else if c = '"' then some double else none

end QuoteMark

inductive TokenKind where
  /-- Characters without a gap that form no number. -/
  | word
  | quote (mark : QuoteMark)
  /-- A backslash and the character it protects. -/
  | escaped (char : Char)
  /-- An optional sign and digits. -/
  | integer
  /-- An optional sign, digits, a point and digits. -/
  | decimal
  /-- A name between angle brackets, filled in from an examples table. -/
  | parameter (name : String)
  /-- The colon before the name of a value that is looked up when the step runs. -/
  | interpolation
  /-- A punctuation mark, or a backslash at the end of the statement. -/
  | punctuation
  deriving DecidableEq, Repr

namespace TokenKind

/-- Whether the value is only known when the step runs. -/
def isDynamic : TokenKind → Bool
  | parameter _ => true
  | interpolation => true
  | _ => false

/-- The type of a value that is this token alone, if it is known before the step runs. -/
def type? : TokenKind → Option ArgumentType
  | word => some .text
  | quote _ => some .text
  | escaped _ => some .text
  | integer => some .integer
  | decimal => some .decimal
  | parameter _ => none
  | interpolation => none
  | punctuation => some .text

/-- Whether the token may stand for a numeric argument that has no quotes. -/
def mayBeNumber : TokenKind → Bool
  | integer => true
  | decimal => true
  | parameter _ => true
  | _ => false

end TokenKind

structure Token where
  /-- The byte offset of the first character. -/
  start : Nat
  text : String
  kind : TokenKind
  deriving DecidableEq, Repr

namespace Token

def length (t : Token) : Nat :=
  Text.byteLength t.text.toList

/-- The byte offset after the last character. -/
def stop (t : Token) : Nat :=
  t.start + t.length

end Token

end StepLinker

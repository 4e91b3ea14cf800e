/-!
# Argument types

The types an argument of a step may have, from the least to the most strict. An integer passes
wherever a decimal number or a text is asked for, and a text only where a text is.
-/

namespace StepLinker

inductive ArgumentType where
  | text
  | decimal
  | integer
  deriving DecidableEq, Repr

namespace ArgumentType

def strictness : ArgumentType → Nat
  | text => 0
  | decimal => 1
  | integer => 2

/-- Whether a value of this type may stand where `wanted` is asked for. -/
def satisfies (type wanted : ArgumentType) : Bool :=
  decide (wanted.strictness ≤ type.strictness)

def isNumeric : ArgumentType → Bool
  | text => false
  | decimal => true
  | integer => true

def name : ArgumentType → String
  | text => "text"
  | decimal => "decimal"
  | integer => "int"

/-- The words that may stand for the type in a declaration. -/
def spellings : ArgumentType → List String
  | text => ["text", "string", "str"]
  | decimal => ["decimal", "float", "double", "number", "f32", "f64"]
  | integer =>
    ["int", "integer", "long", "u8", "u16", "u32", "u64", "u128", "usize", "i8", "i16", "i32",
      "i64", "i128", "isize"]

/-- The type a hint names, if it names one. ASCII letters count in either case. -/
def ofHint? (hint : String) : Option ArgumentType :=
  [text, decimal, integer].find? fun type => type.spellings.contains hint.toLower

end ArgumentType

end StepLinker

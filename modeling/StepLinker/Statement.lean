import StepLinker.Statement.Lexeme

/-!
# Statements

The text of a step, or of a literal run of a declaration, with its tokens. Blank characters
separate tokens and belong to none, so the tokens and the gaps between them make up the text.
-/

namespace StepLinker

/-- The tokens among the lexemes, the first lexeme standing at byte `offset`. -/
def Token.place (offset : Nat) : List Lexeme → List Token
  | [] => []
  | .blank c :: rest => place (offset + c.utf8Size) rest
  | .token kind text :: rest =>
    ⟨offset, String.ofList text, kind⟩ :: place (offset + Text.byteLength text) rest

def Token.ofText (text : List Char) : List Token :=
  place 0 (lexemes true text)

structure Statement where
  text : String
  tokens : Array Token
  /-- The tokens are those of the text. -/
  tokenised : tokens = (Token.ofText text.toList).toArray
  deriving DecidableEq, Repr

namespace Statement

def ofText (text : String) : Statement :=
  ⟨text, (Token.ofText text.toList).toArray, rfl⟩

def length (s : Statement) : Nat :=
  s.tokens.size

/-- The text from the first byte of token `first` to the last byte of token `last`, and nothing if
either is missing or `last` ends before `first` starts. -/
def slice (s : Statement) (first last : Nat) : String :=
  match s.tokens[first]?, s.tokens[last]? with
  | some a, some b =>
    if a.start ≤ b.stop then String.ofList (Text.byteSlice s.text.toList a.start b.stop) else ""
  | _, _ => ""

/-- Whether blank characters stand between token `i` and the token after it. -/
def hasGapAfter (s : Statement) (i : Nat) : Bool :=
  match s.tokens[i]?, s.tokens[i + 1]? with
  | some a, some b => decide (a.stop < b.start)
  | _, _ => false

end Statement

end StepLinker

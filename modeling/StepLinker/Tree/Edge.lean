import StepLinker.Declaration.Pattern

/-!
# Edges

An edge of the matching tree is a part of a declaration without the name of its placeholder, so
declarations that differ only in names share a path. The word of an edge is one token of a
statement, a quoted argument reaches to the next mark of its kind, a number is one token, and any
other argument is free: it is one or more tokens.
-/

namespace StepLinker

inductive Edge where
  | word (text : String)
  | argument (hint : Option ArgumentType) (quote : Option QuoteMark)
  deriving DecidableEq, Repr

def Part.edge : Part → Edge
  | word text => .word text
  | argument p => .argument p.hint p.quote

def Pattern.edges (p : Pattern) : List Edge :=
  p.parts.map Part.edge

/-- The tokens an argument takes up, `start` to `stop` without the last, and whether the first and
the last of them are quote marks around its value. -/
structure Span where
  start : Nat
  stop : Nat
  opened : Bool
  closed : Bool
  deriving DecidableEq, Repr

/-- The tokens of the value itself, without the quote marks around it. -/
def Span.content (s : Span) : Nat × Nat :=
  let first := s.start + s.opened.toNat
  (first, max first (s.stop - s.closed.toNat))

namespace Edge

def isWord : Edge → Bool
  | word _ => true
  | argument _ _ => false

/-- Whether the edge is an argument of any number of tokens. -/
def isFree : Edge → Bool
  | argument hint none => !hint.any (·.isNumeric)
  | _ => false

/-- Whether token `i` is there and satisfies `p`. -/
def tokenAt (tokens : Array Token) (i : Nat) (p : Token → Bool) : Bool :=
  tokens[i]?.any p

/-- The first quote mark of the kind among the `n` tokens from `i` on. -/
def firstMark? (tokens : Array Token) (mark : QuoteMark) (i : Nat) : Nat → Option Nat
  | 0 => none
  | n + 1 =>
    if tokenAt tokens i (·.kind = .quote mark) then some i else firstMark? tokens mark (i + 1) n

/-- Where the quote mark at `i` is matched by another. -/
def closing? (tokens : Array Token) (mark : QuoteMark) (i : Nat) : Option Nat :=
  firstMark? tokens mark (i + 1) (tokens.size - (i + 1))

/-- The position to which an edge that is not free leads from token `i`. -/
def stop? (tokens : Array Token) (i : Nat) : Edge → Option Nat
  | word text => if tokenAt tokens i (·.text = text) then some (i + 1) else none
  | argument _ (some mark) =>
    if tokenAt tokens i (·.kind = .quote mark) then (closing? tokens mark i).map (· + 1) else none
  | argument _ none => if tokenAt tokens i (·.kind.mayBeNumber) then some (i + 1) else none

def span? (start stop : Nat) : Edge → Option Span
  | word _ => none
  | argument _ quote => some ⟨start, stop, quote.isSome, quote.isSome⟩

/-- Whether `text` is a beginning of `whole` and not all of it. -/
def isBeginning (text whole : String) : Bool :=
  text.toList.isPrefixOf whole.toList && text != whole

/-- Whether a statement that breaks off in the middle of the edge may have got this far: the edge
is a word of which the last token is the beginning, or an argument whose quote mark at `i` is never
matched. -/
def breaksOff (tokens : Array Token) (i : Nat) : Edge → Bool
  | word text => i + 1 = tokens.size && tokenAt tokens i (isBeginning ·.text text)
  | argument _ (some mark) =>
    tokenAt tokens i (·.kind = .quote mark) && (closing? tokens mark i).isNone
  | argument _ none => false

def brokenSpan? (tokens : Array Token) (start : Nat) : Edge → Option Span
  | word _ => none
  | argument _ _ => some ⟨start, tokens.size, true, false⟩

end Edge

end StepLinker

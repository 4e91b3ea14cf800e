import StepLinker.Statement.Token
import StepLinker.Text.Blank
import StepLinker.Text.Numeric

/-!
# Lexemes

The reading of a statement as blank characters and token texts, before any position is known.
`next` takes the first lexeme off a text and `lexemes` repeats it, so the texts of the lexemes are
the statement itself, piece by piece. A lexeme depends on what follows it and on one fact about
what precedes it: whether a colon may open an interpolation there.
-/

namespace StepLinker

open Text

inductive Lexeme where
  | blank (char : Char)
  | token (kind : TokenKind) (text : List Char)
  deriving DecidableEq, Repr

namespace Lexeme

def chars : Lexeme → List Char
  | blank c => [c]
  | token _ text => text

/-- The marks that always form a token of their own. -/
def isPunctuation (c : Char) : Bool :=
  [',', '.', ';', ':', '!', '?', '(', ')', '[', ']', '{', '}', '<', '>'].contains c

/-- The characters of which words and numbers consist. -/
def isWordChar (c : Char) : Bool :=
  !isBlank c && (QuoteMark.ofChar? c).isNone && c != '\\' && !isPunctuation c

/-- The characters with which a name may begin. -/
def isNameStart (c : Char) : Bool :=
  isAlphabetic c || c = '_'

/-- The characters that may stand in the name of a parameter. -/
def isNameChar (c : Char) : Bool :=
  isAlphanumeric c || c = '_' || c = '-' || c = ' '

def startsName : List Char → Bool
  | [] => false
  | c :: _ => isNameStart c

/-- Whether a colon after `c` may open an interpolation. -/
def isBoundary (c : Char) : Bool :=
  isBlank c || (QuoteMark.ofChar? c).isSome

/-- Whether a colon after the lexeme may open an interpolation. -/
def endsAtBoundary (l : Lexeme) : Bool :=
  l.chars.getLast?.all isBoundary

/-- The text without one sign in front. -/
def unsigned : List Char → List Char
  | '+' :: cs => cs
  | '-' :: cs => cs
  | cs => cs

/-- Whether the text is one or more ASCII digits. -/
def isDigits (cs : List Char) : Bool :=
  !cs.isEmpty && cs.all Char.isDigit

/-- Whether the text is an optional sign and digits. -/
def isInteger (cs : List Char) : Bool :=
  isDigits (unsigned cs)

/-- Whether the text is an optional sign, digits, one point and digits. -/
def isDecimal (cs : List Char) : Bool :=
  match (unsigned cs).dropWhile Char.isDigit with
  | '.' :: fraction => isDigits ((unsigned cs).takeWhile Char.isDigit) && isDigits fraction
  | _ => false

def runKind (run : List Char) : TokenKind :=
  if isInteger run then .integer else if isDecimal run then .decimal else .word

/-- Where a number goes on behind a point: the text after the point, if a digit opens it. -/
def fraction? : List Char → Option (List Char)
  | '.' :: d :: cs => if d.isDigit then some (d :: cs) else none
  | _ => none

/-- The run of word characters at the front, and what follows it. A run that is an integer so far
takes in a point with a digit behind it and goes on. -/
def splitRun (cs : List Char) : List Char × List Char :=
  let run := cs.takeWhile isWordChar
  let rest := cs.dropWhile isWordChar
  match if isInteger run then fraction? rest else none with
  | some more => (run ++ '.' :: more.takeWhile isWordChar, more.dropWhile isWordChar)
  | none => (run, rest)

/-- The name of the parameter whose opening bracket precedes the text, and what follows the closing
one. -/
def parameter? (cs : List Char) : Option (List Char × List Char) :=
  if startsName cs then
    match cs.dropWhile isNameChar with
    | '>' :: rest => some (cs.takeWhile isNameChar, rest)
    | _ => none
  else none

/-- The first lexeme of the text `c :: rest`, and what follows it. -/
def next (boundary : Bool) (c : Char) (rest : List Char) : Lexeme × List Char :=
  if isBlank c then (.blank c, rest)
  else if c = '\\' then
    match rest with
    | [] => (.token .punctuation [c], [])
    | e :: rest => (.token (.escaped e) [c, e], rest)
  else match QuoteMark.ofChar? c with
  | some mark => (.token (.quote mark) [c], rest)
  | none =>
    if c = '<' then
      match parameter? rest with
      | some (name, rest) =>
        (.token (.parameter (String.ofList (trim name))) (c :: name ++ ['>']), rest)
      | none => (.token .punctuation [c], rest)
    else if c = ':' && boundary && startsName rest then (.token .interpolation [c], rest)
    else if isPunctuation c then (.token .punctuation [c], rest)
    else
      let (run, rest) := splitRun (c :: rest)
      (.token (runKind run) run, rest)

/-! ## Nothing is lost

The characters of a lexeme and what follows it are the text it was taken from. -/

theorem splitRun_append (cs : List Char) : (splitRun cs).1 ++ (splitRun cs).2 = cs := by
  unfold splitRun
  dsimp only
  split
  · next more h =>
    have hf : fraction? (cs.dropWhile isWordChar) = some more := by
      split at h
      · exact h
      · cases h
    have hd : cs.dropWhile isWordChar = '.' :: more := by
      unfold fraction? at hf
      split at hf
      · next d tail heq =>
        split at hf
        · cases hf; exact heq
        · cases hf
      · cases hf
    simp only [List.append_assoc, List.cons_append, List.takeWhile_append_dropWhile]
    rw [← hd, List.takeWhile_append_dropWhile]
  · exact List.takeWhile_append_dropWhile

theorem parameter?_append {cs name rest : List Char} (h : parameter? cs = some (name, rest)) :
    name ++ '>' :: rest = cs := by
  unfold parameter? at h
  split at h
  · split at h
    · next heq =>
      cases h
      rw [← heq, List.takeWhile_append_dropWhile]
    · cases h
  · cases h

theorem next_append (boundary : Bool) (c : Char) (rest : List Char) :
    (next boundary c rest).1.chars ++ (next boundary c rest).2 = c :: rest := by
  unfold next
  split
  · rfl
  · split
    · split <;> rfl
    · split
      · rfl
      · split
        · split
          · next heq => simp [chars, ← parameter?_append heq]
          · rfl
        · split
          · rfl
          · split
            · rfl
            · exact splitRun_append (c :: rest)

theorem splitRun_ne_nil {c : Char} {cs : List Char} (h : isWordChar c) :
    (splitRun (c :: cs)).1 ≠ [] := by
  unfold splitRun
  dsimp only
  split <;> simp [h]

theorem chars_next_ne_nil (boundary : Bool) (c : Char) (rest : List Char) :
    (next boundary c rest).1.chars ≠ [] := by
  unfold next
  split
  · simp [chars]
  · split
    · split <;> simp [chars]
    · split
      · simp [chars]
      · split
        · split <;> simp [chars]
        · split
          · simp [chars]
          · split
            · simp [chars]
            · refine splitRun_ne_nil ?_
              simp_all [isWordChar]

theorem length_next (boundary : Bool) (c : Char) (rest : List Char) :
    (next boundary c rest).2.length < (c :: rest).length := by
  have h := congrArg List.length (next_append boundary c rest)
  have hpos := List.length_pos_iff.mpr (chars_next_ne_nil boundary c rest)
  simp only [List.length_append] at h
  omega

end Lexeme

/-- The lexemes of a text. `boundary` says whether a colon at its front may open an
interpolation. -/
def lexemes (boundary : Bool) : List Char → List Lexeme
  | [] => []
  | c :: rest =>
    (Lexeme.next boundary c rest).1 ::
      lexemes (Lexeme.next boundary c rest).1.endsAtBoundary (Lexeme.next boundary c rest).2
termination_by cs => cs.length
decreasing_by exact Lexeme.length_next boundary c rest

end StepLinker

import StepLinker.Gherkin.Cursor
import StepLinker.Gherkin.Dialect
import StepLinker.Gherkin.Document
import StepLinker.Text.Blank

/-!
# The grammar of Gherkin

From a feature file to a document. Every parser here is one rule of the grammar; the dialect is
passed along since the directive at the head of a file can choose another. The grammar stands in
for that of a library, with fewer languages. What is proved about steps and their places starts from
a document, whoever read it.
-/

namespace StepLinker.Gherkin

open Gherkin.Parser Text

namespace Grammar

/-! ## Lines -/

def isBlankInLine (c : Char) : Bool :=
  c = ' ' || c = '\t'

def blanks : Parser Unit := do
  let _ ← Parser.takeWhile isBlankInLine

/-- The characters that end a line. -/
def lineEnd : Parser Unit :=
  word ['\r', '\n'] <|> word ['\n']

/-- Whether a line ends where the text begins. -/
def isAtLineEnd : List Char → Bool
  | '\n' :: _ => true
  | '\r' :: '\n' :: _ => true
  | _ => false

/-- The number of characters before the first place where `p` holds of what is left. -/
def distance (p : List Char → Bool) : List Char → Nat
  | [] => 0
  | c :: cs => if p (c :: cs) then 0 else distance p cs + 1

/-- The characters before the first place where `p` holds of what is left. -/
def takeUntil (p : List Char → Bool) : Parser (List Char) := do
  let cs := (← get).rest
  let n := distance p cs
  skip n
  return cs.take n

def restOfLine : Parser (List Char) :=
  takeUntil isAtLineEnd

/-- What is left of the line, if anything is. -/
def lineText : Parser (List Char) := do
  let text ← restOfLine
  if text.isEmpty then failure else return text

/-- A comment up to the end of its line. -/
def commentText : Parser Unit := do
  blanks
  word ['#']
  let _ ← restOfLine

/-- The end of a line, with a comment before it or not. -/
def newline : Parser Unit := do
  let _ ← opt commentText
  lineEnd

/-- Blanks, ends of lines and comments. -/
def space : Parser Unit := do
  blanks
  let _ ← many (newline *> blanks)

/-- What may follow the text of a line: ends of lines, comments and blanks, or the end of the
file. -/
def lineTail : Parser Unit :=
  taking space <|> atEnd

def newlines : Parser Unit := do
  let _ ← many newline

def comment : Parser Unit := do
  commentText
  lineTail

def comments : Parser Unit := do
  let _ ← many comment

/-! ## Keywords, names and descriptions -/

/-- One of the keywords: the first that the text begins with. -/
def oneOf (keywords : List String) : Parser String := do
  let rest := (← get).rest
  match keywords.find? (·.toList.isPrefixOf rest) with
  | some k =>
    skip k.length
    return k
  | none => failure

/-- One of the keywords, with comments before it or not. -/
def keyword (keywords : List String) : Parser String := do
  comments
  oneOf keywords

def name (text : Option (List Char)) : String :=
  String.ofList (trimRight (text.getD []))

/-- The head of an element: a keyword, a colon and perhaps a name. -/
def head (keywords : List String) : Parser String := do
  let _ ← keyword keywords
  word [':']
  blanks
  let text ← opt lineText
  blanks
  lineTail
  return name text

/-- Free text, line by line, up to a tag or to one of the keywords. -/
def description (keywords : List String) : Parser (Option String) := do
  let line : Parser (List Char) := do
    blanks
    no (word ['@'])
    no (keyword keywords)
    blanks
    let text ← lineText
    lineTail
    return text
  let lines ← sepBy line blanks
  space
  let text := "\n".intercalate (lines.map String.ofList)
  return if (trim text.toList).isEmpty then none else some text

def tag : Parser Unit := do
  word ['@']
  let text ← Parser.takeWhile fun c => !isBlank c && c != '@'
  if text.isEmpty then failure

def tags : Parser Unit := do
  let _ ← sepBy tag space
  blanks
  newlines

/-! ## Tables and texts -/

def cell : Parser String := do
  word ['|']
  blanks
  no (lineEnd <|> atEnd)
  let text ← takeUntil fun cs => isAtLineEnd cs || cs.head? = some '|'
  return String.ofList (trim text)

def row : Parser (List String) := do
  let cells ← sepBy cell blanks
  blanks
  word ['|']
  blanks
  lineTail
  return cells

def table : Parser Table := do
  let offset ← Parser.offset
  blanks
  let rows ← sepBy1 row blanks
  return ⟨offset, rows⟩

/-- The number of characters before the next mark. A mark in a comment does not count. -/
def markDistance (mark : List Char) (inComment : Bool) : List Char → Nat
  | [] => 0
  | c :: cs =>
    let inComment := inComment && !isAtLineEnd (c :: cs)
    if !inComment && mark.isPrefixOf (c :: cs) then 0
    else markDistance mark (inComment || c = '#') cs + 1

/-- A text of any number of lines between two marks. -/
def textBetween (mark : List Char) : Parser Unit := do
  word mark
  skip (markDistance mark false (← get).rest)
  word mark
  lineTail

def docString : Parser Unit :=
  textBetween ['"', '"', '"'] <|> textBetween ['\x60', '\x60', '\x60']

/-! ## Steps -/

/-- A step that begins with one of the keywords, if there is a phase for it. -/
def stepOf (keywords : List String) (phase? : Option Phase) : Parser Step := do
  let offset ← Parser.offset
  let keyword ← keyword keywords
  blanks
  let text ← lineText
  blanks
  lineTail
  blanks
  let _ ← opt docString
  let table ← opt table
  match phase? with
  | some phase => return ⟨offset, keyword, phase, name text, table⟩
  | none => failure

/-- A step after one of the given phase. A conjunction takes that phase over, and cannot come
first. -/
def step (d : Dialect) (previous : Option Phase) : Parser Step :=
  (comments *> stepOf d.context (some .context)) <|> stepOf d.action (some .action) <|>
    stepOf d.outcome (some .outcome) <|> stepOf d.conjunction previous <|>
    stepOf d.contrast previous

def steps (d : Dialect) : Parser (List Step) :=
  (do
    let first ← step d none
    let next (previous : Phase) : Parser (Step × Phase) := do
      blanks
      let s ← step d (some previous)
      return (s, s.phase)
    let more ← fun c => some (iterate next first.phase c)
    return first :: more) <|> pure []

/-! ## Elements -/

def background (d : Dialect) : Parser Background := do
  comments
  blanks
  let offset ← Parser.offset
  let _ ← head d.background
  let _ ← description (d.scenario ++ d.outline ++ d.steps)
  return ⟨offset, ← steps d⟩

def examples (d : Dialect) : Parser Examples := do
  comments
  blanks
  tags
  blanks
  let offset ← Parser.offset
  let _ ← head d.examples
  let _ ← description (d.scenario ++ d.outline ++ d.steps ++ ["|"])
  return ⟨offset, ← opt table⟩

def scenario (d : Dialect) : Parser Scenario := do
  comments
  blanks
  tags
  blanks
  let offset ← Parser.offset
  let name ← head d.scenario <|> head d.outline
  let _ ← description (d.scenario ++ d.outline ++ d.steps)
  let steps ← steps d
  return ⟨offset, name, steps, ← many (examples d)⟩

def scenarios (d : Dialect) : Parser (List Scenario) := do
  blanks
  sepBy (scenario d) blanks

def rule (d : Dialect) : Parser Rule := do
  blanks
  tags
  blanks
  let name ← head d.rule
  let _ ← description (d.background ++ d.scenario ++ d.outline)
  let background ← opt (background d)
  newlines
  let scenarios ← scenarios d
  newlines
  return ⟨name, background, scenarios⟩

def language : Parser (List Char) := do
  blanks
  let _ ← many (lineEnd *> blanks)
  word ['#']
  blanks
  word "language".toList
  blanks
  word [':']
  blanks
  let tag ← lineText
  blanks
  newline
  return tag

def document (d : Dialect) : Parser Document := do
  newlines
  tags
  let offset ← Parser.offset
  let name ← head d.feature
  let description ← description (d.background ++ d.rule ++ d.scenario ++ d.outline)
  let background ← opt (background d)
  newlines
  let scenarios ← scenarios d
  newlines
  blanks
  let rules ← sepBy (rule d) blanks
  newlines
  atEnd
  return ⟨offset, name, description, background, scenarios, rules⟩

/-- A whole feature file. English is spoken unless the file says otherwise. -/
def file : Parser Document := do
  blanks
  match ← opt language with
  | none => document .english
  | some tag =>
    match Dialect.ofTag? (String.ofList tag) with
    | some d => document d
    | none => failure

end Grammar

/-- The document that a feature file denotes. A table with holes makes the file invalid, and so does
a language without a dialect here. -/
def Document.ofText? (text : List Char) : Option Document := do
  let (d, _) ← Grammar.file.run (.ofText text)
  if d.tables.any (·.hasHoles) then none else some d

end StepLinker.Gherkin

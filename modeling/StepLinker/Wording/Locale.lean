import StepLinker.Wording.Language

/-!
# Choosing a language

A reader asks for languages by their tags. A tag is a language, a script, a region and variants,
of which only the language counts here; the case of its letters does not. English can always be
fallen back on.
-/

namespace StepLinker

structure LanguageTag where
  /-- The language, in small letters. -/
  language : String
  deriving DecidableEq, Repr

namespace LanguageTag

/-- The subtags of a tag, which hyphens or underscores divide. -/
def subtags : List Char → List (List Char)
  | [] => [[]]
  | c :: cs =>
    if c = '-' || c = '_' then [] :: subtags cs
    else
      match subtags cs with
      | [] => [[c]]
      | first :: rest => (c :: first) :: rest

def isLanguage (s : List Char) : Bool :=
  2 ≤ s.length && s.length ≤ 8 && s.length ≠ 4 && s.all Char.isAlpha

def isScript (s : List Char) : Bool :=
  s.length = 4 && s.all Char.isAlpha

def isRegion (s : List Char) : Bool :=
  (s.length = 2 && s.all Char.isAlpha) || (s.length = 3 && s.all Char.isDigit)

/-- The characters from which a subtag can be made: ASCII, and not null. -/
def isTagCharacter (c : Char) : Bool :=
  c.val ≠ 0 && c.val < 128

/-- Five to eight letters and digits; or four characters of which the first is a digit, or the
other three are letters and digits. -/
def isVariant (s : List Char) : Bool :=
  (5 ≤ s.length && s.length ≤ 8 && s.all Char.isAlphanum) ||
    (s.length = 4 && s.all isTagCharacter &&
      (s.head?.any Char.isDigit || s.tail.all Char.isAlphanum))

/-- Whether the subtags are an optional script, an optional region and variants. -/
def isTail (subtags : List (List Char)) : Bool :=
  let afterScript := if subtags.head?.any isScript then subtags.tail else subtags
  let afterRegion := if afterScript.head?.any isRegion then afterScript.tail else afterScript
  afterRegion.all isVariant

/-- Reads a tag. A text that is no tag comes back. -/
def ofText (text : String) : Except String LanguageTag :=
  match subtags text.toList with
  | [] => .error text
  | language :: rest =>
    if isLanguage language && isTail rest then .ok ⟨(String.ofList language).toLower⟩
    else .error text

/-- Reads several tags, up to the first text that is none. -/
def ofTexts (texts : List String) : Except String (List LanguageTag) :=
  texts.mapM ofText

/-- The language the tag asks for, if messages can be written in it. -/
def supported? (tag : LanguageTag) : Option Language :=
  if tag.language = "en" then some .english
  else if tag.language = "fr" then some .french
  else none

end LanguageTag

/-- The languages to use, the best one first: those asked for, each once, and English. -/
def Language.negotiate (requested : List LanguageTag) : List Language :=
  (requested.filterMap LanguageTag.supported? ++ [english]).eraseDups

/-- The language messages are written in: one chosen for good, and above it any number that are
in force for a while, the latest in front. -/
structure Locale where
  chosen : Language
  scopes : List Language
  deriving DecidableEq, Repr

namespace Locale

def initial : Locale :=
  ⟨.english, []⟩

def language (l : Locale) : Language :=
  l.scopes.headD l.chosen

/-- The first of the languages that suit the request. -/
def best (requested : List LanguageTag) : Language :=
  (Language.negotiate requested).headD .english

def choose (l : Locale) (requested : List LanguageTag) : Locale :=
  { l with chosen := best requested }

def enter (l : Locale) (requested : List LanguageTag) : Locale :=
  { l with scopes := best requested :: l.scopes }

def leave (l : Locale) : Locale :=
  { l with scopes := l.scopes.tail }

end Locale

end StepLinker

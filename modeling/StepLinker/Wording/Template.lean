/-!
# Message templates

The wording of a message, with gaps for its arguments.
-/

namespace StepLinker

inductive Fragment where
  | text (text : String)
  | argument (name : String)
  deriving DecidableEq, Repr

abbrev Template := List Fragment

/-- The characters that isolate the direction of a piece of text, U+2066 to U+2069. -/
def isDirectionalIsolate (c : Char) : Bool :=
  0x2066 ≤ c.toNat && c.toNat ≤ 0x2069

/-- The text without directional isolates, which only disturb the reader of a terminal. -/
def stripIsolates (text : String) : String :=
  String.ofList (text.toList.filter (!isDirectionalIsolate ·))

/-- The text of a fragment. A gap without an argument shows the name of the argument. -/
def Fragment.fill (arguments : List (String × String)) : Fragment → String
  | text s => s
  | argument name => (arguments.lookup name).getD s!"\x7b${name}\x7d"

def Template.fill (arguments : List (String × String)) (template : Template) : String :=
  String.join (template.map (·.fill arguments))

end StepLinker

import StepLinker.Diagnostic
import StepLinker.Step

/-!
# Arguments of a matched step

From the tokens that stand for a placeholder to its text, its type and what is wrong with it. A
single token has the type of its kind. Several tokens, or one with blank characters between it and
its quote marks, are text, unless a part of them is only known when the step runs.
-/

namespace StepLinker

namespace ArgumentMatch

/-- Whether no token stands between the quote marks. -/
def isEmpty (m : ArgumentMatch) : Bool :=
  m.span.content.2 ≤ m.span.content.1

def content (m : ArgumentMatch) (s : Statement) : List Token :=
  (s.tokens.extract m.span.content.1 m.span.content.2).toList

/-- Whether blank characters stand between the value and a quote mark. -/
def isPadded (m : ArgumentMatch) (s : Statement) : Bool :=
  !m.isEmpty &&
    ((m.span.opened && s.hasGapAfter m.span.start) ||
      (m.span.closed && s.hasGapAfter (m.span.content.2 - 1)))

def raw (m : ArgumentMatch) (s : Statement) : String :=
  if m.isEmpty then "" else s.slice m.span.content.1 (m.span.content.2 - 1)

/-- The type of the value, if it is known before the step runs. -/
def type? (m : ArgumentMatch) (s : Statement) : Option ArgumentType :=
  if m.isEmpty then some .text
  else
    match m.content s, m.isPadded s with
    | [token], false => token.kind.type?
    | tokens, _ => if tokens.any (·.kind.isDynamic) then none else some .text

def bind (m : ArgumentMatch) (s : Statement) : ArgumentBinding :=
  ⟨m.placeholder, m.span, m.type? s, m.raw s⟩

/-! ## Diagnostics

An argument can be wrong in one of two ways, and apart from that be padded. -/

/-- A numeric argument without a value, or a value of a type that does not do. -/
def typeError? (m : ArgumentMatch) (step : Step) : Option (Cause × Text.Range) :=
  match m.placeholder.hint with
  | none => none
  | some hint =>
    if m.isEmpty then
      if hint.isNumeric then
        some (.valueRequired hint m.placeholder.name,
          step.tokenRange m.span.start m.span.stop)
      else none
    else
      match m.type? step.statement with
      | none => none
      | some type =>
        if type.satisfies hint then none
        else
          some (.typeNotCompatible (m.raw step.statement) hint m.placeholder.name,
            step.tokenRange m.span.content.1 m.span.content.2)

def padding? (m : ArgumentMatch) (step : Step) : Option (Cause × Text.Range) :=
  if m.isPadded step.statement then
    some (.surroundingWhitespace m.placeholder.name, step.tokenRange m.span.start m.span.stop)
  else none

def findings (m : ArgumentMatch) (step : Step) (whitespaceWarnings : Bool) :
    List (Cause × Text.Range) :=
  (m.typeError? step).toList ++ (if whitespaceWarnings then m.padding? step else none).toList

end ArgumentMatch

end StepLinker

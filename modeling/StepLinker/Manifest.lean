import StepLinker.Failure
import StepLinker.Json.Reader
import StepLinker.TestFile

/-!
# Step manifests

A manifest is a JSON document that lists step definitions. An object may also be written as the
array of its fields in order, without those at the end that may be missing. A field that is not
known or comes twice makes the whole document invalid.
-/

namespace StepLinker

structure ManifestStep where
  /-- The keyword, as it is written. -/
  type : String
  declaration : String
  table : TableRule
  description : Option String
  /-- The line the definition is reported at. -/
  line : Option Nat
  deriving DecidableEq, Repr

namespace Manifest

/-- The members of an object with these fields, however it is written. -/
def members? (fields : List String) : Json.Value → Option (List (String × Json.Value))
  | .object ms =>
    if ms.all (fields.contains ·.1) && decide (ms.map (·.1)).Nodup then some ms else none
  | .array vs => if vs.length ≤ fields.length then some (fields.zip vs) else none
  | _ => none

def string? : Json.Value → Option String
  | .string s => some s
  | _ => none

/-- A value that may be null or missing. -/
def optional? {α : Type} (read : Json.Value → Option α) : Option Json.Value → Option (Option α)
  | none => some none
  | some .null => some none
  | some v => (read v).map some

/-- A line number: digits without a sign, a fraction or an exponent, below `2 ^ 64`. -/
def line? : Json.Value → Option Nat
  | .number literal => literal.toNat?.filter fun n => literal.all Char.isDigit && n < 0x10000000000000000
  | _ => none

def tableRule? : String → Option TableRule
  | "optional" => some .optional
  | "required" => some .required
  | "not-supported" => some .notSupported
  | _ => none

/-- A table rule: its name, or an object with the name as its one key and null as the value. -/
def table? : Option Json.Value → Option TableRule
  | none => some .optional
  | some (.string name) => tableRule? name
  | some (.object [(name, .null)]) => tableRule? name
  | some _ => none

def step? (v : Json.Value) : Option ManifestStep := do
  let ms ← members? ["type", "declaration", "table", "description", "line"] v
  some
    { type := ← string? (← ms.lookup "type")
      declaration := ← string? (← ms.lookup "declaration")
      table := ← table? (ms.lookup "table")
      description := ← optional? string? (ms.lookup "description")
      line := ← optional? line? (ms.lookup "line") }

def steps? (v : Json.Value) : Option (List ManifestStep) := do
  let ms ← members? ["steps"] v
  match ← ms.lookup "steps" with
  | .array vs => vs.mapM step?
  | _ => none

/-- The definition that the entry at position `i` declares. -/
def declare (path : String) (i : Nat) (s : ManifestStep) : Except Failure DeclaredStep :=
  match StepType.ofKeyword s.type with
  | .error _ => .error (.unknownStepType path s.type)
  | .ok type =>
    .ok ⟨type, s.declaration, ⟨s.line.getD (i + 1), 1⟩, s.table, s.description, none, []⟩

/-- The file that holds the definitions of a manifest. The document as a whole is read before the
keywords are looked at. -/
def read (path text : String) : Except Failure TestFile :=
  match (Json.Value.ofText? text).bind steps? with
  | none => .error (.manifest path)
  | some steps => do
    let declared ← steps.zipIdx.mapM fun (s, i) => declare path i s
    .ok ⟨path, none, declared⟩

end Manifest

end StepLinker

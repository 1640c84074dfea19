import CallAlign.Document.Value

/-!
# Reading values

Why a value of a document is not what its place asks for, and how that is said.
-/

namespace CallAlign

/-- What a place in a document asks for. -/
inductive Expected where
  | boolean
  | text
  | sequence
  /-- A natural number of 32 bits. -/
  | word32
  /-- A natural number of 64 bits. -/
  | word64
  /-- The fields of a record of that name. -/
  | record (name : String)

/-- The words for what is asked for. -/
def Expected.describe : Expected → String
  | .boolean => "a boolean"
  | .text => "a string"
  | .sequence => "a sequence"
  | .word32 => "u32"
  | .word64 => "usize"
  | .record name => s!"struct {name}"

/-- Why a value is refused. -/
inductive ReadError where
  /-- The value is of another kind. -/
  | wrongKind (found : Value) (expected : Expected)
  /-- The number is of the right kind and out of bounds. -/
  | outOfBounds (found : Int) (expected : Expected)
  /-- The table has a key that no field has. -/
  | unknownField (key : String) (known : List String)
  /-- The table lacks a field. -/
  | missingField (name : String)
  /-- The array has fewer items than the record has fields. -/
  | tooShort (length : Nat) (record : String) (fields : Nat)
  /-- The array has more items than the record has fields. -/
  | tooLong (length : Nat)

namespace ReadError

/-- Names between backticks, the last behind `or`. -/
def alternatives : List String → String
  | [] => ""
  | [name] => s!"`{name}`"
  | [first, last] => s!"`{first}` or `{last}`"
  | name :: rest => s!"`{name}`, {alternatives rest}"

/-- The text of a refusal, with numbers spelled in `style`. -/
def message (style : Double.Style) : ReadError → String
  | .wrongKind found expected =>
    s!"invalid type: {found.describe style}, expected {expected.describe}"
  | .outOfBounds found expected =>
    s!"invalid value: integer `{found}`, expected {expected.describe}"
  | .unknownField key known => s!"unknown field `{key}`, expected {alternatives known}"
  | .missingField name => s!"missing field `{name}`"
  | .tooShort length record fields =>
    s!"invalid length {length}, expected struct {record} with {fields} elements"
  | .tooLong length => s!"invalid length {length}, expected fewer elements in array"

end ReadError

namespace Value

def asBool : Value → Except ReadError Bool
  | .bool b => .ok b
  | other => .error (.wrongKind other .boolean)

def asText : Value → Except ReadError String
  | .string text => .ok text
  | other => .error (.wrongKind other .text)

/-- The natural number below `limit` that a value is. -/
def asNat (limit : Nat) (expected : Expected) : Value → Except ReadError Nat
  | .int n => if 0 ≤ n ∧ n < limit then .ok n.toNat else .error (.outOfBounds n expected)
  | other => .error (.wrongKind other expected)

def asWord32 : Value → Except ReadError Nat := asNat 0x100000000 .word32

def asWord64 : Value → Except ReadError Nat := asNat 0x10000000000000000 .word64

end Value

end CallAlign

import CallAlign.Alignment.Operation
import CallAlign.Document.ReadError

/-!
# Alignments as data

An alignment is written as an array of tables, one for each operation, with tables for positions.
Reading takes these in any order of keys, whatever other keys there are, and also takes an array of
the values in the order of the fields in place of a table.
-/

namespace CallAlign

/-- The item of a record's array form at `index`, for an array of `items` and `fields` fields. -/
def Value.item (record : String) (fields : Nat) (items : List Value) (index : Nat) :
    Except ReadError Value :=
  match items[index]? with
  | some v => .ok v
  | none => .error (.tooShort items.length record fields)

/-- What a table gave for a field that has to be there. -/
def Value.required {α : Type} (name : String) : Option α → Except ReadError α
  | some a => .ok a
  | none => .error (.missingField name)

namespace Position

def toValue (p : Position) : Value :=
  .table [("offset", .int p.offset), ("line", .int p.line), ("column", .int p.column)]

/-- The fields of a position that a table has given so far. -/
structure Draft where
  offset : Option Nat := none
  line : Option Nat := none
  column : Option Nat := none

/-- What is known of a position with one entry of its table taken in. -/
def Draft.readEntry (p : Draft) (entry : String × Value) : Except ReadError Draft :=
  match entry.1 with
  | "offset" => entry.2.asWord32.map fun n => { p with offset := some n }
  | "line" => entry.2.asWord32.map fun n => { p with line := some n }
  | "column" => entry.2.asWord32.map fun n => { p with column := some n }
  | _ => .ok p

/-- The position that the entries of a table give. -/
def ofEntries (entries : List (String × Value)) : Except ReadError Position := do
  let p ← entries.foldlM Draft.readEntry {}
  return {
    offset := ← Value.required "offset" p.offset
    line := ← Value.required "line" p.line
    column := ← Value.required "column" p.column }

/-- The position that the items of an array give in order. -/
def ofItems (items : List Value) : Except ReadError Position := do
  let item := Value.item "Position" 3 items
  let p : Position := {
    offset := ← (← item 0).asWord32
    line := ← (← item 1).asWord32
    column := ← (← item 2).asWord32 }
  if 3 < items.length then .error (.tooLong items.length) else return p

def ofValue : Value → Except ReadError Position
  | .table entries => ofEntries entries
  | .array items => ofItems items
  | other => .error (.wrongKind other (.record "Position"))

end Position

namespace Operation

def toValue (op : Operation) : Value :=
  .table [("node", .int op.node.number), ("startPosition", op.startPosition.toValue),
    ("endPosition", op.endPosition.toValue),
    ("methodStartPosition", op.methodStartPosition.toValue),
    ("methodEndPosition", op.methodEndPosition.toValue), ("methodName", .string op.methodName),
    ("declaringType", .string op.declaringType.text), ("bytecodeOffset", .int op.bytecodeOffset)]

/-- The fields of an operation that a table has given so far. -/
structure Draft where
  node : Option NodeId := none
  startPosition : Option Position := none
  endPosition : Option Position := none
  methodStartPosition : Option Position := none
  methodEndPosition : Option Position := none
  methodName : Option String := none
  declaringType : Option BinaryName := none
  bytecodeOffset : Option Nat := none

/-- What is known of an operation with one entry of its table taken in. -/
def Draft.readEntry (op : Draft) (entry : String × Value) : Except ReadError Draft :=
  match entry.1 with
  | "node" => entry.2.asWord32.map fun n => { op with node := some ⟨n⟩ }
  | "startPosition" => (Position.ofValue entry.2).map fun p => { op with startPosition := some p }
  | "endPosition" => (Position.ofValue entry.2).map fun p => { op with endPosition := some p }
  | "methodStartPosition" =>
    (Position.ofValue entry.2).map fun p => { op with methodStartPosition := some p }
  | "methodEndPosition" =>
    (Position.ofValue entry.2).map fun p => { op with methodEndPosition := some p }
  | "methodName" => entry.2.asText.map fun t => { op with methodName := some t }
  | "declaringType" => entry.2.asText.map fun t => { op with declaringType := some ⟨t⟩ }
  | "bytecodeOffset" => entry.2.asWord64.map fun n => { op with bytecodeOffset := some n }
  | _ => .ok op

/-- The operation that the entries of a table give. -/
def ofEntries (entries : List (String × Value)) : Except ReadError Operation := do
  let op ← entries.foldlM Draft.readEntry {}
  return {
    node := ← Value.required "node" op.node
    startPosition := ← Value.required "startPosition" op.startPosition
    endPosition := ← Value.required "endPosition" op.endPosition
    methodStartPosition := ← Value.required "methodStartPosition" op.methodStartPosition
    methodEndPosition := ← Value.required "methodEndPosition" op.methodEndPosition
    methodName := ← Value.required "methodName" op.methodName
    declaringType := ← Value.required "declaringType" op.declaringType
    bytecodeOffset := ← Value.required "bytecodeOffset" op.bytecodeOffset }

/-- The operation that the items of an array give in order. -/
def ofItems (items : List Value) : Except ReadError Operation := do
  let item := Value.item "Operation" 8 items
  let op : Operation := {
    node := ⟨← (← item 0).asWord32⟩
    startPosition := ← Position.ofValue (← item 1)
    endPosition := ← Position.ofValue (← item 2)
    methodStartPosition := ← Position.ofValue (← item 3)
    methodEndPosition := ← Position.ofValue (← item 4)
    methodName := ← (← item 5).asText
    declaringType := ⟨← (← item 6).asText⟩
    bytecodeOffset := ← (← item 7).asWord64 }
  if 8 < items.length then .error (.tooLong items.length) else return op

def ofValue : Value → Except ReadError Operation
  | .table entries => ofEntries entries
  | .array items => ofItems items
  | other => .error (.wrongKind other (.record "Operation"))

end Operation

namespace Alignment

def toValue (c : Alignment) : Value := .array (c.operations.toList.map Operation.toValue)

def ofValue : Value → Except ReadError Alignment
  | .array items => (items.mapM Operation.ofValue).map fun ops => ⟨ops.toArray⟩
  | other => .error (.wrongKind other .sequence)

end Alignment

end CallAlign

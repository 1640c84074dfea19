import CallAlign.Search
import CallAlign.CallSite
import CallAlign.Source.LineIndex

/-!
# Operations

An operation is a call of the source together with the call instruction compiled for it. An
`Alignment` is the list of operations of a source line, in evaluation order, and can be asked for
the operation of a node or of a code offset.
-/

namespace CallAlign

/-- A source call with its call instruction. -/
structure Operation where
  node : NodeId
  /-- Where the whole call starts and ends. -/
  startPosition : Position
  endPosition : Position
  /-- Where the name of the method starts and ends. -/
  methodStartPosition : Position
  methodEndPosition : Position
  methodName : String
  declaringType : BinaryName
  /-- Where the call instruction stands in the code. -/
  bytecodeOffset : Nat
  deriving DecidableEq, Repr

def Operation.isConstructor (op : Operation) : Bool := op.methodName = constructorName

/-- The operations of a source line. -/
structure Alignment where
  operations : Array Operation
  deriving DecidableEq, Repr

namespace Alignment

def size (a : Alignment) : Nat := a.operations.size

def isEmpty (a : Alignment) : Bool := a.operations.isEmpty

/-- The first operation of `node`. -/
def ofNode? (a : Alignment) (node : NodeId) : Option Operation :=
  a.operations.find? fun op => op.node = node

/-- Whether the instruction of the operation at index `i` comes before `offset`. -/
def comesBefore (a : Alignment) (offset i : Nat) : Bool :=
  match a.operations[i]? with
  | some op => op.bytecodeOffset < offset
  | none => false

/-- The operation whose instruction stands at `offset`. It is found by bisection, as the offsets
grow along the list. -/
def atOffset? (a : Alignment) (offset : Nat) : Option Operation :=
  a.operations[bisect (a.comesBefore offset) 0 a.operations.size]?.filter fun op =>
    op.bytecodeOffset = offset

end Alignment

end CallAlign

import CallAlign.CallSite
import CallAlign.Bytecode.Cursor

/-!
# Events

What happens during a scan or an alignment, in order, for a log. Every event has a level, a message
and named fields, all of them text.
-/

namespace CallAlign

/-- How much an event matters. -/
inductive Level where
  | trace
  | debug
  deriving DecidableEq, Repr

def Level.name : Level → String
  | .trace => "TRACE"
  | .debug => "DEBUG"

/-- Something worth a line in the log. -/
inductive Event where
  /-- The cursor entered a later range. -/
  | moved (move : Move)
  /-- A synthetic call that is skipped took an instruction. -/
  | claimed (node : NodeId) (offset : Nat)
  /-- A call was paired with an instruction. -/
  | matched (node : NodeId) (offset : Nat) (method : String) (cls : BinaryName)
  /-- No instruction was left for a call. -/
  | exhausted (node : NodeId)
  /-- A call could not be described. -/
  | undescribed (node : NodeId) (reason : Unresolved)
  /-- An instruction was left without a call. -/
  | leftover (offset : Nat)
  deriving DecidableEq, Repr

namespace Event

/-- The level of an event: failures are for debugging, all else is tracing. -/
def level : Event → Level
  | .moved _ | .claimed _ _ | .matched _ _ _ _ => .trace
  | .exhausted _ | .undescribed _ _ | .leftover _ => .debug

/-- What happened. -/
def message : Event → String
  | .moved _ => "moving to next bytecode range"
  | .claimed _ _ => "synthetic call claims instruction"
  | .matched _ _ _ _ => "matched call instruction"
  | .exhausted _ => "bytecode ranges exhausted before every call node was matched"
  | .undescribed _ _ => "call node cannot be described"
  | .leftover _ => "call instruction left over after every call node was matched"

/-- To what it happened. -/
def fields : Event → List (String × String)
  | .moved m =>
    [("range", toString m.index), ("from", toString m.range.start), ("to", toString m.range.stop)]
  | .claimed node offset => [("node", node.display), ("offset", toString offset)]
  | .matched node offset method cls =>
    [("node", node.display), ("offset", toString offset), ("method", method), ("class", cls.text)]
  | .exhausted node => [("node", node.display)]
  | .undescribed node reason => [("node", node.display), ("reason", reason.message)]
  | .leftover offset => [("offset", toString offset)]

end Event

end CallAlign

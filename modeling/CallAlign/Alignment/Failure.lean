import CallAlign.CallSite
import CallAlign.Bytecode.RangeList

/-!
# Failed alignments

Why source and code could not be aligned. A failure is an answer, not a fault: the caller then
works with whole lines.
-/

namespace CallAlign

/-- Why there is no alignment. -/
inductive Alignment.Failure where
  /-- No call instruction is left for the node. -/
  | exhausted (node : NodeId)
  /-- The node's call cannot be described. -/
  | undescribed (node : NodeId) (reason : Unresolved)
  /-- The call instruction at the offset has no node. -/
  | leftover (offset : Nat)
  /-- The ranges do not fit the code. -/
  | unfitRanges (fault : RangeFault)
  deriving DecidableEq, Repr

namespace Alignment.Failure

def message : Alignment.Failure → String
  | .exhausted node => s!"bytecode ranges have no call instruction left for node {node.display}"
  | .undescribed node reason => s!"cannot describe call node {node.display}: {reason.message}"
  | .leftover offset => s!"call instruction at bytecode offset {offset} has no source node"
  | .unfitRanges fault => s!"invalid bytecode ranges: {fault.message}"

/-- Whether source and code disagree on their calls, rather than knowledge being missing. -/
def isMismatch : Alignment.Failure → Bool
  | .exhausted _ | .leftover _ => true
  | .undescribed _ _ | .unfitRanges _ => false

end Alignment.Failure

end CallAlign

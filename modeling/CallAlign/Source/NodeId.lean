/-!
# Node identities
-/

namespace CallAlign

/-- The identity that the caller gave a node of the source. -/
structure NodeId where
  number : Nat
  deriving DecidableEq, Hashable, Repr

namespace NodeId

/-- The identity as it appears in messages. -/
def display (id : NodeId) : String := s!"#{id.number}"

/-- The identity as it appears in debugging output. -/
def debug (id : NodeId) : String := s!"NodeId({id.number})"

end NodeId

end CallAlign

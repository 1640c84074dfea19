import CallAlign.Source.NodeId
import CallAlign.Source.Span

/-!
# Nodes of a source line

The expressions of the source in the order they are evaluated. Only calls, of methods and of
constructors, take part in matching; other nodes keep their place.
-/

namespace CallAlign

/-- A part of an expression that has a type. -/
structure SubExpr where
  id : NodeId
  span : Span
  deriving DecidableEq, Repr

/-- How a call names what it invokes. -/
inductive Callee where
  /-- A bare name, of a method of the class around it. -/
  | identifier (id : NodeId) (name : String) (span : Span)
  /-- A name behind a receiver; the span covers both. -/
  | member (name : String) (span : Span) (receiver : SubExpr)
  /-- The class of a new object. -/
  | constructor (cls : SubExpr)
  deriving DecidableEq, Repr

/-- A call of a method or constructor. -/
structure Call where
  id : NodeId
  span : Span
  callee : Callee
  /-- Whether the compiler made the call up, so that no source text stands for it. -/
  synthetic : Bool
  deriving DecidableEq, Repr

/-- A node of the evaluation order. -/
inductive Node where
  | call (c : Call)
  | other (id : NodeId) (span : Span)
  deriving DecidableEq, Repr

namespace Node

def id : Node → NodeId
  | .call c => c.id
  | .other id _ => id

def span : Node → Span
  | .call c => c.span
  | .other _ span => span

/-- The call that the node is, if it is one. -/
def call? : Node → Option Call
  | .call c => some c
  | .other _ _ => none

end Node

/-- The name and source text of the method that `callee` names, none for a constructor. -/
def Callee.method? : Callee → Option (String × Span)
  | .identifier _ name span => some (name, span)
  | .member name span _ => some (name, span)
  | .constructor _ => none

end CallAlign

import CallAlign.Source.Node
import CallAlign.Types.Resolver

/-!
# Call sites

What a call invokes: the method's name, the class that declares it as far as the source tells, and
the source text of the name. `Call.site` asks the resolver one question per call and gives
the reason when the answer does not pin down a class.
-/

namespace CallAlign

/-- The method that a call invokes. -/
structure CallSite where
  methodName : String
  declaringType : BinaryName
  /-- The source text of the method's name, or of the class for a constructor. -/
  methodSpan : Span
  deriving DecidableEq, Repr

/-- Why a call could not be described. -/
inductive Unresolved where
  /-- The expression has no known type. -/
  | unknownType (expr : NodeId)
  /-- The type of a constructed object is no class. -/
  | notAClass (expr : NodeId)
  /-- No class is known around a bare name. -/
  | noClassAround (node : NodeId)
  /-- The type variable of a receiver has no bound or several. -/
  | boundCount (name : String) (bounds : Nat)
  /-- The one bound of the type variable is no class. -/
  | boundNotAClass (name : String)
  deriving DecidableEq, Repr

def Unresolved.message : Unresolved → String
  | .unknownType expr => s!"expression {expr.display} has an erroneous type"
  | .notAClass expr => s!"expression {expr.display} does not denote a class type"
  | .noClassAround node => s!"no enclosing class at {node.display}"
  | .boundCount name bounds =>
    s!"type variable `{name}` has {bounds} bounds; exactly one is supported"
  | .boundNotAClass name =>
    s!"type variable `{name}` is bounded by a type that is not a class"

/-- The name that compiled code gives constructors. -/
def constructorName : String := "<init>"

namespace ExprType

/-- The class of an object that the expression `expr` of this type constructs. -/
def constructedClass (expr : NodeId) : ExprType → Except Unresolved BinaryName
  | .declared name => .ok name
  | .typeVar _ _ => .error (.notAClass expr)
  | .unknown => .error (.unknownType expr)

/-- The class in which a method of a receiver `expr` of this type is looked up: the type itself,
or the only bound of a type variable. -/
def receiverClass (expr : NodeId) : ExprType → Except Unresolved BinaryName
  | .declared name => .ok name
  | .typeVar _ [.declared name] => .ok name
  | .typeVar name [_] => .error (.boundNotAClass name)
  | .typeVar name bounds => .error (.boundCount name bounds.length)
  | .unknown => .error (.unknownType expr)

end ExprType

namespace Callee

/-- The class that declares what the callee names. -/
def declaringType (resolver : Resolver) : Callee → Except Unresolved BinaryName
  | .identifier id _ _ =>
    match resolver.enclosingClass id with
    | some name => .ok name
    | none => .error (.noClassAround id)
  | .member _ _ receiver => (resolver.typeOf receiver.id).receiverClass receiver.id
  | .constructor cls => (resolver.typeOf cls.id).constructedClass cls.id

def methodName : Callee → String
  | .identifier _ name _ => name
  | .member name _ _ => name
  | .constructor _ => constructorName

/-- The source text of the name: behind a receiver, as many bytes at the end as the name has. -/
def methodSpan : Callee → Span
  | .identifier _ _ span => span
  | .member name span _ => span.suffix name.utf8ByteSize
  | .constructor cls => cls.span

end Callee

/-- What `call` invokes. -/
def Call.site (call : Call) (resolver : Resolver) : Except Unresolved CallSite :=
  (call.callee.declaringType resolver).map fun name =>
    ⟨call.callee.methodName, name, call.callee.methodSpan⟩

end CallAlign

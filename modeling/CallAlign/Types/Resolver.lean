import Std.Data.HashMap
import CallAlign.Source.NodeId
import CallAlign.Types.BinaryName

/-!
# Types and resolvers

What is known about the types of a source file: the type of an expression, and the class around a
node. A `TypeTable` is knowledge written down entry by entry, where a later entry for the same
node replaces an earlier one.
-/

namespace CallAlign

/-- The type of an expression, as far as calls on it are concerned. -/
inductive ExprType where
  /-- A class or interface. -/
  | declared (name : BinaryName)
  /-- A type variable with its upper bounds in source order. -/
  | typeVar (name : String) (bounds : List ExprType)
  /-- A type that could not be told or owns no method. -/
  | unknown
  deriving Inhabited, Repr

/-- What a source file's types are asked. -/
structure Resolver where
  /-- The type of an expression. -/
  typeOf : NodeId → ExprType
  /-- The innermost class around a node. -/
  enclosingClass : NodeId → Option BinaryName

/-- Recorded answers. -/
structure TypeTable where
  types : Std.HashMap NodeId ExprType
  enclosing : Std.HashMap NodeId BinaryName
  /-- The class around every node without an entry of its own. -/
  fallback : Option BinaryName

namespace TypeTable

/-- One recorded answer. -/
inductive Entry where
  /-- The type of an expression. -/
  | type (id : NodeId) (type : ExprType)
  /-- The class around a node. -/
  | enclosing (id : NodeId) (name : BinaryName)
  /-- The class around every other node. -/
  | fallback (name : BinaryName)

def empty : TypeTable := ⟨∅, ∅, none⟩

/-- The table with one more answer, in place of an earlier one to the same question. -/
def add (table : TypeTable) : Entry → TypeTable
  | .type id type => { table with types := table.types.insert id type }
  | .enclosing id name => { table with enclosing := table.enclosing.insert id name }
  | .fallback name => { table with fallback := some name }

/-- The table of `entries`, added in order. -/
def ofEntries (entries : List Entry) : TypeTable := entries.foldl add empty

/-- The table as a resolver: an expression without an entry has no known type. -/
def toResolver (table : TypeTable) : Resolver where
  typeOf id := table.types.getD id .unknown
  enclosingClass id := table.enclosing[id]?.or table.fallback

end TypeTable

end CallAlign

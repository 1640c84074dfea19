import CallAlign.Text.Split
import CallAlign.Text.Quoted

/-!
# Binary class names

The name of a class in compiled code: packages end in `/`, and `$` stands between a class and one
nested in it, as in `java/util/Map$Entry`.
-/

namespace CallAlign

/-- A class name in the form of compiled code. -/
structure BinaryName where
  text : String
  deriving DecidableEq, Repr

namespace BinaryName

/-- The package in binary form, each of its parts followed by a slash; nothing for the unnamed
package. -/
def packageText (package : List Char) : List Char :=
  if package.isEmpty then [] else (List.splitOn '.' package).flatMap fun part => part ++ ['/']

/-- The name of the last of `classes`, each nested in the one before, in a dotted package. -/
def ofSource (package : String) (classes : List String) : BinaryName :=
  ⟨String.ofList (packageText package.toList ++
    List.intercalate ['$'] (classes.map String.toList))⟩

/-- The package in binary form, if the name has one. -/
def package? (name : BinaryName) : Option String :=
  (Text.splitLast? '/' name.text.toList).map fun (package, _) => String.ofList package

/-- The name of the innermost class alone. -/
def simpleName (name : BinaryName) : String :=
  String.ofList (Text.afterLast '$' (Text.afterLast '/' name.text.toList))

/-- The name as it appears in debugging output. -/
def debug (name : BinaryName) : String := Text.quote name.text

/-- Whether `a` comes no later than `b` in code point order. -/
def le (a b : BinaryName) : Bool := !decide (b.text < a.text)

/-- The names in order, equal ones kept. -/
def sort (names : List BinaryName) : List BinaryName := names.mergeSort le

end BinaryName

end CallAlign

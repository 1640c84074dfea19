import CallAlign.Document.Value
import CallAlign.Json.Text

/-!
# Writing JSON

A value as JSON text without blanks. JSON has no moments; they are written as strings.
-/

namespace CallAlign.Json

/-- Numbers are positional from a hundred-thousandth up to sixteen digits, and ties go to even. -/
def numberStyle : Double.Style := ⟨fun e => -5 ≤ e && e ≤ 15, false⟩

mutual

def render : Value → List Char
  | .null => "null".toList
  | .bool b => (toString b).toList
  | .int n => (toString n).toList
  | .float x => (x.text numberStyle).toList
  | .string text => stringText text
  | .moment text => stringText text
  | .array items => '[' :: renderItems items ++ [']']
  | .table entries => '\x7b' :: renderEntries entries ++ ['\x7d']

/-- The items of an array with commas between them. -/
def renderItems : List Value → List Char
  | [] => []
  | [v] => render v
  | v :: rest => render v ++ ',' :: renderItems rest

/-- The entries of an object with commas between them. -/
def renderEntries : List (String × Value) → List Char
  | [] => []
  | [(key, v)] => stringText key ++ ':' :: render v
  | (key, v) :: rest => stringText key ++ ':' :: render v ++ ',' :: renderEntries rest

end

def write (v : Value) : String := String.ofList (render v)

end CallAlign.Json

import CallAlign.Number.Double
import CallAlign.Text.Quoted

/-!
# Values of data documents

What a JSON or TOML document holds. A table keeps its entries in a list; its keys are distinct in
every value that a document parses to.
-/

namespace CallAlign

/-- A value of a data document. -/
inductive Value where
  | null
  | bool (b : Bool)
  | int (n : Int)
  | float (x : Double)
  | string (text : String)
  /-- A point or time of day as it is written. -/
  | moment (text : String)
  | array (items : List Value)
  | table (entries : List (String × Value))

instance : Inhabited Value := ⟨.null⟩

/-- What kind of value it is, with the value itself where it has a short text. -/
def Value.describe (style : Double.Style) : Value → String
  | .null => "null"
  | .bool b => s!"boolean `{b}`"
  | .int n => s!"integer `{n}`"
  | .float x => s!"floating point `{x.text style}`"
  | .string text => s!"string {Text.quote text}"
  | .array _ => "sequence"
  | .moment _ | .table _ => "map"

end CallAlign

import CallAlign.Settings
import CallAlign.Document.ReadError

/-!
# Reading settings

Settings from a table that names them, or from an array that gives them in order. What is not given
keeps its default. A table holds nothing but settings, an array no more than there are.
-/

namespace CallAlign.Settings

/-- The keys of the settings, in the order of an array. -/
def keys : List String := ["skip_synthetic", "one_based_positions"]

/-- The settings with one entry of a table taken in. -/
def readEntry (settings : Settings) (entry : String × Value) : Except ReadError Settings :=
  if entry.1 = "skip_synthetic" then
    entry.2.asBool.map fun b => { settings with skipSynthetic := b }
  else if entry.1 = "one_based_positions" then
    entry.2.asBool.map fun b => { settings with oneBasedPositions := b }
  else .error (.unknownField entry.1 keys)

/-- The settings that the entries of a table give. -/
def ofEntries (entries : List (String × Value)) : Except ReadError Settings :=
  entries.foldlM readEntry {}

/-- The settings that the items of an array give. -/
def ofItems : List Value → Except ReadError Settings
  | [] => .ok {}
  | [skip] => do return { skipSynthetic := ← skip.asBool }
  | [skip, oneBased] => do return ⟨← skip.asBool, ← oneBased.asBool⟩
  | skip :: oneBased :: rest => do
    let _ ← skip.asBool
    let _ ← oneBased.asBool
    .error (.tooLong (rest.length + 2))

def ofValue : Value → Except ReadError Settings
  | .table entries => ofEntries entries
  | .array items => ofItems items
  | other => .error (.wrongKind other (.record "CorrelateConfig"))

end CallAlign.Settings

import CallAlign.Settings.Reading
import CallAlign.Toml.Reader

/-!
# Settings in TOML

Settings are kept as a TOML table. A text that is no TOML is refused without a word; one that holds
other things than settings is refused with a reason.
-/

namespace CallAlign.Settings

/-- Why a TOML text gives no settings. -/
inductive TomlError where
  /-- The text breaks a rule of TOML. -/
  | malformed
  /-- The table holds something that is no setting. -/
  | unfit (error : ReadError)

/-- What is said about the refusal, if anything. -/
def TomlError.message? : TomlError → Option String
  | .malformed => none
  | .unfit error => some (error.message Toml.numberStyle)

/-- The settings in a text that `parse` takes for a table. -/
def ofTomlWith (parse : String → Option (List (String × Value))) (text : String) :
    Except TomlError Settings :=
  match parse text with
  | none => .error .malformed
  | some entries => (ofEntries entries).mapError .unfit

/-- The settings that a TOML text gives. -/
def ofToml (text : String) : Except TomlError Settings := ofTomlWith Toml.read? text

def toToml (settings : Settings) : String :=
  s!"skip_synthetic = {settings.skipSynthetic}\n" ++
    s!"one_based_positions = {settings.oneBasedPositions}\n"

end CallAlign.Settings

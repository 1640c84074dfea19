/-!
# Settings

The two switches of an alignment. Both are on unless a caller says otherwise.
-/

namespace CallAlign

/-- How an alignment treats synthetic calls and counts lines and columns. -/
structure Settings where
  /-- Synthetic calls claim their instruction but yield no operation. -/
  skipSynthetic : Bool := true
  /-- Lines and columns count from 1 instead of 0. -/
  oneBasedPositions : Bool := true
  deriving DecidableEq, Repr

namespace Settings

instance : Inhabited Settings := ⟨{}⟩

/-- The number of the first line and column. -/
def base (settings : Settings) : Nat := if settings.oneBasedPositions then 1 else 0

end Settings

end CallAlign

/-!
# Offsets

Byte offsets into a method's code, and the saturating sum that moves them. Offsets are natural
numbers that stay at or below `maxOffset`: an addition that would pass it stops there.
-/

namespace CallAlign

/-- The largest offset, that of a 64-bit word. -/
def maxOffset : Nat := 0xffffffffffffffff

/-- The sum of two offsets, held at `maxOffset`. -/
def satAdd (a b : Nat) : Nat := min (a + b) maxOffset

theorem satAdd_le_add (a b : Nat) : satAdd a b ≤ a + b := Nat.min_le_left ..

theorem satAdd_le_maxOffset (a b : Nat) : satAdd a b ≤ maxOffset := Nat.min_le_right ..

/-- Below the limit the sum is exact. -/
theorem satAdd_of_le {a b : Nat} (h : a + b ≤ maxOffset) : satAdd a b = a + b := Nat.min_eq_left h

/-- A positive step from below the limit moves forward. -/
theorem lt_satAdd {a b : Nat} (ha : a < maxOffset) (hb : 0 < b) : a < satAdd a b := by
  unfold satAdd
  omega

end CallAlign

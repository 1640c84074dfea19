import CallAlign.Bytecode.RangeList

/-!
# Validated range lists

Validation hands back the list it was given. A list that was validated before can still break one
rule for other code, that of ending inside it, because direction and order are up to the list
alone.

**Theorem (`excess?_eq_validate_again`).** Looking for the first range that ends past the code comes
to the same as validating all of them again, for code of any length.

So a range list can be built from its ranges and the proofs of their order, and be known to pass
for every code that is long enough (`validate_toList`).
-/

namespace CallAlign

namespace RangeList

theorem toList_of_validate {ranges : List CodeRange} {codeLength : Nat} {list : RangeList}
    (h : validate ranges codeLength = .ok list) : list.toList = ranges := by
  unfold validate at h
  split at h
  · cases h
  · cases h
    rfl

theorem validate_of_firstFault? {list : RangeList} {codeLength : Nat}
    (h : firstFault? codeLength none list.toList = none) :
    validate list.toList codeLength = .ok list := by
  unfold validate
  split
  · rename_i e he
    rw [h] at he
    cases he
  · rfl

theorem validate_of_firstFault?_eq_some {ranges : List CodeRange} {codeLength : Nat}
    {fault : RangeFault} (h : firstFault? codeLength none ranges = some fault) :
    validate ranges codeLength = .error fault := by
  unfold validate
  split
  · simp_all
  · simp_all

/-- A range in its place behind another one can only end past the code. -/
theorem faultAt?_of_behind {codeLength : Nat} {previous : Option Nat} {r : CodeRange}
    (forward : r.start ≤ r.stop) (behind : ∀ p ∈ previous, p ≤ r.start) :
    faultAt? codeLength previous r =
      if codeLength < r.stop then some (.outOfBounds r codeLength) else none := by
  unfold faultAt?
  rw [if_neg (Nat.not_lt.2 forward)]
  cases previous with
  | none => rfl
  | some p =>
    simp only
    rw [if_neg (Nat.not_lt.2 (behind p rfl))]

/-- Of ranges in order the first to end past the code is the first fault. -/
theorem firstFault?_of_ordered {codeLength : Nat} {previous : Option Nat}
    {ranges : List CodeRange} (forward : ∀ r ∈ ranges, r.start ≤ r.stop)
    (ordered : ranges.Pairwise fun r s => r.stop ≤ s.start)
    (behind : ∀ p ∈ previous, ∀ r ∈ ranges, p ≤ r.start) :
    firstFault? codeLength previous ranges =
      (ranges.find? fun r => codeLength < r.stop).map (.outOfBounds · codeLength) := by
  induction ranges generalizing previous with
  | nil => rfl
  | cons r rest ih =>
    obtain ⟨hr, hrest⟩ := List.pairwise_cons.1 ordered
    have hbehind : ∀ p ∈ previous, p ≤ r.start := fun p hp => behind p hp r (by simp)
    rw [firstFault?, faultAt?_of_behind (forward r (by simp)) hbehind]
    by_cases hpast : codeLength < r.stop
    · simp [hpast]
    · rw [if_neg hpast, List.find?_cons_of_neg (by simpa using hpast)]
      -- The stop of the head is what the tail is compared with.
      refine ih (fun s hs => forward s (by simp [hs])) hrest ?_
      rintro p ⟨⟩ s hs
      exact hr s hs

theorem firstFault?_eq_none {codeLength : Nat} {previous : Option Nat} {ranges : List CodeRange}
    (forward : ∀ r ∈ ranges, r.start ≤ r.stop) (inside : ∀ r ∈ ranges, r.stop ≤ codeLength)
    (ordered : ranges.Pairwise fun r s => r.stop ≤ s.start)
    (behind : ∀ p ∈ previous, ∀ r ∈ ranges, p ≤ r.start) :
    firstFault? codeLength previous ranges = none := by
  rw [firstFault?_of_ordered forward ordered behind, Option.map_eq_none_iff,
    List.find?_eq_none]
  intro r hr
  simpa using inside r hr

/-- The one thing that can be wrong with a range list is its excess. -/
theorem validate_toList_eq (list : RangeList) (codeLength : Nat) :
    validate list.toList codeLength =
      match list.excess? codeLength with
      | none => .ok list
      | some fault => .error fault := by
  have hfault : firstFault? codeLength none list.toList = list.excess? codeLength :=
    firstFault?_of_ordered list.forward list.ordered (by simp)
  cases hexcess : list.excess? codeLength with
  | none => exact validate_of_firstFault? (hfault.trans hexcess)
  | some fault => exact validate_of_firstFault?_eq_some (hfault.trans hexcess)

/-- A range list passes for every code that none of its ranges leaves. -/
theorem validate_toList {list : RangeList} {codeLength : Nat}
    (inside : ∀ r ∈ list.toList, r.stop ≤ codeLength) :
    validate list.toList codeLength = .ok list :=
  validate_of_firstFault? (firstFault?_eq_none list.forward inside list.ordered (by simp))

/-- The fault of a range list is that of a range past the code, and none in front of it is. -/
theorem excess?_eq_some_iff {list : RangeList} {codeLength : Nat} {fault : RangeFault} :
    list.excess? codeLength = some fault ↔ ∃ before r after,
      list.toList = before ++ r :: after ∧ fault = .outOfBounds r codeLength ∧
      codeLength < r.stop ∧ ∀ s ∈ before, s.stop ≤ codeLength := by
  rw [excess?, Option.map_eq_some_iff]
  constructor
  · rintro ⟨r, hfind, rfl⟩
    obtain ⟨hr, before, after, hsplit, hbefore⟩ := List.find?_eq_some_iff_append.1 hfind
    refine ⟨before, r, after, hsplit, rfl, by simpa using hr, ?_⟩
    intro s hs
    simpa using hbefore s hs
  · rintro ⟨before, r, after, hsplit, rfl, hr, hbefore⟩
    refine ⟨r, List.find?_eq_some_iff_append.2 ⟨by simpa using hr, before, after, hsplit, ?_⟩, rfl⟩
    intro s hs
    simpa using hbefore s hs

/-- What fits code fits longer code. -/
theorem excess?_eq_none_of_le {list : RangeList} {codeLength longer : Nat}
    (hle : codeLength ≤ longer) (h : list.excess? codeLength = none) :
    list.excess? longer = none := by
  simp only [excess?, Option.map_eq_none_iff, List.find?_eq_none, decide_eq_true_eq,
    Nat.not_lt] at h ⊢
  intro r hr
  exact Nat.le_trans (h r hr) hle

/-- **Validating again.** Take a range list, whatever code it was made for, and code of any length.
Validating its ranges for that code gives the list back if the list has no excess there, and
otherwise fails with the excess, which is the first range that ends past the code. A list without
an excess has none for longer code either. -/
theorem excess?_eq_validate_again (list : RangeList) (codeLength : Nat) :
    (list.excess? codeLength = none ↔ ∃ again, validate list.toList codeLength = .ok again) ∧
    (∀ again, validate list.toList codeLength = .ok again → again = list) ∧
    (∀ fault, list.excess? codeLength = some fault ↔
      validate list.toList codeLength = .error fault) ∧
    (∀ fault, list.excess? codeLength = some fault → ∃ before r after,
      list.toList = before ++ r :: after ∧ fault = .outOfBounds r codeLength ∧
      codeLength < r.stop ∧ ∀ s ∈ before, s.stop ≤ codeLength) ∧
    (∀ longer, codeLength ≤ longer → list.excess? codeLength = none →
      list.excess? longer = none) := by
  rw [validate_toList_eq]
  refine ⟨?_, ?_, ?_, fun fault => excess?_eq_some_iff.1, fun longer => excess?_eq_none_of_le⟩
  · cases list.excess? codeLength <;> simp
  · cases list.excess? codeLength <;> simp
  · cases list.excess? codeLength <;> simp

end RangeList

end CallAlign

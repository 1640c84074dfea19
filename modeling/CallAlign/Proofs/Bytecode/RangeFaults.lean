import Mathlib.Order.Nat
import CallAlign.Proofs.Bytecode.CallOffsets
import CallAlign.Proofs.Bytecode.RangeValidation

/-!
# Which range lists are refused, and why

Validation looks at one range at a time and compares it with the range right in front of it, so an
empty range stands between its neighbours like any other.

**Theorem (`validate_iff_wellFormed`).** It accepts exactly the lists whose ranges run forward
inside the code and of which any two, neighbours or not, are in order. A list that it refuses has a
shortest front part that is not well formed, and the fault is that of the last range there: an
inverted range is reported as such whatever else is wrong with it, and one past the code before an
overlap.

A fault is searched from front to back, so the fault of a list is that of its first faulty front
part (`firstFault?_append`). Everything else is told range by range.
-/

namespace CallAlign

namespace RangeList

variable {ranges : List CodeRange} {codeLength k : Nat}

/-- The ranges run forward inside the code, and each ends before any later one starts. -/
structure WellFormed (ranges : List CodeRange) (codeLength : Nat) : Prop where
  forward : ∀ r ∈ ranges, r.start ≤ r.stop
  inside : ∀ r ∈ ranges, r.stop ≤ codeLength
  ordered : ranges.Pairwise fun r s => r.stop ≤ s.start

/-- What is wrong with the range at index `k`, when those in front of it are well formed. -/
inductive FaultOf (ranges : List CodeRange) (codeLength k : Nat) : RangeFault → Prop
  | inverted {r : CodeRange} (hr : ranges[k]? = some r) (h : r.stop < r.start) :
      FaultOf ranges codeLength k (.inverted r)
  | outOfBounds {r : CodeRange} (hr : ranges[k]? = some r) (forward : r.start ≤ r.stop)
      (h : codeLength < r.stop) : FaultOf ranges codeLength k (.outOfBounds r codeLength)
  | overlapping {r previous : CodeRange} (hr : ranges[k]? = some r) (forward : r.start ≤ r.stop)
      (inside : r.stop ≤ codeLength) (hk : 0 < k) (hprevious : ranges[k - 1]? = some previous)
      (h : r.start < previous.stop) :
      FaultOf ranges codeLength k (.overlapping r previous.stop)

/-! ## Lists without a fault -/

theorem inside_of_faultAt? {previous : Option Nat} {r : CodeRange}
    (h : faultAt? codeLength previous r = none) : r.stop ≤ codeLength := by
  unfold faultAt? at h
  split at h
  · cases h
  · split at h
    · cases h
    · omega

theorem inside_of_firstFault? {previous : Option Nat}
    (h : firstFault? codeLength previous ranges = none) : ∀ r ∈ ranges, r.stop ≤ codeLength := by
  induction ranges generalizing previous with
  | nil => simp
  | cons r rest ih =>
    obtain ⟨hr, hrest⟩ := firstFault?_cons_eq_none h
    intro s hs
    rcases List.mem_cons.1 hs with rfl | hs
    · exact inside_of_faultAt? hr
    · exact ih hrest s hs

theorem firstFault?_eq_none_iff : firstFault? codeLength none ranges = none ↔
    WellFormed ranges codeLength := by
  constructor
  · intro h
    exact ⟨forward_of_firstFault? h, inside_of_firstFault? h, ordered_of_firstFault? h⟩
  · intro h
    exact firstFault?_eq_none h.forward h.inside h.ordered (by simp)

instance (ranges : List CodeRange) (codeLength : Nat) : Decidable (WellFormed ranges codeLength) :=
  decidable_of_iff _ firstFault?_eq_none_iff

theorem wellFormed_nil (codeLength : Nat) : WellFormed [] codeLength :=
  firstFault?_eq_none_iff.1 rfl

theorem exists_validate_iff :
    (∃ list, validate ranges codeLength = .ok list) ↔ WellFormed ranges codeLength := by
  constructor
  · rintro ⟨list, h⟩
    rw [← firstFault?_eq_none_iff]
    unfold validate at h
    split at h
    · cases h
    · assumption
  · intro h
    let list : RangeList := ⟨ranges, h.forward, h.ordered⟩
    have hvalidate : validate list.toList codeLength = .ok list := validate_toList h.inside
    exact ⟨list, hvalidate⟩

/-! ## The first fault -/

/-- The end that a range behind `before` is compared with. -/
def endOf (previous : Option Nat) (before : List CodeRange) : Option Nat :=
  (before.getLast?.map CodeRange.stop).or previous

theorem endOf_cons (previous : Option Nat) (r : CodeRange) (rest : List CodeRange) :
    endOf previous (r :: rest) = endOf (some r.stop) rest := by
  cases rest with
  | nil => rfl
  | cons s rest => simp [endOf, List.getLast?_cons]

theorem firstFault?_append (previous : Option Nat) (before after : List CodeRange) :
    firstFault? codeLength previous (before ++ after) =
      (firstFault? codeLength previous before).or
        (firstFault? codeLength (endOf previous before) after) := by
  induction before generalizing previous with
  | nil => rfl
  | cons r rest ih =>
    rw [List.cons_append, firstFault?, firstFault?, endOf_cons]
    cases h : faultAt? codeLength previous r with
    | none => exact ih (some r.stop)
    | some fault => rfl

theorem firstFault?_singleton (previous : Option Nat) (r : CodeRange) :
    firstFault? codeLength previous [r] = faultAt? codeLength previous r := by
  rw [firstFault?]
  cases faultAt? codeLength previous r <;> rfl

/-- Of the rules that a range breaks, the fault names the first one. -/
theorem faultOf_of_faultAt? {r : CodeRange} {fault : RangeFault} (hr : ranges[k]? = some r)
    (h : faultAt? codeLength (endOf none (ranges.take k)) r = some fault) :
    FaultOf ranges codeLength k fault := by
  unfold faultAt? at h
  by_cases hinverted : r.stop < r.start
  · rw [if_pos hinverted] at h
    cases h
    exact .inverted hr hinverted
  rw [if_neg hinverted] at h
  by_cases hpast : codeLength < r.stop
  · rw [if_pos hpast] at h
    cases h
    exact .outOfBounds hr (by omega) hpast
  rw [if_neg hpast] at h
  -- What is left is an overlap with the last range in front, so there is one.
  by_cases hk : k = 0
  · subst hk
    cases h
  · have hlt : k < ranges.length := (List.getElem?_eq_some_iff.1 hr).1
    have hlast : (ranges.take k).getLast? = some ranges[k - 1] := by
      rw [List.getLast?_take, if_neg hk, List.getElem?_eq_getElem (by omega), Option.some_or]
    simp only [endOf, hlast, Option.map_some, Option.some_or] at h
    split at h
    · cases h
      exact .overlapping hr (by omega) (by omega) (by omega) (List.getElem?_eq_getElem _) ‹_›
    · cases h

/-- A list is refused for the last range of its shortest front part that is not well formed. -/
theorem exists_faultOf
    (h : IsLeast {k | ¬ WellFormed (ranges.take (k + 1)) codeLength} k) :
    ∃ fault, FaultOf ranges codeLength k fault ∧ validate ranges codeLength = .error fault := by
  obtain ⟨hmem, hleast⟩ := h
  have hbad : firstFault? codeLength none (ranges.take (k + 1)) ≠ none :=
    fun hnone => hmem (firstFault?_eq_none_iff.1 hnone)
  have hfront : firstFault? codeLength none (ranges.take k) = none := by
    rw [firstFault?_eq_none_iff]
    cases k with
    | zero => exact wellFormed_nil codeLength
    | succ j =>
      by_contra hj
      exact absurd (hleast hj) (Nat.not_succ_le_self j)
  have hlt : k < ranges.length := by
    by_contra hge
    rw [List.take_of_length_le (by omega)] at hfront hbad
    exact hbad hfront
  have htake : firstFault? codeLength none (ranges.take (k + 1)) =
      faultAt? codeLength (endOf none (ranges.take k)) ranges[k] := by
    rw [← List.take_append_getElem hlt, firstFault?_append, hfront, Option.none_or,
      firstFault?_singleton]
  obtain ⟨fault, hfault⟩ := Option.ne_none_iff_exists'.1 hbad
  refine ⟨fault, faultOf_of_faultAt? (List.getElem?_eq_getElem hlt) (htake ▸ hfault), ?_⟩
  apply validate_of_firstFault?_eq_some
  rw [← List.take_append_drop (k + 1) ranges, firstFault?_append, hfault, Option.some_or]

theorem exists_isLeast (h : ¬ WellFormed ranges codeLength) :
    ∃ k, IsLeast {k | ¬ WellFormed (ranges.take (k + 1)) codeLength} k := by
  have hbad : ∃ k, ¬ WellFormed (ranges.take (k + 1)) codeLength := by
    refine ⟨ranges.length, ?_⟩
    rwa [List.take_of_length_le (Nat.le_succ _)]
  exact ⟨_, Nat.isLeast_find hbad⟩

/-! ## Bounds in a row -/

/-- The bounds of the ranges one after another. -/
def flatten (ranges : List CodeRange) : List Nat := ranges.flatMap fun r => [r.start, r.stop]

theorem length_flatten (ranges : List CodeRange) : (flatten ranges).length = ranges.length * 2 := by
  simp [flatten, List.length_flatMap, List.map_const']

theorem pairUp_flatten (ranges : List CodeRange) : pairUp (flatten ranges) = ranges := by
  induction ranges with
  | nil => rfl
  | cons r rest ih =>
    show r :: pairUp (flatten rest) = r :: rest
    rw [ih]

theorem ofPairs_flatten (ranges : List CodeRange) (codeLength : Nat) :
    ofPairs (flatten ranges) codeLength = validate ranges codeLength := by
  unfold ofPairs
  rw [length_flatten, Nat.mul_mod_left, if_neg (by simp), pairUp_flatten]

theorem ofPairs_of_odd {bounds : List Nat} (h : bounds.length % 2 = 1) (codeLength : Nat) :
    ofPairs bounds codeLength = .error (.oddPairCount bounds.length) := by
  unfold ofPairs
  rw [if_pos (by omega)]

/-- **Exactly the well-formed lists.** Validation accepts a list iff it is well formed, and hands it
back as it is, so that no offset lies in two of its ranges. It refuses any other list for the last
range of the shortest front part that is not well formed. Bounds in a row are validated as the
ranges they make up, and refused when their number is odd, whatever they are. -/
theorem validate_iff_wellFormed (ranges : List CodeRange) (codeLength : Nat) :
    ((∃ list, validate ranges codeLength = .ok list) ↔ WellFormed ranges codeLength) ∧
    (∀ list, validate ranges codeLength = .ok list → list.toList = ranges ∧
      ∀ (i j offset : Nat) (r s : CodeRange), ranges[i]? = some r → ranges[j]? = some s →
        r.contains offset = true → s.contains offset = true → i = j) ∧
    (¬ WellFormed ranges codeLength → ∃ k fault,
      IsLeast {k | ¬ WellFormed (ranges.take (k + 1)) codeLength} k ∧
      FaultOf ranges codeLength k fault ∧ validate ranges codeLength = .error fault) ∧
    ofPairs (flatten ranges) codeLength = validate ranges codeLength ∧
    (∀ bounds : List Nat, bounds.length % 2 = 1 →
      ofPairs bounds codeLength = .error (.oddPairCount bounds.length)) := by
  refine ⟨exists_validate_iff, ?_, ?_, ofPairs_flatten ranges codeLength, ?_⟩
  · intro list hlist
    have htoList := toList_of_validate hlist
    refine ⟨htoList, ?_⟩
    intro i j offset r s hr hs hir hjs
    rw [← htoList] at hr hs
    exact list.index_eq_of_contains hr hs hir hjs
  · intro h
    obtain ⟨k, hk⟩ := exists_isLeast h
    obtain ⟨fault, hfault, hvalidate⟩ := exists_faultOf hk
    exact ⟨k, fault, hk, hfault, hvalidate⟩
  · intro bounds hodd
    exact ofPairs_of_odd hodd codeLength

-- An empty range in between is what the next one is compared with.
example : validate [⟨4, 8⟩, ⟨9, 9⟩, ⟨6, 9⟩] 10 = .error (.overlapping ⟨6, 9⟩ 9) := rfl

end RangeList

end CallAlign

/-!
# Ranges of code

A half-open range of code offsets, and the ordered lists of ranges that a group of source lines
compiles to. A `RangeList` carries the proof that its ranges run forward and do not overlap;
`RangeList.validate` is the way in, and names the first range that breaks a rule.
-/

namespace CallAlign

/-- The offsets from `start` up to, not including, `stop`. -/
structure CodeRange where
  start : Nat
  stop : Nat
  deriving DecidableEq, Repr

namespace CodeRange

/-- The number of offsets in the range, none when it is inverted. -/
def length (r : CodeRange) : Nat := r.stop - r.start

def isEmpty (r : CodeRange) : Bool := r.stop ≤ r.start

def contains (r : CodeRange) (offset : Nat) : Bool := r.start ≤ offset && offset < r.stop

/-- Ranges are ordered by start, then by stop. -/
def compare (r s : CodeRange) : Ordering :=
  (Ord.compare r.start s.start).then (Ord.compare r.stop s.stop)

/-- The bounds as they appear in messages. -/
def bounds (r : CodeRange) : String := s!"{r.start}..{r.stop}"

/-- The range as it appears in debugging output. -/
def debug (r : CodeRange) : String := s!"IndexRange({r.bounds})"

end CodeRange

/-- Why a list of ranges is refused. -/
inductive RangeFault where
  /-- The range ends before it starts. -/
  | inverted (range : CodeRange)
  /-- The range ends past the code. -/
  | outOfBounds (range : CodeRange) (codeLength : Nat)
  /-- The range starts before the end of the one in front of it. -/
  | overlapping (range : CodeRange) (previousStop : Nat)
  /-- A flat list of bounds has an odd number of entries. -/
  | oddPairCount (entries : Nat)
  deriving DecidableEq, Repr

def RangeFault.message : RangeFault → String
  | .inverted r => s!"index range {r.bounds} is inverted"
  | .outOfBounds r n => s!"index range {r.bounds} exceeds code length {n}"
  | .overlapping r p => s!"index range {r.bounds} starts before the previous range end {p}"
  | .oddPairCount n => s!"index list must contain from/to pairs, got {n} entries"

/-- Ranges that run forward, each ending before any later one starts. -/
structure RangeList where
  toList : List CodeRange
  forward : ∀ r ∈ toList, r.start ≤ r.stop
  ordered : toList.Pairwise fun r s => r.stop ≤ s.start

namespace RangeList

def empty : RangeList := ⟨[], by simp, .nil⟩

instance : Inhabited RangeList := ⟨empty⟩

/-- The rule that `r` breaks behind a range that ends at `previous`, in code of `codeLength`
bytes. -/
def faultAt? (codeLength : Nat) (previous : Option Nat) (r : CodeRange) : Option RangeFault :=
  if r.stop < r.start then some (.inverted r)
  else if codeLength < r.stop then some (.outOfBounds r codeLength)
  else match previous with
    | some p => if r.start < p then some (.overlapping r p) else none
    | none => none

/-- The fault of the first faulty range, each range compared with the one in front of it. -/
def firstFault? (codeLength : Nat) : Option Nat → List CodeRange → Option RangeFault
  | _, [] => none
  | previous, r :: rest =>
    match faultAt? codeLength previous r with
    | some e => some e
    | none => firstFault? codeLength (some r.stop) rest

theorem forward_of_faultAt? {codeLength : Nat} {previous : Option Nat} {r : CodeRange}
    (h : faultAt? codeLength previous r = none) : r.start ≤ r.stop := by
  unfold faultAt? at h
  split at h
  · cases h
  · omega

theorem previous_le_of_faultAt? {codeLength p : Nat} {r : CodeRange}
    (h : faultAt? codeLength (some p) r = none) : p ≤ r.start := by
  unfold faultAt? at h
  split at h
  · cases h
  · split at h
    · cases h
    · simp only at h
      split at h
      · cases h
      · omega

theorem firstFault?_cons_eq_none {codeLength : Nat} {previous : Option Nat} {r : CodeRange}
    {rest : List CodeRange} (h : firstFault? codeLength previous (r :: rest) = none) :
    faultAt? codeLength previous r = none ∧ firstFault? codeLength (some r.stop) rest = none := by
  rw [firstFault?] at h
  split at h
  · cases h
  · exact ⟨‹_›, h⟩

theorem forward_of_firstFault? {codeLength : Nat} {previous : Option Nat}
    {ranges : List CodeRange} (h : firstFault? codeLength previous ranges = none) :
    ∀ r ∈ ranges, r.start ≤ r.stop := by
  induction ranges generalizing previous with
  | nil => simp
  | cons r rest ih =>
    obtain ⟨hr, hrest⟩ := firstFault?_cons_eq_none h
    intro s hs
    rcases List.mem_cons.1 hs with rfl | hs
    · exact forward_of_faultAt? hr
    · exact ih hrest s hs

/-- Comparing neighbours is enough: the stops grow along the list. -/
theorem le_start_of_firstFault? {codeLength p : Nat} {ranges : List CodeRange}
    (h : firstFault? codeLength (some p) ranges = none) : ∀ r ∈ ranges, p ≤ r.start := by
  induction ranges generalizing p with
  | nil => simp
  | cons r rest ih =>
    obtain ⟨hr, hrest⟩ := firstFault?_cons_eq_none h
    have hp := previous_le_of_faultAt? hr
    have hf := forward_of_faultAt? hr
    intro s hs
    rcases List.mem_cons.1 hs with rfl | hs
    · exact hp
    · exact Nat.le_trans (Nat.le_trans hp hf) (ih hrest s hs)

theorem ordered_of_firstFault? {codeLength : Nat} {previous : Option Nat}
    {ranges : List CodeRange} (h : firstFault? codeLength previous ranges = none) :
    ranges.Pairwise fun r s => r.stop ≤ s.start := by
  induction ranges generalizing previous with
  | nil => exact .nil
  | cons r rest ih =>
    obtain ⟨_, hrest⟩ := firstFault?_cons_eq_none h
    exact .cons (le_start_of_firstFault? hrest) (ih hrest)

/-- The ranges as a list for code of `codeLength` bytes, or the first fault in it. -/
def validate (ranges : List CodeRange) (codeLength : Nat) : Except RangeFault RangeList :=
  match h : firstFault? codeLength none ranges with
  | some e => .error e
  | none => .ok ⟨ranges, forward_of_firstFault? h, ordered_of_firstFault? h⟩

/-- The ranges whose bounds follow one another in `bounds`, a last lone bound left out. -/
def pairUp : List Nat → List CodeRange
  | start :: stop :: rest => ⟨start, stop⟩ :: pairUp rest
  | _ => []

/-- The list given by its bounds one after another. -/
def ofPairs (bounds : List Nat) (codeLength : Nat) : Except RangeFault RangeList :=
  if bounds.length % 2 ≠ 0 then .error (.oddPairCount bounds.length)
  else validate (pairUp bounds) codeLength

/-- The first range that ends past code of `codeLength` bytes, as a fault. -/
def excess? (ranges : RangeList) (codeLength : Nat) : Option RangeFault :=
  (ranges.toList.find? fun r => codeLength < r.stop).map (.outOfBounds · codeLength)

end RangeList

end CallAlign

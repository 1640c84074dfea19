import CallAlign.Bytecode.Instruction.Walk

/-!
# The range cursor

A cursor scans the ranges of one code for call instructions, from the first range to the last,
and never returns to a range it has left. `Cursor.nextCall` finds the next call and stays on it;
`Cursor.consume` steps past an instruction. Within a range the cursor goes from instruction to
instruction, starting at the start of the range; it leaves the range at its end or at the end of
the code, whichever comes first.

`Cursor.drain` repeats the two until no call is left. It ends because each round takes the pair of
ranges still to come and bytes left in the current one down, in lexicographic order.
-/

namespace CallAlign

/-- What a scan of one range comes to. -/
inductive Seek where
  /-- A call instruction stands at the offset. -/
  | found (offset : Nat)
  /-- The range has no call left; the scan stopped at the offset. -/
  | passed (position : Nat)
  deriving DecidableEq, Repr

/-- The first call among the instructions from `position` on that start before `stop`. -/
def Code.seekCall (code : Code) (position stop : Nat) : Seek :=
  if _hstop : position < stop then
    match _h : code.byte? position with
    | some op =>
      if Opcode.isCall op then .found position
      else code.seekCall (satAdd position (code.instructionSize op position)) stop
    | none => .passed position
  else .passed position
termination_by stop - position
decreasing_by
  have := Code.lt_step op (Code.lt_size_of_byte? _h)
  omega

/-- A scan position in a list of ranges. -/
structure Cursor where
  /-- The place of the current range in the list. -/
  index : Nat
  /-- The offset that the scan has reached. -/
  position : Nat
  /-- The end of the current range. -/
  stop : Nat
  /-- The ranges still to come. -/
  later : List CodeRange
  deriving DecidableEq, Repr

/-- The entry of a cursor into a later range. -/
structure Move where
  index : Nat
  range : CodeRange
  deriving DecidableEq, Repr

/-- The outcome of a scan: the call found, the cursor after it and the ranges entered. -/
structure Scan where
  found : Option Nat
  cursor : Cursor
  moves : List Move
  deriving DecidableEq, Repr

namespace Cursor

/-- The cursor at the start of the first range, or of nothing when there is no range. -/
def start (ranges : RangeList) : Cursor :=
  match ranges.toList with
  | [] => ⟨0, 0, 0, []⟩
  | r :: later => ⟨0, r.start, r.stop, later⟩

/-- The scan for the next call from a cursor given by its parts. -/
def nextCallFrom (code : Code) (index position stop : Nat) (later : List CodeRange) : Scan :=
  match code.seekCall position stop with
  | .found offset => ⟨some offset, ⟨index, offset, stop, later⟩, []⟩
  | .passed reached =>
    match later with
    | [] => ⟨none, ⟨index, reached, stop, []⟩, []⟩
    | r :: rest =>
      let scan := nextCallFrom code (index + 1) r.start r.stop rest
      ⟨scan.found, scan.cursor, ⟨index + 1, r⟩ :: scan.moves⟩

/-- The next call instruction at or after the cursor, which stays on it. -/
def nextCall (code : Code) (c : Cursor) : Scan :=
  nextCallFrom code c.index c.position c.stop c.later

/-- The offset behind the instruction at `offset`; past the code every instruction has a byte. -/
def offsetBehind (code : Code) (offset : Nat) : Nat :=
  satAdd offset (((code.byte? offset).map fun op => code.instructionSize op offset).getD 1)

/-- The cursor moved behind the instruction at `offset`. -/
def consume (code : Code) (c : Cursor) (offset : Nat) : Cursor :=
  { c with position := offsetBehind code offset }

/-! ## Draining -/

theorem seekCall_eq_found {code : Code} {position stop offset : Nat}
    (h : code.seekCall position stop = .found offset) :
    position ≤ offset ∧ offset < stop ∧ offset < code.size := by
  fun_induction Code.seekCall code position stop with
  | case1 position hlt op hop _ =>
    cases h
    exact ⟨Nat.le_refl _, hlt, Code.lt_size_of_byte? hop⟩
  | case2 position _ op hop _ ih =>
    obtain ⟨hle, hrest⟩ := ih h
    exact ⟨Nat.le_trans (Nat.le_of_lt (Code.lt_step op (Code.lt_size_of_byte? hop))) hle, hrest⟩
  | case3 => cases h
  | case4 => cases h

/-- A call that a scan finds lies inside the range it ends in, and either the scan entered a later
range or the call is not before the position the scan began at. -/
theorem nextCallFrom_eq_some {code : Code} {index position stop offset : Nat}
    {later : List CodeRange}
    (h : (nextCallFrom code index position stop later).found = some offset) :
    let c := (nextCallFrom code index position stop later).cursor
    offset < c.stop ∧ offset < code.size ∧
      (c.later.length < later.length ∨ c.later = later ∧ c.stop = stop ∧ position ≤ offset) := by
  induction later generalizing index position stop with
  | nil =>
    unfold nextCallFrom at h ⊢
    split at h
    · rename_i o ho
      cases h
      have := seekCall_eq_found ho
      simp [this]
    · cases h
  | cons r rest ih =>
    unfold nextCallFrom at h ⊢
    split at h
    · rename_i o ho
      cases h
      have := seekCall_eq_found ho
      simp [this]
    · rename_i o ho
      simp only
      obtain ⟨h1, h2, h3⟩ := ih h
      refine ⟨h1, h2, .inl ?_⟩
      rcases h3 with h3 | ⟨h3, _⟩
      · exact Nat.lt_succ_of_lt h3
      · simp [h3]

theorem lt_offsetBehind {code : Code} {offset : Nat} (h : offset < code.size) :
    offset < offsetBehind code offset := by
  refine lt_satAdd (Nat.lt_trans h code.size_lt_maxOffset) ?_
  cases code.byte? offset with
  | none => exact Nat.one_pos
  | some op => exact code.instructionSize_pos op offset

/-- The calls left for a cursor, where it comes to rest, and the ranges it enters on the way. -/
structure Drained where
  offsets : List Nat
  cursor : Cursor
  moves : List Move
  deriving DecidableEq, Repr

/-- All calls from the cursor on, each found and then consumed. -/
def drain (code : Code) (c : Cursor) : Drained :=
  let scan := c.nextCall code
  match _h : scan.found with
  | none => ⟨[], scan.cursor, scan.moves⟩
  | some offset =>
    let rest := drain code (scan.cursor.consume code offset)
    ⟨offset :: rest.offsets, rest.cursor, scan.moves ++ rest.moves⟩
termination_by (c.later.length, c.stop - c.position)
decreasing_by
  obtain ⟨hstop, hsize, hmove⟩ := nextCallFrom_eq_some _h
  have hbehind := lt_offsetBehind hsize
  simp only [scan, nextCall, consume] at *
  rcases hmove with hlater | ⟨hlater, hsame, hle⟩
  · exact Prod.Lex.left _ _ hlater
  · rw [hlater, hsame]
    exact Prod.Lex.right _ (by omega)

/-! ## Steps -/

/-- What can be asked of a cursor. -/
inductive Step where
  /-- Find the next call. -/
  | next
  /-- Step past the instruction at an offset, whatever the cursor's position. -/
  | consume (offset : Nat)
  /-- Find the first call left over. -/
  | remaining
  /-- Tell whether no call is left over. -/
  | noneRemain
  deriving DecidableEq, Repr

/-- What a step answers. -/
inductive Answer where
  /-- The step has nothing to tell. -/
  | done
  /-- The call found, if there was one. -/
  | call (offset : Option Nat)
  /-- Whether no call is left over. -/
  | clear (yes : Bool)
  deriving DecidableEq, Repr

/-- The answer of a step, the cursor after it and the ranges entered. -/
structure Outcome where
  answer : Answer
  cursor : Cursor
  moves : List Move
  deriving DecidableEq, Repr

def step (code : Code) (c : Cursor) : Step → Outcome
  | .next | .remaining =>
    let scan := c.nextCall code
    ⟨.call scan.found, scan.cursor, scan.moves⟩
  | .noneRemain =>
    let scan := c.nextCall code
    ⟨.clear scan.found.isNone, scan.cursor, scan.moves⟩
  | .consume offset => ⟨.done, c.consume code offset, []⟩

end Cursor

end CallAlign

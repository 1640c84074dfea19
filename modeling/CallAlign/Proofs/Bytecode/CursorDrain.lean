import CallAlign.Bytecode.Cursor
import CallAlign.Proofs.Bytecode.CallOffsets

/-!
# The cursor finds the calls of the walk

A cursor and a walk step through code by the same rule, each in a loop of its own. The calls a
cursor has yet to reach are `Cursor.pending`: those of the walk from its position to the end of
its range, then those of the ranges still to come.

**Theorem (`drain_after_steps`).** Take a cursor from the start of a range list through any
sequence of steps, with instructions consumed in any order and at any offset. Draining it then
gives the calls of the walk from its position to the end of the range at its index, followed by
the calls of the later ranges.

The proof has two halves. A scan finds the head of `pending` and consuming it leaves the tail, so
a drain lists `pending`, whatever the cursor. And a step may move the position anywhere, but the
end of the range and the ranges to come always belong to the index (`Cursor.Tracks`).
-/

namespace CallAlign

/-! ## One range -/

namespace Code

theorem offsetBehind_of_byte? {code : Code} {offset : Nat} {op : Opcode}
    (h : code.byte? offset = some op) :
    Cursor.offsetBehind code offset = satAdd offset (code.instructionSize op offset) := by
  simp [Cursor.offsetBehind, h]

/-- What a scan finds is the first call of the walk, and the rest lies behind it. -/
theorem callsIn_of_seekCall_eq_found {code : Code} {position stop offset : Nat}
    (h : code.seekCall position stop = .found offset) :
    code.callsIn ⟨position, stop⟩ =
      offset :: code.callsIn ⟨Cursor.offsetBehind code offset, stop⟩ := by
  fun_induction seekCall code position stop with
  | case1 position hlt op hop hcall =>
    cases h
    rw [callsIn_of_isCall hlt hop hcall, offsetBehind_of_byte? hop]
  | case2 position hlt op hop hcall ih =>
    rw [callsIn_of_not_isCall hlt hop (by simpa using hcall)]
    exact ih h
  | case3 => cases h
  | case4 => cases h

/-- A scan that passes its range leaves no call of the walk behind. -/
theorem callsIn_of_seekCall_eq_passed {code : Code} {position stop reached : Nat}
    (h : code.seekCall position stop = .passed reached) :
    code.callsIn ⟨position, stop⟩ = [] := by
  fun_induction seekCall code position stop with
  | case1 => cases h
  | case2 position hlt op hop hcall ih =>
    rw [callsIn_of_not_isCall hlt hop (by simpa using hcall)]
    exact ih h
  | case3 position _ hnone => exact callsIn_of_byte?_eq_none stop hnone
  | case4 position hge => exact callsIn_of_le (Nat.not_lt.1 hge)

end Code

/-! ## The ways a scan can go -/

namespace Cursor

/-- How a scan from a cursor goes: it finds a call in the current range, or passes the range and
ends there, or goes on in the next one. -/
inductive Scanning (code : Code) : Cursor → Scan → Prop
  | found {index position stop offset : Nat} {later : List CodeRange}
      (hseek : code.seekCall position stop = .found offset) :
      Scanning code ⟨index, position, stop, later⟩
        ⟨some offset, ⟨index, offset, stop, later⟩, []⟩
  | ended {index position stop reached : Nat}
      (hseek : code.seekCall position stop = .passed reached) :
      Scanning code ⟨index, position, stop, []⟩ ⟨none, ⟨index, reached, stop, []⟩, []⟩
  | moved {index position stop reached : Nat} {r : CodeRange} {rest : List CodeRange}
      {scan : Scan} (hseek : code.seekCall position stop = .passed reached)
      (next : Scanning code ⟨index + 1, r.start, r.stop, rest⟩ scan) :
      Scanning code ⟨index, position, stop, r :: rest⟩
        ⟨scan.found, scan.cursor, ⟨index + 1, r⟩ :: scan.moves⟩

theorem scanning_nextCall (code : Code) (c : Cursor) : Scanning code c (c.nextCall code) := by
  obtain ⟨index, position, stop, later⟩ := c
  simp only [nextCall]
  induction later generalizing index position stop with
  | nil =>
    unfold nextCallFrom
    split
    · exact .found ‹_›
    · exact .ended ‹_›
  | cons r rest ih =>
    unfold nextCallFrom
    split
    · exact .found ‹_›
    · exact .moved ‹_› (ih (index + 1) r.start r.stop)

/-! ## The calls still to come -/

/-- The calls that the cursor has yet to reach. -/
def pending (code : Code) (c : Cursor) : List Nat :=
  code.callsIn ⟨c.position, c.stop⟩ ++ code.callsInAll c.later

theorem pending_start (code : Code) (ranges : RangeList) :
    (start ranges).pending code = code.callsInAll ranges.toList := by
  unfold start
  split
  · rename_i h
    simp [pending, h, Code.callsIn_of_le]
  · rename_i r later h
    simp [pending, h]

/-- A range that was passed holds nothing to come. -/
theorem pending_of_passed {code : Code} {index position stop reached : Nat} {r : CodeRange}
    {rest : List CodeRange} (hseek : code.seekCall position stop = .passed reached) :
    pending code ⟨index, position, stop, r :: rest⟩ =
      pending code ⟨index + 1, r.start, r.stop, rest⟩ := by
  simp [pending, Code.callsIn_of_seekCall_eq_passed hseek]

/-- A scan that finds nothing had nothing to find. -/
theorem Scanning.pending_eq_nil {code : Code} {c : Cursor} {scan : Scan}
    (h : Scanning code c scan) (hfound : scan.found = none) : c.pending code = [] := by
  induction h with
  | found => cases hfound
  | ended hseek => simp [pending, Code.callsIn_of_seekCall_eq_passed hseek]
  | moved hseek _ ih =>
    rw [pending_of_passed hseek]
    exact ih hfound

/-- A scan finds the first call still to come, and consuming it leaves the others. -/
theorem Scanning.pending_eq_cons {code : Code} {c : Cursor} {scan : Scan} {offset : Nat}
    (h : Scanning code c scan) (hfound : scan.found = some offset) :
    c.pending code = offset :: (scan.cursor.consume code offset).pending code := by
  induction h with
  | found hseek =>
    cases hfound
    simp [pending, consume, Code.callsIn_of_seekCall_eq_found hseek]
  | ended => cases hfound
  | moved hseek _ ih =>
    rw [pending_of_passed hseek]
    exact ih hfound

/-- **A drain lists what is pending**, whatever the cursor. -/
theorem drain_offsets (code : Code) (c : Cursor) : (c.drain code).offsets = c.pending code := by
  fun_induction drain code c with
  | case1 c scan hnone => exact ((scanning_nextCall code c).pending_eq_nil hnone).symm
  | case2 c scan offset hsome rest ih =>
    rw [(scanning_nextCall code c).pending_eq_cons hsome, ← ih]

/-! ## The place in the list -/

/-- The cursor stands in the range of the list at its index, or nowhere when there is no range.
Its position is free. -/
inductive Tracks : List CodeRange → Cursor → Prop
  | nowhere (position : Nat) : Tracks [] ⟨0, position, 0, []⟩
  | within (before : List CodeRange) (r : CodeRange) (later : List CodeRange) (position : Nat) :
      Tracks (before ++ r :: later) ⟨before.length, position, r.stop, later⟩

theorem tracks_start (ranges : RangeList) : Tracks ranges.toList (start ranges) := by
  unfold start
  split
  · rename_i h
    rw [h]
    exact .nowhere 0
  · rename_i r later h
    rw [h]
    exact .within [] r later r.start

theorem Tracks.consume {ranges : List CodeRange} {c : Cursor} (h : Tracks ranges c)
    (code : Code) (offset : Nat) : Tracks ranges (c.consume code offset) := by
  cases h with
  | nowhere => exact .nowhere _
  | within before r later => exact .within before r later _

/-- Entering the next range keeps track of it: the range that was left joins those in front. -/
theorem Tracks.enter {ranges : List CodeRange} {index position stop : Nat} {r : CodeRange}
    {rest : List CodeRange} (h : Tracks ranges ⟨index, position, stop, r :: rest⟩) :
    Tracks ranges ⟨index + 1, r.start, r.stop, rest⟩ := by
  cases h with
  | within before left =>
    have hnext := Tracks.within (before ++ [left]) r rest r.start
    rwa [List.append_assoc, List.length_append] at hnext

theorem Tracks.scan {ranges : List CodeRange} {code : Code} {c : Cursor} {scan : Scan}
    (h : Tracks ranges c) (hscan : Scanning code c scan) : Tracks ranges scan.cursor := by
  induction hscan with
  | found =>
    cases h with
    | nowhere => exact .nowhere _
    | within before r => exact .within before r _ _
  | ended =>
    cases h with
    | nowhere => exact .nowhere _
    | within before r => exact .within before r _ _
  | moved _ _ ih => exact ih h.enter

theorem Tracks.nextCall {ranges : List CodeRange} {c : Cursor} (h : Tracks ranges c)
    (code : Code) : Tracks ranges (c.nextCall code).cursor :=
  h.scan (scanning_nextCall code c)

theorem Tracks.step {ranges : List CodeRange} {c : Cursor} (h : Tracks ranges c) (code : Code)
    (s : Step) : Tracks ranges (c.step code s).cursor := by
  cases s with
  | next => exact h.nextCall code
  | consume offset => exact h.consume code offset
  | remaining => exact h.nextCall code
  | noneRemain => exact h.nextCall code

/-- The cursor after `steps`, taken one after another. -/
def after (code : Code) : Cursor → List Step → Cursor
  | c, [] => c
  | c, s :: rest => after code (c.step code s).cursor rest

theorem Tracks.after {ranges : List CodeRange} {c : Cursor} (h : Tracks ranges c) (code : Code)
    (steps : List Step) : Tracks ranges (c.after code steps) := by
  induction steps generalizing c with
  | nil => exact h
  | cons s rest ih => exact ih (h.step code s)

/-- The calls still to come, read off the list, the index and the position. -/
theorem Tracks.pending {ranges : List CodeRange} {c : Cursor} (h : Tracks ranges c)
    (code : Code) :
    ranges = [] ∧ c.pending code = [] ∨
      ∃ r, ranges[c.index]? = some r ∧ c.pending code =
        code.callsIn ⟨c.position, r.stop⟩ ++ code.callsInAll (ranges.drop (c.index + 1)) := by
  cases h with
  | nowhere position =>
    left
    simp [Cursor.pending, Code.callsIn_of_le]
  | within before r later position =>
    right
    refine ⟨r, by simp, ?_⟩
    simp [Cursor.pending]

/-- **The cursor refines the walk.** After any steps from the start of a range list, a drain gives
the calls of the walk from the cursor's position to the end of the range at its index, then those
of the later ranges; without a range it gives nothing. From the start itself it gives the calls of
all ranges. -/
theorem drain_after_steps (code : Code) (ranges : RangeList) (steps : List Step) :
    let c := (start ranges).after code steps
    (ranges.toList = [] ∧ (c.drain code).offsets = [] ∨
      ∃ r, ranges.toList[c.index]? = some r ∧ (c.drain code).offsets =
        code.callsIn ⟨c.position, r.stop⟩ ++ code.callsInAll (ranges.toList.drop (c.index + 1))) ∧
    ((start ranges).drain code).offsets = code.callsInAll ranges.toList := by
  intro c
  rw [drain_offsets, drain_offsets, pending_start]
  exact ⟨((tracks_start ranges).after code steps).pending code, rfl⟩

end Cursor

end CallAlign

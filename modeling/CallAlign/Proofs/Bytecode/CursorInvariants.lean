import Mathlib.Data.List.Intervals
import CallAlign.Proofs.Bytecode.CursorDrain

/-!
# What a cursor keeps to

A cursor takes any steps in any order: scans of three kinds, and jumps behind the instruction at an
offset of the caller's choice, also backwards and past the code.

**Theorem (`invariants_after_steps`).** At every point the cursor stands in a range of its list,
with the stop of that range, and has entered the ranges up to it one by one and each once. A scan
that finds a call rests on it, and one that finds none rests in the last range. Until the next jump
every further scan gives the same answer, moves nothing and enters nothing.

`Cursor.Tracks` ties the index to the list whatever the position, so the moves can be told from the
indices before and after (`Entries`), and those of a whole run are put together step by step. That
a scan can be repeated comes down to the range it ends in: the scan of that range has stopped at a
call, at the end of the range or at the end of the code, and each of these stops it again.
-/

namespace CallAlign

/-! ## Entering ranges -/

/-- `moves` enter the ranges behind place `first` of a list, up to place `last`, each once and in
order. -/
structure Entries (ranges : List CodeRange) (first last : Nat) (moves : List Move) : Prop where
  le : first ≤ last
  indices : moves.map Move.index = List.Ico (first + 1) (last + 1)
  ranges : ∀ move ∈ moves, ranges[move.index]? = some move.range

namespace Entries

variable {ranges : List CodeRange} {first middle last : Nat} {moves later : List Move}

theorem nil (ranges : List CodeRange) (first : Nat) : Entries ranges first first [] where
  le := Nat.le_refl _
  indices := by simp
  ranges := by simp

theorem cons {r : CodeRange} (hr : ranges[first + 1]? = some r)
    (h : Entries ranges (first + 1) last moves) :
    Entries ranges first last (⟨first + 1, r⟩ :: moves) where
  le := Nat.le_of_succ_le h.le
  indices := by rw [List.map_cons, h.indices, List.Ico.eq_cons (Nat.lt_succ_of_le h.le)]
  ranges := by
    intro move hmove
    rcases List.mem_cons.1 hmove with rfl | hmove
    · exact hr
    · exact h.ranges move hmove

theorem append (h : Entries ranges first middle moves) (h' : Entries ranges middle last later) :
    Entries ranges first last (moves ++ later) where
  le := Nat.le_trans h.le h'.le
  indices := by
    rw [List.map_append, h.indices, h'.indices,
      List.Ico.append_consecutive (Nat.succ_le_succ h.le) (Nat.succ_le_succ h'.le)]
  ranges := by
    intro move hmove
    rcases List.mem_append.1 hmove with hmove | hmove
    · exact h.ranges move hmove
    · exact h'.ranges move hmove

end Entries

/-! ## Scans of one range -/

namespace Code

theorem seekCall_of_isCall {code : Code} {position stop : Nat} {op : Opcode}
    (hlt : position < stop) (h : code.byte? position = some op) (hcall : op.isCall = true) :
    code.seekCall position stop = .found position := by
  rw [seekCall, dif_pos hlt]
  split
  · simp_all
  · simp_all

/-- A scan of a range steps over an instruction that is no call. -/
theorem seekCall_of_not_isCall {code : Code} {position stop : Nat} {op : Opcode}
    (hlt : position < stop) (h : code.byte? position = some op) (hcall : op.isCall = false) :
    code.seekCall position stop =
      code.seekCall (satAdd position (code.instructionSize op position)) stop := by
  rw [seekCall, dif_pos hlt]
  split
  · simp_all
  · simp_all

theorem seekCall_of_byte?_eq_none {code : Code} {position stop : Nat}
    (h : code.byte? position = none) : code.seekCall position stop = .passed position := by
  rw [seekCall]
  split
  · split
    · simp_all
    · rfl
  · rfl

theorem seekCall_of_le {code : Code} {position stop : Nat} (h : stop ≤ position) :
    code.seekCall position stop = .passed position := by
  rw [seekCall, dif_neg (Nat.not_lt.2 h)]

/-- A call opcode stands where a scan finds a call. -/
theorem exists_isCall_of_seekCall_eq_found {code : Code} {position stop offset : Nat}
    (h : code.seekCall position stop = .found offset) :
    ∃ op : Opcode, code.byte? offset = some op ∧ op.isCall = true := by
  have hmem : offset ∈ code.callsIn ⟨position, stop⟩ := by
    rw [callsIn_of_seekCall_eq_found h]
    exact List.mem_cons_self
  exact (mem_callsIn hmem).2

theorem seekCall_again_of_found {code : Code} {position stop offset : Nat}
    (h : code.seekCall position stop = .found offset) :
    code.seekCall offset stop = .found offset := by
  obtain ⟨op, hbyte, hcall⟩ := exists_isCall_of_seekCall_eq_found h
  exact seekCall_of_isCall (Cursor.seekCall_eq_found h).2.1 hbyte hcall

theorem seekCall_again_of_passed {code : Code} {position stop reached : Nat}
    (h : code.seekCall position stop = .passed reached) :
    code.seekCall reached stop = .passed reached := by
  fun_induction seekCall code position stop with
  | case1 => cases h
  | case2 position _ op _ _ ih => exact ih h
  | case3 position _ hnone =>
    cases h
    exact seekCall_of_byte?_eq_none hnone
  | case4 position hge =>
    cases h
    exact seekCall_of_le (Nat.not_lt.1 hge)

end Code

/-! ## Scans -/

namespace Cursor

variable {ranges : List CodeRange} {code : Code} {c : Cursor} {scan : Scan}

theorem Scanning.rests_on_call (h : Scanning code c scan) {offset : Nat}
    (hfound : scan.found = some offset) :
    scan.cursor.position = offset ∧ offset < scan.cursor.stop ∧
      ∃ op : Opcode, code.byte? offset = some op ∧ op.isCall = true := by
  induction h with
  | found hseek =>
    cases hfound
    exact ⟨rfl, (seekCall_eq_found hseek).2.1, Code.exists_isCall_of_seekCall_eq_found hseek⟩
  | ended => cases hfound
  | moved _ _ ih => exact ih hfound

theorem Scanning.later_eq_nil (h : Scanning code c scan) (hfound : scan.found = none) :
    scan.cursor.later = [] := by
  induction h with
  | found => cases hfound
  | ended => rfl
  | moved _ _ ih => exact ih hfound

/-- A scan repeated from where it rests comes to the same and goes nowhere. -/
theorem Scanning.again (h : Scanning code c scan) :
    scan.cursor.nextCall code = ⟨scan.found, scan.cursor, []⟩ := by
  induction h with
  | found hseek =>
    unfold nextCall nextCallFrom
    rw [Code.seekCall_again_of_found hseek]
  | ended hseek =>
    unfold nextCall nextCallFrom
    rw [Code.seekCall_again_of_passed hseek]
  | moved _ _ ih => exact ih

@[simp] theorem start_index (ranges : RangeList) : (start ranges).index = 0 := by
  unfold start
  split <;> rfl

theorem Tracks.next_range {index position stop : Nat} {r : CodeRange} {rest : List CodeRange}
    (h : Tracks ranges ⟨index, position, stop, r :: rest⟩) : ranges[index + 1]? = some r := by
  cases h with
  | within before left => simp

theorem Tracks.entries_scan (h : Tracks ranges c) (hscan : Scanning code c scan) :
    Entries ranges c.index scan.cursor.index scan.moves := by
  induction hscan with
  | found => exact .nil _ _
  | ended => exact .nil _ _
  | moved _ _ ih => exact .cons h.next_range (ih h.enter)

theorem Tracks.range (h : Tracks ranges c) :
    ranges = [] ∧ c.index = 0 ∧ c.stop = 0 ∨
      ∃ r, ranges[c.index]? = some r ∧ c.stop = r.stop := by
  cases h with
  | nowhere => exact .inl ⟨rfl, rfl, rfl⟩
  | within before r => exact .inr ⟨r, by simp, rfl⟩

theorem Tracks.index_eq_last (h : Tracks ranges c) (hlater : c.later = []) :
    c.index = ranges.length - 1 := by
  cases h with
  | nowhere => rfl
  | within before r later =>
    cases hlater
    simp

/-! ## Steps -/

/-- Whether the step is a scan, as opposed to a jump. -/
def Step.scans : Step → Bool
  | .next | .remaining | .noneRemain => true
  | .consume _ => false

/-- What the step answers when the scan it asks for has found `found`. -/
def Step.answer (found : Option Nat) : Step → Answer
  | .next | .remaining => .call found
  | .noneRemain => .clear found.isNone
  | .consume _ => .done

theorem step_of_scans {s : Step} (h : s.scans = true) (code : Code) (c : Cursor) :
    c.step code s =
      ⟨s.answer (c.nextCall code).found, (c.nextCall code).cursor, (c.nextCall code).moves⟩ := by
  cases s with
  | consume => cases h
  | next => rfl
  | remaining => rfl
  | noneRemain => rfl

theorem Tracks.entries_step (h : Tracks ranges c) (code : Code) (s : Step) :
    Entries ranges c.index (c.step code s).cursor.index (c.step code s).moves := by
  cases s with
  | consume => exact .nil _ _
  | next => exact h.entries_scan (scanning_nextCall code c)
  | remaining => exact h.entries_scan (scanning_nextCall code c)
  | noneRemain => exact h.entries_scan (scanning_nextCall code c)

/-- The ranges that the cursor enters in `steps`, one after another. -/
def movesDuring (code : Code) : Cursor → List Step → List Move
  | _, [] => []
  | c, s :: rest => (c.step code s).moves ++ movesDuring code (c.step code s).cursor rest

theorem Tracks.entries_steps (h : Tracks ranges c) (code : Code) (steps : List Step) :
    Entries ranges c.index (c.after code steps).index (c.movesDuring code steps) := by
  induction steps generalizing c with
  | nil => exact .nil _ _
  | cons s rest ih => exact (h.entries_step code s).append (ih (h.step code s))

theorem after_append (code : Code) (c : Cursor) (steps later : List Step) :
    c.after code (steps ++ later) = (c.after code steps).after code later := by
  induction steps generalizing c with
  | nil => rfl
  | cons s rest ih => exact ih _

/-- Scans leave a cursor where it is, once it rests. -/
theorem after_scans {scans : List Step} (h : ∀ s ∈ scans, s.scans = true) {found : Option Nat}
    (hrests : c.nextCall code = ⟨found, c, []⟩) : c.after code scans = c := by
  induction scans with
  | nil => rfl
  | cons s rest ih =>
    have hs : (c.step code s).cursor = c := by
      rw [step_of_scans (h s List.mem_cons_self), hrests]
    show after code (c.step code s).cursor rest = c
    rw [hs]
    exact ih fun t ht => h t (List.mem_cons_of_mem _ ht)

/-- **Cursors keep to their list.** After any steps from the start of a range list: the index is
that of a range, with its stop, or 0 when there is none; further steps never take it down; and the
ranges entered so far are those at the places 1 to the index. The three kinds of scan do the same.
A scan that finds a call rests on it, in front of the stop of its range, on a call opcode; one that
finds none rests in the last range. After either, any number of further scans answer the same,
leave the cursor as it is and enter no range. -/
theorem invariants_after_steps (code : Code) (ranges : RangeList) (steps : List Step) :
    let c := (start ranges).after code steps
    let scan := c.nextCall code
    (ranges.toList = [] ∧ c.index = 0 ∧ c.stop = 0 ∨
      ∃ r, ranges.toList[c.index]? = some r ∧ c.stop = r.stop) ∧
    (∀ later, c.index ≤ ((start ranges).after code (steps ++ later)).index) ∧
    Entries ranges.toList 0 c.index ((start ranges).movesDuring code steps) ∧
    (∀ s : Step, s.scans = true →
      c.step code s = ⟨s.answer scan.found, scan.cursor, scan.moves⟩) ∧
    (∀ offset, scan.found = some offset → scan.cursor.position = offset ∧
      (∃ r, ranges.toList[scan.cursor.index]? = some r ∧ offset < r.stop) ∧
      ∃ op : Opcode, code.byte? offset = some op ∧ op.isCall = true) ∧
    (scan.found = none → scan.cursor.index = ranges.toList.length - 1) ∧
    (∀ (scans : List Step) (s : Step), (∀ t ∈ scans, t.scans = true) → s.scans = true →
      (scan.cursor.after code scans).step code s = ⟨s.answer scan.found, scan.cursor, []⟩) := by
  intro c scan
  have htracks : Tracks ranges.toList c := (tracks_start ranges).after code steps
  have hscanning : Scanning code c scan := scanning_nextCall code c
  have hscanTracks : Tracks ranges.toList scan.cursor := htracks.scan hscanning
  refine ⟨htracks.range, ?_, ?_, ?_, ?_, ?_, ?_⟩
  · intro later
    rw [after_append]
    exact (htracks.entries_steps code later).le
  · have hentries := (tracks_start ranges).entries_steps code steps
    rwa [start_index] at hentries
  · intro s hs
    exact step_of_scans hs code c
  · intro offset hfound
    obtain ⟨hposition, hlt, hcall⟩ := hscanning.rests_on_call hfound
    refine ⟨hposition, ?_, hcall⟩
    rcases hscanTracks.range with ⟨-, -, hstop⟩ | ⟨r, hr, hstop⟩
    · omega
    · exact ⟨r, hr, hstop ▸ hlt⟩
  · intro hfound
    exact hscanTracks.index_eq_last (hscanning.later_eq_nil hfound)
  · intro scans s hscans hs
    rw [after_scans hscans hscanning.again, step_of_scans hs, hscanning.again]

end Cursor

end CallAlign

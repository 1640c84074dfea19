import Mathlib.Logic.ExistsUnique
import CallAlign.Bytecode.Instruction.Walk

/-!
# The calls of a list of ranges

Which calls a list of ranges holds, told without a cursor: list the instructions of each range,
keep the calls, and put the ranges one after another.

The offsets of a walk grow, because every instruction has a byte, and stay inside the range and
the code. Across ranges they grow because a later range starts where an earlier one has ended.
This holds although a walk may run past the end of its range: only where an instruction *starts*
counts, and the next range begins afresh at its own start.

Main results: `Code.callsInAll_increasing` and `RangeList.existsUnique_index`.
-/

namespace CallAlign

namespace Code

/-- The offsets of the call instructions that start inside `range`. -/
def callsIn (code : Code) (range : CodeRange) : List Nat :=
  ((code.instructions range).filter Instruction.isCall).map Instruction.offset

/-- The offsets of the call instructions of `ranges`, one range after another. -/
def callsInAll (code : Code) (ranges : List CodeRange) : List Nat :=
  ranges.flatMap code.callsIn

@[simp] theorem callsInAll_nil (code : Code) : code.callsInAll [] = [] := rfl

@[simp] theorem callsInAll_cons (code : Code) (r : CodeRange) (rest : List CodeRange) :
    code.callsInAll (r :: rest) = code.callsIn r ++ code.callsInAll rest := rfl

theorem callsInAll_append (code : Code) (ranges later : List CodeRange) :
    code.callsInAll (ranges ++ later) = code.callsInAll ranges ++ code.callsInAll later :=
  List.flatMap_append

/-! ## One instruction at a time -/

theorem decode?_of_byte? {code : Code} {offset : Nat} {op : Opcode}
    (h : code.byte? offset = some op) :
    code.decode? offset = some ⟨offset, op, code.instructionSize op offset⟩ := by
  simp [decode?, h]

theorem callsIn_of_le {code : Code} {start stop : Nat} (h : stop ≤ start) :
    code.callsIn ⟨start, stop⟩ = [] := by
  simp [callsIn, instructions, walk_of_le h]

theorem callsIn_of_byte?_eq_none {code : Code} {start : Nat} (stop : Nat)
    (h : code.byte? start = none) : code.callsIn ⟨start, stop⟩ = [] := by
  have hdecode : code.decode? start = none := by simp [decode?, h]
  simp [callsIn, instructions, walk_of_decode?_eq_none stop hdecode]

/-- A range that starts on a call has this call first. -/
theorem callsIn_of_isCall {code : Code} {start stop : Nat} {op : Opcode} (hlt : start < stop)
    (h : code.byte? start = some op) (hcall : op.isCall = true) :
    code.callsIn ⟨start, stop⟩ =
      start :: code.callsIn ⟨satAdd start (code.instructionSize op start), stop⟩ := by
  simp only [callsIn, instructions]
  rw [walk_of_decode?_eq_some hlt (decode?_of_byte? h),
    List.filter_cons_of_pos (by simpa [Instruction.isCall] using hcall)]
  rfl

/-- Any other instruction at the start of a range can be stepped over. -/
theorem callsIn_of_not_isCall {code : Code} {start stop : Nat} {op : Opcode} (hlt : start < stop)
    (h : code.byte? start = some op) (hcall : op.isCall = false) :
    code.callsIn ⟨start, stop⟩ =
      code.callsIn ⟨satAdd start (code.instructionSize op start), stop⟩ := by
  simp only [callsIn, instructions]
  rw [walk_of_decode?_eq_some hlt (decode?_of_byte? h),
    List.filter_cons_of_neg (by simpa [Instruction.isCall] using hcall)]
  rfl

/-! ## Where the instructions of a walk stand -/

/-- Every instruction of a walk starts inside it and inside the code, with the byte there as its
opcode. -/
theorem mem_walk {code : Code} {position stop : Nat} {i : Instruction}
    (hi : i ∈ code.walk position stop) :
    position ≤ i.offset ∧ i.offset < stop ∧ code.byte? i.offset = some i.opcode := by
  fun_induction walk code position stop with
  | case1 position hlt first hfirst ih =>
    obtain ⟨op, hop, hsame⟩ := Option.map_eq_some_iff.1 hfirst
    subst hsame
    rcases List.mem_cons.1 hi with rfl | hi
    · exact ⟨Nat.le_refl _, hlt, hop⟩
    · obtain ⟨hle, hrest⟩ := ih hi
      exact ⟨Nat.le_trans (Nat.le_of_lt (lt_stop_of_decode? hfirst)) hle, hrest⟩
  | case2 => cases hi
  | case3 => cases hi

/-- The instructions of a walk follow one another. -/
theorem walk_increasing (code : Code) (position stop : Nat) :
    (code.walk position stop).Pairwise fun i j => i.offset < j.offset := by
  fun_induction walk code position stop with
  | case1 position hlt first hfirst ih =>
    refine List.Pairwise.cons ?_ ih
    intro later hlater
    obtain ⟨op, hop, hsame⟩ := Option.map_eq_some_iff.1 hfirst
    subst hsame
    exact Nat.lt_of_lt_of_le (lt_stop_of_decode? hfirst) (mem_walk hlater).1
  | case2 => exact .nil
  | case3 => exact .nil

/-- A call of a range lies in the range and in the code, and the byte there is a call opcode. -/
theorem mem_callsIn {code : Code} {r : CodeRange} {offset : Nat} (h : offset ∈ code.callsIn r) :
    r.contains offset = true ∧ ∃ op : Opcode, code.byte? offset = some op ∧ op.isCall = true := by
  obtain ⟨i, hi, rfl⟩ := List.mem_map.1 h
  obtain ⟨hwalk, hcall⟩ := List.mem_filter.1 hi
  obtain ⟨hle, hlt, hbyte⟩ := mem_walk hwalk
  refine ⟨?_, i.opcode, hbyte, hcall⟩
  simp [CodeRange.contains, hle, hlt]

theorem callsIn_increasing (code : Code) (r : CodeRange) :
    (code.callsIn r).Pairwise (· < ·) := by
  rw [callsIn, List.pairwise_map]
  exact (code.walk_increasing r.start r.stop).filter _

theorem mem_callsInAll {code : Code} {ranges : List CodeRange} {offset : Nat}
    (h : offset ∈ code.callsInAll ranges) : ∃ r ∈ ranges, offset ∈ code.callsIn r :=
  List.mem_flatMap.1 h

end Code

/-! ## Across ranges -/

namespace CodeRange

theorem contains_iff {r : CodeRange} {offset : Nat} :
    r.contains offset = true ↔ r.start ≤ offset ∧ offset < r.stop := by
  simp [contains]

theorem isEmpty_of_contains {r : CodeRange} {offset : Nat} (h : r.contains offset = true) :
    r.isEmpty = false := by
  rw [contains_iff] at h
  simp only [isEmpty, decide_eq_false_iff_not]
  omega

end CodeRange

/-- **Calls grow.** The calls of ordered ranges come in strictly increasing order. -/
theorem Code.callsInAll_increasing (code : Code) {ranges : List CodeRange}
    (ordered : ranges.Pairwise fun r s => r.stop ≤ s.start) :
    (code.callsInAll ranges).Pairwise (· < ·) := by
  induction ordered with
  | nil => exact .nil
  | @cons r rest hr _ ih =>
    rw [callsInAll_cons, List.pairwise_append]
    refine ⟨code.callsIn_increasing r, ih, fun a ha b hb => ?_⟩
    obtain ⟨s, hs, hb⟩ := mem_callsInAll hb
    have hstop := CodeRange.contains_iff.1 (mem_callsIn ha).1
    have hstart := CodeRange.contains_iff.1 (mem_callsIn hb).1
    have horder := hr s hs
    omega

namespace RangeList

/-- No offset lies in two ranges of a list. -/
theorem index_eq_of_contains (ranges : RangeList) {i j offset : Nat} {r s : CodeRange}
    (hr : ranges.toList[i]? = some r) (hs : ranges.toList[j]? = some s)
    (hir : r.contains offset = true) (hjs : s.contains offset = true) : i = j := by
  obtain ⟨hi, rfl⟩ := List.getElem?_eq_some_iff.1 hr
  obtain ⟨hj, rfl⟩ := List.getElem?_eq_some_iff.1 hs
  rw [CodeRange.contains_iff] at hir hjs
  rcases Nat.lt_trichotomy i j with hlt | heq | hgt
  · have := List.pairwise_iff_getElem.1 ranges.ordered i j hi hj hlt
    omega
  · exact heq
  · have := List.pairwise_iff_getElem.1 ranges.ordered j i hj hi hgt
    omega

/-- **One range per call.** Every call of a range list lies in exactly one of its ranges, which
is not empty. -/
theorem existsUnique_index (ranges : RangeList) {code : Code} {offset : Nat}
    (h : offset ∈ code.callsInAll ranges.toList) :
    ∃! i : Nat, ∃ r, ranges.toList[i]? = some r ∧ r.isEmpty = false ∧ r.contains offset = true := by
  obtain ⟨r, hr, hcall⟩ := Code.mem_callsInAll h
  obtain ⟨i, hi, rfl⟩ := List.mem_iff_getElem.1 hr
  have hin := (Code.mem_callsIn hcall).1
  have hget := List.getElem?_eq_getElem hi
  refine ⟨i, ⟨_, hget, CodeRange.isEmpty_of_contains hin, hin⟩, ?_⟩
  rintro j ⟨s, hs, -, hjs⟩
  exact ranges.index_eq_of_contains hs hget hjs hin

end RangeList

end CallAlign

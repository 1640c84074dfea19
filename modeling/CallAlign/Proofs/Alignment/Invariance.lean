import CallAlign.Proofs.Alignment.Pairing
import CallAlign.Proofs.Bytecode.Agreement
import CallAlign.Proofs.Bytecode.RangeSplitting
import CallAlign.Proofs.Bytecode.RangeValidation

/-!
# What an alignment does not depend on

An alignment sees its code and its ranges only through the call offsets of the ranges
(`align_eq_of_callsInAll`). Whatever leaves these as they are leaves the result as it is,
operations and failures alike.

**Theorem (`align_eq_of_agree`).** Only the bytes inside the ranges count: two codes that hold all
ranges, and agree there, give the same alignment. This is so although switches and `wide` read
behind the end of a range, and how long the code is can decide the size of an instruction.

**Theorem (`align_of_cut_ranges`).** The way the ranges are cut up does not count: a range may be
cut in two at an instruction boundary, two ranges that meet at one may be joined, and an empty
range may be put anywhere between the others.
-/

namespace CallAlign

namespace Request

/-- Code and ranges enter an alignment by their call offsets alone. -/
theorem align_eq_of_callsInAll {request : Request} (fits : request.Fits) {ranges : RangeList}
    {code : Code} (pool : Array UInt8) (inside : ∀ r ∈ ranges.toList, r.stop ≤ code.size)
    (h : code.callsInAll ranges.toList = request.callOffsets) :
    { request with ranges := ranges, code := code, constantPool := pool }.align =
      request.align := by
  have hother :
      Request.Fits { request with ranges := ranges, code := code, constantPool := pool } := inside
  rw [align_eq_pairWith hother, align_eq_pairWith fits, ← h]
  rfl

/-! ## Bytes -/

/-- **Only the bytes inside the ranges count.** Put another code in place of the request's, with
another constant pool, that holds all ranges and has the same bytes inside them: the alignment is
the same, and draining a cursor finds the same calls. -/
theorem align_eq_of_agree (request : Request) (code : Code) (pool : Array UInt8)
    (fits : ∀ r ∈ request.ranges.toList, r.stop ≤ request.code.size)
    (inside : ∀ r ∈ request.ranges.toList, r.stop ≤ code.size)
    (agree : ∀ r ∈ request.ranges.toList, ∀ i, r.contains i = true →
      code.byte? i = request.code.byte? i) :
    { request with code := code, constantPool := pool }.align = request.align ∧
      ((Cursor.start request.ranges).drain code).offsets =
        ((Cursor.start request.ranges).drain request.code).offsets := by
  have hcalls : code.callsInAll request.ranges.toList = request.callOffsets := by
    refine Code.callsInAll_congr fun r hr => ⟨inside r hr, fits r hr, fun i hstart hstop => ?_⟩
    exact agree r hr i (CodeRange.contains_iff.2 ⟨hstart, hstop⟩)
  refine ⟨align_eq_of_callsInAll fits pool inside hcalls, ?_⟩
  rw [Cursor.drain_offsets, Cursor.drain_offsets, Cursor.pending_start, Cursor.pending_start]
  exact hcalls

/-- A call of `a` without a receiver, in the three source bytes from `start` on. -/
def bareCall (id start : Nat) : Node :=
  .call ⟨⟨id⟩, { start := start, stop := start + 3 },
    .identifier ⟨id⟩ "a" { start := start, stop := start + 1 }, false⟩

/-- The first range ends inside the header of a `tableswitch` at offset 3. -/
def cutSwitch : Request where
  nodes := [bareCall 1 0, bareCall 2 4]
  ranges := ⟨[⟨0, 6⟩, ⟨16, 19⟩], by decide, by decide⟩
  code := ⟨#[184, 0, 0, 170, 0, 0, 0, 0, 0, 0, 0, 0, 0, 0, 0, 1, 182, 0, 0], by decide⟩
  resolver := ⟨fun _ => .unknown, fun _ => some ⟨"A"⟩⟩
  lineIndex := .ofBytes [97, 40, 41, 59, 97, 40, 41]

/-- Longer by a call, with other bytes between the ranges: there the switch has no jump offset. -/
def emptySwitchCode : Code :=
  ⟨#[184, 0, 0, 170, 0, 0, 185, 185, 127, 0, 0, 0, 128, 0, 0, 1, 182, 0, 0, 185], by decide⟩

theorem align_cutSwitch_eq :
    cutSwitch.code.instructionSize 170 3 = 21 ∧ emptySwitchCode.instructionSize 170 3 = 13 ∧
      { cutSwitch with code := emptySwitchCode, constantPool := #[1] }.align = cutSwitch.align ∧
      ((Cursor.start cutSwitch.ranges).drain emptySwitchCode).offsets =
        ((Cursor.start cutSwitch.ranges).drain cutSwitch.code).offsets := by
  have hbelow : ∀ r ∈ cutSwitch.ranges.toList, ∀ i < r.stop, r.contains i = true →
      emptySwitchCode.byte? i = cutSwitch.code.byte? i := by decide
  refine ⟨by decide, by decide, ?_⟩
  exact align_eq_of_agree cutSwitch emptySwitchCode #[1] (by decide) (by decide)
    fun r hr i hi => hbelow r hr i (CodeRange.contains_iff.1 hi).2 hi

/-! ## Cuts -/

/-- Ranges in the code that have the request's call offsets are accepted and give its alignment. -/
theorem exists_validate_and_align {request : Request} (fits : request.Fits)
    {ranges : List CodeRange} (hlist : ∃ list : RangeList, list.toList = ranges)
    (inside : ∀ r ∈ ranges, r.stop ≤ request.code.size)
    (h : request.code.callsInAll ranges = request.callOffsets) :
    ∃ list, RangeList.validate ranges request.code.size = .ok list ∧
      { request with ranges := list }.align = request.align := by
  obtain ⟨list, rfl⟩ := hlist
  exact ⟨list, RangeList.validate_toList inside,
    align_eq_of_callsInAll fits request.constantPool inside h⟩

theorem exists_cut_align {request : Request} (fits : request.Fits)
    {before after : List CodeRange} {start offset stop : Nat}
    (hranges : request.ranges.toList = before ++ ⟨start, stop⟩ :: after)
    (hboundary : request.code.IsBoundary ⟨start, stop⟩ offset) :
    ∃ cut, RangeList.validate (before ++ ⟨start, offset⟩ :: ⟨offset, stop⟩ :: after)
        request.code.size = .ok cut ∧
      { request with ranges := cut }.align = request.align := by
  have hforward : start ≤ stop := request.ranges.forward ⟨start, stop⟩ (by simp [hranges])
  have hstart := hboundary.start_le hforward
  have hstop := hboundary.le_stop hforward
  refine exists_validate_and_align fits (RangeList.exists_cut hranges hstart hstop) ?_ ?_
  · rw [Fits, hranges, List.forall_mem_append, List.forall_mem_cons] at fits
    obtain ⟨hbefore, hwhole, hafter⟩ := fits
    simp only [List.forall_mem_append, List.forall_mem_cons]
    exact ⟨hbefore, Nat.le_trans hstop hwhole, hwhole, hafter⟩
  · rw [hboundary.callsInAll_cut, callOffsets, hranges]

theorem exists_joined_align {request : Request} (fits : request.Fits)
    {before after : List CodeRange} {start offset stop : Nat}
    (hranges : request.ranges.toList = before ++ ⟨start, offset⟩ :: ⟨offset, stop⟩ :: after)
    (hboundary : request.code.IsBoundary ⟨start, stop⟩ offset) :
    ∃ joined, RangeList.validate (before ++ ⟨start, stop⟩ :: after) request.code.size =
        .ok joined ∧
      { request with ranges := joined }.align = request.align := by
  refine exists_validate_and_align fits (RangeList.exists_joined hranges) ?_ ?_
  · rw [Fits, hranges, List.forall_mem_append, List.forall_mem_cons, List.forall_mem_cons] at fits
    obtain ⟨hbefore, -, hsecond, hafter⟩ := fits
    simp only [List.forall_mem_append, List.forall_mem_cons]
    exact ⟨hbefore, hsecond, hafter⟩
  · rw [← hboundary.callsInAll_cut, callOffsets, hranges]

theorem align_of_added_empty {request : Request} (fits : request.Fits)
    {before after : List CodeRange} {offset codeLength : Nat} {added : RangeList}
    (hranges : request.ranges.toList = before ++ after) (hoffset : offset ≤ request.code.size)
    (hadded : RangeList.validate (before ++ ⟨offset, offset⟩ :: after) codeLength = .ok added) :
    { request with ranges := added }.align = request.align := by
  have htoList := RangeList.toList_of_validate hadded
  refine align_eq_of_callsInAll fits request.constantPool ?_ ?_
  · rw [Fits, hranges, List.forall_mem_append] at fits
    rw [htoList, List.forall_mem_append, List.forall_mem_cons]
    exact ⟨fits.1, hoffset, fits.2⟩
  · rw [htoList, Code.callsInAll_insert_empty, callOffsets, hranges]

/-- **The way the ranges are cut up does not count.** In a request whose ranges lie in the code, a
range may be cut at a boundary, ranges that meet at a boundary of the whole may be joined, and an
empty range may be added where the list stays valid: the new list is accepted, and the alignment
is the same. -/
theorem align_of_cut_ranges (request : Request) (fits : request.Fits) :
    (∀ before after start offset stop,
      request.ranges.toList = before ++ ⟨start, stop⟩ :: after →
      request.code.IsBoundary ⟨start, stop⟩ offset →
      ∃ cut, RangeList.validate (before ++ ⟨start, offset⟩ :: ⟨offset, stop⟩ :: after)
          request.code.size = .ok cut ∧
        { request with ranges := cut }.align = request.align) ∧
    (∀ before after start offset stop,
      request.ranges.toList = before ++ ⟨start, offset⟩ :: ⟨offset, stop⟩ :: after →
      request.code.IsBoundary ⟨start, stop⟩ offset →
      ∃ joined, RangeList.validate (before ++ ⟨start, stop⟩ :: after) request.code.size =
          .ok joined ∧
        { request with ranges := joined }.align = request.align) ∧
    (∀ before after offset codeLength added,
      request.ranges.toList = before ++ after → offset ≤ request.code.size →
      RangeList.validate (before ++ ⟨offset, offset⟩ :: after) codeLength = .ok added →
      { request with ranges := added }.align = request.align) := by
  refine ⟨?_, ?_, ?_⟩
  · intro before after start offset stop hranges hboundary
    exact exists_cut_align fits hranges hboundary
  · intro before after start offset stop hranges hboundary
    exact exists_joined_align fits hranges hboundary
  · intro before after offset codeLength added hranges hoffset hadded
    exact align_of_added_empty fits hranges hoffset hadded

/-- The first range of `cutSwitch` cut in front of the switch. -/
def cutBeforeSwitch : Request :=
  { cutSwitch with ranges := ⟨[⟨0, 3⟩, ⟨3, 6⟩, ⟨16, 19⟩], by decide, by decide⟩ }

theorem align_cutBeforeSwitch_eq :
    (∃ cut, RangeList.validate [⟨0, 3⟩, ⟨3, 6⟩, ⟨16, 19⟩] 19 = .ok cut ∧
      { cutSwitch with ranges := cut }.align = cutSwitch.align) ∧
    (∃ joined, RangeList.validate [⟨0, 6⟩, ⟨16, 19⟩] 19 = .ok joined ∧
      { cutBeforeSwitch with ranges := joined }.align = cutBeforeSwitch.align) ∧
    { cutSwitch with ranges := ⟨[⟨0, 6⟩, ⟨10, 10⟩, ⟨16, 19⟩], by decide, by decide⟩ }.align =
      cutSwitch.align := by
  have hboundary : cutSwitch.code.IsBoundary ⟨0, 6⟩ 3 :=
    .inr (.inr ⟨⟨3, 170, 21⟩, by decide +kernel, rfl⟩)
  obtain ⟨hcut, -, hadded⟩ := align_of_cut_ranges cutSwitch (by decide)
  obtain ⟨-, hjoined, -⟩ := align_of_cut_ranges cutBeforeSwitch (by decide)
  exact ⟨hcut [] [⟨16, 19⟩] 0 3 6 rfl hboundary, hjoined [] [⟨16, 19⟩] 0 3 6 rfl hboundary,
    hadded [⟨0, 6⟩] [⟨16, 19⟩] 10 19 _ rfl (by decide) rfl⟩

end Request

end CallAlign

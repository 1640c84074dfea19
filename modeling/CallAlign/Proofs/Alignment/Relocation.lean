import CallAlign.Proofs.Alignment.Invariance
import CallAlign.Proofs.Bytecode.DecisiveBytes

/-!
# Relocated code

**Theorem (`align_behind`).** Put bytes in front of a code, their number a multiple of four. The
instructions are found where they have gone, with the same opcodes and sizes. An alignment over
ranges that went along is the same but for the places in it: each operation, or the call left over,
stands that much further on.

For instructions this is `walk_shift`, with every byte of the code held further on, so that it does
not matter which of them decide. An alignment sees nothing of code and ranges but the call offsets,
and what a call contributes carries its offset along and depends on it in no other way. So a pairing
with shifted offsets is the shifted pairing (`pairWith_shift`).
-/

namespace CallAlign

/-! ## Places further on -/

/-- The range `n` places further on. -/
def CodeRange.shift (n : Nat) (r : CodeRange) : CodeRange := ⟨r.start + n, r.stop + n⟩

/-- The ranges `n` places further on, in order as they were. -/
def RangeList.shift (n : Nat) (ranges : RangeList) : RangeList where
  toList := ranges.toList.map (CodeRange.shift n)
  forward := by
    rw [List.forall_mem_map]
    intro r hr
    exact Nat.add_le_add_right (ranges.forward r hr) n
  ordered := by
    rw [List.pairwise_map]
    exact ranges.ordered.imp fun h => Nat.add_le_add_right h n

/-- The operation with its instruction `n` places further on. -/
def Operation.shift (n : Nat) (op : Operation) : Operation :=
  { op with bytecodeOffset := op.bytecodeOffset + n }

namespace Alignment

/-- The alignment with every instruction `n` places further on. -/
def shift (n : Nat) (alignment : Alignment) : Alignment :=
  ⟨alignment.operations.map (Operation.shift n)⟩

/-- The failure with the call that was left over `n` places further on. -/
def Failure.shift (n : Nat) : Failure → Failure
  | .leftover offset => .leftover (offset + n)
  | failure => failure

end Alignment

/-! ## Code behind other bytes -/

namespace Code

/-- The code with `front` put in front of it. -/
def behind (code : Code) (front : Array UInt8)
    (short : (front ++ code.bytes).size < 0x8000000000000000) : Code :=
  ⟨front ++ code.bytes, short⟩

section

variable (code : Code) {front : Array UInt8}
  (short : (front ++ code.bytes).size < 0x8000000000000000)

theorem size_behind : (code.behind front short).size = code.size + front.size := by
  rw [size, behind, Array.size_append, Nat.add_comm]
  rfl

theorem byte?_behind (k : Nat) :
    (code.behind front short).byte? (k + front.size) = code.byte? k := by
  rw [byte?, behind, Array.getElem?_append_right (Nat.le_add_left ..), Nat.add_sub_cancel]
  rfl

theorem instructions_behind (aligned : 4 ∣ front.size) (r : CodeRange) :
    (code.behind front short).instructions (r.shift front.size) =
      (code.instructions r).map (Instruction.shift front.size) :=
  walk_shift ⟨aligned, code.size_behind short⟩ fun _ _ k _ => code.byte?_behind short k

end

/-- Where the instructions are shifted, so are the calls. -/
theorem callsIn_shift {code other : Code} {n : Nat} {r : CodeRange}
    (h : other.instructions (r.shift n) = (code.instructions r).map (Instruction.shift n)) :
    other.callsIn (r.shift n) = (code.callsIn r).map (· + n) := by
  rw [callsIn, h, List.filter_map, List.map_map, callsIn, List.map_map]
  rfl

theorem callsInAll_shift {code other : Code} {n : Nat}
    (h : ∀ r, other.instructions (r.shift n) = (code.instructions r).map (Instruction.shift n))
    (ranges : List CodeRange) :
    other.callsInAll (ranges.map (CodeRange.shift n)) = (code.callsInAll ranges).map (· + n) := by
  induction ranges with
  | nil => rfl
  | cons r rest ih =>
    rw [List.map_cons, callsInAll_cons, callsIn_shift (h r), ih, callsInAll_cons, List.map_append]

end Code

/-! ## Pairing with shifted offsets -/

/-- If each pair contributes the same further on, then so does the pairing as a whole. -/
theorem pairWith_shift {contribute : Call → Nat → Except Alignment.Failure (Option Operation)}
    {n : Nat}
    (h : ∀ call offset, contribute call (offset + n) =
      ((contribute call offset).map (Option.map (Operation.shift n))).mapError
        (Alignment.Failure.shift n))
    (calls : List Call) (offsets : List Nat) :
    pairWith contribute calls (offsets.map (· + n)) =
      ((pairWith contribute calls offsets).map (List.map (Operation.shift n))).mapError
        (Alignment.Failure.shift n) := by
  induction calls generalizing offsets with
  | nil =>
    cases offsets with
    | nil => rfl
    | cons offset offsets => rfl
  | cons call rest ih =>
    cases offsets with
    | nil => rfl
    | cons offset offsets =>
      rw [List.map_cons]
      have hshifted := h call offset
      cases hhead : contribute call offset with
      | error failure =>
        rw [hhead] at hshifted
        rw [pairWith_cons_of_error hshifted, pairWith_cons_of_error hhead]
        rfl
      | ok operation? =>
        rw [hhead] at hshifted
        rw [pairWith_cons_of_ok hshifted, pairWith_cons_of_ok hhead, ih]
        cases pairWith contribute rest offsets with
        | error failure => rfl
        | ok later => cases operation? <;> rfl

namespace Request

/-- The offset of a call shows in its operation and nowhere else. -/
theorem contribution_shift (request : Request) (n : Nat) (call : Call) (offset : Nat) :
    request.contribution call (offset + n) =
      ((request.contribution call offset).map (Option.map (Operation.shift n))).mapError
        (Alignment.Failure.shift n) := by
  cases hskip : request.skips call with
  | true =>
    rw [contribution_of_skips hskip, contribution_of_skips hskip]
    rfl
  | false =>
    cases hsite : call.site request.resolver with
    | error reason =>
      rw [contribution_of_site_eq_error hskip hsite, contribution_of_site_eq_error hskip hsite]
      rfl
    | ok site =>
      rw [contribution_of_site_eq_ok hskip hsite, contribution_of_site_eq_ok hskip hsite]
      rfl

/-- The request on another code, with its ranges `n` places further on. -/
def relocate (request : Request) (code : Code) (n : Nat) : Request :=
  { request with ranges := request.ranges.shift n, code := code }

theorem Fits.relocate {request : Request} (fits : request.Fits) {code : Code} {n : Nat}
    (size : code.size = request.code.size + n) : (request.relocate code n).Fits := by
  intro r hr
  obtain ⟨original, horiginal, rfl⟩ := List.mem_map.1 hr
  have hinside := fits original horiginal
  show original.stop + n ≤ code.size
  omega

theorem align_relocate {request : Request} (fits : request.Fits) {code : Code} {n : Nat}
    (size : code.size = request.code.size + n)
    (h : ∀ r, code.instructions (r.shift n) =
      (request.code.instructions r).map (Instruction.shift n)) :
    (request.relocate code n).align =
      (request.align.map (Alignment.shift n)).mapError (Alignment.Failure.shift n) := by
  have hoffsets : (request.relocate code n).callOffsets = request.callOffsets.map (· + n) :=
    Code.callsInAll_shift h request.ranges.toList
  have hcontribution : (request.relocate code n).contribution = request.contribution := rfl
  have hcalls : (request.relocate code n).calls = request.calls := rfl
  rw [align_eq_pairWith (fits.relocate size), align_eq_pairWith fits, hoffsets, hcontribution,
    hcalls, pairWith_shift (request.contribution_shift n)]
  cases pairWith request.contribution request.calls request.callOffsets with
  | error failure => rfl
  | ok operations => simp [Except.map, Except.mapError, Alignment.shift]

/-- **Relocation by a multiple of four.** Behind bytes whose number is a multiple of four, a code
has its instructions that much further on, in every range. For a request with ranges in the code,
the ranges that much further on are accepted, and the alignment over them is that of the request
with all its places that much further on. -/
theorem align_behind (code : Code) (front : Array UInt8) (aligned : 4 ∣ front.size)
    (short : (front ++ code.bytes).size < 0x8000000000000000) :
    (∀ range : CodeRange, (code.behind front short).instructions
        ⟨range.start + front.size, range.stop + front.size⟩ =
      (code.instructions range).map fun i => ⟨i.offset + front.size, i.opcode, i.size⟩) ∧
    ∀ request : Request, request.code = code → request.Fits →
      RangeList.validate
          (request.ranges.toList.map fun r => ⟨r.start + front.size, r.stop + front.size⟩)
          (code.behind front short).size =
        .ok (request.ranges.shift front.size) ∧
      { request with
          ranges := request.ranges.shift front.size, code := code.behind front short }.align =
        (request.align.map (Alignment.shift front.size)).mapError
          (Alignment.Failure.shift front.size) := by
  have hinstructions := code.instructions_behind short aligned
  refine ⟨hinstructions, ?_⟩
  rintro request rfl fits
  have hsize := request.code.size_behind short
  exact ⟨RangeList.validate_toList (fits.relocate hsize), align_relocate fits hsize hinstructions⟩

/-- Four opcodes in front of `cutSwitch`, that of a call and those of both switches among them. -/
def opcodesBeforeSwitch : Code := cutSwitch.code.behind #[177, 182, 170, 171] (by decide)

theorem align_opcodesBeforeSwitch :
    opcodesBeforeSwitch.instructions ⟨4, 10⟩ = [⟨4, 184, 3⟩, ⟨7, 170, 21⟩] ∧
    { cutSwitch with ranges := cutSwitch.ranges.shift 4, code := opcodesBeforeSwitch }.align =
      (cutSwitch.align.map (Alignment.shift 4)).mapError (Alignment.Failure.shift 4) ∧
    { cutSwitch with
        nodes := [bareCall 1 0]
        ranges := cutSwitch.ranges.shift 4
        code := opcodesBeforeSwitch }.align = .error (.leftover 20) := by
  obtain ⟨hinstructions, halign⟩ :=
    align_behind cutSwitch.code #[177, 182, 170, 171] (by decide) (by decide)
  have hleft : { cutSwitch with nodes := [bareCall 1 0] }.align = .error (.leftover 16) := by cbv
  refine ⟨?_, (halign cutSwitch rfl (by decide)).2, ?_⟩
  · exact (hinstructions ⟨0, 6⟩).trans (by decide +kernel)
  · have hshifted := (halign { cutSwitch with nodes := [bareCall 1 0] } rfl (by decide)).2
    rw [hleft] at hshifted
    exact hshifted

end Request

end CallAlign

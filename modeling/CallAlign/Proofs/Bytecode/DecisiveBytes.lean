import Mathlib.Data.List.Basic
import CallAlign.Proofs.Bytecode.ExactSizes

/-!
# The bytes that decide

Most bytes of a code are operands, padding and jump tables, and any of them may look like an
opcode. Few bytes have a say in what the instructions are: the opcodes, what a `wide` widens, the
keys of a `tableswitch` and the pair count of a `lookupswitch` (`Instruction.decisive`).

**Theorem (`walk_shift`).** Let another code have `n` bytes more, a multiple of four, and hold what
decides the instructions of a walk, each byte `n` places further on. Then its walk from there lists
these instructions, `n` places further on.

Of its place, nothing enters the size of an instruction but the distance to the next multiple of
four and to the end of the code, and both are the same `n` places further on (`exactSize_shift`).
Which bytes decide is up to the walk itself, so the induction follows the walk whose bytes are asked
for. Its first instruction is then found in the other code too, and both step to the same place.

**Theorem (`instructions_eq_of_decisive`).** With `n = 0`: no byte but the decisive ones can change
an instruction, and so none can make a cursor miss a call or find another.
-/

namespace CallAlign

namespace Instruction

/-- The instruction `n` places further on. -/
def shift (n : Nat) (i : Instruction) : Instruction := { i with offset := i.offset + n }

@[simp] theorem shift_zero (i : Instruction) : i.shift 0 = i := rfl

/-- Where the bytes stand that decide the instruction. -/
def decisive (i : Instruction) : List Nat :=
  i.offset ::
    if i.opcode = Opcode.wide then [i.offset + 1]
    else if i.opcode = Opcode.tableswitch then List.range' (Code.nextAligned i.offset + 4) 8
    else if i.opcode = Opcode.lookupswitch then List.range' (Code.nextAligned i.offset + 4) 4
    else []

variable {i : Instruction}

theorem mem_decisive_wide (h : i.opcode = Opcode.wide) : i.offset + 1 ∈ i.decisive := by
  simp [decisive, h]

theorem mem_decisive_tableswitch (h : i.opcode = Opcode.tableswitch) {k : Nat} (hfour : 4 ≤ k)
    (hlt : k < 12) : Code.nextAligned i.offset + k ∈ i.decisive := by
  have hwide : i.opcode ≠ Opcode.wide := by
    rw [h]
    decide
  refine List.mem_cons_of_mem _ ?_
  rw [if_neg hwide, if_pos h, List.mem_range'_1]
  omega

theorem mem_decisive_lookupswitch (h : i.opcode = Opcode.lookupswitch) {k : Nat} (hfour : 4 ≤ k)
    (hlt : k < 8) : Code.nextAligned i.offset + k ∈ i.decisive := by
  have hwide : i.opcode ≠ Opcode.wide := by
    rw [h]
    decide
  have htable : i.opcode ≠ Opcode.tableswitch := by
    rw [h]
    decide
  refine List.mem_cons_of_mem _ ?_
  rw [if_neg hwide, if_neg htable, if_pos h, List.mem_range'_1]
  omega

end Instruction

namespace Code

/-! ## The same bytes further on -/

/-- `other` has `n` bytes more than `code`, and `n` places keep the distance from the next multiple
of four. -/
structure Extends (other code : Code) (n : Nat) : Prop where
  aligned : 4 ∣ n
  size : other.size = code.size + n

theorem extends_of_size_eq {other code : Code} (h : other.size = code.size) :
    other.Extends code 0 :=
  ⟨Nat.dvd_zero 4, h⟩

/-- `other` holds what decides `i`, `n` places further on. -/
def Keeps (other code : Code) (n : Nat) (i : Instruction) : Prop :=
  ∀ k ∈ i.decisive, other.byte? (k + n) = code.byte? k

variable {other code : Code} {n : Nat}

theorem nextAligned_add (aligned : 4 ∣ n) (offset : Nat) :
    nextAligned (offset + n) = nextAligned offset + n := by
  unfold nextAligned
  omega

/-- A word of a switch all of whose bytes are decisive is read the same in both codes. -/
theorem int32At_shift (aligned : 4 ∣ n) {i : Instruction} (kept : other.Keeps code n i)
    {k : Nat} (h : ∀ m < 4, nextAligned i.offset + (k + m) ∈ i.decisive) :
    other.int32At (nextAligned (i.offset + n) + k) = code.int32At (nextAligned i.offset + k) := by
  have hbyte : ∀ m < 4, other.byteAt (nextAligned (i.offset + n) + k + m) =
      code.byteAt (nextAligned i.offset + k + m) := by
    intro m hm
    have hsame := kept _ (h m hm)
    rw [← Nat.add_assoc] at hsame
    rw [byteAt, byteAt, ← hsame, nextAligned_add aligned]
    congr 2
    omega
  have hfirst := hbyte 0 (by omega)
  rw [Nat.add_zero, Nat.add_zero] at hfirst
  rw [int32At, int32At, hfirst, hbyte 1 (by omega), hbyte 2 (by omega), hbyte 3 (by omega)]

/-! ## Sizes -/

section

variable (extended : other.Extends code n)
include extended

/-- A switch header is cut off in both codes or in neither, and what is taken then is the same. -/
theorem headed_shift (offset header : Nat) (table : Int) :
    (if nextAligned (offset + n) + header ≤ other.size then
      (nextAligned (offset + n) : Int) - (offset + n : Nat) + header + table
    else max 1 ((other.size : Int) - (offset + n : Nat))) =
    if nextAligned offset + header ≤ code.size then
      (nextAligned offset : Int) - offset + header + table
    else max 1 ((code.size : Int) - offset) := by
  have hsize := extended.size
  have hnext := nextAligned_add extended.aligned offset
  by_cases hheader : nextAligned offset + header ≤ code.size
  · rw [if_pos hheader, if_pos (by omega), hnext]
    omega
  · rw [if_neg hheader, if_neg (by omega)]
    omega

variable {i : Instruction} (kept : other.Keeps code n i)
include kept

theorem exactSize_shift_tableSwitch (h : i.opcode = Opcode.tableswitch) :
    other.exactSize (i.offset + n) .tableSwitch = code.exactSize i.offset .tableSwitch := by
  have hword : ∀ k, 4 ≤ k → k ≤ 8 →
      other.int32At (nextAligned (i.offset + n) + k) = code.int32At (nextAligned i.offset + k) := by
    intro k hfour height
    refine int32At_shift extended.aligned kept fun m hm => ?_
    exact Instruction.mem_decisive_tableswitch h (by omega) (by omega)
  simp only [exactSize, hword 4 (by omega) (by omega), hword 8 (by omega) (by omega)]
  exact headed_shift extended i.offset 12 _

theorem exactSize_shift_lookupSwitch (h : i.opcode = Opcode.lookupswitch) :
    other.exactSize (i.offset + n) .lookupSwitch = code.exactSize i.offset .lookupSwitch := by
  have hword : other.int32At (nextAligned (i.offset + n) + 4) =
      code.int32At (nextAligned i.offset + 4) := by
    refine int32At_shift extended.aligned kept fun m hm => ?_
    exact Instruction.mem_decisive_lookupswitch h (by omega) (by omega)
  simp only [exactSize, hword]
  exact headed_shift extended i.offset 8 _

/-- The size of an instruction is up to its decisive bytes and to how far the next multiple of four
and the end of the code are. -/
theorem exactSize_shift :
    other.exactSize (i.offset + n) i.opcode.form = code.exactSize i.offset i.opcode.form := by
  by_cases hwide : i.opcode = Opcode.wide
  · have hform : i.opcode.form = .wide := hwide ▸ rfl
    have hbyte := kept _ (Instruction.mem_decisive_wide hwide)
    rw [Nat.add_right_comm] at hbyte
    rw [hform, exactSize, exactSize, hbyte]
  by_cases htable : i.opcode = Opcode.tableswitch
  · have hform : i.opcode.form = .tableSwitch := htable ▸ rfl
    rw [hform, exactSize_shift_tableSwitch extended kept htable]
  by_cases hlookup : i.opcode = Opcode.lookupswitch
  · have hform : i.opcode.form = .lookupSwitch := hlookup ▸ rfl
    rw [hform, exactSize_shift_lookupSwitch extended kept hlookup]
  · rw [Opcode.form_of_ordinary ⟨htable, hlookup, hwide⟩]
    rfl

theorem instructionSize_shift :
    other.instructionSize i.opcode (i.offset + n) = code.instructionSize i.opcode i.offset := by
  have hexact := exactSize_shift extended kept
  rwa [← instructionSize_eq_of_form rfl, ← instructionSize_eq_of_form rfl,
    Int.natCast_inj] at hexact

end

/-! ## Walks -/

/-- What decides an instruction decides it `n` places further on. -/
theorem decode?_shift (extended : other.Extends code n) {offset : Nat} {i : Instruction}
    (h : code.decode? offset = some i) (kept : other.Keeps code n i) :
    other.decode? (offset + n) = some (i.shift n) := by
  obtain ⟨op, hop, rfl⟩ := Option.map_eq_some_iff.1 h
  have hop' : other.byte? (offset + n) = some op :=
    (kept offset List.mem_cons_self).trans hop
  have hsize := instructionSize_shift extended kept
  rw [decode?_of_byte? hop', Option.some.injEq]
  exact congrArg (Instruction.mk (offset + n) op) hsize

/-- Past the code a walk is over. -/
theorem walk_of_size_le {position : Nat} (h : code.size ≤ position) (stop : Nat) :
    code.walk position stop = [] := by
  apply walk_of_decode?_eq_none
  rw [decode?, byte?_eq_none_iff.2 h, Option.map_none]

/-- A walk goes on behind a shifted instruction as it would from the shifted end of it: where the
sums saturate, there is no code to go on in. -/
theorem walk_shift_stop (code : Code) (n : Nat) (i : Instruction) (stop : Nat) :
    code.walk (i.shift n).stop stop = code.walk (i.stop + n) stop := by
  have hlimit := code.size_lt_maxOffset
  have hshift : (i.shift n).stop = min (i.offset + n + i.size) maxOffset := rfl
  have hstop : i.stop = min (i.offset + i.size) maxOffset := rfl
  by_cases hroom : i.offset + n + i.size ≤ maxOffset
  · congr 1
    omega
  · rw [walk_of_size_le (by omega), walk_of_size_le (by omega)]

/-- **Decisive bytes decide.** A code that holds, `n` places further on, what decides the
instructions of a walk has these instructions there. -/
theorem walk_shift (extended : other.Extends code n) {position stop : Nat}
    (kept : ∀ i ∈ code.walk position stop, other.Keeps code n i) :
    other.walk (position + n) (stop + n) = (code.walk position stop).map (Instruction.shift n) := by
  fun_induction walk code position stop with
  | case1 position hlt i hdecode ih =>
    have hfirst := decode?_shift extended hdecode (kept i List.mem_cons_self)
    have hlater := ih fun j hj => kept j (List.mem_cons_of_mem _ hj)
    rw [walk_of_decode?_eq_some (by omega) hfirst, walk_shift_stop, hlater, List.map_cons]
  | case2 position _ hnone =>
    have hpast := byte?_eq_none_iff.1 (Option.map_eq_none_iff.1 hnone)
    have hsize := extended.size
    exact walk_of_size_le (by omega) _
  | case3 position hge => exact walk_of_le (by omega)

/-! ## No other byte counts -/

theorem instructions_of_kept {r : CodeRange} (size : other.size = code.size)
    (kept : ∀ i ∈ code.instructions r, other.Keeps code 0 i) :
    other.instructions r = code.instructions r := by
  have hwalk := walk_shift (extends_of_size_eq size) kept
  rwa [List.map_congr_left fun i _ => i.shift_zero, List.map_id'] at hwalk

/-- **No other byte counts.** Let a code be as long as another and have the same bytes where they
decide the instructions of some ranges. Then it has the same instructions in these ranges, and a
cursor over them finds the same calls. The other bytes may be anything, and so may the code: it need
not be well formed. -/
theorem instructions_eq_of_decisive (code other : Code) (ranges : List CodeRange)
    (size : other.size = code.size)
    (agree : ∀ r ∈ ranges, ∀ i ∈ code.instructions r, ∀ k ∈ i.decisive,
      other.byte? k = code.byte? k) :
    (∀ r ∈ ranges, other.instructions r = code.instructions r) ∧
    ∀ list : RangeList, list.toList = ranges →
      ((Cursor.start list).drain other).offsets = ((Cursor.start list).drain code).offsets := by
  have hsame : ∀ r ∈ ranges, other.instructions r = code.instructions r := by
    intro r hr
    exact instructions_of_kept size (agree r hr)
  refine ⟨hsame, ?_⟩
  rintro list rfl
  rw [Cursor.drain_offsets, Cursor.drain_offsets, Cursor.pending_start, Cursor.pending_start]
  refine List.flatMap_congr fun r hr => ?_
  rw [callsIn, callsIn, hsame r hr]

/-- Two calls, both switches and a `wide`. The second switch is cut off inside its pair count. -/
def sparseCode : Code :=
  ⟨#[184, 0, 0, 170, 0, 0, 0, 0, 0, 0, 0, 0, 0, 0, 0, 0, 0, 0, 0, 0, 196, 132, 0, 0, 0, 0,
     182, 0, 0, 171, 0, 0, 0, 0, 0, 0, 0, 0], by decide⟩

/-- The same with a call opcode in place of every byte that decides nothing. -/
def decoyCode : Code :=
  ⟨#[184, 185, 185, 170, 185, 185, 185, 185, 0, 0, 0, 0, 0, 0, 0, 0, 185, 185, 185, 185,
     196, 132, 185, 185, 185, 185, 182, 185, 185, 171, 185, 185, 185, 185, 185, 185, 0, 0],
   by decide⟩

theorem instructions_decoyCode :
    (sparseCode.instructions ⟨0, 38⟩).map Instruction.offset = [0, 3, 20, 26, 29] ∧
    decoyCode.instructions ⟨0, 38⟩ = sparseCode.instructions ⟨0, 38⟩ ∧
    ((Cursor.start ⟨[⟨0, 38⟩], by decide, by decide⟩).drain decoyCode).offsets =
      ((Cursor.start ⟨[⟨0, 38⟩], by decide, by decide⟩).drain sparseCode).offsets := by
  obtain ⟨hsame, hdrain⟩ := instructions_eq_of_decisive sparseCode decoyCode [⟨0, 38⟩] rfl
    (by decide +kernel)
  exact ⟨by decide +kernel, hsame ⟨0, 38⟩ (by simp), hdrain _ rfl⟩

end Code

end CallAlign

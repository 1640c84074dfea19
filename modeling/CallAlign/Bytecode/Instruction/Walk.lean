import CallAlign.Bytecode.Instruction.Size
import CallAlign.Bytecode.RangeList

/-!
# Walking through instructions

Decoding one instruction, and the walk that lists the instructions starting inside a range: it
begins at the start of the range, goes from each instruction to the end of it, and stops at the
first offset at or past the end of the range or of the code. An instruction whose operands run
past the end of the range is still listed.
-/

namespace CallAlign

/-- An instruction in its place. -/
structure Instruction where
  offset : Nat
  opcode : Opcode
  size : Nat
  deriving DecidableEq, Repr

namespace Instruction

/-- The offset behind the instruction. -/
def stop (i : Instruction) : Nat := satAdd i.offset i.size

def isCall (i : Instruction) : Bool := i.opcode.isCall

def mnemonic (i : Instruction) : String := i.opcode.mnemonic

/-- The instruction as it appears in debugging output. -/
def debug (i : Instruction) : String := s!"{i.mnemonic}@{i.offset}+{i.size}"

end Instruction

namespace Code

/-- The instruction that starts at `offset`, if the code reaches that far. -/
def decode? (code : Code) (offset : Nat) : Option Instruction :=
  (code.byte? offset).map fun op => ⟨offset, op, code.instructionSize op offset⟩

theorem lt_size_of_decode? {code : Code} {offset : Nat} {i : Instruction}
    (h : code.decode? offset = some i) : offset < code.size := by
  obtain ⟨op, hop, _⟩ := Option.map_eq_some_iff.1 h
  exact lt_size_of_byte? hop

theorem size_lt_maxOffset (code : Code) : code.size < maxOffset := by
  have := code.size_lt
  simp only [size, maxOffset]
  omega

/-- Stepping over an instruction inside the code moves forward. -/
theorem lt_step {code : Code} {offset : Nat} (op : Opcode) (h : offset < code.size) :
    offset < satAdd offset (code.instructionSize op offset) :=
  lt_satAdd (Nat.lt_trans h code.size_lt_maxOffset) (code.instructionSize_pos op offset)

theorem lt_stop_of_decode? {code : Code} {offset : Nat} {i : Instruction}
    (h : code.decode? offset = some i) : offset < i.stop := by
  obtain ⟨op, hop, rfl⟩ := Option.map_eq_some_iff.1 h
  exact lt_step op (lt_size_of_byte? hop)

/-- The instructions from `position` on that start before `stop`. -/
def walk (code : Code) (position stop : Nat) : List Instruction :=
  if position < stop then
    match _h : code.decode? position with
    | some i => i :: code.walk i.stop stop
    | none => []
  else []
termination_by code.size - position
decreasing_by
  have := lt_size_of_decode? _h
  have := lt_stop_of_decode? _h
  omega

/-- At or past its end a walk is over. -/
theorem walk_of_le {code : Code} {position stop : Nat} (h : stop ≤ position) :
    code.walk position stop = [] := by
  rw [walk, if_neg (Nat.not_lt.2 h)]

/-- Past the code a walk is over. -/
theorem walk_of_decode?_eq_none {code : Code} {position : Nat} (stop : Nat)
    (h : code.decode? position = none) : code.walk position stop = [] := by
  rw [walk]
  split
  · split
    · simp_all
    · rfl
  · rfl

/-- A walk lists the instruction it stands on and goes on behind it. -/
theorem walk_of_decode?_eq_some {code : Code} {position stop : Nat} {i : Instruction}
    (hlt : position < stop) (h : code.decode? position = some i) :
    code.walk position stop = i :: code.walk i.stop stop := by
  rw [walk, if_pos hlt]
  split
  · simp_all
  · simp_all

/-- The instructions that start inside `range`. -/
def instructions (code : Code) (range : CodeRange) : List Instruction :=
  code.walk range.start range.stop

def allInstructions (code : Code) : List Instruction := code.instructions ⟨0, code.size⟩

end Code

end CallAlign

import CallAlign.Offset
import CallAlign.Bytecode.Code

/-!
# Instruction sizes

The number of bytes that the instruction at an offset takes. It is defined for every opcode at
every offset of every code, well formed or not: a switch whose header is cut off takes all that is
left. Every instruction has at least one byte (`Code.instructionSize_pos`), so a walk from
instruction to instruction moves forward.
-/

namespace CallAlign

namespace Code

/-- The distance from a switch opcode to its operands, which start at the next multiple of four
after the opcode. -/
def switchPadding (offset : Nat) : Nat := 4 - offset % 4

/-- Where the operands of a switch at `offset` start. -/
def switchOperands (offset : Nat) : Nat := satAdd offset (switchPadding offset)

/-- What an instruction with an unreadable header takes: the rest of the code, at least a byte. -/
def remaining (code : Code) (offset : Nat) : Nat := max 1 (code.size - offset)

/-- The size of a `tableswitch` at `offset`, with one jump offset for each key from the low to the
high one, none when they are inverted. -/
def tableSwitchSize (code : Code) (offset : Nat) : Nat :=
  match code.int32? (satAdd (switchOperands offset) 4),
      code.int32? (satAdd (switchOperands offset) 8) with
  | some low, some high =>
    satAdd (satAdd (switchOperands offset) 12) ((high - low + 1).toNat * 4) - offset
  | _, _ => code.remaining offset

/-- The size of a `lookupswitch` at `offset`, a negative pair count counting as none. -/
def lookupSwitchSize (code : Code) (offset : Nat) : Nat :=
  match code.int32? (satAdd (switchOperands offset) 4) with
  | some pairs => satAdd (satAdd (switchOperands offset) 8) (pairs.toNat * 8) - offset
  | none => code.remaining offset

/-- The size of a `wide` instruction at `offset`: six bytes for `iinc`, else four. -/
def wideSize (code : Code) (offset : Nat) : Nat :=
  if code.byte? (satAdd offset 1) = some Opcode.iinc then 6 else 4

/-- The size at `offset` of an instruction that `op` opens, whatever byte stands there. -/
def instructionSize (code : Code) (op : Opcode) (offset : Nat) : Nat :=
  match op.form with
  | .fixed n => n
  | .tableSwitch => code.tableSwitchSize offset
  | .lookupSwitch => code.lookupSwitchSize offset
  | .wide => code.wideSize offset

/-! ## Every instruction has a byte -/

theorem form_ne_fixed_zero (op : Opcode) : op.form ≠ .fixed 0 := by
  have table : ∀ g ∈ Opcode.formGroups, g.form ≠ .fixed 0 := by decide
  unfold Opcode.form
  split
  · exact table _ (List.mem_of_find?_eq_some ‹_›)
  · simp

theorem switchPadding_pos (offset : Nat) : 0 < switchPadding offset := by
  unfold switchPadding
  omega

theorem switchPadding_le (offset : Nat) : switchPadding offset ≤ 4 := Nat.sub_le ..

/-- Far from the limit the words of a switch are found by plain sums. -/
theorem satAdd_switchOperands {offset n : Nat}
    (h : offset + switchPadding offset + n ≤ maxOffset) :
    satAdd (switchOperands offset) n = offset + switchPadding offset + n := by
  rw [switchOperands, satAdd_of_le (Nat.le_trans (Nat.le_add_right ..) h), satAdd_of_le h]

theorem remaining_pos (code : Code) (offset : Nat) : 0 < code.remaining offset :=
  Nat.lt_of_lt_of_le Nat.one_pos (Nat.le_max_left ..)

/-- A switch whose header can be read ends behind its opcode: the header lies inside the code, far
below the point where offsets saturate. -/
theorem lt_satAdd_switchOperands {code : Code} {offset : Nat} {n : Int} (header table : Nat)
    (h : code.int32? (satAdd (switchOperands offset) 4) = some n) :
    offset < satAdd (satAdd (switchOperands offset) header) table := by
  have hread := lt_size_of_int32? h
  have hsize := code.size_lt
  have hpad := switchPadding_pos offset
  simp only [switchOperands, satAdd, maxOffset, size] at *
  omega

theorem tableSwitchSize_pos (code : Code) (offset : Nat) : 0 < code.tableSwitchSize offset := by
  unfold tableSwitchSize
  split
  · exact Nat.sub_pos_of_lt (lt_satAdd_switchOperands _ _ ‹_›)
  · exact code.remaining_pos offset

theorem lookupSwitchSize_pos (code : Code) (offset : Nat) : 0 < code.lookupSwitchSize offset := by
  unfold lookupSwitchSize
  split
  · exact Nat.sub_pos_of_lt (lt_satAdd_switchOperands _ _ ‹_›)
  · exact code.remaining_pos offset

theorem wideSize_pos (code : Code) (offset : Nat) : 0 < code.wideSize offset := by
  unfold wideSize
  split <;> decide

theorem instructionSize_pos (code : Code) (op : Opcode) (offset : Nat) :
    0 < code.instructionSize op offset := by
  unfold instructionSize
  split
  · rename_i n hn
    exact Nat.pos_of_ne_zero fun h0 => form_ne_fixed_zero op (h0 ▸ hn)
  · exact code.tableSwitchSize_pos offset
  · exact code.lookupSwitchSize_pos offset
  · exact code.wideSize_pos offset

end Code

end CallAlign

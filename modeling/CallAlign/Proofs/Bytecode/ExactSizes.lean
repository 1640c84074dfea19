import Mathlib.Logic.ExistsUnique
import Mathlib.Order.Bounds.Defs
import CallAlign.Proofs.Bytecode.Assembly

/-!
# Sizes over the integers

The size of an instruction is computed from offsets that saturate. Here it is told without them:
the class of the opcode from a table of all opcodes, the words of a switch at the next multiple of
four, and sums and differences over the integers.

**Theorem (`instructionSize_eq_exactSize`).** The two agree for every opcode at every offset of
every code. Where a switch header can be read, no sum of the computation reaches the limit and the
end of the switch lies behind its opcode.

Saturated offsets are never mistaken for offsets of the code, because the limit lies far behind any
code. So a saturated read gives nothing, as the exact read does (`int32?_switchOperands`), and a
read that gives something was not saturated. That leaves room for the largest jump table, which has
`2 ^ 32` entries.
-/

namespace CallAlign

namespace Code

variable {code : Code} {offset : Nat}

/-! ## Words -/

/-- The byte at `offset`, zero past the code. -/
def byteAt (code : Code) (offset : Nat) : UInt8 := (code.byte? offset).getD 0

/-- The four bytes at `offset` side by side, the first one in front. -/
def int32At (code : Code) (offset : Nat) : Int32 :=
  .ofBitVec ((code.byteAt offset).toBitVec ++ (code.byteAt (offset + 1)).toBitVec ++
    (code.byteAt (offset + 2)).toBitVec ++ (code.byteAt (offset + 3)).toBitVec)

theorem byte?_of_lt (h : offset < code.size) : code.byte? offset = some (code.byteAt offset) := by
  cases hbyte : code.byte? offset with
  | none => exact absurd h (Nat.not_lt.2 (byte?_eq_none_iff.1 hbyte))
  | some b => simp [byteAt, hbyte]

theorem toNat_append_byte {w : Nat} (x : BitVec w) (b : UInt8) :
    (x ++ b.toBitVec).toNat = x.toNat * 256 + b.toNat := by
  rw [BitVec.toNat_append, ← Nat.shiftLeft_add_eq_or_of_lt b.toBitVec.isLt, Nat.shiftLeft_eq]
  rfl

theorem signed32_word32 (a b c d : UInt8) :
    signed32 (word32 a b c d) =
      (Int32.ofBitVec (a.toBitVec ++ b.toBitVec ++ c.toBitVec ++ d.toBitVec)).toInt := by
  rw [← signed32_toNat, Int32.toBitVec_ofBitVec, toNat_append_byte, toNat_append_byte,
    toNat_append_byte]
  rfl

theorem int32?_eq_int32At (code : Code) (offset : Nat) :
    code.int32? offset =
      if offset + 4 ≤ code.size then some (code.int32At offset).toInt else none := by
  by_cases h : offset + 4 ≤ code.size
  · rw [if_pos h]
    have hbytes : ∀ k < 4, code.byte? (offset + k) = some (code.byteAt (offset + k)) :=
      fun k hk => byte?_of_lt (by omega)
    have hfirst := hbytes 0 (by omega)
    rw [Nat.add_zero] at hfirst
    simp only [int32?, hfirst, hbytes 1 (by omega), hbytes 2 (by omega), hbytes 3 (by omega),
      signed32_word32, int32At]
  · rw [if_neg h]
    cases hread : code.int32? offset with
    | none => rfl
    | some n =>
      have := lt_size_of_int32? hread
      omega

/-! ## Where the words of a switch stand -/

/-- The next multiple of four behind `offset`. -/
def nextAligned (offset : Nat) : Nat := offset / 4 * 4 + 4

theorem isLeast_nextAligned (offset : Nat) :
    IsLeast {n | offset < n ∧ 4 ∣ n} (nextAligned offset) := by
  unfold nextAligned
  constructor
  · exact ⟨by omega, by omega⟩
  · rintro n ⟨hlt, hdvd⟩
    omega

theorem add_switchPadding (offset : Nat) : offset + switchPadding offset = nextAligned offset := by
  unfold switchPadding nextAligned
  omega

/-- A word of a switch is read where it stands, and not at all when the sum has saturated. -/
theorem int32?_switchOperands (code : Code) (offset n : Nat) :
    code.int32? (satAdd (switchOperands offset) n) =
      if nextAligned offset + n + 4 ≤ code.size then
        some (code.int32At (nextAligned offset + n)).toInt
      else none := by
  have hlimit := code.size_lt_maxOffset
  by_cases hroom : nextAligned offset + n ≤ maxOffset
  · rw [satAdd_switchOperands (by rwa [add_switchPadding]), add_switchPadding, int32?_eq_int32At]
  · have hsaturated : satAdd (switchOperands offset) n = maxOffset := by
      unfold switchOperands satAdd
      rw [add_switchPadding]
      omega
    rw [hsaturated, int32?_eq_int32At, if_neg (by omega), if_neg (by omega)]

/-! ## The end of a switch -/

/-- The end of a switch at `offset` is computed without loss from `header` bytes and `count` entries
of `width` bytes: the count is a 64-bit integer, no product or sum passes the limit of offsets, and
the end does not lie in front of the opcode. -/
structure EndsExactly (offset header width : Nat) (count : Int) : Prop where
  count_min : Int64.minValue.toInt ≤ count
  count_max : count ≤ Int64.maxValue.toInt
  table : count.toNat * width ≤ maxOffset
  operands : offset + switchPadding offset ≤ maxOffset
  stop : switchOperands offset + header + count.toNat * width ≤ maxOffset
  behind : offset ≤ satAdd (satAdd (switchOperands offset) header) (count.toNat * width)

theorem satAdd_satAdd {a b c : Nat} (h : a + b + c ≤ maxOffset) :
    satAdd (satAdd a b) c = a + b + c := by
  rw [satAdd_of_le (Nat.le_trans (Nat.le_add_right ..) h), satAdd_of_le h]

/-- A header inside the code leaves room for every table of up to `2 ^ 32` entries. -/
theorem endsExactly_of_le {header width : Nat} {count : Int}
    (h : nextAligned offset + header ≤ code.size) (hmin : -0x100000000 ≤ count)
    (hmax : count ≤ 0x100000000) (hwidth : width ≤ 8) :
    EndsExactly offset header width count := by
  have hsize : code.size < 0x8000000000000000 := code.size_lt
  have hlimit : maxOffset = 0xffffffffffffffff := rfl
  have hnext : offset < nextAligned offset := (isLeast_nextAligned offset).1.1
  have htable : count.toNat * width ≤ 0x100000000 * 8 := Nat.mul_le_mul (by omega) hwidth
  have hoperands : offset + switchPadding offset ≤ maxOffset := by
    rw [add_switchPadding]
    omega
  have hstop : switchOperands offset + header + count.toNat * width ≤ maxOffset := by
    rw [switchOperands, satAdd_of_le hoperands, add_switchPadding]
    omega
  refine ⟨?_, ?_, by omega, hoperands, hstop, ?_⟩
  · rw [Int64.toInt_minValue]
    omega
  · have hmaxValue : Int64.maxValue.toInt = 0x7fffffffffffffff := by decide
    omega
  · rw [satAdd_satAdd hstop, switchOperands, satAdd_of_le hoperands]
    omega

theorem EndsExactly.size_eq {header width : Nat} {count : Int}
    (h : EndsExactly offset header width count) :
    ((satAdd (satAdd (switchOperands offset) header) (count.toNat * width) - offset : Nat) : Int) =
      (nextAligned offset : Int) - offset + header + width * max 0 count := by
  have hnext : offset < nextAligned offset := (isLeast_nextAligned offset).1.1
  have htable : (width : Int) * max 0 count = (count.toNat * width : Nat) := by
    rw [Int.natCast_mul, Int.mul_comm]
    congr 1
    omega
  rw [satAdd_satAdd h.stop, switchOperands, satAdd_of_le h.operands, add_switchPadding, htable]
  omega

theorem remaining_eq (code : Code) (offset : Nat) :
    (code.remaining offset : Int) = max 1 ((code.size : Int) - offset) := by
  unfold remaining
  omega

/-! ## Sizes -/

/-- The size of an instruction at `offset` whose opcode has the given form, over the integers. -/
def exactSize (code : Code) (offset : Nat) : Form → Int
  | .fixed size => size
  | .tableSwitch =>
    let words := nextAligned offset
    if words + 12 ≤ code.size then
      (words : Int) - offset + 12 +
        4 * max 0 ((code.int32At (words + 8)).toInt - (code.int32At (words + 4)).toInt + 1)
    else max 1 ((code.size : Int) - offset)
  | .lookupSwitch =>
    let words := nextAligned offset
    if words + 8 ≤ code.size then
      (words : Int) - offset + 8 + 8 * max 0 (code.int32At (words + 4)).toInt
    else max 1 ((code.size : Int) - offset)
  | .wide => if code.byte? (offset + 1) = some Opcode.iinc then 6 else 4

theorem endsExactly_tableSwitch {low high : Int}
    (hlow : code.int32? (satAdd (switchOperands offset) 4) = some low)
    (hhigh : code.int32? (satAdd (switchOperands offset) 8) = some high) :
    EndsExactly offset 12 4 (high - low + 1) := by
  rw [int32?_switchOperands, Option.ite_none_right_eq_some, Option.some.injEq] at hlow hhigh
  obtain ⟨-, rfl⟩ := hlow
  obtain ⟨hheader, rfl⟩ := hhigh
  have hlow := (code.int32At (nextAligned offset + 4)).le_toInt
  have hlow' := (code.int32At (nextAligned offset + 4)).toInt_lt
  have hhigh := (code.int32At (nextAligned offset + 8)).le_toInt
  have hhigh' := (code.int32At (nextAligned offset + 8)).toInt_lt
  exact endsExactly_of_le hheader (by omega) (by omega) (by omega)

theorem endsExactly_lookupSwitch {pairs : Int}
    (hpairs : code.int32? (satAdd (switchOperands offset) 4) = some pairs) :
    EndsExactly offset 8 8 pairs := by
  rw [int32?_switchOperands, Option.ite_none_right_eq_some, Option.some.injEq] at hpairs
  obtain ⟨hheader, rfl⟩ := hpairs
  have hle := (code.int32At (nextAligned offset + 4)).le_toInt
  have hlt := (code.int32At (nextAligned offset + 4)).toInt_lt
  exact endsExactly_of_le hheader (by omega) (by omega) (by omega)

theorem tableSwitchSize_eq (code : Code) (offset : Nat) :
    (code.tableSwitchSize offset : Int) = code.exactSize offset .tableSwitch := by
  rw [tableSwitchSize, exactSize]
  have hlow := int32?_switchOperands code offset 4
  have hhigh := int32?_switchOperands code offset 8
  by_cases hheader : nextAligned offset + 12 ≤ code.size
  · rw [if_pos (by omega)] at hlow hhigh
    rw [if_pos hheader]
    have hends := endsExactly_tableSwitch hlow hhigh
    simp only [hlow, hhigh]
    exact hends.size_eq
  · rw [if_neg (by omega)] at hhigh
    rw [if_neg hheader, ← remaining_eq, hhigh]
    -- The low key may still be readable, but not both.
    cases code.int32? (satAdd (switchOperands offset) 4) <;> rfl

theorem lookupSwitchSize_eq (code : Code) (offset : Nat) :
    (code.lookupSwitchSize offset : Int) = code.exactSize offset .lookupSwitch := by
  rw [lookupSwitchSize, exactSize]
  have hpairs := int32?_switchOperands code offset 4
  by_cases hheader : nextAligned offset + 8 ≤ code.size
  · rw [if_pos (by omega)] at hpairs
    rw [if_pos hheader]
    have hends := endsExactly_lookupSwitch hpairs
    simp only [hpairs]
    exact hends.size_eq
  · rw [if_neg (by omega)] at hpairs
    rw [if_neg hheader, ← remaining_eq, hpairs]

/-- The byte behind the opcode is missing at the limit, whether or not the sum saturates. -/
theorem byte?_satAdd_one (code : Code) (offset : Nat) :
    code.byte? (satAdd offset 1) = code.byte? (offset + 1) := by
  by_cases hroom : offset + 1 ≤ maxOffset
  · rw [satAdd_of_le hroom]
  · have hlimit := code.size_lt_maxOffset
    have hsaturated : satAdd offset 1 = maxOffset := by
      unfold satAdd
      omega
    rw [hsaturated, byte?_eq_none_iff.2 (by omega), byte?_eq_none_iff.2 (by omega)]

theorem wideSize_eq (code : Code) (offset : Nat) :
    (code.wideSize offset : Int) = code.exactSize offset .wide := by
  rw [wideSize, exactSize, byte?_satAdd_one]
  split <;> rfl

theorem instructionSize_eq_of_form {op : Opcode} {form : Form} (h : op.form = form) :
    (code.instructionSize op offset : Int) = code.exactSize offset form := by
  subst h
  unfold instructionSize
  split
  · rename_i size hform
    rw [hform, exactSize]
  · rename_i hform
    rw [hform, tableSwitchSize_eq]
  · rename_i hform
    rw [hform, lookupSwitchSize_eq]
  · rename_i hform
    rw [hform, wideSize_eq]

/-- **Sizes are exact.** Every opcode belongs to one size class, and every instruction has the size
that its class gives over the integers, which is at least a byte. Wherever the end of a switch is
computed from its words, it is computed without loss. -/
theorem instructionSize_eq_exactSize (code : Code) (op : Opcode) (offset : Nat) :
    (∃! form, op.HasClass form) ∧
    IsLeast {n | offset < n ∧ 4 ∣ n} (nextAligned offset) ∧
    (∀ form, op.HasClass form →
      (code.instructionSize op offset : Int) = code.exactSize offset form) ∧
    1 ≤ code.instructionSize op offset ∧
    (∀ low high : Int, code.int32? (satAdd (switchOperands offset) 4) = some low →
      code.int32? (satAdd (switchOperands offset) 8) = some high →
      EndsExactly offset 12 4 (high - low + 1)) ∧
    (∀ pairs : Int, code.int32? (satAdd (switchOperands offset) 4) = some pairs →
      EndsExactly offset 8 8 pairs) := by
  refine ⟨?_, isLeast_nextAligned offset, ?_, code.instructionSize_pos op offset, ?_, ?_⟩
  · refine ⟨op.form, Opcode.hasClass_iff.2 rfl, ?_⟩
    intro form hform
    exact (Opcode.hasClass_iff.1 hform).symm
  · intro form hform
    exact instructionSize_eq_of_form (Opcode.hasClass_iff.1 hform)
  · intro low high hlow hhigh
    exact endsExactly_tableSwitch hlow hhigh
  · intro pairs hpairs
    exact endsExactly_lookupSwitch hpairs

-- The largest jump table there is, with keys from `-2 ^ 31` to `2 ^ 31 - 1`.
example : Code.instructionSize
    ⟨#[170, 0, 0, 0, 0, 0, 0, 0, 128, 0, 0, 0, 127, 255, 255, 255], by decide⟩ 170 0 =
      4 + 12 + 4 * 2 ^ 32 := by decide

end Code

end CallAlign

import CallAlign.Bytecode.InstructionSet

/-!
# Method code

A method's code is an array of bytes, so short that every offset inside it lies well
below the saturation point of offsets. Reads past the end give nothing.
-/

namespace CallAlign

/-- The bytes of one method. -/
structure Code where
  bytes : Array UInt8
  /-- Code is shorter than half the range of offsets. -/
  size_lt : bytes.size < 0x8000000000000000

namespace Code

/-- The code made of `bytes`, if they are few enough. -/
def ofBytes? (bytes : Array UInt8) : Option Code :=
  if h : bytes.size < 0x8000000000000000 then some ⟨bytes, h⟩ else none

def empty : Code := ⟨#[], by decide⟩

instance : Inhabited Code := ⟨empty⟩

def size (code : Code) : Nat := code.bytes.size

/-- The byte at `offset`, if the code reaches that far. -/
def byte? (code : Code) (offset : Nat) : Option UInt8 := code.bytes[offset]?

theorem byte?_eq_none_iff {code : Code} {offset : Nat} :
    code.byte? offset = none ↔ code.size ≤ offset := by
  simp [byte?, size]

theorem lt_size_of_byte? {code : Code} {offset : Nat} {b : UInt8}
    (h : code.byte? offset = some b) : offset < code.size :=
  Nat.lt_of_not_le fun hn => by simp [byte?_eq_none_iff.2 hn] at h

/-- The unsigned big-endian value of four bytes. -/
def word32 (a b c d : UInt8) : Nat :=
  ((a.toNat * 256 + b.toNat) * 256 + c.toNat) * 256 + d.toNat

/-- The two's complement reading of a 32-bit word. -/
def signed32 (n : Nat) : Int := if n < 0x80000000 then n else (n : Int) - 0x100000000

/-- The signed big-endian 32-bit integer at `offset`, if all four of its bytes exist. -/
def int32? (code : Code) (offset : Nat) : Option Int :=
  match code.byte? offset, code.byte? (offset + 1), code.byte? (offset + 2),
      code.byte? (offset + 3) with
  | some a, some b, some c, some d => some (signed32 (word32 a b c d))
  | _, _, _, _ => none

theorem lt_size_of_int32? {code : Code} {offset : Nat} {n : Int}
    (h : code.int32? offset = some n) : offset + 3 < code.size := by
  unfold int32? at h
  split at h
  · exact lt_size_of_byte? ‹code.byte? (offset + 3) = _›
  · cases h

end Code

end CallAlign

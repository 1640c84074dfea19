import CallAlign.Proofs.Bytecode.CursorDrain
import CallAlign.Proofs.Bytecode.RangeValidation
import CallAlign.Proofs.Bytecode.SizeClasses

/-!
# Assembling and decoding

The other way round: from instructions to bytes. A `Statement` is an instruction with all of its
operands, and `assemble` lays statements out one behind another. How many operands there are is
read off the table of size classes, not asked of the decoder. Where a statement stands matters,
because a switch is padded up to the next multiple of four.

**Theorem (`instructions_assemble`).** Between any two statement boundaries of assembled code, the
walk lists the statements that were assembled there, and a cursor finds the calls among them.

Nothing keeps an operand byte from looking like an opcode. What keeps the walk in step is that
each statement is decoded with the very size it was assembled with (`instructionSize_bytes`); the
induction over the statements then moves from boundary to boundary and never looks inside one.
-/

namespace CallAlign

/-! ## Big-endian words -/

/-- A 32-bit integer as four bytes, the most significant one first. -/
def bigEndian (n : Int32) : List UInt8 :=
  let word := n.toBitVec.toNat
  [.ofNat (word / 0x1000000), .ofNat (word / 0x10000), .ofNat (word / 0x100), .ofNat word]

@[simp] theorem length_bigEndian (n : Int32) : (bigEndian n).length = 4 := rfl

/-- Integers one behind another. -/
def wordBytes (words : List Int32) : List UInt8 := words.flatMap bigEndian

@[simp] theorem length_wordBytes (words : List Int32) :
    (wordBytes words).length = words.length * 4 := by
  simp [wordBytes, List.length_flatMap, List.map_const']

theorem word32_bytes {word : Nat} (h : word < 0x100000000) :
    Code.word32 (.ofNat (word / 0x1000000)) (.ofNat (word / 0x10000)) (.ofNat (word / 0x100))
      (.ofNat word) = word := by
  simp only [Code.word32, UInt8.toNat_ofNat']
  omega

theorem signed32_toNat (n : Int32) : Code.signed32 n.toBitVec.toNat = n.toInt := by
  have hlt : n.toBitVec.toNat < 0x100000000 := n.toBitVec.isLt
  have hint : n.toInt = n.toBitVec.toInt := rfl
  rw [hint, BitVec.toInt_eq_toNat_cond, Code.signed32]
  by_cases h : n.toBitVec.toNat < 0x80000000
  · rw [if_pos h, if_pos (by omega)]
  · rw [if_neg h, if_neg (by omega)]
    rfl

namespace Code

variable {code : Code} {front rest : List UInt8}

theorem byte?_eq_toList (code : Code) (offset : Nat) :
    code.byte? offset = code.bytes.toList[offset]? := by
  simp [byte?]

/-- The bytes behind a front part of the code. -/
theorem byte?_of_append (h : code.bytes.toList = front ++ rest) (k : Nat) :
    code.byte? (front.length + k) = rest[k]? := by
  rw [byte?_eq_toList, h, List.getElem?_append_right (Nat.le_add_right ..),
    Nat.add_sub_cancel_left]

theorem size_of_append (h : code.bytes.toList = front ++ rest) :
    code.size = front.length + rest.length := by
  rw [size, ← Array.length_toList, h, List.length_append]

/-- A word is read as the integer it was written for. -/
theorem int32?_of_append {n : Int32} (h : code.bytes.toList = front ++ (bigEndian n ++ rest)) :
    code.int32? front.length = some n.toInt := by
  have hword : n.toBitVec.toNat < 0x100000000 := n.toBitVec.isLt
  have hbyte := byte?_of_append h
  have hfirst := hbyte 0
  rw [Nat.add_zero] at hfirst
  simp only [int32?, hfirst, hbyte, bigEndian, List.cons_append, List.getElem?_cons_zero,
    List.getElem?_cons_succ]
  rw [word32_bytes hword, signed32_toNat]

/-- So is each of several words. -/
theorem int32?_of_words {words : List Int32} {k : Nat} {n : Int32}
    (h : code.bytes.toList = front ++ (wordBytes words ++ rest)) (hk : words[k]? = some n) :
    code.int32? (front.length + k * 4) = some n.toInt := by
  induction words generalizing front k with
  | nil => simp at hk
  | cons word words ih =>
    have hsplit : code.bytes.toList =
        front ++ (bigEndian word ++ (wordBytes words ++ rest)) := by
      rw [h, wordBytes, List.flatMap_cons, List.append_assoc, wordBytes]
    cases k with
    | zero =>
      rw [List.getElem?_cons_zero, Option.some.injEq] at hk
      subst hk
      simpa using int32?_of_append hsplit
    | succ k =>
      rw [← List.append_assoc] at hsplit
      have hlater := ih hsplit hk
      rw [List.length_append, length_bigEndian] at hlater
      rw [← hlater]
      congr 1
      omega

end Code

/-! ## Statements -/

/-- An instruction with its operands. Padding is given as three bytes, of which a switch takes as
many as its place asks for. -/
inductive Statement where
  /-- An opcode that alone decides the size, with as many bytes behind it as its class has. -/
  | plain (op : Opcode) (ordinary : op.Ordinary) (operands : Vector UInt8 (op.fixedSize - 1))
  /-- A jump table with one offset for each key from the low to the high one. -/
  | tableSwitch (pad : Vector UInt8 3) (default low high : Int32)
      (jumps : Vector Int32 (high.toInt - low.toInt + 1).toNat)
  /-- A jump table with pairs of key and offset. -/
  | lookupSwitch (pad : Vector UInt8 3) (default : Int32) (pairs : List (Int32 × Int32))
      (few : pairs.length < 0x80000000)
  /-- An opcode with operands of double width. -/
  | wide (op : Opcode) (operands : Vector UInt8 (if op = Opcode.iinc then 4 else 2))

namespace Statement

/-- The byte that opens the statement. -/
def opcode : Statement → Opcode
  | .plain op _ _ => op
  | .tableSwitch .. => Opcode.tableswitch
  | .lookupSwitch .. => Opcode.lookupswitch
  | .wide .. => Opcode.wide

/-- The padding of a switch at `offset`: its words start at the next multiple of four. -/
def padding (offset : Nat) (pad : Vector UInt8 3) : List UInt8 :=
  pad.toList.take (3 - offset % 4)

/-- What follows the opcode of a switch at `offset`. -/
def switchBytes (offset : Nat) (pad : Vector UInt8 3) (words : List Int32) : List UInt8 :=
  padding offset pad ++ wordBytes words

/-- What follows the opcode of a statement at `offset`. -/
def operandBytes (offset : Nat) : Statement → List UInt8
  | .plain _ _ operands => operands.toList
  | .tableSwitch pad default low high jumps =>
    switchBytes offset pad (default :: low :: high :: jumps.toList)
  | .lookupSwitch pad default pairs _ =>
    switchBytes offset pad
      (default :: .ofNat pairs.length :: pairs.flatMap fun pair => [pair.1, pair.2])
  | .wide op operands => op :: operands.toList

/-- The statement as it stands at `offset`. -/
def bytes (offset : Nat) (s : Statement) : List UInt8 := s.opcode :: s.operandBytes offset

theorem length_padding (offset : Nat) (pad : Vector UInt8 3) :
    (padding offset pad).length + 1 = Code.switchPadding offset := by
  rw [padding, List.length_take, Vector.length_toList, Code.switchPadding]
  omega

theorem length_switchBytes (offset : Nat) (pad : Vector UInt8 3) (words : List Int32) :
    (switchBytes offset pad words).length + 1 = Code.switchPadding offset + words.length * 4 := by
  have hpadding := length_padding offset pad
  rw [switchBytes, List.length_append, length_wordBytes]
  omega

end Statement

/-! ## Sizes -/

namespace Code

variable {code : Code} {front rest : List UInt8}

/-- The words of a switch are found where its size is computed from. -/
theorem int32?_switchBytes {op : Opcode} {pad : Vector UInt8 3} {words : List Int32} {k : Nat}
    {n : Int32}
    (h : code.bytes.toList =
      front ++ (op :: Statement.switchBytes front.length pad words ++ rest))
    (hk : words[k]? = some n) :
    code.int32? (satAdd (switchOperands front.length) (k * 4)) = some n.toInt := by
  have hlength : (front ++ op :: Statement.padding front.length pad).length =
      front.length + switchPadding front.length := by
    rw [List.length_append, List.length_cons, Statement.length_padding]
  have hwords : code.bytes.toList =
      (front ++ op :: Statement.padding front.length pad) ++ (wordBytes words ++ rest) := by
    rw [h, Statement.switchBytes]
    simp
  have hread := int32?_of_words hwords hk
  rw [hlength] at hread
  -- The word was read, so the sum is far from the limit.
  have hlt := lt_size_of_int32? hread
  have hsize := code.size_lt_maxOffset
  rwa [satAdd_switchOperands (by omega)]

/-- **Sizes agree.** A statement is decoded with the size it was assembled with. -/
theorem instructionSize_bytes (s : Statement)
    (h : code.bytes.toList = front ++ (s.bytes front.length ++ rest)) :
    code.instructionSize s.opcode front.length = (s.bytes front.length).length := by
  have htotal := size_of_append h
  have hsize := code.size_lt_maxOffset
  rw [List.length_append] at htotal
  cases s with
  | plain op ordinary operands =>
    have hform := Opcode.form_of_ordinary ordinary
    have hpos : op.fixedSize ≠ 0 := fun h0 => form_ne_fixed_zero op (h0 ▸ hform)
    simp only [instructionSize, Statement.opcode, hform, Statement.bytes,
      Statement.operandBytes, List.length_cons, Vector.length_toList]
    omega
  | tableSwitch pad default low high jumps =>
    have hlow := int32?_switchBytes h (k := 1) rfl
    have hhigh := int32?_switchBytes h (k := 2) rfl
    have hlength := Statement.length_switchBytes front.length pad
      (default :: low :: high :: jumps.toList)
    simp only [List.length_cons, Vector.length_toList] at hlength
    simp only [Statement.bytes, Statement.operandBytes, List.length_cons] at htotal ⊢
    show code.tableSwitchSize front.length = _
    simp only [tableSwitchSize, hlow, hhigh]
    rw [satAdd_switchOperands (by omega), satAdd_of_le (by omega)]
    omega
  | lookupSwitch pad default pairs few =>
    have hpairs := int32?_switchBytes h (k := 1) rfl
    have hlength := Statement.length_switchBytes front.length pad
      (default :: .ofNat pairs.length :: pairs.flatMap fun pair => [pair.1, pair.2])
    simp only [List.length_cons, List.length_flatMap, List.length_nil, List.map_const',
      List.sum_replicate_nat] at hlength
    simp only [Statement.bytes, Statement.operandBytes, List.length_cons] at htotal ⊢
    show code.lookupSwitchSize front.length = _
    simp only [lookupSwitchSize, hpairs, Int32.toInt_ofNat_of_lt few, Int.toNat_natCast]
    rw [satAdd_switchOperands (by omega), satAdd_of_le (by omega)]
    omega
  | wide op operands =>
    have hop : code.byte? (satAdd front.length 1) = some op := by
      simp only [Statement.bytes, List.length_cons] at htotal
      rw [satAdd_of_le (by omega), byte?_of_append h]
      rfl
    show code.wideSize front.length = _
    simp only [wideSize, hop, Option.some.injEq, Statement.bytes, Statement.operandBytes,
      List.length_cons, Vector.length_toList]
    split <;> rfl

/-- A statement is decoded where it was assembled. -/
theorem decode?_bytes (s : Statement)
    (h : code.bytes.toList = front ++ (s.bytes front.length ++ rest)) :
    code.decode? front.length =
      some ⟨front.length, s.opcode, (s.bytes front.length).length⟩ := by
  have hbyte := byte?_of_append h 0
  rw [← instructionSize_bytes s h]
  exact decode?_of_byte? hbyte

end Code

/-! ## Programs -/

/-- The bytes of `program` laid out from `offset` on. -/
def assemble (offset : Nat) : List Statement → List UInt8
  | [] => []
  | s :: rest => s.bytes offset ++ assemble (offset + (s.bytes offset).length) rest

/-- The instructions of `program` laid out from `offset` on. -/
def listing (offset : Nat) : List Statement → List Instruction
  | [] => []
  | s :: rest =>
    ⟨offset, s.opcode, (s.bytes offset).length⟩ ::
      listing (offset + (s.bytes offset).length) rest

/-- Where the statement at index `i` starts, or the program ends if it has no more. -/
def boundary (program : List Statement) (i : Nat) : Nat := (assemble 0 (program.take i)).length

/-- The code of a program that is short enough. -/
def assembled (program : List Statement)
    (short : (assemble 0 program).length < 0x8000000000000000) : Code :=
  ⟨(assemble 0 program).toArray, by simpa using short⟩

theorem assemble_append (offset : Nat) (before after : List Statement) :
    assemble offset (before ++ after) =
      assemble offset before ++ assemble (offset + (assemble offset before).length) after := by
  induction before generalizing offset with
  | nil => simp [assemble]
  | cons s rest ih => simp [assemble, ih, Nat.add_assoc]

theorem listing_take (offset k : Nat) (program : List Statement) :
    (listing offset program).take k = listing offset (program.take k) := by
  induction program generalizing offset k with
  | nil => simp [listing]
  | cons s rest ih =>
    cases k with
    | zero => rfl
    | succ k => simp [listing, ih]

theorem listing_drop (offset i : Nat) (program : List Statement) :
    (listing offset program).drop i =
      listing (offset + (assemble offset (program.take i)).length) (program.drop i) := by
  induction program generalizing offset i with
  | nil => simp [listing]
  | cons s rest ih =>
    cases i with
    | zero => rfl
    | succ i => simp [listing, assemble, ih, Nat.add_assoc]

namespace Code

variable {code : Code}

/-- A walk over statements lists them. -/
theorem walk_assemble {front rest : List UInt8} (program : List Statement)
    (h : code.bytes.toList = front ++ (assemble front.length program ++ rest)) :
    code.walk front.length (front.length + (assemble front.length program).length) =
      listing front.length program := by
  induction program generalizing front with
  | nil => exact walk_of_le (Nat.le_refl _)
  | cons s later ih =>
    rw [assemble, List.append_assoc] at h
    have hlater : code.bytes.toList = (front ++ s.bytes front.length) ++
        (assemble (front ++ s.bytes front.length).length later ++ rest) := by
      rw [h, List.length_append, List.append_assoc]
    have hih := ih hlater
    rw [List.length_append] at hih
    -- The statement ends inside the code, so its end is the plain sum.
    have htotal := size_of_append h
    have hsize := code.size_lt_maxOffset
    simp only [List.length_append] at htotal
    have hroom : front.length + (s.bytes front.length).length ≤ maxOffset := by omega
    have hstop : (⟨front.length, s.opcode, (s.bytes front.length).length⟩ : Instruction).stop =
        front.length + (s.bytes front.length).length := satAdd_of_le hroom
    have hpos : 0 < (s.bytes front.length).length := by simp [Statement.bytes]
    rw [assemble, List.length_append, ← Nat.add_assoc,
      walk_of_decode?_eq_some (by omega) (decode?_bytes s h), hstop, hih, listing]

end Code

theorem RangeList.exists_validate_singleton {r : CodeRange} {codeLength : Nat}
    (forward : r.start ≤ r.stop) (inside : r.stop ≤ codeLength) :
    ∃ list, validate [r] codeLength = .ok list ∧ list.toList = [r] := by
  let list : RangeList := ⟨[r], by simpa using forward, List.pairwise_singleton _ _⟩
  have hinside : ∀ s ∈ list.toList, s.stop ≤ codeLength := by simpa [list] using inside
  exact ⟨list, validate_toList hinside, rfl⟩

/-! ## Decoding undoes assembling -/

/-- The statements between two boundaries, with those around them. -/
theorem assembled_split (program : List Statement)
    (short : (assemble 0 program).length < 0x8000000000000000) (i k : Nat) :
    (assembled program short).bytes.toList =
      assemble 0 (program.take i) ++
        (assemble (boundary program i) ((program.drop i).take k) ++
          assemble (boundary program (i + k)) (program.drop (i + k))) := by
  have hmiddle : assemble 0 (program.take (i + k)) =
      assemble 0 (program.take i) ++
        assemble (boundary program i) ((program.drop i).take k) := by
    rw [List.take_add, assemble_append, Nat.zero_add, boundary]
  have hcut := assemble_append 0 (program.take (i + k)) (program.drop (i + k))
  rw [List.take_append_drop, Nat.zero_add] at hcut
  rw [← List.append_assoc, ← hmiddle]
  exact hcut

theorem boundary_add (program : List Statement) (i k : Nat) :
    boundary program (i + k) = boundary program i +
      (assemble (boundary program i) ((program.drop i).take k)).length := by
  rw [boundary, List.take_add, assemble_append, Nat.zero_add, List.length_append]
  rfl

theorem boundary_le_size (program : List Statement)
    (short : (assemble 0 program).length < 0x8000000000000000) (i : Nat) :
    boundary program i ≤ (assembled program short).size := by
  rw [Code.size_of_append (assembled_split program short i 0), boundary]
  exact Nat.le_add_right ..

/-- **Decoding undoes assembling.** Between two boundaries of an assembled program, the walk lists
the statements there with their offsets, opcodes and sizes, and draining a cursor over that range
gives the offsets of the calls among them, opcodes 182 to 185. -/
theorem instructions_assemble (program : List Statement)
    (short : (assemble 0 program).length < 0x8000000000000000) (i j : Nat) (hij : i ≤ j) :
    let code := assembled program short
    let range : CodeRange := ⟨boundary program i, boundary program j⟩
    let between := ((listing 0 program).drop i).take (j - i)
    code.instructions range = between ∧
      ∃ ranges, RangeList.validate [range] code.size = .ok ranges ∧
        ((Cursor.start ranges).drain code).offsets =
          (between.filter fun k => 182 ≤ k.opcode.toNat && k.opcode.toNat ≤ 185).map
            Instruction.offset := by
  intro code range between
  obtain ⟨k, rfl⟩ := Nat.exists_eq_add_of_le hij
  have hwalk : code.instructions range = between := by
    simp only [range, between, Code.instructions]
    rw [boundary_add, listing_drop, Nat.zero_add, listing_take, Nat.add_sub_cancel_left]
    exact code.walk_assemble _ (assembled_split program short i k)
  have hforward : range.start ≤ range.stop := by
    simp only [range, boundary_add]
    exact Nat.le_add_right ..
  obtain ⟨ranges, hvalid, htoList⟩ :=
    RangeList.exists_validate_singleton hforward (boundary_le_size program short (i + k))
  refine ⟨hwalk, ranges, hvalid, ?_⟩
  rw [Cursor.drain_offsets, Cursor.pending_start, htoList, Code.callsInAll_cons,
    Code.callsInAll_nil, List.append_nil, Code.callsIn, hwalk]
  rfl

/-- A switch whose padding and jump offsets are full of call opcodes, then a wide `iinc` and a
call. -/
def switchProgram : List Statement :=
  [.plain 0 (by decide) #v[],
   .tableSwitch #v[182, 183, 184] 0 (-1) 1 ⟨#[-1229539658, 182, -1195853640], rfl⟩,
   .wide 132 ⟨#[0, 185, 0, 185], rfl⟩,
   .plain 184 (by decide) #v[182, 182]]

theorem switchProgram_short : (assemble 0 switchProgram).length < 0x8000000000000000 := by decide

theorem instructions_switchProgram :
    let code := assembled switchProgram switchProgram_short
    code.instructions ⟨0, 37⟩ = [⟨0, 0, 1⟩, ⟨1, 170, 27⟩, ⟨28, 196, 6⟩, ⟨34, 184, 3⟩] ∧
      ∃ ranges, RangeList.validate [⟨0, 37⟩] code.size = .ok ranges ∧
        ((Cursor.start ranges).drain code).offsets = [34] :=
  instructions_assemble switchProgram switchProgram_short 0 4 (by decide)

end CallAlign

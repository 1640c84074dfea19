import Mathlib.Data.List.Basic
import CallAlign.Proofs.Bytecode.CursorDrain

/-!
# Codes that agree on a range

Two codes with the same bytes on a range need not decode the same instructions there. A switch
near the end of the range takes its size from words behind it, a `wide` from the byte behind it,
and a header that is cut off by the end of the code takes all that is left, which depends on how
long the code is.

**Theorem (`AgreeOn.walk_heads`).** All the same, the same instructions start there, with the same
opcodes. So a walk over the range has the same calls in both codes, and a cursor finds them.

An instruction reads its size off a header (`headerStop`). A header inside the range is the same
in both codes, and so is the size. A header that runs past the end of the range takes its
instruction there too, in either code and whatever it reads (`le_step_of_lt_headerStop`). The two
sizes can then differ, but both walks are over.
-/

namespace CallAlign

/-- Where an instruction starts, and its opcode. -/
def Instruction.head (i : Instruction) : Nat × Opcode := (i.offset, i.opcode)

namespace Code

/-- The calls of a range are told by where its instructions start, whatever their sizes. -/
theorem callsIn_eq_heads (code : Code) (r : CodeRange) :
    code.callsIn r = (((code.instructions r).map Instruction.head).filter
      fun head => head.2.isCall).map Prod.fst := by
  rw [List.filter_map, List.map_map]
  rfl

/-! ## Headers -/

/-- The end of the bytes that decide the size of an instruction, its opcode apart. -/
def headerStop (op : Opcode) (offset : Nat) : Nat :=
  match op.form with
  | .fixed _ => offset
  | .tableSwitch => offset + switchPadding offset + 12
  | .lookupSwitch => offset + switchPadding offset + 8
  | .wide => offset + 2

theorem satAdd_switchOperands_of_lt {code : Code} {offset n : Nat} (h : offset < code.size)
    (hn : n ≤ 12) : satAdd (switchOperands offset) n = offset + switchPadding offset + n := by
  have hsize : code.size < 0x8000000000000000 := code.size_lt
  have hpadding := switchPadding_le offset
  apply satAdd_switchOperands
  unfold maxOffset
  omega

/-- What follows the header of a switch only makes it longer. -/
theorem le_add_satAdd_sub {code : Code} {offset n : Nat} (h : offset < code.size) (hn : n ≤ 12)
    (table : Nat) :
    offset + switchPadding offset + n ≤
      offset + (satAdd (satAdd (switchOperands offset) n) table - offset) := by
  have hsize : code.size < 0x8000000000000000 := code.size_lt
  have hpadding := switchPadding_le offset
  rw [satAdd_switchOperands_of_lt h hn]
  unfold satAdd maxOffset
  omega

theorem size_le_add_remaining (code : Code) (offset : Nat) :
    code.size ≤ offset + code.remaining offset := by
  unfold remaining
  omega

/-- An instruction covers its header, or else all that is left of the code. -/
theorem headerStop_le_or_size_le {code : Code} {offset : Nat} (op : Opcode)
    (h : offset < code.size) :
    headerStop op offset ≤ offset + code.instructionSize op offset ∨
      code.size ≤ offset + code.instructionSize op offset := by
  cases hform : op.form with
  | fixed n =>
    simp only [headerStop, instructionSize, hform]
    exact .inl (Nat.le_add_right ..)
  | tableSwitch =>
    simp only [headerStop, instructionSize, hform, tableSwitchSize]
    split
    · exact .inl (le_add_satAdd_sub h (by omega) _)
    · exact .inr (size_le_add_remaining code offset)
  | lookupSwitch =>
    simp only [headerStop, instructionSize, hform, lookupSwitchSize]
    split
    · exact .inl (le_add_satAdd_sub h (by omega) _)
    · exact .inr (size_le_add_remaining code offset)
  | wide =>
    simp only [headerStop, instructionSize, hform, wideSize]
    left
    split <;> omega

/-- A header that runs past `stop` takes its instruction at least to `stop`. -/
theorem le_step_of_lt_headerStop {code : Code} {op : Opcode} {offset stop : Nat}
    (hlt : offset < stop) (hstop : stop ≤ code.size) (h : stop < headerStop op offset) :
    stop ≤ satAdd offset (code.instructionSize op offset) := by
  have hcover := headerStop_le_or_size_le op (Nat.lt_of_lt_of_le hlt hstop)
  have hlimit := code.size_lt_maxOffset
  exact Nat.le_min.2 ⟨by omega, by omega⟩

theorem exists_int32? {code : Code} {offset : Nat} (h : offset + 4 ≤ code.size) :
    ∃ n, code.int32? offset = some n := by
  have hbyte : ∀ k < 4, ∃ b, code.byte? (offset + k) = some b := by
    intro k hk
    apply Option.ne_none_iff_exists'.1
    intro hnone
    have hpast := byte?_eq_none_iff.1 hnone
    omega
  obtain ⟨a, ha⟩ := hbyte 0 (by omega)
  obtain ⟨b, hb⟩ := hbyte 1 (by omega)
  obtain ⟨c, hc⟩ := hbyte 2 (by omega)
  obtain ⟨d, hd⟩ := hbyte 3 (by omega)
  rw [Nat.add_zero] at ha
  simp [int32?, ha, hb, hc, hd]

/-! ## Agreement -/

/-- Both codes reach up to `stop`, and have the same bytes from `start` to there. -/
structure AgreeOn (code other : Code) (start stop : Nat) : Prop where
  inside : stop ≤ code.size
  inside_other : stop ≤ other.size
  bytes : ∀ i, start ≤ i → i < stop → code.byte? i = other.byte? i

namespace AgreeOn

variable {code other : Code} {start position stop : Nat}

theorem from_le (h : AgreeOn code other start stop) (hle : start ≤ position) :
    AgreeOn code other position stop :=
  ⟨h.inside, h.inside_other, fun i hi => h.bytes i (Nat.le_trans hle hi)⟩

theorem int32? (h : AgreeOn code other start stop) (offset : Nat) (hstart : start ≤ offset)
    (hstop : offset + 4 ≤ stop) :
    ∃ n, code.int32? offset = some n ∧ other.int32? offset = some n := by
  have hsame : code.int32? offset = other.int32? offset := by
    unfold Code.int32?
    rw [h.bytes offset hstart (by omega), h.bytes (offset + 1) (by omega) (by omega),
      h.bytes (offset + 2) (by omega) (by omega), h.bytes (offset + 3) (by omega) (by omega)]
  obtain ⟨n, hn⟩ := exists_int32? (Nat.le_trans hstop h.inside)
  exact ⟨n, hn, hsame ▸ hn⟩

/-- A header on which the codes agree gives the same size in both. -/
theorem instructionSize (h : AgreeOn code other position stop) (hlt : position < stop)
    {op : Opcode} (hheader : headerStop op position ≤ stop) :
    code.instructionSize op position = other.instructionSize op position := by
  have hin : position < code.size := Nat.lt_of_lt_of_le hlt h.inside
  have hfour := satAdd_switchOperands_of_lt hin (n := 4) (by omega)
  have height := satAdd_switchOperands_of_lt hin (n := 8) (by omega)
  cases hform : op.form with
  | fixed n => simp only [Code.instructionSize, hform]
  | tableSwitch =>
    simp only [headerStop, hform] at hheader
    obtain ⟨low, hlow, hlow'⟩ :=
      h.int32? (position + switchPadding position + 4) (by omega) (by omega)
    obtain ⟨high, hhigh, hhigh'⟩ :=
      h.int32? (position + switchPadding position + 8) (by omega) (by omega)
    simp only [Code.instructionSize, hform, tableSwitchSize, hfour, height, hlow, hlow', hhigh,
      hhigh']
  | lookupSwitch =>
    simp only [headerStop, hform] at hheader
    obtain ⟨pairs, hpairs, hpairs'⟩ :=
      h.int32? (position + switchPadding position + 4) (by omega) (by omega)
    simp only [Code.instructionSize, hform, lookupSwitchSize, hfour, hpairs, hpairs']
  | wide =>
    simp only [headerStop, hform] at hheader
    have hnext : satAdd position 1 = position + 1 :=
      satAdd_of_le (Nat.le_of_lt (Nat.lt_of_le_of_lt hin code.size_lt_maxOffset))
    simp only [Code.instructionSize, hform, wideSize, hnext,
      h.bytes (position + 1) (by omega) (by omega)]

/-- The step over an instruction lands on the same offset in both codes, or past the end of the
range in both. -/
theorem step (h : AgreeOn code other position stop) (hlt : position < stop) (op : Opcode) :
    satAdd position (code.instructionSize op position) =
        satAdd position (other.instructionSize op position) ∨
      stop ≤ satAdd position (code.instructionSize op position) ∧
        stop ≤ satAdd position (other.instructionSize op position) := by
  by_cases hheader : headerStop op position ≤ stop
  · left
    rw [h.instructionSize hlt hheader]
  · -- What the two codes read behind `stop` does not matter, only that they read there.
    have hcut := Nat.lt_of_not_le hheader
    right
    exact ⟨le_step_of_lt_headerStop hlt h.inside hcut,
      le_step_of_lt_headerStop hlt h.inside_other hcut⟩

/-- **The same instructions start.** Walks over bytes on which two codes agree list the same
offsets and opcodes. -/
theorem walk_heads (h : AgreeOn code other position stop) :
    (code.walk position stop).map Instruction.head =
      (other.walk position stop).map Instruction.head := by
  fun_induction walk code position stop with
  | case1 position hlt first hfirst ih =>
    obtain ⟨op, hop, rfl⟩ := Option.map_eq_some_iff.1 hfirst
    have hother : other.byte? position = some op :=
      (h.bytes position (Nat.le_refl _) hlt).symm.trans hop
    -- Behind the instruction the walks go on together, or neither goes on.
    have hlater : (code.walk (satAdd position (code.instructionSize op position)) stop).map
          Instruction.head =
        (other.walk (satAdd position (other.instructionSize op position)) stop).map
          Instruction.head := by
      rcases h.step hlt op with hsame | ⟨hpast, hpast'⟩
      · rw [← hsame]
        exact ih (h.from_le (Nat.le_of_lt (lt_stop_of_decode? hfirst)))
      · rw [walk_of_le hpast, walk_of_le hpast']
    rw [walk_of_decode?_eq_some hlt (decode?_of_byte? hother), List.map_cons, List.map_cons]
    exact congrArg (List.cons (position, op)) hlater
  | case2 position hlt hnone =>
    have hpast := byte?_eq_none_iff.1 (Option.map_eq_none_iff.1 hnone)
    exact absurd (Nat.lt_of_lt_of_le hlt h.inside) (Nat.not_lt.2 hpast)
  | case3 position hge => rw [walk_of_le (Nat.not_lt.1 hge)]

theorem callsIn (h : AgreeOn code other start stop) :
    code.callsIn ⟨start, stop⟩ = other.callsIn ⟨start, stop⟩ := by
  rw [callsIn_eq_heads, callsIn_eq_heads]
  simp only [instructions, h.walk_heads]

end AgreeOn

theorem callsInAll_congr {code other : Code} {ranges : List CodeRange}
    (h : ∀ r ∈ ranges, AgreeOn code other r.start r.stop) :
    code.callsInAll ranges = other.callsInAll ranges :=
  List.flatMap_congr fun r hr => (h r hr).callsIn

end Code

end CallAlign

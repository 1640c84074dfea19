import Mathlib.Data.Prod.Lex
import CallAlign.Proofs.Bytecode.CursorInvariants

/-!
# Progress of scans

A scan is two loops, one inside the other: from instruction to instruction in a range, and from
range to range. The position alone does not tell how far it has come, for a range that is entered
may start in front of it, and a sum of offsets may stop at the limit and stay there.

**What decreases** (`Cursor.ahead`). The number of ranges to come, then the offsets left in the
current range. Entering a range takes the first down, whatever the bounds of that range. Stepping
over an instruction keeps the first and takes the second down: it happens only on a byte of the
code, far below the limit of offsets, and every instruction has a byte.

**What it is to end** (`Turn.Ends`). A loop is given by its turns. A turn is over with a result or
goes on from a next state, and nothing in it says that the loop is over at some time. A loop whose
turns take a size down and keep a value ends with that value (`Turn.ends_of_advances`), so each
loop needs one lemma about one turn.

The turns of a scan and of a drain end with what `Cursor.nextCall` and `Cursor.drain` give, from
every cursor there is (`Cursor.scan_ends`, `Cursor.drain_ends`).
-/

namespace CallAlign

/-! ## Loops, turn by turn -/

/-- What one turn of a loop comes to. -/
inductive Turn (σ ρ : Type) where
  /-- The loop is over, with a result. -/
  | done (result : ρ)
  /-- The loop goes on from the next state. -/
  | again (next : σ)

namespace Turn

variable {σ ρ μ : Type} {turn : σ → Turn σ ρ} {size : σ → μ} {value : σ → ρ} {s t : σ}

/-- One turn takes the loop from `s` to `t`, where it goes on. -/
def GoesOn (turn : σ → Turn σ ρ) (s t : σ) : Prop := turn s = .again t

/-- Entered in a state, the loop is over after finitely many turns, with the result. -/
inductive Ends (turn : σ → Turn σ ρ) : σ → ρ → Prop
  | done {s : σ} {result : ρ} (h : turn s = .done result) : Ends turn s result
  | again {s t : σ} {result : ρ} (h : turn s = .again t) (rest : Ends turn t result) :
      Ends turn s result

/-- A turn from `s` is over with the value of `s`, or goes on from a smaller state of that value. -/
def Advances [LT μ] (size : σ → μ) (value : σ → ρ) (s : σ) : Turn σ ρ → Prop
  | .done result => result = value s
  | .again t => size t < size s ∧ value t = value s

/-- A loop that advances in every turn ends, with the value of the state it was entered in. -/
theorem ends_of_advances [LT μ] [WellFoundedLT μ] (h : ∀ s, (turn s).Advances size value s)
    (s : σ) : Ends turn s (value s) := by
  -- On the size, with the state free: the next state is another one, smaller and of equal value.
  induction hs : size s using WellFoundedLT.induction generalizing s with
  | ind n ih =>
    have hadvances := h s
    cases hturn : turn s with
    | done result =>
      rw [hturn] at hadvances
      obtain rfl : result = value s := hadvances
      exact .done hturn
    | again t =>
      rw [hturn] at hadvances
      obtain ⟨hlt, hvalue⟩ := hadvances
      rw [← hvalue]
      exact .again hturn (ih (size t) (hs ▸ hlt) t rfl)

/-- What every turn takes down, any number of turns takes down. -/
theorem lt_of_goesOn [Preorder μ] (size : σ → μ) (h : ∀ s, (turn s).Advances size value s)
    (hst : Relation.TransGen (GoesOn turn) s t) : size t < size s := by
  have hstep {s t : σ} (hturn : GoesOn turn s t) : size t < size s := by
    have hadvances := h s
    rw [hturn] at hadvances
    exact hadvances.1
  induction hst with
  | single hturn => exact hstep hturn
  | tail _ hturn ih => exact lt_trans (hstep hturn) ih

end Turn

namespace Cursor

variable {code : Code} {c d : Cursor}

/-! ## What lies ahead of a cursor -/

/-- The ranges to come, then the offsets up to the end of the current range, none past it. One range
outweighs any number of offsets. -/
def ahead (c : Cursor) : ℕ ×ₗ ℕ := toLex (c.later.length, c.stop - c.position)

theorem ahead_lt_of_later (h : d.later.length < c.later.length) : d.ahead < c.ahead :=
  Prod.Lex.toLex_lt_toLex.2 (.inl h)

theorem ahead_lt_of_position (hlater : d.later = c.later) (hstop : d.stop = c.stop)
    (hinside : c.position < c.stop) (hforward : c.position < d.position) : d.ahead < c.ahead := by
  refine Prod.Lex.toLex_lt_toLex.2 (.inr ⟨by rw [hlater], ?_⟩)
  show d.stop - d.position < c.stop - c.position
  omega

/-- **Finding a call and consuming it is progress**, also when the scan has entered a range that
starts in front of where it stood. -/
theorem ahead_consume_lt {offset : Nat} (h : (c.nextCall code).found = some offset) :
    ((c.nextCall code).cursor.consume code offset).ahead < c.ahead := by
  obtain ⟨hstop, hsize, hmove⟩ := nextCallFrom_eq_some h
  have hbehind : offset < offsetBehind code offset := lt_offsetBehind hsize
  rcases hmove with hlater | ⟨hlater, hsame, hle⟩
  · exact ahead_lt_of_later hlater
  · refine ahead_lt_of_position hlater hsame ?_ ?_
    · exact Nat.lt_of_le_of_lt hle (hsame ▸ hstop)
    · exact Nat.lt_of_le_of_lt hle hbehind

/-! ## The turns of a scan -/

/-- A scan under way: where it stands and the ranges it has entered. -/
structure Underway where
  cursor : Cursor
  moves : List Move

/-- A scan leaves its range for the next one, and is over when there is none. -/
def Underway.leave (s : Underway) : Turn Underway Scan :=
  match s.cursor.later with
  | [] => .done ⟨none, s.cursor, s.moves⟩
  | r :: rest =>
    .again ⟨⟨s.cursor.index + 1, r.start, r.stop, rest⟩, s.moves ++ [⟨s.cursor.index + 1, r⟩]⟩

/-- One turn of a scan: over the instruction at the position unless it is a call, and at the end of
the range or of the code into the next range. -/
def scanTurn (code : Code) (s : Underway) : Turn Underway Scan :=
  if s.cursor.position < s.cursor.stop then
    match code.byte? s.cursor.position with
    | some op =>
      if Opcode.isCall op then .done ⟨some s.cursor.position, s.cursor, s.moves⟩
      else
        let position := satAdd s.cursor.position (code.instructionSize op s.cursor.position)
        .again ⟨{ s.cursor with position }, s.moves⟩
    | none => s.leave
  else s.leave

/-- What a scan under way has to come to. -/
def Underway.outcome (code : Code) (s : Underway) : Scan :=
  let scan := s.cursor.nextCall code
  ⟨scan.found, scan.cursor, s.moves ++ scan.moves⟩

theorem nextCall_of_isCall {op : Opcode} (hlt : c.position < c.stop)
    (hbyte : code.byte? c.position = some op) (hcall : op.isCall = true) :
    c.nextCall code = ⟨some c.position, c, []⟩ := by
  unfold nextCall nextCallFrom
  rw [Code.seekCall_of_isCall hlt hbyte hcall]

/-- In front of an instruction that is no call and behind it, the next call is the same. -/
theorem nextCall_of_not_isCall {op : Opcode} (hlt : c.position < c.stop)
    (hbyte : code.byte? c.position = some op) (hcall : op.isCall = false) :
    nextCall code { c with position := satAdd c.position (code.instructionSize op c.position) } =
      c.nextCall code := by
  unfold nextCall nextCallFrom
  rw [Code.seekCall_of_not_isCall hlt hbyte hcall]

theorem nextCall_of_passed_last {index position stop reached : Nat}
    (hseek : code.seekCall position stop = .passed reached) :
    nextCall code ⟨index, position, stop, []⟩ = ⟨none, ⟨index, reached, stop, []⟩, []⟩ := by
  unfold nextCall nextCallFrom
  rw [hseek]

theorem nextCall_of_passed {index position stop reached : Nat} {r : CodeRange}
    {rest : List CodeRange} (hseek : code.seekCall position stop = .passed reached) :
    let scan := nextCall code ⟨index + 1, r.start, r.stop, rest⟩
    nextCall code ⟨index, position, stop, r :: rest⟩ =
      ⟨scan.found, scan.cursor, ⟨index + 1, r⟩ :: scan.moves⟩ := by
  intro scan
  show nextCallFrom code index position stop (r :: rest) = _
  rw [nextCallFrom, hseek]
  rfl

theorem advances_leave {s : Underway}
    (hseek : code.seekCall s.cursor.position s.cursor.stop = .passed s.cursor.position) :
    s.leave.Advances (fun s => s.cursor.ahead) (Underway.outcome code) s := by
  obtain ⟨⟨index, position, stop, later⟩, moves⟩ := s
  cases later with
  | nil =>
    show _ = Underway.outcome code _
    simp [Underway.outcome, nextCall_of_passed_last hseek]
  | cons r rest =>
    refine ⟨ahead_lt_of_later (Nat.lt_succ_self _), ?_⟩
    simp [Underway.outcome, nextCall_of_passed hseek]

theorem advances_scanTurn (code : Code) (s : Underway) :
    (scanTurn code s).Advances (fun s => s.cursor.ahead) (Underway.outcome code) s := by
  unfold scanTurn
  split
  · rename_i hlt
    split
    · rename_i op hbyte
      by_cases hcall : Opcode.isCall op = true
      · rw [if_pos hcall]
        show _ = Underway.outcome code s
        simp [Underway.outcome, nextCall_of_isCall hlt hbyte hcall]
      · rw [if_neg hcall]
        have hover := nextCall_of_not_isCall hlt hbyte (eq_false_of_ne_true hcall)
        refine ⟨ahead_lt_of_position rfl rfl hlt ?_, ?_⟩
        · exact Code.lt_step op (Code.lt_size_of_byte? hbyte)
        · simp only [Underway.outcome, hover]
    · exact advances_leave (Code.seekCall_of_byte?_eq_none ‹_›)
  · rename_i hge
    exact advances_leave (Code.seekCall_of_le (Nat.not_lt.1 hge))

/-- **The turns of a scan are progress**, one of them or many. A pass of the outer loop is the turns
through a range together with the one that leaves it. -/
theorem ahead_lt_of_turns {s t : Underway}
    (h : Relation.TransGen (Turn.GoesOn (scanTurn code)) s t) :
    t.cursor.ahead < s.cursor.ahead :=
  Turn.lt_of_goesOn (fun s => s.cursor.ahead) (advances_scanTurn code) h

-- Behind a last instruction that ran past its range, the position goes back.
example (code : Code) :
    scanTurn code ⟨⟨0, 9, 4, [⟨6, 8⟩]⟩, []⟩ = .again ⟨⟨1, 6, 8, []⟩, [⟨1, ⟨6, 8⟩⟩]⟩ := rfl

/-- **A scan ends**, from every cursor, on the next call or past the last range. -/
theorem scan_ends (code : Code) (c : Cursor) :
    Turn.Ends (scanTurn code) ⟨c, []⟩ (c.nextCall code) :=
  Turn.ends_of_advances (advances_scanTurn code) ⟨c, []⟩

/-! ## The turns of a drain -/

/-- One turn of a drain: the next call is found and consumed, and without one the drain is over. -/
def drainTurn (code : Code) (s : Drained) : Turn Drained Drained :=
  let scan := s.cursor.nextCall code
  match scan.found with
  | none => .done ⟨s.offsets, scan.cursor, s.moves ++ scan.moves⟩
  | some offset =>
    .again ⟨s.offsets ++ [offset], scan.cursor.consume code offset, s.moves ++ scan.moves⟩

/-- What a drain under way has to come to. -/
def Drained.outcome (code : Code) (s : Drained) : Drained :=
  let rest := s.cursor.drain code
  ⟨s.offsets ++ rest.offsets, rest.cursor, s.moves ++ rest.moves⟩

theorem drain_of_found_eq_none (h : (c.nextCall code).found = none) :
    c.drain code = ⟨[], (c.nextCall code).cursor, (c.nextCall code).moves⟩ := by
  rw [drain]
  split
  · rfl
  · simp_all

theorem drain_of_found {offset : Nat} (h : (c.nextCall code).found = some offset) :
    let rest := ((c.nextCall code).cursor.consume code offset).drain code
    c.drain code =
      ⟨offset :: rest.offsets, rest.cursor, (c.nextCall code).moves ++ rest.moves⟩ := by
  intro rest
  rw [drain]
  split
  · simp_all
  · rename_i offset' hfound
    obtain rfl : offset' = offset := by simpa [h] using hfound.symm
    rfl

theorem advances_drainTurn (code : Code) (s : Drained) :
    (drainTurn code s).Advances (fun s => s.cursor.ahead) (Drained.outcome code) s := by
  simp only [drainTurn]
  split
  · rename_i hfound
    show _ = Drained.outcome code s
    simp [Drained.outcome, drain_of_found_eq_none hfound]
  · rename_i offset hfound
    refine ⟨ahead_consume_lt hfound, ?_⟩
    simp [Drained.outcome, drain_of_found hfound]

/-- **A drain ends**, from every cursor, with all the calls that are left. -/
theorem drain_ends (code : Code) (c : Cursor) :
    Turn.Ends (drainTurn code) ⟨[], c, []⟩ (c.drain code) :=
  Turn.ends_of_advances (advances_drainTurn code) ⟨[], c, []⟩

end Cursor

end CallAlign

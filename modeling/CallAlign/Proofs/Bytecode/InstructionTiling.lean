import CallAlign.Proofs.Bytecode.CallOffsets

/-!
# Instructions tile a range

**Theorem (`instructions_tile`).** Take any range of any code, inverted, empty or past the code as
it may be, and cut it off where the code ends. The instructions of the range leave no gap in what is
left and do not overlap: the first one starts where the range does, each other one where the one in
front of it ends, and the last one is the first to reach the end. So every byte of the range lies in
exactly one of them. The last one may run past the end, by any amount.

A tiling (`TiledBy`) is built as the walk goes, one instruction in front of a tiling of the rest.
That the instructions in front of a byte end before it and those behind start after it is then an
induction over the tiling, with the byte fixed and the start of the tiling moving towards it.
-/

namespace CallAlign

namespace Code

/-- The instructions follow one another from `position` on without a gap, all of them start in front
of `stop`, and the last one reaches it. -/
inductive TiledBy (code : Code) (stop : Nat) : Nat → List Instruction → Prop
  | done {position : Nat} (hle : stop ≤ position) : TiledBy code stop position []
  | cons {i : Instruction} {rest : List Instruction} (hlt : i.offset < stop)
      (hdecode : code.decode? i.offset = some i) (later : TiledBy code stop i.stop rest) :
      TiledBy code stop i.offset (i :: rest)

theorem tiledBy_walk (code : Code) (position stop : Nat) :
    TiledBy code (min stop code.size) position (code.walk position stop) := by
  fun_induction walk code position stop with
  | case1 position hlt i hdecode ih =>
    have hinside := lt_size_of_decode? hdecode
    obtain ⟨op, -, hi⟩ := Option.map_eq_some_iff.1 hdecode
    have hoffset : i.offset = position := by rw [← hi]
    subst hoffset
    exact .cons (by omega) hdecode ih
  | case2 position _ hnone =>
    have hpast : code.size ≤ position := byte?_eq_none_iff.1 (Option.map_eq_none_iff.1 hnone)
    exact .done (by omega)
  | case3 position hge => exact .done (by omega)

namespace TiledBy

variable {code : Code} {stop position : Nat} {list : List Instruction}

theorem eq_nil_iff (h : TiledBy code stop position list) : list = [] ↔ stop ≤ position := by
  cases h with
  | done hle => simp [hle]
  | cons hlt => simp [hlt]

theorem head? (h : TiledBy code stop position list) (hlt : position < stop) :
    list.head?.map Instruction.offset = some position := by
  cases h with
  | done hle => omega
  | cons => rfl

theorem offset_of_head? (h : TiledBy code stop position list) {i : Instruction}
    (hi : list.head? = some i) : i.offset = position := by
  cases h with
  | done => simp at hi
  | cons => cases hi; rfl

theorem mem (h : TiledBy code stop position list) {i : Instruction} (hi : i ∈ list) :
    position ≤ i.offset ∧ i.offset < stop ∧ code.decode? i.offset = some i := by
  induction h with
  | done => simp at hi
  | @cons first rest hlt hdecode _ ih =>
    rcases List.mem_cons.1 hi with rfl | hi
    · exact ⟨Nat.le_refl _, hlt, hdecode⟩
    · obtain ⟨hle, hrest⟩ := ih hi
      exact ⟨Nat.le_trans (Nat.le_of_lt (lt_stop_of_decode? hdecode)) hle, hrest⟩

theorem offset_eq_stop (h : TiledBy code stop position list) {k : Nat} {i j : Instruction}
    (hi : list[k]? = some i) (hj : list[k + 1]? = some j) : j.offset = i.stop := by
  induction h generalizing k with
  | done => simp at hi
  | cons _ _ later ih =>
    cases k with
    | zero =>
      cases hi
      exact later.offset_of_head? (by rwa [List.head?_eq_getElem?])
    | succ k => exact ih hi hj

/-- An instruction is the last one exactly when it reaches the end. -/
theorem next_eq_none_iff (h : TiledBy code stop position list) {k : Nat} {i : Instruction}
    (hi : list[k]? = some i) : list[k + 1]? = none ↔ stop ≤ i.stop := by
  induction h generalizing k with
  | done => simp at hi
  | cons _ _ later ih =>
    cases k with
    | zero =>
      cases hi
      rw [← later.eq_nil_iff]
      simp
    | succ k => exact ih hi

theorem existsUnique_covering (h : TiledBy code stop position list) {b : Nat}
    (hle : position ≤ b) (hlt : b < stop) :
    ∃! k : Nat, ∃ i, list[k]? = some i ∧ i.offset ≤ b ∧ b < i.stop := by
  induction h with
  | done hstop => omega
  | @cons first rest _ _ later ih =>
    by_cases hb : b < first.stop
    · refine ⟨0, ⟨first, rfl, hle, hb⟩, ?_⟩
      rintro k ⟨i, hi, hstart, -⟩
      cases k with
      | zero => rfl
      | succ k =>
        -- A later instruction starts behind the end of the first one.
        have hmem : i ∈ rest := List.mem_of_getElem? hi
        have := (later.mem hmem).1
        omega
    · obtain ⟨k, ⟨i, hi, hcovers⟩, hunique⟩ := ih (by omega)
      refine ⟨k + 1, ⟨i, hi, hcovers⟩, ?_⟩
      rintro m ⟨j, hj, hstart, hstop⟩
      cases m with
      | zero =>
        cases hj
        omega
      | succ m => rw [hunique m ⟨j, hj, hstart, hstop⟩]

end TiledBy

/-- **Instructions tile the range.** Up to `stop`, the end of the range or of the code: there is no
instruction iff the range is empty; else the first one starts where the range does. Each next one
starts at the end of the one before, all start inside the range and are what the code holds there,
every byte lies in exactly one, and the list ends with the first that reaches `stop`. -/
theorem instructions_tile (code : Code) (range : CodeRange) :
    let stop := min range.stop code.size
    let list := code.instructions range
    (list = [] ↔ stop ≤ range.start) ∧
    (range.start < stop → list.head?.map Instruction.offset = some range.start) ∧
    (∀ (k : Nat) (i j : Instruction), list[k]? = some i → list[k + 1]? = some j →
      j.offset = i.stop) ∧
    (∀ i ∈ list, range.start ≤ i.offset ∧ i.offset < stop ∧
      code.byte? i.offset = some i.opcode ∧ code.decode? i.offset = some i) ∧
    (∀ b : Nat, range.start ≤ b → b < stop →
      ∃! k : Nat, ∃ i, list[k]? = some i ∧ i.offset ≤ b ∧ b < i.stop) ∧
    (∀ (k : Nat) (i : Instruction), list[k]? = some i →
      (list[k + 1]? = none ↔ stop ≤ i.stop)) := by
  intro stop list
  have htiled : TiledBy code stop range.start list := tiledBy_walk code range.start range.stop
  refine ⟨htiled.eq_nil_iff, htiled.head?, ?_, ?_, ?_, ?_⟩
  · intro k i j hi hj
    exact htiled.offset_eq_stop hi hj
  · intro i hi
    obtain ⟨hle, hlt, hdecode⟩ := htiled.mem hi
    exact ⟨hle, hlt, (mem_walk hi).2.2, hdecode⟩
  · intro b hle hlt
    exact htiled.existsUnique_covering hle hlt
  · intro k i hi
    exact htiled.next_eq_none_iff hi

end Code

end CallAlign

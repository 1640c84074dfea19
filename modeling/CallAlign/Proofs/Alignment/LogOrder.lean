import CallAlign.Proofs.Alignment.ClaimOrder
import CallAlign.Proofs.Bytecode.CursorInvariants

/-!
# The order of a log

Moves into ranges and claims of instructions come into the log of a run from two sides, the cursor
and the alignment. `Follows` reads such a log along the list of ranges: a move enters the next
range, and an instruction is claimed in the range entered last.

**Theorem (`follows_run`).** The log of a run can be read this way. It ends in the range of the
first call instruction that no call took, or in the last range when there is none.

The step is a scan: it writes the moves from range to range, and the call it finds lies in the range
it ends in, as a run takes its cursor forward only (`Cursor.Entered`). Whatever the run does with
that call, the rest of the log is read from this range on.
-/

namespace CallAlign

/-! ## Logs along ranges -/

/-- The range that the event enters. -/
def Event.move? : Event → Option Move
  | .moved move => some move
  | .claimed _ _ | .matched _ _ _ _ | .exhausted _ | .undescribed _ _ | .leftover _ => none

/-- The ranges that a log tells to be entered, in order. -/
def movesIn (events : List Event) : List Move := events.filterMap Event.move?

/-- `offset` lies in the range at place `k`. -/
def LiesIn (ranges : List CodeRange) (k offset : Nat) : Prop :=
  ∃ r, ranges[k]? = some r ∧ r.contains offset = true

/-- The log that is read from the range at place `k` on and ends in the one at place `last`. -/
inductive Follows (ranges : List CodeRange) : Nat → List Event → Nat → Prop
  | nil (k : Nat) : Follows ranges k [] k
  | failure (k : Nat) {e : Event} (he : e.level = .debug) : Follows ranges k [e] k
  | moved {k last : Nat} {r : CodeRange} {events : List Event} (hr : ranges[k + 1]? = some r)
      (later : Follows ranges (k + 1) events last) :
      Follows ranges k (.moved ⟨k + 1, r⟩ :: events) last
  | claim {k last offset : Nat} {node : NodeId} {e : Event} {events : List Event}
      (he : e.claim? = some (node, offset)) (hin : LiesIn ranges k offset)
      (later : Follows ranges k events last) : Follows ranges k (e :: events) last

/-- Where a log ends when `untaken` is the first call instruction that no call took. -/
def EndsFor (ranges : List CodeRange) (last : Nat) (untaken : Option Nat) : Prop :=
  match untaken with
  | some offset => LiesIn ranges last offset
  | none => last = ranges.length - 1

theorem Event.move?_of_claim? {e : Event} {claim : NodeId × Nat} (h : e.claim? = some claim) :
    e.move? = none := by
  cases e <;> first | rfl | cases h

theorem Event.move?_of_debug {e : Event} (h : e.level = .debug) : e.move? = none := by
  cases e <;> first | rfl | cases h

theorem Event.claim?_of_debug {e : Event} (h : e.level = .debug) : e.claim? = none := by
  cases e <;> first | rfl | cases h

namespace Follows

variable {ranges : List CodeRange} {k last : Nat} {events : List Event}

/-- A log enters the ranges from where it begins to where it ends. -/
theorem entries (h : Follows ranges k events last) : Entries ranges k last (movesIn events) := by
  induction h with
  | nil k => exact .nil _ k
  | failure k he =>
    rw [movesIn, List.filterMap_cons_none (Event.move?_of_debug he)]
    exact .nil _ k
  | moved hr _ ih => exact .cons hr ih
  | claim he _ _ ih =>
    rw [movesIn, List.filterMap_cons_none (Event.move?_of_claim? he)]
    exact ih

/-- A log can be cut anywhere: the second part is read on from where the first one ends. -/
theorem exists_cut {before after : List Event} (h : Follows ranges k (before ++ after) last) :
    ∃ place, Follows ranges k before place ∧ Follows ranges place after last := by
  induction before generalizing k with
  | nil => exact ⟨k, .nil k, h⟩
  | cons e before ih =>
    -- The tail must be a variable, or no case of `Follows` matches the log.
    rw [List.cons_append] at h
    generalize hrest : before ++ after = rest at h
    cases h with
    | failure _ he =>
      obtain ⟨rfl, rfl⟩ := List.append_eq_nil_iff.1 hrest
      exact ⟨_, .failure _ he, .nil _⟩
    | moved hr later =>
      subst hrest
      obtain ⟨place, hbefore, hafter⟩ := ih later
      exact ⟨place, .moved hr hbefore, hafter⟩
    | claim he hin later =>
      subst hrest
      obtain ⟨place, hbefore, hafter⟩ := ih later
      exact ⟨place, .claim he hin hbefore, hafter⟩

/-- An instruction is claimed behind the move into its range and in front of the next move. -/
theorem entries_around_claim {before after : List Event} {e : Event}
    (h : Follows ranges k (before ++ e :: after) last) {node : NodeId} {offset : Nat}
    (he : e.claim? = some (node, offset)) :
    ∃ place, LiesIn ranges place offset ∧ Entries ranges k place (movesIn before) ∧
      Entries ranges place last (movesIn after) := by
  obtain ⟨place, hbefore, hafter⟩ := exists_cut h
  cases hafter with
  | failure _ hdebug => simp [Event.claim?_of_debug hdebug] at he
  | moved => cases he
  | claim hclaim hin later =>
    cases hclaim.symm.trans he
    exact ⟨place, hin, hbefore.entries, later.entries⟩

end Follows

/-! ## Scans in a log -/

namespace Cursor

variable {ranges : List CodeRange} {code : Code} {c : Cursor} {scan : Scan}

/-- The cursor is not in front of the range it stands in. -/
def Entered (ranges : List CodeRange) (c : Cursor) : Prop :=
  ∀ r, ranges[c.index]? = some r → r.start ≤ c.position

theorem entered_start (list : RangeList) : Entered list.toList (start list) := by
  intro r hr
  cases hlist : list.toList with
  | nil => simp [hlist] at hr
  | cons first later =>
    simp only [start, hlist] at hr ⊢
    cases hr
    exact Nat.le_refl _

/-- A scan writes its moves in front of what is told from the range it ends in. -/
theorem Scanning.follows (hscan : Scanning code c scan) (htracks : Tracks ranges c)
    {events : List Event} {last : Nat} (h : Follows ranges scan.cursor.index events last) :
    Follows ranges c.index (scan.moves.map .moved ++ events) last := by
  induction hscan with
  | found => exact h
  | ended => exact h
  | moved _ _ ih => exact .moved htracks.next_range (ih htracks.enter h)

/-- A call that is found going forward lies in the range that the scan ends in. -/
theorem Scanning.liesIn (hscan : Scanning code c scan) (htracks : Tracks ranges c)
    (hentered : Entered ranges c) {offset : Nat} (hfound : scan.found = some offset) :
    LiesIn ranges scan.cursor.index offset := by
  induction hscan with
  | found hseek =>
    cases hfound
    obtain ⟨hle, hlt, -⟩ := seekCall_eq_found hseek
    rcases htracks.range with ⟨-, -, hstop⟩ | ⟨r, hr, hstop⟩
    · simp only at hstop
      omega
    · refine ⟨r, hr, CodeRange.contains_iff.2 ⟨Nat.le_trans (hentered r hr) hle, ?_⟩⟩
      exact hstop ▸ hlt
  | ended => cases hfound
  | moved _ _ ih =>
    -- A move puts the cursor at the start of the range it enters.
    refine ih htracks.enter (fun s hs => ?_) hfound
    cases hs.symm.trans htracks.next_range
    exact Nat.le_refl _

theorem Entered.consume {offset : Nat} (hin : LiesIn ranges c.index offset)
    (hlt : offset < code.size) : Entered ranges (c.consume code offset) := by
  intro s hs
  obtain ⟨r, hr, hcontains⟩ := hin
  cases hs.symm.trans hr
  have hstart := (CodeRange.contains_iff.1 hcontains).1
  exact Nat.le_of_lt (Nat.lt_of_le_of_lt hstart (lt_offsetBehind hlt))

/-- A scan ends in the range of the first call still to come, or in the last range. -/
theorem Scanning.endsFor (hscan : Scanning code c scan) (htracks : Tracks ranges c)
    (hentered : Entered ranges c) : EndsFor ranges scan.cursor.index (c.pending code)[0]? := by
  cases hfound : scan.found with
  | none =>
    rw [hscan.pending_eq_nil hfound]
    exact (htracks.scan hscan).index_eq_last (hscan.later_eq_nil hfound)
  | some offset =>
    rw [hscan.pending_eq_cons hfound]
    exact hscan.liesIn htracks hentered hfound

end Cursor

/-! ## The log of a run -/

/-- The log of the run can be read along the ranges from place `k` on, when the calls at `offsets`
are still to come. -/
def Run.ReadsFrom {α : Type} (ranges : List CodeRange) (k : Nat) (offsets : List Nat)
    (run : Run α) : Prop :=
  ∃ last, Follows ranges k run.events last ∧ EndsFor ranges last offsets[run.claims.length]?

namespace Cursor

variable {ranges : List CodeRange} {code : Code} {c : Cursor} {scan : Scan} {α : Type}

theorem Scanning.readsFrom_failure (hscan : Scanning code c scan) (htracks : Tracks ranges c)
    (hentered : Entered ranges c) {e : Event} (he : e.level = .debug)
    (result : Except Alignment.Failure α) :
    Run.ReadsFrom ranges c.index (c.pending code) ⟨result, scan.moves.map .moved ++ [e]⟩ := by
  refine ⟨_, hscan.follows htracks (.failure _ he), ?_⟩
  rw [Run.claims_moves_append, List.filterMap_cons_none (Event.claim?_of_debug he)]
  exact hscan.endsFor htracks hentered

theorem Scanning.readsFrom_claim (hscan : Scanning code c scan) (htracks : Tracks ranges c)
    (hentered : Entered ranges c) {offset : Nat} (hfound : scan.found = some offset) {e : Event}
    {node : NodeId} (he : e.claim? = some (node, offset)) {run : Run α}
    (h : run.ReadsFrom ranges scan.cursor.index ((scan.cursor.consume code offset).pending code)) :
    (run.after (scan.moves.map .moved ++ [e])).ReadsFrom ranges c.index (c.pending code) := by
  obtain ⟨last, hfollows, hends⟩ := h
  have hin := hscan.liesIn htracks hentered hfound
  refine ⟨last, ?_, ?_⟩
  · rw [Run.after_events, List.append_assoc]
    exact hscan.follows htracks (.claim he hin hfollows)
  · rw [Run.claims_after_moves, he, hscan.pending_eq_cons hfound]
    exact hends

end Cursor

namespace Request

open Cursor

variable {request : Request} {ranges : List CodeRange}

theorem readsFrom_matchCalls (request : Request) {cursor : Cursor} (htracks : Tracks ranges cursor)
    (hentered : Entered ranges cursor) (calls : List Call) :
    (request.matchCalls cursor calls).ReadsFrom ranges cursor.index
      (cursor.pending request.code) := by
  induction calls generalizing cursor with
  | nil =>
    have hscan := scanning_nextCall request.code cursor
    simp only [matchCalls]
    split
    · exact hscan.readsFrom_failure htracks hentered rfl _
    · have hmoves := hscan.follows htracks (.nil _)
      rw [List.append_nil] at hmoves
      refine ⟨_, hmoves, ?_⟩
      rw [Run.claims, Run.filterMap_claim?_moved]
      exact hscan.endsFor htracks hentered
  | cons call rest ih =>
    have hscan := scanning_nextCall request.code cursor
    simp only [matchCalls]
    split
    · exact hscan.readsFrom_failure htracks hentered rfl _
    · rename_i offset hfound
      have hlater := ih ((htracks.scan hscan).consume request.code offset)
        (.consume (hscan.liesIn htracks hentered hfound) (nextCallFrom_eq_some hfound).2.1)
      split
      · exact hscan.readsFrom_claim htracks hentered hfound rfl hlater
      · split
        · exact hscan.readsFrom_failure htracks hentered rfl _
        · exact hscan.readsFrom_claim htracks hentered hfound rfl hlater

/-- **Logs keep to the ranges.** The log of a run moves from range to range, claims each instruction
in the range it has moved to, and ends in the range of the first call instruction that no call took,
or in the last one. -/
theorem follows_run (fits : request.Fits) :
    ∃ last, Follows request.ranges.toList 0 request.run.events last ∧
      EndsFor request.ranges.toList last request.callOffsets[request.run.claims.length]? := by
  have hreads := readsFrom_matchCalls request (tracks_start request.ranges)
    (entered_start request.ranges) request.calls
  rw [start_index, pending_start] at hreads
  rw [run_of_fits fits]
  exact hreads

end Request

end CallAlign

import Mathlib.Data.List.Forall2
import CallAlign.Proofs.Alignment.LogOrder

/-!
# A log tells its run

**Theorem (`log_tells_run`).** The events of a run, in their order, say how it went:

- the calls up to the one it failed at, or all of them, each with the instruction at its index, and
  with the method and class of its operation unless it was skipped;
- the ranges that were entered, one by one, up to the last one or to that of the first instruction
  that no call took;
- an instruction is claimed between the move into its range and the next move;
- a failure, as the last event, and as the only one that is not mere tracing.

The second and third are `Request.follows_run`. The others leave out the moves, so they hold of any
way that a run can go (`Request.Matching`), whatever ranges are entered on the way.
-/

namespace CallAlign

/-! ## Kinds of events -/

namespace Event

/-- Whether the event is one by which a call takes an instruction. -/
def isClaim (e : Event) : Bool := e.claim?.isSome

/-- Whether the event is one by which an operation is made. -/
def isMatched : Event → Bool
  | .matched _ _ _ _ => true
  | .moved _ | .claimed _ _ | .exhausted _ | .undescribed _ _ | .leftover _ => false

section

variable {p : Event → Bool} (h : ∀ move, p (.moved move) = false)

include h

theorem filter_moves (moves : List Move) : (moves.map Event.moved).filter p = [] := by
  simp [List.filter_eq_nil_iff, h]

theorem filter_moves_append (moves : List Move) (events : List Event) :
    (moves.map Event.moved ++ events).filter p = events.filter p := by
  rw [List.filter_append, filter_moves h, List.nil_append]

end

end Event

/-- The event of an operation. -/
def Operation.event (op : Operation) : Event :=
  .matched op.node op.bytecodeOffset op.methodName op.declaringType

/-- The event of a failure; ranges that do not fit leave none. -/
def Alignment.Failure.event? : Alignment.Failure → Option Event
  | .exhausted node => some (.exhausted node)
  | .undescribed node reason => some (.undescribed node reason)
  | .leftover offset => some (.leftover offset)
  | .unfitRanges _ => none

namespace Run

/-- The events of a run by which calls take instructions. -/
def claimEvents {α : Type} (run : Run α) : List Event := run.events.filter Event.isClaim

/-- The event that a run must close with, if it fails. -/
def closing {α : Type} (run : Run α) : List Event :=
  match run.result with
  | .ok _ => []
  | .error failure => failure.event?.toList

/-- The log is mere tracing up to the event that tells of the failure. -/
def Closes {α : Type} (run : Run α) : Prop :=
  ∃ front, run.events = front ++ run.closing ∧ ∀ e ∈ front, e.level = .trace

theorem closing_of_ok {α : Type} {run : Run α} {a : α} (h : run.result = .ok a) :
    run.closing = [] := by
  simp [closing, h]

theorem closing_of_error {α : Type} {run : Run α} {failure : Alignment.Failure}
    (h : run.result = .error failure) : run.closing = failure.event?.toList := by
  simp [closing, h]

theorem closing_map {α β : Type} (f : α → β) (run : Run α) :
    (run.map f).closing = run.closing := by
  cases h : run.result <;> simp [closing, h, Except.map]

theorem Closes.map {α β : Type} {run : Run α} (h : run.Closes) (f : α → β) :
    (run.map f).Closes := by
  unfold Closes
  rwa [closing_map, map_events]

theorem level_of_mem_moves {moves : List Move} {e : Event} (h : e ∈ moves.map Event.moved) :
    e.level = .trace := by
  obtain ⟨move, -, rfl⟩ := List.mem_map.1 h
  rfl

theorem Closes.after {α : Type} {run : Run α} (h : run.Closes) (moves : List Move) {e : Event}
    (he : e.level = .trace) : (run.after (moves.map .moved ++ [e])).Closes := by
  obtain ⟨front, hfront, htrace⟩ := h
  refine ⟨moves.map .moved ++ e :: front, ?_, ?_⟩
  · rw [after_events, hfront]
    simp [closing]
  · simp only [List.forall_mem_append, List.forall_mem_cons]
    exact ⟨fun _ => level_of_mem_moves, he, htrace⟩

end Run

/-! ## Claims and endings -/

namespace Request

/-- `e` tells that the call of a pair takes the instruction of the pair: by its mere node when it is
skipped, and else with what it invokes. -/
def ClaimOf (request : Request) (pair : Call × Nat) (e : Event) : Prop :=
  request.skips pair.1 = true ∧ e = .claimed pair.1.id pair.2 ∨
  request.skips pair.1 = false ∧ ∃ site, pair.1.site request.resolver = .ok site ∧
    e = .matched pair.1.id pair.2 site.methodName site.declaringType

/-- How it can end when the calls in front of index `n` have taken the instructions at their
index. -/
inductive EndsAt (request : Request) {α : Type} (calls : List Call) (offsets : List Nat) (n : Nat) :
    Except Alignment.Failure α → Prop
  | aligned (a : α) (all : n = calls.length) (spent : offsets.length = n) :
      EndsAt request calls offsets n (.ok a)
  | leftover {offset : Nat} (all : n = calls.length) (next : offsets[n]? = some offset) :
      EndsAt request calls offsets n (.error (.leftover offset))
  | exhausted {call : Call} (here : calls[n]? = some call) (spent : offsets.length = n) :
      EndsAt request calls offsets n (.error (.exhausted call.id))
  | undescribed {call : Call} {offset : Nat} {reason : Unresolved} (here : calls[n]? = some call)
      (next : offsets[n]? = some offset) (kept : request.skips call = false)
      (fails : call.site request.resolver = .error reason) :
      EndsAt request calls offsets n (.error (.undescribed call.id reason))

variable {request : Request} {calls : List Call} {offsets : List Nat} {n : Nat}

theorem EndsAt.cons {α : Type} {result : Except Alignment.Failure α}
    (h : request.EndsAt calls offsets n result) (call : Call) (offset : Nat) :
    request.EndsAt (call :: calls) (offset :: offsets) (n + 1) result := by
  cases h with
  | aligned a all spent => exact .aligned a (by simp [all]) (by simp [spent])
  | leftover all next => exact .leftover (by simp [all]) next
  | exhausted here spent => exact .exhausted here (by simp [spent])
  | undescribed here next kept fails => exact .undescribed here next kept fails

theorem EndsAt.map {α β : Type} {result : Except Alignment.Failure α}
    (h : request.EndsAt calls offsets n result) (f : α → β) :
    request.EndsAt calls offsets n (result.map f) := by
  cases h with
  | aligned a all spent => exact .aligned (f a) all spent
  | leftover all next => exact .leftover all next
  | exhausted here spent => exact .exhausted here spent
  | undescribed here next kept fails => exact .undescribed here next kept fails

theorem Matching.endsAt {run : Run (List Operation)} (h : request.Matching offsets calls run) :
    request.EndsAt calls offsets run.claims.length run.result := by
  induction h with
  | finished moves =>
    rw [Run.claims, Run.filterMap_claim?_moved]
    exact .aligned [] rfl rfl
  | leftover moves offset offsets =>
    rw [Run.claims_moves_append]
    exact .leftover rfl rfl
  | exhausted moves call rest =>
    rw [Run.claims_moves_append]
    exact .exhausted rfl rfl
  | undescribed moves kept fails =>
    rw [Run.claims_moves_append]
    exact .undescribed rfl rfl kept fails
  | skipped moves skips later ih =>
    rw [Run.claims_after_moves]
    exact ih.cons _ _
  | matched moves kept described later ih =>
    rw [Run.claims_after_moves]
    exact (ih.map _).cons _ _

theorem Matching.claimEvents {run : Run (List Operation)} (h : request.Matching offsets calls run) :
    List.Forall₂ request.ClaimOf ((calls.zip offsets).take run.claims.length) run.claimEvents := by
  have hmoved : ∀ move, Event.isClaim (.moved move) = false := fun _ => rfl
  induction h with
  | finished moves =>
    rw [Run.claimEvents, Event.filter_moves hmoved]
    simp
  | leftover moves offset offsets =>
    rw [Run.claims_moves_append, Run.claimEvents, Event.filter_moves_append hmoved]
    exact .nil
  | exhausted moves call rest =>
    rw [Run.claims_moves_append, Run.claimEvents, Event.filter_moves_append hmoved]
    exact .nil
  | undescribed moves kept fails =>
    rw [Run.claims_moves_append, Run.claimEvents, Event.filter_moves_append hmoved]
    exact .nil
  | skipped moves skips later ih =>
    rw [Run.claims_after_moves, Run.claimEvents, Run.after_events, List.append_assoc,
      Event.filter_moves_append hmoved]
    exact .cons (.inl ⟨skips, rfl⟩) ih
  | matched moves kept described later ih =>
    rw [Run.claims_after_moves, Run.claimEvents, Run.after_events, List.append_assoc,
      Event.filter_moves_append hmoved]
    exact .cons (.inr ⟨kept, _, described, rfl⟩) ih

/-- On success there is one event for each operation, with its fields. -/
theorem Matching.matchedEvents {run : Run (List Operation)}
    (h : request.Matching offsets calls run) {operations : List Operation}
    (hresult : run.result = .ok operations) :
    run.events.filter Event.isMatched = operations.map Operation.event := by
  have hmoved : ∀ move, Event.isMatched (.moved move) = false := fun _ => rfl
  induction h generalizing operations with
  | finished moves =>
    cases hresult
    exact Event.filter_moves hmoved moves
  | leftover => cases hresult
  | exhausted => cases hresult
  | undescribed => cases hresult
  | skipped moves skips later ih =>
    rw [Run.after_events, List.append_assoc, Event.filter_moves_append hmoved]
    exact ih hresult
  | matched moves kept described later ih =>
    obtain ⟨rest, hrest, rfl⟩ := Run.result_of_map_eq_ok hresult
    rw [Run.after_events, List.append_assoc, Event.filter_moves_append hmoved, List.map_cons,
      ← ih hrest]
    rfl

theorem Matching.closes {run : Run (List Operation)} (h : request.Matching offsets calls run) :
    run.Closes := by
  induction h with
  | finished moves => exact ⟨_, (List.append_nil _).symm, fun _ => Run.level_of_mem_moves⟩
  | leftover moves => exact ⟨_, rfl, fun _ => Run.level_of_mem_moves⟩
  | exhausted moves => exact ⟨_, rfl, fun _ => Run.level_of_mem_moves⟩
  | undescribed moves => exact ⟨_, rfl, fun _ => Run.level_of_mem_moves⟩
  | skipped moves skips later ih => exact ih.after moves rfl
  | matched moves kept described later ih => exact (ih.map _).after moves rfl

/-! ## Whole runs -/

theorem endsAt_run (fits : request.Fits) :
    request.EndsAt request.calls request.callOffsets request.run.claims.length
      request.run.result := by
  rw [run_of_fits fits]
  exact (matching_start request).endsAt.map _

theorem claimEvents_run (fits : request.Fits) :
    List.Forall₂ request.ClaimOf
      ((request.calls.zip request.callOffsets).take request.run.claims.length)
      request.run.claimEvents := by
  rw [run_of_fits fits]
  exact (matching_start request).claimEvents

theorem matchedEvents_run (fits : request.Fits) {alignment : Alignment}
    (h : request.run.result = .ok alignment) :
    request.run.events.filter Event.isMatched =
      alignment.operations.toList.map Operation.event := by
  rw [run_of_fits fits] at h ⊢
  obtain ⟨operations, hresult, rfl⟩ := Run.result_of_map_eq_ok h
  exact (matching_start request).matchedEvents hresult

theorem closes_run (fits : request.Fits) : request.run.Closes := by
  rw [run_of_fits fits]
  exact (matching_start request).closes.map _

/-- When ranges fit, every failure has an event. -/
theorem EndsAt.exists_event {α : Type} {failure : Alignment.Failure}
    (h : request.EndsAt calls offsets n (.error failure : Except Alignment.Failure α)) :
    ∃ e, failure.event? = some e ∧ e.level = .debug := by
  cases h with
  | leftover => exact ⟨_, rfl, rfl⟩
  | exhausted => exact ⟨_, rfl, rfl⟩
  | undescribed => exact ⟨_, rfl, rfl⟩

/-- The last event of a run that fails is that of the failure, and all others are tracing. -/
theorem exists_last_event (fits : request.Fits) {failure : Alignment.Failure}
    (h : request.run.result = .error failure) :
    ∃ front e, request.run.events = front ++ [e] ∧ failure.event? = some e ∧ e.level = .debug ∧
      ∀ x ∈ front, x.level = .trace := by
  have hends := endsAt_run fits
  rw [h] at hends
  obtain ⟨e, he, hlevel⟩ := hends.exists_event
  obtain ⟨front, hfront, htrace⟩ := closes_run fits
  refine ⟨front, e, ?_, he, hlevel, htrace⟩
  rw [hfront, Run.closing_of_error h, he]
  rfl

theorem exists_debug_iff (fits : request.Fits) :
    (∃ e ∈ request.run.events, e.level = .debug) ↔
      ∃ failure, request.run.result = .error failure := by
  constructor
  · rintro ⟨e, he, hlevel⟩
    cases hresult : request.run.result with
    | error failure => exact ⟨failure, rfl⟩
    | ok alignment =>
      obtain ⟨front, hfront, htrace⟩ := closes_run fits
      rw [hfront, Run.closing_of_ok hresult, List.append_nil] at he
      rw [htrace e he] at hlevel
      cases hlevel
  · rintro ⟨failure, h⟩
    obtain ⟨front, e, hevents, -, hlevel, -⟩ := exists_last_event fits h
    exact ⟨e, by simp [hevents], hlevel⟩

/-- **Logs tell runs.** Let the ranges of a request fit its code, and let `n` calls take an
instruction in its run.

The events of these claims are, in order, those of the first `n` calls, each with the call offset at
its index, and the run ends at the call at index `n`; on success the events of matched calls are
those of the operations. The moves enter the ranges from 1 to `m`: the last one if no instruction is
left untaken, and else that of the instruction left over or found last. The moves in front of a
claim are those up to the range of its instruction. An event for debugging comes exactly when the
run fails; it is the last event, tells of that failure, and is the only one. -/
theorem log_tells_run (request : Request) (fits : request.Fits) :
    let run := request.run
    let ranges := request.ranges.toList
    let n := run.claims.length
    (List.Forall₂ request.ClaimOf ((request.calls.zip request.callOffsets).take n)
        run.claimEvents ∧
      request.EndsAt request.calls request.callOffsets n run.result ∧
      ∀ alignment : Alignment, run.result = .ok alignment →
        run.events.filter Event.isMatched = alignment.operations.toList.map Operation.event) ∧
    (∃ m, Entries ranges 0 m (movesIn run.events) ∧
      (∀ alignment : Alignment, run.result = .ok alignment → m = ranges.length - 1) ∧
      (∀ node, run.result = .error (.exhausted node) → m = ranges.length - 1) ∧
      (∀ offset, run.result = .error (.leftover offset) → LiesIn ranges m offset) ∧
      (∀ node reason, run.result = .error (.undescribed node reason) →
        ∃ offset, request.callOffsets[n]? = some offset ∧ LiesIn ranges m offset) ∧
      ∀ before e after node offset, run.events = before ++ e :: after →
        e.claim? = some (node, offset) →
        ∃ k, LiesIn ranges k offset ∧ Entries ranges 0 k (movesIn before) ∧
          Entries ranges k m (movesIn after)) ∧
    ((∃ e ∈ run.events, e.level = .debug) ↔ ∃ failure, run.result = .error failure) ∧
    (∀ failure, run.result = .error failure → ∃ front e, run.events = front ++ [e] ∧
      failure.event? = some e ∧ ∀ x ∈ front, x.level = .trace) := by
  intro run ranges n
  have hends : request.EndsAt request.calls request.callOffsets n run.result := endsAt_run fits
  obtain ⟨m, hfollows, hlast⟩ := follows_run fits
  refine ⟨⟨claimEvents_run fits, hends, fun _ => matchedEvents_run fits⟩,
    ⟨m, hfollows.entries, ?_, ?_, ?_, ?_, ?_⟩, exists_debug_iff fits, ?_⟩
  · intro alignment h
    rw [h] at hends
    cases hends with
    | aligned _ _ spent =>
      rw [List.getElem?_eq_none (Nat.le_of_eq spent)] at hlast
      exact hlast
  · intro node h
    rw [h] at hends
    cases hends with
    | exhausted _ spent =>
      rw [List.getElem?_eq_none (Nat.le_of_eq spent)] at hlast
      exact hlast
  · intro offset h
    rw [h] at hends
    cases hends with
    | leftover _ next =>
      rw [next] at hlast
      exact hlast
  · intro node reason h
    rw [h] at hends
    cases hends with
    | @undescribed _ offset _ _ next =>
      rw [next] at hlast
      exact ⟨offset, next, hlast⟩
  · intro before e after node offset hevents he
    have hsplit : Follows ranges 0 (before ++ e :: after) m := hevents ▸ hfollows
    exact hsplit.entries_around_claim he
  · intro failure h
    obtain ⟨front, e, hevents, he, -, htrace⟩ := exists_last_event fits h
    exact ⟨front, e, hevents, he, htrace⟩

/-- A skipped construction, a bare name and a method of a receiver of unknown type, over ranges of
which the second one is empty. -/
def unknownReceiver : Request where
  nodes :=
    [.call ⟨⟨1⟩, { start := 0, stop := 11 }, .constructor ⟨⟨2⟩, { start := 0, stop := 11 }⟩, true⟩,
     .call ⟨⟨3⟩, { start := 1, stop := 4 }, .identifier ⟨3⟩ "a" { start := 1, stop := 2 }, false⟩,
     .call ⟨⟨4⟩, { start := 5, stop := 10 },
      .member "b" { start := 5, stop := 8 } ⟨⟨5⟩, { start := 5, stop := 6 }⟩, false⟩]
  ranges := ⟨[⟨0, 2⟩, ⟨2, 2⟩, ⟨3, 6⟩, ⟨6, 9⟩], by decide, by decide⟩
  code := ⟨#[183, 0, 0, 184, 0, 0, 182, 0, 0], by decide⟩
  resolver := ⟨fun _ => .unknown, fun _ => some ⟨"A"⟩⟩
  lineIndex := .ofBytes [123, 97, 40, 41, 59, 120, 46, 98, 40, 41, 125]

theorem log_unknownReceiver :
    unknownReceiver.run.events =
      [.claimed ⟨1⟩ 0, .moved ⟨1, ⟨2, 2⟩⟩, .moved ⟨2, ⟨3, 6⟩⟩, .matched ⟨3⟩ 3 "a" ⟨"A"⟩,
       .moved ⟨3, ⟨6, 9⟩⟩, .undescribed ⟨4⟩ (.unknownType ⟨5⟩)] ∧
    ∃ m, Entries unknownReceiver.ranges.toList 0 m (movesIn unknownReceiver.run.events) ∧
      LiesIn unknownReceiver.ranges.toList m 6 := by
  have hresult : unknownReceiver.run.result = .error (.undescribed ⟨4⟩ (.unknownType ⟨5⟩)) := by
    cbv
  have hnext : unknownReceiver.callOffsets[unknownReceiver.run.claims.length]? = some 6 := by cbv
  obtain ⟨-, ⟨m, hentries, -, -, -, hundescribed, -⟩, -⟩ :=
    log_tells_run unknownReceiver (by decide)
  obtain ⟨offset, hoffset, hin⟩ := hundescribed _ _ hresult
  cases hoffset.symm.trans hnext
  exact ⟨by cbv, m, hentries, hin⟩

end Request

end CallAlign

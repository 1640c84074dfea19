import CallAlign.Alignment.Run
import CallAlign.Proofs.Bytecode.CursorDrain

/-!
# Alignment without a cursor

An alignment pairs two lists, the calls of the source and the calls of the code. `pairWith` is
that pairing on the lists themselves: it takes one element off each, asks what the two contribute,
and goes on.

**Theorem (`align_eq_pairWith`).** Ranges that fit the code are aligned by pairing the request's
calls with the call offsets of its ranges.

The cursor enters only through the calls it has yet to reach. A step of the alignment scans to the
first of them and consumes it, so the induction over the source calls goes through for every
cursor at once, wherever it stands and whichever ranges it has left.
-/

namespace CallAlign

/-! ## Pairing two lists -/

/-- `calls` paired with the instructions at `offsets`, one to one and in order. The operations are
what the pairs contribute; the first pair that fails, or the first element left alone, decides the
failure. -/
def pairWith (contribute : Call → Nat → Except Alignment.Failure (Option Operation)) :
    List Call → List Nat → Except Alignment.Failure (List Operation)
  | [], [] => .ok []
  | [], offset :: _ => .error (.leftover offset)
  | call :: _, [] => .error (.exhausted call.id)
  | call :: rest, offset :: offsets =>
    match contribute call offset with
    | .error failure => .error failure
    | .ok operation? => (pairWith contribute rest offsets).map (operation?.toList ++ ·)

section

variable {contribute : Call → Nat → Except Alignment.Failure (Option Operation)}

theorem pairWith_cons_of_error {call : Call} {offset : Nat} {failure : Alignment.Failure}
    (h : contribute call offset = .error failure) (rest : List Call) (offsets : List Nat) :
    pairWith contribute (call :: rest) (offset :: offsets) = .error failure := by
  simp [pairWith, h]

theorem pairWith_cons_of_ok {call : Call} {offset : Nat} {operation? : Option Operation}
    (h : contribute call offset = .ok operation?) (rest : List Call) (offsets : List Nat) :
    pairWith contribute (call :: rest) (offset :: offsets) =
      (pairWith contribute rest offsets).map (operation?.toList ++ ·) := by
  simp [pairWith, h]

/-- A pairing that succeeds on a pair of heads succeeds on them and on the tails. -/
theorem pairWith_cons_eq_ok {call : Call} {rest : List Call} {offset : Nat} {offsets : List Nat}
    {operations : List Operation}
    (h : pairWith contribute (call :: rest) (offset :: offsets) = .ok operations) :
    ∃ operation? later, contribute call offset = .ok operation? ∧
      pairWith contribute rest offsets = .ok later ∧ operations = operation?.toList ++ later := by
  cases hhead : contribute call offset with
  | error failure =>
    rw [pairWith_cons_of_error hhead] at h
    cases h
  | ok operation? =>
    rw [pairWith_cons_of_ok hhead] at h
    cases htail : pairWith contribute rest offsets with
    | error failure =>
      rw [htail] at h
      cases h
    | ok later =>
      rw [htail] at h
      cases h
      exact ⟨operation?, later, rfl, rfl, rfl⟩

/-- Pairings compose: behind a pairing that succeeds, the next one goes its own way. -/
theorem pairWith_append {calls : List Call} {offsets : List Nat} {operations : List Operation}
    (h : pairWith contribute calls offsets = .ok operations) (laterCalls : List Call)
    (laterOffsets : List Nat) :
    pairWith contribute (calls ++ laterCalls) (offsets ++ laterOffsets) =
      (pairWith contribute laterCalls laterOffsets).map (operations ++ ·) := by
  induction calls generalizing offsets operations with
  | nil =>
    cases offsets with
    | nil =>
      cases h
      cases hlater : pairWith contribute laterCalls laterOffsets <;> simp [hlater, Except.map]
    | cons => cases h
  | cons call rest ih =>
    cases offsets with
    | nil => cases h
    | cons offset offsets =>
      obtain ⟨operation?, later, hhead, htail, rfl⟩ := pairWith_cons_eq_ok h
      rw [List.cons_append, List.cons_append, pairWith_cons_of_ok hhead, ih htail]
      cases hlater : pairWith contribute laterCalls laterOffsets <;> simp [Except.map]

/-- Lists of one length whose pairs all contribute can be paired. -/
theorem exists_pairWith_eq_ok {calls : List Call} {offsets : List Nat}
    (hlength : calls.length = offsets.length)
    (h : ∀ p ∈ calls.zip offsets, ∃ operation?, contribute p.1 p.2 = .ok operation?) :
    ∃ operations, pairWith contribute calls offsets = .ok operations := by
  induction calls generalizing offsets with
  | nil =>
    cases offsets with
    | nil => exact ⟨[], rfl⟩
    | cons => cases hlength
  | cons call rest ih =>
    cases offsets with
    | nil => cases hlength
    | cons offset offsets =>
      obtain ⟨operation?, hhead⟩ := h (call, offset) (by simp)
      obtain ⟨later, htail⟩ := ih (Nat.succ.inj hlength) fun p hp => h p (by simp [hp])
      refine ⟨operation?.toList ++ later, ?_⟩
      rw [pairWith_cons_of_ok hhead, htail]
      rfl

end

/-! ## Runs under a map -/

namespace Run

theorem map_map {α β γ : Type} (f : α → β) (g : β → γ) (run : Run α) :
    (run.map f).map g = run.map fun a => g (f a) := by
  cases h : run.result <;> simp [map, h, Except.map]

theorem map_after {α β : Type} (f : α → β) (events : List Event) (run : Run α) :
    (run.after events).map f = (run.map f).after events := rfl

theorem map_id {α : Type} (run : Run α) : run.map (fun a => a) = run := by
  obtain ⟨result, events⟩ := run
  cases result <;> rfl

theorem after_after {α : Type} (events earlier : List Event) (run : Run α) :
    (run.after events).after earlier = run.after (earlier ++ events) := by
  simp [after]

theorem result_of_map_eq_error {α β : Type} {f : α → β} {run : Run α}
    {failure : Alignment.Failure} (h : (run.map f).result = .error failure) :
    run.result = .error failure := by
  cases hrun : run.result with
  | error e => simpa [hrun, Except.map] using h
  | ok a => simp [hrun, Except.map] at h

theorem result_of_map_eq_ok {α β : Type} {f : α → β} {run : Run α} {b : β}
    (h : (run.map f).result = .ok b) : ∃ a, run.result = .ok a ∧ f a = b := by
  cases hrun : run.result with
  | error e => simp [hrun, Except.map] at h
  | ok a => exact ⟨a, rfl, by simpa [hrun, Except.map] using h⟩

end Run

/-! ## The pairs of a request -/

namespace Request

/-- The offsets of the call instructions of the request's ranges, in order. -/
def callOffsets (request : Request) : List Nat := request.code.callsInAll request.ranges.toList

/-- What `call` with its instruction at `offset` comes to: an operation, nothing when it is
skipped, or a failure when it cannot be described. -/
def contribution (request : Request) (call : Call) (offset : Nat) :
    Except Alignment.Failure (Option Operation) :=
  if request.skips call then .ok none
  else match call.site request.resolver with
    | .error reason => .error (.undescribed call.id reason)
    | .ok site => .ok (some (request.operation call site offset))

theorem contribution_of_skips {request : Request} {call : Call} (h : request.skips call = true)
    (offset : Nat) : request.contribution call offset = .ok none := by
  simp [contribution, h]

theorem contribution_of_site_eq_error {request : Request} {call : Call} {reason : Unresolved}
    (h : request.skips call = false) (hsite : call.site request.resolver = .error reason)
    (offset : Nat) :
    request.contribution call offset = .error (.undescribed call.id reason) := by
  simp [contribution, h, hsite]

theorem contribution_of_site_eq_ok {request : Request} {call : Call} {site : CallSite}
    (h : request.skips call = false) (hsite : call.site request.resolver = .ok site)
    (offset : Nat) :
    request.contribution call offset = .ok (some (request.operation call site offset)) := by
  simp [contribution, h, hsite]

/-! ## The ways a run can go -/

/-- How a run over `calls` goes when the call instructions at the given offsets are still to come.
The ranges that the cursor enters on the way are left open. -/
inductive Matching (request : Request) : List Nat → List Call → Run (List Operation) → Prop
  | finished (moves : List Move) : Matching request [] [] ⟨.ok [], moves.map .moved⟩
  | leftover (moves : List Move) (offset : Nat) (offsets : List Nat) :
      Matching request (offset :: offsets) []
        ⟨.error (.leftover offset), moves.map .moved ++ [.leftover offset]⟩
  | exhausted (moves : List Move) (call : Call) (rest : List Call) :
      Matching request [] (call :: rest)
        ⟨.error (.exhausted call.id), moves.map .moved ++ [.exhausted call.id]⟩
  | undescribed (moves : List Move) {offset : Nat} {offsets : List Nat} {call : Call}
      {rest : List Call} {reason : Unresolved} (kept : request.skips call = false)
      (fails : call.site request.resolver = .error reason) :
      Matching request (offset :: offsets) (call :: rest)
        ⟨.error (.undescribed call.id reason), moves.map .moved ++ [.undescribed call.id reason]⟩
  | skipped (moves : List Move) {offset : Nat} {offsets : List Nat} {call : Call}
      {rest : List Call} {run : Run (List Operation)} (skips : request.skips call = true)
      (later : Matching request offsets rest run) :
      Matching request (offset :: offsets) (call :: rest)
        (run.after (moves.map .moved ++ [.claimed call.id offset]))
  | matched (moves : List Move) {offset : Nat} {offsets : List Nat} {call : Call}
      {rest : List Call} {site : CallSite} {run : Run (List Operation)}
      (kept : request.skips call = false) (described : call.site request.resolver = .ok site)
      (later : Matching request offsets rest run) :
      Matching request (offset :: offsets) (call :: rest)
        ((run.map (request.operation call site offset :: ·)).after
          (moves.map .moved ++ [.matched call.id offset site.methodName site.declaringType]))

/-- A run depends on its cursor only through the calls that the cursor has yet to reach. -/
theorem matching_matchCalls (request : Request) (cursor : Cursor) (calls : List Call) :
    request.Matching (cursor.pending request.code) calls (request.matchCalls cursor calls) := by
  induction calls generalizing cursor with
  | nil =>
    simp only [matchCalls]
    split
    · rename_i offset hfound
      rw [(Cursor.scanning_nextCall _ cursor).pending_eq_cons hfound]
      exact .leftover _ offset _
    · rename_i hfound
      rw [(Cursor.scanning_nextCall _ cursor).pending_eq_nil hfound]
      exact .finished _
  | cons call rest ih =>
    simp only [matchCalls]
    split
    · rename_i hfound
      rw [(Cursor.scanning_nextCall _ cursor).pending_eq_nil hfound]
      exact .exhausted _ call rest
    · rename_i offset hfound
      rw [(Cursor.scanning_nextCall _ cursor).pending_eq_cons hfound]
      split
      · exact .skipped _ ‹_› (ih _)
      · rename_i hskip
        have hkeep : request.skips call = false := eq_false_of_ne_true hskip
        split
        · exact .undescribed _ hkeep ‹_›
        · exact .matched _ hkeep ‹_› (ih _)

/-- The result of a run is the pairing of its calls with the offsets. -/
theorem Matching.result {request : Request} {offsets : List Nat} {calls : List Call}
    {run : Run (List Operation)} (h : request.Matching offsets calls run) :
    run.result = pairWith request.contribution calls offsets := by
  induction h with
  | finished => rfl
  | leftover => rfl
  | exhausted => rfl
  | undescribed _ kept fails =>
    rw [pairWith_cons_of_error (contribution_of_site_eq_error kept fails _)]
  | skipped _ skips _ ih =>
    rw [pairWith_cons_of_ok (contribution_of_skips skips _), Run.after_result, ih]
    cases pairWith request.contribution _ _ <;> rfl
  | matched _ kept described _ ih =>
    rw [pairWith_cons_of_ok (contribution_of_site_eq_ok kept described _), Run.after_result,
      Run.map_result, ih]
    rfl

/-! ## Ranges that fit -/

/-- No range ends past the code. -/
def Fits (request : Request) : Prop := ∀ r ∈ request.ranges.toList, r.stop ≤ request.code.size

instance (request : Request) : Decidable request.Fits :=
  inferInstanceAs (Decidable (∀ r ∈ request.ranges.toList, r.stop ≤ request.code.size))

theorem excess?_eq_none_iff {request : Request} :
    request.ranges.excess? request.code.size = none ↔ request.Fits := by
  simp [RangeList.excess?, Fits]

theorem run_of_fits {request : Request} (h : request.Fits) :
    request.run = (request.matchCalls (.start request.ranges) request.calls).map
      fun operations => ⟨operations.toArray⟩ := by
  unfold run
  rw [excess?_eq_none_iff.2 h]

/-- Ranges that do not fit end a run before it begins. -/
theorem run_of_not_fits {request : Request} (h : ¬ request.Fits) :
    ∃ fault, request.run = ⟨.error (.unfitRanges fault), []⟩ := by
  unfold run
  cases hexcess : request.ranges.excess? request.code.size with
  | none => exact absurd (excess?_eq_none_iff.1 hexcess) h
  | some fault => exact ⟨fault, rfl⟩

/-- A run starts with the calls of all ranges still to come. -/
theorem matching_start (request : Request) :
    request.Matching request.callOffsets request.calls
      (request.matchCalls (.start request.ranges) request.calls) := by
  rw [callOffsets, ← Cursor.pending_start]
  exact matching_matchCalls request _ _

/-- **Alignment is pairing.** When the ranges fit the code, the alignment is the pairing of the
request's calls with the calls of its ranges. -/
theorem align_eq_pairWith {request : Request} (h : request.Fits) :
    request.align = (pairWith request.contribution request.calls request.callOffsets).map
      fun operations => ⟨operations.toArray⟩ := by
  rw [align, run_of_fits h, Run.map_result, (matching_start request).result]

end Request

end CallAlign

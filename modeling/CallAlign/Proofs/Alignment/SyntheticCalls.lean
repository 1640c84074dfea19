import Mathlib.Order.Bounds.Basic
import CallAlign.Proofs.Alignment.Verdict

/-!
# Skipping synthetic calls

A request can be aligned in two modes: synthetic calls get operations like all others, or they are
skipped, so that they take their instruction and nothing else. In both modes every call takes the
same instruction.

**Theorem (`skipping_relates_to_keeping`).** An alignment that keeps synthetic calls turns into the
one that skips them when the operations of synthetic calls are left out. A failure to align is the
same in both modes, unless it is a synthetic call that cannot be described. So the one way to
succeed by skipping alone is to skip such a call.

The rules of `Verdict` carry over from keeping to skipping one by one. A call that is blocked when
synthetic calls are skipped is blocked when they are kept (`blocked_of_skipping`), so skipping comes
at least as far. It goes on where the first blocked call of keeping is synthetic and has an
instruction, and is blocked by any other.
-/

namespace CallAlign

namespace Request

/-- The request with synthetic calls skipped, or kept, and all else as it is. -/
def skipping (request : Request) (skip : Bool) : Request :=
  { request with settings := { request.settings with skipSynthetic := skip } }

/-- The call at index `i` is the first that stands in the way of an alignment. -/
def StoppedBy (request : Request) (i : Nat) (call : Call) : Prop :=
  IsLeast {j | request.Blocked j} i ∧ request.calls[i]? = some call

/-- The operations of those calls that are not synthetic, when every call has one. -/
def sourceOperations (calls : List Call) (operations : List Operation) : List Operation :=
  ((calls.zip operations).filter fun pair => !pair.1.synthetic).map Prod.snd

theorem sourceOperations_cons_of_synthetic {call : Call} (h : call.synthetic = true)
    (calls : List Call) (operation : Operation) (operations : List Operation) :
    sourceOperations (call :: calls) (operation :: operations) =
      sourceOperations calls operations := by
  simp [sourceOperations, h]

theorem sourceOperations_cons_of_source {call : Call} (h : call.synthetic = false)
    (calls : List Call) (operation : Operation) (operations : List Operation) :
    sourceOperations (call :: calls) (operation :: operations) =
      operation :: sourceOperations calls operations := by
  simp [sourceOperations, h]

variable {request : Request}

theorem StoppedBy.call_eq {i j : Nat} {call other : Call} (h : request.StoppedBy i call)
    (hother : request.StoppedBy j other) : call = other := by
  obtain ⟨hleast, hcall⟩ := h
  obtain ⟨hleast', hcall'⟩ := hother
  rw [hleast.unique hleast', hcall'] at hcall
  exact (Option.some.inj hcall).symm

/-- A call that has an instruction but no description stops an alignment that comes this far. -/
theorem stoppedBy_of_site_eq_error {i : Nat} {call : Call} {reason : Unresolved}
    (here : request.calls[i]? = some call) (least : ∀ j < i, ¬ request.Blocked j)
    (kept : request.skips call = false) (fails : call.site request.resolver = .error reason) :
    request.StoppedBy i call := by
  refine ⟨⟨⟨call, here, .inr ⟨kept, reason, fails⟩⟩, ?_⟩, here⟩
  intro j hj
  exact Nat.le_of_not_lt fun hlt => least j hlt hj

theorem skips_skipping_false (request : Request) (call : Call) :
    (request.skipping false).skips call = false := by
  simp [skips, skipping]

theorem skips_skipping_true (request : Request) (call : Call) :
    (request.skipping true).skips call = call.synthetic := by
  simp [skips, skipping]

/-! ## From mode to mode -/

/-- Skipping blocks no call that keeping would let pass. -/
theorem blocked_of_skipping {i : Nat} (h : (request.skipping true).Blocked i) :
    (request.skipping false).Blocked i := by
  obtain ⟨call, hcall, hshort | ⟨-, reason, hreason⟩⟩ := h
  · exact ⟨call, hcall, .inl hshort⟩
  · exact ⟨call, hcall, .inr ⟨skips_skipping_false request call, reason, hreason⟩⟩

/-- Positions count the same in both modes, and so do the operations of described calls. -/
theorem operationOf_skipping (skip : Bool) :
    (request.skipping skip).OperationOf = request.OperationOf := rfl

theorem keptPairs_skipping_false (calls : List Call) (offsets : List Nat) :
    (request.skipping false).keptPairs calls offsets = calls.zip offsets := by
  simp [keptPairs, skips_skipping_false]

/-- Leaving out the operations of synthetic calls leaves one for each call that is not. -/
theorem forall₂_sourceOperations {calls : List Call} {offsets : List Nat}
    {operations : List Operation}
    (h : List.Forall₂ request.OperationOf (calls.zip offsets) operations) :
    List.Forall₂ request.OperationOf ((request.skipping true).keptPairs calls offsets)
      (sourceOperations calls operations) := by
  induction calls generalizing offsets operations with
  | nil => exact .nil
  | cons call rest ih =>
    cases offsets with
    | nil =>
      cases h
      exact .nil
    | cons offset offsets =>
      cases h with
      | @cons _ operation _ operations hhead htail =>
        by_cases hsynthetic : call.synthetic = true
        · rw [keptPairs_cons_of_skips (by rw [skips_skipping_true, hsynthetic]),
            sourceOperations_cons_of_synthetic hsynthetic]
          exact ih htail
        · have hsource : call.synthetic = false := eq_false_of_ne_true hsynthetic
          rw [keptPairs_cons_of_not_skips (by rw [skips_skipping_true, hsource]),
            sourceOperations_cons_of_source hsource]
          exact .cons hhead (ih htail)

/-! ## The two results -/

theorem align_skipping_of_ok {alignment : Alignment}
    (h : (request.skipping false).align = .ok alignment) :
    alignment.operations.size = request.calls.length ∧
      (request.skipping true).align =
        .ok ⟨(sourceOperations request.calls alignment.operations.toList).toArray⟩ := by
  have hverdict := verdict_align (request.skipping false)
  rw [h] at hverdict
  cases hverdict with
  | @aligned fits operations free all made =>
    rw [keptPairs_skipping_false, operationOf_skipping] at made
    constructor
    · -- Without a blocked call there are as many instructions as calls.
      have hlength : (request.skipping false).calls.length ≤
          (request.skipping false).callOffsets.length :=
        le_length_callOffsets (Nat.le_refl _) fun j _ => free j
      have hsame : request.callOffsets.length = request.calls.length := Nat.le_antisymm all hlength
      have hcount : (request.calls.zip request.callOffsets).length = operations.length :=
        made.length_eq
      rw [List.length_zip, hsame, Nat.min_self] at hcount
      simpa using hcount.symm
    · apply Verdict.align_eq
      exact @Verdict.aligned (request.skipping true) fits _
        (fun i => mt blocked_of_skipping (free i)) all (forall₂_sourceOperations made)

/-- A call without a description that ends an alignment is the one it is stopped by. -/
theorem exists_stoppedBy {node : NodeId} {reason : Unresolved}
    (h : request.align = .error (.undescribed node reason)) :
    ∃ i call, request.StoppedBy i call ∧ call.id = node ∧
      call.site request.resolver = .error reason := by
  have hverdict := verdict_align request
  rw [h] at hverdict
  cases hverdict with
  | @undescribed fits i call reason here least reached kept fails =>
    exact ⟨i, call, stoppedBy_of_site_eq_error here least kept fails, rfl, fails⟩

/-- A failure with synthetic calls kept is one with them skipped, unless the call it is stopped by
is synthetic and has an instruction but no description. -/
theorem align_skipping_of_error {failure : Alignment.Failure}
    (h : (request.skipping false).align = .error failure) :
    (request.skipping true).align = .error failure ∨
      ∃ i call reason, (request.skipping false).StoppedBy i call ∧ call.synthetic = true ∧
        failure = .undescribed call.id reason := by
  have hverdict := verdict_align (request.skipping false)
  rw [h] at hverdict
  cases hverdict with
  | unfit before r after split fit exceeds =>
    left
    apply Verdict.align_eq
    exact .unfit before r after split fit exceeds
  | exhausted fits here least short =>
    left
    apply Verdict.align_eq
    exact @Verdict.exhausted (request.skipping true) fits _ _ here
      (fun j hj => mt blocked_of_skipping (least j hj)) short
  | leftover fits free here =>
    left
    apply Verdict.align_eq
    exact @Verdict.leftover (request.skipping true) fits _
      (fun i => mt blocked_of_skipping (free i)) here
  | @undescribed fits i call reason here least reached kept fails =>
    by_cases hsynthetic : call.synthetic = true
    · right
      exact ⟨i, call, reason, stoppedBy_of_site_eq_error here least kept fails, hsynthetic, rfl⟩
    · left
      have hsource : (request.skipping true).skips call = false := by
        rw [skips_skipping_true, eq_false_of_ne_true hsynthetic]
      apply Verdict.align_eq
      exact @Verdict.undescribed (request.skipping true) fits _ _ _ here
        (fun j hj => mt blocked_of_skipping (least j hj)) reached hsource fails

/-- **Skipping and keeping.** If a request aligns with synthetic calls kept, every call has an
operation there, and skipping leaves exactly those of the other calls. If it fails otherwise than
by a call without a description, skipping fails the same way. If it fails by such a call, skipping
fails the same way unless the call is synthetic; so where only skipping succeeds, keeping is
stopped by a synthetic call without a description. -/
theorem skipping_relates_to_keeping (request : Request) :
    let kept := request.skipping false
    let skipped := request.skipping true
    (∀ alignment : Alignment, kept.align = .ok alignment →
      alignment.operations.size = request.calls.length ∧
      skipped.align =
        .ok ⟨(sourceOperations request.calls alignment.operations.toList).toArray⟩) ∧
    (∀ failure, kept.align = .error failure →
      (∀ node reason, failure ≠ .undescribed node reason) → skipped.align = .error failure) ∧
    (∀ node reason, kept.align = .error (.undescribed node reason) →
      ∃ i call, kept.StoppedBy i call ∧ call.id = node ∧
        call.site request.resolver = .error reason ∧
        (call.synthetic = false → skipped.align = .error (.undescribed node reason))) ∧
    (∀ alignment : Alignment, skipped.align = .ok alignment →
      (∃ all, kept.align = .ok all) ∨
      ∃ i call reason, kept.StoppedBy i call ∧ call.synthetic = true ∧
        kept.align = .error (.undescribed call.id reason)) := by
  intro kept skipped
  refine ⟨fun alignment => align_skipping_of_ok, ?_, ?_, ?_⟩
  · intro failure h hother
    rcases align_skipping_of_error h with hsame | ⟨i, call, reason, -, -, hfailure⟩
    · exact hsame
    · exact absurd hfailure (hother call.id reason)
  · intro node reason h
    obtain ⟨i, call, hstop, hid, hsite⟩ := exists_stoppedBy h
    refine ⟨i, call, hstop, hid, hsite, fun hsource => ?_⟩
    rcases align_skipping_of_error h with hsame | ⟨j, other, _, hother, hsynthetic, -⟩
    · exact hsame
    · rw [hstop.call_eq hother, hsynthetic] at hsource
      cases hsource
  · intro alignment h
    cases hkept : kept.align with
    | ok all => exact .inl ⟨all, rfl⟩
    | error failure =>
      right
      rcases align_skipping_of_error hkept with hsame | ⟨i, call, reason, hstop, hsynthetic, rfl⟩
      · have hboth := hsame.symm.trans h
        cases hboth
      · exact ⟨i, call, reason, hstop, hsynthetic, rfl⟩

/-- A synthetic construction of an object of unknown class, in front of a call in the source. -/
def unknownConstruction : Request where
  nodes :=
    [.call ⟨⟨1⟩, { start := 0, stop := 3 }, .constructor ⟨⟨2⟩, { start := 0, stop := 3 }⟩, true⟩,
     .call ⟨⟨3⟩, { start := 0, stop := 3 }, .identifier ⟨4⟩ "a" { start := 0, stop := 1 }, false⟩]
  ranges := ⟨[⟨0, 6⟩], by decide, by decide⟩
  code := ⟨#[183, 0, 0, 184, 0, 0], by decide⟩
  resolver := ⟨fun _ => .unknown, fun _ => some ⟨"A"⟩⟩
  lineIndex := .ofBytes [97, 40, 41]

/-- The operation of the call in the source of `unknownConstruction`. -/
def sourceCallOperation : Operation where
  node := ⟨3⟩
  startPosition := ⟨0, 1, 1⟩
  endPosition := ⟨3, 1, 4⟩
  methodStartPosition := ⟨0, 1, 1⟩
  methodEndPosition := ⟨1, 1, 2⟩
  methodName := "a"
  declaringType := ⟨"A"⟩
  bytecodeOffset := 3

theorem skipping_unknownConstruction :
    (unknownConstruction.skipping true).align = .ok ⟨#[sourceCallOperation]⟩ ∧
    ∃ i call reason, (unknownConstruction.skipping false).StoppedBy i call ∧
      call.synthetic = true ∧
      (unknownConstruction.skipping false).align = .error (.undescribed call.id reason) := by
  have hskipped : (unknownConstruction.skipping true).align = .ok ⟨#[sourceCallOperation]⟩ := by
    cbv
  have hkept : (unknownConstruction.skipping false).align =
      .error (.undescribed ⟨1⟩ (.unknownType ⟨2⟩)) := by
    cbv
  refine ⟨hskipped, ?_⟩
  rcases (skipping_relates_to_keeping unknownConstruction).2.2.2 _ hskipped with ⟨all, hall⟩ | hstop
  · cases hkept.symm.trans hall
  · exact hstop

end Request

end CallAlign

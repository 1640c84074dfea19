import CallAlign.Proofs.Alignment.Pairing

/-!
# The instructions that a run claims

A run claims an instruction for each call that it matches or skips, in the order of the calls,
until it succeeds or fails. The claims are read off its events.

**Theorem (`claims_increase`).** Whatever the outcome of a run, the offsets it claims strictly
increase, each is that of a call opcode inside the code and inside exactly one range, and an
instruction left over lies behind them all. The operations of an alignment therefore come in
strictly increasing order of their offsets.

The position of the cursor is of no help here: it falls back when a call runs past the end of its
range and the next range starts before the end of the call. But the claims are a beginning of the
list of calls of the ranges (`Matching.claimedOffsets_isPrefix`), and that list increases because
the ranges are in order.
-/

namespace CallAlign

/-! ## Claims in a log -/

/-- The node and offset of an event by which a call takes an instruction, matched or skipped. -/
def Event.claim? : Event → Option (NodeId × Nat)
  | .claimed node offset => some (node, offset)
  | .matched node offset _ _ => some (node, offset)
  | .moved _ | .exhausted _ | .undescribed _ _ | .leftover _ => none

namespace Run

/-- The claims of a run: calls with the offsets of the instructions they take. -/
def claims {α : Type} (run : Run α) : List (NodeId × Nat) := run.events.filterMap Event.claim?

/-- The offsets that a run claims. -/
def claimedOffsets {α : Type} (run : Run α) : List Nat := run.claims.map Prod.snd

theorem filterMap_claim?_moved (moves : List Move) :
    (moves.map Event.moved).filterMap Event.claim? = [] := by
  simp [List.filterMap_eq_nil_iff, Event.claim?]

@[simp] theorem claims_map {α β : Type} (f : α → β) (run : Run α) :
    (run.map f).claims = run.claims := rfl

/-- Entering ranges claims nothing. -/
theorem claims_moves_append {α : Type} (result : Except Alignment.Failure α) (moves : List Move)
    (events : List Event) :
    (⟨result, moves.map .moved ++ events⟩ : Run α).claims = events.filterMap Event.claim? := by
  simp only [claims, List.filterMap_append, filterMap_claim?_moved, List.nil_append]

theorem claims_after_moves {α : Type} (moves : List Move) (event : Event) (run : Run α) :
    (run.after (moves.map .moved ++ [event])).claims = event.claim?.toList ++ run.claims := by
  rw [after, List.append_assoc, claims_moves_append]
  cases h : event.claim? <;> simp [h, claims]

end Run

/-! ## The claims of a run -/

namespace Request

/-- Whether a call that has an instruction can take it: it is skipped or can be described. -/
def settles (request : Request) (call : Call) : Bool :=
  request.skips call || (call.site request.resolver).isOk

/-- The calls with the offsets at their index, up to the first call that cannot take its own. -/
def settledPairs (request : Request) (calls : List Call) (offsets : List Nat) :
    List (Call × Nat) :=
  (calls.zip offsets).takeWhile fun pair => request.settles pair.1

variable {request : Request}

theorem settledPairs_cons_of_settles {call : Call} (h : request.settles call = true)
    (offset : Nat) (calls : List Call) (offsets : List Nat) :
    request.settledPairs (call :: calls) (offset :: offsets) =
      (call, offset) :: request.settledPairs calls offsets := by
  simp [settledPairs, h]

/-- A run claims what its calls can take, call by call. -/
theorem Matching.claims {offsets : List Nat} {calls : List Call} {run : Run (List Operation)}
    (h : request.Matching offsets calls run) :
    run.claims = (request.settledPairs calls offsets).map fun pair => (pair.1.id, pair.2) := by
  induction h with
  | finished moves => exact Run.filterMap_claim?_moved moves
  | leftover moves offset offsets =>
    rw [Run.claims_moves_append]
    simp [Event.claim?, settledPairs]
  | exhausted moves call rest =>
    rw [Run.claims_moves_append]
    simp [Event.claim?, settledPairs]
  | @undescribed moves offset offsets call rest reason kept fails =>
    have hsettles : request.settles call = false := by
      simp [settles, kept, fails, Except.isOk, Except.toBool]
    rw [Run.claims_moves_append]
    simp [Event.claim?, settledPairs, hsettles]
  | skipped moves skips _ ih =>
    rw [Run.claims_after_moves, ih, settledPairs_cons_of_settles (by simp [settles, skips])]
    rfl
  | matched moves kept described _ ih =>
    rw [Run.claims_after_moves, Run.claims_map, ih,
      settledPairs_cons_of_settles (by simp [settles, described, Except.isOk, Except.toBool])]
    rfl

/-- The claimed offsets are a beginning of those still to come. -/
theorem Matching.claimedOffsets_isPrefix {offsets : List Nat} {calls : List Call}
    {run : Run (List Operation)} (h : request.Matching offsets calls run) :
    run.claimedOffsets <+: offsets := by
  have hzip : (calls.zip offsets).map Prod.snd <+: offsets := by
    rw [List.zip_eq_zip_take_min, List.map_snd_zip (by simp)]
    exact List.take_prefix _ _
  rw [Run.claimedOffsets, h.claims, List.map_map]
  exact ((List.takeWhile_prefix _).map _).trans hzip

/-- An instruction left over comes right behind the claimed ones. -/
theorem Matching.leftover_isPrefix {offsets : List Nat} {calls : List Call}
    {run : Run (List Operation)} (h : request.Matching offsets calls run) {offset : Nat}
    (hresult : run.result = .error (.leftover offset)) :
    run.claimedOffsets ++ [offset] <+: offsets := by
  induction h with
  | finished => cases hresult
  | leftover moves offset offsets =>
    cases hresult
    rw [Run.claimedOffsets, Run.claims_moves_append]
    show [offset] <+: offset :: offsets
    exact ⟨offsets, rfl⟩
  | exhausted => cases hresult
  | undescribed => cases hresult
  | skipped moves skips _ ih =>
    rw [Run.claimedOffsets, Run.claims_after_moves]
    exact (List.prefix_cons_inj _).2 (ih hresult)
  | matched moves _ _ _ ih =>
    rw [Run.claimedOffsets, Run.claims_after_moves, Run.claims_map]
    exact (List.prefix_cons_inj _).2 (ih (Run.result_of_map_eq_error hresult))

/-- The operations of a run that succeeds stand at claimed offsets, in the order of the claims. -/
theorem Matching.bytecodeOffsets_sublist {offsets : List Nat} {calls : List Call}
    {run : Run (List Operation)} (h : request.Matching offsets calls run)
    {operations : List Operation} (hresult : run.result = .ok operations) :
    (operations.map Operation.bytecodeOffset).Sublist run.claimedOffsets := by
  induction h generalizing operations with
  | finished =>
    cases hresult
    exact List.nil_sublist _
  | leftover => cases hresult
  | exhausted => cases hresult
  | undescribed => cases hresult
  | skipped moves skips _ ih =>
    rw [Run.claimedOffsets, Run.claims_after_moves]
    exact (ih hresult).cons _
  | matched moves _ _ _ ih =>
    obtain ⟨later, hlater, rfl⟩ := Run.result_of_map_eq_ok hresult
    rw [Run.claimedOffsets, Run.claims_after_moves, Run.claims_map]
    exact (ih hlater).cons_cons _

/-! ## Whole runs -/

theorem run_claims_of_fits (fits : request.Fits) :
    request.run.claims = (request.settledPairs request.calls request.callOffsets).map
      fun pair => (pair.1.id, pair.2) := by
  rw [run_of_fits fits, Run.claims_map, (matching_start request).claims]

theorem run_claimedOffsets_isPrefix (request : Request) :
    request.run.claimedOffsets <+: request.callOffsets := by
  by_cases fits : request.Fits
  · rw [run_of_fits fits]
    exact (matching_start request).claimedOffsets_isPrefix
  · obtain ⟨fault, hrun⟩ := run_of_not_fits fits
    rw [hrun]
    exact List.nil_prefix

theorem leftover_isPrefix_of_align {offset : Nat}
    (h : request.align = .error (.leftover offset)) :
    request.run.claimedOffsets ++ [offset] <+: request.callOffsets := by
  by_cases fits : request.Fits
  · rw [align, run_of_fits fits] at h
    rw [run_of_fits fits]
    exact (matching_start request).leftover_isPrefix (Run.result_of_map_eq_error h)
  · obtain ⟨fault, hrun⟩ := run_of_not_fits fits
    rw [align, hrun] at h
    cases h

end Request

namespace Alignment

/-- The offsets of the operations, in their order. -/
def bytecodeOffsets (a : Alignment) : List Nat :=
  a.operations.toList.map Operation.bytecodeOffset

/-- Whether each operation comes before its right neighbour in the code. -/
def neighboursIncrease (a : Alignment) : Bool :=
  (a.operations.toList.zip a.operations.toList.tail).all fun pair =>
    pair.1.bytecodeOffset < pair.2.bytecodeOffset

theorem neighboursIncrease_of_pairwise {a : Alignment}
    (h : a.bytecodeOffsets.Pairwise (· < ·)) : a.neighboursIncrease = true := by
  rw [bytecodeOffsets, List.pairwise_map] at h
  rw [neighboursIncrease, List.all_eq_true]
  intro pair hpair
  obtain ⟨i, hi, rfl⟩ := List.mem_iff_getElem.1 hpair
  simp only [List.length_zip, List.length_tail] at hi
  simp only [List.getElem_zip, List.getElem_tail, decide_eq_true_eq]
  exact List.pairwise_iff_getElem.1 h i (i + 1) (by omega) (by omega) (by omega)

end Alignment

namespace Request

variable {request : Request}

theorem bytecodeOffsets_sublist_of_align {alignment : Alignment}
    (h : request.align = .ok alignment) :
    alignment.bytecodeOffsets.Sublist request.run.claimedOffsets := by
  by_cases fits : request.Fits
  · rw [align, run_of_fits fits] at h
    rw [run_of_fits fits]
    obtain ⟨operations, hresult, rfl⟩ := Run.result_of_map_eq_ok h
    exact (matching_start request).bytecodeOffsets_sublist hresult
  · obtain ⟨fault, hrun⟩ := run_of_not_fits fits
    rw [align, hrun] at h
    cases h

theorem callOffsets_increasing (request : Request) : request.callOffsets.Pairwise (· < ·) :=
  request.code.callsInAll_increasing request.ranges.ordered

theorem claimedOffsets_increasing (request : Request) :
    request.run.claimedOffsets.Pairwise (· < ·) :=
  request.callOffsets_increasing.sublist (run_claimedOffsets_isPrefix request).sublist

theorem bytecodeOffsets_increasing {alignment : Alignment} (h : request.align = .ok alignment) :
    alignment.bytecodeOffsets.Pairwise (· < ·) :=
  request.claimedOffsets_increasing.sublist (bytecodeOffsets_sublist_of_align h)

/-- **Claims increase.** A run claims instructions for its calls in order, up to the first that
cannot take its own. The claimed offsets strictly increase; each is that of a call opcode in the
code and lies in exactly one range of the list, one that is not empty; an instruction left over
lies behind all of them. So the offsets of an alignment strictly increase, and neighbour by
neighbour. -/
theorem claims_increase (request : Request) :
    (request.Fits → request.run.claims =
      (request.settledPairs request.calls request.callOffsets).map
        fun pair => (pair.1.id, pair.2)) ∧
    request.run.claimedOffsets.Pairwise (· < ·) ∧
    (∀ offset ∈ request.run.claimedOffsets,
      offset < request.code.size ∧
      (∃ op : Opcode, request.code.byte? offset = some op ∧ 182 ≤ op.toNat ∧ op.toNat ≤ 185) ∧
      ∃! i : Nat, ∃ r, request.ranges.toList[i]? = some r ∧ r.isEmpty = false ∧
        r.contains offset = true) ∧
    (∀ offset, request.align = .error (.leftover offset) →
      ∀ claimed ∈ request.run.claimedOffsets, claimed < offset) ∧
    (∀ alignment, request.align = .ok alignment →
      alignment.bytecodeOffsets.Pairwise (· < ·) ∧ alignment.neighboursIncrease = true) := by
  refine ⟨run_claims_of_fits, claimedOffsets_increasing request, ?_, ?_, ?_⟩
  · intro offset hoffset
    have hcall : offset ∈ request.callOffsets :=
      (run_claimedOffsets_isPrefix request).subset hoffset
    obtain ⟨r, _, hr⟩ := Code.mem_callsInAll hcall
    obtain ⟨_, op, hbyte, hop⟩ := Code.mem_callsIn hr
    refine ⟨Code.lt_size_of_byte? hbyte, ⟨op, hbyte, ?_⟩, ?_⟩
    · simpa [Opcode.isCall] using hop
    · exact request.ranges.existsUnique_index hcall
  · intro offset h claimed hmem
    have hpairwise :=
      request.callOffsets_increasing.sublist (leftover_isPrefix_of_align h).sublist
    exact (List.pairwise_append.1 hpairwise).2.2 claimed hmem offset (by simp)
  · intro alignment h
    have hincrease := bytecodeOffsets_increasing h
    exact ⟨hincrease, Alignment.neighboursIncrease_of_pairwise hincrease⟩

end Request

end CallAlign

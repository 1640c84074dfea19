import Mathlib.Data.List.Forall2
import Mathlib.Order.Nat
import CallAlign.Proofs.Alignment.Pairing

/-!
# What an alignment must come to

The outcome of a request, told by positions in two lists: its calls, and the call offsets of its
ranges. `Verdict` has one rule for each kind of outcome, and none of them speaks of a cursor or of
an order of events.

**Theorem (`align_eq_iff_verdict`).** The alignment of a request is the one result that the rules
allow.

For each rule the lists are cut at the index it speaks of. In front of the cut every call has an
offset and contributes, so the pairing of the front parts succeeds, and the element at the cut
decides (`pairWith_append`). That some rule always applies is the least number principle for
`Blocked`.
-/

namespace CallAlign

namespace Request

/-! ## The rules -/

/-- The call at index `i` stands in the way of an alignment: no instruction is left for it, or it
is not skipped and cannot be described. -/
def Blocked (request : Request) (i : Nat) : Prop :=
  ∃ call, request.calls[i]? = some call ∧
    (request.callOffsets.length ≤ i ∨
      request.skips call = false ∧ ∃ reason, call.site request.resolver = .error reason)

/-- `operation` is that of a described call, in its source positions, with the offset of its
instruction. -/
def OperationOf (request : Request) (pair : Call × Nat) (operation : Operation) : Prop :=
  ∃ site, pair.1.site request.resolver = .ok site ∧ operation =
    { node := pair.1.id
      startPosition := request.lineIndex.position pair.1.span.start request.settings.base
      endPosition := request.lineIndex.position pair.1.span.stop request.settings.base
      methodStartPosition :=
        request.lineIndex.position site.methodSpan.start request.settings.base
      methodEndPosition := request.lineIndex.position site.methodSpan.stop request.settings.base
      methodName := site.methodName
      declaringType := site.declaringType
      bytecodeOffset := pair.2 }

/-- The calls that are not skipped, each with the call offset at its index. -/
def keptPairs (request : Request) (calls : List Call) (offsets : List Nat) :
    List (Call × Nat) :=
  (calls.zip offsets).filter fun pair => !request.skips pair.1

/-- The outcomes that a request allows. -/
inductive Verdict (request : Request) : Except Alignment.Failure Alignment → Prop
  /-- The first range that ends past the code. -/
  | unfit (before : List CodeRange) (r : CodeRange) (after : List CodeRange)
      (split : request.ranges.toList = before ++ r :: after)
      (fit : ∀ s ∈ before, s.stop ≤ request.code.size) (exceeds : request.code.size < r.stop) :
      Verdict request (.error (.unfitRanges (.outOfBounds r request.code.size)))
  /-- The first blocked call has no instruction. -/
  | exhausted (fits : request.Fits) {i : Nat} {call : Call}
      (here : request.calls[i]? = some call) (least : ∀ j < i, ¬ request.Blocked j)
      (short : request.callOffsets.length ≤ i) :
      Verdict request (.error (.exhausted call.id))
  /-- The first blocked call has an instruction but no description. -/
  | undescribed (fits : request.Fits) {i : Nat} {call : Call} {reason : Unresolved}
      (here : request.calls[i]? = some call) (least : ∀ j < i, ¬ request.Blocked j)
      (reached : i < request.callOffsets.length) (kept : request.skips call = false)
      (fails : call.site request.resolver = .error reason) :
      Verdict request (.error (.undescribed call.id reason))
  /-- No call is blocked and there are more instructions than calls. -/
  | leftover (fits : request.Fits) {offset : Nat} (free : ∀ i, ¬ request.Blocked i)
      (here : request.callOffsets[request.calls.length]? = some offset) :
      Verdict request (.error (.leftover offset))
  /-- No call is blocked and no instruction is left: one operation for each call that is kept. -/
  | aligned (fits : request.Fits) {operations : List Operation}
      (free : ∀ i, ¬ request.Blocked i)
      (all : request.callOffsets.length ≤ request.calls.length)
      (made : List.Forall₂ request.OperationOf
        (request.keptPairs request.calls request.callOffsets) operations) :
      Verdict request (.ok ⟨operations.toArray⟩)

/-! ## In front of the first blocked call -/

variable {request : Request}

/-- A call that is not blocked has an instruction and contributes. -/
theorem contributes_of_not_blocked {i : Nat} {call : Call}
    (hcall : request.calls[i]? = some call) (h : ¬ request.Blocked i) :
    i < request.callOffsets.length ∧
      ∀ offset, ∃ operation?, request.contribution call offset = .ok operation? := by
  refine ⟨Nat.lt_of_not_le fun hle => h ⟨call, hcall, .inl hle⟩, fun offset => ?_⟩
  by_cases hskip : request.skips call = true
  · exact ⟨none, contribution_of_skips hskip offset⟩
  · have hkeep : request.skips call = false := eq_false_of_ne_true hskip
    cases hsite : call.site request.resolver with
    | error reason => exact absurd ⟨call, hcall, .inr ⟨hkeep, reason, hsite⟩⟩ h
    | ok site => exact ⟨_, contribution_of_site_eq_ok hkeep hsite offset⟩

/-- As long as no call is blocked, the instructions keep up with the calls. -/
theorem le_length_callOffsets {i : Nat} (hi : i ≤ request.calls.length)
    (least : ∀ j < i, ¬ request.Blocked j) : i ≤ request.callOffsets.length := by
  cases i with
  | zero => exact Nat.zero_le _
  | succ j =>
    have hcall := List.getElem?_eq_getElem (Nat.lt_of_succ_le hi)
    exact (contributes_of_not_blocked hcall (least j (Nat.lt_succ_self j))).1

/-- In front of the first blocked call the pairing succeeds. -/
theorem exists_pairWith_take {i : Nat} (hi : i ≤ request.calls.length)
    (least : ∀ j < i, ¬ request.Blocked j) :
    ∃ operations, pairWith request.contribution (request.calls.take i)
      (request.callOffsets.take i) = .ok operations := by
  have hle := le_length_callOffsets hi least
  apply exists_pairWith_eq_ok
  · simp [Nat.min_eq_left hi, Nat.min_eq_left hle]
  · intro pair hpair
    obtain ⟨j, hj, rfl⟩ := List.mem_iff_getElem.1 hpair
    have hji : j < i := by
      simp only [List.length_zip, List.length_take] at hj
      omega
    have hcall := List.getElem?_eq_getElem (Nat.lt_of_lt_of_le hji hi)
    simp only [List.getElem_zip, List.getElem_take]
    exact (contributes_of_not_blocked hcall (least j hji)).2 _

/-- The outcome of a pairing is decided from the first blocked call on. -/
theorem exists_pairWith_cut {i : Nat} (hi : i ≤ request.calls.length)
    (least : ∀ j < i, ¬ request.Blocked j) :
    ∃ operations, pairWith request.contribution request.calls request.callOffsets =
      (pairWith request.contribution (request.calls.drop i) (request.callOffsets.drop i)).map
        (operations ++ ·) := by
  obtain ⟨operations, hfront⟩ := exists_pairWith_take hi least
  refine ⟨operations, ?_⟩
  rw [← pairWith_append hfront, List.take_append_drop, List.take_append_drop]

/-! ## The operations of a success -/

theorem keptPairs_cons_of_skips {call : Call} (h : request.skips call = true) (offset : Nat)
    (calls : List Call) (offsets : List Nat) :
    request.keptPairs (call :: calls) (offset :: offsets) = request.keptPairs calls offsets := by
  simp [keptPairs, h]

theorem keptPairs_cons_of_not_skips {call : Call} (h : request.skips call = false) (offset : Nat)
    (calls : List Call) (offsets : List Nat) :
    request.keptPairs (call :: calls) (offset :: offsets) =
      (call, offset) :: request.keptPairs calls offsets := by
  simp [keptPairs, h]

/-- A pairing that succeeds makes one operation for each pair that is kept. -/
theorem forall₂_operationOf {calls : List Call} {offsets : List Nat}
    {operations : List Operation}
    (h : pairWith request.contribution calls offsets = .ok operations) :
    List.Forall₂ request.OperationOf (request.keptPairs calls offsets) operations := by
  induction calls generalizing offsets operations with
  | nil =>
    cases offsets with
    | nil =>
      cases h
      exact .nil
    | cons => cases h
  | cons call rest ih =>
    cases offsets with
    | nil => cases h
    | cons offset offsets =>
      obtain ⟨operation?, later, hhead, htail, rfl⟩ := pairWith_cons_eq_ok h
      by_cases hskip : request.skips call = true
      · rw [contribution_of_skips hskip] at hhead
        cases hhead
        rw [keptPairs_cons_of_skips hskip]
        exact ih htail
      · have hkeep : request.skips call = false := eq_false_of_ne_true hskip
        rw [keptPairs_cons_of_not_skips hkeep]
        cases hsite : call.site request.resolver with
        | error reason =>
          rw [contribution_of_site_eq_error hkeep hsite] at hhead
          cases hhead
        | ok site =>
          rw [contribution_of_site_eq_ok hkeep hsite] at hhead
          cases hhead
          exact .cons ⟨site, hsite, rfl⟩ (ih htail)

/-- A pair has at most one operation. -/
theorem operationOf_rightUnique (request : Request) :
    Relator.RightUnique request.OperationOf := by
  rintro pair a b ⟨site, hsite, rfl⟩ ⟨site', hsite', rfl⟩
  rw [hsite] at hsite'
  cases hsite'
  rfl

/-! ## The rules decide -/

/-- The fault of ranges that do not fit is that of the first one past the code. -/
theorem align_of_not_fits {before after : List CodeRange} {r : CodeRange}
    (split : request.ranges.toList = before ++ r :: after)
    (fit : ∀ s ∈ before, s.stop ≤ request.code.size) (exceeds : request.code.size < r.stop) :
    request.align = .error (.unfitRanges (.outOfBounds r request.code.size)) := by
  have hfind : request.ranges.toList.find? (fun r => request.code.size < r.stop) = some r := by
    rw [List.find?_eq_some_iff_append]
    refine ⟨by simpa using exceeds, before, after, split, fun s hs => ?_⟩
    simpa using fit s hs
  simp [align, run, RangeList.excess?, hfind]

/-- Without a blocked call the outcome hangs on the instructions behind the last call. -/
theorem exists_pairWith_of_free (free : ∀ i, ¬ request.Blocked i) :
    ∃ operations, pairWith request.contribution request.calls request.callOffsets =
      (pairWith request.contribution [] (request.callOffsets.drop request.calls.length)).map
        (operations ++ ·) := by
  have hcut := exists_pairWith_cut (Nat.le_refl _) fun j _ => free j
  rwa [List.drop_length] at hcut

/-- Without a blocked call and without an instruction left over the pairing succeeds. -/
theorem exists_pairWith_of_all (free : ∀ i, ¬ request.Blocked i)
    (all : request.callOffsets.length ≤ request.calls.length) :
    ∃ operations, pairWith request.contribution request.calls request.callOffsets =
      .ok operations := by
  obtain ⟨operations, hcut⟩ := exists_pairWith_of_free free
  rw [List.drop_of_length_le all] at hcut
  exact ⟨operations ++ [], hcut⟩

/-- What a rule allows is what the alignment comes to. -/
theorem Verdict.align_eq {result : Except Alignment.Failure Alignment}
    (h : request.Verdict result) : request.align = result := by
  cases h with
  | unfit before r after split fit exceeds => exact align_of_not_fits split fit exceeds
  | @exhausted fits i call here least short =>
    obtain ⟨hi, rfl⟩ := List.getElem?_eq_some_iff.1 here
    obtain ⟨operations, hcut⟩ := exists_pairWith_cut (Nat.le_of_lt hi) least
    rw [align_eq_pairWith fits, hcut, List.drop_eq_getElem_cons hi, List.drop_of_length_le short]
    rfl
  | @undescribed fits i call reason here least reached kept fails =>
    obtain ⟨hi, rfl⟩ := List.getElem?_eq_some_iff.1 here
    obtain ⟨operations, hcut⟩ := exists_pairWith_cut (Nat.le_of_lt hi) least
    rw [align_eq_pairWith fits, hcut, List.drop_eq_getElem_cons hi,
      List.drop_eq_getElem_cons reached,
      pairWith_cons_of_error (contribution_of_site_eq_error kept fails _)]
    rfl
  | leftover fits free here =>
    obtain ⟨hk, rfl⟩ := List.getElem?_eq_some_iff.1 here
    obtain ⟨operations, hcut⟩ := exists_pairWith_of_free free
    rw [align_eq_pairWith fits, hcut, List.drop_eq_getElem_cons hk]
    rfl
  | @aligned fits operations free all made =>
    obtain ⟨paired, hpaired⟩ := exists_pairWith_of_all free all
    have hsame : paired = operations :=
      List.right_unique_forall₂' (operationOf_rightUnique request)
        (forall₂_operationOf hpaired) made
    rw [align_eq_pairWith fits, hpaired, hsame]
    rfl

/-- Some rule always applies. -/
theorem exists_verdict (request : Request) : ∃ result, request.Verdict result := by
  by_cases fits : request.Fits
  · by_cases hblocked : ∃ i, request.Blocked i
    · classical
      -- The least blocked index decides between its two ways of being blocked.
      obtain ⟨call, here, hway⟩ := Nat.find_spec hblocked
      have least : ∀ j < Nat.find hblocked, ¬ request.Blocked j :=
        fun j hj => Nat.find_min hblocked hj
      by_cases short : request.callOffsets.length ≤ Nat.find hblocked
      · exact ⟨_, .exhausted fits here least short⟩
      · obtain ⟨kept, reason, fails⟩ := hway.resolve_left short
        exact ⟨_, .undescribed fits here least (Nat.lt_of_not_le short) kept fails⟩
    · have free : ∀ i, ¬ request.Blocked i := fun i hi => hblocked ⟨i, hi⟩
      by_cases all : request.callOffsets.length ≤ request.calls.length
      · obtain ⟨operations, hpaired⟩ := exists_pairWith_of_all free all
        exact ⟨_, .aligned fits free all (forall₂_operationOf hpaired)⟩
      · have hk := Nat.lt_of_not_le all
        exact ⟨_, .leftover fits free (List.getElem?_eq_getElem hk)⟩
  · cases hfind : request.ranges.toList.find? (fun r => request.code.size < r.stop) with
    | none => exact absurd (by simpa [Fits] using hfind) fits
    | some r =>
      obtain ⟨hr, before, after, split, hbefore⟩ := List.find?_eq_some_iff_append.1 hfind
      refine ⟨_, .unfit before r after split (fun s hs => ?_) (by simpa using hr)⟩
      simpa using hbefore s hs

/-- The alignment is an outcome that the rules allow. -/
theorem verdict_align (request : Request) : request.Verdict request.align := by
  obtain ⟨result, h⟩ := exists_verdict request
  rwa [h.align_eq]

/-- **Alignment by position.** A request is aligned with the one result that the rules allow. -/
theorem align_eq_iff_verdict (request : Request) (result : Except Alignment.Failure Alignment) :
    request.align = result ↔ request.Verdict result := by
  constructor
  · intro h
    obtain ⟨allowed, hallowed⟩ := exists_verdict request
    rwa [← h, hallowed.align_eq]
  · exact Verdict.align_eq

end Request

end CallAlign

import CallAlign.Proofs.Alignment.Pairing
import CallAlign.Proofs.Bytecode.RangeValidation

/-!
# Alignments compose

**Theorem (`align_append`).** Let the calls and ranges in front align. Then aligning them together
with the calls and ranges behind comes to what the part behind comes to on its own: its operations
are appended, or its failure is the failure of the whole.

In the joint run the cursor enters the ranges behind with a past. It may stand anywhere, even
inside them, because the last instruction in front can run over. But it restarts at the start of
the next range, so all that is left of its past is the list of calls still to come. There the
theorem is `pairWith_append`, and ranges that do not fit are the one case outside of it: then the
fault is searched in one list, and the front part holds none.
-/

namespace CallAlign

/-- In front of other ranges, those that fit hold no fault. -/
theorem RangeList.excess?_append {first second both : RangeList} {codeLength : Nat}
    (htoList : both.toList = first.toList ++ second.toList)
    (h : first.excess? codeLength = none) :
    both.excess? codeLength = second.excess? codeLength := by
  have hfirst : first.toList.find? (fun r => codeLength < r.stop) = none :=
    Option.map_eq_none_iff.1 h
  rw [excess?, htoList, List.find?_append, hfirst, Option.none_or, excess?]

namespace Request

theorem fits_of_align_eq_ok {request : Request} {alignment : Alignment}
    (h : request.align = .ok alignment) : request.Fits := by
  by_cases fits : request.Fits
  · exact fits
  · obtain ⟨fault, hrun⟩ := run_of_not_fits fits
    rw [align, hrun] at h
    cases h

theorem align_of_excess? {request : Request} {fault : RangeFault}
    (h : request.ranges.excess? request.code.size = some fault) :
    request.align = .error (.unfitRanges fault) := by
  rw [align, run, h]

section

variable {request : Request} {nodes laterNodes : List Node} {ranges first second both : RangeList}
  {alignment : Alignment}

/-- What a pair contributes is up to neither the nodes nor the ranges of a request. -/
theorem align_nodes_ranges (h : ranges.excess? request.code.size = none) :
    { request with nodes := nodes, ranges := ranges }.align =
      (pairWith request.contribution (nodes.filterMap Node.call?)
        (request.code.callsInAll ranges.toList)).map fun operations => ⟨operations.toArray⟩ :=
  align_eq_pairWith (excess?_eq_none_iff.1 h)

theorem pairWith_of_align_eq_ok
    (h : { request with nodes := nodes, ranges := ranges }.align = .ok alignment) :
    pairWith request.contribution (nodes.filterMap Node.call?)
      (request.code.callsInAll ranges.toList) = .ok alignment.operations.toList := by
  have hexcess : ranges.excess? request.code.size = none :=
    excess?_eq_none_iff.2 (fits_of_align_eq_ok h)
  rw [align_nodes_ranges hexcess] at h
  cases hpair : pairWith request.contribution (nodes.filterMap Node.call?)
      (request.code.callsInAll ranges.toList) with
  | error failure =>
    rw [hpair] at h
    cases h
  | ok operations =>
    rw [hpair] at h
    cases h
    rfl

/-- Behind an alignment, the alignment of the rest goes its own way. -/
theorem align_append_eq_map (htoList : both.toList = first.toList ++ second.toList)
    (h : { request with nodes := nodes, ranges := first }.align = .ok alignment) :
    { request with nodes := nodes ++ laterNodes, ranges := both }.align =
      { request with nodes := laterNodes, ranges := second }.align.map fun later : Alignment =>
        ⟨alignment.operations ++ later.operations⟩ := by
  have hexcess : both.excess? request.code.size = second.excess? request.code.size :=
    RangeList.excess?_append htoList (excess?_eq_none_iff.2 (fits_of_align_eq_ok h))
  -- Either both lists that end in the later ranges have the same fault, or both fit.
  cases hsecond : second.excess? request.code.size with
  | some fault =>
    rw [hsecond] at hexcess
    rw [align_of_excess? hexcess, align_of_excess? hsecond]
    rfl
  | none =>
    rw [hsecond] at hexcess
    rw [align_nodes_ranges hexcess, align_nodes_ranges hsecond, htoList, Code.callsInAll_append,
      List.filterMap_append, pairWith_append (pairWith_of_align_eq_ok h)]
    cases pairWith request.contribution (laterNodes.filterMap Node.call?)
        (request.code.callsInAll second.toList) with
    | error failure => rfl
    | ok operations => simp [Except.map]

end

/-- **Alignments compose.** Let some ranges, later ranges and all of them together be accepted as
range lists. When some nodes align over the first list, then aligning them and later nodes over all
ranges appends what the later nodes come to over the second list, or fails as they fail. -/
theorem align_append (request : Request) (nodes laterNodes : List Node)
    {ranges laterRanges : List CodeRange} {n m k : Nat} {first second both : RangeList}
    (hfirst : RangeList.validate ranges n = .ok first)
    (hsecond : RangeList.validate laterRanges m = .ok second)
    (hboth : RangeList.validate (ranges ++ laterRanges) k = .ok both) {alignment : Alignment}
    (h : { request with nodes := nodes, ranges := first }.align = .ok alignment) :
    (∀ later : Alignment,
      { request with nodes := laterNodes, ranges := second }.align = .ok later →
      { request with nodes := nodes ++ laterNodes, ranges := both }.align =
        .ok ⟨alignment.operations ++ later.operations⟩) ∧
    (∀ failure,
      { request with nodes := laterNodes, ranges := second }.align = .error failure →
      { request with nodes := nodes ++ laterNodes, ranges := both }.align = .error failure) := by
  have htoList : both.toList = first.toList ++ second.toList := by
    rw [RangeList.toList_of_validate hfirst, RangeList.toList_of_validate hsecond,
      RangeList.toList_of_validate hboth]
  rw [align_append_eq_map htoList h]
  constructor
  · intro later hlater
    rw [hlater]
    rfl
  · intro failure hfailure
    rw [hfailure]
    rfl

/-- The construction of an object of class `A`. -/
def construction (id : Nat) : Node :=
  .call ⟨⟨id⟩, { start := 0, stop := 7 }, .constructor ⟨⟨id⟩, { start := 4, stop := 5 }⟩, false⟩

/-- A call at offset 1 that runs over a range end at 2 and over the call at 3. -/
def spilling : Request where
  nodes := []
  ranges := .empty
  code := ⟨#[0, 182, 0, 184, 0, 0], by decide⟩
  resolver := ⟨fun _ => .declared ⟨"A"⟩, fun _ => none⟩
  lineIndex := .ofBytes [110, 101, 119, 32, 65, 40, 41]

/-- The operation of a construction whose instruction stands at `offset`. -/
def constructionAt (id offset : Nat) : Operation where
  node := ⟨id⟩
  startPosition := ⟨0, 1, 1⟩
  endPosition := ⟨7, 1, 8⟩
  methodStartPosition := ⟨4, 1, 5⟩
  methodEndPosition := ⟨5, 1, 6⟩
  methodName := "<init>"
  declaringType := ⟨"A"⟩
  bytecodeOffset := offset

/-- The two ranges of `spilling`, one by one and together. -/
def spillingFront : RangeList := ⟨[⟨0, 2⟩], by decide, by decide⟩

def spillingRest : RangeList := ⟨[⟨2, 6⟩], by decide, by decide⟩

def spillingBoth : RangeList := ⟨[⟨0, 2⟩, ⟨2, 6⟩], by decide, by decide⟩

theorem align_spilling_append :
    { spilling with
      nodes := [construction 1, construction 2], ranges := spillingBoth }.align =
        .ok ⟨#[constructionAt 1 1, constructionAt 2 3]⟩ ∧
    { spilling with
      nodes := [construction 1, construction 2, construction 3], ranges := spillingBoth }.align =
        .error (.exhausted ⟨3⟩) := by
  have hfirst : RangeList.validate [⟨0, 2⟩] 6 = .ok spillingFront := rfl
  have hsecond : RangeList.validate [⟨2, 6⟩] 6 = .ok spillingRest := rfl
  have hboth : RangeList.validate [⟨0, 2⟩, ⟨2, 6⟩] 6 = .ok spillingBoth := rfl
  have hfront : { spilling with nodes := [construction 1], ranges := spillingFront }.align =
      .ok ⟨#[constructionAt 1 1]⟩ := by cbv
  have hrest : { spilling with nodes := [construction 2], ranges := spillingRest }.align =
      .ok ⟨#[constructionAt 2 3]⟩ := by cbv
  have hshort : { spilling with
      nodes := [construction 2, construction 3], ranges := spillingRest }.align =
      .error (.exhausted ⟨3⟩) := by cbv
  exact ⟨(align_append spilling _ _ hfirst hsecond hboth hfront).1 _ hrest,
    (align_append spilling _ _ hfirst hsecond hboth hfront).2 _ hshort⟩

end Request

end CallAlign

import CallAlign.Proofs.Bytecode.CallOffsets

/-!
# Cutting a range in two

A walk restarts at the start of every range, so a range may be cut only where its own walk would
come by: at an instruction boundary (`Code.IsBoundary`). Cut there, its two parts have the
instructions of the whole, whatever the code (`IsBoundary.instructions_append`). The instruction in
front of the cut may be malformed: that it ends at the cut is all that counts. The last one of the
range may run past the end of it, with or without the cut.

The order of a range list does not see the cut either (`pairwise_cut_iff`).
-/

namespace CallAlign

namespace Code

/-- A place to cut `range`: at either end, or where one of its instructions starts. -/
def IsBoundary (code : Code) (range : CodeRange) (offset : Nat) : Prop :=
  offset = range.start ∨ offset = range.stop ∨
    ∃ i ∈ code.instructions range, i.offset = offset

/-- A walk can stop at any of its instructions and go on from there. -/
theorem walk_append_of_mem {code : Code} {position stop : Nat} {i : Instruction}
    (h : i ∈ code.walk position stop) :
    code.walk position i.offset ++ code.walk i.offset stop = code.walk position stop := by
  fun_induction walk code position stop with
  | case1 position hlt first hfirst ih =>
    rcases List.mem_cons.1 h with rfl | hlater
    · obtain ⟨op, hop, rfl⟩ := Option.map_eq_some_iff.1 hfirst
      rw [walk_of_le (Nat.le_refl _), List.nil_append]
      exact walk_of_decode?_eq_some hlt hfirst
    · -- The cut lies behind the first instruction, which both walks then list.
      have hpast : position < i.offset :=
        Nat.lt_of_lt_of_le (lt_stop_of_decode? hfirst) (mem_walk hlater).1
      rw [walk_of_decode?_eq_some hpast hfirst, List.cons_append, ih hlater]
  | case2 => cases h
  | case3 => cases h

namespace IsBoundary

variable {code : Code} {start offset stop : Nat}

theorem start_le (h : code.IsBoundary ⟨start, stop⟩ offset) (forward : start ≤ stop) :
    start ≤ offset := by
  rcases h with rfl | rfl | ⟨i, hi, rfl⟩
  · exact Nat.le_refl _
  · exact forward
  · exact (mem_walk hi).1

theorem le_stop (h : code.IsBoundary ⟨start, stop⟩ offset) (forward : start ≤ stop) :
    offset ≤ stop := by
  rcases h with rfl | rfl | ⟨i, hi, rfl⟩
  · exact forward
  · exact Nat.le_refl _
  · exact Nat.le_of_lt (mem_walk hi).2.1

/-- **Cutting at a boundary** leaves the instructions as they are. -/
theorem instructions_append (h : code.IsBoundary ⟨start, stop⟩ offset) :
    code.instructions ⟨start, offset⟩ ++ code.instructions ⟨offset, stop⟩ =
      code.instructions ⟨start, stop⟩ := by
  simp only [instructions]
  rcases h with rfl | rfl | ⟨i, hi, rfl⟩
  · simp only [walk_of_le (Nat.le_refl _), List.nil_append]
  · simp only [walk_of_le (Nat.le_refl _), List.append_nil]
  · exact walk_append_of_mem hi

theorem callsIn_append (h : code.IsBoundary ⟨start, stop⟩ offset) :
    code.callsIn ⟨start, offset⟩ ++ code.callsIn ⟨offset, stop⟩ = code.callsIn ⟨start, stop⟩ := by
  simp only [callsIn]
  rw [← List.map_append, ← List.filter_append, h.instructions_append]

theorem callsInAll_cut (h : code.IsBoundary ⟨start, stop⟩ offset)
    (before after : List CodeRange) :
    code.callsInAll (before ++ ⟨start, offset⟩ :: ⟨offset, stop⟩ :: after) =
      code.callsInAll (before ++ ⟨start, stop⟩ :: after) := by
  rw [callsInAll_append, callsInAll_append, callsInAll_cons, callsInAll_cons, callsInAll_cons,
    ← List.append_assoc (code.callsIn _), h.callsIn_append]

end IsBoundary

/-- An empty range holds no call, wherever it stands. -/
theorem callsInAll_insert_empty (code : Code) (offset : Nat) (before after : List CodeRange) :
    code.callsInAll (before ++ ⟨offset, offset⟩ :: after) =
      code.callsInAll (before ++ after) := by
  rw [callsInAll_append, callsInAll_append, callsInAll_cons, callsIn_of_le (Nat.le_refl _),
    List.nil_append]

end Code

/-! ## The order of the ranges -/

/-- Two ranges that meet stand in a list as the one range they make up does. -/
theorem pairwise_cut_iff {start offset stop : Nat} (hstart : start ≤ offset)
    (hstop : offset ≤ stop) (before after : List CodeRange) :
    (before ++ ⟨start, offset⟩ :: ⟨offset, stop⟩ :: after).Pairwise
        (fun r s => r.stop ≤ s.start) ↔
      (before ++ ⟨start, stop⟩ :: after).Pairwise fun r s => r.stop ≤ s.start := by
  simp only [List.pairwise_append, List.pairwise_cons, List.mem_cons, forall_eq_or_imp]
  constructor
  · rintro ⟨hbefore, ⟨-, hlater, hafter⟩, hcross⟩
    refine ⟨hbefore, ⟨hlater, hafter⟩, fun r hr => ?_⟩
    obtain ⟨hr, -, hrest⟩ := hcross r hr
    exact ⟨hr, hrest⟩
  · rintro ⟨hbefore, ⟨hlater, hafter⟩, hcross⟩
    have hfirst : ∀ s ∈ after, offset ≤ s.start := fun s hs => Nat.le_trans hstop (hlater s hs)
    refine ⟨hbefore, ⟨⟨Nat.le_refl _, hfirst⟩, hlater, hafter⟩, fun r hr => ?_⟩
    obtain ⟨hr, hrest⟩ := hcross r hr
    exact ⟨hr, Nat.le_trans hr hstart, hrest⟩

namespace RangeList

theorem exists_cut {ranges : RangeList} {before after : List CodeRange} {start offset stop : Nat}
    (h : ranges.toList = before ++ ⟨start, stop⟩ :: after) (hstart : start ≤ offset)
    (hstop : offset ≤ stop) :
    ∃ cut : RangeList, cut.toList = before ++ ⟨start, offset⟩ :: ⟨offset, stop⟩ :: after := by
  refine ⟨⟨_, fun r hr => ?_, (pairwise_cut_iff hstart hstop before after).2 (h ▸ ranges.ordered)⟩,
    rfl⟩
  simp only [List.mem_append, List.mem_cons] at hr
  rcases hr with hr | rfl | rfl | hr
  · exact ranges.forward r (by simp [h, hr])
  · exact hstart
  · exact hstop
  · exact ranges.forward r (by simp [h, hr])

theorem exists_joined {ranges : RangeList} {before after : List CodeRange}
    {start offset stop : Nat}
    (h : ranges.toList = before ++ ⟨start, offset⟩ :: ⟨offset, stop⟩ :: after) :
    ∃ joined : RangeList, joined.toList = before ++ ⟨start, stop⟩ :: after := by
  have hstart : start ≤ offset := ranges.forward ⟨start, offset⟩ (by simp [h])
  have hstop : offset ≤ stop := ranges.forward ⟨offset, stop⟩ (by simp [h])
  refine ⟨⟨_, fun r hr => ?_, (pairwise_cut_iff hstart hstop before after).1 (h ▸ ranges.ordered)⟩,
    rfl⟩
  simp only [List.mem_append, List.mem_cons] at hr
  rcases hr with hr | rfl | hr
  · exact ranges.forward r (by simp [h, hr])
  · exact Nat.le_trans hstart hstop
  · exact ranges.forward r (by simp [h, hr])

end RangeList

end CallAlign

/-!
# Bisection

Search for the place where a property of the numbers stops to hold, by halving. The numbers that
have the property are those before the ones that do not, so the place is where a sorted table
splits: it is the number of entries that have the property (`bisect_eq_countP`).
-/

namespace CallAlign

/-- The first number from `lo` up to `hi` that fails `p`, or `hi` if none does. -/
def bisect (p : Nat → Bool) (lo hi : Nat) : Nat :=
  if lo < hi then
    let mid := (lo + hi) / 2
    if p mid then bisect p (mid + 1) hi else bisect p lo mid
  else lo
termination_by hi - lo

example : bisect (· * 7 < 50) 0 100 = 8 := by decide +kernel

/-- Bisection finds the place where `p` stops to hold, if there is only one. -/
theorem bisect_eq_of_split {p : Nat → Bool} {lo hi place : Nat} (hlo : lo ≤ place)
    (hhi : place ≤ hi) (before : ∀ i, lo ≤ i → i < place → p i = true)
    (behind : ∀ i, place ≤ i → i < hi → p i = false) : bisect p lo hi = place := by
  fun_induction bisect p lo hi with
  | case1 lo hi hlt mid hmid ih =>
    have hplace : mid < place := by
      apply Nat.lt_of_not_le
      intro hle
      simp [behind mid hle (by omega)] at hmid
    exact ih hplace hhi (fun i hi => before i (by omega)) behind
  | case2 lo hi hlt mid hmid ih =>
    have hplace : place ≤ mid := by
      apply Nat.le_of_not_lt
      intro hlt
      exact hmid (before mid (by omega) hlt)
    exact ih hlo hplace before fun i hi hlt => behind i hi (by omega)
  | case3 lo hi hge => omega

/-- A property that stays lost along a list holds of as many elements in front as it holds of at
all. -/
theorem lt_countP_iff {α : Type} {q : α → Bool} {xs : List α}
    (sorted : xs.Pairwise fun a b => q b = true → q a = true) {i : Nat} {x : α}
    (hx : xs[i]? = some x) : i < xs.countP q ↔ q x = true := by
  induction xs generalizing i with
  | nil => cases hx
  | cons a rest ih =>
    obtain ⟨ha, hrest⟩ := List.pairwise_cons.1 sorted
    by_cases hqa : q a = true
    · rw [List.countP_cons_of_pos hqa]
      cases i with
      | zero =>
        cases hx
        simp [hqa]
      | succ i => rw [Nat.succ_lt_succ_iff, ih hrest hx]
    · have hnone : ∀ y ∈ a :: rest, ¬ q y = true := by
        intro y hy
        rcases List.mem_cons.1 hy with rfl | hy
        · exact hqa
        · exact fun hqy => hqa (ha y hy hqy)
      rw [List.countP_eq_zero.2 hnone]
      simp [hnone x (List.mem_of_getElem? hx)]

/-- Bisection of a list that a property splits gives the number of elements that have it. -/
theorem bisect_eq_countP {α : Type} {q : α → Bool} {xs : List α} {p : Nat → Bool}
    (sorted : xs.Pairwise fun a b => q b = true → q a = true)
    (hp : ∀ i x, xs[i]? = some x → p i = q x) : bisect p 0 xs.length = xs.countP q := by
  apply bisect_eq_of_split (Nat.zero_le _) List.countP_le_length
  · intro i _ hi
    have hx := List.getElem?_eq_getElem (Nat.lt_of_lt_of_le hi List.countP_le_length)
    rw [hp i _ hx]
    exact (lt_countP_iff sorted hx).1 hi
  · intro i hi hlt
    have hx := List.getElem?_eq_getElem hlt
    rw [hp i _ hx]
    exact eq_false_of_ne_true fun hq => Nat.not_lt.2 hi ((lt_countP_iff sorted hx).2 hq)

end CallAlign

import Mathlib

/-!
# Counting over ranges

Counts of a predicate over a range of numbers, cut into blocks or into ranges
that cover it, and over a list, cut into groups.
-/

namespace PartitionedFilters

theorem countP_range_add (p : Nat → Bool) (a b : Nat) :
    (List.range (a + b)).countP p = (List.range a).countP p + (List.range b).countP fun j => p (a + j) := by
  rw [List.range_add, List.countP_append, List.countP_map]
  rfl

theorem countP_finRange (n : Nat) (p : Nat → Bool) :
    (List.finRange n).countP (fun l : Fin n => p l) = (List.range n).countP p := by
  rw [← List.map_coe_finRange_eq_range, List.countP_map]
  rfl

theorem countP_range_of_lt {rest n : Nat} (h : rest ≤ n) (p : Nat → Bool) :
    (List.range n).countP (fun l => decide (l < rest) && p l) = (List.range rest).countP p := by
  obtain ⟨d, rfl⟩ := Nat.exists_eq_add_of_le h
  have hbehind : (List.range d).countP (fun j => decide (rest + j < rest) && p (rest + j)) = 0 :=
    List.countP_eq_zero.mpr fun j _ => by simp
  have hbefore : (List.range rest).countP (fun j => decide (j < rest) && p j) = (List.range rest).countP p :=
    List.countP_congr fun j hj => by simp [List.mem_range.mp hj]
  rw [countP_range_add, hbehind, hbefore, Nat.add_zero]

theorem countP_range_mul (p : Nat → Bool) (n t : Nat) : (List.range (n * t)).countP p =
    ((List.range t).map fun j => (List.range n).countP fun l => p (n * j + l)).sum := by
  induction t with
  | zero => rfl
  | succ t ih =>
    rw [Nat.mul_succ, countP_range_add, ih, List.range_succ, List.map_append, List.sum_append, List.map_singleton,
      List.sum_singleton]

theorem countP_range_eq_sum (p : Nat → Bool) (n : Nat) :
    (List.range n).countP p = ∑ e ∈ Finset.range n, if p e then 1 else 0 := by
  induction n with
  | zero => rfl
  | succ n ih => rw [List.range_succ, List.countP_append, Finset.sum_range_succ, ih, List.countP_singleton]

/-- Ranges that cover each value once count what all values count. -/
theorem sum_countP_ranges {length nRanges : Nat} {begin stop : Nat → Nat} (hstop : ∀ j, stop j ≤ length)
    (hcover : ∀ e < length, ∃! j, j < nRanges ∧ begin j ≤ e ∧ e < stop j) (p : Nat → Bool) :
    ((List.range nRanges).map fun j => (List.range (stop j - begin j)).countP fun e => p (begin j + e)).sum =
      (List.range length).countP p := by
  have hrange : ∀ j, ((List.range (stop j - begin j)).countP fun e => p (begin j + e)) =
      ∑ e ∈ Finset.range length, if e ∈ Finset.Ico (begin j) (stop j) then (if p e then 1 else 0) else 0 := by
    intro j
    have hinside : Finset.range length ∩ Finset.Ico (begin j) (stop j) = Finset.Ico (begin j) (stop j) := by
      refine Finset.inter_eq_right.mpr fun e he => Finset.mem_range.mpr ?_
      exact Nat.lt_of_lt_of_le (Finset.mem_Ico.mp he).2 (hstop j)
    rw [countP_range_eq_sum, Finset.sum_ite_mem, hinside, Finset.sum_Ico_eq_sum_range]
  have hswap :
      ((List.range nRanges).map fun j => (List.range (stop j - begin j)).countP fun e => p (begin j + e)).sum =
      ∑ j ∈ Finset.range nRanges, ∑ e ∈ Finset.range length,
        if e ∈ Finset.Ico (begin j) (stop j) then (if p e then 1 else 0) else 0 := by
    simp only [hrange]
    rfl
  rw [hswap, Finset.sum_comm, countP_range_eq_sum]
  refine Finset.sum_congr rfl fun e he => ?_
  obtain ⟨j, ⟨hj, hin⟩, hunique⟩ := hcover e (Finset.mem_range.mp he)
  rw [Finset.sum_eq_single j]
  · rw [if_pos (Finset.mem_Ico.mpr hin)]
  · intro i hi hne
    rw [if_neg]
    exact fun h => hne (hunique i ⟨Finset.mem_range.mp hi, Finset.mem_Ico.mp h⟩)
  · exact fun h => absurd (Finset.mem_range.mpr hj) h

theorem sum_countP_filter {α : Type*} {n : Nat} (group : α → Nat) (hg : ∀ x, group x < n)
    (p : Nat → α → Bool) (v : List α) :
    ((List.range n).map fun i => (v.filter fun x => group x = i).countP (p i)).sum =
      v.countP fun x => p (group x) x := by
  induction v with
  | nil => simp
  | cons x v ih =>
    have hcons : ∀ i, ((x :: v).filter fun x => group x = i).countP (p i) =
        (if group x = i then if p i x then 1 else 0 else 0) + (v.filter fun x => group x = i).countP (p i) := by
      intro i
      by_cases hi : group x = i
      · rw [List.filter_cons_of_pos (by simpa using hi), if_pos hi, List.countP_cons, Nat.add_comm]
      · rw [List.filter_cons_of_neg (by simpa using hi), if_neg hi, Nat.zero_add]
    have hone : ((List.range n).map fun i => if group x = i then if p i x then 1 else 0 else 0).sum =
        if p (group x) x then 1 else 0 := by
      show ∑ i ∈ Finset.range n, (if group x = i then if p i x then 1 else 0 else 0) = _
      rw [Finset.sum_ite_eq, if_pos (Finset.mem_range.mpr (hg x))]
    simp only [hcons]
    rw [List.sum_map_add, ih, hone, List.countP_cons, Nat.add_comm]

theorem foldl_add {α : Type*} (g : α → Nat) (l : List α) :
    l.foldl (fun counter a => counter + g a) 0 = (l.map g).sum := by
  rw [List.sum_eq_foldl, List.foldl_map]

end PartitionedFilters

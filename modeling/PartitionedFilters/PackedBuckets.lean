import Mathlib.Data.List.InsertIdx

/-!
# Packed buckets

A list of buckets whose entries lie one after the other in an array, without
gaps. An entry that is appended to a bucket moves the entries of all buckets
behind it by one.
-/

namespace PartitionedFilters.PackedBuckets

variable {α : Type*}

/-! ## Arrays that hold a list -/

def Holds (s : Nat → α) (l : List α) : Prop := ∀ j a, l[j]? = some a → s j = a

section
variable {s s' : Nat → α} {l : List α} (h : Holds s l) {p : Nat} {a : α}
include h

theorem Holds.insertIdx (below : ∀ j < p, s' j = s j) (here : s' p = a)
    (above : ∀ j, p ≤ j → j < l.length → s' (j + 1) = s j) : Holds s' (l.insertIdx p a) := by
  intro j b hj
  rcases Nat.lt_trichotomy j p with hlt | heq | hgt
  · rw [List.getElem?_insertIdx_of_lt hlt] at hj
    rw [below j hlt, h j b hj]
  · subst heq
    rw [List.getElem?_insertIdx_self] at hj
    split at hj
    · rw [here, Option.some.inj hj]
    · exact absurd hj (by simp)
  · rw [List.getElem?_insertIdx_of_gt hgt] at hj
    have hlen := (List.getElem?_eq_some_iff.mp hj).1
    have hmove := above (j - 1) (by omega) hlen
    rw [Nat.sub_add_cancel (by omega)] at hmove
    rw [hmove, h _ b hj]

theorem Holds.eraseIdx_append (hp : p < l.length) (below : ∀ j < p, s' j = s j)
    (above : ∀ j, p ≤ j → j + 1 < l.length → s' j = s (j + 1)) (last : s' (l.length - 1) = a) :
    Holds s' (l.eraseIdx p ++ [a]) := by
  intro j b hj
  have hlen : (l.eraseIdx p).length = l.length - 1 := List.length_eraseIdx_of_lt hp
  rw [List.getElem?_append] at hj
  split at hj
  · rename_i hlt
    rw [List.getElem?_eraseIdx] at hj
    split at hj
    · rename_i hjp
      rw [below j hjp, h j b hj]
    · rename_i hjp
      rw [above j (by omega) (by omega), h _ b hj]
  · rename_i hge
    obtain ⟨hlt, hb⟩ := List.getElem?_eq_some_iff.mp hj
    have hj0 : j - (l.eraseIdx p).length = 0 := Nat.lt_one_iff.mp hlt
    have heq : j = l.length - 1 := by omega
    rw [heq, last, ← hb, List.getElem_singleton]

theorem Holds.set (others : ∀ j < l.length, j ≠ p → s' j = s j) (here : s' p = a) : Holds s' (l.set p a) := by
  intro j b hj
  by_cases hjp : p = j
  · subst hjp
    rw [List.getElem?_set_self' ] at hj
    obtain ⟨-, -, rfl⟩ := Option.map_eq_some_iff.mp hj
    exact here
  · rw [List.getElem?_set_ne hjp] at hj
    rw [others j (List.getElem?_eq_some_iff.mp hj).1 (Ne.symm hjp), h j b hj]

end

/-! ## Buckets -/

def start (buckets : List (List α)) (i : Nat) : Nat := (buckets.take i).flatten.length

theorem start_succ {buckets : List (List α)} {i : Nat} {l : List α} (h : buckets[i]? = some l) :
    start buckets (i + 1) = start buckets i + l.length := by
  rw [start, start, List.take_add_one, h]
  simp

theorem start_le (buckets : List (List α)) (i : Nat) : start buckets i ≤ buckets.flatten.length := by
  conv_rhs => rw [← List.take_append_drop i buckets, List.flatten_append, List.length_append]
  exact Nat.le_add_right _ _

theorem start_add_length_le {buckets : List (List α)} {i : Nat} {l : List α} (h : buckets[i]? = some l) :
    start buckets i + l.length ≤ buckets.flatten.length := start_succ h ▸ start_le buckets (i + 1)

theorem insertIdx_append_length (l l' : List α) (a : α) : (l ++ l').insertIdx l.length a = l ++ a :: l' := by
  induction l with
  | nil => rfl
  | cons b l ih => rw [List.cons_append, List.length_cons, List.insertIdx_succ_cons, ih, List.cons_append]

theorem flatten_modify_append {buckets : List (List α)} {i : Nat} {l : List α} (h : buckets[i]? = some l) (a : α) :
    (buckets.modify i (· ++ [a])).flatten = buckets.flatten.insertIdx (start buckets i + l.length) a := by
  obtain ⟨hi, rfl⟩ := List.getElem?_eq_some_iff.mp h
  have hsplit : buckets.flatten = ((buckets.take i).flatten ++ buckets[i]) ++ (buckets.drop (i + 1)).flatten := by
    have hcut := congrArg List.flatten (List.take_append_drop i buckets)
    rw [List.drop_eq_getElem_cons hi, List.flatten_append, List.flatten_cons, ← List.append_assoc] at hcut
    exact hcut.symm
  rw [List.modify_eq_take_cons_drop hi, hsplit, start, ← List.length_append, insertIdx_append_length]
  simp

def read (s : Nat → α) : Nat → List Nat → List (List α)
  | _, [] => []
  | p, n :: lengths => (List.range n).map (fun j => s (p + j)) :: read s (p + n) lengths

theorem flatten_read (s : Nat → α) (p : Nat) (lengths : List Nat) :
    (read s p lengths).flatten = (List.range (lengths.foldr (· + ·) 0)).map fun j => s (p + j) := by
  induction lengths generalizing p with
  | nil => rfl
  | cons n lengths ih =>
    rw [read, List.flatten_cons, ih, List.foldr_cons, List.range_add, List.map_append, List.map_map]
    refine congrArg _ (List.map_congr_left fun j _ => ?_)
    exact congrArg s (Nat.add_assoc p n j)

theorem getElem?_read (s : Nat → α) (p : Nat) (lengths : List Nat) (i : Nat) :
    ((read s p lengths)[i]?).map List.length = lengths[i]? := by
  induction lengths generalizing p i with
  | nil => rfl
  | cons n lengths ih =>
    cases i with
    | zero => simp [read]
    | succ i => rw [read, List.getElem?_cons_succ, List.getElem?_cons_succ, ih]

theorem holds_read (s : Nat → α) (lengths : List Nat) : Holds s (read s 0 lengths).flatten := by
  intro j a hj
  rw [flatten_read, List.getElem?_map] at hj
  obtain ⟨j', hj', rfl⟩ := Option.map_eq_some_iff.mp hj
  obtain ⟨-, rfl⟩ := List.getElem?_eq_some_iff.mp hj'
  simp

end PartitionedFilters.PackedBuckets

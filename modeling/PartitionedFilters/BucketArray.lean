import Mathlib.Algebra.BigOperators.Group.Finset.Basic
import Mathlib.Data.Multiset.Range

/-!
# Buckets that share an array

An array holds the entries of buckets one bucket after the other; `n` gives the
number of entries of each. An entry of one bucket is replaced by an entry of
another one when the entries between the two places move by one.
-/

namespace PartitionedFilters.BucketArray

variable {α : Type*} {s s' : Nat → α} {n n' : Nat → Nat} {i : Nat}

def begins (n : Nat → Nat) (i : Nat) : Nat := ∑ l ∈ Finset.range i, n l

def bucket (s : Nat → α) (n : Nat → Nat) (i : Nat) : Multiset α :=
  (Multiset.range (n i)).map fun j => s (begins n i + j)

theorem begins_succ (n : Nat → Nat) (i : Nat) : begins n (i + 1) = begins n i + n i := Finset.sum_range_succ ..

theorem begins_mono (n : Nat → Nat) {i i' : Nat} (h : i ≤ i') : begins n i ≤ begins n i' := by
  induction h with
  | refl => exact Nat.le_refl _
  | step _ ih => exact Nat.le_trans ih (begins_succ n _ ▸ Nat.le_add_right _ _)

theorem begins_congr (h : ∀ l < i, n' l = n l) : begins n' i = begins n i :=
  Finset.sum_congr rfl fun l hl => h l (Finset.mem_range.mp hl)

theorem begins_update (n n' : Nat → Nat) {l : Nat} (hl : l < i) (h : ∀ l' < i, l' ≠ l → n' l' = n l') :
    begins n' i + n l = begins n i + n' l := by
  have hmem : l ∈ Finset.range i := Finset.mem_range.mpr hl
  have hrest : ∑ l' ∈ (Finset.range i).erase l, n' l' = ∑ l' ∈ (Finset.range i).erase l, n l' :=
    Finset.sum_congr rfl fun l' hl' =>
      h l' (Finset.mem_range.mp (Finset.mem_of_mem_erase hl')) (Finset.ne_of_mem_erase hl')
  rw [begins, begins, ← Finset.add_sum_erase _ _ hmem, ← Finset.add_sum_erase _ n hmem, hrest]
  omega

theorem mem_bucket {a : α} : a ∈ bucket s n i ↔ ∃ j < n i, s (begins n i + j) = a := by
  simp only [bucket, Multiset.mem_map, Multiset.mem_range]

/-! ## One bucket -/

theorem bucket_congr (hn : n' i = n i) (hs : ∀ j < n i, s' (begins n' i + j) = s (begins n i + j)) :
    bucket s' n' i = bucket s n i := by
  rw [bucket, bucket, hn]
  exact Multiset.map_congr rfl fun j hj => hs j (Multiset.mem_range.mp hj)

theorem bucket_append (hn : n' i = n i + 1) (hs : ∀ j < n i, s' (begins n' i + j) = s (begins n i + j)) :
    bucket s' n' i = s' (begins n' i + n i) ::ₘ bucket s n i := by
  rw [bucket, bucket, hn, Multiset.range_succ, Multiset.map_cons]
  exact congrArg _ (Multiset.map_congr rfl fun j hj => hs j (Multiset.mem_range.mp hj))

theorem range_succ_map (m : Nat) (f : Nat → α) :
    (Multiset.range (m + 1)).map f = f 0 ::ₘ (Multiset.range m).map fun j => f (j + 1) := by
  have h := congrArg (Multiset.ofList ∘ List.map f) (List.range_succ_eq_map (n := m))
  rw [Function.comp_apply, Function.comp_apply, List.map_cons, List.map_map] at h
  exact h

theorem bucket_prepend (hn : n' i = n i + 1) (hs : ∀ j < n i, s' (begins n' i + (j + 1)) = s (begins n i + j)) :
    bucket s' n' i = s' (begins n' i) ::ₘ bucket s n i := by
  rw [bucket, bucket, hn, range_succ_map]
  exact congrArg _ (Multiset.map_congr rfl fun j hj => hs j (Multiset.mem_range.mp hj))

/-- A bucket given by its slots, of which slot `j` gets another item. -/
theorem cons_map_range {n j : Nat} (hj : j < n) {f g : Nat → α} (h : ∀ i < n, i ≠ j → g i = f i) :
    f j ::ₘ (Multiset.range n).map g = g j ::ₘ (Multiset.range n).map f := by
  have hmem : j ∈ Multiset.range n := Multiset.mem_range.mpr hj
  have hrest : ((Multiset.range n).erase j).map g = ((Multiset.range n).erase j).map f := by
    refine Multiset.map_congr rfl fun i hi => ?_
    obtain ⟨hne, hi⟩ := ((Multiset.nodup_range n).mem_erase_iff).mp hi
    exact h i (Multiset.mem_range.mp hi) hne
  rw [← Multiset.cons_erase hmem, Multiset.map_cons, Multiset.map_cons, hrest, Multiset.cons_swap]

theorem cons_map_range_skip {m t : Nat} (ht : t ≤ m) {f g : Nat → α} (below : ∀ j < t, g j = f j)
    (above : ∀ j < m, t ≤ j → g j = f (j + 1)) :
    f t ::ₘ (Multiset.range m).map g = (Multiset.range (m + 1)).map f := by
  induction m generalizing t f g with
  | zero =>
    obtain rfl := Nat.le_zero.mp ht
    rfl
  | succ m ih =>
    cases t with
    | zero =>
      rw [range_succ_map (m + 1)]
      exact congrArg _ (Multiset.map_congr rfl fun j hj => above j (Multiset.mem_range.mp hj) (Nat.zero_le j))
    | succ t =>
      have hrest := ih (Nat.le_of_succ_le_succ ht) (f := fun j => f (j + 1)) (g := fun j => g (j + 1))
        (fun j hj => below (j + 1) (Nat.succ_lt_succ hj))
        fun j hj htj => above (j + 1) (Nat.succ_lt_succ hj) (Nat.succ_le_succ htj)
      rw [range_succ_map (m + 1), range_succ_map m g, below 0 (Nat.succ_pos t), Multiset.cons_swap, hrest]

theorem bucket_erase {t : Nat} (hn : n i = n' i + 1) (ht : t ≤ n' i)
    (below : ∀ j < t, s' (begins n' i + j) = s (begins n i + j))
    (above : ∀ j < n' i, t ≤ j → s' (begins n' i + j) = s (begins n i + (j + 1))) :
    s (begins n i + t) ::ₘ bucket s' n' i = bucket s n i := by
  rw [bucket, bucket, hn]
  exact cons_map_range_skip ht below above

/-! ## Two buckets -/

/-- Bucket `b` gets an entry and bucket `i` loses one. -/
structure Exchanges (n n' : Nat → Nat) (size b i : Nat) : Prop where
  gain : n' b = n b + 1
  lose : n i = n' i + 1
  rest : ∀ l < size, l ≠ b → l ≠ i → n' l = n l

variable {size b : Nat}

theorem Exchanges.ne (h : Exchanges n n' size b i) : b ≠ i := by
  rintro rfl
  have h1 := h.gain
  have h2 := h.lose
  omega

section
variable (h : Exchanges n n' size b i)
include h

theorem Exchanges.begins_of_le {l : Nat} (hl : l ≤ size) (hb : l ≤ b) (hi : l ≤ i) : begins n' l = begins n l :=
  begins_congr fun l' hl' => h.rest l' (by omega) (by omega) (by omega)

theorem Exchanges.begins_right {l : Nat} (hl : l ≤ size) (hb : b < l) (hi : l ≤ i) :
    begins n' l = begins n l + 1 := by
  have hupdate := begins_update n n' hb fun l' hl' hne => h.rest l' (by omega) hne (by omega)
  rw [h.gain] at hupdate
  omega

theorem Exchanges.begins_left {l : Nat} (hl : l ≤ size) (hb : l ≤ b) (hi : i < l) :
    begins n' l + 1 = begins n l := by
  have hupdate := begins_update n n' hi fun l' hl' hne => h.rest l' (by omega) (by omega) hne
  rw [h.lose] at hupdate
  omega

theorem Exchanges.begins_of_lt {l : Nat} (hl : l ≤ size) (hb : b < l) (hi : i < l) : begins n' l = begins n l := by
  -- bucket `b` first
  have hne := h.ne
  have hgain := begins_update n (Function.update n b (n b + 1)) hb fun l' _ hne => Function.update_of_ne hne _ _
  have hlose := begins_update (Function.update n b (n b + 1)) n' hi fun l' hl' hne' => by
    by_cases hl'b : l' = b
    · rw [hl'b, Function.update_self, h.gain]
    · rw [Function.update_of_ne hl'b, h.rest l' (by omega) hl'b hne']
  rw [Function.update_self] at hgain
  rw [Function.update_of_ne (Ne.symm hne), h.lose] at hlose
  omega

end

/-- The entries from `start` on move over the place `hole`, and `start` gets another one. -/
structure MovesRight (s s' : Nat → α) (start hole room : Nat) : Prop where
  below : ∀ j < start, s' j = s j
  moved : ∀ j, start ≤ j → j < hole → s' (j + 1) = s j
  above : ∀ j < room, hole < j → s' j = s j

theorem bucket_opens (n' : Nat → Nat) {room : Nat} (hgain : n' b = n b + 1) (hrest : ∀ l < size, l ≠ b → n' l = n l)
    (hb : b < size) (hs : MovesRight s s' (begins n (b + 1)) (begins n size) room) :
    bucket s' n' b = s' (begins n (b + 1)) ::ₘ bucket s n b ∧ ∀ l < size, l ≠ b →
    bucket s' n' l = bucket s n l := by
  have hstart := begins_succ n b
  have hbefore : ∀ l ≤ b, begins n' l = begins n l := fun l hl =>
    begins_congr fun l' hl' => hrest l' (by omega) (by omega)
  refine ⟨?_, fun l hl hlb => ?_⟩
  · have happend : bucket s' n' b = s' (begins n' b + n b) ::ₘ bucket s n b := bucket_append hgain fun j hj => by
      rw [hbefore b (Nat.le_refl _)]
      exact hs.below _ (by omega)
    rw [happend, hbefore b (Nat.le_refl _), hstart]
  · have hlsucc := begins_succ n l
    refine bucket_congr (hrest l hl hlb) fun j hj => ?_
    rcases Nat.lt_or_ge l b with hlt | hge
    · have := begins_mono n (show l + 1 ≤ b from hlt)
      rw [hbefore l (Nat.le_of_lt hlt)]
      exact hs.below _ (by omega)
    · have hgt : b < l := Nat.lt_of_le_of_ne hge (Ne.symm hlb)
      have hupdate := begins_update n n' hgt fun l' hl' hne => hrest l' (by omega) hne
      have hmono := begins_mono n (show b + 1 ≤ l from hgt)
      have hlast := begins_mono n (show l + 1 ≤ size from hl)
      rw [show begins n' l + j = begins n l + j + 1 by omega]
      exact hs.moved _ (by omega) (by omega)

theorem bucket_replaces (s s' : Nat → α) (n : Nat → Nat) {room t : Nat} (hn : ∀ l < size, n' l = n l)
    (hb : b < size) (ht : t < n b) (hroom : begins n size ≤ room)
    (hs : ∀ j < room, j ≠ begins n b + t → s' j = s j) :
    s (begins n b + t) ::ₘ bucket s' n' b = s' (begins n b + t) ::ₘ bucket s n b ∧
      ∀ l < size, l ≠ b → bucket s' n' l = bucket s n l := by
  have hbegins : ∀ l ≤ size, begins n' l = begins n l := fun l hl => begins_congr fun l' hl' => hn l' (by omega)
  have hend := begins_succ n b
  have hmono := begins_mono n (show b + 1 ≤ size from hb)
  refine ⟨?_, fun l hl hlb => ?_⟩
  · rw [bucket, bucket, hn b hb, hbegins b (Nat.le_of_lt hb)]
    exact cons_map_range ht fun j hj hne => hs _ (by omega) (by omega)
  · have hlsucc := begins_succ n l
    have hlast := begins_mono n (show l + 1 ≤ size from hl)
    refine bucket_congr (hn l hl) fun j hj => ?_
    rw [hbegins l (Nat.le_of_lt hl)]
    refine hs _ (by omega) ?_
    rcases Nat.lt_or_gt_of_ne hlb with hlt | hgt
    · have := begins_mono n (show l + 1 ≤ b from hlt)
      omega
    · have := begins_mono n (show b + 1 ≤ l from hgt)
      omega

/-- A bucket in front takes the place of an entry of bucket `i`. -/
theorem bucket_movesRight {hole room : Nat} (h : Exchanges n n' size b i) (hbi : b < i) (hi : i < size)
    (hs : MovesRight s s' (begins n (b + 1)) hole room) (hroom : begins n size ≤ room)
    (hle : begins n i ≤ hole) (hlt : hole < begins n (i + 1)) :
    bucket s' n' b = s' (begins n (b + 1)) ::ₘ bucket s n b ∧ s hole ::ₘ bucket s' n' i = bucket s n i ∧
      ∀ l < size, l ≠ b → l ≠ i → bucket s' n' l = bucket s n l := by
  have hgain := h.gain
  have hlose := h.lose
  have hend := begins_succ n i
  have hstart := begins_succ n b
  have hb := h.begins_of_le (l := b) (by omega) (Nat.le_refl _) (Nat.le_of_lt hbi)
  have hi' := h.begins_right (l := i) (by omega) hbi (Nat.le_refl _)
  have hmono := begins_mono n (show b + 1 ≤ i from hbi)
  have hmono' := begins_mono n (show i + 1 ≤ size from hi)
  refine ⟨?_, ?_, fun l hl hlb hli => ?_⟩
  · have happend : bucket s' n' b = s' (begins n' b + n b) ::ₘ bucket s n b := bucket_append hgain fun j hj => by
      rw [hb]
      exact hs.below _ (by omega)
    rw [happend, hb, hstart]
  · obtain ⟨t, rfl⟩ := Nat.exists_eq_add_of_le hle
    refine bucket_erase hlose (by omega) (fun j hj => ?_) fun j hj htj => ?_
    · rw [hi', Nat.add_right_comm]
      exact hs.moved _ (by omega) (by omega)
    · rw [hi', Nat.add_assoc, Nat.add_comm 1]
      exact hs.above _ (by omega) (by omega)
  · have hlast := begins_mono n (show l + 1 ≤ size from hl)
    have hlsucc := begins_succ n l
    refine bucket_congr (h.rest l hl hlb hli) fun j hj => ?_
    rcases Nat.lt_trichotomy l b with hlt' | heq | hgt
    · have := begins_mono n (show l + 1 ≤ b from hlt')
      rw [h.begins_of_le (by omega) (by omega) (by omega)]
      exact hs.below _ (by omega)
    · exact absurd heq hlb
    · rcases Nat.lt_trichotomy l i with hlt' | heq | hgt'
      · have := begins_mono n (show b + 1 ≤ l from hgt)
        have := begins_mono n (show l + 1 ≤ i from hlt')
        rw [h.begins_right (by omega) hgt (by omega), Nat.add_right_comm]
        exact hs.moved _ (by omega) (by omega)
      · exact absurd heq hli
      · have := begins_mono n (show i + 1 ≤ l from hgt')
        rw [h.begins_of_lt (by omega) hgt hgt']
        exact hs.above _ (by omega) (by omega)

/-- The entries behind the place `hole` move over it, and the last place before `stop` gets another one. -/
structure MovesLeft (s s' : Nat → α) (hole stop room : Nat) : Prop where
  below : ∀ j < hole, s' j = s j
  moved : ∀ j, hole ≤ j → j + 1 < stop → s' j = s (j + 1)
  above : ∀ j < room, stop ≤ j → s' j = s j

/-- A bucket behind takes the place of an entry of bucket `i`. -/
theorem bucket_movesLeft {hole room : Nat} (h : Exchanges n n' size b i) (hib : i < b) (hb : b < size)
    (hs : MovesLeft s s' hole (begins n b) room) (hroom : begins n size ≤ room)
    (hle : begins n i ≤ hole) (hlt : hole < begins n (i + 1)) :
    bucket s' n' b = s' (begins n b - 1) ::ₘ bucket s n b ∧ s hole ::ₘ bucket s' n' i = bucket s n i ∧
      ∀ l < size, l ≠ b → l ≠ i → bucket s' n' l = bucket s n l := by
  have hgain := h.gain
  have hlose := h.lose
  have hend := begins_succ n i
  have hstart := begins_succ n b
  have hb' := h.begins_left (l := b) (by omega) (Nat.le_refl _) hib
  have hi' := h.begins_of_le (l := i) (by omega) (Nat.le_of_lt hib) (Nat.le_refl _)
  have hmono := begins_mono n (show i + 1 ≤ b from hib)
  have hmono' := begins_mono n (show b + 1 ≤ size from hb)
  refine ⟨?_, ?_, fun l hl hlb hli => ?_⟩
  · have hprepend : bucket s' n' b = s' (begins n' b) ::ₘ bucket s n b := bucket_prepend hgain fun j hj => by
      rw [← hb', Nat.add_comm j, ← Nat.add_assoc]
      exact hs.above _ (by omega) (by omega)
    rw [hprepend, ← hb', Nat.add_sub_cancel]
  · obtain ⟨t, rfl⟩ := Nat.exists_eq_add_of_le hle
    refine bucket_erase hlose (by omega) (fun j hj => ?_) fun j hj htj => ?_
    · rw [hi']
      exact hs.below _ (by omega)
    · rw [hi', ← Nat.add_assoc]
      exact hs.moved _ (by omega) (by omega)
  · have hlast := begins_mono n (show l + 1 ≤ size from hl)
    have hlsucc := begins_succ n l
    refine bucket_congr (h.rest l hl hlb hli) fun j hj => ?_
    rcases Nat.lt_trichotomy l i with hlt' | heq | hgt
    · have := begins_mono n (show l + 1 ≤ i from hlt')
      rw [h.begins_of_le (by omega) (by omega) (by omega)]
      exact hs.below _ (by omega)
    · exact absurd heq hli
    · rcases Nat.lt_trichotomy l b with hlt' | heq | hgt'
      · have := begins_mono n (show i + 1 ≤ l from hgt)
        have := begins_mono n (show l + 1 ≤ b from hlt')
        have hl' := h.begins_left (l := l) (by omega) (by omega) hgt
        rw [← hl', Nat.add_right_comm]
        exact hs.moved _ (by omega) (by omega)
      · exact absurd heq hlb
      · have := begins_mono n (show b + 1 ≤ l from hgt')
        rw [h.begins_of_lt (by omega) hgt' hgt]
        exact hs.above _ (by omega) (by omega)

end PartitionedFilters.BucketArray

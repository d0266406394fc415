import PartitionedFilters.PartitionSet
import Mathlib.Data.List.GetD
import Mathlib.Data.List.Induction
import Mathlib.Data.List.Perm.Basic
import Mathlib.Logic.Function.Iterate

/-!
# Soundness of the partitioning

Both versions of `init` are followed one partition at a time: what a loop writes
for partition `p` depends only on the elements of `p` (`Holds.push`), and is
their list, cell after cell (`trace`).
-/

namespace PartitionedFilters

open Function (update)
open CacheLineBuffer

namespace PartitionSet

variable {r : RegisterSize}

/-! ## Buckets and counts -/

theorem bufferLength_pos (r : RegisterSize) : 0 < nTuplesPerCacheLineBuffer r := by cases r <;> decide

theorem bucket_two_pow {m : Nat} (hm : m < 64) (x : r.T) : bucket (2 ^ m) x = x.toNat % 2 ^ m := by
  have hx : x.toNat < 2 ^ 64 := Nat.lt_of_lt_of_le x.isLt (Nat.pow_le_pow_right (by decide) r.bits_le)
  unfold bucket partitioningMask
  rcases Nat.eq_zero_or_pos m with rfl | hpos
  · simp [Nat.mod_one]
  · have h1 : 1 < 2 ^ m := Nat.one_lt_two_pow (by omega)
    rw [if_pos h1, getNumberOfBits_two_pow hpos (Nat.le_of_lt hm), BitVec.toNat_and, toNat_lowMask hm,
      Nat.and_two_pow_sub_one_eq_mod, BitVec.toNat_setWidth, Nat.mod_eq_of_lt hx]

def members (n : Nat) (v : List r.T) (p : Nat) : List r.T := v.filter fun x => bucket n x = p

def count (n : Nat) (v : List r.T) (p : Nat) : Nat := (members n v p).length

theorem members_append (n : Nat) (v v' : List r.T) (p : Nat) :
    members n (v ++ v') p = members n v p ++ members n v' p := List.filter_append v v'

theorem count_append (n : Nat) (v v' : List r.T) (p : Nat) : count n (v ++ v') p = count n v p + count n v' p := by
  rw [count, members_append, List.length_append]
  rfl

theorem countTuples_eq (n : Nat) (v : List r.T) (p : Nat) : countTuples n v p = count n v p % 2 ^ r.bits := by
  induction v using List.reverseRecOn with
  | nil => simp [countTuples, count, members]
  | append_singleton v x ih =>
    have hs : countTuples n (v ++ [x]) = update (countTuples n v) (bucket n x)
        ((countTuples n v (bucket n x) + 1) % 2 ^ r.bits) := List.foldl_append
    rw [hs, count_append]
    by_cases hp : bucket n x = p
    · subst hp
      simp [ih, count, members]
    · rw [Function.update_of_ne (Ne.symm hp), ih]
      simp [count, members, hp]

/-! ## The layout -/

/-- Where partition `p` starts when no integer wraps; at `nPartitions`, the length of the array. -/
def start (r : RegisterSize) (size : Nat → Nat) : Nat → Nat
  | 0 => 0
  | p + 1 => start r size p + padded r (size p)

theorem start_mono (size : Nat → Nat) {p q : Nat} (h : p ≤ q) : start r size p ≤ start r size q := by
  induction h with
  | refl => exact Nat.le_refl _
  | step _ ih => exact Nat.le_trans ih (Nat.le_add_right _ _)

theorem start_congr {size size' : Nat → Nat} {n : Nat} (h : ∀ p < n, size p = size' p) {p : Nat} (hp : p ≤ n) :
    start r size p = start r size' p := by
  induction p with
  | zero => rfl
  | succ p ih => rw [start, start, ih (by omega), h p hp]

theorem dvd_start (size : Nat → Nat) (p : Nat) : nTuplesPerCacheLineBuffer r ∣ start r size p := by
  induction p with
  | zero => exact Nat.dvd_zero _
  | succ p ih => exact Nat.dvd_add ih (Nat.dvd_mul_left _ _)

theorem lt_padded (r : RegisterSize) (n : Nat) : n < padded r n := by
  have h := Nat.lt_div_mul_add (a := n) (bufferLength_pos r)
  unfold padded
  rw [Nat.succ_mul]
  exact h

theorem layout_eq (h : Nat → Nat) (n : Nat) :
    (layout r h n).2 = start r h n % 2 ^ r.bits ∧ ∀ p < n, (layout r h n).1 p = start r h p % 2 ^ r.bits := by
  induction n with
  | zero => exact ⟨rfl, fun p hp => absurd hp (Nat.not_lt_zero p)⟩
  | succ n ih =>
    obtain ⟨h2, h1⟩ := ih
    have hs : layout r h (n + 1) = (update (layout r h n).1 n (layout r h n).2,
        ((layout r h n).2 + padded r (h n)) % 2 ^ r.bits) := by
      rw [layout, List.range_succ, List.foldl_append]
      rfl
    simp only [hs]
    refine ⟨by rw [h2, Nat.mod_add_mod]; rfl, fun p hp => ?_⟩
    by_cases hpn : p = n
    · subst hpn
      rw [Function.update_self, h2]
    · rw [Function.update_of_ne hpn, h1 p (by omega)]

/-! ## One partition's writes -/

/-- The first `k` elements of `l`, one cell after the other, in blocks that start at `a`, `next a`, .. -/
def trace (next : Nat → Nat) (p a : Nat) (l : List r.T) (k : Nat) : List (Write r) :=
  (List.range k).map fun j =>
    ⟨p, next^[j / nTuplesPerCacheLineBuffer r] a + j % nTuplesPerCacheLineBuffer r, l.getD j 0⟩

theorem trace_congr (next : Nat → Nat) (p a : Nat) {l l' : List r.T} {k : Nat}
    (h : ∀ j < k, l.getD j 0 = l'.getD j 0) :
    trace next p a l k = trace next p a l' k := by
  refine List.map_congr_left fun j hj => ?_
  rw [h j (List.mem_range.mp hj)]

theorem trace_add (next : Nat → Nat) (p a q : Nat) {l : List r.T} {m : Nat} {tuples : Nat → r.T}
    (hm : m ≤ nTuplesPerCacheLineBuffer r)
    (ht : ∀ i < m, tuples i = l.getD (nTuplesPerCacheLineBuffer r * q + i) 0) :
    trace next p a l (nTuplesPerCacheLineBuffer r * q) ++ store p tuples (next^[q] a) m =
      trace next p a l (nTuplesPerCacheLineBuffer r * q + m) := by
  unfold trace store
  rw [List.range_add, List.map_append, List.map_map]
  refine congrArg _ (List.map_congr_left fun i hi => ?_)
  have him : i < m := List.mem_range.mp hi
  have hlt : i < nTuplesPerCacheLineBuffer r := by omega
  rw [Function.comp_apply, Nat.mul_add_div (bufferLength_pos r), Nat.div_eq_of_lt hlt, Nat.mul_add_mod,
    Nat.mod_eq_of_lt hlt, ht i him, Nat.add_zero]

/-- What the buffers hold after the elements `v`, for a partition whose buffer was empty before. -/
structure Holds (next : Nat → Nat) (n : Nat) (first : Nat → Nat) (v : List r.T) (b : Buffers r) (p : Nat) :
    Prop where
  fill : b.bufferOffset p = count n v p % nTuplesPerCacheLineBuffer r
  position : b.position p = next^[count n v p / nTuplesPerCacheLineBuffer r] (first p)
  tuples : ∀ i < b.bufferOffset p, b.tuples p i =
    (members n v p).getD (nTuplesPerCacheLineBuffer r * (count n v p / nTuplesPerCacheLineBuffer r) + i) 0
  writes : b.writes.filter (·.partition = p) = trace next p (first p) (members n v p)
    (nTuplesPerCacheLineBuffer r * (count n v p / nTuplesPerCacheLineBuffer r))

theorem filter_store_self (p : Nat) (tuples : Nat → r.T) (dst k : Nat) :
    (store p tuples dst k).filter (·.partition = p) = store p tuples dst k := by
  rw [List.filter_eq_self]
  intro w hw
  obtain ⟨i, -, rfl⟩ := List.mem_map.mp hw
  simp

theorem filter_store_ne {p q : Nat} (h : p ≠ q) (tuples : Nat → r.T) (dst k : Nat) :
    (store p tuples dst k).filter (·.partition = q) = [] := by
  rw [List.filter_eq_nil_iff]
  intro w hw
  obtain ⟨i, -, rfl⟩ := List.mem_map.mp hw
  simpa using h

theorem Holds.push {next : Nat → Nat} {n : Nat} {first : Nat → Nat} {v : List r.T} {b : Buffers r} {p : Nat}
    (h : Holds next n first v b p) (x : r.T) : Holds next n first (v ++ [x]) (b.push next n x) p := by
  have hB := bufferLength_pos r
  have hdm := Nat.div_add_mod (count n v p) (nTuplesPerCacheLineBuffer r)
  have hlt := Nat.mod_lt (count n v p) hB
  obtain ⟨hf, hp, ht, hw⟩ := h
  by_cases hx : bucket n x = p
  · have hm : members n (v ++ [x]) p = members n v p ++ [x] := by simp [members, hx]
    have hc : count n (v ++ [x]) p = count n v p + 1 := by simp [count, hm]
    -- the buffer with the new element
    have ht' : ∀ i < b.bufferOffset p + 1, update (b.tuples p) (b.bufferOffset p) x i =
        (members n (v ++ [x]) p).getD
        (nTuplesPerCacheLineBuffer r * (count n v p / nTuplesPerCacheLineBuffer r) + i) 0 := by
      intro i hi
      rw [hm]
      by_cases hie : i = b.bufferOffset p
      · rw [hie, Function.update_self, hf, hdm, count, List.getD_append_right _ _ _ _ (Nat.le_refl _), Nat.sub_self]
        rfl
      · rw [Function.update_of_ne hie, ht i (by omega), List.getD_append]
        rw [← count]
        omega
    have htr : ∀ k ≤ count n v p, trace next p (first p) (members n v p) k =
        trace next p (first p) (members n (v ++ [x]) p) k := by
      intro k hk
      refine trace_congr _ _ _ fun j hj => ?_
      rw [hm, List.getD_append]
      rw [← count]
      omega
    unfold Buffers.push
    simp only [hx]
    by_cases hfull : b.bufferOffset p + 1 = nTuplesPerCacheLineBuffer r
    · have hdiv : count n (v ++ [x]) p / nTuplesPerCacheLineBuffer r =
          count n v p / nTuplesPerCacheLineBuffer r + 1 := by
        rw [hc, Nat.div_eq_iff hB]
        rw [Nat.add_mul, Nat.one_mul, Nat.mul_comm]
        omega
      have hmod : count n (v ++ [x]) p % nTuplesPerCacheLineBuffer r = 0 := by
        have h2 := Nat.div_add_mod (count n (v ++ [x]) p) (nTuplesPerCacheLineBuffer r)
        rw [hdiv, Nat.mul_add, Nat.mul_one] at h2
        omega
      rw [if_pos hfull]
      refine ⟨?_, ?_, ?_, ?_⟩
      · rw [hmod]
        exact Function.update_self ..
      · rw [hdiv, Function.iterate_succ_apply', ← hp]
        exact Function.update_self ..
      · simp only [Function.update_self]
        exact fun i hi => absurd hi (Nat.not_lt_zero i)
      · simp only
        rw [List.filter_append, hw, filter_store_self, Function.update_self, hp, htr _ (by omega), hdiv,
          Nat.mul_add, Nat.mul_one]
        exact trace_add next p _ _ (Nat.le_refl _) (fun i hi => ht' i (by omega))
    · have hdiv : count n (v ++ [x]) p / nTuplesPerCacheLineBuffer r =
          count n v p / nTuplesPerCacheLineBuffer r := by
        rw [hc, Nat.div_eq_iff hB, Nat.mul_comm]
        omega
      have hmod : count n (v ++ [x]) p % nTuplesPerCacheLineBuffer r = b.bufferOffset p + 1 := by
        have h2 := Nat.div_add_mod (count n (v ++ [x]) p) (nTuplesPerCacheLineBuffer r)
        rw [hdiv] at h2
        omega
      rw [if_neg hfull]
      refine ⟨?_, ?_, ?_, ?_⟩
      · rw [hmod]
        exact Function.update_self ..
      · rw [hdiv, ← hp]
      · simp only [Function.update_self, hdiv]
        exact ht'
      · rw [hw, hdiv, htr _ (by omega)]
  · -- another partition's element changes nothing of this one
    have hm : members n (v ++ [x]) p = members n v p := by simp [members, hx]
    have hc : count n (v ++ [x]) p = count n v p := by simp [count, hm]
    have hne : p ≠ bucket n x := Ne.symm hx
    unfold Buffers.push
    simp only
    split
    · refine ⟨?_, ?_, ?_, ?_⟩
      · rw [hc, ← hf]
        exact Function.update_of_ne hne ..
      · rw [hc, ← hp]
        exact Function.update_of_ne hne ..
      · simp only [Function.update_of_ne hne, hm, hc]
        exact ht
      · simp only
        rw [List.filter_append, hw, filter_store_ne hx, List.append_nil, hm, hc]
    · refine ⟨?_, ?_, ?_, ?_⟩
      · rw [hc, ← hf]
        exact Function.update_of_ne hne ..
      · rw [hc, ← hp]
      · simp only [Function.update_of_ne hne, hm, hc]
        exact ht
      · rw [hw, hm, hc]

theorem holds_foldl (next : Nat → Nat) (n : Nat) (v : List r.T) (b : Buffers r) {p : Nat}
    (hp : b.bufferOffset p = 0) (hw : b.writes = []) :
    Holds next n b.position v (v.foldl (Buffers.push next n) b) p := by
  induction v using List.reverseRecOn with
  | nil =>
    exact ⟨by simp [hp, count, members], by simp [count, members], by simp [hp],
      by simp [hw, count, members, trace]⟩
  | append_singleton v x ih =>
    rw [List.foldl_append]
    exact ih.push x

theorem filter_flatMap_partition (g : Nat → List (Write r)) (hg : ∀ q, ∀ w ∈ g q, w.partition = q) {n p : Nat}
    (hp : p < n) : ((List.range n).flatMap g).filter (·.partition = p) = g p := by
  induction n with
  | zero => exact absurd hp (Nat.not_lt_zero p)
  | succ n ih =>
    have hself : ∀ q, (g q).filter (·.partition = p) = if q = p then g p else [] := by
      intro q
      split
      · rename_i hq
        subst hq
        exact List.filter_eq_self.mpr fun w hw => by simp [hg _ w hw]
      · rename_i hq
        exact List.filter_eq_nil_iff.mpr fun w hw => by simp [hg _ w hw, hq]
    rw [List.range_succ, List.flatMap_append, List.filter_append, List.flatMap_singleton, hself]
    rcases Nat.lt_succ_iff_lt_or_eq.mp hp with hlt | rfl
    · rw [ih hlt, if_neg (by omega), List.append_nil]
    · have hnil : ((List.range p).flatMap g).filter (·.partition = p) = [] := by
        refine List.filter_eq_nil_iff.mpr fun w hw => ?_
        obtain ⟨q, hq, hwq⟩ := List.mem_flatMap.mp hw
        have := List.mem_range.mp hq
        simp only [hg q w hwq, decide_eq_true_eq]
        omega
      rw [hnil, if_pos rfl, List.nil_append]

/-! ## From the writes to the array -/

theorem start_add_le (size : Nat → Nat) {p q : Nat} (h : p < q) :
    start r size p + padded r (size p) ≤ start r size q :=
  start_mono size h

/-- Every write lies in the region of its partition and has the right value there, and no element is left out. -/
structure Fills (n : Nat) (v : List r.T) (writes : List (Write r)) : Prop where
  confined : ∀ w ∈ writes, w.partition < n ∧ ∃ j < padded r (count n v w.partition),
    w.cell = start r (count n v) w.partition + j ∧
      (j < count n v w.partition → w.value = (members n v w.partition).getD j 0)
  complete : ∀ p < n, ∀ j < count n v p, ∃ w ∈ writes, w.partition = p ∧ w.cell = start r (count n v) p + j

theorem Fills.perm {n : Nat} {v : List r.T} {writes writes' : List (Write r)} (h : Fills n v writes)
    (hp : writes'.Perm writes) : Fills n v writes' := by
  refine ⟨fun w hw => h.confined w (hp.mem_iff.mp hw), fun p hpn j hj => ?_⟩
  obtain ⟨w, hw, he⟩ := h.complete p hpn j hj
  exact ⟨w, hp.mem_iff.mpr hw, he⟩

theorem foldl_apply_eq {writes : List (Write r)} {values : Nat → Option r.T} {c : Nat} {x : r.T}
    (hex : ∃ w ∈ writes, w.cell = c) (hall : ∀ w ∈ writes, w.cell = c → w.value = x) :
    (writes.foldl Write.apply values) c = some x := by
  induction writes using List.reverseRecOn with
  | nil => obtain ⟨w, hw, -⟩ := hex; cases hw
  | append_singleton l w ih =>
    rw [List.foldl_append, List.foldl_cons, List.foldl_nil, Write.apply]
    by_cases hc : w.cell = c
    · rw [← hc, Function.update_self, hall w (by simp) hc]
    · rw [Function.update_of_ne (Ne.symm hc)]
      apply ih
      · obtain ⟨u, hu, hcu⟩ := hex
        rcases List.mem_append.mp hu with hu | hu
        · exact ⟨u, hu, hcu⟩
        · exact absurd (List.mem_singleton.mp hu ▸ hcu) hc
      · exact fun u hu => hall u (List.mem_append_left _ hu)

theorem Fills.contents {n : Nat} {v : List r.T} {writes : List (Write r)} (h : Fills n v writes) {p : Nat}
    (hp : p < n) (values : Nat → Option r.T) :
    (List.range (count n v p)).map (fun j => (writes.foldl Write.apply values) (start r (count n v) p + j)) =
      (members n v p).map some := by
  apply List.ext_getElem
  · simp [count]
  · intro j hj hj'
    have hjc : j < count n v p := by simpa using hj
    rw [List.getElem_map, List.getElem_map, List.getElem_range]
    apply foldl_apply_eq
    · obtain ⟨w, hw, -, hc⟩ := h.complete p hp j hjc
      exact ⟨w, hw, hc⟩
    · intro w hw hc
      obtain ⟨-, i, hi, hci, hv⟩ := h.confined w hw
      have hpad := lt_padded r (count n v p)
      have hq : w.partition = p := by
        rcases Nat.lt_trichotomy w.partition p with hlt | heq | hlt
        · have := start_add_le (r := r) (count n v) hlt
          omega
        · exact heq
        · have := start_add_le (r := r) (count n v) hlt
          omega
      rw [hq] at hci hv
      obtain rfl : i = j := by omega
      rw [hv hjc, List.getD_eq_getElem]

theorem mem_trace {next : Nat → Nat} {p a k : Nat} {l : List r.T} {w : Write r} (h : w ∈ trace next p a l k) :
    ∃ j < k, w = ⟨p, next^[j / nTuplesPerCacheLineBuffer r] a + j % nTuplesPerCacheLineBuffer r, l.getD j 0⟩ := by
  obtain ⟨j, hj, rfl⟩ := List.mem_map.mp h
  exact ⟨j, List.mem_range.mp hj, rfl⟩

theorem trace_mem (next : Nat → Nat) (p a : Nat) (l : List r.T) {j k : Nat} (h : j < k) :
    ⟨p, next^[j / nTuplesPerCacheLineBuffer r] a + j % nTuplesPerCacheLineBuffer r,
    l.getD j 0⟩ ∈ trace next p a l k :=
  List.mem_map.mpr ⟨j, List.mem_range.mpr h, rfl⟩

theorem count_eq_zero {n : Nat} (hn : ∀ x : r.T, bucket n x < n) (v : List r.T) {p : Nat} (hp : n ≤ p) :
    count n v p = 0 := by
  rw [count, members, List.length_eq_zero_iff, List.filter_eq_nil_iff]
  intro x _
  have := hn x
  simp only [decide_eq_true_eq]
  omega

/-! ## `init` on one thread -/

theorem iterate_add (a b i : Nat) : (· + b)^[i] a = a + b * i := by
  induction i with
  | zero => rfl
  | succ i ih => rw [Function.iterate_succ_apply', ih, Nat.mul_succ, Nat.add_assoc]

theorem initWrites_fills {n : Nat} (hn : ∀ x : r.T, bucket n x < n) (uninit : Nat → Nat → r.T) (offsets : Nat → Nat)
    (v : List r.T) (ho : ∀ p < n, offsets p = start r (count n v) p) :
    Fills n v (initWrites n uninit offsets v) := by
  have hB := bufferLength_pos r
  let empty : Buffers r := { tuples := uninit, bufferOffset := fun _ => 0, position := offsets, writes := [] }
  let b : Buffers r := v.foldl (Buffers.push (· + nTuplesPerCacheLineBuffer r) n) empty
  have hb : ∀ p, Holds (· + nTuplesPerCacheLineBuffer r) n offsets v b p := fun p =>
    holds_foldl (· + nTuplesPerCacheLineBuffer r) n v empty rfl rfl
  have hcell : ∀ a j, (· + nTuplesPerCacheLineBuffer r)^[j / nTuplesPerCacheLineBuffer r] a +
      j % nTuplesPerCacheLineBuffer r = a + j := by
    intro a j
    rw [iterate_add, Nat.add_assoc, Nat.div_add_mod]
  have hpos : ∀ p, b.position p =
      offsets p + nTuplesPerCacheLineBuffer r * (count n v p / nTuplesPerCacheLineBuffer r) := by
    intro p
    rw [(hb p).position, iterate_add]
  constructor
  · intro w hw
    rcases List.mem_append.mp hw with hw | hw
    · have hf : w ∈ b.writes.filter (·.partition = w.partition) := List.mem_filter.mpr ⟨hw, by simp⟩
      rw [(hb w.partition).writes] at hf
      obtain ⟨j, hj, he⟩ := mem_trace hf
      have hle := Nat.mul_div_le (count n v w.partition) (nTuplesPerCacheLineBuffer r)
      have hwn : w.partition < n := by
        by_contra hge
        have := count_eq_zero hn v (Nat.le_of_not_lt hge)
        omega
      have hpad := lt_padded r (count n v w.partition)
      refine ⟨hwn, j, by omega, ?_, fun _ => ?_⟩
      · rw [← ho _ hwn, ← hcell]
        exact congrArg Write.cell he
      · exact congrArg Write.value he
    · obtain ⟨p, hp, hw⟩ := List.mem_flatMap.mp hw
      have hpn : p < n := List.mem_range.mp hp
      by_cases hz : b.bufferOffset p = 0
      · rw [if_pos hz] at hw
        cases hw
      · rw [if_neg hz] at hw
        obtain ⟨i, hi, rfl⟩ := List.mem_map.mp hw
        have hiB : i < nTuplesPerCacheLineBuffer r := List.mem_range.mp hi
        have hdm := Nat.div_add_mod (count n v p) (nTuplesPerCacheLineBuffer r)
        have hfill := (hb p).fill
        refine ⟨hpn, nTuplesPerCacheLineBuffer r * (count n v p / nTuplesPerCacheLineBuffer r) + i, ?_,
          ?_, fun hj => ?_⟩
        · show _ < padded r (count n v p)
          rw [padded, Nat.add_mul, Nat.one_mul, Nat.mul_comm]
          omega
        · show b.position p + i = start r (count n v) p + _
          rw [hpos, ho p hpn, Nat.add_assoc]
        · apply (hb p).tuples
          change nTuplesPerCacheLineBuffer r * (count n v p / nTuplesPerCacheLineBuffer r) + i < count n v p at hj
          omega
  · intro p hp j hj
    have hdm := Nat.div_add_mod (count n v p) (nTuplesPerCacheLineBuffer r)
    have hlt := Nat.mod_lt (count n v p) hB
    by_cases hfull : j < nTuplesPerCacheLineBuffer r * (count n v p / nTuplesPerCacheLineBuffer r)
    · have hmem := trace_mem (· + nTuplesPerCacheLineBuffer r) p (offsets p) (members n v p) hfull
      rw [← (hb p).writes] at hmem
      refine ⟨_, List.mem_append_left _ (List.mem_filter.mp hmem).1, rfl, ?_⟩
      rw [hcell, ho p hp]
    · have hfill := (hb p).fill
      have hz : b.bufferOffset p ≠ 0 := by omega
      let i := j - nTuplesPerCacheLineBuffer r * (count n v p / nTuplesPerCacheLineBuffer r)
      have hi : i < nTuplesPerCacheLineBuffer r := by omega
      refine ⟨⟨p, b.position p + i, b.tuples p i⟩, List.mem_append_right _ (List.mem_flatMap.mpr
        ⟨p, List.mem_range.mpr hp, ?_⟩), rfl, ?_⟩
      · rw [if_neg hz]
        exact List.mem_map.mpr ⟨i, List.mem_range.mpr hi, rfl⟩
      · show b.position p + i = _
        rw [hpos, ho p hp]
        omega

/-! ## The slices of the tasks -/

theorem length_slices (v : List r.T) (n : Nat) : (slices v n).length = n := by
  induction n generalizing v with
  | zero => rfl
  | succ n ih => rw [slices, List.length_cons, ih]

theorem flatten_slices (v : List r.T) {n : Nat} (hn : 0 < n) : (slices v n).flatten = v := by
  induction n generalizing v with
  | zero => exact absurd hn (Nat.lt_irrefl 0)
  | succ n ih =>
    rw [slices, List.flatten_cons]
    rcases Nat.eq_zero_or_pos n with rfl | hpos
    · simp [slices]
    · rw [ih _ hpos, List.take_append_drop]

def before (s : List (List r.T)) (i : Nat) : List r.T := (s.take i).flatten

theorem before_succ (s : List (List r.T)) (i : Nat) : before s (i + 1) = before s i ++ s.getD i [] := by
  unfold before
  rw [List.take_add_one, List.flatten_append, List.getD_eq_getElem?_getD]
  cases s[i]? <;> simp

theorem count_before_succ (n : Nat) (s : List (List r.T)) (i p : Nat) :
    count n (before s (i + 1)) p = count n (before s i) p + count n (s.getD i []) p := by
  rw [before_succ, count_append]

theorem flatten_eq_before (s : List (List r.T)) (i : Nat) :
    s.flatten = before s (i + 1) ++ (s.drop (i + 1)).flatten := by
  rw [before, ← List.flatten_append, List.take_append_drop]

theorem count_before_le (n : Nat) (s : List (List r.T)) (i p : Nat) :
    count n (before s (i + 1)) p ≤ count n s.flatten p := by
  rw [flatten_eq_before s i, count_append]
  exact Nat.le_add_right _ _

theorem members_slice (n : Nat) (s : List (List r.T)) (i p : Nat) {j : Nat} (hj : j < count n (s.getD i []) p) :
    (members n (s.getD i []) p).getD j 0 = (members n s.flatten p).getD (count n (before s i) p + j) 0 := by
  rw [flatten_eq_before s i, before_succ, members_append, members_append, List.append_assoc, count,
    List.getD_append_right _ _ _ _ (Nat.le_add_right _ _), Nat.add_sub_cancel_left, List.getD_append _ _ _ _ hj]

theorem exists_task (n : Nat) (s : List (List r.T)) (p : Nat) {k : Nat} (hk : k < count n s.flatten p) :
    ∃ i < s.length, ∃ j < count n (s.getD i []) p, k = count n (before s i) p + j := by
  have key : ∀ m, k < count n (before s m) p →
      ∃ i < m, ∃ j < count n (s.getD i []) p, k = count n (before s i) p + j := by
    intro m
    induction m with
    | zero => exact fun h => absurd h (by simp [before, count, members])
    | succ m ih =>
      intro h
      by_cases hm : k < count n (before s m) p
      · obtain ⟨i, hi, hj⟩ := ih hm
        exact ⟨i, by omega, hj⟩
      · rw [count_before_succ] at h
        exact ⟨m, Nat.lt_succ_self m, k - count n (before s m) p, by omega, by omega⟩
  exact key s.length (by rwa [before, List.take_length])

/-! ## The first two levels -/

theorem localHistograms_of_mem {n : Nat} {s : List (List r.T)} {order : List Nat} {i : Nat} (hi : i ∈ order) :
    localHistograms n s order i = countTuples n (s.getD i []) := by
  induction order using List.reverseRecOn with
  | nil => cases hi
  | append_singleton l k ih =>
    have hs : localHistograms n s (l ++ [k]) = update (localHistograms n s l) k (countTuples n (s.getD k [])) :=
      List.foldl_append
    rw [hs]
    by_cases hik : i = k
    · rw [hik, Function.update_self]
    · rw [Function.update_of_ne hik]
      apply ih
      rcases List.mem_append.mp hi with hi | hi
      · exact hi
      · exact absurd (List.mem_singleton.mp hi) hik

def Fits (r : RegisterSize) (n : Nat) (v : List r.T) : Prop :=
  start r (count n v) n < 2 ^ r.bits ∧ r.bytes * start r (count n v) n < 2 ^ 64

instance (n : Nat) (v : List r.T) : Decidable (Fits r n v) := inferInstanceAs (Decidable (_ ∧ _))

theorem two_pow_bits_le (r : RegisterSize) : 2 ^ r.bits ≤ 2 ^ 64 := Nat.pow_le_pow_right (by decide) r.bits_le

theorem start_add_count_lt {n : Nat} {v : List r.T} (h : Fits r n v) {p : Nat} (hp : p < n) :
    start r (count n v) p + count n v p < 2 ^ r.bits := by
  have h1 := start_add_le (r := r) (count n v) hp
  have h2 := lt_padded r (count n v p)
  have h3 := h.1
  omega

section
variable {n : Nat} {s : List (List r.T)} {local' : Nat → Nat → Nat}

theorem combineTask_foldl (last p : Nat) (lo : Nat → Nat → Nat) {k : Nat}
    (hl : ∀ i < k, local' i p = count n (s.getD i []) p) (hs : count n s.flatten p < 2 ^ 64) :
    ((List.range k).foldl (combineTask r local' last p) (lo, 0)).2 = count n (before s k) p ∧
    ∀ i q, ((List.range k).foldl (combineTask r local' last p) (lo, 0)).1 i q =
      if q = p ∧ i < k then (last + count n (before s i) p) % 2 ^ r.bits else lo i q := by
  induction k with
  | zero => exact ⟨by simp [before, count, members], fun i q => by simp⟩
  | succ k ih =>
    obtain ⟨h2, h1⟩ := ih (fun i hi => hl i (by omega))
    rw [List.range_succ, List.foldl_append, List.foldl_cons, List.foldl_nil, combineTask]
    have hle := count_before_le n s k p
    refine ⟨?_, fun i q => ?_⟩
    · rw [h2, hl k (Nat.lt_succ_self k), count_before_succ]
      rw [count_before_succ] at hle
      exact Nat.mod_eq_of_lt (by omega)
    · simp only [h2]
      by_cases hi : i = k
      · subst hi
        rw [Function.update_self]
        by_cases hq : q = p
        · subst hq
          rw [Function.update_self, if_pos ⟨rfl, Nat.lt_succ_self i⟩]
        · rw [Function.update_of_ne hq, h1, if_neg (by omega), if_neg (by omega)]
      · rw [Function.update_of_ne hi, h1]
        have hiff : q = p ∧ i < k ↔ q = p ∧ i < k + 1 := by omega
        simp only [hiff]

theorem combine_eq {nTasks : Nat} (ht : nTasks = s.length) (hf : Fits r n s.flatten)
    (hl : ∀ i < nTasks, ∀ p < n, local' i p = count n (s.getD i []) p) {m : Nat} (hm : m ≤ n) :
    let c := combine r local' nTasks m
    c.lastOffset = start r (count n s.flatten) m ∧ (∀ p < m, c.offsets p = start r (count n s.flatten) p) ∧
    (∀ p < m, c.histogram p = count n s.flatten p) ∧
    ∀ p < m, ∀ i < nTasks, c.localOffsets i p = start r (count n s.flatten) p + count n (before s i) p := by
  induction m with
  | zero => exact ⟨rfl, fun p hp => absurd hp (Nat.not_lt_zero p), fun p hp => absurd hp (Nat.not_lt_zero p),
      fun p hp => absurd hp (Nat.not_lt_zero p)⟩
  | succ m ih =>
    obtain ⟨h1, h2, h3, h4⟩ := ih (by omega)
    have hc : combine r local' nTasks (m + 1) = combineStep r local' nTasks (combine r local' nTasks m) m := by
      rw [combine, List.range_succ, List.foldl_append]
      rfl
    have hlt := start_add_count_lt hf (Nat.lt_of_succ_le hm)
    have hpow := two_pow_bits_le r
    obtain ⟨t2, t1⟩ := combineTask_foldl (r := r) (start r (count n s.flatten) m) m
      (combine r local' nTasks m).localOffsets (fun i hi => hl i hi m (by omega)) (by omega)
    have hall : before s nTasks = s.flatten := by rw [before, ht, List.take_length]
    rw [hall] at t2
    simp only [hc, combineStep, h1, t2]
    refine ⟨?_, fun p hp => ?_, fun p hp => ?_, fun p hp i hi => ?_⟩
    · have := start_mono (r := r) (count n s.flatten) hm
      have := hf.1
      rw [start] at *
      exact Nat.mod_eq_of_lt (by omega)
    · by_cases hpm : p = m
      · rw [hpm, Function.update_self]
        exact Nat.mod_eq_of_lt (by omega)
      · rw [Function.update_of_ne hpm, h2 p (by omega)]
    · by_cases hpm : p = m
      · rw [hpm, Function.update_self]
        exact Nat.mod_eq_of_lt (by omega)
      · rw [Function.update_of_ne hpm, h3 p (by omega)]
    · rw [t1]
      by_cases hpm : p = m
      · subst hpm
        have hle : count n (before s i) p ≤ count n s.flatten p := by
          have := count_before_le n s i p
          rw [count_before_succ] at this
          omega
        rw [if_pos ⟨rfl, hi⟩]
        exact Nat.mod_eq_of_lt (by omega)
      · rw [if_neg (fun h => hpm h.1), h4 p (by omega) i hi]

end

/-! ## The third level -/

theorem iterate_add_mod {a b m : Nat} (ha : a < m) (i : Nat) : (fun o => (o + b) % m)^[i] a = (a + b * i) % m := by
  induction i with
  | zero => exact (Nat.mod_eq_of_lt ha).symm
  | succ i ih => rw [Function.iterate_succ_apply', ih, Nat.mod_add_mod, Nat.mul_succ, Nat.add_assoc]

theorem cell_of_lt {a j : Nat} (h : a + j < 2 ^ r.bits) :
    (fun o => (o + nTuplesPerCacheLineBuffer r) % 2 ^ r.bits)^[j / nTuplesPerCacheLineBuffer r] a +
      j % nTuplesPerCacheLineBuffer r = a + j := by
  have hdm := Nat.div_add_mod j (nTuplesPerCacheLineBuffer r)
  rw [iterate_add_mod (by omega), Nat.mod_eq_of_lt (by omega)]
  omega

section
variable {n : Nat} (hn : ∀ x : r.T, bucket n x < n)
include hn

theorem scatterTask_spec (slice : List r.T) {lo : Nat → Nat} {t : ThreadBuffers r}
    (ht : ∀ p, t.bufferOffset p = 0) (hlo : ∀ p < n, lo p + count n slice p < 2 ^ r.bits) :
    (∀ p, (scatterTask n slice lo t).1.bufferOffset p = 0) ∧ ∀ w, w ∈ (scatterTask n slice lo t).2 ↔
      ∃ p < n, ∃ j < count n slice p, w = ⟨p, lo p + j, (members n slice p).getD j 0⟩ := by
  let next : Nat → Nat := fun o => (o + nTuplesPerCacheLineBuffer r) % 2 ^ r.bits
  let empty : Buffers r := { tuples := t.tuples, bufferOffset := t.bufferOffset, position := lo, writes := [] }
  let b : Buffers r := slice.foldl (Buffers.push next n) empty
  have hb : ∀ p, Holds next n lo slice b p := fun p => holds_foldl next n slice empty (ht p) rfl
  have hdm := fun p => Nat.div_add_mod (count n slice p) (nTuplesPerCacheLineBuffer r)
  have hlt := fun p => Nat.mod_lt (count n slice p) (bufferLength_pos r)
  have hzero : ∀ p, n ≤ p → count n slice p = 0 := fun p => count_eq_zero hn slice
  -- the flush completes the trace of each partition
  have htrace : ∀ p < n, ∀ w : Write r, w.partition = p →
      (w ∈ (scatterTask n slice lo t).2 ↔ w ∈ trace next p (lo p) (members n slice p) (count n slice p)) := by
    intro p hp w hw
    have hfill := (hb p).fill
    have hstore := trace_add next p (lo p) (count n slice p / nTuplesPerCacheLineBuffer r)
      (by rw [hfill]; exact Nat.le_of_lt (hlt p)) (hb p).tuples
    rw [hfill, hdm, ← (hb p).position, ← (hb p).writes, ← hfill] at hstore
    have hsplit : (scatterTask n slice lo t).2.filter (·.partition = p) =
        trace next p (lo p) (members n slice p) (count n slice p) := by
      rw [← hstore]
      have hflush : ((List.range n).flatMap fun p => store p (b.tuples p) (b.position p) (b.bufferOffset p)).filter
          (·.partition = p) = store p (b.tuples p) (b.position p) (b.bufferOffset p) := by
        apply filter_flatMap_partition _ _ hp
        intro q w hw
        obtain ⟨i, -, rfl⟩ := List.mem_map.mp hw
        rfl
      exact (List.filter_append _ _).trans (congrArg _ hflush)
    rw [← hsplit, List.mem_filter, decide_eq_true_eq]
    exact ⟨fun h => ⟨h, hw⟩, fun h => h.1⟩
  have hpart : ∀ w ∈ (scatterTask n slice lo t).2, w.partition < n := by
    intro w hw
    rcases List.mem_append.mp hw with hw | hw
    · have hf : w ∈ b.writes.filter (·.partition = w.partition) := List.mem_filter.mpr ⟨hw, by simp⟩
      rw [(hb w.partition).writes] at hf
      obtain ⟨j, hj, -⟩ := mem_trace hf
      by_contra hge
      rw [hzero _ (Nat.le_of_not_lt hge), Nat.zero_div] at hj
      exact absurd hj (Nat.not_lt_zero j)
    · obtain ⟨p, hp, hw⟩ := List.mem_flatMap.mp hw
      obtain ⟨i, -, rfl⟩ := List.mem_map.mp hw
      exact List.mem_range.mp hp
  refine ⟨fun p => ?_, fun w => ⟨fun hw => ?_, ?_⟩⟩
  · show (if p < n then 0 else b.bufferOffset p) = 0
    split
    · rfl
    · rename_i hp
      rw [(hb p).fill, hzero p (Nat.le_of_not_lt hp), Nat.zero_mod]
  · have hp := hpart w hw
    obtain ⟨j, hj, he⟩ := mem_trace ((htrace _ hp w rfl).mp hw)
    have := hlo _ hp
    rw [cell_of_lt (by omega)] at he
    exact ⟨_, hp, j, hj, he⟩
  · rintro ⟨p, hp, j, hj, rfl⟩
    have := hlo _ hp
    have hmem := trace_mem next p (lo p) (members n slice p) hj
    rw [cell_of_lt (by omega)] at hmem
    exact (htrace p hp _ rfl).mpr hmem

theorem mem_scatterThread {s : List (List r.T)} {lo : Nat → Nat → Nat} {tasks : List Nat}
    (hlo : ∀ i ∈ tasks, ∀ p < n, lo i p + count n (s.getD i []) p < 2 ^ r.bits) {t : ThreadBuffers r}
    (ht : ∀ p, t.bufferOffset p = 0) (w : Write r) : w ∈ scatterThread n s lo tasks t ↔
      ∃ i ∈ tasks, ∃ p < n, ∃ j < count n (s.getD i []) p, w =
        ⟨p, lo i p + j, (members n (s.getD i []) p).getD j 0⟩ := by
  induction tasks generalizing t with
  | nil => simp [scatterThread]
  | cons i tasks ih =>
    obtain ⟨h1, h2⟩ := scatterTask_spec hn (s.getD i []) ht (hlo i (List.mem_cons_self ..))
    simp only [scatterThread, List.mem_append, List.mem_cons, exists_eq_or_imp]
    rw [h2, ih (fun k hk => hlo k (List.mem_cons_of_mem _ hk)) h1]

end

structure Schedule.Valid (sch : Schedule r) (nTasks : Nat) : Prop where
  order : sch.order.Perm (List.range nTasks)
  threads : sch.threads.flatten.Perm (List.range nTasks)

theorem combined_eq {n nTasks : Nat} (ht : 0 < nTasks) {v : List r.T} (hf : Fits r n v) {sch : Schedule r}
    (hs : sch.Valid nTasks) :
    (combined n nTasks v sch).lastOffset = start r (count n v) n ∧
    (∀ p < n, (combined n nTasks v sch).offsets p = start r (count n v) p) ∧
    (∀ p < n, (combined n nTasks v sch).histogram p = count n v p) ∧
    ∀ p < n, ∀ i < nTasks, (combined n nTasks v sch).localOffsets i p =
      start r (count n v) p + count n (before (slices v nTasks) i) p := by
  have hv := flatten_slices v ht
  have hc := combine_eq (r := r) (length_slices v nTasks).symm (by rwa [hv] : Fits r n (slices v nTasks).flatten)
    (fun i hi p hp => ?_ :
      ∀ i < nTasks, ∀ p < n, localHistograms n (slices v nTasks) sch.order i p = _) (Nat.le_refl n)
  · rwa [hv] at hc
  · have hmem : i ∈ sch.order := hs.order.mem_iff.mpr (List.mem_range.mpr hi)
    have hle := count_before_le n (slices v nTasks) i p
    have hlt := start_add_count_lt hf hp
    rw [count_before_succ, hv] at hle
    rw [localHistograms_of_mem hmem, countTuples_eq, Nat.mod_eq_of_lt (by omega)]

theorem threadWrites_fills {n nTasks : Nat} (hn : ∀ x : r.T, bucket n x < n) (ht : 0 < nTasks) {v : List r.T}
    (hf : Fits r n v) {sch : Schedule r} (hs : sch.Valid nTasks) :
    Fills n v (threadWrites n nTasks v sch).flatten := by
  have hv := flatten_slices v ht
  obtain ⟨-, -, -, hlo⟩ := combined_eq ht hf hs
  have hle : ∀ i p, count n (before (slices v nTasks) i) p + count n ((slices v nTasks).getD i []) p ≤
      count n v p := by
    intro i p
    have h := count_before_le n (slices v nTasks) i p
    rwa [count_before_succ, hv] at h
  have hmem : ∀ w, w ∈ (threadWrites n nTasks v sch).flatten ↔ ∃ i < nTasks, ∃ p < n,
      ∃ j < count n ((slices v nTasks).getD i []) p, w = ⟨p, start r (count n v) p +
        (count n (before (slices v nTasks) i) p + j),
        (members n v p).getD (count n (before (slices v nTasks) i) p + j) 0⟩ := by
    intro w
    have hthread : ∀ (t : Nat) (tasks : List Nat), (∀ i ∈ tasks, i < nTasks) →
        (w ∈ scatterThread n (slices v nTasks) (combined n nTasks v sch).localOffsets tasks
          { tuples := sch.uninit t, bufferOffset := fun _ => 0 } ↔ ∃ i ∈ tasks, ∃ p < n,
        ∃ j < count n ((slices v nTasks).getD i []) p, w = ⟨p, start r (count n v) p +
          (count n (before (slices v nTasks) i) p + j),
          (members n v p).getD (count n (before (slices v nTasks) i) p + j) 0⟩) := by
      intro t tasks hlt
      rw [mem_scatterThread hn (fun i hi p hp => ?_) (fun _ => rfl)]
      · refine exists_congr fun i => and_congr_right fun hi => exists_congr fun p => and_congr_right fun hp =>
          exists_congr fun j => and_congr_right fun hj => ?_
        rw [hlo p hp i (hlt i hi), members_slice n _ i p hj, hv, Nat.add_assoc]
      · have h1 := start_add_count_lt hf hp
        have h2 := hle i p
        rw [hlo p hp i (hlt i hi)]
        omega
    have hlt : ∀ tasks ∈ sch.threads, ∀ i ∈ tasks, i < nTasks := fun tasks h i hi =>
      List.mem_range.mp (hs.threads.mem_iff.mp (List.mem_flatten.mpr ⟨tasks, h, hi⟩))
    rw [threadWrites, List.mem_flatten]
    constructor
    · rintro ⟨l, hl, hw⟩
      obtain ⟨t, hlen, rfl⟩ := List.mem_mapIdx.mp hl
      have hget := List.getElem_mem hlen
      obtain ⟨i, hi, h⟩ := (hthread t _ (hlt _ hget)).mp hw
      exact ⟨i, hlt _ hget i hi, h⟩
    · rintro ⟨i, hi, h⟩
      obtain ⟨tasks, hmem, hit⟩ := List.mem_flatten.mp (hs.threads.mem_iff.mpr (List.mem_range.mpr hi))
      obtain ⟨t, hlen, rfl⟩ := List.getElem_of_mem hmem
      exact ⟨_, List.mem_mapIdx.mpr ⟨t, hlen, rfl⟩, (hthread t _ (hlt _ hmem)).mpr ⟨i, hit, h⟩⟩
  constructor
  · intro w hw
    obtain ⟨i, hi, p, hp, j, hj, rfl⟩ := (hmem w).mp hw
    have h1 := hle i p
    have h2 := lt_padded r (count n v p)
    refine ⟨hp, count n (before (slices v nTasks) i) p + j, ?_, rfl, fun _ => rfl⟩
    show _ < padded r (count n v p)
    omega
  · intro p hp k hk
    rw [← hv] at hk
    obtain ⟨i, hi, j, hj, rfl⟩ := exists_task n (slices v nTasks) p hk
    rw [length_slices] at hi
    exact ⟨_, (hmem _).mpr ⟨i, hi, p, hp, j, hj, rfl⟩, rfl, rfl⟩

/-! ## Both versions -/

/-- `s` holds the partitions of `v`: aligned regions, one after the other inside
the allocation, that no write leaves, each with the elements of its low bits. -/
structure Partitioned (v : List r.T) (s : PartitionSet r) (writes : List (Write r)) : Prop where
  aligned : ∀ p < s.nPartitions, nTuplesPerCacheLineBuffer r ∣ s.offsets p
  disjoint : ∀ p, p + 1 < s.nPartitions → s.offsets p + padded r (count s.nPartitions v p) ≤ s.offsets (p + 1)
  allocated : ∀ p < s.nPartitions, s.offsets p + padded r (count s.nPartitions v p) ≤ s.length / r.bytes
  confined : ∀ w ∈ writes, w.partition < s.nPartitions ∧ s.offsets w.partition ≤ w.cell ∧
    w.cell < s.offsets w.partition + padded r (count s.nPartitions v w.partition)
  contents : ∀ p < s.nPartitions, (List.range (s.histogram p)).map (fun j => s.values (s.offsets p + j)) =
    (v.filter fun x => x.toNat % s.nPartitions = p).map some

theorem Fills.partitioned {m : Nat} (hm : m < 64) {v : List r.T} {writes : List (Write r)}
    (h : Fills (2 ^ m) v writes) (hf : Fits r (2 ^ m) v) {s : PartitionSet r} (hn : s.nPartitions = 2 ^ m)
    (hl : s.length = allocate r (start r (count (2 ^ m) v) (2 ^ m)))
    (ho : ∀ p < 2 ^ m, s.offsets p = start r (count (2 ^ m) v) p)
    (hh : ∀ p < 2 ^ m, s.histogram p = count (2 ^ m) v p) (hv : s.values = writes.foldl Write.apply fun _ => none) :
    Partitioned v s writes := by
  have hlen : s.length / r.bytes = start r (count (2 ^ m) v) (2 ^ m) := by
    rw [hl, allocate, Nat.mod_eq_of_lt hf.2, Nat.mul_div_cancel_left _ r.bytes_pos]
  refine ⟨?_, ?_, ?_, ?_, ?_⟩ <;> rw [hn]
  · exact fun p hp => ho p hp ▸ dvd_start _ p
  · intro p hp
    rw [ho p (by omega), ho _ hp]
    exact start_add_le _ (Nat.lt_succ_self p)
  · intro p hp
    rw [ho p hp, hlen]
    exact start_add_le _ hp
  · intro w hw
    obtain ⟨hp, j, hj, hc, -⟩ := h.confined w hw
    rw [ho _ hp, hc]
    exact ⟨hp, Nat.le_add_right _ _, Nat.add_lt_add_left hj _⟩
  · intro p hp
    have hc := h.contents hp fun _ => none
    simp only [members, bucket_two_pow hm] at hc
    rw [hh p hp, ho p hp, hv]
    exact hc

theorem bucket_lt {m : Nat} (hm : m < 64) (x : r.T) : bucket (2 ^ m) x < 2 ^ m := by
  rw [bucket_two_pow hm]
  exact Nat.mod_lt _ (Nat.two_pow_pos m)

theorem init_eq {n : Nat} (uninit : Nat → Nat → r.T) {v : List r.T} (hf : Fits r n v) :
    (init n uninit v).1.length = allocate r (start r (count n v) n) ∧
    (∀ p < n, (init n uninit v).1.offsets p = start r (count n v) p) ∧
    ∀ p < n, (init n uninit v).1.histogram p = count n v p := by
  have hcount : ∀ p < n, countTuples n v p = count n v p := fun p hp => by
    have := start_add_count_lt hf hp
    rw [countTuples_eq, Nat.mod_eq_of_lt (by omega)]
  obtain ⟨h2, h1⟩ := layout_eq (r := r) (countTuples n v) n
  refine ⟨?_, fun p hp => ?_, hcount⟩
  · show allocate r (layout r (countTuples n v) n).2 = _
    rw [h2, start_congr hcount (Nat.le_refl n), Nat.mod_eq_of_lt hf.1]
  · have := start_add_count_lt hf hp
    refine (h1 p hp).trans ?_
    rw [start_congr hcount (Nat.le_of_lt hp), Nat.mod_eq_of_lt (by omega)]

theorem init_partitioned {m : Nat} (hm : m < 64) (uninit : Nat → Nat → r.T) {v : List r.T} (hf : Fits r (2 ^ m) v) :
    Partitioned v (init (2 ^ m) uninit v).1 (init (2 ^ m) uninit v).2 := by
  obtain ⟨hl, ho, hh⟩ := init_eq uninit hf
  exact (initWrites_fills (bucket_lt hm) uninit _ v ho).partitioned hm hf rfl hl ho hh rfl

theorem initTasks_partitioned {m nTasks : Nat} (hm : m < 64) (ht : 0 < nTasks) {v : List r.T}
    (hf : Fits r (2 ^ m) v) {sch : Schedule r} (hs : sch.Valid nTasks) {writes : List (Write r)}
    (hw : writes.Perm (threadWrites (2 ^ m) nTasks v sch).flatten) :
    Partitioned v (initTasks (2 ^ m) nTasks v sch writes) writes := by
  obtain ⟨hl, ho, hh, -⟩ := combined_eq ht hf hs
  exact ((threadWrites_fills (bucket_lt hm) ht hf hs).perm hw).partitioned hm hf rfl
    (congrArg (allocate r) hl) ho hh rfl

/-- Regions that lie one after the other inside an allocation of `T` cells are no longer than what fits. -/
theorem fits_of_partitioned {n : Nat} (hn : 0 < n) (uninit : Nat → Nat → r.T) {v : List r.T}
    {writes : List (Write r)} (h : Partitioned v (init n uninit v).1 writes) : Fits r n v := by
  have hp : (init n uninit v).1.nPartitions = n := rfl
  have hstart : ∀ p < n, start r (count n v) p ≤ (init n uninit v).1.offsets p := by
    intro p hpn
    induction p with
    | zero => exact Nat.zero_le _
    | succ p ih =>
      have := h.disjoint p (by omega)
      have := ih (by omega)
      rw [hp] at *
      rw [start]
      omega
  have hle : start r (count n v) n ≤ (init n uninit v).1.length / r.bytes := by
    obtain ⟨k, rfl⟩ : ∃ k, n = k + 1 := ⟨n - 1, by omega⟩
    have h1 := h.allocated k (by rw [hp]; exact Nat.lt_succ_self k)
    have h2 := hstart k (Nat.lt_succ_self k)
    rw [hp] at h1
    rw [start]
    omega
  have hlen : (init n uninit v).1.length = r.bytes * (start r (countTuples n v) n % 2 ^ r.bits) % 2 ^ 64 := by
    rw [← (layout_eq (countTuples n v) n).1]
    rfl
  have hlt : start r (countTuples n v) n % 2 ^ r.bits < 2 ^ r.bits := Nat.mod_lt _ (Nat.two_pow_pos _)
  have hb := r.bytes_pos
  have h1 : start r (count n v) n ≤ start r (countTuples n v) n % 2 ^ r.bits := by
    refine Nat.le_trans hle ?_
    rw [hlen]
    exact Nat.div_le_of_le_mul (Nat.mod_le _ _)
  refine ⟨Nat.lt_of_le_of_lt h1 hlt, ?_⟩
  rw [Nat.le_div_iff_mul_le hb, Nat.mul_comm, hlen] at hle
  exact Nat.lt_of_le_of_lt hle (Nat.mod_lt _ (Nat.two_pow_pos _))

/-- Both versions partition the input, whatever the schedule, exactly when the
padded array fits: its length into `T` and its bytes into `size_t`. -/
theorem partition_correct_iff {m : Nat} (nTasks : Nat) (hm : m < 64) (ht : 0 < nTasks) (uninit : Nat → Nat → r.T)
    (v : List r.T) :
    (Partitioned v (init (2 ^ m) uninit v).1 (init (2 ^ m) uninit v).2 ∧
      ∀ (sch : Schedule r) (writes : List (Write r)), sch.Valid nTasks →
        writes.Perm (threadWrites (2 ^ m) nTasks v sch).flatten →
        (∀ p < 2 ^ m, (initTasks (2 ^ m) nTasks v sch writes).histogram p = (init (2 ^ m) uninit v).1.histogram p ∧
          (initTasks (2 ^ m) nTasks v sch writes).offsets p = (init (2 ^ m) uninit v).1.offsets p) ∧
        Partitioned v (initTasks (2 ^ m) nTasks v sch writes) writes) ↔ Fits r (2 ^ m) v := by
  constructor
  · rintro ⟨h, -⟩
    exact fits_of_partitioned (Nat.two_pow_pos m) uninit h
  · intro hf
    obtain ⟨-, ho, hh⟩ := init_eq uninit hf
    refine ⟨init_partitioned hm uninit hf,
      fun sch writes hs hw => ⟨fun p hp => ?_, initTasks_partitioned hm ht hf hs hw⟩⟩
    obtain ⟨-, ho', hh', -⟩ := combined_eq ht hf hs
    exact ⟨(hh' p hp).trans (hh p hp).symm, (ho' p hp).trans (ho p hp).symm⟩

def twoThreads : Schedule ._32bit := { order := [1, 0], threads := [[1], [0]], uninit := fun _ _ _ => 7 }

theorem partition_correct_iff_two :
    Partitioned [3, 2, 5] (init (r := ._32bit) 2 (fun _ _ => 0) [3, 2, 5]).1
      (init (r := ._32bit) 2 (fun _ _ => 0) [3, 2, 5]).2 ∧
    Partitioned [3, 2, 5]
      (initTasks 2 2 [3, 2, 5] twoThreads (threadWrites 2 2 [3, 2, 5] twoThreads).flatten.reverse)
      (threadWrites 2 2 [3, 2, 5] twoThreads).flatten.reverse := by
  obtain ⟨hone, htasks⟩ :=
    (partition_correct_iff (r := ._32bit) (m := 1) 2 (by decide) (by decide) (fun _ _ => 0) [3, 2, 5]).mpr
    (by decide)
  exact ⟨hone, (htasks twoThreads _ ⟨by decide, by decide⟩ (List.reverse_perm _)).2⟩

theorem histogram_replicate (uninit : Nat → Nat → r.T) (l : Nat) :
    (init 1 uninit (List.replicate l 0)).1.histogram 0 = l % 2 ^ r.bits := by
  refine (countTuples_eq 1 _ 0).trans ?_
  have hb : bucket 1 (0 : r.T) = 0 := by simp [bucket, partitioningMask]
  rw [count, members, List.filter_replicate, if_pos (decide_eq_true hb), List.length_replicate]

theorem not_contents_replicate (uninit : Nat → Nat → r.T) {l : Nat} (hl : l ≠ 0) (h0 : l % 2 ^ r.bits = 0) :
    ¬ ∀ p < 1, (List.range ((init 1 uninit (List.replicate l 0)).1.histogram p)).map (fun j =>
        (init 1 uninit (List.replicate l 0)).1.values ((init 1 uninit (List.replicate l 0)).1.offsets p + j)) =
      ((List.replicate l (0 : r.T)).filter fun x => x.toNat % 1 = p).map some := by
  intro h
  have hlen := congrArg List.length (h 0 Nat.one_pos)
  rw [histogram_replicate, h0, List.filter_replicate, if_pos (by simp), List.length_map,
    List.length_map, List.length_range, List.length_replicate] at hlen
  exact hl hlen.symm

/-- 2^32 elements of 32 bits in one partition: its counter is back at zero. -/
theorem partition_overflow : ¬ ∀ p < 1,
    (List.range ((init (r := ._32bit) 1 (fun _ _ => 0) (List.replicate (2 ^ 32) 0)).1.histogram p)).map (fun j =>
      (init (r := ._32bit) 1 (fun _ _ => 0) (List.replicate (2 ^ 32) 0)).1.values
        ((init (r := ._32bit) 1 (fun _ _ => 0) (List.replicate (2 ^ 32) 0)).1.offsets p + j)) =
      ((List.replicate (2 ^ 32) (0 : BitVec 32)).filter fun x => x.toNat % 1 = p).map some :=
  not_contents_replicate _ (Nat.ne_of_gt (Nat.two_pow_pos 32)) (Nat.mod_self _)

end PartitionSet

end PartitionedFilters

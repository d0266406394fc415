import PartitionedFilters.Count
import PartitionedFilters.CountRange
import PartitionedFilters.PartitionSetSound
import Mathlib

/-!
# Counting a batch is looking up its values

A range is counted value by value whatever the vectors are; the tasks of a
partition split it; and the partitions hold the batch as long as their layout
does not wrap.
-/

namespace PartitionedFilters

open PartitionSet CacheLineBuffer

variable {r : RegisterSize} {simd : SIMD}

/-! ## One range of values -/

theorem sumM_append_singleton {α : Type*} {l : List α} {a : α} {found : α → Option Nat} {c : Nat} :
    sumM (l ++ [a]) found = some c ↔ ∃ x y, sumM l found = some x ∧ found a = some y ∧ c = x + y := by
  rw [sumM, List.foldlM_append]
  simp only [bind, Option.bind_eq_some_iff, List.foldlM_cons, List.foldlM_nil, pure, Option.some.injEq]
  constructor
  · rintro ⟨x, hx, y', ⟨y, hy, rfl⟩, rfl⟩
    exact ⟨x, y, hx, hy, rfl⟩
  · rintro ⟨x, y, hx, hy, rfl⟩
    exact ⟨x, hx, x + y, ⟨y, hy, rfl⟩, rfl⟩

theorem eq_of_sumM {α : Type*} {l : List α} {found : α → Option Nat} {g : α → Nat}
    (hg : ∀ a ∈ l, ∀ x, found a = some x → x = g a) {c : Nat} (h : sumM l found = some c) : c = (l.map g).sum := by
  induction l using List.reverseRecOn generalizing c with
  | nil => exact (Option.some.inj h).symm
  | append_singleton l a ih =>
    obtain ⟨x, y, hx, hy, rfl⟩ := sumM_append_singleton.mp h
    rw [List.map_append, List.sum_append, List.map_singleton, List.sum_singleton,
      ih (fun b hb => hg b (List.mem_append_left _ hb)) hx, hg a (by simp) y hy]

theorem sumM_isSome {α : Type*} {l : List α} (found : α → Option Nat) (h : ∀ a ∈ l, ∃ x, found a = some x) :
    ∃ c, sumM l found = some c := by
  induction l using List.reverseRecOn with
  | nil => exact ⟨0, rfl⟩
  | append_singleton l a ih =>
    obtain ⟨x, hx⟩ := ih fun b hb => h b (List.mem_append_left _ hb)
    obtain ⟨y, hy⟩ := h a (by simp)
    exact ⟨x + y, sumM_append_singleton.mpr ⟨x, y, hx, hy, rfl⟩⟩

theorem isSome_of_sumM {α : Type*} {l : List α} {found : α → Option Nat} {c : Nat} (h : sumM l found = some c)
    {a : α} (ha : a ∈ l) : ∃ x, found a = some x := by
  induction l using List.reverseRecOn generalizing c with
  | nil => cases ha
  | append_singleton l b ih =>
    obtain ⟨x, y, hx, hy, -⟩ := sumM_append_singleton.mp h
    rcases List.mem_append.mp ha with hl | hb
    · exact ih hx hl
    · rw [List.mem_singleton.mp hb]
      exact ⟨y, hy⟩

namespace Pointer
variable {isa : InstructionSet} (p : Pointer r) {begin : Nat}

theorem eq_of_load {v : Lanes r (simd.nElements r)} (h : p.load simd isa begin = some v) :
    simd.Loadable isa r (p.extent.skip (r.bytes * begin)) ∧ v = p.gather begin := SIMD.load_eq_some h

theorem load_of_readable {length t : Nat} (h : simd.Readable isa r (p.extent.skip (r.bytes * begin)) length)
    (ht : simd.nElements r * t < length) :
    p.load simd isa (begin + simd.nElements r * t) = some (p.gather (begin + simd.nElements r * t)) := by
  refine SIMD.load_eq ?_ _
  rw [Nat.mul_add, ← Extent.skip_skip]
  exact (h.skip (Nat.succ_le_of_lt ht)).loadable Nat.one_pos

end Pointer

theorem restMask_apply {n : Nat} (rest : Nat) (l : Fin n) : restMask rest l = decide (l < rest) := by
  rw [restMask, Nat.one_shiftLeft, Nat.testBit_two_pow_sub_one]

namespace Counter

variable (f : Counter r (simd.nElements r)) (isa : InstructionSet) (p : Pointer r) (index : Nat)

theorem countVector_rest (begin rest : Nat) (h : rest ≤ simd.nElements r) :
    f.countVector index (p.gather begin) (restMask rest) =
      (List.range rest).countP fun j => f.contains index (p.value (begin + j)) := by
  rw [f.countVector_eq, ← countP_range_of_lt h fun j => f.contains index (p.value (begin + j)),
    ← countP_finRange _ fun l => decide (l < rest) && f.contains index (p.value (begin + l))]
  simp only [restMask_apply]
  rfl

theorem countVector_allLanes (begin : Nat) : f.countVector index (p.gather begin) allLanes =
    (List.range (simd.nElements r)).countP fun j => f.contains index (p.value (begin + j)) := by
  rw [f.countVector_eq, ← countP_finRange _ fun j => f.contains index (p.value (begin + j))]
  simp only [allLanes, Bool.true_and]
  rfl

theorem eq_of_countVectors {begin stop c : Nat} (h : f.countVectors isa p index begin stop = some c) :
    c = (List.range (simd.nElements r * ((stop - begin) / simd.nElements r))).countP fun j =>
      f.contains index (p.value (begin + j)) := by
  rw [countP_range_mul]
  refine eq_of_sumM (fun t _ x hx => ?_) h
  obtain ⟨values, hload, hcount⟩ := Option.bind_eq_some_iff.mp hx
  rw [(p.eq_of_load hload).2, countVector_allLanes] at hcount
  simp only [Nat.add_assoc] at hcount
  exact (Option.some.inj hcount).symm

/-- The loop that loads ahead has counted the vectors before the one it holds. -/
theorem pipelineStep_iterate (begin t : Nat) :
    (f.pipelineStep p index)^[t] ⟨0, begin, p.gather begin⟩ =
      ⟨(List.range (simd.nElements r * t)).countP fun j => f.contains index (p.value (begin + j)),
        begin + simd.nElements r * t, p.gather (begin + simd.nElements r * t)⟩ := by
  induction t with
  | zero => rfl
  | succ t ih =>
    rw [Function.iterate_succ_apply', ih, pipelineStep, Nat.mul_succ, countP_range_add]
    simp only [countVector_allLanes, Nat.add_assoc]

theorem eq_of_countPipelined {begin stop c : Nat} (h : f.countPipelined isa p index begin stop = some c) :
    c = (List.range (simd.nElements r * ((stop - begin) / simd.nElements r))).countP fun j =>
      f.contains index (p.value (begin + j)) := by
  have hn := simd.nElements_pos r
  unfold countPipelined at h
  split at h
  · obtain ⟨values, hload, hcount⟩ := Option.bind_eq_some_iff.mp h
    obtain ⟨q, hq⟩ : ∃ q, (stop - begin) / simd.nElements r = q + 1 :=
      Nat.exists_eq_succ_of_ne_zero (Nat.ne_of_gt (Nat.div_pos (by omega) hn))
    rw [(p.eq_of_load hload).2, hq, Nat.add_sub_cancel, pipelineStep_iterate] at hcount
    rw [← Option.some.inj hcount, hq, Nat.mul_succ, countP_range_add]
    simp only [countVector_allLanes, Nat.add_assoc]
  · rw [← Option.some.inj h, Nat.div_eq_of_lt (by omega)]
    rfl

theorem eq_of_countWhole {pipelined : Bool} {begin stop c : Nat}
    (h : f.countWhole isa p index pipelined begin stop = some c) :
    c = (List.range (simd.nElements r * ((stop - begin) / simd.nElements r))).countP fun j =>
      f.contains index (p.value (begin + j)) := by
  cases pipelined with
  | false => exact f.eq_of_countVectors isa p index h
  | true => exact f.eq_of_countPipelined isa p index h

theorem eq_of_countRest {begin stop c : Nat} (hlt : stop - begin < simd.nElements r)
    (h : f.countRest isa p index begin stop = some c) :
    c = (List.range (stop - begin)).countP fun j => f.contains index (p.value (begin + j)) := by
  unfold countRest at h
  split at h
  · obtain ⟨values, hload, hcount⟩ := Option.bind_eq_some_iff.mp h
    rw [(p.eq_of_load hload).2, f.countVector_rest _ _ _ _ (Nat.le_of_lt hlt)] at hcount
    exact (Option.some.inj hcount).symm
  · rename_i hnone
    have hzero : stop - begin = 0 := by
      by_cases hs : simd = .Scalar
      · rw [hs] at hlt
        exact Nat.lt_one_iff.mp hlt
      · by_contra hne
        exact hnone ⟨hs, by omega⟩
    rw [← Option.some.inj h, hzero]
    rfl

theorem rest_eq (begin stop : Nat) :
    stop - (begin + simd.nElements r * ((stop - begin) / simd.nElements r)) =
      (stop - begin) % simd.nElements r := by
  have hdm := Nat.div_add_mod (stop - begin) (simd.nElements r)
  omega

theorem eq_of_countRange {pipelined : Bool} {begin stop c : Nat}
    (h : f.countRange isa p index pipelined begin stop = some c) :
    c = (List.range (stop - begin)).countP fun j => f.contains index (p.value (begin + j)) := by
  obtain ⟨whole, hwhole, h⟩ := Option.bind_eq_some_iff.mp h
  obtain ⟨rest, hrest, h⟩ := Option.bind_eq_some_iff.mp h
  have hlt := Nat.mod_lt (stop - begin) (simd.nElements_pos r)
  rw [← rest_eq] at hlt
  have hsplit := countP_range_add (fun j => f.contains index (p.value (begin + j)))
    (simd.nElements r * ((stop - begin) / simd.nElements r)) ((stop - begin) % simd.nElements r)
  rw [Nat.div_add_mod] at hsplit
  rw [← Option.some.inj h, f.eq_of_countWhole isa p index hwhole, f.eq_of_countRest isa p index hlt hrest, rest_eq,
    hsplit]
  simp only [Nat.add_assoc]

/-- A range is counted without a fault if its vectors can be loaded. -/
theorem countRange_isSome {pipelined : Bool} {begin stop : Nat}
    (h : simd.Readable isa r (p.extent.skip (r.bytes * begin)) (stop - begin)) :
    ∃ c, f.countRange isa p index pipelined begin stop = some c := by
  have hload : ∀ t, simd.nElements r * t < stop - begin →
      ∃ v, p.load simd isa (begin + simd.nElements r * t) = some v :=
    fun t ht => ⟨_, p.load_of_readable h ht⟩
  have hvectors : ∃ c, f.countVectors isa p index begin stop = some c := by
    refine sumM_isSome _ fun t ht => ?_
    have hle := Nat.mul_le_mul_left (simd.nElements r) (Nat.succ_le_of_lt (List.mem_range.mp ht))
    have hn := simd.nElements_pos r
    rw [Nat.mul_succ] at hle
    obtain ⟨v, hv⟩ := hload t (by have := Nat.mul_div_le (stop - begin) (simd.nElements r); omega)
    exact ⟨_, by rw [hv]; rfl⟩
  have hpipelined : ∃ c, f.countPipelined isa p index begin stop = some c := by
    unfold countPipelined
    split
    · have hn := simd.nElements_pos r
      obtain ⟨v, hv⟩ := hload 0 (by omega)
      rw [Nat.mul_zero, Nat.add_zero] at hv
      exact ⟨_, by rw [hv]; rfl⟩
    · exact ⟨0, rfl⟩
  obtain ⟨whole, hwhole⟩ : ∃ c, f.countWhole isa p index pipelined begin stop = some c := by
    cases pipelined with
    | false => exact hvectors
    | true => exact hpipelined
  obtain ⟨rest, hrest⟩ : ∃ c, f.countRest isa p index
      (begin + simd.nElements r * ((stop - begin) / simd.nElements r)) stop = some c := by
    unfold countRest
    split
    · obtain ⟨v, hv⟩ := hload ((stop - begin) / simd.nElements r) (by omega)
      exact ⟨_, by rw [hv]; rfl⟩
    · exact ⟨0, rfl⟩
  exact ⟨whole + rest, by rw [countRange, hwhole, hrest]; rfl⟩

theorem load_of_countWhole {pipelined : Bool} {begin stop c : Nat}
    (h : f.countWhole isa p index pipelined begin stop = some c) (hq : 0 < (stop - begin) / simd.nElements r) :
    ∃ v, p.load simd isa begin = some v := by
  cases pipelined with
  | false =>
    obtain ⟨x, hx⟩ := isSome_of_sumM h (List.mem_range.mpr hq)
    obtain ⟨v, hload, -⟩ := Option.bind_eq_some_iff.mp hx
    exact ⟨v, hload⟩
  | true =>
    have hle := Nat.div_pos_iff.mp hq
    simp only [countWhole, if_true, countPipelined] at h
    rw [if_pos (by omega)] at h
    obtain ⟨v, hload, -⟩ := Option.bind_eq_some_iff.mp h
    exact ⟨v, hload⟩

theorem load_of_countRest {begin stop c : Nat}
    (h : f.countRest isa p index (begin + simd.nElements r * ((stop - begin) / simd.nElements r)) stop = some c)
    (hne : 0 < (stop - begin) % simd.nElements r) :
    ∃ v, p.load simd isa (begin + simd.nElements r * ((stop - begin) / simd.nElements r)) = some v := by
  unfold countRest at h
  split at h
  · obtain ⟨v, hload, -⟩ := Option.bind_eq_some_iff.mp h
    exact ⟨v, hload⟩
  · rename_i hnone
    rw [← rest_eq] at hne
    refine absurd ⟨fun hs => ?_, by omega⟩ hnone
    rw [rest_eq, hs] at hne
    exact Nat.ne_of_gt hne (Nat.mod_one _)

/-- The first vector of a range is loaded, and so is the rest behind the whole vectors. -/
theorem readable_of_countRange {pipelined : Bool} {begin stop c : Nat}
    (hend : p.extent.address + r.bytes * stop ≤ p.extent.limit)
    (h : f.countRange isa p index pipelined begin stop = some c) :
    simd.Readable isa r (p.extent.skip (r.bytes * begin)) (stop - begin) := by
  have hn := simd.nElements_pos r
  rcases Nat.eq_zero_or_pos (stop - begin) with hzero | hpos
  · exact .inl hzero
  obtain ⟨whole, hwhole, h⟩ := Option.bind_eq_some_iff.mp h
  obtain ⟨rest, hrest, -⟩ := Option.bind_eq_some_iff.mp h
  have hdm := Nat.div_add_mod (stop - begin) (simd.nElements r)
  refine .inr ⟨?_, ?_⟩
  · rcases Nat.eq_zero_or_pos ((stop - begin) / simd.nElements r) with hq | hq
    · obtain ⟨v, hload⟩ := f.load_of_countRest isa p index hrest (by rw [hq] at hdm; omega)
      rw [hq, Nat.mul_zero, Nat.add_zero] at hload
      exact (p.eq_of_load hload).1.1
    · obtain ⟨v, hload⟩ := f.load_of_countWhole isa p index hwhole hq
      exact (p.eq_of_load hload).1.1
  · -- the vectors are the whole ones and, if there is a rest, one more
    have hvectors : (stop - begin + simd.nElements r - 1) / simd.nElements r =
        (stop - begin) / simd.nElements r + ((stop - begin) % simd.nElements r + simd.nElements r - 1) /
          simd.nElements r := by
      rw [← Nat.mul_add_div hn]
      congr 1
      omega
    have hskip : p.extent.address + r.bytes * (begin + (stop - begin)) ≤ p.extent.limit := by
      rwa [Nat.add_sub_cancel' (by omega)]
    rw [hvectors, Nat.mul_add, Nat.mul_add]
    rw [Nat.mul_add] at hskip
    rcases Nat.eq_zero_or_pos ((stop - begin) % simd.nElements r) with hzero | hne
    · rw [hzero, Nat.zero_add, Nat.div_eq_of_lt (Nat.sub_lt hn Nat.one_pos), Nat.mul_zero,
        Nat.mul_zero, Nat.add_zero]
      rw [hzero, Nat.add_zero] at hdm
      rw [hdm]
      simp only [Extent.skip]
      omega
    · obtain ⟨v, hload⟩ := f.load_of_countRest isa p index hrest hne
      have hlimit := (p.eq_of_load hload).1.2
      have hmod := Nat.mod_lt (stop - begin) hn
      have hone : ((stop - begin) % simd.nElements r + simd.nElements r - 1) / simd.nElements r = 1 :=
        Nat.div_eq_of_lt_le (by omega) (by omega)
      rw [hone, Nat.mul_one]
      simp only [Extent.skip, Nat.mul_add] at hlimit ⊢
      omega

end Counter

/-! ## The ranges of the tasks -/

namespace CountTask

theorem dvd_border (length nTasks j : Nat) : 64 ∣ border length nTasks j := by
  unfold border valign
  split <;> omega

/-- As long as nothing wraps, the borders are the multiples of the stride, rounded up. -/
theorem border_eq {length nTasks j : Nat} (h : (length / nTasks + 1) * j + 63 < 2 ^ 64) :
    border length nTasks j = 64 * (((length / nTasks + 1) * j + 63) / 64) := by
  have hmod : (length / nTasks + 1) * j % 2 ^ 64 = (length / nTasks + 1) * j := Nat.mod_eq_of_lt (by omega)
  unfold border valign
  rw [hmod]
  split <;> omega

/-- Where the next border wraps, the task is empty: there are more tasks than values. -/
theorem stop_eq_zero {length nTasks j : Nat} (hl : length < 2 ^ 62) (hq : nTasks < 2 ^ 64) (hj : j < nTasks)
    (h : 2 ^ 64 ≤ (length / nTasks + 1) * (j + 1) + 63) : min (border length nTasks (j + 1)) length = 0 := by
  have hstride : (length / nTasks + 1) * (j + 1) ≤ length + nTasks := by
    refine (Nat.mul_le_mul_left _ hj).trans ?_
    rw [Nat.add_mul, Nat.one_mul]
    exact Nat.add_le_add_right (Nat.div_mul_le_self _ _) _
  have hone : length / nTasks + 1 = 1 := by rw [Nat.div_eq_of_lt (by omega)]
  rw [hone, Nat.one_mul] at h
  have hmod : (j + 1) % 2 ^ 64 = j + 1 := Nat.mod_eq_of_lt (by omega)
  have hround : (j + 1) % 64 ≠ 0 ∧ ((j + 1) / 64 + 1) * 64 = 2 ^ 64 := by omega
  rw [border, hone, Nat.one_mul, hmod, valign, if_pos hround.1, hround.2, Nat.mod_self, Nat.zero_min]

theorem existsUnique_range {length nTasks : Nat} (hl : length < 2 ^ 62) (hpos : 0 < nTasks) (hq : nTasks < 2 ^ 64)
    {e : Nat} (he : e < length) :
    ∃! j, j < nTasks ∧ border length nTasks j ≤ e ∧ e < min (border length nTasks (j + 1)) length := by
  have hlast : length < (length / nTasks + 1) * nTasks := by
    rw [Nat.mul_comm]
    exact Nat.lt_mul_div_succ _ hpos
  have hex : ∃ k, e < 64 * (((length / nTasks + 1) * k + 63) / 64) := ⟨nTasks, by omega⟩
  have hmono : ∀ {a b : Nat}, a ≤ b → (length / nTasks + 1) * a ≤ (length / nTasks + 1) * b := Nat.mul_le_mul_left _
  -- the first border behind the value
  obtain ⟨j, hfind⟩ : ∃ j, Nat.find hex = j + 1 := by
    refine Nat.exists_eq_succ_of_ne_zero fun h0 => ?_
    have := Nat.find_spec hex
    rw [h0] at this
    omega
  have hbehind := Nat.find_spec hex
  have hbefore : 64 * (((length / nTasks + 1) * j + 63) / 64) ≤ e := Nat.le_of_not_lt (Nat.find_min hex (by omega))
  have hlt : j < nTasks := by
    have := Nat.find_min' hex (show e < 64 * (((length / nTasks + 1) * nTasks + 63) / 64) by omega)
    omega
  rw [hfind] at hbehind
  have hstride := Nat.div_le_self length nTasks
  have hsucc : (length / nTasks + 1) * (j + 1) = (length / nTasks + 1) * j + (length / nTasks + 1) :=
    Nat.mul_succ ..
  refine ⟨j, ⟨hlt, ?_, ?_⟩, fun i hi => ?_⟩
  · rw [border_eq (by omega)]
    exact hbefore
  · rw [border_eq (by omega)]
    omega
  · obtain ⟨hi, hle, hgt⟩ := hi
    by_cases hwrap : (length / nTasks + 1) * (i + 1) + 63 < 2 ^ 64
    · have hi' := hmono (Nat.le_add_right i 1)
      rw [border_eq (by omega)] at hle hgt
      by_contra hne
      rcases Nat.lt_or_gt_of_ne hne with h | h
      · have := hmono (show i + 1 ≤ j from h)
        omega
      · have := hmono (show j + 1 ≤ i from h)
        omega
    · rw [stop_eq_zero hl hq hi (Nat.le_of_not_lt hwrap)] at hgt
      exact absurd hgt (Nat.not_lt_zero e)

/-! ## All tasks -/

/-- What `addTasks` has left before partition `i`, and the tasks it gives to it. -/
def remaining (nPartitions nTasksPerLevel i : Nat) : Nat :=
  ((List.range i).foldl (addTasks nPartitions) ([], nTasksPerLevel)).2

def share (nPartitions nTasksPerLevel i : Nat) : Nat :=
  let remaining := remaining nPartitions nTasksPerLevel i
  if 0 < remaining then max (remaining / (nPartitions - i)) 1 else 1

variable {nPartitions nTasksPerLevel : Nat}

theorem remaining_le (nPartitions nTasksPerLevel i : Nat) :
    remaining nPartitions nTasksPerLevel i ≤ nTasksPerLevel := by
  induction i with
  | zero => exact Nat.le_refl _
  | succ i ih =>
    refine Nat.le_trans ?_ ih
    rw [remaining, List.range_succ, List.foldl_append, List.foldl_cons, List.foldl_nil]
    show (if 0 < remaining nPartitions nTasksPerLevel i then _ else remaining nPartitions nTasksPerLevel i) ≤ _
    split
    · exact Nat.sub_le _ _
    · exact Nat.le_refl _

theorem share_pos (nPartitions nTasksPerLevel i : Nat) : 0 < share nPartitions nTasksPerLevel i := by
  unfold share
  simp only
  split <;> omega

theorem share_lt (hq : nTasksPerLevel < 2 ^ 64) (i : Nat) : share nPartitions nTasksPerLevel i < 2 ^ 64 := by
  have hle := remaining_le nPartitions nTasksPerLevel i
  have hdiv := Nat.div_le_self (remaining nPartitions nTasksPerLevel i) (nPartitions - i)
  unfold share
  simp only
  split <;> omega

theorem foldl_addTasks (m : Nat) : ((List.range m).foldl (addTasks nPartitions) ([], nTasksPerLevel)).1 =
    (List.range m).flatMap fun i => (List.range (share nPartitions nTasksPerLevel i)).map fun j =>
      ⟨i, j, share nPartitions nTasksPerLevel i⟩ := by
  induction m with
  | zero => rfl
  | succ m ih =>
    rw [List.range_succ, List.foldl_append, List.flatMap_append, ← ih]
    simp only [List.foldl_cons, List.foldl_nil, List.flatMap_cons, List.flatMap_nil, List.append_nil]
    rfl

theorem mem_tasks {t : CountTask} : t ∈ tasks nPartitions nTasksPerLevel ↔ t.partition < nPartitions ∧
    t.j < t.nTasks ∧ t.nTasks = share nPartitions nTasksPerLevel t.partition := by
  rw [tasks, foldl_addTasks]
  simp only [List.mem_flatMap, List.mem_map, List.mem_range]
  constructor
  · rintro ⟨i, hi, j, hj, rfl⟩
    exact ⟨hi, hj, rfl⟩
  · rintro ⟨hi, hj, hn⟩
    refine ⟨_, hi, t.j, hn ▸ hj, ?_⟩
    cases t
    simp only at hn
    rw [hn]

theorem existsUnique_task (hq : nTasksPerLevel < 2 ^ 64) {i length : Nat} (hi : i < nPartitions)
    (hl : length < 2 ^ 62) {e : Nat} (he : e < length) : ∃! t, t ∈ tasks nPartitions nTasksPerLevel ∧
    t.partition = i ∧ t.begin length ≤ e ∧ e < t.stop length := by
  obtain ⟨j, ⟨hj, hrange⟩, hunique⟩ := existsUnique_range hl
    (share_pos nPartitions nTasksPerLevel i) (share_lt hq i) he
  refine ⟨⟨i, j, share nPartitions nTasksPerLevel i⟩, ⟨mem_tasks.mpr ⟨hi, hj, rfl⟩, rfl, hrange⟩, fun t ht => ?_⟩
  obtain ⟨hmem, rfl, hin⟩ := ht
  obtain ⟨-, htj, hn⟩ := mem_tasks.mp hmem
  have hsame := hunique t.j ⟨hn ▸ htj, by rw [← hn]; exact hin⟩
  cases t
  simp only at hn hsame
  rw [hn, hsame]

end CountTask

/-! ## A batch -/

inductive PartitionSet.BatchTasks (n nTasks : Nat) (v : List r.T) : Partitioning → PartitionSet r → Prop
  | enabled {sch : Schedule r} {writes : List (Write r)} (valid : sch.Valid nTasks)
      (order : writes.Perm (threadWrites n nTasks v sch).flatten) :
      BatchTasks n nTasks v .Enabled (initTasks n nTasks v sch writes)
  | disabled : BatchTasks n nTasks v .Disabled (initDisabled v)

structure Laid (simd : SIMD) (isa : InstructionSet) (partitioning : Partitioning) (v : List r.T)
    (p : PartitionSet r) (values : Pointer r) : Prop where
  contents : ∀ i < p.nPartitions, (List.range (p.histogram i)).map (fun j => values.value (p.offsets i + j)) =
    v.filter fun x => partitionOf partitioning p.nPartitions x = i
  inside : ∀ x : r.T, partitionOf partitioning p.nPartitions x < p.nPartitions
  readable : ∀ i < p.nPartitions,
    simd.Readable isa r (values.extent.skip (r.bytes * p.offsets i)) (p.histogram i)

def Counter.lookups {n : Nat} (f : Counter r n) (partitioning : Partitioning) (nPartitions : Nat) (v : List r.T) :
    Nat :=
  v.countP fun x => f.contains (partitionOf partitioning nPartitions x) x

namespace Counter

variable (f : Counter r (simd.nElements r)) {isa : InstructionSet} {partitioning : Partitioning} {v : List r.T}
  {p : PartitionSet r} {values : Pointer r}

theorem eq_of_count {pipelined : Bool} {c : Nat} (h : f.count isa values pipelined p = some c) :
    c = ((List.range p.nPartitions).map fun i => (List.range (p.histogram i)).countP fun j =>
      f.contains i (values.value (p.offsets i + j))).sum % 2 ^ 64 := by
  obtain ⟨counter, hcounter, h⟩ := Option.bind_eq_some_iff.mp h
  rw [← Option.some.inj h, eq_of_sumM (fun i _ x hx => ?_) hcounter]
  have hx := f.eq_of_countRange isa values i hx
  rwa [Nat.add_sub_cancel_left] at hx

theorem count_isSome (hreadable : ∀ i < p.nPartitions,
      simd.Readable isa r (values.extent.skip (r.bytes * p.offsets i)) (p.histogram i)) (pipelined : Bool) :
    ∃ c, f.count isa values pipelined p = some c := by
  obtain ⟨counter, hcounter⟩ := sumM_isSome (l := List.range p.nPartitions)
    (fun i => f.countRange isa values i pipelined (p.offsets i) (p.offsets i + p.histogram i)) fun i hi =>
      f.countRange_isSome isa values i (by
        rw [Nat.add_sub_cancel_left]
        exact hreadable i (List.mem_range.mp hi))
  exact ⟨counter % 2 ^ 64, by rw [count, hcounter]; rfl⟩

/-- The tasks find the values that one thread finds, in any order. -/
theorem eq_of_countTasks {pipelined : Bool} {nTasksPerLevel : Nat} (hq : nTasksPerLevel < 2 ^ 64)
    (hl : ∀ i < p.nPartitions, p.histogram i < 2 ^ 62) {order : List CountTask}
    (horder : order.Perm (CountTask.tasks p.nPartitions nTasksPerLevel)) {c : Nat}
    (h : f.countTasks isa values pipelined p order = some c) :
    c = ((List.range p.nPartitions).map fun i => (List.range (p.histogram i)).countP fun j =>
      f.contains i (values.value (p.offsets i + j))).sum % 2 ^ 64 := by
  obtain ⟨counter, hcounter, h⟩ := Option.bind_eq_some_iff.mp h
  rw [← Option.some.inj h, eq_of_sumM (fun t _ x hx => f.eq_of_countRange isa values t.partition hx) hcounter,
    (horder.map _).sum_eq, CountTask.tasks, CountTask.foldl_addTasks, List.map_flatMap, List.flatMap_def,
    List.sum_flatten, List.map_map]
  congr 2
  refine List.map_congr_left fun i hi => ?_
  rw [Function.comp_apply, List.map_map, ← sum_countP_ranges (fun j => Nat.min_le_right _ _) (fun e he =>
    CountTask.existsUnique_range (hl i (List.mem_range.mp hi)) (CountTask.share_pos p.nPartitions nTasksPerLevel i)
      (CountTask.share_lt hq i) he)]
  congr 1
  refine List.map_congr_left fun j _ => ?_
  rw [Function.comp_apply]
  simp only [CountTask.begin, CountTask.stop, Nat.add_sub_add_left, Nat.add_assoc]

theorem countTasks_isSome (hreadable : ∀ i < p.nPartitions,
      simd.Readable isa r (values.extent.skip (r.bytes * p.offsets i)) (p.histogram i)) (pipelined : Bool)
    {nTasksPerLevel : Nat} {order : List CountTask}
    (horder : order.Perm (CountTask.tasks p.nPartitions nTasksPerLevel)) :
    ∃ c, f.countTasks isa values pipelined p order = some c := by
  obtain ⟨counter, hcounter⟩ := sumM_isSome (l := order) (f.countTask isa values pipelined p) fun t ht => by
    refine f.countRange_isSome isa values t.partition ?_
    have hi := (CountTask.mem_tasks.mp (horder.mem_iff.mp ht)).1
    obtain ⟨k, hk⟩ : simd.nElements r ∣ t.begin (p.histogram t.partition) :=
      Dvd.dvd.trans (by cases simd <;> cases r <;> decide) (CountTask.dvd_border _ _ _)
    rw [Nat.add_sub_add_left, Nat.mul_add, ← Extent.skip_skip, hk]
    rcases Nat.eq_zero_or_pos (t.stop (p.histogram t.partition) - simd.nElements r * k) with hzero | hpos
    · exact .inl hzero
    · refine (hreadable _ hi).skip ?_
      have hstop : t.stop (p.histogram t.partition) ≤ p.histogram t.partition := Nat.min_le_right _ _
      omega
  exact ⟨counter % 2 ^ 64, by rw [countTasks, hcounter]; rfl⟩

theorem sum_of_laid (h : Laid simd isa partitioning v p values) (hv : v.length < 2 ^ 64) :
    ((List.range p.nPartitions).map fun i => (List.range (p.histogram i)).countP fun j =>
      f.contains i (values.value (p.offsets i + j))).sum % 2 ^ 64 = f.lookups partitioning p.nPartitions v := by
  have hpart : ∀ i < p.nPartitions,
      ((List.range (p.histogram i)).countP fun j => f.contains i (values.value (p.offsets i + j))) =
        (v.filter fun x => partitionOf partitioning p.nPartitions x = i).countP (f.contains i) := by
    intro i hi
    rw [← h.contents i hi, List.countP_map]
    rfl
  rw [List.map_congr_left fun i hi => hpart i (List.mem_range.mp hi), sum_countP_filter _ h.inside]
  exact Nat.mod_eq_of_lt (Nat.lt_of_le_of_lt List.countP_le_length hv)

end Counter

/-! ## The layout of a batch -/

section
variable {isa : InstructionSet}

theorem partitionOf_two_pow {m : Nat} (hm : m < 64) (x : r.T) :
    partitionOf .Enabled (2 ^ m) x = bucket (2 ^ m) x := by
  have hlt : 2 ^ m - 1 < 2 ^ 64 := Nat.lt_of_lt_of_le (Nat.sub_lt (Nat.two_pow_pos m) Nat.one_pos)
    (Nat.pow_le_pow_right (by decide) (Nat.le_of_lt hm))
  have hx : x.toNat < 2 ^ 64 := Nat.lt_of_lt_of_le x.isLt (two_pow_bits_le r)
  rw [bucket_two_pow hm, partitionOf, BitVec.toNat_and, BitVec.toNat_setWidth, BitVec.toNat_ofNat,
    Nat.mod_eq_of_lt hx, Nat.mod_eq_of_lt hlt, Nat.and_two_pow_sub_one_eq_mod]

theorem readable_of_partitioned {v : List r.T} {p : PartitionSet r} {writes : List (Write r)}
    (h : Partitioned v p writes) {caller : Extent} {values : Pointer r} (hat : p.At .Enabled caller values)
    {i : Nat} (hi : i < p.nPartitions) (hcount : p.histogram i = count p.nPartitions v i) :
    simd.Readable isa r (values.extent.skip (r.bytes * p.offsets i)) (p.histogram i) := by
  have hn := simd.nElements_pos r
  have hline : 64 ∣ r.bytes * nTuplesPerCacheLineBuffer r := by cases r <;> decide
  have hbuffer : simd.nElements r ∣ nTuplesPerCacheLineBuffer r := by cases simd <;> cases r <;> decide
  obtain ⟨haddress, hlimit⟩ := hat.allocated rfl
  refine .inr ⟨?_, ?_⟩
  · have hoffset := hline.trans (Nat.mul_dvd_mul_left r.bytes (h.aligned i hi))
    exact SIMD.alignment_dvd_64.trans (Nat.dvd_add haddress hoffset)
  · have hvectors : simd.nElements r * ((p.histogram i + simd.nElements r - 1) / simd.nElements r) ≤
        padded r (count p.nPartitions v i) := by
      obtain ⟨k, hk⟩ : simd.nElements r ∣ padded r (count p.nPartitions v i) := Nat.dvd_mul_left_of_dvd hbuffer _
      have hpad := lt_padded r (count p.nPartitions v i)
      rw [hk] at hpad ⊢
      refine Nat.mul_le_mul_left _ (Nat.le_of_lt_succ ((Nat.div_lt_iff_lt_mul hn).mpr ?_))
      rw [hcount, Nat.succ_mul, Nat.mul_comm k]
      omega
    have hroom := Nat.mul_le_mul_left r.bytes (h.allocated i hi)
    have hvectors := Nat.mul_le_mul_left r.bytes hvectors
    have hlength := Nat.mul_div_le p.length r.bytes
    rw [Nat.mul_add] at hroom
    simp only [Extent.skip]
    omega

theorem Laid.of_partitioned {m : Nat} (hm : m < 64) {v : List r.T} {p : PartitionSet r} {writes : List (Write r)}
    (hn : p.nPartitions = 2 ^ m) (h : Partitioned v p writes) {caller : Extent} {values : Pointer r}
    (hat : p.At .Enabled caller values) : Laid simd isa .Enabled v p values := by
  have hgroup : ∀ x : r.T, partitionOf .Enabled p.nPartitions x = x.toNat % p.nPartitions := by
    intro x
    rw [hn, partitionOf_two_pow hm, bucket_two_pow hm]
  have hcount : ∀ i < p.nPartitions, p.histogram i = count p.nPartitions v i := by
    intro i hi
    have hlength := congrArg List.length (h.contents i hi)
    rw [List.length_map, List.length_map, List.length_range] at hlength
    rw [hlength, count, members]
    simp only [hn, bucket_two_pow hm]
  obtain ⟨outside, hvalue⟩ := hat.value
  refine ⟨fun i hi => ?_, fun x => ?_, fun i hi => readable_of_partitioned h hat hi (hcount i hi)⟩
  · have hc := h.contents i hi
    simp only [hgroup]
    refine List.map_injective_iff.mpr (Option.some_injective _) ?_
    rw [← hc, List.map_map]
    refine List.map_congr_left fun j hj => ?_
    have hroom := h.allocated i hi
    have hpad := lt_padded r (count p.nPartitions v i)
    have hmem : p.values (p.offsets i + j) ∈ (v.filter fun x => x.toNat % p.nPartitions = i).map some :=
      hc ▸ List.mem_map_of_mem hj
    obtain ⟨x, -, hx⟩ := List.mem_map.mp hmem
    have hcell := hcount i hi
    rw [List.mem_range] at hj
    rw [Function.comp_apply, hvalue, PartitionSet.read, if_pos (by omega), ← hx]
    rfl
  · rw [hgroup, hn]
    exact Nat.mod_lt _ (Nat.two_pow_pos m)

theorem Laid.disabled {v : List r.T} (hv : v.length < 2 ^ r.bits) {caller : Extent} {values : Pointer r}
    (hreadable : simd.Readable isa r caller v.length) (hat : (initDisabled v).At .Disabled caller values) :
    Laid simd isa .Disabled v (initDisabled v) values := by
  have hhistogram : ∀ i, (initDisabled v).histogram i = v.length := fun _ => Nat.mod_eq_of_lt hv
  obtain ⟨outside, hvalue⟩ := hat.value
  refine ⟨fun i hi => ?_, fun _ => Nat.one_pos, fun i _ => ?_⟩
  · obtain rfl : i = 0 := Nat.lt_one_iff.mp hi
    have hfilter : (v.filter fun x => partitionOf .Disabled (initDisabled v).nPartitions x = 0) = v :=
      List.filter_eq_self.mpr fun _ _ => rfl
    rw [hfilter, hhistogram, hvalue]
    refine List.ext_getElem (by simp) fun j _ h2 => ?_
    simp [PartitionSet.read, initDisabled, h2]
  · rw [hhistogram, hat.caller rfl]
    exact hreadable

theorem histogram_no_tasks (n : Nat) (v : List r.T) (sch : Schedule r) (writes : List (Write r)) (i : Nat) :
    (initTasks n 0 v sch writes).histogram i = 0 := by
  have hcombine : ∀ k, (((List.range k).foldl (combineStep r (localHistograms n (slices v 0) sch.order) 0)
      ⟨fun _ => 0, fun _ => 0, fun _ _ => 0, 0⟩).histogram i) = 0 := by
    intro k
    induction k with
    | zero => rfl
    | succ k ih =>
      rw [List.range_succ, List.foldl_append, List.foldl_cons, List.foldl_nil]
      by_cases hik : i = k
      · rw [hik]
        exact Function.update_self ..
      · exact (Function.update_of_ne hik _ _).trans ih
  exact hcombine n

end

/-! ## The batches that are counted right -/

/-- `count` finds what `contains` finds, on one thread and on several, wherever the values are and
whatever lies around them; and the tasks go over each value once. -/
def Counter.Agrees (f : Counter r (simd.nElements r)) (isa : InstructionSet) (pipelined : Bool) (caller : Extent)
    (partitioning : Partitioning) (n nTasks : Nat) (v : List r.T) : Prop :=
  (∀ p, Batch n v partitioning p → ∀ values, p.At partitioning caller values →
    f.count isa values pipelined p = some (f.lookups partitioning n v)) ∧
  ∀ p, BatchTasks n nTasks v partitioning p → ∀ values, p.At partitioning caller values → ∀ order : List CountTask,
    order.Perm (CountTask.tasks p.nPartitions nTasks) →
    f.countTasks isa values pipelined p order = some (f.lookups partitioning n v) ∧
    ∀ i < p.nPartitions, ∀ e < p.histogram i, ∃! t, t ∈ order ∧ t.partition = i ∧
      t.begin (p.histogram i) ≤ e ∧ e < t.stop (p.histogram i)

/-- No length wraps, a batch that is partitioned by tasks has one, and the vectors of a batch that is
not partitioned can be loaded. -/
def Countable (simd : SIMD) (isa : InstructionSet) (caller : Extent) (partitioning : Partitioning) (n nTasks : Nat)
    (v : List r.T) : Prop :=
  match partitioning with
  | .Enabled => Fits r n v ∧ (0 < nTasks ∨ v = [])
  | .Disabled => v.length < 2 ^ r.bits ∧ simd.Readable isa r caller v.length

instance (simd : SIMD) (isa : InstructionSet) (caller : Extent) (partitioning : Partitioning) (n nTasks : Nat)
    (v : List r.T) : Decidable (Countable simd isa caller partitioning n nTasks v) :=
  match partitioning with
  | .Enabled => inferInstanceAs (Decidable (_ ∧ _))
  | .Disabled => inferInstanceAs (Decidable (_ ∧ _))

section
variable {isa : InstructionSet} {caller : Extent} {partitioning : Partitioning} {n nTasks : Nat} {v : List r.T}

theorem Counter.agrees_of_laid (f : Counter r (simd.nElements r)) (pipelined : Bool)
    (hq : nTasks < 2 ^ 64) (hv : v.length < 2 ^ 62)
    (hlaid : ∀ p, Batch n v partitioning p ∨ BatchTasks n nTasks v partitioning p → ∀ values,
      p.At partitioning caller values → Laid simd isa partitioning v p values)
    (hn : partitioning = .Enabled → ∀ p, Batch n v partitioning p ∨ BatchTasks n nTasks v partitioning p →
      p.nPartitions = n) : f.Agrees isa pipelined caller partitioning n nTasks v := by
  have hlookups : ∀ p, Batch n v partitioning p ∨ BatchTasks n nTasks v partitioning p →
      f.lookups partitioning p.nPartitions v = f.lookups partitioning n v := by
    intro p hp
    cases partitioning with
    | Enabled => rw [hn rfl p hp]
    | Disabled => rfl
  refine ⟨fun p hp values hat => ?_, fun p hp values hat order horder => ?_⟩
  · have hlaid := hlaid p (.inl hp) values hat
    obtain ⟨c, hc⟩ := f.count_isSome hlaid.readable pipelined
    rw [hc, f.eq_of_count hc, f.sum_of_laid hlaid (by omega), hlookups p (.inl hp)]
  · have hlaid := hlaid p (.inr hp) values hat
    have hl : ∀ i < p.nPartitions, p.histogram i < 2 ^ 62 := by
      intro i hi
      have hlength := congrArg List.length (hlaid.contents i hi)
      rw [List.length_map, List.length_range] at hlength
      rw [hlength]
      exact Nat.lt_of_le_of_lt (List.length_filter_le _ _) hv
    refine ⟨?_, fun i hi e he => ?_⟩
    · obtain ⟨c, hc⟩ := f.countTasks_isSome hlaid.readable pipelined horder
      rw [hc, f.eq_of_countTasks hq hl horder hc, f.sum_of_laid hlaid (by omega), hlookups p (.inr hp)]
    · simp only [horder.mem_iff]
      exact CountTask.existsUnique_task hq hi (hl i hi) he

end

theorem Laid.no_tasks {isa : InstructionSet} {m : Nat} (hm : m < 64) {sch : Schedule r} {writes : List (Write r)}
    {values : Pointer r} :
    Laid simd isa .Enabled [] (initTasks (2 ^ m) 0 [] sch writes) values := by
  have hhistogram := histogram_no_tasks (2 ^ m) [] sch writes
  refine ⟨fun i _ => ?_, fun x => ?_, fun i _ => .inl (hhistogram i)⟩
  · rw [hhistogram]
    rfl
  · show partitionOf .Enabled (2 ^ m) x < 2 ^ m
    rw [partitionOf_two_pow hm]
    exact bucket_lt hm x

section
variable {m nTasks : Nat} (hm : m < 64) {v : List r.T} (hv : r.bytes * v.length < 2 ^ 64)
include hm hv

theorem Counter.agrees_of_countable (hq : nTasks < 2 ^ 64) {isa : InstructionSet} {caller : Extent}
    {partitioning : Partitioning} (h : Countable simd isa caller partitioning (2 ^ m) nTasks v)
    (f : Counter r (simd.nElements r)) (pipelined : Bool) :
    f.Agrees isa pipelined caller partitioning (2 ^ m) nTasks v := by
  have hlength : v.length < 2 ^ 62 := by
    have hbytes : 4 ≤ r.bytes := by cases r <;> decide
    have := Nat.mul_le_mul_right v.length hbytes
    omega
  cases partitioning with
  | Disabled =>
    refine f.agrees_of_laid pipelined hq hlength (fun p hp values hat => ?_) fun h => nomatch h
    rcases hp with hp | hp <;> cases hp <;> exact Laid.disabled h.1 h.2 hat
  | Enabled =>
    obtain ⟨hf, htask⟩ := h
    refine f.agrees_of_laid pipelined hq hlength (fun p hp values hat => ?_) fun _ p hp => ?_
    · rcases hp with hp | hp
      · cases hp with
        | enabled uninit => exact Laid.of_partitioned hm rfl (init_partitioned hm uninit hf) hat
      · cases hp with
        | enabled valid order =>
          rcases Nat.eq_zero_or_pos nTasks with rfl | ht
          · obtain rfl := htask.resolve_left (Nat.not_lt_zero 0)
            exact Laid.no_tasks hm
          · exact Laid.of_partitioned hm rfl (initTasks_partitioned hm ht hf valid order) hat
    · rcases hp with hp | hp <;> cases hp <;> rfl

end

/-! ## Layouts that wrap -/

theorem sum_count {n : Nat} (hn : ∀ x : r.T, bucket n x < n) (v : List r.T) :
    ∑ i ∈ Finset.range n, count n v i = v.length := by
  have h := sum_countP_filter (bucket n) hn (fun _ _ => true) v
  simp only [List.countP_true] at h
  exact h

theorem start_le (size : Nat → Nat) (n : Nat) :
    start r size n ≤ (∑ i ∈ Finset.range n, size i) + start r (fun _ => 0) n := by
  induction n with
  | zero => exact Nat.le_refl _
  | succ n ih =>
    have hpad : padded r (size n) ≤ size n + padded r 0 := by
      have := Nat.div_mul_le_self (size n) (CacheLineBuffer.nTuplesPerCacheLineBuffer r)
      simp only [padded, Nat.succ_mul, Nat.zero_div, Nat.zero_mul, Nat.zero_add]
      omega
    rw [start, start, Finset.sum_range_succ]
    omega

section
variable {n : Nat} {v : List r.T} {p : PartitionSet r}
  (hread : ∀ i < n, ∀ (found : r.T → Bool) (outside : Nat → r.T),
    ((List.range (p.histogram i)).countP fun j => found (p.read .Enabled outside (p.offsets i + j))) =
      (members n v i).countP found)
include hread

/-- Cells whose values do not depend on what lies around them are inside. -/
theorem cell_lt {i j : Nat} (hi : i < n) (hj : j < p.histogram i) : p.offsets i + j < p.length / r.bytes := by
  by_contra hout
  have hsame := (hread i hi (· == 0) fun _ => 0).trans (hread i hi (· == 0) fun _ => 1).symm
  rw [countP_range_eq_sum, countP_range_eq_sum] at hsame
  have hbits := Nat.ne_of_gt r.bits_pos
  refine Nat.ne_of_gt (Finset.sum_lt_sum (fun e _ => ?_) ⟨j, Finset.mem_range.mpr hj, ?_⟩) hsame
  · simp only [PartitionSet.read]
    split
    · cases p.values (p.offsets i + e) with
      | none => simp [hbits]
      | some x => exact Nat.le_refl _
    · simp [hbits]
  · simp [PartitionSet.read, if_neg hout, hbits]

theorem bucket_read {i j : Nat} (hi : i < n) (hj : j < p.histogram i) (outside : Nat → r.T) :
    bucket n (p.read .Enabled outside (p.offsets i + j)) = i := by
  have hcount := hread i hi (· == p.read .Enabled outside (p.offsets i + j)) outside
  have hpos : 0 < (members n v i).countP (· == p.read .Enabled outside (p.offsets i + j)) := by
    rw [← hcount, List.countP_pos_iff]
    exact ⟨j, List.mem_range.mpr hj, beq_self_eq_true _⟩
  obtain ⟨x, hx, heq⟩ := List.countP_pos_iff.mp hpos
  rw [← eq_of_beq heq]
  exact of_decide_eq_true (List.mem_filter.mp hx).2

/-- Partitions that are read right have a cell for each value. -/
theorem sum_histogram_le : ∑ i ∈ Finset.range n, p.histogram i ≤ p.length / r.bytes := by
  have hcard : ((Finset.range n).sigma fun i => Finset.range (p.histogram i)).card ≤
      (Finset.range (p.length / r.bytes)).card := by
    refine Finset.card_le_card_of_injOn (fun c => p.offsets c.1 + c.2) (fun c hc => ?_) fun c hc d hd h => ?_
    · simp only [Finset.coe_sigma, Finset.coe_range, Set.mem_sigma_iff, Set.mem_Iio] at hc
      exact Finset.mem_coe.mpr (Finset.mem_range.mpr (cell_lt hread hc.1 hc.2))
    · simp only [Finset.coe_sigma, Finset.coe_range, Set.mem_sigma_iff, Set.mem_Iio] at hc hd
      have hfst : c.1 = d.1 := by
        rw [← bucket_read hread hc.1 hc.2 fun _ => 0, ← bucket_read hread hd.1 hd.2 fun _ => 0]
        exact congrArg (fun cell => bucket n (p.read .Enabled (fun _ => 0) cell)) h
      obtain ⟨i, j⟩ := c
      obtain ⟨i', j'⟩ := d
      simp only at hfst h
      subst hfst
      rw [Nat.add_left_cancel h]
  rwa [Finset.card_sigma, Finset.card_range, Finset.sum_congr rfl fun i _ => Finset.card_range _] at hcard

end

def nParts (partitioning : Partitioning) (n : Nat) : Nat :=
  match partitioning with
  | .Enabled => n
  | .Disabled => 1

/-- Containers that find a set of values in the partitions that have got one of them, and that are
counted right. -/
def AllAgree (simd : SIMD) (isa : InstructionSet) (pipelined : Bool) (caller : Extent) (partitioning : Partitioning)
    (n nTasks : Nat) (v : List r.T) : Prop :=
  ∀ (inside : Nat → Bool) (found : r.T → Bool),
    (∀ i < nParts partitioning n, inside i = true → ∃ x, partitionOf partitioning n x = i ∧ found x = true) →
    ∃ f : Counter r (simd.nElements r),
      (∀ i < nParts partitioning n, ∀ x, f.contains i x = (inside i && found x)) ∧
      f.Agrees isa pipelined caller partitioning n nTasks v

theorem countP_or_beq {found : r.T → Bool} {y : r.T} (hy : found y = false) (l : List r.T) :
    l.countP (fun x => found x || x == y) = l.countP found + l.countP (· == y) := by
  induction l with
  | nil => rfl
  | cons x l ih =>
    rw [List.countP_cons, List.countP_cons, List.countP_cons, ih]
    by_cases hx : x = y
    · subst hx
      simp [hy]
      omega
    · simp [hx]
      omega

theorem mul_le_start (size : Nat → Nat) (n : Nat) : nTuplesPerCacheLineBuffer r * n ≤ start r size n := by
  induction n with
  | zero => exact Nat.le_refl _
  | succ n ih =>
    rw [start, Nat.mul_succ, padded, Nat.succ_mul]
    omega

theorem partitionOf_ofNat {m : Nat} (hm : m < 64) (he : Fits r (2 ^ m) []) {i : Nat} (hi : i < 2 ^ m) :
    partitionOf .Enabled (2 ^ m) (BitVec.ofNat r.bits i) = i := by
  have hbits : i < 2 ^ r.bits := by
    have hle := (Nat.le_mul_of_pos_left (2 ^ m) (bufferLength_pos r)).trans
      (mul_le_start (count (r := r) (2 ^ m) []) (2 ^ m))
    exact Nat.lt_of_lt_of_le hi (hle.trans (Nat.le_of_lt he.1))
  rw [partitionOf_two_pow hm, bucket_two_pow hm, BitVec.toNat_ofNat, Nat.mod_eq_of_lt hbits, Nat.mod_eq_of_lt hi]

section
variable {isa : InstructionSet} {pipelined : Bool} {caller : Extent} {m nTasks : Nat} (hm : m < 64) {v : List r.T}
  (hv : v.length < 2 ^ 64)
include hm hv

omit hm hv in
theorem histogram_le_count (i : Nat) :
    (init (2 ^ m) (fun _ _ => (0 : r.T)) v).1.histogram i ≤ count (2 ^ m) v i := by
  rw [show (init (2 ^ m) (fun _ _ => (0 : r.T)) v).1.histogram i = _ from countTuples_eq _ v i]
  exact Nat.mod_le _ _

/-- The counts of each container, which do not wrap. -/
theorem counts_of_agrees (he : Fits r (2 ^ m) [])
    (h : AllAgree simd isa pipelined caller .Enabled (2 ^ m) nTasks v) {p : PartitionSet r}
    (hp : p = (init (2 ^ m) (fun _ _ => 0) v).1) (inside : Nat → Bool) (found : r.T → Bool)
    (outside : Nat → r.T) (hinside : ∀ i < 2 ^ m, inside i = true → found (BitVec.ofNat r.bits i) = true) :
    ∑ i ∈ Finset.range (2 ^ m), ((List.range (p.histogram i)).countP fun j =>
      inside i && found (p.read .Enabled outside (p.offsets i + j))) =
      v.countP fun x => inside (bucket (2 ^ m) x) && found x := by
  have hn := fun x : r.T => bucket_lt hm x
  obtain ⟨f, hf, hagrees⟩ := h inside found fun i hi hin => ⟨_, partitionOf_ofNat hm he hi, hinside i hi hin⟩
  have hagree := f.eq_of_count (hagrees.1 p (hp ▸ Batch.enabled _) ⟨⟨0, p.length⟩, p.read .Enabled outside⟩
    ⟨fun _ => ⟨Nat.dvd_zero _, by simp⟩, nofun, outside, rfl⟩)
  have hparts : p.nPartitions = 2 ^ m := by rw [hp]; rfl
  have hsum := Finset.sum_le_sum fun i (_ : i ∈ Finset.range (2 ^ m)) => hp ▸ histogram_le_count (v := v) i
  rw [sum_count hn] at hsum
  have hlt : ∑ i ∈ Finset.range (2 ^ m), ((List.range (p.histogram i)).countP fun j =>
      inside i && found (p.read .Enabled outside (p.offsets i + j))) < 2 ^ 64 := by
    refine Nat.lt_of_le_of_lt (Finset.sum_le_sum fun i _ => ?_) (Nat.lt_of_le_of_lt hsum hv)
    exact List.countP_le_length.trans (Nat.le_of_eq List.length_range)
  have hfound : ∀ i ∈ List.range p.nPartitions, ((List.range (p.histogram i)).countP fun j =>
      f.contains i (p.read .Enabled outside (p.offsets i + j))) = (List.range (p.histogram i)).countP fun j =>
      inside i && found (p.read .Enabled outside (p.offsets i + j)) := fun i hi =>
    List.countP_congr fun j _ => by rw [hf i (hparts ▸ List.mem_range.mp hi)]
  rw [List.map_congr_left hfound, hparts] at hagree
  have hlookups : f.lookups .Enabled (2 ^ m) v = v.countP fun x => inside (bucket (2 ^ m) x) && found x :=
    List.countP_congr fun x _ => by rw [partitionOf_two_pow hm, hf _ (hn x)]
  rw [hlookups] at hagree
  exact (Nat.mod_eq_of_lt hlt).symm.trans hagree.symm

/-- Every partition is read right, whatever lies around the array. -/
theorem read_of_agrees (he : Fits r (2 ^ m) [])
    (h : AllAgree simd isa pipelined caller .Enabled (2 ^ m) nTasks v) {p : PartitionSet r}
    (hp : p = (init (2 ^ m) (fun _ _ => 0) v).1) {i : Nat} (hi : i < 2 ^ m) (found : r.T → Bool)
    (outside : Nat → r.T) :
    ((List.range (p.histogram i)).countP fun j => found (p.read .Enabled outside (p.offsets i + j))) =
      (members (2 ^ m) v i).countP found := by
  have hone : ∀ found : r.T → Bool, found (BitVec.ofNat r.bits i) = true →
      ((List.range (p.histogram i)).countP fun j => found (p.read .Enabled outside (p.offsets i + j))) =
        (members (2 ^ m) v i).countP found := by
    intro found hfound
    have hone := counts_of_agrees hm hv he h hp (fun i' => decide (i' = i)) found outside
      fun i' _ hin => of_decide_eq_true hin ▸ hfound
    rw [Finset.sum_eq_single i] at hone
    · rw [members, List.countP_filter]
      simpa [Bool.and_comm] using hone
    · intro i' _ hne
      exact List.countP_eq_zero.mpr fun j _ => by simp [hne]
    · exact fun hout => absurd (Finset.mem_range.mpr hi) hout
  -- a set without the value of the partition is one with it, less that value
  rcases hy : found (BitVec.ofNat r.bits i) with _ | _
  · have hboth := hone (fun x => found x || x == BitVec.ofNat r.bits i) (by simp)
    have hvalue := hone (· == BitVec.ofNat r.bits i) (by simp)
    have hcells := countP_or_beq hy ((List.range (p.histogram i)).map fun j =>
      p.read .Enabled outside (p.offsets i + j))
    rw [List.countP_map, List.countP_map, List.countP_map] at hcells
    have hmembers := countP_or_beq hy (members (2 ^ m) v i)
    simp only [Function.comp_def] at hcells
    omega
  · exact hone found hy

omit hv in
/-- A wrapped array is shorter than its values. -/
theorem fits_of_room (he : Fits r (2 ^ m) [])
    (hroom : v.length ≤
      r.bytes * (start r (count (2 ^ m) v) (2 ^ m) % 2 ^ r.bits) % 2 ^ 64 / r.bytes) : Fits r (2 ^ m) v := by
  have hstart := start_le (r := r) (count (2 ^ m) v) (2 ^ m)
  have hempty : count (2 ^ m) ([] : List r.T) = fun _ => 0 := rfl
  rw [sum_count fun x : r.T => bucket_lt hm x] at hstart
  rw [Fits, hempty] at he
  have hwrap : ∀ {a b : Nat}, b ≤ a → a % b ≤ a - b := fun h => by
    rw [Nat.mod_eq_sub_mod h]
    exact Nat.mod_le _ _
  have hfit : start r (count (2 ^ m) v) (2 ^ m) < 2 ^ r.bits := by
    by_contra hge
    have hcells : v.length ≤ start r (count (2 ^ m) v) (2 ^ m) % 2 ^ r.bits :=
      hroom.trans (Nat.div_le_of_le_mul (Nat.mod_le _ _))
    have := hwrap (Nat.le_of_not_lt hge)
    omega
  refine ⟨hfit, ?_⟩
  by_contra hge
  rw [Nat.mod_eq_of_lt hfit, Nat.le_div_iff_mul_le r.bytes_pos, Nat.mul_comm] at hroom
  have := hwrap (Nat.le_of_not_lt hge)
  have hbytes := Nat.mul_le_mul_left r.bytes hstart
  rw [Nat.mul_add] at hbytes
  omega

/-- If every lookup is counted right, the layout did not wrap. -/
theorem fits_of_agrees (he : Fits r (2 ^ m) [])
    (h : AllAgree simd isa pipelined caller .Enabled (2 ^ m) nTasks v) : Fits r (2 ^ m) v := by
  obtain ⟨p, hp⟩ : ∃ p, p = (init (2 ^ m) (fun _ _ => 0) v).1 := ⟨_, rfl⟩
  have hle : ∀ i ∈ Finset.range (2 ^ m), p.histogram i ≤ count (2 ^ m) v i := fun i _ =>
    hp ▸ histogram_le_count (v := v) i
  have htotal : ∑ i ∈ Finset.range (2 ^ m), p.histogram i = v.length := by
    have := counts_of_agrees hm hv he h hp (fun _ => true) (fun _ => true) (fun _ => 0)
      fun _ _ _ => rfl
    simpa using this
  have hsame : ∀ i < 2 ^ m, count (2 ^ m) v i = p.histogram i := by
    intro i hi
    have heq := (Finset.sum_eq_sum_iff_of_le hle).mp (htotal.trans (sum_count (fun x => bucket_lt hm x) v).symm)
    exact (heq i (Finset.mem_range.mpr hi)).symm
  have hroom := sum_histogram_le fun i hi found outside => read_of_agrees hm hv he h hp hi found outside
  have hlength : p.length = r.bytes * (start r (count (2 ^ m) v) (2 ^ m) % 2 ^ r.bits) % 2 ^ 64 := by
    have hlast := (layout_eq (r := r) (countTuples (2 ^ m) v) (2 ^ m)).1
    have hstart : start r (count (2 ^ m) v) (2 ^ m) = start r (countTuples (2 ^ m) v) (2 ^ m) :=
      start_congr (fun i hi => (hsame i hi).trans (by rw [hp]; rfl)) (Nat.le_refl _)
    rw [hstart, ← hlast, hp]
    rfl
  rw [htotal, hlength] at hroom
  exact fits_of_room hm he hroom

omit hm hv in
/-- An unpartitioned batch that is counted right has its length, and is read vector by vector. -/
theorem readable_of_agrees {f : Counter r (simd.nElements r)}
    (hcaller : caller.address + r.bytes * v.length ≤ caller.limit) (hf : ∀ value, f.contains 0 value = true)
    (hagrees : f.Agrees isa pipelined caller .Disabled (2 ^ m) nTasks v) :
    v.length < 2 ^ r.bits ∧ simd.Readable isa r caller v.length := by
  have hcount :=
    hagrees.1 _ .disabled ⟨caller, (initDisabled v).read .Disabled fun _ => 0⟩ ⟨nofun, fun _ => rfl, _, rfl⟩
  have hlookups : f.lookups .Disabled (2 ^ m) v = v.length := List.countP_eq_length.mpr fun x _ => hf x
  have hlength := f.eq_of_count hcount
  have hmod : v.length = v.length % 2 ^ r.bits % 2 ^ 64 := by
    rw [hlookups] at hlength
    simpa [initDisabled, funext hf] using hlength
  have hle := Nat.mod_le (v.length % 2 ^ r.bits) (2 ^ 64)
  have hmax := Nat.mod_lt v.length (Nat.two_pow_pos r.bits)
  have hlt : v.length < 2 ^ r.bits := by omega
  refine ⟨hlt, ?_⟩
  obtain ⟨counter, hcounter, -⟩ := Option.bind_eq_some_iff.mp hcount
  obtain ⟨c, hc⟩ := isSome_of_sumM hcounter (List.mem_range.mpr Nat.one_pos)
  have hreadable := f.readable_of_countRange isa _ 0 (by
    rw [show (initDisabled v).offsets 0 + (initDisabled v).histogram 0 = 0 + v.length % 2 ^ r.bits from rfl,
      Nat.zero_add, Nat.mod_eq_of_lt hlt]
    exact hcaller) hc
  rw [Nat.add_sub_cancel_left] at hreadable
  change simd.Readable isa r caller (v.length % 2 ^ r.bits) at hreadable
  rwa [Nat.mod_eq_of_lt hlt] at hreadable

omit hv in
theorem eq_nil_of_no_tasks {f : Counter r (simd.nElements r)}
    (hf : ∀ i < 2 ^ m, ∀ value, f.contains i value = true)
    (hagrees : f.Agrees isa pipelined caller .Enabled (2 ^ m) 0 v) : v = [] := by
  have hempty : BatchTasks (2 ^ m) 0 v .Enabled (initTasks (2 ^ m) 0 v ⟨[], [], fun _ _ _ => 0⟩ []) :=
    .enabled ⟨List.Perm.nil, List.Perm.nil⟩ (List.Perm.refl _)
  have hcount := (hagrees.2 _ hempty
    ⟨⟨0, (initTasks (2 ^ m) 0 v ⟨[], [], fun _ _ _ => 0⟩ []).length⟩, PartitionSet.read .Enabled _ fun _ => 0⟩
    ⟨fun _ => ⟨Nat.dvd_zero _, by simp⟩, nofun, _, rfl⟩ _ (List.Perm.refl _)).1
  have hlength :=
    f.eq_of_countTasks (by decide) (fun i _ => by rw [histogram_no_tasks]; decide) (List.Perm.refl _) hcount
  have hlookups : f.lookups .Enabled (2 ^ m) v = v.length :=
    List.countP_eq_length.mpr fun x _ => hf _ (by rw [partitionOf_two_pow hm]; exact bucket_lt hm x) x
  rw [hlookups] at hlength
  simp only [histogram_no_tasks] at hlength
  exact List.eq_nil_of_length_eq_zero (by simpa using hlength)

/-- If every lookup is counted right, no length wraps, there is a task, and the vectors were loaded. -/
theorem countable_of_agrees {partitioning : Partitioning} (he : partitioning = .Enabled → Fits r (2 ^ m) [])
    (hcaller : partitioning = .Disabled → caller.address + r.bytes * v.length ≤ caller.limit)
    (h : AllAgree simd isa pipelined caller partitioning (2 ^ m) nTasks v) :
    Countable simd isa caller partitioning (2 ^ m) nTasks v := by
  have hvalue : ∀ i < nParts partitioning (2 ^ m), ∃ x : r.T, partitionOf partitioning (2 ^ m) x = i ∧
      true = true := by
    intro i hi
    cases partitioning with
    | Disabled => exact ⟨0, (Nat.lt_one_iff.mp hi).symm, rfl⟩
    | Enabled => exact ⟨_, partitionOf_ofNat hm (he rfl) hi, rfl⟩
  obtain ⟨f, hf, hall⟩ := h (fun _ => true) (fun _ => true) fun i hi _ => hvalue i hi
  cases partitioning with
  | Disabled => exact readable_of_agrees (hcaller rfl) (hf 0 Nat.one_pos) hall
  | Enabled =>
    refine ⟨fits_of_agrees hm hv (he rfl) h, ?_⟩
    rcases Nat.eq_zero_or_pos nTasks with rfl | hpos
    · exact .inr (eq_nil_of_no_tasks hm hf hall)
    · exact .inl hpos

end

end PartitionedFilters

import PartitionedFilters.Footprint
import PartitionedFilters.MortonBlockSound
import PartitionedFilters.PackedBuckets

/-!
# Blocks as lists of buckets

A block of the Morton filter stores a list of buckets: its counters are their
lengths and its slots, counted from the end of the block, their fingerprints. The
operations on a block are operations on that list and change no other bit.
-/

namespace PartitionedFilters.Cuckoo.Morton

open PackedBuckets

variable {r : RegisterSize} {c : Config r} {x : CuckooContainer r}

/-- The buckets that a block stores. -/
structure Represents (c : Config r) (m : Mem) (b : Nat) (buckets : List (List (BitVec c.k))) : Prop where
  length : buckets.length = c.bucketsPerBlock
  count : ∀ i l, buckets[i]? = some l → counter c m b i = l.length
  room : ∀ l ∈ buckets, l.length ≤ c.associativity
  fits : buckets.flatten.length ≤ c.slotsPerBlock
  slots : Holds (slot c m b) buckets.flatten

/-- A block stores buckets if its counters are in range. -/
theorem exists_represents {m : Mem} {b : Nat} (hroom : ∀ i < c.bucketsPerBlock, counter c m b i ≤ c.associativity)
    (hfits : ((List.range c.bucketsPerBlock).map (counter c m b)).sum ≤ c.slotsPerBlock) :
    ∃ buckets, Represents c m b buckets := by
  have hcount := getElem?_read (slot c m b) 0 ((List.range c.bucketsPerBlock).map (counter c m b))
  have hflat := flatten_read (slot c m b) 0 ((List.range c.bucketsPerBlock).map (counter c m b))
  have hlen : ∀ i l, (read (slot c m b) 0 ((List.range c.bucketsPerBlock).map (counter c m b)))[i]? = some l →
      i < c.bucketsPerBlock ∧ counter c m b i = l.length := by
    intro i l hl
    have h := hcount i
    rw [hl, Option.map_some, List.getElem?_map] at h
    obtain ⟨i', hi', hlen⟩ := Option.map_eq_some_iff.mp h.symm
    obtain ⟨hlt, rfl⟩ := List.getElem?_eq_some_iff.mp hi'
    rw [List.length_range] at hlt
    rw [List.getElem_range] at hlen
    exact ⟨hlt, hlen⟩
  refine ⟨read (slot c m b) 0 ((List.range c.bucketsPerBlock).map (counter c m b)), ?_,
    fun i l hl => (hlen i l hl).2, ?_, ?_, holds_read _ _⟩
  · have h : ∀ lengths : List Nat, ∀ p, (read (slot c m b) p lengths).length = lengths.length := by
      intro lengths
      induction lengths with
      | nil => exact fun _ => rfl
      | cons n lengths ih => exact fun p => congrArg Nat.succ (ih (p + n))
    rw [h, List.length_map, List.length_range]
  · intro l hl
    obtain ⟨i, hi⟩ := List.mem_iff_getElem?.mp hl
    obtain ⟨hlt, hlen⟩ := hlen i l hi
    exact hlen ▸ hroom i hlt
  · rw [hflat, List.length_map, List.length_range]
    exact hfits

theorem Represents.lt {m : Mem} {b : Nat} {buckets : List (List (BitVec c.k))} (h : Represents c m b buckets)
    {i : Nat} {l : List (BitVec c.k)} (hl : buckets[i]? = some l) : i < c.bucketsPerBlock :=
  h.length ▸ (List.getElem?_eq_some_iff.mp hl).1

/-! ## What stays -/

/-- An operation on the slots from `start` to `stop` that may touch some counters. -/
structure Frame (c : Config r) (b : Nat) (touched : Nat → Prop) (start stop : Nat) (m m' : Mem) : Prop where
  counters : ∀ i < c.bucketsPerBlock, ¬touched i → counter c m' b i = counter c m b i
  ota : ∀ t < c.otaSize, ota c m' b t = ota c m b t
  slots : ∀ j < c.slotsPerBlock, j < start ∨ stop ≤ j → slot c m' b j = slot c m b j
  outside : ∀ q, q < b ∨ b + 512 ≤ q → m'.bit q = m.bit q

section
variable (hp : Params c) {b : Nat} {m m' : Mem} {start stop : Nat}
include hp

theorem frame_of_bits (hstop : stop ≤ c.slotsPerBlock)
    (h : ∀ q, q < b + 512 - c.k * stop ∨ b + 512 - c.k * start ≤ q → m'.bit q = m.bit q) :
    Frame c b (fun _ => False) start stop m m' := by
  have hfit := hp.slots_fit
  have hle := Nat.mul_le_mul_left c.k hstop
  constructor
  · intro i hi _
    have hcounter := Params.counter_fits hi
    refine congrArg BitVec.toNat (load_congr fun q h1 h2 => h q ?_)
    omega
  · intro t ht
    refine h _ ?_
    omega
  · intro j hj hout
    have hslot := hp.slot_fits hj
    refine load_congr fun q h1 h2 => h q ?_
    rcases hout with hout | hout
    · have hmul := Nat.mul_le_mul_left c.k (Nat.succ_le_of_lt hout)
      rw [Nat.succ_eq_add_one] at hmul
      omega
    · have hmul := Nat.mul_le_mul_left c.k hout
      rw [Nat.mul_succ] at h1 h2 hslot
      omega
  · intro q hq
    refine h q ?_
    omega

omit hp in
theorem load_store_copy {m : Mem} (target source : Nat) {n d k : Nat} (h : d + k ≤ n) :
    (m.store target (m.load source n)).load (target + d) k = m.load (source + d) k := by
  apply BitVec.eq_of_getLsbD_eq
  intro i hi
  rw [Mem.getLsbD_load, Mem.getLsbD_load, Mem.store_of_mem _ _ (by omega) (by omega), Mem.getLsbD_load,
    decide_eq_true hi, Bool.true_and, Bool.true_and, decide_eq_true (by omega), Bool.true_and]
  exact congrArg m.bit (by omega)


theorem frame_of_store {n p : Nat} {v : BitVec n} (hstop : stop ≤ c.slotsPerBlock)
    (hfirst : b + 512 - c.k * stop ≤ p) (hlast : p + n ≤ b + 512 - c.k * start) :
    Frame c b (fun _ => False) start stop m (m.store p v) :=
  frame_of_bits hp hstop fun q hq => Mem.store_of_notMem _ _ (by omega)

omit hp in
theorem Frame.trans {touched : Nat → Prop} {m'' : Mem} (h : Frame c b touched start stop m m')
    (h' : Frame c b touched start stop m' m'') :
    Frame c b touched start stop m m'' where
  counters i hi ht := (h'.counters i hi ht).trans (h.counters i hi ht)
  ota t ht := (h'.ota t ht).trans (h.ota t ht)
  slots j hj hout := (h'.slots j hj hout).trans (h.slots j hj hout)
  outside q hq := (h'.outside q hq).trans (h.outside q hq)

omit hp in
theorem Frame.mono {touched touched' : Nat → Prop} {start' stop' : Nat} (h : Frame c b touched start stop m m')
    (ht : ∀ i, touched i → touched' i) (hstart : start' ≤ start) (hstop : stop ≤ stop') :
    Frame c b touched' start' stop' m m' where
  counters i hi hn := h.counters i hi fun h => hn (ht i h)
  ota := h.ota
  slots j hj hout := h.slots j hj (by omega)
  outside := h.outside

end

/-! ## The operations -/

section
variable {block : r.T} (hr : ReachesEnd c block) (hp : Params c) (m : Mem)
include hr hp

theorem slot_setFingerprint {j : Nat} (hj : j < c.slotsPerBlock) (f : r.T) :
    slot c (setFingerprint c x j block f m) (base x block) j = f.setWidth c.k := by
  rw [setFingerprint_eq hr hp m hj, slot, Mem.load_store]

theorem frame_setFingerprint {j : Nat} (hj : j < c.slotsPerBlock) (f : r.T) :
    Frame c (base x block) (fun _ => False) j (j + 1) m (setFingerprint c x j block f m) := by
  have hfit := hp.slot_fits hj
  rw [setFingerprint_eq hr hp m hj]
  apply frame_of_store hp hj (Nat.le_refl _)
  rw [Nat.mul_succ] at hfit ⊢
  omega

variable (hload : 1 ≤ c.slotsToLoad)
include hload

section
variable {start n : Nat} (hs : start ≤ n) (hn : n < c.slotsPerBlock) (f : r.T)
include hs hn

theorem slot_shiftSlotsLeftAndInsert : slot c (shiftSlotsLeftAndInsert c x f start n block m) (base x block) start =
  f.setWidth c.k := by
  rw [shiftSlotsLeftAndInsert_eq hr hp m hload hs hn, slot, Nat.mul_succ, Nat.sub_add_eq, Mem.load_store]

theorem slot_shiftSlotsLeftAndInsert_succ {j : Nat} (hj : start ≤ j) (hjn : j < n) :
    slot c (shiftSlotsLeftAndInsert c x f start n block m) (base x block) (j + 1) = slot c m (base x block) j := by
  have hfit := hp.slot_fits hn
  have hmul := Nat.mul_le_mul_left c.k hj
  obtain ⟨d, rfl⟩ := Nat.exists_eq_add_of_lt hjn
  have hdist : c.k * (j + d + 1) = c.k * j + c.k * d + c.k := by rw [Nat.mul_succ, Nat.mul_add]
  have hlen : c.k * (j + d + 1 - start) = c.k * (j + d + 1) - c.k * start := Nat.mul_sub _ _ _
  rw [Nat.mul_succ, hdist] at hfit
  rw [shiftSlotsLeftAndInsert_eq hr hp m hload hs hn, slot, slot, Mem.load_store_of_disjoint, hlen, hdist]
  · have hcopy := load_store_copy (m := m) (base x block + 512 - (c.k * j + c.k * d + c.k) - c.k)
      (base x block + 512 - (c.k * j + c.k * d + c.k)) (n := c.k * j + c.k * d + c.k - c.k * start) (d := c.k * d)
        (k := c.k) (by omega)
    rw [show base x block + 512 - c.k * (j + 1 + 1) =
        base x block + 512 - (c.k * j + c.k * d + c.k) - c.k + c.k * d by
        rw [Nat.mul_succ, Nat.mul_succ]; omega,
      show base x block + 512 - c.k * (j + 1) = base x block + 512 - (c.k * j + c.k * d + c.k) + c.k * d by
        rw [Nat.mul_succ]; omega]
    exact hcopy
  · right
    rw [Nat.mul_succ, Nat.mul_succ]
    omega

theorem frame_shiftSlotsLeftAndInsert : Frame c (base x block) (fun _ => False) start (n + 1) m
    (shiftSlotsLeftAndInsert c x f start n block m) := by
  have hfit := hp.slot_fits hn
  have hmul := Nat.mul_le_mul_left c.k hs
  have hlen : c.k * (n - start) = c.k * n - c.k * start := Nat.mul_sub _ _ _
  have hnext : c.k * (n + 1) = c.k * n + c.k := Nat.mul_succ _ _
  rw [shiftSlotsLeftAndInsert_eq hr hp m hload hs hn]
  have hstop : n + 1 ≤ c.slotsPerBlock := hn
  exact (frame_of_store hp hstop (by omega) (by omega)).trans (frame_of_store hp hstop (by omega) (by omega))

end

section
variable {start n : Nat} (hs : start < n) (hn : n ≤ c.slotsPerBlock) (f : r.T)
include hs hn

theorem slot_shiftSlotsRightAndInsert :
    slot c (shiftSlotsRightAndInsert c x f start n block m) (base x block) (n - 1) = f.setWidth c.k := by
  rw [shiftSlotsRightAndInsert_eq hr hp m hload hs hn, slot,
    Nat.sub_add_cancel (Nat.one_le_of_lt hs), Mem.load_store]

theorem slot_shiftSlotsRightAndInsert_pred {j : Nat} (hj : start ≤ j) (hjn : j + 1 < n) :
    slot c (shiftSlotsRightAndInsert c x f start n block m) (base x block) j = slot c m (base x block) (j + 1) := by
  have hfit := hp.slots_fit
  have hle := Nat.mul_le_mul_left c.k hn
  have hmul := Nat.mul_le_mul_left c.k hj
  obtain ⟨d, rfl⟩ := Nat.exists_eq_add_of_lt hjn
  have hdist : c.k * (j + 1 + d + 1) = c.k * j + c.k + c.k * d + c.k := by
    rw [Nat.mul_succ, Nat.mul_add, Nat.mul_succ]
  have hlen : c.k * (j + 1 + d + 1 - (start + 1)) = c.k * (j + 1 + d + 1) - (c.k * start + c.k) := by
    rw [Nat.mul_sub, Nat.mul_succ _ start]
  rw [shiftSlotsRightAndInsert_eq hr hp m hload hs hn, slot, slot, Mem.load_store_of_disjoint, hlen, hdist]
  · have hcopy := load_store_copy (m := m) (base x block + 512 - (c.k * j + c.k + c.k * d + c.k) + c.k)
      (base x block + 512 - (c.k * j + c.k + c.k * d + c.k))
      (n := c.k * j + c.k + c.k * d + c.k - (c.k * start + c.k)) (d := c.k * d) (k := c.k) (by omega)
    rw [show base x block + 512 - c.k * (j + 1) =
        base x block + 512 - (c.k * j + c.k + c.k * d + c.k) + c.k + c.k * d by
        rw [Nat.mul_succ]; omega,
      show base x block + 512 - c.k * (j + 1 + 1) =
        base x block + 512 - (c.k * j + c.k + c.k * d + c.k) + c.k * d by
        rw [Nat.mul_succ, Nat.mul_succ]; omega]
    exact hcopy
  · left
    rw [hdist, Nat.mul_succ]
    omega

theorem frame_shiftSlotsRightAndInsert : Frame c (base x block) (fun _ => False) start n m
    (shiftSlotsRightAndInsert c x f start n block m) := by
  have hfit := hp.slots_fit
  have hle := Nat.mul_le_mul_left c.k hn
  have hmul := Nat.mul_le_mul_left c.k (show start + 1 ≤ n from hs)
  have hlen : c.k * (n - (start + 1)) = c.k * n - c.k * (start + 1) := Nat.mul_sub _ _ _
  have hnext : c.k * (start + 1) = c.k * start + c.k := Nat.mul_succ _ _
  rw [shiftSlotsRightAndInsert_eq hr hp m hload hs hn]
  exact (frame_of_store hp hn (by omega) (by omega)).trans (frame_of_store hp hn (by omega) (by omega))

end

/-! ### Insertion into a bucket -/

omit hr hload in
theorem frame_store_counter {b i : Nat} (hi : i < c.bucketsPerBlock) (v : BitVec c.counterSize) :
    Frame c b (· = i) 0 0 m (m.store (b + c.counterSize * i) v) := by
  have hfit := hp.slots_fit
  have hcounter := Params.counter_fits hi
  have hbit : ∀ q, q < b + c.counterSize * i ∨ b + c.counterSize * i + c.counterSize ≤ q →
      (m.store (b + c.counterSize * i) v).bit q = m.bit q := fun q hq => Mem.store_of_notMem _ _ hq
  constructor
  · intro i' hi' hne
    refine congrArg BitVec.toNat (Mem.load_store_of_disjoint _ _ ?_)
    rw [Nat.add_assoc, Nat.add_assoc, ← Nat.mul_succ, ← Nat.mul_succ]
    rcases Nat.lt_or_gt_of_ne hne with hlt | hgt
    · exact .inr (Nat.add_le_add_left (Nat.mul_le_mul_left _ hlt) _)
    · exact .inl (Nat.add_le_add_left (Nat.mul_le_mul_left _ hgt) _)
  · intro t ht
    exact hbit _ (by omega)
  · intro j hj _
    have hslot := hp.slot_fits hj
    exact Mem.load_store_of_disjoint _ _ (by omega)
  · intro q hq
    exact hbit _ (by omega)

section
variable {buckets : List (List (BitVec c.k))} (hrep : Represents c m (base x block) buckets) {i : Nat}
  {l : List (BitVec c.k)}
  (hl : buckets[i]? = some l) (hfull : buckets.flatten.length < c.slotsPerBlock)
  (hroom : l.length < c.associativity) (f : r.T)
include hrep hl hfull

omit hload in
theorem bucketInsert_eq :
    bucketInsert c x f (BitVec.ofNat r.bits i) block (BitVec.ofNat r.bits (PackedBuckets.start buckets i))
    (BitVec.ofNat r.bits l.length) (BitVec.ofNat r.bits buckets.flatten.length) m =
      (shiftSlotsLeftAndInsert c x f (PackedBuckets.start buckets i + l.length)
        buckets.flatten.length block m).store
        (base x block + c.counterSize * i) (BitVec.ofNat c.counterSize (l.length + 1)) := by
  have hi := hrep.lt hl
  have hle := start_add_length_le hl
  have hslots := hp.slots_le
  have hbuckets := hp.buckets_le
  have hof : ∀ n ≤ 512, (BitVec.ofNat r.bits n).toNat = n := fun n hn => by
    rw [BitVec.toNat_ofNat, Nat.mod_eq_of_lt (lt_two_pow_bits (by omega))]
  have hindex := hof i (by omega)
  rw [bucketInsert, setSlotCount_eq hr.toReaches hp _ (by rw [hindex]; exact hi), hindex, ← BitVec.ofNat_add,
    hof _ (by omega), hof _ (by omega)]
  refine congrArg _ ?_
  have hone : BitVec.ofNat r.bits l.length + 1 = BitVec.ofNat r.bits (l.length + 1) := (BitVec.ofNat_add ..).symm
  rw [hone]
  apply BitVec.eq_of_toNat_eq
  rw [BitVec.toNat_setWidth, hof _ (by omega), BitVec.toNat_ofNat]

include hroom in
theorem represents_bucketInsert : Represents c (bucketInsert c x f (BitVec.ofNat r.bits i) block
    (BitVec.ofNat r.bits (PackedBuckets.start buckets i)) (BitVec.ofNat r.bits l.length)
    (BitVec.ofNat r.bits buckets.flatten.length) m) (base x block) (buckets.modify i (· ++ [f.setWidth c.k])) := by
  have hi := hrep.lt hl
  have hle := start_add_length_le hl
  have hflat := flatten_modify_append hl (f.setWidth c.k)
  have hlen : (buckets.modify i (· ++ [f.setWidth c.k])).flatten.length = buckets.flatten.length + 1 := by
    rw [hflat, List.length_insertIdx_of_le_length hle]
  rw [bucketInsert_eq hr hp m hrep hl hfull]
  have hshift := frame_shiftSlotsLeftAndInsert hr hp m (x := x) hload hle hfull f
  have hcounter :=
    frame_store_counter hp (b := base x block)
      (shiftSlotsLeftAndInsert c x f (PackedBuckets.start buckets i + l.length)
    buckets.flatten.length block m) hi (BitVec.ofNat c.counterSize (l.length + 1))
  have hslot : ∀ j < c.slotsPerBlock, slot c _ (base x block) j = slot c _ (base x block) j := fun j hj =>
    hcounter.slots j hj (.inr (Nat.zero_le j))
  constructor
  · rw [List.length_modify, hrep.length]
  · intro i' l' hl'
    rw [List.getElem?_modify] at hl'
    by_cases hii : i = i'
    · subst hii
      rw [hl] at hl'
      simp only [if_true, Option.map_eq_map, Option.map_some, Option.some.injEq] at hl'
      have hsmall := Nat.lt_of_le_of_lt (show l.length + 1 ≤ c.associativity from hroom) hp.assoc_lt
      rw [counter, Mem.load_store, BitVec.toNat_ofNat, Nat.mod_eq_of_lt hsmall, ← hl', List.length_append]
      rfl
    · obtain ⟨l0, hl0, heq⟩ := Option.map_eq_some_iff.mp hl'
      rw [if_neg hii] at heq
      have hi' := hrep.lt hl0
      rw [hcounter.counters i' hi' (Ne.symm hii), hshift.counters i' hi' (fun h => h), hrep.count i' l0 hl0, ← heq]
  · intro l' hmem
    obtain ⟨i', hl'⟩ := List.mem_iff_getElem?.mp hmem
    rw [List.getElem?_modify] at hl'
    obtain ⟨l0, hl0, heq⟩ := Option.map_eq_some_iff.mp hl'
    have h0 := hrep.room l0 (List.mem_iff_getElem?.mpr ⟨i', hl0⟩)
    by_cases hii : i = i'
    · subst hii
      obtain rfl := Option.some.inj (hl.symm.trans hl0)
      rw [if_pos rfl] at heq
      rw [← heq, List.length_append]
      exact hroom
    · rw [if_neg hii] at heq
      rw [← heq]
      exact h0
  · rw [hlen]
    exact hfull
  · rw [hflat]
    refine hrep.slots.insertIdx (fun j hj => ?_) ?_ fun j hj hjl => ?_
    · rw [hslot j (by omega), hshift.slots j (by omega) (.inl hj)]
    · rw [hslot _ (by omega), slot_shiftSlotsLeftAndInsert hr hp m hload hle hfull]
    · rw [hslot _ (by omega), slot_shiftSlotsLeftAndInsert_succ hr hp m hload hle hfull f hj hjl]

theorem frame_bucketInsert :
    Frame c (base x block) (· = i) (PackedBuckets.start buckets i + l.length) (buckets.flatten.length + 1) m
    (bucketInsert c x f (BitVec.ofNat r.bits i) block (BitVec.ofNat r.bits (PackedBuckets.start buckets i))
      (BitVec.ofNat r.bits l.length) (BitVec.ofNat r.bits buckets.flatten.length) m) := by
  rw [bucketInsert_eq hr hp m hrep hl hfull]
  have hshift := frame_shiftSlotsLeftAndInsert hr hp m (x := x) hload (start_add_length_le hl) hfull f
  have hcounter :=
    frame_store_counter hp (b := base x block)
      (shiftSlotsLeftAndInsert c x f (PackedBuckets.start buckets i + l.length)
    buckets.flatten.length block m) (hrep.lt hl) (BitVec.ofNat c.counterSize (l.length + 1))
  constructor
  · intro i' hi' hne
    rw [hcounter.counters i' hi' hne, hshift.counters i' hi' fun h => h]
  · intro t ht
    rw [hcounter.ota t ht, hshift.ota t ht]
  · intro j hj hout
    rw [hcounter.slots j hj (.inr (Nat.zero_le j)), hshift.slots j hj hout]
  · intro q hq
    rw [hcounter.outside q hq, hshift.outside q hq]

end

end

/-! ## Refinement -/

/-- The operations on a block are operations on the list of its buckets, or on the list of its slots. -/
structure RefinesBlock (c : Config r) (x : CuckooContainer r) (block : r.T) : Prop where
  bucketInsert : ∀ m buckets i l (f : r.T), Represents c m (base x block) buckets → buckets[i]? = some l →
    buckets.flatten.length < c.slotsPerBlock → l.length < c.associativity →
    let m' :=
      bucketInsert c x f (BitVec.ofNat r.bits i) block (BitVec.ofNat r.bits (start buckets i))
        (BitVec.ofNat r.bits l.length)
      (BitVec.ofNat r.bits buckets.flatten.length) m
    Represents c m' (base x block) (buckets.modify i (· ++ [f.setWidth c.k])) ∧
      Frame c (base x block) (· = i) (start buckets i + l.length) (buckets.flatten.length + 1) m m'
  shiftLeft : ∀ m (f : r.T) (start n : Nat), start ≤ n → n < c.slotsPerBlock →
    let m' := shiftSlotsLeftAndInsert c x f start n block m
    (∀ l, l.length = n → Holds (slot c m (base x block)) l →
      Holds (slot c m' (base x block)) (l.insertIdx start (f.setWidth c.k))) ∧
      Frame c (base x block) (fun _ => False) start (n + 1) m m'
  shiftRight : ∀ m (f : r.T) (start n : Nat), start < n → n ≤ c.slotsPerBlock →
    let m' := shiftSlotsRightAndInsert c x f start n block m
    (∀ l, l.length = n → Holds (slot c m (base x block)) l →
      Holds (slot c m' (base x block)) (l.eraseIdx start ++ [f.setWidth c.k])) ∧
      Frame c (base x block) (fun _ => False) start n m m'
  setFingerprint : ∀ m (f : r.T) (j : Nat), j < c.slotsPerBlock →
    let m' := setFingerprint c x j block f m
    (∀ l, l.length ≤ c.slotsPerBlock → Holds (slot c m (base x block)) l →
      Holds (slot c m' (base x block)) (l.set j (f.setWidth c.k))) ∧
      Frame c (base x block) (fun _ => False) j (j + 1) m m'

section
variable {block : r.T} (hp : Params c) (hload : 1 ≤ c.slotsToLoad)
include hp hload

theorem refinesBlock_of_reaches (hr : ReachesEnd c block) : RefinesBlock c x block := by
  constructor
  · intro m buckets i l f hrep hl hfull hroom
    exact ⟨represents_bucketInsert hr hp m hload hrep hl hfull hroom f,
      frame_bucketInsert hr hp m hload hrep hl hfull f⟩
  · intro m f start n hs hn
    have hframe := frame_shiftSlotsLeftAndInsert hr hp m (x := x) hload hs hn f
    refine ⟨fun l hl hholds => hholds.insertIdx (fun j hj => ?_) ?_ fun j hj hjl => ?_, hframe⟩
    · exact hframe.slots j (by omega) (.inl hj)
    · exact slot_shiftSlotsLeftAndInsert hr hp m hload hs hn f
    · exact slot_shiftSlotsLeftAndInsert_succ hr hp m hload hs hn f hj (hl ▸ hjl)
  · intro m f start n hs hn
    have hframe := frame_shiftSlotsRightAndInsert hr hp m (x := x) hload hs hn f
    refine ⟨fun l hl hholds => hholds.eraseIdx_append (hl ▸ hs) (fun j hj => ?_) (fun j hj hjl => ?_) ?_, hframe⟩
    · exact hframe.slots j (by omega) (.inl hj)
    · exact slot_shiftSlotsRightAndInsert_pred hr hp m hload hs hn f hj (hl ▸ hjl)
    · rw [hl]
      exact slot_shiftSlotsRightAndInsert hr hp m hload hs hn f
  · intro m f j hj
    have hframe := frame_setFingerprint hr hp m (x := x) hj f
    refine ⟨fun l hl hholds => hholds.set (fun j' hj' hne => ?_) ?_, hframe⟩
    · exact hframe.slots j' (by omega) (by omega)
    · exact slot_setFingerprint hr hp m hj f

omit hp hload in
theorem refinesBlock_of_no_slots (h : c.slotsPerBlock = 0) : RefinesBlock c x block := by
  constructor
  · intro m buckets i l f _ _ hfull
    omega
  · intro m f start n _ hn
    omega
  · intro m f start n hs hn
    omega
  · intro m f j hj
    omega

/-- The block whose end wraps: its byte-addressed slots are looked for in front of the filter. -/
theorem not_refinesBlock (hopt : c.optimalFingerprintSize = true) (hslots : 0 < c.slotsPerBlock)
    (hend : block.toNat + 512 = 2 ^ r.bits) :
    ¬RefinesBlock c x block := by
  intro h
  have hk := hp.k_pos
  have hkr := hp.k_le
  have hfit := hp.slot_fits hslots
  have hzero : ∀ p n, Mem.zero.load p n = 0 := fun p n => BitVec.eq_of_getLsbD_eq fun i hi => by simp [Mem.zero]
  have hblock : blockEnd x block = 8 * x.filter := by
    have h512 : (512 : r.T).toNat = 512 := by cases r <;> rfl
    rw [blockEnd, BitVec.toNat_add, h512, hend, Nat.mod_self, Nat.zero_div, Nat.add_zero]
  have hslot := (h.setFingerprint Mem.zero (BitVec.allOnes r.bits) 0 hslots).1 [0]
    (Nat.succ_le_of_lt hslots) (fun j a hj => by
      rw [slot, hzero]
      obtain ⟨hlt, rfl⟩ := List.getElem?_eq_some_iff.mp hj
      simp) 0 ((BitVec.allOnes r.bits).setWidth c.k) rfl
  have hbits : 2 ^ 32 ≤ 2 ^ r.bits := Nat.pow_le_pow_right (by decide) (bits_ge r)
  rw [setFingerprint, if_pos hopt, hblock, slot, Mem.load_store_of_disjoint, hzero] at hslot
  · have hbit := congrArg (fun v => v.getLsbD 0) hslot
    simp [hk, r.bits_pos] at hbit
  · left
    rw [base]
    omega

/-- The operations on a block refine those on its buckets if and only if the end of the block fits in `T`
where its slots are counted down from there. -/
theorem refinesBlock_iff (hal : 512 ∣ block.toNat) : RefinesBlock c x block ↔
    (c.optimalFingerprintSize = true → 0 < c.slotsPerBlock → block.toNat + 512 < 2 ^ r.bits) := by
  have hfit : block.toNat + 512 ≤ 2 ^ r.bits := by
    have hlt := block.isLt
    have hdvd : 512 ∣ 2 ^ r.bits := by cases r <;> decide
    omega
  constructor
  · intro h hopt hslots
    refine Nat.lt_of_le_of_ne hfit fun hend => ?_
    exact not_refinesBlock hp hload hopt hslots hend h
  · intro h
    rcases Nat.eq_zero_or_pos c.slotsPerBlock with h0 | hpos
    · exact refinesBlock_of_no_slots h0
    · exact refinesBlock_of_reaches hp hload ⟨⟨hal, hfit⟩, fun hopt => h hopt hpos⟩

end

def blockConfig : Config ._32bit :=
  { associativity := 3, bucketsPerBlock := 46, otaSize := 16, k := 8, partitioning := .Disabled, mode := .Lemire,
    hash := murmur }

def blockContainer : CuckooContainer ._32bit :=
  { entries := fun _ => ⟨0, 0, 0, 0⟩, filter := 64, nBytes := 0, offsets := fun _ => 0 }

theorem blockConfig_params : Params blockConfig := by
  constructor <;> decide

theorem refinesBlock_second : RefinesBlock blockConfig blockContainer 512 :=
  (refinesBlock_iff blockConfig_params (by decide) (by decide)).mpr fun _ _ => by decide

/-- The last block of a filter of 512 MiB. -/
theorem not_refinesBlock_last : ¬RefinesBlock blockConfig blockContainer 0xfffffe00 :=
  not_refinesBlock blockConfig_params (by decide) (by decide) (by decide) (by decide)

end PartitionedFilters.Cuckoo.Morton

import PartitionedFilters.MortonSimd
import PartitionedFilters.MortonLookupSound

/-!
# Lookup in a block with more than one lane

Each active lane of a vector finds what its bucket stores, and an inactive lane
nothing, since its counter is gathered as 0.
-/

namespace PartitionedFilters.Cuckoo.Morton.Simd

variable {r : RegisterSize} {n : Nat} {c : Config r} {x : CuckooContainer r}

theorem getLsbD_one_shiftLeft_sub_one (a : Nat) {i : Nat} (hi : i < r.bits) :
    (((1 : r.T) <<< a) - 1).getLsbD i = decide (i < a) := by
  have hw := r.bits_pos
  have hone : (1 : r.T).toNat = 1 := BitVec.toNat_one hw
  by_cases ha : a < r.bits
  · have h := getLsbD_counterMask (Nat.le_of_lt ha) i
    rwa [counterMask, if_neg (by omega)] at h
  · have hzero : (1 : r.T) <<< a = 0 := by
      refine BitVec.eq_of_getLsbD_eq fun j hj => ?_
      rw [BitVec.getLsbD_shiftLeft]
      simp [show j < a by omega]
    have hones : (0 : r.T) - 1 = BitVec.allOnes r.bits := by cases r <;> rfl
    rw [hzero, hones, BitVec.getLsbD_allOnes, decide_eq_true hi, decide_eq_true (by omega)]

theorem simdCounterToLoad_le : c.counterSize * c.simdCounterToLoad ≤ r.bits :=
  Nat.le_trans (Nat.mul_le_mul_left _ (Nat.min_le_right ..)) (Nat.mul_div_le ..)

theorem simdSlotsToLoad_le : c.simdSlotsToLoad * c.k ≤ r.bits :=
  Nat.le_trans (Nat.mul_le_mul_right _ (Nat.min_le_right ..)) (Nat.div_mul_le_self ..)

section
variable {bucketIndex blockOffset : Lanes r n} {mask : LaneMask n} {l : Fin n} (hl : mask l = true)
  (hr : Reaches (blockOffset l)) (hp : Params c) (m : Mem) (hi : (bucketIndex l).toNat < c.bucketsPerBlock)
include hl hr hp hi

theorem getSlotCount_eq : getSlotCount c x bucketIndex blockOffset mask m l =
    Morton.getSlotCount c x (bucketIndex l) (blockOffset l) m := by
  have hd := fun h => dvd_counterBit hr hp h (bucketIndex l).toNat
  rw [getSlotCount, Lanes.gatheruBits, if_pos hl, Morton.getSlotCount, counterBit_eq hr hp hi,
    gatheruBits_eq hp.counterSize_le _ _ _ _ fun _ h => hd h,
    gatheruBits_eq hp.counterSize_le _ _ _ _ fun _ h => hd h]

omit hp in
/-- After `T` pieces all counters of these pieces are added up that stand before the bucket. -/
theorem sumSteps_spec (h512 : c.otaOffset ≤ 512) (T : Nat) :
    (((List.range T).foldl (fun s _ => sumStep c x mask m s)
      { count := fun _ => 0, index := bucketIndex, bitAddress := blockOffset }).count l =
        BitVec.ofNat r.bits (weight c.counterSize (fun g => m.bit (base x (blockOffset l) + g))
          (c.counterSize * min (bucketIndex l).toNat (c.simdCounterToLoad * T)))) ∧
    (((List.range T).foldl (fun s _ => sumStep c x mask m s)
      { count := fun _ => 0, index := bucketIndex, bitAddress := blockOffset }).index l =
        BitVec.ofNat r.bits ((bucketIndex l).toNat - c.simdCounterToLoad * T)) ∧
    (((List.range T).foldl (fun s _ => sumStep c x mask m s)
      { count := fun _ => 0, index := bucketIndex, bitAddress := blockOffset }).bitAddress l =
        blockOffset l + BitVec.ofNat r.bits (c.counterSize * c.simdCounterToLoad * T)) := by
  have hcs := counterSize_pos c
  have hL := simdCounterToLoad_le (c := c)
  have hfits := Params.counter_fits hi
  induction T with
  | zero =>
    refine ⟨by simp [weight], ?_, by simp⟩
    simp
  | succ T ih =>
    obtain ⟨hcount, hindex, haddr⟩ := ih
    rw [List.range_succ, List.foldl_append, List.foldl_cons, List.foldl_nil]
    generalize (List.range T).foldl (fun s _ => sumStep c x mask m s)
      { count := fun _ => 0, index := bucketIndex, bitAddress := blockOffset } = s at *
    have hnat : ∀ a ≤ (bucketIndex l).toNat, (BitVec.ofNat r.bits a : r.T).toNat = a := by
      intro a ha
      have := (bucketIndex l).isLt
      rw [BitVec.toNat_ofNat, Nat.mod_eq_of_lt (by omega)]
    have hC : c.simdCounterToLoad ≤ 512 := by
      have hmin := Nat.min_le_left c.bucketsPerBlock (r.bits / c.counterSize)
      have hmul := Nat.le_mul_of_pos_right c.bucketsPerBlock hcs
      rw [Config.otaOffset] at h512
      rw [Config.simdCounterToLoad]
      omega
    simp only [sumStep]
    generalize (bucketIndex l).toNat = i at *
    generalize c.simdCounterToLoad = C at *
    have hmask : (BitVec.ofNat r.bits (i - C * T) * BitVec.ofNat r.bits c.counterSize).toNat =
        c.counterSize * (i - C * T) := by
      have := Nat.mul_le_mul_left c.counterSize (Nat.sub_le i (C * T))
      rw [← BitVec.ofNat_mul, BitVec.toNat_ofNat, Nat.mul_comm, Nat.mod_eq_of_lt (lt_two_pow_bits (by omega))]
    have hin : c.counterSize * C * T < 512 ∨ c.counterSize * (i - C * T) = 0 := by
      by_cases hlt : C * T < i
      · have hmul := Nat.mul_lt_mul_of_pos_left hlt hcs
        rw [← Nat.mul_assoc] at hmul
        exact .inl (by omega)
      · exact .inr (by rw [Nat.sub_eq_zero_of_le (Nat.le_of_not_lt hlt), Nat.mul_zero])
    have hpiece := sumBitsInRegisters_piece (c := c) (x := x) hr m true hL hin fun _ hg =>
      getLsbD_one_shiftLeft_sub_one _ hg
    refine ⟨?_, ?_, ?_⟩
    · rw [hindex, hmask, Lanes.gatheruBits, if_pos hl, haddr, hpiece, hcount, ← BitVec.ofNat_add,
        Nat.mul_min_mul_left]
      refine congrArg _ ?_
      by_cases hlt : C * T < i
      · have hadd :=
          weight_add (fun g => m.bit (base x (blockOffset l) + g)) (Nat.dvd_mul_right c.counterSize (C * T))
          (c.counterSize * min C (i - C * T))
        simp only [← Nat.add_assoc] at hadd
        rw [Nat.min_eq_right (Nat.le_of_lt hlt), Nat.mul_assoc, ← hadd, ← Nat.mul_add, Nat.mul_succ]
        exact congrArg _ (congrArg _ (by omega))
      · rw [show i - C * T = 0 by omega, Nat.min_zero, Nat.min_eq_left (by omega), Nat.mul_succ,
          Nat.min_eq_left (by omega)]
        rfl
    · rw [hindex, BitVec.ult_eq_decide, hnat _ (Nat.sub_le ..), BitVec.toNat_ofNat,
        Nat.mod_eq_of_lt (lt_two_pow_bits (by omega)), Nat.mul_succ, ← Nat.sub_sub]
      by_cases hgt : C < i - C * T
      · rw [decide_eq_true hgt, if_pos rfl]
        refine BitVec.eq_of_toNat_eq ?_
        rw [BitVec.toNat_sub_of_le (by rw [BitVec.le_def, hnat _ (Nat.sub_le ..), hnat _ (by omega)]; omega),
          hnat _ (Nat.sub_le ..), hnat _ (by omega), hnat _ (by omega)]
      · rw [decide_eq_false hgt, if_neg (by simp), show i - C * T - C = 0 by omega]
        rfl
    · rw [haddr, BitVec.add_assoc, ← BitVec.ofNat_add, Nat.mul_succ]

theorem getSlotOffset_eq : getSlotOffset c x bucketIndex blockOffset mask m l =
    BitVec.ofNat r.bits (slotsBefore c m (base x (blockOffset l)) (bucketIndex l).toNat) := by
  have hC : 0 < c.simdCounterToLoad := by
    have := Nat.div_pos hp.counterSize_le (counterSize_pos c)
    have := hp.buckets_pos
    rw [Config.simdCounterToLoad]
    omega
  have hall : c.bucketsPerBlock ≤ c.simdCounterToLoad * (c.bucketsPerBlock / c.simdCounterToLoad + 1) :=
    Nat.le_of_lt (Nat.lt_mul_div_succ _ hC)
  rw [getSlotOffset, (sumSteps_spec hl hr m hi (by have := hp.fits; omega) _).1,
    Nat.min_eq_left (by omega), weight_mul]
  rfl

end

/-! ## Pieces -/

/-- The slots of a lane that the loop has not looked at, where it counts them down. -/
def remaining (c : Config r) (count i : Nat) : Nat := if c.k = 8 ∨ c.k = 16 then count - i else count

theorem lane_ones_shiftLeft {k : Nat} (hk : 0 < k) {count j : Nat} (hj : k * j + k ≤ r.bits) :
    ((0 : BitVec k) == lane k (BitVec.allOnes r.bits <<< (count * k)) j) = decide (j < count) := by
  rw [Bool.eq_iff_iff, beq_iff_eq, decide_eq_true_eq]
  constructor
  · intro h
    by_contra hge
    have h0 := congrArg (fun a => a.getLsbD 0) h
    have hmul := Nat.mul_le_mul_left k (Nat.le_of_not_lt hge)
    rw [Nat.mul_comm k count] at hmul
    simp only [getLsbD_lane, BitVec.getLsbD_shiftLeft, BitVec.getLsbD_allOnes, Nat.add_zero] at h0
    simp [hk, show k * j < r.bits by omega, Nat.not_lt.mpr hmul, show k * j - count * k < r.bits by omega] at h0
  · intro hlt
    refine BitVec.eq_of_getLsbD_eq fun i hi => ?_
    have hmul := Nat.mul_le_mul_left k (Nat.succ_le_of_lt hlt)
    rw [Nat.mul_succ, Nat.mul_comm k count] at hmul
    rw [getLsbD_lane, BitVec.getLsbD_shiftLeft]
    simp [show k * j + i < count * k by omega]

section
variable (hp : Params c) (hn : n * r.bits ≤ 512) {fingerprint : Lanes r n} {mask : LaneMask n} {m : Mem} {l : Fin n}
  (hf : (fingerprint l).toNat < 2 ^ c.k) {s : Lookup r n} {count i : Nat} (hcount : count ≤ c.associativity)
  (hfit : c.k * count ≤ 512) (hi : i < c.associativity)
  (hs : (s.slotCount l).toNat = remaining c count i)
include hp hn hf hcount hfit hi hs

/-- One piece looks at the next slots of the lane, as many as are counted. -/
theorem lookupStep_found : (lookupStep c x fingerprint mask m i s).found l = true ↔ s.found l = true ∨
    ∃ j < c.simdSlotsToLoad, i + j < count ∧
      lane c.k (Lanes.gatheruBits false (c.simdSlotsToLoad * c.k) s.bitAddress x.filter mask m l) j =
        (fingerprint l).setWidth c.k := by
  have hload := simdSlotsToLoad_le (c := c)
  have hlane : ∀ j, j < r.bits / c.k → c.k * j + c.k ≤ r.bits := by
    intro j hj
    rw [← Nat.mul_succ]
    exact Nat.le_trans (Nat.mul_le_mul_left _ hj) (Nat.mul_div_le ..)
  rw [lookupStep]
  simp only
  generalize Lanes.gatheruBits false (c.simdSlotsToLoad * c.k) s.bitAddress x.filter mask m = bucket
  have hassoc : c.simdSlotsToLoad ≤ c.associativity := Nat.min_le_left ..
  have hslots : c.simdSlotsToLoad ≤ r.bits / c.k := Nat.min_le_right ..
  by_cases hk : c.k = 8 ∨ c.k = 16
  · -- compared all at once
    have hrem : (s.slotCount l).toNat = count - i := by rw [hs, remaining, if_pos hk]
    have hmul : (s.slotCount l * BitVec.ofNat r.bits c.k).toNat = (count - i) * c.k := by
      have h1 := Nat.mul_le_mul_right c.k (Nat.sub_le count i)
      rw [Nat.mul_comm count] at h1
      have h2 := lt_two_pow_bits (r := r) (n := c.k) (by omega)
      rw [BitVec.toNat_mul, hrem, BitVec.toNat_ofNat, Nat.mod_eq_of_lt h2,
        Nat.mod_eq_of_lt (lt_two_pow_bits (by omega))]
    have hbit : ∀ j < r.bits / c.k, (Lanes.equal c.k bucket (Lanes.permute c.k fingerprint) &&&
        Lanes.equal c.k (fun _ => 0 : Lanes r n)
          (fun l => BitVec.allOnes r.bits <<< (s.slotCount l * BitVec.ofNat r.bits c.k).toNat)).getLsbD
            (r.bits / c.k * l + j) =
        ((lane c.k (bucket l) j == (fingerprint l).setWidth c.k) && decide (j < count - i)) := by
      intro j hj
      have hzero : lane c.k (0 : r.T) j = 0 := by
        refine BitVec.eq_of_getLsbD_eq fun b _ => ?_
        rw [getLsbD_lane]
        simp
      rw [BitVec.getLsbD_and, getLsbD_equal hk hn _ _ l hj, getLsbD_equal hk hn _ _ l hj, lane_permute hk _ l hj,
        hmul, hzero, lane_ones_shiftLeft hp.k_pos (hlane j hj)]
    have hzero : ∀ j < r.bits / c.k, c.simdSlotsToLoad ≤ j →
        (Lanes.equal c.k bucket (Lanes.permute c.k fingerprint) &&& Lanes.equal c.k (fun _ => 0 : Lanes r n)
          (fun l => BitVec.allOnes r.bits <<< (s.slotCount l * BitVec.ofNat r.bits c.k).toNat)).getLsbD
            (r.bits / c.k * l + j) = false := by
      intro j hj hle
      have : c.simdSlotsToLoad = min c.associativity (r.bits / c.k) := rfl
      rw [hbit j hj, decide_eq_false (by omega), Bool.and_false]
    rw [if_pos hk, Bool.or_eq_true, getLsbD_pext64_foldEqual hk hn hslots hzero]
    refine or_congr_right (exists_congr fun j => and_congr_right fun hj => ?_)
    rw [hbit j (by omega), Bool.and_eq_true, beq_iff_eq, decide_eq_true_eq, and_comm]
    exact and_congr_left fun _ => by omega
  · rw [if_neg hk]
    simp only
    have hrem : (s.slotCount l).toNat = count := by rw [hs, remaining, if_neg hk]
    have hassocFits := hp.assoc_fits
    have hwrap : ∀ j < c.simdSlotsToLoad, (BitVec.ofNat r.bits (i + j)).ult (s.slotCount l) =
        decide (i + j < count) := by
      intro j hj
      rw [BitVec.ult_eq_decide, hrem, BitVec.toNat_ofNat, Nat.mod_eq_of_lt (by omega)]
    rw [Bool.or_eq_true, List.any_eq_true]
    refine or_congr_right (exists_congr fun j => ?_)
    rw [List.mem_range]
    refine and_congr_right fun hj => ?_
    rw [hwrap j hj, shift_and_mask_eq_iff hp.k_le _ _ hf, Bool.and_eq_true, decide_eq_true_eq, beq_iff_eq]

omit hn hf hcount hfit hi in
theorem lookupStep_slotCount :
    ((lookupStep c x fingerprint mask m i s).slotCount l).toNat = remaining c count (i + c.simdSlotsToLoad) := by
  have hassoc : c.simdSlotsToLoad ≤ c.associativity := Nat.min_le_left ..
  have hassocFits := hp.assoc_fits
  rw [lookupStep]
  by_cases hk : c.k = 8 ∨ c.k = 16
  · have hrem : (s.slotCount l).toNat = count - i := by rw [hs, remaining, if_pos hk]
    have hload : (BitVec.ofNat r.bits c.simdSlotsToLoad : r.T).toNat = c.simdSlotsToLoad := by
      rw [BitVec.toNat_ofNat, Nat.mod_eq_of_lt (by omega)]
    rw [if_pos hk, remaining, if_pos hk]
    simp only [BitVec.ult_eq_decide, hload, hrem]
    by_cases hlt : c.simdSlotsToLoad < count - i
    · rw [decide_eq_true hlt, if_pos rfl, BitVec.toNat_sub_of_le (by rw [BitVec.le_def, hload, hrem]; omega), hload,
        hrem]
      omega
    · rw [decide_eq_false hlt, if_neg (by simp), show count - (i + c.simdSlotsToLoad) = 0 by omega]
      exact BitVec.toNat_zero
  · rw [if_neg hk, hs, remaining, remaining, if_neg hk, if_neg hk]

omit hn hf hcount hfit hi hs hp in
theorem lookupStep_bitAddress : (lookupStep c x fingerprint mask m i s).bitAddress l =
    s.bitAddress l + BitVec.ofNat r.bits (c.simdSlotsToLoad * c.k) := by
  rw [lookupStep]
  split <;> rfl

end

section
variable (hp : Params c) (hn : n * r.bits ≤ 512) {fingerprint : Lanes r n} {mask : LaneMask n} {m : Mem} {l : Fin n}
  (hf : (fingerprint l).toNat < 2 ^ c.k) {start slotCount : Lanes r n}
include hp hn hf

/-- After `T` pieces the lane has found what stands in their slots, as far as they are counted. -/
theorem lookupSteps_spec (hmask : (slotCount l).toNat = 0 ∨ mask l = true)
    (hcount : (slotCount l).toNat ≤ c.associativity) (hfit : c.k * (slotCount l).toNat ≤ 512)
    (hstart : (start l).toNat + c.k * (slotCount l).toNat ≤ 2 ^ r.bits) (T : Nat)
    (hT : ∀ t < T, c.simdSlotsToLoad * t < c.associativity) {s : Lookup r n}
    (hs : s = (List.range T).foldl (fun s t => lookupStep c x fingerprint mask m (c.simdSlotsToLoad * t) s)
      { found := fun _ => false, slotCount, bitAddress := start }) :
    (s.slotCount l).toNat = remaining c (slotCount l).toNat (c.simdSlotsToLoad * T) ∧
    s.bitAddress l = start l + BitVec.ofNat r.bits (c.k * (c.simdSlotsToLoad * T)) ∧
    (s.found l = true ↔ ∃ j < c.simdSlotsToLoad * T, j < (slotCount l).toNat ∧
      field c x m (start l).toNat j = (fingerprint l).setWidth c.k) := by
  induction T generalizing s with
  | zero =>
    subst hs
    refine ⟨by simp [remaining], by simp, by simp⟩
  | succ T ih =>
    rw [List.range_succ, List.foldl_append, List.foldl_cons, List.foldl_nil] at hs
    obtain ⟨hslot, haddr, hfound⟩ := ih (fun t ht => hT t (Nat.lt_succ_of_lt ht)) rfl
    generalize (List.range T).foldl (fun s t => lookupStep c x fingerprint mask m (c.simdSlotsToLoad * t) s)
      { found := fun _ => false, slotCount, bitAddress := start } = s' at *
    subst hs
    refine ⟨?_, ?_, ?_⟩
    · rw [lookupStep_slotCount hp hslot, Nat.mul_succ]
    · rw [lookupStep_bitAddress, haddr, BitVec.add_assoc, ← BitVec.ofNat_add, Nat.mul_succ, Nat.mul_add,
        Nat.mul_comm c.k c.simdSlotsToLoad]
    · rw [lookupStep_found hp hn hf hcount hfit (hT T (Nat.lt_succ_self T)) hslot, hfound,
        Nat.mul_succ, exists_lt_add]
      refine or_congr_right (exists_congr fun j => and_congr_right fun hj => and_congr_right fun hlt => ?_)
      have hl : mask l = true := hmask.resolve_left (by omega)
      have hload := simdSlotsToLoad_le (c := c)
      have hsmall : c.k * j + c.k ≤ c.simdSlotsToLoad * c.k := by
        rw [← Nat.mul_succ, Nat.mul_comm]
        exact Nat.mul_le_mul_right _ hj
      have hlane : lane c.k (Lanes.gatheruBits false (c.simdSlotsToLoad * c.k) s'.bitAddress x.filter mask m l) j =
          field c x m (start l).toNat (c.simdSlotsToLoad * T + j) := by
        rw [Lanes.gatheruBits, if_pos hl, haddr,
          toNat_start_add hp hstart (show c.simdSlotsToLoad * T < _ by omega),
          gatheruBits_eq hload _ _ _ _ (by simp)]
        refine BitVec.eq_of_getLsbD_eq fun i hi => ?_
        rw [getLsbD_lane, BitVec.getLsbD_setWidth, Mem.getLsbD_load, field, Mem.getLsbD_load, Nat.mul_add]
        simp only [← Nat.add_assoc]
        simp [hi, show c.k * j + i < c.simdSlotsToLoad * c.k by omega, show c.k * j + i < r.bits by omega]
      rw [hlane]

end

/-- Each lane by itself: an active one finds what its bucket stores, an inactive one nothing. -/
theorem bucketContains_iff (hp : Params c) (hn : n * r.bits ≤ 512) {fingerprint bucketIndex blockOffset : Lanes r n}
    {mask : LaneMask n} {m : Mem} {l : Fin n} (hf : (fingerprint l).toNat < 2 ^ c.k)
    (hl : mask l = true → Reaches (blockOffset l) ∧ WellFormed c m (base x (blockOffset l)) ∧
      (bucketIndex l).toNat < c.bucketsPerBlock) :
    bucketContains c x fingerprint bucketIndex blockOffset mask m l = true ↔
      mask l = true ∧ Stored c m (base x (blockOffset l)) (bucketIndex l).toNat ((fingerprint l).setWidth c.k) := by
  have hL : 0 < c.simdSlotsToLoad := by
    have := Nat.div_pos hp.k_le hp.k_pos
    have := hp.assoc_pos
    rw [Config.simdSlotsToLoad]
    omega
  have hT : ∀ t < (c.associativity + c.simdSlotsToLoad - 1) / c.simdSlotsToLoad, c.simdSlotsToLoad * t <
      c.associativity := by
    intro t ht
    have h1 := Nat.mul_le_mul_left c.simdSlotsToLoad (Nat.succ_le_of_lt ht)
    have h2 := Nat.mul_div_le (c.associativity + c.simdSlotsToLoad - 1) c.simdSlotsToLoad
    rw [Nat.mul_succ] at h1
    omega
  have hall : c.associativity ≤
      c.simdSlotsToLoad * ((c.associativity + c.simdSlotsToLoad - 1) / c.simdSlotsToLoad) := by
    have := Nat.lt_mul_div_succ (c.associativity + c.simdSlotsToLoad - 1) hL
    rw [Nat.mul_succ] at this
    omega
  rw [bucketContains]
  cases hm : mask l with
  | false =>
    have hcount : (getSlotCount c x bucketIndex blockOffset mask m l).toNat = 0 := by
      rw [getSlotCount, Lanes.gatheruBits, if_neg (by simp [hm])]
      exact BitVec.toNat_zero
    rw [(lookupSteps_spec hp hn hf (.inl hcount) (by omega) (by rw [hcount]; omega)
      (by rw [hcount]; exact Nat.le_of_lt (BitVec.isLt _)) _ hT rfl).2.2, hcount]
    simp
  | true =>
    obtain ⟨hr, hwf, hi⟩ := hl hm
    have hcount : (getSlotCount c x bucketIndex blockOffset mask m l).toNat =
        counter c m (base x (blockOffset l)) (bucketIndex l).toNat := by
      rw [getSlotCount_eq hm hr hp m hi, toNat_getSlotCount hr hp hwf hi]
    have hassoc := hwf.counter_le _ hi
    have hfit := bucket_fits hp hwf hi
    have hstart := toNat_end_sub hr hfit
    rw [← Morton.getSlotCount_eq hr hp m hi, ← getSlotCount_eq hm hr hp m hi,
      show BitVec.ofNat r.bits (slotsBefore c m (base x (blockOffset l)) (bucketIndex l).toNat) = _ from
        (getSlotOffset_eq hm hr hp m hi).symm] at hstart
    have hblock := hr.fit
    rw [Nat.mul_add] at hfit hstart
    have hle : (blockOffset l + 512 - (getSlotCount c x bucketIndex blockOffset mask m l +
        getSlotOffset c x bucketIndex blockOffset mask m l) * BitVec.ofNat r.bits c.k).toNat +
          c.k * (getSlotCount c x bucketIndex blockOffset mask m l).toNat ≤ 2 ^ r.bits := by
      rw [hcount]
      rcases Nat.eq_zero_or_pos (counter c m (base x (blockOffset l)) (bucketIndex l).toNat) with h0 | hpos
      · rw [h0, Nat.mul_zero, Nat.add_zero]
        exact Nat.le_of_lt (BitVec.isLt _)
      · have := Nat.mul_le_mul hp.k_pos hpos
        rw [hstart, Nat.mod_eq_of_lt (by omega)]
        omega
    rw [(lookupSteps_spec hp hn hf (.inr hm) (by rw [hcount]; exact hassoc) (by rw [hcount]; omega) hle _ hT
      rfl).2.2, hcount, stored_iff hp hwf hi, hstart, Nat.mul_add]
    simp only [true_and]
    refine exists_congr fun j => ?_
    constructor
    · rintro ⟨-, hj, h⟩
      have := Nat.mul_le_mul hp.k_pos (show 1 ≤ counter c m (base x (blockOffset l)) (bucketIndex l).toNat by omega)
      rw [Nat.mod_eq_of_lt (by omega)] at h
      exact ⟨hj, h⟩
    · rintro ⟨hj, h⟩
      have := Nat.mul_le_mul hp.k_pos (show 1 ≤ counter c m (base x (blockOffset l)) (bucketIndex l).toNat by omega)
      rw [Nat.mod_eq_of_lt (by omega)]
      exact ⟨by omega, hj, h⟩

end Simd

theorem nElements_mul_bits (simd : SIMD) (r : RegisterSize) : simd.nElements r * r.bits ≤ 512 := by
  cases simd <;> cases r <;> decide

/-- A lookup is exact, but for an empty bucket whose mask is not shifted out and hits a field behind it. -/
theorem lookup_exact {r : RegisterSize} {c : Config r} {x : CuckooContainer r} (hp : Params c) (m : Mem) :
    (1 ≤ c.slotsToLoad → 1 ≤ c.counterToLoad → ∀ fingerprint bucketIndex blockOffset : r.T,
      fingerprint.toNat < 2 ^ c.k → bucketIndex.toNat < c.bucketsPerBlock → Reaches blockOffset →
      WellFormed c m (base x blockOffset) →
      ((bucketContains c x fingerprint bucketIndex blockOffset m = true ↔
          Stored c m (base x blockOffset) bucketIndex.toNat (fingerprint.setWidth c.k)) ↔
        ¬ (counter c m (base x blockOffset) bucketIndex.toNat = 0 ∧ WideShift c ∧ ∃ j < c.slotsToLoad,
          field c x m (bucketBit c x bucketIndex blockOffset m).toNat j = fingerprint.setWidth c.k))) ∧
    ∀ simd : SIMD, simd ≠ .Scalar → ∀ (fingerprint bucketIndex blockOffset : Lanes r (simd.nElements r))
      (mask : LaneMask (simd.nElements r)), (∀ l, (fingerprint l).toNat < 2 ^ c.k) →
      (∀ l, mask l = true → Reaches (blockOffset l) ∧ WellFormed c m (base x (blockOffset l)) ∧
        (bucketIndex l).toNat < c.bucketsPerBlock) →
      ∀ l, Simd.bucketContains c x fingerprint bucketIndex blockOffset mask m l = true ↔
        mask l = true ∧
        Stored c m (base x (blockOffset l)) (bucketIndex l).toNat ((fingerprint l).setWidth c.k) := by
  constructor
  · intro hload hctl fingerprint bucketIndex blockOffset hf hi hr hwf
    rw [bucketContains_iff hr hp hwf hi hload hctl hf]
    have hempty : counter c m (base x blockOffset) bucketIndex.toNat = 0 →
        ¬ Stored c m (base x blockOffset) bucketIndex.toNat (fingerprint.setWidth c.k) := by
      rintro h0 ⟨j, hj, -⟩
      omega
    constructor
    · intro h hbad
      exact hempty hbad.1 (h.mp (.inr hbad))
    · intro hgood
      exact ⟨fun h => h.resolve_right hgood, .inl⟩
  · intro simd _ fingerprint bucketIndex blockOffset mask hf hl l
    exact Simd.bucketContains_iff hp (nElements_mul_bits simd r) (hf l) (hl l)

def lookupConfig : Config ._64bit :=
  { associativity := 4, bucketsPerBlock := 2, otaSize := 0, k := 8, partitioning := .Disabled,
    mode := .Lemire, hash := id }

def lookupBlock : Mem := ⟨fun b => b == 0 || b == 504 || b == 505 || b == 506⟩

def lookupContainer : CuckooContainer ._64bit :=
  { entries := fun _ => { size := 2 }, filter := 0, nBytes := 128, offsets := fun _ => 0 }

theorem lookup_exact_packed : bucketContains lookupConfig lookupContainer 7 0 0 lookupBlock = true ↔
    Stored lookupConfig lookupBlock (base lookupContainer 0) 0 7 :=
  ((lookup_exact (x := lookupContainer)
    ⟨by decide, by decide, by decide, by decide, by decide, by decide, by decide⟩
    lookupBlock).1 (by decide) (by decide) 7 0 0 (by decide) (by decide) ⟨by decide, by decide⟩
      ⟨by decide +kernel, by decide +kernel⟩).mpr (by decide +kernel)

/-- The empty bucket 1 contains what stands in bucket 0. -/
theorem empty_bucket_contains : WellFormed lookupConfig lookupBlock (base lookupContainer 0) ∧
    ¬ (bucketContains lookupConfig lookupContainer 7 1 0 lookupBlock = true ↔
      Stored lookupConfig lookupBlock (base lookupContainer 0) 1 7) := by
  refine ⟨⟨by decide +kernel, by decide +kernel⟩, fun h => ?_⟩
  obtain ⟨j, hj, -⟩ := h.mp (by decide +kernel)
  have hcount : counter lookupConfig lookupBlock (base lookupContainer 0) 1 = 0 := by decide +kernel
  rw [hcount] at hj
  exact Nat.not_lt_zero j hj

end PartitionedFilters.Cuckoo.Morton

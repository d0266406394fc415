import PartitionedFilters.BucketArray
import PartitionedFilters.MortonBlockSound

/-!
# Lookup in a block

`bucket_contains` reads a bucket piece by piece, the last one behind a mask. The
mask is right but where it should be empty and the shift is by the whole width
of its operand, which the hardware takes as no shift (`WideShift`).
-/

namespace PartitionedFilters.Cuckoo.Morton

variable {r : RegisterSize} {c : Config r} {x : CuckooContainer r}

/-! ## Types -/

theorem le_partialBits : c.slotsToLoad * c.k ≤ c.partialBits := by
  have h1 := Params.load_le (c := c)
  have h2 := r.bits_le
  rw [Config.partialBits]
  split
  · assumption
  split
  · assumption
  split
  · assumption
  · omega

theorem le_fingerprintBits (hp : Params c) : c.k ≤ c.fingerprintBits := by
  have h1 := hp.k_le
  have h2 := r.bits_le
  rw [Config.fingerprintBits]
  split
  · assumption
  split
  · assumption
  split
  · assumption
  · omega

theorem partialBits_le_promotedBits : c.partialBits ≤ c.promotedBits := Nat.le_max_right ..

theorem partialBits_of_full (h : c.slotsToLoad * c.k = r.bits) : c.partialBits = r.bits := by
  rw [Config.partialBits, h]
  cases r <;> decide

/-- The mask of a whole piece fills its operand, and is moved out in one step. -/
def WideShift (c : Config r) : Prop :=
  c.slotsToLoad * c.k = c.promotedBits ∧ (c.slotsToLoad * c.k = r.bits → c.k = 1)

instance : Decidable (WideShift c) := inferInstanceAs (Decidable (_ ∧ _))

theorem getLsbD_shiftRight {a : BitVec c.partialBits} {amount : Nat} (h : amount < c.promotedBits) {i : Nat}
    (hi : i < c.partialBits) : (shiftRight c a amount).getLsbD i = a.getLsbD (amount + i) := by
  rw [shiftRight, BitVec.getLsbD_setWidth, BitVec.getLsbD_ushiftRight, BitVec.getLsbD_setWidth, Nat.mod_eq_of_lt h,
    decide_eq_true hi, Bool.true_and]
  by_cases hb : amount + i < c.promotedBits
  · rw [decide_eq_true hb, Bool.true_and]
  · have := partialBits_le_promotedBits (c := c)
    rw [BitVec.getLsbD_of_ge a _ (by omega), Bool.and_false]

theorem shiftRight_full {a : BitVec c.partialBits} : shiftRight c a c.promotedBits = a := by
  rw [shiftRight, Nat.mod_self, BitVec.ushiftRight_zero,
    BitVec.setWidth_setWidth_of_le _ partialBits_le_promotedBits, BitVec.setWidth_eq]

theorem getLsbD_partialBucketMask (hp : Params c) (hload : 1 ≤ c.slotsToLoad) {s : Nat} (hs : s ≤ c.slotsToLoad)
    {i : Nat} (hi : i < c.partialBits) :
    (partialBucketMask c s).getLsbD i =
      decide (i < c.k * if s = c.slotsToLoad ∧ WideShift c then c.slotsToLoad else c.slotsToLoad - s) := by
  have hle := le_partialBits (c := c)
  have hprom := partialBits_le_promotedBits (c := c)
  have hk := hp.k_pos
  have hmask : ∀ i, (bucketMask c).getLsbD i = decide (i < c.slotsToLoad * c.k) := getLsbD_counterMask hle
  have hsub : c.k * (c.slotsToLoad - s) = c.slotsToLoad * c.k - s * c.k := by
    rw [Nat.mul_comm, Nat.sub_mul]
  have hsk : s * c.k ≤ c.slotsToLoad * c.k := Nat.mul_le_mul_right _ hs
  rw [partialBucketMask]
  by_cases hfull : c.slotsToLoad * c.k = r.bits
  · rw [if_pos hfull]
    have hbits := partialBits_of_full hfull
    by_cases hw : s = c.slotsToLoad ∧ WideShift c
    · obtain ⟨rfl, hwide, hone⟩ := hw
      have h1 := hone hfull
      rw [if_pos ⟨rfl, hwide, hone⟩, h1, Nat.sub_self, Nat.mul_zero, Nat.one_mul]
      rw [h1, Nat.mul_one] at hwide
      rw [hwide, shiftRight_full, getLsbD_shiftRight (by omega) hi, Nat.zero_add, hmask, h1, Nat.mul_one, hwide]
    · rw [if_neg hw]
      have hsplit : s * (c.k - 1) + s = s * c.k := by
        rw [← Nat.mul_succ, Nat.succ_eq_add_one, Nat.sub_add_cancel hk]
      have hslt : s < c.promotedBits := by
        by_contra hge
        have hLk := Nat.le_mul_of_pos_right c.slotsToLoad hk
        have hs' : s = c.slotsToLoad := by omega
        have hk1 : c.k = 1 := by
          by_contra h2
          have := Nat.mul_le_mul_left c.slotsToLoad (show 2 ≤ c.k by omega)
          have := hload
          omega
        exact hw ⟨hs', by omega, fun _ => hk1⟩
      have hslt2 : s * (c.k - 1) < c.promotedBits := by
        have := hload
        rcases Nat.eq_zero_or_pos s with rfl | hpos
        · omega
        · omega
      rw [getLsbD_shiftRight hslt2 hi]
      by_cases hb : s * (c.k - 1) + i < c.partialBits
      · rw [getLsbD_shiftRight hslt hb, hmask, hsub]
        exact decide_eq_decide.mpr (by omega)
      · rw [BitVec.getLsbD_of_ge _ _ (by omega), hsub, eq_comm, decide_eq_false_iff_not]
        omega
  · rw [if_neg hfull]
    by_cases hw : s = c.slotsToLoad ∧ WideShift c
    · obtain ⟨rfl, hwide⟩ := hw
      rw [if_pos ⟨rfl, hwide⟩, hwide.1, shiftRight_full, hmask, Nat.mul_comm c.k]
    · rw [if_neg hw]
      have hslt : s * c.k < c.promotedBits := by
        by_contra hge
        have hmul : s * c.k = c.slotsToLoad * c.k := by omega
        exact hw ⟨Nat.eq_of_mul_eq_mul_right hk hmul, by omega, fun h => absurd h hfull⟩
      rw [getLsbD_shiftRight hslt hi, hmask, hsub]
      exact decide_eq_decide.mpr (by omega)

/-! ## Pieces -/

def field (c : Config r) (x : CuckooContainer r) (m : Mem) (a j : Nat) : BitVec c.k :=
  m.load (8 * x.filter + a + c.k * j) c.k

theorem matching_ne_zero_iff (hp : Params c) (hload : 1 ≤ c.slotsToLoad) (m : Mem) {fingerprint : r.T}
    (hf : fingerprint.toNat < 2 ^ c.k) (a : r.T) {p : Nat} (hle : p ≤ c.slotsToLoad) (mask : BitVec c.partialBits)
    (hmask : ∀ i < c.partialBits, mask.getLsbD i = decide (i < c.k * p)) :
    matching c x fingerprint a m &&& mask ≠ 0 ↔ ∃ j < p, field c x m a.toNat j = fingerprint.setWidth c.k := by
  have hassoc : c.slotsToLoad ≤ c.associativity := by
    rw [Config.slotsToLoad]
    split <;> exact Nat.min_le_left ..
  have hkL := le_partialBits (c := c)
  have hkp : c.k * p ≤ c.slotsToLoad * c.k := by
    rw [Nat.mul_comm]
    exact Nat.mul_le_mul_right _ hle
  have hv : ((fingerprint.setWidth c.fingerprintBits).setWidth c.partialBits).toNat < 2 ^ c.k := by
    rw [BitVec.toNat_setWidth, BitVec.toNat_setWidth]
    exact Nat.lt_of_le_of_lt (Nat.mod_le _ _) (Nat.lt_of_le_of_lt (Nat.mod_le _ _) hf)
  have hkpart : c.k ≤ c.partialBits := Nat.le_trans (Nat.le_mul_of_pos_left _ hload) hkL
  rw [matching, hasValue_and_ne_zero_iff hp.k_pos (by omega) (Nat.le_trans hle hassoc) _ hv hmask,
    BitVec.setWidth_setWidth_of_le _ hkpart, BitVec.setWidth_setWidth_of_le _ (le_fingerprintBits hp)]
  have hlane : ∀ j < p, lane c.k ((gatheruBits false false (c.slotsToLoad * c.k) a.toNat x.filter m : r.T).setWidth
      c.partialBits) j = field c x m a.toNat j := by
    intro j hj
    have hfit : c.k * j + c.k ≤ c.slotsToLoad * c.k := by
      rw [← Nat.mul_succ, Nat.mul_comm]
      exact Nat.mul_le_mul_right _ (by omega)
    rw [gatheruBits_eq Params.load_le _ _ _ _ (by simp)]
    refine BitVec.eq_of_getLsbD_eq fun i hi => ?_
    have hle := Params.load_le (c := c)
    rw [getLsbD_lane, BitVec.getLsbD_setWidth, BitVec.getLsbD_setWidth, Mem.getLsbD_load, field, Mem.getLsbD_load,
      Nat.add_assoc _ (c.k * j) i]
    simp [hi, show c.k * j + i < c.slotsToLoad * c.k by omega, show c.k * j + i < r.bits by omega,
      show c.k * j + i < c.partialBits by omega]
  constructor
  · rintro ⟨j, hj, h⟩
    exact ⟨j, hj, by rw [← hlane j hj, h]⟩
  · rintro ⟨j, hj, h⟩
    exact ⟨j, hj, by rw [hlane j hj, h]⟩

theorem field_add (m : Mem) (a i j : Nat) : field c x m (a + c.k * i) j = field c x m a (i + j) := by
  rw [field, field, Nat.mul_add]
  simp only [Nat.add_assoc]

theorem exists_lt_add {P : Nat → Prop} (i p : Nat) : (∃ j < i + p, P j) ↔ (∃ j < i, P j) ∨ ∃ j < p, P (i + j) := by
  constructor
  · rintro ⟨j, hj, h⟩
    by_cases hi : j < i
    · exact .inl ⟨j, hi, h⟩
    · exact .inr ⟨j - i, by omega, by rwa [Nat.add_sub_cancel' (Nat.le_of_not_lt hi)]⟩
  · rintro (⟨j, hj, h⟩ | ⟨j, hj, h⟩)
    · exact ⟨j, by omega, h⟩
    · exact ⟨i + j, by omega, h⟩

section
variable (hp : Params c) (hload : 1 ≤ c.slotsToLoad) (m : Mem) {fingerprint : r.T}
  (hf : fingerprint.toNat < 2 ^ c.k)
  {start slotCount : r.T} (hfit : start.toNat + c.k * slotCount.toNat ≤ 2 ^ r.bits)
include hp hload hf hfit

omit hload hf in
theorem toNat_start_add {i : Nat} (hi : i < slotCount.toNat) :
    (start + BitVec.ofNat r.bits (c.k * i)).toNat = start.toNat + c.k * i := by
  have h := Nat.mul_lt_mul_of_pos_left hi hp.k_pos
  rw [BitVec.toNat_add, BitVec.toNat_ofNat, Nat.add_mod_mod, Nat.mod_eq_of_lt (by omega)]

/-- The loop leaves a last piece of the bucket, and has found what stands before it. -/
theorem containsLoop_spec (hcount : slotCount.toNat ≤ c.associativity) (fuel i : Nat) (found : Bool)
    (hi : i < slotCount.toNat ∨ i = 0) (hfuel : slotCount.toNat ≤ i + fuel) :
    ∃ i' found', containsLoop c x fingerprint slotCount m fuel i (start + BitVec.ofNat r.bits (c.k * i)) found =
        (i', start + BitVec.ofNat r.bits (c.k * i'), found') ∧
      i ≤ i' ∧ (i' < slotCount.toNat ∨ i' = 0) ∧ slotCount.toNat ≤ i' + c.slotsToLoad ∧
      (found' = true ↔ found = true ∨ ∃ j < i' - i, field c x m (start.toNat + c.k * i) j =
        fingerprint.setWidth c.k) := by
  induction fuel generalizing i found with
  | zero => exact ⟨i, found, rfl, Nat.le_refl _, hi, by omega, by simp⟩
  | succ fuel ih =>
    rw [containsLoop]
    by_cases hgo : c.slotsToLoad < c.associativity ∧ i + c.slotsToLoad < slotCount.toNat
    · rw [if_pos hgo]
      have hstep : start + BitVec.ofNat r.bits (c.k * i) + BitVec.ofNat r.bits (c.slotsToLoad * c.k) =
          start + BitVec.ofNat r.bits (c.k * (i + c.slotsToLoad)) := by
        rw [BitVec.add_assoc, ← BitVec.ofNat_add, Nat.mul_add, Nat.mul_comm c.slotsToLoad]
      rw [hstep]
      obtain ⟨i', found', he, hle, hlt, hend, hfound⟩ := ih (i + c.slotsToLoad)
        (found || matching c x fingerprint (start + BitVec.ofNat r.bits (c.k * i)) m &&& bucketMask c != 0)
          (.inl hgo.2) (by omega)
      refine ⟨i', found', he, by omega, hlt, hend, ?_⟩
      have hpiece :=
        matching_ne_zero_iff (x := x) hp hload m hf (start + BitVec.ofNat r.bits (c.k * i)) (Nat.le_refl _)
        (bucketMask c) fun b _ => by
          rw [bucketMask, getLsbD_counterMask (le_partialBits (c := c)), Nat.mul_comm]
      rw [toNat_start_add hp hfit (show i < slotCount.toNat by omega)] at hpiece
      rw [hfound, Bool.or_eq_true, bne_iff_ne, hpiece, or_assoc, Nat.mul_add, ← Nat.add_assoc,
        show i' - i = c.slotsToLoad + (i' - (i + c.slotsToLoad)) by omega, exists_lt_add]
      simp only [field_add]
    · rw [if_neg hgo]
      exact ⟨i, found, rfl, Nat.le_refl _, hi, by omega, by simp⟩

end

/-! ## Buckets -/

def slotsBefore (c : Config r) (m : Mem) (b i : Nat) : Nat := ∑ l ∈ Finset.range i, counter c m b l

structure WellFormed (c : Config r) (m : Mem) (b : Nat) : Prop where
  counter_le : ∀ i < c.bucketsPerBlock, counter c m b i ≤ c.associativity
  sum_le : slotsBefore c m b c.bucketsPerBlock ≤ c.slotsPerBlock

def Stored (c : Config r) (m : Mem) (b i : Nat) (fingerprint : BitVec c.k) : Prop :=
  ∃ j < counter c m b i, slot c m b (slotsBefore c m b i + j) = fingerprint

theorem slotsBefore_succ (c : Config r) (m : Mem) (b n : Nat) :
    slotsBefore c m b (n + 1) = slotsBefore c m b n + counter c m b n := BucketArray.begins_succ _ n

theorem slotsBefore_mono (c : Config r) (m : Mem) (b : Nat) {n n' : Nat} (h : n ≤ n') :
    slotsBefore c m b n ≤ slotsBefore c m b n' := BucketArray.begins_mono _ h

theorem WellFormed.congr {m m' : Mem} {b : Nat} (hwf : WellFormed c m b)
    (h : ∀ i < c.bucketsPerBlock, counter c m' b i = counter c m b i) : WellFormed c m' b :=
  ⟨fun i hi => h i hi ▸ hwf.counter_le i hi, (BucketArray.begins_congr h).trans_le hwf.sum_le⟩

theorem slotsBefore_add_le {m : Mem} {b i : Nat} (hwf : WellFormed c m b) (hi : i < c.bucketsPerBlock) :
    slotsBefore c m b i + counter c m b i ≤ c.slotsPerBlock := by
  rw [← slotsBefore_succ]
  exact Nat.le_trans (slotsBefore_mono c m b hi) hwf.sum_le

theorem bucket_fits {m : Mem} {b i : Nat} (hp : Params c) (hwf : WellFormed c m b) (hi : i < c.bucketsPerBlock) :
    c.k * (slotsBefore c m b i + counter c m b i) ≤ 512 := by
  have h1 := Nat.mul_le_mul_left c.k (slotsBefore_add_le hwf hi)
  have h2 := hp.slots_fit
  omega

/-- The slots of `count` and `offset` are counted down from the end of the block. -/
theorem toNat_end_sub {block : r.T} (hr : Reaches block) {count offset : Nat} (h : c.k * (offset + count) ≤ 512) :
    (block + 512 - (BitVec.ofNat r.bits count + BitVec.ofNat r.bits offset) * BitVec.ofNat r.bits c.k).toNat =
      (block.toNat + 512 - c.k * (offset + count)) % 2 ^ r.bits := by
  have hblock := hr.fit
  have h512 : (512 : r.T).toNat = 512 := by cases r <;> rfl
  have hn : c.k * (offset + count) < 2 ^ r.bits := lt_two_pow_bits (by omega)
  rw [← BitVec.ofNat_add, ← BitVec.ofNat_mul, Nat.mul_comm, Nat.add_comm count]
  generalize c.k * (offset + count) = n at *
  rw [BitVec.toNat_sub, BitVec.toNat_add, BitVec.toNat_ofNat, h512, Nat.mod_eq_of_lt hn, Nat.add_mod_mod,
    show 2 ^ r.bits - n + (block.toNat + 512) = (block.toNat + 512 - n) + 2 ^ r.bits by omega, Nat.add_mod_right]

/-- The slots of a bucket, from the last one of its memory downwards. -/
theorem stored_iff {m : Mem} {block : r.T} {i : Nat} (hp : Params c) (hwf : WellFormed c m (base x block))
    (hi : i < c.bucketsPerBlock) (f : BitVec c.k) :
    Stored c m (base x block) i f ↔ ∃ j < counter c m (base x block) i,
      field c x m (block.toNat + 512 -
        c.k * (slotsBefore c m (base x block) i + counter c m (base x block) i)) j = f := by
  have hle := slotsBefore_add_le hwf hi
  have hfit := hp.slots_fit
  have hk := Nat.mul_le_mul_left c.k hle
  rw [Stored]
  generalize counter c m (base x block) i = n at *
  generalize slotsBefore c m (base x block) i = s at *
  have hfield : ∀ j < n, field c x m (block.toNat + 512 - c.k * (s + n)) j =
    slot c m (base x block) (s + (n - 1 - j)) := by
    intro j hj
    have h1 : c.k * (s + n) = c.k * (s + (n - 1 - j) + 1) + c.k * j := by
      rw [← Nat.mul_add]
      exact congrArg _ (by omega)
    rw [field, slot, base]
    exact congrArg (fun a => m.load a c.k) (by omega)
  constructor
  · rintro ⟨j, hj, h⟩
    exact ⟨n - 1 - j, by omega, by rw [hfield _ (by omega), show n - 1 - (n - 1 - j) = j by omega, h]⟩
  · rintro ⟨j, hj, h⟩
    exact ⟨n - 1 - j, by omega, by rw [← hfield j hj, h]⟩

section
variable {block : r.T} (hr : Reaches block) (hp : Params c) {m : Mem}
  (hwf : WellFormed c m (base x block)) {i : r.T}
  (hi : i.toNat < c.bucketsPerBlock)
include hr hp hwf hi

theorem toNat_getSlotCount : (getSlotCount c x i block m).toNat = counter c m (base x block) i.toNat := by
  have h1 := hwf.counter_le _ hi
  have h2 := hp.assoc_lt
  have h3 := Nat.pow_le_pow_right (show 0 < 2 by decide) hp.counterSize_le
  rw [getSlotCount_eq hr hp m hi, BitVec.toNat_ofNat, Nat.mod_eq_of_lt (by omega)]

theorem toNat_bucketBit (hctl : 1 ≤ c.counterToLoad) : (bucketBit c x i block m).toNat = (block.toNat + 512 - c.k *
    (slotsBefore c m (base x block) i.toNat + counter c m (base x block) i.toNat)) % 2 ^ r.bits := by
  have h512 : c.counterSize * i.toNat ≤ 512 := by
    have h1 := Params.counter_fits hi
    have h2 := hp.fits
    omega
  rw [bucketBit, getSlotCount_eq hr hp m hi, getSlotOffset, sumCounters_eq hr m hctl (Nat.le_of_lt hi) h512,
    toNat_end_sub hr]
  · rfl
  · exact bucket_fits hp hwf hi

/-- The empty bucket is searched like a full piece where the mask is not shifted out. -/
theorem bucketContains_iff (hload : 1 ≤ c.slotsToLoad) (hctl : 1 ≤ c.counterToLoad) {fingerprint : r.T}
    (hf : fingerprint.toNat < 2 ^ c.k) :
    bucketContains c x fingerprint i block m = true ↔
      Stored c m (base x block) i.toNat (fingerprint.setWidth c.k) ∨
      counter c m (base x block) i.toNat = 0 ∧ WideShift c ∧
        ∃ j < c.slotsToLoad, field c x m (bucketBit c x i block m).toNat j = fingerprint.setWidth c.k := by
  have hcount := toNat_getSlotCount hr hp hwf hi
  have hle := slotsBefore_add_le hwf hi
  have hk := Nat.mul_le_mul_left c.k hle
  have hslots := hp.slots_fit
  have hblock := hr.fit
  have hbit := toNat_bucketBit hr hp hwf hi hctl
  have hassoc := hwf.counter_le _ hi
  rw [stored_iff hp hwf hi]
  generalize hn : counter c m (base x block) i.toNat = n at *
  generalize slotsBefore c m (base x block) i.toNat = b at *
  rw [Nat.mul_add] at hbit hk
  have hfit : (bucketBit c x i block m).toNat + c.k * (getSlotCount c x i block m).toNat ≤ 2 ^ r.bits := by
    rw [hcount]
    rcases Nat.eq_zero_or_pos n with rfl | hpos
    · have := (bucketBit c x i block m).isLt
      omega
    · have := Nat.mul_le_mul hp.k_pos hpos
      rw [hbit, Nat.mod_eq_of_lt (by omega)]
      omega
  obtain ⟨i', found, he, -, hlt, hend, hfound⟩ :=
    containsLoop_spec hp hload m hf hfit (by rw [hcount]; exact hassoc)
    (getSlotCount c x i block m).toNat 0 false (x := x) (.inr rfl) (Nat.le_add_left _ _)
  rw [Nat.mul_zero, BitVec.add_zero] at he
  rw [Nat.mul_zero, Nat.add_zero, Nat.sub_zero] at hfound
  rw [hcount] at hlt hend he
  rw [bucketContains]
  simp only [hcount, he]
  have hs : c.slotsToLoad + i' - n ≤ c.slotsToLoad := by omega
  have hlast := matching_ne_zero_iff (x := x) hp hload m hf
    (bucketBit c x i block m + BitVec.ofNat r.bits (c.k * i'))
    (show (if c.slotsToLoad + i' - n = c.slotsToLoad ∧ WideShift c then c.slotsToLoad
      else c.slotsToLoad - (c.slotsToLoad + i' - n)) ≤ c.slotsToLoad by split <;> omega)
    (partialBucketMask c (c.slotsToLoad + i' - n)) fun b hb => getLsbD_partialBucketMask hp hload hs hb
  rw [Bool.or_eq_true, hfound, bne_iff_ne, hlast]
  rcases Nat.eq_zero_or_pos n with rfl | hpos
  · obtain rfl : i' = 0 := by omega
    by_cases hw : WideShift c <;> simp [hw]
  · have hi' : i' < n := by omega
    have := Nat.mul_le_mul hp.k_pos hpos
    rw [Nat.mod_eq_of_lt (by omega)] at hbit
    have hne : ¬ (c.slotsToLoad + i' - n = c.slotsToLoad ∧ WideShift c) := fun h => by omega
    have hsub : c.slotsToLoad - (c.slotsToLoad + i' - n) = n - i' := by
      clear hlast
      omega
    rw [toNat_start_add hp hfit (by rw [hcount]; exact hi'), if_neg hne, hsub, Nat.mul_add, ← hbit]
    simp only [field_add, Bool.false_eq_true, false_or, show n ≠ 0 by omega, false_and, or_false]
    rw [← exists_lt_add, Nat.add_sub_cancel' (Nat.le_of_lt hi')]

end

end PartitionedFilters.Cuckoo.Morton

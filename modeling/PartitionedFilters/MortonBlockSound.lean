import PartitionedFilters.MortonCounterSound
import PartitionedFilters.CuckooSound

/-!
# The fields of a block

Where the addresses of a block do not wrap, its accessors read and write fields
of the memory: the counter of a bucket, an overflow-tracking bit and a slot. The
functions that move slots move one range of bits, whatever their loops load.
-/

namespace PartitionedFilters.Cuckoo.Morton

variable {r : RegisterSize} {c : Config r} {x : CuckooContainer r}

/-- The configurations that lay out blocks of 512 bits, whose slots, counters and slot numbers fit a register. -/
structure Params (c : Config r) : Prop where
  k_pos : 0 < c.k
  k_le : c.k ≤ r.bits
  assoc_pos : 0 < c.associativity
  assoc_fits : 2 * c.associativity < 2 ^ r.bits
  counterSize_le : c.counterSize ≤ r.bits
  buckets_pos : 0 < c.bucketsPerBlock
  fits : c.otaOffset + c.otaSize ≤ 512

section
variable (ha : 0 < c.associativity)
include ha

theorem counterSize_eq (hlt : c.associativity < 2 ^ 63) : c.counterSize = Nat.log2 c.associativity + 1 := by
  have hlog : Nat.log2 c.associativity < 63 := (Nat.log2_lt (Nat.ne_of_gt ha)).mpr hlt
  simp only [Config.counterSize, getNumberOfBits, clz, Nat.add_sub_cancel]
  rw [if_neg (by omega)]
  split
  · rename_i h
    omega
  · omega

theorem counterSize_le {b : Nat} (hb : b ≤ 63) (h : c.associativity < 2 ^ b) : c.counterSize ≤ b := by
  rw [counterSize_eq ha (Nat.lt_of_lt_of_le h (Nat.pow_le_pow_right (by decide) hb))]
  exact (Nat.log2_lt (Nat.ne_of_gt ha)).mpr h

end

theorem counterSize_pos (c : Config r) : 0 < c.counterSize := getNumberOfBits_pos (by decide) (Nat.succ_pos _)

theorem counterToLoad_pos (hb : 0 < c.bucketsPerBlock) (h0 : 0 < c.counterSize) (h : c.counterSize + 8 ≤ r.bits) :
    1 ≤ c.counterToLoad := by
  unfold Config.counterToLoad
  split
  · exact Nat.le_min.mpr ⟨hb, (Nat.one_le_div_iff h0).mpr (by omega)⟩
  · exact Nat.le_min.mpr ⟨hb, (Nat.one_le_div_iff h0).mpr (by omega)⟩

namespace Params
variable (hp : Params c)
include hp

theorem slotsPerBlock_eq : c.slotsPerBlock = (512 - c.otaOffset - c.otaSize) / c.k := by
  have := hp.fits
  rw [Config.slotsPerBlock, show 2 ^ 64 + 512 - c.otaOffset - c.otaSize =
    (512 - c.otaOffset - c.otaSize) + 2 ^ 64 by omega, Nat.add_mod_right, Nat.mod_eq_of_lt (by omega)]

/-- Counters, overflow-tracking bits and slots do not overlap. -/
theorem slots_fit : c.otaOffset + c.otaSize + c.k * c.slotsPerBlock ≤ 512 := by
  have := hp.fits
  have h := Nat.mul_div_le (512 - c.otaOffset - c.otaSize) c.k
  rw [hp.slotsPerBlock_eq]
  omega

theorem slots_le : c.slotsPerBlock ≤ 512 := by
  have h := hp.slots_fit
  have := Nat.le_mul_of_pos_left c.slotsPerBlock hp.k_pos
  omega

theorem counterSize_eq : c.counterSize = Nat.log2 c.associativity + 1 := by
  have hbits := Nat.pow_le_pow_right (show 0 < 2 by decide) r.bits_le
  have hsize := hp.assoc_fits
  exact Morton.counterSize_eq hp.assoc_pos (by omega)

theorem assoc_lt : c.associativity < 2 ^ c.counterSize := by
  rw [hp.counterSize_eq]
  exact Nat.lt_log2_self

theorem counterSize_le_block : c.counterSize ≤ 512 := by
  have h1 := hp.fits
  have h2 := Nat.le_mul_of_pos_left c.counterSize hp.buckets_pos
  rw [Config.otaOffset] at h1
  omega

omit hp in
theorem counter_fits {i : Nat} (hi : i < c.bucketsPerBlock) : c.counterSize * i + c.counterSize ≤ c.otaOffset := by
  rw [Config.otaOffset, Nat.mul_comm c.bucketsPerBlock, ← Nat.mul_succ]
  exact Nat.mul_le_mul_left _ hi

theorem slot_fits {j : Nat} (hj : j < c.slotsPerBlock) : c.otaOffset + c.otaSize + c.k * (j + 1) ≤ 512 := by
  have h := hp.slots_fit
  have := Nat.mul_le_mul_left c.k (Nat.succ_le_of_lt hj)
  rw [Nat.succ_eq_add_one] at this
  omega

theorem buckets_le : c.bucketsPerBlock ≤ 512 := by
  have := hp.fits
  have := Nat.le_mul_of_pos_right c.bucketsPerBlock (counterSize_pos c)
  rw [Config.otaOffset] at *
  omega

omit hp in
theorem load_le : c.slotsToLoad * c.k ≤ r.bits := by
  rw [Config.slotsToLoad]
  split
  · exact Nat.le_trans (Nat.mul_le_mul_right _ (Nat.min_le_right ..)) (Nat.div_mul_le_self ..)
  · exact Nat.le_trans (Nat.mul_le_mul_right _ (Nat.min_le_right ..))
      (Nat.le_trans (Nat.div_mul_le_self ..) (Nat.sub_le ..))

end Params

theorem bits_ge (r : RegisterSize) : 32 ≤ r.bits := by cases r <;> decide

theorem lt_two_pow_bits {n : Nat} (hn : n ≤ 1024) : n < 2 ^ r.bits :=
  Nat.lt_of_lt_of_le (show n < 2 ^ 32 by omega) (Nat.pow_le_pow_right (by decide) (bits_ge r))

/-! ## Division -/

theorem toNat_div {d : Nat} (hd : d ≤ 1024) (a : r.T) : (div d a).toNat = a.toNat / d := by
  rw [div]
  split
  · rename_i h
    obtain ⟨j, rfl⟩ := isPowerOfTwo_iff.mp h
    rw [BitVec.toNat_ushiftRight, Nat.log2_two_pow, Nat.shiftRight_eq_div_pow]
  · rw [BitVec.toNat_udiv, BitVec.toNat_ofNat, Nat.mod_eq_of_lt (lt_two_pow_bits hd)]

theorem toNat_mod {d : Nat} (hd : d ≤ 1024) (a : r.T) : (mod d a).toNat = a.toNat % d := by
  rw [mod]
  split
  · rename_i h
    obtain ⟨j, rfl⟩ := isPowerOfTwo_iff.mp h
    rw [BitVec.toNat_and, BitVec.toNat_ofNat, Nat.mod_eq_of_lt (lt_two_pow_bits (by omega)),
      Nat.and_two_pow_sub_one_eq_mod]
  · rw [BitVec.toNat_umod, BitVec.toNat_ofNat, Nat.mod_eq_of_lt (lt_two_pow_bits hd)]

/-! ## Fields -/

def base (x : CuckooContainer r) (block : r.T) : Nat := 8 * x.filter + block.toNat

/-- The block is aligned and its addresses do not wrap. -/
structure Reaches (block : r.T) : Prop where
  aligned : 512 ∣ block.toNat
  fit : block.toNat + 512 ≤ 2 ^ r.bits

theorem reaches_of_dvd {block : r.T} (h : 512 ∣ block.toNat) : Reaches block where
  aligned := h
  fit := by
    have hlt := block.isLt
    have hdvd : 512 ∣ 2 ^ r.bits := by cases r <;> decide
    omega

/-- Byte-addressed slots are counted down from the end of the block. -/
structure ReachesEnd (c : Config r) (block : r.T) : Prop extends Reaches block where
  strict : c.optimalFingerprintSize = true → block.toNat + 512 < 2 ^ r.bits

def counter (c : Config r) (m : Mem) (b i : Nat) : Nat := (m.load (b + c.counterSize * i) c.counterSize).toNat

def ota (c : Config r) (m : Mem) (b t : Nat) : Bool := m.bit (b + c.otaOffset + t)

def slot (c : Config r) (m : Mem) (b j : Nat) : BitVec c.k := m.load (b + 512 - c.k * (j + 1)) c.k

section
variable {block : r.T} (hr : Reaches block)
include hr

theorem Reaches.toNat_add {v : Nat} (hv : v < 512) : (block + BitVec.ofNat r.bits v).toNat = block.toNat + v := by
  have h := hr.fit
  rw [BitVec.toNat_add, BitVec.toNat_ofNat, Nat.add_mod_mod, Nat.mod_eq_of_lt (by omega)]

variable (hp : Params c) (m : Mem)
include hp

/-! ### Counters -/

theorem counterBit_eq {i : r.T} (hi : i.toNat < c.bucketsPerBlock) :
    (block + i * BitVec.ofNat r.bits c.counterSize).toNat = block.toNat + c.counterSize * i.toNat := by
  have h1 := Params.counter_fits hi
  have h2 := hp.fits
  have h3 := counterSize_pos c
  have hmul : i * BitVec.ofNat r.bits c.counterSize = BitVec.ofNat r.bits (c.counterSize * i.toNat) := by
    rw [BitVec.ofNat_mul, BitVec.ofNat_toNat, BitVec.setWidth_eq, BitVec.mul_comm]
  rw [hmul, hr.toNat_add (by omega)]

theorem dvd_counterBit (hpow : isPowerOfTwo c.counterSize = true) (i : Nat) :
    c.counterSize ∣ block.toNat + c.counterSize * i := by
  obtain ⟨j, hj⟩ := isPowerOfTwo_iff.mp hpow
  have h512 : c.counterSize ∣ 512 := by
    have hle : 2 ^ j ≤ 2 ^ 9 := hj ▸ hp.counterSize_le_block
    rw [hj]
    exact Nat.pow_dvd_pow 2 ((Nat.pow_le_pow_iff_right (by decide)).mp hle)
  exact Nat.dvd_add (Nat.dvd_trans h512 hr.aligned) (Nat.dvd_mul_right ..)

theorem getSlotCount_eq {i : r.T} (hi : i.toNat < c.bucketsPerBlock) :
    getSlotCount c x i block m = BitVec.ofNat r.bits (counter c m (base x block) i.toNat) := by
  rw [getSlotCount, counterBit_eq hr hp hi,
    gatheruBits_eq hp.counterSize_le _ _ _ _ fun _ h => dvd_counterBit hr hp h _, ← Nat.add_assoc, counter, base]
  exact BitVec.eq_of_toNat_eq (by rw [BitVec.toNat_setWidth, BitVec.toNat_ofNat])

theorem setSlotCount_eq {i : r.T} (hi : i.toNat < c.bucketsPerBlock) (v : r.T) :
    setSlotCount c x i block v m = m.store (base x block + c.counterSize * i.toNat) (v.setWidth c.counterSize) := by
  rw [setSlotCount, counterBit_eq hr hp hi,
    scatteruBits_eq hp.counterSize_le _ _ _ _ _ fun _ h => dvd_counterBit hr hp h _, ← Nat.add_assoc, base]

omit hr hp in
theorem getLsbD_counterMask {w b : Nat} (hb : b ≤ w) (i : Nat) : (counterMask w b).getLsbD i = decide (i < b) := by
  rw [counterMask]
  split
  · rename_i h
    rw [h, BitVec.getLsbD_allOnes]
  · rename_i hne
    have hlt : 2 ^ b < 2 ^ w := Nat.pow_lt_pow_right (by decide) (by omega)
    have hone : (1 : BitVec w).toNat = 1 := BitVec.toNat_one (by omega)
    have hs : ((1 : BitVec w) <<< b).toNat = 2 ^ b := by
      rw [BitVec.toNat_shiftLeft, hone, Nat.shiftLeft_eq, Nat.one_mul, Nat.mod_eq_of_lt hlt]
    rw [← BitVec.testBit_toNat, BitVec.toNat_sub_of_le (by rw [BitVec.le_def, hs, hone]; exact Nat.one_le_two_pow),
      hs, hone, Nat.testBit_two_pow_sub_one]

section
omit hp

theorem sumPieces_load {n width : Nat} (hn : n ≤ c.bucketsPerBlock) (hw : c.otaOffset ≤ width) {mask : BitVec width}
    (hmask : ∀ g, mask.getLsbD g = decide (g < c.counterSize * n)) :
    sumPieces c (m.load (8 * (x.filter + block.toNat / 8)) width &&& mask) =
      BitVec.ofNat r.bits (∑ i ∈ Finset.range n, counter c m (base x block) i) := by
  have hle : c.counterSize * n ≤ width := by
    refine Nat.le_trans ?_ hw
    rw [Config.otaOffset, Nat.mul_comm c.bucketsPerBlock]
    exact Nat.mul_le_mul_left _ hn
  have hbase : 8 * (x.filter + block.toNat / 8) = base x block := by
    rw [base, Nat.mul_add, Nat.mul_div_cancel' (Nat.dvd_trans (by decide) hr.aligned)]
  have hbits : ∀ g, (m.load (base x block) width &&& mask).getLsbD g =
      (decide (g < c.counterSize * n) && m.bit (base x block + g)) := by
    intro g
    rw [BitVec.getLsbD_and, hmask, Mem.getLsbD_load]
    by_cases hg : g < c.counterSize * n
    · simp [hg, Nat.lt_of_lt_of_le hg hle]
    · simp [hg]
  have hweight := weight_mul (s := c.counterSize) m (base x block) n
  rw [hbase, sumPieces_eq (counterSize_pos c), weight_of_le hle fun g hg => by rw [hbits]; simp [Nat.not_lt.mpr hg]]
  rw [weight_congr (f := fun g => m.bit (base x block + g)) fun g hg => by rw [hbits]; simp [hg], hweight]
  rfl

omit hr in
theorem counterToLoad_le : c.counterSize * c.counterToLoad ≤ r.bits := by
  rw [Config.counterToLoad]
  split
  · exact Nat.le_trans (Nat.mul_le_mul_left _ (Nat.min_le_right ..)) (Nat.mul_div_le ..)
  · refine Nat.le_trans (Nat.mul_le_mul_left _ (Nat.min_le_right ..)) ?_
    exact Nat.le_trans (Nat.mul_div_le ..) (Nat.sub_le ..)

/-- A load of `len` bits is aligned where pieces of this length follow each other. -/
theorem dvd_piece {len : Nat} (hlen : len ≤ r.bits) (p : Nat) (hpow : isPowerOfTwo len = true) :
    len ∣ block.toNat + len * p := by
  obtain ⟨j, hj⟩ := isPowerOfTwo_iff.mp hpow
  have h512 : len ∣ 512 := by
    have hle : 2 ^ j ≤ 2 ^ 9 := by
      have := r.bits_le
      omega
    rw [hj]
    exact Nat.pow_dvd_pow 2 ((Nat.pow_le_pow_iff_right (by decide)).mp hle)
  exact Nat.dvd_add (Nat.dvd_trans h512 hr.aligned) (Nat.dvd_mul_right ..)

/-- The counters in the first `n` bits of piece `p`; behind the block nothing is counted. -/
theorem sumBitsInRegisters_piece (avx : Bool) {len p n : Nat} (hlen : len ≤ r.bits) (hin : len * p < 512 ∨ n = 0)
    {mask : r.T} (hmask : ∀ g < r.bits, mask.getLsbD g = decide (g < n)) :
    sumBitsInRegisters c.counterSize 0
        (gatheruBits avx true len (block + BitVec.ofNat r.bits (len * p)).toNat x.filter m &&& mask) =
      BitVec.ofNat r.bits (weight c.counterSize (fun g => m.bit (base x block + len * p + g)) (min len n)) := by
  have hbits : ∀ g < r.bits,
      (gatheruBits avx true len (block + BitVec.ofNat r.bits (len * p)).toNat x.filter m &&& mask).getLsbD g =
        (decide (g < min len n) && m.bit (base x block + len * p + g)) := by
    intro g hg
    rw [BitVec.getLsbD_and, hmask g hg, decide_eq_decide.mpr Nat.lt_min, Bool.decide_and]
    cases hin with
    | inl hp =>
      rw [hr.toNat_add hp, gatheruBits_eq hlen _ _ _ _ fun _ h => dvd_piece hr hlen p h, BitVec.getLsbD_setWidth,
        Mem.getLsbD_load, base, ← Nat.add_assoc (8 * x.filter)]
      by_cases h1 : g < len <;> by_cases h2 : g < n <;> simp [h1, h2, hg]
    | inr hn => simp [hn]
  rw [sumBitsInRegisters_zero (counterSize_pos c), weight_congr hbits,
    weight_of_le (n := min len n) (by omega) fun g hg => by
    simp [Nat.not_lt.mpr hg]]
  exact congrArg _ (weight_congr fun g hg => by simp [hg])

theorem sumBitsInRegisters_full (avx : Bool) {len p : Nat} (hlen : len ≤ r.bits) (hin : len * p < 512) :
    sumBitsInRegisters c.counterSize 0
        (gatheruBits avx true len (block + BitVec.ofNat r.bits (len * p)).toNat x.filter m) =
      BitVec.ofNat r.bits (weight c.counterSize (fun g => m.bit (base x block + len * p + g)) len) := by
  have h := sumBitsInRegisters_piece (c := c) (x := x) hr m avx hlen (.inl hin) 
    fun g hg => (BitVec.getLsbD_allOnes (v := r.bits)).trans rfl
  rwa [BitVec.and_allOnes, Nat.min_eq_left hlen] at h

omit hr in
theorem getLsbD_lastMask {n : Nat} (hn : n < c.counterToLoad) {g : Nat} (hg : g < r.bits) :
    ((1#64 <<< (c.counterSize * n) - 1#64).setWidth r.bits).getLsbD g = decide (g < c.counterSize * n) := by
  have hL := counterToLoad_le (c := c)
  have hlt := Nat.mul_lt_mul_of_pos_left hn (counterSize_pos c)
  have hbits := r.bits_le
  rw [BitVec.getLsbD_setWidth, ← BitVec.testBit_toNat, toNat_lowMask (by omega), Nat.testBit_two_pow_sub_one]
  simp [hg]

theorem sumCounters_eq (hctl : 1 ≤ c.counterToLoad) {n : Nat} (hn : n ≤ c.bucketsPerBlock)
    (h512 : c.counterSize * n ≤ 512) :
    sumCounters c x n block m = BitVec.ofNat r.bits (∑ i ∈ Finset.range n, counter c m (base x block) i) := by
  have hpieces : ∀ width, c.otaOffset ≤ width →
      sumPieces c (m.load (8 * (x.filter + block.toNat / 8)) width &&& counterMask width (c.counterSize * n)) =
        BitVec.ofNat r.bits (∑ i ∈ Finset.range n, counter c m (base x block) i) := by
    intro width hw
    have hmul := Nat.mul_le_mul_left c.counterSize hn
    rw [Config.otaOffset, Nat.mul_comm] at hw
    exact sumPieces_load hr m hn (by rwa [Config.otaOffset, Nat.mul_comm])
      (getLsbD_counterMask (Nat.le_trans hmul hw))
  rw [sumCounters]
  simp only
  split
  · exact hpieces 32 ‹_›
  split
  · exact hpieces 64 ‹_›
  split
  · exact hpieces 128 ‹_›
  · -- as many counters at a time as a register holds
    have hL := counterToLoad_le (c := c)
    have hdvd : c.counterSize ∣ c.counterSize * c.counterToLoad := Nat.dvd_mul_right ..
    have hlt := Nat.mod_lt n hctl
    have hsplit : c.counterSize * c.counterToLoad * (n / c.counterToLoad) + c.counterSize * (n % c.counterToLoad) =
        c.counterSize * n := by rw [Nat.mul_assoc, ← Nat.mul_add, Nat.div_add_mod]
    have hmono := Nat.mul_lt_mul_of_pos_left hlt (counterSize_pos c)
    have hfull : ∀ p < n / c.counterToLoad, sumBitsInRegisters c.counterSize 0
        (gatheruBits false true (c.counterSize * c.counterToLoad)
          (block + BitVec.ofNat r.bits (c.counterSize * c.counterToLoad * p)).toNat x.filter m) =
        BitVec.ofNat r.bits (weight c.counterSize
          (fun g => m.bit (base x block + (c.counterSize * c.counterToLoad * p + g)))
            (c.counterSize * c.counterToLoad)) := by
      intro p hp
      have hmul := Nat.mul_le_mul_left (c.counterSize * c.counterToLoad) (Nat.succ_le_of_lt hp)
      rw [Nat.mul_succ] at hmul
      simp only [← Nat.add_assoc]
      exact sumBitsInRegisters_full hr m false hL (by omega)
    have hlast := sumBitsInRegisters_piece (c := c) (x := x) hr m false hL (p := n / c.counterToLoad)
      (n := c.counterSize * (n % c.counterToLoad)) (by omega) fun _ hg => getLsbD_lastMask hlt hg
    have hweight := weight_mul (s := c.counterSize) m (base x block) n
    rw [← hsplit, weight_add _ (Nat.dvd_mul_right_of_dvd hdvd _)] at hweight
    rw [foldl_add_ofNat hfull, hlast, weight_pieces hdvd fun g => m.bit (base x block + g), ← BitVec.ofNat_add,
      Nat.min_eq_right (Nat.le_of_lt hmono)]
    simp only [Nat.add_assoc]
    exact congrArg _ hweight

end

/-! ### Overflow-tracking bits -/

theorem otaBit_eq (hota : 0 < c.otaSize) (i : r.T) :
    (otaBit c i block).toNat = block.toNat + c.otaOffset + i.toNat % c.otaSize := by
  have h1 := hp.fits
  have h2 := Nat.mod_lt i.toNat hota
  have hmod : mod c.otaSize i = BitVec.ofNat r.bits (i.toNat % c.otaSize) := by
    rw [← toNat_mod (by omega), BitVec.ofNat_toNat, BitVec.setWidth_eq]
  rw [otaBit, BitVec.add_assoc, hmod, ← BitVec.ofNat_add, hr.toNat_add (by omega), Nat.add_assoc]

theorem getOta_eq (i : r.T) :
    getOta c x i block m = if 0 < c.otaSize then ota c m (base x block) (i.toNat % c.otaSize) else true := by
  have hone : (1 : r.T).toNat = 1 := BitVec.toNat_one r.bits_pos
  rw [getOta]
  split
  · rename_i hota
    rw [otaBit_eq hr hp hota, gatheruBits_eq (by have := bits_ge r; omega) _ _ _ _ fun _ _ => Nat.one_dvd _, ota,
      base, ← Nat.add_assoc, ← Nat.add_assoc]
    generalize 8 * x.filter + block.toNat + c.otaOffset + i.toNat % c.otaSize = q
    have hbit : (m.load q 1).toNat = (m.bit q).toNat := by
      rw [toNat_load]
      simp only [Finset.sum_range_one, Nat.add_zero, Nat.pow_zero]
      cases m.bit q <;> rfl
    rw [Bool.eq_iff_iff, beq_iff_eq, ← BitVec.toNat_inj, BitVec.toNat_setWidth, hbit, hone]
    have hlt := lt_two_pow_bits (r := r) (n := 1) (by decide)
    cases m.bit q
    · simp
    · simp only [Bool.toNat_true, iff_true]
      exact Nat.mod_eq_of_lt hlt
  · rfl

theorem setOta_eq (i : r.T) :
    setOta c x i block m =
      if 0 < c.otaSize then m.store (base x block + c.otaOffset + i.toNat % c.otaSize) (1#1) else m := by
  rw [setOta]
  split
  · rename_i hota
    rw [otaBit_eq hr hp hota, scatteruBits_eq (by have := bits_ge r; omega) _ _ _ _ _ fun _ _ => Nat.one_dvd _,
      base, ← Nat.add_assoc, ← Nat.add_assoc]
    refine congrArg _ (BitVec.eq_of_toNat_eq ?_)
    rw [BitVec.toNat_setWidth, show (1 : r.T).toNat = 1 from BitVec.toNat_one r.bits_pos]
    rfl
  · rfl

end

/-! ### Slots -/

section
variable {block : r.T} (hr : ReachesEnd c block)
include hr

theorem blockEnd_eq (hc : c.optimalFingerprintSize = true) : blockEnd x block = base x block + 512 := by
  have h := hr.strict hc
  have h512 : (512 : r.T).toNat = 512 := by cases r <;> rfl
  rw [blockEnd, BitVec.toNat_add, h512, Nat.mod_eq_of_lt h, Nat.mul_add, Nat.mul_div_cancel', base, Nat.add_assoc]
  exact Nat.dvd_add (Nat.dvd_trans (by decide) hr.aligned) (by decide)

variable (hp : Params c) (m : Mem)
include hp

theorem slotBit_eq {j : Nat} (hj : j < c.slotsPerBlock) :
    8 * x.filter + (slotBit c j block).toNat = base x block + 512 - c.k * (j + 1) := by
  have h1 := hp.slot_fits hj
  have h2 : 0 < c.k * (j + 1) := Nat.mul_pos hp.k_pos (Nat.succ_pos j)
  rw [slotBit, Nat.mul_comm (j + 1), hr.toReaches.toNat_add (by omega), base]
  omega

theorem readFingerprint_eq {j : Nat} (hj : j < c.slotsPerBlock) :
    readFingerprint c x j block m = (slot c m (base x block) j).setWidth r.bits := by
  rw [readFingerprint]
  split
  · rename_i hc
    rw [blockEnd_eq hr hc, Nat.mul_comm, slot]
  · rw [gatheruBits_eq hp.k_le _ _ _ _ (fun h => absurd h (by decide)), slotBit_eq hr hp hj, slot]

theorem setFingerprint_eq {j : Nat} (hj : j < c.slotsPerBlock) (f : r.T) :
    setFingerprint c x j block f m = m.store (base x block + 512 - c.k * (j + 1)) (f.setWidth c.k) := by
  rw [setFingerprint]
  split
  · rename_i hc
    rw [blockEnd_eq hr hc, Nat.mul_comm]
  · rw [scatteruBits_eq hp.k_le _ _ _ _ _ (fun h => absurd h (by decide)), slotBit_eq hr hp hj]

/-! ### Moving slots -/

omit hr hp in
theorem store_load_down {p k a b : Nat} (hk : k ≤ p) :
    (m.store (p - k) (m.load p a)).store (p + a - k) ((m.store (p - k) (m.load p a)).load (p + a) b) =
      m.store (p - k) (m.load p (a + b)) := by
  have hload : (m.store (p - k) (m.load p a)).load (p + a) b = m.load (p + a) b :=
    Mem.load_store_of_disjoint m _ (.inl (by omega))
  rw [hload]
  refine Mem.ext (funext fun q => ?_)
  by_cases h2 : p + a - k ≤ q ∧ q < p + a - k + b
  · rw [Mem.store_of_mem _ _ h2.1 h2.2, Mem.store_of_mem _ _ (by omega) (by omega), Mem.getLsbD_load,
      Mem.getLsbD_load, show p + a + (q - (p + a - k)) = p + (q - (p - k)) by omega]
    simp [show q - (p + a - k) < b by omega, show q - (p - k) < a + b by omega]
  · rw [Mem.store_of_notMem _ _ (by omega)]
    by_cases h1 : p - k ≤ q ∧ q < p - k + a
    · rw [Mem.store_of_mem _ _ h1.1 h1.2, Mem.store_of_mem _ _ (by omega) (by omega), Mem.getLsbD_load,
        Mem.getLsbD_load]
      simp [show q - (p - k) < a by omega, show q - (p - k) < a + b by omega]
    · rw [Mem.store_of_notMem _ _ (by omega), Mem.store_of_notMem _ _ (by omega)]

omit hr hp in
theorem store_load_up {p k a b : Nat} (hk : a + b + k ≤ p) :
    (m.store (p - a) (m.load (p - a - k) a)).store (p - a - b)
        ((m.store (p - a) (m.load (p - a - k) a)).load (p - a - b - k) b) =
      m.store (p - (a + b)) (m.load (p - (a + b) - k) (a + b)) := by
  have hload : (m.store (p - a) (m.load (p - a - k) a)).load (p - a - b - k) b = m.load (p - a - b - k) b :=
    Mem.load_store_of_disjoint m _ (.inr (by omega))
  rw [hload]
  refine Mem.ext (funext fun q => ?_)
  by_cases h2 : p - a - b ≤ q ∧ q < p - a - b + b
  · rw [Mem.store_of_mem _ _ h2.1 h2.2, Mem.store_of_mem _ _ (by omega) (by omega), Mem.getLsbD_load,
      Mem.getLsbD_load, show p - (a + b) - k + (q - (p - (a + b))) = p - a - b - k + (q - (p - a - b)) by omega]
    simp [show q - (p - a - b) < b by omega, show q - (p - (a + b)) < a + b by omega]
  · rw [Mem.store_of_notMem _ _ (by omega)]
    by_cases h1 : p - a ≤ q ∧ q < p - a + a
    · rw [Mem.store_of_mem _ _ h1.1 h1.2, Mem.store_of_mem _ _ (by omega) (by omega), Mem.getLsbD_load,
        Mem.getLsbD_load, show p - (a + b) - k + (q - (p - (a + b))) = p - a - k + (q - (p - a)) by omega]
      simp [show q - (p - a) < a by omega, show q - (p - (a + b)) < a + b by omega]
    · rw [Mem.store_of_notMem _ _ (by omega), Mem.store_of_notMem _ _ (by omega)]

omit hr hp in
theorem moveBits_eq {n : Nat} (hn : n ≤ r.bits) (source target : r.T) :
    moveBits x n source target m =
      m.store (8 * x.filter + target.toNat) (m.load (8 * x.filter + source.toNat) n) := by
  rw [moveBits, gatheruBits_eq hn _ _ _ _ (fun h => absurd h (by decide)),
    scatteruBits_eq hn _ _ _ _ _ (fun h => absurd h (by decide)), BitVec.setWidth_setWidth_of_le _ hn,
    BitVec.setWidth_eq]

omit hr hp in
/-- The loop that moves `n` bits at a time towards lower addresses. -/
theorem foldl_moveBits_down {n k p : Nat} (hn : n ≤ r.bits) (hk : k ≤ p) {source target : Nat → r.T} {T : Nat}
    (hs : ∀ t < T, 8 * x.filter + (source t).toNat = p + n * t)
    (ht : ∀ t < T, 8 * x.filter + (target t).toNat = p + n * t - k) :
    (List.range T).foldl (fun m t => moveBits x n (source t) (target t) m) m = m.store (p - k)
    (m.load p (n * T)) := by
  induction T with
  | zero => exact Mem.ext (funext fun q => (Mem.store_of_notMem m _ (by omega)).symm)
  | succ T ih =>
    rw [List.range_succ, List.foldl_append, ih (fun t h => hs t (by omega)) fun t h => ht t (by omega),
      List.foldl_cons, List.foldl_nil, moveBits_eq _ hn, hs T (Nat.lt_succ_self T), ht T (Nat.lt_succ_self T),
      store_load_down m hk, Nat.mul_succ]

omit hr hp in
theorem foldl_moveBits_up {n k p : Nat} (hn : n ≤ r.bits) {source target : Nat → r.T} {T : Nat} (hk : n * T + k ≤ p)
    (hs : ∀ t < T, 8 * x.filter + (source t).toNat = p - n * (t + 1) - k)
    (ht : ∀ t < T, 8 * x.filter + (target t).toNat = p - n * (t + 1)) :
    (List.range T).foldl (fun m t => moveBits x n (source t) (target t) m) m =
      m.store (p - n * T) (m.load (p - n * T - k) (n * T)) := by
  induction T with
  | zero => exact Mem.ext (funext fun q => (Mem.store_of_notMem m _ (by omega)).symm)
  | succ T ih =>
    rw [Nat.mul_succ] at hk
    rw [List.range_succ, List.foldl_append, ih (by omega) (fun t h => hs t (by omega)) fun t h => ht t (by omega),
      List.foldl_cons, List.foldl_nil, moveBits_eq _ hn, hs T (Nat.lt_succ_self T), ht T (Nat.lt_succ_self T),
      Nat.mul_succ, Nat.sub_add_eq, store_load_up m (by omega), Nat.sub_add_eq]

omit hr hp in
theorem add_sub_ofNat {w : Nat} (y : BitVec w) {a b : Nat} (h : b ≤ a) :
    y + BitVec.ofNat w a - BitVec.ofNat w b = y + BitVec.ofNat w (a - b) := by
  obtain ⟨d, rfl⟩ := Nat.exists_eq_add_of_le h
  rw [Nat.add_sub_cancel_left, Nat.add_comm, BitVec.ofNat_add, ← BitVec.add_assoc, BitVec.add_sub_cancel]

omit hr hp in
theorem add_ofNat_ofNat {w : Nat} (y : BitVec w) (a b : Nat) :
    y + BitVec.ofNat w a + BitVec.ofNat w b = y + BitVec.ofNat w (a + b) := by
  rw [BitVec.ofNat_add, BitVec.add_assoc]

omit hr hp in
theorem ofNat_mul_ofNat {w : Nat} (a b : Nat) : BitVec.ofNat w a * BitVec.ofNat w b = BitVec.ofNat w (b * a) := by
  rw [Nat.mul_comm, BitVec.ofNat_mul]

omit hr hp in
/-- Wide loads first, then single slots. -/
theorem load_div_add_mod (n : Nat) :
    c.slotsToLoad * c.k * (n / c.slotsToLoad) + c.k * (n % c.slotsToLoad) = c.k * n := by
  rw [Nat.mul_comm c.slotsToLoad, Nat.mul_assoc, ← Nat.mul_add, Nat.div_add_mod]

/-- The slots from `start` on move over the free slot `n`, and the fingerprint takes the place of slot `start`. -/
theorem shiftSlotsLeftAndInsert_eq (hload : 1 ≤ c.slotsToLoad) {start n : Nat} (hs : start ≤ n)
    (hn : n < c.slotsPerBlock) (f : r.T) :
    shiftSlotsLeftAndInsert c x f start n block m =
      (m.store (base x block + 512 - c.k * n - c.k)
        (m.load (base x block + 512 - c.k * n) (c.k * (n - start)))).store (base x block + 512 - c.k * start - c.k)
          (f.setWidth c.k) := by
  have hfit := hp.slot_fits hn
  have hk := hp.k_pos
  have hdist : c.k * n = c.k * start + c.k * (n - start) := by rw [← Nat.mul_add, Nat.add_sub_cancel' hs]
  rw [Nat.mul_succ] at hfit
  rw [shiftSlotsLeftAndInsert]
  simp only
  split
  · rename_i hc
    rw [blockEnd_eq hr hc, Nat.mul_comm n, Nat.mul_comm start,
      show base x block + 512 - c.k * start - (base x block + 512 - c.k * n) = c.k * (n - start) by omega]
  · have hdm := load_div_add_mod (c := c) (n - start)
    have hwide : c.k ≤ c.slotsToLoad * c.k := Nat.le_mul_of_pos_left _ hload
    have hfirst : ∀ t s, block + 512 - BitVec.ofNat r.bits n * BitVec.ofNat r.bits c.k +
        BitVec.ofNat r.bits t * BitVec.ofNat r.bits s = block + BitVec.ofNat r.bits (512 - c.k * n + s * t) := by
      intro t s
      rw [ofNat_mul_ofNat n, ofNat_mul_ofNat t, show (512 : r.T) = BitVec.ofNat r.bits 512 from rfl,
        add_sub_ofNat _ (by omega), add_ofNat_ofNat]
    generalize hT : (n - start) / c.slotsToLoad = T1 at *
    generalize (n - start) % c.slotsToLoad = T2 at *
    generalize hW : c.slotsToLoad * c.k = W at *
    have hstep : ∀ {s t T : Nat}, t < T → s * t + s ≤ s * T := fun h => by
      rw [← Nat.mul_succ]
      exact Nat.mul_le_mul_left _ h
    have hsecond : ∀ t, block + 512 - BitVec.ofNat r.bits n * BitVec.ofNat r.bits c.k +
        BitVec.ofNat r.bits T1 * BitVec.ofNat r.bits W + BitVec.ofNat r.bits t * BitVec.ofNat r.bits c.k =
          block + BitVec.ofNat r.bits (512 - c.k * n + (W * T1 + c.k * t)) := by
      intro t
      rw [hfirst, ofNat_mul_ofNat t, add_ofNat_ofNat, Nat.add_assoc]
    rw [foldl_moveBits_down m (hW ▸ Params.load_le) (k := c.k) (p := base x block + 512 - c.k * n) (by omega)
      (fun t ht => ?_) fun t ht => ?_]
    rw [foldl_moveBits_down _ hp.k_le (k := c.k) (p := base x block + 512 - c.k * n + W * T1) (by omega)
      (fun t ht => ?_) fun t ht => ?_]
    rw [store_load_down _ (by omega), hdm, hsecond T2, hdm, add_sub_ofNat _ (by omega),
      scatteruBits_eq hp.k_le _ _ _ _ _ (fun h => absurd h (by decide)), hr.toReaches.toNat_add (by omega), base]
    · refine congrArg (fun p => Mem.store _ p _) ?_
      omega
    · have := hstep (s := c.k) ht
      rw [hsecond t, hr.toReaches.toNat_add (by omega), base]
      omega
    · have := hstep (s := c.k) ht
      rw [hsecond t, add_sub_ofNat _ (by omega), hr.toReaches.toNat_add (by omega), base]
      omega
    · have := hstep (s := W) ht
      rw [hfirst, hr.toReaches.toNat_add (by omega), base]
      omega
    · have := hstep (s := W) ht
      rw [hfirst, add_sub_ofNat _ (by omega), hr.toReaches.toNat_add (by omega), base]
      omega

/-- The slots after `start` move over it, and the fingerprint takes the place of slot `n - 1`. -/
theorem shiftSlotsRightAndInsert_eq (hload : 1 ≤ c.slotsToLoad) {start n : Nat} (hs : start < n)
    (hn : n ≤ c.slotsPerBlock) (f : r.T) :
    shiftSlotsRightAndInsert c x f start n block m =
      (m.store (base x block + 512 - c.k * n + c.k)
        (m.load (base x block + 512 - c.k * n) (c.k * (n - (start + 1))))).store (base x block + 512 - c.k * n)
          (f.setWidth c.k) := by
  have hfit := hp.slots_fit
  have hle := Nat.mul_le_mul_left c.k hn
  have hk := hp.k_pos
  have hdist : c.k * n = c.k * start + c.k + c.k * (n - (start + 1)) := by
    rw [← Nat.mul_succ, ← Nat.mul_add, Nat.add_sub_cancel' hs]
  rw [shiftSlotsRightAndInsert]
  simp only
  split
  · rename_i hc
    rw [blockEnd_eq hr hc, Nat.mul_comm n, Nat.mul_comm start,
      show base x block + 512 - c.k * start - (base x block + 512 - c.k * n) - c.k = c.k * (n - (start + 1)) by
        omega]
  · have hdm := load_div_add_mod (c := c) (n - (start + 1))
    have hwide : c.k ≤ c.slotsToLoad * c.k := Nat.le_mul_of_pos_left _ hload
    have hfirst : ∀ t s, s * t ≤ c.k * (n - (start + 1)) →
        block + 512 - BitVec.ofNat r.bits start * BitVec.ofNat r.bits c.k -
          BitVec.ofNat r.bits t * BitVec.ofNat r.bits s =
            block + BitVec.ofNat r.bits (512 - c.k * start - s * t) := by
      intro t s _
      rw [ofNat_mul_ofNat start, ofNat_mul_ofNat t, show (512 : r.T) = BitVec.ofNat r.bits 512 from rfl,
        add_sub_ofNat _ (by omega), add_sub_ofNat _ (by omega)]
    generalize hT : (n - (start + 1)) / c.slotsToLoad = T1 at *
    generalize (n - (start + 1)) % c.slotsToLoad = T2 at *
    generalize hW : c.slotsToLoad * c.k = W at *
    have hstep : ∀ {s t T : Nat}, t < T → s * (t + 1) ≤ s * T := fun h => Nat.mul_le_mul_left _ h
    have hsecond : ∀ t ≤ T2, block + 512 - BitVec.ofNat r.bits start * BitVec.ofNat r.bits c.k -
        BitVec.ofNat r.bits T1 * BitVec.ofNat r.bits W - BitVec.ofNat r.bits t * BitVec.ofNat r.bits c.k =
          block + BitVec.ofNat r.bits (512 - c.k * start - (W * T1 + c.k * t)) := by
      intro t ht
      have := Nat.mul_le_mul_left c.k ht
      rw [hfirst _ _ (by omega), ofNat_mul_ofNat t, add_sub_ofNat _ (by omega), Nat.sub_sub]
    have hpos : ∀ {s t : Nat}, 0 < s → 0 < s * (t + 1) := fun h => Nat.mul_pos h (Nat.succ_pos _)
    rw [foldl_moveBits_up m (hW ▸ Params.load_le) (k := c.k) (p := base x block + 512 - c.k * start) (by omega)
      (fun t ht => ?_) fun t ht => ?_]
    rw [foldl_moveBits_up _ hp.k_le (k := c.k) (p := base x block + 512 - c.k * start - W * T1) (by omega)
      (fun t ht => ?_) fun t ht => ?_]
    rw [store_load_up _ (by omega), hdm, hsecond T2 (Nat.le_refl _), hdm, add_sub_ofNat _ (by omega),
      scatteruBits_eq hp.k_le _ _ _ _ _ (fun h => absurd h (by decide)), hr.toReaches.toNat_add (by omega), base,
      show 8 * x.filter + block.toNat + 512 - c.k * start - c.k * (n - (start + 1)) =
        8 * x.filter + block.toNat + 512 - c.k * n + c.k by omega,
      Nat.add_sub_cancel]
    · refine congrArg (fun p => Mem.store _ p _) ?_
      omega
    · have h1 := hstep (s := c.k) ht
      have h2 := hpos (t := t) hk
      rw [hsecond (t + 1) ht, add_sub_ofNat _ (by omega), hr.toReaches.toNat_add (by omega), base]
      omega
    · have h1 := hstep (s := c.k) ht
      have h2 := hpos (t := t) hk
      rw [hsecond (t + 1) ht, hr.toReaches.toNat_add (by omega), base]
      omega
    · have h1 := hstep (s := W) ht
      have h2 := hpos (t := t) (Nat.lt_of_lt_of_le hk hwide)
      rw [hfirst _ _ (by omega), add_sub_ofNat _ (by omega),
        hr.toReaches.toNat_add (by omega), base]
      omega
    · have h1 := hstep (s := W) ht
      have h2 := hpos (t := t) (Nat.lt_of_lt_of_le hk hwide)
      rw [hfirst _ _ (by omega), hr.toReaches.toNat_add (by omega), base]
      omega

end

end PartitionedFilters.Cuckoo.Morton

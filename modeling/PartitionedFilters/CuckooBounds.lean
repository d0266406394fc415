import PartitionedFilters.CuckooPositions

/-!
# The bytes reserved for a partition

A table with a bucket keeps every address inside; a table without one has no
address, yet most addressing modes compute some.
-/

namespace PartitionedFilters.Cuckoo

variable {r : RegisterSize}

def regionEnd (c : Config r) (x : CuckooContainer r) (nPartitions i : Nat) : Nat :=
  if i + 1 < c.nParts nPartitions then (x.offsets (i + 1)).toNat else x.nBytes

/-- Every bucket that is addressed lies inside the bytes of its partition. -/
def InRange (v : Variant) (c : Config r) (x : CuckooContainer r) (avx : Bool) (nPartitions : Nat) : Prop :=
  ∀ i < c.nParts nPartitions, ∀ address, Addressed v c x i address →
    8 * (x.filter + (c.offset x i).toNat) ≤ v.position c x avx (c.offset x i) address ∧
      v.position c x avx (c.offset x i) address + v.extent c ≤ 8 * (x.filter + regionEnd c x nPartitions i)

def InT (v : Variant) (c : Config r) (avx : Bool) : Prop :=
  ¬(v = .Standard ∧ avx = false ∧ c.optimalFingerprintSize = true)

instance (v : Variant) (c : Config r) (avx : Bool) : Decidable (InT v c avx) := inferInstanceAs (Decidable (¬_))

/-- No bucket wraps to before its partition: in a table of less than `2 ^ w` bits the last one decides. -/
def StaysAhead (v : Variant) (c : Config r) (x : CuckooContainer r) (avx : Bool) (i : Nat) : Prop :=
  if (x.entries i).size.toNat < 2 ^ 32 ∧ v.distance c ((x.entries i).size.toNat - 1) < 2 ^ r.bits then
    PositionFits v c x avx i ((x.entries i).size.toNat - 1)
  else ∀ address, Addressed v c x i address → InT v c avx →
    8 * v.start c x i + v.distance c address.toNat % 2 ^ r.bits < 2 ^ r.bits

/-- A table without buckets that has only the address 0, and room for it. -/
def Spare (v : Variant) (c : Config r) (x : CuckooContainer r) (avx : Bool) (nPartitions i : Nat) : Prop :=
  (c.mode = .Lemire ∨ v = .Morton ∧ c.mode = .Vacuum ∧ c.k = r.bits) ∧ PositionFits v c x avx i 0 ∧
    8 * v.start c x i + v.extent c ≤ 8 * regionEnd c x nPartitions i

/-! ## Tables without buckets -/

section
variable {v : Variant} {c : Config r} {x : CuckooContainer r} {i : Nat} {h : r.T}

theorem mulh32_zero (y : r.T) : mulh32 y 0 = 0 := by
  refine BitVec.eq_of_toNat_eq ?_
  rw [toNat_mulh32]
  simp

/-- Without buckets the mode `Lemire` has the address 0 only. -/
theorem Addressed.eq_zero_of_Lemire (hm : c.mode = .Lemire) (hsize : (x.entries i).size = 0) {address : r.T}
    (ha : Addressed v c x i address) : address = 0 := by
  induction ha with
  | address1 hash =>
    rw [Config.address1, hm, AddresserEntry.computeAddress, hsize, mulh32_zero]
  | alternative address hash _ ih =>
    rw [hm, ih]
    simp only [AddresserEntry.computeAlternativeAddress, AddresserEntry.computeAddress, hsize, mulh32_zero]
    simp

theorem Addressed.eq_zero_of_Vacuum (hm : c.mode = .Vacuum) (hsize : (x.entries i).size = 0)
    (hf : ∀ hash, v.fingerprint c hash = 0) {address : r.T} (ha : Addressed v c x i address) : address = 0 := by
  induction ha with
  | address1 hash =>
    rw [Config.address1, hm, AddresserEntry.computeAddress, hsize, mulh32_zero]
  | alternative address hash _ ih =>
    rw [hm, ih, hf]
    simp [AddresserEntry.computeAlternativeAddress, extractAddressBits]

theorem fingerprint_eq_zero (hk : c.k = r.bits) (hash : r.T) : Variant.Morton.fingerprint c hash = 0 := by
  show AddresserEntry.fingerprint c.k hash = 0
  simp [AddresserEntry.fingerprint, hk]

theorem exists_fingerprint_one (v : Variant) (hk : 0 < c.k) (hk' : c.k ≤ r.bits)
    (hv : v = .Standard ∨ c.k < r.bits) :
    ∃ hash, v.fingerprint c hash = 1 := by
  cases v with
  | Standard =>
    refine ⟨0, ?_⟩
    simp [Variant.fingerprint, Config.cuckooFingerprint, AddresserEntry.fingerprint]
  | Morton =>
    have hlt := hv.resolve_left (by decide)
    refine ⟨1, ?_⟩
    have hone : (1 : r.T).toNat = 1 := BitVec.toNat_one r.bits_pos
    have hshift : (1 : r.T) >>> (r.bits - c.k) = 0 := BitVec.eq_of_toNat_eq (by
      rw [BitVec.toNat_ushiftRight, hone, Nat.shiftRight_eq_div_pow,
        Nat.div_eq_of_lt (Nat.one_lt_two_pow (by omega))]
      simp)
    show AddresserEntry.fingerprint c.k (1 : r.T) = 1
    rw [AddresserEntry.fingerprint, hshift]
    refine BitVec.eq_of_getLsbD_eq fun i hi => ?_
    rw [BitVec.getLsbD_and, BitVec.getLsbD_xor, getLsbD_valueMask hk']
    by_cases h0 : i = 0
    · simp [h0, hk]
    · simp [BitVec.getLsbD_one, h0]

end

section
variable {v : Variant} {c : Config r} {x : CuckooContainer r} {s nPartitions : Nat} {histogram : Nat → r.T}
  {i : Nat}

theorem toNat_ofNat_of_lt (r : RegisterSize) {a : Nat} (ha : a < 2 ^ 32) : (BitVec.ofNat r.bits a).toNat = a := by
  have hbits : 2 ^ 32 ≤ 2 ^ r.bits := Nat.pow_le_pow_right (by decide) (by cases r <;> decide)
  rw [BitVec.toNat_ofNat, Nat.mod_eq_of_lt (Nat.lt_of_lt_of_le ha hbits)]

theorem extractAddressBits_ofNat {a : Nat} (ha : a < 2 ^ 32) :
    extractAddressBits (BitVec.ofNat r.bits a) = BitVec.ofNat r.bits a := by
  apply BitVec.eq_of_toNat_eq
  rw [toNat_extractAddressBits, toNat_ofNat_of_lt r ha, Nat.mod_eq_of_lt ha]

theorem size_new_Magic_ne_zero (h : r.T) : (AddresserEntry.new .Magic h).size ≠ 0 := by
  intro hsize
  obtain ⟨_, d, _, _, hc, -, -, -, hd, -⟩ := AddresserEntry.new_Magic h
  rw [hsize] at hd
  have hlower := hc.lower
  rw [← hd] at hlower
  simp at hlower

theorem Variant.k_bounds (hp : v.Params c) : 0 < c.k ∧ c.k ≤ r.bits := by
  cases v with
  | Standard => exact ⟨hp.1, Nat.le_trans (Nat.le_mul_of_pos_right _ hp.2.1) hp.2.2⟩
  | Morton => exact ⟨Morton.Params.k_pos hp, Morton.Params.k_le hp⟩

theorem Variant.bitsPerBucket_bounds (hp : Variant.Standard.Params c) :
    0 < c.bitsPerBucket ∧ c.bitsPerBucket ≤ 64 :=
  ⟨Nat.mul_pos hp.1 hp.2.1, Nat.le_trans hp.2.2 r.bits_le⟩

theorem mask_of_empty (hx : x = v.new c s nPartitions histogram) (hm : c.mode = .PowerOfTwo ∨ c.mode = .Vacuum)
    (hsize : (x.entries i).size = 0) : (x.entries i).mask = BitVec.allOnes r.bits := by
  obtain ⟨h, he⟩ := Variant.entry_eq hx i
  rw [he] at hsize ⊢
  exact AddresserEntry.mask_of_size_eq_zero hm hsize

theorem addressed_of_PowerOfTwo (hx : x = v.new c s nPartitions histogram) (hm : c.mode = .PowerOfTwo)
    (hsize : (x.entries i).size = 0) {a : Nat} (ha : a < 2 ^ 32) : Addressed v c x i (BitVec.ofNat r.bits a) := by
  have h1 : c.address1 x i (BitVec.ofNat r.bits a) = BitVec.ofNat r.bits a := by
    rw [Config.address1, hm, AddresserEntry.computeAddress, mask_of_empty hx (.inl hm) hsize, BitVec.and_allOnes,
      extractAddressBits_ofNat ha]
  exact h1 ▸ Addressed.address1 (BitVec.ofNat r.bits a)

/-- The fingerprint 1 leads from bucket 0 to the factor of the signatures. -/
theorem addressed_signatureFactor (hx : x = v.new c s nPartitions histogram) (hm : c.mode = .Vacuum)
    (hsize : (x.entries i).size = 0) (hone : ∃ hash, v.fingerprint c hash = 1) :
    Addressed v c x i (BitVec.ofNat r.bits 0x5bd1e995) := by
  obtain ⟨hash, hf⟩ := hone
  have h0 : c.address1 x i 0 = 0 := by
    rw [Config.address1, hm, AddresserEntry.computeAddress, hsize, mulh32_zero]
  have hmul : (1 : r.T) * AddresserEntry.signatureFactor r = BitVec.ofNat r.bits 0x5bd1e995 := BitVec.one_mul _
  have hxor : ∀ y : r.T, 0 ^^^ y = y := fun y => BitVec.zero_xor
  have hsig : (x.entries i).computeAlternativeAddress .Vacuum 0 1 = BitVec.ofNat r.bits 0x5bd1e995 := by
    simp only [AddresserEntry.computeAlternativeAddress, mask_of_empty hx (.inr hm) hsize, hmul,
      extractAddressBits_ofNat (show 0x5bd1e995 < 2 ^ 32 by decide), BitVec.and_allOnes, hxor]
  have h1 := Addressed.alternative _ hash (Addressed.address1 (v := v) (c := c) (x := x) (i := i) 0)
  rwa [hf, h0, hm, hsig] at h1

theorem exists_distance_far (hp : v.Params c) :
    ∃ a < 2 ^ 32, 1024 ≤ v.distance c a % 2 ^ r.bits ∧ v.distance c a < 2 ^ 64 := by
  have hbits : 2 ^ 32 ≤ 2 ^ r.bits := Nat.pow_le_pow_right (by decide) (by cases r <;> decide)
  cases v with
  | Standard =>
    obtain ⟨h1, h2⟩ := Variant.bitsPerBucket_bounds hp
    have hd : Variant.Standard.distance c 1024 = 1024 * c.bitsPerBucket := rfl
    refine ⟨1024, by decide, ?_⟩
    rw [hd, Nat.mod_eq_of_lt (by omega)]
    omega
  | Morton =>
    obtain ⟨h1, h2⟩ := Variant.buckets_le hp rfl
    have hd : Variant.Morton.distance c (2 * c.bucketsPerBlock) = 1024 := by
      rw [Variant.distance, Nat.mul_div_cancel _ h1]
    refine ⟨2 * c.bucketsPerBlock, by omega, ?_⟩
    rw [hd, Nat.mod_eq_of_lt (by omega)]
    decide

theorem distance_signatureFactor_far (hp : v.Params c) :
    1024 ≤ v.distance c 0x5bd1e995 % 2 ^ r.bits ∧ v.distance c 0x5bd1e995 < 2 ^ 64 := by
  cases v with
  | Standard =>
    obtain ⟨h1, h2⟩ := Variant.bitsPerBucket_bounds hp
    have hd : Variant.Standard.distance c 0x5bd1e995 = 0x5bd1e995 * c.bitsPerBucket := rfl
    have hall : ∀ b < 65, 0 < b → 1024 ≤ 0x5bd1e995 * b % 2 ^ r.bits := by cases r <;> decide +kernel
    rw [hd]
    exact ⟨hall _ (by omega) h1, by omega⟩
  | Morton =>
    obtain ⟨h1, h2⟩ := Variant.buckets_le hp rfl
    have hd : Variant.Morton.distance c 0x5bd1e995 = 0x5bd1e995 / c.bucketsPerBlock * 512 := rfl
    have hall : ∀ b < 513, 0 < b → 1024 ≤ 0x5bd1e995 / b * 512 % 2 ^ r.bits := by cases r <;> decide +kernel
    have hle := Nat.div_le_self 0x5bd1e995 c.bucketsPerBlock
    rw [hd]
    exact ⟨hall _ (by omega) h1, by omega⟩

end

/-! ## Positions -/

theorem Variant.distance_zero (v : Variant) (c : Config r) : v.distance c (0 : r.T).toNat = 0 := by
  cases v <;> simp [Variant.distance]

theorem le_mod_add_iff {a b n : Nat} (hn : 0 < n) : a ≤ (a + b) % n ↔ a + b % n < n := by
  have hlt := Nat.mod_lt (a + b) hn
  have hb := Nat.mod_lt b hn
  rw [← Nat.add_mod_mod] at hlt ⊢
  constructor
  · intro h
    have ha : a < n := Nat.lt_of_le_of_lt h hlt
    by_contra hge
    rw [Nat.mod_eq_sub_mod (Nat.le_of_not_lt hge), Nat.mod_eq_of_lt (by omega)] at h
    omega
  · intro h
    rw [Nat.mod_eq_of_lt h]
    exact Nat.le_add_right a _

section
variable {v : Variant} {c : Config r} {x : CuckooContainer r} {avx : Bool} {s nPartitions : Nat}
  {histogram : Nat → r.T} (hx : x = v.new c s nPartitions histogram) (hp : v.Params c)
  (hf : OffsetsFit v c x (c.nParts nPartitions)) {i : Nat} (hi : i < c.nParts nPartitions)

include hx in
/-- Behind the last region there is only the padding of the allocation. -/
theorem regionEnd_bounds (hi : i < c.nParts nPartitions)
    (h : v.start c x (c.nParts nPartitions) < 2 ^ r.bits) (h64 : v.start c x (c.nParts nPartitions) + 64 ≤ 2 ^ 64) :
    v.start c x (i + 1) ≤ regionEnd c x nPartitions i ∧ regionEnd c x nPartitions i ≤ v.start c x (i + 1) + 63 := by
  have hnBytes : x.nBytes = valign (x.offsets (c.nParts nPartitions)).toNat := by
    subst hx
    cases v <;> rfl
  unfold regionEnd
  split
  · rename_i hlt
    rw [Variant.toNat_offsets hx (Nat.lt_of_le_of_lt (Variant.start_le_of_le (Nat.le_of_lt hlt)) h)]
    omega
  · have hlast : i + 1 = c.nParts nPartitions := by omega
    rw [hnBytes, Variant.toNat_offsets hx h, hlast, valign_eq h64]
    omega

include hx hp hf hi

omit hp in
theorem toNat_offset_eq : (c.offset x i).toNat = v.start c x i :=
  Variant.toNat_offset hx hi (Nat.lt_of_le_of_lt (Variant.start_le_of_le (Nat.le_of_lt hi)) hf.total)

/-- A position that is computed in `T` is behind the offset unless it wraps. -/
theorem position_InT (hT : InT v c avx) (address : r.T) :
    v.position c x avx (c.offset x i) address =
      (8 * v.start c x i + v.distance c address.toNat) % 2 ^ r.bits := by
  rw [Variant.position_eq hp, Variant.filter_eq hx, toNat_offset_eq hx hf hi, if_neg hT, Nat.mul_zero, Nat.zero_add]

theorem offset_le_position_iff (hT : InT v c avx) (address : r.T) :
    8 * (x.filter + (c.offset x i).toNat) ≤ v.position c x avx (c.offset x i) address ↔
      8 * v.start c x i + v.distance c address.toNat % 2 ^ r.bits < 2 ^ r.bits := by
  rw [position_InT hx hp hf hi hT, Variant.filter_eq hx, toNat_offset_eq hx hf hi, Nat.zero_add,
    le_mod_add_iff (Nat.two_pow_pos _)]

theorem position_of_ahead (hT : InT v c avx) {address : r.T}
    (h : 8 * v.start c x i + v.distance c address.toNat % 2 ^ r.bits < 2 ^ r.bits) :
    v.position c x avx (c.offset x i) address =
      8 * v.start c x i + v.distance c address.toNat % 2 ^ r.bits := by
  have hstart : 8 * v.start c x i < 2 ^ r.bits := Nat.lt_of_le_of_lt (Nat.le_add_right _ _) h
  rw [position_InT hx hp hf hi hT, Nat.add_mod, Nat.mod_eq_of_lt hstart, Nat.mod_eq_of_lt h]

/-! ## Tables with a bucket -/

/-- The buckets of a table that stay ahead of its offset are inside its region. -/
theorem inRange_of_staysAhead (h64 : v.start c x (c.nParts nPartitions) + 64 ≤ 2 ^ 64) (hm : c.mode ≠ .Morton)
    (hsize : (x.entries i).size ≠ 0) (hahead : StaysAhead v c x avx i) {address : r.T}
    (haddr : Addressed v c x i address) :
    8 * (x.filter + (c.offset x i).toNat) ≤ v.position c x avx (c.offset x i) address ∧
      v.position c x avx (c.offset x i) address + v.extent c ≤ 8 * (x.filter + regionEnd c x nPartitions i) := by
  obtain ⟨h, he⟩ := Variant.entry_eq hx i
  have hlt := haddr.lt_size hm he hsize
  have hd := Variant.distance_lt hp hlt
  have hregion := (Variant.regionBytes_bounds hp (hf.region i hi).1 (hf.region i hi).2).1
  have hend := (regionEnd_bounds hx hi hf.total h64).1
  rw [Variant.start] at hend
  have hfilter := Variant.filter_eq hx
  have hoffset := toNat_offset_eq hx hf hi
  -- wherever the position is, it is no further from the offset than the bucket
  suffices hpos : ∃ d ≤ v.distance c address.toNat,
      v.position c x avx (c.offset x i) address = 8 * v.start c x i + d by
    obtain ⟨d, hle, hpos⟩ := hpos
    omega
  by_cases hT : InT v c avx
  · refine ⟨_, Nat.mod_le _ _, position_of_ahead hx hp hf hi hT ?_⟩
    unfold StaysAhead at hahead
    split at hahead
    · have hfits := hahead.mono (Nat.le_sub_one_of_lt hlt)
      rw [PositionFits, if_neg hT, exactPosition] at hfits
      exact Nat.lt_of_le_of_lt (Nat.add_le_add_left (Nat.mod_le _ _) _) hfits
    · exact hahead address haddr hT
  · refine ⟨_, Nat.le_refl _, (position_eq_exact_iff hx hp hf hi address).mpr ?_⟩
    have hregion64 := (hf.region i hi).2
    rw [PositionFits, if_pos (Decidable.not_not.mp hT)]
    omega

/-- A bucket that wraps to before its partition is out of range. -/
theorem staysAhead_of_inRange (hsize : (x.entries i).size ≠ 0)
    (hin : ∀ address, Addressed v c x i address →
      8 * (x.filter + (c.offset x i).toNat) ≤ v.position c x avx (c.offset x i) address) :
    StaysAhead v c x avx i := by
  unfold StaysAhead
  split
  · rename_i hcase
    obtain ⟨h32, hd⟩ := hcase
    obtain ⟨address, haddr, hlast⟩ := exists_addressed_last hx (v := v) hsize h32
    by_cases hT : InT v c avx
    · have h := (offset_le_position_iff hx hp hf hi hT address).mp (hin address haddr)
      rw [hlast, Nat.mod_eq_of_lt hd] at h
      rwa [PositionFits, if_neg hT]
    · rw [PositionFits, if_pos (Decidable.not_not.mp hT)]
      exact Nat.lt_of_lt_of_le hd (Nat.pow_le_pow_right (by decide) r.bits_le)
  · exact fun address haddr hT => (offset_le_position_iff hx hp hf hi hT address).mp (hin address haddr)

/-! ## Tables without one -/

theorem not_inside (h64 : v.start c x (c.nParts nPartitions) + 64 ≤ 2 ^ 64) (hsize : (x.entries i).size = 0)
    {address : r.T} (hfar : 1024 ≤ v.distance c address.toNat % 2 ^ r.bits)
    (hd : v.distance c address.toNat < 2 ^ 64) :
    ¬(8 * (x.filter + (c.offset x i).toNat) ≤ v.position c x avx (c.offset x i) address ∧
      v.position c x avx (c.offset x i) address + v.extent c ≤ 8 * (x.filter + regionEnd c x nPartitions i)) := by
  rintro ⟨hlow, hhigh⟩
  have hsmall := (Variant.regionBytes_bounds hp (hf.region i hi).1 (hf.region i hi).2).2 (by rw [hsize]; simp)
  have hend := (regionEnd_bounds hx hi hf.total h64).2
  rw [Variant.start] at hend
  have hfilter := Variant.filter_eq hx
  by_cases hT : InT v c avx
  · rw [position_of_ahead hx hp hf hi hT ((offset_le_position_iff hx hp hf hi hT address).mp hlow)] at hhigh
    omega
  · have hmod := Nat.mod_le (v.distance c address.toNat) (2 ^ r.bits)
    have hexact : v.position c x avx (c.offset x i) address = exactPosition v c x i address.toNat :=
      (position_eq_exact_iff hx hp hf hi address).mpr (by
      rw [PositionFits, if_pos (Decidable.not_not.mp hT)]
      exact hd)
    rw [hexact, exactPosition] at hhigh
    omega

theorem inRange_of_spare (hsize : (x.entries i).size = 0) (hspare : Spare v c x avx nPartitions i) {address : r.T}
    (haddr : Addressed v c x i address) :
    8 * (x.filter + (c.offset x i).toNat) ≤ v.position c x avx (c.offset x i) address ∧
      v.position c x avx (c.offset x i) address + v.extent c ≤ 8 * (x.filter + regionEnd c x nPartitions i) := by
  obtain ⟨hmode, hfits, hroom⟩ := hspare
  obtain rfl : address = 0 := by
    rcases hmode with h | ⟨rfl, h, hk⟩
    · exact haddr.eq_zero_of_Lemire h hsize
    · exact haddr.eq_zero_of_Vacuum h hsize (fingerprint_eq_zero hk)
  have hzero : (0 : r.T).toNat = 0 := BitVec.toNat_zero
  have hexact : v.position c x avx (c.offset x i) 0 = exactPosition v c x i (0 : r.T).toNat :=
    (position_eq_exact_iff hx hp hf hi 0).mpr (by rw [hzero]; exact hfits)
  rw [hexact, exactPosition, v.distance_zero, Variant.filter_eq hx, toNat_offset_eq hx hf hi]
  omega

theorem room_of_inside {address : r.T} (h0 : address = 0)
    (hin : 8 * (x.filter + (c.offset x i).toNat) ≤ v.position c x avx (c.offset x i) address ∧
      v.position c x avx (c.offset x i) address + v.extent c ≤ 8 * (x.filter + regionEnd c x nPartitions i)) :
    PositionFits v c x avx i 0 ∧ 8 * v.start c x i + v.extent c ≤ 8 * regionEnd c x nPartitions i := by
  subst h0
  obtain ⟨hlow, hhigh⟩ := hin
  have hzero : (0 : r.T).toNat = 0 := BitVec.toNat_zero
  have hd0 : v.distance c 0 = 0 := hzero ▸ v.distance_zero c
  have hfits : PositionFits v c x avx i 0 := by
    unfold PositionFits exactPosition
    split
    · rw [hd0]
      exact Nat.two_pow_pos 64
    · rename_i hT
      have h := (offset_le_position_iff hx hp hf hi hT (0 : r.T)).mp hlow
      rwa [v.distance_zero, Nat.zero_mod, ← hd0] at h
  rw [(position_eq_exact_iff hx hp hf hi (0 : r.T)).mpr (by rw [hzero]; exact hfits), exactPosition,
    v.distance_zero, Variant.filter_eq hx, Nat.zero_add, Nat.add_zero] at hhigh
  exact ⟨hfits, hhigh⟩

theorem spare_of (h64 : v.start c x (c.nParts nPartitions) + 64 ≤ 2 ^ 64)
    (hin : ∀ address, Addressed v c x i address →
      8 * (x.filter + (c.offset x i).toNat) ≤ v.position c x avx (c.offset x i) address ∧
      v.position c x avx (c.offset x i) address + v.extent c ≤ 8 * (x.filter + regionEnd c x nPartitions i))
    (hm : c.mode ≠ .Morton) (hsize : (x.entries i).size = 0) : Spare v c x avx nPartitions i := by
  -- an address that far away is not inside
  have hfar : ∀ a : Nat, a < 2 ^ 32 → Addressed v c x i (BitVec.ofNat r.bits a) →
      ¬(1024 ≤ v.distance c a % 2 ^ r.bits ∧ v.distance c a < 2 ^ 64) := by
    intro a ha haddr h
    rw [← toNat_ofNat_of_lt r ha] at h
    exact not_inside hx hp hf hi h64 hsize h.1 h.2 (hin _ haddr)
  have hlemire : c.mode = .Lemire ∨ c.mode = .Vacuum → c.address1 x i 0 = 0 := by
    rintro (h | h) <;> rw [Config.address1, h, AddresserEntry.computeAddress, hsize, mulh32_zero]
  cases hmode : c.mode with
  | PowerOfTwo =>
    obtain ⟨a, ha, h⟩ := exists_distance_far hp
    exact absurd h (hfar a ha (addressed_of_PowerOfTwo hx hmode hsize ha))
  | Magic =>
    obtain ⟨h, he⟩ := Variant.entry_eq hx i
    rw [he, hmode] at hsize
    exact absurd hsize (size_new_Magic_ne_zero h)
  | Lemire =>
    exact ⟨.inl hmode, room_of_inside hx hp hf hi (hlemire (.inl hmode)) (hin _ (.address1 0))⟩
  | Vacuum =>
    have hk := Variant.k_bounds hp
    have h0 := hlemire (.inr hmode)
    by_cases hone : v = .Standard ∨ c.k < r.bits
    · -- the other bucket of the fingerprint 1
      exact absurd (distance_signatureFactor_far hp) (hfar _ (by decide)
        (addressed_signatureFactor hx hmode hsize (exists_fingerprint_one v hk.1 hk.2 hone)))
    · obtain ⟨hv, hlt⟩ := not_or.mp hone
      refine ⟨.inr ⟨?_, hmode, Nat.le_antisymm hk.2 (Nat.le_of_not_lt hlt)⟩,
        room_of_inside hx hp hf hi h0 (hin _ (.address1 0))⟩
      cases v with
      | Standard => exact absurd rfl hv
      | Morton => rfl
  | Morton => exact absurd hmode hm

end

/-- Every addressed bucket is inside its partition's bytes exactly if every partition has a bucket and none of its
buckets wraps, or has only the address 0 and room for it. -/
theorem inRange_exact {v : Variant} {c : Config r} {avx : Bool} {s nPartitions : Nat} {histogram : Nat → r.T}
    (hp : v.Params c) (hm : c.mode ≠ .Morton)
    (hf : OffsetsFit v c (v.new c s nPartitions histogram) (c.nParts nPartitions))
    (h64 : v.start c (v.new c s nPartitions histogram) (c.nParts nPartitions) + 64 ≤ 2 ^ 64) :
    InRange v c (v.new c s nPartitions histogram) avx nPartitions ↔
      ∀ i < c.nParts nPartitions,
        if ((v.new c s nPartitions histogram).entries i).size ≠ 0 then
          StaysAhead v c (v.new c s nPartitions histogram) avx i
        else Spare v c (v.new c s nPartitions histogram) avx nPartitions i := by
  constructor
  · intro hin i hi
    split
    · rename_i hsize
      exact staysAhead_of_inRange rfl hp hf hi hsize fun address haddr => (hin i hi address haddr).1
    · rename_i hsize
      exact spare_of rfl hp hf hi h64 (hin i hi) hm (Decidable.not_not.mp hsize)
  · intro hok i hi address haddr
    have h := hok i hi
    split at h
    · rename_i hsize
      exact inRange_of_staysAhead rfl hp hf hi h64 hm hsize h haddr
    · rename_i hsize
      exact inRange_of_spare rfl hp hf hi (Decidable.not_not.mp hsize) h haddr

open Standard (packedConfig packedContainer)

theorem inRange_packed :
    InRange .Standard packedConfig (Standard.new packedConfig 100 2 fun i => BitVec.ofNat 32 (3 + i))
    true 2 := by
  have hsize : ∀ i < 2, (packedContainer.entries i).size ≠ 0 ∧ (packedContainer.entries i).size.toNat < 2 ^ 32 ∧
      Variant.Standard.distance packedConfig ((packedContainer.entries i).size.toNat - 1) <
        2 ^ RegisterSize._32bit.bits := by
    decide +kernel
  have hlast : ∀ i < 2, PositionFits .Standard packedConfig packedContainer true i
      ((packedContainer.entries i).size.toNat - 1) := by
    decide +kernel
  refine (inRange_exact (v := .Standard) (c := packedConfig) ⟨by decide, by decide, by decide⟩ (by decide)
    ⟨by decide +kernel, by decide +kernel⟩ (by decide +kernel)).mpr fun i hi => ?_
  change if (packedContainer.entries i).size ≠ 0 then StaysAhead .Standard packedConfig packedContainer true i
    else Spare .Standard packedConfig packedContainer true 2 i
  rw [if_pos (hsize i hi).1, StaysAhead, if_pos (hsize i hi).2]
  exact hlast i hi

def powerConfig : Config ._32bit :=
  { associativity := 4, bucketsPerBlock := 0, otaSize := 0, k := 8, partitioning := .Enabled, mode := .PowerOfTwo,
    hash := murmur }

/-- The first partition has no key: its mask has all bits, and the last hash has the bucket 2^32 - 1. -/
theorem not_inRange_empty : ¬InRange .Standard powerConfig
    (Standard.new powerConfig 100 2 fun i => BitVec.ofNat 32 (16 * i)) false 2 := by
  intro h
  have hend := (h 0 (by decide) _ (.address1 (r := ._32bit) (BitVec.allOnes 32))).2
  exact absurd hend (by decide +kernel)

end PartitionedFilters.Cuckoo

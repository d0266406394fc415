import PartitionedFilters.CuckooIsolation
import PartitionedFilters.MortonBlockSound

/-!
# Bit positions of buckets

Both variants of the cuckoo container place the buckets of a partition one after
the other behind its offset, and compute the position of a bucket or of its block
in `T`. It is exact as long as the largest one is.
-/

namespace PartitionedFilters.Cuckoo

variable {r : RegisterSize}

inductive Variant where
  | Standard
  | Morton
  deriving DecidableEq, Repr

namespace Variant
variable (v : Variant) (c : Config r)

def new (s nPartitions : Nat) (histogram : Nat → r.T) : CuckooContainer r :=
  match v with
  | .Standard => Standard.new c s nPartitions histogram
  | .Morton => Morton.new c s nPartitions histogram

def fingerprint (hash : r.T) : r.T :=
  match v with
  | .Standard => c.cuckooFingerprint hash
  | .Morton => AddresserEntry.fingerprint c.k hash

/-- The bytes that `last_offset` grows by for a partition of `n` buckets. -/
def regionBytes (n : Nat) : Nat :=
  match v with
  | .Standard => Standard.regionBytes c n
  | .Morton => Morton.regionBytes c n

def extent : Nat :=
  match v with
  | .Standard => c.bitsPerBucket
  | .Morton => 512

/-- The first bit of the bucket, or of its block. The division by `simd::div` is the same for vectors. -/
def position (x : CuckooContainer r) (avx : Bool) (byteOffset address : r.T) : Nat :=
  match v with
  | .Standard =>
    if !avx && c.optimalFingerprintSize then 8 * Standard.bucketByte c x byteOffset address
    else 8 * x.filter + (Standard.bitAddress c byteOffset address).toNat
  | .Morton => 8 * x.filter + (Morton.blockOffset c byteOffset address).toNat

/-- What the configurations of the variant have in common. -/
def Params : Prop :=
  match v with
  | .Standard => 0 < c.k ∧ 0 < c.associativity ∧ c.k * c.associativity ≤ r.bits
  | .Morton => Morton.Params c

/-- The distance of a bucket, or of its block, from the offset of the partition. -/
def distance (address : Nat) : Nat :=
  match v with
  | .Standard => address * c.bitsPerBucket
  | .Morton => address / c.bucketsPerBlock * 512

def used (size : Nat) : Nat :=
  match v with
  | .Standard => size * c.bitsPerBucket
  | .Morton => (size + c.bucketsPerBlock - 1) / c.bucketsPerBlock * 512

def start (x : CuckooContainer r) : Nat → Nat
  | 0 => 0
  | i + 1 => start x i + v.regionBytes c (x.entries i).size.toNat

end Variant

/-- The addresses that `contains`, `insert` and `evict_victim` compute for partition `i`. -/
inductive Addressed (v : Variant) (c : Config r) (x : CuckooContainer r) (i : Nat) : r.T → Prop
  | address1 (hash : r.T) : Addressed v c x i (c.address1 x i hash)
  | alternative (address hash : r.T) : Addressed v c x i address →
      Addressed v c x i ((x.entries i).computeAlternativeAddress c.mode address (v.fingerprint c hash))

/-! ## Addresses -/

section
variable {v : Variant} {c : Config r} {x : CuckooContainer r} {i : Nat} {h : r.T}

theorem toNat_extract_lt (y : r.T) : (extractAddressBits y).toNat < 2 ^ 32 := by
  rw [toNat_extractAddressBits]
  exact Nat.mod_lt _ (by decide)

theorem Addressed.lt_size (hm : c.mode ≠ .Morton) (he : x.entries i = .new c.mode h)
    (hsize : (x.entries i).size ≠ 0) {address : r.T} (ha : Addressed v c x i address) :
    address.toNat < (x.entries i).size.toNat := by
  rw [he] at hsize ⊢
  induction ha with
  | address1 hash =>
    rw [Config.address1, he]
    exact AddresserEntry.computeAddress_lt c.mode h hsize (toNat_extract_lt _)
  | alternative address hash _ ih =>
    rw [he]
    exact (AddresserEntry.computeAlternativeAddress_spec hm h hsize ih _).1

end

/-! ## Regions -/

namespace Variant
variable {v : Variant} {c : Config r} {x : CuckooContainer r}

theorem start_le_of_le {i j : Nat} (h : i ≤ j) : v.start c x i ≤ v.start c x j := by
  induction h with
  | refl => exact Nat.le_refl _
  | step _ ih => exact Nat.le_trans ih (Nat.le_add_right _ _)

section
variable {s nPartitions : Nat} {histogram : Nat → r.T} (hx : x = v.new c s nPartitions histogram)
include hx

theorem filter_eq : x.filter = 0 := by
  subst hx
  cases v <;> rfl

theorem entry_eq (i : Nat) : ∃ h, x.entries i = .new c.mode h := by
  subst hx
  cases v <;> exact ⟨_, rfl⟩

theorem toNat_offsets {i : Nat} (h : v.start c x i < 2 ^ r.bits) : (x.offsets i).toNat = v.start c x i := by
  have hzero : x.offsets 0 = 0 := by
    subst hx
    cases v <;> rfl
  have hsucc :
      ∀ i, x.offsets (i + 1) = x.offsets i + BitVec.ofNat r.bits (v.regionBytes c (x.entries i).size.toNat) := by
    subst hx
    cases v <;> exact fun _ => rfl
  induction i with
  | zero =>
    rw [hzero]
    exact BitVec.toNat_zero
  | succ i ih =>
    rw [start] at h
    rw [hsucc, BitVec.toNat_add, ih (by omega), BitVec.toNat_ofNat, Nat.add_mod_mod, Nat.mod_eq_of_lt h, start]

theorem toNat_offset {i : Nat} (hi : i < c.nParts nPartitions) (h : v.start c x i < 2 ^ r.bits) :
    (c.offset x i).toNat = v.start c x i := by
  cases hp : c.partitioning with
  | Enabled =>
    rw [Config.offset, hp]
    exact toNat_offsets hx h
  | Disabled =>
    rw [Config.nParts, hp] at hi
    obtain rfl : i = 0 := Nat.lt_one_iff.mp hi
    rw [Config.offset, hp]
    exact BitVec.toNat_zero

end

/-! ## Positions -/

section
variable (hp : v.Params c)
include hp

theorem buckets_le (hv : v = .Morton) : 0 < c.bucketsPerBlock ∧ c.bucketsPerBlock ≤ 512 := by
  subst hv
  have h : Morton.Params c := hp
  have hfits := h.fits
  have hle := Nat.le_mul_of_pos_right c.bucketsPerBlock (Morton.counterSize_pos c)
  rw [Config.otaOffset] at hfits
  exact ⟨h.buckets_pos, by omega⟩

theorem extent_pos : 0 < v.extent c := by
  cases v with
  | Standard => exact Nat.mul_pos hp.1 hp.2.1
  | Morton => exact (by decide : 0 < 512)

/-- The bit address wraps in `T`, the byte address in `size_t`. -/
theorem position_eq {avx : Bool} {byteOffset address : r.T} :
    v.position c x avx byteOffset address =
      if v = .Standard ∧ avx = false ∧ c.optimalFingerprintSize = true then
        8 * (x.filter + byteOffset.toNat) + v.distance c address.toNat % 2 ^ 64
      else 8 * x.filter + (8 * byteOffset.toNat + v.distance c address.toNat) % 2 ^ r.bits := by
  cases v with
  | Standard =>
    by_cases hc : avx = false ∧ c.optimalFingerprintSize = true
    · obtain ⟨havx, hopt⟩ := hc
      have h8 : 8 ∣ address.toNat * c.bitsPerBucket % 2 ^ 64 := by
        have hk : 8 ∣ c.k := by
          simp only [Config.optimalFingerprintSize, Bool.or_eq_true, beq_iff_eq] at hopt
          omega
        exact (Nat.dvd_mod_iff (by decide)).mpr (Nat.dvd_mul_left_of_dvd (Nat.dvd_mul_right_of_dvd hk _) _)
      rw [if_pos ⟨rfl, havx, hopt⟩]
      simp only [position, distance, havx, hopt, Bool.not_false, Bool.and_true, if_true]
      rw [Standard.bucketByte, Nat.mul_add, Nat.mul_div_cancel' h8]
    · rw [if_neg fun h => hc h.2]
      have hcond : (!avx && c.optimalFingerprintSize) = false := by
        cases avx <;> simp_all
      simp only [position, distance, hcond, Bool.false_eq_true, if_false]
      rw [Standard.toNat_bitAddress hp.2.2]
  | Morton =>
    have hB := buckets_le hp rfl
    have h512 : (512 : Nat) % 2 ^ r.bits = 512 := by cases r <;> rfl
    rw [if_neg fun h => absurd h.1 (by decide)]
    simp only [position, distance]
    rw [Morton.blockOffset, BitVec.toNat_add, BitVec.toNat_mul, Morton.toNat_div (by omega), BitVec.toNat_ofNat,
      h512, BitVec.toNat_shiftLeft, Nat.shiftLeft_eq, ← Nat.add_mod, Nat.mul_comm byteOffset.toNat]

theorem distance_lt {a size : Nat} (h : a < size) : v.distance c a + v.extent c ≤ v.used c size := by
  cases v with
  | Standard =>
    show a * c.bitsPerBucket + c.bitsPerBucket ≤ size * c.bitsPerBucket
    rw [← Nat.succ_mul]
    exact Nat.mul_le_mul_right _ h
  | Morton =>
    show a / c.bucketsPerBlock * 512 + 512 ≤ (size + c.bucketsPerBlock - 1) / c.bucketsPerBlock * 512
    have hB := (buckets_le hp rfl).1
    rw [← Nat.succ_mul]
    refine Nat.mul_le_mul_right _ ?_
    rw [Nat.succ_eq_add_one, ← Nat.add_div_right _ hB]
    exact Nat.div_le_div_right (by omega)

theorem regionBytes_bounds {size : Nat} (h1 : size + c.bucketsPerBlock ≤ 2 ^ 64)
    (h2 : v.used c size + 1024 ≤ 2 ^ 64) :
    v.used c size ≤ 8 * v.regionBytes c size ∧ (size = 0 → 8 * v.regionBytes c size ≤ 512) := by
  cases v with
  | Standard =>
    have h64 := r.bits_le
    have hw := r.bits_pos
    have hregion : size * c.bitsPerBucket + r.bits ≤ 2 ^ 64 := by
      change size * c.bitsPerBucket + 1024 ≤ 2 ^ 64 at h2
      omega
    refine ⟨(Standard.regionBytes_spec hregion).1, fun h0 => ?_⟩
    have hal : alignNumber (0 * c.bitsPerBucket % 2 ^ 64) r.bits = 0 := by
      rw [Nat.zero_mul]
      cases r <;> rfl
    show 8 * Standard.regionBytes c size ≤ 512
    rw [h0, Standard.regionBytes, hal]
    cases c.partitioning with
    | Disabled => exact (by decide : 8 * (0 / 8 + 0) ≤ 512)
    | Enabled =>
      show 8 * (0 / 8 + if c.optimalFingerprintSize = true then 0 else r.bits / 8) ≤ 512
      split <;> omega
  | Morton =>
    have hB := (buckets_le hp rfl).1
    change (size + c.bucketsPerBlock - 1) / c.bucketsPerBlock * 512 + 1024 ≤ 2 ^ 64 at h2
    have hle := Nat.div_mul_le_self (size + c.bucketsPerBlock - 1) c.bucketsPerBlock
    have hal : alignNumber size c.bucketsPerBlock / c.bucketsPerBlock =
        (size + c.bucketsPerBlock - 1) / c.bucketsPerBlock := by
      rw [alignNumber, Nat.mod_eq_of_lt (show size + c.bucketsPerBlock - 1 < 2 ^ 64 by omega),
        Nat.mod_eq_of_lt (by omega), Nat.mul_div_cancel _ hB]
    show (size + c.bucketsPerBlock - 1) / c.bucketsPerBlock * 512 ≤ 8 * Morton.regionBytes c size ∧
      (size = 0 → 8 * Morton.regionBytes c size ≤ 512)
    have hregion :
        8 * Morton.regionBytes c size = (size + c.bucketsPerBlock - 1) / c.bucketsPerBlock * 512 + 512 := by
      rw [Morton.regionBytes, hal, Nat.mod_eq_of_lt (by omega), Nat.mod_eq_of_lt (by omega)]
      omega
    rw [hregion]
    refine ⟨Nat.le_add_right _ _, fun h0 => ?_⟩
    rw [h0, Nat.zero_add, Nat.div_eq_of_lt (by omega), Nat.zero_mul]

end

end Variant

/-! ## Exact positions -/

/-- The running offset does not overflow: neither a region in `size_t`, nor the sum of all regions in `T`. -/
structure OffsetsFit (v : Variant) (c : Config r) (x : CuckooContainer r) (n : Nat) : Prop where
  region : ∀ i < n, (x.entries i).size.toNat + c.bucketsPerBlock ≤ 2 ^ 64 ∧
    v.used c (x.entries i).size.toNat + 1024 ≤ 2 ^ 64
  total : v.start c x n < 2 ^ r.bits

def exactPosition (v : Variant) (c : Config r) (x : CuckooContainer r) (i address : Nat) : Nat :=
  8 * v.start c x i + v.distance c address

namespace Variant

def unit (v : Variant) (c : Config r) (address : Nat) : Nat :=
  match v with
  | .Standard => address
  | .Morton => address / c.bucketsPerBlock

theorem distance_eq (v : Variant) (c : Config r) (address : Nat) :
    v.distance c address = v.unit c address * v.extent c := by
  cases v <;> rfl

theorem distance_mono (v : Variant) (c : Config r) {a b : Nat} (h : a ≤ b) :
    v.distance c a ≤ v.distance c b := by
  cases v with
  | Standard => exact Nat.mul_le_mul_right _ h
  | Morton => exact Nat.mul_le_mul_right _ (Nat.div_le_div_right h)

end Variant

/-- The scalar path for fingerprints of whole bytes computes in `size_t`. -/
def PositionFits (v : Variant) (c : Config r) (x : CuckooContainer r) (avx : Bool) (i address : Nat) : Prop :=
  if v = .Standard ∧ avx = false ∧ c.optimalFingerprintSize = true then v.distance c address < 2 ^ 64
  else exactPosition v c x i address < 2 ^ r.bits

instance (v : Variant) (c : Config r) (x : CuckooContainer r) (avx : Bool) (i address : Nat) :
    Decidable (PositionFits v c x avx i address) := by
  unfold PositionFits
  infer_instance

/-- The position of the last bucket fits. Tables without buckets and the mode `Morton` have other addresses. -/
def PartitionFits (v : Variant) (c : Config r) (x : CuckooContainer r) (avx : Bool) (i : Nat) : Prop :=
  if c.mode ≠ .Morton ∧ (x.entries i).size ≠ 0 ∧ (x.entries i).size.toNat < 2 ^ 32 then
    PositionFits v c x avx i ((x.entries i).size.toNat - 1)
  else ∀ address, Addressed v c x i address → PositionFits v c x avx i address.toNat

theorem PositionFits.mono {v : Variant} {c : Config r} {x : CuckooContainer r} {avx : Bool} {i a b : Nat}
    (hab : a ≤ b) (h : PositionFits v c x avx i b) : PositionFits v c x avx i a := by
  have hle := v.distance_mono c hab
  unfold PositionFits exactPosition at h ⊢
  split
  · rename_i hbyte
    rw [if_pos hbyte] at h
    exact Nat.lt_of_le_of_lt hle h
  · rename_i hbyte
    rw [if_neg hbyte] at h
    exact Nat.lt_of_le_of_lt (Nat.add_le_add_left hle _) h

section
variable {v : Variant} {c : Config r} {x : CuckooContainer r} {avx : Bool} {s nPartitions : Nat}
  {histogram : Nat → r.T}
  (hx : x = v.new c s nPartitions histogram) (hp : v.Params c)
include hx

theorem exists_addressed_last {i : Nat} (hsize : (x.entries i).size ≠ 0) (h32 : (x.entries i).size.toNat < 2 ^ 32) :
    ∃ address, Addressed v c x i address ∧ address.toNat = (x.entries i).size.toNat - 1 := by
  obtain ⟨h, he⟩ := Variant.entry_eq hx i
  rw [he] at hsize h32
  obtain ⟨y, hy, hlast⟩ := AddresserEntry.exists_computeAddress_last c.mode h hsize h32
  have hextract : extractAddressBits y = y :=
    BitVec.eq_of_toNat_eq (by rw [toNat_extractAddressBits, Nat.mod_eq_of_lt hy])
  refine ⟨_, .address1 y, ?_⟩
  rw [Config.address1, he, hextract, ← hlast, Nat.add_sub_cancel]

theorem partitionFits_iff (i : Nat) : PartitionFits v c x avx i ↔
    ∀ address, Addressed v c x i address → PositionFits v c x avx i address.toNat := by
  unfold PartitionFits
  split
  · rename_i hcase
    obtain ⟨hm, hsize, h32⟩ := hcase
    obtain ⟨h, he⟩ := Variant.entry_eq hx i
    constructor
    · intro hlast address ha
      have hlt := ha.lt_size hm he hsize
      exact hlast.mono (Nat.le_sub_one_of_lt hlt)
    · intro hall
      obtain ⟨address, haddressed, hlast⟩ := exists_addressed_last hx (v := v) hsize h32
      exact hlast ▸ hall address haddressed
  · exact Iff.rfl

variable (hf : OffsetsFit v c x (c.nParts nPartitions))
include hp hf

theorem position_eq_exact_iff {i : Nat} (hi : i < c.nParts nPartitions) (address : r.T) :
    v.position c x avx (c.offset x i) address = exactPosition v c x i address.toNat ↔
      PositionFits v c x avx i address.toNat := by
  have hlt : v.start c x i < 2 ^ r.bits := Nat.lt_of_le_of_lt (Variant.start_le_of_le (Nat.le_of_lt hi)) hf.total
  have hmod : ∀ a n : Nat, 0 < n → (a % n = a ↔ a < n) := fun a n hn =>
    ⟨fun h => h ▸ Nat.mod_lt a hn, Nat.mod_eq_of_lt⟩
  rw [Variant.position_eq hp, Variant.filter_eq hx, Variant.toNat_offset hx hi hlt, PositionFits, exactPosition,
    Nat.zero_add]
  split
  · rw [Nat.add_left_cancel_iff]
    exact hmod _ _ (Nat.two_pow_pos 64)
  · rw [Nat.mul_zero, Nat.zero_add]
    exact hmod _ _ (Nat.two_pow_pos r.bits)

end

end PartitionedFilters.Cuckoo

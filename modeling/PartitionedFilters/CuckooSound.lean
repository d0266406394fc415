import PartitionedFilters.AddressSound
import PartitionedFilters.BucketArray
import PartitionedFilters.Cuckoo
import PartitionedFilters.Lts
import PartitionedFilters.Relocation

/-!
# Soundness of the standard cuckoo container

Where no address wraps, the slots of different buckets are disjoint fields of
the memory, so that an insertion is a chain of relocations: the entries of the
occupied slots change by the inserted key alone.
-/

namespace PartitionedFilters.Cuckoo

variable {r : RegisterSize}

/-! ## Fingerprints -/

theorem toNat_fingerprint_lt {c : Config r} (hk : c.k ≤ r.bits) (hash : r.T) :
    (AddresserEntry.fingerprint c.k hash).toNat < 2 ^ c.k := by
  have h : (valueMask r c.k).toNat ≤ 2 ^ c.k - 1 := by
    have : (valueMask r c.k).toNat < 2 ^ c.k := Nat.lt_pow_two_of_testBit _ fun i hi => by
      rw [BitVec.testBit_toNat, getLsbD_valueMask hk]
      simpa using hi
    omega
  have hle := Nat.and_le_right (n := (hash >>> (r.bits - c.k) ^^^ hash).toNat) (m := (valueMask r c.k).toNat)
  have := Nat.two_pow_pos c.k
  rw [AddresserEntry.fingerprint, BitVec.toNat_and]
  omega

theorem cuckooFingerprint_spec {c : Config r} (hk : 0 < c.k) (hk' : c.k ≤ r.bits) (hash : r.T) :
    c.cuckooFingerprint hash ≠ 0 ∧ (c.cuckooFingerprint hash).toNat < 2 ^ c.k := by
  have hone : (1 : r.T).toNat = 1 := BitVec.toNat_one r.bits_pos
  simp only [Config.cuckooFingerprint]
  split
  · rename_i h0
    rw [h0, show (0 : r.T) + 1 = 1 from BitVec.zero_add 1, hone]
    exact ⟨fun h => by rw [h] at hone; simp at hone, Nat.one_lt_two_pow (Nat.ne_of_gt hk)⟩
  · rename_i h0
    exact ⟨h0, toNat_fingerprint_lt hk' hash⟩

namespace Standard

variable {c : Config r} {x : CuckooContainer r} {n : Nat}

theorem store_or {m : Mem} {p n k j : Nat} {bucket f : r.T} (hw : n ≤ r.bits) (hslot : k * j + k ≤ n)
    (hload : ∀ i < n, bucket.getLsbD i = m.bit (p + i)) (hlane : lane k bucket j = 0) (hf : f.toNat < 2 ^ k) :
    m.store p ((bucket ||| f <<< (k * j)).setWidth n) = m.store (p + k * j) (f.setWidth k) := by
  refine Mem.ext (funext fun q => ?_)
  have hzero : ∀ i < k, bucket.getLsbD (k * j + i) = false := by
    intro i hik
    have h := getLsbD_lane (k := k) bucket j i
    rw [hlane] at h
    simpa [hik] using h.symm
  have hhigh : ∀ i, k ≤ i → f.getLsbD i = false := fun i hik => by
    rw [← BitVec.testBit_toNat]
    exact Nat.testBit_lt_two_pow (Nat.lt_of_lt_of_le hf (Nat.pow_le_pow_right (by decide) hik))
  by_cases hq : p ≤ q ∧ q < p + n
  · have hqw : q - p < r.bits := by omega
    rw [Mem.store_of_mem _ _ hq.1 hq.2, BitVec.getLsbD_setWidth, BitVec.getLsbD_or, BitVec.getLsbD_shiftLeft]
    simp only [show q - p < n by omega, decide_true, Bool.true_and, hqw]
    by_cases hin : p + k * j ≤ q ∧ q < p + k * j + k
    · rw [Mem.store_of_mem _ _ hin.1 hin.2, BitVec.getLsbD_setWidth]
      have h := hzero (q - p - k * j) (by omega)
      rw [show k * j + (q - p - k * j) = q - p by omega] at h
      rw [h, show q - (p + k * j) = q - p - k * j by omega]
      simp [show ¬ q - p < k * j by omega, show q - p - k * j < k by omega]
    · rw [Mem.store_of_notMem _ _ (by omega), hload _ (by omega), Nat.add_sub_cancel' hq.1]
      by_cases hlt : q - p < k * j
      · simp [hlt]
      · simp [hhigh (q - p - k * j) (by omega)]
  · rw [Mem.store_of_notMem _ _ (by omega), Mem.store_of_notMem _ _ (by omega)]

/-! ## The layout -/

/-- The first byte of the region of a partition, as a natural number. -/
def start (c : Config r) (x : CuckooContainer r) : Nat → Nat
  | 0 => 0
  | i + 1 => start c x i + regionBytes c (x.entries i).size.toNat

/-- The last slot of a table begins at a bit address in `T`. -/
def LastSlotFits (c : Config r) (byteOffset size : Nat) : Prop :=
  size ≠ 0 → 8 * byteOffset + (size - 1) * c.bitsPerBucket + c.k * (c.associativity - 1) < 2 ^ r.bits

instance (c : Config r) (byteOffset size : Nat) : Decidable (LastSlotFits c byteOffset size) :=
  inferInstanceAs (Decidable (_ → _))

theorem LastSlotFits.lt {byteOffset size a j : Nat} (h : LastSlotFits c byteOffset size) (ha : a < size)
    (hj : j < c.associativity) : 8 * byteOffset + a * c.bitsPerBucket + c.k * j < 2 ^ r.bits := by
  refine Nat.lt_of_le_of_lt ?_ (h (Nat.ne_of_gt (Nat.zero_lt_of_lt ha)))
  have hbucket := Nat.mul_le_mul_right c.bitsPerBucket (Nat.le_sub_one_of_lt ha)
  have hslot := Nat.mul_le_mul_left c.k (Nat.le_sub_one_of_lt hj)
  omega

/-- Nothing wraps: neither a region in `size_t`, nor the bytes of all regions in `T`, nor the bit
address of a slot where it is computed in `T`, as vectors with several lanes always do. -/
structure Fits (c : Config r) (x : CuckooContainer r) (avx : Bool) (n : Nat) : Prop where
  region : ∀ i < n, (x.entries i).size.toNat * c.bitsPerBucket + r.bits ≤ 2 ^ 64
  total : start c x n < 2 ^ r.bits
  bits : avx = true ∨ c.optimalFingerprintSize = false →
    ∀ i < n, LastSlotFits c (start c x i) (x.entries i).size.toNat

theorem alignNumber_spec {v a : Nat} (ha : 0 < a) (h : v + a ≤ 2 ^ 64) :
    v ≤ alignNumber v a ∧ a ∣ alignNumber v a := by
  have hdm := Nat.div_add_mod (v + a - 1) a
  have hlt := Nat.mod_lt (v + a - 1) ha
  have hcomm := Nat.mul_comm ((v + a - 1) / a) a
  have heq : alignNumber v a = (v + a - 1) / a * a := by
    rw [alignNumber, Nat.mod_eq_of_lt (show v + a - 1 < 2 ^ 64 by omega), Nat.mod_eq_of_lt (by omega)]
  rw [heq]
  exact ⟨by omega, Nat.dvd_mul_left _ _⟩

theorem bits_dvd (r : RegisterSize) : ∃ d, r.bits = 8 * d := by
  cases r
  · exact ⟨4, rfl⟩
  · exact ⟨8, rfl⟩

theorem regionBytes_spec {size : Nat} (h : size * c.bitsPerBucket + r.bits ≤ 2 ^ 64) :
    size * c.bitsPerBucket ≤ 8 * regionBytes c size ∧ r.bits ∣ 8 * regionBytes c size := by
  have hw := r.bits_pos
  obtain ⟨d, hd⟩ := bits_dvd r
  obtain ⟨hle, hdvd⟩ := alignNumber_spec hw h
  have h8 : 8 * (r.bits / 8) = r.bits := by omega
  have h8' : 8 * (alignNumber (size * c.bitsPerBucket) r.bits / 8) = alignNumber (size * c.bitsPerBucket) r.bits :=
    Nat.mul_div_cancel' (Nat.dvd_trans ⟨d, hd⟩ hdvd)
  rw [regionBytes, Nat.mod_eq_of_lt (show size * c.bitsPerBucket < 2 ^ 64 by omega), Nat.mul_add, h8']
  refine ⟨Nat.le_trans hle (Nat.le_add_right _ _), Nat.dvd_add hdvd ?_⟩
  cases c.partitioning with
  | Disabled => exact Nat.dvd_zero _
  | Enabled =>
    simp only
    by_cases ho : c.optimalFingerprintSize
    · rw [if_pos ho]
      exact Nat.dvd_zero _
    · rw [if_neg ho, h8]

theorem start_le_of_le {i j : Nat} (h : i ≤ j) : start c x i ≤ start c x j := by
  induction h with
  | refl => exact Nat.le_refl _
  | step _ ih => exact Nat.le_trans ih (Nat.le_add_right _ _)

theorem lastOffset_eq {entries : Nat → AddresserEntry r} (he : x.entries = entries) {i : Nat}
    (h : start c x i < 2 ^ r.bits) : (lastOffset c entries i).toNat = start c x i := by
  subst he
  induction i with
  | zero => exact BitVec.toNat_zero
  | succ i ih =>
    rw [start] at h
    rw [lastOffset, BitVec.toNat_add, ih (by omega), BitVec.toNat_ofNat, Nat.add_mod_mod, Nat.mod_eq_of_lt h, start]

namespace Fits
variable {avx : Bool} {s nPartitions : Nat} {histogram : Nat → r.T}

theorem offset_eq (hx : x = new c s nPartitions histogram) (hf : Fits c x avx n) {i : Nat} (hi : i < n)
    (hn : n ≤ c.nParts nPartitions) : (c.offset x i).toNat = start c x i := by
  have hlt : start c x i < 2 ^ r.bits := Nat.lt_of_le_of_lt (start_le_of_le (Nat.le_of_lt hi)) hf.total
  cases hp : c.partitioning with
  | Enabled =>
    rw [Config.offset, hp]
    subst hx
    exact lastOffset_eq rfl hlt
  | Disabled =>
    rw [Config.nParts, hp] at hn
    have hi0 : i = 0 := by simp only at hn; omega
    rw [Config.offset, hp, hi0]
    exact BitVec.toNat_zero

theorem dvd_start (hf : Fits c x avx n) {i : Nat} (hi : i ≤ n) : r.bits ∣ 8 * start c x i := by
  induction i with
  | zero => exact Nat.dvd_zero _
  | succ i ih =>
    rw [start, Nat.mul_add]
    exact Nat.dvd_add (ih (by omega)) (regionBytes_spec (hf.region i hi)).2

end Fits

/-! ## Slots -/

abbrev Bucket : Type := Nat × Nat

def buckets (x : CuckooContainer r) (n : Nat) : Finset Bucket :=
  (Finset.range n ×ˢ Finset.range (2 ^ r.bits)).filter fun p => p.2 < (x.entries p.1).size.toNat

def bucketBit (c : Config r) (x : CuckooContainer r) (p : Bucket) : Nat :=
  8 * (x.filter + (c.offset x p.1).toNat) + p.2 * c.bitsPerBucket

def slot (c : Config r) (x : CuckooContainer r) (m : Mem) (p : Bucket) (j : Nat) : BitVec c.k :=
  m.load (bucketBit c x p + c.k * j) c.k

/-- The fingerprints of a bucket; 0 is an empty slot. -/
def content (c : Config r) (x : CuckooContainer r) (m : Mem) (p : Bucket) : Multiset (BitVec c.k) :=
  ((Multiset.range c.associativity).map (slot c x m p)).filter (· ≠ 0)

def alt (c : Config r) (x : CuckooContainer r) (p : Bucket) (f : BitVec c.k) : Bucket :=
  (p.1, ((x.entries p.1).computeAlternativeAddress c.mode (BitVec.ofNat r.bits p.2) (f.setWidth r.bits)).toNat)

theorem mem_buckets {p : Bucket} : p ∈ buckets x n ↔ p.1 < n ∧ p.2 < (x.entries p.1).size.toNat := by
  rw [buckets, Finset.mem_filter, Finset.mem_product, Finset.mem_range, Finset.mem_range]
  constructor
  · exact fun h => ⟨h.1.1, h.2⟩
  · exact fun h => ⟨⟨h.1, Nat.lt_trans h.2 (x.entries p.1).size.isLt⟩, h.2⟩

section
variable {index : Nat} (he : ∃ h, x.entries index = AddresserEntry.new c.mode h)
include he

theorem alt_mem_of_entries (hm : c.mode ≠ .Morton) (hi : index < n) {address : r.T}
    (ha : address.toNat < (x.entries index).size.toNat) (f : BitVec c.k) :
    alt c x (index, address.toNat) f ∈ buckets x n ∧
      alt c x (alt c x (index, address.toNat) f) f = (index, address.toNat) := by
  obtain ⟨h, he⟩ := he
  have hsize : (AddresserEntry.new c.mode h).size ≠ 0 := by
    intro h0
    rw [he, h0] at ha
    simp at ha
  rw [he] at ha
  obtain ⟨h1, h2⟩ := AddresserEntry.computeAlternativeAddress_spec hm h hsize ha (f.setWidth r.bits)
  simp only [alt, BitVec.ofNat_toNat, BitVec.setWidth_eq, he]
  exact ⟨mem_buckets.mpr ⟨hi, by rw [he]; exact h1⟩, by rw [h2]⟩

theorem address1_lt (hsize : (x.entries index).size ≠ 0) (hash : r.T) :
    (c.address1 x index hash).toNat < (x.entries index).size.toNat := by
  obtain ⟨h, he⟩ := he
  rw [he] at hsize ⊢
  rw [Config.address1, he]
  exact AddresserEntry.computeAddress_lt c.mode h hsize
    (by rw [toNat_extractAddressBits]; exact Nat.mod_lt _ (by decide))

end

/-- What the accesses rely on, whichever constructor made the container. -/
structure Layout (c : Config r) (x : CuckooContainer r) (n : Nat) : Prop where
  pos : 0 < c.k
  assoc : 0 < c.associativity
  width : c.bitsPerBucket ≤ r.bits
  mode : c.mode ≠ .Morton
  entries : ∀ i < n, ∃ h, x.entries i = AddresserEntry.new c.mode h
  region : ∀ i < n, (x.entries i).size.toNat * c.bitsPerBucket < 2 ^ 64
  reach : c.optimalFingerprintSize = false → ∀ i < n, LastSlotFits c (c.offset x i).toNat (x.entries i).size.toNat
  aligned : ∀ i < n, r.bits ∣ 8 * (c.offset x i).toNat
  apart : ∀ i j, i < j → j < n →
    8 * (c.offset x i).toNat + (x.entries i).size.toNat * c.bitsPerBucket ≤ 8 * (c.offset x j).toNat

namespace Layout

theorem new {s nPartitions : Nat} {histogram : Nat → r.T} (hk : 0 < c.k) (ha : 0 < c.associativity)
    (hb : c.k * c.associativity ≤ r.bits) (hm : c.mode ≠ .Morton)
    (hf : Fits c (Standard.new c s nPartitions histogram) false (c.nParts nPartitions)) :
    Layout c (Standard.new c s nPartitions histogram) (c.nParts nPartitions) where
  pos := hk
  assoc := ha
  width := hb
  mode := hm
  entries := fun _ _ => ⟨_, rfl⟩
  region := fun i hi => by
    have := hf.region i hi
    have := r.bits_pos
    omega
  reach := fun hc i hi => by
    rw [hf.offset_eq rfl hi (Nat.le_refl _)]
    exact hf.bits (.inr hc) i hi
  aligned := fun i hi => by
    rw [hf.offset_eq rfl hi (Nat.le_refl _)]
    exact hf.dvd_start (Nat.le_of_lt hi)
  apart := fun i j hij hj => by
    have hi := Nat.lt_trans hij hj
    rw [hf.offset_eq rfl hi (Nat.le_refl _), hf.offset_eq rfl hj (Nat.le_refl _)]
    have h1 := (regionBytes_spec (hf.region i hi)).1
    have h2 := start_le_of_le (c := c) (x := Standard.new c s nPartitions histogram) hij
    rw [start] at h2
    omega

variable (hl : Layout c x n)
include hl

theorem k_le : c.k ≤ r.bits := Nat.le_trans (Nat.le_mul_of_pos_right _ hl.assoc) hl.width

omit hl in
theorem slot_le {j : Nat} (hj : j < c.associativity) : c.k * j + c.k ≤ c.bitsPerBucket := by
  rw [← Nat.mul_succ]
  exact Nat.mul_le_mul_left _ hj

theorem bucket_apart {p q : Bucket} (hp : p ∈ buckets x n) (hq : q ∈ buckets x n) (hne : p ≠ q) :
    bucketBit c x p + c.bitsPerBucket ≤ bucketBit c x q ∨ bucketBit c x q + c.bitsPerBucket ≤ bucketBit c x p := by
  obtain ⟨i, a⟩ := p
  obtain ⟨j, b⟩ := q
  obtain ⟨hi, ha⟩ := mem_buckets.mp hp
  obtain ⟨hj, hb⟩ := mem_buckets.mp hq
  simp only [bucketBit] at hi ha hj hb ⊢
  have hend : ∀ {y s : Nat}, y < s → y * c.bitsPerBucket + c.bitsPerBucket ≤ s * c.bitsPerBucket := fun h => by
    rw [← Nat.succ_mul]
    exact Nat.mul_le_mul_right _ h
  rcases Nat.lt_trichotomy i j with hij | rfl | hij
  · have h1 := hl.apart i j hij hj
    have h2 := hend ha
    omega
  · rcases Nat.lt_trichotomy a b with hab | rfl | hab
    · have := hend hab
      omega
    · exact absurd rfl hne
    · have := hend hab
      omega
  · have h1 := hl.apart j i hij hi
    have h2 := hend hb
    omega

/-! ## Addresses -/

variable {index : Nat} {address : r.T} (hi : index < n) (ha : address.toNat < (x.entries index).size.toNat)
include hi ha

omit hl in
theorem mem : (index, address.toNat) ∈ buckets x n := mem_buckets.mpr ⟨hi, ha⟩

theorem alt_mem (f : BitVec c.k) :
    alt c x (index, address.toNat) f ∈ buckets x n ∧
      alt c x (alt c x (index, address.toNat) f) f = (index, address.toNat) :=
  alt_mem_of_entries (hl.entries index hi) hl.mode hi ha f

omit hl hi in
theorem end_le :
    address.toNat * c.bitsPerBucket + c.bitsPerBucket ≤ (x.entries index).size.toNat * c.bitsPerBucket := by
  rw [← Nat.succ_mul]
  exact Nat.mul_le_mul_right _ ha

theorem bucketByte_eq (hc : c.optimalFingerprintSize = true) :
    8 * bucketByte c x (c.offset x index) address = bucketBit c x (index, address.toNat) := by
  have hend := end_le (c := c) ha
  have hreg := hl.region index hi
  have hdvd : 8 ∣ address.toNat * c.bitsPerBucket := by
    have h8 : 8 ∣ c.k := by
      simp only [Config.optimalFingerprintSize, Bool.or_eq_true, beq_iff_eq] at hc
      rcases hc with (h | h) | h <;> rw [h] <;> decide
    exact Nat.dvd_mul_left_of_dvd (Nat.dvd_mul_right_of_dvd h8 _) _
  rw [bucketByte, bucketBit, Nat.mod_eq_of_lt (by have := hl.pos; have := hl.assoc; omega), Nat.mul_add,
    Nat.mul_div_cancel' hdvd]

theorem bitAddress_eq (hc : c.optimalFingerprintSize = false) :
    8 * x.filter + (bitAddress c (c.offset x index) address).toNat = bucketBit c x (index, address.toNat) := by
  have hr := (hl.reach hc index hi).lt ha hl.assoc
  have hb : c.bitsPerBucket % 2 ^ r.bits = c.bitsPerBucket :=
    Nat.mod_eq_of_lt (Nat.lt_of_le_of_lt hl.width Nat.lt_two_pow_self)
  rw [bitAddress, BitVec.toNat_add, BitVec.toNat_mul, BitVec.toNat_ofNat, hb, BitVec.toNat_shiftLeft,
    Nat.shiftLeft_eq, ← Nat.add_mod, Nat.mod_eq_of_lt (by omega), bucketBit]
  simp only
  omega

theorem dvd_bitAddress (hc : c.optimalFingerprintSize = false) (hp : isPowerOfTwo c.bitsPerBucket = true) :
    c.bitsPerBucket ∣ (bitAddress c (c.offset x index) address).toNat := by
  have h := hl.bitAddress_eq hi ha hc
  rw [bucketBit] at h
  obtain ⟨a, ha⟩ := isPowerOfTwo_iff.mp hp
  obtain ⟨b, hb⟩ := bits_eq_two_pow r
  have hdvd : c.bitsPerBucket ∣ r.bits := by
    have hw := hl.width
    rw [ha, hb] at hw ⊢
    exact Nat.pow_dvd_pow 2 ((Nat.pow_le_pow_iff_right (by decide)).mp hw)
  have h' : (bitAddress c (c.offset x index) address).toNat =
      8 * (c.offset x index).toNat + address.toNat * c.bitsPerBucket := by
    simp only at h
    omega
  rw [h']
  exact Nat.dvd_add (Nat.dvd_trans hdvd (hl.aligned index hi)) (Nat.dvd_mul_left _ _)

/-! ## The accesses -/

theorem lane_loadBucket (m : Mem) {j : Nat} (hj : j < c.associativity) :
    lane c.k (loadBucket c x (c.offset x index) address m) j = slot c x m (index, address.toNat) j := by
  have hslot := slot_le hj
  have hw := hl.width
  refine BitVec.eq_of_getLsbD_eq fun i hik => ?_
  rw [getLsbD_lane, slot, Mem.getLsbD_load, loadBucket]
  split
  · rename_i hc
    rw [hl.bucketByte_eq hi ha hc, Mem.getLsbD_load]
    simp [hik, show c.k * j + i < r.bits by omega, Nat.add_assoc]
  · rename_i hc
    rw [Bool.not_eq_true] at hc
    rw [gatheruBits_eq hl.width _ _ _ _ fun _ => hl.dvd_bitAddress hi ha hc, hl.bitAddress_eq hi ha hc,
      BitVec.getLsbD_setWidth, Mem.getLsbD_load]
    simp [hik, show c.k * j + i < r.bits by omega, show c.k * j + i < c.bitsPerBucket by omega, Nat.add_assoc]

theorem bucketContains_iff (m : Mem) {f : r.T} (hf : f.toNat < 2 ^ c.k) :
    bucketContains c x (c.offset x index) f address m = true ↔
      ∃ j < c.associativity, slot c x m (index, address.toNat) j = f.setWidth c.k := by
  rw [bucketContains, bne_iff_ne, hasValue_ne_zero_iff hl.pos hl.width _ hf]
  constructor
  · rintro ⟨j, hj, h⟩
    exact ⟨j, hj, by rw [← hl.lane_loadBucket hi ha m hj]; exact h⟩
  · rintro ⟨j, hj, h⟩
    exact ⟨j, hj, by rw [hl.lane_loadBucket hi ha m hj]; exact h⟩

/-- An insertion fills the first empty slot, or there is none. -/
theorem bucketInsert_spec (m : Mem) {f : r.T} (hf : f.toNat < 2 ^ c.k) :
    (bucketInsert c x (c.offset x index) f address m = none ∧
        ∀ j < c.associativity, slot c x m (index, address.toNat) j ≠ 0) ∨
      ∃ j < c.associativity, slot c x m (index, address.toNat) j = 0 ∧
      (∀ i < j, slot c x m (index, address.toNat) i ≠ 0) ∧
        bucketInsert c x (c.offset x index) f address m =
          some (m.store (bucketBit c x (index, address.toNat) + c.k * j) (f.setWidth c.k)) := by
  have hw := hl.width
  simp only [bucketInsert]
  by_cases hz : hasZero c.k c.associativity (loadBucket c x (c.offset x index) address m) = 0
  · rw [if_pos hz]
    refine .inl ⟨rfl, fun j hj h0 => ?_⟩
    exact (hasZero_eq_zero_iff hl.pos hl.width _).mp hz j hj (by rw [hl.lane_loadBucket hi ha m hj]; exact h0)
  · rw [if_neg hz]
    obtain ⟨j, hj, htz, hlane, hfirst⟩ := tzcount_hasZero hl.pos hl.width hz
    have hslot := slot_le hj
    rw [htz]
    refine .inr ⟨j, hj, by rw [← hl.lane_loadBucket hi ha m hj]; exact hlane, fun i hij => ?_, ?_⟩
    · rw [← hl.lane_loadBucket hi ha m (Nat.lt_trans hij hj)]
      exact hfirst i hij
    split
    · rename_i hc
      rw [hl.bucketByte_eq hi ha hc, Nat.mul_div_cancel_left _ hl.pos, Nat.mul_comm j]
    · rename_i hc
      rw [Bool.not_eq_true] at hc
      rw [scatteruBits_eq hl.width _ _ _ _ _ fun _ => hl.dvd_bitAddress hi ha hc, hl.bitAddress_eq hi ha hc]
      have hload : ∀ i < c.bitsPerBucket, (loadBucket c x (c.offset x index) address m).getLsbD i =
          m.bit (bucketBit c x (index, address.toNat) + i) := by
        intro i hib
        rw [loadBucket, hc, if_neg (by decide), gatheruBits_eq hl.width _ _ _ _ fun _ => hl.dvd_bitAddress hi ha hc,
          hl.bitAddress_eq hi ha hc, BitVec.getLsbD_setWidth, Mem.getLsbD_load]
        simp [hib, show i < r.bits by omega]
      rw [store_or hw hslot hload hlane hf]

theorem evictVictim_spec (m : Mem) (f : r.T) {j : Nat} (hj : j < c.associativity) :
    evictVictim c x index j address f (c.offset x index) m =
      ⟨(x.entries index).computeAlternativeAddress c.mode address
          ((slot c x m (index, address.toNat) j).setWidth r.bits),
        (slot c x m (index, address.toNat) j).setWidth r.bits,
        m.store (bucketBit c x (index, address.toNat) + c.k * j) (f.setWidth c.k)⟩ := by
  have hslot := slot_le hj
  simp only [evictVictim, slot]
  by_cases hc : c.optimalFingerprintSize = true
  · rw [if_pos hc, if_pos hc, hl.bucketByte_eq hi ha hc, Nat.mul_comm j]
  · rw [if_neg hc, if_neg hc]
    rw [Bool.not_eq_true] at hc
    have hr := (hl.reach hc index hi).lt ha hj
    have hadd := hl.bitAddress_eq hi ha hc
    have hkj : c.k * j < 2 ^ r.bits :=
      Nat.lt_of_lt_of_le (by have := hl.pos; omega) (Nat.le_trans hl.width (Nat.le_of_lt Nat.lt_two_pow_self))
    have hprod : (BitVec.ofNat r.bits j * BitVec.ofNat r.bits c.k).toNat = c.k * j := by
      rw [BitVec.toNat_mul, BitVec.toNat_ofNat, BitVec.toNat_ofNat, ← Nat.mul_mod, Nat.mul_comm,
        Nat.mod_eq_of_lt hkj]
    have hbit : 8 * x.filter + ((c.offset x index) <<< 3 + address * BitVec.ofNat r.bits c.bitsPerBucket +
        BitVec.ofNat r.bits j * BitVec.ofNat r.bits c.k).toNat =
          bucketBit c x (index, address.toNat) + c.k * j := by
      rw [BitVec.add_comm (c.offset x index <<< 3), ← bitAddress, BitVec.toNat_add, hprod, Nat.mod_eq_of_lt,
        ← Nat.add_assoc, hadd]
      rw [bucketBit] at hadd
      simp only at hadd
      omega
    rw [gatheruBits_eq hl.k_le _ _ _ _ (fun h => absurd h (by decide)),
      scatteruBits_eq hl.k_le _ _ _ _ _ (fun h => absurd h (by decide)), hbit]

end Layout

/-! ## Contents -/

theorem slot_store_self (m : Mem) (p : Bucket) {i j : Nat} (v : BitVec c.k) :
    slot c x (m.store (bucketBit c x p + c.k * j) v) p i = if i = j then v else slot c x m p i := by
  simp only [slot]
  split
  · rename_i h
    rw [h, Mem.load_store]
  · rename_i hne
    refine Mem.load_store_of_disjoint m v ?_
    rcases Nat.lt_or_gt_of_ne hne with h | h
    · have := Nat.mul_le_mul_left c.k h
      rw [Nat.mul_succ] at this
      omega
    · have := Nat.mul_le_mul_left c.k h
      rw [Nat.mul_succ] at this
      omega

section
variable (hl : Layout c x n) {p : Bucket} (hp : p ∈ buckets x n) {j : Nat} (hj : j < c.associativity) (m : Mem)
  {v : BitVec c.k}

include hl hp hj in
theorem content_store_ne {q : Bucket} (hq : q ∈ buckets x n) (hne : q ≠ p) :
    content c x (m.store (bucketBit c x p + c.k * j) v) q = content c x m q := by
  have hslot := Layout.slot_le hj
  unfold content
  refine congrArg _ (Multiset.map_congr rfl fun i hi => ?_)
  have hslot' := Layout.slot_le (Multiset.mem_range.mp hi)
  refine Mem.load_store_of_disjoint m v ?_
  have := hl.bucket_apart hp hq (Ne.symm hne)
  omega

include hj in
theorem content_fill (hv : v ≠ 0) (h0 : slot c x m p j = 0) :
    content c x (m.store (bucketBit c x p + c.k * j) v) p = v ::ₘ content c x m p := by
  have h := BucketArray.cons_map_range hj (f := slot c x m p)
    (g := slot c x (m.store (bucketBit c x p + c.k * j) v) p) fun i _ hne => by
      rw [slot_store_self, if_neg hne]
  have h' := congrArg (Multiset.filter (· ≠ 0)) h
  rw [slot_store_self, if_pos rfl, Multiset.filter_cons_of_neg (p := (· ≠ 0)) _ (by simpa using h0),
    Multiset.filter_cons_of_pos (p := (· ≠ 0)) _ hv] at h'
  exact h'

include hj in
theorem content_exchange (hv : v ≠ 0) (h0 : slot c x m p j ≠ 0) :
    slot c x m p j ::ₘ content c x (m.store (bucketBit c x p + c.k * j) v) p = v ::ₘ content c x m p := by
  have h := BucketArray.cons_map_range hj (f := slot c x m p)
    (g := slot c x (m.store (bucketBit c x p + c.k * j) v) p) fun i _ hne => by
      rw [slot_store_self, if_neg hne]
  have h' := congrArg (Multiset.filter (· ≠ 0)) h
  rw [slot_store_self, if_pos rfl, Multiset.filter_cons_of_pos (p := (· ≠ 0)) _ h0,
    Multiset.filter_cons_of_pos (p := (· ≠ 0)) _ hv] at h'
  exact h'

end

/-! ## Insertions -/

def stored (c : Config r) (x : CuckooContainer r) (n : Nat) (m : Mem) : Multiset (BitVec c.k × Sym2 Bucket) :=
  Relocation.entries (alt c x) (buckets x n) (content c x m)

def keyEntry (c : Config r) (x : CuckooContainer r) (value : r.T) (index : Nat) : BitVec c.k × Sym2 Bucket :=
  Relocation.entry (alt c x) (index, (c.address1 x index (c.hash value)).toNat)
    ((c.cuckooFingerprint (c.hash value)).setWidth c.k)

/-- The entries after a call, by its result: all of them, or all but one. -/
def Accounts {α : Type*} (total after : Multiset α) : Bool → Prop
  | true => after = total
  | false => ∃ lost, lost ::ₘ after = total

/-- No bit outside the region of the partition changes. -/
def Frame (c : Config r) (x : CuckooContainer r) (index : Nat) (m m' : Mem) : Prop :=
  ∀ q, q < bucketBit c x (index, 0) ∨ bucketBit c x (index, (x.entries index).size.toNat) ≤ q → m'.bit q = m.bit q

theorem setWidth_setWidth {k : Nat} {f : r.T} (hf : f.toNat < 2 ^ k) : (f.setWidth k).setWidth r.bits = f := by
  refine BitVec.eq_of_toNat_eq ?_
  rw [BitVec.toNat_setWidth, BitVec.toNat_setWidth, Nat.mod_eq_of_lt hf, Nat.mod_eq_of_lt f.isLt]

section
variable (hl : Layout c x n) {index : Nat} (hi : index < n)

theorem frame_store {address : r.T} (ha : address.toNat < (x.entries index).size.toNat) {j : Nat}
    (hj : j < c.associativity) (m : Mem) (v : BitVec c.k) :
    Frame c x index m (m.store (bucketBit c x (index, address.toNat) + c.k * j) v) := by
  intro q hq
  have hslot := Layout.slot_le hj
  have hend := Layout.end_le (c := c) ha
  simp only [bucketBit] at hq ⊢
  exact Mem.store_of_notMem m v (by omega)

/-- The fingerprint on its way, with which the entries are `total`. -/
structure Carried (c : Config r) (x : CuckooContainer r) (n index : Nat)
    (total : Multiset (BitVec c.k × Sym2 Bucket)) (v : Victim r) : Prop where
  ne_zero : v.fingerprint ≠ 0
  lt : v.fingerprint.toNat < 2 ^ c.k
  address_lt : v.address.toNat < (x.entries index).size.toNat
  carries : Relocation.Carries (alt c x) (buckets x n) total (content c x v.mem) (index, v.address.toNat)
    (v.fingerprint.setWidth c.k)

variable {total : Multiset (BitVec c.k × Sym2 Bucket)} {v : Victim r}

theorem Carried.setWidth_ne_zero (hv : Carried c x n index total v) : v.fingerprint.setWidth c.k ≠ 0 :=
  fun h => hv.ne_zero (by rw [← setWidth_setWidth hv.lt, h]; simp)

include hl hi

/-- The insertion into the bucket that the fingerprint is on its way to. -/
theorem Carried.bucketInsert (hv : Carried c x n index total v) :
    (bucketInsert c x (c.offset x index) v.fingerprint v.address v.mem = none ∧
        ∀ j < c.associativity, slot c x v.mem (index, v.address.toNat) j ≠ 0) ∨
      ∃ m, bucketInsert c x (c.offset x index) v.fingerprint v.address v.mem = some m ∧ stored c x n m = total ∧
        Frame c x index v.mem m := by
  rcases hl.bucketInsert_spec hi hv.address_lt v.mem hv.lt with hnone | ⟨j, hj, hzero, -, hsome⟩
  · exact .inl hnone
  · have hmem := Layout.mem hi hv.address_lt
    refine .inr ⟨_, hsome, ?_, frame_store hv.address_lt hj _ _⟩
    exact hv.carries.place (content_fill hj v.mem hv.setWidth_ne_zero hzero) fun q hq hne =>
      content_store_ne hl hmem hj v.mem hq hne

theorem Carried.evictVictim (hv : Carried c x n index total v)
    (hfull : ∀ j < c.associativity, slot c x v.mem (index, v.address.toNat) j ≠ 0) {j : Nat}
    (hj : j < c.associativity) :
    Carried c x n index total (evictVictim c x index j v.address v.fingerprint (c.offset x index) v.mem) ∧
      Frame c x index v.mem
        (Standard.evictVictim c x index j v.address v.fingerprint (c.offset x index) v.mem).mem := by
  have hmem := Layout.mem hi hv.address_lt
  obtain ⟨hdom, hinv⟩ := hl.alt_mem hi hv.address_lt (slot c x v.mem (index, v.address.toNat) j)
  have hswap := hv.carries.swap (content_exchange hj v.mem hv.setWidth_ne_zero (hfull j hj))
    (fun q hq hne => content_store_ne hl hmem hj v.mem hq hne) hdom hinv
  have hslot : ((slot c x v.mem (index, v.address.toNat) j).setWidth r.bits).setWidth c.k =
      slot c x v.mem (index, v.address.toNat) j := by
    rw [BitVec.setWidth_setWidth_of_le _ hl.k_le, BitVec.setWidth_eq]
  simp only [alt, BitVec.ofNat_toNat, BitVec.setWidth_eq] at hswap hdom
  rw [hl.evictVictim_spec hi hv.address_lt v.mem v.fingerprint hj]
  refine ⟨⟨fun h => hfull j hj (hslot.symm.trans ((congrArg (BitVec.setWidth c.k) h).trans (by simp))), ?_,
    (mem_buckets.mp hdom).2, by simpa only [hslot] using hswap⟩,
    frame_store hv.address_lt hj _ _⟩
  rw [BitVec.toNat_setWidth]
  exact Nat.lt_of_le_of_lt (Nat.mod_le _ _) (BitVec.isLt _)

/-- The loop: the carried fingerprint is placed, or one is left over. -/
theorem Carried.insertLoop {random : Nat → Nat} (hrandom : ∀ i, random i < c.associativity) (fuel : Nat) :
    ∀ (i : Nat) (v : Victim r), Carried c x n index total v →
      Accounts total (stored c x n (insertLoop c x index (c.offset x index) random fuel i v).2)
          (Standard.insertLoop c x index (c.offset x index) random fuel i v).1 ∧
        Frame c x index v.mem (Standard.insertLoop c x index (c.offset x index) random fuel i v).2 := by
  induction fuel with
  | zero => exact fun i v hv => ⟨⟨_, hv.carries.entries_eq⟩, fun _ _ => rfl⟩
  | succ fuel ih =>
    intro i v hv
    rw [Standard.insertLoop]
    rcases hv.bucketInsert hl hi with ⟨hnone, hfull⟩ | ⟨m, hsome, hstored, hframe⟩
    · obtain ⟨hv', hframe⟩ := hv.evictVictim hl hi hfull (hrandom i)
      obtain ⟨h1, h2⟩ := ih (i + 1) _ hv'
      rw [hnone]
      exact ⟨h1, fun q hq => by rw [h2 q hq, hframe q hq]⟩
    · rw [hsome]
      exact ⟨hstored, hframe⟩

theorem insert_spec (hsize : (x.entries index).size ≠ 0) {random : Nat → Nat}
    (hrandom : ∀ i, random i < c.associativity) (value : r.T) (m : Mem) :
    Accounts (keyEntry c x value index ::ₘ stored c x n m) (stored c x n (insert c x value index random m).2)
        (insert c x value index random m).1 ∧
      Frame c x index m (insert c x value index random m).2 := by
  obtain ⟨h0, hlt⟩ := cuckooFingerprint_spec hl.pos hl.k_le (c.hash value)
  have haddr := address1_lt (hl.entries index hi) hsize (c.hash value)
  have hv : Carried c x n index (keyEntry c x value index ::ₘ stored c x n m)
      ⟨c.address1 x index (c.hash value), c.cuckooFingerprint (c.hash value), m⟩ :=
    ⟨h0, hlt, haddr, Layout.mem hi haddr, rfl⟩
  rw [insert, insertHash]
  rcases hv.bucketInsert hl hi with ⟨hnone, hfull⟩ | ⟨m', hsome, hstored, hframe⟩
  · obtain ⟨hdom, hinv⟩ := hl.alt_mem hi haddr ((c.cuckooFingerprint (c.hash value)).setWidth c.k)
    have halt := hv.carries.alternate hdom hinv
    simp only [alt, setWidth_setWidth hlt, BitVec.ofNat_toNat, BitVec.setWidth_eq] at hdom halt
    simp only [hnone]
    exact Carried.insertLoop hl hi hrandom maxIteration 0 _ ⟨h0, hlt, (mem_buckets.mp hdom).2, halt⟩
  · simp only [hsome]
    exact ⟨hstored, hframe⟩

end

theorem contains_of_mem (hl : Layout c x n) {index : Nat} (hi : index < n) (hsize : (x.entries index).size ≠ 0)
    {value : r.T} {m : Mem} (h : keyEntry c x value index ∈ stored c x n m) :
    contains c x value index m = true := by
  obtain ⟨-, hlt⟩ := cuckooFingerprint_spec hl.pos hl.k_le (c.hash value)
  have haddr := address1_lt (hl.entries index hi) hsize (c.hash value)
  have hmem : ∀ p, (c.cuckooFingerprint (c.hash value)).setWidth c.k ∈ content c x m p →
      ∃ j < c.associativity, slot c x m p j = (c.cuckooFingerprint (c.hash value)).setWidth c.k := by
    intro p hp
    obtain ⟨j, hj, he⟩ := Multiset.mem_map.mp (Multiset.mem_of_mem_filter hp)
    exact ⟨j, Multiset.mem_range.mp hj, he⟩
  obtain ⟨hdom, -⟩ := hl.alt_mem hi haddr ((c.cuckooFingerprint (c.hash value)).setWidth c.k)
  have hin := Relocation.mem_or_mem_alt h
  simp only [alt, setWidth_setWidth hlt, BitVec.ofNat_toNat, BitVec.setWidth_eq] at hdom hin
  rw [contains, Bool.or_eq_true]
  rcases hin with hin | hin
  · exact .inl ((hl.bucketContains_iff hi haddr m hlt).mpr (hmem _ hin))
  · exact .inr ((hl.bucketContains_iff hi (mem_buckets.mp hdom).2 m hlt).mpr (hmem _ hin))

/-! ## Runs -/

/-- A call of `insert`, with the victims that `rng` chooses in it. -/
structure Call (r : RegisterSize) where
  value : r.T
  index : Nat
  random : Nat → Nat

namespace Call

def insert (c : Config r) (x : CuckooContainer r) (a : Call r) (m : Mem) : Bool × Mem :=
  Standard.insert c x a.value a.index a.random m

/-- The partition exists and its table is not empty; the victims are slots of a bucket. -/
structure Valid (c : Config r) (x : CuckooContainer r) (n : Nat) (a : Call r) : Prop where
  index_lt : a.index < n
  size : (x.entries a.index).size ≠ 0
  random : ∀ i, a.random i < c.associativity

end Call

/-- A step is a call with its result. -/
def step (c : Config r) (x : CuckooContainer r) (m : Mem) (a : Call r × Bool) : Option Mem :=
  if (a.1.insert c x m).1 = a.2 then some (a.1.insert c x m).2 else none

theorem step_eq_some {m m' : Mem} {a : Call r × Bool} (h : step c x m a = some m') :
    a.1.insert c x m = (a.2, m') := by
  rw [step] at h
  split at h
  · rename_i hb
    exact Prod.ext hb (Option.some.inj h)
  · exact absurd h (by simp)

theorem stored_zero : stored c x n Mem.zero = 0 := by
  refine Multiset.eq_zero_of_forall_notMem fun e he => ?_
  obtain ⟨p, -, f, hf, -⟩ := Relocation.mem_entries.mp he
  obtain ⟨hf, hne⟩ := Multiset.mem_filter.mp hf
  obtain ⟨j, -, rfl⟩ := Multiset.mem_map.mp hf
  refine hne (BitVec.eq_of_getLsbD_eq fun i _ => ?_)
  rw [slot, Mem.getLsbD_load]
  simp [Mem.zero]

/-- Where every call succeeds, the entries are those of the keys. -/
theorem stored_of_run (hl : Layout c x n) {l : List (Call r × Bool)} (hvalid : ∀ a ∈ l, a.1.Valid c x n)
    (hsuccess : ∀ a ∈ l, a.2 = true) {m : Mem} (h : Lts.Run (step c x) Mem.zero l m) :
    stored c x n m = (l.map fun a => keyEntry c x a.1.value a.1.index : List _) := by
  induction h with
  | nil => exact stored_zero
  | @snoc m m' l a _ ha ih =>
    have hv := hvalid a (by simp)
    have hins := (insert_spec hl hv.index_lt hv.size hv.random a.1.value m).1
    rw [← Call.insert, step_eq_some ha, hsuccess a (by simp)] at hins
    rw [show stored c x n m' = _ from hins, ih (fun b hb => hvalid b (by simp [hb])) fun b hb =>
      hsuccess b (by simp [hb]), List.map_append, List.map_singleton, ← Multiset.coe_add, Multiset.coe_singleton,
      ← Multiset.singleton_add, add_comm]

/-- In every run without wrap-around the entries account for the calls, and a run of successful calls
contains its keys. -/
theorem insert_correct {s nPartitions : Nat} {histogram : Nat → r.T} (hk : 0 < c.k) (ha : 0 < c.associativity)
    (hb : c.k * c.associativity ≤ r.bits) (hm : c.mode ≠ .Morton)
    (hf : Fits c (new c s nPartitions histogram) false (c.nParts nPartitions)) {l : List (Call r × Bool)}
    (hvalid : ∀ a ∈ l, a.1.Valid c (new c s nPartitions histogram) (c.nParts nPartitions)) {m : Mem}
    (hrun : Lts.Run (step c (new c s nPartitions histogram)) Mem.zero l m) :
    let x := new c s nPartitions histogram
    let n := c.nParts nPartitions
    (∀ a : Call r, a.Valid c x n →
      (keyEntry c x a.value a.index).1 ≠ 0 ∧
        Accounts (keyEntry c x a.value a.index ::ₘ stored c x n m) (stored c x n (a.insert c x m).2)
          (a.insert c x m).1) ∧
      (∀ e ∈ stored c x n m, e.1 ≠ 0) ∧
      ((∀ a ∈ l, a.2 = true) → ∀ a ∈ l, contains c x a.1.value a.1.index m = true) := by
  intro x n
  have hl : Layout c x n := Layout.new hk ha hb hm hf
  refine ⟨fun a hv => ⟨fun h0 => ?_, (insert_spec hl hv.index_lt hv.size hv.random a.value m).1⟩, ?_, ?_⟩
  · obtain ⟨hne, hlt⟩ := cuckooFingerprint_spec hl.pos hl.k_le (c.hash a.value)
    exact hne
      (by rw [← setWidth_setWidth hlt, show (c.cuckooFingerprint (c.hash a.value)).setWidth c.k = 0 from h0]; simp)
  · intro e he
    obtain ⟨p, -, f, hf, rfl⟩ := Relocation.mem_entries.mp he
    exact (Multiset.mem_filter.mp hf).2
  · intro hsuccess a hal
    have hv := hvalid a hal
    refine contains_of_mem hl hv.index_lt hv.size ?_
    rw [stored_of_run hl hvalid hsuccess hrun, Multiset.mem_coe]
    exact List.mem_map.mpr ⟨a, hal, rfl⟩

def packedConfig : Config ._32bit :=
  { associativity := 1, bucketsPerBlock := 0, otaSize := 0, k := 5, partitioning := .Enabled, mode := .Lemire,
    hash := murmur }

def packedContainer : CuckooContainer ._32bit := new packedConfig 100 2 fun i => BitVec.ofNat 32 (3 + i)

def packedCalls : List (Call ._32bit × Bool) :=
  [(⟨3, 0, fun _ => 0⟩, true), (⟨2, 1, fun _ => 0⟩, true), (⟨0, 0, fun _ => 0⟩, true), (⟨7, 0, fun _ => 0⟩, true)]

def packedMem : Mem := (packedCalls.foldlM (step packedConfig packedContainer) Mem.zero).get (by decide +kernel)

theorem insert_correct_packed : contains packedConfig packedContainer 3 0 packedMem = true := by
  have hf : Fits packedConfig packedContainer false 2 := ⟨by decide +kernel, by decide +kernel, by decide +kernel⟩
  have hvalid : ∀ a ∈ packedCalls, a.1.Valid packedConfig packedContainer 2 := by
    intro a ha
    simp only [packedCalls, List.mem_cons, List.not_mem_nil, or_false] at ha
    rcases ha with rfl | rfl | rfl | rfl <;> exact ⟨by decide, by decide +kernel, fun _ => Nat.one_pos⟩
  have hsuccess : ∀ a ∈ packedCalls, a.2 = true := by decide
  have hrun : Lts.Run (step packedConfig packedContainer) Mem.zero packedCalls packedMem :=
    Lts.Run.of_foldlM (Option.eq_some_of_isSome _)
  have hmem : (⟨3, 0, fun _ => 0⟩, true) ∈ packedCalls := List.mem_cons_self
  have h := (insert_correct (by decide) (by decide) (by decide) (by decide) hf hvalid hrun).2.2 hsuccess _ hmem
  exact h

/-- 20-bit slots in a table of 2^28 buckets, whose bit addresses do not fit into `T`. -/
def wideConfig : Config ._32bit :=
  { associativity := 1, bucketsPerBlock := 0, otaSize := 0, k := 20, partitioning := .Disabled, mode := .Lemire,
    hash := murmur }

def wideContainer : CuckooContainer ._32bit := new wideConfig 100 1 fun _ => BitVec.ofNat 32 (2 ^ 28)

/-- The second key goes to bucket 214748365, bit 2^32 + 4, and is written over the first one in bucket 0. -/
theorem insert_overflow :
    let first := insert wideConfig wideContainer 0 0 (fun _ => 0) Mem.zero
    let second := insert wideConfig wideContainer 2876660549 0 (fun _ => 0) first.2
    (wideContainer.entries 0).size ≠ 0 ∧ first.1 = true ∧ second.1 = true ∧
      contains wideConfig wideContainer 0 0 first.2 = true ∧
      contains wideConfig wideContainer 0 0 second.2 = false := by
  decide +kernel

end Standard

end PartitionedFilters.Cuckoo

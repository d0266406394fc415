import PartitionedFilters.CuckooSimd
import PartitionedFilters.CuckooSound

/-!
# Isolation of the partitions

What an insertion and an eviction write back, and the words that partitions
share: the register between two packed partitions takes the second word of an
access, and byte-sized slots have no such register.
-/

namespace PartitionedFilters.Cuckoo.Standard

variable {r : RegisterSize} (c : Config r) (x : CuckooContainer r)

def slotSpan (byteOffset address : r.T) (j : Nat) : Span :=
  ⟨bucketByte c x byteOffset address + c.k / 8 * j, bucketByte c x byteOffset address + c.k / 8 * (j + 1)⟩

def insertSpans (avx : Bool) (byteOffset address : r.T) : List Span :=
  if !avx && c.optimalFingerprintSize then (List.range c.associativity).map (slotSpan c x byteOffset address)
  else packedSpans r avx true c.bitsPerBucket (bitAddress c byteOffset address).toNat x.filter

def evictSpans (avx : Bool) (byteOffset address : r.T) (randomIndex : Nat) : List Span :=
  if !avx && c.optimalFingerprintSize then [slotSpan c x byteOffset address randomIndex]
  else packedSpans r avx false c.k (Simd.slotAddress c byteOffset address randomIndex).toNat x.filter

def writeSpans (avx : Bool) (p : Bucket) : List Span :=
  insertSpans c x avx (c.offset x p.1) (BitVec.ofNat r.bits p.2) ++
    (List.range c.associativity).flatMap (evictSpans c x avx (c.offset x p.1) (BitVec.ofNat r.bits p.2))

variable {c x}

section
variable {byteOffset address : r.T}

theorem covers_slotSpan (hc : c.optimalFingerprintSize = true) {j q : Nat} :
    (slotSpan c x byteOffset address j).Covers q ↔
      8 * bucketByte c x byteOffset address + j * c.k ≤ q ∧
      q < 8 * bucketByte c x byteOffset address + j * c.k + c.k := by
  have h8 : 8 * (c.k / 8) = c.k := by
    simp only [Config.optimalFingerprintSize, Bool.or_eq_true, beq_iff_eq] at hc
    omega
  unfold Span.Covers slotSpan
  rw [Nat.mul_add, Nat.mul_add, ← Nat.mul_assoc, ← Nat.mul_assoc, h8, Nat.mul_succ, Nat.mul_comm c.k, Nat.add_assoc]

theorem bucketInsert_frame (hk : 0 < c.k) (hw : c.bitsPerBucket ≤ r.bits) {fingerprint : r.T} {m m' : Mem} {q : Nat}
    (h : bucketInsert c x byteOffset fingerprint address m = some m')
    (hq : ∀ s ∈ insertSpans c x false byteOffset address, ¬s.Covers q) : m'.bit q = m.bit q := by
  unfold insertSpans at hq
  simp only [bucketInsert] at h
  split at h
  · cases h
  rename_i hz
  obtain ⟨j, hj, htz, -⟩ := tzcount_hasZero hk hw hz
  by_cases hc : c.optimalFingerprintSize = true
  · have hout := hq _ (by
      rw [if_pos (by simp [hc])]
      exact List.mem_map_of_mem (List.mem_range.mpr hj))
    rw [covers_slotSpan hc] at hout
    rw [if_pos hc, htz, Nat.mul_div_cancel_left _ hk] at h
    obtain rfl := Option.some.inj h
    exact Mem.store_of_notMem _ _ (by omega)
  · rw [if_neg (by simp [hc])] at hq
    rw [if_neg hc] at h
    obtain rfl := Option.some.inj h
    exact scatteruBits_frame hq

theorem evictVictim_frame {index randomIndex : Nat} {fingerprint : r.T} {m : Mem} {q : Nat}
    (hq : ∀ s ∈ evictSpans c x false byteOffset address randomIndex, ¬s.Covers q) :
    (evictVictim c x index randomIndex address fingerprint byteOffset m).mem.bit q = m.bit q := by
  unfold evictSpans at hq
  simp only [evictVictim]
  by_cases hc : c.optimalFingerprintSize = true
  · rw [if_pos (by simp [hc])] at hq
    have hout := hq _ (List.mem_singleton_self _)
    rw [covers_slotSpan hc] at hout
    rw [if_pos hc]
    exact Mem.store_of_notMem _ _ (by omega)
  · rw [if_neg (by simp [hc])] at hq
    rw [if_neg hc]
    exact scatteruBits_frame hq

end

namespace Simd
variable {n : Nat} {address fingerprint byteOffset : Lanes r n} {mask : LaneMask n} {m : Mem} {q : Nat}

theorem bucketInsert_frame
    (hq : ∀ l, mask l = true → ∀ s ∈ insertSpans c x true (byteOffset l) (address l), ¬s.Covers q) :
    (bucketInsert c x fingerprint address byteOffset mask m).2.bit q = m.bit q :=
  Lanes.scatteruBits_frame fun l hl => hq l hl

theorem evictVictim_frame {index randomIndex : Nat}
    (hq : ∀ l, mask l = true → ∀ s ∈ evictSpans c x true (byteOffset l) (address l) randomIndex, ¬s.Covers q) :
    (evictVictim c x index randomIndex address fingerprint byteOffset mask m).2.2.bit q = m.bit q :=
  Lanes.scatteruBits_frame fun l hl => hq l hl

end Simd

/-! ## Bit addresses -/

theorem toNat_bitAddress (hw : c.bitsPerBucket ≤ r.bits) (byteOffset address : r.T) :
    (bitAddress c byteOffset address).toNat =
      (8 * byteOffset.toNat + address.toNat * c.bitsPerBucket) % 2 ^ r.bits := by
  have hb : c.bitsPerBucket % 2 ^ r.bits = c.bitsPerBucket :=
    Nat.mod_eq_of_lt (Nat.lt_of_le_of_lt hw Nat.lt_two_pow_self)
  rw [bitAddress, BitVec.toNat_add, BitVec.toNat_mul, BitVec.toNat_ofNat, hb, BitVec.toNat_shiftLeft,
    Nat.shiftLeft_eq, ← Nat.add_mod, Nat.add_comm, Nat.mul_comm byteOffset.toNat]

theorem toNat_slotAddress (hw : c.bitsPerBucket ≤ r.bits) (byteOffset address : r.T) (j : Nat) :
    (Simd.slotAddress c byteOffset address j).toNat =
      (8 * byteOffset.toNat + address.toNat * c.bitsPerBucket + j * c.k) % 2 ^ r.bits := by
  rw [Simd.slotAddress, BitVec.toNat_add, BitVec.add_comm (byteOffset <<< 3), ← bitAddress, toNat_bitAddress hw,
    BitVec.toNat_mul, BitVec.toNat_ofNat, BitVec.toNat_ofNat, ← Nat.mul_mod, ← Nat.add_mod]

/-! ## Regions -/

/-- What one partition writes back has no bit of a bucket of another one, nor a byte that the other one writes. -/
def Isolated (c : Config r) (x : CuckooContainer r) (avx : Bool) (n : Nat) : Prop :=
  ∀ p ∈ buckets x n, ∀ q ∈ buckets x n, p.1 ≠ q.1 → ∀ s ∈ writeSpans c x avx p,
    (∀ b, bucketBit c x q ≤ b → b < bucketBit c x q + c.bitsPerBucket → ¬s.Covers b) ∧
      ∀ s' ∈ writeSpans c x avx q, ∀ b, s.Covers b → ¬s'.Covers b

theorem eight_regionBytes {size : Nat} (hp : c.partitioning = .Enabled)
    (h : size * c.bitsPerBucket + r.bits ≤ 2 ^ 64) :
    8 * regionBytes c size = (size * c.bitsPerBucket + r.bits - 1) / r.bits * r.bits +
      if c.optimalFingerprintSize then 0 else r.bits := by
  obtain ⟨d, hd⟩ := bits_dvd r
  have hw := r.bits_pos
  have hle := Nat.div_mul_le_self (size * c.bitsPerBucket + r.bits - 1) r.bits
  have hal : alignNumber (size * c.bitsPerBucket) r.bits =
      (size * c.bitsPerBucket + r.bits - 1) / r.bits * r.bits := by
    rw [alignNumber, Nat.mod_eq_of_lt (show size * c.bitsPerBucket + r.bits - 1 < 2 ^ 64 by omega),
      Nat.mod_eq_of_lt (by omega)]
  have h8 : 8 * ((size * c.bitsPerBucket + r.bits - 1) / r.bits * r.bits / 8) =
      (size * c.bitsPerBucket + r.bits - 1) / r.bits * r.bits :=
    Nat.mul_div_cancel' (Nat.dvd_mul_left_of_dvd ⟨d, hd⟩ _)
  rw [regionBytes, Nat.mod_eq_of_lt (show size * c.bitsPerBucket < 2 ^ 64 by omega), hal, hp, Nat.mul_add, h8]
  by_cases hc : c.optimalFingerprintSize
  · simp [hc]
  · simp [hc]
    omega

theorem le_add_div_mul {w : Nat} (hw : 0 < w) (a : Nat) : a ≤ (a + w - 1) / w * w := by
  have h1 := Nat.div_add_mod (a + w - 1) w
  have h2 := Nat.mod_lt (a + w - 1) hw
  rw [Nat.mul_comm] at h1
  omega

theorem exists_next {i j : Nat} (hij : i < j) (hsj : (x.entries j).size.toNat ≠ 0) :
    ∃ j', i < j' ∧ j' ≤ j ∧ (x.entries j').size.toNat ≠ 0 ∧
      ∀ t, i < t → t < j' → (x.entries t).size.toNat = 0 := by
  have hex : ∃ j', i < j' ∧ (x.entries j').size.toNat ≠ 0 := ⟨j, hij, hsj⟩
  obtain ⟨hij', hsj'⟩ := Nat.find_spec hex
  refine ⟨Nat.find hex, hij', Nat.find_le ⟨hij, hsj⟩, hsj', fun t hit ht => ?_⟩
  exact Decidable.not_not.mp fun h0 => Nat.find_min hex ht ⟨hit, h0⟩

section
variable {avx : Bool} {s nPartitions n : Nat} {histogram : Nat → r.T}
  (hk : 0 < c.k) (ha : 0 < c.associativity) (hb : c.k * c.associativity ≤ r.bits)
  (hx : x = new c s nPartitions histogram) (hn : n = c.nParts nPartitions) (hf : Fits c x avx n)
include hk ha hb hx hn hf

omit hk ha hb in
theorem bucket_within {p : Bucket} (hmem : p ∈ buckets x n) :
    (c.offset x p.1).toNat = start c x p.1 ∧ (BitVec.ofNat r.bits p.2).toNat = p.2 ∧
      p.2 * c.bitsPerBucket + c.bitsPerBucket ≤ (x.entries p.1).size.toNat * c.bitsPerBucket := by
  obtain ⟨hi, hlt⟩ := mem_buckets.mp hmem
  refine ⟨hf.offset_eq hx hi (Nat.le_of_eq hn), ?_, ?_⟩
  · rw [BitVec.toNat_ofNat, Nat.mod_eq_of_lt (Nat.lt_trans hlt (x.entries p.1).size.isLt)]
  · rw [← Nat.succ_mul]
    exact Nat.mul_le_mul_right _ hlt

omit hk ha hb in
theorem writeSpans_within_bytes (hp : c.partitioning = .Enabled) (havx : avx = false)
    (hopt : c.optimalFingerprintSize = true) {p : Bucket} (hmem : p ∈ buckets x n) {s : Span}
    (hs : s ∈ writeSpans c x avx p) : start c x p.1 ≤ s.first ∧ s.stop ≤ start c x (p.1 + 1) := by
  obtain ⟨hoffset, haddr, hend⟩ := bucket_within hx hn hf hmem
  have hfilter : x.filter = 0 := by rw [hx]; rfl
  have hw := r.bits_pos
  have hreg := hf.region p.1 (mem_buckets.mp hmem).1
  have hregion := eight_regionBytes hp hreg
  have hup := le_add_div_mul hw ((x.entries p.1).size.toNat * c.bitsPerBucket)
  have hnext : start c x (p.1 + 1) = start c x p.1 + regionBytes c (x.entries p.1).size.toNat := rfl
  have h8 : 8 * (c.k / 8) = c.k := by
    simp only [Config.optimalFingerprintSize, Bool.or_eq_true, beq_iff_eq] at hopt
    omega
  have hbyte : 8 * bucketByte c x (c.offset x p.1) (BitVec.ofNat r.bits p.2) =
      8 * start c x p.1 + p.2 * c.bitsPerBucket := by
    have hdvd : 8 ∣ p.2 * c.bitsPerBucket :=
      Nat.dvd_mul_left_of_dvd (Nat.dvd_mul_right_of_dvd ⟨_, h8.symm⟩ _) _
    rw [bucketByte, hfilter, hoffset, haddr, Nat.mod_eq_of_lt (by omega), Nat.mul_add, Nat.mul_div_cancel' hdvd,
      Nat.zero_add]
  have hspan : ∀ j < c.associativity, s = slotSpan c x (c.offset x p.1) (BitVec.ofNat r.bits p.2) j →
      start c x p.1 ≤ s.first ∧ s.stop ≤ start c x (p.1 + 1) := by
    rintro j hj rfl
    have hle : c.k * j + c.k ≤ c.bitsPerBucket := Layout.slot_le hj
    have hmul : 8 * (c.k / 8 * j) = c.k * j := by rw [← Nat.mul_assoc, h8]
    simp only [slotSpan, Nat.mul_succ]
    omega
  unfold writeSpans insertSpans evictSpans at hs
  simp only [havx, hopt, Bool.not_false, Bool.and_true, if_true] at hs
  rcases List.mem_append.mp hs with hs | hs
  · obtain ⟨j, hj, rfl⟩ := List.mem_map.mp hs
    exact hspan j (List.mem_range.mp hj) rfl
  · obtain ⟨j, hj, hs⟩ := List.mem_flatMap.mp hs
    exact hspan j (List.mem_range.mp hj) (List.mem_singleton.mp hs)

theorem writeSpans_within_words (hp : c.partitioning = .Enabled) (hopt : c.optimalFingerprintSize = false)
    {p : Bucket} (hmem : p ∈ buckets x n) {s : Span} (hs : s ∈ writeSpans c x avx p) :
    start c x p.1 ≤ s.first ∧ s.stop ≤ start c x (p.1 + 1) := by
  obtain ⟨hi, hlt⟩ := mem_buckets.mp hmem
  obtain ⟨hoffset, haddr, hend⟩ := bucket_within hx hn hf hmem
  have hregion := eight_regionBytes hp (hf.region p.1 hi)
  rw [hopt, if_neg Bool.false_ne_true] at hregion
  have hup := le_add_div_mul r.bits_pos ((x.entries p.1).size.toNat * c.bitsPerBucket)
  have hnext : start c x (p.1 + 1) = start c x p.1 + regionBytes c (x.entries p.1).size.toNat := rfl
  have hreach : ∀ {j}, j < c.associativity → _ := fun {j} hj => (hf.bits (.inr hopt) p.1 hi).lt (j := j) hlt hj
  have hfilter : x.filter = 0 := by rw [hx]; rfl
  have hdvd : r.bytes ∣ start c x p.1 := by
    have h := hf.dvd_start (Nat.le_of_lt hi)
    rw [bits_eq_bytes] at h
    exact Nat.dvd_of_mul_dvd_mul_left (by decide) h
  -- the second word of an access is at most the register behind the buckets
  have hspan : ∀ {al k bit}, 8 * start c x p.1 ≤ bit →
      bit < 8 * start c x p.1 + (x.entries p.1).size.toNat * c.bitsPerBucket →
      s ∈ packedSpans r avx al k bit x.filter → start c x p.1 ≤ s.first ∧ s.stop ≤ start c x (p.1 + 1) := by
    intro al k bit h1 h2 hs
    have hstop : r.bytes ∣ start c x p.1 +
        r.bytes * (((x.entries p.1).size.toNat * c.bitsPerBucket + r.bits - 1) / r.bits) :=
      Nat.dvd_add hdvd (Nat.dvd_mul_right _ _)
    have hbits := bits_eq_bytes r
    have hmul : 8 * (r.bytes * (((x.entries p.1).size.toNat * c.bitsPerBucket + r.bits - 1) / r.bits)) =
        ((x.entries p.1).size.toNat * c.bitsPerBucket + r.bits - 1) / r.bits * r.bits := by
      rw [← Nat.mul_assoc, ← hbits, Nat.mul_comm]
    have h := packedSpans_within hdvd hstop h1 (by omega) hs
    omega
  unfold writeSpans insertSpans evictSpans at hs
  simp only [hopt, Bool.and_false, Bool.false_eq_true, if_false] at hs
  have hpos : 0 < c.bitsPerBucket := Nat.mul_pos hk ha
  rcases List.mem_append.mp hs with hs | hs
  · have hfit := hreach ha
    rw [toNat_bitAddress hb, hoffset, haddr, Nat.mod_eq_of_lt (by omega)] at hs
    exact hspan (by omega) (by omega) hs
  · obtain ⟨j, hj, hs⟩ := List.mem_flatMap.mp hs
    have hle : c.k * j + c.k ≤ c.bitsPerBucket := Layout.slot_le (List.mem_range.mp hj)
    have hfit := hreach (List.mem_range.mp hj)
    rw [toNat_slotAddress hb, hoffset, haddr, Nat.mul_comm j, Nat.mod_eq_of_lt (by omega)] at hs
    exact hspan (by omega) (by omega) hs

theorem writeSpans_within (hp : c.partitioning = .Enabled) (hc : avx = true → c.optimalFingerprintSize = false)
    {p : Bucket} (hmem : p ∈ buckets x n) {s : Span} (hs : s ∈ writeSpans c x avx p) :
    start c x p.1 ≤ s.first ∧ s.stop ≤ start c x (p.1 + 1) := by
  cases hopt : c.optimalFingerprintSize with
  | true =>
    have havx : avx = false := Bool.eq_false_iff.mpr fun h => Bool.noConfusion (hopt.symm.trans (hc h))
    exact writeSpans_within_bytes hx hn hf hp havx hopt hmem hs
  | false => exact writeSpans_within_words hk ha hb hx hn hf hp hopt hmem hs

omit hk ha hb in
theorem isolated_of_within
    (hwithin : ∀ p ∈ buckets x n, ∀ s ∈ writeSpans c x avx p, start c x p.1 ≤ s.first ∧
    s.stop ≤ start c x (p.1 + 1)) :
    Isolated c x avx n := by
  intro p hpm q hqm hne s hs
  obtain ⟨hi, hpa⟩ := mem_buckets.mp hpm
  obtain ⟨hj, hqa⟩ := mem_buckets.mp hqm
  have hwin := hwithin p hpm s hs
  -- the regions are apart
  have hcases : start c x (p.1 + 1) ≤ start c x q.1 ∨ start c x (q.1 + 1) ≤ start c x p.1 := by
    rcases Nat.lt_or_gt_of_ne hne with h | h
    · exact .inl (start_le_of_le h)
    · exact .inr (start_le_of_le h)
  constructor
  · intro b hb1 hb2 hcov
    have hfilter : x.filter = 0 := by rw [hx]; rfl
    have hend : q.2 * c.bitsPerBucket + c.bitsPerBucket ≤ (x.entries q.1).size.toNat * c.bitsPerBucket := by
      rw [← Nat.succ_mul]
      exact Nat.mul_le_mul_right _ hqa
    have hregion := (regionBytes_spec (hf.region q.1 hj)).1
    have hnext : start c x (q.1 + 1) = start c x q.1 + regionBytes c (x.entries q.1).size.toNat := rfl
    rw [bucketBit, hfilter, Nat.zero_add, hf.offset_eq hx hj (Nat.le_of_eq hn)] at hb1 hb2
    obtain ⟨h1, h2⟩ := hcov
    omega
  · intro s' hs' b hcov hcov'
    have hwin' := hwithin q hqm s' hs'
    obtain ⟨h1, h2⟩ := hcov
    obtain ⟨h3, h4⟩ := hcov'
    omega

omit hk ha hb hx hn in
theorem start_eq_of_empty (hp : c.partitioning = .Enabled) (hopt : c.optimalFingerprintSize = true) {i j : Nat}
    (hij : i < j) (hj : j < n) (hempty : ∀ t, i < t → t < j → (x.entries t).size.toNat = 0) :
    start c x j = start c x (i + 1) := by
  have hw := r.bits_pos
  have hgap : ∀ t, i + 1 + t ≤ j → start c x (i + 1 + t) = start c x (i + 1) := by
    intro t
    induction t with
    | zero => exact fun _ => rfl
    | succ t ih =>
      intro ht
      have h0 := eight_regionBytes hp (hf.region (i + 1 + t) (by omega))
      rw [if_pos hopt, Nat.add_zero, hempty (i + 1 + t) (by omega) (by omega), Nat.zero_mul, Nat.zero_add,
        Nat.div_eq_of_lt (by omega)] at h0
      rw [← Nat.add_assoc, start, ih (by omega), hempty (i + 1 + t) (by omega) (by omega)]
      omega
  have h := hgap (j - (i + 1)) (by omega)
  rwa [Nat.add_sub_cancel' hij] at h

omit ha hb hx hn in
/-- The last slot lies in the last word of its region. -/
theorem lastSlot_word (hp : c.partitioning = .Enabled) (hopt : c.optimalFingerprintSize = true) {i size assoc : Nat}
    (hi : i < n) (hsize : (x.entries i).size.toNat = size + 1) (hassoc : c.associativity = assoc + 1) :
    (8 * start c x i + size * c.bitsPerBucket + assoc * c.k) / r.bits + 1 = 8 * start c x (i + 1) / r.bits := by
  have hw := r.bits_pos
  obtain ⟨d, hd⟩ := hf.dvd_start (Nat.le_of_lt hi)
  obtain ⟨u, hu⟩ : ∃ u, r.bits = c.k * u := by
    simp only [Config.optimalFingerprintSize, Bool.or_eq_true, beq_iff_eq] at hopt
    rcases hopt with (h | h) | h <;> rw [h] <;> cases r
    · exact ⟨4, rfl⟩
    · exact ⟨8, rfl⟩
    · exact ⟨2, rfl⟩
    · exact ⟨4, rfl⟩
    · exact ⟨1, rfl⟩
    · exact ⟨2, rfl⟩
  have hupos : 0 < u := Nat.pos_of_ne_zero fun h0 => by rw [h0, Nat.mul_zero] at hu; omega
  have hbits : (x.entries i).size.toNat * c.bitsPerBucket = size * c.bitsPerBucket + assoc * c.k + c.k := by
    rw [hsize, Nat.succ_mul, Config.bitsPerBucket, hassoc, Nat.mul_succ, Nat.mul_comm c.k assoc, Nat.add_assoc]
  have hprod : size * c.bitsPerBucket + assoc * c.k = c.k * (size * c.associativity + assoc) := by
    rw [Config.bitsPerBucket, Nat.mul_add, Nat.mul_left_comm, Nat.mul_comm assoc]
  have hlow : (size * c.bitsPerBucket + assoc * c.k) / r.bits = (size * c.associativity + assoc) / u := by
    rw [hprod, hu, Nat.mul_div_mul_left _ _ hk]
  have hhigh : ((x.entries i).size.toNat * c.bitsPerBucket + r.bits - 1) / r.bits =
      (size * c.associativity + assoc) / u + 1 := by
    have hq := Nat.div_add_mod (size * c.associativity + assoc) u
    have hm := Nat.mod_lt (size * c.associativity + assoc) hupos
    have h1 := Nat.mul_le_mul_left c.k (show (size * c.associativity + assoc) % u + 1 ≤ u from hm)
    have h2 := Nat.mul_le_mul_left c.k (Nat.zero_le ((size * c.associativity + assoc) % u))
    rw [hbits, hprod, ← hq, Nat.mul_add, ← Nat.mul_assoc, ← hu]
    rw [Nat.mul_succ, ← hu] at h1
    rw [show r.bits * ((size * c.associativity + assoc) / u) + c.k * ((size * c.associativity + assoc) % u) +
      c.k + r.bits - 1 = c.k * ((size * c.associativity + assoc) % u) + c.k - 1 +
        r.bits * ((size * c.associativity + assoc) / u + 1) by rw [Nat.mul_succ]; omega,
      Nat.add_mul_div_left _ _ hw, Nat.div_eq_of_lt (by omega), Nat.zero_add, hq]
  have hregion : 8 * regionBytes c (x.entries i).size.toNat =
      ((x.entries i).size.toNat * c.bitsPerBucket + r.bits - 1) / r.bits * r.bits := by
    rw [eight_regionBytes hp (hf.region i hi), if_pos hopt, Nat.add_zero]
  rw [start, Nat.mul_add, hregion, hd, hhigh, Nat.add_assoc, Nat.mul_add_div hw, hlow, Nat.mul_comm _ r.bits,
    ← Nat.mul_add, Nat.mul_div_cancel_left _ hw, Nat.add_assoc]

/-- With several lanes the second word of an eviction is the first one of the next partition. -/
theorem not_isolated (hp : c.partitioning = .Enabled) (hopt : c.optimalFingerprintSize = true) (havx : avx = true)
    {i j : Nat} (hij : i < j) (hj : j < n) (hsi : (x.entries i).size.toNat ≠ 0)
    (hsj : (x.entries j).size.toNat ≠ 0) :
    ¬Isolated c x avx n := by
  intro hiso
  obtain ⟨j', hij', hle, hsj', hempty⟩ := exists_next hij hsj
  have hj' : j' < n := Nat.lt_of_le_of_lt hle hj
  have hi : i < n := Nat.lt_trans hij' hj'
  have hw := r.bits_pos
  have hstart := start_eq_of_empty hf hp hopt hij' hj' hempty
  obtain ⟨size, hsize⟩ := Nat.exists_eq_succ_of_ne_zero hsi
  obtain ⟨assoc, hassoc⟩ := Nat.exists_eq_succ_of_ne_zero (Nat.ne_of_gt ha)
  have hfilter : x.filter = 0 := by rw [hx]; rfl
  have hlast : (i, size) ∈ buckets x n := mem_buckets.mpr ⟨hi, by simp only; omega⟩
  have hfirst : (j', 0) ∈ buckets x n := mem_buckets.mpr ⟨hj', Nat.pos_of_ne_zero hsj'⟩
  obtain ⟨hoffset, haddr, -⟩ := bucket_within hx hn hf hlast
  have hreach := (hf.bits (.inl havx) i hi).lt (a := size) (j := assoc) (by omega) (by omega)
  have hbit : (Simd.slotAddress c (c.offset x i) (BitVec.ofNat r.bits size) assoc).toNat =
      8 * start c x i + size * c.bitsPerBucket + assoc * c.k := by
    rw [Nat.mul_comm c.k] at hreach
    rw [toNat_slotAddress hb, hoffset, haddr, Nat.mod_eq_of_lt (by omega)]
  have hspan : wordSpan r x.filter (8 * start c x j' / r.bits) ∈ writeSpans c x avx (i, size) := by
    refine List.mem_append_right _ (List.mem_flatMap.mpr ⟨assoc, List.mem_range.mpr (by omega), ?_⟩)
    unfold evictSpans packedSpans
    rw [if_neg (by simp [havx]), if_neg (by simp), if_neg (by simp [havx]), hbit,
      lastSlot_word hk hf hp hopt hi hsize hassoc, ← hstart]
    exact List.mem_cons_of_mem _ (List.mem_cons_self ..)
  have h := (hiso (i, size) hlast (j', 0) hfirst (Nat.ne_of_lt hij') _ hspan).1 (8 * start c x j')
  have hdvd := Nat.mul_div_cancel' (hf.dvd_start (Nat.le_of_lt hj'))
  have hbb : 0 < c.bitsPerBucket := Nat.mul_pos hk ha
  have hbucket : bucketBit c x (j', 0) = 8 * start c x j' := by
    rw [bucketBit, hfilter, (bucket_within hx hn hf hfirst).1, Nat.zero_mul, Nat.zero_add, Nat.add_zero]
  refine h (Nat.le_of_eq hbucket) (by omega) (covers_wordSpan.mpr ?_)
  rw [hfilter, hdvd]
  omega

end

def SingleRegion (x : CuckooContainer r) (n : Nat) : Prop :=
  ∀ i < n, ∀ j < n, (x.entries i).size.toNat ≠ 0 → (x.entries j).size.toNat ≠ 0 → i = j

theorem isolated_of_singleRegion {avx : Bool} {n : Nat} (h : SingleRegion x n) : Isolated c x avx n := by
  intro p hp q hq hne
  obtain ⟨hi, hpa⟩ := mem_buckets.mp hp
  obtain ⟨hj, hqa⟩ := mem_buckets.mp hq
  exact absurd (h p.1 hi q.1 hj (Nat.ne_of_gt (Nat.zero_lt_of_lt hpa)) (Nat.ne_of_gt (Nat.zero_lt_of_lt hqa))) hne

/-- Partitions are isolated unless a vector with several lanes meets slots of 8, 16 or 32 bits. One partition has
no other to reach, even if its bit addresses wrap. -/
theorem isolated_exact {avx : Bool} {s nPartitions : Nat} {histogram : Nat → r.T} (hk : 0 < c.k)
    (ha : 0 < c.associativity) (hb : c.k * c.associativity ≤ r.bits) :
    (Fits c (new c s nPartitions histogram) avx (c.nParts nPartitions) →
      (Isolated c (new c s nPartitions histogram) avx (c.nParts nPartitions) ↔
        (avx = true → c.optimalFingerprintSize = true →
          SingleRegion (new c s nPartitions histogram) (c.nParts nPartitions)))) ∧
    (SingleRegion (new c s nPartitions histogram) (c.nParts nPartitions) →
      Isolated c (new c s nPartitions histogram) avx (c.nParts nPartitions)) := by
  refine ⟨fun hf => ?_, isolated_of_singleRegion⟩
  generalize hx : new c s nPartitions histogram = x at hf ⊢
  generalize hn : c.nParts nPartitions = n at hf ⊢
  cases hp : c.partitioning with
  | Disabled =>
    have hone : n = 1 := by rw [← hn, Config.nParts, hp]
    have h : SingleRegion x n := fun i hi j hj _ _ => by omega
    exact iff_of_true (isolated_of_singleRegion h) fun _ _ => h
  | Enabled =>
    constructor
    · intro hiso havx hopt i hi j hj hsi hsj
      by_contra hne
      rcases Nat.lt_or_gt_of_ne hne with h | h
      · exact not_isolated hk ha hb hx.symm hn.symm hf hp hopt havx h hj hsi hsj hiso
      · exact not_isolated hk ha hb hx.symm hn.symm hf hp hopt havx h hi hsj hsi hiso
    · intro h
      by_cases hc : avx = true ∧ c.optimalFingerprintSize = true
      · exact isolated_of_singleRegion (h hc.1 hc.2)
      · refine isolated_of_within hx.symm hn.symm hf fun p hpm s hs =>
          writeSpans_within hk ha hb hx.symm hn.symm hf hp (fun havx => ?_) hpm hs
        exact Bool.eq_false_iff.mpr fun hopt => hc ⟨havx, hopt⟩

theorem isolated_packed : Isolated packedConfig packedContainer true 2 := by
  have hf : Fits packedConfig packedContainer true 2 :=
    ⟨by decide +kernel, by decide +kernel, by decide +kernel⟩
  exact ((isolated_exact (c := packedConfig) (by decide) (by decide) (by decide)).1 hf).mpr fun _ h =>
    absurd h (by decide)

def byteConfig : Config ._32bit :=
  { associativity := 1, bucketsPerBlock := 0, otaSize := 0, k := 8, partitioning := .Enabled, mode := .Lemire,
    hash := murmur }

def byteContainer : CuckooContainer ._32bit := new byteConfig 100 2 fun _ => 1

/-- An eviction in bucket 0 of the first partition writes the word of the second one back. -/
theorem not_isolated_bytes : ¬Isolated byteConfig byteContainer true 2 := by
  intro h
  have hspan :=
    h (0, 0) (mem_buckets.mpr (by decide +kernel)) (1, 0) (mem_buckets.mpr (by decide +kernel)) (by decide)
    ⟨4, 8⟩ (by decide +kernel)
  exact hspan.1 32 (by decide +kernel) (by decide +kernel) ⟨by decide, by decide⟩

end PartitionedFilters.Cuckoo.Standard

import PartitionedFilters.CuckooIsolation

/-!
# Vectors and scalars on the buckets

Each lane of the vectors does to its bucket what the scalars do to it, where the
scalars and the vectors reach the bucket at the same bit. The scalars reach
buckets of 8-bit, 16-bit and 32-bit slots in `size_t`, the vectors reach all
buckets in `T` and, if the bits are a power of two, within one word.
-/

namespace PartitionedFilters.Cuckoo

/-! ## The first empty slot -/

section
variable {w k n : Nat}

/-- The word with the fingerprint in its first empty slot, if it has one. -/
def filled (k n : Nat) (bucket fingerprint : BitVec w) : BitVec w :=
  if hasZero k n bucket = 0 then bucket else bucket ||| fingerprint <<< tzcount (hasZero k n bucket)

/-- Words with the same slots have the same first empty slot. -/
theorem hasZero_congr (hk : 0 < k) (hn : k * n ≤ w) {a b : BitVec w} (h : ∀ j < n, lane k a j = lane k b j) :
    (hasZero k n a = 0 ↔ hasZero k n b = 0) ∧
      (hasZero k n a ≠ 0 → tzcount (hasZero k n a) = tzcount (hasZero k n b)) := by
  have hiff : hasZero k n a = 0 ↔ hasZero k n b = 0 := by
    rw [hasZero_eq_zero_iff hk hn, hasZero_eq_zero_iff hk hn]
    exact forall₂_congr fun j hj => by rw [h j hj]
  refine ⟨hiff, fun hz => ?_⟩
  obtain ⟨i, hi, hti, hzi, hfi⟩ := tzcount_hasZero hk hn hz
  obtain ⟨j, hj, htj, hzj, hfj⟩ := tzcount_hasZero hk hn (fun h0 => hz (hiff.mpr h0))
  rw [hti, htj]
  rcases Nat.lt_trichotomy i j with hlt | rfl | hlt
  · exact absurd (h i hi ▸ hzi) (hfj i hlt)
  · rfl
  · exact absurd ((h j hj).trans hzj) (hfi j hlt)

end

namespace Standard

variable {r : RegisterSize} (c : Config r) (x : CuckooContainer r)

/-! ## One lane -/

def laneBucket (byteOffset address : r.T) (m : Mem) : r.T :=
  gatheruBits true true c.bitsPerBucket (bitAddress c byteOffset address).toNat x.filter m

def laneWrite (byteOffset address bucket : r.T) (m : Mem) : Mem :=
  scatteruBits true true c.bitsPerBucket (bitAddress c byteOffset address).toNat x.filter bucket m

def laneInsert (byteOffset fingerprint address : r.T) (m : Mem) : Option Mem :=
  if hasZero c.k c.associativity (laneBucket c x byteOffset address m) = 0 then none
  else some (laneWrite c x byteOffset address
    (filled c.k c.associativity (laneBucket c x byteOffset address m) fingerprint) m)

def position (byteOffset address : r.T) : Nat :=
  if c.optimalFingerprintSize then 8 * byteOffset.toNat + address.toNat * c.bitsPerBucket % 2 ^ 64
  else (bitAddress c byteOffset address).toNat

/-- Where the scalars reach a bucket in `size_t`: its bit address fits into `T`, and a bucket of a
power of two bits does not leave its word. -/
def Exact (byteOffset address : r.T) : Prop :=
  position c byteOffset address < 2 ^ r.bits ∧
    (isPowerOfTwo c.bitsPerBucket = true → position c byteOffset address % r.bits + c.bitsPerBucket ≤ r.bits)

variable {c x}

section
variable {byteOffset address fingerprint : r.T} {m : Mem} (hb : c.bitsPerBucket ≤ r.bits)
include hb

theorem laneInsert_getD : (laneInsert c x byteOffset fingerprint address m).getD m =
  laneWrite c x byteOffset address
    (filled c.k c.associativity (laneBucket c x byteOffset address m) fingerprint) m := by
  unfold laneInsert
  split
  · rename_i hz
    rw [filled, if_pos hz]
    exact (scatteruBits_gatheruBits hb true true _ x.filter m).symm
  · rfl

theorem getLsbD_laneBucket_of_le {i : Nat} (hi : c.bitsPerBucket ≤ i) :
    (laneBucket c x byteOffset address m).getLsbD i = false := by
  unfold laneBucket gatheruBits
  split
  · rw [BitVec.getLsbD_and, getLsbD_valueMask hb, decide_eq_false (Nat.not_lt.mpr hi), Bool.and_false]
  · simp only [Bool.not_true, Bool.false_and, Bool.false_eq_true, if_false]
    rw [BitVec.getLsbD_and, getLsbD_valueMask hb, decide_eq_false (Nat.not_lt.mpr hi), Bool.and_false]

/-- The vectors reach a bucket at its bit modulo the width of `T`. -/
theorem toNat_bitAddress_eq_mod :
    (bitAddress c byteOffset address).toNat = position c byteOffset address % 2 ^ r.bits := by
  unfold position
  split
  · have hdvd : 2 ^ r.bits ∣ 2 ^ 64 := Nat.pow_dvd_pow 2 r.bits_le
    rw [toNat_bitAddress hb, ← Nat.add_mod_mod, ← Nat.mod_mod_of_dvd (address.toNat * c.bitsPerBucket) hdvd,
      Nat.add_mod_mod]
  · exact (Nat.mod_eq_of_lt (BitVec.isLt _)).symm

theorem bitAddress_eq_position (h : c.optimalFingerprintSize = true → position c byteOffset address < 2 ^ r.bits) :
    (bitAddress c byteOffset address).toNat = position c byteOffset address := by
  by_cases ho : c.optimalFingerprintSize = true
  · rw [toNat_bitAddress_eq_mod hb, Nat.mod_eq_of_lt (h ho)]
  · rw [position, if_neg ho]

omit hb in
theorem eight_dvd_k (ho : c.optimalFingerprintSize = true) : 8 ∣ c.k := by
  simp only [Config.optimalFingerprintSize, Bool.or_eq_true, beq_iff_eq] at ho
  rcases ho with (h | h) | h <;> rw [h] <;> decide

omit hb in
theorem eight_bucketByte (ho : c.optimalFingerprintSize = true) :
    8 * bucketByte c x byteOffset address = 8 * x.filter + position c byteOffset address := by
  have hdvd : 8 ∣ address.toNat * c.bitsPerBucket % 2 ^ 64 :=
    (Nat.dvd_mod_iff ⟨2 ^ 61, by decide⟩).mpr
      (Nat.dvd_mul_left_of_dvd (Nat.dvd_mul_right_of_dvd (eight_dvd_k ho) _) _)
  rw [bucketByte, position, if_pos ho, Nat.mul_add, Nat.mul_add, Nat.mul_div_cancel' hdvd, Nat.add_assoc]

omit hb in
theorem getLsbD_lane_loadBucket (ho : c.optimalFingerprintSize = true) {j i : Nat} (hj : c.k * j + c.k ≤ r.bits)
    (hi : i < c.k) : (lane c.k (loadBucket c x byteOffset address m) j).getLsbD i =
      m.bit (8 * x.filter + position c byteOffset address + (c.k * j + i)) := by
  rw [getLsbD_lane, decide_eq_true hi, Bool.true_and, loadBucket, if_pos ho, Mem.getLsbD_load, eight_bucketByte ho,
    decide_eq_true (by omega), Bool.true_and]

theorem getLsbD_laneBucket (hex : Exact c byteOffset address) {i : Nat} (hi : i < c.bitsPerBucket) :
    (laneBucket c x byteOffset address m).getLsbD i = m.bit (8 * x.filter + position c byteOffset address + i) := by
  have hpos := bitAddress_eq_position hb fun _ => hex.1
  rw [laneBucket, gatheruBits_of_fits hb _ _ _ _ fun _ hp => by rw [hpos]; exact hex.2 hp, hpos,
    BitVec.getLsbD_setWidth, Mem.getLsbD_load, decide_eq_true hi, decide_eq_true (by omega),
    Bool.true_and, Bool.true_and]

theorem lane_loadBucket (hex : c.optimalFingerprintSize = true → Exact c byteOffset address) {j : Nat}
    (hj : j < c.associativity) :
    lane c.k (loadBucket c x byteOffset address m) j = lane c.k (laneBucket c x byteOffset address m) j := by
  by_cases ho : c.optimalFingerprintSize = true
  · have hslot : c.k * j + c.k ≤ c.bitsPerBucket := Layout.slot_le hj
    refine BitVec.eq_of_getLsbD_eq fun i hi => ?_
    rw [getLsbD_lane_loadBucket ho (by omega) hi, getLsbD_lane, decide_eq_true hi, Bool.true_and,
      getLsbD_laneBucket hb (hex ho) (by omega)]
  · rw [loadBucket, if_neg ho, gatheruBits_avx hb, laneBucket]

theorem bucketContains_eq_lane (hk : 0 < c.k) (hex : c.optimalFingerprintSize = true → Exact c byteOffset address)
    (hf : fingerprint.toNat < 2 ^ c.k) : bucketContains c x byteOffset fingerprint address m = true ↔
      ∃ j < c.associativity, lane c.k (laneBucket c x byteOffset address m) j = fingerprint.setWidth c.k := by
  rw [bucketContains, bne_iff_ne, hasValue_ne_zero_iff hk hb _ hf]
  exact exists_congr fun j => and_congr_right fun hj => by rw [lane_loadBucket hb hex hj]

theorem bucketInsert_eq_lane (hk : 0 < c.k) (hex : c.optimalFingerprintSize = true → Exact c byteOffset address)
    (hf : fingerprint.toNat < 2 ^ c.k) :
    bucketInsert c x byteOffset fingerprint address m = laneInsert c x byteOffset fingerprint address m := by
  have hlanes := fun j hj => lane_loadBucket (x := x) (m := m) hb hex (j := j) hj
  obtain ⟨hzero, htz⟩ := hasZero_congr hk hb hlanes
  simp only [bucketInsert, laneInsert, hzero]
  by_cases hz : hasZero c.k c.associativity (laneBucket c x byteOffset address m) = 0
  · rw [if_pos hz, if_pos hz]
  · rw [if_neg hz, if_neg hz, filled, if_neg hz, htz fun h0 => hz (hzero.mp h0), laneWrite]
    by_cases ho : c.optimalFingerprintSize = true
    · obtain ⟨j, hj, hzj, hlane, -⟩ := tzcount_hasZero hk hb hz
      have hpos := bitAddress_eq_position hb fun _ => (hex ho).1
      rw [if_pos ho, eight_bucketByte ho, hzj, Nat.mul_div_cancel_left _ hk, Nat.mul_comm j,
        scatteruBits_of_fits hb _ _ _ _ _ fun _ hp => by rw [hpos]; exact (hex ho).2 hp, hpos,
        store_or hb (Layout.slot_le hj) (fun i hi => getLsbD_laneBucket hb (hex ho) hi) hlane hf]
    · rw [if_neg ho, loadBucket, if_neg ho, gatheruBits_avx hb, scatteruBits_avx hb, laneBucket]

end

/-! ## Lanes in different words -/

def WordsApart (r : RegisterSize) (n p q : Nat) : Prop :=
  (p + n - 1) / r.bits < q / r.bits ∨ (q + n - 1) / r.bits < p / r.bits

theorem WordsApart.symm {n p q : Nat} (h : WordsApart r n p q) : WordsApart r n q p := Or.symm h

section
variable {n p q : Nat} (hn : 0 < n) (h : WordsApart r n p q)
include hn h

theorem WordsApart.word_ne : p / r.bits ≠ q / r.bits := by
  intro heq
  have h1 := Nat.div_le_div_right (c := r.bits) (show p ≤ p + n - 1 by omega)
  have h2 := Nat.div_le_div_right (c := r.bits) (show q ≤ q + n - 1 by omega)
  unfold WordsApart at h
  omega

theorem WordsApart.fits (hnext : p / r.bits + 1 = q / r.bits) : p % r.bits + n ≤ r.bits := by
  have hw := r.bits_pos
  have hlt : (p + n - 1) / r.bits < p / r.bits + 1 := by
    rcases h with h | h
    · omega
    · have := Nat.div_le_div_right (c := r.bits) (show q ≤ q + n - 1 by omega)
      omega
  have hdm := Nat.div_add_mod p r.bits
  rw [Nat.div_lt_iff_lt_mul hw, Nat.add_mul, Nat.one_mul, Nat.mul_comm] at hlt
  omega

theorem WordsApart.disjoint : p + n ≤ q ∨ q + n ≤ p := by
  by_contra hov
  rcases h with h | h
  · have := Nat.div_le_div_right (c := r.bits) (show q ≤ p + n - 1 by omega)
    omega
  · have := Nat.div_le_div_right (c := r.bits) (show p ≤ q + n - 1 by omega)
    omega

end

theorem laneBucket_laneWrite (hb : c.bitsPerBucket ≤ r.bits) (hn : 0 < c.bitsPerBucket)
    {byteOffset address byteOffset' address' bucket : r.T}
    (h : WordsApart r c.bitsPerBucket (bitAddress c byteOffset address).toNat
      (bitAddress c byteOffset' address').toNat) (m :
      Mem) : laneBucket c x byteOffset' address' (laneWrite c x byteOffset address bucket m) =
      laneBucket c x byteOffset' address' m := by
  by_cases hp : isPowerOfTwo c.bitsPerBucket = true
  · have hcond : (true && isPowerOfTwo c.bitsPerBucket) = true := hp
    unfold laneBucket laneWrite
    rw [scatteruBits_eq_modify, if_pos hcond]
    unfold gatheruBits
    rw [if_pos hcond, if_pos hcond, gather_modify_of_ne (h.word_ne hn)]
  · rw [laneBucket, laneBucket, laneWrite, gatheruBits_of_fits hb _ _ _ _ fun _ h => absurd h hp,
      scatteruBits_of_fits hb _ _ _ _ _ fun _ h => absurd h hp, gatheruBits_of_fits hb _ _ _ _ fun _ h =>
        absurd h hp, Mem.load_store_of_disjoint]
    have := h.disjoint hn
    omega

/-! ## The vectors -/

namespace Simd
variable {n : Nat} {address fingerprint byteOffset : Lanes r n} {mask : LaneMask n} {m : Mem}

theorem loadBucket_apply {l : Fin n} (hl : mask l = true) :
    loadBucket c x address byteOffset mask m l = laneBucket c x (byteOffset l) (address l) m := if_pos hl

/-- After the first slots of the loop of `bucket_insert` a lane is done if one of them was empty. -/
theorem foldl_insertStep (hk : c.k ≤ r.bits) (bucket fingerprint : Lanes r n) (l : Fin n) (t : Nat) :
    let s := (List.range t).foldl (insertStep c fingerprint) (bucket, fun _ => false)
    (s.2 l = false ∧ s.1 l = bucket l ∧ ∀ j < t, lane c.k (bucket l) j ≠ 0) ∨
      (s.2 l = true ∧ ∃ j < t, s.1 l = bucket l ||| fingerprint l <<< (c.k * j) ∧ lane c.k (bucket l) j = 0 ∧
        ∀ i < j, lane c.k (bucket l) i ≠ 0) := by
  induction t with
  | zero => exact .inl ⟨rfl, rfl, fun j hj => absurd hj (Nat.not_lt_zero j)⟩
  | succ t ih =>
    rw [List.range_succ, List.foldl_append, List.foldl_cons, List.foldl_nil]
    generalize (List.range t).foldl (insertStep c fingerprint) (bucket, fun _ => false) = s at ih
    have hzero : (s.1 l >>> (c.k * t) &&& valueMask r c.k == 0) = (lane c.k (s.1 l) t == 0) := by
      have h := shift_and_mask_eq_iff (j := t) hk (s.1 l) 0 (by simp)
      rw [Nat.mul_comm t] at h
      simpa using h
    unfold insertStep
    simp only [hzero]
    rcases ih with ⟨hdone, hsame, hfull⟩ | ⟨hdone, j, hj, hset, hfirst⟩
    · by_cases hz : lane c.k (bucket l) t = 0
      · refine .inr ⟨?_, t, Nat.lt_succ_self t, ?_, hz, hfull⟩
        · simp [hdone, hsame, hz]
        · simp [hdone, hsame, hz]
      · have hne : (lane c.k (bucket l) t == 0) = false := beq_eq_false_iff_ne.mpr hz
        refine .inl ⟨?_, ?_, fun j hj => ?_⟩
        · simp only [hdone, hsame, hne, Bool.and_false, Bool.or_false]
        · simp only [hsame, hne, Bool.and_false, Bool.false_eq_true, if_false]
        · rcases Nat.lt_succ_iff_lt_or_eq.mp hj with hlt | rfl
          · exact hfull j hlt
          · exact hz
    · refine .inr ⟨?_, j, Nat.lt_succ_of_lt hj, ?_, hfirst⟩
      · simp [hdone]
      · simp [hdone, hset]

/-- The loop of `bucket_insert` finds the slot that `has_zero` finds. -/
theorem foldl_insertStep_eq (hk : 0 < c.k) (hb : c.bitsPerBucket ≤ r.bits) (hk' : c.k ≤ r.bits)
    (bucket fingerprint : Lanes r n) (l : Fin n) :
    let s := (List.range c.associativity).foldl (insertStep c fingerprint) (bucket, fun _ => false)
    s.2 l = (hasZero c.k c.associativity (bucket l) != 0) ∧
      s.1 l = filled c.k c.associativity (bucket l) (fingerprint l) := by
  intro s
  rcases foldl_insertStep hk' bucket fingerprint l c.associativity with ⟨hdone, hsame, hfull⟩ | ⟨hdone, j, hj,
    hset, hzero, hfirst⟩
  · have hz := (hasZero_eq_zero_iff hk hb _).mpr hfull
    rw [filled, if_pos hz, hz]
    exact ⟨by rw [hdone]; simp, hsame⟩
  · have hz : hasZero c.k c.associativity (bucket l) ≠ 0 := fun h0 => (hasZero_eq_zero_iff hk hb _).mp h0 j hj hzero
    obtain ⟨i, hi, htz, hzi, hfi⟩ := tzcount_hasZero hk hb hz
    have hij : i = j := by
      rcases Nat.lt_trichotomy i j with hlt | heq | hlt
      · exact absurd hzi (hfirst i hlt)
      · exact heq
      · exact absurd hzero (hfi j hlt)
    rw [filled, if_neg hz, htz, hij]
    exact ⟨by rw [hdone]; exact (bne_iff_ne.mpr hz).symm, hset⟩

/-- What the comparisons of `bucket_contains` find in a lane. -/
theorem bucketContains_apply (hk : 0 < c.k) (hb : c.bitsPerBucket ≤ r.bits) (hk' : c.k ≤ r.bits)
    (hn : n * r.bits ≤ 512) {l : Fin n} (hl : mask l = true)
    (hf : fingerprint l ≠ 0 ∧ (fingerprint l).toNat < 2 ^ c.k) :
    bucketContains c x fingerprint address byteOffset mask m l = true ↔
      ∃ j < c.associativity, lane c.k (laneBucket c x (byteOffset l) (address l) m) j =
        (fingerprint l).setWidth c.k := by
  simp only [bucketContains]
  by_cases h816 : c.k = 8 ∨ c.k = 16
  · obtain ⟨-, -, hbits, -⟩ := fields_pos (r := r) h816
    have hslots : c.associativity ≤ r.bits / c.k := by
      rw [Nat.le_div_iff_mul_le hk, Nat.mul_comm]
      exact hb
    have hequal : ∀ {j}, j < r.bits / c.k → (Lanes.equal c.k (loadBucket c x address byteOffset mask m)
        (Lanes.permute c.k fingerprint)).getLsbD (r.bits / c.k * l + j) =
          (lane c.k (laneBucket c x (byteOffset l) (address l) m) j == (fingerprint l).setWidth c.k) := by
      intro j hj
      rw [getLsbD_equal h816 hn _ _ l hj, loadBucket_apply hl, lane_permute h816 _ l hj]
    rw [if_pos h816, getLsbD_pext64_foldEqual h816 hn hslots]
    · refine exists_congr fun j => and_congr_right fun hj => ?_
      rw [hequal (Nat.lt_of_lt_of_le hj hslots), beq_iff_eq]
    · -- the bits above the bucket are not gathered, and no fingerprint is 0
      intro j hj hle
      rw [hequal hj, beq_eq_false_iff_ne]
      intro heq
      refine hf.1 (BitVec.eq_of_toNat_eq ?_)
      have hzero : lane c.k (laneBucket c x (byteOffset l) (address l) m) j = 0 := by
        refine BitVec.eq_of_getLsbD_eq fun i hi => ?_
        have hout := Nat.mul_le_mul_left c.k hle
        rw [getLsbD_lane, getLsbD_laneBucket_of_le hb (Nat.le_trans hout (Nat.le_add_right _ i)), Bool.and_false]
        simp
      have hval := congrArg BitVec.toNat (heq.symm.trans hzero)
      rw [BitVec.toNat_setWidth, Nat.mod_eq_of_lt hf.2] at hval
      rw [hval]
      simp
  · rw [if_neg h816, List.any_eq_true]
    simp only [List.mem_range, loadBucket_apply hl]
    refine exists_congr fun j => and_congr_right fun _ => ?_
    rw [Nat.mul_comm c.k j, shift_and_mask_eq_iff hk' _ _ hf.2, beq_iff_eq]

def insertEach (c : Config r) (x : CuckooContainer r) (fingerprint address byteOffset : Lanes r n)
    (mask : LaneMask n) (m : Mem) : Mem :=
  (List.finRange n).foldl (fun m l => if mask l then
    (Standard.bucketInsert c x (byteOffset l) (fingerprint l) (address l) m).getD m else m) m

/-- Vectors and scalars agree on the lanes of `mask`, whatever the memory and the fingerprints. -/
def Agree (c : Config r) (x : CuckooContainer r) (address byteOffset : Lanes r n) (mask : LaneMask n) : Prop :=
  ∀ (m : Mem) (fingerprint : Lanes r n),
    (∀ l, mask l = true → fingerprint l ≠ 0 ∧ (fingerprint l).toNat < 2 ^ c.k) →
    (∀ l, mask l = true → bucketContains c x fingerprint address byteOffset mask m l =
      Standard.bucketContains c x (byteOffset l) (fingerprint l) (address l) m) ∧
    (∀ l, (bucketInsert c x fingerprint address byteOffset mask m).1 l =
      (mask l && (Standard.bucketInsert c x (byteOffset l) (fingerprint l) (address l) m).isSome)) ∧
    (bucketInsert c x fingerprint address byteOffset mask m).2 =
      insertEach c x fingerprint address byteOffset mask m

section
variable (hk : 0 < c.k) (hb : c.bitsPerBucket ≤ r.bits) (hk' : c.k ≤ r.bits)
include hk hb

include hk' in
theorem bucketInsert_eq : bucketInsert c x fingerprint address byteOffset mask m =
    (fun l => hasZero c.k c.associativity (loadBucket c x address byteOffset mask m l) != 0 && mask l,
      Lanes.scatteruBits true c.bitsPerBucket (fun l => bitAddress c (byteOffset l) (address l)) x.filter
        (fun l => filled c.k c.associativity (loadBucket c x address byteOffset mask m l) (fingerprint l))
        mask m) := by
  have h := foldl_insertStep_eq hk hb hk' (loadBucket c x address byteOffset mask m) fingerprint
  simp only [bucketInsert]
  rw [← funext fun l => (h l).2, funext fun l => congrArg (· && mask l) (h l).1]

omit hk in
/-- Lanes without a common word insert one after the other. -/
theorem foldl_laneWrite (hn : 0 < c.bitsPerBucket) (hapart : ∀ l l', mask l = true → mask l' = true → l ≠ l' →
      WordsApart r c.bitsPerBucket (bitAddress c (byteOffset l) (address l)).toNat
        (bitAddress c (byteOffset l') (address l')).toNat) {lanes : List (Fin n)} (hnodup :
        lanes.Nodup) (fingerprint : Lanes r n) (m : Mem) :
    ∀ m' : Mem, (∀ l ∈ lanes, mask l = true →
        laneBucket c x (byteOffset l) (address l) m' = laneBucket c x (byteOffset l) (address l) m) →
      lanes.foldl (fun m' l => if mask l then laneWrite c x (byteOffset l) (address l)
        (filled c.k c.associativity (laneBucket c x (byteOffset l) (address l) m) (fingerprint l)) m' else m') m' =
      lanes.foldl (fun m' l => if mask l then
        (laneInsert c x (byteOffset l) (fingerprint l) (address l) m').getD m' else m') m' := by
  induction lanes with
  | nil => exact fun _ _ => rfl
  | cons l lanes ih =>
    intro m' hsame
    rw [List.nodup_cons] at hnodup
    rw [List.foldl_cons, List.foldl_cons]
    by_cases hl : mask l = true
    · rw [if_pos hl, if_pos hl, laneInsert_getD hb, hsame l (List.mem_cons_self ..) hl]
      refine ih hnodup.2 _ fun l' hl' hm' => ?_
      rw [laneBucket_laneWrite hb hn (hapart l l' hl hm' fun h => hnodup.1 (h ▸ hl')),
        hsame l' (List.mem_cons_of_mem _ hl') hm']
    · rw [if_neg hl, if_neg hl]
      exact ih hnodup.2 m' fun l' hl' => hsame l' (List.mem_cons_of_mem _ hl')

theorem agree_of_exact (ha : 0 < c.associativity) (hn : n * r.bits ≤ 512)
    (hapart : ∀ l l', mask l = true → mask l' = true → l ≠ l' →
      WordsApart r c.bitsPerBucket (position c (byteOffset l) (address l))
        (position c (byteOffset l') (address l'))) (hex : c.optimalFingerprintSize = true → ∀ l, mask l = true →
        Exact c (byteOffset l) (address l)) :
    Agree c x address byteOffset mask := by
  have hk' : c.k ≤ r.bits := Nat.le_trans (Nat.le_mul_of_pos_right _ ha) hb
  have hpos : ∀ l, mask l = true → (bitAddress c (byteOffset l) (address l)).toNat =
      position c (byteOffset l) (address l) :=
    fun l hl => bitAddress_eq_position hb fun ho => (hex ho l hl).1
  have hwords : ∀ l l', mask l = true → mask l' = true → l ≠ l' → WordsApart r c.bitsPerBucket
      (bitAddress c (byteOffset l) (address l)).toNat (bitAddress c (byteOffset l') (address l')).toNat := by
    intro l l' hl hl' hll
    rw [hpos l hl, hpos l' hl']
    exact hapart l l' hl hl' hll
  have hbits : 0 < c.bitsPerBucket := Nat.mul_pos hk ha
  intro m fingerprint hf
  have hinsert : ∀ l, mask l = true → ∀ m, Standard.bucketInsert c x (byteOffset l) (fingerprint l) (address l) m =
      laneInsert c x (byteOffset l) (fingerprint l) (address l) m :=
    fun l hl m => bucketInsert_eq_lane hb hk (fun ho => hex ho l hl) (hf l hl).2
  refine ⟨fun l hl => ?_, fun l => ?_, ?_⟩
  · rw [Bool.eq_iff_iff, bucketContains_apply hk hb hk' hn hl (hf l hl),
      bucketContains_eq_lane hb hk (fun ho => hex ho l hl) (hf l hl).2]
  · rw [bucketInsert_eq hk hb hk']
    by_cases hl : mask l = true
    · simp only [hl, Bool.and_true, Bool.true_and]
      rw [hinsert l hl, loadBucket_apply hl, laneInsert]
      split
      · rename_i hz
        rw [hz]
        simp
      · rename_i hz
        exact bne_iff_ne.mpr hz
    · rw [Bool.not_eq_true] at hl
      simp only [hl, Bool.and_false, Bool.false_and]
  · rw [bucketInsert_eq hk hb hk', insertEach, Lanes.scatteruBits_eq
      (fun l l' hl hl' hll => (hwords l l' hl hl' hll).word_ne hbits)
      (fun l l' hl hl' hll => (hwords l l' hl hl' hll).fits hbits)]
    have hturns := foldl_laneWrite (x := x) hb hbits hwords (List.nodup_finRange n) fingerprint m m fun _ _ _ => rfl
    refine Eq.trans ?_ (hturns.trans ?_)
    · refine congrArg (fun f => List.foldl f m (List.finRange n)) (funext fun m' => funext fun l => ?_)
      by_cases hl : mask l = true
      · rw [if_pos hl, if_pos hl, loadBucket_apply hl, laneWrite]
      · rw [if_neg hl, if_neg hl]
    · refine congrArg (fun f => List.foldl f m (List.finRange n)) (funext fun m' => funext fun l => ?_)
      by_cases hl : mask l = true
      · rw [if_pos hl, if_pos hl, hinsert l hl]
      · rw [if_neg hl, if_neg hl]

/-- A lane that reads other bits than the scalars misses a fingerprint. -/
theorem not_agree_of_laneBucket (hk' : c.k ≤ r.bits) (hn : n * r.bits ≤ 512) (ho : c.optimalFingerprintSize = true)
    {l : Fin n} (hl : mask l = true) {j i : Nat} (hj : j < c.associativity) (hi : i < c.k)
    (hzero : laneBucket c x (byteOffset l) (address l)
      ⟨fun q => q == 8 * x.filter + position c (byteOffset l) (address l) + (c.k * j + i)⟩ = 0) :
    ¬Agree c x address byteOffset mask := by
  intro h
  have hf : BitVec.ofNat r.bits (2 ^ i) ≠ 0 ∧ (BitVec.ofNat r.bits (2 ^ i)).toNat < 2 ^ c.k := by
    have hlt := Nat.pow_lt_pow_right (show 1 < 2 by decide) hi
    have hval : (BitVec.ofNat r.bits (2 ^ i)).toNat = 2 ^ i := by
      rw [BitVec.toNat_ofNat, Nat.mod_eq_of_lt (Nat.lt_of_lt_of_le hlt (Nat.pow_le_pow_right (by decide) hk'))]
    refine ⟨fun h0 => ?_, by rw [hval]; exact hlt⟩
    have hpos := Nat.two_pow_pos i
    rw [← hval, h0] at hpos
    simp at hpos
  have hslot := Layout.slot_le (c := c) hj
  have hagree := (h ⟨fun q => q == 8 * x.filter + position c (byteOffset l) (address l) + (c.k * j + i)⟩
    (fun _ => BitVec.ofNat r.bits (2 ^ i)) fun _ _ => hf).1 l hl
  rw [Bool.eq_iff_iff, bucketContains_apply hk hb hk' hn hl hf, hzero, Standard.bucketContains, bne_iff_ne,
    hasValue_ne_zero_iff hk hb _ hf.2] at hagree
  have hslotj : ∃ j' < c.associativity, lane c.k (Standard.loadBucket c x (byteOffset l) (address l)
      ⟨fun q => q == 8 * x.filter + position c (byteOffset l) (address l) + (c.k * j + i)⟩) j' =
        (BitVec.ofNat r.bits (2 ^ i)).setWidth c.k := by
    refine ⟨j, hj, BitVec.eq_of_getLsbD_eq fun i' hi' => ?_⟩
    have hbit : (BitVec.ofNat r.bits (2 ^ i)).getLsbD i' = decide (i' = i) := by
      rw [BitVec.getLsbD_ofNat, decide_eq_true (by omega), Bool.true_and, Nat.testBit_two_pow]
      exact decide_eq_decide.mpr eq_comm
    rw [getLsbD_lane_loadBucket ho (by omega) hi', BitVec.getLsbD_setWidth, hbit, decide_eq_true hi', Bool.true_and,
      Bool.eq_iff_iff, beq_iff_eq, decide_eq_true_eq]
    omega
  -- every slot of the lane is empty
  obtain ⟨j', hj', hsame⟩ := hagree.mpr hslotj
  have hval := congrArg BitVec.toNat hsame
  rw [toNat_lane, BitVec.toNat_setWidth, Nat.mod_eq_of_lt hf.2] at hval
  refine hf.1 (BitVec.eq_of_toNat_eq (hval.symm.trans ?_))
  simp

theorem exact_of_agree (ha : 0 < c.associativity) (hn : n * r.bits ≤ 512) (h : Agree c x address byteOffset mask)
    (ho : c.optimalFingerprintSize = true) {l : Fin n} (hl : mask l = true) :
    Exact c (byteOffset l) (address l) := by
  have hk' : c.k ≤ r.bits := Nat.le_trans (Nat.le_mul_of_pos_right _ ha) hb
  have hw : 2 * r.bits ≤ 2 ^ r.bits := by cases r <;> decide
  have hbits : 0 < c.bitsPerBucket := Nat.mul_pos hk ha
  have hpos : (bitAddress c (byteOffset l) (address l)).toNat =
      position c (byteOffset l) (address l) % 2 ^ r.bits :=
    toNat_bitAddress_eq_mod hb
  have hzero : ∀ p : Nat, (∀ s ∈ packedSpans r true true c.bitsPerBucket
      (bitAddress c (byteOffset l) (address l)).toNat x.filter, ¬s.Covers p) →
      laneBucket c x (byteOffset l) (address l) ⟨fun q => q == p⟩ = 0 := by
    intro p hp
    have hread :
        ∀ s ∈ packedSpans r true true c.bitsPerBucket (bitAddress c (byteOffset l) (address l)).toNat x.filter,
        ∀ q, s.Covers q → (q == p) = Mem.zero.bit q := by
      intro s hs q hq
      refine beq_eq_false_iff_ne.mpr fun heq => hp s hs ?_
      rwa [← heq]
    rw [laneBucket, gatheruBits_congr hread]
    exact gatheruBits_zero _ _ _ _ _
  by_cases hlt : position c (byteOffset l) (address l) < 2 ^ r.bits
  · refine ⟨hlt, fun hp => ?_⟩
    by_contra hout
    rw [Nat.mod_eq_of_lt hlt] at hpos
    -- the last bit of the bucket is in the next word
    refine not_agree_of_laneBucket hk hb hk' hn ho hl (Nat.sub_one_lt (Nat.ne_of_gt ha))
      (Nat.sub_one_lt (Nat.ne_of_gt hk))
      (hzero _ fun s hs hcov => hout ?_) h
    unfold packedSpans at hs
    rw [if_pos (by simpa using hp)] at hs
    obtain rfl := List.mem_singleton.mp hs
    rw [covers_wordSpan, hpos] at hcov
    have hlast : c.k * (c.associativity - 1) + c.k = c.bitsPerBucket := by
      rw [← Nat.mul_succ, Nat.succ_eq_add_one, Nat.sub_add_cancel ha, Config.bitsPerBucket]
    have hdm := Nat.div_add_mod (position c (byteOffset l) (address l)) r.bits
    omega
  · refine absurd h (not_agree_of_laneBucket hk hb hk' hn ho hl ha hk (hzero _ fun s hs hcov => ?_))
    have hstop := (packedSpans_le_iff.mpr (Nat.le_refl _)) s hs
    have hle : 8 * packedStop r true true c.bitsPerBucket (bitAddress c (byteOffset l) (address l)).toNat x.filter ≤
        8 * x.filter + (bitAddress c (byteOffset l) (address l)).toNat + 2 * r.bits := packedStop_le
    have hmod := Nat.div_add_mod (position c (byteOffset l) (address l)) (2 ^ r.bits)
    have hone := Nat.mul_le_mul_left (2 ^ r.bits) (Nat.div_pos (Nat.le_of_not_lt hlt) (Nat.two_pow_pos r.bits))
    obtain ⟨hcov1, hcov2⟩ := hcov
    omega

end

/-- Vectors and scalars agree unless slots of 8, 16 or 32 bits are reached at different bits. -/
theorem simd_exact (hk : 0 < c.k) (ha : 0 < c.associativity) (hb : c.k * c.associativity ≤ r.bits)
    (hn : n * r.bits ≤ 512) (hapart : ∀ l l', mask l = true → mask l' = true → l ≠ l' →
      WordsApart r c.bitsPerBucket (position c (byteOffset l) (address l))
        (position c (byteOffset l') (address l'))) :
    Agree c x address byteOffset mask ↔
      (c.optimalFingerprintSize = true → ∀ l, mask l = true → Exact c (byteOffset l) (address l)) :=
  ⟨fun h ho _ hl => exact_of_agree hk hb ha hn h ho hl, agree_of_exact hk hb ha hn hapart⟩

def wordConfig : Config ._32bit :=
  { associativity := 4, bucketsPerBlock := 0, otaSize := 0, k := 8, partitioning := .Disabled, mode := .Lemire,
    hash := murmur }

def wordContainer : CuckooContainer ._32bit := new wordConfig 100 1 fun _ => 32

/-- The first eight buckets. -/
theorem agree_words :
    Agree (n := 8) wordConfig wordContainer (fun l => BitVec.ofNat 32 l) (fun _ => 0) fun _ => true := by
  have hexact : ∀ l : Fin 8, Exact wordConfig 0 (BitVec.ofNat 32 l) := fun l => by
    unfold Exact
    revert l
    decide +kernel
  refine (simd_exact (by decide) (by decide) (by decide) (by decide) ?_).mpr fun _ l _ => hexact l
  unfold WordsApart
  decide +kernel

/-- The bit address of bucket `2 ^ 27` is 0 in `T`. -/
theorem bucketContains_wraps :
    Simd.bucketContains (n := 8) wordConfig wordContainer (fun _ => 1) (fun _ => 0x8000000) (fun _ => 0)
        (fun l => l == 0) ⟨fun q => q == 2 ^ 32⟩ 0 = false ∧
      Standard.bucketContains wordConfig wordContainer 0 1 0x8000000 ⟨fun q => q == 2 ^ 32⟩ = true := by
  decide +kernel

end Simd

end Standard

end PartitionedFilters.Cuckoo

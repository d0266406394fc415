import PartitionedFilters.Bits
import Mathlib.Data.Nat.Find
import Mathlib.Tactic.ByContra

/-!
# Searching a bucket

`cuckoo_helper.hpp`: the slots of a bucket, `k` bits each, are searched with one
subtraction over the whole word.
-/

namespace PartitionedFilters

def tzcount {w : Nat} (a : BitVec w) : Nat := (List.range w).findIdx fun i => a.getLsbD i

namespace Cuckoo

variable {w k : Nat}

def computeMask (w k : Nat) : Nat → BitVec w
  | 0 => 0
  | slotsPerBucket + 1 => computeMask w k slotsPerBucket <<< k ||| 1

/-- `has_zero`; a narrower type than `T` has all bits that are looked at. -/
def hasZero (k slotsPerBucket : Nat) (bucket : BitVec w) : BitVec w :=
  let mask := computeMask w k slotsPerBucket
  (((bucket - mask) &&& ~~~bucket) >>> (k - 1)) &&& mask

def hasValue (k slotsPerBucket : Nat) (bucket value : BitVec w) : BitVec w :=
  hasZero k slotsPerBucket (bucket ^^^ (computeMask w k slotsPerBucket * value))

def lane (k : Nat) (bucket : BitVec w) (j : Nat) : BitVec k := bucket.extractLsb' (k * j) k

theorem toNat_lane (b : BitVec w) (j : Nat) : (lane k b j).toNat = b.toNat / 2 ^ (k * j) % 2 ^ k := by
  rw [lane, BitVec.extractLsb'_toNat, Nat.shiftRight_eq_div_pow]

theorem lane_eq_zero_iff {b : BitVec w} {j : Nat} : lane k b j = 0 ↔ b.toNat / 2 ^ (k * j) % 2 ^ k = 0 := by
  rw [← BitVec.toNat_inj, toNat_lane, show (0 : BitVec k).toNat = 0 from BitVec.toNat_zero]

theorem getLsbD_lane (b : BitVec w) (j i : Nat) :
    (lane k b j).getLsbD i = (decide (i < k) && b.getLsbD (k * j + i)) := by
  rw [lane, BitVec.getLsbD_extractLsb']

/-! ## The mask -/

def ones (k : Nat) : Nat → Nat
  | 0 => 0
  | n + 1 => ones k n + 2 ^ (k * n)

theorem ones_mul (k n : Nat) : ones k n * (2 ^ k - 1) + 1 = 2 ^ (k * n) := by
  induction n with
  | zero => simp [ones]
  | succ n ih =>
    have hk := Nat.one_le_two_pow (n := k)
    rw [ones, Nat.add_mul, Nat.add_right_comm, ih, Nat.mul_succ, Nat.pow_add, Nat.mul_sub, Nat.mul_one]
    have := Nat.le_mul_of_pos_right (2 ^ (k * n)) (Nat.two_pow_pos k)
    omega

theorem ones_succ (k n : Nat) : ones k (n + 1) = ones k n * 2 ^ k + 1 := by
  have h := ones_mul k n
  have hk := Nat.one_le_two_pow (n := k)
  have hle := Nat.le_mul_of_pos_right (ones k n) (Nat.two_pow_pos k)
  rw [Nat.mul_sub, Nat.mul_one] at h
  rw [ones]
  omega

theorem ones_lt (hk : 0 < k) (n : Nat) : ones k n < 2 ^ (k * n) := by
  have h := ones_mul k n
  have hk := Nat.pow_le_pow_right (show 0 < 2 by decide) hk
  have := Nat.le_mul_of_pos_right (ones k n) (show 0 < 2 ^ k - 1 by omega)
  omega

theorem ones_add (k j n : Nat) : ones k (j + n) = ones k j + 2 ^ (k * j) * ones k n := by
  induction n with
  | zero => simp [ones]
  | succ n ih => rw [← Nat.add_assoc, ones, ih, ones, Nat.mul_add, Nat.mul_add, Nat.pow_add, Nat.add_assoc]

theorem toNat_computeMask (hk : 0 < k) {n : Nat} (hn : k * n ≤ w) : (computeMask w k n).toNat = ones k n := by
  induction n with
  | zero => simp [computeMask, ones]
  | succ n ih =>
    have hle : k * n ≤ w := Nat.le_trans (Nat.mul_le_mul_left k (Nat.le_succ n)) hn
    have hlt : ones k n * 2 ^ k < 2 ^ w := by
      refine Nat.lt_of_lt_of_le ?_ (Nat.pow_le_pow_right (by decide) hn)
      rw [Nat.mul_succ, Nat.pow_add]
      exact Nat.mul_lt_mul_of_pos_right (ones_lt hk n) (Nat.two_pow_pos k)
    have hw : 0 < w := Nat.lt_of_lt_of_le (Nat.mul_pos hk (Nat.succ_pos n)) hn
    rw [computeMask, BitVec.toNat_or, BitVec.toNat_shiftLeft, ih hle, Nat.shiftLeft_eq, Nat.mod_eq_of_lt hlt,
      show (1 : BitVec w).toNat = 1 from BitVec.toNat_one hw, ← Nat.shiftLeft_eq,
      ← Nat.shiftLeft_add_eq_or_of_lt (Nat.one_lt_two_pow (Nat.ne_of_gt hk)), Nat.shiftLeft_eq, ones_succ]

theorem getLsbD_computeMask (hk : 0 < k) (n i : Nat) :
    (computeMask w k n).getLsbD i = true ↔ i < w ∧ ∃ j < n, i = k * j := by
  induction n generalizing i with
  | zero => simp [computeMask]
  | succ n ih =>
    rw [computeMask, BitVec.getLsbD_or, BitVec.getLsbD_shiftLeft, Bool.or_eq_true, Bool.and_eq_true,
      Bool.and_eq_true, ih]
    constructor
    · rintro (⟨⟨hi, hik⟩, hw, j, hj, he⟩ | h)
      · simp only [decide_eq_true_eq, Bool.not_eq_true', decide_eq_false_iff_not] at hi hik
        exact ⟨hi, j + 1, by omega, by rw [Nat.mul_succ]; omega⟩
      · obtain ⟨hw, rfl⟩ : 0 < w ∧ i = 0 := by simpa using h
        exact ⟨hw, 0, by omega, rfl⟩
    · rintro ⟨hi, j, hj, rfl⟩
      cases j with
      | zero => exact .inr (by simpa using hi)
      | succ j =>
        rw [Nat.mul_succ] at hi ⊢
        rw [Nat.add_sub_cancel]
        exact .inl ⟨by simp [hi], by omega, j, by omega, rfl⟩

/-! ## The empty slot -/

theorem mod_succ (x k j : Nat) :
    x % 2 ^ (k * (j + 1)) = x % 2 ^ (k * j) + 2 ^ (k * j) * (x / 2 ^ (k * j) % 2 ^ k) := by
  rw [Nat.mul_succ, Nat.pow_add, Nat.mod_mul]

theorem ones_le_of_ne_zero {b : BitVec w} {j : Nat} (h : ∀ i < j, lane k b i ≠ 0) :
    ones k j ≤ b.toNat % 2 ^ (k * j) := by
  induction j with
  | zero => simp [ones]
  | succ j ih =>
    have hlow := ih fun i hi => h i (by omega)
    have hlane : 0 < b.toNat / 2 ^ (k * j) % 2 ^ k :=
      Nat.pos_of_ne_zero fun h0 => h j (by omega) (lane_eq_zero_iff.mpr h0)
    have := Nat.mul_le_mul_left (2 ^ (k * j)) hlane
    rw [mod_succ, ones]
    omega

/-- No borrow reaches a slot below which all slots are occupied. -/
theorem toNat_lane_sub (hk : 0 < k) {n j : Nat} (hn : k * n ≤ w) (hj : j < n) {b : BitVec w}
    (h : ∀ i < j, lane k b i ≠ 0) :
    (lane k (b - computeMask w k n) j).toNat = ((lane k b j).toNat + (2 ^ k - 1)) % 2 ^ k := by
  have hB := Nat.two_pow_pos k
  have hP := Nat.two_pow_pos (k * j)
  have hlow := ones_le_of_ne_zero h
  have hjw : 2 ^ (k * (j + 1)) ∣ 2 ^ w := Nat.pow_dvd_pow 2 (Nat.le_trans (Nat.mul_le_mul_left k hj) hn)
  obtain ⟨d, hd⟩ := hjw
  have hones : ones k n = ones k j + 2 ^ (k * j) * (1 + 2 ^ k * ones k (n - j - 1)) := by
    rw [show n = j + (1 + (n - j - 1)) by omega, ones_add, ones_add,
      show j + (1 + (n - j - 1)) - j - 1 = n - j - 1 by omega]
    simp [ones]
  have hM : (computeMask w k n).toNat = ones k n := toNat_computeMask hk hn
  have hle : ones k n < 2 ^ w := hM ▸ (computeMask w k n).isLt
  rw [toNat_lane, toNat_lane, BitVec.toNat_sub, hM]
  -- both sides only depend on the bits below slot `j + 1`
  have hdiv : ∀ x, x / 2 ^ (k * j) % 2 ^ k = x % 2 ^ (k * (j + 1)) / 2 ^ (k * j) := by
    intro x
    rw [mod_succ, Nat.add_mul_div_left _ _ hP, Nat.div_eq_of_lt (Nat.mod_lt _ hP), Nat.zero_add]
  rw [hdiv, Nat.mod_mod_of_dvd _ ⟨d, hd⟩]
  generalize hq : b.toNat / 2 ^ (k * j) = q
  generalize hl : b.toNat % 2 ^ (k * j) = l at hlow
  have hb : b.toNat = l + 2 ^ (k * j) * q := by rw [← hq, ← hl, Nat.mod_add_div]
  have hl' : l < 2 ^ (k * j) := hl ▸ Nat.mod_lt _ hP
  generalize ones k (n - j - 1) = t at hones
  have hB1 : 2 ^ k - 1 + 1 = 2 ^ k := by omega
  have hwt : 1 + 2 ^ k * t ≤ 2 ^ k * d := by
    rw [Nat.mul_succ, Nat.pow_add, Nat.mul_assoc] at hd
    have h1 : 2 ^ (k * j) * (1 + 2 ^ k * t) < 2 ^ (k * j) * (2 ^ k * d) := by omega
    exact Nat.le_of_lt (Nat.lt_of_mul_lt_mul_left h1)
  obtain ⟨e, he⟩ : ∃ e, 2 ^ k * d = 1 + 2 ^ k * t + e := ⟨_, (Nat.add_sub_cancel' hwt).symm⟩
  have hsum : 2 ^ w - ones k n + b.toNat = (l - ones k j) + 2 ^ (k * j) * (e + q) := by
    rw [Nat.mul_succ, Nat.pow_add, Nat.mul_assoc, he, Nat.mul_add] at hd
    rw [hd, hones, hb, Nat.mul_add _ e q]
    omega
  rw [hsum, mod_succ, Nat.add_mul_mod_self_left, Nat.mod_eq_of_lt (show l - ones k j < 2 ^ (k * j) by omega),
    Nat.add_mul_div_left _ _ hP, Nat.div_eq_of_lt (show l - ones k j < 2 ^ (k * j) by omega), Nat.zero_add,
    Nat.add_mul_div_left _ _ hP, Nat.div_eq_of_lt (show l - ones k j < 2 ^ (k * j) by omega), Nat.zero_add]
  -- `e` is `-1` modulo `2 ^ k`
  have hdt : t < d := by
    by_contra hlt
    have := Nat.mul_le_mul_left (2 ^ k) (Nat.le_of_not_lt hlt)
    omega
  obtain ⟨u, rfl⟩ : ∃ u, d = t + 1 + u := ⟨d - (t + 1), by omega⟩
  have he' : e = 2 ^ k - 1 + 2 ^ k * u := by
    rw [Nat.mul_add, Nat.mul_add, Nat.mul_one] at he
    omega
  rw [he', Nat.add_right_comm, Nat.add_mul_mod_self_left, Nat.add_comm, Nat.mod_add_mod]

theorem getLsbD_hasZero (hk : 0 < k) {n j : Nat} (hn : k * n ≤ w) (hj : j < n) {b : BitVec w}
    (h : ∀ i < j, lane k b i ≠ 0) : (hasZero k n b).getLsbD (k * j) = decide (lane k b j = 0) := by
  have hB : 2 ^ k = 2 ^ (k - 1) + 2 ^ (k - 1) := by
    rw [← Nat.two_mul, ← Nat.pow_succ', Nat.succ_eq_add_one, Nat.sub_add_cancel hk]
  have hlt : k * j + (k - 1) < w := by
    have := Nat.mul_le_mul_left k hj
    rw [Nat.mul_succ] at this
    omega
  have hmask : (computeMask w k n).getLsbD (k * j) = true := (getLsbD_computeMask hk n _).mpr ⟨by omega, j, hj, rfl⟩
  have htop : ∀ x : BitVec w, x.getLsbD (k * j + (k - 1)) = decide (2 ^ (k - 1) ≤ (lane k x j).toNat) := by
    intro x
    have hx := getLsbD_lane (k := k) x j (k - 1)
    rw [decide_eq_true (Nat.sub_lt hk Nat.one_pos), Bool.true_and, ← BitVec.testBit_toNat] at hx
    rw [← hx, Bool.eq_iff_iff, decide_eq_true_eq]
    constructor
    · exact Nat.ge_two_pow_of_testBit
    · intro hge
      rw [Nat.testBit_eq_decide_div_mod_eq, decide_eq_true_eq]
      have hub := (lane k x j).isLt
      have h1 : (lane k x j).toNat / 2 ^ (k - 1) < 2 := Nat.div_lt_of_lt_mul (by omega)
      have h2 : 1 ≤ (lane k x j).toNat / 2 ^ (k - 1) := (Nat.one_le_div_iff (Nat.two_pow_pos _)).mpr hge
      omega
  simp only [hasZero, BitVec.getLsbD_and, BitVec.getLsbD_ushiftRight, BitVec.getLsbD_not]
  rw [hmask, Nat.add_comm (k - 1), htop, htop, toNat_lane_sub hk hn hj h]
  have hub := (lane k b j).isLt
  have hP := Nat.two_pow_pos (k - 1)
  have hz : lane k b j = 0 ↔ (lane k b j).toNat = 0 := by rw [toNat_lane, lane_eq_zero_iff]
  rcases Nat.eq_zero_or_pos (lane k b j).toNat with h0 | hpos
  · rw [decide_eq_true (hz.mpr h0), h0, Nat.zero_add, Nat.mod_eq_of_lt (by omega)]
    simp [hlt, show 2 ^ (k - 1) ≤ 2 ^ k - 1 by omega]
  · have hmod : ((lane k b j).toNat + (2 ^ k - 1)) % 2 ^ k = (lane k b j).toNat - 1 := by
      rw [show (lane k b j).toNat + (2 ^ k - 1) = (lane k b j).toNat - 1 + 2 ^ k by omega, Nat.add_mod_right,
        Nat.mod_eq_of_lt (by omega)]
    rw [hmod, decide_eq_false (fun h => Nat.ne_of_gt hpos (hz.mp h))]
    by_cases hge : 2 ^ (k - 1) ≤ (lane k b j).toNat
    · simp [hge]
    · simp [show ¬ 2 ^ (k - 1) ≤ (lane k b j).toNat - 1 by omega]

theorem getLsbD_hasZero_of_not (hk : 0 < k) {n i : Nat} {b : BitVec w} (h : ¬ ∃ j < n, i = k * j) :
    (hasZero k n b).getLsbD i = false := by
  have hmask : (computeMask w k n).getLsbD i = false := by
    rw [← Bool.not_eq_true, getLsbD_computeMask hk]
    exact fun h' => h h'.2
  simp only [hasZero, BitVec.getLsbD_and, hmask, Bool.and_false]

theorem exists_first {n : Nat} {b : BitVec w} (h : ∃ j < n, lane k b j = 0) :
    ∃ j < n, lane k b j = 0 ∧ ∀ i < j, lane k b i ≠ 0 := by
  have hex : ∃ j, j < n ∧ lane k b j = 0 := h
  refine ⟨Nat.find hex, (Nat.find_spec hex).1, (Nat.find_spec hex).2, fun i hi h0 => ?_⟩
  exact Nat.find_min hex hi ⟨Nat.lt_trans hi (Nat.find_spec hex).1, h0⟩

theorem hasZero_eq_zero_iff (hk : 0 < k) {n : Nat} (hn : k * n ≤ w) (b : BitVec w) :
    hasZero k n b = 0 ↔ ∀ j < n, lane k b j ≠ 0 := by
  constructor
  · intro h0 j hj hz
    obtain ⟨i, hi, hzero, hfirst⟩ := exists_first ⟨j, hj, hz⟩
    have := getLsbD_hasZero hk hn hi hfirst
    simp [h0, hzero] at this
  · intro h
    refine BitVec.eq_of_getLsbD_eq fun i _ => ?_
    rw [show (0 : BitVec w).getLsbD i = false by simp]
    by_cases hi : ∃ j < n, i = k * j
    · obtain ⟨j, hj, rfl⟩ := hi
      rw [getLsbD_hasZero hk hn hj fun i hi => h i (Nat.lt_trans hi hj), decide_eq_false_iff_not]
      exact h j hj
    · exact getLsbD_hasZero_of_not hk hi

theorem tzcount_eq {a : BitVec w} {i : Nat} (hi : a.getLsbD i = true) (h : ∀ j < i, a.getLsbD j = false) :
    tzcount a = i := by
  have hw : i < w := BitVec.lt_of_getLsbD hi
  unfold tzcount
  rw [List.findIdx_eq (by simpa using hw)]
  simpa [hi] using h

theorem tzcount_hasZero (hk : 0 < k) {n : Nat} (hn : k * n ≤ w) {b : BitVec w} (h : hasZero k n b ≠ 0) :
    ∃ j < n, tzcount (hasZero k n b) = k * j ∧ lane k b j = 0 ∧ ∀ i < j, lane k b i ≠ 0 := by
  have hex : ∃ j < n, lane k b j = 0 := by
    by_contra hne
    exact h ((hasZero_eq_zero_iff hk hn b).mpr fun j hj h0 => hne ⟨j, hj, h0⟩)
  obtain ⟨j, hj, hzero, hfirst⟩ := exists_first hex
  refine ⟨j, hj, tzcount_eq (by rw [getLsbD_hasZero hk hn hj hfirst, decide_eq_true_eq]; exact hzero) ?_, hzero,
    hfirst⟩
  intro i hi
  by_cases hik : ∃ j < n, i = k * j
  · obtain ⟨l, hl, rfl⟩ := hik
    have hlj : l < j := Nat.lt_of_mul_lt_mul_left hi
    rw [getLsbD_hasZero hk hn hl fun i hi => hfirst i (Nat.lt_trans hi hlj), decide_eq_false_iff_not]
    exact hfirst l hlj
  · exact getLsbD_hasZero_of_not hk hik

/-! ## A value -/

theorem lane_computeMask_mul (hk : 0 < k) {n j : Nat} (hn : k * n ≤ w) (hj : j < n) {v : BitVec w}
    (hv : v.toNat < 2 ^ k) :
    (lane k (computeMask w k n * v) j).toNat = v.toNat := by
  have hP := Nat.two_pow_pos (k * j)
  have hB := Nat.two_pow_pos k
  have hle : ∀ i, ones k i * v.toNat < 2 ^ (k * i) := by
    intro i
    have h1 := ones_mul k i
    have h2 := Nat.mul_le_mul_left (ones k i) (show v.toNat ≤ 2 ^ k - 1 by omega)
    omega
  have hlt : ones k n * v.toNat < 2 ^ w := Nat.lt_of_lt_of_le (hle n) (Nat.pow_le_pow_right (by decide) hn)
  have hones : ones k n = ones k j + 2 ^ (k * j) * (1 + 2 ^ k * ones k (n - j - 1)) := by
    rw [show n = j + (1 + (n - j - 1)) by omega, ones_add, ones_add,
      show j + (1 + (n - j - 1)) - j - 1 = n - j - 1 by omega]
    simp [ones]
  rw [toNat_lane, BitVec.toNat_mul, toNat_computeMask hk hn, Nat.mod_eq_of_lt hlt, hones, Nat.add_mul,
    Nat.mul_assoc, Nat.add_mul_div_left _ _ hP, Nat.div_eq_of_lt (hle j), Nat.zero_add, Nat.add_mul, Nat.one_mul,
    Nat.mul_assoc, Nat.add_mul_mod_self_left, Nat.mod_eq_of_lt hv]

/-- The slots of the searched word that are zero hold the value. -/
theorem lane_xor_eq_zero_iff (hk : 0 < k) {n j : Nat} (hn : k * n ≤ w) (hj : j < n) (b : BitVec w) {v : BitVec w}
    (hv : v.toNat < 2 ^ k) : lane k (b ^^^ (computeMask w k n * v)) j = 0 ↔ lane k b j = v.setWidth k := by
  have hvj : lane k (computeMask w k n * v) j = v.setWidth k := by
    refine BitVec.eq_of_toNat_eq ?_
    rw [lane_computeMask_mul hk hn hj hv, BitVec.toNat_setWidth, Nat.mod_eq_of_lt hv]
  have hxor : lane k (b ^^^ (computeMask w k n * v)) j = lane k b j ^^^ v.setWidth k := by
    rw [← hvj]
    simp only [lane, BitVec.extractLsb'_xor]
  rw [hxor]
  exact BitVec.xor_eq_zero_iff

theorem hasValue_ne_zero_iff (hk : 0 < k) {n : Nat} (hn : k * n ≤ w) (b : BitVec w) {v : BitVec w}
    (hv : v.toNat < 2 ^ k) :
    hasValue k n b v ≠ 0 ↔ ∃ j < n, lane k b j = v.setWidth k := by
  rw [ne_eq, hasValue, hasZero_eq_zero_iff hk hn]
  constructor
  · intro h
    by_contra hne
    exact h fun j hj h0 => hne ⟨j, hj, (lane_xor_eq_zero_iff hk hn hj b hv).mp h0⟩
  · rintro ⟨j, hj, he⟩ h
    exact h j hj ((lane_xor_eq_zero_iff hk hn hj b hv).mpr he)

/-! ## The low slots of a word -/

theorem setWidth_computeMask (hk : 0 < k) {n p : Nat} (hp : k * p ≤ w) (hn : p ≤ n) :
    (computeMask w k n).setWidth (k * p) = computeMask (k * p) k p := by
  refine BitVec.eq_of_getLsbD_eq fun i hi => ?_
  rw [BitVec.getLsbD_setWidth, decide_eq_true hi, Bool.true_and, Bool.eq_iff_iff, getLsbD_computeMask hk,
    getLsbD_computeMask hk]
  constructor
  · rintro ⟨-, j, -, rfl⟩
    exact ⟨hi, j, Nat.lt_of_mul_lt_mul_left hi, rfl⟩
  · rintro ⟨-, j, hj, rfl⟩
    exact ⟨by omega, j, by omega, rfl⟩

/-- The borrow only runs upwards, so the low slots do not see the others. -/
theorem getLsbD_hasZero_setWidth (hk : 0 < k) {n p j : Nat} (hp : k * p ≤ w) (hn : p ≤ n) (hj : j < p)
    (b : BitVec w) :
    (hasZero k n b).getLsbD (k * j) = (hasZero k p (b.setWidth (k * p))).getLsbD (k * j) := by
  have hlt : k - 1 + k * j < k * p := by
    have := Nat.mul_le_mul_left k (Nat.succ_le_of_lt hj)
    rw [Nat.mul_succ] at this
    omega
  have hsub : (b - computeMask w k n).setWidth (k * p) = b.setWidth (k * p) - computeMask (k * p) k p := by
    rw [BitVec.sub_eq_add_neg, BitVec.setWidth_add _ _ hp, BitVec.setWidth_neg_of_le hp,
      setWidth_computeMask hk hp hn, ← BitVec.sub_eq_add_neg]
  have hbit : (b - computeMask w k n).getLsbD (k - 1 + k * j) =
      (b.setWidth (k * p) - computeMask (k * p) k p).getLsbD (k - 1 + k * j) := by
    rw [← hsub, BitVec.getLsbD_setWidth, decide_eq_true hlt, Bool.true_and]
  have hmask : (computeMask w k n).getLsbD (k * j) = (computeMask (k * p) k p).getLsbD (k * j) := by
    rw [← setWidth_computeMask hk hp hn, BitVec.getLsbD_setWidth, decide_eq_true (by omega), Bool.true_and]
  simp only [hasZero, BitVec.getLsbD_and, BitVec.getLsbD_ushiftRight, BitVec.getLsbD_not]
  rw [hbit, hmask, BitVec.getLsbD_setWidth, decide_eq_true hlt, decide_eq_true (show k - 1 + k * j < w by omega),
    Bool.true_and, Bool.true_and, Bool.true_and]

/-- What is found behind a mask of `p` slots is in one of these, whatever else the word holds. -/
theorem hasValue_and_ne_zero_iff (hk : 0 < k) {n p : Nat} (hp : k * p ≤ w) (hn : p ≤ n) (b : BitVec w)
    {v mask : BitVec w} (hv : v.toNat < 2 ^ k) (hmask : ∀ i < w, mask.getLsbD i = decide (i < k * p)) :
    hasValue k n b v &&& mask ≠ 0 ↔ ∃ j < p, lane k b j = v.setWidth k := by
  have hword : (b ^^^ (computeMask w k n * v)).setWidth (k * p) =
      b.setWidth (k * p) ^^^ (computeMask (k * p) k p * v.setWidth (k * p)) := by
    rw [BitVec.setWidth_xor, BitVec.setWidth_mul _ _ hp, setWidth_computeMask hk hp hn]
  have hlow : hasValue k n b v &&& mask ≠ 0 ↔ hasValue k p (b.setWidth (k * p)) (v.setWidth (k * p)) ≠ 0 := by
    rw [hasValue, hasValue, ← hword, not_iff_not]
    constructor
    · intro h0
      refine BitVec.eq_of_getLsbD_eq fun i hi => ?_
      by_cases hex : ∃ j < p, i = k * j
      · obtain ⟨j, hj, rfl⟩ := hex
        have h1 := congrArg (fun a => a.getLsbD (k * j)) h0
        simp only [BitVec.getLsbD_and] at h1
        rw [hmask _ (by omega), decide_eq_true hi, Bool.and_true, getLsbD_hasZero_setWidth hk hp hn hj] at h1
        rw [h1]
        simp
      · rw [getLsbD_hasZero_of_not hk hex]
        simp
    · intro h0
      refine BitVec.eq_of_getLsbD_eq fun i hi => ?_
      rw [BitVec.getLsbD_and, hmask i hi]
      by_cases hip : i < k * p
      · by_cases hex : ∃ j < n, i = k * j
        · obtain ⟨j, -, rfl⟩ := hex
          rw [getLsbD_hasZero_setWidth hk hp hn (Nat.lt_of_mul_lt_mul_left hip), h0]
          simp
        · rw [getLsbD_hasZero_of_not hk hex]
          simp
      · simp [hip]
  have hv' : (v.setWidth (k * p)).toNat < 2 ^ k := by
    rw [BitVec.toNat_setWidth]
    exact Nat.lt_of_le_of_lt (Nat.mod_le _ _) hv
  rw [hlow, hasValue_ne_zero_iff hk (Nat.le_refl _) _ hv']
  have hlane : ∀ j < p, lane k (b.setWidth (k * p)) j = lane k b j := by
    intro j hj
    refine BitVec.eq_of_getLsbD_eq fun i hi => ?_
    have : k * j + i < k * p := by
      have := Nat.mul_le_mul_left k (Nat.succ_le_of_lt hj)
      rw [Nat.mul_succ] at this
      omega
    rw [getLsbD_lane, getLsbD_lane, BitVec.getLsbD_setWidth, decide_eq_true this, Bool.true_and]
  have hval : ∀ j < p, (v.setWidth (k * p)).setWidth k = v.setWidth k := by
    intro j hj
    have : k ≤ k * p := Nat.le_mul_of_pos_right k (by omega)
    exact BitVec.setWidth_setWidth_of_le v this
  constructor
  · rintro ⟨j, hj, h⟩
    exact ⟨j, hj, by rw [← hlane j hj, h, hval j hj]⟩
  · rintro ⟨j, hj, h⟩
    exact ⟨j, hj, by rw [hlane j hj, h, hval j hj]⟩

end Cuckoo

end PartitionedFilters

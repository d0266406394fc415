import PartitionedFilters.Parameter
import Mathlib.Data.Nat.Bits

/-!
# Memory and packed fields

A memory is its bits, little endian: bit `8 * a + i` is bit `i` of byte `a`.
`gatheruBits` and `scatteruBits` are `_gatheru_bits` and `_scatteru_bits` of
`simd/helper.hpp` for one lane, with their three ways to reach `n` bits.
-/

namespace PartitionedFilters

@[ext]
structure Mem where
  bit : Nat → Bool

namespace Mem

def zero : Mem := ⟨fun _ => false⟩

def load (m : Mem) (p : Nat) : (n : Nat) → BitVec n
  | 0 => 0#0
  | n + 1 => BitVec.cons (m.bit (p + n)) (load m p n)

def store {n : Nat} (m : Mem) (p : Nat) (v : BitVec n) : Mem :=
  ⟨fun q => if p ≤ q ∧ q < p + n then v.getLsbD (q - p) else m.bit q⟩

end Mem

/-! ## `helper.hpp` -/

def isPowerOfTwo (x : Nat) : Bool := x == 1 || (x != 0 && x &&& (x - 1) == 0)

def valign (nBytes : Nat) : Nat := if nBytes % 64 ≠ 0 then (nBytes / 64 + 1) * 64 % 2 ^ 64 else nBytes

theorem valign_eq {b : Nat} (h : b + 64 ≤ 2 ^ 64) : valign b = 64 * ((b + 63) / 64) := by
  unfold valign
  split <;> omega

variable {r : RegisterSize}

def valueMask (r : RegisterSize) (n : Nat) : r.T :=
  if n = r.bits then BitVec.allOnes r.bits else (1#64 <<< n - 1#64).setWidth r.bits

def extractAddressBits (x : r.T) : r.T := x &&& (1#64 <<< 32 - 1#64).setWidth r.bits

/-- `gather` and `scatter` of one lane: word `i` of the array at byte `base`. -/
def gather (m : Mem) (base i : Nat) : r.T := m.load (8 * base + r.bits * i) r.bits

def scatter (m : Mem) (base i : Nat) (v : r.T) : Mem := m.store (8 * base + r.bits * i) v

/-- `_gatheru_bits`; `avx` says whether the vector has more than one lane. -/
def gatheruBits (avx nbitAligned : Bool) (n bitAddress base : Nat) (m : Mem) : r.T :=
  if nbitAligned && isPowerOfTwo n then
    (gather m base (bitAddress / r.bits) >>> (bitAddress % r.bits)) &&& valueMask r n
  else if !avx && decide (8 + n ≤ r.bits) then
    (m.load (8 * (base + bitAddress / 8)) r.bits >>> (bitAddress % 8)) &&& valueMask r n
  else
    let shiftRight := bitAddress % r.bits
    let value1 : r.T := gather m base (bitAddress / r.bits) >>> shiftRight
    -- two shifts, the amount can be the whole width
    let value2 : r.T := gather m base (bitAddress / r.bits + 1) <<< 1 <<< (r.bits - 1 - shiftRight)
    (value1 ||| value2) &&& valueMask r n

def scatteruBits (avx nbitAligned : Bool) (n bitAddress base : Nat) (value : r.T) (m : Mem) : Mem :=
  let maskedValue := value &&& valueMask r n
  if nbitAligned && isPowerOfTwo n then
    let bucketAddress := bitAddress / r.bits
    let shiftLeft := bitAddress % r.bits
    scatter m base bucketAddress
      ((gather m base bucketAddress &&& ~~~(valueMask r n <<< shiftLeft)) ||| maskedValue <<< shiftLeft)
  else if !avx && decide (8 + n ≤ r.bits) then
    let window := 8 * (base + bitAddress / 8)
    let shiftLeft := bitAddress % 8
    let m := m.store window (m.load window r.bits &&& ~~~(valueMask r n <<< shiftLeft))
    m.store window (m.load window r.bits ||| maskedValue <<< shiftLeft)
  else
    let bucketAddress := bitAddress / r.bits
    let shiftLeft := bitAddress % r.bits
    let shiftRight := r.bits - 1 - shiftLeft
    let m := scatter m base bucketAddress
      ((gather m base bucketAddress &&& ~~~(valueMask r n <<< shiftLeft)) ||| maskedValue <<< shiftLeft)
    scatter m base (bucketAddress + 1)
      ((gather m base (bucketAddress + 1) &&& ~~~(valueMask r n >>> 1 >>> shiftRight)) |||
        maskedValue >>> 1 >>> shiftRight)

/-! ## Memory laws -/

namespace Mem
variable {m : Mem} {p q n k : Nat}

@[simp] theorem getLsbD_load (m : Mem) (p n i : Nat) :
    (m.load p n).getLsbD i = (decide (i < n) && m.bit (p + i)) := by
  induction n with
  | zero => simp
  | succ n ih =>
    rw [load, BitVec.getLsbD_cons, ih]
    by_cases hi : i = n
    · simp [hi]
    · rw [if_neg hi, show decide (i < n) = decide (i < n + 1) from decide_eq_decide.mpr (by omega)]

theorem store_of_mem (m : Mem) (v : BitVec n) (h1 : p ≤ q) (h2 : q < p + n) :
    (m.store p v).bit q = v.getLsbD (q - p) :=
  if_pos ⟨h1, h2⟩

theorem store_of_notMem (m : Mem) (v : BitVec n) (h : q < p ∨ p + n ≤ q) : (m.store p v).bit q = m.bit q :=
  if_neg (by omega)

theorem load_store (m : Mem) (p : Nat) (v : BitVec n) : (m.store p v).load p n = v := by
  ext i hi
  rw [← BitVec.getLsbD_eq_getElem, ← BitVec.getLsbD_eq_getElem, getLsbD_load,
    store_of_mem m v (Nat.le_add_right p i) (Nat.add_lt_add_left hi p)]
  simp [hi]

theorem load_store_of_disjoint (m : Mem) (v : BitVec n) (h : p + n ≤ q ∨ q + k ≤ p) :
    (m.store p v).load q k = m.load q k := by
  ext i hi
  rw [← BitVec.getLsbD_eq_getElem, ← BitVec.getLsbD_eq_getElem, getLsbD_load, getLsbD_load,
    store_of_notMem m v (by omega)]

end Mem

/-! ## The packed fields -/

theorem getLsbD_valueMask {n : Nat} (hn : n ≤ r.bits) (i : Nat) :
    (valueMask r n).getLsbD i = decide (i < n) := by
  have hw := r.bits_le
  unfold valueMask
  split
  · rename_i h
    rw [h, BitVec.getLsbD_allOnes]
  · rw [BitVec.getLsbD_setWidth, ← BitVec.testBit_toNat, toNat_lowMask (by omega), Nat.testBit_two_pow_sub_one]
    by_cases hi : i < n
    · simp [hi, show i < r.bits by omega]
    · simp [hi]

theorem bits_eq_two_pow (r : RegisterSize) : ∃ j, r.bits = 2 ^ j := by
  cases r
  · exact ⟨5, rfl⟩
  · exact ⟨6, rfl⟩

theorem isPowerOfTwo_iff {n : Nat} : isPowerOfTwo n = true ↔ ∃ j, n = 2 ^ j := by
  unfold isPowerOfTwo
  rcases Nat.eq_zero_or_pos n with rfl | hn
  · refine iff_of_false (by decide) ?_
    rintro ⟨j, hj⟩
    exact Nat.ne_of_lt (Nat.two_pow_pos j) hj
  · have h := Nat.and_sub_one_eq_zero_iff_isPowerOfTwo (Nat.ne_of_gt hn)
    rw [Nat.isPowerOfTwo] at h
    rw [← h, Bool.or_eq_true, Bool.and_eq_true, beq_iff_eq, bne_iff_ne, beq_iff_eq]
    constructor
    · rintro (rfl | ⟨-, h⟩)
      · rfl
      · exact h
    · exact fun h => .inr ⟨Nat.ne_of_gt hn, h⟩

/-- An aligned field of a power of two bits does not leave its word. -/
theorem aligned_fits {n : Nat} (hp : isPowerOfTwo n = true) (hn : n ≤ r.bits) {bitAddress : Nat}
    (hd : n ∣ bitAddress) :
    bitAddress % r.bits + n ≤ r.bits := by
  obtain ⟨j, rfl⟩ := isPowerOfTwo_iff.mp hp
  obtain ⟨w, hw⟩ := bits_eq_two_pow r
  have hdvd : 2 ^ j ∣ r.bits := hw ▸ Nat.pow_dvd_pow 2 ((Nat.pow_le_pow_iff_right (by decide)).mp (hw ▸ hn))
  have hlt := Nat.mod_lt bitAddress r.bits_pos
  obtain ⟨a, ha⟩ := hdvd
  obtain ⟨b, hb⟩ : 2 ^ j ∣ bitAddress % r.bits := (Nat.dvd_mod_iff ⟨a, ha⟩).mpr hd
  rw [hb] at hlt ⊢
  rw [ha] at hlt ⊢
  rw [← Nat.mul_succ]
  exact Nat.mul_le_mul_left _ (Nat.lt_of_mul_lt_mul_left hlt)

theorem gatheruBits_of_fits {n : Nat} (hn : n ≤ r.bits) (avx al : Bool) (base : Nat) (m : Mem) {bitAddress : Nat}
    (hd : al = true → isPowerOfTwo n = true → bitAddress % r.bits + n ≤ r.bits) :
    (gatheruBits avx al n bitAddress base m : r.T) = (m.load (8 * base + bitAddress) n).setWidth r.bits := by
  have hdm := Nat.div_add_mod bitAddress r.bits
  have hlt := Nat.mod_lt bitAddress r.bits_pos
  apply BitVec.eq_of_getLsbD_eq
  intro i hi
  rw [BitVec.getLsbD_setWidth, Mem.getLsbD_load]
  unfold gatheruBits
  split
  · rename_i hal
    rw [Bool.and_eq_true] at hal
    have hfit := hd hal.1 hal.2
    rw [BitVec.getLsbD_and, getLsbD_valueMask hn, BitVec.getLsbD_ushiftRight, gather, Mem.getLsbD_load]
    by_cases hin : i < n
    · rw [show 8 * base + r.bits * (bitAddress / r.bits) + (bitAddress % r.bits + i) =
        8 * base + bitAddress + i by omega]
      simp [hin, hi, show bitAddress % r.bits + i < r.bits by omega]
    · simp [hin]
  split
  · rename_i hfit
    rw [Bool.and_eq_true, decide_eq_true_eq] at hfit
    have h8 := Nat.mod_lt bitAddress (show 0 < 8 by decide)
    rw [BitVec.getLsbD_and, getLsbD_valueMask hn, BitVec.getLsbD_ushiftRight, Mem.getLsbD_load]
    by_cases hin : i < n
    · rw [show 8 * (base + bitAddress / 8) + (bitAddress % 8 + i) = 8 * base + bitAddress + i by omega]
      simp [hin, hi, show bitAddress % 8 + i < r.bits by omega]
    · simp [hin]
  · rw [BitVec.getLsbD_and, getLsbD_valueMask hn, BitVec.getLsbD_or, BitVec.getLsbD_ushiftRight,
      BitVec.getLsbD_shiftLeft, BitVec.getLsbD_shiftLeft, gather, gather, Mem.getLsbD_load, Mem.getLsbD_load]
    by_cases hin : i < n
    · by_cases hword : bitAddress % r.bits + i < r.bits
      · -- all of the second word is shifted out
        rw [show 8 * base + r.bits * (bitAddress / r.bits) + (bitAddress % r.bits + i) =
          8 * base + bitAddress + i by omega]
        by_cases hs : i < r.bits - 1 - bitAddress % r.bits
        · simp [hin, hi, hword, hs]
        · simp [hin, hi, hword, show i - (r.bits - 1 - bitAddress % r.bits) = 0 by omega]
      · rw [show 8 * base + r.bits * (bitAddress / r.bits + 1) + (i - (r.bits - 1 - bitAddress % r.bits) - 1) =
          8 * base + bitAddress + i by rw [Nat.mul_succ]; omega]
        simp [hin, hi, hword, show ¬ i < r.bits - 1 - bitAddress % r.bits by omega,
          show ¬ i - (r.bits - 1 - bitAddress % r.bits) = 0 by omega,
          show i - (r.bits - 1 - bitAddress % r.bits) < r.bits by omega,
          show i - (r.bits - 1 - bitAddress % r.bits) - 1 < r.bits by omega]
    · simp [hin]

theorem gatheruBits_eq {n : Nat} (hn : n ≤ r.bits) (avx al : Bool) (base : Nat) (m : Mem) {bitAddress : Nat}
    (hd : al = true → isPowerOfTwo n = true → n ∣ bitAddress) :
    (gatheruBits avx al n bitAddress base m : r.T) = (m.load (8 * base + bitAddress) n).setWidth r.bits :=
  gatheruBits_of_fits hn avx al base m fun h1 h2 => aligned_fits h2 hn (hd h1 h2)

theorem Mem.store_store {n : Nat} (m : Mem) (p : Nat) (v u : BitVec n) : (m.store p v).store p u = m.store p u := by
  refine Mem.ext (funext fun q => ?_)
  by_cases hq : p ≤ q ∧ q < p + n
  · rw [store_of_mem _ _ hq.1 hq.2, store_of_mem _ _ hq.1 hq.2]
  · rw [store_of_notMem _ _ (by omega), store_of_notMem _ _ (by omega), store_of_notMem _ _ (by omega)]

theorem store_merge_apply (m : Mem) (window : Nat) (mask val : r.T) {q : Nat} (h1 : window ≤ q)
    (h2 : q < window + r.bits) :
    (m.store window ((m.load window r.bits &&& ~~~mask) ||| val)).bit q =
      ((m.bit q && !mask.getLsbD (q - window)) || val.getLsbD (q - window)) := by
  have hi : q - window < r.bits := by omega
  rw [Mem.store_of_mem _ _ h1 h2, BitVec.getLsbD_or, BitVec.getLsbD_and, BitVec.getLsbD_not, Mem.getLsbD_load,
    Nat.add_sub_cancel' h1]
  simp [hi]

/-- A field that lies within the window is replaced by shifting mask and value to it. -/
theorem store_merge {n s : Nat} (hs : s + n ≤ r.bits) (m : Mem) (window : Nat) (value : r.T) :
    m.store window ((m.load window r.bits &&& ~~~(valueMask r n <<< s)) ||| (value &&& valueMask r n) <<< s) =
      m.store (window + s) (value.setWidth n) := by
  have hn : n ≤ r.bits := Nat.le_trans (Nat.le_add_left n s) hs
  refine Mem.ext (funext fun q => ?_)
  by_cases hq : window ≤ q ∧ q < window + r.bits
  · have hi : q - window < r.bits := by omega
    rw [store_merge_apply m window _ _ hq.1 hq.2, BitVec.getLsbD_shiftLeft, BitVec.getLsbD_shiftLeft,
      BitVec.getLsbD_and, getLsbD_valueMask hn]
    by_cases hin : window + s ≤ q ∧ q < window + s + n
    · rw [Mem.store_of_mem _ _ hin.1 hin.2, BitVec.getLsbD_setWidth, show q - (window + s) =
        q - window - s by omega]
      simp [hi, show ¬ q - window < s by omega, show q - window - s < n by omega]
    · rw [Mem.store_of_notMem _ _ (by omega)]
      by_cases hlt : q - window < s
      · simp [hlt]
      · simp [hlt, show ¬ q - window - s < n by omega]
  · rw [Mem.store_of_notMem _ _ (by omega), Mem.store_of_notMem _ _ (by omega)]

theorem scatteruBits_of_fits {n : Nat} (hn : n ≤ r.bits) (avx al : Bool) (base : Nat) (value : r.T) (m : Mem)
    {bitAddress : Nat} (hd : al = true → isPowerOfTwo n = true → bitAddress % r.bits + n ≤ r.bits) :
    scatteruBits avx al n bitAddress base value m = m.store (8 * base + bitAddress) (value.setWidth n) := by
  have hdm := Nat.div_add_mod bitAddress r.bits
  have hlt := Nat.mod_lt bitAddress r.bits_pos
  unfold scatteruBits
  simp only
  split
  · rename_i hal
    rw [Bool.and_eq_true] at hal
    rw [scatter, gather, store_merge (hd hal.1 hal.2),
      show 8 * base + r.bits * (bitAddress / r.bits) + bitAddress % r.bits = 8 * base + bitAddress by omega]
  split
  · rename_i hfit
    rw [Bool.and_eq_true, decide_eq_true_eq] at hfit
    have h8 := Nat.mod_lt bitAddress (show 0 < 8 by decide)
    rw [Mem.load_store, Mem.store_store, store_merge (by omega),
      show 8 * (base + bitAddress / 8) + bitAddress % 8 = 8 * base + bitAddress by omega]
  · -- the field may continue in the second word
    rw [scatter, scatter, gather, gather, Nat.mul_succ]
    generalize hw1 : 8 * base + r.bits * (bitAddress / r.bits) = w1
    rw [show 8 * base + (r.bits * (bitAddress / r.bits) + r.bits) = w1 + r.bits by omega,
      show 8 * base + bitAddress = w1 + bitAddress % r.bits by omega]
    generalize bitAddress % r.bits = s at hlt ⊢
    refine Mem.ext (funext fun q => ?_)
    by_cases hq2 : w1 + r.bits ≤ q ∧ q < w1 + r.bits + r.bits
    · rw [store_merge_apply _ _ _ _ hq2.1 hq2.2, Mem.store_of_notMem _ _ (.inr hq2.1), BitVec.getLsbD_ushiftRight,
        BitVec.getLsbD_ushiftRight, BitVec.getLsbD_ushiftRight, BitVec.getLsbD_ushiftRight, BitVec.getLsbD_and,
        getLsbD_valueMask hn]
      by_cases hin : q < w1 + s + n
      · rw [Mem.store_of_mem _ _ (by omega) hin, BitVec.getLsbD_setWidth,
          show 1 + (r.bits - 1 - s + (q - (w1 + r.bits))) = q - (w1 + s) by omega]
        simp [show q - (w1 + s) < n by omega]
      · rw [Mem.store_of_notMem _ _ (by omega)]
        simp [show ¬ 1 + (r.bits - 1 - s + (q - (w1 + r.bits))) < n by omega]
    · rw [Mem.store_of_notMem _ _ (by omega)]
      by_cases hq1 : w1 ≤ q ∧ q < w1 + r.bits
      · have hi : q - w1 < r.bits := by omega
        rw [store_merge_apply _ _ _ _ hq1.1 hq1.2, BitVec.getLsbD_shiftLeft, BitVec.getLsbD_shiftLeft,
          BitVec.getLsbD_and, getLsbD_valueMask hn]
        by_cases hin : w1 + s ≤ q ∧ q < w1 + s + n
        · rw [Mem.store_of_mem _ _ hin.1 hin.2, BitVec.getLsbD_setWidth, show q - (w1 + s) = q - w1 - s by omega]
          simp [hi, show ¬ q - w1 < s by omega, show q - w1 - s < n by omega]
        · rw [Mem.store_of_notMem _ _ (by omega)]
          by_cases hlt : q - w1 < s
          · simp [hlt]
          · simp [hlt, show ¬ q - w1 - s < n by omega]
      · rw [Mem.store_of_notMem _ _ (by omega), Mem.store_of_notMem _ _ (by omega)]

theorem scatteruBits_eq {n : Nat} (hn : n ≤ r.bits) (avx al : Bool) (base : Nat) (value : r.T) (m : Mem)
    {bitAddress : Nat} (hd : al = true → isPowerOfTwo n = true → n ∣ bitAddress) :
    scatteruBits avx al n bitAddress base value m = m.store (8 * base + bitAddress) (value.setWidth n) :=
  scatteruBits_of_fits hn avx al base value m fun h1 h2 => aligned_fits h2 hn (hd h1 h2)

theorem gatheruBits_zero (avx al : Bool) (n bitAddress base : Nat) :
    (gatheruBits avx al n bitAddress base Mem.zero : r.T) = 0 := by
  have hload : ∀ p n, Mem.zero.load p n = 0 := fun p n => by
    refine BitVec.eq_of_getLsbD_eq fun i hi => ?_
    simp [Mem.zero]
  unfold gatheruBits gather
  simp [hload]

section
variable {n : Nat} (hn : n ≤ r.bits) (avx al : Bool) (bitAddress base : Nat) (m : Mem)
include hn

theorem gatheruBits_avx :
    (gatheruBits avx al n bitAddress base m : r.T) = gatheruBits true al n bitAddress base m := by
  by_cases h : al = true ∧ isPowerOfTwo n = true
  · unfold gatheruBits
    rw [if_pos (by simp [h]), if_pos (by simp [h])]
  · rw [gatheruBits_of_fits hn avx al base m fun h1 h2 => absurd ⟨h1, h2⟩ h,
      gatheruBits_of_fits hn true al base m fun h1 h2 => absurd ⟨h1, h2⟩ h]

theorem scatteruBits_avx (value : r.T) :
    scatteruBits avx al n bitAddress base value m = scatteruBits true al n bitAddress base value m := by
  by_cases h : al = true ∧ isPowerOfTwo n = true
  · unfold scatteruBits
    simp [h]
  · rw [scatteruBits_of_fits hn avx al base value m fun h1 h2 => absurd ⟨h1, h2⟩ h,
      scatteruBits_of_fits hn true al base value m fun h1 h2 => absurd ⟨h1, h2⟩ h]

theorem scatteruBits_gatheruBits :
    scatteruBits avx al n bitAddress base (gatheruBits avx al n bitAddress base m : r.T) m = m := by
  by_cases h : al = true ∧ isPowerOfTwo n = true
  · have hcond : (al && isPowerOfTwo n) = true := by simp [h]
    refine Mem.ext (funext fun q => ?_)
    unfold scatteruBits gatheruBits
    simp only [hcond, if_true, scatter, gather]
    by_cases hq : 8 * base + r.bits * (bitAddress / r.bits) ≤ q ∧
      q < 8 * base + r.bits * (bitAddress / r.bits) + r.bits
    · have hi : q - (8 * base + r.bits * (bitAddress / r.bits)) < r.bits := by omega
      rw [store_merge_apply _ _ _ _ hq.1 hq.2]
      simp only [BitVec.getLsbD_shiftLeft, BitVec.getLsbD_and, getLsbD_valueMask hn, BitVec.getLsbD_ushiftRight,
        Mem.getLsbD_load]
      generalize hb : q - (8 * base + r.bits * (bitAddress / r.bits)) = b at hi
      by_cases hs : b < bitAddress % r.bits
      · simp [hs]
      · rw [show 8 * base + r.bits * (bitAddress / r.bits) +
          (bitAddress % r.bits + (b - bitAddress % r.bits)) = q by omega]
        by_cases hin : b - bitAddress % r.bits < n
        · simp [hs, hin, hi, show bitAddress % r.bits + (b - bitAddress % r.bits) < r.bits by omega]
        · simp [hin]
    · rw [Mem.store_of_notMem _ _ (by omega)]
  · rw [gatheruBits_of_fits hn avx al base m fun h1 h2 => absurd ⟨h1, h2⟩ h,
      scatteruBits_of_fits hn avx al base _ m fun h1 h2 => absurd ⟨h1, h2⟩ h]
    refine Mem.ext (funext fun q => ?_)
    by_cases hq : 8 * base + bitAddress ≤ q ∧ q < 8 * base + bitAddress + n
    · rw [Mem.store_of_mem _ _ hq.1 hq.2, BitVec.getLsbD_setWidth, BitVec.getLsbD_setWidth, Mem.getLsbD_load,
        Nat.add_sub_cancel' hq.1]
      simp [show q - (8 * base + bitAddress) < n by omega, show q - (8 * base + bitAddress) < r.bits by omega]
    · rw [Mem.store_of_notMem _ _ (by omega)]

end

end PartitionedFilters

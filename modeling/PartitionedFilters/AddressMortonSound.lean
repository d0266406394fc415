import PartitionedFilters.AddressSound

/-!
# The addressing of the mode `Morton`

The offset of a fingerprint is odd, so it leads from even to odd addresses and
back, as long as the one subtraction or addition of the size keeps the parity.
-/

namespace PartitionedFilters

variable {r : RegisterSize}

def mortonOffset (signature : r.T) : r.T := (murmur signature &&& 0x1fff) ||| 1

theorem toNat_one (r : RegisterSize) : (1 : r.T).toNat = 1 := BitVec.toNat_one r.bits_pos

theorem mortonOffset_lt (signature : r.T) : (mortonOffset signature).toNat < 2 ^ 13 := by
  rw [mortonOffset, BitVec.toNat_or, BitVec.toNat_and, toNat_one]
  refine Nat.or_lt_two_pow (Nat.lt_of_le_of_lt Nat.and_le_right ?_) (by decide)
  cases r <;> decide

theorem mortonOffset_odd (signature : r.T) : (mortonOffset signature).toNat % 2 = 1 := by
  rw [mortonOffset, BitVec.toNat_or, toNat_one, Nat.mod_two_eq_one_iff_testBit_zero, Nat.testBit_or]
  simp

/-! ## One address -/

/-- The address before the size is added or subtracted. -/
def mortonStep (n offset a : Nat) : Nat := if a % 2 = 1 then (a + offset) % n else (a + n - offset) % n

def mortonAlternative (n size offset a : Nat) : Nat :=
  let alternate := mortonStep n offset a
  if alternate < size then alternate else if a % 2 = 1 then alternate - size else (alternate + size) % n

theorem and_one_eq (a : r.T) : a &&& 1 = if a.toNat % 2 = 1 then 1 else 0 := by
  refine BitVec.eq_of_toNat_eq ?_
  rw [BitVec.toNat_and, toNat_one, Nat.and_one_is_mod]
  split
  · rename_i h
    rw [h, toNat_one]
  · rename_i h
    rw [BitVec.ofNat_eq_ofNat, BitVec.toNat_zero]
    omega

theorem one_shiftLeft (r : RegisterSize) : (-1 + (1 : r.T) <<< 1) = 1 := by cases r <;> rfl

theorem zero_shiftLeft (r : RegisterSize) : (-1 + (0 : r.T) <<< 1) = -1 := by cases r <;> rfl

theorem T_mul_one (x : r.T) : x * 1 = x := BitVec.mul_one x

theorem T_mul_neg_one (x : r.T) : x * -1 = -x := (BitVec.mul_neg ..).trans (congrArg _ (BitVec.mul_one x))

namespace AddresserEntry

theorem toNat_computeAlternativeAddress_Morton (e : AddresserEntry r) (a f : r.T) :
    (e.computeAlternativeAddress .Morton a f).toNat =
      mortonAlternative (2 ^ r.bits) e.size.toNat (mortonOffset f).toNat a.toNat := by
  have ho := mortonOffset_lt f
  have hbits : 2 ^ 13 < 2 ^ r.bits := Nat.pow_lt_pow_right (by decide) (by cases r <;> decide)
  have hstep : (a + mortonOffset f * (-1 + (a &&& 1) <<< 1)).toNat =
      mortonStep (2 ^ r.bits) (mortonOffset f).toNat a.toNat := by
    rw [and_one_eq, mortonStep]
    split
    · rw [one_shiftLeft, T_mul_one, BitVec.toNat_add]
    · rw [zero_shiftLeft, T_mul_neg_one, ← BitVec.sub_eq_add_neg, BitVec.toNat_sub]
      congr 1
      omega
  rw [mortonAlternative]
  simp only [← hstep]
  show (a + mortonOffset f * _ - e.size * (-1 + (if a &&& 1 = 1 then (1 : r.T) else 0) <<< 1) *
    BitVec.ofNat r.bits (e.size.ule (a + mortonOffset f * _)).toNat).toNat = _
  generalize a + mortonOffset f * (-1 + (a &&& 1) <<< 1) = alternate
  by_cases h : alternate.toNat < e.size.toNat
  · have hule : e.size.ule alternate = false := by simpa [BitVec.ule_eq_decide] using h
    have hzero : ∀ x : r.T, x * BitVec.ofNat r.bits (false.toNat) = 0 := fun x => BitVec.mul_zero
    rw [hule, hzero, if_pos h]
    exact congrArg _ (BitVec.sub_zero _)
  · have hule : e.size.ule alternate = true := by simpa [BitVec.ule_eq_decide] using h
    have hone : ∀ x : r.T, x * BitVec.ofNat r.bits (true.toNat) = x := T_mul_one
    rw [hule, hone, if_neg h, and_one_eq]
    split
    · rw [if_pos rfl, one_shiftLeft, T_mul_one, BitVec.toNat_sub_of_le (BitVec.le_def.mpr (Nat.le_of_not_lt h))]
    · rw [if_neg (by cases r <;> decide), zero_shiftLeft, T_mul_neg_one, BitVec.sub_neg, BitVec.toNat_add]

end AddresserEntry

/-! ## All addresses -/

section
variable {n size offset : Nat} (heven : n % 2 = 0) (hsize : size < n) (hodd : offset % 2 = 1) (hn : 2 * offset < n)
include heven hsize hodd hn

theorem mortonStep_even {a : Nat} (ha : a < size) (h2 : a % 2 = 0) :
    mortonStep n offset a = if offset ≤ a then a - offset else a + n - offset := by
  rw [mortonStep, if_neg (by omega)]
  split
  · rw [show a + n - offset = a - offset + n by omega, Nat.add_mod_right, Nat.mod_eq_of_lt (by omega)]
  · rw [Nat.mod_eq_of_lt (by omega)]

theorem mortonStep_odd {a : Nat} (ha : a < size) (h2 : a % 2 = 1) :
    mortonStep n offset a = if a + offset < n then a + offset else a + offset - n := by
  rw [mortonStep, if_pos h2]
  split
  · rename_i h
    rw [Nat.mod_eq_of_lt h]
  · rename_i h
    rw [Nat.mod_eq_sub_mod (Nat.le_of_not_lt h), Nat.mod_eq_of_lt (by omega)]

/-- The alternative address of an even address, with the one addition that is wrapped. -/
theorem mortonAlternative_even {a : Nat} (ha : a < size) (h2 : a % 2 = 0) :
    mortonAlternative n size offset a = if offset ≤ a then a - offset
      else if a + n - offset < size then a + n - offset else if offset ≤ a + size then a + size - offset
      else a + n - offset + size := by
  rw [mortonAlternative, mortonStep_even heven hsize hodd hn ha h2]
  by_cases hle : offset ≤ a
  · rw [if_pos hle, if_pos hle, if_pos (by omega)]
  · rw [if_neg hle, if_neg hle, if_neg (show ¬a % 2 = 1 by omega)]
    split
    · rfl
    · split
      · rw [show a + n - offset + size = a + size - offset + n by omega, Nat.add_mod_right,
          Nat.mod_eq_of_lt (by omega)]
      · rw [Nat.mod_eq_of_lt (by omega)]

theorem mortonAlternative_odd {a : Nat} (ha : a < size) (h2 : a % 2 = 1) :
    mortonAlternative n size offset a = if a + offset < size then a + offset
      else if a + offset < n then a + offset - size else a + offset - n := by
  rw [mortonAlternative, mortonStep_odd heven hsize hodd hn ha h2]
  rw [if_pos h2]
  split
  · split <;> simp_all
  · rw [if_pos (by omega), if_neg (by omega)]

/-- In a table of even size that is neither smaller than the offset nor so close to the end of the words,
alternative addresses come in pairs. -/
theorem mortonAlternative_of_even (h2 : size % 2 = 0) (hle : offset ≤ size) (hgap : size + offset ≤ n) {a : Nat}
    (ha : a < size) : mortonAlternative n size offset a < size ∧
      mortonAlternative n size offset (mortonAlternative n size offset a) = a := by
  rcases Nat.mod_two_eq_zero_or_one a with hpar | hpar
  · have heq := mortonAlternative_even heven hsize hodd hn ha hpar
    rw [if_neg (show ¬a + n - offset < size by omega)] at heq
    obtain ⟨b, hb⟩ : ∃ b, b = mortonAlternative n size offset a := ⟨_, rfl⟩
    rw [← hb] at heq ⊢
    have hlt : b < size ∧ b % 2 = 1 := by
      split at heq
      · omega
      split at heq <;> omega
    refine ⟨hlt.1, ?_⟩
    rw [mortonAlternative_odd heven hsize hodd hn hlt.1 hlt.2]
    split at heq
    · rw [if_pos (by omega)]
      omega
    split at heq
    · rw [if_neg (by omega), if_pos (by omega)]
      omega
    · omega
  · have heq := mortonAlternative_odd heven hsize hodd hn ha hpar
    obtain ⟨b, hb⟩ : ∃ b, b = mortonAlternative n size offset a := ⟨_, rfl⟩
    rw [← hb] at heq ⊢
    have hlt : b < size ∧ b % 2 = 0 := by
      split at heq
      · omega
      split at heq <;> omega
    refine ⟨hlt.1, ?_⟩
    rw [mortonAlternative_even heven hsize hodd hn hlt.1 hlt.2]
    split at heq
    · rw [if_pos (by omega)]
      omega
    split at heq
    · rw [if_neg (by omega), if_neg (by omega), if_pos (by omega)]
      omega
    · omega

/-- A table as large as the offset has each address as its own alternative. -/
theorem mortonAlternative_self (heq : size = offset) {a : Nat} (ha : a < size) :
    mortonAlternative n size offset a = a := by
  rcases Nat.mod_two_eq_zero_or_one a with hpar | hpar
  · rw [mortonAlternative_even heven hsize hodd hn ha hpar, if_neg (by omega), if_neg (by omega), if_pos (by omega)]
    omega
  · rw [mortonAlternative_odd heven hsize hodd hn ha hpar, if_neg (by omega), if_pos (by omega)]
    omega

theorem mortonAlternative_pairs_iff (hpos : 0 < size) :
    (∀ a < size, mortonAlternative n size offset a < size ∧
      mortonAlternative n size offset (mortonAlternative n size offset a) = a) ↔
      (size % 2 = 0 ∧ offset ≤ size ∧ size + offset ≤ n) ∨ size = offset := by
  constructor
  · intro h
    have hle : offset ≤ size := by
      by_contra hgt
      have h0 := (h 0 hpos).1
      rw [mortonAlternative_even heven hsize hodd hn hpos rfl, if_neg (by omega), if_neg (by omega),
        if_neg (by omega)] at h0
      omega
    by_contra hnot
    obtain ⟨hnot, hne⟩ := not_or.mp hnot
    -- the last address below the offset
    have hlast : mortonAlternative n size offset (offset - 1) = size - 1 := by
      rw [mortonAlternative_even heven hsize hodd hn (by omega) (by omega), if_neg (by omega), if_neg (by omega),
        if_pos (by omega)]
      omega
    have hback := (h (offset - 1) (by omega)).2
    rw [hlast] at hback
    rcases Nat.mod_two_eq_zero_or_one size with h2 | h2
    · rw [mortonAlternative_odd heven hsize hodd hn (by omega) (by omega), if_neg (by omega),
        if_neg (by omega)] at hback
      omega
    · rw [mortonAlternative_even heven hsize hodd hn (by omega) (by omega), if_pos (by omega)] at hback
      omega
  · rintro (⟨h2, hle, hgap⟩ | heq) a ha
    · exact mortonAlternative_of_even heven hsize hodd hn h2 hle hgap ha
    · rw [mortonAlternative_self heven hsize hodd hn heq ha]
      exact ⟨ha, mortonAlternative_self heven hsize hodd hn heq ha⟩

end

namespace Addresser

/-- The alternative addresses of a fingerprint come in pairs in exactly these tables. -/
theorem morton_pairs_iff {histogram : List r.T} {index : Nat} (hi : index < histogram.length)
    (hpos : 1 ≤ histogram[index].toNat) (f : r.T) :
    (∀ a : r.T, a.toNat < getSize (new .Morton histogram) index →
      (computeAlternativeAddressVertical .Morton (new .Morton histogram) index a f).toNat <
        getSize (new .Morton histogram) index ∧
      (computeAlternativeAddressHorizontal .Morton (new .Morton histogram) index a f).toNat <
        getSize (new .Morton histogram) index ∧
      computeAlternativeAddressVertical .Morton (new .Morton histogram) index
        (computeAlternativeAddressVertical .Morton (new .Morton histogram) index a f) f = a ∧
      computeAlternativeAddressHorizontal .Morton (new .Morton histogram) index
        (computeAlternativeAddressHorizontal .Morton (new .Morton histogram) index a f) f = a) ↔
      (histogram[index].toNat % 2 = 0 ∧ (mortonOffset f).toNat ≤ histogram[index].toNat ∧
        histogram[index].toNat + (mortonOffset f).toNat ≤ 2 ^ r.bits) ∨ histogram[index].toNat =
          (mortonOffset f).toNat := by
  have hsize : ((new .Morton histogram).broadcast index).size = histogram[index] := by
    rw [broadcast_new _ hi]
    rfl
  have hbits : 2 * 2 ^ 13 ≤ 2 ^ r.bits ∧ 2 ^ r.bits % 2 = 0 := by cases r <;> decide
  have ho := mortonOffset_lt f
  rw [← mortonAlternative_pairs_iff hbits.2 histogram[index].isLt (mortonOffset_odd f) (by omega) hpos]
  simp only [getSize, computeAlternativeAddressVertical, computeAlternativeAddressHorizontal, load_eq_broadcast,
    ← BitVec.toNat_inj, AddresserEntry.toNat_computeAlternativeAddress_Morton, hsize]
  constructor
  · intro h a ha
    have hfit : a % 2 ^ r.bits = a := Nat.mod_eq_of_lt (Nat.lt_trans ha histogram[index].isLt)
    have h := h (BitVec.ofNat r.bits a) (by rwa [BitVec.toNat_ofNat, hfit])
    rw [BitVec.toNat_ofNat, hfit] at h
    exact ⟨h.1, h.2.2.1⟩
  · intro h a ha
    obtain ⟨h1, h2⟩ := h a.toNat ha
    exact ⟨h1, h1, h2, h2⟩

/-- A table of even size, at least as large as every offset. -/
theorem morton_pairs_packed :
    computeAlternativeAddressVertical .Morton (new .Morton [(8192 : RegisterSize._32bit.T)]) 0
      (computeAlternativeAddressVertical .Morton (new .Morton [(8192 : RegisterSize._32bit.T)]) 0 3 1) 1 = 3 :=
  ((morton_pairs_iff (by decide : 0 < [(8192 : RegisterSize._32bit.T)].length) (by decide) 1).mpr (by decide) 3
    (by decide)).2.2.1

/-- In a table of three buckets the fingerprint 0 leads from bucket 0 to bucket 2 and from there to bucket 1. -/
theorem morton_three_buckets :
    computeAlternativeAddressVertical .Morton (new .Morton [(3 : RegisterSize._32bit.T)]) 0 0 0 = 2 ∧
    computeAlternativeAddressVertical .Morton (new .Morton [(3 : RegisterSize._32bit.T)]) 0
      (computeAlternativeAddressVertical .Morton (new .Morton [(3 : RegisterSize._32bit.T)]) 0 0 0) 0 = 1 := by
  decide

end Addresser

end PartitionedFilters

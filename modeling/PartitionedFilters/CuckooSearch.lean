import PartitionedFilters.CuckooHelper
import PartitionedFilters.WordTypes

/-!
# Searching a word of any type

`cuckoo_helper.hpp` with the types of its expressions: a word narrower than
`int` is searched as an `int`, and `has_value` searches a word of the common type
of bucket and value. The result is the one of the search in the word's own width.
-/

namespace PartitionedFilters.Cuckoo

open WordType (convert)

variable {k n : Nat}

namespace Typed

def computeMask (t : WordType) (k : Nat) : Nat → t.T
  | 0 => convert (t := .int) t 0
  | slotsPerBucket + 1 => convert t (convert t.promote (computeMask t k slotsPerBucket) <<< k ||| 1)

def hasZero (t : WordType) (k slotsPerBucket : Nat) (bucket : t.T) : t.T :=
  let mask := convert t.promote (computeMask t k slotsPerBucket)
  let bucket := convert t.promote bucket
  convert t (WordType.shiftRight ((bucket - mask) &&& ~~~bucket) (k - 1) &&& mask)

def hasValue (t f : WordType) (k slotsPerBucket : Nat) (bucket : t.T) (value : f.T) : t.T :=
  let u := t.common f
  convert t (hasZero u k slotsPerBucket
    (convert u bucket ^^^ (convert u (computeMask t k slotsPerBucket) * convert u value)))

end Typed

variable {t : WordType}

/-! ## The promotions change nothing -/

theorem getLsbD_one {w i : Nat} (hi : i < w) : (1 : BitVec w).getLsbD i = decide (i = 0) := by
  have h := BitVec.getLsbD_one (w := w) (i := i)
  rwa [decide_eq_true (Nat.lt_of_le_of_lt (Nat.zero_le i) hi), Bool.true_and] at h

theorem typed_computeMask (t : WordType) (k n : Nat) : Typed.computeMask t k n = computeMask t.bits k n := by
  apply BitVec.eq_of_getLsbD_eq
  intro i hi
  induction n generalizing i with
  | zero =>
    simp [Typed.computeMask, computeMask, convert, BitVec.getLsbD_signExtend]
  | succ n ih =>
    have hp := Nat.lt_of_lt_of_le hi (WordType.bits_le_promote t)
    have hlow := Nat.lt_of_le_of_lt (Nat.sub_le i k) hi
    rw [Typed.computeMask, WordType.getLsbD_convert _ hp hi, computeMask, BitVec.getLsbD_or, BitVec.getLsbD_or,
      getLsbD_one hp, getLsbD_one hi, BitVec.getLsbD_shiftLeft, BitVec.getLsbD_shiftLeft, decide_eq_true hi,
      decide_eq_true hp, WordType.convert_promote_getLsbD _ hlow, ih (i - k) hlow]

theorem convert_computeMask (hk : 0 < k) (hn : k * n ≤ t.bits) :
    convert t.promote (computeMask t.bits k n) = computeMask t.promote.bits k n := by
  apply BitVec.eq_of_getLsbD_eq
  intro i hi
  rw [Bool.eq_iff_iff, getLsbD_computeMask hk]
  rcases Nat.lt_or_ge i t.bits with hlt | hge
  · rw [WordType.convert_promote_getLsbD _ hlt, getLsbD_computeMask hk]
    exact and_congr_left fun _ => iff_of_true hlt hi
  · rw [WordType.convert_promote_getLsbD_of_le _ hge]
    apply iff_of_false Bool.false_ne_true
    rintro ⟨-, j, hj, rfl⟩
    exact Nat.not_lt_of_le hge (Nat.lt_of_lt_of_le (Nat.mul_lt_mul_of_pos_left hj hk) hn)

theorem typed_hasZero (hk : 0 < k) (hn : k * n ≤ t.bits) (bucket : t.T) :
    Typed.hasZero t k n bucket = hasZero k n bucket := by
  apply BitVec.eq_of_getLsbD_eq
  intro i hi
  have hp := Nat.lt_of_lt_of_le hi (WordType.bits_le_promote t)
  rw [Typed.hasZero, WordType.getLsbD_convert _ hp hi, typed_computeMask, convert_computeMask hk hn,
    BitVec.getLsbD_and]
  by_cases hex : ∃ j < n, i = k * j
  · obtain ⟨j, hj, rfl⟩ := hex
    have hn' := Nat.le_trans hn (WordType.bits_le_promote t)
    have htop : k - 1 + k * j < k * n := by
      have h := Nat.mul_le_mul_left k (Nat.succ_le_of_lt hj)
      rw [Nat.mul_succ] at h
      omega
    have hlow := WordType.setWidth_convert bucket hn hn'
    rw [getLsbD_hasZero_setWidth hk hn (Nat.le_refl n) hj, ← hlow,
      ← getLsbD_hasZero_setWidth hk hn' (Nat.le_refl n) hj,
      WordType.getLsbD_shiftRight _ _ (Nat.lt_of_lt_of_le htop hn'), hasZero]
    simp only [BitVec.getLsbD_and, BitVec.getLsbD_ushiftRight]
  · have hmask : (computeMask t.promote.bits k n).getLsbD i = false := by
      rw [← Bool.not_eq_true, getLsbD_computeMask hk]
      exact fun h => hex h.2
    rw [hmask, Bool.and_false, getLsbD_hasZero_of_not hk hex]

theorem typed_hasValue (hk : 0 < k) (hn : k * n ≤ t.bits) (bucket : t.T) {v : Nat} (value : BitVec v) :
    Typed.hasValue t (.unsigned v) k n bucket value = hasValue k n bucket (value.setWidth t.bits) := by
  have hu := (WordType.bits_le_common t (.unsigned v)).1
  have hn' := Nat.le_trans hn hu
  apply BitVec.eq_of_getLsbD_eq
  intro i hi
  unfold Typed.hasValue
  rw [WordType.getLsbD_convert _ (Nat.lt_of_lt_of_le hi hu) hi, typed_hasZero hk hn', hasValue]
  by_cases hex : ∃ j < n, i = k * j
  · obtain ⟨j, hj, rfl⟩ := hex
    have hvalue : (convert (t := .unsigned v) (t.common (.unsigned v)) value).setWidth (k * n) =
        (value.setWidth t.bits).setWidth (k * n) := by
      rw [BitVec.setWidth_setWidth_of_le _ hn]
      exact BitVec.setWidth_setWidth_of_le value hn'
    have hword :
        (convert (t.common (.unsigned v)) bucket ^^^ (convert (t.common (.unsigned v)) (Typed.computeMask t k n) *
        convert (t := .unsigned v) (t.common (.unsigned v)) value)).setWidth (k * n) =
        BitVec.setWidth (k * n) (bucket ^^^ (computeMask t.bits k n * value.setWidth t.bits)) := by
      rw [BitVec.setWidth_xor, BitVec.setWidth_xor, BitVec.setWidth_mul _ _ hn', BitVec.setWidth_mul _ _ hn,
        WordType.setWidth_convert bucket hn hn', WordType.setWidth_convert _ hn hn', typed_computeMask, hvalue]
    rw [getLsbD_hasZero_setWidth hk hn' (Nat.le_refl n) hj, hword,
      ← getLsbD_hasZero_setWidth hk hn (Nat.le_refl n) hj]
  · rw [getLsbD_hasZero_of_not hk hex, getLsbD_hasZero_of_not hk hex]

/-! ## Exactness -/

/-- The result of a search for the slots with `p`: whether there is one, and the first of them. -/
structure Finds {w : Nat} (k n : Nat) (p : Nat → Prop) (result : BitVec w) : Prop where
  ne_zero_iff : result ≠ 0 ↔ ∃ j < n, p j
  tzcount : ∀ j < n, p j → (∀ i < j, ¬p i) → tzcount result = k * j

variable {w : Nat}

theorem Finds.congr {p q : Nat → Prop} {result : BitVec w} (h : Finds k n p result) (hpq : ∀ j < n, p j ↔ q j) :
    Finds k n q result := by
  refine ⟨h.ne_zero_iff.trans (exists_congr fun j => and_congr_right (hpq j)), fun j hj hq hfirst => ?_⟩
  apply h.tzcount j hj ((hpq j hj).mpr hq)
  intro i hi hp
  exact hfirst i hi ((hpq i (Nat.lt_trans hi hj)).mp hp)

theorem finds_hasZero (hk : 0 < k) (hn : k * n ≤ w) (bucket : BitVec w) :
    Finds k n (fun j => lane k bucket j = 0) (hasZero k n bucket) := by
  have hiff : hasZero k n bucket ≠ 0 ↔ ∃ j < n, lane k bucket j = 0 := by
    rw [ne_eq, hasZero_eq_zero_iff hk hn]
    push Not
    exact Iff.rfl
  refine ⟨hiff, fun j hj hzero hfirst => ?_⟩
  obtain ⟨i, hi, hcount, hzero', hfirst'⟩ := tzcount_hasZero hk hn (hiff.mpr ⟨j, hj, hzero⟩)
  rcases Nat.lt_trichotomy i j with h | h | h
  · exact absurd hzero' (hfirst i h)
  · rw [hcount, h]
  · exact absurd hzero (hfirst' j h)

theorem finds_hasValue (hk : 0 < k) (hn : k * n ≤ w) (bucket : BitVec w) {value : BitVec w}
    (hv : value.toNat < 2 ^ k) :
    Finds k n (fun j => lane k bucket j = value.setWidth k) (hasValue k n bucket value) := by
  apply (finds_hasZero hk hn (bucket ^^^ (computeMask w k n * value))).congr
  intro j hj
  exact lane_xor_eq_zero_iff hk hn hj bucket hv

/-- The bits above the last slot, the width of the word and the type of the value do not matter. -/
theorem search_exact (hk : 1 ≤ k) (hn : k * n ≤ w) (bucket : BitVec w) {v : Nat} (value : BitVec v)
    (hv : value.toNat < 2 ^ k) :
    Finds k n (fun j => lane k bucket j = 0) (Typed.hasZero (.unsigned w) k n bucket) ∧
      Finds k n (fun j => lane k bucket j = value.setWidth k)
        (Typed.hasValue (.unsigned w) (.unsigned v) k n bucket value) := by
  refine ⟨?_, ?_⟩
  · rw [typed_hasZero (t := .unsigned w) hk hn bucket]
    exact finds_hasZero hk hn bucket
  · have hvalue : (value.setWidth w).toNat < 2 ^ k := by
      rw [BitVec.toNat_setWidth]
      exact Nat.lt_of_le_of_lt (Nat.mod_le _ _) hv
    rw [typed_hasValue (t := .unsigned w) hk hn bucket value]
    apply (finds_hasValue hk hn bucket hvalue).congr
    intro j hj
    have hkw : k ≤ w := Nat.le_trans (Nat.le_mul_of_pos_right k (Nat.zero_lt_of_lt hj)) hn
    rw [BitVec.setWidth_setWidth_of_le value hkw]

/-- A byte with two slots of three bits. -/
theorem search_exact_byte : Finds 3 2 (fun j => lane 3 (0b00101000 : BitVec 8) j = 0)
      (Typed.hasZero (.unsigned 8) 3 2 (0b00101000 : BitVec 8)) ∧
    Finds 3 2 (fun j => lane 3 (0b00101000 : BitVec 8) j = (5 : BitVec 16).setWidth 3)
      (Typed.hasValue (.unsigned 8) (.unsigned 16) 3 2 (0b00101000 : BitVec 8) (5 : BitVec 16)) :=
  search_exact (by decide) (by decide) _ _ (by decide)

end PartitionedFilters.Cuckoo

import Mathlib.Algebra.GroupWithZero.Nat

/-!
# Parameters and integer helpers

The template parameters the filters are instantiated with, and `math.hpp`.
-/

namespace PartitionedFilters

inductive RegisterSize where
  | _32bit
  | _64bit
  deriving DecidableEq, Repr

namespace RegisterSize

def bits : RegisterSize → Nat
  | _32bit => 32
  | _64bit => 64

/-- `sizeof(T)`. -/
def bytes (r : RegisterSize) : Nat := r.bits / 8

/-- `Vector::T`. -/
abbrev T (r : RegisterSize) : Type := BitVec r.bits

theorem bits_pos (r : RegisterSize) : 0 < r.bits := by cases r <;> decide

theorem bits_le (r : RegisterSize) : r.bits ≤ 64 := by cases r <;> decide

theorem bytes_pos (r : RegisterSize) : 0 < r.bytes := by cases r <;> decide

end RegisterSize

inductive Partitioning where
  | Enabled
  | Disabled
  deriving DecidableEq, Repr

theorem toNat_lowMask {n : Nat} (hn : n < 64) : (1#64 <<< n - 1#64).toNat = 2 ^ n - 1 := by
  have hlt : 2 ^ n < 2 ^ 64 := Nat.pow_lt_pow_right (by decide) hn
  have hs : (1#64 <<< n).toNat = 2 ^ n := by
    rw [BitVec.toNat_shiftLeft, BitVec.toNat_ofNat, Nat.shiftLeft_eq, Nat.one_mod_two_pow_eq_one.mpr (by decide),
      Nat.one_mul, Nat.mod_eq_of_lt hlt]
  rw [BitVec.toNat_sub_of_le (by rw [BitVec.le_def, hs]; exact Nat.one_le_two_pow), hs]
  rfl

/-! ## `math.hpp` -/

/-- `__builtin_clz` and `__builtin_clzll`: the leading zeros of a non-zero word of `w` bits. -/
def clz (w x : Nat) : Nat := w - 1 - Nat.log2 x

def getNumberOfBits (w value : Nat) : Nat :=
  if value = 0 then 0 else if value = 1 then 1 else w - clz w (value - 1)

theorem getNumberOfBits_pos {w value : Nat} (hw : 0 < w) (hv : 0 < value) : 0 < getNumberOfBits w value := by
  rw [getNumberOfBits, clz]
  split
  · omega
  · split
    · exact Nat.one_pos
    · omega

/-- `align_number` of two `size_t`. -/
def alignNumber (value align : Nat) : Nat := (value + align - 1) % 2 ^ 64 / align * align % 2 ^ 64

theorem log2_two_pow_sub_one {m : Nat} (hm : 0 < m) : Nat.log2 (2 ^ m - 1) = m - 1 := by
  have hlt : 2 ^ (m - 1) < 2 ^ m := Nat.pow_lt_pow_right (by decide) (by omega)
  have hpos : 0 < 2 ^ (m - 1) := Nat.two_pow_pos _
  rw [Nat.log2_eq_iff (by omega), Nat.sub_add_cancel hm]
  omega

theorem getNumberOfBits_two_pow {w m : Nat} (hm : 0 < m) (hw : m ≤ w) : getNumberOfBits w (2 ^ m) = m := by
  have h2 : 2 ≤ 2 ^ m := Nat.le_self_pow (by omega) 2
  unfold getNumberOfBits clz
  rw [if_neg (by omega), if_neg (by omega), log2_two_pow_sub_one hm]
  omega

end PartitionedFilters

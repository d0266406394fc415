import Mathlib

/-!
# Registers

A register is a bit vector that instructions see as elements of some width. The
same bits are elements of several widths at once: `elem_elem` says which.
-/

namespace PartitionedFilters.Register

variable {n w : Nat}

def elem (w : Nat) (v : BitVec n) (i : Nat) : BitVec w := v.extractLsb' (w * i) w

def ofElems (n w : Nat) (f : Nat → BitVec w) : BitVec n :=
  BitVec.ofFnLE fun b : Fin n => (f (b / w)).getLsbD (b % w)

def map (w : Nat) (f : BitVec w → BitVec w) (v : BitVec n) : BitVec n := ofElems n w fun i => f (elem w v i)

def zipWith (w : Nat) (f : BitVec w → BitVec w → BitVec w) (u v : BitVec n) : BitVec n :=
  ofElems n w fun i => f (elem w u i) (elem w v i)

theorem getLsbD_elem (v : BitVec n) (i b : Nat) :
    (elem w v i).getLsbD b = (decide (b < w) && v.getLsbD (w * i + b)) := by
  rw [elem, BitVec.getLsbD_extractLsb']

theorem toNat_elem (v : BitVec n) (i : Nat) : (elem w v i).toNat = v.toNat / 2 ^ (w * i) % 2 ^ w := by
  rw [elem, BitVec.extractLsb'_toNat, Nat.shiftRight_eq_div_pow]

theorem getLsbD_ofElems (f : Nat → BitVec w) {b : Nat} (hb : b < n) :
    (ofElems n w f).getLsbD b = (f (b / w)).getLsbD (b % w) := by
  rw [ofElems, BitVec.getLsbD_ofFnLE, dif_pos hb]

section
variable {i : Nat} (hi : w * i + w ≤ n)
include hi

@[simp] theorem elem_ofElems (f : Nat → BitVec w) : elem w (ofElems n w f) i = f i := by
  apply BitVec.eq_of_getLsbD_eq
  intro b hb
  rw [getLsbD_elem, getLsbD_ofElems f (by omega), Nat.mul_add_div (by omega), Nat.div_eq_of_lt hb, Nat.mul_add_mod,
    Nat.mod_eq_of_lt hb]
  simp [hb]

theorem elem_map (f : BitVec w → BitVec w) (v : BitVec n) : elem w (map w f v) i = f (elem w v i) := by
  rw [map, elem_ofElems hi]

theorem elem_zipWith (f : BitVec w → BitVec w → BitVec w) (u v : BitVec n) :
    elem w (zipWith w f u v) i = f (elem w u i) (elem w v i) := by rw [zipWith, elem_ofElems hi]

end

/-! ## Bitwise operations -/

theorem elem_and (u v : BitVec n) (i : Nat) : elem w (u &&& v) i = elem w u i &&& elem w v i := by
  apply BitVec.eq_of_getLsbD_eq
  intro b hb
  simp only [getLsbD_elem, BitVec.getLsbD_and, hb, decide_true, Bool.true_and]

theorem elem_or (u v : BitVec n) (i : Nat) : elem w (u ||| v) i = elem w u i ||| elem w v i := by
  apply BitVec.eq_of_getLsbD_eq
  intro b hb
  simp only [getLsbD_elem, BitVec.getLsbD_or, hb, decide_true, Bool.true_and]

theorem elem_xor (u v : BitVec n) (i : Nat) : elem w (u ^^^ v) i = elem w u i ^^^ elem w v i := by
  apply BitVec.eq_of_getLsbD_eq
  intro b hb
  simp only [getLsbD_elem, BitVec.getLsbD_xor, hb, decide_true, Bool.true_and]

/-! ## Views -/

theorem elem_elem (v : BitVec n) {q i j : Nat} (hj : j < q) :
    elem w (elem (w * q) v i) j = elem w v (q * i + j) := by
  apply BitVec.eq_of_getLsbD_eq
  intro b hb
  have hlt : w * j + b < w * q := by
    have h := Nat.mul_le_mul_left w (Nat.succ_le_of_lt hj)
    rw [Nat.mul_succ] at h
    omega
  simp only [getLsbD_elem, hb, hlt, decide_true, Bool.true_and, Nat.mul_add, Nat.mul_assoc, Nat.add_assoc]

theorem msb_elem (hw : 0 < w) (v : BitVec n) (i : Nat) : (elem w v i).msb = v.getLsbD (w * i + (w - 1)) := by
  rw [BitVec.msb_eq_getLsbD_last, getLsbD_elem]
  simp [hw]

theorem elem_even (v : BitVec n) (i : Nat) : elem w v (2 * i) = (elem (w * 2) v i).setWidth w := by
  apply BitVec.eq_of_getLsbD_eq
  intro b hb
  rw [BitVec.getLsbD_setWidth, getLsbD_elem, getLsbD_elem, Nat.mul_assoc]
  simp [hb, show b < w * 2 by omega]

theorem elem_odd (v : BitVec n) (i : Nat) : elem w v (2 * i + 1) = (elem (w * 2) v i >>> w).setWidth w := by
  apply BitVec.eq_of_getLsbD_eq
  intro b hb
  rw [BitVec.getLsbD_setWidth, BitVec.getLsbD_ushiftRight, getLsbD_elem, getLsbD_elem, Nat.mul_add, Nat.mul_assoc]
  simp [hb, show w + b < w * 2 by omega, Nat.add_assoc]

theorem elem_eq_append (v : BitVec n) (i : Nat) :
    (elem (w + w) v i) = elem w v (2 * i + 1) ++ elem w v (2 * i) := by
  apply BitVec.eq_of_getLsbD_eq
  intro b hb
  rw [BitVec.getLsbD_append, getLsbD_elem, getLsbD_elem, getLsbD_elem]
  by_cases h : b < w
  · simp [h, hb, show w * (2 * i) = (w + w) * i by ring]
  · simp [h, hb, show b - w < w by omega, show w * (2 * i + 1) + (b - w) = (w + w) * i + b by
      rw [show w * (2 * i + 1) = (w + w) * i + w by ring]
      omega]

end PartitionedFilters.Register

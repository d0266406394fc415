import PartitionedFilters.Vector
import PartitionedFilters.VectorDivSound

/-!
# Correctness of the vectors without AVX-512

Each element of a vector is what the scalar vector computes from the elements of
its operands, and masks have a bit for each element. The one exception is the
gather of 32-bit elements, whose indices the instruction takes as signed.
-/

namespace PartitionedFilters

open Register Intrinsics

variable {r : RegisterSize}

/-! ## Masks -/

section
variable {k count shift : Nat} {bits : Nat → BitVec k}

theorem collect_succ (count shift : Nat) (bits : Nat → BitVec k) :
    collect (count + 1) shift bits = collect count shift (fun i => bits (i + 1)) <<< shift ||| bits 0 := by
  rw [collect, collect, List.range_succ_eq_map, List.foldr_cons, List.foldr_map]

theorem getLsbD_collect (hshift : 0 < shift) (hbits : ∀ i b, shift ≤ b → (bits i).getLsbD b = false) (b : Nat) :
    (collect count shift bits).getLsbD b =
      (decide (b < k) && decide (b / shift < count) && (bits (b / shift)).getLsbD (b % shift)) := by
  induction count generalizing bits b with
  | zero => simp [collect]
  | succ count ih =>
    rw [collect_succ, BitVec.getLsbD_or, BitVec.getLsbD_shiftLeft]
    by_cases hb : b < shift
    · by_cases hk : b < k
      · simp [hb, hk, Nat.div_eq_of_lt hb, Nat.mod_eq_of_lt hb]
      · simp [hb, hk, BitVec.getLsbD_of_ge _ _ (Nat.le_of_not_lt hk)]
    · have hdiv : b / shift = (b - shift) / shift + 1 := Nat.div_eq_sub_div hshift (Nat.le_of_not_lt hb)
      have hmod : b % shift = (b - shift) % shift := Nat.mod_eq_sub_mod (Nat.le_of_not_lt hb)
      rw [ih (fun i => hbits (i + 1)), hbits 0 b (Nat.le_of_not_lt hb), hdiv, hmod]
      by_cases hk : b < k
      · simp [hb, hk, show b - shift < k by omega]
      · simp [hk]

theorem getLsbD_collect_one {f : Nat → Bool} (b : Nat) :
    (collect count 1 fun i => if f i then (1 : BitVec k) else 0).getLsbD b =
      (decide (b < k) && decide (b < count) && f b) := by
  rw [getLsbD_collect Nat.one_pos, Nat.div_one, Nat.mod_one]
  · cases f b with
    | false => simp
    | true =>
      by_cases hk : b < k
      · simp [show 0 < k by omega]
      · simp [hk]
  · intro i b hb
    cases f i with
    | false => exact BitVec.getLsbD_zero
    | true => simp [BitVec.getLsbD_one, show b ≠ 0 by omega]

end

namespace Avx2

theorem getLsbD_movemaskEpi8 {n : Nat} (a : BitVec n) (b : Nat) :
    (movemaskEpi8 a).getLsbD b = (decide (b < 32) && (elem 8 a b).msb) := by
  rw [movemaskEpi8, BitVec.getLsbD_ofFnLE]
  by_cases hb : b < 32
  · simp [hb]
  · simp [hb]

theorem getLsbD_avx2MaskToAvx512Mask {bits : Nat} (hbits : bits = 8 ∨ bits = 16 ∨ bits = 32 ∨ bits = 64)
    (mask : BitVec 256) (b : Nat) : (avx2MaskToAvx512Mask bits mask).getLsbD b =
      (decide (b < 256 / bits) && (elem 8 mask (bits / 8 * b)).msb) := by
  have hpext : ∀ {m : BitVec 32} {s c : Nat}, (List.range 32).filter m.getLsbD = (List.range c).map (s * ·) →
      c * s = 32 → 0 < s →
      (pext32 (movemaskEpi8 mask) m).getLsbD b = (decide (b < c) && (elem 8 mask (s * b)).msb) := by
    intro m s c h hcs hs
    rw [pext32_apply h (Nat.le_of_dvd (by decide) ⟨s, hcs.symm⟩), getLsbD_movemaskEpi8]
    by_cases hb : b < c
    · have hlt : s * b < 32 := by
        rw [← hcs, Nat.mul_comm]
        exact Nat.mul_lt_mul_of_pos_right hb hs
      simp [hb, hlt]
    · simp [hb]
  rcases hbits with rfl | rfl | rfl | rfl
  · simp only [avx2MaskToAvx512Mask, if_true, getLsbD_movemaskEpi8, Nat.reduceDiv, Nat.one_mul]
  · exact hpext (s := 2) (c := 16) (by decide) rfl (by decide)
  · exact hpext (s := 4) (c := 8) (by decide) rfl (by decide)
  · exact hpext (s := 8) (c := 4) (by decide) rfl (by decide)

theorem avx2MaskToAvx512Mask_zipWith {w : Nat} (hw : w = 8 ∨ w = 16 ∨ w = 32 ∨ w = 64)
    (f : BitVec w → BitVec w → Bool) (u v : BitVec 256) (b : Nat) :
    (avx2MaskToAvx512Mask w (zipWith w (fun a b => truth w (f a b)) u v)).getLsbD b =
      (decide (b < 256 / w) && f (elem w u b) (elem w v b)) := by
  rw [getLsbD_avx2MaskToAvx512Mask hw]
  by_cases hb : b < 256 / w
  · obtain ⟨q, hq, rfl⟩ : ∃ q, 0 < q ∧ w = 8 * q := by
      rcases hw with rfl | rfl | rfl | rfl
      · exact ⟨1, by decide, rfl⟩
      · exact ⟨2, by decide, rfl⟩
      · exact ⟨4, by decide, rfl⟩
      · exact ⟨8, by decide, rfl⟩
    have hfit : 8 * q * b + 8 * q ≤ 256 := by
      rw [← Nat.mul_succ]
      exact Nat.le_trans (Nat.mul_le_mul_left _ hb) (Nat.mul_div_le 256 (8 * q))
    have hbyte : ∀ t, elem 8 (truth (8 * q) t) 0 = truth 8 t := by
      intro t
      apply BitVec.eq_of_getLsbD_eq
      intro i hi
      cases t with
      | false => simp [truth, elem]
      | true =>
        rw [truth, truth, getLsbD_elem, if_pos rfl, if_pos rfl, BitVec.getLsbD_allOnes, BitVec.getLsbD_allOnes,
          decide_eq_true hi, decide_eq_true (by omega), Bool.and_self]
    have hmsb :=
      congrArg BitVec.msb (elem_elem (w := 8) (zipWith (8 * q) (fun a b => truth (8 * q) (f a b)) u v) (i := b) hq)
    rw [elem_zipWith hfit, hbyte, msb_truth (by decide), Nat.add_zero] at hmsb
    rw [Nat.mul_div_cancel_left q (by decide), ← hmsb]
  · simp [hb]

/-! ## Comparisons -/

theorem lane_fits {l : Nat} (hl : l < SIMD.AVX2.nElements r) : r.bits * l + r.bits ≤ 256 := by
  cases r with
  | _32bit =>
    have hl : l < 8 := hl
    show 32 * l + 32 ≤ 256
    omega
  | _64bit =>
    have hl : l < 4 := hl
    show 64 * l + 64 ≤ 256
    omega

/-- A changed sign makes the signed comparison an unsigned one. -/
theorem toInt_xor_sign {k : Nat} (x : BitVec (k + 1)) :
    (BitVec.twoPow (k + 1) k ^^^ x).toInt = (x.toNat : Int) - 2 ^ k := by
  have hx := BitVec.cons_msb_setWidth x
  have hlow := (x.setWidth k).isLt
  generalize x.msb = b at hx
  generalize x.setWidth k = y at hx hlow
  rw [← hx, ← BitVec.true_cons_zero, BitVec.cons_xor_cons, BitVec.zero_xor, BitVec.toInt_eq_msb_cond,
    BitVec.msb_cons, BitVec.toNat_cons', BitVec.toNat_cons']
  cases b with
  | false =>
    simp [Nat.shiftLeft_eq, Nat.pow_succ]
    omega
  | true => simp [Nat.shiftLeft_eq]

theorem slt_xor_sign (a b : r.T) :
    (BitVec.twoPow r.bits (r.bits - 1) ^^^ a).slt (BitVec.twoPow r.bits (r.bits - 1) ^^^ b) = a.ult b := by
  have hsign : ∀ {k : Nat} (a b : BitVec (k + 1)),
      (BitVec.twoPow (k + 1) k ^^^ a).slt (BitVec.twoPow (k + 1) k ^^^ b) = a.ult b := by
    intro k a b
    rw [BitVec.slt_eq_decide, BitVec.ult_eq_decide, toInt_xor_sign, toInt_xor_sign]
    exact decide_eq_decide.mpr (by omega)
  cases r with
  | _32bit => exact hsign (k := 31) a b
  | _64bit => exact hsign (k := 63) a b

theorem bits_mem (r : RegisterSize) : r.bits = 8 ∨ r.bits = 16 ∨ r.bits = 32 ∨ r.bits = 64 := by
  cases r with
  | _32bit => exact .inr (.inr (.inl rfl))
  | _64bit => exact .inr (.inr (.inr rfl))

theorem nElements_le (r : RegisterSize) : SIMD.AVX2.nElements r ≤ 8 := by cases r <;> decide

theorem getLsbD_compareLoop (op : Comparison) (u v : BitVec 256) (b : Nat) : (compareLoop r op u v).getLsbD b =
    (decide (b < SIMD.AVX2.nElements r) && Scalar.compare op (elem r.bits u b) (elem r.bits v b)) := by
  have hle := nElements_le r
  rw [compareLoop, getLsbD_collect_one]
  by_cases hb : b < SIMD.AVX2.nElements r
  · simp [hb, show b < 8 by omega]
  · simp [hb]

theorem getLsbD_compare_zipWith (f : r.T → r.T → Bool) (u v : BitVec 256) (b : Nat) :
    ((avx2MaskToAvx512Mask r.bits (zipWith r.bits (fun a b => truth r.bits (f a b)) u v)).setWidth 8).getLsbD b =
      (decide (b < SIMD.AVX2.nElements r) && f (elem r.bits u b) (elem r.bits v b)) := by
  have hle := nElements_le r
  have hb : SIMD.AVX2.nElements r = 256 / r.bits := rfl
  rw [BitVec.getLsbD_setWidth, avx2MaskToAvx512Mask_zipWith (bits_mem r), ← hb]
  by_cases hb : b < SIMD.AVX2.nElements r
  · simp [hb, show b < 8 by omega]
  · simp [hb]

theorem getLsbD_compare (avx2 : Bool) (op : Comparison) (u v : BitVec 256) (b : Nat) :
    (compare r avx2 op u v).getLsbD b =
      (decide (b < SIMD.AVX2.nElements r) && Scalar.compare op (elem r.bits u b) (elem r.bits v b)) := by
  have hsign : ∀ (x : BitVec 256), b < SIMD.AVX2.nElements r →
      elem r.bits (set1 256 (BitVec.twoPow r.bits (r.bits - 1)) ^^^ x) b =
      BitVec.twoPow r.bits (r.bits - 1) ^^^ elem r.bits x b := by
    intro x hb
    rw [elem_xor, elem_set1 (lane_fits hb)]
  have hult : ∀ x y : BitVec 256, ((avx2MaskToAvx512Mask r.bits
      (cmpgtEpi r.bits (set1 256 (BitVec.twoPow r.bits (r.bits - 1)) ^^^ x)
        (set1 256 (BitVec.twoPow r.bits (r.bits - 1)) ^^^ y))).setWidth 8).getLsbD b =
      (decide (b < SIMD.AVX2.nElements r) && (elem r.bits y b).ult (elem r.bits x b)) := by
    intro x y
    rw [cmpgtEpi, getLsbD_compare_zipWith fun a b => b.slt a]
    by_cases hb : b < SIMD.AVX2.nElements r
    · rw [hsign x hb, hsign y hb, slt_xor_sign]
    · simp [hb]
  cases avx2 with
  | false => cases op <;> exact getLsbD_compareLoop _ u v b
  | true =>
    cases op with
    | eq => exact getLsbD_compare_zipWith (fun a b => a == b) u v b
    | ne => exact getLsbD_compareLoop _ u v b
    | lt => exact hult v u
    | gt => exact hult u v

end Avx2

end PartitionedFilters

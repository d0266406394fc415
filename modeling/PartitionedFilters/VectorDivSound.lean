import PartitionedFilters.VectorDiv
import PartitionedFilters.AddressSound

/-!
# Correctness of the division by constants

Each branch of `div` multiplies by a reciprocal that is rounded up. The rounding
is checked once for each branch; the quotient then is exact for all dividends of
32 bits, in both lane widths and with any instructions.
-/

namespace PartitionedFilters.Vec

/-! ## Products of 64 bits -/

theorem toNat_append {m n : Nat} (x : BitVec m) (y : BitVec n) : (x ++ y).toNat = x.toNat * 2 ^ n + y.toNat := by
  rw [BitVec.toNat_append, ← Nat.shiftLeft_eq, Nat.shiftLeft_add_eq_or_of_lt y.isLt]

theorem toNat_mulEpu32 (a b : BitVec 64) : (mulEpu32 a b).toNat = a.toNat % 2 ^ 32 * (b.toNat % 2 ^ 32) := by
  have ha : a.toNat % 2 ^ 32 < 2 ^ 32 := Nat.mod_lt _ (by decide)
  have hb : b.toNat % 2 ^ 32 < 2 ^ 32 := Nat.mod_lt _ (by decide)
  have hlt : a.toNat % 2 ^ 32 * (b.toNat % 2 ^ 32) < 2 ^ 32 * 2 ^ 32 := Nat.mul_lt_mul'' ha hb
  rw [mulEpu32, BitVec.toNat_mul, BitVec.toNat_setWidth, BitVec.toNat_setWidth, BitVec.toNat_setWidth,
    BitVec.toNat_setWidth, Nat.mod_eq_of_lt (show a.toNat % 2 ^ 32 < 2 ^ 64 by omega),
    Nat.mod_eq_of_lt (show b.toNat % 2 ^ 32 < 2 ^ 64 by omega), Nat.mod_eq_of_lt (by omega)]

theorem low_append (x y : BitVec 32) : (x ++ y : BitVec (32 + 32)).setWidth 32 = y := by
  apply BitVec.eq_of_toNat_eq
  rw [BitVec.toNat_setWidth, toNat_append, Nat.mul_comm, Nat.mul_add_mod, Nat.mod_eq_of_lt y.isLt]

theorem high_append (x y : BitVec 32) : ((x ++ y : BitVec (32 + 32)) >>> 32).setWidth 32 = x := by
  apply BitVec.eq_of_toNat_eq
  rw [BitVec.toNat_setWidth, BitVec.toNat_ushiftRight, toNat_append, Nat.shiftRight_eq_div_pow, Nat.mul_comm,
    Nat.mul_add_div (by decide), Nat.div_eq_of_lt y.isLt, Nat.add_zero, Nat.mod_eq_of_lt x.isLt]

theorem high_shiftLeft (x : BitVec 64) : ((x <<< 32) >>> 32).setWidth 32 = x.setWidth 32 := by
  apply BitVec.eq_of_toNat_eq
  rw [BitVec.toNat_setWidth, BitVec.toNat_ushiftRight, BitVec.toNat_shiftLeft, BitVec.toNat_setWidth,
    Nat.shiftRight_eq_div_pow, Nat.shiftLeft_eq]
  omega

theorem append_and_high (x y : BitVec 32) : (x ++ y) &&& 0xFFFFFFFF00000000#64 = x ++ 0#32 := by
  have hmask : 0xFFFFFFFF00000000#64 = BitVec.allOnes 32 ++ 0#32 := by decide
  apply BitVec.eq_of_getLsbD_eq
  intro i hi
  rw [hmask, BitVec.getLsbD_and, BitVec.getLsbD_append, BitVec.getLsbD_append, BitVec.getLsbD_append]
  by_cases hlt : i < 32
  · simp [hlt]
  · rw [if_neg hlt, if_neg hlt, if_neg hlt, BitVec.getLsbD_allOnes, decide_eq_true (by omega), Bool.and_true]

/-- The crossed products of the halves, shifted, and the product of the low halves. -/
theorem mulEmulated_eq (a b : BitVec 64) : mulEmulated a b = a * b := by
  have hcross : mulEmulated a b =
      mulEpu32 a b +
        ((b.setWidth 32 * (a >>> 32).setWidth 32 + (b >>> 32).setWidth 32 * a.setWidth 32) ++ 0#32) := by
    unfold mulEmulated
    simp only [low_append, high_append, high_shiftLeft, append_and_high]
  have hsplit : ∀ x : BitVec 64, (x >>> 32).toNat % 2 ^ 32 * 2 ^ 32 + x.toNat % 2 ^ 32 = x.toNat := fun x => by
    rw [BitVec.toNat_ushiftRight, Nat.shiftRight_eq_div_pow]
    omega
  have hprod : a.toNat * b.toNat = 2 ^ 64 * ((a >>> 32).toNat % 2 ^ 32 * ((b >>> 32).toNat % 2 ^ 32)) +
      2 ^ 32 * (b.toNat % 2 ^ 32 * ((a >>> 32).toNat % 2 ^ 32) + (b >>> 32).toNat % 2 ^ 32 * (a.toNat % 2 ^ 32)) +
      a.toNat % 2 ^ 32 * (b.toNat % 2 ^ 32) := by
    conv_lhs => rw [← hsplit a, ← hsplit b]
    ring
  apply BitVec.eq_of_toNat_eq
  rw [hcross, BitVec.toNat_add, toNat_mulEpu32, toNat_append, BitVec.toNat_add, BitVec.toNat_mul, BitVec.toNat_mul,
    BitVec.toNat_mul, hprod]
  simp only [BitVec.toNat_setWidth, BitVec.toNat_ofNat]
  omega

/-! ## Lanes -/

theorem toNat_high_mulEpu32 (a b : BitVec 64) :
    ((mulEpu32 a b >>> 32).setWidth 32).toNat = a.toNat % 2 ^ 32 * (b.toNat % 2 ^ 32) / 2 ^ 32 := by
  have ha : a.toNat % 2 ^ 32 < 2 ^ 32 := Nat.mod_lt _ (by decide)
  have hb : b.toNat % 2 ^ 32 < 2 ^ 32 := Nat.mod_lt _ (by decide)
  have hlt : a.toNat % 2 ^ 32 * (b.toNat % 2 ^ 32) < 2 ^ 32 * 2 ^ 32 := Nat.mul_lt_mul'' ha hb
  rw [BitVec.toNat_setWidth, BitVec.toNat_ushiftRight, toNat_mulEpu32, Nat.shiftRight_eq_div_pow,
    Nat.mod_eq_of_lt (Nat.div_lt_of_lt_mul hlt)]

theorem toNat_mulh32Epi32 {n blend : Nat} (hblend : ∀ i < 2 * n, blend.testBit i = decide (i % 2 = 0))
    (u v : Fin (2 * n) → BitVec 32) (i : Fin (2 * n)) :
    (mulh32Epi32 blend u v i).toNat = (u i).toNat * (v i).toNat / 2 ^ 32 := by
  have hlow : ∀ x y : BitVec 32, (x ++ y : BitVec (32 + 32)).toNat % 2 ^ 32 = y.toNat := fun x y => by
    rw [toNat_append, Nat.mul_comm, Nat.mul_add_mod, Nat.mod_eq_of_lt y.isLt]
  have hhigh : ∀ x y : BitVec 32, ((x ++ y : BitVec (32 + 32)) >>> 32).toNat % 2 ^ 32 = x.toNat := fun x y => by
    have h := congrArg BitVec.toNat (high_append x y)
    rwa [BitVec.toNat_setWidth] at h
  unfold mulh32Epi32
  simp only [hblend i i.isLt, decide_eq_true_eq]
  split
  · rename_i heven
    have hi : (⟨2 * (i.val / 2), by omega⟩ : Fin (2 * n)) = i := Fin.ext (by show 2 * (i.val / 2) = i.val; omega)
    rw [epi32, heven, Nat.mul_zero, BitVec.ushiftRight_zero, toNat_high_mulEpu32, epi64, epi64, hlow, hlow, hi]
  · rename_i hodd
    have hi : (⟨2 * (i.val / 2) + 1, by omega⟩ : Fin (2 * n)) = i :=
      Fin.ext (by show 2 * (i.val / 2) + 1 = i.val; omega)
    rw [epi32, Nat.mod_two_ne_zero.mp hodd, Nat.mul_one, toNat_high_mulEpu32, epi64, epi64, hhigh, hhigh, hi]

theorem mulh32Epi32_lane {n blend : Nat} (hblend : ∀ i < 2 * n, blend.testBit i = decide (i % 2 = 0))
    (u v : Lanes ._32bit (2 * n)) (i : Fin (2 * n)) :
    mulh32Epi32 blend u v i = PartitionedFilters.mulh32 (u i) (v i) := by
  refine BitVec.eq_of_toNat_eq
    ((toNat_mulh32Epi32 hblend u v i).trans (Eq.trans ?_ (toNat_mulh32 (u i) (v i)).symm))
  exact congrArg₂ (fun a b => a * b / 2 ^ 32) (Nat.mod_eq_of_lt (u i).isLt).symm (Nat.mod_eq_of_lt (v i).isLt).symm

variable (target : Target) {simd : SIMD} {r : RegisterSize}

theorem mulLane_eq (a b : r.T) : mulLane target simd r a b = a * b := by
  cases r with
  | _32bit => rfl
  | _64bit =>
    by_cases h : simd ≠ .Scalar ∧ target = .avx2
    · exact (if_pos h).trans (mulEmulated_eq a b)
    · exact if_neg h

theorem toNat_mulh32Epi64 (a b : BitVec 64) :
    (mulh32Epi64 target simd a b).toNat = a.toNat % 2 ^ 32 * (b.toNat % 2 ^ 32) / 2 ^ 32 := by
  have hproduct : mulh32Epi64 target simd a b = ((a &&& 0xFFFFFFFF#64) * (b &&& 0xFFFFFFFF#64)) >>> 32 :=
    congrArg (fun product : BitVec 64 => product >>> 32) (mulLane_eq target (r := ._64bit) _ _)
  have hmask : ∀ x : BitVec 64, (x &&& 0xFFFFFFFF#64).toNat = x.toNat % 2 ^ 32 := fun x => by
    rw [BitVec.toNat_and]
    exact Nat.and_two_pow_sub_one_eq_mod x.toNat 32
  have ha : a.toNat % 2 ^ 32 < 2 ^ 32 := Nat.mod_lt _ (by decide)
  have hb : b.toNat % 2 ^ 32 < 2 ^ 32 := Nat.mod_lt _ (by decide)
  have hlt : a.toNat % 2 ^ 32 * (b.toNat % 2 ^ 32) < 2 ^ 32 * 2 ^ 32 := Nat.mul_lt_mul'' ha hb
  rw [hproduct, BitVec.toNat_ushiftRight, BitVec.toNat_mul, hmask, hmask, Nat.shiftRight_eq_div_pow,
    Nat.mod_eq_of_lt (by omega)]

theorem mulh32Epi64_lane (a b : RegisterSize.T ._64bit) :
    mulh32Epi64 target simd a b = PartitionedFilters.mulh32 a b :=
  BitVec.eq_of_toNat_eq ((toNat_mulh32Epi64 target a b).trans (toNat_mulh32 a b).symm)

theorem mulh32Avx2_lane (u v : Vec r .AVX2) (l : Fin (SIMD.AVX2.nElements r)) :
    mulh32Avx2 target r u v l = PartitionedFilters.mulh32 (u l) (v l) := by
  by_cases h : target = .generic
  · cases r with
    | _32bit => exact congrFun (if_pos h) l
    | _64bit => exact congrFun (if_pos h) l
  · cases r with
    | _32bit => exact (congrFun (if_neg h) l).trans (mulh32Epi32_lane (n := 4) (by decide) u v l)
    | _64bit => exact (congrFun (if_neg h) l).trans (mulh32Epi64_lane target (u l) (v l))

theorem mulh32Halves_lane (u v : Vec r .AVX512) (l : Fin (SIMD.AVX512.nElements r)) :
    mulh32Halves target r u v l = PartitionedFilters.mulh32 (u l) (v l) := by
  have hl : ∀ h, (⟨l / SIMD.AVX2.nElements r * SIMD.AVX2.nElements r + l % SIMD.AVX2.nElements r, h⟩ :
      Fin (SIMD.AVX512.nElements r)) = l := fun _ => Fin.ext (Nat.div_add_mod' _ _)
  simp only [mulh32Halves, mulh32Avx2_lane, half, hl]

theorem mulh32_lane (u v : Vec r simd) (l : Fin (simd.nElements r)) :
    mulh32 target simd r u v l = PartitionedFilters.mulh32 (u l) (v l) := by
  cases simd with
  | Scalar => cases r <;> rfl
  | AVX2 =>
    exact (by cases r <;> rfl : mulh32 target .AVX2 r u v l = mulh32Avx2 target r u v l).trans
      (mulh32Avx2_lane target u v l)
  | AVX512 =>
    by_cases h : target = .avx512
    · cases r with
      | _32bit => exact (congrFun (if_pos h) l).trans (mulh32Epi32_lane (n := 8) (by decide) u v l)
      | _64bit => exact (congrFun (if_pos h) l).trans (mulh32Epi64_lane target (u l) (v l))
    · cases r with
      | _32bit => exact (congrFun (if_neg h) l).trans (mulh32Halves_lane target u v l)
      | _64bit => exact (congrFun (if_neg h) l).trans (mulh32Halves_lane target u v l)

/-! ## Reciprocals -/

/-- `magic / 2 ^ p` is the reciprocal of `d`, rounded up by so little that it divides below `n`. -/
def Rounds (d magic p n : Nat) : Prop := 0 < d ∧ 2 ^ p ≤ magic * d ∧ (n - 1) * (magic * d - 2 ^ p) < 2 ^ p

instance (d magic p n : Nat) : Decidable (Rounds d magic p n) := by
  unfold Rounds
  infer_instance

theorem Rounds.div_eq {d magic p n x : Nat} (h : Rounds d magic p n) (hx : x < n) : x * magic / 2 ^ p = x / d := by
  obtain ⟨hd, hle, herror⟩ := h
  apply mul_div_of_round_up hd (Nat.add_sub_cancel' hle).symm
  exact Nat.lt_of_le_of_lt (Nat.mul_le_mul_right _ (Nat.le_sub_one_of_lt hx)) herror

def Sequence.Exact : Sequence → Prop
  | .family odd magic shift => magic < 2 ^ 32 ∧ Rounds odd magic (32 + shift) (2 ^ 32)
  | .shifted divisor before magic after =>
    magic < 2 ^ 32 ∧ before ≤ 32 ∧ 2 ^ before * (divisor / 2 ^ before) = divisor ∧
      Rounds (divisor / 2 ^ before) magic (32 + after) (2 ^ (32 - before))
  | .widened divisor magic after => magic < 2 ^ 32 ∧ Rounds divisor (magic + 2 ^ 32) (33 + after) (2 ^ 32)

instance (s : Sequence) : Decidable s.Exact := by
  cases s <;> unfold Sequence.Exact <;> infer_instance

theorem sequences_exact : ∀ s ∈ sequences, s.Exact := by decide +kernel

theorem two_pow_32_le (r : RegisterSize) : 2 ^ 32 ≤ 2 ^ r.bits :=
  Nat.pow_le_pow_right (by decide) (by cases r <;> decide)

theorem toNat_mulMagic {dividend : Vec r simd} {magic : Nat} {l : Fin (simd.nElements r)} (hm : magic < 2 ^ 32)
    (hx : (dividend l).toNat < 2 ^ 32) :
    (mulMagic target dividend magic l).toNat = (dividend l).toNat * magic / 2 ^ 32 := by
  rw [mulMagic, mulh32_lane, toNat_mulh32, BitVec.toNat_ofNat, Nat.mod_eq_of_lt hx,
    Nat.mod_eq_of_lt (Nat.lt_of_lt_of_le hm (two_pow_32_le r)), Nat.mod_eq_of_lt hm]

theorem mul_div_le {x magic : Nat} (hm : magic < 2 ^ 32) : x * magic / 2 ^ 32 ≤ x :=
  Nat.div_le_of_le_mul (Nat.mul_comm x magic ▸ Nat.mul_le_mul_right x (Nat.le_of_lt hm))

/-- The quotient of 33 bits is never computed: its halves are added. -/
structure NoWrap (dividend quotient : r.T) : Prop where
  le : quotient.toNat ≤ dividend.toNat
  sub : (dividend - quotient).toNat = dividend.toNat - quotient.toNat
  add : (quotient + (dividend - quotient) >>> 1).toNat = quotient.toNat + (dividend - quotient).toNat / 2

theorem noWrap_of_le {dividend quotient : r.T} (h : quotient.toNat ≤ dividend.toNat) :
    NoWrap dividend quotient := by
  have hlt := dividend.isLt
  have hsub : (dividend - quotient).toNat = dividend.toNat - quotient.toNat := BitVec.toNat_sub_of_le h
  refine ⟨h, hsub, ?_⟩
  rw [BitVec.toNat_add, BitVec.toNat_ushiftRight, Nat.shiftRight_eq_div_pow, Nat.pow_one, hsub,
    Nat.mod_eq_of_lt (by omega)]

theorem mulMagic_noWrap {dividend : Vec r simd} {magic : Nat} {l : Fin (simd.nElements r)} (hm : magic < 2 ^ 32)
    (hx : (dividend l).toNat < 2 ^ 32) : NoWrap (dividend l) (mulMagic target dividend magic l) :=
  noWrap_of_le (by rw [toNat_mulMagic target hm hx]; exact mul_div_le hm)

theorem Sequence.quotient_eq {s : Sequence} (hs : s.Exact) {divisor : Nat} (happlies : s.applies divisor = true)
    {dividend : Vec r simd} {l : Fin (simd.nElements r)} (hx : (dividend l).toNat < 2 ^ 32) :
    (s.quotient target divisor dividend l).toNat = (dividend l).toNat / divisor := by
  cases s with
  | family odd magic shift =>
    obtain ⟨hm, hround⟩ := hs
    simp only [applies, Bool.and_eq_true, beq_iff_eq] at happlies
    obtain ⟨m, hpow⟩ := isPowerOfTwo_iff.mp happlies.2
    have hdiv : divisor = odd * 2 ^ m := by
      rw [← hpow, Nat.mul_div_cancel' (Nat.dvd_of_mod_eq_zero happlies.1)]
    rw [quotient, BitVec.toNat_ushiftRight, toNat_mulMagic target hm hx, hpow, Nat.log2_two_pow,
      Nat.shiftRight_eq_div_pow, Nat.pow_add, ← Nat.div_div_eq_div_mul, Nat.div_div_eq_div_mul _ (2 ^ 32),
      ← Nat.pow_add, hround.div_eq hx, Nat.div_div_eq_div_mul, hdiv]
  | shifted divisor' before magic after =>
    obtain ⟨hm, hbefore, hdiv, hround⟩ := hs
    have heq : divisor = divisor' := beq_iff_eq.mp happlies
    have hshift : (dividend l >>> before).toNat = (dividend l).toNat / 2 ^ before := by
      rw [BitVec.toNat_ushiftRight, Nat.shiftRight_eq_div_pow]
    have hlt : (dividend l).toNat / 2 ^ before < 2 ^ (32 - before) := by
      rw [Nat.div_lt_iff_lt_mul (Nat.two_pow_pos _), ← Nat.pow_add, Nat.sub_add_cancel hbefore]
      exact hx
    rw [quotient, BitVec.toNat_ushiftRight,
      toNat_mulMagic target hm (by rw [hshift]; exact Nat.lt_of_le_of_lt (Nat.div_le_self ..) hx), hshift,
      Nat.shiftRight_eq_div_pow, Nat.div_div_eq_div_mul, ← Nat.pow_add, hround.div_eq hlt,
      Nat.div_div_eq_div_mul, hdiv, heq]
  | widened divisor' magic after =>
    obtain ⟨hm, hround⟩ := hs
    have heq : divisor = divisor' := beq_iff_eq.mp happlies
    have hwrap := mulMagic_noWrap target hm hx
    have hq := toNat_mulMagic target hm hx
    have hle := hwrap.le
    have hsum : (dividend l).toNat * (magic + 2 ^ 32) / 2 ^ 32 =
        (dividend l).toNat * magic / 2 ^ 32 + (dividend l).toNat := by
      rw [Nat.mul_add, Nat.add_mul_div_right _ _ (Nat.two_pow_pos 32)]
    rw [quotient, BitVec.toNat_ushiftRight, Nat.shiftRight_eq_div_pow, hwrap.add, hwrap.sub, hq, heq,
      ← hround.div_eq hx, show 33 + after = 32 + (1 + after) by
        omega, Nat.pow_add, ← Nat.div_div_eq_div_mul, hsum, Nat.pow_add, ← Nat.div_div_eq_div_mul]
    rw [hq] at hle
    refine congrArg (fun q => q / 2 ^ after) ?_
    omega

/-! ## Quotient and remainder -/

theorem toNat_and_pred (x : r.T) (m : Nat) : (x &&& BitVec.ofNat r.bits (2 ^ m - 1)).toNat = x.toNat % 2 ^ m := by
  rw [BitVec.toNat_and, BitVec.toNat_ofNat, ← Nat.mod_eq_of_lt x.isLt, ← Nat.and_mod_two_pow,
    Nat.and_two_pow_sub_one_eq_mod, Nat.mod_eq_of_lt x.isLt]
  exact Nat.mod_eq_of_lt (Nat.lt_of_le_of_lt (Nat.mod_le ..) x.isLt)

/-- The conditions under which the vectors compute the branches of `div`. -/
theorem div_some {divisor : Nat} {dividend q : Vec r simd} (h : div target divisor dividend = some q) :
    isPowerOfTwo divisor = true ∧ q = (fun l => dividend l >>> Nat.log2 divisor) ∨
    isPowerOfTwo divisor ≠ true ∧ simd = .Scalar ∧
    q = (fun l => BitVec.ofNat r.bits ((dividend l).toNat / divisor)) ∨
    isPowerOfTwo divisor ≠ true ∧ simd ≠ .Scalar ∧ ∃ s ∈ sequences, s.applies divisor = true ∧
    q = s.quotient target divisor dividend := by
  unfold div at h
  split at h
  · rename_i hpow
    exact .inl ⟨hpow, (Option.some.inj h).symm⟩
  split at h
  · rename_i hpow hscalar
    exact .inr (.inl ⟨hpow, hscalar, (Option.some.inj h).symm⟩)
  · rename_i hpow hscalar
    obtain ⟨s, hfind, rfl⟩ := Option.map_eq_some_iff.mp h
    exact .inr (.inr ⟨hpow, hscalar, s, List.mem_of_find?_eq_some hfind, List.find?_some hfind, rfl⟩)

theorem div_eq {divisor : Nat} {dividend q : Vec r simd} (h : div target divisor dividend = some q)
    {l : Fin (simd.nElements r)} (hx : (dividend l).toNat < 2 ^ 32) :
    (q l).toNat = (dividend l).toNat / divisor := by
  obtain ⟨hpow, rfl⟩ | ⟨-, -, rfl⟩ | ⟨-, -, s, hs, happlies, rfl⟩ := div_some target h
  · obtain ⟨m, rfl⟩ := isPowerOfTwo_iff.mp hpow
    rw [BitVec.toNat_ushiftRight, Nat.log2_two_pow, Nat.shiftRight_eq_div_pow]
  · rw [BitVec.toNat_ofNat, Nat.mod_eq_of_lt (Nat.lt_of_le_of_lt (Nat.div_le_self ..) (dividend l).isLt)]
  · exact Sequence.quotient_eq target (sequences_exact s hs) happlies hx

theorem remainder_eq {divisor : Nat} {dividend q : Vec r simd} {l : Fin (simd.nElements r)}
    (hq : (q l).toNat = (dividend l).toNat / divisor) :
    (remainder target divisor dividend q l).toNat = (dividend l).toNat % divisor := by
  have hx := (dividend l).isLt
  have hle := Nat.div_mul_le_self (dividend l).toNat divisor
  have hmul : (q l * BitVec.ofNat r.bits divisor).toNat = (dividend l).toNat / divisor * divisor := by
    rw [BitVec.toNat_mul, BitVec.toNat_ofNat, Nat.mul_mod_mod, hq, Nat.mod_eq_of_lt (Nat.lt_of_le_of_lt hle hx)]
  have hdm := Nat.div_add_mod' (dividend l).toNat divisor
  rw [remainder, mulLane_eq, BitVec.toNat_sub_of_le (by rw [BitVec.le_def, hmul]; exact hle), hmul]
  omega

theorem mod_eq {divisor : Nat} {dividend q : Vec r simd} (h : div target divisor dividend = some q) :
    ∃ m, mod target divisor dividend = some m ∧ divMod target divisor dividend = some (q, m) ∧
      ∀ l, (dividend l).toNat < 2 ^ 32 → (m l).toNat = (dividend l).toNat % divisor := by
  obtain ⟨hpow, hq⟩ | ⟨hpow, hscalar, hq⟩ | ⟨hpow, hscalar, -⟩ := div_some target h
  · refine ⟨_, if_pos hpow, ?_, fun l _ => ?_⟩
    · rw [divMod, if_pos hpow, hq]
    · obtain ⟨m, rfl⟩ := isPowerOfTwo_iff.mp hpow
      exact toNat_and_pred (dividend l) m
  · refine ⟨fun l => BitVec.ofNat r.bits ((dividend l).toNat % divisor), ?_, ?_, fun l _ => ?_⟩
    · rw [mod, if_neg hpow, if_pos hscalar]
    · rw [divMod, if_neg hpow, if_pos hscalar, hq]
    · rw [BitVec.toNat_ofNat, Nat.mod_eq_of_lt (Nat.lt_of_le_of_lt (Nat.mod_le ..) (dividend l).isLt)]
  · refine ⟨remainder target divisor dividend q, ?_, ?_, fun l hx => remainder_eq target (div_eq target h hx)⟩
    · rw [mod, if_neg hpow, if_neg hscalar, h, Option.map_some]
    · rw [divMod, if_neg hpow, if_neg hscalar, h, Option.map_some]

theorem exists_div_eq_some {divisor : Nat} (h0 : 0 < divisor) (h : divisor < 150) (dividend : Vec r simd) :
    ∃ q, div target divisor dividend = some q := by
  have hall : ∀ d < 150, 0 < d → isPowerOfTwo d = false → (sequences.find? (Sequence.applies d)).isSome =
      true := by decide +kernel
  unfold div
  split
  · exact ⟨_, rfl⟩
  split
  · exact ⟨_, rfl⟩
  · rename_i hpow _
    obtain ⟨s, hs⟩ := Option.isSome_iff_exists.mp (hall divisor h h0 (Bool.eq_false_of_not_eq_true hpow))
    exact ⟨s.quotient target divisor dividend, by rw [hs, Option.map_some]⟩

/-- What `div`, `mod` and `div_mod` return for a divisor that they support, and the products they rest on. -/
theorem div_mod_exact {divisor : Nat} {dividend q : Vec r simd} (h : div target divisor dividend = some q) :
    (∃ m, mod target divisor dividend = some m ∧ divMod target divisor dividend = some (q, m) ∧
      ∀ l, (dividend l).toNat < 2 ^ 32 →
        (q l).toNat = (dividend l).toNat / divisor ∧ (m l).toNat = (dividend l).toNat % divisor) ∧
    (∀ divisor' magic after, Sequence.widened divisor' magic after ∈ sequences → ∀ l, (dividend l).toNat < 2 ^ 32 →
      NoWrap (dividend l) (mulMagic target dividend magic l)) ∧
    ∀ (u v : Vec r simd) (l), (mulh32 target simd r u v l).toNat =
      (u l).toNat % 2 ^ 32 * ((v l).toNat % 2 ^ 32) / 2 ^ 32 := by
  obtain ⟨m, hmod, hdivMod, hm⟩ := mod_eq target h
  refine ⟨⟨m, hmod, hdivMod, fun l hx => ⟨div_eq target h hx, hm l hx⟩⟩, fun divisor' magic after hs l hx => ?_,
    fun u v l => ?_⟩
  · exact mulMagic_noWrap target (sequences_exact _ hs).1 hx
  · rw [mulh32_lane, toNat_mulh32]

/-- The largest dividend in eight lanes, by 7. -/
theorem div_mod_exact_seven : ∃ q : Vec ._32bit .AVX2, div .avx2 7 (fun _ => 0xffffffff) = some q ∧
    ∀ l, (q l).toNat = 613566756 := by
  have hdiv : ∃ q, div .avx2 7 (fun _ => 0xffffffff : Vec ._32bit .AVX2) = some q :=
    exists_div_eq_some .avx2 (by decide) (by decide) _
  obtain ⟨q, hq⟩ := hdiv
  obtain ⟨⟨m, -, -, hall⟩, -⟩ := div_mod_exact .avx2 hq
  exact ⟨q, hq, fun l => (hall l (by decide)).1⟩

end PartitionedFilters.Vec

import PartitionedFilters.Address
import Mathlib.Tactic.Linarith
import Mathlib.Tactic.Ring

/-!
# Soundness of the addressing

The laws hashing rests on: an address is below the table size, and the
alternative address is an involution below the table size (`alternative_lt`,
`alternative_alternative`), for every mode but `Morton`.
-/

namespace PartitionedFilters

variable {r : RegisterSize}

/-! ## Division by a magic number -/

/-- Multiplying by a quotient rounded up divides exactly while the error stays small. -/
theorem mul_div_of_round_up {n d e m x : Nat} (hd : 0 < d) (hm : m * d = n + e) (he : x * e < n) :
    x * m / n = x / d := by
  obtain ⟨q, s, hx, hs⟩ : ∃ q s, x = d * q + s ∧ s < d :=
    ⟨x / d, x % d, (Nat.div_add_mod x d).symm, Nat.mod_lt x hd⟩
  have hq : x / d = q := by rw [hx, Nat.mul_add_div hd, Nat.div_eq_of_lt hs, Nat.add_zero]
  rw [hq]
  apply Nat.div_eq_of_lt_le
  · apply Nat.le_of_mul_le_mul_left _ hd
    calc d * (q * n) = (d * q) * n := by ring
      _ ≤ x * (n + e) := Nat.mul_le_mul (by omega) (Nat.le_add_right n e)
      _ = d * (x * m) := by rw [← hm]; ring
  · apply Nat.lt_of_mul_lt_mul_left (a := d)
    calc d * (x * m) = x * n + x * e := by rw [show d * (x * m) = x * (m * d) by ring, hm]; ring
      _ < x * n + n := by omega
      _ = (x + 1) * n := by ring
      _ ≤ (d * (q + 1)) * n := Nat.mul_le_mul_right n (by rw [Nat.mul_succ]; omega)
      _ = d * ((q + 1) * n) := by ring

namespace LibdivideU32

/-- A divider without add marker, for the divisor `d` with `2^s < d < 2^(s+1)`. -/
structure Cheap (div : LibdivideU32) (d s e : Nat) : Prop where
  lower : 2 ^ s < d
  upper : d < 2 ^ (s + 1)
  shift : s < 32
  more : div.more = s
  magic : div.magic * d = 2 ^ s * 2 ^ 32 + e
  error_pos : 0 < e
  error_lt : e < 2 ^ s
  magic_lt : div.magic < 2 ^ 32

theorem floorLog2_eq {d : Nat} (hd : d ≠ 0) (h32 : d < 2 ^ 32) : 31 - clz 32 d = Nat.log2 d := by
  have hlt : Nat.log2 d < 32 := (Nat.log2_lt hd).mpr h32
  unfold clz
  omega

theorem internalGen_cheap {d : Nat} (hd : 2 ≤ d) (h32 : d < 2 ^ 32) (hmagic : (internalGen d).magic ≠ 0)
    (hmore : (internalGen d).more &&& addMarker = 0) : ∃ s e, Cheap (internalGen d) d s e := by
  have hne : d ≠ 0 := by omega
  have hs32 : Nat.log2 d < 32 := (Nat.log2_lt hne).mpr h32
  have hlo : 2 ^ Nat.log2 d ≤ d := Nat.log2_self_le hne
  have hhi : d < 2 ^ (Nat.log2 d + 1) := Nat.lt_log2_self
  have hpow : 2 ^ Nat.log2 d ≤ 2 ^ 31 := Nat.pow_le_pow_right (by decide) (by omega)
  unfold internalGen at hmagic hmore ⊢
  rw [floorLog2_eq hne h32] at *
  simp only at hmagic hmore ⊢
  generalize Nat.log2 d = s at *
  by_cases hp : d &&& (d - 1) = 0
  · rw [if_pos hp] at hmagic
    exact absurd rfl hmagic
  rw [if_neg hp] at hmagic hmore ⊢
  have hlt : 2 ^ s < d := by
    apply Nat.lt_of_le_of_ne hlo
    rintro rfl
    exact hp ((Nat.and_sub_one_eq_zero_iff_isPowerOfTwo hne).mpr ⟨s, rfl⟩)
  have hdm := Nat.div_add_mod (2 ^ s * 2 ^ 32) d
  have hrem := Nat.mod_lt (2 ^ s * 2 ^ 32) (Nat.pos_of_ne_zero hne)
  by_cases he : d - 2 ^ s * 2 ^ 32 % d < 2 ^ s
  · rw [if_pos he]
    generalize 2 ^ s * 2 ^ 32 / d = m at *
    generalize 2 ^ s * 2 ^ 32 % d = rem at *
    have hm : 1 + m < 2 ^ 32 := by
      by_contra hge
      have h1 : (2 ^ s + 1) * (2 ^ 32 - 1) ≤ d * m := Nat.mul_le_mul hlt (by omega)
      rw [Nat.add_mul, Nat.mul_sub] at h1
      omega
    refine ⟨s, d - rem, ⟨hlt, hhi, hs32, rfl, ?_, by omega, he, ?_⟩⟩
    · rw [Nat.mod_eq_of_lt hm, Nat.add_mul, Nat.mul_comm m d]
      omega
    · exact Nat.mod_lt _ (by decide)
  · rw [if_neg he] at hmore
    have hmark : ∀ s < 32, (s ||| addMarker) &&& addMarker ≠ 0 := by decide
    exact absurd hmore (hmark s hs32)

/-- The last 32-bit number has a cheap divider, so the search ends. -/
theorem internalGen_max : (internalGen (2 ^ 32 - 1)).magic ≠ 0 ∧
    (internalGen (2 ^ 32 - 1)).more &&& addMarker = 0 := by decide

theorem search_cheap (fuel : Nat) {d : Nat} (hd : 2 ≤ d) (h32 : d < 2 ^ 32) (hf : 2 ^ 32 ≤ d + fuel) :
    ∃ d' s e, search fuel d = some (internalGen d') ∧ d ≤ d' ∧ d' < 2 ^ 32 ∧ Cheap (internalGen d') d' s e := by
  induction fuel generalizing d with
  | zero => omega
  | succ fuel ih =>
    rw [search, if_neg (by omega)]
    simp only
    by_cases hbad : (internalGen d).magic = 0 ∨ (internalGen d).more &&& addMarker ≠ 0
    · have hne : d ≠ 2 ^ 32 - 1 := by
        rintro rfl
        exact hbad.elim internalGen_max.1 (fun h => h internalGen_max.2)
      rw [if_pos hbad, Nat.mod_eq_of_lt (by omega)]
      obtain ⟨d', s, e, hs, hle, hrest⟩ := ih (d := d + 1) (by omega) (by omega) (by omega)
      exact ⟨d', s, e, hs, by omega, hrest⟩
    · rw [if_neg hbad]
      rw [not_or, not_not] at hbad
      obtain ⟨s, e, hc⟩ := internalGen_cheap hd h32 hbad.1 hbad.2
      exact ⟨d, s, e, rfl, Nat.le_refl d, h32, hc⟩

theorem cheapGen_cheap {h : Nat} (h32 : h < 2 ^ 32) :
    ∃ d s e, cheapGen h = some (internalGen d) ∧ h ≤ d ∧ d < 2 ^ 32 ∧ Cheap (internalGen d) d s e := by
  unfold cheapGen
  by_cases h2 : h < 2
  · rw [if_pos h2]
    obtain ⟨d, s, e, hs, hle, hrest⟩ := search_cheap (2 ^ 32) (d := 2) (by decide) (by decide) (by decide)
    exact ⟨d, s, e, hs, by omega, hrest⟩
  · rw [if_neg h2]
    exact search_cheap _ (by omega) h32 (Nat.le_add_left _ _)

namespace Cheap
variable {div : LibdivideU32} {d s e : Nat} (h : Cheap div d s e)
include h

theorem two_pow_le : 2 ^ s ≤ 2 ^ 31 := by
  have := h.shift
  exact Nat.pow_le_pow_right (by decide) (by omega)

theorem lt_magic : 2 ^ 31 < div.magic := by
  have h1 := h.magic
  have h2 := h.upper
  have h3 := h.error_pos
  by_contra hge
  have h4 : div.magic * d ≤ 2 ^ 31 * 2 ^ (s + 1) := Nat.mul_le_mul (by omega) (Nat.le_of_lt h2)
  rw [show 2 ^ 31 * 2 ^ (s + 1) = 2 ^ s * 2 ^ 32 by ring] at h4
  omega

theorem recover_eq (h32 : d < 2 ^ 32) : div.recover = d := by
  have h1 := h.lt_magic
  have h2 := h.two_pow_le
  have h3 := h.error_lt
  have h4 := h.magic
  have h5 := h.lower
  have hs : div.more &&& 0x1f = s := by
    rw [h.more, show (0x1f : Nat) = 2 ^ 5 - 1 from rfl, Nat.and_two_pow_sub_one_eq_mod]
    exact Nat.mod_eq_of_lt h.shift
  have hq : 2 ^ s * 2 ^ 32 / div.magic = d - 1 := by
    obtain ⟨c, rfl⟩ : ∃ c, d = c + 1 := ⟨d - 1, by omega⟩
    rw [Nat.mul_succ] at h4
    have h6 := h.error_pos
    apply Nat.div_eq_of_lt_le
    · rw [Nat.add_sub_cancel, Nat.mul_comm]
      omega
    · rw [Nat.add_sub_cancel, Nat.mul_comm, Nat.mul_comm _ div.magic, Nat.mul_succ]
      omega
  unfold recover
  simp only [hs]
  rw [if_neg (by omega), hq, Nat.mod_eq_of_lt (by omega)]
  omega

theorem div_eq {x : Nat} (hx : x < 2 ^ 32) : x * div.magic / 2 ^ 32 / 2 ^ s = x / d := by
  have h1 := h.lower
  rw [Nat.div_div_eq_div_mul, Nat.mul_comm (2 ^ 32)]
  apply mul_div_of_round_up (Nat.zero_lt_of_lt h1) h.magic
  calc x * e ≤ x * 2 ^ s := Nat.mul_le_mul_left x (Nat.le_of_lt h.error_lt)
    _ < 2 ^ 32 * 2 ^ s := Nat.mul_lt_mul_of_pos_right hx (Nat.two_pow_pos s)
    _ = 2 ^ s * 2 ^ 32 := Nat.mul_comm _ _

end Cheap

end LibdivideU32

/-! ## The words -/

theorem toNat_mulh32 (x y : r.T) : (mulh32 x y).toNat = x.toNat % 2 ^ 32 * (y.toNat % 2 ^ 32) / 2 ^ 32 := by
  have hx : x.toNat % 2 ^ 32 < 2 ^ 32 := Nat.mod_lt _ (by decide)
  have hy : y.toNat % 2 ^ 32 < 2 ^ 32 := Nat.mod_lt _ (by decide)
  have hprod : x.toNat % 2 ^ 32 * (y.toNat % 2 ^ 32) < 2 ^ 32 * 2 ^ 32 := Nat.mul_lt_mul'' hx hy
  have hquot : x.toNat % 2 ^ 32 * (y.toNat % 2 ^ 32) / 2 ^ 32 < 2 ^ 32 := Nat.div_lt_of_lt_mul hprod
  have hbits : 2 ^ 32 ≤ 2 ^ r.bits := Nat.pow_le_pow_right (by decide) (by cases r <;> decide)
  unfold mulh32
  rw [BitVec.toNat_setWidth, BitVec.toNat_ushiftRight, BitVec.toNat_mul, BitVec.toNat_setWidth,
    BitVec.toNat_setWidth, BitVec.toNat_setWidth, BitVec.toNat_setWidth, Nat.shiftRight_eq_div_pow]
  generalize x.toNat % 2 ^ 32 = a at *
  generalize y.toNat % 2 ^ 32 = b at *
  rw [Nat.mod_eq_of_lt (by omega : a < 2 ^ 64), Nat.mod_eq_of_lt (by omega : b < 2 ^ 64),
    Nat.mod_eq_of_lt (by omega : a * b < 2 ^ 64), Nat.mod_eq_of_lt (by omega)]

theorem toNat_extractAddressBits (x : r.T) : (extractAddressBits x).toNat = x.toNat % 2 ^ 32 := by
  have hmask : ((1#64 <<< 32 - 1#64).setWidth r.bits).toNat = 2 ^ 32 - 1 := by cases r <;> decide
  rw [extractAddressBits, BitVec.toNat_and, hmask, Nat.and_two_pow_sub_one_eq_mod]

theorem nextPowerOfTwo_eq (h : r.T) : nextPowerOfTwo h = 0 ∨ ∃ j, (nextPowerOfTwo h).toNat = 2 ^ j := by
  unfold nextPowerOfTwo
  split
  · exact .inl rfl
  split
  · exact .inr ⟨0, by cases r <;> decide⟩
  · generalize (r.bits - clz r.bits (h.toNat - 1)) % 64 = e
    by_cases he : e < r.bits
    · right
      refine ⟨e, ?_⟩
      have h1 : 2 ^ e < 2 ^ 64 := Nat.pow_lt_pow_right (by decide) (Nat.lt_of_lt_of_le he r.bits_le)
      have h2 : 2 ^ e < 2 ^ r.bits := Nat.pow_lt_pow_right (by decide) he
      rw [BitVec.toNat_setWidth, BitVec.toNat_shiftLeft, BitVec.toNat_ofNat, Nat.shiftLeft_eq,
        Nat.one_mod_two_pow_eq_one.mpr (by decide), Nat.one_mul, Nat.mod_eq_of_lt h1, Nat.mod_eq_of_lt h2]
    · left
      apply BitVec.eq_of_getLsbD_eq
      intro i hi
      rw [BitVec.getLsbD_setWidth, BitVec.getLsbD_shiftLeft]
      simp [show i < e by omega]

/-- The reflection `sig - a`, or `sig - a + size` where that is negative. -/
theorem toNat_reflect {sig a size : r.T} (hs : sig.toNat < size.toNat) (ha : a.toNat < size.toNat) :
    (sig - a + size * BitVec.ofNat r.bits (sig.ult a).toNat).toNat =
      if sig.toNat < a.toNat then size.toNat + sig.toNat - a.toNat else sig.toNat - a.toNat := by
  have hsize := size.isLt
  by_cases h : sig.toNat < a.toNat
  · have hult : sig.ult a = true := by rw [BitVec.ult_eq_decide, decide_eq_true h]
    rw [hult, if_pos h, Bool.toNat_true, BitVec.toNat_add, BitVec.toNat_mul, BitVec.toNat_sub, BitVec.toNat_ofNat,
      Nat.one_mod_two_pow_eq_one.mpr r.bits_pos, Nat.mul_one, Nat.mod_eq_of_lt hsize,
      Nat.mod_eq_of_lt (by omega : 2 ^ r.bits - a.toNat + sig.toNat < 2 ^ r.bits)]
    rw [show 2 ^ r.bits - a.toNat + sig.toNat + size.toNat =
      2 ^ r.bits + (size.toNat + sig.toNat - a.toNat) by omega, Nat.add_mod_left, Nat.mod_eq_of_lt (by omega)]
  · have hult : sig.ult a = false := by rw [BitVec.ult_eq_decide, decide_eq_false h]
    rw [hult, if_neg h, Bool.toNat_false, BitVec.mul_zero, BitVec.add_zero, BitVec.toNat_sub,
      show 2 ^ r.bits - a.toNat + sig.toNat = 2 ^ r.bits + (sig.toNat - a.toNat) by omega, Nat.add_mod_left,
      Nat.mod_eq_of_lt (by omega)]

theorem reflect_reflect {sig a size : r.T} (hs : sig.toNat < size.toNat) (ha : a.toNat < size.toNat) {b : r.T}
    (hb : b = sig - a + size * BitVec.ofNat r.bits (sig.ult a).toNat) :
    b.toNat < size.toNat ∧ sig - b + size * BitVec.ofNat r.bits (sig.ult b).toNat = a := by
  have h1 : b.toNat = if sig.toNat < a.toNat then size.toNat + sig.toNat - a.toNat else sig.toNat - a.toNat := by
    rw [hb]
    exact toNat_reflect hs ha
  have hlt : b.toNat < size.toNat := by
    rw [h1]
    split <;> omega
  refine ⟨hlt, BitVec.eq_of_toNat_eq ?_⟩
  rw [toNat_reflect hs hlt, h1]
  split <;> split <;> omega

/-- Changing the low bits of an address keeps it in its chunk. -/
theorem xor_lt {a y n j : Nat} (hn : 2 ^ j ∣ n) (hy : y < 2 ^ j) (ha : a < n) : a ^^^ y < n := by
  obtain ⟨c, rfl⟩ := hn
  have hdiv : (a ^^^ y) / 2 ^ j = a / 2 ^ j := by
    rw [← Nat.shiftRight_eq_div_pow, Nat.shiftRight_xor_distrib, Nat.shiftRight_eq_div_pow,
      Nat.shiftRight_eq_div_pow, Nat.div_eq_of_lt hy, Nat.xor_zero]
  have hlt : a / 2 ^ j < c := Nat.div_lt_of_lt_mul ha
  rw [← hdiv, Nat.div_lt_iff_lt_mul (Nat.two_pow_pos j)] at hlt
  rwa [Nat.mul_comm]

/-! ## The entries -/

namespace AddresserEntry

theorem new_Magic (h : r.T) : ∃ div d s e, LibdivideU32.Cheap div d s e ∧ d < 2 ^ 32 ∧ h.toNat % 2 ^ 32 ≤ d ∧
    new? .Magic h = some (new .Magic h) ∧ (new .Magic h).size.toNat = d ∧
    (new .Magic h).magic.toNat = div.magic ∧ (new .Magic h).shiftAmount.toNat = s := by
  have hbits : 2 ^ 32 ≤ 2 ^ r.bits := Nat.pow_le_pow_right (by decide) (by cases r <;> decide)
  obtain ⟨d, s, e, hgen, hle, h32, hc⟩ :=
    LibdivideU32.cheapGen_cheap (Nat.mod_lt h.toNat (show 0 < 2 ^ 32 by decide))
  generalize LibdivideU32.internalGen d = div at hgen hc
  have hnew? : new? .Magic h = some ⟨BitVec.ofNat r.bits div.recover, 0, BitVec.ofNat r.bits div.magic,
      BitVec.ofNat r.bits div.more⟩ := by
    rw [new?, hgen]
    rfl
  have hnew : new .Magic h = ⟨BitVec.ofNat r.bits div.recover, 0, BitVec.ofNat r.bits div.magic,
      BitVec.ofNat r.bits div.more⟩ := by
    rw [new, hnew?]
    rfl
  have hs := hc.shift
  have hm := hc.magic_lt
  refine ⟨div, d, s, e, hc, h32, hle, by rw [hnew?, hnew], ?_, ?_, ?_⟩ <;> rw [hnew] <;>
    simp only [BitVec.toNat_ofNat]
  · rw [hc.recover_eq h32, Nat.mod_eq_of_lt (by omega)]
  · rw [Nat.mod_eq_of_lt (by omega)]
  · rw [hc.more, Nat.mod_eq_of_lt (by omega)]

theorem isSome_new? (mode : AddressingMode) (h : r.T) : (new? mode h).isSome = true := by
  cases mode with
  | Magic =>
    obtain ⟨_, _, _, _, _, _, _, hs, _⟩ := new_Magic h
    rw [hs]
    rfl
  | Vacuum =>
    unfold new?
    simp only
    split <;> rfl
  | _ => rfl

theorem computeAddress_Magic (h : r.T) {x : r.T} (hx : x.toNat < 2 ^ 32) :
    (computeAddress .Magic (new .Magic h) x).toNat = x.toNat % (new .Magic h).size.toNat := by
  obtain ⟨div, d, s, e, hc, h32, -, -, hsize, hmagic, hshift⟩ := new_Magic h
  have hquot : (mulh32 x (new .Magic h).magic >>> (new .Magic h).shiftAmount.toNat).toNat = x.toNat / d := by
    rw [BitVec.toNat_ushiftRight, toNat_mulh32, hmagic, hshift, Nat.shiftRight_eq_div_pow, Nat.mod_eq_of_lt hx,
      Nat.mod_eq_of_lt hc.magic_lt, hc.div_eq hx]
  have hle : x.toNat / d * d ≤ x.toNat := Nat.div_mul_le_self _ _
  have hprod : ((mulh32 x (new .Magic h).magic >>> (new .Magic h).shiftAmount.toNat) * (new .Magic h).size).toNat =
      x.toNat / d * d := by
    rw [BitVec.toNat_mul, hquot, hsize, Nat.mod_eq_of_lt (Nat.lt_of_le_of_lt hle x.isLt)]
  rw [computeAddress, BitVec.toNat_sub_of_le (by rw [BitVec.le_def, hprod]; exact hle), hprod, hsize,
    Nat.mod_eq_sub_div_mul]

theorem computeAddress_lt (mode : AddressingMode) (h : r.T) (hsize : (new mode h).size ≠ 0) {x : r.T}
    (hx : x.toNat < 2 ^ 32) : (computeAddress mode (new mode h) x).toNat < (new mode h).size.toNat := by
  have hpos : 0 < (new mode h).size.toNat := Nat.pos_of_ne_zero fun h0 => hsize (BitVec.eq_of_toNat_eq h0)
  have hmul : ∀ size : r.T, 0 < size.toNat → (mulh32 x size).toNat < size.toNat := by
    intro size hs
    rw [toNat_mulh32, Nat.mod_eq_of_lt hx]
    have hle := Nat.mod_le size.toNat (2 ^ 32)
    apply Nat.div_lt_of_lt_mul
    rcases Nat.eq_zero_or_pos (size.toNat % 2 ^ 32) with h0 | h0
    · rw [h0]
      omega
    · have := Nat.mul_lt_mul_of_pos_right hx h0
      omega
  cases mode with
  | PowerOfTwo =>
    have hmask : (new .PowerOfTwo h : AddresserEntry r).mask.toNat < (new .PowerOfTwo h).size.toNat := by
      show (nextPowerOfTwo h - 1).toNat < (nextPowerOfTwo h).toNat
      change 0 < (nextPowerOfTwo h).toNat at hpos
      have hone : (1 : r.T).toNat = 1 := BitVec.toNat_one r.bits_pos
      rw [BitVec.toNat_sub_of_le (by rw [BitVec.le_def, hone]; exact hpos), hone]
      omega
    rw [computeAddress, BitVec.toNat_and]
    exact Nat.lt_of_le_of_lt Nat.and_le_right hmask
  | Magic =>
    rw [computeAddress_Magic h hx]
    exact Nat.mod_lt _ hpos
  | Lemire => exact hmul _ hpos
  | Vacuum => exact hmul _ hpos
  | Morton => exact hmul _ hpos

/-- The last address of a table is the one of some 32-bit hash. -/
theorem exists_computeAddress_last (mode : AddressingMode) (h : r.T) (hsize : (new mode h).size ≠ 0)
    (h32 : (new mode h).size.toNat < 2 ^ 32) :
    ∃ x : r.T, x.toNat < 2 ^ 32 ∧ (computeAddress mode (new mode h) x).toNat + 1 = (new mode h).size.toNat := by
  have hpos : 0 < (new mode h).size.toNat := Nat.pos_of_ne_zero fun h0 => hsize (BitVec.eq_of_toNat_eq h0)
  have hbits : 2 ^ 32 ≤ 2 ^ r.bits := Nat.pow_le_pow_right (by decide) (by cases r <;> decide)
  have hof : ∀ x < 2 ^ 32, (BitVec.ofNat r.bits x).toNat = x := fun x hx => by
    rw [BitVec.toNat_ofNat, Nat.mod_eq_of_lt (Nat.lt_of_lt_of_le hx hbits)]
  have hmul : ∀ size : r.T, 0 < size.toNat → size.toNat < 2 ^ 32 →
      (mulh32 (BitVec.ofNat r.bits (2 ^ 32 - 1)) size).toNat + 1 = size.toNat := by
    intro size hs hlt
    rw [toNat_mulh32, hof _ (by decide), Nat.mod_eq_of_lt hlt, Nat.mod_eq_of_lt (by decide)]
    have hquot : (2 ^ 32 - 1) * size.toNat / 2 ^ 32 = size.toNat - 1 := Nat.div_eq_of_lt_le (by omega) (by omega)
    omega
  cases mode with
  | PowerOfTwo =>
    refine ⟨BitVec.ofNat r.bits ((new .PowerOfTwo h : AddresserEntry r).size.toNat - 1), ?_, ?_⟩
    · rw [hof _ (by omega)]
      omega
    have hmask : (BitVec.ofNat r.bits ((new .PowerOfTwo h : AddresserEntry r).size.toNat - 1)) =
        (new .PowerOfTwo h : AddresserEntry r).mask := by
      refine BitVec.eq_of_toNat_eq ?_
      have hone : (1 : r.T).toNat = 1 := BitVec.toNat_one r.bits_pos
      rw [hof _ (by omega)]
      show (nextPowerOfTwo h).toNat - 1 = (nextPowerOfTwo h - 1).toNat
      rw [BitVec.toNat_sub_of_le (by rw [BitVec.le_def, hone]; exact hpos), hone]
    rw [computeAddress, hmask, BitVec.and_self, ← hmask, hof _ (by omega)]
    omega
  | Magic =>
    refine ⟨BitVec.ofNat r.bits ((new .Magic h).size.toNat - 1), ?_, ?_⟩
    · rw [hof _ (by omega)]
      omega
    rw [computeAddress_Magic h (by rw [hof _ (by omega)]; omega), hof _ (by omega), Nat.mod_eq_of_lt (by omega)]
    omega
  | Lemire => exact ⟨BitVec.ofNat r.bits (2 ^ 32 - 1), by rw [hof _ (by decide)]; decide, hmul _ hpos h32⟩
  | Vacuum => exact ⟨BitVec.ofNat r.bits (2 ^ 32 - 1), by rw [hof _ (by decide)]; decide, hmul _ hpos h32⟩
  | Morton => exact ⟨BitVec.ofNat r.bits (2 ^ 32 - 1), by rw [hof _ (by decide)]; decide, hmul _ hpos h32⟩

theorem new_Vacuum (h : r.T) : (new .Vacuum h : AddresserEntry r) =
    if 256 ≤ (nextPowerOfTwo h / 16).toNat then
      { size := (h + nextPowerOfTwo h / 16 - 1) / (nextPowerOfTwo h / 16) * (nextPowerOfTwo h / 16)
        mask := nextPowerOfTwo h / 16 - 1 }
    else { size := nextPowerOfTwo h, mask := nextPowerOfTwo h - 1 } := by
  unfold new new?
  simp only
  split <;> rfl

theorem le_nextPowerOfTwo {h : r.T} (h16 : 16 ≤ (nextPowerOfTwo h).toNat) : h.toNat ≤ (nextPowerOfTwo h).toNat := by
  unfold nextPowerOfTwo at h16 ⊢
  split at h16
  · simp at h16
  split at h16
  · rename_i h1
    subst h1
    rw [show (1 : r.T).toNat = 1 from BitVec.toNat_one r.bits_pos] at h16
    omega
  · rename_i h0 h1
    rw [if_neg h0, if_neg h1]
    have hh := h.isLt
    have h64 := r.bits_le
    have hle : h.toNat - 1 < 2 ^ (Nat.log2 (h.toNat - 1) + 1) := Nat.lt_log2_self
    have hlog : Nat.log2 (h.toNat - 1) < r.bits := by
      rcases Nat.eq_zero_or_pos (h.toNat - 1) with hz | hpos
      · rw [hz]
        exact r.bits_pos
      · exact (Nat.log2_lt (Nat.ne_of_gt hpos)).mpr (by omega)
    rw [show r.bits - clz r.bits (h.toNat - 1) = Nat.log2 (h.toNat - 1) + 1 by unfold clz; omega] at h16 ⊢
    generalize Nat.log2 (h.toNat - 1) = e at *
    -- the exponents 32 and 64 leave nothing, or the shift by 0
    rcases Nat.lt_or_ge (e + 1) r.bits with hlt | hge
    · rw [Nat.mod_eq_of_lt (by omega)] at h16 ⊢
      have h1 : 2 ^ (e + 1) < 2 ^ 64 := Nat.pow_lt_pow_right (by decide) (by omega)
      have h2 : 2 ^ (e + 1) < 2 ^ r.bits := Nat.pow_lt_pow_right (by decide) hlt
      rw [BitVec.toNat_setWidth, BitVec.toNat_shiftLeft, BitVec.toNat_ofNat, Nat.shiftLeft_eq,
        Nat.one_mod_two_pow_eq_one.mpr (by decide), Nat.one_mul, Nat.mod_eq_of_lt h1, Nat.mod_eq_of_lt h2]
      omega
    · obtain rfl : e = r.bits - 1 := by omega
      revert h16
      cases r <;> exact fun h16 => absurd h16 (by decide)

theorem mask_of_size_eq_zero {mode : AddressingMode} (hmode : mode = .PowerOfTwo ∨ mode = .Vacuum) {h : r.T}
    (hsize : (new mode h).size = 0) : (new mode h).mask = BitVec.allOnes r.bits := by
  have hones : (0 : r.T) - 1 = BitVec.allOnes r.bits := by cases r <;> rfl
  rcases hmode with rfl | rfl
  · show nextPowerOfTwo h - 1 = _
    rw [show nextPowerOfTwo h = 0 from hsize, hones]
  · rw [new_Vacuum] at hsize ⊢
    by_cases hchunk : 256 ≤ (nextPowerOfTwo h / 16).toNat
    · exfalso
      rw [if_pos hchunk] at hsize
      have h16 : (16 : r.T).toNat = 16 := by cases r <;> rfl
      have hdiv : (nextPowerOfTwo h / 16).toNat = (nextPowerOfTwo h).toNat / 16 := by rw [BitVec.toNat_udiv, h16]
      have hle := le_nextPowerOfTwo (h := h) (by omega)
      have hh : 0 < h.toNat := Nat.pos_of_ne_zero fun h0 => by
        rw [show h = 0 from BitVec.eq_of_toNat_eq h0] at hchunk
        revert hchunk
        cases r <;> decide
      obtain ⟨j, hj⟩ := (nextPowerOfTwo_eq h).resolve_left (by rintro h0; simp [h0] at hchunk)
      have hjw : 2 * 2 ^ j ≤ 2 ^ r.bits := by
        rw [← Nat.pow_succ']
        refine Nat.pow_le_pow_right (by decide) ?_
        have := (nextPowerOfTwo h).isLt
        rw [hj] at this
        exact (Nat.pow_lt_pow_iff_right (by decide)).mp this
      have hone : (1 : r.T).toNat = 1 := BitVec.toNat_one r.bits_pos
      have hsum : (h + nextPowerOfTwo h / 16 - 1).toNat = h.toNat + (nextPowerOfTwo h / 16).toNat - 1 := by
        have hadd : (h + nextPowerOfTwo h / 16).toNat = h.toNat + (nextPowerOfTwo h / 16).toNat := by
          rw [BitVec.toNat_add, Nat.mod_eq_of_lt (by omega)]
        rw [BitVec.toNat_sub_of_le (by rw [BitVec.le_def, hone]; omega), hadd, hone]
      have hzero := congrArg BitVec.toNat hsize
      generalize (nextPowerOfTwo h / 16 : r.T) = chunk at *
      have hquot : 1 ≤ (h.toNat + chunk.toNat - 1) / chunk.toNat := (Nat.one_le_div_iff (by omega)).mpr (by omega)
      have hmul := Nat.div_mul_le_self (h.toNat + chunk.toNat - 1) chunk.toNat
      have hge := Nat.mul_le_mul_right chunk.toNat hquot
      simp only [BitVec.toNat_mul, BitVec.toNat_udiv, hsum] at hzero
      rw [Nat.mod_eq_of_lt (by omega)] at hzero
      simp at hzero
      omega
    · rw [if_neg hchunk] at hsize ⊢
      simp only at hsize ⊢
      rw [hsize, hones]

/-- In the modes that flip bits of the address: the table is made of chunks that the mask stays in. -/
theorem chunk_of_mask {mode : AddressingMode} (hmode : mode = .PowerOfTwo ∨ mode = .Vacuum) (h : r.T)
    (hsize : (new mode h).size ≠ 0) : ∃ j, 2 ^ j ∣ (new mode h).size.toNat ∧ (new mode h).mask.toNat < 2 ^ j := by
  have hone : (1 : r.T).toNat = 1 := BitVec.toNat_one r.bits_pos
  have hpred : ∀ (x : r.T) (j : Nat), x.toNat = 2 ^ j → (x - 1).toNat < 2 ^ j := by
    intro x j hx
    have := Nat.two_pow_pos j
    rw [BitVec.toNat_sub_of_le (by rw [BitVec.le_def, hone]; omega), hone]
    omega
  have hp2 : nextPowerOfTwo h ≠ 0 → ∃ j, 2 ^ j ∣ (nextPowerOfTwo h).toNat ∧
      (nextPowerOfTwo h - 1).toNat < 2 ^ j := by
    intro h0
    obtain ⟨j, hj⟩ := (nextPowerOfTwo_eq h).resolve_left h0
    exact ⟨j, by rw [hj], hpred _ j hj⟩
  rcases hmode with rfl | rfl
  · exact hp2 hsize
  · rw [new_Vacuum] at hsize ⊢
    by_cases hchunk : 256 ≤ (nextPowerOfTwo h / 16).toNat
    · rw [if_pos hchunk]
      have h16 : (16 : r.T).toNat = 16 := by cases r <;> rfl
      have hdiv : (nextPowerOfTwo h / 16).toNat = (nextPowerOfTwo h).toNat / 16 := by
        rw [BitVec.toNat_udiv, h16]
      obtain ⟨j, hj⟩ := (nextPowerOfTwo_eq h).resolve_left (by rintro h0; simp [h0] at hchunk)
      rw [hj] at hdiv
      have hj4 : 4 ≤ j := by
        by_contra hlt
        have : 2 ^ j < 2 ^ 4 := Nat.pow_lt_pow_right (by decide) (Nat.lt_of_not_le hlt)
        omega
      have hpow : (nextPowerOfTwo h / 16).toNat = 2 ^ (j - 4) := by
        rw [hdiv, show (16 : Nat) = 2 ^ 4 from rfl, Nat.pow_div hj4 (by decide)]
      refine ⟨j - 4, ?_, hpred _ _ hpow⟩
      have hjw : j - 4 ≤ r.bits := by
        by_contra hlt
        have h1 := (nextPowerOfTwo h).isLt
        have h2 : 2 ^ r.bits ≤ 2 ^ j := Nat.pow_le_pow_right (by decide) (by omega)
        omega
      rw [BitVec.toNat_mul, hpow]
      exact (Nat.dvd_mod_iff (Nat.pow_dvd_pow 2 hjw)).mpr (Nat.dvd_mul_left _ _)
    · rw [if_neg hchunk] at hsize ⊢
      exact hp2 hsize

/-- The alternative address is below the table size, and is an involution. -/
theorem computeAlternativeAddress_spec {mode : AddressingMode} (hmode : mode ≠ .Morton) (h : r.T)
    (hsize : (new mode h).size ≠ 0) {a : r.T} (ha : a.toNat < (new mode h).size.toNat) (f : r.T) :
    (computeAlternativeAddress mode (new mode h) a f).toNat < (new mode h).size.toNat ∧
      computeAlternativeAddress mode (new mode h) (computeAlternativeAddress mode (new mode h) a f) f = a := by
  have hsig : (extractAddressBits (f * signatureFactor r)).toNat < 2 ^ 32 := by
    rw [toNat_extractAddressBits]
    exact Nat.mod_lt _ (by decide)
  have hflip : ∀ y : r.T, (∃ j, 2 ^ j ∣ (new mode h).size.toNat ∧ y.toNat < 2 ^ j) →
      (a ^^^ y).toNat < (new mode h).size.toNat ∧ a ^^^ y ^^^ y = a := by
    rintro y ⟨j, hd, hy⟩
    rw [BitVec.toNat_xor, BitVec.xor_assoc, BitVec.xor_self, BitVec.xor_zero]
    exact ⟨xor_lt hd hy ha, rfl⟩
  cases mode with
  | PowerOfTwo =>
    obtain ⟨j, hd, hm⟩ := chunk_of_mask (.inl rfl) h hsize
    refine hflip _ ⟨j, hd, ?_⟩
    rw [computeAddress, BitVec.toNat_and]
    exact Nat.lt_of_le_of_lt Nat.and_le_right hm
  | Vacuum =>
    obtain ⟨j, hd, hm⟩ := chunk_of_mask (.inr rfl) h hsize
    refine hflip _ ⟨j, hd, ?_⟩
    rw [BitVec.toNat_and]
    exact Nat.lt_of_le_of_lt Nat.and_le_right hm
  | Magic => exact reflect_reflect (computeAddress_lt .Magic h hsize hsig) ha rfl
  | Lemire => exact reflect_reflect (computeAddress_lt .Lemire h hsize hsig) ha rfl
  | Morton => exact absurd rfl hmode

/-! ## Room for the requested buckets -/

theorem toNat_nextPowerOfTwo {h : r.T} (h31 : h.toNat ≤ 2 ^ 31) :
    h.toNat ≤ (nextPowerOfTwo h).toNat ∧ (nextPowerOfTwo h).toNat ≤ 2 ^ 31 := by
  have hbits : 32 ≤ r.bits := by cases r <;> decide
  have hone : (1 : r.T).toNat = 1 := BitVec.toNat_one r.bits_pos
  unfold nextPowerOfTwo
  by_cases h0 : h = 0
  · rw [if_pos h0, h0]
    simp
  rw [if_neg h0]
  by_cases h1 : h = 1
  · rw [if_pos h1, h1, hone]
    decide
  rw [if_neg h1]
  have h2 : 2 ≤ h.toNat := by
    by_contra hlt
    have : h.toNat = 0 ∨ h.toNat = 1 := by omega
    rcases this with h' | h'
    · exact h0 (BitVec.eq_of_toNat_eq (by simpa using h'))
    · exact h1 (BitVec.eq_of_toNat_eq (h'.trans hone.symm))
  have hne : h.toNat - 1 ≠ 0 := by omega
  have hlog : Nat.log2 (h.toNat - 1) < 31 := (Nat.log2_lt hne).mpr (by omega)
  have hle : h.toNat - 1 < 2 ^ (Nat.log2 (h.toNat - 1) + 1) := Nat.lt_log2_self
  have hexp : (r.bits - clz r.bits (h.toNat - 1)) % 64 = Nat.log2 (h.toNat - 1) + 1 := by
    have := r.bits_le
    unfold clz
    omega
  rw [hexp]
  generalize Nat.log2 (h.toNat - 1) = e at *
  have hpow : 2 ^ (e + 1) ≤ 2 ^ 31 := Nat.pow_le_pow_right (by decide) hlog
  have hw : 2 ^ 32 ≤ 2 ^ r.bits := Nat.pow_le_pow_right (by decide) hbits
  have hval : ((1#64 <<< (e + 1)).setWidth r.bits).toNat = 2 ^ (e + 1) := by
    rw [BitVec.toNat_setWidth, BitVec.toNat_shiftLeft, BitVec.toNat_ofNat, Nat.shiftLeft_eq,
      Nat.one_mod_two_pow_eq_one.mpr (by decide), Nat.one_mul, Nat.mod_eq_of_lt (by omega),
      Nat.mod_eq_of_lt (by omega)]
  rw [hval]
  omega

theorem le_size_new (mode : AddressingMode) {h : r.T} (h31 : h.toNat ≤ 2 ^ 31) :
    h.toNat ≤ (new mode h).size.toNat := by
  have hp := toNat_nextPowerOfTwo h31
  cases mode with
  | PowerOfTwo => exact hp.1
  | Magic =>
    obtain ⟨_, d, _, _, _, _, hle, -, hsize, -⟩ := new_Magic h
    rw [hsize]
    rwa [Nat.mod_eq_of_lt (by omega)] at hle
  | Lemire => exact Nat.le_refl _
  | Morton => exact Nat.le_refl _
  | Vacuum =>
    rw [new_Vacuum]
    by_cases hchunk : 256 ≤ (nextPowerOfTwo h / 16).toNat
    · rw [if_pos hchunk]
      have hw : 2 ^ 32 ≤ 2 ^ r.bits := Nat.pow_le_pow_right (by decide) (by cases r <;> decide)
      have hone : (1 : r.T).toNat = 1 := BitVec.toNat_one r.bits_pos
      have hdiv : (nextPowerOfTwo h / 16).toNat ≤ (nextPowerOfTwo h).toNat := by
        rw [BitVec.toNat_udiv]
        exact Nat.div_le_self _ _
      have h16 : (16 : r.T).toNat = 16 := by cases r <;> rfl
      have hsmall : (nextPowerOfTwo h / 16).toNat ≤ 2 ^ 27 := by
        rw [BitVec.toNat_udiv, h16]
        omega
      generalize nextPowerOfTwo h / 16 = chunk at *
      have hsum : (h + chunk - 1).toNat = h.toNat + chunk.toNat - 1 := by
        have hadd : (h + chunk).toNat = h.toNat + chunk.toNat := by
          rw [BitVec.toNat_add, Nat.mod_eq_of_lt (by omega)]
        rw [BitVec.toNat_sub_of_le (by rw [BitVec.le_def, hadd, hone]; omega), hadd, hone]
      have hdm := Nat.div_add_mod (h.toNat + chunk.toNat - 1) chunk.toNat
      have hmod := Nat.mod_lt (h.toNat + chunk.toNat - 1) (show 0 < chunk.toNat by omega)
      rw [Nat.mul_comm] at hdm
      have hle : (h.toNat + chunk.toNat - 1) / chunk.toNat * chunk.toNat ≤ h.toNat + chunk.toNat - 1 :=
        Nat.div_mul_le_self _ _
      show h.toNat ≤ ((h + chunk - 1) / chunk * chunk).toNat
      rw [BitVec.toNat_mul, BitVec.toNat_udiv, hsum, Nat.mod_eq_of_lt (by omega)]
      omega
    · rw [if_neg hchunk]
      exact hp.1

end AddresserEntry

/-! ## The entry points -/

namespace Addresser

theorem broadcast_new (mode : AddressingMode) {histogram : List r.T} {index : Nat} (hi : index < histogram.length) :
    (new mode histogram).broadcast index = AddresserEntry.new mode histogram[index] := by
  simp [new, broadcast, hi]

theorem load_eq_broadcast (ad : Addresser r) (index : Nat) : ad.load index = ad.broadcast index := by
  simp [load, broadcast, List.headD_eq_head?_getD, List.head?_drop]

/-- The laws hashing rests on, for a requested number of buckets between 1 and `2 ^ 31`. -/
theorem addressing_laws {mode : AddressingMode} (hmode : mode ≠ .Morton) {histogram : List r.T} {index : Nat}
    (hi : index < histogram.length) (hpos : 1 ≤ histogram[index].toNat) (h31 : histogram[index].toNat ≤ 2 ^ 31) :
    histogram[index].toNat ≤ getSize (new mode histogram) index ∧
    (∀ x : r.T, x.toNat < 2 ^ 32 →
      (computeAddressVertical mode (new mode histogram) index x).toNat < getSize (new mode histogram) index ∧
      (computeAddressHorizontal mode (new mode histogram) index x).toNat < getSize (new mode histogram) index) ∧
    ∀ a f : r.T, a.toNat < getSize (new mode histogram) index →
      (computeAlternativeAddressVertical mode (new mode histogram) index a f).toNat <
        getSize (new mode histogram) index ∧
      (computeAlternativeAddressHorizontal mode (new mode histogram) index a f).toNat <
        getSize (new mode histogram) index ∧
      computeAlternativeAddressVertical mode (new mode histogram) index
        (computeAlternativeAddressVertical mode (new mode histogram) index a f) f = a ∧
      computeAlternativeAddressHorizontal mode (new mode histogram) index
        (computeAlternativeAddressHorizontal mode (new mode histogram) index a f) f = a := by
  have hle := AddresserEntry.le_size_new mode h31
  have hne : (AddresserEntry.new mode histogram[index]).size ≠ 0 := by
    intro h0
    rw [h0] at hle
    simp only [BitVec.toNat_zero, BitVec.ofNat_eq_ofNat] at hle
    omega
  simp only [getSize, computeAddressVertical, computeAddressHorizontal, computeAlternativeAddressVertical,
    computeAlternativeAddressHorizontal, load_eq_broadcast, broadcast_new mode hi]
  refine ⟨hle, ?_, ?_⟩
  · intro x hx
    have h := AddresserEntry.computeAddress_lt mode histogram[index] hne hx
    exact ⟨h, h⟩
  · intro a f ha
    obtain ⟨h1, h2⟩ := AddresserEntry.computeAlternativeAddress_spec hmode histogram[index] hne ha f
    exact ⟨h1, h1, h2, h2⟩

theorem addressing_laws_packed : [(5 : RegisterSize._32bit.T)][0].toNat ≤
    getSize (new .Vacuum [(5 : RegisterSize._32bit.T)]) 0 :=
  (addressing_laws (by decide : AddressingMode.Vacuum ≠ .Morton)
    (by decide : 0 < [(5 : RegisterSize._32bit.T)].length) (by decide) (by decide)).1

end Addresser

end PartitionedFilters

import PartitionedFilters.CountRange
import PartitionedFilters.VectorSound

/-!
# Arithmetic of the vectors without AVX-512

Population counts byte by byte, products from halves, and rotations by two
shifts.
-/

namespace PartitionedFilters.Avx2

open Register Intrinsics

variable {r : RegisterSize}

/-! ## Population counts -/

def byteCount (x : BitVec 8) : Nat := (List.range 8).countP x.getLsbD

theorem byteCount_le (x : BitVec 8) : byteCount x ≤ 8 := List.countP_le_length.trans_eq List.length_range

theorem lookup_add (n : Nat) (hn : n < 256) :
    [4, 3, 3, 2, 3, 2, 2, 1, 3, 2, 2, 1, 2, 1, 1, 0].reverse.getD (n % 16) 0 +
      [4, 3, 3, 2, 3, 2, 2, 1, 3, 2, 2, 1, 2, 1, 1, 0].reverse.getD (n / 16) 0 = byteCount (BitVec.ofNat 8 n) := by
  revert n
  decide +kernel

theorem elem_popcountLookup {g t : Nat} (hg : g < 2) (ht : t < 16) : elem 8 popcountLookup (16 * g + t) =
    BitVec.ofNat 8 ([4, 3, 3, 2, 3, 2, 2, 1, 3, 2, 2, 1, 2, 1, 1, 0].reverse.getD t 0) := by
  have htable : ∀ g < 2, ∀ t < 16,
      ([4, 3, 3, 2, 3, 2, 2, 1, 3, 2, 2, 1, 2, 1, 1, 0,
        4, 3, 3, 2, 3, 2, 2, 1, 3, 2, 2, 1, 2, 1, 1, 0].reverse.getD (16 * g + t) 0) =
          [4, 3, 3, 2, 3, 2, 2, 1, 3, 2, 2, 1, 2, 1, 1, 0].reverse.getD t 0 := by decide
  rw [popcountLookup, elem_setEpi (by omega), htable g hg t ht]

theorem elem_shuffleEpi8_lookup (a : BitVec 256) {i t : Nat} (hi : i < 32) (ht : t < 16)
    (ha : elem 8 a i = BitVec.ofNat 8 t) :
    elem 8 (shuffleEpi8 popcountLookup a) i =
      BitVec.ofNat 8 ([4, 3, 3, 2, 3, 2, 2, 1, 3, 2, 2, 1, 2, 1, 1, 0].reverse.getD t 0) := by
  have hmsb : (BitVec.ofNat 8 t).msb = false := by
    rw [BitVec.msb_eq_decide, BitVec.toNat_ofNat]
    exact decide_eq_false (by omega)
  rw [shuffleEpi8, elem_ofElems (by omega)]
  simp only [ha, hmsb, Bool.false_eq_true, if_false, BitVec.toNat_ofNat]
  rw [Nat.mod_eq_of_lt (show t < 2 ^ 8 by omega), Nat.mod_eq_of_lt ht, elem_popcountLookup (by omega) ht]

theorem elem_popcountBytes (u : BitVec 256) {i : Nat} (hi : i < 32) :
    elem 8 (popcountBytes u) i = BitVec.ofNat 8 (byteCount (elem 8 u i)) := by
  have hfit : 8 * i + 8 ≤ 256 := by omega
  have hmask : ∀ b < 8, (0x0f#8).getLsbD b = decide (b < 4) := by decide
  have hlo : elem 8 (u &&& set1 256 0x0f#8) i = BitVec.ofNat 8 ((elem 8 u i).toNat % 16) := by
    rw [elem_and, elem_set1 hfit]
    apply BitVec.eq_of_toNat_eq
    rw [BitVec.toNat_and, BitVec.toNat_ofNat, BitVec.toNat_ofNat]
    have hlt := (elem 8 u i).isLt
    rw [show 15 % 2 ^ 8 = 2 ^ 4 - 1 from rfl, Nat.and_two_pow_sub_one_eq_mod]
    omega
  have hhi : elem 8 (srliEpi 16 4 u &&& set1 256 0x0f#8) i = BitVec.ofNat 8 ((elem 8 u i).toNat / 16) := by
    have hshift : elem 8 (srliEpi 16 4 u &&& set1 256 0x0f#8) i = elem 8 u i >>> 4 := by
      rw [elem_and, elem_set1 hfit]
      apply BitVec.eq_of_getLsbD_eq
      intro b hb
      rw [BitVec.getLsbD_and, hmask b hb, getLsbD_elem, srliEpi, map, getLsbD_ofElems _ (by omega),
        BitVec.getLsbD_ushiftRight, getLsbD_elem, BitVec.getLsbD_ushiftRight, getLsbD_elem]
      by_cases h4 : b < 4
      · rw [show 16 * ((8 * i + b) / 16) + (4 + (8 * i + b) % 16) = 8 * i + (4 + b) by omega]
        simp [h4, hb, show 4 + (8 * i + b) % 16 < 16 by omega, show 4 + b < 8 by omega]
      · simp [h4, show ¬4 + b < 8 by omega]
    rw [hshift]
    apply BitVec.eq_of_toNat_eq
    have hlt := (elem 8 u i).isLt
    rw [BitVec.toNat_ushiftRight, BitVec.toNat_ofNat, Nat.shiftRight_eq_div_pow]
    omega
  have hlt := (elem 8 u i).isLt
  simp only [popcountBytes]
  rw [addEpi, elem_zipWith hfit, elem_shuffleEpi8_lookup _ hi (Nat.mod_lt _ (by decide)) hlo,
    elem_shuffleEpi8_lookup _ hi (by omega) hhi, ← BitVec.ofNat_add, lookup_add _ hlt, BitVec.ofNat_toNat,
    BitVec.setWidth_eq]

theorem popcount_eq_sum (x : r.T) :
    Cuckoo.Morton.popcount x =
      BitVec.ofNat r.bits (((List.range r.bytes).map fun j => byteCount (elem 8 x j)).sum) := by
  have hbytes : r.bits = 8 * r.bytes := by cases r <;> rfl
  have hbyte : ∀ j, (List.range 8).countP (fun b => x.getLsbD (8 * j + b)) = byteCount (elem 8 x j) := by
    intro j
    refine List.countP_congr fun b hb => ?_
    rw [getLsbD_elem, decide_eq_true (List.mem_range.mp hb), Bool.true_and]
  have hcount := countP_range_mul x.getLsbD 8 r.bytes
  rw [← hbytes] at hcount
  rw [Cuckoo.Morton.popcount, hcount]
  simp only [hbyte]

theorem toNat_elem_popcountBytes (u : BitVec 256) {i : Nat} (hi : i < 32) :
    (elem 8 (popcountBytes u) i).toNat = byteCount (elem 8 u i) := by
  have hle := byteCount_le (elem 8 u i)
  rw [elem_popcountBytes u hi, BitVec.toNat_ofNat, Nat.mod_eq_of_lt (by omega)]

theorem foldl_add_eq_sum (g : Nat → Nat) (n : Nat) :
    (List.range n).foldl (fun sum j => sum + BitVec.ofNat 64 (g j)) 0 = BitVec.ofNat 64
    ((List.range n).map g).sum := by
  induction n with
  | zero => rfl
  | succ n ih =>
    rw [List.range_succ, List.foldl_append, ih, List.map_append, List.sum_append, List.foldl_cons, List.foldl_nil,
      List.map_singleton, List.sum_singleton, BitVec.ofNat_add]

/-- The bytes of a word of at most 8, added up in its low byte. -/
theorem sum_bytes {x c0 c1 c2 c3 : Nat} (hx : x < 2 ^ 32) (h0 : x / 2 ^ (8 * 0) % 2 ^ 8 = c0)
    (h1 : x / 2 ^ (8 * 1) % 2 ^ 8 = c1) (h2 : x / 2 ^ (8 * 2) % 2 ^ 8 = c2) (h3 : x / 2 ^ (8 * 3) % 2 ^ 8 = c3)
    (hle : c0 ≤ 8 ∧ c1 ≤ 8 ∧ c2 ≤ 8 ∧ c3 ≤ 8) :
    ((x + x / 2 ^ 8) % 2 ^ 32 + (x + x / 2 ^ 8) % 2 ^ 32 / 2 ^ 16) % 2 ^ 32 % 2 ^ 8 = c0 + c1 + c2 + c3 := by
  have hbytes : x = c0 + 256 * c1 + 65536 * c2 + 16777216 * c3 := by omega
  have hpairs : (x + x / 2 ^ 8) % 2 ^ 32 = (c0 + c1) + 256 * (c1 + c2) + 65536 * (c2 + c3) + 16777216 * c3 := by
    omega
  have hhigh : (x + x / 2 ^ 8) % 2 ^ 32 / 2 ^ 16 = (c2 + c3) + 256 * c3 := by omega
  omega

theorem elem_popcount_32bit (u : BitVec 256) {l : Nat} (hl : l < 8) : elem 32 (popcount ._32bit u) l =
    BitVec.ofNat 32 ((List.range 4).map fun j => byteCount (elem 8 (elem 32 u l) j)).sum := by
  have hfit : 32 * l + 32 ≤ 256 := by omega
  have hbyte : ∀ j < 4, (elem 32 (popcountBytes u) l).toNat / 2 ^ (8 * j) % 2 ^ 8 =
      byteCount (elem 8 (elem 32 u l) j) := by
    intro j hj
    rw [← toNat_elem, show elem 8 (elem 32 (popcountBytes u) l) j = elem 8 (popcountBytes u) (4 * l + j) from
      elem_elem (w := 8) _ hj, toNat_elem_popcountBytes u (by omega),
      show elem 8 (elem 32 u l) j = elem 8 u (4 * l + j) from elem_elem (w := 8) u hj]
  have hsum :=
    sum_bytes (elem 32 (popcountBytes u) l).isLt (hbyte 0 (by decide)) (hbyte 1 (by decide)) (hbyte 2 (by decide))
    (hbyte 3 (by decide)) ⟨byteCount_le _, byteCount_le _, byteCount_le _, byteCount_le _⟩
  simp only [popcount, addEpi, srliEpi, elem_and, elem_zipWith hfit, elem_map hfit, elem_set1 hfit]
  apply BitVec.eq_of_toNat_eq
  rw [BitVec.toNat_and, BitVec.toNat_add, BitVec.toNat_ushiftRight, BitVec.toNat_add, BitVec.toNat_ushiftRight,
    Nat.shiftRight_eq_div_pow, Nat.shiftRight_eq_div_pow, BitVec.toNat_ofNat, show 255 % 2 ^ 32 =
      2 ^ 8 - 1 from rfl, Nat.and_two_pow_sub_one_eq_mod, BitVec.toNat_ofNat, hsum]
  have hle := fun j => byteCount_le (elem 8 (elem 32 u l) j)
  have h0 := hle 0
  have h1 := hle 1
  have h2 := hle 2
  have h3 := hle 3
  simp only [List.range_succ, List.range_zero, List.map_append, List.map_nil, List.map_cons, List.sum_append,
    List.sum_nil, List.sum_cons]
  omega

theorem elem_popcount_64bit (u : BitVec 256) {l : Nat} (hl : l < 4) : elem 64 (popcount ._64bit u) l =
    BitVec.ofNat 64 ((List.range 8).map fun j => byteCount (elem 8 (elem 64 u l) j)).sum := by
  have hfit : 64 * l + 64 ≤ 256 := by omega
  have hterm :
      ∀ j ∈ List.range 8,
      max (elem 8 (popcountBytes u) (8 * l + j)).toNat (elem 8 (0 : BitVec 256) (8 * l + j)).toNat -
      min (elem 8 (popcountBytes u) (8 * l + j)).toNat (elem 8 (0 : BitVec 256) (8 * l + j)).toNat =
        byteCount (elem 8 (elem 64 u l) j) := by
    intro j hj
    have hj := List.mem_range.mp hj
    rw [toNat_elem_popcountBytes u (by omega), toNat_elem 0,
      show elem 8 (elem 64 u l) j = elem 8 u (8 * l + j) from elem_elem (w := 8) u hj]
    simp
  simp only [popcount]
  rw [sadEpu8, elem_ofElems hfit]
  exact (foldl_add_eq_sum _ 8).trans (congrArg (BitVec.ofNat 64) (congrArg List.sum (List.map_congr_left hterm)))

theorem elem_popcount (u : BitVec 256) {l : Nat} (hl : l < SIMD.AVX2.nElements r) :
    elem r.bits (popcount r u) l = Cuckoo.Morton.popcount (elem r.bits u l) := by
  cases r with
  | _32bit => exact (elem_popcount_32bit u hl).trans (popcount_eq_sum (r := ._32bit) (elem 32 u l)).symm
  | _64bit => exact (elem_popcount_64bit u hl).trans (popcount_eq_sum (r := ._64bit) (elem 64 u l)).symm

/-! ## Products -/

section
variable {n : Nat} (v : BitVec n) (j : Nat)

theorem elem_low : elem 32 v (2 * j) = (elem 64 v j).setWidth 32 := elem_even v j

theorem elem_high : elem 32 v (2 * j + 1) = (elem 64 v j >>> 32).setWidth 32 := elem_odd v j

theorem elem_append : elem 64 v j = elem 32 v (2 * j + 1) ++ elem 32 v (2 * j) := elem_eq_append (w := 32) v j

end

theorem elem_swap (u : BitVec 256) {l : Nat} (hl : l < 4) :
    elem 64 (shuffleEpi32 u 0xB1) l = (elem 64 u l).setWidth 32 ++ (elem 64 u l >>> 32).setWidth 32 := by
  have hlow : 4 * (2 * l / 4) + 0xB1 / 4 ^ (2 * l % 4) % 4 = 2 * l + 1 := by
    revert l
    decide
  have hhigh : 4 * ((2 * l + 1) / 4) + 0xB1 / 4 ^ ((2 * l + 1) % 4) % 4 = 2 * l := by
    revert l
    decide
  rw [elem_append, shuffleEpi32, elem_ofElems (by omega), elem_ofElems (by omega), hlow, hhigh, elem_low, elem_high]

theorem elem_mul_64bit (u v : BitVec 256) {l : Nat} (hl : l < 4) :
    elem 64 (mul ._64bit u v) l = Vec.mulEmulated (elem 64 u l) (elem 64 v l) := by
  have hfit : 64 * l + 64 ≤ 256 := by omega
  have hlow : 32 * (2 * l) + 32 ≤ 256 := by omega
  have hhigh : 32 * (2 * l + 1) + 32 ≤ 256 := by omega
  have hprodlh : elem 64 (mulloEpi32 v (shuffleEpi32 u 0xB1)) l =
      ((elem 64 v l >>> 32).setWidth 32 * (elem 64 (shuffleEpi32 u 0xB1) l >>> 32).setWidth 32) ++
        ((elem 64 v l).setWidth 32 * (elem 64 (shuffleEpi32 u 0xB1) l).setWidth 32) := by
    rw [elem_append, mulloEpi32, elem_zipWith hhigh, elem_zipWith hlow, elem_high, elem_high, elem_low, elem_low]
  have hprodlh3 : ∀ p : BitVec 256, elem 64 (addEpi 32 (slliEpi 64 32 p) p) l =
      (((elem 64 p l <<< 32) >>> 32).setWidth 32 + (elem 64 p l >>> 32).setWidth 32) ++
        ((elem 64 p l <<< 32).setWidth 32 + (elem 64 p l).setWidth 32) := by
    intro p
    rw [elem_append, addEpi, elem_zipWith hhigh, elem_zipWith hlow, elem_high, elem_high, elem_low, elem_low,
      slliEpi, elem_map hfit]
  have hadd : ∀ a b : BitVec 256, elem 64 (addEpi 64 a b) l = elem 64 a l + elem 64 b l :=
    fun a b => elem_zipWith hfit _ a b
  simp only [mul]
  rw [hadd, elem_and, elem_set1 hfit, hprodlh3, hprodlh, elem_swap u hl, mulEpu32, elem_zipWith hfit]
  rfl

theorem elem_mul (u v : BitVec 256) {l : Nat} (hl : l < SIMD.AVX2.nElements r) :
    elem r.bits (mul r u v) l = elem r.bits u l * elem r.bits v l := by
  have hfit := lane_fits hl
  cases r with
  | _32bit =>
    show elem 32 (mulloEpi32 u v) l = elem 32 u l * elem 32 v l
    exact elem_zipWith (w := 32) hfit _ u v
  | _64bit => exact (elem_mul_64bit u v hl).trans (Vec.mulEmulated_eq _ _)

theorem elem_mulh32_32bit (u v : BitVec 256) {l : Nat} (hl : l < 8) :
    elem 32 (mulh32 ._32bit u v) l = PartitionedFilters.mulh32 (r := ._32bit) (elem 32 u l) (elem 32 v l) := by
  have hmulh : ∀ x y : BitVec 32, ((x.setWidth 64 * y.setWidth 64) >>> 32).setWidth 32 =
      PartitionedFilters.mulh32 (r := ._32bit) x y := by
    intro x y
    show _ = (((x.setWidth 32).setWidth 64 * (y.setWidth 32).setWidth 64) >>> 32).setWidth 32
    rw [BitVec.setWidth_eq, BitVec.setWidth_eq]
  have hodd : (0b01010101).testBit l = decide (l % 2 = 0) := by
    revert l
    decide
  obtain ⟨j, hj⟩ : ∃ j, l = 2 * j ∨ l = 2 * j + 1 := ⟨l / 2, by omega⟩
  have hfit : 64 * j + 64 ≤ 256 := by omega
  rw [← hmulh]
  simp only [mulh32, blendEpi32]
  rw [elem_ofElems (by omega), hodd]
  cases hj with
  | inl hj =>
    subst hj
    rw [if_pos (decide_eq_true (Nat.mul_mod_right 2 j)), elem_low, srliEpi, elem_map hfit, mulEpu32,
      elem_zipWith hfit, Vec.mulEpu32, elem_low, elem_low]
  | inr hj =>
    subst hj
    rw [if_neg (by simp), elem_high, mulEpu32, elem_zipWith hfit, srliEpi, srliEpi, elem_map hfit, elem_map hfit,
      Vec.mulEpu32, elem_high, elem_high]

theorem elem_mulh32 (u v : BitVec 256) {l : Nat} (hl : l < SIMD.AVX2.nElements r) :
    elem r.bits (mulh32 r u v) l = PartitionedFilters.mulh32 (elem r.bits u l) (elem r.bits v l) := by
  have hfit := lane_fits hl
  cases r with
  | _32bit => exact elem_mulh32_32bit u v hl
  | _64bit =>
    have hproduct : Vec.mulh32Epi64 .generic .Scalar (elem 64 u l) (elem 64 v l) =
        ((elem 64 u l &&& 0xFFFFFFFF#64) * (elem 64 v l &&& 0xFFFFFFFF#64)) >>> 32 :=
      congrArg (fun product : BitVec 64 => product >>> 32) (Vec.mulLane_eq .generic (r := ._64bit) _ _)
    refine Eq.trans ?_ (hproduct.symm.trans (Vec.mulh32Epi64_lane .generic (elem 64 u l) (elem 64 v l)))
    show elem 64 (srliEpi 64 32 (mul ._64bit (u &&& set1 256 0xFFFFFFFF#64) (v &&& set1 256 0xFFFFFFFF#64))) l = _
    rw [srliEpi, elem_map (w := 64) hfit, elem_mul_64bit _ _ hl, Vec.mulEmulated_eq, elem_and, elem_and,
      elem_set1 (w := 64) hfit]

/-! ## Operations -/

theorem and_bits_sub_one (r : RegisterSize) (n : Nat) : n &&& (r.bits - 1) = n % r.bits := by
  obtain ⟨j, hj⟩ := bits_eq_two_pow r
  rw [hj, Nat.and_two_pow_sub_one_eq_mod]

theorem set1_ff : set1 256 0xFF#8 = BitVec.allOnes 256 := by
  apply BitVec.eq_of_getLsbD_eq
  intro b hb
  have hones : (0xFF#8).getLsbD (b % 8) = true := by
    have hall : ∀ i < 8, (0xFF#8).getLsbD i = true := by decide
    exact hall _ (Nat.mod_lt _ (by decide))
  rw [set1, getLsbD_ofElems _ hb, hones, BitVec.getLsbD_allOnes, decide_eq_true hb]

theorem elem_not {n w : Nat} (v : BitVec n) {i : Nat} (hi : w * i + w ≤ n) : elem w (~~~v) i = ~~~elem w v i := by
  apply BitVec.eq_of_getLsbD_eq
  intro b hb
  simp only [getLsbD_elem, BitVec.getLsbD_not, hb, show w * i + b < n by omega, decide_true, Bool.true_and]

theorem elem_unary (avx2 : Bool) {op : Unary} (hop : op.Defined r) (u : BitVec 256) {l : Nat}
    (hl : l < SIMD.AVX2.nElements r) :
    elem r.bits (unary r avx2 op u) l = Scalar.unary op (elem r.bits u l) := by
  have hfit := lane_fits hl
  cases avx2 with
  | true =>
    cases op with
    | shiftRight nBits =>
      rw [unary, if_pos rfl, srliEpi, elem_map hfit]
      rfl
    | shiftLeft nBits =>
      rw [unary, if_pos rfl, slliEpi, elem_map hfit]
      rfl
    | ror nBits =>
      rw [unary, if_pos rfl, and_bits_sub_one, elem_or, srliEpi, slliEpi, elem_map hfit, elem_map hfit,
        ← BitVec.rotateRight_def]
      rfl
    | rol nBits =>
      rw [unary, if_pos rfl, and_bits_sub_one, elem_or, srliEpi, slliEpi, elem_map hfit, elem_map hfit,
        ← BitVec.rotateLeft_def]
      rfl
    | negate =>
      rw [unary, if_pos rfl, set1_ff, BitVec.xor_allOnes, elem_not u hfit]
      rfl
    | permuteRegxbyte => rw [unary, elem_map hfit]
    | permuteRegxword => rw [unary, elem_map hfit]
    | popcount =>
      rw [unary, if_pos rfl, elem_popcount u hl]
      rfl
  | false =>
    cases op with
    | shiftRight nBits =>
      rw [unary, if_neg Bool.false_ne_true, elem_map hfit]
      exact if_pos hop
    | shiftLeft nBits =>
      rw [unary, if_neg Bool.false_ne_true, elem_map hfit]
      exact if_pos hop
    | permuteRegxbyte => rw [unary, elem_map hfit]
    | permuteRegxword => rw [unary, elem_map hfit]
    | _ => rw [unary, if_neg Bool.false_ne_true, elem_map hfit]

theorem elem_binary (avx2 : Bool) (op : Binary) (u v : BitVec 256) {l : Nat} (hl : l < SIMD.AVX2.nElements r)
    (hop : op.Defined (elem r.bits v l)) :
    elem r.bits (binary r avx2 op u v) l = Scalar.binary op (elem r.bits u l) (elem r.bits v l) := by
  have hfit := lane_fits hl
  have hlt : r.bits < 2 ^ r.bits := Nat.lt_two_pow_self
  have hpos := r.bits_pos
  have hamount : (elem r.bits (v &&& set1 256 (BitVec.ofNat r.bits (r.bits - 1))) l).toNat =
      (elem r.bits v l).toNat % r.bits := by
    rw [elem_and, elem_set1 hfit, BitVec.toNat_and, BitVec.toNat_ofNat, Nat.mod_eq_of_lt (by omega),
      and_bits_sub_one]
  have hrest : (elem r.bits (subEpi r.bits (set1 256 (BitVec.ofNat r.bits r.bits))
      (v &&& set1 256 (BitVec.ofNat r.bits (r.bits - 1)))) l).toNat =
        r.bits - (elem r.bits v l).toNat % r.bits := by
    have hmod := Nat.mod_lt (elem r.bits v l).toNat hpos
    have hwidth : (BitVec.ofNat r.bits r.bits).toNat = r.bits := by rw [BitVec.toNat_ofNat, Nat.mod_eq_of_lt hlt]
    rw [subEpi, elem_zipWith hfit, elem_set1 hfit, BitVec.toNat_sub_of_le, hamount, hwidth]
    rw [BitVec.le_def, hamount, hwidth]
    omega
  cases avx2 with
  | true =>
    cases op with
    | shiftRight =>
      rw [binary, if_pos rfl, srlvEpi, elem_zipWith hfit]
      rfl
    | shiftLeft =>
      rw [binary, if_pos rfl, sllvEpi, elem_zipWith hfit]
      rfl
    | ror =>
      rw [binary, if_pos rfl, elem_or, srlvEpi, sllvEpi, elem_zipWith hfit, elem_zipWith hfit, hamount, hrest,
        ← BitVec.rotateRight_def]
      rfl
    | rol =>
      rw [binary, if_pos rfl, elem_or, srlvEpi, sllvEpi, elem_zipWith hfit, elem_zipWith hfit, hamount, hrest,
        ← BitVec.rotateLeft_def]
      rfl
    | and =>
      rw [binary, if_pos rfl, elem_and]
      rfl
    | or =>
      rw [binary, if_pos rfl, elem_or]
      rfl
    | xor =>
      rw [binary, if_pos rfl, elem_xor]
      rfl
    | add =>
      rw [binary, if_pos rfl, addEpi, elem_zipWith hfit]
      rfl
    | sub =>
      rw [binary, if_pos rfl, subEpi, elem_zipWith hfit]
      rfl
    | mul =>
      rw [binary, if_pos rfl, elem_mul u v hl]
      rfl
    | mulh32 =>
      rw [binary, if_pos rfl, elem_mulh32 u v hl]
      rfl
  | false =>
    cases op with
    | shiftRight =>
      rw [binary, if_neg Bool.false_ne_true, elem_zipWith hfit]
      exact if_pos hop
    | shiftLeft =>
      rw [binary, if_neg Bool.false_ne_true, elem_zipWith hfit]
      exact if_pos hop
    | _ => rw [binary, if_neg Bool.false_ne_true, elem_zipWith hfit]

theorem elem_masked (op : Masked) (u v : BitVec 256) (mask : BitVec 8) {l : Nat} (hl : l < SIMD.AVX2.nElements r) :
    elem r.bits (masked r op u v mask) l =
      if mask.getLsbD l then Scalar.masked op (elem r.bits u l) (elem r.bits v l) else elem r.bits u l :=
  elem_ofElems (lane_fits hl) _

end PartitionedFilters.Avx2

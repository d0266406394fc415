import PartitionedFilters.VectorArithmetic

/-!
# Vectors as scalars side by side

Every operation of the vectors without AVX-512 is the operation of the scalar
vector in each active lane and leaves the other lanes and their memory alone. A
vector of two halves inherits this from its halves.
-/

namespace PartitionedFilters

open Register Intrinsics

variable {r : RegisterSize} {V M : Type}

/-- The operations act lane by lane as the scalar ones; `fits` are the indices that a gather reads from where the
scalar vector does. -/
structure Operations.Emulates (o : Operations r V M) (n : Nat) (lane : V → Nat → r.T) (active : M → Nat → Bool)
    (fits : r.T → Prop) : Prop where
  unary : ∀ op u, op.Defined r → ∀ l < n, lane (o.unary op u) l = Scalar.unary op (lane u l)
  binary : ∀ op u v, ∀ l < n, op.Defined (lane v l) → lane (o.binary op u v) l =
    Scalar.binary op (lane u l) (lane v l)
  masked : ∀ op u v mask, ∀ l < n, lane (o.masked op u v mask) l =
    if active mask l then Scalar.masked op (lane u l) (lane v l) else lane u l
  compare : ∀ op u v l, active (o.compare op u v) l = (decide (l < n) && Scalar.compare op (lane u l) (lane v l))
  equal : ∀ bits, bits = 8 ∨ bits = 16 → ∀ u v b, (o.equal bits u v).getLsbD b =
    (decide (b < n * (r.bits / bits)) &&
    (Scalar.equal bits (lane u (b / (r.bits / bits))) (lane v (b / (r.bits / bits)))).getLsbD (b % (r.bits / bits)))
  gather : ∀ index base mask, (∀ m, ∀ l < n, lane (o.gather index base mask m) l =
    if active mask l then Scalar.gather (lane index l) base m else 0) ↔ ∀ l < n, active mask l = true →
    fits (lane index l)
  scatter : ∀ u base index mask m, o.scatter u base index mask m = (List.range n).foldl (fun m l =>
    if active mask l then Scalar.scatter (lane u l) base (lane index l) m else m) m
  scatterstoreOr : ∀ u base index mask m, o.scatterstoreOr u base index mask m = (List.range n).foldl (fun m l =>
    if active mask l then Scalar.scatterstoreOr (lane u l) base (lane index l) m else m) m

/-! ## Fields that are equal -/

section
variable {bits : Nat} (hbits : bits = 8 ∨ bits = 16)
include hbits

theorem fields_eq : r.bytes / (bits / 8) = r.bits / bits := by
  rcases hbits with rfl | rfl <;> cases r <;> rfl

theorem bits_eq_fields (r : RegisterSize) : r.bits = bits * (r.bits / bits) := by
  rcases hbits with rfl | rfl <;> cases r <;> rfl

theorem getLsbD_fieldMask {b : Nat} (hb : b < r.bits) :
    ((1#32 <<< bits - 1#32).signExtend r.bits).getLsbD b = decide (b < bits) := by
  have hall : ∀ b < r.bits, ((1#32 <<< bits - 1#32).signExtend r.bits).getLsbD b = decide (b < bits) := by
    rcases hbits with rfl | rfl <;> cases r <;> decide
  exact hall b hb

theorem field_eq_iff (a b : r.T) {i : Nat} (hi : i < r.bits / bits) :
    ((a >>> (i * bits)) &&& (1#32 <<< bits - 1#32).signExtend r.bits =
      (b >>> (i * bits)) &&& (1#32 <<< bits - 1#32).signExtend r.bits) ↔ elem bits a i = elem bits b i := by
  have hfit : bits * i + bits ≤ r.bits := by
    rw [bits_eq_fields hbits r, ← Nat.mul_succ]
    exact Nat.mul_le_mul_left _ hi
  have hfield : ∀ (x : r.T) {g : Nat}, g < bits → (elem bits x i).getLsbD g = x.getLsbD (i * bits + g) := by
    intro x g hg
    rw [getLsbD_elem, decide_eq_true hg, Bool.true_and, Nat.mul_comm]
  constructor
  · intro h
    apply BitVec.eq_of_getLsbD_eq
    intro g hg
    have hbit := congrArg (fun x => x.getLsbD g) h
    simp only [BitVec.getLsbD_and, BitVec.getLsbD_ushiftRight, getLsbD_fieldMask hbits (show g < r.bits by omega),
      decide_eq_true hg, Bool.and_true] at hbit
    rw [hfield a hg, hfield b hg, hbit]
  · intro h
    apply BitVec.eq_of_getLsbD_eq
    intro g hg
    simp only [BitVec.getLsbD_and, BitVec.getLsbD_ushiftRight, getLsbD_fieldMask hbits hg]
    by_cases hlt : g < bits
    · rw [← hfield a hlt, ← hfield b hlt, h]
    · simp [hlt]

theorem Scalar.getLsbD_equal (a b : r.T) (i : Nat) :
    (Scalar.equal bits a b).getLsbD i = (decide (i < r.bits / bits) && (elem bits a i == elem bits b i)) := by
  have hle : r.bits / bits ≤ 64 := Nat.le_trans (Nat.div_le_self ..) r.bits_le
  have hcollect := @getLsbD_collect_one 64 (r.bytes / (bits / 8))
    (fun i => decide ((a >>> (i * bits)) &&& (1#32 <<< bits - 1#32).signExtend r.bits =
      (b >>> (i * bits)) &&& (1#32 <<< bits - 1#32).signExtend r.bits)) i
  simp only [decide_eq_true_eq] at hcollect
  rw [Scalar.equal, hcollect, fields_eq hbits]
  by_cases hi : i < r.bits / bits
  · by_cases helem : elem bits a i = elem bits b i
    · simp [hi, show i < 64 by omega, helem, (field_eq_iff hbits a b hi).mpr helem]
    · have hfield := mt (field_eq_iff hbits a b hi).mp helem
      rw [decide_eq_false hfield, beq_eq_false_iff_ne.mpr helem, Bool.and_false, Bool.and_false]
  · simp [hi]

theorem Avx2.lanes_mul_fields (r : RegisterSize) : SIMD.AVX2.nElements r * (r.bits / bits) = 256 / bits := by
  rcases hbits with rfl | rfl <;> cases r <;> rfl

theorem elem_lane (u : BitVec 256) (b : Nat) :
    elem bits (elem r.bits u (b / (r.bits / bits))) (b % (r.bits / bits)) = elem bits u b := by
  have hpos : 0 < r.bits / bits := by rcases hbits with rfl | rfl <;> cases r <;> decide
  have hview : ∀ {w q : Nat}, w = bits * q → 0 < q → elem bits (elem w u (b / q)) (b % q) = elem bits u b := by
    intro w q hw hq
    subst hw
    rw [elem_elem u (Nat.mod_lt b hq), Nat.div_add_mod]
  exact hview (bits_eq_fields hbits r) hpos

theorem Avx2.getLsbD_equal (avx2 : Bool) (u v : BitVec 256) (b : Nat) : (equal r avx2 bits u v).getLsbD b =
    (decide (b < SIMD.AVX2.nElements r * (r.bits / bits)) &&
      (Scalar.equal bits (elem r.bits u (b / (r.bits / bits))) (elem r.bits v (b / (r.bits / bits)))).getLsbD
        (b % (r.bits / bits))) := by
  have hpos : 0 < r.bits / bits := by rcases hbits with rfl | rfl <;> cases r <;> decide
  have hle : SIMD.AVX2.nElements r * (r.bits / bits) ≤ 64 := by
    rw [lanes_mul_fields hbits]
    rcases hbits with rfl | rfl <;> decide
  cases avx2 with
  | true =>
    have hzip : (equal r true bits u v).getLsbD b =
        (decide (b < 64) && (decide (b < 256 / bits) && (elem bits u b == elem bits v b))) := by
      rcases hbits with rfl | rfl
      · rw [equal, if_pos rfl, BitVec.getLsbD_setWidth, if_pos rfl, cmpeqEpi,
          avx2MaskToAvx512Mask_zipWith (.inl rfl) (· == ·)]
      · rw [equal, if_pos rfl, BitVec.getLsbD_setWidth, if_neg (by decide), if_pos rfl, cmpeqEpi,
          avx2MaskToAvx512Mask_zipWith (.inr (.inl rfl)) (· == ·)]
    rw [hzip, Scalar.getLsbD_equal hbits, elem_lane hbits, elem_lane hbits, decide_eq_true (Nat.mod_lt b hpos),
      Bool.true_and, lanes_mul_fields hbits]
    by_cases hb : b < 256 / bits
    · have h64 : b < 64 := Nat.lt_of_lt_of_le hb (lanes_mul_fields hbits r ▸ hle)
      simp [h64]
    · simp [hb]
  | false =>
    rw [equal, if_neg Bool.false_ne_true, fields_eq hbits, getLsbD_collect hpos]
    · by_cases hb : b < SIMD.AVX2.nElements r * (r.bits / bits)
      · simp [hb, show b < 64 by omega, Nat.div_lt_of_lt_mul (Nat.mul_comm _ _ ▸ hb)]
      · simp [hb, mt (Nat.lt_mul_of_div_lt · hpos) hb]
    · intro i b hb
      rw [Scalar.getLsbD_equal hbits, decide_eq_false (Nat.not_lt.mpr hb), Bool.false_and]

end


/-! ## Gathers -/

namespace Avx2

section
variable (mask : BitVec 8)

theorem msb_expand {shifts : List Nat} {i j : Nat} (hi : i < 8) (hj : j < 8)
    (hs : shifts.reverse.getD i 0 = 31 - j) :
    (elem 32 (sraiEpi32 31 (sllvEpi 32 (set1 256 (mask.setWidth 32)) (setEpi 256 32 shifts))) i).msb =
      mask.getLsbD j := by
  have hfit : 32 * i + 32 ≤ 256 := by omega
  rw [sraiEpi32, elem_map hfit, BitVec.msb_sshiftRight, sllvEpi, elem_zipWith hfit, elem_set1 hfit,
    elem_setEpi hfit, hs, BitVec.toNat_ofNat, Nat.mod_eq_of_lt (by omega), BitVec.msb_eq_getLsbD_last,
    BitVec.getLsbD_shiftLeft, BitVec.getLsbD_setWidth, show 32 - 1 - (31 - j) = j by omega]
  simp [show j < 32 by omega, show ¬31 < 31 - j by omega]

theorem msb_expandMask {l : Nat} (hl : l < SIMD.AVX2.nElements r) :
    (elem r.bits (expandMask r mask) l).msb = mask.getLsbD l := by
  cases r with
  | _32bit =>
    have hs : ∀ l < 8, [24, 25, 26, 27, 28, 29, 30, 31].reverse.getD l 0 = 31 - l := by decide
    exact msb_expand mask hl hl (hs l hl)
  | _64bit =>
    have hs : ∀ l < 4, [28, 28, 29, 29, 30, 30, 31, 31].reverse.getD (2 * l + 1) 0 = 31 - l := by decide
    have hl : l < 4 := hl
    have hhalf := msb_expand mask (i := 2 * l + 1) (by omega) (show l < 8 by omega) (hs l hl)
    rw [msb_elem (by decide), show 32 * (2 * l + 1) + (32 - 1) = 64 * l + (64 - 1) by omega] at hhalf
    exact (msb_elem (w := 64) (by decide) _ l).trans hhalf

end

/-- The instruction takes a 32-bit index as signed. -/
def IndexFits (r : RegisterSize) (avx2 : Bool) (index : r.T) : Prop :=
  avx2 = true → r = ._32bit → index.toNat < 2 ^ 31

theorem signExtend_mul_eq_iff (x : BitVec 32) :
    x.signExtend 64 * BitVec.ofNat 64 4 = x.setWidth 64 * BitVec.ofNat 64 4 ↔ x.toNat < 2 ^ 31 := by
  have hlt := x.isLt
  have hmsb := BitVec.msb_eq_decide x
  by_cases h : x.toNat < 2 ^ 31
  · rw [BitVec.signExtend_eq_setWidth_of_msb_false (hmsb.trans (decide_eq_false (by omega)))]
    exact iff_of_true rfl h
  · rw [BitVec.toNat_inj.symm, BitVec.toNat_mul, BitVec.toNat_mul, BitVec.toNat_signExtend, BitVec.toNat_setWidth,
      hmsb, decide_eq_true (by omega), if_pos rfl, BitVec.toNat_ofNat]
    omega

theorem gatherAddress_eq_iff (base : BitVec 64) (index : r.T) :
    (gatherAddress base index r.bytes).toNat = Scalar.address base index ↔ IndexFits r true index := by
  rw [Scalar.address, gatherAddress, ← BitVec.toNat_inj.symm, BitVec.add_right_inj]
  cases r with
  | _32bit => exact (signExtend_mul_eq_iff index).trans ⟨fun h _ _ => h, fun h => h rfl rfl⟩
  | _64bit =>
    have hself : index.signExtend 64 = index.setWidth 64 :=
      (BitVec.signExtend_eq index).trans (BitVec.setWidth_eq index).symm
    exact iff_of_true (congrArg (· * BitVec.ofNat 64 8) hself) fun _ h => nomatch h

theorem load_eq_iff {n p q : Nat} (hn : 0 < n) : (∀ m : Mem, m.load p n = m.load q n) ↔ p = q := by
  constructor
  · intro h
    have hbit := congrArg (fun x : BitVec n => x.getLsbD 0) (h ⟨fun b => b == p⟩)
    simp only [Mem.getLsbD_load, decide_eq_true hn, Bool.true_and, Nat.add_zero, beq_self_eq_true] at hbit
    exact (beq_iff_eq.mp hbit.symm).symm
  · intro h m
    rw [h]

theorem gather_iff (avx2 : Bool) (index : BitVec 256) (base : BitVec 64) (mask : BitVec 8) :
    (∀ m, ∀ l < SIMD.AVX2.nElements r, elem r.bits (gather r avx2 index base mask m) l =
      if mask.getLsbD l then Scalar.gather (elem r.bits index l) base m else 0) ↔
      ∀ l < SIMD.AVX2.nElements r, mask.getLsbD l = true → IndexFits r avx2 (elem r.bits index l) := by
  cases avx2 with
  | false =>
    refine iff_of_true ?_ fun l _ _ h => nomatch h
    intro m l hl
    rw [gather, if_neg Bool.false_ne_true, elem_ofElems (lane_fits hl)]
  | true =>
    have hlane : ∀ m, ∀ l < SIMD.AVX2.nElements r, elem r.bits (gather r true index base mask m) l =
        if mask.getLsbD l then
        m.load (8 * (gatherAddress base (elem r.bits index l) r.bytes).toNat) r.bits else 0 := by
      intro m l hl
      rw [gather, if_pos rfl, maskGatherEpi, elem_ofElems (lane_fits hl), msb_expandMask mask hl]
      refine if_congr Iff.rfl rfl ?_
      exact BitVec.eq_of_getLsbD_eq fun b hb => by simp [getLsbD_elem]
    constructor
    · intro h l hl hmask
      apply (gatherAddress_eq_iff base (elem r.bits index l)).mp
      apply Nat.eq_of_mul_eq_mul_left (show 0 < 8 by decide)
      apply (load_eq_iff r.bits_pos).mp
      intro m
      have hm := h m l hl
      rwa [hlane m l hl, if_pos hmask, if_pos hmask] at hm
    · intro h m l hl
      rw [hlane m l hl]
      by_cases hmask : mask.getLsbD l = true
      · rw [if_pos hmask, if_pos hmask, (gatherAddress_eq_iff base _).mpr (h l hl hmask), Scalar.gather]
      · rw [if_neg hmask, if_neg hmask]

theorem operations_emulate (r : RegisterSize) (avx2 : Bool) : (operations r avx2).Emulates (SIMD.AVX2.nElements r)
    (elem r.bits) BitVec.getLsbD (IndexFits r avx2) where
  unary _ u hop _ hl := by
    simp only [operations]
    exact elem_unary avx2 hop u hl
  binary op u v _ hl hop := by
    simp only [operations]
    exact elem_binary avx2 op u v hl hop
  masked op u v mask _ hl := by
    simp only [operations]
    exact elem_masked op u v mask hl
  compare op u v l := by
    simp only [operations]
    exact getLsbD_compare avx2 op u v l
  equal _ hbits u v b := by
    simp only [operations]
    exact getLsbD_equal hbits avx2 u v b
  gather index base mask := by
    simp only [operations]
    exact gather_iff avx2 index base mask
  scatter _ _ _ _ _ := by simp only [operations, scatter]
  scatterstoreOr _ _ _ _ _ := by simp only [operations, scatterstoreOr]

end Avx2

/-! ## Memory outside the active lanes -/

/-- A scatter changes no bit outside the words of the active lanes. -/
def Operations.Frames (o : Operations r V M) (n : Nat) (lane : V → Nat → r.T) (active : M → Nat → Bool) : Prop :=
  ∀ u base index mask m q, (∀ l < n, active mask l = true →
    q < 8 * Scalar.address base (lane index l) ∨ 8 * Scalar.address base (lane index l) + r.bits ≤ q) →
      (o.scatter u base index mask m).bit q = m.bit q ∧ (o.scatterstoreOr u base index mask m).bit q = m.bit q

theorem foldl_bit {step : Mem → Nat → Mem} {q n : Nat} (hstep : ∀ m, ∀ l < n, (step m l).bit q = m.bit q)
    (m : Mem) :
    ((List.range n).foldl step m).bit q = m.bit q := by
  induction n with
  | zero => rfl
  | succ n ih =>
    rw [List.range_succ, List.foldl_append, List.foldl_cons, List.foldl_nil, hstep _ n n.lt_succ_self]
    exact ih fun m l hl => hstep m l (Nat.lt_succ_of_lt hl)

theorem Operations.Emulates.frames {o : Operations r V M} {n : Nat} {lane : V → Nat → r.T} {active : M → Nat → Bool}
    {fits : r.T → Prop} (h : o.Emulates n lane active fits) : o.Frames n lane active := by
  intro u base index mask m q hq
  have hstore : ∀ {l} {v : r.T}, l < n → active mask l = true → ∀ m,
      (Scalar.scatter v base (lane index l) m).bit q = m.bit q := by
    intro l v hl hact m
    exact Mem.store_of_notMem m v (hq l hl hact)
  rw [h.scatter, h.scatterstoreOr]
  refine ⟨foldl_bit ?_ m, foldl_bit ?_ m⟩
  · intro m l hl
    by_cases hact : active mask l = true
    · rw [if_pos hact, hstore hl hact]
    · rw [if_neg hact]
  · intro m l hl
    by_cases hact : active mask l = true
    · rw [if_pos hact, Scalar.scatterstoreOr, hstore hl hact]
    · rw [if_neg hact]

/-! ## Two halves -/

namespace Avx512

section
variable {SV : Type}

theorem nElements_eq (r : RegisterSize) : SIMD.AVX512.nElements r = 2 * SIMD.AVX2.nElements r := by cases r <;> rfl

section
variable {l : Nat} (hl : l < SIMD.AVX512.nElements r)
include hl

theorem half_lt : l / SIMD.AVX2.nElements r < 2 :=
  Nat.div_lt_of_lt_mul (by rwa [nElements_eq, Nat.mul_comm] at hl)

theorem getLsbD_half (mask : Mask r) : (half mask (Fin.ofNat 2 (l / SIMD.AVX2.nElements r))).getLsbD
    (l % SIMD.AVX2.nElements r) = mask.getLsbD l := by
  have hmod := Nat.mod_lt l (SIMD.AVX2.nElements_pos r)
  have hle := Avx2.nElements_le r
  rw [half, Fin.val_ofNat, Nat.mod_eq_of_lt (half_lt hl), BitVec.getLsbD_setWidth, decide_eq_true (by omega),
    Bool.true_and, BitVec.getLsbD_ushiftRight, Nat.div_add_mod']

end

theorem joined {i j : Nat} (hi : i < 2) (hj : j < SIMD.AVX2.nElements r) :
    SIMD.AVX2.nElements r * i + j < SIMD.AVX512.nElements r ∧
    (SIMD.AVX2.nElements r * i + j) / SIMD.AVX2.nElements r = i ∧
    (SIMD.AVX2.nElements r * i + j) % SIMD.AVX2.nElements r = j := by
  have hpos := SIMD.AVX2.nElements_pos r
  have hmul := Nat.mul_le_mul_left (SIMD.AVX2.nElements r) (Nat.succ_le_of_lt hi)
  rw [Nat.mul_succ, Nat.mul_comm _ 2, ← nElements_eq] at hmul
  refine ⟨by omega, ?_, ?_⟩
  · rw [Nat.mul_add_div hpos, Nat.div_eq_of_lt hj, Nat.add_zero]
  · rw [Nat.mul_add_mod, Nat.mod_eq_of_lt hj]

theorem foldl_halves (step : Fin 2 → Nat → Mem → Mem) (mask : Mask r) (m : Mem) :
    (List.finRange 2).foldl (fun m (i : Fin 2) => (List.range (SIMD.AVX2.nElements r)).foldl
      (fun m j => if (half mask i).getLsbD j then step i j m else m) m) m =
    (List.range (SIMD.AVX512.nElements r)).foldl (fun m l => if mask.getLsbD l then
      step (.ofNat 2 (l / SIMD.AVX2.nElements r)) (l % SIMD.AVX2.nElements r) m else m) m := by
  have hhalf : ∀ (i : Nat) (m : Mem), i < 2 → (List.range (SIMD.AVX2.nElements r)).foldl
      (fun m j => if (half mask (Fin.ofNat 2 i)).getLsbD j then step (.ofNat 2 i) j m else m) m =
      ((List.range (SIMD.AVX2.nElements r)).map (SIMD.AVX2.nElements r * i + ·)).foldl
        (fun m l => if mask.getLsbD l then
        step (.ofNat 2 (l / SIMD.AVX2.nElements r)) (l % SIMD.AVX2.nElements r) m else m) m := by
    intro i m hi
    rw [List.foldl_map]
    refine List.foldl_ext _ _ m fun m j hj => ?_
    obtain ⟨hlt, hdiv, hmod⟩ := joined (r := r) hi (List.mem_range.mp hj)
    have hbit := getLsbD_half hlt mask
    rw [hdiv, hmod] at hbit
    rw [hbit, hdiv, hmod]
  have hfirst := hhalf 0 m (by decide)
  have hsecond := fun m => hhalf 1 m (by decide)
  simp only [Nat.mul_zero, Nat.zero_add, List.map_id'] at hfirst
  simp only [Nat.mul_one] at hsecond
  have hrange : List.range (SIMD.AVX512.nElements r) = List.range (SIMD.AVX2.nElements r) ++
      (List.range (SIMD.AVX2.nElements r)).map (SIMD.AVX2.nElements r + ·) := by
    rw [nElements_eq, Nat.two_mul, List.range_add]
  rw [hrange, List.foldl_append, ← hfirst, ← hsecond]
  rfl

variable {sv : Operations r SV (BitVec 8)} {svLane : SV → Nat → r.T} {fits : r.T → Prop}
  (h : sv.Emulates (SIMD.AVX2.nElements r) svLane BitVec.getLsbD fits)
include h

theorem getLsbD_compare (op : Comparison) (u v : Fin 2 → SV) (l : Nat) :
    ((operations sv).compare op u v).getLsbD l =
      (decide (l < SIMD.AVX512.nElements r) && Scalar.compare op (lane svLane u l) (lane svLane v l)) := by
  have hmod := Nat.mod_lt l (SIMD.AVX2.nElements_pos r)
  simp only [operations]
  rw [getLsbD_collect (SIMD.AVX2.nElements_pos r)]
  · by_cases hl : l < SIMD.AVX512.nElements r
    · have hlow : l % SIMD.AVX2.nElements r < SIMD.AVX512.nElements r := Nat.lt_of_le_of_lt (Nat.mod_le ..) hl
      rw [BitVec.getLsbD_setWidth, h.compare, decide_eq_true hl, decide_eq_true (half_lt hl), decide_eq_true hmod,
        decide_eq_true hlow]
      rfl
    · rw [decide_eq_false hl, Bool.false_and, Bool.false_and, Bool.false_and]
  · intro i b hb
    rw [BitVec.getLsbD_setWidth, h.compare, decide_eq_false (Nat.not_lt.mpr hb), Bool.false_and, Bool.and_false]

theorem getLsbD_equal {bits : Nat} (hbits : bits = 8 ∨ bits = 16) (u v : Fin 2 → SV) (b : Nat) :
    ((operations sv).equal bits u v).getLsbD b = (decide (b < SIMD.AVX512.nElements r * (r.bits / bits)) &&
      (Scalar.equal bits (lane svLane u (b / (r.bits / bits))) (lane svLane v (b / (r.bits / bits)))).getLsbD
        (b % (r.bits / bits))) := by
  have hshift : 32 / (bits / 8) = r.bits / bits * SIMD.AVX2.nElements r := by
    rcases hbits with rfl | rfl <;> cases r <;> rfl
  have hpos : 0 < r.bits / bits * SIMD.AVX2.nElements r := by rcases hbits with rfl | rfl <;> cases r <;> decide
  have hle : SIMD.AVX512.nElements r * (r.bits / bits) ≤ 64 := by rcases hbits with rfl | rfl <;> cases r <;> decide
  have htotal : SIMD.AVX512.nElements r * (r.bits / bits) = r.bits / bits * SIMD.AVX2.nElements r * 2 := by
    rw [nElements_eq]
    ring
  simp only [operations]
  rw [hshift, getLsbD_collect hpos]
  · have hmod := Nat.mod_lt b hpos
    rw [h.equal bits hbits, Nat.mod_mul_right_div_self, Nat.mod_mul_right_mod, ← Nat.div_div_eq_div_mul,
      Nat.mul_comm (SIMD.AVX2.nElements r), decide_eq_true hmod, Bool.true_and]
    by_cases hb : b < SIMD.AVX512.nElements r * (r.bits / bits)
    · have hhalf : b / (r.bits / bits) / SIMD.AVX2.nElements r < 2 := by
        rw [Nat.div_div_eq_div_mul]
        exact Nat.div_lt_of_lt_mul (htotal ▸ hb)
      rw [decide_eq_true hb, decide_eq_true hhalf, decide_eq_true (show b < 64 by omega)]
      rfl
    · have hhalf : ¬b / (r.bits / bits) / SIMD.AVX2.nElements r < 2 := by
        rw [Nat.div_div_eq_div_mul]
        exact fun hlt => hb (htotal ▸ Nat.mul_comm 2 _ ▸ Nat.lt_mul_of_div_lt hlt hpos)
      rw [decide_eq_false hb, decide_eq_false hhalf, Bool.and_false, Bool.false_and, Bool.false_and]
  · intro i b hb
    rw [h.equal bits hbits, Nat.mul_comm (SIMD.AVX2.nElements r),
      decide_eq_false (Nat.not_lt.mpr hb), Bool.false_and]

theorem gather_iff (index : Fin 2 → SV) (base : BitVec 64) (mask : Mask r) :
    (∀ m, ∀ l < SIMD.AVX512.nElements r, lane svLane ((operations sv).gather index base mask m) l =
      if mask.getLsbD l then Scalar.gather (lane svLane index l) base m else 0) ↔
      ∀ l < SIMD.AVX512.nElements r, mask.getLsbD l = true → fits (lane svLane index l) := by
  constructor
  · intro hall l hl hmask
    refine (h.gather (index (.ofNat 2 (l / SIMD.AVX2.nElements r))) base
      (half mask (Fin.ofNat 2 (l / SIMD.AVX2.nElements r)))).mp
      ?_ (l % SIMD.AVX2.nElements r) (Nat.mod_lt l (SIMD.AVX2.nElements_pos r)) ((getLsbD_half hl mask).trans hmask)
    intro m j hj
    obtain ⟨hlt, hdiv, hmod⟩ := joined (r := r) (half_lt hl) hj
    have hlane := hall m _ hlt
    have hbit := getLsbD_half hlt mask
    rw [hdiv, hmod] at hbit
    rw [lane, lane, hdiv, hmod, ← hbit] at hlane
    exact hlane
  · intro hfits m l hl
    have hlane := (h.gather (index (.ofNat 2 (l / SIMD.AVX2.nElements r))) base
      (half mask (Fin.ofNat 2 (l / SIMD.AVX2.nElements r)))).mpr (fun j hj hact => by
        obtain ⟨hlt, hdiv, hmod⟩ := joined (r := r) (half_lt hl) hj
        have hbit := getLsbD_half hlt mask
        rw [hdiv, hmod] at hbit
        have hfit := hfits _ hlt (hbit.symm.trans hact)
        rwa [lane, hdiv, hmod] at hfit) m (l % SIMD.AVX2.nElements r) (Nat.mod_lt l (SIMD.AVX2.nElements_pos r))
    rw [getLsbD_half hl mask] at hlane
    exact hlane

theorem operations_emulate :
    (operations sv).Emulates (SIMD.AVX512.nElements r) (lane svLane) BitVec.getLsbD fits where
  unary op u hop l _ := h.unary op _ hop _ (Nat.mod_lt l (SIMD.AVX2.nElements_pos r))
  binary op u v l _ hop := h.binary op _ _ _ (Nat.mod_lt l (SIMD.AVX2.nElements_pos r)) hop
  masked op u v mask l hl := by
    have hlane := h.masked op (u (.ofNat 2 (l / SIMD.AVX2.nElements r))) (v (.ofNat 2 (l / SIMD.AVX2.nElements r)))
      (half mask (Fin.ofNat 2 (l / SIMD.AVX2.nElements r))) _ (Nat.mod_lt l (SIMD.AVX2.nElements_pos r))
    rw [getLsbD_half hl mask] at hlane
    exact hlane
  compare op u v l := getLsbD_compare h op u v l
  equal _ hbits u v b := getLsbD_equal h hbits u v b
  gather index base mask := gather_iff h index base mask
  scatter u base index mask m := by
    simp only [operations, h.scatter]
    exact foldl_halves (fun i j => Scalar.scatter (svLane (u i) j) base (svLane (index i) j)) mask m
  scatterstoreOr u base index mask m := by
    simp only [operations, h.scatterstoreOr]
    exact foldl_halves (fun i j => Scalar.scatterstoreOr (svLane (u i) j) base (svLane (index i) j)) mask m

end

end Avx512

/-- Every operation is that of the scalars, and a gather is exactly where the indices of its active lanes fit. -/
theorem vectors_emulate_scalars (r : RegisterSize) (avx2 : Bool) :
    (Avx2.operations r avx2).Emulates (SIMD.AVX2.nElements r) (elem r.bits) BitVec.getLsbD (Avx2.IndexFits r avx2) ∧
      (Avx2.operations r avx2).Frames (SIMD.AVX2.nElements r) (elem r.bits) BitVec.getLsbD ∧
      (Avx512.operations (Avx2.operations r avx2)).Emulates (SIMD.AVX512.nElements r) (Avx512.lane (elem r.bits))
        BitVec.getLsbD (Avx2.IndexFits r avx2) ∧
      (Avx512.operations (Avx2.operations r avx2)).Frames (SIMD.AVX512.nElements r) (Avx512.lane (elem r.bits))
        BitVec.getLsbD := by
  have hhalf := Avx2.operations_emulate r avx2
  have hwhole := Avx512.operations_emulate hhalf
  exact ⟨hhalf, hhalf.frames, hwhole, hwhole.frames⟩

/-! ## The vectors of the filters -/

section
variable {o : Operations r V M} {n : Nat} {lane : V → Nat → r.T} {active : M → Nat → Bool} {fits : r.T → Prop}
  (h : o.Emulates n lane active fits)
include h

theorem Operations.Emulates.lanes_equal {bits : Nat} (hbits : bits = 8 ∨ bits = 16)
    (hn : n * (r.bits / bits) ≤ 64) (u v : V) :
    o.equal bits u v = Lanes.equal bits (fun l : Fin n => lane u l) fun l => lane v l := by
  have hpos : 0 < r.bits / bits := by rcases hbits with rfl | rfl <;> cases r <;> decide
  have hlane : ∀ (x : r.T) i, Cuckoo.lane bits x i = elem bits x i := fun _ _ => rfl
  apply BitVec.eq_of_getLsbD_eq
  intro b hb
  rw [h.equal bits hbits, Lanes.equal, BitVec.getLsbD_ofFnLE, dif_pos hb, Scalar.getLsbD_equal hbits,
    decide_eq_true (Nat.mod_lt b hpos), Bool.true_and]
  by_cases hlt : b < n * (r.bits / bits)
  · rw [decide_eq_true hlt, dif_pos (Nat.div_lt_of_lt_mul (Nat.mul_comm n _ ▸ hlt)), Bool.true_and, hlane, hlane]
  · rw [decide_eq_false hlt, dif_neg (mt (Nat.lt_mul_of_div_lt · hpos) hlt), Bool.false_and]

theorem Operations.Emulates.lanes_permute (u : V) :
    (fun l : Fin n => lane (o.unary .permuteRegxbyte u) l) = Lanes.permute 8 (fun l : Fin n => lane u l) ∧
      (fun l : Fin n => lane (o.unary .permuteRegxword u) l) = Lanes.permute 16 (fun l : Fin n => lane u l) := by
  have hpermute : ∀ {w : Nat} (x : r.T), 0 < w → ofElems r.bits w (fun _ => elem w x 0) =
      BitVec.ofFnLE fun i : Fin r.bits => x.getLsbD (i % w) := by
    intro w x hw
    apply BitVec.eq_of_getLsbD_eq
    intro b hb
    rw [getLsbD_ofElems _ hb, BitVec.getLsbD_ofFnLE, dif_pos hb, getLsbD_elem, decide_eq_true (Nat.mod_lt b hw),
      Nat.mul_zero, Nat.zero_add, Bool.true_and]
  constructor
  · funext l
    rw [h.unary .permuteRegxbyte u trivial l l.isLt]
    exact hpermute _ (by decide)
  · funext l
    rw [h.unary .permuteRegxword u trivial l l.isLt]
    exact hpermute _ (by decide)

end

def farWord : Mem := Mem.zero.store (8 * 0x500000000) 1#32

/-- The instruction takes index `2 ^ 31` as negative and reads elsewhere. -/
theorem not_vectors_emulate_scalars :
    elem 32 ((Avx2.operations ._32bit true).gather 0x80000000#256 0x300000000#64 1#8 farWord) 0 = 0#32 ∧
      Scalar.gather (r := ._32bit) (elem 32 0x80000000#256 0) 0x300000000#64 farWord = 1#32 ∧
      ¬(Avx2.operations ._32bit true).Emulates (SIMD.AVX2.nElements ._32bit) (elem 32) BitVec.getLsbD
        fun _ => True := by
  have hread : elem 32 ((Avx2.operations ._32bit true).gather 0x80000000#256 0x300000000#64 1#8 farWord) 0 =
      0#32 := by
    decide +kernel
  have hscalar : Scalar.gather (r := ._32bit) (elem 32 0x80000000#256 0) 0x300000000#64 farWord = 1#32 :=
    Mem.load_store Mem.zero (8 * 0x500000000) 1#32
  refine ⟨hread, hscalar, fun h => ?_⟩
  have hlane := (h.gather 0x80000000#256 0x300000000#64 1#8).mpr (fun _ _ _ => trivial) farWord 0 (by decide)
  rw [hread, if_pos (by decide), hscalar] at hlane
  exact absurd hlane (show (0#32 : BitVec 32) ≠ 1#32 by decide)

end PartitionedFilters

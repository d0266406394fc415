import PartitionedFilters.BloomSimd
import PartitionedFilters.CountRange
import Mathlib

/-!
# Lanes of the Bloom filter

Every lane finds what the lookup of its value finds, whatever the other lanes
hold: the early exits leave out only lanes that have failed, and the vertical
counter puts the words of each value together again.
-/

namespace PartitionedFilters.Bloom

variable {r : RegisterSize} {n : Nat}

/-! ## Walks without their exits -/

theorem checkMask_eq_all (c : Config r) (x : BloomContainer r) (m : Mem) (steps : List (Step r)) :
    checkMask c x m steps = steps.all (found c x m) := by
  induction steps with
  | nil => rfl
  | cons s steps ih =>
    rw [checkMask, List.all_cons, ih]
    cases hf : found c x m s <;> simp

theorem found_eq_compare (c : Config r) (x : BloomContainer r) (m : Mem) (s : Step r) :
    found c x m s = compare c (m.load (wordBit x s.word) r.bits) s := rfl

/-! ## The number of words -/

section
variable (c : Config r) (value value' : r.T)

theorem length_blockedSteps (block block' offset offset' : r.T) (base base' remainingK : Nat)
    (h h' : HashWindow r) :
    (blockedSteps c value block offset base remainingK h).length =
      (blockedSteps c value' block' offset' base' remainingK h').length := by
  induction remainingK generalizing h h' with
  | zero => rfl
  | succ remainingK ih =>
    simp only [blockedSteps, List.length_cons]
    split
    · rw [ih]
    · rfl

theorem length_sectorizedSteps (block block' offset offset' : r.T) (base base' remainingK : Nat)
    (h h' : HashWindow r) :
    (sectorizedSteps c value block offset base remainingK h).length =
      (sectorizedSteps c value' block' offset' base' remainingK h').length := by
  induction remainingK using Nat.strongRecOn generalizing base base' h h' with
  | ind remainingK ih =>
    rw [sectorizedSteps, sectorizedSteps, List.length_cons, List.length_cons]
    split
    · rename_i hk
      rw [ih _ (by omega)]
    · rfl

theorem length_groupedSteps (block block' offset offset' : r.T) (base base' remainingK : Nat)
    (h h' : HashWindow r) :
    (groupedSteps c value block offset base remainingK h).length =
      (groupedSteps c value' block' offset' base' remainingK h').length := by
  induction remainingK using Nat.strongRecOn generalizing h h' with
  | ind remainingK ih =>
    rw [groupedSteps, groupedSteps, List.length_cons, List.length_cons]
    split
    · rename_i hk
      rw [ih _ (by omega)]
    · rfl

theorem length_naiveSteps (x : BloomContainer r) (index index' remainingK : Nat) (a a' b b' : HashWindow r) :
    (naiveSteps c x index value remainingK a b).length =
      (naiveSteps c x index' value' remainingK a' b').length := by
  induction remainingK using Nat.strongRecOn generalizing a a' b b' with
  | ind remainingK ih =>
    rw [naiveSteps.eq_def, naiveSteps.eq_def c x index' value', List.length_cons, List.length_cons]
    split
    · rw [ih _ (by omega)]
    · rfl

theorem length_steps (x : BloomContainer r) (index index' : Nat) :
    (steps c x index value).length = (steps c x index' value').length := by
  unfold steps
  cases c.vectorization with
  | Vertical => simp [verticalSteps]
  | Horizontal =>
    cases c.variant with
    | Naive => exact length_naiveSteps ..
    | Blocked => exact length_blockedSteps ..
    | Sectorized => exact length_sectorizedSteps ..
    | Grouped => exact length_groupedSteps ..

end

namespace Simd

section
variable (c : Config r) (x : BloomContainer r) (m : Mem)

theorem all_stepAt (index : Nat) (value : r.T) (p : Step r → Bool) :
    ((List.range (steps c x index value).length).all fun t => p (stepAt c x index value t)) =
      (steps c x index value).all p := by
  unfold stepAt
  generalize steps c x index value = l
  induction l with
  | nil => rfl
  | cons s l ih =>
    rw [List.length_cons, List.range_succ_eq_map, List.all_cons, List.all_map, List.all_cons, ← ih]
    rfl

theorem all_laneSteps (index : Nat) (values : Lanes r n) (l : Fin n) :
    ((laneSteps c x index values).all fun s => compare c (m.load (wordBit x (s l).word) r.bits) (s l)) =
      Bloom.contains c x index (values l) m := by
  rw [Bloom.contains, checkMask_eq_all, laneSteps, List.all_map, length_steps c 0 (values l) x index index]
  exact all_stepAt c x index (values l) (Bloom.found c x m)

theorem found_of_mask {mask : LaneMask n} {l : Fin n} (h : mask l = true) (s : Fin n → Step r) :
    found c x m mask s l = compare c (m.load (wordBit x (s l).word) r.bits) (s l) := by rw [found, if_pos h]

theorem checkMask_apply (mask : LaneMask n) (steps : List (Fin n → Step r)) (l : Fin n) :
    checkMask c x m mask steps l =
      (mask l && steps.all fun s => compare c (m.load (wordBit x (s l).word) r.bits) (s l)) := by
  induction steps with
  | nil => simp [checkMask]
  | cons s steps ih =>
    cases hl : mask l with
    | false =>
      cases steps with
      | nil => simp [checkMask, hl]
      | cons s' steps =>
        rw [checkMask]
        split
        · rfl
        · show (found c x m mask s l && checkMask c x m mask (s' :: steps) l) = false
          rw [ih, hl, Bool.false_and, Bool.and_false]
    | true =>
      have hfound := found_of_mask c x m hl s
      cases steps with
      | nil => simp [checkMask, hl, hfound]
      | cons s' steps =>
        rw [checkMask, List.all_cons, ← hfound, Bool.true_and]
        split
        · rename_i hexit
          rw [hexit.2 l, Bool.false_and]
        · show (found c x m mask s l && checkMask c x m mask (s' :: steps) l) = _
          rw [ih, hl, Bool.true_and]

theorem naiveHelp_apply (mask : LaneMask n) (steps : List (Fin n → Step r)) (l : Fin n) :
    naiveHelp c x m mask steps l =
      (mask l && steps.all fun s => compare c (m.load (wordBit x (s l).word) r.bits) (s l)) := by
  induction steps generalizing mask with
  | nil => simp [naiveHelp]
  | cons s steps ih =>
    have hone : (mask l && found c x m mask s l) =
        (mask l && compare c (m.load (wordBit x (s l).word) r.bits) (s l)) := by
      cases hl : mask l with
      | false => rfl
      | true => rw [found_of_mask c x m hl]
    cases steps with
    | nil => simp [naiveHelp, hone]
    | cons s' steps =>
      rw [naiveHelp, ih, hone, Bool.and_assoc]
      rfl

theorem containsHorizontal_apply (index : Nat) (values : Lanes r n) (mask : LaneMask n) (l : Fin n) :
    containsHorizontal c x m mask index values l = (mask l && Bloom.contains c x index (values l) m) := by
  rw [containsHorizontal, ← all_laneSteps c x m index values l]
  split
  · exact naiveHelp_apply ..
  · exact checkMask_apply ..

end

/-! ## Vertical lanes -/

theorem dims (simd : SIMD) (b : BlockSize) : simd ≠ .Scalar → b.bits ≤ simd.bits → r.bits ≤ b.bits →
    Nat.log2 (simd.bits / r.bits / (simd.bits / b.bits)) + Nat.log2 (simd.bits / b.bits) ≤ 4 ∧
    simd.bits / b.bits = 2 ^ Nat.log2 (simd.bits / b.bits) ∧
    simd.bits / r.bits / (simd.bits / b.bits) = 2 ^ Nat.log2 (simd.bits / r.bits / (simd.bits / b.bits)) ∧
    simd.nElements r = simd.bits / b.bits * (simd.bits / r.bits / (simd.bits / b.bits)) := by
  cases simd <;> cases r <;> cases b <;> decide

/-- What the vertical counter relies on: `nLanes` blocks of `nElementsPerLane` words. -/
structure Dims (c : Config r) (e f : Nat) : Prop where
  lanes : nLanes c = 2 ^ f
  perLane : c.nElementsPerLane = 2 ^ e
  le : e + f ≤ 4

theorem dims_of_admitted {c : Config r} (h : c.Admitted) (hv : c.vectorization = .Vertical) :
    (∃ e f, Dims c e f) ∧ nLanes c * c.nElementsPerLane = c.simd.nElements r := by
  obtain ⟨hsector, havx, hle⟩ := h.vertical hv
  have hs : c.simd ≠ .Scalar := by
    intro hs
    simp [Config.avx, hs] at havx
  have hr : r.bits ≤ c.blockSize.bits := by
    have h32 := h.register32 hsector
    revert h32
    cases c.blockSize <;> cases r <;> simp [BlockSize.bits, RegisterSize.bits]
  obtain ⟨h1, h2, h3, h4⟩ := dims (r := r) c.simd c.blockSize hs hle hr
  exact ⟨⟨_, _, h2, h3, h1⟩, h4.symm⟩

section
variable {c : Config r} {e f : Nat} (hd : Dims c e f)
include hd

/-- A bit of the folded mask is the conjunction of the bits of its lane. -/
theorem getLsbD_foldLanes (a : BitVec 32) (b : Nat) :
    (foldLanes c a).getLsbD b = true ↔ ∀ i < 2 ^ e, a.getLsbD (b + i) = true := by
  have hsteps : ∀ T b, ((List.range T).foldl (fun (a : BitVec 32) t =>
      if 2 ^ t < c.nElementsPerLane then a &&& a >>> 2 ^ t else a) a).getLsbD b = true ↔
      ∀ i < 2 ^ min T e, a.getLsbD (b + i) = true := by
    intro T
    induction T with
    | zero => exact fun b => by simp
    | succ T ih =>
      intro b
      rw [List.range_succ, List.foldl_append, List.foldl_cons, List.foldl_nil, hd.perLane]
      by_cases hT : T < e
      · have hpow : 2 ^ min (T + 1) e = 2 ^ min T e + 2 ^ T := by
          rw [Nat.min_eq_left hT, Nat.min_eq_left (Nat.le_of_lt hT), Nat.pow_succ, Nat.mul_two]
        rw [if_pos ((Nat.pow_lt_pow_iff_right (by decide)).mpr hT), BitVec.getLsbD_and, BitVec.getLsbD_ushiftRight,
          Bool.and_eq_true, ← hd.perLane, ih, ih, hpow, Nat.min_eq_left (Nat.le_of_lt hT)]
        constructor
        · intro ⟨hlow, hhigh⟩ i hi
          rcases Nat.lt_or_ge i (2 ^ T) with hlt | hge
          · exact hlow i hlt
          · have := hhigh (i - 2 ^ T) (by omega)
            rwa [show 2 ^ T + b + (i - 2 ^ T) = b + i by omega] at this
        · intro h
          refine ⟨fun i hi => h i (by omega), fun i hi => ?_⟩
          rw [show 2 ^ T + b + i = b + (2 ^ T + i) by omega]
          exact h _ (by omega)
      · rw [if_neg fun h => hT ((Nat.pow_lt_pow_iff_right (by decide)).mp h), ← hd.perLane, ih,
          Nat.min_eq_right (by omega), Nat.min_eq_right (by omega)]
  rw [foldLanes, hsteps, Nat.min_eq_right (by have := hd.le; omega)]

theorem filter_pextMask :
    (List.range 32).filter (pextMask c).getLsbD = (List.range (2 ^ f + 1)).map (2 ^ e * ·) := by
  have hall : ∀ e ≤ 4, ∀ f ≤ 4, e + f ≤ 4 → (List.range 32).filter ((List.range (2 ^ f)).foldl
      (fun (mask : BitVec 32) _ => mask ||| mask <<< 2 ^ e) 1).getLsbD =
        (List.range (2 ^ f + 1)).map (2 ^ e * ·) := by
    decide +kernel
  have hle := hd.le
  rw [pextMask, hd.lanes, hd.perLane]
  exact hall e (by omega) f (by omega) hle

theorem getLsbD_pext32 (a : BitVec 32) (i : Nat) :
    (pext32 a (pextMask c)).getLsbD i = (decide (i < 2 ^ f + 1) && a.getLsbD (2 ^ e * i)) := by
  have hf : 2 ^ f ≤ 2 ^ 4 := Nat.pow_le_pow_right (by decide) (by have := hd.le; omega)
  exact pext32_apply (filter_pextMask hd) (by omega) a i

variable [NeZero n] (x : BloomContainer r) (m : Mem) (index : Nat) (values : Lanes r n) (mask : LaneMask n)
  (hv : c.vectorization = .Vertical) (hn : n = 2 ^ f * 2 ^ e)

omit hd in
def hit (c : Config r) (x : BloomContainer r) (m : Mem) (index : Nat) (values : Lanes r n) (mask : LaneMask n)
    (l : Nat) : Bool :=
  mask (Fin.ofNat n l) && Bloom.contains c x index (values (Fin.ofNat n l)) m

/-- Lane `2 ^ e * i + t` has word `t` of value `i` of the round. -/
theorem permuteMask_eq {i t : Nat} (ht : t < 2 ^ e) (j : Nat) {l : Fin n} (hl : l.val = 2 ^ e * i + t) :
    permuteMask c j l = Fin.ofNat n (j * 2 ^ f + i) ∧ l % c.nElementsPerLane = t := by
  have hdiv : (l : Nat) / c.nElementsPerLane = i := by
    rw [hd.perLane, hl, Nat.mul_add_div (Nat.two_pow_pos e), Nat.div_eq_of_lt ht, Nat.add_zero]
  refine ⟨by rw [permuteMask, hdiv, hd.lanes], ?_⟩
  rw [hd.perLane, hl, Nat.mul_add_mod, Nat.mod_eq_of_lt ht]

theorem checkVertical_apply {i j t : Nat} (ht : t < 2 ^ e) {l : Fin n} (hl : l.val = 2 ^ e * i + t) :
    checkVertical c x m index values (roundMask c mask j) j l = (mask (Fin.ofNat n (j * 2 ^ f + i)) &&
      Bloom.found c x m (stepAt c x index (values (Fin.ofNat n (j * 2 ^ f + i))) t)) := by
  obtain ⟨hpermute, hmod⟩ := permuteMask_eq hd ht j hl
  simp only [checkVertical, roundMask, hpermute, hmod, found_eq_compare]
  cases mask (Fin.ofNat n (j * 2 ^ f + i)) <;> simp

include hv in
omit [NeZero n] in
theorem length_steps_vertical (value : r.T) : (steps c x index value).length = 2 ^ e := by
  simp [steps, hv, verticalSteps, hd.perLane]

include hv hn in
/-- The words of block `i` of round `j` are all set if its value is found. -/
theorem forall_checkVertical {i j : Nat} (hi : i < 2 ^ f) :
    (∀ t < 2 ^ e, ∀ l : Fin n, l.val = 2 ^ e * i + t →
    checkVertical c x m index values (roundMask c mask j) j l = true) ↔
      hit c x m index values mask (j * 2 ^ f + i) = true := by
  have hlen := length_steps_vertical hd x index hv (values (Fin.ofNat n (j * 2 ^ f + i)))
  have hall := all_stepAt c x index (values (Fin.ofNat n (j * 2 ^ f + i))) (Bloom.found c x m)
  have hlane : ∀ t < 2 ^ e, 2 ^ e * i + t < n := by
    intro t ht
    have := Nat.mul_le_mul_left (2 ^ e) (show i + 1 ≤ 2 ^ f from hi)
    rw [Nat.mul_comm _ (2 ^ f), ← hn, Nat.mul_succ] at this
    omega
  rw [hit, Bloom.contains, checkMask_eq_all, ← hall, hlen, Bool.and_eq_true, List.all_eq_true]
  constructor
  · intro h
    have hpart : ∀ t < 2 ^ e, mask (Fin.ofNat n (j * 2 ^ f + i)) = true ∧
        Bloom.found c x m (stepAt c x index (values (Fin.ofNat n (j * 2 ^ f + i))) t) = true := by
      intro t ht
      have hl := h t ht ⟨_, hlane t ht⟩ rfl
      rwa [checkVertical_apply hd x m index values mask ht rfl, Bool.and_eq_true] at hl
    exact ⟨(hpart 0 (Nat.two_pow_pos e)).1, fun t ht => (hpart t (List.mem_range.mp ht)).2⟩
  · intro ⟨hm, h⟩ t ht l hl
    rw [checkVertical_apply hd x m index values mask ht hl, hm, h t (List.mem_range.mpr ht)]
    rfl

omit [NeZero n] hd in
theorem getLsbD_maskBits (hn16 : n ≤ 32) (mask : LaneMask n) {b : Nat} (hb : b < n) :
    (maskBits mask).getLsbD b = mask ⟨b, hb⟩ := by
  rw [maskBits, BitVec.getLsbD_ofFnLE, dif_pos (by omega)]
  exact dif_pos hb

omit [NeZero n] hd in
theorem getLsbD_maskBits_of_le (mask : LaneMask n) {b : Nat} (hb : n ≤ b) : (maskBits mask).getLsbD b = false := by
  rw [maskBits, BitVec.getLsbD_ofFnLE]
  split
  · exact dif_neg (Nat.not_lt.mpr hb)
  · rfl

include hn in
omit [NeZero n] in
theorem n_le : n ≤ 16 := by
  have := Nat.pow_le_pow_right (show 0 < 2 by decide) hd.le
  rw [hn, ← Nat.pow_add, Nat.add_comm f]
  exact this

include hv hn in
theorem containsRound_one (hf : f = 0) (j : Nat) : containsRound c x m index values (roundMask c mask j) j =
    if hit c x m index values mask j then 1 else 0 := by
  subst hf
  have hiff := forall_checkVertical hd x m index values mask hv hn (i := 0) (j := j) Nat.one_pos
  rw [Nat.pow_zero, Nat.mul_one, Nat.add_zero] at hiff
  have hall : (∀ l : Fin n, checkVertical c x m index values (roundMask c mask j) j l = true) ↔
      hit c x m index values mask j = true := by
    rw [← hiff]
    constructor
    · exact fun h t _ l _ => h l
    · exact fun h l => h l (by have := l.isLt; omega) l (by omega)
  rw [containsRound, hd.lanes, if_pos (Nat.pow_zero 2)]
  simp only [hall]

include hv hn in
theorem getLsbD_containsRound (hf : f ≠ 0) {i : Nat} (hi : i < 2 ^ f) (j : Nat) :
    (containsRound c x m index values (roundMask c mask j) j).getLsbD (2 ^ e * i) =
      hit c x m index values mask (j * 2 ^ f + i) := by
  have hlane : ∀ t < 2 ^ e, 2 ^ e * i + t < n := by
    intro t ht
    have := Nat.mul_le_mul_left (2 ^ e) (show i + 1 ≤ 2 ^ f from hi)
    rw [Nat.mul_comm _ (2 ^ f), ← hn, Nat.mul_succ] at this
    omega
  have h16 := n_le hd hn
  have hone : nLanes c ≠ 1 := by
    rw [hd.lanes]
    exact Nat.ne_of_gt (Nat.one_lt_two_pow hf)
  rw [containsRound, if_neg hone, Bool.eq_iff_iff, getLsbD_foldLanes hd,
    ← forall_checkVertical hd x m index values mask hv hn hi]
  constructor
  · intro h t ht l hl
    have := h t ht
    rw [getLsbD_maskBits (by omega) _ (hlane t ht)] at this
    rwa [show l = ⟨_, hlane t ht⟩ from Fin.ext hl]
  · intro h t ht
    rw [getLsbD_maskBits (by omega) _ (hlane t ht)]
    exact h t ht _ rfl

theorem getLsbD_containsRound_of_le (hf : f ≠ 0) {b : Nat} (hb : n ≤ b) (j : Nat) :
    (containsRound c x m index values mask j).getLsbD b = false := by
  have hone : nLanes c ≠ 1 := by
    rw [hd.lanes]
    exact Nat.ne_of_gt (Nat.one_lt_two_pow hf)
  rw [containsRound, if_neg hone, ← Bool.not_eq_true, getLsbD_foldLanes hd]
  intro h
  have := h 0 (Nat.two_pow_pos e)
  rw [Nat.add_zero, getLsbD_maskBits_of_le _ hb] at this
  cases this

include hv hn in
theorem getLsbD_round {j : Nat} (hj : j < 2 ^ e) (b : Nat) :
    (if nLanes c = 1 then containsRound c x m index values (roundMask c mask j) j <<< j else
      pext32 (containsRound c x m index values (roundMask c mask j) j) (pextMask c) <<< (j * nLanes c)).getLsbD b =
      (decide (j * 2 ^ f ≤ b ∧ b < j * 2 ^ f + 2 ^ f) && hit c x m index values mask b) := by
  have h16 := n_le hd hn
  have hround : j * 2 ^ f + 2 ^ f ≤ n := by
    have := Nat.mul_le_mul_left (2 ^ f) (show j + 1 ≤ 2 ^ e from hj)
    rw [← hn, Nat.mul_succ, Nat.mul_comm] at this
    exact this
  rw [hd.lanes]
  by_cases hf : f = 0
  · rw [if_pos (by rw [hf]; rfl), containsRound_one hd x m index values mask hv hn hf, hf,
      Nat.pow_zero, Nat.mul_one]
    rw [hf, Nat.pow_zero, Nat.mul_one] at hround
    rw [BitVec.getLsbD_shiftLeft]
    by_cases hb : b = j
    · subst hb
      cases hit c x m index values mask b <;> simp [show b < 32 by omega]
    · have hrange : ¬(j ≤ b ∧ b < j + 1) := by omega
      rw [decide_eq_false hrange]
      by_cases hlt : b < j
      · simp [hlt]
      · cases hit c x m index values mask j <;> simp [BitVec.getLsbD_one, show b - j ≠ 0 by omega]
  · rw [if_neg (Nat.ne_of_gt (Nat.one_lt_two_pow hf)), BitVec.getLsbD_shiftLeft]
    by_cases hlt : b < j * 2 ^ f
    · rw [decide_eq_true hlt, decide_eq_false (by omega : ¬(j * 2 ^ f ≤ b ∧ b < j * 2 ^ f + 2 ^ f))]
      simp
    · obtain ⟨i, rfl⟩ := Nat.exists_eq_add_of_le (Nat.le_of_not_lt hlt)
      rw [Nat.add_sub_cancel_left, decide_eq_false hlt]
      rcases Nat.lt_or_ge i (2 ^ f) with hi | hi
      · rw [getLsbD_pext32 hd, getLsbD_containsRound hd x m index values mask hv hn hf hi]
        simp [hi, Nat.lt_succ_of_lt hi, show j * 2 ^ f + i < 32 by omega]
      · have hzero : (pext32 (containsRound c x m index values (roundMask c mask j) j) (pextMask c)).getLsbD i =
            false := by
          rw [getLsbD_pext32 hd]
          rcases Nat.eq_or_lt_of_le hi with rfl | hgt
          · rw [getLsbD_containsRound_of_le hd x m index values _ hf (by rw [hn, Nat.mul_comm]), Bool.and_false]
          · rw [decide_eq_false (by omega), Bool.false_and]
        rw [hzero, decide_eq_false (by omega : ¬(j * 2 ^ f ≤ j * 2 ^ f + i ∧ j * 2 ^ f + i < j * 2 ^ f + 2 ^ f))]
        simp

omit hd in
theorem hit_of_skip {j l : Nat} (hskip : ∀ l : Fin n, j * 2 ^ f ≤ l → mask l = false)
    (hl : j * 2 ^ f ≤ l) (hlt : l < n) :
    hit c x m index values mask l = false := by
  have hval : (Fin.ofNat n l).val = l := Nat.mod_eq_of_lt hlt
  rw [hit, hskip _ (by rw [hval]; exact hl), Bool.false_and]

omit hd [NeZero n] in
include hn in
theorem round_le {j : Nat} (hj : j < 2 ^ e) : j * 2 ^ f + 2 ^ f ≤ n := by
  have := Nat.mul_le_mul_left (2 ^ f) (show j + 1 ≤ 2 ^ e from hj)
  rw [← hn, Nat.mul_succ, Nat.mul_comm] at this
  exact this

include hv hn in
theorem getLsbD_foldl_rounds {T : Nat} (hT : T ≤ 2 ^ e) (b : Nat) : ((List.range T).foldl (fun found j =>
    if ∀ l : Fin n, j * nLanes c ≤ l → mask l = false then found
    else
      let m := containsRound c x m index values (roundMask c mask j) j
      found ||| if nLanes c = 1 then m <<< j else pext32 m (pextMask c) <<< (j * nLanes c)) 0).getLsbD b =
      (decide (b < T * 2 ^ f) && hit c x m index values mask b) := by
  induction T with
  | zero => simp
  | succ T ih =>
    have hround := round_le hn (f := f) hT
    have hsucc : (T + 1) * 2 ^ f = T * 2 ^ f + 2 ^ f := Nat.succ_mul ..
    have hpos := Nat.two_pow_pos f
    rw [List.range_succ, List.foldl_append, List.foldl_cons, List.foldl_nil, hsucc]
    split
    · rename_i hskip
      rw [hd.lanes] at hskip
      rw [ih (by omega)]
      by_cases hb : T * 2 ^ f ≤ b ∧ b < T * 2 ^ f + 2 ^ f
      · rw [hit_of_skip x m index values mask hskip hb.1 (by omega), Bool.and_false, Bool.and_false]
      · congr 1
        exact decide_eq_decide.mpr (by omega)
    · simp only [BitVec.getLsbD_or]
      rw [ih (by omega), getLsbD_round hd x m index values mask hv hn hT, ← Bool.and_or_distrib_right]
      congr 1
      rw [← Bool.decide_or]
      exact decide_eq_decide.mpr (by omega)

include hv hn in
theorem containsVertical_apply (l : Fin n) : (containsVertical c x m index values mask).getLsbD l =
    (mask l && Bloom.contains c x index (values l) m) := by
  have hl := l.isLt
  rw [containsVertical, hd.perLane, getLsbD_foldl_rounds hd x m index values mask hv hn (Nat.le_refl _),
    Nat.mul_comm, ← hn, decide_eq_true hl, Bool.true_and, hit, Fin.ofNat_val_eq_self]

include hv hn in
theorem round_count (j : Nat) :
    (if nLanes c = 1 then (containsRound c x m index values (roundMask c mask j) j).toNat
      else (List.range 32).countP (containsRound c x m index values (roundMask c mask j) j &&&
        pextMask c).getLsbD) =
      (List.range (2 ^ f)).countP fun i => hit c x m index values mask (2 ^ f * j + i) := by
  rw [hd.lanes, Nat.mul_comm (2 ^ f) j]
  by_cases hf : f = 0
  · rw [if_pos (by rw [hf]; rfl), containsRound_one hd x m index values mask hv hn hf, hf]
    cases hhit : hit c x m index values mask j <;> simp [List.range_one, hhit]
  · rw [if_neg (Nat.ne_of_gt (Nat.one_lt_two_pow hf))]
    have hfilter : ∀ a : BitVec 32, (List.range 32).countP (a &&& pextMask c).getLsbD =
        (List.range (2 ^ f + 1)).countP fun i => a.getLsbD (2 ^ e * i) := by
      intro a
      have hfun : (a &&& pextMask c).getLsbD = fun b => a.getLsbD b && (pextMask c).getLsbD b :=
        funext fun b => BitVec.getLsbD_and
      rw [hfun, ← List.countP_filter, filter_pextMask hd, List.countP_map]
      rfl
    have hlast : (containsRound c x m index values (roundMask c mask j) j).getLsbD (2 ^ e * 2 ^ f) = false :=
      getLsbD_containsRound_of_le hd x m index values _ hf (by rw [hn, Nat.mul_comm]) j
    rw [hfilter, List.range_succ, List.countP_append, List.countP_singleton, hlast]
    exact List.countP_congr fun i hi => by
      rw [getLsbD_containsRound hd x m index values mask hv hn hf (List.mem_range.mp hi)]

include hv hn in
/-- The vertical loop counts the lanes whose values are found. -/
theorem countVertical_eq : countVertical c x m index values mask =
    (List.finRange n).countP fun l => mask l && Bloom.contains c x index (values l) m := by
  have hlanes : (List.finRange n).countP (fun l => mask l && Bloom.contains c x index (values l) m) =
      (List.range n).countP (hit c x m index values mask) := by
    rw [← countP_finRange]
    exact List.countP_congr fun l _ => by rw [hit, Fin.ofNat_val_eq_self]
  have hrounds : ∀ j < 2 ^ e, (if ∀ l : Fin n, j * nLanes c ≤ l → mask l = false then 0
      else if nLanes c = 1 then (containsRound c x m index values (roundMask c mask j) j).toNat
      else (List.range 32).countP (containsRound c x m index values (roundMask c mask j) j &&&
        pextMask c).getLsbD) =
      (List.range (2 ^ f)).countP fun i => hit c x m index values mask (2 ^ f * j + i) := by
    intro j hj
    have hround := round_le hn (f := f) hj
    split
    · rename_i hskip
      rw [hd.lanes] at hskip
      refine (List.countP_eq_zero.mpr fun i hi => ?_).symm
      rw [List.mem_range] at hi
      rw [Nat.mul_comm, hit_of_skip x m index values mask hskip (Nat.le_add_right _ _) (by omega)]
      exact Bool.false_ne_true
    · exact round_count hd x m index values mask hv hn j
  have hcounter : ∀ (j counter : Nat), (if ∀ l : Fin n, j * nLanes c ≤ l → mask l = false then counter
      else
        let found := containsRound c x m index values (roundMask c mask j) j
        counter + if nLanes c = 1 then found.toNat else (List.range 32).countP (found &&& pextMask c).getLsbD) =
      counter + if ∀ l : Fin n, j * nLanes c ≤ l → mask l = false then 0
        else if nLanes c = 1 then (containsRound c x m index values (roundMask c mask j) j).toNat
        else (List.range 32).countP (containsRound c x m index values (roundMask c mask j) j &&&
          pextMask c).getLsbD := by
    intro j counter
    split <;> rfl
  simp only [countVertical, hcounter]
  rw [foldl_add, hlanes, hd.perLane, List.map_congr_left fun j hj => hrounds j (List.mem_range.mp hj),
    ← countP_range_mul, ← hn]

end

end Simd

end PartitionedFilters.Bloom

import PartitionedFilters.BloomBounds
import PartitionedFilters.BloomInsert
import PartitionedFilters.BloomSimdSound

/-!
# The Bloom filter as a union

The array of a Bloom filter is the union of the patterns of the values that were
inserted, whatever the operations, their order and the lanes; a lookup asks
whether a pattern is part of it.
-/

namespace PartitionedFilters.Bloom

open Simd

variable {r : RegisterSize} {c : Config r} {x : BloomContainer r}

/-! ## Bits that are added -/

/-- `m'` has the bits of `m` and those of `P`. -/
def Adds (m : Mem) (P : Nat → Prop) (m' : Mem) : Prop := ∀ q, m'.bit q = true ↔ m.bit q = true ∨ P q

namespace Adds
variable {m m' m'' : Mem} {P Q : Nat → Prop}

theorem refl (m : Mem) : Adds m (fun _ => False) m := fun q => by simp

theorem trans (h : Adds m P m') (h' : Adds m' Q m'') : Adds m (fun q => P q ∨ Q q) m'' := fun q => by
  rw [h', h, or_assoc]

theorem congr (h : Adds m P m') (hPQ : ∀ q, P q ↔ Q q) : Adds m Q m' := fun q => by rw [h, hPQ]

theorem le (h : Adds m P m') {q : Nat} (hq : m.bit q = true) : m'.bit q = true := (h q).mpr (.inl hq)

theorem foldl {α : Type*} {f : Mem → α → Mem} {P : α → Nat → Prop} {l : List α}
    (h : ∀ a ∈ l, ∀ m, Adds m (P a) (f m a)) (m : Mem) :
    Adds m (fun q => ∃ a ∈ l, P a q) (l.foldl f m) := by
  induction l generalizing m with
  | nil => exact (refl m).congr fun q => by simp
  | cons a l ih =>
    rw [List.foldl_cons]
    refine ((h a List.mem_cons_self m).trans (ih (fun b hb => h b (List.mem_cons_of_mem _ hb)) _)).congr fun q => ?_
    simp

theorem foldlM {α : Type*} {f : Mem → α → Option Mem} {P : α → Nat → Prop} {l : List α}
    (h : ∀ a ∈ l, ∀ m, ∃ m', f m a = some m' ∧ Adds m (P a) m') (m : Mem) :
    ∃ m', l.foldlM f m = some m' ∧ Adds m (fun q => ∃ a ∈ l, P a q) m' := by
  induction l generalizing m with
  | nil => exact ⟨m, rfl, (refl m).congr fun q => by simp⟩
  | cons a l ih =>
    obtain ⟨m₁, h₁, hadds₁⟩ := h a List.mem_cons_self m
    obtain ⟨m₂, h₂, hadds₂⟩ := ih (fun b hb => h b (List.mem_cons_of_mem _ hb)) m₁
    refine ⟨m₂, ?_, (hadds₁.trans hadds₂).congr fun q => by simp⟩
    rw [List.foldlM_cons, h₁]
    exact h₂

end Adds

/-! ## Words -/

theorem getLsbD_one (r : RegisterSize) (q : Nat) : (1 : r.T).getLsbD q = decide (q = 0) := by
  have hpos := r.bits_pos
  rw [show (1 : r.T) = 1#r.bits from rfl, BitVec.getLsbD_one, decide_eq_true hpos, Bool.true_and]

theorem getLsbD_setBits (bits : List Nat) (v : r.T) {q : Nat} (hq : q < r.bits) :
    (setBits bits v).getLsbD q = true ↔ v.getLsbD q = true ∨ q ∈ bits := by
  unfold setBits
  induction bits generalizing v with
  | nil => simp
  | cons b bits ih =>
    have hbit : ((1 <<< b : Nat) : r.T).getLsbD q = decide (q = b) := by
      rw [BitVec.natCast_eq_ofNat, BitVec.getLsbD_ofNat, Nat.one_shiftLeft, Nat.testBit_two_pow,
        decide_eq_true hq, Bool.true_and]
      exact decide_eq_decide.mpr eq_comm
    rw [List.foldl_cons, ih, BitVec.getLsbD_or, hbit, Bool.or_eq_true, decide_eq_true_iff, List.mem_cons, or_assoc]

def wordPattern (x : BloomContainer r) (s : Step r) (q : Nat) : Prop := ∃ b ∈ s.bits, q = wordBit x s.word + b

def pattern (c : Config r) (x : BloomContainer r) (index : Nat) (value : r.T) (q : Nat) : Prop :=
  ∃ s ∈ steps c x index value, wordPattern x s q

section
variable {s : Step r} (hs : ∀ b ∈ s.bits, b < r.bits)
include hs

/-- Bits are set in a word that still is what was loaded. -/
theorem adds_store {m stored : Mem}
    (hload : ∀ q, wordBit x s.word ≤ q → q < wordBit x s.word + r.bits → stored.bit q = m.bit q) :
    Adds stored (wordPattern x s)
      (stored.store (wordBit x s.word) (setBits s.bits (m.load (wordBit x s.word) r.bits))) := by
  intro q
  by_cases hq : wordBit x s.word ≤ q ∧ q < wordBit x s.word + r.bits
  · rw [Mem.store_of_mem _ _ hq.1 hq.2, getLsbD_setBits _ _ (by omega), Mem.getLsbD_load, hload q hq.1 hq.2,
      Nat.add_sub_cancel' hq.1, decide_eq_true (show q - wordBit x s.word < r.bits by omega), Bool.true_and]
    refine or_congr_right ⟨fun h => ⟨_, h, by omega⟩, fun ⟨b, hb, hqb⟩ => ?_⟩
    rwa [hqb, Nat.add_sub_cancel_left]
  · rw [Mem.store_of_notMem _ _ (by omega)]
    refine (or_iff_left ?_).symm
    rintro ⟨b, hb, hqb⟩
    have := hs b hb
    omega

/-- Bits are ored into a word, with bits that it has had already. -/
theorem adds_or {m stored : Mem} (hle : ∀ q, m.bit q = true → stored.bit q = true) :
    Adds stored (wordPattern x s) (stored.store (wordBit x s.word)
      (stored.load (wordBit x s.word) r.bits ||| setBits s.bits (m.load (wordBit x s.word) r.bits))) := by
  intro q
  by_cases hq : wordBit x s.word ≤ q ∧ q < wordBit x s.word + r.bits
  · rw [Mem.store_of_mem _ _ hq.1 hq.2, BitVec.getLsbD_or, Bool.or_eq_true, getLsbD_setBits _ _ (by omega),
      Mem.getLsbD_load, Mem.getLsbD_load, Nat.add_sub_cancel' hq.1,
      decide_eq_true (show q - wordBit x s.word < r.bits by omega), Bool.true_and, Bool.true_and, ← or_assoc,
      or_iff_left_of_imp (hle q)]
    refine or_congr_right ⟨fun h => ⟨_, h, by omega⟩, fun ⟨b, hb, hqb⟩ => ?_⟩
    rwa [hqb, Nat.add_sub_cancel_left]
  · rw [Mem.store_of_notMem _ _ (by omega)]
    refine (or_iff_left ?_).symm
    rintro ⟨b, hb, hqb⟩
    have := hs b hb
    omega

end

/-! ## Lookup -/

theorem compare_iff (c : Config r) (v : r.T) {s : Step r} (hs : ∀ b ∈ s.bits, b < r.bits) :
    compare c v s = true ↔ ∀ b ∈ s.bits, v.getLsbD b = true := by
  have hmask : (v &&& setBits s.bits 0 == setBits s.bits 0) = true ↔ ∀ b ∈ s.bits, v.getLsbD b = true := by
    rw [beq_iff_eq]
    constructor
    · intro h b hb
      have hbit := congrArg (BitVec.getLsbD · b) h
      have hset := (getLsbD_setBits s.bits (0 : r.T) (hs b hb)).mpr (.inr hb)
      simp only [BitVec.getLsbD_and, hset, Bool.and_true] at hbit
      exact hbit
    · intro h
      refine BitVec.eq_of_getLsbD_eq fun q hq => ?_
      rw [BitVec.getLsbD_and, Bool.and_eq_right_iff_imp]
      intro hset
      rcases (getLsbD_setBits s.bits (0 : r.T) hq).mp hset with h0 | hmem
      · simp at h0
      · exact h q hmem
  have hbits : (s.bits.all fun bit => (v >>> bit) &&& 1 == 1) = true ↔ ∀ b ∈ s.bits, v.getLsbD b = true := by
    rw [List.all_eq_true]
    refine forall_congr' fun b => imp_congr_right fun _ => ?_
    rw [beq_iff_eq]
    constructor
    · intro h
      have hbit := congrArg (BitVec.getLsbD · 0) h
      simpa [getLsbD_one, r.bits_pos] using hbit
    · intro h
      refine BitVec.eq_of_getLsbD_eq fun q hq => ?_
      rw [BitVec.getLsbD_and, BitVec.getLsbD_ushiftRight, getLsbD_one]
      by_cases h0 : q = 0
      · simp [h0, h]
      · simp [h0]
  unfold compare
  cases c.variant with
  | Blocked => exact hbits
  | Naive => exact hmask
  | Sectorized => exact hmask
  | Grouped => exact hmask

theorem contains_iff {index : Nat} {value : r.T} (hs : ∀ s ∈ steps c x index value, ∀ b ∈ s.bits, b < r.bits)
    (m : Mem) :
    contains c x index value m = true ↔ ∀ q, pattern c x index value q → m.bit q = true := by
  rw [contains, Bloom.checkMask_eq_all, List.all_eq_true]
  constructor
  · rintro h q ⟨s, hmem, b, hb, rfl⟩
    have hword := (compare_iff c _ (hs s hmem)).mp (h s hmem) b hb
    rwa [Mem.getLsbD_load, decide_eq_true (hs s hmem b hb), Bool.true_and] at hword
  · intro h s hmem
    rw [found_eq_compare]
    refine (compare_iff c _ (hs s hmem)).mpr fun b hb => ?_
    rw [Mem.getLsbD_load, decide_eq_true (hs s hmem b hb), Bool.true_and]
    exact h _ ⟨s, hmem, b, hb, rfl⟩

/-! ## The steps of a value -/

section
variable {index : Nat}

theorem stepAt_mem {value : r.T} {t : Nat} (ht : t < (steps c x index value).length) :
    stepAt c x index value t ∈ steps c x index value := by
  rw [stepAt, List.getD_eq_getElem _ _ ht]
  exact List.getElem_mem ht

theorem pattern_iff {value : r.T} (q : Nat) : pattern c x index value q ↔
    ∃ t < (steps c x index value).length, wordPattern x (stepAt c x index value t) q := by
  constructor
  · rintro ⟨s, hs, hq⟩
    obtain ⟨t, ht, rfl⟩ := List.getElem_of_mem hs
    refine ⟨t, ht, ?_⟩
    rwa [stepAt, List.getD_eq_getElem _ _ ht]
  · rintro ⟨t, ht, hq⟩
    exact ⟨_, stepAt_mem ht, hq⟩

end
/-! ## Lanes with a partition each -/

def Apart (x : BloomContainer r) (s t : Step r) : Prop :=
  wordBit x s.word + r.bits ≤ wordBit x t.word ∨ wordBit x t.word + r.bits ≤ wordBit x s.word

structure Separate (c : Config r) (x : BloomContainer r) (parts : Nat) : Prop where
  bits : ∀ i < parts, ∀ value, ∀ s ∈ steps c x i value, ∀ b ∈ s.bits, b < r.bits
  apart : ∀ i < parts, ∀ j < parts, i ≠ j →
    ∀ value value', ∀ s ∈ steps c x i value, ∀ t ∈ steps c x j value', Apart x s t

section
variable {n : Nat} {mask : LaneMask n}

theorem adds_insertStep {s : Fin n → Step r} (hbits : ∀ l, Active c mask l → ∀ b ∈ (s l).bits, b < r.bits)
    (hapart : ∀ l l', Active c mask l → Active c mask l' → l ≠ l' → Apart x (s l) (s l')) (m : Mem) :
    Adds m (fun q => ∃ l, Active c mask l ∧ wordPattern x (s l) q) (Simd.insertStep c x mask m s) := by
  have hlanes : ∀ (lanes : List (Fin n)) (stored : Mem), lanes.Nodup →
      (∀ l ∈ lanes, Active c mask l → ∀ q, wordBit x (s l).word ≤ q → q < wordBit x (s l).word + r.bits →
      stored.bit q = m.bit q) →
      Adds stored (fun q => ∃ l ∈ lanes, Active c mask l ∧ wordPattern x (s l) q) (lanes.foldl (fun stored l =>
        if mask l || !c.avx then
          stored.store (wordBit x (s l).word) (setBits (s l).bits (m.load (wordBit x (s l).word) r.bits))
        else stored) stored) := by
    intro lanes
    induction lanes with
    | nil => exact fun stored _ _ => (Adds.refl stored).congr fun q => by simp
    | cons l lanes ih =>
      intro stored hnodup hload
      obtain ⟨hl, hnodup⟩ := List.nodup_cons.mp hnodup
      rw [List.foldl_cons]
      split
      · rename_i hactive
        have hadds := adds_store (x := x) (hbits l hactive) (hload l List.mem_cons_self hactive)
        refine (hadds.trans (ih _ hnodup fun l' hl' hactive' q h1 h2 => ?_)).congr fun q => ?_
        · have hne : l ≠ l' := fun h => hl (h ▸ hl')
          have hdisjoint := hapart l l' hactive hactive' hne
          rw [Mem.store_of_notMem _ _ (by unfold Apart at hdisjoint; omega)]
          exact hload l' (List.mem_cons_of_mem _ hl') hactive' q h1 h2
        · have hactive : Active c mask l := hactive
          simp [hactive]
      · rename_i hactive
        refine (ih stored hnodup fun l' hl' => hload l' (List.mem_cons_of_mem _ hl')).congr fun q => ?_
        have hactive : ¬Active c mask l := hactive
        simp [hactive]
  refine (hlanes (List.finRange n) m (List.nodup_finRange n) fun _ _ _ _ _ _ => rfl).congr fun q => ?_
  simp

/-- The lanes add the patterns of their values, each for its partition. -/
theorem adds_insertHorizontal {parts : Nat} (hsep : Separate c x parts) (index : Nat) (values : Lanes r n)
    (mask : LaneMask n) (hi : ∀ l, Active c mask l → index + l < parts) (m : Mem) :
    Adds m (fun q => ∃ l, Active c mask l ∧ pattern c x (index + l) (values l) q)
      (insertHorizontal c x index values mask m) := by
  have hlength : ∀ l : Fin n, (steps c x (index + l) (values l)).length = (steps c x index 0).length := fun l =>
    length_steps c (values l) 0 x (index + l) index
  refine (Adds.foldl (P := fun s q => ∃ l, Active c mask l ∧ wordPattern x (s l) q) (fun s hs m => ?_) m).congr
    fun q => ?_
  · obtain ⟨t, ht, rfl⟩ := List.mem_map.mp hs
    have hmem : ∀ l : Fin n, stepAt c x (index + l) (values l) t ∈ steps c x (index + l) (values l) := fun l =>
      stepAt_mem (by rw [hlength l]; exact List.mem_range.mp ht)
    refine adds_insertStep (fun l hl => hsep.bits _ (hi l hl) _ _ (hmem l)) (fun l l' hl hl' hne => ?_) m
    exact hsep.apart _ (hi l hl) _ (hi l' hl') (fun h => hne (Fin.ext (Nat.add_left_cancel h))) _ _ _
      (hmem l) _ (hmem l')
  · simp only [partitionSteps, List.mem_map, List.mem_range, exists_exists_and_eq_and, pattern_iff, hlength]
    constructor
    · rintro ⟨t, ht, l, hl, hq⟩
      exact ⟨l, hl, t, ht, hq⟩
    · rintro ⟨l, hl, t, ht, hq⟩
      exact ⟨t, ht, l, hl, hq⟩

end

/-! ## Lanes with a word each -/

section
variable {n : Nat} [NeZero n] {mask : LaneMask n} {index : Nat} {values : Lanes r n}
  (hbits : ∀ value, ∀ s ∈ steps c x index value, ∀ b ∈ s.bits, b < r.bits)
include hbits

theorem adds_insertRound {j : Nat} (hlength : ∀ e : Fin n, e % c.nElementsPerLane < (steps c x index 0).length)
    (m : Mem) :
    Adds m (fun q => ∃ e, roundMask c mask j e = true ∧
      wordPattern x (stepAt c x index (values (permuteMask c j e)) (e % c.nElementsPerLane)) q)
      (insertRound c x index values mask j m) := by
  have hlanes : ∀ (lanes : List (Fin n)) (stored : Mem), (∀ q, m.bit q = true → stored.bit q = true) →
      Adds stored (fun q => ∃ e ∈ lanes, roundMask c mask j e = true ∧
        wordPattern x (stepAt c x index (values (permuteMask c j e)) (e % c.nElementsPerLane)) q)
          (lanes.foldl (fun stored e =>
          let s := stepAt c x index (values (permuteMask c j e)) (e % c.nElementsPerLane)
          if roundMask c mask j e then
            stored.store (wordBit x s.word)
              (stored.load (wordBit x s.word) r.bits ||| setBits s.bits (m.load (wordBit x s.word) r.bits))
          else stored) stored) := by
    intro lanes
    induction lanes with
    | nil => exact fun stored _ => (Adds.refl stored).congr fun q => by simp
    | cons e lanes ih =>
      intro stored hle
      rw [List.foldl_cons]
      simp only
      split
      · rename_i hactive
        have hmem : stepAt c x index (values (permuteMask c j e)) (e % c.nElementsPerLane) ∈
            steps c x index (values (permuteMask c j e)) :=
          stepAt_mem (by rw [length_steps c _ 0 x index index]; exact hlength e)
        have hadds := adds_or (x := x) (hbits _ _ hmem) hle
        refine (hadds.trans (ih _ fun q hq => hadds.le (hle q hq))).congr fun q => ?_
        simp [hactive]
      · rename_i hactive
        refine (ih stored hle).congr fun q => ?_
        simp [hactive]
  refine (hlanes (List.finRange n) m fun _ h => h).congr fun q => ?_
  simp

variable {e f : Nat} (hd : Dims c e f) (hv : c.vectorization = .Vertical) (hn : n = 2 ^ f * 2 ^ e)
include hd hv hn

/-- The lanes add the patterns of their values, also where two of them have the same block. -/
theorem adds_insertVertical (m : Mem) :
    Adds m (fun q => ∃ l, mask l = true ∧ pattern c x index (values l) q)
      (insertVertical c x index values mask m) := by
  have hlength := length_steps_vertical hd x index hv
  have hperLane : ∀ b : Nat, b % c.nElementsPerLane < 2 ^ e := fun b => by
    rw [hd.perLane]
    exact Nat.mod_lt _ (Nat.two_pow_pos e)
  refine (Adds.foldl (P := fun j q => ∃ b : Fin n, roundMask c mask j b = true ∧
    wordPattern x (stepAt c x index (values (permuteMask c j b)) (b % c.nElementsPerLane)) q) (fun j hj m => ?_)
      m).congr fun q => ?_
  · split
    · rename_i hskip
      refine (Adds.refl m).congr fun q => ⟨False.elim, fun hq => ?_⟩
      obtain ⟨b, hb, -⟩ := hq
      have hround := round_le hn (f := f) (j := j) (by rwa [← hd.perLane, ← List.mem_range])
      have hb' : (b : Nat) / c.nElementsPerLane < 2 ^ f := by
        rw [hd.perLane, Nat.div_lt_iff_lt_mul (Nat.two_pow_pos e), ← hn]
        exact b.isLt
      have hle : j * nLanes c ≤ (permuteMask c j b).val := by
        rw [permuteMask, hd.lanes, Fin.val_ofNat, Nat.mod_eq_of_lt (by omega)]
        exact Nat.le_add_right _ _
      rw [roundMask, hskip _ hle] at hb
      exact Bool.false_ne_true hb
    · exact adds_insertRound hbits (fun b => by rw [hlength 0]; exact hperLane b) m
  · simp only [List.mem_range]
    constructor
    · rintro ⟨j, -, b, hb, hq⟩
      exact ⟨_, hb, (pattern_iff q).mpr ⟨_, by rw [hlength]; exact hperLane b, hq⟩⟩
    · rintro ⟨l, hl, hq⟩
      obtain ⟨t, ht, hq⟩ := (pattern_iff q).mp hq
      rw [hlength] at ht
      have hdm := Nat.div_add_mod l.val (2 ^ f)
      have hmod := Nat.mod_lt l.val (Nat.two_pow_pos f)
      have hlane : 2 ^ e * (l.val % 2 ^ f) + t < n := by
        have := Nat.mul_le_mul_left (2 ^ e) (show l.val % 2 ^ f + 1 ≤ 2 ^ f from hmod)
        rw [Nat.mul_comm _ (2 ^ f), ← hn, Nat.mul_succ] at this
        omega
      obtain ⟨hpermute, ht'⟩ := permuteMask_eq hd ht (l.val / 2 ^ f) (l := ⟨_, hlane⟩) rfl
      have hval : permuteMask c (l.val / 2 ^ f) ⟨_, hlane⟩ = l := by
        rw [hpermute, Nat.mul_comm, hdm, Fin.ofNat_val_eq_self]
      refine ⟨l.val / 2 ^ f, ?_, ⟨_, hlane⟩, by rw [roundMask, hval]; exact hl, by rw [hval, ht']; exact hq⟩
      rw [hd.perLane, Nat.div_lt_iff_lt_mul (Nat.two_pow_pos f), Nat.mul_comm, ← hn]
      exact l.isLt

end
/-! ## Operations -/

theorem nElements_of_not_avx (h : c.avx = false) : c.simd.nElements r = 1 := by
  unfold Config.avx at h
  cases hs : c.simd with
  | Scalar => rfl
  | AVX2 => simp [hs] at h
  | AVX512 => simp [hs] at h

structure Sound (c : Config r) (x : BloomContainer r) (parts : Nat) : Prop extends Separate c x parts where
  admitted : c.Admitted

/-- The whole vectors of an array, which its lanes cover. -/
theorem exists_lt_chunks {n chunks : Nat} (hn : 0 < n) {P : Nat → Prop} :
    (∃ t < chunks, ∃ l : Fin n, P (n * t + l)) ↔ ∃ j < n * chunks, P j := by
  constructor
  · rintro ⟨t, ht, l, hP⟩
    have hle := Nat.mul_le_mul_left n (show t + 1 ≤ chunks from ht)
    have hl := l.isLt
    rw [Nat.mul_succ] at hle
    exact ⟨_, by omega, hP⟩
  · rintro ⟨j, hj, hP⟩
    exact ⟨j / n, Nat.div_lt_of_lt_mul hj, ⟨j % n, Nat.mod_lt j hn⟩, by rwa [Nat.div_add_mod]⟩

/-- The rest of an array after its whole vectors. -/
theorem exists_lt_rest {n length : Nat} (hn : 0 < n) {P : Nat → Prop} :
    (∃ l : Fin n, l < length % n ∧ P (n * (length / n) + l)) ↔
      ∃ j, n * (length / n) ≤ j ∧ j < length ∧ P j := by
  have hdm := Nat.div_add_mod length n
  have hrest := Nat.mod_lt length hn
  constructor
  · rintro ⟨l, hl, hP⟩
    exact ⟨_, Nat.le_add_right .., by omega, hP⟩
  · rintro ⟨j, hge, hj, hP⟩
    exact ⟨⟨j - n * (length / n), by omega⟩, by simp only; omega, by rwa [Nat.add_sub_cancel' hge]⟩

section
variable {parts : Nat} (hs : Sound c x parts)
include hs

theorem adds_insertVector {index : Nat} {values : Lanes r (c.simd.nElements r)}
    {mask : LaneMask (c.simd.nElements r)} (hvalid : (Operation.insert index values mask).Valid (c := c) parts)
    (m : Mem) :
    Adds m (fun q => ∃ value i, (Operation.insert index values mask).Inserts (c := c) value i ∧
    pattern c x i value q)
      (insertVector c x index values mask m) := by
  unfold Operation.Valid at hvalid
  unfold insertVector Operation.Inserts
  cases hv : c.vectorization with
  | Horizontal =>
    rw [hv] at hvalid
    refine (adds_insertHorizontal hs.toSeparate _ _ _ hvalid m).congr fun q => ?_
    constructor
    · rintro ⟨l, hl, hq⟩
      exact ⟨_, _, ⟨l, hl, rfl, rfl⟩, hq⟩
    · rintro ⟨_, _, ⟨l, hl, rfl, rfl⟩, hq⟩
      exact ⟨l, hl, hq⟩
  | Vertical =>
    rw [hv] at hvalid
    obtain ⟨⟨e, f, hd⟩, hn⟩ := dims_of_admitted hs.admitted hv
    have havx := (hs.admitted.vertical hv).2.1
    rw [hd.lanes, hd.perLane] at hn
    refine (adds_insertVertical (hs.bits index hvalid) hd hv hn.symm m).congr fun q => ?_
    constructor
    · rintro ⟨l, hl, hq⟩
      exact ⟨_, _, ⟨l, by simp [Active, hl], rfl, rfl⟩, hq⟩
    · rintro ⟨_, _, ⟨l, hl, rfl, rfl⟩, hq⟩
      exact ⟨l, by simpa [Active, havx] using hl, hq⟩

/-- A lane of each value of a vertical vector, all in one partition. -/
theorem adds_insertVector_vertical (hv : c.vectorization = .Vertical) {index : Nat} (hi : index < parts)
    (values : Lanes r (c.simd.nElements r)) (mask : LaneMask (c.simd.nElements r)) (m : Mem) :
    Adds m (fun q => ∃ l, mask l = true ∧ pattern c x index (values l) q)
      (insertVector c x index values mask m) := by
  obtain ⟨⟨e, f, hd⟩, hn⟩ := dims_of_admitted hs.admitted hv
  rw [hd.lanes, hd.perLane] at hn
  rw [insertVector, hv]
  exact adds_insertVertical (hs.bits index hi) hd hv hn.symm m

/-- The vertical constructor adds the values of whole vectors and of a rest. -/
theorem adds_chunks (hv : c.vectorization = .Vertical) {isa : InstructionSet} {e : Extent} {length index : Nat}
    (values : Int → r.T) (hi : index < parts) (hreadable : c.simd.Readable isa r e length) (m : Mem) :
    ∃ m', constructPartition c x isa e values length index m = some m' ∧
      Adds m (fun q => ∃ j < length, pattern c x index (values (j : Nat)) q) m' := by
  have hpos := Nat.pos_of_ne_zero (NeZero.ne (c.simd.nElements r))
  have hdm := Nat.div_add_mod length (c.simd.nElements r)
  have hchunk := adds_insertVector_vertical hs hv hi
  have hload : ∀ t, c.simd.nElements r * t < length → loadValues c isa e values (c.simd.nElements r * t) =
      some fun l : Fin _ => values (c.simd.nElements r * t + l : Nat) := fun t h =>
    SIMD.load_eq ((hreadable.skip (Nat.succ_le_of_lt h)).loadable Nat.one_pos) _
  have hwhole : ∀ t < length / c.simd.nElements r, c.simd.nElements r * t < length := fun t ht =>
    Nat.lt_of_lt_of_le ((Nat.mul_lt_mul_left hpos).mpr ht) (Nat.mul_div_le _ _)
  obtain ⟨m₁, hm₁, hfull⟩ := Adds.foldlM (l := List.range (length / c.simd.nElements r))
    (f := fun m t => (loadValues c isa e values (c.simd.nElements r * t)).bind fun chunk =>
      some (insertVector c x index chunk (fun _ => true) m)) (fun t ht m =>
      ⟨_, by rw [hload t (hwhole t (List.mem_range.mp ht)), Option.bind_some], hchunk _ (fun _ => true) m⟩) m
  have hfull := hfull.congr fun q => by
    simp only [List.mem_range, true_and]
    exact exists_lt_chunks hpos (P := fun j => pattern c x index (values (j : Nat)) q)
  unfold constructPartition
  rw [hv]
  simp only [bind, pure]
  rw [hm₁, Option.bind_some]
  split
  · rename_i hrest
    rw [hload _ (by omega), Option.bind_some]
    refine ⟨_, rfl, (hfull.trans (hchunk _ _ _)).congr fun q => ?_⟩
    simp only [decide_eq_true_eq]
    rw [exists_lt_rest hpos (P := fun j => pattern c x index (values (j : Nat)) q)]
    constructor
    · rintro (⟨j, hj, hq⟩ | ⟨j, -, hj, hq⟩)
      · exact ⟨j, by omega, hq⟩
      · exact ⟨j, hj, hq⟩
    · rintro ⟨j, hj, hq⟩
      rcases Nat.lt_or_ge j (c.simd.nElements r * (length / c.simd.nElements r)) with hlt | hge
      · exact .inl ⟨j, hlt, hq⟩
      · exact .inr ⟨j, hge, hj, hq⟩
  · rename_i hrest
    exact ⟨m₁, rfl, hfull.congr fun q => by
      rw [show c.simd.nElements r * (length / c.simd.nElements r) = length by omega]⟩

theorem adds_constructPartition {isa : InstructionSet} {e : Extent} {length index : Nat} {values : Int → r.T}
    (hvalid : (Operation.constructPartition e values length index).Valid (c := c) parts)
    (hfits : (Operation.constructPartition e values length index).Fits (c := c) isa) (m : Mem) :
    ∃ m', constructPartition c x isa e values length index m = some m' ∧
      Adds m (fun q => ∃ j < length, pattern c x index (values (j : Nat)) q) m' := by
  unfold Operation.Fits at hfits
  obtain ⟨hi, havx⟩ := hvalid
  cases hv : c.vectorization with
  | Horizontal =>
    rw [hv] at hfits
    have hone := nElements_of_not_avx (havx hv)
    have hlength : (BitVec.ofNat r.bits length).toNat = length := by
      rw [BitVec.toNat_ofNat]
      exact Nat.mod_eq_of_lt hfits
    simp only [constructPartition, insertVector, hv, hlength]
    refine ⟨_, rfl, (Adds.foldl (P := fun j q => pattern c x index (values (j : Nat)) q) (fun j _ m => ?_) m).congr
      fun q => by simp⟩
    refine (adds_insertHorizontal hs.toSeparate _ _ _ (fun l _ => ?_) m).congr fun q => ?_
    · have := l.isLt
      omega
    · constructor
      · rintro ⟨l, -, hq⟩
        have := l.isLt
        rwa [show index + l.val = index by omega] at hq
      · exact fun hq => ⟨0, by simp [Active], hq⟩
  | Vertical =>
    rw [hv] at hfits
    exact adds_chunks hs hv _ hi hfits m

end
/-! ## The loop of a group -/

section
variable {parts : Nat} (hs : Sound c x parts) (hv : c.vectorization = .Horizontal) {p : Partitions r}
  (hparts : p.nPartitions ≤ parts)
  (hzero : ∀ i, p.nPartitions ≤ i → p.histogram i = 0 ∧ p.offsets i = 0) {i : Nat}
  (hwrap : ∀ l l' : Fin (c.simd.nElements r), (p.offsets (i + l)).toNat + (p.histogram (i + l')).toNat < 2 ^ r.bits)
  (hsigned : c.avx = true → ∀ i < p.nPartitions, (p.offsets i).toNat + (p.histogram i).toNat ≤ 2 ^ (r.bits - 1))

include hwrap in
theorem groupMask_eq {t : Nat} {l' : Fin (c.simd.nElements r)} (ht : t ≤ (p.histogram (i + l')).toNat)
    (l : Fin (c.simd.nElements r)) : groupMask p i t l = decide (t < (p.histogram (i + l)).toNat) ∧
      (p.offsets (i + l) + BitVec.ofNat r.bits t).toNat = (p.offsets (i + l)).toNat + t := by
  have h := hwrap l l
  have h' := hwrap l l'
  have hbegin : (p.offsets (i + l) + BitVec.ofNat r.bits t).toNat = (p.offsets (i + l)).toNat + t := by
    rw [BitVec.toNat_add, BitVec.toNat_ofNat, Nat.add_mod_mod, Nat.mod_eq_of_lt (by omega)]
  refine ⟨decide_eq_decide.mpr ?_, hbegin⟩
  rw [BitVec.lt_def, hbegin, BitVec.toNat_add, Nat.mod_eq_of_lt h]
  omega

include hzero in
theorem lt_nPartitions {t i : Nat} (ht : t < (p.histogram i).toNat) : i < p.nPartitions := by
  by_contra hge
  rw [(hzero i (by omega)).1] at ht
  exact Nat.not_lt_zero t ht

include hs hparts hzero hwrap hsigned

/-- The lanes that are left add the rest of their partitions. -/
theorem adds_groupLoop (l₀ : Fin (c.simd.nElements r)) (fuel : Nat) {t : Nat}
    (ht : t ≤ (p.histogram (i + l₀)).toNat)
    (hfuel : ∀ l : Fin (c.simd.nElements r), (p.histogram (i + l)).toNat < t + fuel) (m : Mem) :
    ∃ m', groupLoop c x p i fuel t m = some m' ∧
      Adds m (fun q => ∃ l : Fin (c.simd.nElements r), ∃ j, t ≤ j ∧ j < (p.histogram (i + l)).toNat ∧
        pattern c x (i + l) (p.values ((p.offsets (i + l)).toNat + j : Nat)) q) m' := by
  induction fuel generalizing l₀ t m with
  | zero => exact absurd (hfuel l₀) (by omega)
  | succ fuel ih =>
    have hmask := fun l => (groupMask_eq hwrap ht l).1
    have hbegin := fun l => (groupMask_eq hwrap ht l).2
    rw [groupLoop]
    simp only [hmask, decide_eq_false_iff_not]
    split
    · rename_i hdone
      refine ⟨m, rfl, (Adds.refl m).congr fun q => ⟨fun h => h.elim, ?_⟩⟩
      rintro ⟨l, j, h1, h2, -⟩
      exact hdone l (by omega)
    · rename_i hdone
      rw [not_forall] at hdone
      obtain ⟨l₁, hl₁⟩ := hdone
      have hl₁ : t < (p.histogram (i + l₁)).toNat := Decidable.not_not.mp hl₁
      -- a scalar vector has one lane, which is not done
      have hactive : ∀ l, Active c (groupMask p i t : LaneMask (c.simd.nElements r)) l ↔
          t < (p.histogram (i + l)).toNat := by
        intro l
        rw [Active, hmask]
        cases havx : c.avx with
        | true => simp
        | false =>
          have hone := nElements_of_not_avx havx
          have hl : l = l₁ := Fin.ext (by have := l.isLt; have := l₁.isLt; omega)
          simp [hl, hl₁]
      obtain ⟨m', hm', hadds'⟩ :=
        ih l₁ (t := t + 1) hl₁ (fun l => by have := hfuel l; omega) (insertHorizontal c x i
        (fun l : Fin (c.simd.nElements r) => p.values (wordIndex c 0 (p.offsets (i + l) + BitVec.ofNat r.bits t)))
        (groupMask p i t) m)
      have hadds := adds_insertHorizontal hs.toSeparate i
        (fun l : Fin (c.simd.nElements r) => p.values (wordIndex c 0 (p.offsets (i + l) + BitVec.ofNat r.bits t)))
        (groupMask p i t) (fun l hl => Nat.lt_of_lt_of_le (lt_nPartitions hzero ((hactive l).mp hl)) hparts) m
      have hvalue : ∀ l : Fin (c.simd.nElements r), t < (p.histogram (i + l)).toNat →
          p.values (wordIndex c 0 (p.offsets (i + l) + BitVec.ofNat r.bits t)) =
            p.values ((p.offsets (i + l)).toNat + t : Nat) := by
        intro l hl
        rw [wordIndex_eq c 0 fun havx => ?_, hbegin]
        · simp
        · have := hsigned havx _ (lt_nPartitions hzero hl)
          rw [hbegin]
          omega
      refine ⟨m', hm', (hadds.trans hadds').congr fun q => ?_⟩
      constructor
      · rintro (⟨l, hl, hq⟩ | ⟨l, j, h1, h2, hq⟩)
        · have hl := (hactive l).mp hl
          rw [hvalue l hl] at hq
          exact ⟨l, t, Nat.le_refl t, hl, hq⟩
        · exact ⟨l, j, Nat.le_of_succ_le h1, h2, hq⟩
      · rintro ⟨l, j, h1, h2, hq⟩
        rcases Nat.eq_or_lt_of_le h1 with rfl | hlt
        · exact .inl ⟨l, (hactive l).mpr h2, by rwa [hvalue l h2]⟩
        · exact .inr ⟨l, j, hlt, h2, hq⟩

end
section
variable {parts : Nat} (hs : Sound c x parts)
include hs

/-- A `construct` inserts the values of all partitions, in any order of its tasks. -/
theorem adds_construct {isa : InstructionSet} {p : Partitions r} {order : List Nat}
    (hvalid : (Operation.construct p order).Valid (c := c) parts)
    (hfits : (Operation.construct p order).Fits (c := c) isa) (m : Mem) :
    ∃ m', construct c x isa p order m = some m' ∧ Adds m (fun q => ∃ i < p.nPartitions, ∃ j < (p.histogram i).toNat,
      pattern c x i (p.values ((p.offsets i).toNat + j : Nat)) q) m' := by
  obtain ⟨hparts, hzero, hperm⟩ := hvalid
  have hmem : ∀ task, task ∈ order ↔ task < nTasks c p := fun task => hperm.mem_iff.trans List.mem_range
  unfold construct
  unfold Operation.Fits at hfits
  cases hv : c.vectorization with
  | Horizontal =>
    rw [hv] at hfits
    obtain ⟨hwrap, hsigned⟩ := hfits
    have hpos := Nat.pos_of_ne_zero (NeZero.ne (c.simd.nElements r))
    obtain ⟨m', hm', hadds⟩ := Adds.foldlM (f := constructTask c x isa p) (l := order) (P := fun task q =>
      ∃ l : Fin (c.simd.nElements r), ∃ j, 0 ≤ j ∧ j < (p.histogram (task * c.simd.nElements r + l)).toNat ∧
        pattern c x (task * c.simd.nElements r + l)
          (p.values ((p.offsets (task * c.simd.nElements r + l)).toNat + j : Nat)) q) (fun task _ m => by
      rw [constructTask, hv]
      exact adds_groupLoop hs hparts hzero (hwrap task) hsigned ⟨0, hpos⟩ _ (Nat.zero_le _)
        (fun l => by have := (p.histogram (task * c.simd.nElements r + l)).isLt; omega) m) m
    refine ⟨m', hm', hadds.congr fun q => ?_⟩
    constructor
    · rintro ⟨task, -, l, j, -, hj, hq⟩
      exact ⟨_, lt_nPartitions hzero hj, j, hj, hq⟩
    · rintro ⟨i, hi, j, hj, hq⟩
      have hdm := Nat.div_add_mod i (c.simd.nElements r)
      rw [Nat.mul_comm] at hdm
      refine ⟨i / c.simd.nElements r, (hmem _).mpr ?_, ⟨_, Nat.mod_lt i hpos⟩, j, Nat.zero_le j, ?_⟩
      · rw [nTasks, hv]
        refine (Nat.div_lt_iff_lt_mul hpos).mpr ?_
        have hup := Nat.div_add_mod (p.nPartitions + c.simd.nElements r - 1) (c.simd.nElements r)
        have hlt := Nat.mod_lt (p.nPartitions + c.simd.nElements r - 1) hpos
        rw [Nat.mul_comm] at hup
        simp only
        omega
      · simp only [hdm]
        exact ⟨hj, hq⟩
  | Vertical =>
    rw [hv] at hfits
    obtain ⟨m', hm', hadds⟩ := Adds.foldlM (f := constructTask c x isa p) (l := order) (P := fun task q =>
      ∃ j < (p.histogram task).toNat, pattern c x task (p.values ((p.offsets task).toNat + j : Nat)) q)
        (fun task ht m => by
      rw [constructTask, hv]
      have htask : task < p.nPartitions := by
        have := (hmem task).mp ht
        rwa [nTasks, hv] at this
      obtain ⟨m', hm', hadds⟩ := adds_chunks hs hv (fun j => p.values ((p.offsets task).toNat + j))
        (Nat.lt_of_lt_of_le htask hparts) (hfits task htask) m
      refine ⟨m', hm', hadds.congr fun q => ?_⟩
      push_cast
      rfl) m
    refine ⟨m', hm', hadds.congr fun q => ?_⟩
    simp only [hmem, nTasks, hv]

/-- Every operation adds the patterns of the values that it inserts. -/
theorem adds_apply {isa : InstructionSet} {op : Operation c} (hvalid : op.Valid parts)
    (hfits : op.Fits isa) (m : Mem) :
    ∃ m', op.apply c x isa m = some m' ∧
    Adds m (fun q => ∃ value i, op.Inserts value i ∧ pattern c x i value q) m' := by
  cases op with
  | insert index values mask => exact ⟨_, rfl, adds_insertVector hs hvalid m⟩
  | constructPartition e values length index =>
    obtain ⟨m', hm', hadds⟩ := adds_constructPartition hs hvalid hfits m
    refine ⟨m', hm', hadds.congr fun q => ?_⟩
    constructor
    · rintro ⟨j, hj, hq⟩
      exact ⟨_, _, ⟨rfl, j, hj, rfl⟩, hq⟩
    · rintro ⟨_, _, ⟨rfl, j, hj, rfl⟩, hq⟩
      exact ⟨j, hj, hq⟩
  | construct p order =>
    obtain ⟨m', hm', hadds⟩ := adds_construct hs hvalid hfits m
    refine ⟨m', hm', hadds.congr fun q => ?_⟩
    constructor
    · rintro ⟨i, hi, j, hj, hq⟩
      exact ⟨_, _, ⟨hi, j, hj, rfl⟩, hq⟩
    · rintro ⟨_, i, ⟨hi, j, hj, rfl⟩, hq⟩
      exact ⟨i, hi, j, hj, hq⟩

end

/-! ## The container -/

theorem StepConfined.apart {i j : Nat} {s t : Step r} (hs : StepConfined c x i s) (ht : StepConfined c x j t)
    (hij : i < j) (hfilter : x.filter = 0) : Apart x s t := by
  have hstart : start x (i + 1) ≤ start x j := start_le_of_le hij
  have hblock : s.block.toNat + 1 ≤ t.block.toNat := by
    have h1 := hs.own.2
    have h2 := ht.own.1
    omega
  have hmul := Nat.mul_le_mul_left c.blockSize.bits hblock
  rw [Nat.mul_succ] at hmul
  have hlast := hs.last
  have hfirst := ht.first
  have hs0 := hs.first
  have hpos : (0 : Int) ≤ c.blockSize.bits * s.block.toNat :=
    Int.mul_nonneg (Int.natCast_nonneg _) (Int.natCast_nonneg _)
  refine .inl ?_
  unfold wordBit
  rw [hfilter]
  zify at hmul
  omega

section
variable {s nPartitions : Nat} {histogram : Nat → r.T} (ha : c.Admitted)
  (hf : NoWrap c (.new c s nPartitions histogram) (c.nParts nPartitions))
  (hr : Regular c (.new c s nPartitions histogram) (c.nParts nPartitions))
include ha hf hr

theorem sound_of_noWrap : Sound c (.new c s nPartitions histogram) (c.nParts nPartitions) := by
  have hconfined := fun {i} (hi : i < c.nParts nPartitions) value =>
    (steps_confined rfl rfl hf ha hr hi value).1
  refine ⟨⟨fun i hi value s hs => (hconfined hi value s hs).bits, ?_⟩, ha⟩
  intro i hi j hj hij value value' s hs t ht
  have hsc := hconfined hi value s hs
  have htc := hconfined hj value' t ht
  rcases Nat.lt_or_gt_of_ne hij with hlt | hgt
  · exact hsc.apart htc hlt rfl
  · exact (htc.apart hsc hgt rfl).symm

/-- A run of operations that fit ends, and leaves the union of the patterns. -/
theorem exists_run {isa : InstructionSet} {l : List (Operation c)}
    (hvalid : ∀ op ∈ l, op.Valid (c.nParts nPartitions)) (hfits : ∀ op ∈ l, op.Fits isa) :
    ∃ m, l.foldlM (Operation.apply c (.new c s nPartitions histogram) isa) Mem.zero = some m ∧
      ∀ q, m.bit q = true ↔
        ∃ op ∈ l, ∃ value i, op.Inserts value i ∧ pattern c (.new c s nPartitions histogram) i value q := by
  obtain ⟨m, hm, hadds⟩ := Adds.foldlM (l := l)
    (fun op hop m => adds_apply (sound_of_noWrap ha hf hr) (hvalid op hop) (hfits op hop) m) Mem.zero
  refine ⟨m, hm, fun q => ?_⟩
  rw [hadds q, or_iff_right]
  simp [Mem.zero]

end

end PartitionedFilters.Bloom

import PartitionedFilters.CuckooHelper
import PartitionedFilters.Footprint
import Mathlib

/-!
# Vectors

`simd::Vector` with more than one lane, as the instructions compute it: a shift
by the width of a lane or more yields 0, and a masked gather yields 0 in the
inactive lanes.
-/

namespace PartitionedFilters

inductive SIMD where
  | Scalar
  | AVX2
  | AVX512
  deriving DecidableEq, Repr

def SIMD.nElements (simd : SIMD) (r : RegisterSize) : Nat :=
  match simd with
  | .Scalar => 1
  | .AVX2 => 256 / r.bits
  | .AVX512 => 512 / r.bits

theorem SIMD.nElements_pos (simd : SIMD) (r : RegisterSize) : 0 < simd.nElements r := by
  cases simd <;> cases r <;> decide

instance instNeZeroNElements (simd : SIMD) (r : RegisterSize) : NeZero (simd.nElements r) :=
  ⟨Nat.ne_of_gt (simd.nElements_pos r)⟩

/-- The lanes of a vector, and a mask of them (`Vector::M`). -/
abbrev Lanes (r : RegisterSize) (n : Nat) : Type := Fin n → r.T

abbrev LaneMask (n : Nat) : Type := Fin n → Bool

variable {r : RegisterSize} {n : Nat}

/-! ## Loads -/

/-- The instructions of a build: `__AVX2__` and `__AVX512F__`. -/
structure InstructionSet where
  avx2 : Bool
  avx512f : Bool

/-- Where values start, and where the memory ends that can be read behind them. -/
structure Extent where
  address : Nat
  limit : Nat

def Extent.skip (e : Extent) (bytes : Nat) : Extent := { e with address := e.address + bytes }

theorem Extent.skip_skip (e : Extent) (a b : Nat) : (e.skip a).skip b = e.skip (a + b) := by
  simp only [skip, Nat.add_assoc]

namespace SIMD
variable (simd : SIMD) (isa : InstructionSet)

/-- A vector without instructions of its own is loaded in parts. -/
def alignment (r : RegisterSize) : Nat :=
  match simd with
  | .Scalar => r.bytes
  | .AVX2 => if isa.avx2 then 32 else r.bytes
  | .AVX512 => if isa.avx512f then 64 else if isa.avx2 then 32 else r.bytes

def Loadable (r : RegisterSize) (e : Extent) : Prop :=
  simd.alignment isa r ∣ e.address ∧ e.address + r.bytes * simd.nElements r ≤ e.limit

instance (e : Extent) : Decidable (simd.Loadable isa r e) := inferInstanceAs (Decidable (_ ∧ _))

/-- `Vector::load`; `none` is a fault. -/
def load (e : Extent) (values : Nat → r.T) : Option (Lanes r (simd.nElements r)) :=
  if simd.Loadable isa r e then some fun l => values l else none

/-- The vectors that hold the first `length` values can be loaded. -/
def Readable (r : RegisterSize) (e : Extent) (length : Nat) : Prop :=
  length = 0 ∨ simd.alignment isa r ∣ e.address ∧
    e.address + r.bytes * (simd.nElements r * ((length + simd.nElements r - 1) / simd.nElements r)) ≤ e.limit

instance (e : Extent) (length : Nat) : Decidable (simd.Readable isa r e length) :=
  inferInstanceAs (Decidable (_ ∨ _))

variable {simd isa} {e : Extent}

theorem load_eq (h : simd.Loadable isa r e) (values : Nat → r.T) :
    simd.load isa e values = some fun l : Fin (simd.nElements r) => values l := if_pos h

theorem load_eq_some {values : Nat → r.T} {v : Lanes r (simd.nElements r)} (h : simd.load isa e values = some v) :
    simd.Loadable isa r e ∧ v = fun l : Fin (simd.nElements r) => values l := by
  unfold load at h
  split at h
  · rename_i hload
    exact ⟨hload, (Option.some.inj h).symm⟩
  · cases h

theorem alignment_dvd_64 : simd.alignment isa r ∣ 64 := by
  obtain ⟨avx2, avx512f⟩ := isa
  cases simd <;> cases r <;> cases avx2 <;> cases avx512f <;> decide

theorem alignment_dvd_vector : simd.alignment isa r ∣ r.bytes * simd.nElements r := by
  obtain ⟨avx2, avx512f⟩ := isa
  cases simd <;> cases r <;> cases avx2 <;> cases avx512f <;> decide

theorem Readable.skip {length rest t : Nat} (h : simd.Readable isa r e length)
    (hrest : simd.nElements r * t + rest ≤ length) :
    simd.Readable isa r (e.skip (r.bytes * (simd.nElements r * t))) rest := by
  have hpos := simd.nElements_pos r
  rcases Nat.eq_zero_or_pos rest with rfl | hne
  · exact .inl rfl
  obtain ⟨haligned, hlimit⟩ := h.resolve_left (by omega)
  refine .inr ⟨?_, ?_⟩
  · rw [Extent.skip, ← Nat.mul_assoc]
    exact Nat.dvd_add haligned (Nat.dvd_mul_right_of_dvd alignment_dvd_vector t)
  · have hvectors : t + (rest + simd.nElements r - 1) / simd.nElements r ≤
        (length + simd.nElements r - 1) / simd.nElements r := by
      rw [← Nat.mul_add_div hpos]
      exact Nat.div_le_div_right (by omega)
    have hend := Nat.mul_le_mul_left r.bytes (Nat.mul_le_mul_left (simd.nElements r) hvectors)
    rw [Nat.mul_add, Nat.mul_add] at hend
    simp only [Extent.skip]
    omega

theorem Readable.loadable {length : Nat} (h : simd.Readable isa r e length) (hlength : 0 < length) :
    simd.Loadable isa r e := by
  obtain ⟨haligned, hlimit⟩ := h.resolve_left (Nat.ne_of_gt hlength)
  refine ⟨haligned, Nat.le_trans (Nat.add_le_add_left (Nat.mul_le_mul_left _ ?_) _) hlimit⟩
  refine Nat.le_mul_of_pos_right _ (Nat.div_pos ?_ (simd.nElements_pos r))
  omega

end SIMD

namespace Lanes

/-- `permute_regxbyte` and `permute_regxword`: the low `bits` bits of each lane, all over the lane. -/
def permute (bits : Nat) (v : Lanes r n) : Lanes r n :=
  fun l => BitVec.ofFnLE fun i : Fin r.bits => (v l).getLsbD (i % bits)

/-- `equal<bits>`: one bit for each field of `bits` bits. -/
def equal (bits : Nat) (u v : Lanes r n) : BitVec 64 :=
  BitVec.ofFnLE fun i : Fin 64 =>
    if h : i / (r.bits / bits) < n then
      Cuckoo.lane bits (u ⟨_, h⟩) (i % (r.bits / bits)) == Cuckoo.lane bits (v ⟨_, h⟩) (i % (r.bits / bits))
    else false

def gatheruBits (nbitAligned : Bool) (nBits : Nat) (bitAddress : Lanes r n) (base : Nat)
    (mask : LaneMask n) (m : Mem) :
    Lanes r n :=
  fun l => if mask l then PartitionedFilters.gatheruBits true nbitAligned nBits (bitAddress l).toNat base m else 0

/-- `gather`, and `scatter` lane by lane. -/
def gather (index : Lanes r n) (base : Nat) (mask : LaneMask n) (m : Mem) : Lanes r n :=
  fun l => if mask l then PartitionedFilters.gather m base (index l).toNat else 0

def scatter (v : Lanes r n) (base : Nat) (index : Lanes r n) (mask : LaneMask n) (m : Mem) : Mem :=
  (List.finRange n).foldl
    (fun m l => if mask l then PartitionedFilters.scatter m base (index l).toNat (v l) else m) m

/-- `_scatteru_bits`: all first words are written before the second words are read. -/
def scatteruBits (nbitAligned : Bool) (nBits : Nat) (bitAddress : Lanes r n) (base : Nat) (value : Lanes r n)
    (mask : LaneMask n) (m : Mem) : Mem :=
  let bucketAddress : Lanes r n := fun l => BitVec.ofNat r.bits ((bitAddress l).toNat / r.bits)
  let shiftLeft := fun l => (bitAddress l).toNat % r.bits
  let shiftRight := fun l => r.bits - 1 - shiftLeft l
  let maskedValue := fun l => value l &&& valueMask r nBits
  let oldValue1 := gather bucketAddress base mask m
  let m1 :=
    scatter (fun l => (oldValue1 l &&& ~~~(valueMask r nBits <<< shiftLeft l)) ||| maskedValue l <<< shiftLeft l)
    base bucketAddress mask m
  if nbitAligned && isPowerOfTwo nBits then m1
  else
    let oldValue2 := gather (fun l => bucketAddress l + 1) base mask m1
    scatter (fun l => (oldValue2 l &&& ~~~(valueMask r nBits >>> 1 >>> shiftRight l)) |||
      maskedValue l >>> 1 >>> shiftRight l) base (fun l => bucketAddress l + 1) mask m1

end Lanes

/-- `pext64`: the bits under the mask, moved together. -/
def pext64 (a mask : BitVec 64) : BitVec 64 :=
  BitVec.ofFnLE fun i : Fin 64 => ((List.range 64).filter mask.getLsbD)[i]?.any a.getLsbD

def pext32 (a mask : BitVec 32) : BitVec 32 :=
  BitVec.ofFnLE fun i : Fin 32 => ((List.range 32).filter mask.getLsbD)[i]?.any a.getLsbD

theorem pext32_apply {mask : BitVec 32} {s c : Nat}
    (h : (List.range 32).filter mask.getLsbD = (List.range c).map (s * ·)) (hc : c ≤ 32) (a : BitVec 32) (b : Nat) :
    (pext32 a mask).getLsbD b = (decide (b < c) && a.getLsbD (s * b)) := by
  rw [pext32, BitVec.getLsbD_ofFnLE, h]
  by_cases hb : b < c
  · simp [hb, show b < 32 by omega]
  · simp [hb]

/-- The loop that ors each bit with the bits of the slots above it. -/
def foldEqual (slots : Nat) (equal : BitVec 64) : BitVec 64 :=
  (List.range 6).foldl (fun equal t => if 2 ^ t < slots then equal ||| equal >>> 2 ^ t else equal) equal

def pextMask (k : Nat) (r : RegisterSize) : BitVec 64 :=
  if k = 8 ∧ r.bits = 32 then 0x1111111111111111
  else if k = 8 ∧ r.bits = 64 then 0x0101010101010101
  else if k = 16 ∧ r.bits = 32 then 0x55555555
  else if k = 16 ∧ r.bits = 64 then 0x11111111
  else 0

/-! ## Footprints of the lanes -/

theorem toNat_word (a : r.T) : (BitVec.ofNat r.bits (a.toNat / r.bits)).toNat = a.toNat / r.bits := by
  rw [BitVec.toNat_ofNat, Nat.mod_eq_of_lt (Nat.lt_of_le_of_lt (Nat.div_le_self _ _) a.isLt)]

theorem toNat_nextWord (a : r.T) : (BitVec.ofNat r.bits (a.toNat / r.bits) + 1).toNat = a.toNat / r.bits + 1 := by
  have hlt : a.toNat / r.bits < 2 ^ (r.bits - 1) := by
    rw [Nat.div_lt_iff_lt_mul r.bits_pos]
    refine Nat.lt_of_lt_of_le a.isLt ?_
    cases r <;> decide
  have hpow : 2 ^ r.bits = 2 * 2 ^ (r.bits - 1) := by cases r <;> decide
  have hone : (1 : r.T).toNat = 1 := BitVec.toNat_one r.bits_pos
  rw [BitVec.toNat_add, toNat_word, hone, Nat.mod_eq_of_lt (by omega)]

namespace Lanes
variable {nbitAligned : Bool} {nBits base : Nat} {bitAddress value : Lanes r n} {mask : LaneMask n}

theorem gatheruBits_congr {m m' : Mem} (h : ∀ l, mask l = true →
    ∀ s ∈ packedSpans r true nbitAligned nBits (bitAddress l).toNat base, ∀ q, s.Covers q → m.bit q = m'.bit q) :
    gatheruBits nbitAligned nBits bitAddress base mask m =
      gatheruBits nbitAligned nBits bitAddress base mask m' := by
  funext l
  unfold gatheruBits
  split
  · rename_i hl
    exact PartitionedFilters.gatheruBits_congr (h l hl)
  · rfl

theorem scatter_frame {v : Lanes r n} {index : Lanes r n} {m : Mem} {q : Nat}
    (h : ∀ l, mask l = true → ¬(wordSpan r base (index l).toNat).Covers q) :
    (scatter v base index mask m).bit q = m.bit q := by
  unfold scatter
  generalize List.finRange n = lanes
  induction lanes generalizing m with
  | nil => rfl
  | cons l lanes ih =>
    rw [List.foldl_cons, ih]
    split
    · rename_i hl
      have hq := h l hl
      rw [covers_wordSpan] at hq
      exact Mem.store_of_notMem _ _ (by omega)
    · rfl

theorem scatteruBits_frame {m : Mem} {q : Nat} (h : ∀ l, mask l = true →
    ∀ s ∈ packedSpans r true nbitAligned nBits (bitAddress l).toNat base, ¬s.Covers q) :
    (scatteruBits nbitAligned nBits bitAddress base value mask m).bit q = m.bit q := by
  unfold packedSpans at h
  unfold scatteruBits
  simp only
  split at h
  · rename_i hal
    rw [if_pos hal]
    exact scatter_frame fun l hl => by
      rw [toNat_word]
      exact h l hl _ (List.mem_singleton_self _)
  · rename_i hal
    rw [if_neg hal, scatter_frame fun l hl => ?_, scatter_frame fun l hl => ?_]
    · rw [toNat_word]
      exact h l hl _ (List.mem_cons_self ..)
    · rw [toNat_nextWord]
      exact h l hl _ (List.mem_cons_of_mem _ (List.mem_cons_self ..))

end Lanes

/-! ## Lanes one after the other -/

def modify (base : Nat) (f : r.T → r.T) (i : Nat) (m : Mem) : Mem :=
  PartitionedFilters.scatter m base i (f (PartitionedFilters.gather m base i))

theorem gather_modify_of_ne {base i j : Nat} (h : i ≠ j) (f : r.T → r.T) (m : Mem) :
    (PartitionedFilters.gather (modify base f i m) base j : r.T) = PartitionedFilters.gather m base j := by
  refine Mem.load_store_of_disjoint _ _ ?_
  rw [Nat.add_assoc, Nat.add_assoc, ← Nat.mul_succ, ← Nat.mul_succ]
  rcases Nat.lt_or_gt_of_ne h with hlt | hlt
  · exact .inl (Nat.add_le_add_left (Nat.mul_le_mul_left _ hlt) _)
  · exact .inr (Nat.add_le_add_left (Nat.mul_le_mul_left _ hlt) _)

theorem modify_comm {base i j : Nat} (h : i ≠ j) (f g : r.T → r.T) (m : Mem) :
    modify base f i (modify base g j m) = modify base g j (modify base f i m) := by
  unfold modify
  rw [show PartitionedFilters.gather (PartitionedFilters.scatter m base j _) base i =
    _ from gather_modify_of_ne h.symm g m, show PartitionedFilters.gather (PartitionedFilters.scatter m base i _)
      base j = _ from gather_modify_of_ne h f m]
  refine Mem.ext (funext fun q => ?_)
  have hmul : r.bits * i + r.bits ≤ r.bits * j ∨ r.bits * j + r.bits ≤ r.bits * i := by
    rw [← Nat.mul_succ, ← Nat.mul_succ]
    rcases Nat.lt_or_gt_of_ne h with hlt | hlt
    · exact .inl (Nat.mul_le_mul_left _ hlt)
    · exact .inr (Nat.mul_le_mul_left _ hlt)
  unfold PartitionedFilters.scatter
  by_cases hi : 8 * base + r.bits * i ≤ q ∧ q < 8 * base + r.bits * i + r.bits
  · rw [Mem.store_of_mem _ _ hi.1 hi.2, Mem.store_of_notMem _ _ (by omega), Mem.store_of_mem _ _ hi.1 hi.2]
  · rw [Mem.store_of_notMem _ _ (by omega)]
    by_cases hj : 8 * base + r.bits * j ≤ q ∧ q < 8 * base + r.bits * j + r.bits
    · rw [Mem.store_of_mem _ _ hj.1 hj.2, Mem.store_of_mem _ _ hj.1 hj.2]
    · rw [Mem.store_of_notMem _ _ (by omega), Mem.store_of_notMem _ _ (by omega),
        Mem.store_of_notMem _ _ (by omega)]

theorem modify_id {base i : Nat} {f : r.T → r.T} (h : ∀ v, f v = v) (m : Mem) : modify base f i m = m := by
  refine Mem.ext (funext fun q => ?_)
  unfold modify PartitionedFilters.scatter PartitionedFilters.gather
  rw [h]
  by_cases hq : 8 * base + r.bits * i ≤ q ∧ q < 8 * base + r.bits * i + r.bits
  · rw [Mem.store_of_mem _ _ hq.1 hq.2, Mem.getLsbD_load, Nat.add_sub_cancel' hq.1]
    simp [show q - (8 * base + r.bits * i) < r.bits by omega]
  · rw [Mem.store_of_notMem _ _ (by omega)]

/-- Two passes over a list are one if the second step at an element commutes with the first steps behind it. -/
theorem foldl_foldl {α β : Type*} (p q : β → α → β) {l : List α}
    (h : l.Pairwise fun a b => ∀ s, p (q s a) b = q (p s b) a) (s : β) :
    l.foldl q (l.foldl p s) = l.foldl (fun s a => q (p s a) a) s := by
  induction l generalizing s with
  | nil => rfl
  | cons a l ih =>
    rw [List.pairwise_cons] at h
    have hcomm : ∀ (l' : List α) (s : β), (∀ b ∈ l', ∀ s, p (q s a) b = q (p s b) a) →
        l'.foldl p (q s a) = q (l'.foldl p s) a := by
      intro l'
      induction l' with
      | nil => exact fun _ _ => rfl
      | cons b l' ih' =>
        intro s hb
        rw [List.foldl_cons, List.foldl_cons, hb b (List.mem_cons_self ..),
          ih' _ fun b' hb' => hb b' (List.mem_cons_of_mem _ hb')]
    rw [List.foldl_cons, List.foldl_cons, List.foldl_cons, ← hcomm l _ h.1, ih h.2]

namespace Lanes
variable {base : Nat} {mask : LaneMask n}

theorem scatter_gather_eq (f : Fin n → r.T → r.T) {index : Lanes r n}
    (hne : ∀ l l', mask l = true → mask l' = true → l ≠ l' → (index l).toNat ≠ (index l').toNat) (m : Mem) :
    scatter (fun l => f l (gather index base mask m l)) base index mask m =
      (List.finRange n).foldl (fun m l => if mask l then modify base (f l) (index l).toNat m else m) m := by
  have hturns : ∀ (lanes : List (Fin n)) (m' : Mem), lanes.Nodup →
      (∀ l ∈ lanes, mask l = true → (PartitionedFilters.gather m' base (index l).toNat : r.T) =
        PartitionedFilters.gather m base (index l).toNat) →
      lanes.foldl (fun m' l => if mask l then PartitionedFilters.scatter m' base (index l).toNat
        (f l (gather index base mask m l)) else m') m' =
      lanes.foldl (fun m l => if mask l then modify base (f l) (index l).toNat m else m) m' := by
    intro lanes
    induction lanes with
    | nil => exact fun _ _ _ => rfl
    | cons l lanes ih =>
      intro m' hnodup hsame
      rw [List.nodup_cons] at hnodup
      rw [List.foldl_cons, List.foldl_cons]
      by_cases hl : mask l = true
      · have hstep : PartitionedFilters.scatter m' base (index l).toNat (f l (gather index base mask m l)) =
            modify base (f l) (index l).toNat m' := by
          unfold modify gather
          rw [if_pos hl, hsame l (List.mem_cons_self ..) hl]
        rw [if_pos hl, if_pos hl, hstep]
        refine ih _ hnodup.2 fun l' hl' hm' => ?_
        rw [gather_modify_of_ne (hne l l' hl hm' fun h => hnodup.1 (h ▸ hl')),
          hsame l' (List.mem_cons_of_mem _ hl') hm']
      · rw [if_neg hl, if_neg hl]
        exact ih _ hnodup.2 fun l' hl' hm' => hsame l' (List.mem_cons_of_mem _ hl') hm'
  exact hturns _ m (List.nodup_finRange n) fun _ _ _ => rfl

end Lanes

/-- What becomes of the first and of the second word of a field at bit `s`. -/
def mergeLow (nBits s : Nat) (value old : r.T) : r.T :=
  (old &&& ~~~(valueMask r nBits <<< s)) ||| (value &&& valueMask r nBits) <<< s

def mergeHigh (nBits s : Nat) (value old : r.T) : r.T :=
  (old &&& ~~~(valueMask r nBits >>> 1 >>> (r.bits - 1 - s))) |||
    (value &&& valueMask r nBits) >>> 1 >>> (r.bits - 1 - s)

theorem mergeHigh_of_fits {nBits s : Nat} (hs : s < r.bits) (hfit : s + nBits ≤ r.bits) (value old : r.T) :
    mergeHigh nBits s value old = old := by
  refine BitVec.eq_of_getLsbD_eq fun i hi => ?_
  unfold mergeHigh
  simp only [BitVec.getLsbD_or, BitVec.getLsbD_and, BitVec.getLsbD_not, BitVec.getLsbD_ushiftRight,
    getLsbD_valueMask (show nBits ≤ r.bits by omega)]
  simp [hi, show ¬ 1 + (r.bits - 1 - s + i) < nBits by omega]

theorem scatteruBits_eq_modify (nbitAligned : Bool) (nBits bitAddress base : Nat) (value : r.T) (m : Mem) :
    scatteruBits true nbitAligned nBits bitAddress base value m =
      if nbitAligned && isPowerOfTwo nBits then
        modify base (mergeLow nBits (bitAddress % r.bits) value) (bitAddress / r.bits) m
      else modify base (mergeHigh nBits (bitAddress % r.bits) value) (bitAddress / r.bits + 1)
        (modify base (mergeLow nBits (bitAddress % r.bits) value) (bitAddress / r.bits) m) := by
  unfold scatteruBits
  by_cases h : (nbitAligned && isPowerOfTwo nBits) = true
  · rw [if_pos h, if_pos h]
    rfl
  · rw [if_neg h, if_neg h]
    rfl

namespace Lanes
variable {base : Nat} {mask : LaneMask n} {nbitAligned : Bool} {nBits : Nat} {bitAddress value : Lanes r n}

/-- Lanes whose fields have no word in common write their fields one after the other. -/
theorem scatteruBits_eq (hne : ∀ l l', mask l = true → mask l' = true → l ≠ l' →
      (bitAddress l).toNat / r.bits ≠ (bitAddress l').toNat / r.bits)
    (hnext : ∀ l l', mask l = true → mask l' = true → l ≠ l' →
      (bitAddress l).toNat / r.bits + 1 = (bitAddress l').toNat / r.bits → (bitAddress l).toNat % r.bits + nBits ≤
        r.bits) (m : Mem) : scatteruBits nbitAligned nBits bitAddress base value mask m =
      (List.finRange n).foldl (fun m l => if mask l then
        PartitionedFilters.scatteruBits true nbitAligned nBits (bitAddress l).toNat base (value l) m else m) m := by
  have hlow : ∀ m : Mem, scatter (fun l => mergeLow nBits ((bitAddress l).toNat % r.bits) (value l)
      (gather (fun l => BitVec.ofNat r.bits ((bitAddress l).toNat / r.bits)) base mask m l)) base
      (fun l => BitVec.ofNat r.bits ((bitAddress l).toNat / r.bits)) mask m =
      (List.finRange n).foldl (fun m l => if mask l then modify base (mergeLow nBits ((bitAddress l).toNat % r.bits)
        (value l)) ((bitAddress l).toNat / r.bits) m else m) m := by
    intro m
    rw [scatter_gather_eq (fun l => mergeLow nBits ((bitAddress l).toNat % r.bits) (value l))
      fun l l' h h' hll => by
      rw [toNat_word, toNat_word]
      exact hne l l' h h' hll]
    simp only [toNat_word]
  have hhigh : ∀ m : Mem, scatter (fun l => mergeHigh nBits ((bitAddress l).toNat % r.bits) (value l)
      (gather (fun l => BitVec.ofNat r.bits ((bitAddress l).toNat / r.bits) + 1) base mask m l)) base
      (fun l => BitVec.ofNat r.bits ((bitAddress l).toNat / r.bits) + 1) mask m =
      (List.finRange n).foldl
        (fun m l => if mask l then modify base (mergeHigh nBits ((bitAddress l).toNat % r.bits)
        (value l)) ((bitAddress l).toNat / r.bits + 1) m else m) m := by
    intro m
    rw [scatter_gather_eq (fun l => mergeHigh nBits ((bitAddress l).toNat % r.bits) (value l))
      fun l l' h h' hll => by
      rw [toNat_nextWord, toNat_nextWord]
      exact fun heq => hne l l' h h' hll (Nat.succ.inj heq)]
    simp only [toNat_nextWord]
  by_cases hal : (nbitAligned && isPowerOfTwo nBits) = true
  · simp only [scatteruBits_eq_modify, hal, if_true]
    rw [← hlow m]
    unfold scatteruBits
    rw [if_pos hal]
    rfl
  · simp only [scatteruBits_eq_modify, hal]
    have hturns := foldl_foldl
      (fun m l => if mask l then modify base (mergeLow nBits ((bitAddress l).toNat % r.bits) (value l))
        ((bitAddress l).toNat / r.bits) m else m)
      (fun m l => if mask l then modify base (mergeHigh nBits ((bitAddress l).toNat % r.bits) (value l))
        ((bitAddress l).toNat / r.bits + 1) m else m) (l := List.finRange n) (by
      refine (List.nodup_finRange n).imp fun {l l'} hll m => ?_
      by_cases hl : mask l = true
      · by_cases hl' : mask l' = true
        · simp only [hl, hl', if_true]
          by_cases hword : (bitAddress l).toNat / r.bits + 1 = (bitAddress l').toNat / r.bits
          · have hid : ∀ v, mergeHigh nBits ((bitAddress l).toNat % r.bits) (value l) v = v :=
              mergeHigh_of_fits (Nat.mod_lt _ r.bits_pos) (hnext l l' hl hl' hll hword) (value l)
            rw [modify_id hid, modify_id hid]
          · exact modify_comm (Ne.symm hword) _ _ m
        · simp only [hl']
          rfl
      · simp only [hl]
        rfl) m
    rw [← hlow m, ← hhigh] at hturns
    refine Eq.trans ?_ (hturns.trans ?_)
    · unfold scatteruBits
      rw [if_neg hal]
      rfl
    · refine congrArg (fun f => List.foldl f m (List.finRange n)) (funext fun m => funext fun l => ?_)
      by_cases hl : mask l = true
      · simp [hl]
      · simp [hl]

end Lanes

/-! ## Fields of the lanes -/

theorem fields_pos {k : Nat} (hk : k = 8 ∨ k = 16) : 0 < k ∧ 0 < r.bits / k ∧ r.bits = k * (r.bits / k) ∧
    ∃ e ≤ 6, r.bits / k = 2 ^ e := by
  rcases hk with rfl | rfl <;> cases r
  · exact ⟨by decide, by decide, by decide, 2, by decide, rfl⟩
  · exact ⟨by decide, by decide, by decide, 3, by decide, rfl⟩
  · exact ⟨by decide, by decide, by decide, 1, by decide, rfl⟩
  · exact ⟨by decide, by decide, by decide, 2, by decide, rfl⟩

theorem shift_and_mask_eq_iff {k j : Nat} (hk : k ≤ r.bits) (b f : r.T) (hf : f.toNat < 2 ^ k) :
    ((b >>> (j * k)) &&& valueMask r k == f) = (Cuckoo.lane k b j == f.setWidth k) := by
  have hsame : ∀ i < r.bits, ((b >>> (j * k)) &&& valueMask r k).getLsbD i =
      ((Cuckoo.lane k b j).setWidth r.bits).getLsbD i := by
    intro i hi
    rw [BitVec.getLsbD_and, getLsbD_valueMask hk, BitVec.getLsbD_ushiftRight, BitVec.getLsbD_setWidth,
      Cuckoo.getLsbD_lane, Nat.mul_comm j k, decide_eq_true hi, Bool.true_and, Bool.and_comm]
  have hf' : (f.setWidth k).setWidth r.bits = f := by
    refine BitVec.eq_of_toNat_eq ?_
    rw [BitVec.toNat_setWidth, BitVec.toNat_setWidth, Nat.mod_eq_of_lt hf, Nat.mod_eq_of_lt f.isLt]
  rw [BitVec.eq_of_getLsbD_eq hsame, Bool.eq_iff_iff, beq_iff_eq, beq_iff_eq]
  constructor
  · intro h
    rw [← h, BitVec.setWidth_setWidth_of_le _ hk, BitVec.setWidth_eq]
  · intro h
    rw [h, hf']

theorem lane_permute {k : Nat} (hk : k = 8 ∨ k = 16) (v : Lanes r n) (l : Fin n) {j : Nat} (hj : j < r.bits / k) :
    Cuckoo.lane k (v.permute k l) j = (v l).setWidth k := by
  obtain ⟨hpos, -, hbits, -⟩ := fields_pos (r := r) hk
  have hfit := Nat.mul_le_mul_left k (Nat.succ_le_of_lt hj)
  rw [Nat.mul_succ, ← hbits] at hfit
  refine BitVec.eq_of_getLsbD_eq fun i hi => ?_
  rw [Cuckoo.getLsbD_lane, BitVec.getLsbD_setWidth, Lanes.permute, BitVec.getLsbD_ofFnLE, dif_pos (by omega),
    Nat.mul_add_mod, Nat.mod_eq_of_lt hi]

theorem getLsbD_equal {k : Nat} (hk : k = 8 ∨ k = 16) (hn : n * r.bits ≤ 512) (u v : Lanes r n) (l : Fin n)
    {j : Nat} (hj : j < r.bits / k) : (Lanes.equal k u v).getLsbD (r.bits / k * l + j) =
      (Cuckoo.lane k (u l) j == Cuckoo.lane k (v l) j) := by
  obtain ⟨hpos, hs, hbits, -⟩ := fields_pos (r := r) hk
  have hlt : r.bits / k * l + j < 64 := by
    have h1 := Nat.mul_le_mul_left (r.bits / k) (Nat.succ_le_of_lt l.isLt)
    have h2 : 8 * (r.bits / k * n) ≤ n * r.bits := by
      rw [Nat.mul_comm n, ← Nat.mul_assoc]
      refine Nat.mul_le_mul_right n ?_
      have := Nat.mul_le_mul_right (r.bits / k) (show 8 ≤ k by omega)
      omega
    rw [Nat.mul_succ] at h1
    omega
  have hdiv : (r.bits / k * l + j) / (r.bits / k) = l := by
    rw [Nat.mul_add_div hs, Nat.div_eq_of_lt hj, Nat.add_zero]
  have hmod : (r.bits / k * l + j) % (r.bits / k) = j := by rw [Nat.mul_add_mod, Nat.mod_eq_of_lt hj]
  rw [Lanes.equal, BitVec.getLsbD_ofFnLE, dif_pos hlt]
  simp only [hdiv, hmod, l.isLt, dif_pos, Fin.eta]

theorem getLsbD_foldEqual {slots e : Nat} (h : slots ≤ 2 ^ e) (he : e ≤ 6) : ∃ d, slots ≤ d ∧ d ≤ 2 ^ e ∧
    ∀ (a : BitVec 64) (b : Nat), (foldEqual slots a).getLsbD b = true ↔ ∃ i < d, a.getLsbD (b + i) = true := by
  have hpow : ∀ {i j : Nat}, i ≤ j → 2 ^ i ≤ 2 ^ j := fun h => Nat.pow_le_pow_right (by decide) h
  have hsteps : ∀ T, ∃ d, (d = 2 ^ T ∨ slots ≤ d ∧ slots ≤ 2 ^ T) ∧ d ≤ 2 ^ e ∧ ∀ (a : BitVec 64) (b : Nat),
      ((List.range T).foldl (fun (a : BitVec 64) t => if 2 ^ t < slots then a ||| a >>> 2 ^ t else a)
        a).getLsbD b = true ↔ ∃ i < d, a.getLsbD (b + i) = true := by
    intro T
    induction T with
    | zero => exact ⟨1, .inl rfl, Nat.one_le_two_pow, by simp⟩
    | succ T ih =>
      obtain ⟨d, hd, hle, hbits⟩ := ih
      simp only [List.range_succ, List.foldl_append, List.foldl_cons, List.foldl_nil]
      by_cases hT : 2 ^ T < slots
      · -- each bit takes in the next `2 ^ T`
        obtain rfl : d = 2 ^ T := hd.resolve_right (by omega)
        have hTe : T + 1 ≤ e := (Nat.pow_lt_pow_iff_right (by decide)).mp (Nat.lt_of_lt_of_le hT h)
        refine ⟨2 ^ (T + 1), .inl rfl, hpow hTe, fun a b => ?_⟩
        rw [if_pos hT, BitVec.getLsbD_or, BitVec.getLsbD_ushiftRight, Bool.or_eq_true, hbits, hbits, Nat.pow_succ]
        constructor
        · rintro (⟨i, hi, hb⟩ | ⟨i, hi, hb⟩)
          · exact ⟨i, by omega, hb⟩
          · exact ⟨2 ^ T + i, by omega, by rwa [← Nat.add_assoc, Nat.add_comm b]⟩
        · rintro ⟨i, hi, hb⟩
          by_cases hlow : i < 2 ^ T
          · exact .inl ⟨i, hlow, hb⟩
          · exact .inr ⟨i - 2 ^ T, by omega, by rwa [show 2 ^ T + b + (i - 2 ^ T) = b + i by omega]⟩
      · have hsucc := hpow (Nat.le_succ T)
        refine ⟨d, .inr ⟨?_, by omega⟩, hle, fun a b => by rw [if_neg hT, hbits]⟩
        rcases hd with rfl | hd
        · omega
        · exact hd.1
  obtain ⟨d, hd, hle, hbits⟩ := hsteps 6
  have h6 := hpow he
  refine ⟨d, ?_, hle, hbits⟩
  rcases hd with rfl | hd
  · omega
  · exact hd.1

theorem getLsbD_pext64 {k : Nat} (hk : k = 8 ∨ k = 16) (hn : n * r.bits ≤ 512) (a : BitVec 64) (l : Fin n) :
    (pext64 a (pextMask k r)).getLsbD l = a.getLsbD (r.bits / k * l) := by
  have hcount : ∀ {s c : Nat}, (List.range 64).filter (pextMask k r).getLsbD = (List.range c).map (s * ·) → l < c →
      c ≤ 64 → (pext64 a (pextMask k r)).getLsbD l = a.getLsbD (s * l) := by
    intro s c he hl hc
    rw [pext64, BitVec.getLsbD_ofFnLE, dif_pos (by omega), he]
    simp [hl]
  have hl := l.isLt
  rcases hk with rfl | rfl <;> cases r <;> simp only [RegisterSize.bits] at hn ⊢
  · exact hcount (c := 16) (by decide) (by omega) (by decide)
  · exact hcount (c := 8) (by decide) (by omega) (by decide)
  · exact hcount (c := 16) (by decide) (by omega) (by decide)
  · exact hcount (c := 8) (by decide) (by omega) (by decide)

/-- Comparing the fields and folding the lanes finds an equal field among the first `slots` of a lane. -/
theorem getLsbD_pext64_foldEqual {k slots : Nat} (hk : k = 8 ∨ k = 16) (hn : n * r.bits ≤ 512)
    (hs : slots ≤ r.bits / k) {a : BitVec 64} {l : Fin n}
    (hzero : ∀ j < r.bits / k, slots ≤ j → a.getLsbD (r.bits / k * l + j) = false) :
    (pext64 (foldEqual slots a) (pextMask k r)).getLsbD l = true ↔ ∃ j < slots, a.getLsbD
    (r.bits / k * l + j) = true := by
  obtain ⟨-, -, -, e, he, hpow⟩ := fields_pos (r := r) hk
  obtain ⟨d, hle, hd, hbits⟩ := getLsbD_foldEqual (hpow ▸ hs) he
  rw [getLsbD_pext64 hk hn, hbits]
  constructor
  · rintro ⟨j, hj, h⟩
    by_cases hlt : j < slots
    · exact ⟨j, hlt, h⟩
    · rw [hzero j (by omega) (Nat.le_of_not_lt hlt)] at h
      cases h
  · rintro ⟨j, hj, h⟩
    exact ⟨j, by omega, h⟩

theorem getLsbD_pext64_foldEqual_congr {k slots : Nat} (hk : k = 8 ∨ k = 16) (hn : n * r.bits ≤ 512)
    (hs : slots ≤ r.bits / k) {a a' : BitVec 64} {l l' : Fin n}
    (h : ∀ j < r.bits / k, a.getLsbD (r.bits / k * l + j) = a'.getLsbD (r.bits / k * l' + j)) :
    (pext64 (foldEqual slots a) (pextMask k r)).getLsbD l =
      (pext64 (foldEqual slots a') (pextMask k r)).getLsbD l' := by
  obtain ⟨-, -, -, e, he, hpow⟩ := fields_pos (r := r) hk
  obtain ⟨d, -, hd, hbits⟩ := getLsbD_foldEqual (hpow ▸ hs) he
  rw [getLsbD_pext64 hk hn, getLsbD_pext64 hk hn, Bool.eq_iff_iff, hbits, hbits]
  exact exists_congr fun j => and_congr_right fun hj => by rw [h j (by omega)]

theorem Lanes.gatheruBits_lane {nbitAligned : Bool} {nBits base : Nat} {bitAddress bitAddress' : Lanes r n}
    {mask mask' : LaneMask n} {m : Mem} {l l' : Fin n} (ha : bitAddress l = bitAddress' l')
    (hm : mask l = mask' l') :
    Lanes.gatheruBits nbitAligned nBits bitAddress base mask m l =
      Lanes.gatheruBits nbitAligned nBits bitAddress' base mask' m l' := by
  rw [Lanes.gatheruBits, Lanes.gatheruBits, ha, hm]

end PartitionedFilters

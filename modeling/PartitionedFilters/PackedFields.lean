import PartitionedFilters.Simd

/-!
# The packed fields

`_gatheru_bits` and `_scatteru_bits` choose one of three ways to reach a field when
they are compiled. The ways that apply to a field read and write the same bits,
and what was written is read back and changes no other bit.
-/

namespace PartitionedFilters

variable {r : RegisterSize}

/-- One aligned word, a window of bytes (for scalars), or two adjacent words. -/
inductive FieldPath where
  | word
  | window
  | words

namespace FieldPath

/-- The way that is compiled. -/
def select (r : RegisterSize) (avx nbitAligned : Bool) (n : Nat) : FieldPath :=
  if nbitAligned && isPowerOfTwo n then .word else if !avx && decide (8 + n ≤ r.bits) then .window else .words

def Applies (r : RegisterSize) (n bitAddress : Nat) : FieldPath → Prop
  | .word => isPowerOfTwo n = true ∧ n ∣ bitAddress
  | .window => 8 + n ≤ r.bits
  | .words => True

def gather (n bitAddress base : Nat) (m : Mem) : FieldPath → r.T
  | .word => (PartitionedFilters.gather m base (bitAddress / r.bits) >>> (bitAddress % r.bits)) &&& valueMask r n
  | .window => (m.load (8 * (base + bitAddress / 8)) r.bits >>> (bitAddress % 8)) &&& valueMask r n
  | .words =>
    let shiftRight := bitAddress % r.bits
    let value1 : r.T := PartitionedFilters.gather m base (bitAddress / r.bits) >>> shiftRight
    let value2 : r.T :=
      PartitionedFilters.gather m base (bitAddress / r.bits + 1) <<< 1 <<< (r.bits - 1 - shiftRight)
    (value1 ||| value2) &&& valueMask r n

def scatter (n bitAddress base : Nat) (value : r.T) (m : Mem) : FieldPath → Mem
  | .word =>
    let bucketAddress := bitAddress / r.bits
    PartitionedFilters.scatter m base bucketAddress
      (mergeLow n (bitAddress % r.bits) value (PartitionedFilters.gather m base bucketAddress))
  | .window =>
    let window := 8 * (base + bitAddress / 8)
    let shiftLeft := bitAddress % 8
    let m := m.store window (m.load window r.bits &&& ~~~(valueMask r n <<< shiftLeft))
    m.store window (m.load window r.bits ||| (value &&& valueMask r n) <<< shiftLeft)
  | .words =>
    let bucketAddress := bitAddress / r.bits
    modify base (mergeHigh n (bitAddress % r.bits) value) (bucketAddress + 1)
      (modify base (mergeLow n (bitAddress % r.bits) value) bucketAddress m)

section
variable (avx nbitAligned : Bool) (n bitAddress base : Nat) (value : r.T) (m : Mem)

theorem gatheruBits_eq : (gatheruBits avx nbitAligned n bitAddress base m : r.T) =
  (select r avx nbitAligned n).gather n bitAddress base m := by
  unfold gatheruBits select
  split
  · rfl
  · split <;> rfl

theorem scatteruBits_eq : scatteruBits avx nbitAligned n bitAddress base value m =
  (select r avx nbitAligned n).scatter n bitAddress base value m := by
  unfold scatteruBits select
  split
  · rfl
  · split <;> rfl

end

/-- Aligned fields can be reached the way that is compiled for them. -/
theorem select_applies {avx nbitAligned : Bool} {n bitAddress : Nat} (h : nbitAligned = true → n ∣ bitAddress) :
    (select r avx nbitAligned n).Applies r n bitAddress := by
  unfold select
  split
  · rename_i hal
    rw [Bool.and_eq_true] at hal
    exact ⟨hal.2, h hal.1⟩
  split
  · rename_i hfit
    rw [Bool.and_eq_true, decide_eq_true_eq] at hfit
    exact hfit.2
  · trivial

theorem exists_select {path : FieldPath} {n bitAddress : Nat} (h : path.Applies r n bitAddress) :
    ∃ avx nbitAligned, select r avx nbitAligned n = path ∧ (nbitAligned = true → n ∣ bitAddress) := by
  cases path with
  | word => exact ⟨true, true, by simp [select, h.1], fun _ => h.2⟩
  | window => exact ⟨false, false, by simp [select, show 8 + n ≤ r.bits from h], fun h => absurd h (by decide)⟩
  | words => exact ⟨true, false, by simp [select], fun h => absurd h (by decide)⟩

section
variable {path : FieldPath} {n bitAddress : Nat} (hn : n ≤ r.bits) (h : path.Applies r n bitAddress)
  (base : Nat) (m : Mem)
include hn h

theorem gather_eq :
    (path.gather n bitAddress base m : r.T) = (m.load (8 * base + bitAddress) n).setWidth r.bits := by
  obtain ⟨avx, al, rfl, hd⟩ := exists_select h
  rw [← gatheruBits_eq, PartitionedFilters.gatheruBits_eq hn avx al base m fun hal _ => hd hal]

theorem scatter_eq (value : r.T) :
    path.scatter n bitAddress base value m = m.store (8 * base + bitAddress) (value.setWidth n) := by
  obtain ⟨avx, al, rfl, hd⟩ := exists_select h
  rw [← scatteruBits_eq, PartitionedFilters.scatteruBits_eq hn avx al base value m fun hal _ => hd hal]

end

end FieldPath

/-! ## Reading what was written -/

section
variable {n : Nat} (hn : n ≤ r.bits) (avx al : Bool) (base : Nat) (value : r.T) (m : Mem)
include hn

theorem gatheruBits_scatteruBits {bitAddress : Nat} (h : al = true → n ∣ bitAddress) :
    (gatheruBits avx al n bitAddress base (scatteruBits avx al n bitAddress base value m) : r.T).toNat =
      value.toNat % 2 ^ n := by
  rw [gatheruBits_eq hn avx al base _ fun hal _ => h hal, scatteruBits_eq hn avx al base value m fun hal _ => h hal,
    Mem.load_store, BitVec.toNat_setWidth, BitVec.toNat_setWidth]
  exact Nat.mod_eq_of_lt
    (Nat.lt_of_lt_of_le (Nat.mod_lt _ (Nat.two_pow_pos n)) (Nat.pow_le_pow_right (by decide) hn))

theorem gatheruBits_scatteruBits_of_disjoint {bitAddress bitAddress' : Nat} (h : al = true → n ∣ bitAddress)
    (h' : al = true → n ∣ bitAddress') (hapart : bitAddress + n ≤ bitAddress' ∨ bitAddress' + n ≤ bitAddress) :
    (gatheruBits avx al n bitAddress' base (scatteruBits avx al n bitAddress base value m) : r.T) =
      gatheruBits avx al n bitAddress' base m := by
  rw [gatheruBits_eq hn avx al base _ fun hal _ => h' hal, gatheruBits_eq hn avx al base m fun hal _ => h' hal,
    scatteruBits_eq hn avx al base value m fun hal _ => h hal, Mem.load_store_of_disjoint]
  rw [Nat.add_assoc, Nat.add_assoc]
  exact hapart.imp (Nat.add_le_add_left · _) (Nat.add_le_add_left · _)

theorem scatteruBits_bit {bitAddress q : Nat} (h : al = true → n ∣ bitAddress)
    (hq : q < 8 * base + bitAddress ∨ 8 * base + bitAddress + n ≤ q) :
    (scatteruBits avx al n bitAddress base value m).bit q = m.bit q := by
  rw [scatteruBits_eq hn avx al base value m fun hal _ => h hal, Mem.store_of_notMem _ _ hq]

/-- A field is read back as written, no other bit changes, and all ways that apply are the same. -/
theorem packed_field_law (bitAddress : r.T) (h : al = true → n ∣ bitAddress.toNat) :
    (gatheruBits avx al n bitAddress.toNat base (scatteruBits avx al n bitAddress.toNat base value m) : r.T).toNat =
      value.toNat % 2 ^ n ∧
    (∀ bitAddress' : r.T, (al = true → n ∣ bitAddress'.toNat) →
      bitAddress.toNat + n ≤ bitAddress'.toNat ∨ bitAddress'.toNat + n ≤ bitAddress.toNat →
      (gatheruBits avx al n bitAddress'.toNat base (scatteruBits avx al n bitAddress.toNat base value m) : r.T) =
        gatheruBits avx al n bitAddress'.toNat base m) ∧
    (∀ q, q < 8 * base + bitAddress.toNat ∨ 8 * base + bitAddress.toNat + n ≤ q →
      (scatteruBits avx al n bitAddress.toNat base value m).bit q = m.bit q) ∧
    (∀ path path' : FieldPath, path.Applies r n bitAddress.toNat → path'.Applies r n bitAddress.toNat →
      (path.gather n bitAddress.toNat base m : r.T) = path'.gather n bitAddress.toNat base m ∧
      path.scatter n bitAddress.toNat base value m = path'.scatter n bitAddress.toNat base value m) ∧
    (FieldPath.select r avx al n).Applies r n bitAddress.toNat ∧
    (gatheruBits avx al n bitAddress.toNat base m : r.T) =
      (FieldPath.select r avx al n).gather n bitAddress.toNat base m ∧
    scatteruBits avx al n bitAddress.toNat base value m =
      (FieldPath.select r avx al n).scatter n bitAddress.toNat base value m := by
  refine ⟨gatheruBits_scatteruBits hn avx al base value m h, ?_, ?_, ?_, FieldPath.select_applies h,
    FieldPath.gatheruBits_eq .., FieldPath.scatteruBits_eq ..⟩
  · intro bitAddress' h' hapart
    exact gatheruBits_scatteruBits_of_disjoint hn avx al base value m h h' hapart
  · intro q hq
    exact scatteruBits_bit hn avx al base value m h hq
  · intro path path' hp hp'
    rw [FieldPath.gather_eq hn hp, FieldPath.gather_eq hn hp', FieldPath.scatter_eq hn hp,
      FieldPath.scatter_eq hn hp']
    exact ⟨rfl, rfl⟩

end

/-- Nine bits are written to a field of eight. -/
theorem packed_field_law_byte :
    (gatheruBits false true 8 16 0 (scatteruBits false true 8 16 0 (0x1ff : RegisterSize.T ._32bit)
      Mem.zero) : RegisterSize.T ._32bit).toNat = 255 :=
  (packed_field_law (r := ._32bit) (show 8 ≤ 32 by decide) false true 0 (0x1ff#32) Mem.zero (16#32)
    fun _ => by decide).1

end PartitionedFilters

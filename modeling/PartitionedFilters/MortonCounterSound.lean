import PartitionedFilters.AddressSound
import PartitionedFilters.CountRange
import PartitionedFilters.Morton

/-!
# Counters

The population counts of `sum_bits_in_registers` add up packed counters: a set
bit counts with its place value within its counter. The four ways to load the
counters of a block give the same sum.
-/

namespace PartitionedFilters.Cuckoo.Morton

variable {r : RegisterSize}

/-! ## Weights -/

/-- The sum of the packed counters of `s` bits whose bits `f` gives. -/
def weight (s : Nat) (f : Nat → Bool) (n : Nat) : Nat := ∑ g ∈ Finset.range n, if f g then 2 ^ (g % s) else 0

theorem weight_congr {s n : Nat} {e f : Nat → Bool} (h : ∀ g < n, e g = f g) : weight s e n = weight s f n :=
  Finset.sum_congr rfl fun g hg => by rw [h g (Finset.mem_range.mp hg)]

theorem weight_add {s : Nat} (f : Nat → Bool) {a : Nat} (ha : s ∣ a) (b : Nat) :
    weight s f (a + b) = weight s f a + weight s (fun g => f (a + g)) b := by
  obtain ⟨d, rfl⟩ := ha
  rw [weight, Finset.sum_range_add]
  simp only [Nat.mul_add_mod]
  rfl

theorem weight_pieces {s len : Nat} (hd : s ∣ len) (f : Nat → Bool) (n : Nat) :
    ∑ p ∈ Finset.range n, weight s (fun g => f (len * p + g)) len = weight s f (len * n) := by
  induction n with
  | zero => rfl
  | succ n ih => rw [Finset.sum_range_succ, ih, Nat.mul_succ, weight_add f (Nat.dvd_mul_right_of_dvd hd n)]

theorem weight_of_le {s n n' : Nat} {f : Nat → Bool} (hn : n ≤ n') (h : ∀ g, n ≤ g → f g = false) :
    weight s f n' = weight s f n := by
  obtain ⟨d, rfl⟩ := Nat.exists_eq_add_of_le hn
  rw [weight, Finset.sum_range_add, weight]
  simp [h]

theorem toNat_load (m : Mem) (p n : Nat) :
    (m.load p n).toNat = ∑ t ∈ Finset.range n, if m.bit (p + t) then 2 ^ t else 0 := by
  induction n with
  | zero => rfl
  | succ n ih =>
    rw [Mem.load, BitVec.toNat_cons', ih, Finset.sum_range_succ, Nat.add_comm, Nat.shiftLeft_eq]
    by_cases h : m.bit (p + n) <;> simp [h]

theorem weight_mul {s : Nat} (m : Mem) (p n : Nat) :
    weight s (fun g => m.bit (p + g)) (s * n) = ∑ i ∈ Finset.range n, (m.load (p + s * i) s).toNat := by
  induction n with
  | zero => rfl
  | succ n ih =>
    rw [Nat.mul_succ, weight_add _ (Nat.dvd_mul_right s n), ih, Finset.sum_range_succ, toNat_load, weight]
    refine congrArg _ (Finset.sum_congr rfl fun t ht => ?_)
    rw [Nat.mod_eq_of_lt (Finset.mem_range.mp ht), Nat.add_assoc]

/-! ## `sum_bits_in_registers` -/

theorem foldl_add_ofNat {f : Nat → r.T} {g : Nat → Nat} {n : Nat} (hf : ∀ i < n, f i = BitVec.ofNat r.bits (g i)) :
    (List.range n).foldl (fun s i => s + f i) 0 = BitVec.ofNat r.bits (∑ i ∈ Finset.range n, g i) := by
  induction n with
  | zero => rfl
  | succ n ih =>
    rw [List.range_succ, List.foldl_append, ih fun i hi => hf i (Nat.lt_succ_of_lt hi), Finset.sum_range_succ,
      List.foldl_cons, List.foldl_nil, hf n (Nat.lt_succ_self n), BitVec.ofNat_add]

theorem getLsbD_everyKth {nBits i : Nat} (hi : i < nBits) {b : Nat} (hb : b < r.bits) :
    (computeMask r.bits nBits (r.bits / nBits + 1) <<< i).getLsbD b = decide (b % nBits = i) := by
  have hn : 0 < nBits := Nat.lt_of_le_of_lt (Nat.zero_le i) hi
  have hdm := Nat.div_add_mod b nBits
  rw [BitVec.getLsbD_shiftLeft, Bool.eq_iff_iff, Bool.and_eq_true, Bool.and_eq_true, getLsbD_computeMask hn,
    decide_eq_true_eq, decide_eq_true_eq]
  constructor
  · rintro ⟨⟨-, hib⟩, -, j, -, hj⟩
    have hib : ¬ b < i := by simpa using hib
    rw [show b = nBits * j + i by omega, Nat.mul_add_mod, Nat.mod_eq_of_lt hi]
  · intro he
    have hdiv : b / nBits ≤ r.bits / nBits := Nat.div_le_div_right (Nat.le_of_lt hb)
    have hle := Nat.mod_le b nBits
    exact ⟨⟨hb, by simp; omega⟩, by omega, b / nBits, by omega, by omega⟩

theorem sumBitsInRegisters_eq {nBits : Nat} (hn : 0 < nBits) (offset : Nat) (x : r.T) :
    sumBitsInRegisters nBits offset x =
      BitVec.ofNat r.bits (∑ b ∈ Finset.range r.bits, if x.getLsbD b then 2 ^ ((b + offset) % nBits) else 0) := by
  have hcount :
      ∀ i < nBits, popcount (x &&& computeMask r.bits nBits (r.bits / nBits + 1) <<< i) <<< ((i + offset) % nBits) =
      BitVec.ofNat r.bits (∑ b ∈ Finset.range r.bits,
        if b % nBits = i then (if x.getLsbD b then 2 ^ ((b + offset) % nBits) else 0) else 0) := by
    intro i hi
    have hsum : ∑ b ∈ Finset.range r.bits,
          (if b % nBits = i then (if x.getLsbD b then 2 ^ ((b + offset) % nBits) else 0) else 0) =
        2 ^ ((i + offset) % nBits) * ∑ b ∈ Finset.range r.bits,
          if (x &&& computeMask r.bits nBits (r.bits / nBits + 1) <<< i).getLsbD b then 1 else 0 := by
      rw [Finset.mul_sum]
      refine Finset.sum_congr rfl fun b hb => ?_
      rw [BitVec.getLsbD_and, getLsbD_everyKth hi (Finset.mem_range.mp hb)]
      by_cases hbi : b % nBits = i
      · rw [← Nat.mod_add_mod b, hbi]
        by_cases hx : x.getLsbD b <;> simp [hx]
      · simp [hbi]
    rw [hsum, popcount, countP_range_eq_sum, BitVec.ofNat_mul, BitVec.shiftLeft_eq_mul_twoPow, BitVec.mul_comm]
    refine congrArg (· * _) (BitVec.eq_of_toNat_eq ?_)
    rw [BitVec.toNat_twoPow, BitVec.toNat_ofNat]
  rw [sumBitsInRegisters, foldl_add_ofNat hcount, Finset.sum_comm]
  refine congrArg _ (Finset.sum_congr rfl fun b _ => ?_)
  rw [Finset.sum_ite_eq, if_pos (Finset.mem_range.mpr (Nat.mod_lt b hn))]

theorem sumBitsInRegisters_zero {nBits : Nat} (hn : 0 < nBits) (x : r.T) :
    sumBitsInRegisters nBits 0 x = BitVec.ofNat r.bits (weight nBits x.getLsbD r.bits) :=
  sumBitsInRegisters_eq hn 0 x

theorem sumPieces_eq {c : Config r} (hn : 0 < c.counterSize) {width : Nat} (counters : BitVec width) :
    sumPieces c counters = BitVec.ofNat r.bits (weight c.counterSize counters.getLsbD width) := by
  have hw := r.bits_pos
  have hpiece :
      ∀ p, sumBitsInRegisters c.counterSize (r.bits * p % c.counterSize)
        ((counters >>> (r.bits * p)).setWidth r.bits) =
      BitVec.ofNat r.bits (∑ b ∈ Finset.range r.bits,
        if counters.getLsbD (r.bits * p + b) then 2 ^ ((r.bits * p + b) % c.counterSize) else 0) := by
    intro p
    rw [sumBitsInRegisters_eq hn]
    refine congrArg _ (Finset.sum_congr rfl fun b hb => ?_)
    rw [BitVec.getLsbD_setWidth, BitVec.getLsbD_ushiftRight, Nat.add_mod_mod, Nat.add_comm b]
    simp [Finset.mem_range.mp hb]
  have hsum : ∀ n, ∑ p ∈ Finset.range n, ∑ b ∈ Finset.range r.bits,
        (if counters.getLsbD (r.bits * p + b) then 2 ^ ((r.bits * p + b) % c.counterSize) else 0) =
      weight c.counterSize counters.getLsbD (r.bits * n) := by
    intro n
    induction n with
    | zero => rfl
    | succ n ih => rw [Finset.sum_range_succ, ih, Nat.mul_succ, weight, weight, Finset.sum_range_add]
  rw [sumPieces, foldl_add_ofNat fun p _ => hpiece p, hsum]
  refine congrArg _ (weight_of_le ?_ fun g hg => BitVec.getLsbD_of_ge _ _ hg)
  have hdm := Nat.div_add_mod (width + r.bits - 1) r.bits
  have hlt := Nat.mod_lt (width + r.bits - 1) hw
  omega

end PartitionedFilters.Cuckoo.Morton

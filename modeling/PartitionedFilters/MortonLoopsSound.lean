import PartitionedFilters.MortonBlockSound
import PartitionedFilters.MortonLoops

/-!
# Termination of the slot loops

A slot loop ends if and only if its counter stops. The counter does not move
where no slot fits into a load, which happens for 25 to 31 bits a slot and 32-bit
registers. Where the loops end they leave what the folds of the model leave.
-/

namespace PartitionedFilters.Cuckoo.Morton

open Loop

variable {r : RegisterSize} (c : Config r) (x : CuckooContainer r)

theorem two_pow_bits_le (r : RegisterSize) : 2 ^ r.bits ≤ 2 ^ 64 := Nat.pow_le_pow_right (by decide) r.bits_le

theorem lt_word (a : r.T) : a.toNat < 2 ^ 64 := Nat.lt_of_lt_of_le a.isLt (two_pow_bits_le r)

/-! ## The counters -/

theorem searchLoop_ends_iff (fingerprint slotCount : r.T) (m : Mem) {s : SearchState r} (hi : s.i < 2 ^ 64) :
    (searchLoop c x fingerprint slotCount m).Ends s ↔ Stops (2 ^ 64) c.slotsToLoad slotCount.toNat s.i :=
  (ends_map (f := SearchState.i) (k := Loop.counter (2 ^ 64) c.slotsToLoad slotCount.toNat) (fun _ => rfl)
    (fun _ => rfl) s).trans (counter_ends_iff hi)

theorem moveLeftLoop_ends_iff (n : r.T) {s : MoveState r} (hi : s.i < 2 ^ 64) :
    (moveLeftLoop c x n).Ends s ↔ Stops (2 ^ 64) c.slotsToLoad (n.toNat + 1) s.i :=
  (ends_map (f := MoveState.i) (k := Loop.counter (2 ^ 64) c.slotsToLoad (n.toNat + 1))
    (fun _ => decide_eq_decide.mpr Nat.lt_succ_iff.symm)
    (fun _ => rfl) s).trans (counter_ends_iff hi)

theorem moveRightLoop_ends_iff (n : r.T) {s : MoveState r} (hi : s.i < 2 ^ 64) :
    (moveRightLoop c x n).Ends s ↔ Stops (2 ^ 64) c.slotsToLoad (n.toNat + 1) s.i :=
  (ends_map (f := MoveState.i) (k := Loop.counter (2 ^ 64) c.slotsToLoad (n.toNat + 1))
    (fun _ => decide_eq_decide.mpr Nat.lt_succ_iff.symm)
    (fun _ => rfl) s).trans (counter_ends_iff hi)

/-- The three loops end where they are compiled and their counters stop, for all slots, blocks and memories. -/
theorem slot_loops_end_iff (fingerprint bucketIndex blockOffset start n : r.T) (m : Mem) :
    (BucketContainsEnds c x fingerprint bucketIndex blockOffset m ↔
      (c.slotsToLoad < c.associativity →
        Stops (2 ^ 64) c.slotsToLoad (getSlotCount c x bucketIndex blockOffset m).toNat 0)) ∧
    (ShiftLeftEnds c x start n blockOffset m ↔
      (c.optimalFingerprintSize = false → Stops (2 ^ 64) c.slotsToLoad (n.toNat + 1) start.toNat)) ∧
    (ShiftRightEnds c x start n blockOffset m ↔
      (c.optimalFingerprintSize = false → Stops (2 ^ 64) c.slotsToLoad (n.toNat + 1) (start + 1).toNat)) :=
  ⟨imp_congr_right fun _ => searchLoop_ends_iff c x _ _ m (Nat.two_pow_pos 64),
    imp_congr_right fun _ => moveLeftLoop_ends_iff c x n (lt_word start),
    imp_congr_right fun _ => moveRightLoop_ends_iff c x n (lt_word (start + 1))⟩

/-- With slots of 25 bits in 32-bit registers, the insertion into an empty block does not return. -/
theorem not_shiftLeftEnds : ¬ShiftLeftEnds (r := ._32bit)
    { associativity := 3, bucketsPerBlock := 14, otaSize := 8, k := 25, partitioning := .Disabled, mode := .Lemire,
      hash := murmur }
    { entries := fun _ => ⟨16, 0, 0, 0⟩, filter := 0, nBytes := 192, offsets := fun _ => 0 } 0 0 0 Mem.zero := by
  rw [(slot_loops_end_iff _ _ 0 0 0 0 0 Mem.zero).2.1]
  decide

/-! ## Which counters stop -/

/-- Slots of up to 32 bits fit into a load, but for those of 25 to 31 bits in 32-bit registers. -/
theorem slotsToLoad_eq_zero_iff (hk : 1 ≤ c.k) (hk' : c.k ≤ 32) :
    c.slotsToLoad = 0 ↔ c.associativity = 0 ∨ r = ._32bit ∧ 24 < c.k ∧ c.k < 32 := by
  have hload : ∀ k ≤ 32, 1 ≤ k → ∀ r : RegisterSize,
      (if isPowerOfTwo k then r.bits / k else (r.bits - 8) / k) = 0 ↔ r = ._32bit ∧ 24 < k ∧ k < 32 := by
    intro k hk hk' r
    cases r <;> revert k <;> decide
  rw [← hload c.k hk' hk r, Config.slotsToLoad]
  split <;> exact Nat.min_eq_zero_iff

theorem stops_of_pos {step bound i : Nat} (hpos : 0 < step) (hstep : step ≤ 64) (hbound : bound ≤ 2 ^ 63) :
    Stops (2 ^ 64) step bound i := by
  have hg := Nat.gcd_le_left (2 ^ 64) hpos
  rw [Stops, if_neg (Nat.ne_of_gt hpos)]
  omega

theorem slotsToLoad_le (hk : 1 ≤ c.k) : c.slotsToLoad ≤ 64 :=
  Nat.le_trans (Nat.le_mul_of_pos_right _ hk) (Nat.le_trans Params.load_le r.bits_le)

/-- The loops end for slots that fit into a load, below `2 ^ 63`. -/
theorem slot_loops_end (hk : 1 ≤ c.k) (hload : 0 < c.slotsToLoad)
    {fingerprint bucketIndex blockOffset start n : r.T} {m : Mem}
    (hcount : (getSlotCount c x bucketIndex blockOffset m).toNat < 2 ^ 63) (hn : n.toNat < 2 ^ 63) :
    BucketContainsEnds c x fingerprint bucketIndex blockOffset m ∧ ShiftLeftEnds c x start n blockOffset m ∧
      ShiftRightEnds c x start n blockOffset m := by
  obtain ⟨h1, h2, h3⟩ := slot_loops_end_iff c x fingerprint bucketIndex blockOffset start n m
  have hle := slotsToLoad_le c hk
  exact ⟨h1.mpr fun _ => stops_of_pos hload hle (Nat.le_of_lt hcount), h2.mpr fun _ => stops_of_pos hload hle hn,
    h3.mpr fun _ => stops_of_pos hload hle hn⟩

/-! ## What the loops leave -/

theorem ofNat_succ_mul (w : r.T) (t : Nat) : BitVec.ofNat r.bits (t + 1) * w = BitVec.ofNat r.bits t * w + w := by
  rw [BitVec.ofNat_add, BitVec.add_mul]
  exact congrArg _ (BitVec.one_mul w)

theorem iterate_moveLeftLoop (n : r.T) {s : MoveState r} (hi : s.i < 2 ^ 64) (t : Nat) :
    (moveLeftLoop c x n).body^[t] s =
      { i := (s.i + c.slotsToLoad * t) % 2 ^ 64
        bitAddress := s.bitAddress + BitVec.ofNat r.bits t * BitVec.ofNat r.bits (c.slotsToLoad * c.k)
        mem := (List.range t).foldl (fun m t =>
          let bitAddress := s.bitAddress + BitVec.ofNat r.bits t * BitVec.ofNat r.bits (c.slotsToLoad * c.k)
          moveBits x (c.slotsToLoad * c.k) bitAddress (bitAddress - BitVec.ofNat r.bits c.k) m) s.mem } := by
  induction t with
  | zero =>
    rw [Nat.mul_zero, Nat.add_zero, Nat.mod_eq_of_lt hi, BitVec.zero_mul, BitVec.add_zero]
    rfl
  | succ t ih =>
    rw [Function.iterate_succ_apply', ih, List.range_succ, List.foldl_append, ofNat_succ_mul, ← BitVec.add_assoc,
      Nat.mul_succ, ← Nat.add_assoc, ← Nat.mod_add_mod (s.i + c.slotsToLoad * t)]
    rfl

theorem iterate_moveRightLoop (n : r.T) {s : MoveState r} (hi : s.i < 2 ^ 64) (t : Nat) :
    (moveRightLoop c x n).body^[t] s =
      { i := (s.i + c.slotsToLoad * t) % 2 ^ 64
        bitAddress := s.bitAddress - BitVec.ofNat r.bits t * BitVec.ofNat r.bits (c.slotsToLoad * c.k)
        mem := (List.range t).foldl (fun m t =>
          let bitAddress := s.bitAddress - BitVec.ofNat r.bits (t + 1) * BitVec.ofNat r.bits (c.slotsToLoad * c.k)
          moveBits x (c.slotsToLoad * c.k) (bitAddress - BitVec.ofNat r.bits c.k) bitAddress m) s.mem } := by
  induction t with
  | zero =>
    rw [Nat.mul_zero, Nat.add_zero, Nat.mod_eq_of_lt hi, BitVec.zero_mul, BitVec.sub_zero]
    rfl
  | succ t ih =>
    have hsub : s.bitAddress - BitVec.ofNat r.bits (t + 1) * BitVec.ofNat r.bits (c.slotsToLoad * c.k) =
        s.bitAddress - BitVec.ofNat r.bits t * BitVec.ofNat r.bits (c.slotsToLoad * c.k) -
          BitVec.ofNat r.bits (c.slotsToLoad * c.k) := by
      rw [ofNat_succ_mul, BitVec.sub_eq_add_neg, BitVec.sub_eq_add_neg, BitVec.sub_eq_add_neg, BitVec.neg_add,
        BitVec.sub_eq_add_neg, BitVec.add_assoc]
    rw [Function.iterate_succ_apply', ih, List.range_succ, List.foldl_append, List.foldl_cons, List.foldl_nil, hsub,
      Nat.mul_succ, ← Nat.add_assoc, ← Nat.mod_add_mod (s.i + c.slotsToLoad * t)]
    rfl

/-- The first loop of `shift_slots_left_and_insert` is left after as many iterations as wide loads fit. -/
theorem moveLeftLoop_exitsAt (hload : 0 < c.slotsToLoad) {start n : r.T} (hs : start.toNat ≤ n.toNat)
    (hn : n.toNat + 1 + c.slotsToLoad ≤ 2 ^ 64) (bitAddress : r.T) (m : Mem) :
    (moveLeftLoop c x n).ExitsAt ((n.toNat - start.toNat) / c.slotsToLoad) ⟨start.toNat, bitAddress, m⟩ :=
  ExitsAt.of_map (f := MoveState.i) (k := Loop.counter (2 ^ 64) c.slotsToLoad (n.toNat + 1))
    (fun _ => decide_eq_decide.mpr Nat.lt_succ_iff.symm)
    (fun _ => rfl) (counter_exitsAt (lt_word start) hload (Nat.lt_succ_of_le hs) hn)

theorem moveRightLoop_exitsAt (hload : 0 < c.slotsToLoad) {start n : r.T} (hs : start.toNat < n.toNat)
    (hn : n.toNat + 1 + c.slotsToLoad ≤ 2 ^ 64) (bitAddress : r.T) (m : Mem) :
    (moveRightLoop c x n).ExitsAt
    ((n.toNat - (start.toNat + 1)) / c.slotsToLoad) ⟨(start + 1).toNat, bitAddress, m⟩ := by
  have hone : (start + 1).toNat = start.toNat + 1 := by
    have hlt := n.isLt
    rw [BitVec.toNat_add, show (1 : r.T).toNat = 1 from BitVec.toNat_one r.bits_pos, Nat.mod_eq_of_lt (by omega)]
  rw [hone]
  exact ExitsAt.of_map (f := MoveState.i) (k := Loop.counter (2 ^ 64) c.slotsToLoad (n.toNat + 1))
    (fun _ => decide_eq_decide.mpr Nat.lt_succ_iff.symm) (fun _ => rfl)
    (counter_exitsAt (by show start.toNat + 1 < 2 ^ 64; omega) hload (Nat.succ_lt_succ hs) hn)

/-- What is left to do where the loop is left: single slots, and the new one. -/
theorem shiftSlotsLeftAndInsert_leaves (hopt : c.optimalFingerprintSize = false) (hload : 0 < c.slotsToLoad)
    {start n : r.T} (hs : start.toNat ≤ n.toNat) (hn : n.toNat + 1 + c.slotsToLoad ≤ 2 ^ 64)
    (fingerprint blockOffset : r.T) (m : Mem) :
    ∃ s : MoveState r,
      (moveLeftLoop c x n).Leaves ⟨start.toNat, blockOffset + 512 - n * BitVec.ofNat r.bits c.k, m⟩ s ∧
      shiftSlotsLeftAndInsert c x fingerprint start.toNat n.toNat blockOffset m =
        let kBits := BitVec.ofNat r.bits c.k
        let rest := (n.toNat - start.toNat) % c.slotsToLoad
        let m := (List.range rest).foldl (fun m t =>
          let bitAddress := s.bitAddress + BitVec.ofNat r.bits t * kBits
          moveBits x c.k bitAddress (bitAddress - kBits) m) s.mem
        let bitAddress := s.bitAddress + BitVec.ofNat r.bits rest * kBits
        scatteruBits false false c.k (bitAddress - kBits).toNat x.filter fingerprint m := by
  refine ⟨_, ⟨_, moveLeftLoop_exitsAt c x hload hs hn _ m, rfl⟩, ?_⟩
  rw [iterate_moveLeftLoop c x n (lt_word start), shiftSlotsLeftAndInsert, if_neg (by simp [hopt]),
    BitVec.ofNat_toNat, BitVec.setWidth_eq]

theorem shiftSlotsRightAndInsert_leaves (hopt : c.optimalFingerprintSize = false) (hload : 0 < c.slotsToLoad)
    {start n : r.T} (hs : start.toNat < n.toNat) (hn : n.toNat + 1 + c.slotsToLoad ≤ 2 ^ 64)
    (fingerprint blockOffset : r.T) (m : Mem) :
    ∃ s : MoveState r,
      (moveRightLoop c x n).Leaves
        ⟨(start + 1).toNat, blockOffset + 512 - start * BitVec.ofNat r.bits c.k, m⟩ s ∧
      shiftSlotsRightAndInsert c x fingerprint start.toNat n.toNat blockOffset m =
        let kBits := BitVec.ofNat r.bits c.k
        let rest := (n.toNat - (start.toNat + 1)) % c.slotsToLoad
        let m := (List.range rest).foldl (fun m t =>
          let bitAddress := s.bitAddress - BitVec.ofNat r.bits (t + 1) * kBits
          moveBits x c.k (bitAddress - kBits) bitAddress m) s.mem
        let bitAddress := s.bitAddress - BitVec.ofNat r.bits rest * kBits
        scatteruBits false false c.k (bitAddress - kBits).toNat x.filter fingerprint m := by
  refine ⟨_, ⟨_, moveRightLoop_exitsAt c x hload hs hn _ m, rfl⟩, ?_⟩
  rw [iterate_moveRightLoop c x n (lt_word (start + 1)), shiftSlotsRightAndInsert, if_neg (by simp [hopt]),
    BitVec.ofNat_toNat, BitVec.setWidth_eq]

end PartitionedFilters.Cuckoo.Morton

import PartitionedFilters.Loop
import PartitionedFilters.MortonSimdSound

/-!
# The counter sums of a block

`get_slot_offset` and `get_occupied_slots` with the loops they are written with.
A loop that is not left returns nothing.
-/

namespace PartitionedFilters.Cuckoo.Morton

variable {r : RegisterSize}

structure Chunks (r : RegisterSize) where
  i : Nat
  bitAddress : r.T
  count : r.T

namespace Chunks

def first (block : r.T) : Chunks r := { i := 0, bitAddress := block, count := 0 }

variable (c : Config r) (x : CuckooContainer r) (m : Mem)

def counters (s : Chunks r) : r.T :=
  gatheruBits false true (c.counterSize * c.counterToLoad) s.bitAddress.toNat x.filter m

/-- The loops that go on while `i + counter_to_load <= bound`; `i` is a `size_t`. -/
def loop (bound : Nat) : Loop (Chunks r) where
  guard s := decide ((s.i + c.counterToLoad) % 2 ^ 64 ≤ bound)
  body s :=
    { i := (s.i + c.counterToLoad) % 2 ^ 64
      bitAddress := s.bitAddress + BitVec.ofNat r.bits (c.counterSize * c.counterToLoad)
      count := s.count + sumBitsInRegisters c.counterSize 0 (s.counters c x m) }

/-- What is returned behind the loop, where `n` counters are left. -/
def finish (n : Nat) (s : Chunks r) : r.T :=
  s.count + sumBitsInRegisters c.counterSize 0
    (s.counters c x m &&& (1#64 <<< (c.counterSize * n) - 1#64).setWidth r.bits)

end Chunks

section
variable (c : Config r) (x : CuckooContainer r)

def SlotOffsetReturns (bucketIndex block : r.T) (m : Mem) (v : r.T) : Prop :=
  let sum := fun width : Nat => sumPieces c (m.load (8 * (x.filter + block.toNat / 8)) width &&&
    ((1 : BitVec width) <<< (c.counterSize * bucketIndex.toNat) - 1))
  if c.otaOffset ≤ 32 then v = sum 32
  else if c.otaOffset ≤ 64 then v = sum 64
  else if c.otaOffset ≤ 128 then v = sum 128
  else if c.counterToLoad < c.bucketsPerBlock then
    ∃ s, (Chunks.loop c x m bucketIndex.toNat).Leaves (.first block) s ∧
      v = s.finish c x m (bucketIndex.toNat - s.i)
  else v = (Chunks.first block).finish c x m bucketIndex.toNat

def OccupiedSlotsReturns (block : r.T) (m : Mem) (v : r.T) : Prop :=
  let sum := fun width : Nat => sumPieces c (m.load (8 * (x.filter + block.toNat / 8)) width &&&
    counterMask width (c.counterSize * c.bucketsPerBlock))
  if c.otaOffset ≤ 32 then v = sum 32
  else if c.otaOffset ≤ 64 then v = sum 64
  else if c.otaOffset ≤ 128 then v = sum 128
  else
    -- the quotient is one of constants: nothing compiles where `counter_to_load` is 0
    ∃ s, c.counterToLoad ≠ 0 ∧ (Chunks.loop c x m c.bucketsPerBlock).Leaves (.first block) s ∧
      v = s.finish c x m (c.bucketsPerBlock - c.bucketsPerBlock / c.counterToLoad * c.counterToLoad)

end

namespace Simd
variable {n : Nat} (c : Config r) (x : CuckooContainer r)

def sumLoop (mask : LaneMask n) (m : Mem) : Loop (Nat × Sum r n) where
  guard s := decide (s.1 < c.bucketsPerBlock + 1)
  body s := ((s.1 + c.simdCounterToLoad) % 2 ^ 64, sumStep c x mask m s.2)

def SlotOffsetReturns (bucketIndex blockOffset : Lanes r n) (mask : LaneMask n) (m : Mem) (v : Lanes r n) : Prop :=
  ∃ s, (sumLoop c x mask m).Leaves (0, { count := fun _ => 0, index := bucketIndex, bitAddress := blockOffset }) s ∧
    v = s.2.count

end Simd

/-! ## The chunks -/

variable {c : Config r} {x : CuckooContainer r} {block : r.T}

theorem Chunks.not_ends (m : Mem) (h : c.counterToLoad = 0) (bound : Nat) :
    ¬(Chunks.loop c x m bound).Ends (.first block) := by
  have hmap := Loop.ends_map (l := Chunks.loop c x m bound) (k := Loop.counter (2 ^ 64) c.counterToLoad (bound + 1))
    (f := Chunks.i) (fun s => decide_eq_decide.mpr Nat.lt_succ_iff.symm) (fun _ => rfl) (.first block)
  have hstops : (Loop.counter (2 ^ 64) c.counterToLoad (bound + 1)).Ends 0 ↔ _ := Loop.counter_ends_iff (by decide)
  rw [Loop.Stops, if_pos h] at hstops
  exact fun hends => Nat.not_succ_le_zero bound (hstops.mp (hmap.mp hends))

section
variable (hr : Reaches block) (m : Mem)
include hr

theorem Chunks.iterate_loop (bound : Nat) {t : Nat} (ht : c.counterSize * c.counterToLoad * t ≤ 512) :
    (Chunks.loop c x m bound).body^[t] (.first block) =
      { i := c.counterToLoad * t % 2 ^ 64
        bitAddress := block + BitVec.ofNat r.bits (c.counterSize * c.counterToLoad * t)
        count := BitVec.ofNat r.bits
          (weight c.counterSize (fun g => m.bit (base x block + g)) (c.counterSize * c.counterToLoad * t)) } := by
  induction t with
  | zero => simp [first, weight]
  | succ t ih =>
    rw [Nat.mul_succ] at ht
    have hin : c.counterSize * c.counterToLoad * t < 512 := by
      rcases Nat.eq_zero_or_pos (c.counterSize * c.counterToLoad) with h0 | hpos
      · simp [h0]
      · omega
    rw [Function.iterate_succ_apply', ih (by omega)]
    simp only [loop, counters]
    rw [sumBitsInRegisters_full hr m false counterToLoad_le hin, BitVec.add_assoc, ← BitVec.ofNat_add,
      ← BitVec.ofNat_add, Nat.mod_add_mod]
    congr 2
    rw [Nat.mul_succ, weight_add _ (Nat.dvd_mul_right_of_dvd (Nat.dvd_mul_right ..) t)]
    simp only [Nat.add_assoc]

section
variable (hfit : c.otaOffset ≤ 512) {bound : Nat} (hbound : bound ≤ c.bucketsPerBlock)
include hfit hbound

omit hr in
theorem bound_le : c.counterSize * bound ≤ 512 := by
  have hmul := Nat.mul_le_mul_left c.counterSize hbound
  rw [Config.otaOffset, Nat.mul_comm] at hfit
  omega

variable (hctl : 1 ≤ c.counterToLoad)
include hctl

theorem Chunks.leaves_iff {s : Chunks r} : (Chunks.loop c x m bound).Leaves (.first block) s ↔
    s = { i := c.counterToLoad * (bound / c.counterToLoad)
          bitAddress := block + BitVec.ofNat r.bits (c.counterSize * c.counterToLoad * (bound / c.counterToLoad))
          count := BitVec.ofNat r.bits (weight c.counterSize (fun g => m.bit (base x block + g))
            (c.counterSize * c.counterToLoad * (bound / c.counterToLoad))) } := by
  have hle := bound_le hfit hbound
  have hmul := Nat.mul_div_le bound c.counterToLoad
  have hpieces := Nat.mul_le_mul_left c.counterSize hmul
  have hbuckets := Nat.le_mul_of_pos_left bound (counterSize_pos c)
  have hsize := Nat.le_mul_of_pos_left c.bucketsPerBlock (counterSize_pos c)
  have hmin : c.counterToLoad ≤ c.bucketsPerBlock := by
    rw [Config.counterToLoad]
    split <;> exact Nat.min_le_left ..
  rw [Config.otaOffset, Nat.mul_comm] at hfit
  rw [← Nat.mul_assoc] at hpieces
  have hexits := Loop.counter_exitsAt (n := 2 ^ 64) (i := 0) (by decide) hctl (Nat.succ_pos bound) (by omega)
  have hloop : (Chunks.loop c x m bound).ExitsAt (bound / c.counterToLoad) (.first block) :=
    Loop.ExitsAt.of_map (f := Chunks.i) (fun s => decide_eq_decide.mpr Nat.lt_succ_iff.symm) (fun _ => rfl) hexits
  rw [hloop.leaves_iff, iterate_loop hr m bound (by omega), Nat.mod_eq_of_lt (by omega)]

theorem Chunks.finish_eq {s : Chunks r} (hs : (Chunks.loop c x m bound).Leaves (.first block) s) :
    s.finish c x m (bound - c.counterToLoad * (bound / c.counterToLoad)) =
      BitVec.ofNat r.bits (slotsBefore c m (base x block) bound) := by
  have hle := bound_le hfit hbound
  have hlt := Nat.mod_lt bound hctl
  have hsplit :
      c.counterSize * c.counterToLoad * (bound / c.counterToLoad) + c.counterSize * (bound % c.counterToLoad) =
      c.counterSize * bound := by rw [Nat.mul_assoc, ← Nat.mul_add, Nat.div_add_mod]
  have hmono := Nat.mul_lt_mul_of_pos_left hlt (counterSize_pos c)
  have hlast :=
    sumBitsInRegisters_piece (c := c) (x := x) hr m false (counterToLoad_le (c := c)) (p := bound / c.counterToLoad)
    (n := c.counterSize * (bound % c.counterToLoad)) (by omega) fun _ hg => getLsbD_lastMask hlt hg
  have hweight := weight_mul (s := c.counterSize) m (base x block) bound
  rw [← hsplit, weight_add _ (Nat.dvd_mul_right_of_dvd (Nat.dvd_mul_right ..) _)] at hweight
  rw [(leaves_iff hr m hfit hbound hctl).mp hs, ← Nat.mod_eq_sub]
  simp only [finish, counters]
  rw [hlast, Nat.min_eq_right (Nat.le_of_lt hmono), ← BitVec.ofNat_add]
  simp only [Nat.add_assoc]
  exact congrArg _ hweight

theorem Chunks.leaves : ∃ s : Chunks r, (Chunks.loop c x m bound).Leaves (.first block) s ∧
    s.i = c.counterToLoad * (bound / c.counterToLoad) :=
  ⟨_, (leaves_iff hr m hfit hbound hctl).mpr rfl, rfl⟩

end

end

/-! ## The sums -/

/-- The loops over the counters advance, or they are not needed. -/
def Advances (c : Config r) : Prop := c.otaOffset ≤ 128 ∨ 1 ≤ c.counterToLoad

section
variable (hr : Reaches block) (m : Mem) (hfit : c.otaOffset ≤ 512)
include hr hfit

theorem slotOffsetReturns_iff {b v : r.T} (hb : b.toNat < c.bucketsPerBlock) : SlotOffsetReturns c x b block m v ↔
    Advances c ∧ v = BitVec.ofNat r.bits (slotsBefore c m (base x block) b.toNat) := by
  have hsum : ∀ width, c.otaOffset ≤ width → sumPieces c (m.load (8 * (x.filter + block.toNat / 8)) width &&&
      ((1 : BitVec width) <<< (c.counterSize * b.toNat) - 1)) =
        BitVec.ofNat r.bits (slotsBefore c m (base x block) b.toNat) := by
    intro width hw
    have hlt := Params.counter_fits hb
    have hpos := counterSize_pos c
    refine sumPieces_load hr m (Nat.le_of_lt hb) hw fun g => ?_
    rw [← getLsbD_counterMask (by omega : c.counterSize * b.toNat ≤ width), counterMask, if_neg (by omega)]
  simp only [SlotOffsetReturns]
  split
  · rename_i h
    rw [hsum 32 h]
    exact (and_iff_right (.inl (by omega))).symm
  split
  · rename_i h
    rw [hsum 64 h]
    exact (and_iff_right (.inl (by omega))).symm
  split
  · rename_i h
    rw [hsum 128 h]
    exact (and_iff_right (.inl h)).symm
  rename_i h32 h64 h128
  have hmore : c.counterToLoad < c.bucketsPerBlock := by
    have hle := counterToLoad_le (c := c)
    have hbits := r.bits_le
    refine Nat.lt_of_mul_lt_mul_left (a := c.counterSize) ?_
    rw [Config.otaOffset, Nat.mul_comm] at h128
    omega
  rw [if_pos hmore]
  constructor
  · intro h
    obtain ⟨s, hs, rfl⟩ := h
    have hctl : 1 ≤ c.counterToLoad := Nat.pos_of_ne_zero fun h0 => Chunks.not_ends m h0 _ hs.ends
    rw [← Chunks.finish_eq hr m hfit (Nat.le_of_lt hb) hctl hs,
      (Chunks.leaves_iff hr m hfit (Nat.le_of_lt hb) hctl).mp hs]
    exact ⟨.inr hctl, rfl⟩
  · intro h
    obtain ⟨hctl, rfl⟩ := h
    have hctl : 1 ≤ c.counterToLoad := hctl.resolve_left h128
    obtain ⟨s, hs, hi⟩ := Chunks.leaves (x := x) hr m hfit (Nat.le_of_lt hb) hctl
    exact ⟨s, hs, by rw [hi, Chunks.finish_eq hr m hfit (Nat.le_of_lt hb) hctl hs]⟩

theorem occupiedSlotsReturns_iff {v : r.T} : OccupiedSlotsReturns c x block m v ↔
    Advances c ∧ v = BitVec.ofNat r.bits (slotsBefore c m (base x block) c.bucketsPerBlock) := by
  have hsum : ∀ width, c.otaOffset ≤ width → sumPieces c (m.load (8 * (x.filter + block.toNat / 8)) width &&&
      counterMask width (c.counterSize * c.bucketsPerBlock)) =
        BitVec.ofNat r.bits (slotsBefore c m (base x block) c.bucketsPerBlock) := by
    intro width hw
    refine sumPieces_load hr m (Nat.le_refl _) hw (getLsbD_counterMask ?_)
    rwa [Nat.mul_comm]
  simp only [OccupiedSlotsReturns]
  split
  · rename_i h
    rw [hsum 32 h]
    exact (and_iff_right (.inl (by omega))).symm
  split
  · rename_i h
    rw [hsum 64 h]
    exact (and_iff_right (.inl (by omega))).symm
  split
  · rename_i h
    rw [hsum 128 h]
    exact (and_iff_right (.inl h)).symm
  rename_i h32 h64 h128
  rw [Nat.mul_comm (c.bucketsPerBlock / _)]
  constructor
  · intro h
    obtain ⟨s, hctl, hs, rfl⟩ := h
    exact ⟨.inr (Nat.pos_of_ne_zero hctl), Chunks.finish_eq hr m hfit (Nat.le_refl _) (Nat.pos_of_ne_zero hctl) hs⟩
  · intro h
    obtain ⟨hctl, rfl⟩ := h
    have hctl : 1 ≤ c.counterToLoad := hctl.resolve_left h128
    obtain ⟨s, hs, -⟩ := Chunks.leaves (x := x) hr m hfit (Nat.le_refl _) hctl
    exact ⟨s, Nat.ne_of_gt hctl, hs, (Chunks.finish_eq hr m hfit (Nat.le_refl _) hctl hs).symm⟩

end

/-! ### Vectors -/

namespace Simd
variable {n : Nat} (mask : LaneMask n) (m : Mem)

theorem iterate_sumLoop (s : Nat × Sum r n) (t : Nat) :
    ((sumLoop c x mask m).body^[t] s).2 = (List.range t).foldl (fun s _ => sumStep c x mask m s) s.2 := by
  induction t with
  | zero => rfl
  | succ t ih =>
    rw [Function.iterate_succ_apply', List.range_succ, List.foldl_append, ← ih]
    rfl

variable (hfit : c.otaOffset ≤ 512) {bucketIndex blockOffset : Lanes r n}
include hfit

theorem slotOffsetReturns_iff {v : Lanes r n} : SlotOffsetReturns c x bucketIndex blockOffset mask m v ↔
    1 ≤ c.simdCounterToLoad ∧ v = getSlotOffset c x bucketIndex blockOffset mask m := by
  have hsize := Nat.le_mul_of_pos_right c.bucketsPerBlock (counterSize_pos c)
  have hmin : c.simdCounterToLoad ≤ c.bucketsPerBlock := Nat.min_le_left ..
  rw [Config.otaOffset] at hfit
  have hends := Loop.ends_map (l := sumLoop c x mask m) (f := Prod.fst)
    (k := Loop.countUp 64 c.simdCounterToLoad (c.bucketsPerBlock + 1)) (fun _ => rfl) (fun _ => rfl)
    (0, { count := fun _ => 0, index := bucketIndex, bitAddress := blockOffset })
  rcases Nat.eq_zero_or_pos c.simdCounterToLoad with h0 | hpos
  · rw [h0] at hends
    constructor
    · intro h
      obtain ⟨s, hs, -⟩ := h
      exact absurd (hends.mp hs.ends) (Loop.countUp_not_ends (Nat.succ_pos _) (Nat.two_pow_pos 64))
    · intro h
      omega
  · have hexits :
        (sumLoop c x mask m).ExitsAt _ (0,
        { count := fun _ => 0, index := bucketIndex, bitAddress := blockOffset }) :=
      Loop.ExitsAt.of_map (f := Prod.fst) (fun _ => rfl) (fun _ => rfl)
        (show (Loop.countUp 64 c.simdCounterToLoad (c.bucketsPerBlock + 1)).ExitsAt _ 0 from
          Loop.countUp_exitsAt hpos (by omega) 0)
    have hcount : (c.bucketsPerBlock + 1 + c.simdCounterToLoad - 1 - 0) / c.simdCounterToLoad =
        c.bucketsPerBlock / c.simdCounterToLoad + 1 := by
      rw [← Nat.add_div_right _ hpos]
      exact congrArg (· / _) (by omega)
    rw [hcount] at hexits
    rw [SlotOffsetReturns, and_iff_right (Nat.succ_le_of_lt hpos), getSlotOffset, ← iterate_sumLoop mask m (0, _)]
    constructor
    · intro h
      obtain ⟨s, hs, rfl⟩ := h
      rw [hexits.leaves_iff.mp hs]
    · intro h
      exact ⟨_, hexits.leaves_iff.mpr rfl, h⟩

theorem getSlotOffset_eq_sum {l : Fin n} (hl : mask l = true) (hr : Reaches (blockOffset l))
    (hi : (bucketIndex l).toNat < c.bucketsPerBlock) (hctl : 1 ≤ c.simdCounterToLoad) :
    getSlotOffset c x bucketIndex blockOffset mask m l =
      BitVec.ofNat r.bits (slotsBefore c m (base x (blockOffset l)) (bucketIndex l).toNat) := by
  have hall : c.bucketsPerBlock ≤ c.simdCounterToLoad * (c.bucketsPerBlock / c.simdCounterToLoad + 1) :=
    Nat.le_of_lt (Nat.lt_mul_div_succ _ hctl)
  rw [getSlotOffset, (sumSteps_spec hl hr m hi hfit _).1, Nat.min_eq_left (by omega), weight_mul]
  rfl

end Simd

/-! ### Every path -/

theorem exists_ofNat_iff (P : Prop) (n : Nat) :
    (∃ v : r.T, (P ∧ v = BitVec.ofNat r.bits n) ∧ v.toNat = n) ↔ P ∧ n < 2 ^ r.bits := by
  constructor
  · intro h
    obtain ⟨v, ⟨hP, -⟩, rfl⟩ := h
    exact ⟨hP, v.isLt⟩
  · intro h
    exact ⟨_, ⟨h.1, rfl⟩, by rw [BitVec.toNat_ofNat, Nat.mod_eq_of_lt h.2]⟩

/-- The sums are right exactly where the loops advance and a register can hold the sum. -/
theorem counter_sums_exact (hfit : c.otaOffset ≤ 512) (m : Mem) :
    (∀ block b : r.T, 512 ∣ block.toNat → b.toNat < c.bucketsPerBlock →
      ((∃ v, SlotOffsetReturns c x b block m v ∧ v.toNat = slotsBefore c m (base x block) b.toNat) ↔
        Advances c ∧ slotsBefore c m (base x block) b.toNat < 2 ^ r.bits)) ∧
    (∀ block : r.T, 512 ∣ block.toNat →
      ((∃ v, OccupiedSlotsReturns c x block m v ∧ v.toNat = slotsBefore c m (base x block) c.bucketsPerBlock) ↔
        Advances c ∧ slotsBefore c m (base x block) c.bucketsPerBlock < 2 ^ r.bits)) ∧
    ∀ (n : Nat) (bucketIndex blockOffset : Lanes r n) (mask : LaneMask n),
      (∀ l, mask l = true → 512 ∣ (blockOffset l).toNat ∧ (bucketIndex l).toNat < c.bucketsPerBlock) →
      ((∃ v, Simd.SlotOffsetReturns c x bucketIndex blockOffset mask m v ∧
          ∀ l, mask l = true → (v l).toNat = slotsBefore c m (base x (blockOffset l)) (bucketIndex l).toNat) ↔
        1 ≤ c.simdCounterToLoad ∧
          ∀ l, mask l = true → slotsBefore c m (base x (blockOffset l)) (bucketIndex l).toNat < 2 ^ r.bits) := by
  refine ⟨fun block b ha hb => ?_, fun block ha => ?_, fun n bucketIndex blockOffset mask hl => ?_⟩
  · simp only [slotOffsetReturns_iff (reaches_of_dvd ha) m hfit hb]
    exact exists_ofNat_iff _ _
  · simp only [occupiedSlotsReturns_iff (reaches_of_dvd ha) m hfit]
    exact exists_ofNat_iff _ _
  · simp only [Simd.slotOffsetReturns_iff mask m hfit]
    constructor
    · intro h
      obtain ⟨v, ⟨hctl, -⟩, hv⟩ := h
      exact ⟨hctl, fun l hm => hv l hm ▸ (v l).isLt⟩
    · intro h
      obtain ⟨hctl, hlt⟩ := h
      refine ⟨_, ⟨hctl, rfl⟩, fun l hm => ?_⟩
      rw [Simd.getSlotOffset_eq_sum mask m hfit hm (reaches_of_dvd (hl l hm).1) (hl l hm).2 hctl,
        BitVec.toNat_ofNat, Nat.mod_eq_of_lt (hlt l hm)]

/-- 60 counters of 3 bits, eight of which are loaded at a time. -/
def chunkConfig : Config ._32bit :=
  { associativity := 7, bucketsPerBlock := 60, otaSize := 16, k := 8, partitioning := .Disabled, mode := .Lemire,
    hash := murmur }

def chunkContainer : CuckooContainer ._32bit :=
  { entries := fun _ => ⟨0, 0, 0, 0⟩, filter := 64, nBytes := 0, offsets := fun _ => 0 }

/-- Every bit is set, also those behind the counters. -/
def onesMem : Mem := ⟨fun _ => true⟩

theorem counter_sums_chunks :
    ∃ v, SlotOffsetReturns chunkConfig chunkContainer 43 512 onesMem v ∧
      v.toNat = slotsBefore chunkConfig onesMem (base chunkContainer (512 : RegisterSize._32bit.T)) 43 :=
  ((counter_sums_exact (by decide) onesMem).1 512 43 (by decide) (by decide)).mpr
    ⟨.inr (by decide), by decide +kernel⟩

def wideCounters : Config ._32bit :=
  { chunkConfig with associativity := 2 ^ 24, bucketsPerBlock := 6 }

def longCounters : Config ._32bit :=
  { chunkConfig with associativity := 2 ^ 30, bucketsPerBlock := 4, otaSize := 0 }

/-- The loop does not end, and three long counters do not fit a register. -/
theorem not_counter_sums :
    (wideCounters.otaOffset ≤ 512 ∧ ∀ v, ¬SlotOffsetReturns wideCounters chunkContainer 1 0 Mem.zero v) ∧
    longCounters.otaOffset ≤ 512 ∧ ¬∃ v, SlotOffsetReturns longCounters chunkContainer 3 0 onesMem v ∧
      v.toNat = slotsBefore longCounters onesMem (base chunkContainer (0 : RegisterSize._32bit.T)) 3 := by
  have hwide : wideCounters.otaOffset ≤ 512 := by decide
  have hlong : longCounters.otaOffset ≤ 512 := by decide
  refine ⟨⟨hwide, fun v h => ?_⟩, hlong, fun h => ?_⟩
  · have hadvances := ((slotOffsetReturns_iff (reaches_of_dvd (by decide)) Mem.zero hwide (by decide)).mp h).1
    exact absurd hadvances (not_or.mpr (by decide))
  · obtain ⟨v, -, hv⟩ := h
    have hlt := v.isLt
    rw [hv] at hlt
    exact absurd hlt (by decide +kernel)

end PartitionedFilters.Cuckoo.Morton

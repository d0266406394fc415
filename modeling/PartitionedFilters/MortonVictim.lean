import PartitionedFilters.CuckooParameter
import PartitionedFilters.Lts
import PartitionedFilters.MortonLookupSound
import PartitionedFilters.MortonRefinement

/-!
# Block overflow

A block is full when its counters add up to its slots. Whatever `insert` does,
the counters of every block stay in range, so a full block whose bucket has room
holds a fingerprint in another bucket, unless the block is smaller than a bucket.
-/

namespace PartitionedFilters.Cuckoo.Morton

variable {r : RegisterSize} {c : Config r} {x : CuckooContainer r}

/-! ## Blocks -/

theorem dvd_toNat_add {a b : r.T} (ha : 512 ∣ a.toNat) (hb : 512 ∣ b.toNat) : 512 ∣ (a + b).toNat := by
  have hdvd : 512 ∣ 2 ^ r.bits := by cases r <;> decide
  rw [BitVec.toNat_add]
  exact (Nat.dvd_mod_iff hdvd).mpr (Nat.dvd_add ha hb)

theorem dvd_blockOffset {offset : r.T} (h : 512 ∣ (offset <<< 3).toNat) (address : r.T) :
    512 ∣ (blockOffset c offset address).toNat := by
  have hdvd : 512 ∣ 2 ^ r.bits := by cases r <;> decide
  refine dvd_toNat_add h ?_
  rw [BitVec.toNat_mul, BitVec.toNat_ofNat]
  refine (Nat.dvd_mod_iff hdvd).mpr (Dvd.dvd.mul_left ?_ _)
  exact (Nat.dvd_mod_iff hdvd).mpr (Nat.dvd_refl 512)

theorem toNat_ofNat_of_le {n : Nat} (hn : n ≤ 1024) : (BitVec.ofNat r.bits n).toNat = n := by
  rw [BitVec.toNat_ofNat]
  exact Nat.mod_eq_of_lt (lt_two_pow_bits hn)

def AllBlocks (r : RegisterSize) (P : r.T → Prop) : Prop := ∀ block : r.T, 512 ∣ block.toNat → P block

def SameCounters (c : Config r) (x : CuckooContainer r) (m m' : Mem) : Prop :=
  AllBlocks r fun block => ∀ i < c.bucketsPerBlock, counter c m' (base x block) i = counter c m (base x block) i

theorem SameCounters.refl (c : Config r) (x : CuckooContainer r) (m : Mem) : SameCounters c x m m :=
  fun _ _ _ _ => rfl

theorem SameCounters.trans {m m' m'' : Mem} (h : SameCounters c x m m') (h' : SameCounters c x m' m'') :
    SameCounters c x m m'' := fun block hb i hi => (h' block hb i hi).trans (h block hb i hi)

def AllWellFormed (c : Config r) (x : CuckooContainer r) (m : Mem) : Prop :=
  AllBlocks r fun block => WellFormed c m (base x block)

theorem SameCounters.wellFormed {m m' : Mem} (h : SameCounters c x m m') (hwf : AllWellFormed c x m) :
    AllWellFormed c x m' :=
  fun block hb => (hwf block hb).congr (h block hb)

/-- The bit belongs to no counter. -/
def Apart (c : Config r) (x : CuckooContainer r) (q : Nat) : Prop :=
  AllBlocks r fun block => q < base x block ∨ base x block + c.otaOffset ≤ q

theorem sameCounters_of_bits {m m' : Mem} (h : ∀ q, m'.bit q ≠ m.bit q → Apart c x q) : SameCounters c x m m' := by
  intro block hb i hi
  have hcounter := Params.counter_fits hi
  refine congrArg BitVec.toNat (load_congr fun q h1 h2 => ?_)
  by_contra hne
  rcases h q hne block hb with hq | hq
  · omega
  · omega

theorem sameCounters_store {n p : Nat} {m : Mem} {v : BitVec n} (h : ∀ q, p ≤ q → q < p + n → Apart c x q) :
    SameCounters c x m (m.store p v) := by
  refine sameCounters_of_bits fun q hne => ?_
  by_contra hq
  refine hne (Mem.store_of_notMem _ _ ?_)
  by_contra hin
  exact hq (h q (by omega) (by omega))

theorem apart_of_block (hp : Params c) {block : r.T} (hb : 512 ∣ block.toNat) {q : Nat}
    (h1 : base x block + c.otaOffset ≤ q) (h2 : q < base x block + 512) : Apart c x q := by
  intro block' hb'
  have hfits := hp.fits
  unfold base at *
  omega

theorem apart_of_lt {q : Nat} (h : q < 8 * x.filter) : Apart c x q :=
  fun _ _ => .inl (Nat.lt_of_lt_of_le h (Nat.le_add_right _ _))

/-! ### Slots -/

theorem blockEnd_wrap {block : r.T} (h : block.toNat + 512 = 2 ^ r.bits) : blockEnd x block = 8 * x.filter := by
  have h512 : (512 : r.T).toNat = 512 := by cases r <;> rfl
  rw [blockEnd, BitVec.toNat_add, h512, h, Nat.mod_self, Nat.zero_div, Nat.add_zero]

/-- A block whose end wraps holds its byte-addressed slots in front of the filter. -/
theorem reachesEnd_or_wrap {block : r.T} (hb : 512 ∣ block.toNat) :
    ReachesEnd c block ∨ c.optimalFingerprintSize = true ∧ block.toNat + 512 = 2 ^ r.bits := by
  have hr := reaches_of_dvd hb
  by_cases h : c.optimalFingerprintSize = true → block.toNat + 512 < 2 ^ r.bits
  · exact .inl ⟨hr, h⟩
  · rw [Classical.not_imp, Nat.not_lt] at h
    exact .inr ⟨h.1, Nat.le_antisymm hr.fit h.2⟩

theorem Frame.sameCounters (hp : Params c) {block : r.T} (hb : 512 ∣ block.toNat) {start stop : Nat} {m m' : Mem}
    (h : Frame c (base x block) (fun _ => False) start stop m m') : SameCounters c x m m' := by
  intro block' hb' i hi
  by_cases heq : block' = block
  · rw [heq]
    exact h.counters i hi fun h => h
  · have hne : block'.toNat ≠ block.toNat := fun h => heq (BitVec.eq_of_toNat_eq h)
    have hcounter := Params.counter_fits hi
    have hfits := hp.fits
    refine congrArg BitVec.toNat (load_congr fun q h1 h2 => h.outside q ?_)
    unfold base at *
    omega

section
variable (hp : Params c) (hfilter : 64 ≤ x.filter) {block : r.T} (hb : 512 ∣ block.toNat) (m : Mem) (f : r.T)
include hp hfilter hb

theorem sameCounters_setFingerprint {j : Nat} (hj : j < c.slotsPerBlock) :
    SameCounters c x m (setFingerprint c x j block f m) := by
  rcases reachesEnd_or_wrap hb with hr | ⟨hopt, hend⟩
  · exact (frame_setFingerprint hr hp m hj f).sameCounters hp hb
  · have hslot := hp.slot_fits hj
    rw [setFingerprint, if_pos hopt, blockEnd_wrap hend, Nat.mul_comm (j + 1)]
    rw [Nat.mul_succ] at hslot ⊢
    exact sameCounters_store fun q _ hq => apart_of_lt (by omega)

variable (hload : 1 ≤ c.slotsToLoad)
include hload

theorem sameCounters_shiftSlotsLeftAndInsert {start n : Nat} (hs : start ≤ n) (hn : n < c.slotsPerBlock) :
    SameCounters c x m (shiftSlotsLeftAndInsert c x f start n block m) := by
  rcases reachesEnd_or_wrap hb with hr | ⟨hopt, hend⟩
  · exact (frame_shiftSlotsLeftAndInsert hr hp m hload hs hn f).sameCounters hp hb
  · have hslot := hp.slot_fits hn
    have hmul := Nat.mul_le_mul_left c.k hs
    rw [shiftSlotsLeftAndInsert]
    simp only [if_pos hopt, blockEnd_wrap hend]
    rw [Nat.mul_comm n, Nat.mul_comm start]
    rw [Nat.mul_succ] at hslot
    refine (sameCounters_store fun q _ hq => apart_of_lt ?_).trans (sameCounters_store fun q _ hq => apart_of_lt ?_)
    · omega
    · omega

theorem sameCounters_shiftSlotsRightAndInsert {start n : Nat} (hs : start < n) (hn : n ≤ c.slotsPerBlock) :
    SameCounters c x m (shiftSlotsRightAndInsert c x f start n block m) := by
  rcases reachesEnd_or_wrap hb with hr | ⟨hopt, hend⟩
  · exact (frame_shiftSlotsRightAndInsert hr hp m hload hs hn f).sameCounters hp hb
  · have hfit := hp.slots_fit
    have hmul := Nat.mul_le_mul_left c.k hn
    have hstart := Nat.mul_le_mul_left c.k (show start + 1 ≤ n from hs)
    rw [Nat.mul_succ] at hstart
    rw [shiftSlotsRightAndInsert]
    simp only [if_pos hopt, blockEnd_wrap hend]
    rw [Nat.mul_comm n, Nat.mul_comm start]
    refine (sameCounters_store fun q _ hq => apart_of_lt ?_).trans (sameCounters_store fun q _ hq => apart_of_lt ?_)
    · omega
    · omega

end

theorem sameCounters_setOta (hp : Params c) {block : r.T} (hb : 512 ∣ block.toNat) (m : Mem) (i : r.T) :
    SameCounters c x m (setOta c x i block m) := by
  have hfits := hp.fits
  rw [setOta_eq (reaches_of_dvd hb) hp]
  split
  · rename_i hota
    have hlt := Nat.mod_lt i.toNat hota
    exact sameCounters_store fun q h1 h2 => apart_of_block hp hb (by omega) (by omega)
  · exact .refl c x m

/-! ### Counters -/

section
variable (hp : Params c) {block : r.T} (hb : 512 ∣ block.toNat) (m : Mem) {i v : r.T}
  (hi : i.toNat < c.bucketsPerBlock)
  (hv : v.toNat ≤ c.associativity)
include hp hb hi hv

theorem counter_setSlotCount {block' : r.T} (hb' : 512 ∣ block'.toNat) {i' : Nat} (hi' : i' < c.bucketsPerBlock) :
    counter c (setSlotCount c x i block v m) (base x block') i' =
      if block' = block ∧ i' = i.toNat then v.toNat else counter c m (base x block') i' := by
  have hsmall := Nat.lt_of_le_of_lt hv hp.assoc_lt
  have hframe := frame_store_counter hp m (b := base x block) hi (v.setWidth c.counterSize)
  rw [setSlotCount_eq (reaches_of_dvd hb) hp m hi]
  by_cases heq : block' = block
  · rw [heq]
    by_cases hii : i' = i.toNat
    · rw [if_pos ⟨rfl, hii⟩, hii, counter, Mem.load_store, BitVec.toNat_setWidth, Nat.mod_eq_of_lt hsmall]
    · rw [if_neg fun h => hii h.2]
      exact hframe.counters i' hi' hii
  · have hne : block'.toNat ≠ block.toNat := fun h => heq (BitVec.eq_of_toNat_eq h)
    have hcounter := Params.counter_fits hi'
    have hfits := hp.fits
    rw [if_neg fun h => heq h.1]
    refine congrArg BitVec.toNat (load_congr fun q h1 h2 => hframe.outside q ?_)
    unfold base at *
    omega

end

/-! ## Probes -/

/-- A probe describes its bucket and its block in `m`. -/
structure Probed (c : Config r) (x : CuckooContainer r) (m : Mem) (p : Probe r) : Prop where
  aligned : 512 ∣ p.blockOffset.toNat
  bucket : p.bucketIndex.toNat < c.bucketsPerBlock
  count : p.slotCount.toNat = counter c m (base x p.blockOffset) p.bucketIndex.toNat
  occupied : p.occupiedSlots.toNat = slotsBefore c m (base x p.blockOffset) c.bucketsPerBlock
  free : p.free = true → p.occupiedSlots.toNat ≠ c.slotsPerBlock ∧ p.slotCount.toNat ≠ c.associativity
  full : p.free = false → p.occupiedSlots.toNat = c.slotsPerBlock ∨ p.slotCount.toNat = c.associativity

/-- The parameters under which the counters of a block can be read and summed up. -/
structure Readable (c : Config r) : Prop where
  params : Params c
  loads : 1 ≤ c.counterToLoad
  slots : 1 ≤ c.slotsPerBlock

section
variable (hc : Readable c) {m : Mem} (hwf : AllWellFormed c x m) {block : r.T} (hb : 512 ∣ block.toNat)
include hc hwf hb

theorem toNat_sumCounters {n : Nat} (hn : n ≤ c.bucketsPerBlock) :
    (sumCounters c x n block m).toNat = slotsBefore c m (base x block) n := by
  have hp := hc.params
  have hfit := hp.slots_fit
  have hk := Nat.le_mul_of_pos_left c.slotsPerBlock hp.k_pos
  have hslots := hc.slots
  have hmul := Nat.mul_le_mul_left c.counterSize hn
  have hoff : c.otaOffset = c.counterSize * c.bucketsPerBlock := Nat.mul_comm _ _
  have hmono := slotsBefore_mono c m (base x block) hn
  have hle := (hwf block hb).sum_le
  have hslots512 := hp.slots_le
  rw [sumCounters_eq (reaches_of_dvd hb) m hc.loads hn (by omega), BitVec.toNat_ofNat]
  exact Nat.mod_eq_of_lt (lt_two_pow_bits (by unfold slotsBefore at *; omega))

theorem toNat_getOccupiedSlots :
    (getOccupiedSlots c x block m).toNat = slotsBefore c m (base x block) c.bucketsPerBlock :=
  toNat_sumCounters hc hwf hb (Nat.le_refl _)

theorem toNat_getSlotOffset {i : r.T} (hi : i.toNat < c.bucketsPerBlock) :
    (getSlotOffset c x i block m).toNat = slotsBefore c m (base x block) i.toNat :=
  toNat_sumCounters hc hwf hb (Nat.le_of_lt hi)

omit hb in
theorem probed_isFree {offset : r.T} (hoff : 512 ∣ (offset <<< 3).toNat) (address : r.T) :
    Probed c x m (isFree c x offset address m) := by
  have hb := dvd_blockOffset (c := c) hoff address
  have hbucket : (mod c.bucketsPerBlock address).toNat < c.bucketsPerBlock := by
    have := hc.params.buckets_le
    rw [toNat_mod (by omega)]
    exact Nat.mod_lt _ hc.params.buckets_pos
  refine ⟨hb, hbucket, toNat_getSlotCount (reaches_of_dvd hb) hc.params (hwf _ hb) hbucket,
    toNat_getOccupiedSlots hc hwf hb,
    fun h => ?_, fun h => ?_⟩
  · simpa [isFree] using h
  · have hor := h
    simp only [isFree, Bool.and_eq_false_iff, bne_eq_false_iff_eq] at hor
    exact hor

end

/-- The cursor is in a filter whose counters are in range. -/
structure Cursor.Valid (c : Config r) (x : CuckooContainer r) (v : Cursor r) : Prop where
  wellFormed : AllWellFormed c x v.mem
  probed : Probed c x v.mem v.probe

/-! ## The slots that are looked at -/

theorem mem_scan (hc : Readable c) {m : Mem} (hwf : AllWellFormed c x m) {block : r.T}
    (hb : 512 ∣ block.toNat) (n : Nat) :
    ∀ i, i + n ≤ c.bucketsPerBlock → ∀ a ∈ scan c x block m n i (slotsBefore c m (base x block) i),
      i ≤ a.1 ∧ a.1 < i + n ∧ slotsBefore c m (base x block) a.1 ≤ a.2 ∧
        a.2 < slotsBefore c m (base x block) a.1 + counter c m (base x block) a.1 := by
  induction n with
  | zero => exact fun i _ a ha => absurd ha List.not_mem_nil
  | succ n ih =>
    intro i hi a ha
    have hbuckets := hc.params.buckets_le
    have hindex : (BitVec.ofNat r.bits i).toNat = i := toNat_ofNat_of_le (by omega)
    have hcount :=
      toNat_getSlotCount (x := x) (reaches_of_dvd hb) hc.params (hwf block hb) (i := BitVec.ofNat r.bits i)
      (by rw [hindex]; omega)
    rw [hindex] at hcount
    simp only [scan] at ha
    rw [hcount, ← slotsBefore_succ] at ha
    rcases List.mem_append.mp ha with ha | ha
    · obtain ⟨l, hl, rfl⟩ := List.mem_map.mp ha
      have hlt := List.mem_range.mp hl
      exact ⟨Nat.le_refl _, by omega, Nat.le_add_right _ _, Nat.add_lt_add_left hlt _⟩
    · obtain ⟨h1, h2, h3⟩ := ih (i + 1) (by omega) a ha
      exact ⟨by omega, by omega, h3⟩

theorem length_scan (hc : Readable c) {m : Mem} (hwf : AllWellFormed c x m) {block : r.T}
    (hb : 512 ∣ block.toNat) (n : Nat) :
    ∀ i j, i + n ≤ c.bucketsPerBlock →
      slotsBefore c m (base x block) i + (scan c x block m n i j).length =
        slotsBefore c m (base x block) (i + n) := by
  induction n with
  | zero => exact fun i j _ => rfl
  | succ n ih =>
    intro i j hi
    have hbuckets := hc.params.buckets_le
    have hindex : (BitVec.ofNat r.bits i).toNat = i := toNat_ofNat_of_le (by omega)
    have hcount :=
      toNat_getSlotCount (x := x) (reaches_of_dvd hb) hc.params (hwf block hb) (i := BitVec.ofNat r.bits i)
      (by rw [hindex]; omega)
    rw [hindex] at hcount
    simp only [scan]
    rw [List.length_append, List.length_map, List.length_range, hcount, ← Nat.add_assoc, ← slotsBefore_succ,
      ih (i + 1) _ (by omega)]
    exact congrArg _ (by omega)

theorem snd_scan (c : Config r) (x : CuckooContainer r) (block : r.T) (m : Mem) (n : Nat) :
    ∀ i j, (scan c x block m n i j).map Prod.snd = List.range' j (scan c x block m n i j).length := by
  induction n with
  | zero => exact fun i j => rfl
  | succ n ih =>
    intro i j
    simp only [scan]
    rw [List.map_append, List.map_map, ih, List.length_append, List.length_map, List.length_range,
      ← List.range'_append_1, List.range'_eq_map_range (s := j)]
    rfl

theorem getLast_scan {c : Config r} {x : CuckooContainer r} {block : r.T} {m : Mem} {n i j : Nat}
    (h : scan c x block m n i j ≠ []) :
    ((scan c x block m n i j).getLast h).2 + 1 = j + (scan c x block m n i j).length := by
  have hlast :=
    List.getLast_map (f := Prod.snd) (l := scan c x block m n i j) (h := fun h' => h (List.map_eq_nil_iff.mp h'))
  simp only [snd_scan] at hlast
  rw [← hlast, List.getLast_range']
  have := List.length_pos_iff.mpr h
  omega

end PartitionedFilters.Cuckoo.Morton

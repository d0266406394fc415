import PartitionedFilters.CuckooSound
import PartitionedFilters.MortonVictim

/-!
# Victims of a block overflow

The loop of `insert` keeps the counters of every block in range, so a full block
whose bucket has room holds a fingerprint in another bucket, unless the block is
smaller than a bucket.
-/

namespace PartitionedFilters.Cuckoo.Morton

variable {r : RegisterSize} {c : Config r} {x : CuckooContainer r}

/-! ## Insertion into a free bucket -/

/-- The parameters, the array and the partition with which blocks can be written. -/
structure Writable (c : Config r) (x : CuckooContainer r) (offset : r.T) : Prop extends Readable c where
  slotsToLoad_pos : 1 ≤ c.slotsToLoad
  filter_ge : 64 ≤ x.filter
  aligned : 512 ∣ (offset <<< 3).toNat

section
variable {offset : r.T} (hw : Writable c x offset) {v : Cursor r} (hv : v.Valid c x)
include hw hv

theorem Cursor.Valid.toNat_slotOffset : (getSlotOffset c x v.probe.bucketIndex v.probe.blockOffset v.mem).toNat =
    slotsBefore c v.mem (base x v.probe.blockOffset) v.probe.bucketIndex.toNat :=
  toNat_getSlotOffset hw.toReadable hv.wellFormed hv.probed.aligned hv.probed.bucket

theorem Cursor.Valid.toNat_end :
    (getSlotOffset c x v.probe.bucketIndex v.probe.blockOffset v.mem + v.probe.slotCount).toNat =
      slotsBefore c v.mem (base x v.probe.blockOffset) (v.probe.bucketIndex.toNat + 1) := by
  have hle := slotsBefore_add_le (hv.wellFormed _ hv.probed.aligned) hv.probed.bucket
  have hslots := hw.params.slots_le
  rw [BitVec.toNat_add, hv.toNat_slotOffset hw, hv.probed.count, slotsBefore_succ]
  exact Nat.mod_eq_of_lt (lt_two_pow_bits (by omega))

theorem Cursor.Valid.toNat_slotCount_succ (h : v.probe.slotCount.toNat ≠ c.associativity) :
    (v.probe.slotCount + 1).toNat = counter c v.mem (base x v.probe.blockOffset) v.probe.bucketIndex.toNat + 1 ∧
      counter c v.mem (base x v.probe.blockOffset) v.probe.bucketIndex.toNat < c.associativity := by
  have hle := (hv.wellFormed _ hv.probed.aligned).counter_le _ hv.probed.bucket
  have hfits := hw.params.assoc_fits
  rw [hv.probed.count] at h
  have hlt := Nat.lt_of_le_of_ne hle h
  have hone : (1 : r.T).toNat = 1 := BitVec.toNat_one r.bits_pos
  refine ⟨?_, hlt⟩
  rw [BitVec.toNat_add, hv.probed.count, hone]
  exact Nat.mod_eq_of_lt (by omega)

/-- The slots after the bucket make room without touching a counter. -/
theorem sameCounters_makeRoom (hfree : v.probe.free = true) (f : r.T) :
    SameCounters c x v.mem (shiftSlotsLeftAndInsert c x f
      (getSlotOffset c x v.probe.bucketIndex v.probe.blockOffset v.mem + v.probe.slotCount).toNat
        v.probe.occupiedSlots.toNat
      v.probe.blockOffset v.mem) := by
  have hroom := (hv.probed.free hfree).1
  have hle := (hv.wellFormed _ hv.probed.aligned).sum_le
  have hmono := slotsBefore_mono c v.mem (base x v.probe.blockOffset) (Nat.succ_le_of_lt hv.probed.bucket)
  rw [hv.probed.occupied] at hroom
  refine sameCounters_shiftSlotsLeftAndInsert hw.params hw.filter_ge hv.probed.aligned v.mem f
    hw.slotsToLoad_pos ?_ ?_
  · rw [hv.toNat_end hw, hv.probed.occupied]
    exact hmono
  · rw [hv.probed.occupied]
    omega

theorem counter_bucketInsert (hfree : v.probe.free = true) (f : r.T) {block : r.T} (hb : 512 ∣ block.toNat)
    {i : Nat} (hi : i < c.bucketsPerBlock) :
    counter c (bucketInsert c x f v.probe.bucketIndex v.probe.blockOffset
        (getSlotOffset c x v.probe.bucketIndex v.probe.blockOffset v.mem) v.probe.slotCount
          v.probe.occupiedSlots v.mem)
        (base x block) i =
      if block = v.probe.blockOffset ∧ i = v.probe.bucketIndex.toNat then counter c v.mem (base x block) i + 1
      else counter c v.mem (base x block) i := by
  obtain ⟨hsucc, hlt⟩ := hv.toNat_slotCount_succ hw (hv.probed.free hfree).2
  rw [bucketInsert, counter_setSlotCount hw.params hv.probed.aligned _ hv.probed.bucket (by omega) hb hi]
  split
  · rename_i h
    rw [hsucc, h.1, h.2]
  · exact sameCounters_makeRoom hw hv hfree f block hb i hi

theorem wellFormed_bucketInsert (hfree : v.probe.free = true) (f : r.T) :
    AllWellFormed c x (bucketInsert c x f v.probe.bucketIndex v.probe.blockOffset
      (getSlotOffset c x v.probe.bucketIndex v.probe.blockOffset v.mem) v.probe.slotCount
        v.probe.occupiedSlots v.mem) := by
  obtain ⟨hroom, hcount⟩ := hv.probed.free hfree
  obtain ⟨-, hlt⟩ := hv.toNat_slotCount_succ hw hcount
  intro block hb
  have hcounter := fun {i : Nat} (hi : i < c.bucketsPerBlock) => counter_bucketInsert hw hv hfree f hb hi
  have hwf := hv.wellFormed block hb
  by_cases heq : block = v.probe.blockOffset
  · subst heq
    refine ⟨fun i hi => ?_, ?_⟩
    · rw [hcounter hi]
      split
      · rename_i hib
        rw [hib.2]
        exact hlt
      · exact hwf.counter_le i hi
    · have hupdate :=
        BucketArray.begins_update _ _ hv.probed.bucket fun i hi hne => (hcounter hi).trans (if_neg fun h => hne h.2)
      have hsum := hwf.sum_le
      rw [hcounter hv.probed.bucket, if_pos ⟨rfl, rfl⟩] at hupdate
      rw [hv.probed.occupied] at hroom
      unfold slotsBefore at *
      unfold BucketArray.begins at hupdate
      omega
  · exact hwf.congr fun i hi => (hcounter hi).trans (if_neg fun h => heq h.1)

end

/-! ## Eviction -/

/-- `evict_victim` takes its second branch. -/
structure BlockOverflow (c : Config r) (v : Cursor r) : Prop where
  full : v.probe.free = false
  room : v.probe.slotCount.toNat ≠ c.associativity

def laterSlots (c : Config r) (x : CuckooContainer r) (slotOffset : r.T) (v : Cursor r) : List (Nat × Nat) :=
  scan c x v.probe.blockOffset v.mem (c.bucketsPerBlock - (v.probe.bucketIndex.toNat + 1))
    (v.probe.bucketIndex.toNat + 1)
    (slotOffset + v.probe.slotCount).toNat

def earlierSlots (c : Config r) (x : CuckooContainer r) (v : Cursor r) : List (Nat × Nat) :=
  scan c x v.probe.blockOffset v.mem v.probe.bucketIndex.toNat 0 0

structure IsVictim (c : Config r) (x : CuckooContainer r) (v : Cursor r) (candidate : Nat × Nat) : Prop where
  lt : candidate.1 < c.bucketsPerBlock
  ne : candidate.1 ≠ v.probe.bucketIndex.toNat
  le : slotsBefore c v.mem (base x v.probe.blockOffset) candidate.1 ≤ candidate.2
  slot_lt : candidate.2 < slotsBefore c v.mem (base x v.probe.blockOffset) (candidate.1 + 1)

theorem IsVictim.counter_pos {v : Cursor r} {candidate : Nat × Nat} (h : IsVictim c x v candidate) :
    0 < counter c v.mem (base x v.probe.blockOffset) candidate.1 := by
  have hlt := Nat.lt_of_le_of_lt h.le h.slot_lt
  rw [slotsBefore_succ] at hlt
  omega

section
variable {offset : r.T} (hw : Writable c x offset) {v : Cursor r} (hv : v.Valid c x)
include hw hv

theorem mem_laterSlots {candidate : Nat × Nat}
    (h : candidate ∈ laterSlots c x (getSlotOffset c x v.probe.bucketIndex v.probe.blockOffset v.mem) v) :
    IsVictim c x v candidate ∧ v.probe.bucketIndex.toNat < candidate.1 := by
  have hbucket := hv.probed.bucket
  rw [laterSlots, hv.toNat_end hw] at h
  obtain ⟨h1, h2, h3, h4⟩ := mem_scan hw.toReadable hv.wellFormed hv.probed.aligned
    (c.bucketsPerBlock - (v.probe.bucketIndex.toNat + 1)) (v.probe.bucketIndex.toNat + 1) (by omega) candidate h
  exact ⟨⟨by omega, by omega, h3, by rwa [slotsBefore_succ]⟩, by omega⟩

theorem mem_earlierSlots {candidate : Nat × Nat} (h : candidate ∈ earlierSlots c x v) :
    IsVictim c x v candidate ∧ candidate.1 < v.probe.bucketIndex.toNat := by
  have hbucket := hv.probed.bucket
  have hzero : slotsBefore c v.mem (base x v.probe.blockOffset) 0 = 0 := Finset.sum_range_zero _
  obtain ⟨-, h2, h3, h4⟩ :=
    mem_scan hw.toReadable hv.wellFormed hv.probed.aligned v.probe.bucketIndex.toNat 0 (by omega)
    candidate (by rwa [hzero])
  exact ⟨⟨by omega, by omega, h3, by rwa [slotsBefore_succ]⟩, by omega⟩

theorem length_earlierSlots :
    (earlierSlots c x v).length = slotsBefore c v.mem (base x v.probe.blockOffset) v.probe.bucketIndex.toNat := by
  have hbucket := hv.probed.bucket
  have hearlier :=
    length_scan hw.toReadable hv.wellFormed hv.probed.aligned v.probe.bucketIndex.toNat 0 0 (by omega)
  rw [Nat.zero_add, slotsBefore, Finset.range_zero, Finset.sum_empty, Nat.zero_add] at hearlier
  exact hearlier

theorem length_laterSlots : slotsBefore c v.mem (base x v.probe.blockOffset) (v.probe.bucketIndex.toNat + 1) +
    (laterSlots c x (getSlotOffset c x v.probe.bucketIndex v.probe.blockOffset v.mem) v).length =
      v.probe.occupiedSlots.toNat := by
  have hbucket := hv.probed.bucket
  have hlater := length_scan hw.toReadable hv.wellFormed hv.probed.aligned
    (c.bucketsPerBlock - (v.probe.bucketIndex.toNat + 1)) (v.probe.bucketIndex.toNat + 1)
    (getSlotOffset c x v.probe.bucketIndex v.probe.blockOffset v.mem + v.probe.slotCount).toNat (by omega)
  rw [Nat.add_sub_cancel' (Nat.succ_le_of_lt hbucket)] at hlater
  rw [hv.probed.occupied]
  exact hlater

omit hw in
theorem BlockOverflow.occupied_eq (h : BlockOverflow c v) : v.probe.occupiedSlots.toNat = c.slotsPerBlock :=
  (hv.probed.full h.full).resolve_right h.room

theorem BlockOverflow.slots_ne_nil (h : BlockOverflow c v) (hsize : c.associativity ≤ c.slotsPerBlock) :
    laterSlots c x (getSlotOffset c x v.probe.bucketIndex v.probe.blockOffset v.mem) v ++
      earlierSlots c x v ≠ [] := by
  intro hnil
  have hroom := (hv.toNat_slotCount_succ hw h.room).2
  have hlater := length_laterSlots hw hv
  have hearlier := length_earlierSlots hw hv
  obtain ⟨h1, h2⟩ := List.append_eq_nil_iff.mp hnil
  rw [h1, slotsBefore_succ, h.occupied_eq hv] at hlater
  rw [h2] at hearlier
  simp only [List.length_nil] at hlater hearlier
  omega

omit hw in
theorem IsVictim.toNat_count (hp : Params c) {candidate : Nat × Nat} (hi : IsVictim c x v candidate) {m : Mem}
    (hm : counter c m (base x v.probe.blockOffset) candidate.1 =
      counter c v.mem (base x v.probe.blockOffset) candidate.1) :
    (getSlotCount c x (BitVec.ofNat r.bits candidate.1) v.probe.blockOffset m).toNat =
      counter c v.mem (base x v.probe.blockOffset) candidate.1 := by
  have hle := (hv.wellFormed _ hv.probed.aligned).counter_le _ hi.lt
  have hfits := hp.assoc_fits
  have hbuckets := hp.buckets_le
  have hlt := hi.lt
  have hcandidate : (BitVec.ofNat r.bits candidate.1).toNat = candidate.1 := toNat_ofNat_of_le (by omega)
  rw [getSlotCount_eq (reaches_of_dvd hv.probed.aligned) hp m (by rwa [hcandidate]), hcandidate, hm,
    BitVec.toNat_ofNat]
  exact Nat.mod_eq_of_lt (by omega)

/-- The counter of the victim when the bucket of the carried fingerprint has gained a slot. -/
theorem BlockOverflow.counter_reread (h : BlockOverflow c v) {candidate : Nat × Nat} (hi : IsVictim c x v candidate)
    {m : Mem} (hm : SameCounters c x v.mem m) :
    counter c (setSlotCount c x v.probe.bucketIndex v.probe.blockOffset (v.probe.slotCount + 1) m)
      (base x v.probe.blockOffset)
      candidate.1 = counter c v.mem (base x v.probe.blockOffset) candidate.1 := by
  obtain ⟨hsucc, hlt⟩ := hv.toNat_slotCount_succ hw h.room
  have hb := hv.probed.aligned
  rw [counter_setSlotCount hw.params hb m hv.probed.bucket (by omega) hb hi.lt, if_neg fun h => hi.ne h.2]
  exact hm _ hb _ hi.lt

theorem counter_relocate (h : BlockOverflow c v) {candidate : Nat × Nat} (hi : IsVictim c x v candidate) {m : Mem}
    (hm : SameCounters c x v.mem m) {count : r.T}
    (hcount : count.toNat = counter c v.mem (base x v.probe.blockOffset) candidate.1) (index : Nat) {block : r.T}
    (hb : 512 ∣ block.toNat) {i : Nat} (hlt : i < c.bucketsPerBlock) :
    counter c (relocate c x index offset v candidate count m).mem (base x block) i =
      if block = v.probe.blockOffset ∧ i = candidate.1 then counter c v.mem (base x block) i - 1
      else if block = v.probe.blockOffset ∧ i = v.probe.bucketIndex.toNat then counter c v.mem (base x block) i + 1
      else counter c v.mem (base x block) i := by
  obtain ⟨hsucc, hroom⟩ := hv.toNat_slotCount_succ hw h.room
  have hp := hw.params
  have hblock := hv.probed.aligned
  have hpos := hi.counter_pos
  have hle := (hv.wellFormed _ hblock).counter_le _ hi.lt
  have hbuckets := hp.buckets_le
  have hi_lt := hi.lt
  have hcandidate : (BitVec.ofNat r.bits candidate.1).toNat = candidate.1 := toNat_ofNat_of_le (by omega)
  have hone : (1 : r.T).toNat = 1 := BitVec.toNat_one r.bits_pos
  have hpred : (count - 1).toNat = counter c v.mem (base x v.probe.blockOffset) candidate.1 - 1 := by
    rw [BitVec.toNat_sub_of_le (BitVec.le_def.mpr (by omega)), hone, hcount]
  rw [relocate, sameCounters_setOta hp hblock _ _ _ hb i hlt,
    counter_setSlotCount hp hblock _ (by rwa [hcandidate]) (by omega) hb hlt, hcandidate,
    counter_setSlotCount hp hblock m hv.probed.bucket (by omega) hb hlt, hm _ hb i hlt]
  split
  · rename_i hib
    rw [hpred, hib.1, hib.2]
  · split
    · rename_i hib
      rw [hsucc, hib.1, hib.2]
    · rfl

/-- The bucket of the carried fingerprint gains a slot, that of the victim loses one. -/
theorem exchanges_relocate (h : BlockOverflow c v) {candidate : Nat × Nat} (hi : IsVictim c x v candidate) {m : Mem}
    (hm : SameCounters c x v.mem m) {count : r.T}
    (hcount : count.toNat = counter c v.mem (base x v.probe.blockOffset) candidate.1) (index : Nat) :
    BucketArray.Exchanges (counter c v.mem (base x v.probe.blockOffset))
      (counter c (relocate c x index offset v candidate count m).mem (base x v.probe.blockOffset)) c.bucketsPerBlock
      v.probe.bucketIndex.toNat candidate.1 := by
  have hcounter := fun {i : Nat} (hlt : i < c.bucketsPerBlock) =>
    counter_relocate hw hv h hi hm hcount index hv.probed.aligned hlt
  have hpos := hi.counter_pos
  constructor
  · rw [hcounter hv.probed.bucket, if_neg fun h => hi.ne h.2.symm, if_pos ⟨rfl, rfl⟩]
  · rw [hcounter hi.lt, if_pos ⟨rfl, rfl⟩]
    omega
  · intro i hlt hne hne'
    rw [hcounter hlt, if_neg fun h => hne' h.2, if_neg fun h => hne h.2]

theorem wellFormed_relocate (h : BlockOverflow c v) {candidate : Nat × Nat} (hi : IsVictim c x v candidate)
    {m : Mem} (hm : SameCounters c x v.mem m) {count : r.T}
    (hcount : count.toNat = counter c v.mem (base x v.probe.blockOffset) candidate.1) (index : Nat) :
    AllWellFormed c x (relocate c x index offset v candidate count m).mem := by
  intro block hb
  have hwf := hv.wellFormed block hb
  by_cases heq : block = v.probe.blockOffset
  · subst heq
    obtain ⟨-, hroom⟩ := hv.toNat_slotCount_succ hw h.room
    have hex := exchanges_relocate hw hv h hi hm hcount index
    refine ⟨fun i hlt => ?_, (hex.begins_of_lt (Nat.le_refl _) hv.probed.bucket hi.lt).trans_le hwf.sum_le⟩
    rw [counter_relocate hw hv h hi hm hcount index hb hlt]
    split
    · exact Nat.le_trans (Nat.sub_le ..) (hwf.counter_le i hlt)
    · split
      · rename_i hib
        rw [hib.2]
        exact hroom
      · exact hwf.counter_le i hlt
  · exact hwf.congr fun i hlt =>
      (counter_relocate hw hv h hi hm hcount index hb hlt).trans
        ((if_neg fun h => heq h.1).trans (if_neg fun h => heq h.1))

theorem valid_relocate (h : BlockOverflow c v) {candidate : Nat × Nat} (hi : IsVictim c x v candidate) {m : Mem}
    (hm : SameCounters c x v.mem m) {count : r.T}
    (hcount : count.toNat = counter c v.mem (base x v.probe.blockOffset) candidate.1) (index : Nat) :
    (relocate c x index offset v candidate count m).Valid c x := by
  have hocc := h.occupied_eq hv
  have hwf := wellFormed_relocate hw hv h hi hm hcount index
  have hex := exchanges_relocate hw hv h hi hm hcount index
  have hothers : ∀ block : r.T, 512 ∣ block.toNat → block ≠ v.probe.blockOffset → ∀ i < c.bucketsPerBlock,
      counter c (relocate c x index offset v candidate count m).mem (base x block) i =
        counter c v.mem (base x block) i :=
    fun block hb hne i hlt => (counter_relocate hw hv h hi hm hcount index hb hlt).trans
      ((if_neg fun h => hne h.1).trans (if_neg fun h => hne h.1))
  have hp := probed_isFree hw.toReadable hv.wellFormed hw.aligned (victimAddress c x index v candidate)
  refine ⟨hwf, ?_⟩
  generalize hr : relocate c x index offset v candidate count m = v' at *
  have hprobe : v'.probe = { isFree c x offset (victimAddress c x index v candidate) v.mem with
      slotCount := getSlotCount c x (isFree c x offset (victimAddress c x index v candidate) v.mem).bucketIndex
        (isFree c x offset (victimAddress c x index v candidate) v.mem).blockOffset v'.mem } := by
    rw [← hr]
    rfl
  rw [hprobe]
  generalize isFree c x offset (victimAddress c x index v candidate) v.mem = p at *
  have hcount' := toNat_getSlotCount (reaches_of_dvd hp.aligned) hw.params (hwf _ hp.aligned) hp.bucket
  by_cases heq : p.blockOffset = v.probe.blockOffset
  · have hfull : p.occupiedSlots.toNat = c.slotsPerBlock := by
      rw [hp.occupied, heq, ← hocc, hv.probed.occupied]
    refine ⟨hp.aligned, hp.bucket, hcount', ?_, fun hfree => absurd hfull (hp.free hfree).1, fun _ => .inl hfull⟩
    rw [hp.occupied, heq]
    exact (hex.begins_of_lt (Nat.le_refl _) hv.probed.bucket hi.lt).symm
  · have hsame := hothers _ hp.aligned heq
    have hold : (getSlotCount c x p.bucketIndex p.blockOffset v'.mem).toNat = p.slotCount.toNat := by
      rw [hcount', hsame _ hp.bucket, hp.count]
    refine ⟨hp.aligned, hp.bucket, hcount', ?_, ?_, ?_⟩
    · rw [hp.occupied]
      exact Finset.sum_congr rfl fun i hi => (hsame i (Finset.mem_range.mp hi)).symm
    · simp only [hold]
      exact hp.free
    · simp only [hold]
      exact hp.full

end

/-! ### Bucket overflow -/

section
variable {offset : r.T} (hw : Writable c x offset) {v : Cursor r} (hv : v.Valid c x) (index : Nat)
include hw hv

theorem valid_evictVictim_bucket (h : v.probe.slotCount.toNat = c.associativity) {randomIndex : Nat}
    (hrandom : randomIndex < c.associativity) :
    (evictVictim c x index randomIndex offset
      (getSlotOffset c x v.probe.bucketIndex v.probe.blockOffset v.mem) v).Valid c x := by
  have hb := hv.probed.aligned
  have hle := slotsBefore_add_le (hv.wellFormed _ hb) hv.probed.bucket
  have hcount := hv.probed.count
  have hslot : (getSlotOffset c x v.probe.bucketIndex v.probe.blockOffset v.mem).toNat + randomIndex <
      c.slotsPerBlock := by
    rw [hv.toNat_slotOffset hw]
    omega
  rw [evictVictim, if_pos h]
  have hsame := (sameCounters_setFingerprint hw.params hw.filter_ge hb v.mem v.fingerprint hslot).trans
    (sameCounters_setOta hw.params hb _ v.probe.bucketIndex)
  have hwf := hsame.wellFormed hv.wellFormed
  exact ⟨hwf, probed_isFree hw.toReadable hwf hw.aligned _⟩

/-! ### Block overflow -/

/-- The memory when no slot that was looked at can move: the carried fingerprint is in the place of the last one. -/
def displaced (c : Config r) (x : CuckooContainer r) (slotOffset : r.T) (v : Cursor r) : Mem :=
  if v.probe.bucketIndex.toNat < ((laterSlots c x slotOffset v ++ earlierSlots c x v).getLastD (0, 0)).1 then
    shiftSlotsLeftAndInsert c x v.fingerprint (slotOffset + v.probe.slotCount).toNat
      (v.probe.occupiedSlots - 1).toNat
      v.probe.blockOffset v.mem
  else setFingerprint c x (slotOffset - 1).toNat v.probe.blockOffset v.fingerprint v.mem

theorem BlockOverflow.toNat_occupied_sub_one (h : BlockOverflow c v) :
    (v.probe.occupiedSlots - 1).toNat = c.slotsPerBlock - 1 := by
  have hocc := h.occupied_eq hv
  have hslots := hw.slots
  have hlt := v.probe.occupiedSlots.isLt
  have hone : (1 : r.T).toNat = 1 := BitVec.toNat_one r.bits_pos
  rw [BitVec.toNat_sub, hone, show 2 ^ r.bits - 1 + v.probe.occupiedSlots.toNat =
    v.probe.occupiedSlots.toNat - 1 + 2 ^ r.bits by omega, Nat.add_mod_right, Nat.mod_eq_of_lt (by omega), hocc]

theorem BlockOverflow.slotOffset_pos {candidate : Nat × Nat} (hi : candidate ∈ earlierSlots c x v) :
    0 < (getSlotOffset c x v.probe.bucketIndex v.probe.blockOffset v.mem).toNat := by
  obtain ⟨hi, hlt⟩ := mem_earlierSlots hw hv hi
  have hmono := slotsBefore_mono c v.mem (base x v.probe.blockOffset) (show candidate.1 + 1 ≤ _ from hlt)
  have := hi.slot_lt
  rw [hv.toNat_slotOffset hw]
  omega

/-- The carried fingerprint has a slot of its bucket, and the slots between it and the victim moved by one. -/
inductive Displacement (c : Config r) (x : CuckooContainer r) (v : Cursor r) (candidate : Nat × Nat) :
    Mem → Prop where
  | left : v.probe.bucketIndex.toNat < candidate.1 →
    Displacement c x v candidate (shiftSlotsLeftAndInsert c x v.fingerprint
      (slotsBefore c v.mem (base x v.probe.blockOffset) (v.probe.bucketIndex.toNat + 1)) candidate.2
        v.probe.blockOffset v.mem)
  | right : candidate.1 < v.probe.bucketIndex.toNat →
    Displacement c x v candidate (shiftSlotsRightAndInsert c x v.fingerprint candidate.2
      (slotsBefore c v.mem (base x v.probe.blockOffset) v.probe.bucketIndex.toNat) v.probe.blockOffset v.mem)
  | last : candidate.1 < v.probe.bucketIndex.toNat →
    candidate.2 + 1 = slotsBefore c v.mem (base x v.probe.blockOffset) v.probe.bucketIndex.toNat →
    Displacement c x v candidate (setFingerprint c x candidate.2 v.probe.blockOffset v.fingerprint v.mem)

omit hw in
/-- The slots that move lie between the bucket and the victim, inside the block. -/
theorem IsVictim.bounds {candidate : Nat × Nat} (hi : IsVictim c x v candidate) : candidate.2 < c.slotsPerBlock ∧
    (v.probe.bucketIndex.toNat < candidate.1 →
      slotsBefore c v.mem (base x v.probe.blockOffset) (v.probe.bucketIndex.toNat + 1) ≤ candidate.2) ∧
    (candidate.1 < v.probe.bucketIndex.toNat →
      candidate.2 < slotsBefore c v.mem (base x v.probe.blockOffset) v.probe.bucketIndex.toNat) := by
  have hsum := (hv.wellFormed _ hv.probed.aligned).sum_le
  have hend := slotsBefore_mono c v.mem (base x v.probe.blockOffset) (show _ + 1 ≤ _ from hi.lt)
  have hle := hi.le
  have hlt := hi.slot_lt
  refine ⟨by omega, fun h => ?_, fun h => ?_⟩
  · have hmono := slotsBefore_mono c v.mem (base x v.probe.blockOffset) (show _ + 1 ≤ _ from h)
    omega
  · have hmono := slotsBefore_mono c v.mem (base x v.probe.blockOffset) (show _ + 1 ≤ _ from h)
    omega

theorem Displacement.sameCounters {candidate : Nat × Nat} (hi : IsVictim c x v candidate) {m : Mem}
    (hd : Displacement c x v candidate m) : SameCounters c x v.mem m := by
  obtain ⟨hlt, hleft, hright⟩ := hi.bounds hv
  have hb := hv.probed.aligned
  have hsum := (hv.wellFormed _ hb).sum_le
  have hend := slotsBefore_mono c v.mem (base x v.probe.blockOffset) (Nat.le_of_lt hv.probed.bucket)
  cases hd with
  | left h =>
    exact sameCounters_shiftSlotsLeftAndInsert hw.params hw.filter_ge hb v.mem v.fingerprint
      hw.slotsToLoad_pos (hleft h) hlt
  | right h =>
    exact sameCounters_shiftSlotsRightAndInsert hw.params hw.filter_ge hb v.mem v.fingerprint hw.slotsToLoad_pos
      (hright h) (by omega)
  | last => exact sameCounters_setFingerprint hw.params hw.filter_ge hb v.mem v.fingerprint hlt

/-- The last slot that is looked at is a victim, and its place is taken. -/
theorem BlockOverflow.displacement_displaced (h : BlockOverflow c v) (hsize : c.associativity ≤ c.slotsPerBlock) :
    IsVictim c x v ((laterSlots c x (getSlotOffset c x v.probe.bucketIndex v.probe.blockOffset v.mem) v ++
        earlierSlots c x v).getLastD (0, 0)) ∧
      Displacement c x v ((laterSlots c x (getSlotOffset c x v.probe.bucketIndex v.probe.blockOffset v.mem) v ++
        earlierSlots c x v).getLastD (0, 0))
        (displaced c x (getSlotOffset c x v.probe.bucketIndex v.probe.blockOffset v.mem) v) := by
  have hne := h.slots_ne_nil hw hv hsize
  have hlater := length_laterSlots hw hv
  have hearlier := length_earlierSlots hw hv
  have hone : (1 : r.T).toNat = 1 := BitVec.toNat_one r.bits_pos
  rw [displaced, List.getLastD_eq_getLast?, List.getLast?_eq_some_getLast hne, Option.getD_some]
  by_cases hnil : earlierSlots c x v = []
  · simp only [hnil, List.append_nil] at hne ⊢
    obtain ⟨hi, hlt⟩ := mem_laterSlots hw hv (List.getLast_mem hne)
    have hlast : _ + 1 = _ := getLast_scan hne
    have hstart := hv.toNat_end hw
    have hocc := h.toNat_occupied_sub_one hw hv
    rw [if_pos hlt, hstart]
    rw [h.occupied_eq hv] at hlater
    have hplace : (v.probe.occupiedSlots - 1).toNat = ((laterSlots c x
        (getSlotOffset c x v.probe.bucketIndex v.probe.blockOffset v.mem) v).getLast hne).2 := by
      unfold laterSlots at *
      omega
    rw [hplace]
    exact ⟨hi, .left hlt⟩
  · simp only [List.getLast_append_of_ne_nil _ hnil]
    obtain ⟨hi, hlt⟩ := mem_earlierSlots hw hv (List.getLast_mem hnil)
    have hlast : _ + 1 = _ := getLast_scan hnil
    have hpos := BlockOverflow.slotOffset_pos hw hv (List.getLast_mem hnil)
    have hoffset := hv.toNat_slotOffset hw
    have hplace : (getSlotOffset c x v.probe.bucketIndex v.probe.blockOffset v.mem - 1).toNat =
        ((earlierSlots c x v).getLast hnil).2 := by
      rw [BitVec.toNat_sub_of_le (BitVec.le_def.mpr (by omega)), hone]
      unfold earlierSlots at *
      omega
    rw [if_neg (by omega), hplace]
    refine ⟨hi, .last hlt ?_⟩
    unfold earlierSlots at *
    omega

theorem evictVictim_block (h : BlockOverflow c v) (hsize : c.associativity ≤ c.slotsPerBlock) (randomIndex : Nat) :
    ∃ candidate count m, IsVictim c x v candidate ∧ Displacement c x v candidate m ∧
      count.toNat = counter c v.mem (base x v.probe.blockOffset) candidate.1 ∧
      evictVictim c x index randomIndex offset (getSlotOffset c x v.probe.bucketIndex v.probe.blockOffset v.mem) v =
        relocate c x index offset v candidate count m := by
  have hp := hw.params
  rw [evictVictim, if_neg h.room]
  simp only
  split
  · rename_i hfind
    obtain ⟨hi, hlt⟩ := mem_laterSlots hw hv (List.mem_of_find?_eq_some hfind)
    exact ⟨_, _, _, hi, .left hlt, hi.toNat_count hv hp rfl, by rw [hv.toNat_end hw]⟩
  · rename_i hfind
    obtain ⟨hi, hlt⟩ := mem_earlierSlots hw hv (List.mem_of_find?_eq_some hfind)
    exact ⟨_, _, _, hi, .right hlt, hi.toNat_count hv hp rfl, by rw [hv.toNat_slotOffset hw]⟩
  · obtain ⟨hi, hd⟩ := h.displacement_displaced hw hv hsize
    exact ⟨_, _, _, hi, hd, hi.toNat_count hv hp (h.counter_reread hw hv hi (hd.sameCounters hw hv hi)), rfl⟩

theorem valid_evictVictim_block (h : BlockOverflow c v) (hsize : c.associativity ≤ c.slotsPerBlock)
    (randomIndex : Nat) :
    (evictVictim c x index randomIndex offset
      (getSlotOffset c x v.probe.bucketIndex v.probe.blockOffset v.mem) v).Valid c x := by
  obtain ⟨candidate, count, m, hi, hd, hcount, heq⟩ := evictVictim_block hw hv index h hsize randomIndex
  rw [heq]
  exact valid_relocate hw hv h hi (hd.sameCounters hw hv hi) hcount index

theorem valid_evictVictim (hfull : v.probe.free = false) (hsize : c.associativity ≤ c.slotsPerBlock)
    {randomIndex : Nat} (hrandom : randomIndex < c.associativity) :
    (evictVictim c x index randomIndex offset
      (getSlotOffset c x v.probe.bucketIndex v.probe.blockOffset v.mem) v).Valid c x := by
  by_cases h : v.probe.slotCount.toNat = c.associativity
  · exact valid_evictVictim_bucket hw hv index h hrandom
  · exact valid_evictVictim_block hw hv index ⟨hfull, h⟩ hsize randomIndex

end

/-! ## The victim -/

/-- What the second branch of `evict_victim` relies on. -/
structure HasVictim (c : Config r) (x : CuckooContainer r) (slotOffset : r.T) (v : Cursor r) : Prop where
  other : ∃ i < c.bucketsPerBlock, i ≠ v.probe.bucketIndex.toNat ∧
    0 < counter c v.mem (base x v.probe.blockOffset) i
  -- a loop assigns `v_i` and the victim
  assigned : laterSlots c x slotOffset v ++ earlierSlots c x v ≠ []
  -- the counter that is decremented, as the loops read it and as it is read after them
  decremented : ∀ candidate ∈ laterSlots c x slotOffset v ++ earlierSlots c x v,
    0 < (getSlotCount c x (BitVec.ofNat r.bits candidate.1) v.probe.blockOffset v.mem).toNat ∧
      0 < (getSlotCount c x (BitVec.ofNat r.bits candidate.1) v.probe.blockOffset
        (setSlotCount c x v.probe.bucketIndex v.probe.blockOffset (v.probe.slotCount + 1)
          (displaced c x slotOffset v))).toNat
  -- where `set_fingerprint` is called with `slot_offset - 1`
  slotOffset_pos : ¬v.probe.bucketIndex.toNat <
    ((laterSlots c x slotOffset v ++ earlierSlots c x v).getLastD (0, 0)).1 →
    0 < slotOffset.toNat

section
variable {offset : r.T} (hw : Writable c x offset) (hsize : c.associativity ≤ c.slotsPerBlock)
include hw hsize

theorem BlockOverflow.hasVictim {v : Cursor r} (h : BlockOverflow c v) (hv : v.Valid c x) :
    HasVictim c x (getSlotOffset c x v.probe.bucketIndex v.probe.blockOffset v.mem) v := by
  have hne := h.slots_ne_nil hw hv hsize
  have hvictim : ∀ candidate ∈ laterSlots c x (getSlotOffset c x v.probe.bucketIndex v.probe.blockOffset v.mem) v ++
      earlierSlots c x v, IsVictim c x v candidate := by
    intro candidate hmem
    rcases List.mem_append.mp hmem with hmem | hmem
    · exact (mem_laterSlots hw hv hmem).1
    · exact (mem_earlierSlots hw hv hmem).1
  refine ⟨?_, hne, fun candidate hmem => ?_, fun hlast => ?_⟩
  · have hi := hvictim _ (List.getLast_mem hne)
    exact ⟨_, hi.lt, hi.ne, hi.counter_pos⟩
  · have hi := hvictim candidate hmem
    obtain ⟨hlast, hd⟩ := h.displacement_displaced hw hv hsize
    have hsame := hd.sameCounters hw hv hlast
    rw [hi.toNat_count hv hw.params rfl,
      hi.toNat_count hv hw.params (h.counter_reread hw hv hi hsame)]
    exact ⟨hi.counter_pos, hi.counter_pos⟩
  · rw [List.getLastD_eq_getLast?, List.getLast?_eq_some_getLast hne, Option.getD_some] at hlast
    rcases List.mem_append.mp (List.getLast_mem hne) with hmem | hmem
    · exact absurd (mem_laterSlots hw hv hmem).2 hlast
    · exact BlockOverflow.slotOffset_pos hw hv hmem

end

/-! ## Insertion -/

def loopEvictions (c : Config r) (x : CuckooContainer r) (index : Nat) (offset : r.T) (random : Nat → Nat) :
    Nat → Nat → Cursor r → List (Cursor r)
  | 0, _, _ => []
  | fuel + 1, i, v =>
    let slotOffset := getSlotOffset c x v.probe.bucketIndex v.probe.blockOffset v.mem
    if v.probe.free then []
    else v :: loopEvictions c x index offset random fuel (i + 1)
      (evictVictim c x index (random i) offset slotOffset v)

def evictions (c : Config r) (x : CuckooContainer r) (value : r.T) (index : Nat) (random : Nat → Nat) (m : Mem) :
    List (Cursor r) :=
  let hash := c.hash value
  let offset := c.offset x index
  let fingerprint := AddresserEntry.fingerprint c.k hash
  let address := c.address1 x index hash
  let p := isFree c x offset address m
  if p.free then []
  else
    let m := setOta c x p.bucketIndex p.blockOffset m
    let address := (x.entries index).computeAlternativeAddress c.mode address fingerprint
    loopEvictions c x index offset random maxIteration 0 ⟨address, fingerprint, isFree c x offset address m, m⟩

/-- Its calls of `evict_victim` find their block in range and full. -/
def Evicts (c : Config r) (x : CuckooContainer r) (l : List (Cursor r)) : Prop :=
  ∀ v ∈ l, v.Valid c x ∧ v.probe.free = false

section
variable {index : Nat} {random : Nat → Nat} (hsize : c.associativity ≤ c.slotsPerBlock)
  (hrandom : ∀ i, random i < c.associativity)
include hsize hrandom

theorem insertLoop_valid {offset : r.T} (hw : Writable c x offset) (fuel : Nat) : ∀ i (v : Cursor r), v.Valid c x →
    AllWellFormed c x (insertLoop c x index offset random fuel i v).2 ∧
      Evicts c x (loopEvictions c x index offset random fuel i v) := by
  induction fuel with
  | zero => exact fun i v hv => ⟨hv.wellFormed, fun v' hv' => absurd hv' List.not_mem_nil⟩
  | succ fuel ih =>
    intro i v hv
    rw [insertLoop, loopEvictions]
    cases hfree : v.probe.free with
    | true =>
      simp only [if_true]
      exact ⟨wellFormed_bucketInsert hw hv hfree _, fun v' hv' => absurd hv' List.not_mem_nil⟩
    | false =>
      obtain ⟨hwf, hevicts⟩ := ih (i + 1) _ (valid_evictVictim hw hv index hfree hsize (hrandom i))
      simp only [Bool.false_eq_true, if_false]
      refine ⟨hwf, fun v' hv' => ?_⟩
      rcases List.mem_cons.mp hv' with rfl | hv'
      · exact ⟨hv, hfree⟩
      · exact hevicts v' hv'

theorem insert_valid (hw : Writable c x (c.offset x index)) (value : r.T) {m : Mem} (hwf : AllWellFormed c x m) :
    AllWellFormed c x (insert c x value index random m).2 ∧ Evicts c x (evictions c x value index random m) := by
  have hp := probed_isFree hw.toReadable hwf hw.aligned (c.address1 x index (c.hash value))
  rw [insert, insertHash, evictions]
  simp only
  cases hfree : (isFree c x (c.offset x index) (c.address1 x index (c.hash value)) m).free with
  | true =>
    simp only [if_true]
    exact ⟨wellFormed_bucketInsert hw (v := ⟨c.address1 x index (c.hash value), 0, _, m⟩) ⟨hwf, hp⟩ hfree _,
      fun v' hv' => absurd hv' List.not_mem_nil⟩
  | false =>
    simp only [Bool.false_eq_true, if_false]
    have hota :=
      (sameCounters_setOta hw.params hp.aligned m (isFree c x (c.offset x index) (c.address1 x index (c.hash value))
      m).bucketIndex).wellFormed hwf
    exact insertLoop_valid hsize hrandom hw maxIteration 0 _ ⟨hota, probed_isFree hw.toReadable hota hw.aligned _⟩

end

/-! ## Runs -/

theorem counter_zero (c : Config r) (b i : Nat) : counter c Mem.zero b i = 0 := by
  have hload : Mem.zero.load (b + c.counterSize * i) c.counterSize = 0 := BitVec.eq_of_getLsbD_eq fun j hj => by
    rw [Mem.getLsbD_load]
    simp [Mem.zero]
  rw [counter, hload]
  exact BitVec.toNat_zero

theorem wellFormed_zero : AllWellFormed c x Mem.zero := by
  intro block _
  refine ⟨fun i _ => counter_zero c _ i ▸ Nat.zero_le _, ?_⟩
  rw [slotsBefore, Finset.sum_eq_zero fun i _ => counter_zero c _ i]
  exact Nat.zero_le _

theorem dvd_lastOffset (entries : Nat → AddresserEntry r) (i : Nat) : 64 ∣ (lastOffset c entries i).toNat := by
  have hdvd : 64 ∣ 2 ^ r.bits := by cases r <;> decide
  induction i with
  | zero => exact ⟨0, BitVec.toNat_zero⟩
  | succ i ih =>
    have hregion : 64 ∣ regionBytes c (entries i).size.toNat := by
      have h512 : (512 : Nat) ∣ 2 ^ 64 := by decide
      have h := (Nat.dvd_mod_iff h512).mpr (Nat.dvd_mul_left 512
        ((alignNumber (entries i).size.toNat c.bucketsPerBlock / c.bucketsPerBlock + 1) % 2 ^ 64))
      exact (Nat.dvd_div_iff_mul_dvd (Nat.dvd_trans (by decide) h)).mpr h
    rw [lastOffset, BitVec.toNat_add, BitVec.toNat_ofNat]
    exact (Nat.dvd_mod_iff hdvd).mpr (Nat.dvd_add ih ((Nat.dvd_mod_iff hdvd).mpr hregion))

theorem dvd_offset (hx : x.offsets = lastOffset c x.entries) (index : Nat) :
    512 ∣ (c.offset x index <<< 3).toNat := by
  have hdvd : 512 ∣ 2 ^ r.bits := by cases r <;> decide
  rw [BitVec.toNat_shiftLeft, Nat.shiftLeft_eq]
  refine (Nat.dvd_mod_iff hdvd).mpr ?_
  unfold Config.offset
  cases c.partitioning with
  | Enabled =>
    rw [hx]
    exact Nat.mul_dvd_mul_right (dvd_lastOffset x.entries index) 8
  | Disabled => exact ⟨0, rfl⟩

def step (c : Config r) (x : CuckooContainer r) (m : Mem) (a : Standard.Call r) : Option Mem :=
  some (insert c x a.value a.index a.random m).2

/-- In every state that calls of `insert` reach, every block overflow finds a victim. -/
def VictimsExist (c : Config r) : Prop :=
  ∀ (s nPartitions filter : Nat) (histogram : Nat → r.T), 64 ≤ filter →
    ∀ (l : List (Standard.Call r)) (m : Mem), (∀ a ∈ l, ∀ i, a.random i < c.associativity) →
      Lts.Run (step c { new c s nPartitions histogram with filter }) Mem.zero l m →
        ∀ a : Standard.Call r, (∀ i, a.random i < c.associativity) →
          ∀ v ∈ evictions c { new c s nPartitions histogram with filter } a.value a.index a.random m,
            v.probe.slotCount.toNat ≠ c.associativity → HasVictim c { new c s nPartitions histogram with filter }
              (getSlotOffset c { new c s nPartitions histogram with filter } v.probe.bucketIndex
                v.probe.blockOffset v.mem) v

theorem wellFormed_of_run (hw : ∀ index, Writable c x (c.offset x index))
    (hsize : c.associativity ≤ c.slotsPerBlock) {l : List (Standard.Call r)} {m : Mem}
    (hrandom : ∀ a ∈ l, ∀ i, a.random i < c.associativity)
    (h : Lts.Run (step c x) Mem.zero l m) : AllWellFormed c x m := by
  induction h with
  | nil => exact wellFormed_zero
  | @snoc m m' l a _ ha ih =>
    have hwf := ih fun b hb => hrandom b (List.mem_append_left _ hb)
    have ha' := hrandom a (List.mem_append_right _ List.mem_cons_self)
    rw [← Option.some.inj ha]
    exact (insert_valid hsize ha' (hw a.index) a.value hwf).1

theorem victimsExist (hc : Readable c) (hload : 1 ≤ c.slotsToLoad) (hsize : c.associativity ≤ c.slotsPerBlock) :
    VictimsExist c := by
  intro s nPartitions filter histogram hfilter
  generalize hx : { new c s nPartitions histogram with filter := filter : CuckooContainer r } = x
  have hoffsets : x.offsets = lastOffset c x.entries := hx ▸ rfl
  have hge : 64 ≤ x.filter := hx ▸ hfilter
  intro l m hl hrun a ha v hv hroom
  have hw : ∀ index, Writable c x (c.offset x index) := fun index => ⟨hc, hload, hge, dvd_offset hoffsets index⟩
  have hwf := wellFormed_of_run hw hsize hl hrun
  obtain ⟨hvalid, hfull⟩ := (insert_valid hsize ha (hw a.index) a.value hwf).2 v hv
  exact BlockOverflow.hasVictim (hw a.index) hsize ⟨hfull, hroom⟩ hvalid

/-- The declared layouts fit a block, and where a block is not smaller than a bucket, every block overflow
finds a victim. -/
theorem declared_victims_exist {variant : CuckooFilterParameter.Variant}
    {associativity compressionRatio otaRatio k : Nat}
    (hd : CuckooFilterParameter.Declared variant associativity compressionRatio otaRatio) (hk : 1 ≤ k)
    (hk32 : k ≤ 32) :
    ∃ p, CuckooFilterParameter.new k variant associativity compressionRatio otaRatio = .ok p ∧
      CuckooFilterParameter.Fits k otaRatio p ∧ ∀ {r : RegisterSize} (c : Config r), c.k = k →
        c.associativity = p.associativity → c.bucketsPerBlock = p.bucketsPerBlock → c.otaSize = p.otaSize →
          1 ≤ c.slotsPerBlock ∧ (1 ≤ c.slotsToLoad → c.associativity ≤ c.slotsPerBlock → VictimsExist c) := by
  obtain ⟨p, hnew, ha, hfits⟩ := hd.fits hk hk32
  refine ⟨p, hnew, hfits, fun c hck hca hcb hco => ?_⟩
  have hc : c.Declared := by
    rw [Config.Declared, hck, hca, hcb, hco]
    exact ⟨hk, hk32, variant, associativity, compressionRatio, otaRatio, hd, hnew⟩
  exact ⟨hc.slots_pos, victimsExist ⟨hc.params, hc.counterToLoad_pos, hc.slots_pos⟩⟩

def optConfig : Config ._32bit :=
  { associativity := 3, bucketsPerBlock := 64, otaSize := 8, k := 8, partitioning := .Enabled, mode := .Lemire,
    hash := murmur }

theorem declared_victims_exist_opt : VictimsExist optConfig := by
  obtain ⟨p, hnew, -, h⟩ := declared_victims_exist (.MortonOpt) (k := 8) (by decide) (by decide)
  obtain rfl := Except.ok.inj hnew
  exact (h optConfig rfl rfl rfl rfl).2 (by decide) (by decide)

/-! ### Blocks smaller than a bucket -/

/-- Blocks of 13 slots, in buckets of up to 15. -/
def skewedConfig : Config ._32bit :=
  { associativity := 15, bucketsPerBlock := 18, otaSize := 0, k := 32, partitioning := .Disabled, mode := .Lemire,
    hash := murmur }

def skewedContainer : CuckooContainer ._32bit :=
  { new skewedConfig 100 1 fun _ => BitVec.ofNat 32 14 with filter := 64 }

/-- Both addresses of the key are bucket 8. -/
def skewedCall : Standard.Call ._32bit := ⟨3, 0, fun _ => 0⟩

theorem skewed_declared : skewedConfig.Declared :=
  ⟨by decide, by decide, .Morton, 15, 5, 0, .Morton (by decide) (by decide) (by decide) (by decide), rfl⟩

theorem skewed_writable : Writable skewedConfig skewedContainer 0 where
  params := skewed_declared.params
  loads := skewed_declared.counterToLoad_pos
  slots := skewed_declared.slots_pos
  slotsToLoad_pos := by decide
  filter_ge := by decide
  aligned := by decide

theorem skewed_address : skewedConfig.address1 skewedContainer 0 (murmur (3 : RegisterSize._32bit.T)) = 8 ∧
    (skewedContainer.entries 0).computeAlternativeAddress skewedConfig.mode 8
      (AddresserEntry.fingerprint skewedConfig.k (murmur (3 : RegisterSize._32bit.T))) = 8 := by
  decide +kernel

theorem skewed_offset : skewedConfig.offset skewedContainer 0 = 0 := rfl

theorem skewed_probe (m : Mem) : (isFree skewedConfig skewedContainer 0 8 m).bucketIndex.toNat = 8 ∧
    (isFree skewedConfig skewedContainer 0 8 m).blockOffset = 0 := by
  simp only [isFree]
  decide

/-- The bucket of the key after `j` calls, and the other buckets of its block. -/
def Skewed (m : Mem) (j : Nat) : Prop :=
  AllWellFormed skewedConfig skewedContainer m ∧
    ∀ i < 18, counter skewedConfig m (base skewedContainer 0) i = if i = 8 then j else 0

namespace Skewed
variable {m : Mem} {j : Nat} (h : Skewed m j)
include h

theorem probe : Probed skewedConfig skewedContainer m (isFree skewedConfig skewedContainer 0 8 m) :=
  probed_isFree skewed_writable.toReadable h.1 skewed_writable.aligned 8

theorem slotCount_eq : (isFree skewedConfig skewedContainer 0 8 m).slotCount.toNat = j :=
  h.probe.count.trans (h.2 8 (by decide))

theorem occupiedSlots_eq : (isFree skewedConfig skewedContainer 0 8 m).occupiedSlots.toNat = j := by
  have hsum : slotsBefore skewedConfig m (base skewedContainer 0) 18 =
      ∑ i ∈ Finset.range 18, if i = 8 then j else 0 :=
    Finset.sum_congr rfl fun i hi => h.2 i (Finset.mem_range.mp hi)
  rw [Finset.sum_ite_eq' (Finset.range 18) 8 fun _ => j, if_pos (by decide)] at hsum
  exact h.probe.occupied.trans hsum

theorem next (hj : j < 13) : ∃ m', step skewedConfig skewedContainer m skewedCall = some m' ∧
    Skewed m' (j + 1) := by
  have hfree : (isFree skewedConfig skewedContainer 0 8 m).free = true := by
    have hslots : skewedConfig.slotsPerBlock = 13 := by decide
    have hassoc : skewedConfig.associativity = 15 := rfl
    by_contra hfree
    have hfull := h.probe.full (Bool.eq_false_iff.mpr hfree)
    rw [h.occupiedSlots_eq, h.slotCount_eq] at hfull
    omega
  have hv :
      (⟨8, 0, isFree skewedConfig skewedContainer 0 8 m, m⟩ : Cursor ._32bit).Valid skewedConfig skewedContainer :=
    ⟨h.1, h.probe⟩
  have hinsert : (insert skewedConfig skewedContainer 3 0 (fun _ => 0) m).2 =
      bucketInsert skewedConfig skewedContainer (AddresserEntry.fingerprint 32 (murmur (3 : RegisterSize._32bit.T)))
        (isFree skewedConfig skewedContainer 0 8 m).bucketIndex
          (isFree skewedConfig skewedContainer 0 8 m).blockOffset
        (getSlotOffset skewedConfig skewedContainer (isFree skewedConfig skewedContainer 0 8 m).bucketIndex
          (isFree skewedConfig skewedContainer 0 8 m).blockOffset m)
            (isFree skewedConfig skewedContainer 0 8 m).slotCount
        (isFree skewedConfig skewedContainer 0 8 m).occupiedSlots m := by
    rw [insert, insertHash, skewed_offset, show skewedConfig.hash 3 = murmur (3 : RegisterSize._32bit.T) from rfl,
      skewed_address.1]
    simp only [hfree, if_true]
    rfl
  refine ⟨_, rfl, ?_⟩
  rw [show
    (insert skewedConfig skewedContainer skewedCall.value skewedCall.index skewedCall.random m).2 = _ from hinsert]
  refine ⟨wellFormed_bucketInsert skewed_writable hv hfree _, fun i hi => ?_⟩
  rw [counter_bucketInsert skewed_writable hv hfree _ (by decide) hi, h.2 i hi]
  obtain ⟨hbucket, hblock⟩ := skewed_probe m
  simp only [hbucket]
  by_cases hi8 : i = 8
  · rw [if_pos ⟨hblock.symm, hi8⟩, if_pos hi8, if_pos hi8]
  · rw [if_neg fun h => hi8 h.2, if_neg hi8, if_neg hi8]

end Skewed

theorem skewed_run (j : Nat) (hj : j ≤ 13) :
    ∃ m, Lts.Run (step skewedConfig skewedContainer) Mem.zero (List.replicate j skewedCall) m ∧ Skewed m j := by
  induction j with
  | zero => exact ⟨Mem.zero, .nil, wellFormed_zero, fun i _ => (counter_zero _ _ i).trans (ite_self 0).symm⟩
  | succ j ih =>
    obtain ⟨m, hrun, hm⟩ := ih (Nat.le_of_succ_le hj)
    obtain ⟨m', hstep, hm'⟩ := hm.next hj
    rw [List.replicate_succ']
    exact ⟨m', hrun.snoc hstep, hm'⟩

/-- The fourteenth call with one key finds its block full of the fingerprints of its own bucket. -/
theorem not_victimsExist_skewed : skewedConfig.Declared ∧ ¬VictimsExist skewedConfig := by
  refine ⟨skewed_declared, fun hvictims => ?_⟩
  obtain ⟨m, hrun, hm⟩ := skewed_run 13 (Nat.le_refl _)
  have hrandom : ∀ i, skewedCall.random i < skewedConfig.associativity := fun _ => Nat.zero_lt_succ 14
  have hfree : (isFree skewedConfig skewedContainer 0 8 m).free = false := by
    have hslots : skewedConfig.slotsPerBlock = 13 := by decide
    by_contra hfree
    have hroom := (hm.probe.free (Bool.not_eq_false _ ▸ hfree)).1
    rw [hm.occupiedSlots_eq] at hroom
    omega
  have hmem :
      (⟨8, AddresserEntry.fingerprint 32 (murmur (3 : RegisterSize._32bit.T)),
      isFree skewedConfig skewedContainer 0 8 m,
      m⟩ : Cursor ._32bit) ∈ evictions skewedConfig skewedContainer 3 0 (fun _ => 0) m := by
    rw [evictions]
    simp only [skewed_offset, show skewedConfig.hash 3 = murmur (3 : RegisterSize._32bit.T) from rfl,
      skewed_address.1, hfree, Bool.false_eq_true, if_false]
    have hota : setOta skewedConfig skewedContainer (isFree skewedConfig skewedContainer 0 8 m).bucketIndex
        (isFree skewedConfig skewedContainer 0 8 m).blockOffset m = m := if_neg (by decide)
    rw [hota, skewed_address.2, show maxIteration = 999 + 1 from rfl,
      loopEvictions]
    simp only [hfree, Bool.false_eq_true, if_false]
    exact List.mem_cons_self
  have hvictim := hvictims 100 1 64 (fun _ => BitVec.ofNat 32 14) (by decide) _ m
    (fun a ha => List.eq_of_mem_replicate ha ▸ hrandom) hrun skewedCall hrandom _ hmem
    (by rw [hm.slotCount_eq]; decide)
  obtain ⟨i, hi, hne, hpos⟩ := hvictim.other
  obtain ⟨hbucket, hblock⟩ := skewed_probe m
  have hzero := (hm.2 i hi).trans (if_neg fun h => hne (h.trans hbucket.symm))
  rw [← hblock] at hzero
  exact absurd hzero (Nat.ne_of_gt hpos)

end PartitionedFilters.Cuckoo.Morton

import PartitionedFilters.BucketArray
import PartitionedFilters.MortonEviction

/-!
# What a Morton filter stores

Where no address wraps, the buckets of a table are those of different blocks or
different buckets of a block. The operations of `insert` are then insertions
into, and exchanges between, the multisets of fingerprints of the buckets.
-/

namespace PartitionedFilters.Cuckoo.Morton

open BucketArray
open Standard (Bucket buckets mem_buckets alt)

variable {r : RegisterSize} {c : Config r} {x : CuckooContainer r} {n : Nat}

/-! ## Buckets -/

def blockOf (c : Config r) (x : CuckooContainer r) (p : Bucket) : r.T :=
  blockOffset c (c.offset x p.1) (BitVec.ofNat r.bits p.2)

def indexOf (c : Config r) (p : Bucket) : Nat := p.2 % c.bucketsPerBlock

def content (c : Config r) (x : CuckooContainer r) (m : Mem) (p : Bucket) : Multiset (BitVec c.k) :=
  bucket (slot c m (base x (blockOf c x p))) (counter c m (base x (blockOf c x p))) (indexOf c p)

/-- The overflow-tracking bit of a bucket; without such bits every bucket counts as overflowed. -/
def overflowed (c : Config r) (x : CuckooContainer r) (m : Mem) (p : Bucket) : Bool :=
  if 0 < c.otaSize then ota c m (base x (blockOf c x p)) (indexOf c p % c.otaSize) else true

def blockStop (c : Config r) (x : CuckooContainer r) (p : Bucket) : Nat :=
  8 * (c.offset x p.1).toNat + (p.2 / c.bucketsPerBlock + 1) * 512

/-- What the operations rely on: blocks are in reach, and those of different partitions apart. -/
structure Layout (c : Config r) (x : CuckooContainer r) (n : Nat) : Prop extends Readable c where
  slotsToLoad_pos : 1 ≤ c.slotsToLoad
  size_le : c.associativity ≤ c.slotsPerBlock
  filter_ge : 64 ≤ x.filter
  mode : c.mode ≠ .Morton
  entries : ∀ i < n, ∃ h, x.entries i = AddresserEntry.new c.mode h
  aligned : ∀ i, 512 ∣ (c.offset x i <<< 3).toNat
  reach : ∀ p ∈ buckets x n, blockStop c x p ≤ 2 ^ r.bits
  strict : c.optimalFingerprintSize = true → ∀ p ∈ buckets x n, blockStop c x p < 2 ^ r.bits
  apart : ∀ p ∈ buckets x n, ∀ q ∈ buckets x n, p.1 < q.1 → blockStop c x p ≤ 8 * (c.offset x q.1).toNat

namespace Layout
variable (hl : Layout c x n)
include hl

theorem writable (i : Nat) : Writable c x (c.offset x i) :=
  ⟨hl.toReadable, hl.slotsToLoad_pos, hl.filter_ge, hl.aligned i⟩

theorem indexOf_lt (p : Bucket) : indexOf c p < c.bucketsPerBlock := Nat.mod_lt _ hl.params.buckets_pos

section
variable {p q : Bucket} (hp : p ∈ buckets x n) (hq : q ∈ buckets x n)
include hp

theorem toNat_blockOf : (blockOf c x p).toNat + 512 = blockStop c x p := by
  have hreach := hl.reach p hp
  have hbuckets := hl.params.buckets_le
  have hlt := Nat.lt_trans (mem_buckets.mp hp).2 (x.entries p.1).size.isLt
  have hof : (BitVec.ofNat r.bits p.2).toNat = p.2 := by
    rw [BitVec.toNat_ofNat]
    exact Nat.mod_eq_of_lt hlt
  rw [blockStop, Nat.add_mul, Nat.one_mul] at *
  rw [blockOf, blockOffset, BitVec.toNat_add, BitVec.toNat_shiftLeft, BitVec.toNat_mul, toNat_div (by omega), hof,
    toNat_ofNat_of_le (by decide), Nat.shiftLeft_eq, ← Nat.add_mod, Nat.mod_eq_of_lt (by omega)]
  omega

theorem reachesEnd : ReachesEnd c (blockOf c x p) := by
  have hstop := hl.toNat_blockOf hp
  have hreach := hl.reach p hp
  exact ⟨⟨dvd_blockOffset (hl.aligned p.1) _, by omega⟩, fun hopt => by have := hl.strict hopt p hp; omega⟩

theorem aligned_blockOf : 512 ∣ (blockOf c x p).toNat := (hl.reachesEnd hp).aligned

include hq

theorem blockOf_inj (h : blockOf c x p = blockOf c x q) :
    p.1 = q.1 ∧ p.2 / c.bucketsPerBlock = q.2 / c.bucketsPerBlock := by
  have hp' := hl.toNat_blockOf hp
  have hq' := hl.toNat_blockOf hq
  have hpq := hl.apart p hp q hq
  have hqp := hl.apart q hq p hp
  rw [h] at hp'
  have hfirst : p.1 = q.1 := by
    rcases Nat.lt_trichotomy p.1 q.1 with hlt | heq | hgt
    · have := hpq hlt
      rw [blockStop, Nat.add_mul, Nat.one_mul] at hq'
      omega
    · exact heq
    · have := hqp hgt
      rw [blockStop, Nat.add_mul, Nat.one_mul] at hp'
      omega
  have hstop := hp'.symm.trans hq'
  rw [blockStop, blockStop, hfirst] at hstop
  exact ⟨hfirst, by omega⟩

theorem eq_of_blockOf (h : blockOf c x p = blockOf c x q) (hi : indexOf c p = indexOf c q) : p = q := by
  obtain ⟨h1, h2⟩ := hl.blockOf_inj hp hq h
  refine Prod.ext h1 ?_
  rw [← Nat.div_add_mod p.2 c.bucketsPerBlock, ← Nat.div_add_mod q.2 c.bucketsPerBlock, h2]
  exact congrArg _ hi

end

end Layout

/-! ## What stays -/

/-- The operation stays in its block and clears no overflow-tracking bit. -/
structure Kept (c : Config r) (x : CuckooContainer r) (block : r.T) (m m' : Mem) : Prop where
  outside : ∀ q, q < base x block ∨ base x block + 512 ≤ q → m'.bit q = m.bit q
  ota : ∀ t < c.otaSize, ota c m (base x block) t = true → ota c m' (base x block) t = true

def SameSlots (c : Config r) (x : CuckooContainer r) (m m' : Mem) : Prop :=
  AllBlocks r fun block => ∀ j < c.slotsPerBlock, slot c m' (base x block) j = slot c m (base x block) j

theorem Kept.trans {block : r.T} {m m' m'' : Mem} (h : Kept c x block m m') (h' : Kept c x block m' m'') :
    Kept c x block m m'' where
  outside q hq := (h'.outside q hq).trans (h.outside q hq)
  ota t ht hm := h'.ota t ht (h.ota t ht hm)

theorem SameSlots.trans {m m' m'' : Mem} (h : SameSlots c x m m') (h' : SameSlots c x m' m'') :
    SameSlots c x m m'' :=
  fun block hb j hj => (h' block hb j hj).trans (h block hb j hj)

theorem Frame.kept {block : r.T} {touched : Nat → Prop} {start stop : Nat} {m m' : Mem}
    (h : Frame c (base x block) touched start stop m m') : Kept c x block m m' where
  outside := h.outside
  ota t ht hm := (h.ota t ht).trans hm

section
variable (hp : Params c) {block : r.T} (hb : 512 ∣ block.toNat) (m : Mem)
include hp hb

/-- An operation on a block leaves the fields of the other blocks alone. -/
theorem load_other {m m' : Mem} (h : Kept c x block m m') {block' : r.T} (hb' : 512 ∣ block'.toNat)
    (hne : block' ≠ block) :
    (∀ i < c.bucketsPerBlock, counter c m' (base x block') i = counter c m (base x block') i) ∧
      (∀ j < c.slotsPerBlock, slot c m' (base x block') j = slot c m (base x block') j) ∧
      ∀ t < c.otaSize, ota c m' (base x block') t = ota c m (base x block') t := by
  have hne' : block'.toNat ≠ block.toNat := fun h => hne (BitVec.eq_of_toNat_eq h)
  have hfits := hp.fits
  refine ⟨fun i hi => congrArg BitVec.toNat (load_congr fun q h1 h2 => h.outside q ?_),
    fun j hj => load_congr fun q h1 h2 => h.outside q ?_, fun t ht => h.outside _ ?_⟩
  · have hcounter := Params.counter_fits hi
    unfold base at *
    omega
  · have hslot := hp.slot_fits hj
    have hpos : 0 < c.k * (j + 1) := Nat.mul_pos hp.k_pos (Nat.succ_pos j)
    rw [Nat.mul_succ] at *
    unfold base at *
    omega
  · unfold base at *
    omega

variable {i : r.T}

theorem kept_setSlotCount (hi : i.toNat < c.bucketsPerBlock) (v : r.T) :
    Kept c x block m (setSlotCount c x i block v m) ∧ SameSlots c x m (setSlotCount c x i block v m) := by
  have hframe := frame_store_counter hp m (b := base x block) hi (v.setWidth c.counterSize)
  rw [← setSlotCount_eq (reaches_of_dvd hb) hp m hi] at hframe
  refine ⟨hframe.kept, fun block' hb' j hj => ?_⟩
  by_cases heq : block' = block
  · rw [heq]
    exact hframe.slots j hj (.inr (Nat.zero_le j))
  · exact (load_other hp hb hframe.kept hb' heq).2.1 j hj

theorem kept_setOta : Kept c x block m (setOta c x i block m) ∧ SameSlots c x m (setOta c x i block m) := by
  have hfits := hp.slots_fit
  rw [setOta_eq (reaches_of_dvd hb) hp]
  split
  · rename_i hota
    have hlt := Nat.mod_lt i.toNat hota
    have hkept : Kept c x block m (m.store (base x block + c.otaOffset + i.toNat % c.otaSize) (1#1)) := by
      refine ⟨fun q hq => Mem.store_of_notMem _ _ (by omega), fun t ht hm => ?_⟩
      unfold ota at *
      by_cases hti : t = i.toNat % c.otaSize
      · rw [hti, Mem.store_of_mem _ _ (Nat.le_refl _) (Nat.lt_succ_self _), Nat.sub_self]
        rfl
      · rw [Mem.store_of_notMem _ _ (by omega)]
        exact hm
    refine ⟨hkept, fun block' hb' j hj => ?_⟩
    by_cases heq : block' = block
    · have hslot := hp.slot_fits hj
      rw [heq]
      exact Mem.load_store_of_disjoint _ _ (.inl (by omega))
    · exact (load_other hp hb hkept hb' heq).2.1 j hj
  · exact ⟨⟨fun _ _ => rfl, fun _ _ h => h⟩, fun _ _ _ _ => rfl⟩

theorem ota_setOta (hota : 0 < c.otaSize) :
    ota c (setOta c x i block m) (base x block) (i.toNat % c.otaSize) = true := by
  rw [setOta_eq (reaches_of_dvd hb) hp, if_pos hota, ota, Mem.store_of_mem _ _ (Nat.le_refl _) (Nat.lt_succ_self _),
    Nat.sub_self]
  rfl

end

/-! ### Moved slots -/

section
variable {block : r.T} (hr : ReachesEnd c block) (hp : Params c) (m : Mem) {m' : Mem} (f : r.T)
include hr hp

theorem movesRight_shiftSlotsLeftAndInsert (hload : 1 ≤ c.slotsToLoad) {start hole : Nat} (hs : start ≤ hole)
    (hh : hole < c.slotsPerBlock) (hsame : SameSlots c x (shiftSlotsLeftAndInsert c x f start hole block m) m') :
    MovesRight (slot c m (base x block)) (slot c m' (base x block)) start hole c.slotsPerBlock ∧
      slot c m' (base x block) start = f.setWidth c.k := by
  have hframe := frame_shiftSlotsLeftAndInsert hr hp m (x := x) hload hs hh f
  have hb := hr.aligned
  refine ⟨⟨fun j hj => ?_, fun j hj hjl => ?_, fun j hj hjl => ?_⟩, ?_⟩
  · rw [hsame block hb j (by omega)]
    exact hframe.slots j (by omega) (.inl hj)
  · rw [hsame block hb (j + 1) (by omega)]
    exact slot_shiftSlotsLeftAndInsert_succ hr hp m hload hs hh f hj hjl
  · rw [hsame block hb j hj]
    exact hframe.slots j hj (.inr hjl)
  · rw [hsame block hb start (by omega)]
    exact slot_shiftSlotsLeftAndInsert hr hp m hload hs hh f

theorem movesLeft_shiftSlotsRightAndInsert (hload : 1 ≤ c.slotsToLoad) {hole stop : Nat} (hs : hole < stop)
    (hh : stop ≤ c.slotsPerBlock) (hsame : SameSlots c x (shiftSlotsRightAndInsert c x f hole stop block m) m') :
    MovesLeft (slot c m (base x block)) (slot c m' (base x block)) hole stop c.slotsPerBlock ∧
      slot c m' (base x block) (stop - 1) = f.setWidth c.k := by
  have hframe := frame_shiftSlotsRightAndInsert hr hp m (x := x) hload hs hh f
  have hb := hr.aligned
  refine ⟨⟨fun j hj => ?_, fun j hj hjl => ?_, fun j hj hjl => ?_⟩, ?_⟩
  · rw [hsame block hb j (by omega)]
    exact hframe.slots j (by omega) (.inl hj)
  · rw [hsame block hb j (by omega)]
    exact slot_shiftSlotsRightAndInsert_pred hr hp m hload hs hh f hj hjl
  · rw [hsame block hb j hj]
    exact hframe.slots j hj (.inr hjl)
  · rw [hsame block hb (stop - 1) (by omega)]
    exact slot_shiftSlotsRightAndInsert hr hp m hload hs hh f

theorem movesLeft_setFingerprint {stop : Nat} (hs : 0 < stop) (hh : stop ≤ c.slotsPerBlock)
    (hsame : SameSlots c x (setFingerprint c x (stop - 1) block f m) m') :
    MovesLeft (slot c m (base x block)) (slot c m' (base x block)) (stop - 1) stop c.slotsPerBlock ∧
      slot c m' (base x block) (stop - 1) = f.setWidth c.k := by
  have hj : stop - 1 < c.slotsPerBlock := by omega
  have hframe := frame_setFingerprint hr hp m (x := x) hj f
  have hb := hr.aligned
  refine ⟨⟨fun j hj => ?_, fun j hj hjl => ?_, fun j hj hjl => ?_⟩, ?_⟩
  · rw [hsame block hb j (by omega)]
    exact hframe.slots j (by omega) (.inl hj)
  · omega
  · rw [hsame block hb j hj]
    exact hframe.slots j hj (.inr (by omega))
  · rw [hsame block hb (stop - 1) hj]
    exact slot_setFingerprint hr hp m hj f

end

namespace Layout
variable (hl : Layout c x n) {m m' : Mem}
include hl

section
variable {p : Bucket} (hp : p ∈ buckets x n)
include hp

theorem content_congr (hwf : AllWellFormed c x m)
    (hc : ∀ i < c.bucketsPerBlock, counter c m' (base x (blockOf c x p)) i = counter c m (base x (blockOf c x p)) i)
    (hs : ∀ j < c.slotsPerBlock, slot c m' (base x (blockOf c x p)) j = slot c m (base x (blockOf c x p)) j) :
    content c x m' p = content c x m p := by
  have hlt := hl.indexOf_lt p
  have hle := slotsBefore_add_le (hwf _ (hl.aligned_blockOf hp)) hlt
  refine bucket_congr (hc _ hlt) fun j hj => ?_
  rw [begins_congr fun l hll => hc l (Nat.lt_trans hll hlt)]
  exact hs _ (Nat.lt_of_lt_of_le (Nat.add_lt_add_left hj _) hle)

variable {block : r.T} (hb : 512 ∣ block.toNat) (hkept : Kept c x block m m')
include hb hkept

theorem content_other (hwf : AllWellFormed c x m) (hne : blockOf c x p ≠ block) :
    content c x m' p = content c x m p := by
  obtain ⟨hc, hs, -⟩ := load_other hl.params hb hkept (hl.aligned_blockOf hp) hne
  exact hl.content_congr hp hwf hc hs

theorem overflowed_kept (h : overflowed c x m p = true) : overflowed c x m' p = true := by
  rw [overflowed] at *
  split
  · rename_i hota
    rw [if_pos hota] at h
    have hlt := Nat.mod_lt (indexOf c p) hota
    by_cases heq : blockOf c x p = block
    · rw [heq] at h ⊢
      exact hkept.ota _ hlt h
    · rw [(load_other hl.params hb hkept (hl.aligned_blockOf hp) heq).2.2 _ hlt]
      exact h
  · rfl

end

theorem overflowed_setOta {p : Bucket} (hp : p ∈ buckets x n) (m : Mem) {i : r.T} (hi : i.toNat = indexOf c p) :
    overflowed c x (setOta c x i (blockOf c x p) m) p = true := by
  rw [overflowed]
  split
  · rename_i hota
    rw [← hi]
    exact ota_setOta hl.params (hl.aligned_blockOf hp) m hota
  · rfl

end Layout

/-- What a bucket loses is tracked: a bucket that does not count as overflowed has lost nothing. -/
def Tracks (c : Config r) (x : CuckooContainer r) (n : Nat) (m m' : Mem) : Prop :=
  ∀ p ∈ buckets x n, overflowed c x m' p = false → overflowed c x m p = false ∧ content c x m p ≤ content c x m' p

theorem Tracks.refl (m : Mem) : Tracks c x n m m := fun _ _ h => ⟨h, le_refl _⟩

theorem Tracks.trans {m m' m'' : Mem} (h : Tracks c x n m m') (h' : Tracks c x n m' m'') : Tracks c x n m m'' := by
  intro p hp hclear
  obtain ⟨h1, h2⟩ := h' p hp hclear
  obtain ⟨h3, h4⟩ := h p hp h1
  exact ⟨h3, h4.trans h2⟩

def stored (c : Config r) (x : CuckooContainer r) (n : Nat) (m : Mem) : Multiset (BitVec c.k × Sym2 Bucket) :=
  Relocation.entries (alt c x) (buckets x n) (content c x m)

def Supported (c : Config r) (x : CuckooContainer r) (n : Nat) (m : Mem) : Prop :=
  AllBlocks r fun block => ∀ i < c.bucketsPerBlock, 0 < counter c m (base x block) i →
    ∃ p ∈ buckets x n, blockOf c x p = block ∧ indexOf c p = i

/-! ## The cursor -/

structure At (c : Config r) (x : CuckooContainer r) (n index : Nat) (v : Cursor r) : Prop where
  valid : v.Valid c x
  mem : (index, v.address.toNat) ∈ buckets x n
  block : v.probe.blockOffset = blockOf c x (index, v.address.toNat)
  bucketIndex : v.probe.bucketIndex.toNat = indexOf c (index, v.address.toNat)

theorem isFree_place (hc : Readable c) (index : Nat) (address : r.T) (m : Mem) :
    (isFree c x (c.offset x index) address m).blockOffset = blockOf c x (index, address.toNat) ∧
      (isFree c x (c.offset x index) address m).bucketIndex.toNat = indexOf c (index, address.toNat) := by
  have hbuckets := hc.params.buckets_le
  refine ⟨?_, toNat_mod (by omega) address⟩
  rw [blockOf, BitVec.ofNat_toNat, BitVec.setWidth_eq]
  rfl

section
variable (hl : Layout c x n) {index : Nat} {v : Cursor r} (hv : At c x n index v)
include hv

theorem At.content_eq (m : Mem) : content c x m (index, v.address.toNat) =
    bucket (slot c m (base x v.probe.blockOffset)) (counter c m (base x v.probe.blockOffset))
      v.probe.bucketIndex.toNat := by
  rw [content, hv.block, hv.bucketIndex]

include hl

theorem At.reachesEnd : ReachesEnd c v.probe.blockOffset := hv.block ▸ hl.reachesEnd hv.mem

/-- A bucket that differs from two buckets of the block keeps its content. -/
theorem At.content_rest {m' : Mem} (hkept : Kept c x v.probe.blockOffset v.mem m') {i : Nat}
    (hrest : ∀ l < c.bucketsPerBlock, l ≠ v.probe.bucketIndex.toNat → l ≠ i →
      bucket (slot c m' (base x v.probe.blockOffset)) (counter c m' (base x v.probe.blockOffset)) l =
        bucket (slot c v.mem (base x v.probe.blockOffset)) (counter c v.mem (base x v.probe.blockOffset)) l)
    {p : Bucket} (hp : p ∈ buckets x n) (hne : p ≠ (index, v.address.toNat))
    (hi : blockOf c x p = v.probe.blockOffset → indexOf c p ≠ i) : content c x m' p = content c x v.mem p := by
  by_cases heq : blockOf c x p = v.probe.blockOffset
  · have hindex : indexOf c p ≠ v.probe.bucketIndex.toNat := fun h =>
      hne (hl.eq_of_blockOf hp hv.mem (heq.trans hv.block) (h.trans hv.bucketIndex))
    rw [content, content, heq]
    exact hrest _ (hl.indexOf_lt p) hindex (hi heq)
  · exact hl.content_other hp hv.valid.probed.aligned hkept hv.valid.wellFormed heq

theorem At.bucketInsert (hfree : v.probe.free = true) (f : r.T) {m' : Mem}
    (hm : bucketInsert c x f v.probe.bucketIndex v.probe.blockOffset
      (getSlotOffset c x v.probe.bucketIndex v.probe.blockOffset v.mem) v.probe.slotCount
        v.probe.occupiedSlots v.mem = m') :
    Kept c x v.probe.blockOffset v.mem m' ∧
      content c x m' (index, v.address.toNat) = f.setWidth c.k ::ₘ content c x v.mem (index, v.address.toNat) ∧
        ∀ p ∈ buckets x n, p ≠ (index, v.address.toNat) → content c x m' p = content c x v.mem p := by
  have hw := hl.writable index
  have hp := hl.params
  have hr := hv.reachesEnd hl
  have hb := hv.valid.probed.aligned
  have hbucket := hv.valid.probed.bucket
  have hroom := (hv.valid.probed.free hfree).1
  have hsum := (hv.valid.wellFormed _ hb).sum_le
  have hocc := hv.valid.probed.occupied
  have hend := hv.valid.toNat_end hw
  have hmono := slotsBefore_mono c v.mem (base x v.probe.blockOffset) (show _ + 1 ≤ _ from hbucket)
  have hlt : slotsBefore c v.mem (base x v.probe.blockOffset) c.bucketsPerBlock < c.slotsPerBlock := by omega
  have hcounter := fun {i : Nat} (hi : i < c.bucketsPerBlock) => counter_bucketInsert hw hv.valid hfree f hb hi
  rw [Cuckoo.Morton.bucketInsert, hend, hocc] at hm
  rw [Cuckoo.Morton.bucketInsert, hend, hocc, hm] at hcounter
  have hframe := frame_shiftSlotsLeftAndInsert hr hp v.mem (x := x) hl.slotsToLoad_pos hmono hlt f
  obtain ⟨hkept, hsame⟩ := kept_setSlotCount (x := x) hp hb (shiftSlotsLeftAndInsert c x f
    (slotsBefore c v.mem (base x v.probe.blockOffset) (v.probe.bucketIndex.toNat + 1))
    (slotsBefore c v.mem (base x v.probe.blockOffset) c.bucketsPerBlock) v.probe.blockOffset v.mem) hbucket
      (v.probe.slotCount + 1)
  rw [hm] at hkept hsame
  obtain ⟨hmoves, hslot⟩ := movesRight_shiftSlotsLeftAndInsert hr hp v.mem f hl.slotsToLoad_pos hmono hlt hsame
  obtain ⟨hgain, hrest⟩ := bucket_opens (counter c m' (base x v.probe.blockOffset))
    ((hcounter hbucket).trans (if_pos ⟨rfl, rfl⟩)) (fun l hl hne => (hcounter hl).trans (if_neg fun h => hne h.2))
      hbucket hmoves
  replace hkept := hframe.kept.trans hkept
  refine ⟨hkept, ?_, fun p hp' hne =>
    hv.content_rest hl (i := v.probe.bucketIndex.toNat) hkept (fun l hl hne _ => hrest l hl hne) hp' hne
      fun heq h => ?_⟩
  · rw [hv.content_eq, hv.content_eq, hgain]
    exact congrArg (· ::ₘ _) hslot
  · exact hne (hl.eq_of_blockOf hp' hv.mem (heq.trans hv.block) (h.trans hv.bucketIndex))

theorem At.replace {t : Nat} (ht : t < counter c v.mem (base x v.probe.blockOffset) v.probe.bucketIndex.toNat)
    {m' : Mem} (hm : setOta c x v.probe.bucketIndex v.probe.blockOffset (setFingerprint c x
      (slotsBefore c v.mem (base x v.probe.blockOffset) v.probe.bucketIndex.toNat + t) v.probe.blockOffset
        v.fingerprint v.mem) = m') :
    Kept c x v.probe.blockOffset v.mem m' ∧
      slot c v.mem (base x v.probe.blockOffset)
        (slotsBefore c v.mem (base x v.probe.blockOffset) v.probe.bucketIndex.toNat + t) ::ₘ
          content c x m' (index, v.address.toNat) =
            v.fingerprint.setWidth c.k ::ₘ content c x v.mem (index, v.address.toNat) ∧
        ∀ p ∈ buckets x n, p ≠ (index, v.address.toNat) → content c x m' p = content c x v.mem p := by
  have hp := hl.params
  have hr := hv.reachesEnd hl
  have hb := hv.valid.probed.aligned
  have hbucket := hv.valid.probed.bucket
  have hle := slotsBefore_add_le (hv.valid.wellFormed _ hb) hbucket
  have hj : slotsBefore c v.mem (base x v.probe.blockOffset) v.probe.bucketIndex.toNat + t < c.slotsPerBlock := by
    omega
  have hframe := frame_setFingerprint hr hp v.mem (x := x) hj v.fingerprint
  have hcounters := (sameCounters_setFingerprint hp hl.filter_ge hb v.mem v.fingerprint hj).trans
    (sameCounters_setOta hp hb _ v.probe.bucketIndex)
  obtain ⟨hkept, hsame⟩ := kept_setOta (x := x) hp hb (setFingerprint c x
    (slotsBefore c v.mem (base x v.probe.blockOffset) v.probe.bucketIndex.toNat + t) v.probe.blockOffset
      v.fingerprint v.mem)
    (i := v.probe.bucketIndex)
  rw [hm] at hkept hsame hcounters
  obtain ⟨hswap, hrest⟩ := bucket_replaces (slot c v.mem (base x v.probe.blockOffset))
    (slot c m' (base x v.probe.blockOffset)) (counter c v.mem (base x v.probe.blockOffset))
    (hcounters _ hb) hbucket ht (hv.valid.wellFormed _ hb).sum_le fun j hj hne =>
      (hsame _ hb j hj).trans (hframe.slots j hj (by
        rcases Nat.lt_or_gt_of_ne hne with hlt | hgt
        · exact .inl hlt
        · exact .inr hgt))
  replace hkept := hframe.kept.trans hkept
  refine ⟨hkept, ?_, fun p hp' hne =>
    hv.content_rest hl (i := v.probe.bucketIndex.toNat) hkept (fun l hl hne _ => hrest l hl hne) hp' hne
      fun heq h => ?_⟩
  · rw [hv.content_eq, hv.content_eq]
    refine hswap.trans (congrArg (· ::ₘ _) ?_)
    exact (hsame _ hb _ hj).trans (slot_setFingerprint hr hp v.mem hj v.fingerprint)
  · exact hne (hl.eq_of_blockOf hp' hv.mem (heq.trans hv.block) (h.trans hv.bucketIndex))

theorem At.kept_displacement {candidate : Nat × Nat} (hi : IsVictim c x v candidate) {m : Mem}
    (hd : Displacement c x v candidate m) : Kept c x v.probe.blockOffset v.mem m := by
  obtain ⟨hlt, hleft, hright⟩ := hi.bounds hv.valid
  have hr := hv.reachesEnd hl
  have hsum := (hv.valid.wellFormed _ hv.valid.probed.aligned).sum_le
  have hend := slotsBefore_mono c v.mem (base x v.probe.blockOffset) (Nat.le_of_lt hv.valid.probed.bucket)
  cases hd with
  | left h =>
    exact (frame_shiftSlotsLeftAndInsert hr hl.params v.mem hl.slotsToLoad_pos (hleft h) hlt v.fingerprint).kept
  | right h =>
    exact (frame_shiftSlotsRightAndInsert hr hl.params v.mem hl.slotsToLoad_pos (hright h) (by omega)
      v.fingerprint).kept
  | last => exact (frame_setFingerprint hr hl.params v.mem hlt v.fingerprint).kept

omit hl in
/-- The counters and the overflow-tracking bit are written behind the move of the slots. -/
theorem At.kept_relocate (hp : Params c) (offset : r.T) {candidate : Nat × Nat} (hi : IsVictim c x v candidate)
    (count : r.T) (m : Mem) : Kept c x v.probe.blockOffset m (relocate c x index offset v candidate count m).mem ∧
      SameSlots c x m (relocate c x index offset v candidate count m).mem := by
  have hb := hv.valid.probed.aligned
  have hbuckets := hp.buckets_le
  have hlt := hi.lt
  have hcandidate : (BitVec.ofNat r.bits candidate.1).toNat = candidate.1 := toNat_ofNat_of_le (by omega)
  obtain ⟨h1, h1'⟩ := kept_setSlotCount (x := x) hp hb m hv.valid.probed.bucket (v.probe.slotCount + 1)
  obtain ⟨h2, h2'⟩ := kept_setSlotCount (x := x) hp hb (setSlotCount c x v.probe.bucketIndex v.probe.blockOffset
    (v.probe.slotCount + 1) m) (i := BitVec.ofNat r.bits candidate.1) (by rwa [hcandidate]) (count - 1)
  obtain ⟨h3, h3'⟩ :=
    kept_setOta (x := x) hp hb (setSlotCount c x (BitVec.ofNat r.bits candidate.1) v.probe.blockOffset (count - 1)
    (setSlotCount c x v.probe.bucketIndex v.probe.blockOffset (v.probe.slotCount + 1) m)) (i :=
    BitVec.ofNat r.bits candidate.1)
  exact ⟨(h1.trans h2).trans h3, (h1'.trans h2').trans h3'⟩

/-- The bucket takes the fingerprint, and the bucket of the victim loses it. -/
theorem At.relocate (h : BlockOverflow c v) {candidate : Nat × Nat} (hi : IsVictim c x v candidate) {m : Mem}
    (hd : Displacement c x v candidate m) {count : r.T}
    (hcount : count.toNat = counter c v.mem (base x v.probe.blockOffset) candidate.1) {m' : Mem}
    (hm : (relocate c x index (c.offset x index) v candidate count m).mem = m') :
    content c x m' (index, v.address.toNat) =
      v.fingerprint.setWidth c.k ::ₘ content c x v.mem (index, v.address.toNat) ∧
      (∀ p ∈ buckets x n, blockOf c x p = v.probe.blockOffset → indexOf c p = candidate.1 →
        slot c v.mem (base x v.probe.blockOffset) candidate.2 ::ₘ content c x m' p = content c x v.mem p) ∧
      ∀ p ∈ buckets x n, p ≠ (index, v.address.toNat) →
      (blockOf c x p = v.probe.blockOffset → indexOf c p ≠ candidate.1) →
        content c x m' p = content c x v.mem p := by
  have hw := hl.writable index
  have hr := hv.reachesEnd hl
  obtain ⟨hlt, hleft, hright⟩ := hi.bounds hv.valid
  have hwf := hv.valid.wellFormed _ hv.valid.probed.aligned
  have hbucket := hv.valid.probed.bucket
  have hend := slotsBefore_mono c v.mem (base x v.probe.blockOffset) (Nat.le_of_lt hbucket)
  have hsum := hwf.sum_le
  have hex := exchanges_relocate hw hv.valid h hi (hd.sameCounters hw hv.valid hi) hcount index
  have hkept := (hv.kept_displacement hl hi hd).trans (hv.kept_relocate hl.params (c.offset x index) hi count m).1
  have hsame := (hv.kept_relocate hl.params (c.offset x index) hi count m).2
  rw [hm] at hex hkept hsame
  have hbuckets : bucket (slot c m' (base x v.probe.blockOffset)) (counter c m' (base x v.probe.blockOffset))
        v.probe.bucketIndex.toNat =
          v.fingerprint.setWidth c.k ::ₘ bucket (slot c v.mem (base x v.probe.blockOffset))
          (counter c v.mem (base x v.probe.blockOffset)) v.probe.bucketIndex.toNat ∧
      slot c v.mem (base x v.probe.blockOffset) candidate.2 ::ₘ bucket (slot c m' (base x v.probe.blockOffset))
        (counter c m' (base x v.probe.blockOffset)) candidate.1 = bucket (slot c v.mem (base x v.probe.blockOffset))
          (counter c v.mem (base x v.probe.blockOffset)) candidate.1 ∧
      ∀ l < c.bucketsPerBlock, l ≠ v.probe.bucketIndex.toNat → l ≠ candidate.1 →
        bucket (slot c m' (base x v.probe.blockOffset)) (counter c m' (base x v.probe.blockOffset)) l =
          bucket (slot c v.mem (base x v.probe.blockOffset)) (counter c v.mem (base x v.probe.blockOffset)) l := by
    cases hd with
    | left hbi =>
      obtain ⟨hmoves, hslot⟩ :=
        movesRight_shiftSlotsLeftAndInsert hr hl.params v.mem v.fingerprint hl.slotsToLoad_pos (hleft hbi)
        hlt hsame
      obtain ⟨h1, h2, h3⟩ := bucket_movesRight hex hbi hi.lt hmoves hsum hi.le hi.slot_lt
      exact ⟨h1.trans (congrArg (· ::ₘ _) hslot), h2, h3⟩
    | right hib =>
      obtain ⟨hmoves, hslot⟩ :=
        movesLeft_shiftSlotsRightAndInsert hr hl.params v.mem v.fingerprint hl.slotsToLoad_pos
        (hright hib) (by omega) hsame
      obtain ⟨h1, h2, h3⟩ := bucket_movesLeft hex hib hbucket hmoves hsum hi.le hi.slot_lt
      exact ⟨h1.trans (congrArg (· ::ₘ _) hslot), h2, h3⟩
    | last hib hlast =>
      have hplace :
          candidate.2 = slotsBefore c v.mem (base x v.probe.blockOffset) v.probe.bucketIndex.toNat - 1 := by omega
      rw [hplace] at hsame
      obtain ⟨hmoves, hslot⟩ :=
        movesLeft_setFingerprint hr hl.params v.mem v.fingerprint (by omega) (by omega) hsame
      rw [← hplace] at hmoves
      obtain ⟨h1, h2, h3⟩ := bucket_movesLeft hex hib hbucket hmoves hsum hi.le hi.slot_lt
      exact ⟨h1.trans (congrArg (· ::ₘ _) hslot), h2, h3⟩
  obtain ⟨hgain, hlose, hrest⟩ := hbuckets
  refine ⟨?_, fun p hp heq hindex => ?_, fun p hp hne hother => hv.content_rest hl hkept hrest hp hne hother⟩
  · rw [hv.content_eq, hv.content_eq]
    exact hgain
  · rw [content, content, heq, hindex]
    exact hlose

end

end PartitionedFilters.Cuckoo.Morton

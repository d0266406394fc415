import PartitionedFilters.Loop
import PartitionedFilters.Morton

/-!
# The slot loops of the Morton filter

The loops of `bucket_contains`, `shift_slots_left_and_insert` and
`shift_slots_right_and_insert` that go `slots_to_load` slots at a time, with
their variables and their guards.
-/

namespace PartitionedFilters.Cuckoo.Morton

variable {r : RegisterSize} (c : Config r) (x : CuckooContainer r)

/-! ## `bucket_contains` -/

structure SearchState (r : RegisterSize) where
  i : Nat
  bitAddress : r.T
  found : Bool

def searchLoop (fingerprint slotCount : r.T) (m : Mem) : Loop (SearchState r) :=
  { guard := fun s => decide ((s.i + c.slotsToLoad) % 2 ^ 64 < slotCount.toNat)
    body := fun s =>
      { i := (s.i + c.slotsToLoad) % 2 ^ 64
        bitAddress := s.bitAddress + BitVec.ofNat r.bits (c.slotsToLoad * c.k)
        found := s.found || matching c x fingerprint s.bitAddress m &&& bucketMask c != 0 } }

/-- The loop of `bucket_contains` ends; it is compiled for buckets that do not fit into one load. -/
def BucketContainsEnds (fingerprint bucketIndex blockOffset : r.T) (m : Mem) : Prop :=
  c.slotsToLoad < c.associativity →
    (searchLoop c x fingerprint (getSlotCount c x bucketIndex blockOffset m) m).Ends
      ⟨0, bucketBit c x bucketIndex blockOffset m, false⟩

/-! ## Moving slots -/

structure MoveState (r : RegisterSize) where
  i : Nat
  bitAddress : r.T
  mem : Mem

def moveLeftLoop (nFingerprints : r.T) : Loop (MoveState r) :=
  { guard := fun s => decide ((s.i + c.slotsToLoad) % 2 ^ 64 ≤ nFingerprints.toNat)
    body := fun s =>
      { i := (s.i + c.slotsToLoad) % 2 ^ 64
        bitAddress := s.bitAddress + BitVec.ofNat r.bits (c.slotsToLoad * c.k)
        mem := moveBits x (c.slotsToLoad * c.k) s.bitAddress (s.bitAddress - BitVec.ofNat r.bits c.k) s.mem } }

/-- The first loop of `shift_slots_left_and_insert` ends; byte-addressed slots are moved by `memmove`. -/
def ShiftLeftEnds (start nFingerprints blockOffset : r.T) (m : Mem) : Prop :=
  c.optimalFingerprintSize = false →
    (moveLeftLoop c x nFingerprints).Ends
      ⟨start.toNat, blockOffset + 512 - nFingerprints * BitVec.ofNat r.bits c.k, m⟩

def moveRightLoop (nFingerprints : r.T) : Loop (MoveState r) :=
  { guard := fun s => decide ((s.i + c.slotsToLoad) % 2 ^ 64 ≤ nFingerprints.toNat)
    body := fun s =>
      let bitAddress := s.bitAddress - BitVec.ofNat r.bits (c.slotsToLoad * c.k)
      { i := (s.i + c.slotsToLoad) % 2 ^ 64
        bitAddress
        mem := moveBits x (c.slotsToLoad * c.k) (bitAddress - BitVec.ofNat r.bits c.k) bitAddress s.mem } }

/-- The first loop of `shift_slots_right_and_insert` ends; its counter is computed in `T`. -/
def ShiftRightEnds (start nFingerprints blockOffset : r.T) (m : Mem) : Prop :=
  c.optimalFingerprintSize = false →
    (moveRightLoop c x nFingerprints).Ends
      ⟨(start + 1).toNat, blockOffset + 512 - start * BitVec.ofNat r.bits c.k, m⟩

end PartitionedFilters.Cuckoo.Morton

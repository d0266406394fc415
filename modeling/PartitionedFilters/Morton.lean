import PartitionedFilters.Cuckoo

/-!
# The Morton filter

`CuckooContainer<false, Variant::Morton>` for scalar vectors. A block of 512
bits holds a counter for each of its buckets, overflow-tracking bits, and from
its end downwards the slots, bucket after bucket without a gap.
-/

namespace PartitionedFilters.Cuckoo

variable {r : RegisterSize}

namespace Config
variable (c : Config r)

def counterSize : Nat := getNumberOfBits 64 (c.associativity + 1)

def otaOffset : Nat := c.bucketsPerBlock * c.counterSize

def slotsPerBlock : Nat := (2 ^ 64 + 512 - c.otaOffset - c.otaSize) % 2 ^ 64 / c.k

def slotsToLoad : Nat :=
  if isPowerOfTwo c.k then min c.associativity (r.bits / c.k) else min c.associativity ((r.bits - 8) / c.k)

/-- The bits of the type `PartialBucket`, and of what it is promoted to in an expression. -/
def partialBits : Nat :=
  if c.slotsToLoad * c.k ≤ 8 then 8 else if c.slotsToLoad * c.k ≤ 16 then 16
  else if c.slotsToLoad * c.k ≤ 32 then 32 else 64

def promotedBits : Nat := max 32 c.partialBits

/-- The bits of the type `Fingerprint`. -/
def fingerprintBits : Nat := if c.k ≤ 8 then 8 else if c.k ≤ 16 then 16 else if c.k ≤ 32 then 32 else 64

def counterToLoad : Nat :=
  if isPowerOfTwo c.counterSize then min c.bucketsPerBlock (r.bits / c.counterSize)
  else min c.bucketsPerBlock ((r.bits - 8) / c.counterSize)

end Config

namespace Morton

/-- `simd::div` and `simd::mod`. -/
def div (divisor : Nat) (dividend : r.T) : r.T :=
  if isPowerOfTwo divisor then dividend >>> Nat.log2 divisor else dividend / BitVec.ofNat r.bits divisor

def mod (divisor : Nat) (dividend : r.T) : r.T :=
  if isPowerOfTwo divisor then dividend &&& BitVec.ofNat r.bits (divisor - 1)
  else dividend % BitVec.ofNat r.bits divisor

def popcount (x : r.T) : r.T := BitVec.ofNat r.bits ((List.range r.bits).countP x.getLsbD)

/-- `sum_bits_in_registers`, with `set_every_kth_bit` in the place of `computeMask`. -/
def sumBitsInRegisters (nBits offset : Nat) (x : r.T) : r.T :=
  (List.range nBits).foldl (fun counter i =>
    counter + popcount (x &&& computeMask r.bits nBits (r.bits / nBits + 1) <<< i) <<< ((i + offset) % nBits)) 0

def counterMask (width bits : Nat) : BitVec width :=
  if bits = width then BitVec.allOnes width else (1 : BitVec width) <<< bits - 1

variable (c : Config r)

/-! ## The constructors -/

def nBuckets (s length : Nat) : r.T :=
  BitVec.ofNat r.bits
    (alignNumber (length * c.k % 2 ^ 64 * s % 2 ^ 64 * c.bucketsPerBlock % 2 ^ 64 / 100) 512 / 512)

/-- The bytes that `last_offset` grows by for a partition of `n` buckets. -/
def regionBytes (n : Nat) : Nat :=
  (alignNumber n c.bucketsPerBlock / c.bucketsPerBlock + 1) % 2 ^ 64 * 512 % 2 ^ 64 / 8

def lastOffset (entries : Nat → AddresserEntry r) : Nat → r.T
  | 0 => 0
  | i + 1 => lastOffset entries i + BitVec.ofNat r.bits (regionBytes c (entries i).size.toNat)

def new (s nPartitions : Nat) (histogram : Nat → r.T) : CuckooContainer r :=
  let entries := fun i => AddresserEntry.new c.mode (nBuckets c s (histogram i).toNat)
  { entries, filter := 0, nBytes := valign (lastOffset c entries (c.nParts nPartitions)).toNat,
    offsets := lastOffset c entries }

/-! ## The fields of a block -/

variable (x : CuckooContainer r)

def blockOffset (offset address : r.T) : r.T :=
  offset <<< 3 + div c.bucketsPerBlock address * BitVec.ofNat r.bits 512

def getSlotCount (bucketIndex blockOffset : r.T) (m : Mem) : r.T :=
  gatheruBits false true c.counterSize (blockOffset + bucketIndex * BitVec.ofNat r.bits c.counterSize).toNat
    x.filter m

def setSlotCount (bucketIndex blockOffset counter : r.T) (m : Mem) : Mem :=
  scatteruBits false true c.counterSize (blockOffset + bucketIndex * BitVec.ofNat r.bits c.counterSize).toNat
    x.filter counter m

def otaBit (bucketIndex blockOffset : r.T) : r.T :=
  blockOffset + BitVec.ofNat r.bits c.otaOffset + mod c.otaSize bucketIndex

def getOta (bucketIndex blockOffset : r.T) (m : Mem) : Bool :=
  if 0 < c.otaSize then
    gatheruBits false true 1 (otaBit c bucketIndex blockOffset).toNat x.filter m == (1 : r.T)
  else true

def setOta (bucketIndex blockOffset : r.T) (m : Mem) : Mem :=
  if 0 < c.otaSize then
    scatteruBits false true 1 (otaBit c bucketIndex blockOffset).toNat x.filter (1 : r.T) m
  else m

/-- The sum of the counters in an integer, one register after the other. -/
def sumPieces {width : Nat} (counters : BitVec width) : r.T :=
  (List.range ((width + r.bits - 1) / r.bits)).foldl (fun sum p =>
    sum + sumBitsInRegisters c.counterSize (r.bits * p % c.counterSize)
      ((counters >>> (r.bits * p)).setWidth r.bits)) 0

/-- The sum of the first `n` counters, in the four ways that depend on the size of all counters. -/
def sumCounters (n : Nat) (blockOffset : r.T) (m : Mem) : r.T :=
  let block := 8 * (x.filter + blockOffset.toNat / 8)
  if c.otaOffset ≤ 32 then sumPieces c (m.load block 32 &&& counterMask 32 (c.counterSize * n))
  else if c.otaOffset ≤ 64 then sumPieces c (m.load block 64 &&& counterMask 64 (c.counterSize * n))
  else if c.otaOffset ≤ 128 then sumPieces c (m.load block 128 &&& counterMask 128 (c.counterSize * n))
  else
    let load := fun p => gatheruBits false true (c.counterSize * c.counterToLoad)
      (blockOffset + BitVec.ofNat r.bits (c.counterSize * c.counterToLoad * p)).toNat x.filter m
    (List.range (n / c.counterToLoad)).foldl
        (fun count p => count + sumBitsInRegisters c.counterSize 0 (load p)) 0 +
      sumBitsInRegisters c.counterSize 0 (load (n / c.counterToLoad) &&&
        (1#64 <<< (c.counterSize * (n % c.counterToLoad)) - 1#64).setWidth r.bits)

def getSlotOffset (bucketIndex blockOffset : r.T) (m : Mem) : r.T := sumCounters c x bucketIndex.toNat blockOffset m

def getOccupiedSlots (blockOffset : r.T) (m : Mem) : r.T := sumCounters c x c.bucketsPerBlock blockOffset m

/-- The bit of the byte where the block ends, from which byte-addressed slots are counted down. -/
def blockEnd (blockOffset : r.T) : Nat := 8 * (x.filter + (blockOffset + 512).toNat / 8)

def slotBit (slotIndex : Nat) (blockOffset : r.T) : r.T :=
  blockOffset + BitVec.ofNat r.bits (512 - (slotIndex + 1) * c.k)

def readFingerprint (slotIndex : Nat) (blockOffset : r.T) (m : Mem) : r.T :=
  if c.optimalFingerprintSize then (m.load (blockEnd x blockOffset - (slotIndex + 1) * c.k) c.k).setWidth r.bits
  else gatheruBits false false c.k (slotBit c slotIndex blockOffset).toNat x.filter m

def setFingerprint (slotIndex : Nat) (blockOffset fingerprint : r.T) (m : Mem) : Mem :=
  if c.optimalFingerprintSize then m.store (blockEnd x blockOffset - (slotIndex + 1) * c.k)
    (fingerprint.setWidth c.k)
  else scatteruBits false false c.k (slotBit c slotIndex blockOffset).toNat x.filter fingerprint m

/-! ## Moving slots -/

/-- One iteration of the loops that move `n` bits from `source` to `target`. -/
def moveBits (n : Nat) (source target : r.T) (m : Mem) : Mem :=
  scatteruBits false false n target.toNat x.filter (gatheruBits false false n source.toNat x.filter m : r.T) m

/-- `shift_slots_left_and_insert`: the slots from `start` on move by one, towards the counters. -/
def shiftSlotsLeftAndInsert (fingerprint : r.T) (start nFingerprints : Nat) (blockOffset : r.T) (m : Mem) : Mem :=
  let kBits := BitVec.ofNat r.bits c.k
  if c.optimalFingerprintSize then
    let first := blockEnd x blockOffset - nFingerprints * c.k
    let last := blockEnd x blockOffset - start * c.k
    let m := m.store (first - c.k) (m.load first (last - first))
    m.store (last - c.k) (fingerprint.setWidth c.k)
  else
    let n := nFingerprints - start
    let first := blockOffset + 512 - BitVec.ofNat r.bits nFingerprints * kBits
    let wide := c.slotsToLoad * c.k
    let m := (List.range (n / c.slotsToLoad)).foldl (fun m t =>
      let bitAddress := first + BitVec.ofNat r.bits t * BitVec.ofNat r.bits wide
      moveBits x wide bitAddress (bitAddress - kBits) m) m
    let second := first + BitVec.ofNat r.bits (n / c.slotsToLoad) * BitVec.ofNat r.bits wide
    let m := (List.range (n % c.slotsToLoad)).foldl (fun m t =>
      let bitAddress := second + BitVec.ofNat r.bits t * kBits
      moveBits x c.k bitAddress (bitAddress - kBits) m) m
    let bitAddress := second + BitVec.ofNat r.bits (n % c.slotsToLoad) * kBits
    scatteruBits false false c.k (bitAddress - kBits).toNat x.filter fingerprint m

/-- `shift_slots_right_and_insert`: the slots after `start` move by one, over the slot `start`. -/
def shiftSlotsRightAndInsert (fingerprint : r.T) (start nFingerprints : Nat) (blockOffset : r.T) (m : Mem) : Mem :=
  let kBits := BitVec.ofNat r.bits c.k
  if c.optimalFingerprintSize then
    let first := blockEnd x blockOffset - nFingerprints * c.k
    let last := blockEnd x blockOffset - start * c.k
    let m := m.store (first + c.k) (m.load first (last - first - c.k))
    m.store first (fingerprint.setWidth c.k)
  else
    let n := nFingerprints - (start + 1)
    let first := blockOffset + 512 - BitVec.ofNat r.bits start * kBits
    let wide := c.slotsToLoad * c.k
    let m := (List.range (n / c.slotsToLoad)).foldl (fun m t =>
      let bitAddress := first - BitVec.ofNat r.bits (t + 1) * BitVec.ofNat r.bits wide
      moveBits x wide (bitAddress - kBits) bitAddress m) m
    let second := first - BitVec.ofNat r.bits (n / c.slotsToLoad) * BitVec.ofNat r.bits wide
    let m := (List.range (n % c.slotsToLoad)).foldl (fun m t =>
      let bitAddress := second - BitVec.ofNat r.bits (t + 1) * kBits
      moveBits x c.k (bitAddress - kBits) bitAddress m) m
    let bitAddress := second - BitVec.ofNat r.bits (n % c.slotsToLoad) * kBits
    scatteruBits false false c.k (bitAddress - kBits).toNat x.filter fingerprint m

def bucketInsert (fingerprint bucketIndex blockOffset slotOffset slotCount occupiedSlots : r.T) (m : Mem) : Mem :=
  setSlotCount c x bucketIndex blockOffset (slotCount + 1)
    (shiftSlotsLeftAndInsert c x fingerprint (slotOffset + slotCount).toNat occupiedSlots.toNat blockOffset m)

/-! ## Lookup -/

def bucketMask : BitVec c.partialBits := counterMask c.partialBits (c.slotsToLoad * c.k)

/-- `>>` of a `PartialBucket`: the operand is promoted, and the hardware takes the amount modulo its width. -/
def shiftRight (bucket : BitVec c.partialBits) (amount : Nat) : BitVec c.partialBits :=
  (bucket.setWidth c.promotedBits >>> (amount % c.promotedBits)).setWidth c.partialBits

def partialBucketMask (shiftFactor : Nat) : BitVec c.partialBits :=
  if c.slotsToLoad * c.k = r.bits then
    shiftRight c (shiftRight c (bucketMask c) shiftFactor) (shiftFactor * (c.k - 1))
  else shiftRight c (bucketMask c) (shiftFactor * c.k)

/-- The slots of the piece at `bitAddress` that hold the fingerprint, one bit a slot. -/
def matching (fingerprint bitAddress : r.T) (m : Mem) : BitVec c.partialBits :=
  let bucket : r.T := gatheruBits false false (c.slotsToLoad * c.k) bitAddress.toNat x.filter m
  hasValue c.k c.associativity (bucket.setWidth c.partialBits)
    ((fingerprint.setWidth c.fingerprintBits).setWidth c.partialBits)

/-- The loop of `bucket_contains` before its last piece. -/
def containsLoop (fingerprint slotCount : r.T) (m : Mem) : Nat → Nat → r.T → Bool → Nat × r.T × Bool
  | 0, i, bitAddress, found => (i, bitAddress, found)
  | fuel + 1, i, bitAddress, found =>
    if c.slotsToLoad < c.associativity ∧ i + c.slotsToLoad < slotCount.toNat then
      containsLoop fingerprint slotCount m fuel (i + c.slotsToLoad)
        (bitAddress + BitVec.ofNat r.bits (c.slotsToLoad * c.k))
        (found || matching c x fingerprint bitAddress m &&& bucketMask c != 0)
    else (i, bitAddress, found)

def bucketBit (bucketIndex blockOffset : r.T) (m : Mem) : r.T :=
  blockOffset + 512 - (getSlotCount c x bucketIndex blockOffset m + getSlotOffset c x bucketIndex blockOffset m) *
    BitVec.ofNat r.bits c.k

def bucketContains (fingerprint bucketIndex blockOffset : r.T) (m : Mem) : Bool :=
  let slotCount := getSlotCount c x bucketIndex blockOffset m
  let (i, bitAddress, found) := containsLoop c x fingerprint slotCount m slotCount.toNat 0
    (bucketBit c x bucketIndex blockOffset m) false
  let shiftFactor := c.slotsToLoad + i - slotCount.toNat
  found || matching c x fingerprint bitAddress m &&& partialBucketMask c shiftFactor != 0

def contains (value : r.T) (index : Nat) (m : Mem) : Bool :=
  let hash := c.hash value
  let fingerprint := AddresserEntry.fingerprint c.k hash
  let offset := c.offset x index
  let address1 := c.address1 x index hash
  let bucketIndex1 := mod c.bucketsPerBlock address1
  let blockOffset1 := blockOffset c offset address1
  if 0 < c.otaSize ∧ getOta c x bucketIndex1 blockOffset1 m = false then
    bucketContains c x fingerprint bucketIndex1 blockOffset1 m
  else
    let address2 := (x.entries index).computeAlternativeAddress c.mode address1 fingerprint
    bucketContains c x fingerprint bucketIndex1 blockOffset1 m ||
      bucketContains c x fingerprint (mod c.bucketsPerBlock address2) (blockOffset c offset address2) m

/-! ## Insertion -/

structure Probe (r : RegisterSize) where
  free : Bool
  bucketIndex : r.T
  blockOffset : r.T
  slotCount : r.T
  occupiedSlots : r.T

def isFree (offset address : r.T) (m : Mem) : Probe r :=
  let bucketIndex := mod c.bucketsPerBlock address
  let block := blockOffset c offset address
  let slotCount := getSlotCount c x bucketIndex block m
  let occupiedSlots := getOccupiedSlots c x block m
  { free := occupiedSlots.toNat != c.slotsPerBlock && slotCount.toNat != c.associativity, bucketIndex,
    blockOffset := block,
    slotCount, occupiedSlots }

structure Cursor (r : RegisterSize) where
  address : r.T
  fingerprint : r.T
  probe : Probe r
  mem : Mem

/-- The slots of `n` buckets from bucket `i` and slot `j` on, each with its bucket. -/
def scan (blockOffset : r.T) (m : Mem) : (n i j : Nat) → List (Nat × Nat)
  | 0, _, _ => []
  | n + 1, i, j =>
    let slotCount := (getSlotCount c x (BitVec.ofNat r.bits i) blockOffset m).toNat
    (List.range slotCount).map (fun l => (i, j + l)) ++ scan blockOffset m n (i + 1) (j + slotCount)

/-- The address that the fingerprint in slot `j` of bucket `i` can move to. -/
def victimAddress (index : Nat) (v : Cursor r) (candidate : Nat × Nat) : r.T :=
  (x.entries index).computeAlternativeAddress c.mode
    (v.address - v.probe.bucketIndex + BitVec.ofNat r.bits candidate.1)
    (readFingerprint c x candidate.2 v.probe.blockOffset v.mem)

/-- The carried fingerprint is in `m` in the place of the victim of bucket `i`, which had `count` slots. -/
def relocate (index : Nat) (offset : r.T) (v : Cursor r) (candidate : Nat × Nat) (count : r.T) (m : Mem) :
    Cursor r :=
  let address := victimAddress c x index v candidate
  let p := isFree c x offset address v.mem
  let m := setSlotCount c x v.probe.bucketIndex v.probe.blockOffset (v.probe.slotCount + 1) m
  let m := setSlotCount c x (BitVec.ofNat r.bits candidate.1) v.probe.blockOffset (count - 1) m
  let m := setOta c x (BitVec.ofNat r.bits candidate.1) v.probe.blockOffset m
  -- the slot count is read again, the occupied slots are not
  ⟨address, readFingerprint c x candidate.2 v.probe.blockOffset v.mem,
    { p with slotCount := getSlotCount c x p.bucketIndex p.blockOffset m }, m⟩

/-- `evict_victim`, where `rng` yields `randomIndex`. -/
def evictVictim (index randomIndex : Nat) (offset slotOffset : r.T) (v : Cursor r) : Cursor r :=
  let block := v.probe.blockOffset
  if v.probe.slotCount.toNat = c.associativity then
    -- bucket overflow
    let victim := readFingerprint c x (slotOffset.toNat + randomIndex) block v.mem
    let m := setFingerprint c x (slotOffset.toNat + randomIndex) block v.fingerprint v.mem
    let m := setOta c x v.probe.bucketIndex block m
    let address := (x.entries index).computeAlternativeAddress c.mode v.address victim
    ⟨address, victim, isFree c x offset address m, m⟩
  else
    -- block overflow
    let b := v.probe.bucketIndex.toNat
    let start := (slotOffset + v.probe.slotCount).toNat
    let later := scan c x block v.mem (c.bucketsPerBlock - (b + 1)) (b + 1) start
    let earlier := scan c x block v.mem b 0 0
    let canMove := fun candidate => (isFree c x offset (victimAddress c x index v candidate) v.mem).free
    let count := fun (candidate : Nat × Nat) => getSlotCount c x (BitVec.ofNat r.bits candidate.1) block
    match later.find? canMove, earlier.find? canMove with
    | some candidate, _ =>
      relocate c x index offset v candidate (count candidate v.mem)
        (shiftSlotsLeftAndInsert c x v.fingerprint start candidate.2 block v.mem)
    | none, some candidate =>
      relocate c x index offset v candidate (count candidate v.mem)
        (shiftSlotsRightAndInsert c x v.fingerprint candidate.2 slotOffset.toNat block v.mem)
    | none, none =>
      -- the last slot that was looked at
      let candidate := (later ++ earlier).getLastD (0, 0)
      let m :=
        if b < candidate.1 then
          shiftSlotsLeftAndInsert c x v.fingerprint start (v.probe.occupiedSlots - 1).toNat block v.mem
        else setFingerprint c x (slotOffset - 1).toNat block v.fingerprint v.mem
      relocate c x index offset v candidate
        (count candidate (setSlotCount c x v.probe.bucketIndex block (v.probe.slotCount + 1) m)) m

/-- The loop of `insert`; `random i` is what `rng` yields in iteration `i`. -/
def insertLoop (index : Nat) (offset : r.T) (random : Nat → Nat) : Nat → Nat → Cursor r → Bool × Mem
  | 0, _, v => (false, v.mem)
  | fuel + 1, i, v =>
    let p := v.probe
    let slotOffset := getSlotOffset c x p.bucketIndex p.blockOffset v.mem
    if p.free then
      (true, bucketInsert c x v.fingerprint p.bucketIndex p.blockOffset slotOffset p.slotCount
        p.occupiedSlots v.mem)
    else insertLoop index offset random fuel (i + 1) (evictVictim c x index (random i) offset slotOffset v)

def insertHash (hash offset : r.T) (index : Nat) (random : Nat → Nat) (m : Mem) : Bool × Mem :=
  let fingerprint := AddresserEntry.fingerprint c.k hash
  let address := c.address1 x index hash
  let p := isFree c x offset address m
  if p.free then
    let slotOffset := getSlotOffset c x p.bucketIndex p.blockOffset m
    (true, bucketInsert c x fingerprint p.bucketIndex p.blockOffset slotOffset p.slotCount p.occupiedSlots m)
  else
    let m := setOta c x p.bucketIndex p.blockOffset m
    let address := (x.entries index).computeAlternativeAddress c.mode address fingerprint
    insertLoop c x index offset random maxIteration 0 ⟨address, fingerprint, isFree c x offset address m, m⟩

def insert (value : r.T) (index : Nat) (random : Nat → Nat) (m : Mem) : Bool × Mem :=
  insertHash c x (c.hash value) (c.offset x index) index random m

end Morton

end PartitionedFilters.Cuckoo

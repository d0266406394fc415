import PartitionedFilters.Address
import PartitionedFilters.CuckooHelper

/-!
# The cuckoo filter

`CuckooContainer<false, Variant::Standard>` for scalar vectors: buckets of
`associativity` slots, `k` bits each, where 0 is an empty slot.
-/

namespace PartitionedFilters.Cuckoo

variable {r : RegisterSize}

def maxIteration : Nat := 1000

/-- The template parameters of the container. -/
structure Config (r : RegisterSize) where
  associativity : Nat
  bucketsPerBlock : Nat
  otaSize : Nat
  k : Nat
  partitioning : Partitioning
  mode : AddressingMode
  hash : r.T → r.T

/-- `filter` is the byte address of the array. -/
structure CuckooContainer (r : RegisterSize) where
  entries : Nat → AddresserEntry r
  filter : Nat
  nBytes : Nat
  offsets : Nat → r.T

namespace Config
variable (c : Config r)

def bitsPerBucket : Nat := c.k * c.associativity

def nParts (nPartitions : Nat) : Nat :=
  match c.partitioning with
  | .Enabled => nPartitions
  | .Disabled => 1

def optimalFingerprintSize : Bool := c.k == 8 || c.k == 16 || c.k == 32

/-- `offset_vertical` and `offset_horizontal`. -/
def offset (x : CuckooContainer r) (index : Nat) : r.T :=
  match c.partitioning with
  | .Enabled => x.offsets index
  | .Disabled => 0

def cuckooFingerprint (hash : r.T) : r.T :=
  let fingerprint := AddresserEntry.fingerprint c.k hash
  if fingerprint = 0 then fingerprint + 1 else fingerprint

def address1 (x : CuckooContainer r) (index : Nat) (hash : r.T) : r.T :=
  (x.entries index).computeAddress c.mode (extractAddressBits hash)

end Config

namespace Standard

variable (c : Config r)

/-! ## The constructors -/

def nBuckets (s length : Nat) : r.T :=
  BitVec.ofNat r.bits (alignNumber (length * s % 2 ^ 64 / 100) c.associativity / c.associativity)

/-- The bytes that `last_offset` grows by for a partition of `n` buckets. -/
def regionBytes (n : Nat) : Nat :=
  alignNumber (n * c.bitsPerBucket % 2 ^ 64) r.bits / 8 +
    match c.partitioning with
    | .Enabled => if c.optimalFingerprintSize then 0 else r.bits / 8
    | .Disabled => 0

def lastOffset (entries : Nat → AddresserEntry r) : Nat → r.T
  | 0 => 0
  | i + 1 => lastOffset entries i + BitVec.ofNat r.bits (regionBytes c (entries i).size.toNat)

def new (s nPartitions : Nat) (histogram : Nat → r.T) : CuckooContainer r :=
  let entries := fun i => AddresserEntry.new c.mode (nBuckets c s (histogram i).toNat)
  { entries, filter := 0, nBytes := valign (lastOffset c entries (c.nParts nPartitions)).toNat,
    offsets := lastOffset c entries }

/-! ## Buckets -/

/-- The byte of a bucket, computed in `size_t`. -/
def bucketByte (x : CuckooContainer r) (byteOffset address : r.T) : Nat :=
  x.filter + byteOffset.toNat + address.toNat * c.bitsPerBucket % 2 ^ 64 / 8

/-- The bit address of a bucket, computed in `T`. -/
def bitAddress (byteOffset address : r.T) : r.T := address * BitVec.ofNat r.bits c.bitsPerBucket + byteOffset <<< 3

def loadBucket (x : CuckooContainer r) (byteOffset address : r.T) (m : Mem) : r.T :=
  if c.optimalFingerprintSize then m.load (8 * bucketByte c x byteOffset address) r.bits
  else gatheruBits false true c.bitsPerBucket (bitAddress c byteOffset address).toNat x.filter m

def bucketContains (x : CuckooContainer r) (byteOffset fingerprint address : r.T) (m : Mem) : Bool :=
  hasValue c.k c.associativity (loadBucket c x byteOffset address m) fingerprint != 0

/-- `bucket_insert`; `none` where it returns 0 and writes nothing. -/
def bucketInsert (x : CuckooContainer r) (byteOffset fingerprint address : r.T) (m : Mem) : Option Mem :=
  let bucket := loadBucket c x byteOffset address m
  let zero := hasZero c.k c.associativity bucket
  let zeroIndex := tzcount zero
  if zero = 0 then none
  else if c.optimalFingerprintSize then
    some (m.store (8 * bucketByte c x byteOffset address + zeroIndex / c.k * c.k) (fingerprint.setWidth c.k))
  else
    some (scatteruBits false true c.bitsPerBucket (bitAddress c byteOffset address).toNat x.filter
      (bucket ||| fingerprint <<< zeroIndex) m)

def contains (x : CuckooContainer r) (value : r.T) (index : Nat) (m : Mem) : Bool :=
  let hash := c.hash value
  let fingerprint := c.cuckooFingerprint hash
  let offset := c.offset x index
  let address1 := c.address1 x index hash
  let address2 := (x.entries index).computeAlternativeAddress c.mode address1 fingerprint
  bucketContains c x offset fingerprint address1 m || bucketContains c x offset fingerprint address2 m

/-! ## Insertion -/

structure Victim (r : RegisterSize) where
  address : r.T
  fingerprint : r.T
  mem : Mem

/-- `evict_victim`, where `rng` yields `randomIndex`. -/
def evictVictim (x : CuckooContainer r) (index randomIndex : Nat) (address fingerprint byteOffset : r.T) (m : Mem) :
    Victim r :=
  let bit := byteOffset <<< 3 + address * BitVec.ofNat r.bits c.bitsPerBucket +
    BitVec.ofNat r.bits randomIndex * BitVec.ofNat r.bits c.k
  let slotBit := 8 * bucketByte c x byteOffset address + randomIndex * c.k
  let slot : r.T :=
    if c.optimalFingerprintSize then (m.load slotBit c.k).setWidth r.bits else gatheruBits false false c.k
      bit.toNat x.filter m
  let m :=
    if c.optimalFingerprintSize then m.store slotBit (fingerprint.setWidth c.k)
    else scatteruBits false false c.k bit.toNat x.filter fingerprint m
  ⟨(x.entries index).computeAlternativeAddress c.mode address slot, slot, m⟩

/-- The loop of `insert`; `random i` is what `rng` yields in iteration `i`. -/
def insertLoop (x : CuckooContainer r) (index : Nat) (offset : r.T) (random : Nat → Nat) :
    Nat → Nat → Victim r → Bool × Mem
  | 0, _, v => (false, v.mem)
  | fuel + 1, i, v =>
    match bucketInsert c x offset v.fingerprint v.address v.mem with
    | some m => (true, m)
    | none => insertLoop x index offset random fuel (i + 1)
      (evictVictim c x index (random i) v.address v.fingerprint offset v.mem)

def insertHash (x : CuckooContainer r) (hash offset : r.T) (index : Nat) (random : Nat → Nat) (m : Mem) :
    Bool × Mem :=
  let fingerprint := c.cuckooFingerprint hash
  let address1 := c.address1 x index hash
  match bucketInsert c x offset fingerprint address1 m with
  | some m => (true, m)
  | none =>
    let address2 := (x.entries index).computeAlternativeAddress c.mode address1 fingerprint
    insertLoop c x index offset random maxIteration 0 ⟨address2, fingerprint, m⟩

def insert (x : CuckooContainer r) (value : r.T) (index : Nat) (random : Nat → Nat) (m : Mem) : Bool × Mem :=
  insertHash c x (c.hash value) (c.offset x index) index random m

end Standard

end PartitionedFilters.Cuckoo

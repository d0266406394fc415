import PartitionedFilters.Address
import PartitionedFilters.Simd

/-!
# The Bloom filter

`BloomContainer` and the masks of all variants, for one value. The recursion of
`BloomMask` does not depend on the memory, so it is unrolled into its steps, one
for each word that is read.
-/

namespace PartitionedFilters

def SIMD.bits : SIMD → Nat
  | .Scalar => 0
  | .AVX2 => 256
  | .AVX512 => 512

namespace Bloom

variable {r : RegisterSize}

inductive Variant where
  | Naive
  | Blocked
  | Sectorized
  | Grouped
  deriving DecidableEq, Repr

inductive BlockSize where
  | _512bit
  | _256bit
  | _128bit
  | _64bit
  | _32bit
  deriving DecidableEq, Repr

def BlockSize.bits : BlockSize → Nat
  | _512bit => 512
  | _256bit => 256
  | _128bit => 128
  | _64bit => 64
  | _32bit => 32

inductive Groups where
  | _1group
  | _2groups
  | _4groups
  | _8groups
  deriving DecidableEq, Repr

def Groups.count : Groups → Nat
  | _1group => 1
  | _2groups => 2
  | _4groups => 4
  | _8groups => 8

inductive Vectorization where
  | Horizontal
  | Vertical
  deriving DecidableEq, Repr

/-- The template parameters; `rehash n` is `Hasher::rehash<n>`, applied to the hash and the value. -/
structure Config (r : RegisterSize) where
  variant : Variant
  vectorization : Vectorization
  blockSize : BlockSize
  groups : Groups
  k : Nat
  simd : SIMD
  partitioning : Partitioning
  mode : AddressingMode
  hash : r.T → r.T
  rehash : Nat → r.T → r.T → r.T

namespace Config
variable (c : Config r)

def avx : Bool := c.simd != .Scalar

/-- `n_sectors`; `math::const_log2` rounds down. -/
def nSectors : Nat := c.blockSize.bits / r.bits

def sectorBits : Nat := Nat.log2 c.nSectors

/-- `k_per_iteration` of the sectorized masks. -/
def kPerSector : Nat := c.k / c.nSectors

/-- `k_per_iteration` of the grouped mask. -/
def kPerGroup : Nat := c.k / c.groups.count

def nSectorsPerGroup : Nat := c.blockSize.bits / r.bits / c.groups.count

def nSectorBitsPerGroup : Nat := Nat.log2 c.nSectorsPerGroup

def shiftFactor : Nat := Nat.log2 (c.blockSize.bits / r.bits)

/-- The static assertions, and the division by `k_per_iteration` of the grouped mask. -/
structure Admitted : Prop where
  naive : c.variant = .Naive → c.blockSize.bits = r.bits
  sectorized : c.variant = .Sectorized → c.k % c.nSectors = 0
  register32 : c.variant = .Sectorized → c.blockSize = ._32bit → r = ._32bit
  register64 : c.variant = .Sectorized → c.blockSize = ._64bit → r = ._64bit
  vertical : c.vectorization = .Vertical → c.variant = .Sectorized ∧ c.avx = true ∧ c.blockSize.bits ≤ c.simd.bits
  grouped : c.variant = .Grouped → c.groups.count ≤ c.k

def nParts (nPartitions : Nat) : Nat :=
  match c.partitioning with
  | .Enabled => nPartitions
  | .Disabled => 1

end Config

def wordBits (r : RegisterSize) : Nat := Nat.log2 r.bits

def addressBits : Nat := 32

/-- `extractBits` of `simd/helper.hpp`. -/
def extractBits (vector : r.T) (offset nBits : Nat) : r.T :=
  (vector >>> (r.bits - offset - nBits)) &&& (1#64 <<< nBits - 1#64).setWidth r.bits

/-! ## The container -/

/-- `filter` is the byte address of the array. -/
structure BloomContainer (r : RegisterSize) where
  entries : Nat → AddresserEntry r
  filter : Nat
  nBytes : Nat
  offsets : Nat → r.T

namespace BloomContainer
variable (c : Config r)

def nBlocks (s length : Nat) : r.T := BitVec.ofNat r.bits (length * c.k * s % 2 ^ 64 / 100 / c.blockSize.bits + 1)

def lastOffset (entries : Nat → AddresserEntry r) : Nat → r.T
  | 0 => 0
  | i + 1 => lastOffset entries i + (entries i).size

def new (s nPartitions : Nat) (histogram : Nat → r.T) : BloomContainer r :=
  let entries := fun i => AddresserEntry.new c.mode (nBlocks c s (histogram i).toNat)
  { entries, filter := 0,
    nBytes := valign ((lastOffset entries (c.nParts nPartitions)).toNat * c.blockSize.bits % 2 ^ 64 / 8),
    offsets := lastOffset entries }

/-- `compute_offset_vertical` and `compute_offset_horizontal`. -/
def computeOffset (x : BloomContainer r) (index : Nat) (address : r.T) : r.T :=
  match c.partitioning with
  | .Enabled => x.offsets index + (x.entries index).computeAddress c.mode address
  | .Disabled => (x.entries index).computeAddress c.mode address

end BloomContainer

/-! ## Hash windows -/

/-- A hash, its bits that were not used yet, and how often it was hashed again. -/
structure HashWindow (r : RegisterSize) where
  hash : r.T
  remaining : Nat
  nRehash : Nat

namespace HashWindow
variable (c : Config r) (value : r.T)

/-- A new hash if there are less than `nBits` left. -/
def refill (h : HashWindow r) (nBits : Nat) : HashWindow r :=
  if h.remaining < nBits then ⟨c.rehash h.nRehash h.hash value, r.bits, h.nRehash + 1⟩ else h

/-- The next `nBits`, after the first `offset` ones. -/
def window (h : HashWindow r) (offset nBits : Nat) : r.T := extractBits h.hash (r.bits - h.remaining + offset) nBits

def skip (h : HashWindow r) (nBits : Nat) : HashWindow r := { h with remaining := h.remaining - nBits }

end HashWindow

/-- `BloomMaskHelper::fill_mask`: the bits that it sets. -/
def fillMask (c : Config r) (value : r.T) : Nat → HashWindow r → List Nat × HashWindow r
  | 0, h => ([], h)
  | remainingK + 1, h =>
    let h := h.refill c value (wordBits r)
    let bit := (h.window 0 (wordBits r)).toNat
    let rest := fillMask c value remainingK (h.skip (wordBits r))
    (bit :: rest.1, rest.2)

/-! ## Masks -/

/-- One word of a mask: the block that was selected, the word of the array, the bits in it, and
whether `check_mask` returns early if they are not all set. -/
structure Step (r : RegisterSize) where
  block : r.T
  word : Int
  bits : List Nat
  exit : Bool

/-- A word of the array at `base`. Gather instructions take a signed index. -/
def wordIndex (c : Config r) (base : Nat) (index : r.T) : Int :=
  base + if c.avx then index.toInt else (index.toNat : Int)

section
variable (c : Config r) (value block offset : r.T) (base : Nat)

def blockedStep (remainingK : Nat) (h : HashWindow r) : Step r × HashWindow r :=
  let h := h.refill c value (c.sectorBits + wordBits r)
  let sectorAddress := offset + h.window 0 c.sectorBits
  ({ block, word := wordIndex c base sectorAddress, bits := [(h.window c.sectorBits (wordBits r)).toNat],
     exit := decide (1 < remainingK) && (remainingK - 1) % 8 == 0 },
   h.skip (c.sectorBits + wordBits r))

/-- `BloomMask<Variant::Blocked>`. -/
def blockedSteps : Nat → HashWindow r → List (Step r)
  | 0, h => [(blockedStep c value block offset base 0 h).1]
  | remainingK + 1, h =>
    let (step, h) := blockedStep c value block offset base (remainingK + 1) h
    step :: if 1 < remainingK + 1 then blockedSteps remainingK h else []

/-- `BloomMask<Variant::Sectorized, Vectorization::Horizontal>`. -/
def sectorizedSteps (base remainingK : Nat) (h : HashWindow r) : List (Step r) :=
  let (bits, h) := fillMask c value c.kPerSector h
  { block, word := wordIndex c base offset, bits, exit := decide (c.kPerSector < remainingK) } ::
    -- no instantiation ends without the first condition
    if 0 < c.kPerSector ∧ c.kPerSector < remainingK then
      sectorizedSteps (base + 1) (remainingK - c.kPerSector) h
    else []
termination_by remainingK

/-- The group that is left at `remainingK`, computed in `size_t`. -/
def groupAddress (remainingK : Nat) : r.T :=
  (BitVec.ofNat 64 c.nSectorsPerGroup *
    (BitVec.ofNat 64 c.groups.count - BitVec.ofNat 64 (remainingK / c.kPerGroup))).setWidth r.bits

/-- `BloomMask<Variant::Grouped>`. -/
def groupedSteps (remainingK : Nat) (h : HashWindow r) : List (Step r) :=
  let h := h.refill c value c.nSectorBitsPerGroup
  let sectorAddress := offset + groupAddress c remainingK + h.window 0 c.nSectorBitsPerGroup
  let (bits, h) := fillMask c value c.kPerGroup (h.skip c.nSectorBitsPerGroup)
  { block, word := wordIndex c base sectorAddress, bits, exit := decide (c.kPerGroup < remainingK) } ::
    -- no instantiation ends without the first condition
    if 0 < c.kPerGroup ∧ c.kPerGroup < remainingK then groupedSteps (remainingK - c.kPerGroup) h else []
termination_by remainingK

end

section
variable (c : Config r) (x : BloomContainer r) (index : Nat) (value : r.T)

def naiveStep (remainingK : Nat) (addressHash blockHash : HashWindow r) : Step r :=
  let addressHash := addressHash.refill c value addressBits
  let block := x.computeOffset c index (addressHash.window 0 addressBits)
  { block, word := wordIndex c 0 block, bits := (fillMask c value 1 blockHash).1, exit := decide (1 < remainingK) }

/-- `Helper` of the naive constructor and counter. -/
def naiveSteps (remainingK : Nat) (addressHash blockHash : HashWindow r) : List (Step r) :=
  naiveStep c x index value remainingK addressHash blockHash ::
    if 1 < remainingK then
      naiveSteps (remainingK - 1) ((addressHash.refill c value addressBits).skip addressBits)
        (fillMask c value 1 blockHash).2
    else []
termination_by remainingK

/-- The elements that share a block, `n_elements_per_lane`. -/
def Config.nElementsPerLane : Nat := c.simd.bits / r.bits / (c.simd.bits / c.blockSize.bits)

/-- `BloomMask<Variant::Sectorized, Vectorization::Vertical>` for the elements of one value. -/
def verticalSteps (block blockOffset hash : r.T) : List (Step r) :=
  (List.range c.nElementsPerLane).map fun j =>
    { block, word := wordIndex c 0 (blockOffset + BitVec.ofNat r.bits j),
      bits := (fillMask c value c.kPerSector ⟨hash ^^^ singleSeed r j, 0, 0⟩).1, exit := false }

/-- The words of a value, as `insert` and `contains` walk them. -/
def steps : List (Step r) :=
  let hash := c.hash value
  let block := x.computeOffset c index (extractBits hash 0 addressBits)
  let blockOffset := block <<< c.shiftFactor
  -- a scalar vector moves the array, the others move the index
  let base := if c.avx then 0 else blockOffset.toNat
  let offset := if c.avx then blockOffset else 0
  let window : HashWindow r := ⟨hash, r.bits - addressBits, 0⟩
  match c.vectorization, c.variant with
  | .Horizontal, .Naive =>
    naiveSteps c x index value c.k ⟨hash, r.bits, 0⟩ ⟨c.hash (value ^^^ singleSeed r 0), r.bits, 0⟩
  | .Horizontal, .Blocked => blockedSteps c value block offset base c.k window
  | .Horizontal, .Sectorized => sectorizedSteps c value block offset base c.k window
  | .Horizontal, .Grouped => groupedSteps c value block offset base c.k window
  | .Vertical, _ => verticalSteps c value block blockOffset hash

end

/-! ## Insertion and lookup -/

def setBits (bits : List Nat) (vector : r.T) : r.T := bits.foldl (fun vector bit => vector ||| 1 <<< bit) vector

/-- The bit of the memory at which a word of the array starts. -/
def wordBit (x : BloomContainer r) (word : Int) : Nat := (8 * x.filter + r.bits * word : Int).toNat

section
variable (c : Config r) (x : BloomContainer r)

def insertStep (m : Mem) (s : Step r) : Mem :=
  m.store (wordBit x s.word) (setBits s.bits (m.load (wordBit x s.word) r.bits))

def insert (index : Nat) (value : r.T) (m : Mem) : Mem := (steps c x index value).foldl (insertStep x) m

def found (m : Mem) (s : Step r) : Bool :=
  let vector : r.T := m.load (wordBit x s.word) r.bits
  match c.variant with
  | .Blocked => s.bits.all fun bit => (vector >>> bit) &&& 1 == 1
  | _ =>
    let vmask := setBits s.bits 0
    vector &&& vmask == vmask

def checkMask (m : Mem) : List (Step r) → Bool
  | [] => true
  | s :: steps => if s.exit && !found c x m s then false else found c x m s && checkMask m steps

/-- The words that `check_mask` reads. -/
def tested (m : Mem) : List (Step r) → List (Step r)
  | [] => []
  | s :: steps => s :: if s.exit && !found c x m s then [] else tested m steps

def contains (index : Nat) (value : r.T) (m : Mem) : Bool := checkMask c x m (steps c x index value)

end

end Bloom

end PartitionedFilters

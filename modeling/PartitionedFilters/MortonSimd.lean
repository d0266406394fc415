import PartitionedFilters.Morton
import PartitionedFilters.Simd

/-!
# The Morton filter with more than one lane

`contains` of `CuckooContainer<false, Variant::Morton>` and what it calls for
`AVX2` and `AVX512`.
-/

namespace PartitionedFilters.Cuckoo

variable {r : RegisterSize} {n : Nat}

namespace Config
variable (c : Config r)

def simdSlotsToLoad : Nat := min c.associativity (r.bits / c.k)

def simdCounterToLoad : Nat := min c.bucketsPerBlock (r.bits / c.counterSize)

end Config

namespace Morton.Simd

variable (c : Config r) (x : CuckooContainer r)

def getSlotCount (bucketIndex blockOffset : Lanes r n) (mask : LaneMask n) (m : Mem) : Lanes r n :=
  Lanes.gatheruBits true c.counterSize (fun l => blockOffset l + bucketIndex l * BitVec.ofNat r.bits c.counterSize)
    x.filter mask m

structure Sum (r : RegisterSize) (n : Nat) where
  count : Lanes r n
  index : Lanes r n
  bitAddress : Lanes r n

def sumStep (mask : LaneMask n) (m : Mem) (s : Sum r n) : Sum r n :=
  let counters := Lanes.gatheruBits true (c.counterSize * c.simdCounterToLoad) s.bitAddress x.filter mask m
  let counterMask := fun l => ((1 : r.T) <<< (s.index l * BitVec.ofNat r.bits c.counterSize).toNat) - 1
  let toLoad := BitVec.ofNat r.bits c.simdCounterToLoad
  { count := fun l => s.count l + sumBitsInRegisters c.counterSize 0 (counters l &&& counterMask l)
    index := fun l => if toLoad.ult (s.index l) then s.index l - toLoad else 0
    bitAddress := fun l => s.bitAddress l + BitVec.ofNat r.bits (c.counterSize * c.simdCounterToLoad) }

def getSlotOffset (bucketIndex blockOffset : Lanes r n) (mask : LaneMask n) (m : Mem) : Lanes r n :=
  ((List.range (c.bucketsPerBlock / c.simdCounterToLoad + 1)).foldl (fun s _ => sumStep c x mask m s)
    { count := fun _ => 0, index := bucketIndex, bitAddress := blockOffset }).count

structure Lookup (r : RegisterSize) (n : Nat) where
  found : LaneMask n
  slotCount : Lanes r n
  bitAddress : Lanes r n

def lookupStep (fingerprint : Lanes r n) (mask : LaneMask n) (m : Mem) (i : Nat) (s : Lookup r n) : Lookup r n :=
  let bucket := Lanes.gatheruBits false (c.simdSlotsToLoad * c.k) s.bitAddress x.filter mask m
  let bitAddress := fun l => s.bitAddress l + BitVec.ofNat r.bits (c.simdSlotsToLoad * c.k)
  if c.k = 8 ∨ c.k = 16 then
    let equal := Lanes.equal c.k bucket (Lanes.permute c.k fingerprint) &&&
      Lanes.equal c.k (fun _ => 0 : Lanes r n)
        (fun l => BitVec.allOnes r.bits <<< (s.slotCount l * BitVec.ofNat r.bits c.k).toNat)
    let found := pext64 (foldEqual c.simdSlotsToLoad equal) (pextMask c.k r)
    let toLoad := BitVec.ofNat r.bits c.simdSlotsToLoad
    { found := fun l => s.found l || found.getLsbD l
      slotCount := fun l => if toLoad.ult (s.slotCount l) then s.slotCount l - toLoad else 0
      bitAddress }
  else
    { s with
      found := fun l => s.found l || (List.range c.simdSlotsToLoad).any fun j =>
        (BitVec.ofNat r.bits (i + j)).ult (s.slotCount l) && (bucket l >>> (j * c.k)) &&& valueMask r c.k ==
          fingerprint l
      bitAddress }

def bucketContains (fingerprint bucketIndex blockOffset : Lanes r n) (mask : LaneMask n) (m : Mem) : LaneMask n :=
  let slotOffset := getSlotOffset c x bucketIndex blockOffset mask m
  let slotCount := getSlotCount c x bucketIndex blockOffset mask m
  let bitAddress := fun l => blockOffset l + 512 - (slotCount l + slotOffset l) * BitVec.ofNat r.bits c.k
  ((List.range ((c.associativity + c.simdSlotsToLoad - 1) / c.simdSlotsToLoad)).foldl
    (fun s t => lookupStep c x fingerprint mask m (c.simdSlotsToLoad * t) s)
    { found := fun _ => false, slotCount, bitAddress }).found

/-- `simd::div` of vectors; `divide` stands for the multiplications that replace the other divisions. -/
def vectorDiv (divide : Nat → r.T → r.T) (divisor : Nat) (dividend : r.T) : r.T :=
  if isPowerOfTwo divisor then dividend >>> Nat.log2 divisor else divide divisor dividend

def vectorMod (divide : Nat → r.T → r.T) (divisor : Nat) (dividend : r.T) : r.T :=
  if isPowerOfTwo divisor then dividend &&& BitVec.ofNat r.bits (divisor - 1)
  else dividend - vectorDiv divide divisor dividend * BitVec.ofNat r.bits divisor

def getOta (divide : Nat → r.T → r.T) (bucketIndex blockOffset : Lanes r n) (mask : LaneMask n) (m : Mem) :
    LaneMask n :=
  let bitAddress :=
    fun l => blockOffset l + BitVec.ofNat r.bits c.otaOffset + vectorMod divide c.otaSize (bucketIndex l)
  let ota := Lanes.gatheruBits true 1 bitAddress x.filter mask m
  fun l => if 0 < c.otaSize then ota l == 1 else true

def contains (divide : Nat → r.T → r.T) (value : Lanes r n) (index : Nat) (mask : LaneMask n) (m : Mem) :
    LaneMask n :=
  let fingerprint := fun l => AddresserEntry.fingerprint c.k (c.hash (value l))
  let offset := c.offset x index
  let blockOffset := fun address : r.T =>
    offset <<< 3 + vectorDiv divide c.bucketsPerBlock address * BitVec.ofNat r.bits 512
  let address1 := fun l => c.address1 x index (c.hash (value l))
  let bucketIndex1 := fun l => vectorMod divide c.bucketsPerBlock (address1 l)
  let blockOffset1 := fun l => blockOffset (address1 l)
  let address2 := fun l => (x.entries index).computeAlternativeAddress c.mode (address1 l) (fingerprint l)
  let bucketIndex2 := fun l => vectorMod divide c.bucketsPerBlock (address2 l)
  let blockOffset2 := fun l => blockOffset (address2 l)
  let overflow := getOta c x divide bucketIndex1 blockOffset1 mask m
  let mask2 := if 0 < c.otaSize then fun l => overflow l && mask l else mask
  fun l => mask l && (bucketContains c x fingerprint bucketIndex1 blockOffset1 mask m l ||
    bucketContains c x fingerprint bucketIndex2 blockOffset2 mask2 m l)

end Morton.Simd

end PartitionedFilters.Cuckoo

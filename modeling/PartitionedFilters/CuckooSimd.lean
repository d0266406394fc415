import PartitionedFilters.Cuckoo
import PartitionedFilters.Simd

/-!
# The cuckoo filter with more than one lane

The buckets of `CuckooContainer<false, Variant::Standard>` for `AVX2` and
`AVX512`. Every bucket is read and written at a bit address of type `T`.
-/

namespace PartitionedFilters.Cuckoo.Standard.Simd

variable {r : RegisterSize} {n : Nat} (c : Config r) (x : CuckooContainer r)

def loadBucket (address byteOffset : Lanes r n) (mask : LaneMask n) (m : Mem) : Lanes r n :=
  Lanes.gatheruBits true c.bitsPerBucket (fun l => bitAddress c (byteOffset l) (address l)) x.filter mask m

def bucketContains (fingerprint address byteOffset : Lanes r n) (mask : LaneMask n) (m : Mem) : LaneMask n :=
  let bucket := loadBucket c x address byteOffset mask m
  if c.k = 8 ∨ c.k = 16 then
    let equal := Lanes.equal c.k bucket (Lanes.permute c.k fingerprint)
    fun l => (pext64 (foldEqual c.associativity equal) (pextMask c.k r)).getLsbD l
  else
    fun l => (List.range c.associativity).any fun j =>
      (bucket l >>> (c.k * j)) &&& valueMask r c.k == fingerprint l

def contains (value : Lanes r n) (index : Nat) (mask : LaneMask n) (m : Mem) : LaneMask n :=
  let fingerprint := fun l => c.cuckooFingerprint (c.hash (value l))
  let offset := fun _ => c.offset x index
  let address1 := fun l => c.address1 x index (c.hash (value l))
  let address2 := fun l => (x.entries index).computeAlternativeAddress c.mode (address1 l) (fingerprint l)
  fun l => mask l && (bucketContains c x fingerprint address1 offset mask m l ||
    bucketContains c x fingerprint address2 offset mask m l)

/-- One slot of the loop of `bucket_insert`: the buckets, and the lanes that are done. -/
def insertStep (fingerprint : Lanes r n) (s : Lanes r n × LaneMask n) (j : Nat) : Lanes r n × LaneMask n :=
  let slot := fun l => (s.1 l >>> (c.k * j)) &&& valueMask r c.k
  let found := fun l => !s.2 l && slot l == 0
  (fun l => if found l then s.1 l ||| fingerprint l <<< (c.k * j) else s.1 l, fun l => s.2 l || found l)

def bucketInsert (fingerprint address byteOffset : Lanes r n) (mask : LaneMask n) (m : Mem) : LaneMask n × Mem :=
  let (bucket, res) := (List.range c.associativity).foldl (insertStep c fingerprint)
    (loadBucket c x address byteOffset mask m, fun _ => false)
  (fun l => res l && mask l,
    Lanes.scatteruBits true c.bitsPerBucket (fun l => bitAddress c (byteOffset l) (address l))
      x.filter bucket mask m)

/-- The bit address of a slot in `evict_victim`. -/
def slotAddress (byteOffset address : r.T) (randomIndex : Nat) : r.T :=
  byteOffset <<< 3 + address * BitVec.ofNat r.bits c.bitsPerBucket +
    BitVec.ofNat r.bits randomIndex * BitVec.ofNat r.bits c.k

/-- `evict_victim`: the new addresses and fingerprints. All lanes have the same random index. -/
def evictVictim (index randomIndex : Nat) (address fingerprint byteOffset : Lanes r n)
    (mask : LaneMask n) (m : Mem) :
    Lanes r n × Lanes r n × Mem :=
  let bit := fun l => slotAddress c (byteOffset l) (address l) randomIndex
  let slot := Lanes.gatheruBits false c.k bit x.filter mask m
  (fun l => (x.entries (index + l)).computeAlternativeAddress c.mode (address l) (slot l), slot,
    Lanes.scatteruBits false c.k bit x.filter fingerprint mask m)

end PartitionedFilters.Cuckoo.Standard.Simd

import PartitionedFilters.Parameter
import Mathlib.Logic.Function.Basic

/-!
# Partitioning the input

`PartitionSet<Enabled>`: `init` on one thread, and the tasks `init` puts into a
`TaskQueue`. Both only write to `values`, through cache-line buffers, so each is
modelled with the list of its writes. Integers of type `T` and `size_t` are
naturals reduced where the source can wrap.
-/

namespace PartitionedFilters

open Function (update)

variable {r : RegisterSize}

namespace CacheLineBuffer

def nTuplesPerCacheLine (r : RegisterSize) : Nat := 64 / r.bytes

def nCacheLineBuffer : Nat := 4

def nTuplesPerCacheLineBuffer (r : RegisterSize) : Nat := nTuplesPerCacheLine r * nCacheLineBuffer

end CacheLineBuffer

open CacheLineBuffer

/-- One store to `values`, with the partition it is made for. -/
structure Write (r : RegisterSize) where
  partition : Nat
  cell : Nat
  value : r.T
  deriving DecidableEq, Repr

/-- `store`, and with the whole length `store_non_temporal`. -/
def store (partition : Nat) (tuples : Nat → r.T) (dst nTuples : Nat) : List (Write r) :=
  (List.range nTuples).map fun i => ⟨partition, dst + i, tuples i⟩

structure PartitionSet (r : RegisterSize) where
  nPartitions : Nat
  length : Nat
  histogram : Nat → Nat
  offsets : Nat → Nat
  values : Nat → Option r.T

namespace PartitionSet

def partitioningMask (nPartitions : Nat) : BitVec 64 :=
  if 1 < nPartitions then 1#64 <<< getNumberOfBits 64 nPartitions - 1#64 else 0

def bucket (nPartitions : Nat) (x : r.T) : Nat := (x.setWidth 64 &&& partitioningMask nPartitions).toNat

def allocate (r : RegisterSize) (nElements : Nat) : Nat := r.bytes * nElements % 2 ^ 64

def countTuples (nPartitions : Nat) (v : List r.T) : Nat → Nat :=
  v.foldl (fun h x => update h (bucket nPartitions x) ((h (bucket nPartitions x) + 1) % 2 ^ r.bits)) fun _ => 0

def padded (r : RegisterSize) (n : Nat) : Nat := (n / nTuplesPerCacheLineBuffer r + 1) * nTuplesPerCacheLineBuffer r

/-! ## Filling the buffers -/

/-- Buffers, their fill and the position each is flushed to. -/
structure Buffers (r : RegisterSize) where
  tuples : Nat → Nat → r.T
  bufferOffset : Nat → Nat
  position : Nat → Nat
  writes : List (Write r)

/-- The body of the scatter loops. The positions are pointers in one version and
of type `T` in the other, hence `next`. -/
def Buffers.push (next : Nat → Nat) (nPartitions : Nat) (b : Buffers r) (x : r.T) : Buffers r :=
  let p := bucket nPartitions x
  let tuples := update b.tuples p (update (b.tuples p) (b.bufferOffset p) x)
  if b.bufferOffset p + 1 = nTuplesPerCacheLineBuffer r then
    { tuples, bufferOffset := update b.bufferOffset p 0, position := update b.position p (next (b.position p)),
      writes := b.writes ++ store p (tuples p) (b.position p) (nTuplesPerCacheLineBuffer r) }
  else { b with tuples, bufferOffset := update b.bufferOffset p (b.bufferOffset p + 1) }

def Write.apply (values : Nat → Option r.T) (w : Write r) : Nat → Option r.T := update values w.cell (some w.value)

/-! ## `init` on one thread -/

/-- `offsets` and `last_offset`, of type `T`. -/
def layout (r : RegisterSize) (histogram : Nat → Nat) (nPartitions : Nat) : (Nat → Nat) × Nat :=
  (List.range nPartitions).foldl (fun s p => (update s.1 p s.2, (s.2 + padded r (histogram p)) % 2 ^ r.bits))
    (fun _ => 0, 0)

/-- The writes of `init`; `uninit` is what the buffers hold before. -/
def initWrites (nPartitions : Nat) (uninit : Nat → Nat → r.T) (offsets : Nat → Nat) (v : List r.T) :
    List (Write r) :=
  let b := v.foldl (Buffers.push (· + nTuplesPerCacheLineBuffer r) nPartitions)
    { tuples := uninit, bufferOffset := fun _ => 0, position := offsets, writes := [] }
  b.writes ++ (List.range nPartitions).flatMap fun p =>
    if b.bufferOffset p = 0 then [] else store p (b.tuples p) (b.position p) (nTuplesPerCacheLineBuffer r)

def init (nPartitions : Nat) (uninit : Nat → Nat → r.T) (v : List r.T) : PartitionSet r × List (Write r) :=
  let histogram := countTuples nPartitions v
  let (offsets, lastOffset) := layout r histogram nPartitions
  let writes := initWrites nPartitions uninit offsets v
  ({ nPartitions, length := allocate r lastOffset, histogram, offsets,
     values := writes.foldl Write.apply fun _ => none },
    writes)

/-- `init` of `PartitionSet<Disabled>`, which takes the values as they are. -/
def initDisabled (v : List r.T) : PartitionSet r :=
  { nPartitions := 1, length := v.length, histogram := fun _ => v.length % 2 ^ r.bits, offsets := fun _ => 0,
    values := fun i => v[i]? }

/-! ## `init` with a task queue -/

/-- The sub-arrays `[begin, end)` of the tasks of one level. -/
def slices (v : List r.T) : Nat → List (List r.T)
  | 0 => []
  | n + 1 => v.take (v.length / (n + 1)) :: slices (v.drop (v.length / (n + 1))) n

/-- The first level: task `i` fills `local_histograms[i]`, in the order the tasks are run. -/
def localHistograms (nPartitions : Nat) (s : List (List r.T)) (order : List Nat) : Nat → Nat → Nat :=
  order.foldl (fun h i => update h i (countTuples nPartitions (s.getD i []))) fun _ _ => 0

/-- What the second level writes: `offsets`, `histogram`, `local_offsets` by task, and `last_offset`. -/
structure Combined where
  offsets : Nat → Nat
  histogram : Nat → Nat
  localOffsets : Nat → Nat → Nat
  lastOffset : Nat

def combineTask (r : RegisterSize) (localHistograms : Nat → Nat → Nat) (lastOffset p : Nat)
    (s : (Nat → Nat → Nat) × Nat) (task : Nat) : (Nat → Nat → Nat) × Nat :=
  (update s.1 task (update (s.1 task) p ((lastOffset + s.2) % 2 ^ r.bits)), (s.2 + localHistograms task p) % 2 ^ 64)

def combineStep (r : RegisterSize) (localHistograms : Nat → Nat → Nat) (nTasks : Nat) (c : Combined) (p : Nat) :
    Combined :=
  let (localOffsets, counter) :=
    (List.range nTasks).foldl (combineTask r localHistograms c.lastOffset p) (c.localOffsets, 0)
  { offsets := update c.offsets p (c.lastOffset % 2 ^ r.bits),
    histogram := update c.histogram p (counter % 2 ^ r.bits),
    localOffsets, lastOffset := (c.lastOffset + padded r counter) % 2 ^ 64 }

def combine (r : RegisterSize) (localHistograms : Nat → Nat → Nat) (nTasks nPartitions : Nat) : Combined :=
  (List.range nPartitions).foldl (combineStep r localHistograms nTasks) ⟨fun _ => 0, fun _ => 0, fun _ _ => 0, 0⟩

structure ThreadBuffers (r : RegisterSize) where
  tuples : Nat → Nat → r.T
  bufferOffset : Nat → Nat

def scatterTask (nPartitions : Nat) (slice : List r.T) (localOffsets : Nat → Nat) (t : ThreadBuffers r) :
    ThreadBuffers r × List (Write r) :=
  let b := slice.foldl (Buffers.push (fun o => (o + nTuplesPerCacheLineBuffer r) % 2 ^ r.bits) nPartitions)
    { tuples := t.tuples, bufferOffset := t.bufferOffset, position := localOffsets, writes := [] }
  ({ tuples := b.tuples, bufferOffset := fun p => if p < nPartitions then 0 else b.bufferOffset p },
    b.writes ++ (List.range nPartitions).flatMap fun p => store p (b.tuples p) (b.position p) (b.bufferOffset p))

def scatterThread (nPartitions : Nat) (s : List (List r.T)) (localOffsets : Nat → Nat → Nat) :
    List Nat → ThreadBuffers r → List (Write r)
  | [], _ => []
  | i :: tasks, t =>
    let (t, writes) := scatterTask nPartitions (s.getD i []) (localOffsets i) t
    writes ++ scatterThread nPartitions s localOffsets tasks t

/-- How the tasks of the first and third level are run: the order in which the
histograms get filled, the tasks of each thread, and its uninitialised buffers. -/
structure Schedule (r : RegisterSize) where
  order : List Nat
  threads : List (List Nat)
  uninit : Nat → Nat → Nat → r.T

def combined (nPartitions nTasks : Nat) (v : List r.T) (sch : Schedule r) : Combined :=
  combine r (localHistograms nPartitions (slices v nTasks) sch.order) nTasks nPartitions

def threadWrites (nPartitions nTasks : Nat) (v : List r.T) (sch : Schedule r) : List (List (Write r)) :=
  sch.threads.mapIdx fun t tasks => scatterThread nPartitions (slices v nTasks)
    (combined nPartitions nTasks v sch).localOffsets tasks { tuples := sch.uninit t, bufferOffset := fun _ => 0 }

/-- `init` with a task queue, when the writes of the third level take effect in the order `writes`. -/
def initTasks (nPartitions nTasks : Nat) (v : List r.T) (sch : Schedule r) (writes : List (Write r)) :
    PartitionSet r :=
  let c := combined nPartitions nTasks v sch
  { nPartitions, length := allocate r c.lastOffset, histogram := c.histogram, offsets := c.offsets,
    values := writes.foldl Write.apply fun _ => none }

end PartitionSet

end PartitionedFilters

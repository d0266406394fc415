import PartitionedFilters.Xor

/-!
# The container of the Xor filter and its construction

`XorContainer`, `_construct` with `_construct_fallback`, `construct` and the
incremental interface, for scalar vectors.
-/

namespace PartitionedFilters.Xor

open Function (update)

variable {r : RegisterSize}

/-! ## `XorContainer` -/

/-- The buckets of a set that both constructors compute from the number of keys. -/
def nBlocks (c : Config r) (length : Nat) : r.T :=
  let h : r.T := BitVec.ofNat r.bits (alignNumber (length * c.s % 2 ^ 64 / 100) (nSets c.variant) / nSets c.variant)
  if h = 0 then 1 else h

/-- The array cell of a partition; without partitioning there is only one. -/
def Config.cell (c : Config r) (index : Nat) : Nat :=
  match c.partitioning with
  | .Enabled => index
  | .Disabled => 0

/-- The fingerprints that have an integer type of their own. -/
def Config.byteAddressed (c : Config r) : Bool := c.k == 8 || c.k == 16 || c.k == 32

structure XorContainer (r : RegisterSize) where
  entries : Nat → AddresserEntry r
  fingerprints : Mem
  nBytes : Nat
  offsets : Fin 3 → Nat → Nat
  seeds : Nat → r.T

namespace XorContainer

/-- The three offsets of partition `i`, and `last_offset`. -/
def layoutStep (c : Config r) (entries : Nat → AddresserEntry r) (s : (Fin 3 → Nat → Nat) × Nat) (i : Nat) :
    (Fin 3 → Nat → Nat) × Nat :=
  let n := (entries i).size.toNat
  let last1 := r.wrap (s.2 + n)
  let last2 := r.wrap (last1 + n)
  let last := r.wrap (last2 + n)
  let last := match c.variant with
    | .Standard => last
    | .Fuse => r.wrap (last + n * (fuseSegments - 1))
  let last := if c.byteAddressed then last else r.wrap (last + r.bits / 8)
  (fun j => update (s.1 j) (c.cell i) (match j with
    | 0 => s.2
    | 1 => last1
    | 2 => last2), last)

def layout (c : Config r) (entries : Nat → AddresserEntry r) (nPartitions : Nat) : (Fin 3 → Nat → Nat) × Nat :=
  (List.range nPartitions).foldl (layoutStep c entries) (fun _ _ => 0, 0)

def new (c : Config r) (nPartitions : Nat) (histogram : Nat → Nat) : XorContainer r :=
  let entries := fun i => AddresserEntry.new c.mode (nBlocks c (histogram i))
  let (offsets, lastOffset) := layout c entries nPartitions
  { entries, fingerprints := Mem.zero, nBytes := valign (alignNumber (lastOffset * c.k % 2 ^ 64) 8 / 8), offsets,
    seeds := fun _ => 0 }

def getFingerprint (c : Config r) (m : Mem) (address : Nat) : r.T :=
  if c.byteAddressed then (m.load (c.k * address) c.k).setWidth r.bits
  else gatheruBits false true c.k (r.wrap (address * c.k)) 0 m

def setFingerprint (c : Config r) (fingerprint : r.T) (address : Nat) (m : Mem) : Mem :=
  if c.byteAddressed then m.store (c.k * address) (fingerprint.setWidth c.k)
  else scatteruBits false true c.k (r.wrap (address * c.k)) 0 fingerprint m

/-- `compute_address_horizontal` and `compute_address_vertical`. -/
def computeAddress (c : Config r) (e : AddresserEntry r) (set : Fin 3) (hash : r.T) (offset : Nat) : Nat :=
  r.wrap (offset + c.address e set hash)

def assignStandard (c : Config r) (e : AddresserEntry r) (offsets : Fin 3 → Nat) (s : Standard.XorStack r)
    (set0 set1 set2 : Fin 3) (m : Mem) (runIndex : Nat) : Mem :=
  let beginOffset := s.runs.getD (runIndex - 1) 0
  let endOffset := s.runs.getD runIndex 0
  (List.range' beginOffset (endOffset - beginOffset)).foldl (fun m i =>
    let hash := s.stack i
    let address0 := computeAddress c e set0 hash (offsets set0)
    let address1 := computeAddress c e set1 hash (offsets set1)
    let address2 := computeAddress c e set2 hash (offsets set2)
    setFingerprint c (xorFingerprint hash ^^^ getFingerprint c m address1 ^^^ getFingerprint c m address2)
      address0 m) m

/-- The runs, three at a time from the last one. -/
def fillStandard (c : Config r) (e : AddresserEntry r) (offsets : Fin 3 → Nat) (s : Standard.XorStack r) (m : Mem) :
    Mem :=
  (List.range ((s.runs.length - 1) / 3)).foldl (fun m j =>
    let i := s.runs.length - 1 - 3 * j
    let m := assignStandard c e offsets s 2 0 1 m i
    let m := assignStandard c e offsets s 1 2 0 m (i - 1)
    assignStandard c e offsets s 0 1 2 m (i - 2)) m

/-- Iteration `j` of `assign_fuse`, from the back of the stack. -/
def assignFuseStep (c : Config r) (e : AddresserEntry r) (offsets : Fin 3 → Nat) (s : Fuse.XorStack r)
    (m : Mem) (j : Nat) : Mem :=
  let endOffset := s.endOffset - 2 * (j + 1)
  let hash := s.stack endOffset
  let address := (s.stack (endOffset + 1)).toNat
  let segment := c.segment e hash
  let address0 := r.wrap (segment + computeAddress c e 0 hash (offsets 0))
  let address1 := r.wrap (segment + computeAddress c e 1 hash (offsets 1))
  let address2 := r.wrap (segment + computeAddress c e 2 hash (offsets 2))
  setFingerprint c (xorFingerprint hash ^^^ getFingerprint c m address0 ^^^ getFingerprint c m address1 ^^^
    getFingerprint c m address2) (r.wrap (address + offsets 0)) m

def assignFuse (c : Config r) (e : AddresserEntry r) (offsets : Fin 3 → Nat) (s : Fuse.XorStack r) (m : Mem) :
    Mem :=
  (List.range (s.endOffset / 2)).foldl (assignFuseStep c e offsets s) m

def containsHash (c : Config r) (m : Mem) (e : AddresserEntry r) (offsets : Fin 3 → Nat) (hash : r.T) : Bool :=
  let segment := c.segment e hash
  let found := getFingerprint c m (r.wrap (segment + computeAddress c e 0 hash (offsets 0))) ^^^
    getFingerprint c m (r.wrap (segment + computeAddress c e 1 hash (offsets 1))) ^^^
    getFingerprint c m (r.wrap (segment + computeAddress c e 2 hash (offsets 2)))
  if c.byteAddressed then found.setWidth c.k == (xorFingerprint hash).setWidth c.k
  else found == xorFingerprint hash &&& valueMask r c.k

def contains (c : Config r) (x : XorContainer r) (value : r.T) (index : Nat) : Bool :=
  containsHash c x.fingerprints (x.entries index) (fun j => x.offsets j index) (c.hash (value ^^^ x.seeds index))

end XorContainer

/-! ## `Filter<Xor>` -/

/-- One attempt: the filled stack's `fill`, or `none` where its size is not `histogram`. -/
def attempt (c : Config r) (e : AddresserEntry r) (offsets : Fin 3 → Nat) (seed : r.T) (offset histogram : Nat)
    (values : Nat → r.T) (m : Mem) : Option Mem :=
  let x := (XorSet.new e seed).fill c offset histogram values
  match c.variant with
  | .Standard =>
    let s := Standard.buildStack c x
    if histogram = s.size then some (XorContainer.fillStandard c e offsets s m) else none
  | .Fuse =>
    let s := Fuse.buildStack c x
    if histogram = s.size then some (XorContainer.assignFuse c e offsets s m) else none

structure Filter (r : RegisterSize) where
  nPartitions : Nat
  nRetries : Nat
  container : XorContainer r

namespace Filter

/-- The loop of `_construct_fallback` from attempt `j` on. -/
def fallbackLoop (c : Config r) (e : AddresserEntry r) (offset histogram : Nat) (values : Nat → r.T) (index : Nat) :
    Nat → Nat → Filter r → Bool × Filter r
  | 0, _, f => (false, f)
  | fuel + 1, j, f =>
    let x := { f.container with seeds := update f.container.seeds index (singleSeed r j) }
    let f := { f with nRetries := f.nRetries + 1, container := x }
    match attempt c e (fun set => x.offsets set index) (singleSeed r j) offset histogram values x.fingerprints with
    | some m => (true, { f with container := { x with fingerprints := m } })
    | none => fallbackLoop c e offset histogram values index fuel (j + 1) f

/-- `_construct_fallback`: its container computes the size of the partition anew. -/
def constructFallback (c : Config r) (offset histogram : Nat) (values : Nat → r.T) (index : Nat) (f : Filter r) :
    Bool × Filter r :=
  fallbackLoop c (AddresserEntry.new c.mode (nBlocks c histogram)) offset histogram values index maxNRetries 0 f

def constructPartition (c : Config r) (offset histogram : Nat) (values : Nat → r.T) (index : Nat) (f : Filter r) :
    Bool × Filter r :=
  match attempt c (f.container.entries index) (fun set => f.container.offsets set index) 0 offset histogram values
      f.container.fingerprints with
  | some m => (true, { f with container := { f.container with fingerprints := m } })
  | none => f.constructFallback c offset histogram values index

def constructAll (c : Config r) (offsets histogram : Nat → Nat) (values : Nat → r.T) (nPartitions : Nat)
    (f : Filter r) :
    Bool × Filter r :=
  (List.range nPartitions).foldl (fun s i =>
    let (success, f) := s.2.constructPartition c (offsets i) (histogram i) values i
    (s.1 && success, f)) (true, f)

def partitions (c : Config r) (nPartitions : Nat) (uninit : Nat → Nat → r.T) (values : List r.T) : PartitionSet r :=
  match c.partitioning with
  | .Enabled => (PartitionSet.init nPartitions uninit values).1
  | .Disabled => PartitionSet.initDisabled values

def empty (c : Config r) (nPartitions : Nat) (histogram : Nat → Nat) : Filter r :=
  { nPartitions, nRetries := 0, container := .new c nPartitions histogram }

def construct (c : Config r) (nPartitions : Nat) (uninit : Nat → Nat → r.T) (values : List r.T) : Bool × Filter r :=
  let p := partitions c nPartitions uninit values
  constructAll c p.offsets p.histogram (fun i => (p.values i).getD 0) p.nPartitions
    (empty c p.nPartitions p.histogram)

def containsAt (c : Config r) (f : Filter r) (value : r.T) (index : Nat) : Bool :=
  f.container.contains c value (c.cell index)

/-- `contains(value)`, which takes the partition from the low bits. -/
def contains (c : Config r) (f : Filter r) (value : r.T) : Bool :=
  f.containsAt c value (value.setWidth 64 &&& BitVec.ofNat 64 (f.nPartitions - 1)).toNat

/-! ## The incremental interface -/

def init (c : Config r) (nPartitions : Nat) (histogram : Nat → Nat) : Filter r :=
  empty c (max nPartitions 1) histogram

/-- What `add_partition` calls, with the result it drops. -/
def buildPartition (c : Config r) (f : Filter r) (values : List r.T) (index : Nat) : Bool × Filter r :=
  f.constructPartition c 0 (r.wrap values.length) (fun i => values.getD i 0) (c.cell index)

def addPartition (c : Config r) (f : Filter r) (values : List r.T) (index : Nat) : Bool × Filter r :=
  (true, (f.buildPartition c values index).2)

def addAll (c : Config r) (f : Filter r) (values : List r.T) : Bool × Filter r :=
  f.addPartition c values 0

end Filter

end PartitionedFilters.Xor

import PartitionedFilters.BloomSimd

/-!
# Insertion into the Bloom filter

`insert`, `construct_partition` and `construct` of `BloomConstructor`, for
scalar vectors and for vectors with more than one lane. The lanes of the
horizontal constructors have a partition each; those of the vertical one have
the words of a few values of one partition.
-/

namespace PartitionedFilters.Bloom

variable {r : RegisterSize} {n : Nat}

/-- The arrays of a `PartitionSet`. An index may be negative, which reads in front of the values. -/
structure Partitions (r : RegisterSize) where
  nPartitions : Nat
  extent : Extent
  values : Int → r.T
  histogram : Nat → r.T
  offsets : Nat → r.T

namespace Simd

section
variable (c : Config r) (x : BloomContainer r)

/-! ## Lanes with a partition each -/

/-- A word of each lane. All words are loaded before the first one is stored; scalar vectors have no mask. -/
def insertStep (mask : LaneMask n) (m : Mem) (s : Fin n → Step r) : Mem :=
  (List.finRange n).foldl (fun stored l =>
    if mask l || !c.avx then
      stored.store (wordBit x (s l).word) (setBits (s l).bits (m.load (wordBit x (s l).word) r.bits))
    else stored) m

/-- The words of the lanes; lane `l` has partition `index + l`. -/
def partitionSteps (index : Nat) (values : Lanes r n) : List (Fin n → Step r) :=
  (List.range (steps c x index 0).length).map fun t l => stepAt c x (index + l) (values l) t

/-- `insert` of the horizontal and the naive constructor. -/
def insertHorizontal (index : Nat) (values : Lanes r n) (mask : LaneMask n) (m : Mem) : Mem :=
  (partitionSteps c x index values).foldl (insertStep c x mask) m

def groupMask (p : Partitions r) (i t : Nat) : LaneMask n := fun l =>
  decide (p.offsets (i + l) + BitVec.ofNat r.bits t < p.offsets (i + l) + p.histogram (i + l))

/-- The loop of `construct` from iteration `t` on; `none` if it has not ended after `fuel` iterations. -/
def groupLoop (p : Partitions r) (i : Nat) : Nat → Nat → Mem → Option Mem
  | 0, _, _ => none
  | fuel + 1, t, m =>
    let mask : LaneMask (c.simd.nElements r) := groupMask p i t
    if ∀ l, mask l = false then some m
    else
      let values :=
        fun l : Fin (c.simd.nElements r) => p.values (wordIndex c 0 (p.offsets (i + l) + BitVec.ofNat r.bits t))
      groupLoop p i fuel (t + 1) (insertHorizontal c x i values mask m)

/-! ## Lanes with a word each -/

/-- `generate_mask` for the values of round `j`: the lanes are loaded together, and ored one after the other. -/
def insertRound [NeZero n] (index : Nat) (values : Lanes r n) (mask : LaneMask n) (j : Nat) (m : Mem) : Mem :=
  (List.finRange n).foldl (fun stored e =>
    let s := stepAt c x index (values (permuteMask c j e)) (e % c.nElementsPerLane)
    if roundMask c mask j e then
      stored.store (wordBit x s.word) (stored.load (wordBit x s.word) r.bits |||
        setBits s.bits (m.load (wordBit x s.word) r.bits))
    else stored) m

/-- `insert` of the vertical constructor. A round without lanes is not made. -/
def insertVertical [NeZero n] (index : Nat) (values : Lanes r n) (mask : LaneMask n) (m : Mem) : Mem :=
  (List.range c.nElementsPerLane).foldl (fun m j =>
    if ∀ l : Fin n, j * nLanes c ≤ l → mask l = false then m else insertRound c x index values mask j m) m

end

end Simd

section
variable (c : Config r) (x : BloomContainer r) (isa : InstructionSet)

/-! ## The operations -/

def insertVector (index : Nat) (values : Lanes r (c.simd.nElements r)) (mask : LaneMask (c.simd.nElements r))
    (m : Mem) : Mem :=
  match c.vectorization with
  | .Horizontal => Simd.insertHorizontal c x index values mask m
  | .Vertical => Simd.insertVertical c x index values mask m

def loadValues (e : Extent) (values : Int → r.T) (begin : Nat) : Option (Lanes r (c.simd.nElements r)) :=
  c.simd.load isa (e.skip (r.bytes * begin)) fun l => values (begin + l : Nat)

/-- `construct_partition`. The horizontal constructors count in `T` and gather one value at a time;
the vertical one loads whole vectors, and `none` is a load that faults. -/
def constructPartition (e : Extent) (values : Int → r.T) (length index : Nat) (m : Mem) : Option Mem :=
  match c.vectorization with
  | .Horizontal =>
    some ((List.range (BitVec.ofNat r.bits length).toNat).foldl
      (fun m (i : Nat) => insertVector c x index (fun _ => values i) (fun _ => true) m) m)
  | .Vertical => do
    let n := c.simd.nElements r
    let m ← (List.range (length / n)).foldlM (fun m t => do
      let chunk ← loadValues c isa e values (n * t)
      return insertVector c x index chunk (fun _ => true) m) m
    if 0 < length % n then
      let chunk ← loadValues c isa e values (n * (length / n))
      return insertVector c x index chunk (fun l => decide (l.val < length % n)) m
    else return m

def nTasks (p : Partitions r) : Nat :=
  match c.vectorization with
  | .Horizontal => (p.nPartitions + c.simd.nElements r - 1) / c.simd.nElements r
  | .Vertical => p.nPartitions

def constructTask (p : Partitions r) (m : Mem) (task : Nat) : Option Mem :=
  match c.vectorization with
  | .Horizontal => Simd.groupLoop c x p (task * c.simd.nElements r) (2 ^ r.bits + 1) 0 m
  | .Vertical =>
    constructPartition c x isa (p.extent.skip (r.bytes * (p.offsets task).toNat))
      (fun j => p.values ((p.offsets task).toNat + j)) (p.histogram task).toNat task m

def construct (p : Partitions r) (order : List Nat) (m : Mem) : Option Mem :=
  order.foldlM (constructTask c x isa p) m

inductive Operation (c : Config r) where
  | insert (index : Nat) (values : Lanes r (c.simd.nElements r)) (mask : LaneMask (c.simd.nElements r))
  | constructPartition (e : Extent) (values : Int → r.T) (length index : Nat)
  | construct (p : Partitions r) (order : List Nat)

def Operation.apply (m : Mem) : Operation c → Option Mem
  | .insert index values mask => some (insertVector c x index values mask m)
  | .constructPartition e values length index => Bloom.constructPartition c x isa e values length index m
  | .construct p order => Bloom.construct c x isa p order m

end

section
variable {c : Config r}

/-- The lanes that are inserted; scalar vectors have no mask. -/
def Active (c : Config r) (mask : LaneMask n) (l : Fin n) : Prop := (mask l || !c.avx) = true

namespace Operation

/-- The partitions exist. A `PartitionSet` is 0 behind its last partition, and each of its tasks is run once. -/
def Valid (parts : Nat) : Operation c → Prop
  | insert index _ mask =>
    match c.vectorization with
    | .Horizontal => ∀ l, Active c mask l → index + l < parts
    | .Vertical => index < parts
  | constructPartition _ _ _ index => index < parts ∧ (c.vectorization = .Horizontal → c.avx = false)
  | construct p order => p.nPartitions ≤ parts ∧ (∀ i, p.nPartitions ≤ i → p.histogram i = 0 ∧ p.offsets i = 0) ∧
    order.Perm (List.range (nTasks c p))

/-- The horizontal constructors count without a wrap, and vectors have signed indices. The vertical one
can load its values. -/
def Fits (isa : InstructionSet) : Operation c → Prop
  | insert .. => True
  | constructPartition e _ length _ =>
    match c.vectorization with
    | .Horizontal => length < 2 ^ r.bits
    | .Vertical => c.simd.Readable isa r e length
  | construct p _ =>
    match c.vectorization with
    | .Horizontal =>
      (∀ task, ∀ l l' : Fin (c.simd.nElements r), (p.offsets (task * c.simd.nElements r + l)).toNat +
        (p.histogram (task * c.simd.nElements r + l')).toNat < 2 ^ r.bits) ∧
      (c.avx = true → ∀ i < p.nPartitions, (p.offsets i).toNat + (p.histogram i).toNat ≤ 2 ^ (r.bits - 1))
    | .Vertical => ∀ i < p.nPartitions,
      c.simd.Readable isa r (p.extent.skip (r.bytes * (p.offsets i).toNat)) (p.histogram i).toNat

def Inserts (value : r.T) (i : Nat) : Operation c → Prop
  | insert index values mask => ∃ l, Active c mask l ∧ values l = value ∧
    match c.vectorization with
    | .Horizontal => index + l = i
    | .Vertical => index = i
  | constructPartition _ values length index => index = i ∧ ∃ j < length, values (j : Nat) = value
  | construct p _ => i < p.nPartitions ∧ ∃ j < (p.histogram i).toNat,
  p.values ((p.offsets i).toNat + j : Nat) = value

end Operation

end

end PartitionedFilters.Bloom

import PartitionedFilters.PartitionSet
import PartitionedFilters.Simd

/-!
# Counting

`Filter::count`: the values are partitioned again, each partition is cut into
tasks, and a task counts whole vectors and a masked rest. The filters differ in
the container only.
-/

namespace PartitionedFilters

variable {r : RegisterSize} {n : Nat}

/-- A container as `count` uses it: the lookup of one value, and how many lanes of a vector it
counts. -/
structure Counter (r : RegisterSize) (n : Nat) where
  contains : Nat → r.T → Bool
  countVector : Nat → Lanes r n → LaneMask n → Nat
  countVector_eq : ∀ index values mask,
    countVector index values mask = (List.finRange n).countP fun l => mask l && contains index (values l)

def popcountMask (mask : LaneMask n) : Nat := (List.finRange n).countP mask

def allLanes : LaneMask n := fun _ => true

/-- The mask of the first lanes, `(1 << rest) - 1`. -/
def restMask (rest : Nat) : LaneMask n := fun l => (1 <<< rest - 1).testBit l

structure Pointer (r : RegisterSize) where
  extent : Extent
  value : Nat → r.T

namespace Pointer
variable (simd : SIMD) (isa : InstructionSet) (p : Pointer r) (begin : Nat)

def load : Option (Lanes r (simd.nElements r)) :=
  simd.load isa (p.extent.skip (r.bytes * begin)) fun l => p.value (begin + l)

def gather : Lanes r n := fun l => p.value (begin + l)

end Pointer

def sumM {α : Type*} (l : List α) (found : α → Option Nat) : Option Nat :=
  l.foldlM (fun counter a => do return counter + (← found a)) 0

namespace Counter

variable {simd : SIMD} (f : Counter r (simd.nElements r)) (isa : InstructionSet) (p : Pointer r) (index : Nat)

/-! ## One range of values -/

def countVectors (begin stop : Nat) : Option Nat :=
  sumM (List.range ((stop - begin) / simd.nElements r)) fun t => do
    let values ← p.load simd isa (begin + simd.nElements r * t)
    return f.countVector index values allLanes

structure Pipeline (r : RegisterSize) (n : Nat) where
  counter : Nat
  begin : Nat
  loaded : Lanes r n

def pipelineStep (s : Pipeline r (simd.nElements r)) : Pipeline r (simd.nElements r) :=
  { counter := s.counter + f.countVector index s.loaded allLanes, begin := s.begin + simd.nElements r,
    loaded := p.gather (s.begin + simd.nElements r) }

def countPipelined (begin stop : Nat) : Option Nat :=
  if begin + simd.nElements r ≤ stop then do
    let values ← p.load simd isa begin
    let s := (f.pipelineStep p index)^[(stop - begin) / simd.nElements r - 1] ⟨0, begin, values⟩
    return s.counter + f.countVector index s.loaded allLanes
  else some 0

def countWhole (pipelined : Bool) (begin stop : Nat) : Option Nat :=
  if pipelined then f.countPipelined isa p index begin stop else f.countVectors isa p index begin stop

/-- The masked rest. -/
def countRest (begin stop : Nat) : Option Nat :=
  if simd ≠ .Scalar ∧ begin < stop then do
    let values ← p.load simd isa begin
    return f.countVector index values (restMask (stop - begin))
  else some 0

/-- `_count`. -/
def countRange (pipelined : Bool) (begin stop : Nat) : Option Nat := do
  let whole ← f.countWhole isa p index pipelined begin stop
  let rest ← f.countRest isa p index (begin + simd.nElements r * ((stop - begin) / simd.nElements r)) stop
  return whole + rest

variable (values : Pointer r)

/-! ## One thread -/

def count (pipelined : Bool) (p : PartitionSet r) : Option Nat := do
  let counter ← sumM (List.range p.nPartitions) fun i =>
    f.countRange isa values i pipelined (p.offsets i) (p.offsets i + p.histogram i)
  return counter % 2 ^ 64

end Counter

/-! ## Tasks -/

/-- Task `j` of the `nTasks` tasks of a partition. -/
structure CountTask where
  partition : Nat
  j : Nat
  nTasks : Nat
  deriving DecidableEq, Repr

namespace CountTask

/-- The tasks of partition `i`, and what remains of `n_tasks_per_level`. -/
def addTasks (nPartitions : Nat) (s : List CountTask × Nat) (i : Nat) : List CountTask × Nat :=
  let nTasks := if 0 < s.2 then max (s.2 / (nPartitions - i)) 1 else 1
  (s.1 ++ (List.range nTasks).map fun j => ⟨i, j, nTasks⟩, if 0 < s.2 then s.2 - nTasks else s.2)

def tasks (nPartitions nTasksPerLevel : Nat) : List CountTask :=
  ((List.range nPartitions).foldl (addTasks nPartitions) ([], nTasksPerLevel)).1

/-- `valign` of `(length / n_tasks + 1) * j`, in `size_t`. -/
def border (length nTasks j : Nat) : Nat := valign ((length / nTasks + 1) * j % 2 ^ 64)

def begin (t : CountTask) (length : Nat) : Nat := border length t.nTasks t.j

def stop (t : CountTask) (length : Nat) : Nat := min (border length t.nTasks (t.j + 1)) length

end CountTask

namespace Counter

variable {simd : SIMD} (f : Counter r (simd.nElements r)) (isa : InstructionSet) (values : Pointer r)

def countTask (pipelined : Bool) (p : PartitionSet r) (t : CountTask) : Option Nat :=
  f.countRange isa values t.partition pipelined (p.offsets t.partition + t.begin (p.histogram t.partition))
    (p.offsets t.partition + t.stop (p.histogram t.partition))

/-- `count` with a task queue that runs the tasks in this order. -/
def countTasks (pipelined : Bool) (p : PartitionSet r) (order : List CountTask) : Option Nat := do
  let counter ← sumM order (f.countTask isa values pipelined p)
  return counter % 2 ^ 64

end Counter

/-! ## The partitions of the batch -/

namespace PartitionSet

/-- What is read from `values`: anything outside of it, and where nothing was written. -/
def read (partitioning : Partitioning) (p : PartitionSet r) (outside : Nat → r.T) (cell : Nat) : r.T :=
  match partitioning with
  | .Enabled => if cell < p.length / r.bytes then (p.values cell).getD (outside cell) else outside cell
  | .Disabled => (p.values cell).getD (outside cell)

/-- `values`: `allocate` aligns them to cache lines, and without partitioning they are the caller's. -/
structure At (partitioning : Partitioning) (p : PartitionSet r) (caller : Extent) (values : Pointer r) : Prop where
  allocated : partitioning = .Enabled →
    64 ∣ values.extent.address ∧ values.extent.address + p.length ≤ values.extent.limit
  caller : partitioning = .Disabled → values.extent = caller
  value : ∃ outside, values.value = p.read partitioning outside

inductive Batch (n : Nat) (v : List r.T) : Partitioning → PartitionSet r → Prop
  | enabled (uninit : Nat → Nat → r.T) : Batch n v .Enabled (init n uninit v).1
  | disabled : Batch n v .Disabled (initDisabled v)

end PartitionSet

def partitionOf (partitioning : Partitioning) (nPartitions : Nat) (value : r.T) : Nat :=
  match partitioning with
  | .Enabled => (value.setWidth 64 &&& BitVec.ofNat 64 (nPartitions - 1)).toNat
  | .Disabled => 0

end PartitionedFilters

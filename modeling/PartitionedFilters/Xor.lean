import PartitionedFilters.Address
import PartitionedFilters.PartitionSet

/-!
# The Xor filter

`Filter<Xor>` with scalar vectors: `XorSet`, `XorQueue`, `XorStack`,
`XorContainer` and the construction with its reseeded fallback. Offsets are
naturals reduced to `T`; arrays of `T` are functions of the index.
-/

namespace PartitionedFilters

open Function (update)

/-- A value of type `T`. -/
def RegisterSize.wrap (r : RegisterSize) (x : Nat) : Nat := x % 2 ^ r.bits

namespace Xor

instance instNeZeroThree : NeZero 3 := ⟨by decide⟩

inductive Variant where
  | Standard
  | Fuse
  deriving DecidableEq, Repr

def fuseSegments : Nat := 128

/-- The sets that the slots of a partition are divided into. -/
def nSets (variant : Variant) : Nat :=
  match variant with
  | .Standard => 3
  | .Fuse => fuseSegments + 2

def maxNRetries : Nat := 16

def rf (set : Fin 3) : Nat := 21 * set

/-- The template parameters of the filter, and `s`. -/
structure Config (r : RegisterSize) where
  variant : Variant
  k : Nat
  partitioning : Partitioning
  mode : AddressingMode
  hash : r.T → r.T
  s : Nat

variable {r : RegisterSize}

def xorRotate (set : Fin 3) (hash : r.T) : r.T := hash.rotateLeft (rf set)

def xorFingerprint (hash : r.T) : r.T := hash ^^^ hash >>> (r.bits / 2)

def xorSegment (variant : Variant) (hash : r.T) : r.T :=
  match variant with
  | .Standard => 0
  | .Fuse => (hash * constant r 0x5bd1e995 0xbf58476d1ce4e5b9) >>> (r.bits - 7)

namespace Config
variable (c : Config r)

def address (e : AddresserEntry r) (set : Fin 3) (hash : r.T) : Nat :=
  (e.computeAddress c.mode (extractAddressBits (xorRotate set hash))).toNat

/-- The offset of the segment that a hash falls into. -/
def segment (e : AddresserEntry r) (hash : r.T) : Nat :=
  r.wrap ((xorSegment c.variant hash).toNat * e.size.toNat)

end Config

/-! ## `XorSet` -/

structure XorSet (r : RegisterSize) where
  entry : AddresserEntry r
  begins : Fin 3 → Nat
  seed : r.T
  set : Nat → r.T

namespace XorSet

def new (entry : AddresserEntry r) (seed : r.T) : XorSet r :=
  { entry, begins := fun j => r.wrap (j * entry.size.toNat), seed, set := fun _ => 0 }

def size (c : Config r) (x : XorSet r) : Nat :=
  match c.variant with
  | .Standard => x.entry.size.toNat
  | .Fuse => r.wrap (x.entry.size.toNat * (fuseSegments + 2))

/-- `segment + get_offset<set>(xor_rotate<rf>(hash))`. -/
def slot (c : Config r) (x : XorSet r) (set : Fin 3) (hash : r.T) : Nat :=
  r.wrap (c.segment x.entry hash + r.wrap (x.begins set + c.address x.entry set hash))

def hashAt (x : XorSet r) (slot : Nat) : r.T := x.set (r.wrap (slot * 2))

def counterAt (x : XorSet r) (slot : Nat) : r.T := x.set (r.wrap (r.wrap (slot * 2) + 1))

def setHash (x : XorSet r) (slot : Nat) (hash : r.T) : XorSet r :=
  { x with set := update x.set (r.wrap (slot * 2)) hash }

def setCounter (x : XorSet r) (slot : Nat) (counter : r.T) : XorSet r :=
  { x with set := update x.set (r.wrap (r.wrap (slot * 2) + 1)) counter }

def add (c : Config r) (set : Fin 3) (x : XorSet r) (hash : r.T) : XorSet r :=
  let slot := x.slot c set hash
  let x := x.setHash slot (x.hashAt slot ^^^ hash)
  x.setCounter slot (x.counterAt slot + 1)

def hashes (c : Config r) (seed : r.T) (offset histogram : Nat) (values : Nat → r.T) : List (r.T) :=
  (List.range' offset (r.wrap (offset + histogram) - offset)).map fun i => c.hash (values i ^^^ seed)

def fill (c : Config r) (x : XorSet r) (offset histogram : Nat) (values : Nat → r.T) : XorSet r :=
  (hashes c x.seed offset histogram values).foldl (fun x h => ((x.add c 0 h).add c 1 h).add c 2 h) x

end XorSet

/-! ## Variant `Standard` -/

namespace Standard

structure XorQueue (r : RegisterSize) where
  begins : Fin 3 → Nat
  ends : Fin 3 → Nat
  queue : Nat → r.T

namespace XorQueue

def new (entry : AddresserEntry r) : XorQueue r :=
  { begins := fun j => r.wrap (j * entry.size.toNat), ends := fun j => r.wrap (j * entry.size.toNat),
    queue := fun _ => 0 }

def clear (q : XorQueue r) (set : Fin 3) : XorQueue r := { q with ends := update q.ends set (q.begins set) }

def size (q : XorQueue r) (set : Fin 3) : Nat := r.wrap (2 ^ r.bits + q.ends set - q.begins set)

def push (q : XorQueue r) (set : Fin 3) (hash : r.T) : XorQueue r :=
  { q with queue := update q.queue (q.ends set) hash, ends := update q.ends set (r.wrap (q.ends set + 1)) }

/-- `set_begin` goes through the even offsets of the array. -/
def scanForSingle (c : Config r) (x : XorSet r) (q : XorQueue r) (set : Fin 3) : XorQueue r :=
  let setBegin := r.wrap (x.begins set * 2)
  let setEnd := r.wrap (setBegin + r.wrap (x.size c * 2))
  (List.range ((setEnd - setBegin) / 2)).foldl (fun q i =>
    if x.set (r.wrap (setBegin + 2 * i + 1)) = 1 then q.push set (x.set (setBegin + 2 * i)) else q) q

def fill (c : Config r) (x : XorSet r) (q : XorQueue r) : XorQueue r :=
  ((q.scanForSingle c x 0).scanForSingle c x 1).scanForSingle c x 2

end XorQueue

structure XorStack (r : RegisterSize) where
  runs : List Nat
  stack : Nat → r.T

/-- Set, queue and stack while a queue is processed; `run` is `runs.back()`. -/
structure Peel (r : RegisterSize) where
  set : XorSet r
  queue : XorQueue r
  run : Nat
  stack : Nat → r.T

namespace Peel

def push (p : Peel r) (hash : r.T) : Peel r :=
  { p with stack := update p.stack p.run hash, run := r.wrap (p.run + 1) }

/-- One entry of the queue of `set0`. -/
def entry (c : Config r) (set0 set1 set2 : Fin 3) (p : Peel r) (beginOffset : Nat) : Peel r :=
  let hash := p.queue.queue beginOffset
  if p.set.counterAt (p.set.slot c set0 hash) = 0 then p
  else
    let p := p.push hash
    let slot1 := p.set.slot c set1 hash
    let slot2 := p.set.slot c set2 hash
    let hash1 := p.set.hashAt slot1 ^^^ hash
    let hash2 := p.set.hashAt slot2 ^^^ hash
    let x := (p.set.setHash slot1 hash1).setHash slot2 hash2
    let counter1 := x.counterAt slot1 - 1
    let counter2 := x.counterAt slot2 - 1
    let q := if counter1 = 1 then p.queue.push set1 hash1 else p.queue
    let q := if counter2 = 1 then q.push set2 hash2 else q
    { p with set := (x.setCounter slot1 counter1).setCounter slot2 counter2, queue := q }

end Peel

/-- What `process_queue` reads and changes. -/
structure State (r : RegisterSize) where
  set : XorSet r
  queue : XorQueue r
  stack : XorStack r

namespace State

def processQueue (c : Config r) (set0 set1 set2 : Fin 3) (st : State r) : State r :=
  let p := (List.range' (st.queue.begins set0) (st.queue.ends set0 - st.queue.begins set0)).foldl
    (Peel.entry c set0 set1 set2) ⟨st.set, st.queue, st.stack.runs.getLastD 0, st.stack.stack⟩
  { set := p.set, queue := p.queue.clear set0, stack := ⟨st.stack.runs ++ [p.run], p.stack⟩ }

def round (c : Config r) (st : State r) : State r :=
  ((st.processQueue c 0 1 2).processQueue c 1 2 0).processQueue c 2 0 1

/-- The loop of `XorStack::fill`, for at most `fuel` rounds. -/
def peel (c : Config r) : Nat → State r → State r
  | 0, st => st
  | fuel + 1, st =>
    if r.wrap (r.wrap (st.queue.size 0 + st.queue.size 1) + st.queue.size 2) = 0 then st
    else peel c fuel (st.round c)

end State

def XorStack.size (s : XorStack r) : Nat := r.wrap (2 ^ r.bits + s.runs.getLastD 0 - s.runs.headD 0)

def buildStack (c : Config r) (x : XorSet r) : XorStack r :=
  (State.peel c (2 ^ r.bits + 1)
    { set := x, queue := (XorQueue.new x.entry).fill c x, stack := ⟨[0], fun _ => 0⟩ }).stack

end Standard

/-! ## Variant `Fuse` -/

namespace Fuse

structure XorQueue (r : RegisterSize) where
  ends : Nat
  queue : Nat → r.T

namespace XorQueue

def push (q : XorQueue r) (slot : Nat) : XorQueue r :=
  { queue := update q.queue q.ends (BitVec.ofNat r.bits slot), ends := r.wrap (q.ends + 1) }

def fill (c : Config r) (x : XorSet r) : XorQueue r :=
  let setBegin := r.wrap (x.begins 0 * 2)
  let setEnd := r.wrap (setBegin + r.wrap (x.size c * 2))
  (List.range ((setEnd - setBegin) / 2)).foldl (fun q i =>
    if x.set (r.wrap (setBegin + 2 * i + 1)) = 1 then q.push ((setBegin + 2 * i) / 2) else q)
    { ends := 0, queue := fun _ => 0 }

end XorQueue

structure XorStack (r : RegisterSize) where
  endOffset : Nat
  stack : Nat → r.T

structure Peel (r : RegisterSize) where
  set : XorSet r
  queue : XorQueue r
  stack : XorStack r

namespace Peel

def push (p : Peel r) (hash : r.T) (address : Nat) : Peel r :=
  let stack := update p.stack.stack p.stack.endOffset hash
  let endOffset := r.wrap (p.stack.endOffset + 1)
  { p with stack := ⟨r.wrap (endOffset + 1), update stack endOffset (BitVec.ofNat r.bits address)⟩ }

/-- `get_address` of the offset of a slot, shifted left and back. -/
def getAddress (r : RegisterSize) (slot : Nat) : Nat := r.wrap (slot * 2) / 2

/-- One entry of the queue; the counters are read before anything is written. -/
def entry (c : Config r) (p : Peel r) (beginOffset : Nat) : Peel r :=
  let address := (p.queue.queue beginOffset).toNat
  let hash := p.set.hashAt address
  if p.set.counterAt address = 1 then
    let p := p.push hash address
    let slot0 := p.set.slot c 0 hash
    let slot1 := p.set.slot c 1 hash
    let slot2 := p.set.slot c 2 hash
    let counter0 := p.set.counterAt slot0 - 1
    let counter1 := p.set.counterAt slot1 - 1
    let counter2 := p.set.counterAt slot2 - 1
    let x := ((p.set.setHash slot0 (p.set.hashAt slot0 ^^^ hash)).setHash slot1
      (p.set.hashAt slot1 ^^^ hash)).setHash slot2 (p.set.hashAt slot2 ^^^ hash)
    let q := if counter0 = 1 then p.queue.push (getAddress r slot0) else p.queue
    let q := if counter1 = 1 then q.push (getAddress r slot1) else q
    let q := if counter2 = 1 then q.push (getAddress r slot2) else q
    { p with
      set := ((x.setCounter slot0 counter0).setCounter slot1 counter1).setCounter slot2 counter2, queue := q }
  else p

/-- The loop of `XorStack::fill`: the queue grows while it is read. -/
def peel (c : Config r) : Nat → Nat → Peel r → Peel r
  | 0, _, p => p
  | fuel + 1, beginOffset, p =>
    if beginOffset < p.queue.ends then peel c fuel (beginOffset + 1) (p.entry c beginOffset) else p

end Peel

def XorStack.size (s : XorStack r) : Nat := s.endOffset / 2

def buildStack (c : Config r) (x : XorSet r) : XorStack r :=
  (Peel.peel c (2 ^ r.bits) 0 { set := x, queue := XorQueue.fill c x, stack := ⟨0, fun _ => 0⟩ }).stack

end Fuse

end Xor

end PartitionedFilters

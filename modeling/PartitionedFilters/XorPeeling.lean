import PartitionedFilters.Loop
import PartitionedFilters.Xor

/-!
# Buffers and runs of the peeling

What the constructors of `XorSet`, `XorQueue` and `XorStack` allocate, the loops
of the two `XorStack::fill`, and the entries that they process one after the
other.
-/

namespace PartitionedFilters.Xor

variable {r : RegisterSize}

/-! ## Allocations -/

/-- The bytes that `valloc` gets for a number of cells of type `T`, computed in `size_t`. -/
def allocatedBytes (r : RegisterSize) (cells : Nat) : Nat := valign (cells * (r.bits / 8) % 2 ^ 64)

/-- `cells` cells from the first one on lie in the allocated bytes. -/
def InBuffer (r : RegisterSize) (cells nBytes : Nat) : Prop := cells * (r.bits / 8) ≤ nBytes

/-- The last offset in `XorSet`: three sets, and in the variant `Fuse` the segments behind them. -/
def XorSet.lastOffset (variant : Variant) (e : AddresserEntry r) : Nat :=
  let last := r.wrap (r.wrap (r.wrap e.size.toNat + e.size.toNat) + e.size.toNat)
  match variant with
  | .Standard => last
  | .Fuse => r.wrap (last + e.size.toNat * (fuseSegments - 1))

def XorSet.nBytes (variant : Variant) (e : AddresserEntry r) : Nat := allocatedBytes r (lastOffset variant e * 2)

namespace Standard

def XorQueue.nBytes (e : AddresserEntry r) : Nat :=
  allocatedBytes r (r.wrap (r.wrap (r.wrap e.size.toNat + e.size.toNat) + e.size.toNat))

def XorStack.nBytes (r : RegisterSize) (histogram : Nat) : Nat := allocatedBytes r (r.wrap histogram)

end Standard

namespace Fuse

def XorQueue.nBytes (e : AddresserEntry r) : Nat := allocatedBytes r (r.wrap (e.size.toNat * (fuseSegments + 2)))

def XorStack.nBytes (r : RegisterSize) (histogram : Nat) : Nat := allocatedBytes r (r.wrap (histogram * 2))

end Fuse

/-! ## Runs -/

namespace Standard

def XorQueue.appended (q q' : XorQueue r) (set : Fin 3) : List r.T :=
  (List.range' (q.ends set) (q'.ends set - q.ends set)).map q'.queue

def XorQueue.queued (c : Config r) (x : XorSet r) (q q' : XorQueue r) : List Nat :=
  [0, 1, 2].flatMap fun set => (q.appended q' set).map (x.slot c set)

def Peel.pushed (p p' : Peel r) : List r.T := (List.range' p.run (p'.run - p.run)).map p'.stack

namespace State

def traceQueue (c : Config r) (set0 set1 set2 : Fin 3) (st : State r) : List (Peel r × Peel r) :=
  Loop.foldTrace (Peel.entry c set0 set1 set2)
    (List.range' (st.queue.begins set0) (st.queue.ends set0 - st.queue.begins set0))
    ⟨st.set, st.queue, st.stack.runs.getLastD 0, st.stack.stack⟩

def traceRound (c : Config r) (st : State r) : List (Peel r × Peel r) :=
  st.traceQueue c 0 1 2 ++ ((st.processQueue c 0 1 2).traceQueue c 1 2 0 ++
    ((st.processQueue c 0 1 2).processQueue c 1 2 0).traceQueue c 2 0 1)

def trace (c : Config r) : Nat → State r → List (Peel r × Peel r)
  | 0, _ => []
  | fuel + 1, st =>
    if r.wrap (r.wrap (st.queue.size 0 + st.queue.size 1) + st.queue.size 2) = 0 then []
    else st.traceRound c ++ trace c fuel (st.round c)

def loop (c : Config r) : Loop (State r) where
  guard st := decide (r.wrap (r.wrap (st.queue.size 0 + st.queue.size 1) + st.queue.size 2) ≠ 0)
  body st := st.round c

def start (c : Config r) (x : XorSet r) : State r :=
  { set := x, queue := (XorQueue.new x.entry).fill c x, stack := ⟨[0], fun _ => 0⟩ }

end State

end Standard

namespace Fuse

def XorQueue.appended (q q' : XorQueue r) : List Nat :=
  (List.range' q.ends (q'.ends - q.ends)).map fun i => (q'.queue i).toNat

/-- The hashes that were put on the stack; the cell behind each holds its slot. -/
def XorStack.pushed (s s' : XorStack r) : List r.T :=
  (List.range' (s.endOffset / 2) (s'.endOffset / 2 - s.endOffset / 2)).map fun i => s'.stack (2 * i)

namespace Peel

def trace (c : Config r) : Nat → Nat → Peel r → List (Peel r × Peel r)
  | 0, _, _ => []
  | fuel + 1, beginOffset, p =>
    if beginOffset < p.queue.ends then
      (p, p.entry c beginOffset) :: trace c fuel (beginOffset + 1) (p.entry c beginOffset)
    else []

def loop (c : Config r) : Loop (Nat × Peel r) where
  guard s := decide (s.1 < s.2.queue.ends)
  body s := (r.wrap (s.1 + 1), s.2.entry c s.1)

def start (c : Config r) (x : XorSet r) : Peel r :=
  { set := x, queue := XorQueue.fill c x, stack := ⟨0, fun _ => 0⟩ }

end Peel

end Fuse

end PartitionedFilters.Xor

import PartitionedFilters.Bloom
import PartitionedFilters.Count

/-!
# The Bloom filter with more than one lane

`contains` and the counting of `BloomCounter`. The lanes of the horizontal
counters walk their words together; the vertical counter looks at a few values
at a time, with a lane for each word of their blocks.
-/

namespace PartitionedFilters

def maskBits {n : Nat} (mask : LaneMask n) : BitVec 32 :=
  BitVec.ofFnLE fun i : Fin 32 => if h : i < n then mask ⟨i, h⟩ else false

namespace Bloom

variable {r : RegisterSize} {n : Nat}

instance Config.neZeroNElements (c : Config r) : NeZero (c.simd.nElements r) := instNeZeroNElements c.simd r

def compare (c : Config r) (vector : r.T) (s : Step r) : Bool :=
  match c.variant with
  | .Blocked => s.bits.all fun bit => (vector >>> bit) &&& 1 == 1
  | _ =>
    let vmask := setBits s.bits 0
    vector &&& vmask == vmask

namespace Simd

section
variable (c : Config r) (x : BloomContainer r) (m : Mem) (mask : LaneMask n)

def found (s : Fin n → Step r) : LaneMask n :=
  fun l => compare c (if mask l then m.load (wordBit x (s l).word) r.bits else 0) (s l)

/-- `check_mask` of the horizontal masks. The early exit is taken when no lane has found its bits. -/
def checkMask : List (Fin n → Step r) → LaneMask n
  | [] => mask
  | [s] => fun l => mask l && found c x m mask s l
  | s :: s' :: steps =>
    let found := found c x m mask s
    if (∀ l, (s l).exit = true) ∧ ∀ l, found l = false then fun _ => false
    else fun l => found l && checkMask (s' :: steps) l

/-- `Helper` of the naive counter, with the mask that is left for the next word. -/
def naiveHelp (mask : LaneMask n) : List (Fin n → Step r) → LaneMask n
  | [] => mask
  | [s] => fun l => mask l && found c x m mask s l
  | s :: s' :: steps => naiveHelp (fun l => mask l && found c x m mask s l) (s' :: steps)

def stepAt (index : Nat) (value : r.T) (t : Nat) : Step r := (steps c x index value).getD t ⟨0, 0, [], false⟩

def laneSteps (index : Nat) (values : Lanes r n) : List (Fin n → Step r) :=
  (List.range (steps c x index 0).length).map fun t l => stepAt c x index (values l) t

/-- `contains` of the horizontal and the naive counter. -/
def containsHorizontal (index : Nat) (values : Lanes r n) : LaneMask n :=
  if c.variant = .Naive ∧ c.avx = true then naiveHelp c x m mask (laneSteps c x index values)
  else checkMask c x m mask (laneSteps c x index values)

end

/-! ## The vertical counter -/

section
variable (c : Config r) (x : BloomContainer r) (m : Mem)

def nLanes : Nat := c.simd.bits / c.blockSize.bits

def permuteMask [NeZero n] (j : Nat) (e : Fin n) : Fin n := Fin.ofNat n (j * nLanes c + e / c.nElementsPerLane)

def roundMask [NeZero n] (mask : LaneMask n) (j : Nat) : LaneMask n := fun e => mask (permuteMask c j e)

def checkVertical [NeZero n] (index : Nat) (values : Lanes r n) (mask : LaneMask n) (j : Nat) : LaneMask n :=
  fun e =>
    let s := stepAt c x index (values (permuteMask c j e)) (e % c.nElementsPerLane)
    mask e && compare c (if mask e then m.load (wordBit x s.word) r.bits else 0) s

/-- The loop that ands each bit with the bits of the lanes above it. -/
def foldLanes (equal : BitVec 32) : BitVec 32 :=
  (List.range 5).foldl (fun equal t => if 2 ^ t < c.nElementsPerLane then equal &&& equal >>> 2 ^ t else equal)
    equal

def pextMask : BitVec 32 := (List.range (nLanes c)).foldl (fun mask _ => mask ||| mask <<< c.nElementsPerLane) 1

/-- `_contains`. -/
def containsRound [NeZero n] (index : Nat) (values : Lanes r n) (mask : LaneMask n) (j : Nat) : BitVec 32 :=
  let equal := checkVertical c x m index values mask j
  if nLanes c = 1 then if ∀ e, equal e = true then 1 else 0 else foldLanes c (maskBits equal)

/-- `contains` of the vertical counter. A round without lanes is not made. -/
def containsVertical [NeZero n] (index : Nat) (values : Lanes r n) (mask : LaneMask n) : BitVec 32 :=
  (List.range c.nElementsPerLane).foldl (fun found j =>
    if ∀ l : Fin n, j * nLanes c ≤ l → mask l = false then found
    else
      let m := containsRound c x m index values (roundMask c mask j) j
      found ||| if nLanes c = 1 then m <<< j else pext32 m (pextMask c) <<< (j * nLanes c)) 0

def countVertical [NeZero n] (index : Nat) (values : Lanes r n) (mask : LaneMask n) : Nat :=
  (List.range c.nElementsPerLane).foldl (fun counter j =>
    if ∀ l : Fin n, j * nLanes c ≤ l → mask l = false then counter
    else
      let found := containsRound c x m index values (roundMask c mask j) j
      counter + if nLanes c = 1 then found.toNat else (List.range 32).countP (found &&& pextMask c).getLsbD) 0

end

end Simd

end Bloom

end PartitionedFilters

import PartitionedFilters.Intrinsics
import PartitionedFilters.Morton

/-!
# The vectors without AVX-512

`simd::Vector` as `vector.hpp` builds it where `__AVX512F__` is not defined: the
scalar vector, the vector of 256 bits, from AVX2 intrinsics or from scalars, and
the vector of 512 bits from two of these.
-/

namespace PartitionedFilters

open Register Intrinsics

/-- The operations of one vector; the first two shift and rotate by a constant. -/
inductive Unary where
  | shiftRight (nBits : Nat)
  | shiftLeft (nBits : Nat)
  | ror (nBits : Nat)
  | rol (nBits : Nat)
  | negate
  | permuteRegxbyte
  | permuteRegxword
  | popcount

/-- A shift of the scalar vector is by less than its width. -/
def Unary.Defined (r : RegisterSize) : Unary → Prop
  | .shiftRight nBits => nBits < r.bits
  | .shiftLeft nBits => nBits < r.bits
  | _ => True

inductive Binary where
  | shiftRight
  | shiftLeft
  | ror
  | rol
  | and
  | or
  | xor
  | add
  | sub
  | mul
  | mulh32

def Binary.Defined {r : RegisterSize} (b : r.T) : Binary → Prop
  | .shiftRight => b.toNat < r.bits
  | .shiftLeft => b.toNat < r.bits
  | _ => True

/-- `and_mask`, `or_mask` and `add_mask`. -/
inductive Masked where
  | and
  | or
  | add

inductive Comparison where
  | eq
  | ne
  | lt
  | gt

/-- What every `Vector` can do; `M` is its type of masks. -/
structure Operations (r : RegisterSize) (V M : Type) where
  unary : Unary → V → V
  binary : Binary → V → V → V
  masked : Masked → V → V → M → V
  compare : Comparison → V → V → M
  equal : Nat → V → V → BitVec 64
  gather : V → BitVec 64 → M → Mem → V
  scatter : V → BitVec 64 → V → M → Mem → Mem
  scatterstoreOr : V → BitVec 64 → V → M → Mem → Mem

/-- `res = (res << shift) | bits`, from the last element to the first. -/
def collect {k : Nat} (count shift : Nat) (bits : Nat → BitVec k) : BitVec k :=
  (List.range count).foldr (fun i res => res <<< shift ||| bits i) 0

/-! ## The scalar vector -/

namespace Scalar

variable {r : RegisterSize}

def permuteRegxbyte (a : r.T) : r.T := ofElems r.bits 8 fun _ => elem 8 a 0

def permuteRegxword (a : r.T) : r.T := ofElems r.bits 16 fun _ => elem 16 a 0

def unary : Unary → r.T → r.T
  | .shiftRight nBits, a => a >>> nBits
  | .shiftLeft nBits, a => a <<< nBits
  | .ror nBits, a => a.rotateRight nBits
  | .rol nBits, a => a.rotateLeft nBits
  | .negate, a => ~~~a
  | .permuteRegxbyte, a => permuteRegxbyte a
  | .permuteRegxword, a => permuteRegxword a
  | .popcount, a => Cuckoo.Morton.popcount a

def binary : Binary → r.T → r.T → r.T
  | .shiftRight, a, b => a >>> b.toNat
  | .shiftLeft, a, b => a <<< b.toNat
  | .ror, a, b => a.rotateRight b.toNat
  | .rol, a, b => a.rotateLeft b.toNat
  | .and, a, b => a &&& b
  | .or, a, b => a ||| b
  | .xor, a, b => a ^^^ b
  | .add, a, b => a + b
  | .sub, a, b => a - b
  | .mul, a, b => a * b
  | .mulh32, a, b => mulh32 a b

def masked : Masked → r.T → r.T → r.T
  | .and => binary .and
  | .or => binary .or
  | .add => binary .add

def compare : Comparison → r.T → r.T → Bool
  | .eq, a, b => a == b
  | .ne, a, b => a != b
  | .lt, a, b => a.ult b
  | .gt, a, b => b.ult a

/-- `equal`; the mask is an `int`. -/
def equal (bits : Nat) (a b : r.T) : BitVec 64 :=
  let mask := (1#32 <<< bits - 1#32).signExtend r.bits
  collect (r.bytes / (bits / 8)) 1 fun i =>
    if (a >>> (i * bits)) &&& mask = (b >>> (i * bits)) &&& mask then 1 else 0

def address (base : BitVec 64) (index : r.T) : Nat := (base + index.setWidth 64 * BitVec.ofNat 64 r.bytes).toNat

def gather (index : r.T) (base : BitVec 64) (m : Mem) : r.T := m.load (8 * address base index) r.bits

def scatter (a : r.T) (base : BitVec 64) (index : r.T) (m : Mem) : Mem := m.store (8 * address base index) a

def scatterstoreOr (a : r.T) (base : BitVec 64) (index : r.T) (m : Mem) : Mem :=
  scatter (gather index base m ||| a) base index m

end Scalar

/-! ## 256 bits -/

namespace Avx2

def avx2MaskToAvx512Mask (bits : Nat) (mask : BitVec 256) : BitVec 32 :=
  let imask := movemaskEpi8 mask
  if bits = 8 then imask
  else if bits = 16 then pext32 imask 0x55555555
  else if bits = 32 then pext32 imask 0x11111111
  else pext32 imask 0x01010101

def mul (r : RegisterSize) (u v : BitVec 256) : BitVec 256 :=
  match r with
  | ._32bit => mulloEpi32 u v
  | ._64bit =>
    -- the halves of each factor, crossed
    let swap := shuffleEpi32 u 0xB1
    let prodlh := mulloEpi32 v swap
    let prodlh2 := slliEpi 64 32 prodlh
    let prodlh3 := addEpi 32 prodlh2 prodlh
    let prodlh4 := prodlh3 &&& set1 256 0xFFFFFFFF00000000#64
    let prodll := mulEpu32 u v
    addEpi 64 prodll prodlh4

def mulh32 (r : RegisterSize) (u v : BitVec 256) : BitVec 256 :=
  match r with
  | ._32bit =>
    let pOdd := mulEpu32 (srliEpi 64 32 u) (srliEpi 64 32 v)
    let pEven := mulEpu32 u v
    blendEpi32 pOdd (srliEpi 64 32 pEven) 0b01010101
  | ._64bit =>
    let mask := set1 256 0xFFFFFFFF#64
    srliEpi 64 32 (mul ._64bit (u &&& mask) (v &&& mask))

/-- The set bits of the numbers from 15 down to 0, for both groups of bytes. -/
def popcountLookup : BitVec 256 :=
  setEpi 256 8 [4, 3, 3, 2, 3, 2, 2, 1, 3, 2, 2, 1, 2, 1, 1, 0, 4, 3, 3, 2, 3, 2, 2, 1, 3, 2, 2, 1, 2, 1, 1, 0]

def popcountBytes (u : BitVec 256) : BitVec 256 :=
  let lowMask := set1 256 0x0f#8
  let lo := u &&& lowMask
  let hi := srliEpi 16 4 u &&& lowMask
  addEpi 8 (shuffleEpi8 popcountLookup lo) (shuffleEpi8 popcountLookup hi)

def popcount (r : RegisterSize) (u : BitVec 256) : BitVec 256 :=
  let cnt := popcountBytes u
  match r with
  | ._32bit =>
    let i2 := addEpi 32 cnt (srliEpi 32 8 cnt)
    addEpi 32 i2 (srliEpi 32 16 i2) &&& set1 256 0xFF#32
  | ._64bit => sadEpu8 cnt 0

variable (r : RegisterSize) (avx2 : Bool)

/-- With intrinsics where `__AVX2__` is defined and as loops over scalars otherwise. -/
def unary (op : Unary) (u : BitVec 256) : BitVec 256 :=
  let loop := map r.bits (Scalar.unary op) u
  match op with
  | .shiftRight nBits =>
    if avx2 then srliEpi r.bits nBits u
    else map r.bits (fun a => if nBits < r.bits then Scalar.unary (.shiftRight nBits) a else 0) u
  | .shiftLeft nBits =>
    if avx2 then slliEpi r.bits nBits u
    else map r.bits (fun a => if nBits < r.bits then Scalar.unary (.shiftLeft nBits) a else 0) u
  | .ror nBits =>
    let amount := nBits &&& (r.bits - 1)
    if avx2 then srliEpi r.bits amount u ||| slliEpi r.bits (r.bits - amount) u else loop
  | .rol nBits =>
    let amount := nBits &&& (r.bits - 1)
    if avx2 then slliEpi r.bits amount u ||| srliEpi r.bits (r.bits - amount) u else loop
  | .negate => if avx2 then u ^^^ set1 256 0xFF#8 else loop
  | .permuteRegxbyte => loop
  | .permuteRegxword => loop
  | .popcount => if avx2 then popcount r u else loop

def binary (op : Binary) (u v : BitVec 256) : BitVec 256 :=
  let loop := zipWith r.bits (Scalar.binary op) u v
  let width := set1 256 (BitVec.ofNat r.bits r.bits)
  let amount := v &&& set1 256 (BitVec.ofNat r.bits (r.bits - 1))
  match op with
  | .shiftRight =>
    if avx2 then srlvEpi r.bits u v
    else zipWith r.bits (fun a b => if b.toNat < r.bits then Scalar.binary .shiftRight a b else 0) u v
  | .shiftLeft =>
    if avx2 then sllvEpi r.bits u v
    else zipWith r.bits (fun a b => if b.toNat < r.bits then Scalar.binary .shiftLeft a b else 0) u v
  | .ror => if avx2 then srlvEpi r.bits u amount ||| sllvEpi r.bits u (subEpi r.bits width amount) else loop
  | .rol => if avx2 then sllvEpi r.bits u amount ||| srlvEpi r.bits u (subEpi r.bits width amount) else loop
  | .and => if avx2 then u &&& v else loop
  | .or => if avx2 then u ||| v else loop
  | .xor => if avx2 then u ^^^ v else loop
  | .add => if avx2 then addEpi r.bits u v else loop
  | .sub => if avx2 then subEpi r.bits u v else loop
  | .mul => if avx2 then mul r u v else loop
  | .mulh32 => if avx2 then mulh32 r u v else loop

def masked (op : Masked) (u v : BitVec 256) (mask : BitVec 8) : BitVec 256 :=
  ofElems 256 r.bits fun i => if mask.getLsbD i then Scalar.masked op (elem r.bits u i) (elem r.bits v i)
    else elem r.bits u i

def compareLoop (op : Comparison) (u v : BitVec 256) : BitVec 8 :=
  collect (SIMD.AVX2.nElements r) 1 fun i => if Scalar.compare op (elem r.bits u i) (elem r.bits v i) then 1 else 0

/-- The comparisons; the unsigned ones change the sign of both sides. -/
def compare (op : Comparison) (u v : BitVec 256) : BitVec 8 :=
  let sign := set1 256 (BitVec.twoPow r.bits (r.bits - 1))
  let loop := compareLoop r op u v
  match op with
  | .eq => if avx2 then (avx2MaskToAvx512Mask r.bits (cmpeqEpi r.bits u v)).setWidth 8 else loop
  | .ne => loop
  | .lt =>
    if avx2 then (avx2MaskToAvx512Mask r.bits (cmpgtEpi r.bits (sign ^^^ v) (sign ^^^ u))).setWidth 8 else loop
  | .gt =>
    if avx2 then (avx2MaskToAvx512Mask r.bits (cmpgtEpi r.bits (sign ^^^ u) (sign ^^^ v))).setWidth 8 else loop

def equal (bits : Nat) (u v : BitVec 256) : BitVec 64 :=
  if avx2 then
    (avx2MaskToAvx512Mask bits
      (cmpeqEpi (if bits = 8 then 8 else if bits = 16 then 16 else if bits = 32 then 32 else 64) u v)).setWidth 64
  else
    collect (SIMD.AVX2.nElements r) (r.bytes / (bits / 8)) fun i =>
      Scalar.equal bits (elem r.bits u i) (elem r.bits v i)

/-- The bits of a mask, each moved to the top of an element. -/
def expandMask (mask : BitVec 8) : BitVec 256 :=
  let shift := match r with
    | ._32bit => setEpi 256 32 [24, 25, 26, 27, 28, 29, 30, 31]
    | ._64bit => setEpi 256 32 [28, 28, 29, 29, 30, 30, 31, 31]
  sraiEpi32 31 (sllvEpi 32 (set1 256 (mask.setWidth 32)) shift)

def gather (index : BitVec 256) (base : BitVec 64) (mask : BitVec 8) (m : Mem) : BitVec 256 :=
  if avx2 then maskGatherEpi r.bits 0 base index (expandMask r mask) r.bytes m
  else ofElems 256 r.bits fun i => if mask.getLsbD i then Scalar.gather (elem r.bits index i) base m else 0

def scatter (u : BitVec 256) (base : BitVec 64) (index : BitVec 256) (mask : BitVec 8) (m : Mem) : Mem :=
  (List.range (SIMD.AVX2.nElements r)).foldl (fun m i =>
    if mask.getLsbD i then Scalar.scatter (elem r.bits u i) base (elem r.bits index i) m else m) m

/-- `scatterstore_or`, where the number of lanes matters to an assertion only. -/
def scatterstoreOr (u : BitVec 256) (base : BitVec 64) (index : BitVec 256) (mask : BitVec 8) (m : Mem) : Mem :=
  (List.range (SIMD.AVX2.nElements r)).foldl (fun m i =>
    if mask.getLsbD i then Scalar.scatterstoreOr (elem r.bits u i) base (elem r.bits index i) m else m) m

def operations : Operations r (BitVec 256) (BitVec 8) where
  unary := unary r avx2
  binary := binary r avx2
  masked := masked r
  compare := compare r avx2
  equal := equal r avx2
  gather := gather r avx2
  scatter := scatter r
  scatterstoreOr := scatterstoreOr r

end Avx2

/-! ## 512 bits -/

namespace Avx512

/-- `__mmask16` or `__mmask8`. -/
abbrev Mask (r : RegisterSize) : Type := BitVec (SIMD.AVX512.nElements r)

def half {r : RegisterSize} (mask : Mask r) (i : Nat) : BitVec 8 :=
  (mask >>> (i * SIMD.AVX2.nElements r)).setWidth 8

def lane {r : RegisterSize} {SV : Type} (lane : SV → Nat → r.T) (u : Fin 2 → SV) (l : Nat) : r.T :=
  lane (u (.ofNat 2 (l / SIMD.AVX2.nElements r))) (l % SIMD.AVX2.nElements r)

def operations {r : RegisterSize} {SV : Type} (sv : Operations r SV (BitVec 8)) :
    Operations r (Fin 2 → SV) (Mask r) where
  unary op u i := sv.unary op (u i)
  binary op u v i := sv.binary op (u i) (v i)
  masked op u v mask i := sv.masked op (u i) (v i) (half mask i)
  compare op u v :=
    collect 2 (SIMD.AVX2.nElements r) fun i => (sv.compare op (u (.ofNat 2 i)) (v (.ofNat 2 i))).setWidth _
  equal bits u v := collect 2 (32 / (bits / 8)) fun i => sv.equal bits (u (.ofNat 2 i)) (v (.ofNat 2 i))
  gather index base mask m i := sv.gather (index i) base (half mask i) m
  scatter u base index mask m :=
    (List.finRange 2).foldl (fun m i => sv.scatter (u i) base (index i) (half mask i) m) m
  scatterstoreOr u base index mask m :=
    (List.finRange 2).foldl (fun m i => sv.scatterstoreOr (u i) base (index i) (half mask i) m) m

end Avx512

end PartitionedFilters

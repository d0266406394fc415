import PartitionedFilters.Address
import PartitionedFilters.Simd

/-!
# Division by constants

`vector_div.hpp` and the multiplications of the vectors it rests on. A vector has
its own instructions only if the compiler may use them; otherwise it is made of
vectors of half the width (AVX-512) or of scalars (AVX2).
-/

namespace PartitionedFilters

/-- `__AVX2__` and `__AVX512F__`, the latter with the former. -/
inductive Target where
  | generic
  | avx2
  | avx512
  deriving DecidableEq, Repr

/-- `Vector`, lane by lane. -/
abbrev Vec (r : RegisterSize) (simd : SIMD) : Type := Lanes r (simd.nElements r)

theorem SIMD.nElements_avx512 (r : RegisterSize) :
    SIMD.AVX512.nElements r = 2 * SIMD.AVX2.nElements r := by cases r <;> rfl

namespace Vec

/-! ## Lanes of 32 bits in lanes of 64 bits -/

section
variable {n : Nat}

/-- The register of a vector of 32-bit lanes as 64-bit lanes, and back. -/
def epi64 (v : Fin (2 * n) → BitVec 32) : Fin n → BitVec 64 :=
  fun j => v ⟨2 * j + 1, by omega⟩ ++ v ⟨2 * j, by omega⟩

def epi32 (w : Fin n → BitVec 64) : Fin (2 * n) → BitVec 32 :=
  fun i => (w ⟨i / 2, by omega⟩ >>> (32 * (i.val % 2))).setWidth 32

def mulEpu32 (a b : BitVec 64) : BitVec 64 := (a.setWidth 32).setWidth 64 * (b.setWidth 32).setWidth 64

/-- `mulh32` of 32-bit lanes; `blend` has a bit for each lane that is taken from the even products. -/
def mulh32Epi32 (blend : Nat) (u v : Fin (2 * n) → BitVec 32) : Fin (2 * n) → BitVec 32 :=
  let pOdd := fun j => mulEpu32 (epi64 u j >>> 32) (epi64 v j >>> 32)
  let pEvenHi := fun j => mulEpu32 (epi64 u j) (epi64 v j) >>> 32
  fun i => if blend.testBit i then epi32 pEvenHi i else epi32 pOdd i

end

/-! ## Products -/

/-- The product of 64-bit lanes that AVX2 makes of 32-bit ones. -/
def mulEmulated (a b : BitVec 64) : BitVec 64 :=
  let swap : BitVec 64 := a.setWidth 32 ++ (a >>> 32).setWidth 32
  let prodlh : BitVec 64 :=
    ((b >>> 32).setWidth 32 * (swap >>> 32).setWidth 32) ++ (b.setWidth 32 * swap.setWidth 32)
  let prodlh2 := prodlh <<< 32
  let prodlh3 : BitVec 64 :=
    ((prodlh2 >>> 32).setWidth 32 + (prodlh >>> 32).setWidth 32) ++ (prodlh2.setWidth 32 + prodlh.setWidth 32)
  let prodlh4 := prodlh3 &&& 0xFFFFFFFF00000000#64
  let prodll := mulEpu32 a b
  prodll + prodlh4

def mulLane (target : Target) (simd : SIMD) : (r : RegisterSize) → r.T → r.T → r.T
  | ._32bit, a, b => a * b
  | ._64bit, a, b => if simd ≠ .Scalar ∧ target = .avx2 then mulEmulated a b else a * b

def half {r : RegisterSize} (v : Vec r .AVX512) (i : Fin 2) : Vec r .AVX2 :=
  fun l => v ⟨i * SIMD.AVX2.nElements r + l, by
    have hi := Nat.mul_le_mul_right (SIMD.AVX2.nElements r) (Nat.le_of_lt_succ i.isLt)
    rw [SIMD.nElements_avx512]
    omega⟩

/-- `mulh32` of one lane of 64 bits. -/
def mulh32Epi64 (target : Target) (simd : SIMD) (a b : BitVec 64) : BitVec 64 :=
  let product : BitVec 64 := mulLane target simd ._64bit (a &&& 0xFFFFFFFF#64) (b &&& 0xFFFFFFFF#64)
  product >>> 32

def mulh32Avx2 (target : Target) : (r : RegisterSize) → Vec r .AVX2 → Vec r .AVX2 → Vec r .AVX2
  | ._32bit, u, v =>
    if target = .generic then fun l =>
      PartitionedFilters.mulh32 (u l) (v l) else mulh32Epi32 (n := 4) 0b01010101 u v
  | ._64bit, u, v =>
    if target = .generic then fun l => PartitionedFilters.mulh32 (u l) (v l) else fun l =>
      mulh32Epi64 target .AVX2 (u l) (v l)

def mulh32Halves (target : Target) (r : RegisterSize) (u v : Vec r .AVX512) : Vec r .AVX512 := fun l =>
  have hlt : l / SIMD.AVX2.nElements r < 2 :=
    Nat.div_lt_of_lt_mul (by rw [Nat.mul_comm, ← SIMD.nElements_avx512]; exact l.isLt)
  have hpos : 0 < SIMD.AVX2.nElements r := by cases r <;> decide
  mulh32Avx2 target r (half u ⟨_, hlt⟩) (half v ⟨_, hlt⟩) ⟨l % SIMD.AVX2.nElements r, Nat.mod_lt _ hpos⟩

def mulh32 (target : Target) : (simd : SIMD) → (r : RegisterSize) → Vec r simd → Vec r simd → Vec r simd
  | .Scalar, _, u, v => fun l => PartitionedFilters.mulh32 (u l) (v l)
  | .AVX2, r, u, v => mulh32Avx2 target r u v
  | .AVX512, ._32bit, u, v =>
    if target = .avx512 then mulh32Epi32 (n := 8) 0b0101010101010101 u v else mulh32Halves target ._32bit u v
  | .AVX512, ._64bit, u, v =>
    if target = .avx512 then fun l => mulh32Epi64 target .AVX512 (u l) (v l) else mulh32Halves target ._64bit u v

/-! ## `div`, `mod` and `div_mod` -/

/-- What the branches of `div` compute: for a family of divisors `odd * 2 ^ m`, or for one divisor
after a shift of the dividend or with a quotient of 33 bits. -/
inductive Sequence where
  | family (odd magic shift : Nat)
  | shifted (divisor before magic after : Nat)
  | widened (divisor magic after : Nat)
  deriving DecidableEq, Repr

def sequences : List Sequence := [
    .family 3 2863311531 1, .family 5 3435973837 2, .widened 7 613566757 2, .family 9 954437177 1,
    .family 11 3123612579 3, .family 13 1321528399 2, .shifted 14 1 2454267027 2, .family 15 2290649225 3,
    .family 17 4042322161 4, .widened 19 2938661835 4, .widened 21 2249744775 4, .family 23 2987803337 4,
    .family 25 1374389535 3, .widened 27 795364315 4, .shifted 28 2 613566757 0, .family 29 2369637129 4,
    .widened 31 138547333 4, .family 33 1041204193 3, .widened 35 3558687189 5, .widened 37 3134165325 5,
    .shifted 38 1 1808407283 3, .widened 39 2753184165 5, .family 41 3352169597 5, .shifted 42 1 818089009 2,
    .family 43 799063683 3, .widened 45 1813430637 5, .family 47 2924233053 5, .family 49 1402438301 4,
    .family 51 2694881441 5, .widened 53 891408307 5, .shifted 54 1 1272582903 3, .widened 55 702812831 5,
    .shifted 56 3 613566757 0, .widened 57 527452125 5, .family 59 582368447 3, .family 61 1126548799 4,
    .shifted 62 1 2216757315 4, .widened 63 68174085 5, .family 65 4228890877 6, .family 67 128207979 1,
    .family 69 1991868891 5, .shifted 70 1 3926827243 5, .family 71 3871519817 6, .widened 73 3235934265 6,
    .shifted 74 1 3714566311 5, .family 75 458129845 3, .shifted 76 2 452101821 1, .family 77 892460737 4,
    .shifted 78 1 3524075731 5, .family 79 3479467177 6, .family 81 3393554407 6, .family 83 827945503 4,
    .shifted 84 2 818089009 2, .family 85 3233857729 6, .family 87 789879043 4, .family 89 3088515809 6,
    .shifted 90 1 3054198967 5, .widened 91 1746305385 6, .family 93 2955676419 6, .widened 95 1491936009 6,
    .widened 97 1372618415 6, .family 99 2776544515 6, .widened 101 1148159575 6, .widened 103 1042467791 6,
    .widened 105 940802361 6, .shifted 106 1 1296593901 4, .widened 107 842937507 6, .shifted 108 2 1272582903 3,
    .widened 109 748664025 6, .shifted 110 1 156180629 1, .widened 111 657787785 6, .shifted 112 4 613566758 0,
    .widened 113 570128403 6, .shifted 114 1 2411209711 5, .widened 115 485518043 6, .widened 117 403800345 6,
    .family 119 1154949189 5, .widened 121 248469183 6, .widened 123 174592167 6, .shifted 124 2 554189329 2,
    .family 125 274877907 3, .shifted 126 1 2181570691 5, .widened 127 33818641 6, .family 129 266354561 3,
    .family 131 4196609267 7, .family 133 4133502361 7, .family 135 4072265289 7, .family 137 125400505 2,
    .family 139 1977538899 6, .shifted 140 2 981706811 3, .family 141 974744351 5, .family 143 3844446251 7,
    .family 145 3791419407 7, .shifted 146 1 3765450781 6, .family 147 3739835469 7, .shifted 148 2 464320789 2,
    .family 149 3689636335 7]

variable (target : Target) {simd : SIMD} {r : RegisterSize}

def Sequence.applies (divisor : Nat) : Sequence → Bool
  | .family odd _ _ => divisor % odd == 0 && isPowerOfTwo (divisor / odd)
  | .shifted divisor' _ _ _ => divisor == divisor'
  | .widened divisor' _ _ => divisor == divisor'

/-- `dividend.mulh32(Vector(magic))`. -/
def mulMagic (dividend : Vec r simd) (magic : Nat) : Vec r simd :=
  mulh32 target simd r dividend fun _ => BitVec.ofNat r.bits magic

def Sequence.quotient (divisor : Nat) (dividend : Vec r simd) : Sequence → Vec r simd
  | .family odd magic shift => fun l => mulMagic target dividend magic l >>> (shift + Nat.log2 (divisor / odd))
  | .shifted _ before magic after => fun l => mulMagic target (fun l => dividend l >>> before) magic l >>> after
  | .widened _ magic after =>
    let quotient := mulMagic target dividend magic
    let temp := fun l => (dividend l - quotient l) >>> 1
    fun l => (quotient l + temp l) >>> after

/-- `simd::div`; `none` is the exception for divisors that are not supported. -/
def div (divisor : Nat) (dividend : Vec r simd) : Option (Vec r simd) :=
  if isPowerOfTwo divisor then some fun l => dividend l >>> Nat.log2 divisor
  else if simd = .Scalar then some fun l => BitVec.ofNat r.bits ((dividend l).toNat / divisor)
  else (sequences.find? (Sequence.applies divisor)).map fun s => s.quotient target divisor dividend

/-- `dividend - div * Vector(divisor)`. -/
def remainder (divisor : Nat) (dividend div : Vec r simd) : Vec r simd :=
  fun l => dividend l - mulLane target simd r (div l) (BitVec.ofNat r.bits divisor)

def mod (divisor : Nat) (dividend : Vec r simd) : Option (Vec r simd) :=
  if isPowerOfTwo divisor then some fun l => dividend l &&& BitVec.ofNat r.bits (divisor - 1)
  else if simd = .Scalar then some fun l => BitVec.ofNat r.bits ((dividend l).toNat % divisor)
  else (div target divisor dividend).map fun quotient => remainder target divisor dividend quotient

def divMod (divisor : Nat) (dividend : Vec r simd) : Option (Vec r simd × Vec r simd) :=
  if isPowerOfTwo divisor then
    some (fun l => dividend l >>> Nat.log2 divisor, fun l => dividend l &&& BitVec.ofNat r.bits (divisor - 1))
  else if simd = .Scalar then
    some (fun l => BitVec.ofNat r.bits ((dividend l).toNat / divisor),
      fun l => BitVec.ofNat r.bits ((dividend l).toNat % divisor))
  else (div target divisor dividend).map fun quotient => (quotient, remainder target divisor dividend quotient)

end Vec

end PartitionedFilters

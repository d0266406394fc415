import PartitionedFilters.Registers
import PartitionedFilters.VectorDiv

/-!
# The instructions of the vectors

The `_mm256` intrinsics that `simd::Vector` calls, as they are documented, for
registers of any number of bits.
-/

namespace PartitionedFilters.Intrinsics

open Register

variable {n : Nat}

/-! ## Constants -/

/-- `set1_epi8`, `set1_epi32` and `set1_epi64x`. -/
def set1 (n : Nat) {w : Nat} (a : BitVec w) : BitVec n := ofElems n w fun _ => a

/-- `set_epi8` and `set_epi32`: the highest element comes first. -/
def setEpi (n w : Nat) (es : List Nat) : BitVec n := ofElems n w fun i => BitVec.ofNat w (es.reverse.getD i 0)

/-! ## Arithmetic -/

def addEpi (w : Nat) (a b : BitVec n) : BitVec n := zipWith w (· + ·) a b

def subEpi (w : Nat) (a b : BitVec n) : BitVec n := zipWith w (· - ·) a b

def mulloEpi32 (a b : BitVec n) : BitVec n := zipWith 32 (· * ·) a b

def mulEpu32 (a b : BitVec n) : BitVec n := zipWith 64 Vec.mulEpu32 a b

/-- `sad_epu8`: the sum of the absolute differences of eight bytes. -/
def sadEpu8 (a b : BitVec n) : BitVec n := ofElems n 64 fun i =>
  (List.range 8).foldl (fun sum j =>
    let a := (elem 8 a (8 * i + j)).toNat
    let b := (elem 8 b (8 * i + j)).toNat
    sum + BitVec.ofNat 64 (max a b - min a b)) 0

/-! ## Shifts -/

def srliEpi (w count : Nat) (a : BitVec n) : BitVec n := map w (· >>> count) a

def slliEpi (w count : Nat) (a : BitVec n) : BitVec n := map w (· <<< count) a

def sraiEpi32 (count : Nat) (a : BitVec n) : BitVec n := map 32 (·.sshiftRight count) a

def srlvEpi (w : Nat) (a count : BitVec n) : BitVec n := zipWith w (fun a count => a >>> count.toNat) a count

def sllvEpi (w : Nat) (a count : BitVec n) : BitVec n := zipWith w (fun a count => a <<< count.toNat) a count

/-! ## Comparisons -/

def truth (w : Nat) (b : Bool) : BitVec w := if b then BitVec.allOnes w else 0

def cmpeqEpi (w : Nat) (a b : BitVec n) : BitVec n := zipWith w (fun a b => truth w (a == b)) a b

def cmpgtEpi (w : Nat) (a b : BitVec n) : BitVec n := zipWith w (fun a b => truth w (b.slt a)) a b

def movemaskEpi8 (a : BitVec n) : BitVec 32 := BitVec.ofFnLE fun i : Fin 32 => (elem 8 a i).msb

/-! ## Permutations -/

def shuffleEpi32 (a : BitVec n) (imm8 : Nat) : BitVec n :=
  ofElems n 32 fun i => elem 32 a (4 * (i / 4) + imm8 / 4 ^ (i % 4) % 4)

def shuffleEpi8 (a b : BitVec n) : BitVec n := ofElems n 8 fun i =>
  let index := elem 8 b i
  if index.msb then 0 else elem 8 a (16 * (i / 16) + index.toNat % 16)

def blendEpi32 (a b : BitVec n) (imm8 : Nat) : BitVec n :=
  ofElems n 32 fun i => if imm8.testBit i then elem 32 b i else elem 32 a i

/-! ## Memory -/

/-- The byte at a signed index from the base, for elements of `scale` bytes. -/
def gatherAddress {w : Nat} (base : BitVec 64) (index : BitVec w) (scale : Nat) : BitVec 64 :=
  base + index.signExtend 64 * BitVec.ofNat 64 scale

/-- `mask_i32gather_epi32` and `mask_i64gather_epi64`: the top bit of an element of the mask decides. -/
def maskGatherEpi (w : Nat) (src : BitVec n) (base : BitVec 64) (vindex mask : BitVec n) (scale : Nat) (m : Mem) :
    BitVec n :=
  ofElems n w fun i =>
    if (elem w mask i).msb then m.load (8 * (gatherAddress base (elem w vindex i) scale).toNat) w else elem w src i

/-! ## What an element is -/

section
variable {w i : Nat}

theorem msb_truth (hw : 0 < w) (b : Bool) : (truth w b).msb = b := by
  cases b with
  | false => exact BitVec.msb_zero
  | true => simp [truth, BitVec.msb_allOnes hw]

variable (hi : w * i + w ≤ n)
include hi

theorem elem_set1 (a : BitVec w) : elem w (set1 n a) i = a := elem_ofElems hi _

theorem elem_setEpi (es : List Nat) : elem w (setEpi n w es) i = BitVec.ofNat w (es.reverse.getD i 0) :=
  elem_ofElems hi _

end

end PartitionedFilters.Intrinsics

import PartitionedFilters.Address
import PartitionedFilters.Simd

/-!
# Entry points of the addressers

The gathering version of each function for scalar vectors, and the three
versions for vectors with several lanes, where masked additions stand for
multiplications with a truth value.
-/

namespace PartitionedFilters

variable {r : RegisterSize} {n : Nat}

def Lanes.addMask (u v : Lanes r n) (mask : LaneMask n) : Lanes r n := fun l => if mask l then u l + v l else u l

namespace Addresser

/-! ## Scalar vectors -/

def computeAddressGather (mode : AddressingMode) (ad : Addresser r) (index addresses : r.T) : r.T :=
  (ad.broadcast index.toNat).computeAddress mode addresses

/-- In the mode `Morton` this version adds what the others subtract. -/
def computeAlternativeAddressGather (mode : AddressingMode) (ad : Addresser r) (index address signature : r.T) :
    r.T :=
  let e := ad.broadcast index.toNat
  match mode with
  | .Morton =>
    let offset := (murmur signature &&& 0x1fff) ||| 1
    let offset := offset * (-1 + (address &&& 1) <<< 1)
    let subtract : r.T := if address &&& 1 = 1 then 1 else 0
    let alternate := address + offset
    alternate + e.size * (-1 + subtract <<< 1) * BitVec.ofNat r.bits (e.size.ule alternate).toNat
  | mode => e.computeAlternativeAddress mode address signature

/-! ## Several lanes -/

namespace Simd

/-- `Vector(sizes[index])` and the like. -/
def broadcast (ad : Addresser r) (index : Nat) : Fin n → AddresserEntry r := fun _ => ad.broadcast index

/-- `Vector::load(sizes + index)` and the like. The arrays are aligned: `none` where the vector is not. -/
def load (ad : Addresser r) (index : Nat) : Option (Fin n → AddresserEntry r) :=
  if n ∣ index then some fun l => ad.broadcast (index + l) else none

/-- `index.gather(sizes, m)` and the like. The indices are signed: `none` where a lane reads before the array. -/
def gather (ad : Addresser r) (index : Lanes r n) (mask : LaneMask n) : Option (Fin n → AddresserEntry r) :=
  if ∃ l, mask l = true ∧ 2 ^ (r.bits - 1) ≤ (index l).toNat then none
  else some fun l => if mask l then ad.broadcast (index l).toNat else { size := 0 }

def computeAddress (mode : AddressingMode) (e : Fin n → AddresserEntry r) (addresses : Lanes r n) : Lanes r n :=
  match mode with
  | .PowerOfTwo => fun l => addresses l &&& (e l).mask
  | .Magic =>
    let quotient : Lanes r n := fun l => mulh32 (addresses l) (e l).magic
    fun l => addresses l - (quotient l >>> (e l).shiftAmount.toNat) * (e l).size
  | .Lemire | .Vacuum | .Morton => fun l => mulh32 (addresses l) (e l).size

/-- `atLeast` is the operator `>=` of vectors, which `simd/vector.hpp` does not define. -/
def computeAlternativeAddress (atLeast : Lanes r n → Lanes r n → LaneMask n) (mode : AddressingMode)
    (e : Fin n → AddresserEntry r) (address signature : Lanes r n) : Lanes r n :=
  let size : Lanes r n := fun l => (e l).size
  let sig : Lanes r n := fun l => extractAddressBits (signature l * AddresserEntry.signatureFactor r)
  match mode with
  | .PowerOfTwo => fun l => address l ^^^ computeAddress .PowerOfTwo e sig l
  | .Vacuum => fun l => address l ^^^ (sig l &&& (e l).mask)
  | .Magic =>
    let sig := computeAddress .Magic e sig
    Lanes.addMask (fun l => sig l - address l) size fun l => (sig l).ult (address l)
  | .Lemire =>
    let sig := computeAddress .Lemire e sig
    Lanes.addMask (fun l => sig l - address l) size fun l => (sig l).ult (address l)
  | .Morton =>
    let offset : Lanes r n := fun l => (murmur (signature l) &&& 0x1fff) ||| 1
    let offset : Lanes r n := fun l => offset l * (-1 + (address l &&& 1) <<< 1)
    let subtract : LaneMask n := fun l => address l &&& 1 == 1
    -- `not` of a mask is a truth value, so it keeps at most the first lane
    let notSubtract : LaneMask n := fun l => l.val == 0 && (List.finRange n).all fun l' => !subtract l'
    let alternate : Lanes r n := fun l => address l + offset l
    let alternate := Lanes.addMask alternate size fun l => subtract l && atLeast alternate size l
    Lanes.addMask alternate (fun l => size l * -1) fun l => notSubtract l && atLeast alternate size l

end Simd

end Addresser

end PartitionedFilters

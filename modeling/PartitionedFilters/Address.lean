import PartitionedFilters.Bits
import PartitionedFilters.Hash

/-!
# Addressing

`Addresser<mode>` for one lane, where its vertical, horizontal and gathering
entry points read the same array cells, and the part of `libdivide` that the
mode `Magic` takes its constants from.
-/

namespace PartitionedFilters

variable {r : RegisterSize}

inductive AddressingMode where
  | PowerOfTwo
  | Magic
  | Lemire
  | Vacuum
  | Morton
  deriving DecidableEq, Repr

/-! ## `libdivide` -/

structure LibdivideU32 where
  magic : Nat
  more : Nat
  deriving DecidableEq, Repr

namespace LibdivideU32

def addMarker : Nat := 0x40

/-- `libdivide_internal_u32_gen(d, 0)`. -/
def internalGen (d : Nat) : LibdivideU32 :=
  let floorLog2 := 31 - clz 32 d
  if d &&& (d - 1) = 0 then { magic := 0, more := floorLog2 }
  else
    let proposedM := 2 ^ floorLog2 * 2 ^ 32 / d
    let rem := 2 ^ floorLog2 * 2 ^ 32 % d
    if d - rem < 2 ^ floorLog2 then { magic := (1 + proposedM) % 2 ^ 32, more := floorLog2 }
    else
      let twiceRem := (rem + rem) % 2 ^ 32
      let proposedM := proposedM + proposedM + if d ≤ twiceRem ∨ twiceRem < rem then 1 else 0
      { magic := (1 + proposedM) % 2 ^ 32, more := floorLog2 ||| addMarker }

/-- The loop of `libdivide_u32_cheap_gen`; `none` is its error exit. -/
def search : Nat → Nat → Option LibdivideU32
  | 0, _ => none
  | fuel + 1, d =>
    if d = 0 then none
    else
      let div := internalGen d
      if div.magic = 0 ∨ div.more &&& addMarker ≠ 0 then search fuel ((d + 1) % 2 ^ 32) else some div

def cheapGen (d : Nat) : Option LibdivideU32 := search (2 ^ 32) (if d < 2 then 2 else d)

/-- `libdivide_u32_recover`, for a divider without add marker. -/
def recover (denom : LibdivideU32) : Nat :=
  let shift := denom.more &&& 0x1f
  if denom.magic = 0 then 2 ^ shift else (1 + 2 ^ shift * 2 ^ 32 / denom.magic) % 2 ^ 32

end LibdivideU32

/-! ## Addressers -/

def mulh32 (x y : r.T) : r.T :=
  (((x.setWidth 32).setWidth 64 * (y.setWidth 32).setWidth 64 : BitVec 64) >>> 32).setWidth r.bits

/-- `math::next_power_of_two`. A 64-bit shift by 64 is one by 0. -/
def nextPowerOfTwo (value : r.T) : r.T :=
  if value = 0 then 0
  else if value = 1 then 1
  else (1#64 <<< ((r.bits - clz r.bits (value.toNat - 1)) % 64)).setWidth r.bits

structure AddresserEntry (r : RegisterSize) where
  size : r.T
  mask : r.T := 0
  magic : r.T := 0
  shiftAmount : r.T := 0
  deriving DecidableEq, Repr

namespace AddresserEntry

/-- `none` where the search for a magic number exits the program. -/
def new? (mode : AddressingMode) (h : r.T) : Option (AddresserEntry r) :=
  match mode with
  | .PowerOfTwo => some { size := nextPowerOfTwo h, mask := nextPowerOfTwo h - 1 }
  | .Magic =>
    (LibdivideU32.cheapGen (h.toNat % 2 ^ 32)).map fun div =>
      { size := BitVec.ofNat r.bits div.recover, magic := BitVec.ofNat r.bits div.magic,
        shiftAmount := BitVec.ofNat r.bits div.more }
  | .Lemire => some { size := h }
  | .Vacuum =>
    let chunkSize : r.T := nextPowerOfTwo h / 16
    if 256 ≤ chunkSize.toNat then
      some { size := (h + chunkSize - 1) / chunkSize * chunkSize, mask := chunkSize - 1 }
    else some { size := nextPowerOfTwo h, mask := nextPowerOfTwo h - 1 }
  | .Morton => some { size := h }

/-- What the constructor stores; it never meets the error exit (`isSome_new?`). -/
def new (mode : AddressingMode) (h : r.T) : AddresserEntry r := (new? mode h).getD { size := 0 }

def computeAddress (mode : AddressingMode) (e : AddresserEntry r) (addresses : r.T) : r.T :=
  match mode with
  | .PowerOfTwo => addresses &&& e.mask
  | .Magic => addresses - (mulh32 addresses e.magic >>> e.shiftAmount.toNat) * e.size
  | .Lemire | .Vacuum | .Morton => mulh32 addresses e.size

def signatureFactor (r : RegisterSize) : r.T := BitVec.ofNat r.bits 0x5bd1e995

/-- `compute_alternative_address_vertical`. -/
def computeAlternativeAddress (mode : AddressingMode) (e : AddresserEntry r) (address signature : r.T) : r.T :=
  let sig := extractAddressBits (signature * signatureFactor r)
  match mode with
  | .PowerOfTwo => address ^^^ computeAddress .PowerOfTwo e sig
  | .Vacuum => address ^^^ (sig &&& e.mask)
  | .Magic =>
    let sig := computeAddress .Magic e sig
    sig - address + e.size * BitVec.ofNat r.bits (sig.ult address).toNat
  | .Lemire =>
    let sig := computeAddress .Lemire e sig
    sig - address + e.size * BitVec.ofNat r.bits (sig.ult address).toNat
  | .Morton =>
    let offset := (murmur signature &&& 0x1fff) ||| 1
    let offset := offset * (-1 + (address &&& 1) <<< 1)
    let subtract : r.T := if address &&& 1 = 1 then 1 else 0
    let alternate := address + offset
    alternate - e.size * (-1 + subtract <<< 1) * BitVec.ofNat r.bits (e.size.ule alternate).toNat

/-- `fingerprint<n>` of every addresser. -/
def fingerprint (n : Nat) (hash : r.T) : r.T := (hash >>> (r.bits - n) ^^^ hash) &&& valueMask r n

end AddresserEntry

/-! ## Entry points of a scalar vector -/

/-- The arrays of an addresser, one entry a partition. -/
structure Addresser (r : RegisterSize) where
  entries : List (AddresserEntry r)

namespace Addresser

def new (mode : AddressingMode) (histogram : List r.T) : Addresser r :=
  { entries := histogram.map (AddresserEntry.new mode) }

/-- `Vector(masks[index])` and the like. The arrays are zero behind their length. -/
def broadcast (ad : Addresser r) (index : Nat) : AddresserEntry r := ad.entries.getD index { size := 0 }

/-- `Vector::load(masks + index)` and the like. -/
def load (ad : Addresser r) (index : Nat) : AddresserEntry r := (ad.entries.drop index).headD { size := 0 }

def getSize (ad : Addresser r) (index : Nat) : Nat := (ad.broadcast index).size.toNat

def computeAddressVertical (mode : AddressingMode) (ad : Addresser r) (index : Nat) (addresses : r.T) : r.T :=
  (ad.broadcast index).computeAddress mode addresses

def computeAddressHorizontal (mode : AddressingMode) (ad : Addresser r) (index : Nat) (addresses : r.T) : r.T :=
  (ad.load index).computeAddress mode addresses

def computeAlternativeAddressVertical (mode : AddressingMode) (ad : Addresser r) (index : Nat)
    (address signature : r.T) : r.T := (ad.broadcast index).computeAlternativeAddress mode address signature

def computeAlternativeAddressHorizontal (mode : AddressingMode) (ad : Addresser r) (index : Nat)
    (address signature : r.T) : r.T := (ad.load index).computeAlternativeAddress mode address signature

end Addresser

end PartitionedFilters

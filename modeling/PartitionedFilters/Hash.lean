import PartitionedFilters.Parameter

/-!
# Hash functions and seeds

`hash.hpp` and `seed.hpp`, for one lane.
-/

namespace PartitionedFilters

variable {r : RegisterSize}

/-- A constant of type `T`; the source writes one for each register size. -/
def constant (r : RegisterSize) (c32 c64 : Nat) : r.T :=
  BitVec.ofNat r.bits (match r with
    | ._32bit => c32
    | ._64bit => c64)

def shiftConstant (r : RegisterSize) (s32 s64 : Nat) : Nat :=
  match r with
  | ._32bit => s32
  | ._64bit => s64

def murmur (v : r.T) : r.T :=
  let h := v ^^^ v >>> shiftConstant r 16 33
  let h := h * constant r 0x85ebca6b 0xff51afd7ed558ccd
  let h := h ^^^ h >>> shiftConstant r 13 33
  let h := h * constant r 0xc2b2ae35 0xc4ceb9fe1a85ec53
  h ^^^ h >>> shiftConstant r 16 33

namespace Hasher.Mul

def factors64 : List Nat :=
  [0xc3a5c85c97cb3127, 0xb492b66fbe98f273, 0x9ae16a3b2f90404f, 0xc949d7c7509e6557, 0xff51afd7ed558ccd,
    0xc4ceb9fe1a85ec53, 0x87c37b91114253d5, 0x4cf5ad432745937f]

def factors32 : List Nat :=
  [0x85ebca6b, 0xc2b2ae35, 0xcc9e2d51, 0x1b873593, 0x239b961b, 0xab0e9789, 0x38b34ae5, 0xa1e38b93]

def hash (val : r.T) : r.T := val * constant r (factors32.getD 0 0) (factors64.getD 0 0)

end Hasher.Mul

/-! ## Seeds -/

def seeds32 : List Nat :=
  [0xcdeb703e, 0x133ec928, 0x317ce7dc, 0xea8edcad, 0x52c7be8e, 0x62790d19, 0x7d6190ca, 0x0950a40f, 0xec0702aa,
    0x9ad9b931, 0xb94f9e6a, 0xb7d48e38, 0xaea82df5, 0xd2f08779, 0xcaf0d659, 0x2c55ae68]

def seeds64 : List Nat :=
  [0xb50ee07e66a4cebc, 0x5aded764e5520ef4, 0xd44415b984b89b63, 0xd83bed13657b40b3, 0x7ee34367bd4b7901,
    0x41bb0212d77eeb8b, 0xc3049db8cb628eb7, 0x7940a3ce9ab66c15, 0x37d599e2efa012cb, 0xfa983f3693b58352,
    0x9f9216f3b0218c4f, 0x2c50b7a21d3fed06, 0xe0eba29b8bdd2b50, 0x64732b59505022f0, 0x3a9f118b227040e7,
    0x34aa4d71c272549b]

def singleSeed (r : RegisterSize) (index : Nat) : r.T :=
  constant r (seeds32.getD index 0) (seeds64.getD index 0)

end PartitionedFilters

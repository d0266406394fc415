import PartitionedFilters.PartitionSetSound
import PartitionedFilters.XorContainerSound
import PartitionedFilters.XorLayout

/-!
# The Xor filter has no false negatives

A partition is built exactly when the hypergraph of its hashes can be peeled
under one of the seeds, and the slots of the partitions are apart. What remains
is the arithmetic of `T`: the sizes for which no offset wraps.
-/

namespace PartitionedFilters.Xor

open Function (update)
open Peeling (deg Peels Peelable)

variable {r : RegisterSize} {c : Config r} {e : AddresserEntry r}

/-! ## One partition -/

def trySeeds (r : RegisterSize) : List r.T := 0 :: (List.range maxNRetries).map (singleSeed r)

/-- One call of `_construct`: the values at `offset` for the partition `index`. -/
structure Build (r : RegisterSize) where
  index : Nat
  offset : Nat
  histogram : Nat
  values : Nat → r.T

namespace Build

def Peels (c : Config r) (b : Build r) : Prop :=
  ∃ seed ∈ trySeeds r, Peelable (Incident c (.new c.mode (nBlocks c b.histogram)))
    ↑(XorSet.hashes c seed b.offset b.histogram b.values)

end Build

namespace Filter

/-- The partition of `b` was not built yet; its slots are `[first, first + nSlots)`. -/
structure Fresh (c : Config r) (first : Nat → Nat) (f : Filter r) (b : Build r) : Prop where
  entry : f.container.entries b.index = .new c.mode (nBlocks c b.histogram)
  sized : Sized c (f.container.entries b.index)
  region : Region c (f.container.entries b.index) (fun j => f.container.offsets j b.index) (first b.index)
  fits : b.offset + b.histogram < 2 ^ r.bits
  zero : ∀ a, a < nSlots c (f.container.entries b.index) →
    table c.k f.container.fingerprints (first b.index + a) = 0#c.k
  seed : f.container.seeds b.index = 0

structure Frame (c : Config r) (first : Nat → Nat) (index : Nat) (f f' : Filter r) : Prop where
  nPartitions : f'.nPartitions = f.nPartitions
  entries : f'.container.entries = f.container.entries
  offsets : f'.container.offsets = f.container.offsets
  seeds : ∀ i, i ≠ index → f'.container.seeds i = f.container.seeds i
  table : ∀ a, a < first index ∨ first index + nSlots c (f.container.entries index) ≤ a →
    Xor.table c.k f'.container.fingerprints a = Xor.table c.k f.container.fingerprints a

variable {first : Nat → Nat} {f f' : Filter r} {b : Build r}

theorem Frame.refl (c : Config r) (first : Nat → Nat) (index : Nat) (f : Filter r) : Frame c first index f f :=
  ⟨rfl, rfl, rfl, fun _ _ => rfl, fun _ _ => rfl⟩

structure Apart (c : Config r) (first : Nat → Nat) (f : Filter r) (i j : Nat) : Prop where
  ne : i ≠ j
  slots : first i + nSlots c (f.container.entries i) ≤ first j ∨
    first j + nSlots c (f.container.entries j) ≤ first i

theorem Apart.symm {i j : Nat} (h : Apart c first f i j) : Apart c first f j i := ⟨h.ne.symm, h.slots.symm⟩

structure Kept (c : Config r) (first : Nat → Nat) (bs : List (Build r)) (f f' : Filter r) : Prop where
  nPartitions : f'.nPartitions = f.nPartitions
  entries : f'.container.entries = f.container.entries
  offsets : f'.container.offsets = f.container.offsets
  fresh : ∀ b, Fresh c first f b → (∀ b' ∈ bs, Apart c first f b'.index b.index) → Fresh c first f' b

end Filter

namespace Filter

def indexOf (c : Config r) (n : Nat) (x : r.T) : Nat := c.cell (x.setWidth 64 &&& BitVec.ofNat 64 (n - 1)).toNat

theorem toNat_and_pred {m : Nat} (hm : m < 64) (x : r.T) :
    (x.setWidth 64 &&& BitVec.ofNat 64 (2 ^ m - 1)).toNat = x.toNat % 2 ^ m := by
  have hx : x.toNat < 2 ^ 64 := Nat.lt_of_lt_of_le x.isLt (PartitionSet.two_pow_bits_le r)
  have hmask : 2 ^ m - 1 < 2 ^ 64 := by
    have : 2 ^ m < 2 ^ 64 := Nat.pow_lt_pow_right (by decide) hm
    omega
  rw [BitVec.toNat_and, BitVec.toNat_setWidth, BitVec.toNat_ofNat, Nat.mod_eq_of_lt hx, Nat.mod_eq_of_lt hmask,
    Nat.and_two_pow_sub_one_eq_mod]

def start (c : Config r) (n : Nat) (uninit : Nat → Nat → r.T) (v : List r.T) : Filter r :=
  let p := partitions c n uninit v
  empty c p.nPartitions p.histogram

def bytewise (variant : Variant) : Config ._32bit :=
  { variant, k := 8, partitioning := .Disabled, mode := .Lemire, hash := murmur, s := 123 }

end Filter

end PartitionedFilters.Xor

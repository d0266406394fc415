import PartitionedFilters.XorFilter
import PartitionedFilters.XorFuseSound
import PartitionedFilters.XorStandardSound
import Mathlib.Data.Fin.VecNotation

/-!
# Filling the container of the Xor filter

The fingerprints are a table of `k`-bit values and the lookup of a hash is an
equation of three of them. Both variants solve the equations of the stack in an
order in which no solved equation is touched again.
-/

namespace PartitionedFilters.Xor

open Function (update)
open Peeling (Peels)

variable {r : RegisterSize} {c : Config r} {e : AddresserEntry r}

/-! ## The table of fingerprints -/

def table (k : Nat) (m : Mem) (address : Nat) : BitVec k := m.load (k * address) k

def Reach (c : Config r) (address : Nat) : Prop := c.byteAddressed = true ∨ address * c.k < 2 ^ r.bits

namespace XorContainer

theorem k_le (hk : c.k ≤ 32) : c.k ≤ r.bits := by
  have : 32 ≤ r.bits := by cases r <;> decide
  omega

section
variable {a : Nat} (hk32 : c.k ≤ 32) (hreach : Reach c a)
include hk32 hreach

end

end XorContainer

/-! ## Equations -/

/-- The slots of a partition begin at `first` and none of their addresses leaves `T`. -/
structure Region (c : Config r) (e : AddresserEntry r) (offsets : Fin 3 → Nat) (first : Nat) : Prop where
  offsets : ∀ j, offsets j = first + j * e.size.toNat
  fits : first + nSlots c e ≤ 2 ^ r.bits
  reach : ∀ j hash, Reach c (first + c.vertex e j hash)

theorem Turn.xor {set0 set1 set2 : Fin 3} (ht : Turn set0 set1 set2) {k : Nat} (x : Fin 3 → BitVec k) :
    x set1 ^^^ x set2 = x 0 ^^^ x 1 ^^^ x 2 ^^^ x set0 := by
  have hbool : ∀ set0 set1 set2 : Fin 3, set0 ≠ set1 → set0 ≠ set2 → set1 ≠ set2 → ∀ x0 x1 x2 : Bool,
      (![x0, x1, x2] set1 ^^ ![x0, x1, x2] set2) = (x0 ^^ x1 ^^ x2 ^^ ![x0, x1, x2] set0) := by decide
  ext i hi
  have h := hbool set0 set1 set2 ht.ne01 ht.ne02 ht.ne12 (x 0)[i] (x 1)[i] (x 2)[i]
  have hx : ∀ j, ![(x 0)[i], (x 1)[i], (x 2)[i]] j = (x j)[i] := fun j => by
    rcases (⟨by decide, by decide, by decide⟩ : Turn 0 1 2).all j with rfl | rfl | rfl <;> rfl
  rw [hx, hx, hx] at h
  simp only [BitVec.getElem_xor]
  rw [h, Bool.xor_assoc, Bool.xor_assoc]

namespace Region
variable {offsets : Fin 3 → Nat} {first : Nat}

theorem vertex_lt (hz : Sized c e) (hr : Region c e offsets first) (j : Fin 3) (hash : r.T) :
    first + c.vertex e j hash < 2 ^ r.bits :=
  Nat.lt_of_lt_of_le (Nat.add_lt_add_left (hz.vertex_lt j hash) first) hr.fits

end Region

namespace XorContainer
variable {offsets : Fin 3 → Nat} {first : Nat}

section
variable (hk32 : c.k ≤ 32) (hz : Sized c e) (hr : Region c e offsets first)
include hk32 hz hr

end

end XorContainer

end PartitionedFilters.Xor

import PartitionedFilters.HashSound
import PartitionedFilters.XorSetSound
import Mathlib.Data.Fintype.EquivFin

/-!
# The slots of one key

Each key is added to a set at three slots, and a slot counts what is added to
it. Whatever the offsets are, a slot that counted once holds the hash of one key.
-/

namespace PartitionedFilters.Xor

open Function (update Injective)

variable {r : RegisterSize} {c : Config r}

namespace XorSet

def keys (offset histogram : Nat) (values : Nat → r.T) : List r.T :=
  (List.range' offset (r.wrap (offset + histogram) - offset)).map values

/-- The cell of a slot's hash; its counter is the next one. -/
def cell (r : RegisterSize) (s : Nat) : Nat := r.wrap (s * 2)

variable {x : XorSet r} {s : Nat}

end XorSet

/-! ## Addresses of a large table -/

end PartitionedFilters.Xor

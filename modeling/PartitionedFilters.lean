import PartitionedFilters.TaskQueue
import PartitionedFilters.TaskQueueSound
import PartitionedFilters.Parameter
import PartitionedFilters.PartitionSet
import PartitionedFilters.PartitionSetSound
import PartitionedFilters.Bits
import PartitionedFilters.Address
import PartitionedFilters.AddressSound
import PartitionedFilters.Peeling
import PartitionedFilters.Xor
import PartitionedFilters.XorContainerSound
import PartitionedFilters.XorFilterSound
import PartitionedFilters.Cuckoo
import PartitionedFilters.CuckooSound
import PartitionedFilters.FilterPointer
import PartitionedFilters.FilterPointerSound
import PartitionedFilters.Morton
import PartitionedFilters.MortonBlockSound
import PartitionedFilters.MortonLookupSound
import PartitionedFilters.MortonSimd
import PartitionedFilters.MortonSimdSound
import PartitionedFilters.CuckooBounds
import PartitionedFilters.XorBounds
import PartitionedFilters.CuckooSimdSound
import PartitionedFilters.Bloom
import PartitionedFilters.BloomBounds
import PartitionedFilters.BloomSimd
import PartitionedFilters.BloomSimdSound
import PartitionedFilters.BloomInsert
import PartitionedFilters.BloomUnion
import PartitionedFilters.CountFilters
import PartitionedFilters.AddressMortonSound
import PartitionedFilters.AddressSimd
import PartitionedFilters.AddressSimdSound
import PartitionedFilters.Loop
import PartitionedFilters.MortonLoops
import PartitionedFilters.MortonLoopsSound
import PartitionedFilters.PackedFields
import PartitionedFilters.VectorDiv
import PartitionedFilters.VectorDivSound
import PartitionedFilters.BitPositions
import PartitionedFilters.MortonRefinement
import PartitionedFilters.XorPeelingSound
import PartitionedFilters.CuckooParameter
import PartitionedFilters.MortonEviction
import PartitionedFilters.MortonSound
import PartitionedFilters.XorSingle
import PartitionedFilters.CuckooSearch
import PartitionedFilters.BloomWindows
import PartitionedFilters.MortonCounters
import PartitionedFilters.Registers
import PartitionedFilters.Intrinsics
import PartitionedFilters.Vector
import PartitionedFilters.VectorSound
import PartitionedFilters.VectorArithmetic
import PartitionedFilters.VectorEmulation

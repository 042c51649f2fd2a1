import CxxHeaders.CircBufferFifo
import CxxHeaders.StrandStop
import CxxHeaders.IdentifierPoolFacts
import CxxHeaders.FutureOwners
import CxxHeaders.UnorderedMapCopies
import CxxHeaders.LRURefines
import CxxHeaders.NetworkMessageRoundTrip
import CxxHeaders.NetworkMessageBounds
import CxxHeaders.NetworkMessageWrites
import CxxHeaders.NetworkMessageAtomic
import CxxHeaders.SharedResourceMapReleases
import CxxHeaders.SharedResourceMapFacts
import CxxHeaders.SharedResourceMapAgree
import CxxHeaders.ThreadPoolFifo
import CxxHeaders.BitVectorSerialized
import CxxHeaders.BitVectorAppend
import CxxHeaders.StringHasherCoherent
import CxxHeaders.OptionalRefines
import CxxHeaders.UnorderedMapRefines
import CxxHeaders.Uint128Arithmetic
import CxxHeaders.UintArithmetic
import CxxHeaders.UintShifts
import CxxHeaders.UintConstruction
import CxxHeaders.FutureThenOrder
import CxxHeaders.DynamicPackedStructEqual
import CxxHeaders.TimeoutsThreadOrder
import CxxHeaders.MpscWaitFreeSemiIntrusiveQueueFifo
import CxxHeaders.FutureLifetimesDestroyed
import CxxHeaders.SharedResourceMapThrows
import CxxHeaders.SharedResourceMapRollsBack
import CxxHeaders.SharedResourceMapForEach
import CxxHeaders.SharedResourceMapForEachLocks
import CxxHeaders.FutureThrows
import CxxHeaders.FutureThrowsHandled
import CxxHeaders.IntegerOutput
import CxxHeaders.StringViewFinds
import CxxHeaders.StringViewOutput
import CxxHeaders.IntegerLiteralsValue
import CxxHeaders.TicketSpinLockFair
import CxxHeaders.IntrusiveUnorderedSharedItemSetOwned
import CxxHeaders.ObjectTreeOwned
import CxxHeaders.StringViewTrim
import CxxHeaders.Range
import CxxHeaders.Split
import CxxHeaders.CircBufferActorsAgree
import CxxHeaders.MultHiLo
import CxxHeaders.IdentifierPoolThrows
import CxxHeaders.LRUNull
import CxxHeaders.OptionalThrows
import CxxHeaders.OptionalUnwinds
import CxxHeaders.OptionalThrowsAgree
import CxxHeaders.SystemRead
import CxxHeaders.EventLoop
import CxxHeaders.EventLoopFlush
import CxxHeaders.Datum
import CxxHeaders.DatumLoads
import CxxHeaders.UnorderedMapTransparentAgree
import CxxHeaders.UnorderedMapEqual
import CxxHeaders.UnorderedMapReached
import CxxHeaders.Latch
import CxxHeaders.ParticipatoryThreadPool
import CxxHeaders.ParticipatoryThreadPoolFacts
import CxxHeaders.ParticipatoryThreadPoolStops
import CxxHeaders.EventLoopQuiesces
import CxxHeaders.EventLoopLinear
import CxxHeaders.SharedResourceMapEntries
import CxxHeaders.SharedResourceMapWaits
import CxxHeaders.FutureWaits
import CxxHeaders.StrandSleepers
import CxxHeaders.TimeoutsThreadDue
import CxxHeaders.FileDescriptor
import CxxHeaders.FileDescriptorOwned
import CxxHeaders.StrandsOnPool
import CxxHeaders.StrandsOnPoolToken
import CxxHeaders.StrandsOnPoolProgress
import CxxHeaders.StrandsOnPoolStops
import CxxHeaders.CircBufferWaits
import CxxHeaders.CircBufferWakes

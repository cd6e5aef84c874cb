import XviOs.Library.BitField
import XviOs.Library.ListFamily
import XviOs.Library.Runs
import XviOs.Library.Chain
import XviOs.Library.Slices
import XviOs.Allocator.Chunk
import XviOs.Allocator.Tile
import XviOs.Allocator.Arena
import XviOs.Allocator.BinList
import XviOs.Allocator.ChunkSpec
import XviOs.Allocator.Heap
import XviOs.Allocator.Layout
import XviOs.Allocator.Image
import XviOs.Allocator.Worked
import XviOs.Allocator.Realise
import XviOs.Allocator.AddBlock
import XviOs.Allocator.FreeSpec
import XviOs.Allocator.AllocateSpec
import XviOs.Allocator.ResizeSpec
import XviOs.Allocator.Session
import XviOs.Allocator.BestFit
import XviOs.Allocator.Accounting
import XviOs.Fat.Filesystem
import XviOs.Fat.LongName
import XviOs.Fat.LongNameSafety
import XviOs.Fat.FatTable
import XviOs.Fat.ChainLink
import XviOs.Fat.FreeCluster
import XviOs.Fat.Copies
import XviOs.Fat.ClusterChain
import XviOs.Library.Bitmap
import XviOs.Pool.Header
import XviOs.Pool.Session
import XviOs.RBTree.Node
import XviOs.RBTree.RedBlack
import XviOs.Fat.LongNameRoundTrip
import XviOs.Deflate.Huffman
import XviOs.Deflate.BitstreamSpec
import XviOs.Library.CanonicalCode
import XviOs.Deflate.HuffmanCodes
import XviOs.Deflate.HuffmanTree
import XviOs.Deflate.HuffmanComplete
import XviOs.Deflate.HuffmanDecode
import XviOs.Deflate.BlockDecoder
import XviOs.Deflate.BlockDecoderSafety
import XviOs.Deflate.Header
import XviOs.Deflate.HeaderDecode
import XviOs.Deflate.HeaderRecovery
import XviOs.Deflate.HeaderExact
import XviOs.Mmu.Address
import XviOs.Mmu.PageTable
import XviOs.Mmu.EntrySpec
import XviOs.Mmu.MapPage
import XviOs.Mmu.SelfMap
import XviOs.Mmu.SelfMapLong
import XviOs.Mmu.MapOnePage
import XviOs.Integer.DoubleWidth
import XviOs.Integer.Division
import XviOs.Library.ByteCoding
import XviOs.Dwarf.LEB128
import XviOs.Unicode.EncodeState
import XviOs.Format.CharConv
import XviOs.Format.CharConvSpec
import XviOs.Format.CharConvRoundTrip
import XviOs.Library.Search
import XviOs.StringImpl.Search
import XviOs.Storage.BlockCache
import XviOs.Storage.References
import XviOs.Storage.HandleSteps
import XviOs.Storage.Acquire
import XviOs.Storage.MultiBlock
import XviOs.Pool.Group
import XviOs.Pool.GroupInvariant
import XviOs.Pool.GroupAllocate
import XviOs.Pool.GroupFree
import XviOs.Pool.GroupRuns
import XviOs.GAlloc.PageTable
import XviOs.GAlloc.PageTableMap
import XviOs.Library.LocatedProgram
import XviOs.Dwarf.CFI
import XviOs.Dwarf.RegRule
import XviOs.Dwarf.CFITable
import XviOs.Dwarf.CFIRows
import XviOs.Dwarf.CFIParse
import XviOs.Concurrency.Seqlock
import XviOs.Library.Queue
import XviOs.Concurrency.Spinlock
import XviOs.Concurrency.SpinlockInvariant
import XviOs.Concurrency.SpinlockRuns
import XviOs.Library.Assignment
import XviOs.Dwarf.UnwindFrame
import XviOs.Logger.Message
import XviOs.Logger.RoundTrip
import XviOs.Igniter.PageBitmap
import XviOs.Igniter.PageBitmapRuns
import XviOs.CxxAbi.Personality
import XviOs.CxxAbi.PersonalitySearch
import XviOs.CxxAbi.PersonalityRecords
import XviOs.CxxAbi.PersonalityPhases
import XviOs.Library.StateProgram
import XviOs.Library.Rearrange
import XviOs.Algorithm.Sort
import XviOs.Algorithm.Partition
import XviOs.Algorithm.HeapSort
import XviOs.Algorithm.Introsort
import XviOs.Algorithm.Select
import XviOs.CxxAbi.TypeMatch
import XviOs.CxxAbi.Hierarchy
import XviOs.CxxAbi.TypeMatchWalk
import XviOs.CxxAbi.VecCtor
import XviOs.CxxAbi.VecNew
import XviOs.CxxAbi.TypeMatchSpec
import XviOs.Library.Gregorian
import XviOs.Chrono.Calendar
import XviOs.Chrono.Months
import XviOs.Chrono.Weekdays
import XviOs.Utility.Bitset
import XviOs.StringView.Model
import XviOs.StringView.Substring
import XviOs.StringView.Reverse
import XviOs.Library.Links
import XviOs.Library.Sequences
import XviOs.ForwardList.Model
import XviOs.ForwardList.Operations
import XviOs.ForwardList.Refines
import XviOs.StdList.Model
import XviOs.StdList.Links
import XviOs.StdList.Operations
import XviOs.StdList.Loops
import XviOs.StdList.Refines
import XviOs.StdList.Sort
import XviOs.StdLib.CType
import XviOs.StdLib.StrToNum
import XviOs.StdLib.Exit
import XviOs.VoidPtr.Model
import XviOs.VoidPtr.Tear
import XviOs.VoidPtr.Refines
import XviOs.Library.Ownership
import XviOs.RefcountedPtr.Model
import XviOs.RefcountedPtr.Runs
import XviOs.RefcountedPtr.Refines
import XviOs.SharedPtr.Model
import XviOs.SharedPtr.Counts
import XviOs.SharedPtr.Shared
import XviOs.SharedPtr.Weak
import XviOs.SharedPtr.Refines
import XviOs.ByteBuffer.Endian
import XviOs.ByteBuffer.Model
import XviOs.ByteBuffer.RoundTrip
import XviOs.ByteBuffer.Laws
import XviOs.DeviceTree.Fdt
import XviOs.Allocator.Failure
import XviOs.Allocator.AddMemory
import XviOs.Library.Walk
import XviOs.Fat.ChainEnds
import XviOs.Integer.Multiply
import XviOs.Deflate.BitstreamRuns
import XviOs.Fat.Mount
import XviOs.Fat.LongNameOwner
import XviOs.Fat.ReadTo
import XviOs.Allocator.Reallocate
import XviOs.Fat.Directory
import XviOs.Fat.WriteIsolation
import XviOs.Fat.Volume
import XviOs.Unicode.Decode
import XviOs.RBTree.Stepping
import XviOs.RBTree.Queries
import XviOs.Mmu.CacheBits
import XviOs.Mmu.MapRange
import XviOs.GAlloc.PageBlock
import XviOs.Format.FromChars
import XviOs.StringImpl.BoundedCopy
import XviOs.VM86.StringIo
import XviOs.Algorithm.Heap
import XviOs.Algorithm.Sequence
import XviOs.Algorithm.Compare
import XviOs.Algorithm.SetOperations
import XviOs.Algorithm.Permutation
import XviOs.Algorithm.BinarySearch
import XviOs.Algorithm.Rotate
import XviOs.Logger.Decode
import XviOs.Library.Ring
import XviOs.Logger.CircularBuffer
import XviOs.Firmware.MPS
import XviOs.Format.FormatSpec
import XviOs.Format.FormatInteger
import XviOs.Format.FormatTo
import XviOs.Library.Lanes
import XviOs.Integer.BitOps
import XviOs.Concurrency.SpinlockService

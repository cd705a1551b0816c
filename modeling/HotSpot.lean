import HotSpot.Lib.BiasedDigits
import HotSpot.Lib.RingBuffer
import HotSpot.Lib.Runs
import HotSpot.Lib.LinkedSegment
import HotSpot.Lib.Tiling
import HotSpot.Lib.TripCount
import HotSpot.Lib.Worklist
import HotSpot.Lib.MagicDivision
import HotSpot.Lib.Extents
import HotSpot.Lib.Simulation
import HotSpot.Code.CompressedStream
import HotSpot.Code.CompressedRoundTrip
import HotSpot.Code.RelocInfo
import HotSpot.Code.RelocRoundTrip
import HotSpot.Memory.CodeHeap
import HotSpot.Memory.CodeHeapTiling
import HotSpot.Memory.CodeHeapAllocate
import HotSpot.Memory.CodeHeapRuns
import HotSpot.Memory.CodeHeapLookup
import HotSpot.Memory.BlockOffsetTable
import HotSpot.Memory.BlockOffsetContig
import HotSpot.Memory.BlockOffsetNonContig
import HotSpot.Classfile.Signature
import HotSpot.Classfile.SignatureGrammar
import HotSpot.Runtime.Signature
import HotSpot.Runtime.SignatureAgree
import HotSpot.Utilities.Utf8
import HotSpot.Classfile.LegalUtf8
import HotSpot.Classfile.VerificationType
import HotSpot.Classfile.Assignable
import HotSpot.Classfile.StackMapTable
import HotSpot.Classfile.StackMapDecode
import HotSpot.Interpreter.Bytecodes
import HotSpot.Classfile.CurrentFrame
import HotSpot.Classfile.Verifier
import HotSpot.Classfile.FrameMatch
import HotSpot.Classfile.ArgumentFrame
import HotSpot.Classfile.FieldLayout
import HotSpot.Classfile.FieldLayoutSound
import HotSpot.Lib.ParallelMoves
import HotSpot.C1.MoveResolver
import HotSpot.C1.MoveResolverSound
import HotSpot.Opto.Node
import HotSpot.Opto.MagicConstants
import HotSpot.Lib.SignedWord
import HotSpot.Utilities.GlobalDefinitions
import HotSpot.Utilities.BitMap
import HotSpot.Utilities.BitMapBits
import HotSpot.Utilities.BitMapSearch
import HotSpot.Utilities.BitMapSet
import HotSpot.Utilities.TaskQueue
import HotSpot.Utilities.TaskQueueRuns
import HotSpot.Utilities.Terminator
import HotSpot.Oops.KlassVtable
import HotSpot.Oops.VtableLinking
import HotSpot.Oops.VtableSize
import HotSpot.Oops.VtableDispatch
import HotSpot.ParallelScavenge.ParMarkBitMap
import HotSpot.ParallelScavenge.ParallelCompactData
import HotSpot.ParallelScavenge.Summarize
import HotSpot.ParallelScavenge.Compaction
import HotSpot.Opto.DivNode
import HotSpot.Lib.FoldedRemainder
import HotSpot.Opto.ModNode
import HotSpot.Opto.Value
import HotSpot.Opto.ValueSound
import HotSpot.Opto.TypeOrder
import HotSpot.Opto.RingMonotone
import HotSpot.Opto.ValueMonotone
import HotSpot.G1.SparsePRT
import HotSpot.G1.SparsePRTLayout
import HotSpot.G1.SparsePRTRefines
import HotSpot.Opto.CountedLoop
import HotSpot.Compiler.MethodLiveness
import HotSpot.Compiler.LivenessFlow
import HotSpot.Compiler.MethodBlocksSound
import HotSpot.Compiler.LivenessGraph
import HotSpot.Compiler.LivenessSound
import HotSpot.Oops.Hierarchy
import HotSpot.Oops.HierarchyImplementors
import HotSpot.Code.Dependencies
import HotSpot.Code.HierarchyWalk
import HotSpot.Code.SubtypeDependencies
import HotSpot.Code.SpotChecks
import HotSpot.Oops.SubtypeCheck
import HotSpot.Oops.SuperChain
import HotSpot.Oops.SubtypeCheckExact
import HotSpot.Runtime.Relocator
import HotSpot.Runtime.RelocatorQueue
import HotSpot.Runtime.RelocatedCode
import HotSpot.Runtime.RelocatorChanges
import HotSpot.Runtime.CodeChanges
import HotSpot.Prims.IndexMap
import HotSpot.Lib.Potential
import HotSpot.Opto.MinNode
import HotSpot.Opto.BoolNode
import HotSpot.Memory.CodeHeapExpand
import HotSpot.Lib.LinkedTree
import HotSpot.ConcurrentMarkSweep.BinaryTreeDictionary
import HotSpot.ConcurrentMarkSweep.DictionaryInvariant
import HotSpot.ConcurrentMarkSweep.RemoveChunk
import HotSpot.ConcurrentMarkSweep.DictionarySearch
import HotSpot.ConcurrentMarkSweep.DictionaryRuns
import HotSpot.ConcurrentMarkSweep.LargestChunk
import HotSpot.ConcurrentMarkSweep.InsertChunk
import HotSpot.Memory.BlockOffsetSplit
import HotSpot.Oops.ConstantPool
import HotSpot.Opto.Saturate
import HotSpot.Utilities.Utf8Allocation
import HotSpot.Utilities.BitMapResize
import HotSpot.ParallelScavenge.MarkIteration
import HotSpot.Lib.Separated
import HotSpot.Classfile.FieldNameScan
import HotSpot.Oops.TransitiveInterfaces
import HotSpot.Runtime.RelocatedTables
import HotSpot.Runtime.RelocatorTermination
import HotSpot.Runtime.RefusedChange
import HotSpot.Oops.AdjustMethodEntries
import HotSpot.Classfile.ArrayDimensions
import HotSpot.Classfile.InvokeInit
import HotSpot.Interpreter.RawBytecodeStream
import HotSpot.Compiler.HandlerBlocks
import HotSpot.Classfile.FrameArrays
import HotSpot.Classfile.FrameArraysSound
import HotSpot.Lib.HalfOpen
import HotSpot.C1.LiveInterval
import HotSpot.C1.LiveIntervalSound
import HotSpot.Code.RelocIndex
import HotSpot.Oops.KlassItable
import HotSpot.Oops.ItableDispatch
import HotSpot.G1.HeapRegionSeq
import HotSpot.G1.SparsePRTIteration
import HotSpot.Libadt.Dict
import HotSpot.Libadt.DictRefines
import HotSpot.Code.PcDescs
import HotSpot.Runtime.Fingerprinter
import HotSpot.Runtime.FingerprintRoundTrip
import HotSpot.Classfile.ChopFrames
import HotSpot.Libadt.DictAssign
import HotSpot.Memory.CardCleaning
import HotSpot.Memory.CardScanning
import HotSpot.Prims.MethodMatching
import HotSpot.Prims.MethodWalk
import HotSpot.Prims.MethodAnnotations
import HotSpot.Prims.MergeConstantPools
import HotSpot.Prims.MergeFloats
import HotSpot.Prims.MergeAlike
import HotSpot.Prims.MergeBooks
import HotSpot.Prims.MergeWide
import HotSpot.Prims.MergePlaces
import HotSpot.Prims.MergeAppend
import HotSpot.Prims.MergeBounds
import HotSpot.Prims.MergeConstants

import FlorestaDb.Lib.Program
import FlorestaDb.Hash
import FlorestaDb.Allocator
import FlorestaDb.AllocatorPages
import FlorestaDb.AllocatorScan
import FlorestaDb.AllocatorSequential
import FlorestaDb.AllocatorCalls
import FlorestaDb.Lib.Chain
import FlorestaDb.Node
import FlorestaDb.Table
import FlorestaDb.TableBatch
import FlorestaDb.Heap
import FlorestaDb.HeapSequential
import FlorestaDb.Chains
import FlorestaDb.TableSequential
import FlorestaDb.Lib.Buckets
import FlorestaDb.TableCalls
import FlorestaDb.Lib.Groups
import FlorestaDb.BatchInsert
import FlorestaDb.Create
import FlorestaDb.Creation
import FlorestaDb.NodeLife
import FlorestaDb.NodeChecksum
import FlorestaDb.Stacks
import FlorestaDb.BatchFetch
import FlorestaDb.HashBatch
import FlorestaDb.BatchRemove
import FlorestaDb.Compaction
import FlorestaDb.Sync
import FlorestaDb.Operations
import FlorestaDb.Ownership
import FlorestaDb.BatchAgreement
import FlorestaDb.Sessions
import FlorestaDb.Headroom
import FlorestaDb.Lifetimes
import FlorestaDb.Closing
import FlorestaDb.Continuing
import FlorestaDb.Hintsgen
import FlorestaDb.HintsgenSafety
import FlorestaDb.HintsgenAccounts
import FlorestaDb.HintsgenWindows
import FlorestaDb.Checkpoint
import FlorestaDb.Lib.NextFit
import FlorestaDb.Packing
import FlorestaDb.Copying
import FlorestaDb.Recovery
import FlorestaDb.Opening
import FlorestaDb.Lookup
import FlorestaDb.Lib.Interference
import FlorestaDb.AllocatorArithmetic
import FlorestaDb.AllocatorReuse
import FlorestaDb.Growth
import FlorestaDb.Lib.Cycles
import FlorestaDb.HeadsBytes
import FlorestaDb.HeadsFormat
import FlorestaDb.HintsgenRuns
import FlorestaDb.HintsgenEncode
import FlorestaDb.Lib.Merge
import FlorestaDb.Capture
import FlorestaDb.Lib.Runs
import FlorestaDb.ZeroRuns
import FlorestaDb.CountBytes
import FlorestaDb.Captured
import FlorestaDb.Saved
import FlorestaDb.Provenance
import FlorestaDb.HintsgenPipeline
import FlorestaDb.AllocatorThreads

import DiskAnalyzer.Lib.Run
import DiskAnalyzer.Lib.Decimal
import DiskAnalyzer.Lib.IdPool
import DiskAnalyzer.Lib.Stream
import DiskAnalyzer.Lib.Mutex
import DiskAnalyzer.Lib.Ownership
import DiskAnalyzer.Bytes
import DiskAnalyzer.Treap
import DiskAnalyzer.TreapProof
import DiskAnalyzer.Hash
import DiskAnalyzer.Keys
import DiskAnalyzer.HashProof
import DiskAnalyzer.Tree
import DiskAnalyzer.TreeProof
import DiskAnalyzer.Analysis
import DiskAnalyzer.Threads
import DiskAnalyzer.ThreadsProof
import DiskAnalyzer.RestartProof
import DiskAnalyzer.Task
import DiskAnalyzer.TaskProof
import DiskAnalyzer.Locks
import DiskAnalyzer.Concurrent
import DiskAnalyzer.ConcurrentProof
import DiskAnalyzer.Completed
import DiskAnalyzer.Delivery
import DiskAnalyzer.Fts
import DiskAnalyzer.Progress
import DiskAnalyzer.Report
import DiskAnalyzer.Forks
import DiskAnalyzer.ProgressProof
import DiskAnalyzer.Walk
import DiskAnalyzer.Announce
import DiskAnalyzer.Traversal
import DiskAnalyzer.Counting
import DiskAnalyzer.Resume
import DiskAnalyzer.Grown
import DiskAnalyzer.Lib.Index
import DiskAnalyzer.Indexed
import DiskAnalyzer.Service
import DiskAnalyzer.Partition
import DiskAnalyzer.ServiceProof
import DiskAnalyzer.Elapsed
import DiskAnalyzer.Signals
import DiskAnalyzer.Attached
import DiskAnalyzer.Released
import DiskAnalyzer.Lib.Tally
import DiskAnalyzer.Listed
import DiskAnalyzer.Lib.Registry
import DiskAnalyzer.Covered
import DiskAnalyzer.Files
import DiskAnalyzer.Shutdown
import DiskAnalyzer.ShutdownProof
import DiskAnalyzer.Replies
import DiskAnalyzer.RepliesProof
import DiskAnalyzer.Children
import DiskAnalyzer.Requests
import DiskAnalyzer.RequestsProof
import DiskAnalyzer.Drain
import DiskAnalyzer.Failing
import DiskAnalyzer.FileNames
import DiskAnalyzer.Truncated
import DiskAnalyzer.Dots
import DiskAnalyzer.Exact
import DiskAnalyzer.Reads
import DiskAnalyzer.Reported
import DiskAnalyzer.Halted
import DiskAnalyzer.Saved
import DiskAnalyzer.Lines
import DiskAnalyzer.Leftover
import DiskAnalyzer.Framed
import DiskAnalyzer.Freed
import DiskAnalyzer.Counts
import DiskAnalyzer.HeapOrder
import DiskAnalyzer.Branches
import DiskAnalyzer.Exhausted
import DiskAnalyzer.Faithful
import DiskAnalyzer.Applied
import DiskAnalyzer.Handover
import DiskAnalyzer.Lib.Assertion
import DiskAnalyzer.Lib.Memory
import DiskAnalyzer.Lib.Triple
import DiskAnalyzer.Memory.Treap
import DiskAnalyzer.Memory.TreapProof
import DiskAnalyzer.Memory.Removal
import DiskAnalyzer.Memory.Tree
import DiskAnalyzer.Memory.HashProof
import DiskAnalyzer.Memory.TreeProof
import DiskAnalyzer.Memory.Threads
import DiskAnalyzer.Memory.Nodes
import DiskAnalyzer.Contents
import DiskAnalyzer.Memory.FreeIds
import DiskAnalyzer.Memory.ThreadsProof
import DiskAnalyzer.Memory.ServiceProof
import DiskAnalyzer.Memory.Requests
import DiskAnalyzer.Memory.Runs
import DiskAnalyzer.Memory.Startup
import DiskAnalyzer.Memory.StartupProof
import DiskAnalyzer.Memory.Lives

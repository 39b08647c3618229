import TrieBenchmark.Bucketlock.EntryAlive
import TrieBenchmark.Txn.Flags
import TrieBenchmark.Txn.LookupMark
import TrieBenchmark.Txn.LookupGen
import TrieBenchmark.Engines
import TrieBenchmark.Census
import TrieBenchmark.Bucketlock.StackRecords
import TrieBenchmark.Txn.Reclaim
import TrieBenchmark.Txn.Flip
import TrieBenchmark.Lane
import TrieBenchmark.Txn.LookupNode
import TrieBenchmark.Seqlock.ShrinkRun
import TrieBenchmark.Seqlock.Locked
import TrieBenchmark.Lru.Engines
import TrieBenchmark.Lru.DequeCount
import TrieBenchmark.Bucketlock.Scan
import TrieBenchmark.Bench.Pace
import TrieBenchmark.Bench.ThreeSkiplist
import TrieBenchmark.Bucketlock.Linger
import TrieBenchmark.Path
import TrieBenchmark.Bench.SkiplistDetect
import TrieBenchmark.Bench.Slab
import TrieBenchmark.Bench.Domain
import TrieBenchmark.Bench.RandomPos
import TrieBenchmark.Seqlock.Progress

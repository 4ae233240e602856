import IndexSet.SingleThreaded.Comparison
import IndexSet.Lib.Partition
import IndexSet.Lib.Transition
import IndexSet.Core.Search
import IndexSet.Concurrent.Sequential
import IndexSet.Concurrent.Checked
import IndexSet.Concurrent.SplitContents
import IndexSet.Concurrent.NoLoss
import IndexSet.Concurrent.Quiescence
import IndexSet.Concurrent.Reads
import IndexSet.Concurrent.Agreement
import IndexSet.Concurrent.Drawing
import IndexSet.Concurrent.Replay
import IndexSet.Concurrent.Footprints
import IndexSet.Concurrent.Borrowed
import IndexSet.Concurrent.MultiMap
import IndexSet.Concurrent.MultiMapReplay
import IndexSet.Concurrent.Silent
import IndexSet.Concurrent.Interchange
import IndexSet.Concurrent.Recovery
import IndexSet.Concurrent.ReplayRuns
import IndexSet.Concurrent.Linearizable
import IndexSet.Concurrent.Accounting
import IndexSet.Concurrent.Progress
import IndexSet.Concurrent.Deadlock
import IndexSet.Concurrent.Waiting
import IndexSet.Concurrent.Visits
import IndexSet.Concurrent.Cuts
import IndexSet.Concurrent.Removed
import IndexSet.Concurrent.RangeIter
import IndexSet.Concurrent.MultiPairOrder
import IndexSet.Concurrent.RankCount
import IndexSet.Concurrent.Inverted
import IndexSet.SingleThreaded.IterMut
import IndexSet.SingleThreaded.Range
import IndexSet.SingleThreaded.RangeMut
import IndexSet.SingleThreaded.Positions
import IndexSet.SingleThreaded.Capacity
import IndexSet.SingleThreaded.NodeSize
import IndexSet.SingleThreaded.Filtering
import IndexSet.SingleThreaded.SetOperations
import IndexSet.SingleThreaded.SetRange
import IndexSet.SingleThreaded.IndexRange
import IndexSet.SingleThreaded.Cursor
import IndexSet.SingleThreaded.Entries
import IndexSet.SingleThreaded.Collect
import IndexSet.SingleThreaded.Rebuilds

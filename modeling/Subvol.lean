import Subvol.Btree.Alloc
import Subvol.Btree.AuxTree
import Subvol.Btree.AuxTreeRun
import Subvol.Btree.Blacklist
import Subvol.Btree.BsetFloat
import Subvol.Btree.BsetSearch
import Subvol.Btree.BsetSearchRun
import Subvol.Btree.BsetTable
import Subvol.Btree.Cache
import Subvol.Btree.CacheLinks
import Subvol.Btree.CacheRun
import Subvol.Btree.Format
import Subvol.Btree.Io
import Subvol.Btree.Key
import Subvol.Btree.LeafMap
import Subvol.Btree.ListHead
import Subvol.Btree.MergeSize
import Subvol.Btree.Node
import Subvol.Btree.NodeInsert
import Subvol.Btree.NodeIter
import Subvol.Btree.NodeIterBack
import Subvol.Btree.NodeIterFix
import Subvol.Btree.NodeIterInit
import Subvol.Btree.NodeIterInv
import Subvol.Btree.NodeIterMove
import Subvol.Btree.NodeIterRun
import Subvol.Btree.NodeRead
import Subvol.Btree.NodeRun
import Subvol.Btree.NodeShape
import Subvol.Btree.NodeWrite
import Subvol.Btree.Pack
import Subvol.Btree.PackCmp
import Subvol.Btree.PackPos
import Subvol.Btree.Parent
import Subvol.Btree.ParentRun
import Subvol.Btree.RwAux
import Subvol.Btree.RwAuxInv
import Subvol.Btree.RwAuxRun
import Subvol.Btree.Sectors
import Subvol.Btree.Sets
import Subvol.Btree.SortIter
import Subvol.Btree.SortRepack
import Subvol.Btree.Topology
import Subvol.Btree.Transform
import Subvol.Btree.Whiteouts
import Subvol.Bucket.Commit
import Subvol.Bucket.Discard
import Subvol.Bucket.Engine
import Subvol.Bucket.Index
import Subvol.Bucket.Race
import Subvol.Bucket.Repair
import Subvol.Bucket.RepairRun
import Subvol.Bucket.Reuse
import Subvol.Checksum
import Subvol.ChecksumBytes
import Subvol.Extent.Derived
import Subvol.Extent.Overwrite
import Subvol.Extent.Reach
import Subvol.Extent.Rebuild
import Subvol.Extent.Recheck
import Subvol.Extent.Trigger
import Subvol.Extent.Update
import Subvol.Interior.Balance
import Subvol.Interior.MergeLocks
import Subvol.Interior.PathOps
import Subvol.Interior.Paths
import Subvol.Interior.SplitLocks
import Subvol.Interior.Track
import Subvol.Interior.Update
import Subvol.Interior.Upgrade
import Subvol.Iter.Backward
import Subvol.Iter.ExtentScan
import Subvol.Iter.Extents
import Subvol.Iter.Filter
import Subvol.Iter.Forward
import Subvol.Iter.Peek
import Subvol.Iter.Pos
import Subvol.Iter.Prev
import Subvol.Iter.Scan
import Subvol.Iter.Tree
import Subvol.Iter.Visible
import Subvol.Iter.Walk
import Subvol.Journal.Boundary
import Subvol.Journal.Durable
import Subvol.Journal.Flush
import Subvol.Journal.Keys
import Subvol.Journal.Layout
import Subvol.Journal.Overlay
import Subvol.Journal.PinCounts
import Subvol.Journal.Pins
import Subvol.Journal.Read
import Subvol.Journal.ReclaimWorker
import Subvol.Journal.Recover
import Subvol.Journal.ResWord
import Subvol.Journal.Reserve
import Subvol.Journal.Roots
import Subvol.Journal.RoundTrip
import Subvol.Journal.Run
import Subvol.Journal.Space
import Subvol.Journal.System
import Subvol.Journal.Types
import Subvol.Journal.Validate
import Subvol.Lib.ArrayTree
import Subvol.Lib.BitField
import Subvol.Lib.Chains
import Subvol.Lib.Crc
import Subvol.Lib.Forest
import Subvol.Lib.HeapSort
import Subvol.Lib.Image
import Subvol.Lib.Laid
import Subvol.Lib.Ledger
import Subvol.Lib.Linked
import Subvol.Lib.Lists
import Subvol.Lib.LittleEndian
import Subvol.Lib.Loop
import Subvol.Lib.Merge
import Subvol.Lib.Numbered
import Subvol.Lib.Numerals
import Subvol.Lib.OrdMap
import Subvol.Lib.Preorder
import Subvol.Lib.Queued
import Subvol.Lib.Ring
import Subvol.Lib.Runs
import Subvol.Lib.SearchTree
import Subvol.Lib.Shelves
import Subvol.Lib.SortedTable
import Subvol.Lib.Tiling
import Subvol.Lib.WordString
import Subvol.Lib.Words
import Subvol.Lib.WriteBack
import Subvol.Lib.Yields
import Subvol.Lock.Six
import Subvol.Lock.SixHold
import Subvol.Lock.SixInv
import Subvol.Lock.SixParts
import Subvol.Lock.SixRelock
import Subvol.Lock.SixWake
import Subvol.Sb.Field
import Subvol.Sb.FieldRun
import Subvol.Sb.Read
import Subvol.Sb.ReadRun
import Subvol.Sb.ReadSum
import Subvol.Sb.Validate
import Subvol.Snapshot.Ancestor
import Subvol.Snapshot.Overwrites
import Subvol.Snapshot.Table
import Subvol.Snapshot.Walk
import Subvol.Trans.Path
import Subvol.Trans.Staging
import Subvol.Trans.Update
import Subvol.Util.Eytzinger
import Subvol.Util.Jhash
import Subvol.Util.Rhashtable
import Subvol.Util.Workqueue
import Subvol.Util.WorkqueueCancel
import Subvol.Util.WorkqueueRun
import Subvol.Value.Append
import Subvol.Value.Crc
import Subvol.Value.Cut
import Subvol.Value.CutKey
import Subvol.Value.Decode
import Subvol.Value.DropPtr
import Subvol.Value.Entry

import Ambar.Lib.Search
import Ambar.Lib.Trace
import Ambar.Lib.Newest
import Ambar.Lib.OrderedSet
import Ambar.Lib.Chains
import Ambar.Lib.Cursor
import Ambar.Format.InternalKey
import Ambar.Format.Encoding
import Ambar.Format.WriteBatch
import Ambar.Version.Files
import Ambar.Version.Edit
import Ambar.Version.Builder
import Ambar.Version.Invariant
import Ambar.Version.Manifest
import Ambar.Compaction.Inputs
import Ambar.Compaction.Work
import Ambar.Compaction.Install
import Ambar.Compaction.Views
import Ambar.Read.Sources
import Ambar.Read.Snapshots
import Ambar.Read.Get
import Ambar.Read.DbIter
import Ambar.Engine.State
import Ambar.Engine.Step
import Ambar.Engine.Records
import Ambar.Engine.Logs
import Ambar.Engine.Cases
import Ambar.Engine.Books
import Ambar.Engine.Recovery
import Ambar.Engine.Numbers
import Ambar.Format.Checksum
import Ambar.Log.Writer
import Ambar.Log.Reader
import Ambar.Log.Delivery
import Ambar.Log.Tail
import Ambar.Log.Damage
import Ambar.Lib.Copies
import Ambar.Table.Compress
import Ambar.Lib.Parts
import Ambar.Lib.BitArray
import Ambar.Table.Filter
import Ambar.Lib.Follows
import Ambar.Table.Comparator
import Ambar.Table.BlockBuilder
import Ambar.Table.Block
import Ambar.Table.Format
import Ambar.Table.TwoLevel
import Ambar.Table.Separators
import Ambar.Table.Builder
import Ambar.Table.Reader
import Ambar.Table.Lookup
import Ambar.Table.Decode
import Ambar.Table.Encode
import Ambar.Format.FileName
import Ambar.Engine.Directory
import Ambar.Engine.Property
import Ambar.Engine.Triggers
import Ambar.Engine.Replay
import Ambar.Engine.TableFiles
import Ambar.Lib.Merge
import Ambar.Read.Merging
import Ambar.Read.DbCursor
import Ambar.Read.NewIterator
import Ambar.Concurrency.VersionRefs
import Ambar.Concurrency.Writers
import Ambar.Concurrency.GroupCommit
import Ambar.Concurrency.GroupSequences
import Ambar.Concurrency.Background
import Ambar.Concurrency.ManualRequests
import Ambar.Concurrency.Scheduling
import Ambar.Version.Overlap
import Ambar.Compaction.Selection
import Ambar.Lib.Walk
import Ambar.Compaction.Boundary
import Ambar.Compaction.Grandparents
import Ambar.Lib.Reader
import Ambar.Format.Readers
import Ambar.Version.EditBytes
import Ambar.Format.BatchBytes
import Ambar.Read.VersionGet
import Ambar.Table.BlockCursor
import Ambar.Table.BlockFind
import Ambar.Table.Checksums
import Ambar.Lib.Association
import Ambar.Cache.TableCache
import Ambar.Cache.HashTable
import Ambar.Cache.LRUShard
import Ambar.Lib.Recurrence
import Ambar.Repair.Merge
import Ambar.Repair.Rounds
import Ambar.Lib.Program
import Ambar.Storage.FileSystem
import Ambar.Storage.Open
import Ambar.Memory.SkipList
import Ambar.Memory.SkipIterator
import Ambar.Memory.MemTable
import Ambar.Storage.Current

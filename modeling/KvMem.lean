import KvMem.Foundation.FileProgram
import KvMem.Foundation.RecordLog
import KvMem.Storage.WriteBatch
import KvMem.Storage.Wal
import KvMem.Foundation.Text
import KvMem.Storage.Format
import KvMem.Foundation.Versions
import KvMem.Storage.Manifest
import KvMem.Storage.MemTable
import KvMem.Storage.BloomFilter
import KvMem.Storage.SSTable
import KvMem.Storage.InternalIterator
import KvMem.Storage.MergingIterator
import KvMem.Storage.Compaction
import KvMem.Engine.Directory
import KvMem.Storage.BlockCache
import KvMem.Engine.Database
import KvMem.Engine.System
import KvMem.Engine.Ambient
import KvMem.Engine.Sections
import KvMem.Engine.Threads
import KvMem.Engine.LogReader
import KvMem.Storage.Damage
import KvMem.Storage.WalDamage
import KvMem.Engine.EditLog
import KvMem.Foundation.BeamSearch
import KvMem.Vector.Graph
import KvMem.Vector.GraphInvariant
import KvMem.Foundation.Parsing
import KvMem.Vector.Index
import KvMem.Vector.IndexFile
import KvMem.Vector.IndexInvariant
import KvMem.Vector.LoadInvariant
import KvMem.Vector.Runs
import KvMem.Vector.Search
import KvMem.Storage.BlockFormat
import KvMem.Storage.TableReader
import KvMem.Storage.TableDamage
import KvMem.Engine.History
import KvMem.Engine.Contents
import KvMem.Engine.Jobs
import KvMem.Engine.Stored
import KvMem.Engine.Saving
import KvMem.Storage.ScanDamage
import KvMem.Engine.Rejection
import KvMem.Foundation.SkipLists
import KvMem.Storage.SkipList
import KvMem.Foundation.CheckedAccess
import KvMem.Storage.CheckedReader
import KvMem.Vector.CheckedLoad
import KvMem.Vector.Save
import KvMem.Vector.RoundTrip
import KvMem.Storage.FieldWidths
import KvMem.Foundation.Recency
import KvMem.Storage.CacheOrder
import KvMem.Foundation.Stamps
import KvMem.Vector.VisitMarks
import KvMem.Foundation.TopK
import KvMem.Vector.BruteForce
import KvMem.Foundation.MapUnion
import KvMem.Vector.Merge
import KvMem.Engine.Effects
import KvMem.Engine.Running
import KvMem.Engine.Period
import KvMem.Engine.Schedule
import KvMem.Engine.SectionFiles
import KvMem.Engine.Serving
import KvMem.Engine.Calls
import KvMem.Engine.Guarantees
import KvMem.Engine.Publication
import KvMem.Engine.LongValues

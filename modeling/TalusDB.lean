import TalusDB.Util.Coding
import TalusDB.Util.Crc32c
import TalusDB.Util.Varint
import TalusDB.Util.Slice
import TalusDB.Util.Env
import TalusDB.Lib.Search
import TalusDB.Lib.Intervals
import TalusDB.Lib.Multiversion
import TalusDB.Lib.Runs
import TalusDB.Lib.Durable
import TalusDB.Lib.RefCount
import TalusDB.Lib.Cursor
import TalusDB.Lib.Chain
import TalusDB.Lib.Circular
import TalusDB.Lib.Residues
import TalusDB.Util.Random
import TalusDB.Util.HandleTable
import TalusDB.Util.HandleMap
import TalusDB.Util.Cache
import TalusDB.Util.ShardedCache
import TalusDB.Log.Format
import TalusDB.Log.Writer
import TalusDB.Log.Reader
import TalusDB.Log.Layout
import TalusDB.Log.Append
import TalusDB.Log.ReadBack
import TalusDB.Log.Records
import TalusDB.Log.RoundTrip
import TalusDB.Log.Faults
import TalusDB.Log.Resync
import TalusDB.Log.Cut
import TalusDB.Log.Reuse
import TalusDB.Log.Damage
import TalusDB.Log.Physical
import TalusDB.Log.Skip
import TalusDB.Log.Offset
import TalusDB.DB.Format
import TalusDB.DB.Version
import TalusDB.DB.Overlap
import TalusDB.DB.VersionEdit
import TalusDB.DB.SaveTo
import TalusDB.DB.Compaction
import TalusDB.DB.Boundary
import TalusDB.DB.Inputs
import TalusDB.DB.NoGap
import TalusDB.DB.Recency
import TalusDB.DB.CompactionWork
import TalusDB.DB.Snapshots
import TalusDB.DB.MergedInput
import TalusDB.DB.Kept
import TalusDB.DB.Outputs
import TalusDB.DB.Grandparents
import TalusDB.DB.Install
import TalusDB.DB.CompactionReads
import TalusDB.DB.ManualCompaction
import TalusDB.DB.Selection
import TalusDB.DB.MemTable
import TalusDB.DB.State
import TalusDB.DB.Ordered
import TalusDB.DB.Flush
import TalusDB.DB.Background
import TalusDB.DB.DisjointRuns
import TalusDB.DB.Partition
import TalusDB.DB.Get
import TalusDB.DB.History
import TalusDB.DB.Seeks
import TalusDB.DB.WriteQueue
import TalusDB.DB.FlushRequest
import TalusDB.DB.GroupCommit
import TalusDB.DB.Recovery
import TalusDB.DB.RecencyRuns
import TalusDB.DB.Accumulate
import TalusDB.DB.Manifest
import TalusDB.DB.Repair
import TalusDB.DB.FileName
import TalusDB.DB.PowerLoss
import TalusDB.DB.Impl
import TalusDB.DB.Descriptor
import TalusDB.DB.Covered
import TalusDB.DB.Keeps
import TalusDB.DB.Pins
import TalusDB.DB.Foreground
import TalusDB.DB.Producing
import TalusDB.DB.Journal
import TalusDB.DB.Phases
import TalusDB.DB.Applying
import TalusDB.DB.Working
import TalusDB.DB.Opening
import TalusDB.DB.Obsolete
import TalusDB.DB.FileNumbers
import TalusDB.DB.Faults
import TalusDB.DB.FailedCompaction
import TalusDB.DB.SkipList
import TalusDB.DB.KeyBytes
import TalusDB.DB.Comparator
import TalusDB.DB.DBIter
import TalusDB.DB.ByteMemTable
import TalusDB.DB.WriteBatch
import TalusDB.DB.Replay
import TalusDB.DB.EditCodec
import TalusDB.Table.Merger
import TalusDB.Table.TwoLevel
import TalusDB.DB.LevelIterator
import TalusDB.Table.TableBuilder
import TalusDB.Table.Block
import TalusDB.Table.BlockSafety
import TalusDB.Table.BlockBuilder
import TalusDB.Table.BlockCursor
import TalusDB.Table.Format
import TalusDB.Table.FilterBlock
import TalusDB.Table.Bloom

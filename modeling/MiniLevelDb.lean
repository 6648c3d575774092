import MiniLevelDb.Foundation.ThreeWay
import MiniLevelDb.Util.Slice
import MiniLevelDb.Util.Comparator
import MiniLevelDb.Foundation.XorLinear
import MiniLevelDb.Util.Coding
import MiniLevelDb.Util.Crc32c
import MiniLevelDb.Db.LogFormat
import MiniLevelDb.Util.Env
import MiniLevelDb.Db.LogReader
import MiniLevelDb.Db.LogScan
import MiniLevelDb.Db.LogWriter
import MiniLevelDb.Db.LogAssemble
import MiniLevelDb.Db.LogLayout
import MiniLevelDb.Db.LogRecords
import MiniLevelDb.Db.LogRecovery
import MiniLevelDb.Db.LogInitialOffset
import MiniLevelDb.Db.LogSound
import MiniLevelDb.Db.LogDamage
import MiniLevelDb.Db.LogFaults
import MiniLevelDb.Db.SkipList
import MiniLevelDb.Foundation.Chain
import MiniLevelDb.Db.SkipListLayers
import MiniLevelDb.Db.DbFormat
import MiniLevelDb.Db.MemTable
import MiniLevelDb.Db.MemTableVersions
import MiniLevelDb.Foundation.Ring
import MiniLevelDb.Util.HandleTable
import MiniLevelDb.Util.HandleTableMap
import MiniLevelDb.Util.Cache
import MiniLevelDb.Util.CacheLists
import MiniLevelDb.Util.CacheInvariant
import MiniLevelDb.Util.CacheSteps
import MiniLevelDb.Util.CacheRuns
import MiniLevelDb.Util.ShardedCache
import MiniLevelDb.Util.LruSpec
import MiniLevelDb.Util.ShardedRefines
import MiniLevelDb.Util.LockFile
import MiniLevelDb.Util.Crc32cCalls
import MiniLevelDb.Util.CodingStream
import MiniLevelDb.Db.InternalKey
import MiniLevelDb.Db.SkipListIterator
import MiniLevelDb.Db.MemTableIterator
import MiniLevelDb.Db.SkipListThreads
import MiniLevelDb.Db.SkipListReaders
import MiniLevelDb.Foundation.Mutex
import MiniLevelDb.Util.BackgroundWork
import MiniLevelDb.Util.PosixWritableFile
import MiniLevelDb.Foundation.BitArray
import MiniLevelDb.Util.Hash
import MiniLevelDb.Util.Bloom
import MiniLevelDb.Foundation.Carving
import MiniLevelDb.Util.Arena
import MiniLevelDb.Db.LogOutput
import MiniLevelDb.Util.Crc32cBurst
import MiniLevelDb.Db.LogBurst
import MiniLevelDb.Db.LogPreallocated
import MiniLevelDb.Db.LogUnknownType
import MiniLevelDb.Db.LogProgress
import MiniLevelDb.Db.LogReadErrors
import MiniLevelDb.Util.HandleTableRuns
import MiniLevelDb.Util.CacheCapacity
import MiniLevelDb.Db.InternalKeyOrder
import MiniLevelDb.Db.KeyEncodings
import MiniLevelDb.Foundation.Leb128
import MiniLevelDb.Util.VarintDecode
import MiniLevelDb.Util.Logging
import MiniLevelDb.Foundation.Permits
import MiniLevelDb.Util.RandomAccessFiles
import MiniLevelDb.Foundation.Lehmer
import MiniLevelDb.Util.Random
import MiniLevelDb.Db.SkipListSearches
import MiniLevelDb.Util.RandomAccessRead
import MiniLevelDb.Util.PosixLogger
import MiniLevelDb.Db.LogDestinations
import MiniLevelDb.Db.LogDurable
import MiniLevelDb.Db.MemTableReaders
import MiniLevelDb.Foundation.Memory
import MiniLevelDb.Db.StoredTable
import MiniLevelDb.Db.StoredTableMemory
import MiniLevelDb.Db.StoredTableRefines
import MiniLevelDb.Util.PosixSequentialFile
import MiniLevelDb.Util.EnvFiles
import MiniLevelDb.Foundation.Monitor
import MiniLevelDb.Util.CacheThreads
import MiniLevelDb.Foundation.Owners
import MiniLevelDb.Util.StatusMemory
import MiniLevelDb.Db.InternalFilter
import MiniLevelDb.Db.MemTableScans
import MiniLevelDb.Util.RandomUniform
import MiniLevelDb.Db.SkipListHeights
import MiniLevelDb.Table.Iterator
import MiniLevelDb.Db.LogSources
import MiniLevelDb.Db.LogReadBack
import MiniLevelDb.Foundation.Escapes
import MiniLevelDb.Util.EscapeString
import MiniLevelDb.Db.DebugString
import MiniLevelDb.Util.HashGroups
import MiniLevelDb.Util.CacheDeleters
import MiniLevelDb.Db.LogChecks

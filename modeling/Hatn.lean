import Hatn.Db.TemporalToStringBuf
import Hatn.Dataunit.Slices
import Hatn.Dataunit.Progress
import Hatn.Dataunit.Serialize
import Hatn.Dataunit.Encoding
import Hatn.Dataunit.Forms
import Hatn.Dataunit.Reading
import Hatn.Dataunit.RoundTrip
import Hatn.Dataunit.Results
import Hatn.Dataunit.Transfer
import Hatn.Dataunit.Compatibility
import Hatn.Db.ModelTopics
import Hatn.Dataunit.Generate
import Hatn.Dataunit.PlainValues
import Hatn.Dataunit.Compare
import Hatn.Dataunit.Objects
import Hatn.Utility.AccessChecker
import Hatn.Utility.AccessDecision
import Hatn.Dataunit.Reuse
import Hatn.Db.Relations
import Hatn.Db.ModelObjects
import Hatn.Search.Visits
import Hatn.Order.Prefix
import Hatn.Db.Query
import Hatn.Db.IndexKeySearch
import Hatn.Db.SearchRanges
import Hatn.Db.SearchAnswers
import Hatn.Db.QueryAnswers
import Hatn.Search.OrderedSet
import Hatn.Db.IndexKeys
import Hatn.Db.Count
import Hatn.Db.QueryMatches
import Hatn.Db.UpdateMany
import Hatn.Db.SearchOrder
import Hatn.Db.IndexKeyOrder
import Hatn.Db.Paging
import Hatn.Cache.Recency
import Hatn.Common.Lru
import Hatn.Common.LruTtl
import Hatn.Common.PreallocatedBucket
import Hatn.Common.ByteArray
import Hatn.Common.ByteArrayContents
import Hatn.Dataunit.JsonObjects
import Hatn.Dataunit.JsonHandlers
import Hatn.Dataunit.JsonReading
import Hatn.Dataunit.JsonUnknown
import Hatn.Dataunit.JsonLeftovers
import Hatn.Common.Base64
import Hatn.Common.DateTimeText
import Hatn.Dataunit.JsonTypes
import Hatn.Dataunit.JsonWriting
import Hatn.Dataunit.JsonRoundTrip
import Hatn.Api.Response
import Hatn.Utility.AclController
import Hatn.Order.StrictWeak
import Hatn.Common.FlatContainer
import Hatn.Common.FlatMap
import Hatn.Order.Follows
import Hatn.Common.MpscQueue
import Hatn.Common.MpscLinked
import Hatn.Common.MpscDelivery
import Hatn.Api.Server
import Hatn.Order.Runs
import Hatn.Api.ConnectionPool
import Hatn.Api.ServerFraming
import Hatn.Api.ServerLifeCycle
import Hatn.Api.ConnectionPoolRuns
import Hatn.Dataunit.Subunits
import Hatn.Api.ClientRequest
import Hatn.Api.RequestAssembly
import Hatn.Order.Histories
import Hatn.Serverapp.SessionToken
import Hatn.Serverapp.SessionCheck
import Hatn.Serverapp.SessionSoundness
import Hatn.Api.ClientQueues
import Hatn.Api.ClientCompletion
import Hatn.Common.SharedLocker
import Hatn.Common.MempoolPointers
import Hatn.Common.MempoolPointersKept
import Hatn.Common.ThreadWithQueue
import Hatn.Network.Socks5Client
import Hatn.Crypt.CipherWorker
import Hatn.Crypt.EncryptMac
import Hatn.Crypt.EncryptMacPaths
import Hatn.Crypt.EncryptMacTags
import Hatn.Crypt.EncryptMacAgreement
import Hatn.Db.TimePoints
import Hatn.Common.DateRanges
import Hatn.Db.QueryPartitions
import Hatn.Clientserver.ObjectsCache
import Hatn.Base.ConfigPlaces
import Hatn.Base.ConfigTreeLoader
import Hatn.Order.Folds
import Hatn.Base.ConfigRuns
import Hatn.Base.ConfigIncludes
import Hatn.Base.ConfigValues
import Hatn.Dataunit.ObjectIdText
import Hatn.Dataunit.VarInts
import Hatn.Db.IndexValues
import Hatn.Db.TtlMarks
import Hatn.Db.NinVector
import Hatn.Db.IntervalVectors
import Hatn.Dataunit.MapFields
import Hatn.Dataunit.PackedLists
import Hatn.Dataunit.PackedSize
import Hatn.Wire.Windows
import Hatn.Dataunit.Windows
import Hatn.Api.SessionRefresh
import Hatn.Base.ConfigTreeValue
import Hatn.Clientapp.LockingController
import Hatn.Clientserver.CacheCompletion
import Hatn.Common.FixedByteArray
import Hatn.Db.PrefixQueries
import Hatn.Network.Socks5Udp
import Hatn.Base.ConfigTreePaths
import Hatn.Tables.Loops
import Hatn.Base.ConfigTreeMerge
import Hatn.Base.ConfigTreeJson
import Hatn.Base.ConfigTreeJsonRuns
import Hatn.Base.ConfigTreeRoundTrip
import Hatn.Crypt.Digest
import Hatn.Crypt.EncryptMacKeys
import Hatn.Crypt.PasswordGenerator
import Hatn.Common.SpanBuffer
import Hatn.Common.StreamGather
import Hatn.Common.StreamBridge
import Hatn.Crypt.AeadPack
import Hatn.Crypt.SymmetricPack
import Hatn.Base.ConfigTreeJsonSafety
import Hatn.Dataunit.JsonIntegers
import Hatn.Common.Calendar
import Hatn.Common.DateRangeDays
import Hatn.Common.DateTimeEpoch
import Hatn.Common.DateTimePacker
import Hatn.Common.TextFormats
import Hatn.Crypt.ChunkAddress
import Hatn.Crypt.StreamFile
import Hatn.Crypt.StreamFileReopened
import Hatn.Common.MemBlockSizes
import Hatn.Common.MemoryLocker
import Hatn.Common.MultiBucketPool
import Hatn.Dataunit.ScalarCompare
import Hatn.Dataunit.VarIntRange
import Hatn.Db.FieldPaths
import Hatn.Db.IndexKeySets
import Hatn.Db.UpdateEffects

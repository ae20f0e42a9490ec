import Vcdb.Lib.SortedMap
import Vcdb.Lib.PrefixScan
import Vcdb.Lib.Program
import Vcdb.Lib.Monitor
import Vcdb.Lib.Conversion
import Vcdb.Lib.Decimal
import Vcdb.Lib.Window
import Vcdb.Lib.Grammar
import Vcdb.Lib.Crc
import Vcdb.Codec.Encode
import Vcdb.Codec.Crc64
import Vcdb.Codec.Decode
import Vcdb.Codec.Integer
import Vcdb.Codec.Number
import Vcdb.Codec.RecordKey
import Vcdb.Codec.RoundTrip
import Vcdb.Codec.RdbDecoder
import Vcdb.Codec.RdbGrammar
import Vcdb.Codec.RdbEncoder
import Vcdb.Codec.RdbRoundTrip
import Vcdb.Lib.Lz
import Vcdb.Codec.Lzf
import Vcdb.Codec.LzfRoundTrip
import Vcdb.Storage.Engine
import Vcdb.Storage.Iterator
import Vcdb.Storage.Expiration
import Vcdb.Storage.Contents
import Vcdb.Storage.Background
import Vcdb.Storage.Metadata
import Vcdb.Storage.Hash
import Vcdb.Storage.Set
import Vcdb.Storage.List
import Vcdb.Storage.Kv
import Vcdb.Storage.Zset
import Vcdb.Storage.Restore
import Vcdb.Storage.ZsetRange
import Vcdb.Storage.Dump
import Vcdb.Keyspace.Representation
import Vcdb.Keyspace.Deletion
import Vcdb.Keyspace.Collection
import Vcdb.Keyspace.Run
import Vcdb.Proc.Reply
import Vcdb.Proc.Hash
import Vcdb.Proc.Set
import Vcdb.Proc.List
import Vcdb.Proc.Kv
import Vcdb.Proc.Restore
import Vcdb.Keyspace.Hash
import Vcdb.Keyspace.Kv
import Vcdb.Keyspace.Increment
import Vcdb.Keyspace.FloatIncrement
import Vcdb.Keyspace.BitArray
import Vcdb.Keyspace.Substring
import Vcdb.Keyspace.ExpireAgree
import Vcdb.Keyspace.HashRun
import Vcdb.Keyspace.Set
import Vcdb.Keyspace.SetRun
import Vcdb.Keyspace.List
import Vcdb.Keyspace.ListCommand
import Vcdb.Keyspace.ListRun
import Vcdb.Keyspace.RestoreLoad
import Vcdb.Keyspace.RestoreWrite
import Vcdb.Keyspace.ExpireTime
import Vcdb.Keyspace.RestoreExpire
import Vcdb.Keyspace.RestoreAtomic
import Vcdb.Keyspace.Ledger
import Vcdb.Keyspace.ValueWrite
import Vcdb.Keyspace.ValueCommand
import Vcdb.Keyspace.Mset
import Vcdb.Keyspace.RestoreSafety
import Vcdb.Keyspace.RestoreList
import Vcdb.Keyspace.RestoreInvariant
import Vcdb.Keyspace.DumpWord
import Vcdb.Proc.Zset
import Vcdb.Lib.Ranking
import Vcdb.Storage.ScoreIndex
import Vcdb.Storage.Score
import Vcdb.Keyspace.Zset
import Vcdb.Keyspace.ZsetCommand
import Vcdb.Keyspace.ZsetScore
import Vcdb.Keyspace.ZsetRun
import Vcdb.Keyspace.ZsetCount
import Vcdb.Keyspace.ZsetLex
import Vcdb.Storage.Scan
import Vcdb.Proc.Scan
import Vcdb.Keyspace.ScanPage
import Vcdb.Keyspace.ScanReply
import Vcdb.Keyspace.ScanCursor
import Vcdb.Keyspace.ScanIteration
import Vcdb.Keyspace.KeyListing
import Vcdb.Keyspace.ScanComplete
import Vcdb.Keyspace.ZsetRank
import Vcdb.Keyspace.Dump
import Vcdb.Keyspace.DumpRestore
import Vcdb.Keyspace.ZsetOrder
import Vcdb.Proc.Request
import Vcdb.Keyspace.ValueRequest
import Vcdb.Keyspace.Deed
import Vcdb.Keyspace.RequestDeed
import Vcdb.Keyspace.ExpiryRun
import Vcdb.Keyspace.SetSample
import Vcdb.Keyspace.ZsetWrites
import Vcdb.Keyspace.ZscanRun
import Vcdb.Lib.Interleaving
import Vcdb.Lib.Clients
import Vcdb.Lib.Serial
import Vcdb.Util.RecordMutex
import Vcdb.Util.RecordInvariant
import Vcdb.Util.RecordRun
import Vcdb.Util.GlobalLock
import Vcdb.Util.SortedSet
import Vcdb.Storage.ScoreOrder
import Vcdb.Lib.Lookahead
import Vcdb.Storage.ExpirationThread
import Vcdb.Keyspace.Footprint
import Vcdb.Keyspace.RequestCourse
import Vcdb.Keyspace.ExpiryMemory
import Vcdb.Keyspace.DeleterSweep
import Vcdb.Keyspace.ExpirationRound
import Vcdb.Keyspace.ServerRun
import Vcdb.Keyspace.ClientRun
import Vcdb.Keyspace.SerialRun
import Vcdb.Keyspace.ExpirationDrain
import Vcdb.Keyspace.Faults
import Vcdb.Keyspace.WrongType
import Vcdb.Keyspace.ExpirationPhases
import Vcdb.Keyspace.DumpChecksum
import Vcdb.Keyspace.Locality
import Vcdb.Keyspace.Conduct

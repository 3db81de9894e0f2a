import Raids.Library.Decimal
import Raids.Library.IncrementalParser
import Raids.Library.Enumeration
import Raids.Library.FirstIndex
import Raids.Library.Endian
import Raids.Library.Machine
import Raids.Library.Dialogue
import Raids.Construction.Msg.Pack
import Raids.Construction.Msg.Unpack
import Raids.Construction.Msg.Json
import Raids.Construction.Cmd.Table
import Raids.Construction.Cmd.KeyGeometry
import Raids.Proof.Cmd.KeyGeometry
import Raids.Construction.Exec.Request
import Raids.Construction.Multi.Fetch
import Raids.Construction.Multi.Connection
import Raids.Construction.Multi.Lock
import Raids.Construction.WebSocket.Frame
import Raids.Proof.Msg.Number
import Raids.Proof.Msg.Unpack
import Raids.Proof.Msg.Chunk
import Raids.Proof.Msg.RoundTrip
import Raids.Proof.Msg.JsonRoundTrip
import Raids.Proof.Cmd.MovableKeys
import Raids.Proof.Cmd.ConsistentKeys
import Raids.Proof.Multi.Queue
import Raids.Proof.Multi.Connection
import Raids.Proof.Multi.Abort
import Raids.Proof.Multi.Lock
import Raids.Proof.Multi.Balance
import Raids.Proof.Multi.Watch
import Raids.Proof.Multi.Fetch
import Raids.Proof.Multi.Serial
import Raids.Proof.WebSocket.Frame
import Raids.Construction.Memcached.Msg
import Raids.Construction.Memcached.Unpack
import Raids.Construction.Memcached.Reply
import Raids.Construction.Memcached.Exec
import Raids.Proof.Memcached.Expiry
import Raids.Proof.Memcached.Pointers
import Raids.Proof.Memcached.Framing
import Raids.Proof.Memcached.Boundaries
import Raids.Proof.Memcached.Process
import Raids.Construction.Memcached.Segment
import Raids.Proof.Memcached.Segment
import Raids.Proof.Memcached.SplitLoop
import Raids.Proof.Memcached.ConstructFrames
import Raids.Proof.Memcached.Reassembly
import Raids.Construction.Collection.Scan
import Raids.Proof.Collection.ScanArgs
import Raids.Proof.Collection.ScanComplete
import Raids.Construction.Stream.Write
import Raids.Proof.Stream.Write
import Raids.Proof.Stream.Increasing
import Raids.Construction.Http.Request
import Raids.Construction.Http.Auth
import Raids.Construction.Http.Process
import Raids.Proof.Http.Framing
import Raids.Proof.Http.Chunks
import Raids.Proof.Http.Digest
import Raids.Construction.Http.Response
import Raids.Proof.Msg.JsonWrite
import Raids.Proof.Http.WellFormed
import Raids.Proof.Http.Pipeline
import Raids.Construction.WebSocket.Input
import Raids.Proof.Msg.JsonChunk
import Raids.Proof.WebSocket.Input
import Raids.Proof.WebSocket.Chunks
import Raids.Construction.WebSocket.Output
import Raids.Proof.WebSocket.Output
import Raids.Proof.Msg.Numeral
import Raids.Construction.Key.Entry
import Raids.Construction.Key.Add
import Raids.Construction.Key.Bits
import Raids.Proof.Key.Entry
import Raids.Proof.Key.Container
import Raids.Proof.Key.Add
import Raids.Proof.Key.Bitcount
import Raids.Proof.Key.Bitpos
import Raids.Construction.Key.Continue
import Raids.Construction.Key.Bitop
import Raids.Proof.Key.Continue
import Raids.Proof.Key.BitopBytes
import Raids.Proof.Key.Bitop
import Raids.Proof.Key.BitopRun
import Raids.Library.LinearProbe
import Raids.Construction.Key.Set
import Raids.Construction.Key.Expire
import Raids.Proof.Key.Set
import Raids.Proof.Key.Expire
import Raids.Proof.Key.Mset
import Raids.Proof.Key.CountKeys
import Raids.Proof.Key.Completion
import Raids.Proof.Key.AllOrNothing
import Raids.Proof.Msg.Pack2
import Raids.Library.Runs
import Raids.Proof.Msg.Split
import Raids.Proof.Msg.Lengths
import Raids.Proof.WebSocket.Mask
import Raids.Construction.Collection.SetBits
import Raids.Library.SetWalk
import Raids.Proof.Collection.SetBits
import Raids.Proof.Msg.JsonDecode
import Raids.Proof.Msg.JsonBlocks
import Raids.Proof.Msg.JsonGrammar
import Raids.Proof.Msg.Reach
import Raids.Proof.Msg.CutShort
import Raids.Proof.Msg.Unpack2
import Raids.Construction.Key.ListMove
import Raids.Proof.Key.ListMove
import Raids.Construction.Key.ListRange
import Raids.Construction.Key.ListEdit
import Raids.Proof.Key.ListRange
import Raids.Proof.Key.ListRun
import Raids.Proof.Key.ListEdit
import Raids.Library.Halting
import Raids.Construction.Memcached.Merge
import Raids.Proof.Memcached.MergeStep
import Raids.Proof.Memcached.Continue
import Raids.Proof.Memcached.Incr
import Raids.Proof.Memcached.Store
import Raids.Construction.Memcached.Result
import Raids.Proof.Memcached.Result
import Raids.Construction.Memcached.Continue
import Raids.Proof.Memcached.MultiGet
import Raids.Proof.Memcached.BinResponse
import Raids.Construction.Key.Rename
import Raids.Proof.Key.Rename
import Raids.Proof.Http.DecodeUri
import Raids.Proof.Http.Replay
import Raids.Library.Announcement
import Raids.Library.Block
import Raids.Library.BitField
import Raids.Construction.Pubsub.Monitor
import Raids.Proof.Pubsub.Monitor
import Raids.Construction.Key.SetMove
import Raids.Proof.Key.SetMove
import Raids.Proof.Key.SetRun
import Raids.Construction.Key.SetSample
import Raids.Proof.Key.SetSample
import Raids.Construction.Http.VarHT
import Raids.Proof.Http.VarHT
import Raids.Construction.Pubsub.Message
import Raids.Construction.Pubsub.Subscribe
import Raids.Proof.Pubsub.Message
import Raids.Proof.Pubsub.Subscriptions
import Raids.Proof.Pubsub.SubscriptionRun
import Raids.Proof.Pubsub.Delivery
import Raids.Construction.Stream.Range
import Raids.Proof.Stream.Range
import Raids.Construction.Exec.Info
import Raids.Proof.Exec.Info
import Raids.Construction.Key.StringStore
import Raids.Proof.Key.StringStore
import Raids.Proof.Key.Register
import Raids.Proof.Key.RegisterRun
import Raids.Construction.Key.GeoRadius
import Raids.Construction.Key.HashRead
import Raids.Construction.Key.HashWrite
import Raids.Construction.Key.Bitfield
import Raids.Proof.Key.Bitfield
import Raids.Proof.Key.HashRead
import Raids.Proof.Key.HashRun
import Raids.Construction.Key.HyperLogLog
import Raids.Proof.Key.Saves
import Raids.Proof.Key.HyperLogLog
import Raids.Construction.Key.SetOp
import Raids.Proof.Key.SetOp
import Raids.Construction.Key.SortedSet
import Raids.Proof.Key.SortedSet
import Raids.Construction.Key.SortedRange
import Raids.Construction.Key.SortedSetOp
import Raids.Proof.Key.SortedRange
import Raids.Proof.Key.SortedSetOp
import Raids.Library.PrefixFree
import Raids.Library.Ranking
import Raids.Construction.Msg.Conversion
import Raids.Proof.Msg.Conversion
import Raids.Library.Memory
import Raids.Construction.Keyspace.Subject
import Raids.Proof.Keyspace.Subject
import Raids.Construction.Collection.HyperLogLog
import Raids.Proof.Collection.HyperLogLog
import Raids.Proof.Key.GeoRadius
import Raids.Library.Splitting
import Raids.Proof.Memcached.Content
import Raids.Proof.Memcached.Receive
import Raids.Proof.Memcached.Chunks
import Raids.Proof.Memcached.Separation
import Raids.Proof.Memcached.StreamRequests
import Raids.Proof.Key.GeoStore
import Raids.Construction.Stream.Read
import Raids.Proof.Stream.Read
import Raids.Proof.Stream.ReadBlocked

import KVRPC.Library.Bytes
import KVRPC.Library.Lfsr
import KVRPC.Library.Records
import KVRPC.Library.Sys
import KVRPC.Library.Posix
import KVRPC.Library.Runs
import KVRPC.Library.Recency
import KVRPC.Library.Wire
import KVRPC.Library.History
import KVRPC.Library.Framing
import KVRPC.Library.Assoc
import KVRPC.Library.ByteOrder
import KVRPC.Library.Exceptions
import KVRPC.Library.Fairness
import KVRPC.Library.Inclusion
import KVRPC.Library.Indexed
import KVRPC.Library.Registry
import KVRPC.Library.Simulation
import KVRPC.Library.Threads
import KVRPC.Protocol.Message
import KVRPC.Protocol.CacheValue
import KVRPC.Protocol.RpcFrame
import KVRPC.Protocol.Envelope
import KVRPC.Protocol.RoundTrip
import KVRPC.Protocol.RpcValue
import KVRPC.Protocol.Serializer
import KVRPC.Aof.Crc
import KVRPC.Aof.Record
import KVRPC.Aof.Logger
import KVRPC.Aof.LoggerSpec
import KVRPC.Aof.Recovery
import KVRPC.Aof.Format
import KVRPC.Aof.Corruption
import KVRPC.Aof.Lifetime
import KVRPC.Aof.Exceptions
import KVRPC.Storage.LruMembers
import KVRPC.Storage.LruCache
import KVRPC.Storage.ShardedCache
import KVRPC.Storage.Contents
import KVRPC.Storage.Inclusion
import KVRPC.Storage.LruChecked
import KVRPC.Storage.LruRuns
import KVRPC.Storage.ShardedRuns
import KVRPC.Service.CacheService
import KVRPC.Service.Decode
import KVRPC.Service.Spec
import KVRPC.Service.Operations
import KVRPC.Service.Runs
import KVRPC.Service.Faultless
import KVRPC.Service.Availability
import KVRPC.Service.Durability
import KVRPC.Service.Coherence
import KVRPC.Service.ExactRecovery
import KVRPC.Service.Capacity
import KVRPC.Service.Compaction
import KVRPC.Service.GroupCommit
import KVRPC.Service.Isolation
import KVRPC.Service.Startup
import KVRPC.Service.Crashes
import KVRPC.Service.Handle
import KVRPC.Service.Restarts
import KVRPC.Net.Buffer
import KVRPC.Net.Dispatch
import KVRPC.Net.EventLoop
import KVRPC.Net.Reactor
import KVRPC.Net.Socket
import KVRPC.Client.Accounts
import KVRPC.Client.Callbacks
import KVRPC.Client.ConnectionPool
import KVRPC.Client.Correlation
import KVRPC.Client.Deadlines
import KVRPC.Client.Executor
import KVRPC.Client.KVCacheClient
import KVRPC.Client.KvEndToEnd
import KVRPC.Client.Ledger
import KVRPC.Client.Peer
import KVRPC.Client.Placement
import KVRPC.Client.RpcClient
import KVRPC.Client.Sessions
import KVRPC.Client.Steps
import KVRPC.Client.TcpConnection
import KVRPC.Client.Traffic
import KVRPC.Client.Transfers
import KVRPC.Client.Transport
import KVRPC.Server.Acceptor
import KVRPC.Server.Accounting
import KVRPC.Server.Acts
import KVRPC.Server.Connection
import KVRPC.Server.Effects
import KVRPC.Server.Flights
import KVRPC.Server.Fragmentation
import KVRPC.Server.Invariant
import KVRPC.Server.JobQueue
import KVRPC.Server.Lifecycle
import KVRPC.Server.Order
import KVRPC.Server.Orderly
import KVRPC.Server.Output
import KVRPC.Server.Pipelined
import KVRPC.Server.Progress
import KVRPC.Server.RpcServer
import KVRPC.Server.Runtime
import KVRPC.Server.Serial
import KVRPC.Server.Settled
import KVRPC.Server.Shutdown
import KVRPC.Server.Steps
import KVRPC.Server.TcpServer
import KVRPC.Server.Wakeup
import KVRPC.Server.Wiring
import KVRPC.System.KvHistory
import KVRPC.System.KvRuns
import KVRPC.System.KvServer
import KVRPC.System.Network
import KVRPC.System.RpcNetwork

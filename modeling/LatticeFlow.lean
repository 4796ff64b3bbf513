import LatticeFlow.Barrier
import LatticeFlow.BoundedQueue
import LatticeFlow.ClientTimestamps
import LatticeFlow.ClientView
import LatticeFlow.Containers
import LatticeFlow.Dedup
import LatticeFlow.Defaults
import LatticeFlow.Deployment
import LatticeFlow.Driver
import LatticeFlow.DriverFailure
import LatticeFlow.Envelope
import LatticeFlow.Equijoin
import LatticeFlow.ExampleServer
import LatticeFlow.Exchange
import LatticeFlow.ExchangeThreads
import LatticeFlow.Gossip
import LatticeFlow.GossipLifetime
import LatticeFlow.GroupBy
import LatticeFlow.HexDump
import LatticeFlow.IciClient
import LatticeFlow.Join
import LatticeFlow.JoinPull
import LatticeFlow.LastWriteWins
import LatticeFlow.Lattice
import LatticeFlow.Lib.CondVar
import LatticeFlow.Lib.History
import LatticeFlow.Lib.Machine
import LatticeFlow.Lib.MachineInt
import LatticeFlow.Lib.Ordered
import LatticeFlow.Lib.Replication
import LatticeFlow.Lib.Semilattice
import LatticeFlow.Lib.Transducer
import LatticeFlow.Lib.Unordered
import LatticeFlow.Lib.WireFormat
import LatticeFlow.MapLattice
import LatticeFlow.MapRuns
import LatticeFlow.Nesting
import LatticeFlow.Operator
import LatticeFlow.Protobuf
import LatticeFlow.PushGraph
import LatticeFlow.PushPull
import LatticeFlow.RcClient
import LatticeFlow.Relational
import LatticeFlow.RoundRobin
import LatticeFlow.Server
import LatticeFlow.ServerHistory
import LatticeFlow.Sessions
import LatticeFlow.Split
import LatticeFlow.Startup
import LatticeFlow.ThreadPool
import LatticeFlow.Timer
import LatticeFlow.TimerFileDescriptor
import LatticeFlow.TimestampLattice
import LatticeFlow.WireTimestamps
import LatticeFlow.Workers
import LatticeFlow.ZmqUtil
import LatticeFlow.PullGraph

import Prpc.Accumulator.Cache
import Prpc.Accumulator.Extremes
import Prpc.Accumulator.Ledger
import Prpc.Accumulator.Servers
import Prpc.Codec.Base64
import Prpc.Common.ExactCast
import Prpc.Common.Monitor
import Prpc.Master.Effects
import Prpc.MasterClient.Barrier.Solo
import Prpc.MasterClient.ClearPath
import Prpc.MasterClient.GeneratedKeys
import Prpc.MasterClient.Service.Servers
import Prpc.MasterClient.Watch.Wakeup
import Prpc.Misc.BlockAllocator
import Prpc.Misc.HashTable.Reserve
import Prpc.Misc.LRUCache.Recency
import Prpc.Misc.LazyVector.Iteration
import Prpc.Misc.LazyVector.Slices
import Prpc.Misc.MemoryStorage
import Prpc.Misc.PoolHashTable.Probing
import Prpc.Misc.PoolHashTable.Refinement
import Prpc.Misc.URIConfig
import Prpc.Rpc.Framing.Frames
import Prpc.Rpc.FrontEnd.Repair
import Prpc.Rpc.FrontEnd.Writer
import Prpc.Rpc.Message.Lengths
import Prpc.Rpc.Rdma.Blocking
import Prpc.Rpc.Rdma.Reads
import Prpc.Rpc.Rdma.Registry
import Prpc.Rpc.Routing.Fairness
import Prpc.Rpc.Routing.Fate
import Prpc.Rpc.ServiceInfo.Exact
import Prpc.Thread.ChannelEntity.OutOfMemory
import Prpc.Thread.ChannelReplicator.EndOfInput
import Prpc.Thread.RWSpinLock
import Prpc.Thread.RpcChannel.Delivery
import Prpc.Thread.Semaphore
import Prpc.Thread.SpscQueue
import Prpc.Thread.ThreadGroup

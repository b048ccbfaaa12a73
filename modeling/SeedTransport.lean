import SeedTransport.Stream.Closing
import SeedTransport.Stream.Pace
import SeedTransport.Stream.Overflow
import SeedTransport.Lib.Delivery
import SeedTransport.Core.Limiter
import SeedTransport.Core.Correlation
import SeedTransport.Core.Deliveries
import SeedTransport.Core.Deadlines
import SeedTransport.Core.Truthful
import SeedTransport.Core.HomeRelay
import SeedTransport.Link.Run
import SeedTransport.Link.Stall
import SeedTransport.Link.Secrets
import SeedTransport.Link.Sealing
import SeedTransport.Link.Keys
import SeedTransport.Link.Pair
import SeedTransport.Link.Agreement
import SeedTransport.Lib.Lockstep
import SeedTransport.Link.Ending
import SeedTransport.Host.Rollback
import SeedTransport.Host.Atomic
import SeedTransport.Host.Serial
import SeedTransport.Host.OpFrame
import SeedTransport.Host.HostCalls
import SeedTransport.Host.EngineRealm
import SeedTransport.Host.ModuleTable
import SeedTransport.Host.GuestSeam
import SeedTransport.Host.Freshness
import SeedTransport.Udp.Paths
import SeedTransport.Udp.Birthday
import SeedTransport.Services.Outbound
import SeedTransport.Services.Budget
import SeedTransport.Services.Datagrams
import SeedTransport.Services.Timer
import SeedTransport.Host.DeadlineQueue
import SeedTransport.Services.FileStore
import SeedTransport.Native.Ended
import SeedTransport.Native.Torn
import SeedTransport.Host.BundleFormat
import SeedTransport.Host.BundleLaws
import SeedTransport.Host.WasmLimits
import SeedTransport.Host.WasmFormat
import SeedTransport.Stream.Numbers
import SeedTransport.Stream.Offsets
import SeedTransport.Stream.Acks
import SeedTransport.Stream.Books
import SeedTransport.Stream.Undo
import SeedTransport.Lib.Memory
import SeedTransport.Lib.Sha1
import SeedTransport.Ws.Module
import SeedTransport.Ws.Accept
import SeedTransport.Framing.Pieces
import SeedTransport.Framing.Lengths
import SeedTransport.Lib.Incremental
import SeedTransport.Ws.Masking
import SeedTransport.Framing.Header
import SeedTransport.Framing.WsFramer
import SeedTransport.Framing.Reassembly
import SeedTransport.Framing.Retention
import SeedTransport.Framing.Fifo
import SeedTransport.Host.Utf8
import SeedTransport.Host.OpArgs
import SeedTransport.Udp.SendBatch
import SeedTransport.Lib.Text
import SeedTransport.Udp.Address
import SeedTransport.Udp.Arrivals
import SeedTransport.Core.Source
import SeedTransport.Lib.Runs
import SeedTransport.Stream.Received

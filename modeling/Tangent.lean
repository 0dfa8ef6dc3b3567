import Tangent.Safety.Interference
import Tangent.Safety.Ipv4
import Tangent.Safety.Dispatch
import Tangent.Discovery
import Tangent.Network.Stable
import Tangent.Safety.Fields
import Tangent.Safety.Fnew
import Tangent.Security.Exchange
import Tangent.Security.Packets
import Tangent.Security.Verified
import Tangent.Cleaning
import Tangent.Safety.Maintenance
import Tangent.Routing.FixFingers
import Tangent.Network.Translation
import Tangent.Safety.Buffers
import Tangent.Network.Query
import Tangent.Arithmetic
import Tangent.Eviction
import Tangent.DeadFingers
import Tangent.Routing.Search
import Tangent.HandlerTable
import Tangent.Transfer
import Tangent.RoundTrip
import Tangent.Heap.Server
import Tangent.Network.Bytes
import Tangent.Network.Quiet
import Tangent.Network.Closer
import Tangent.Network.Handshake
import Tangent.Logger.Registry
import Tangent.Logger.Crc32
import Tangent.Logger.Messages

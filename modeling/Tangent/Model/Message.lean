import Tangent.Model.Crypt

/-!
# Messages

The messages of `messages.proto` as the handlers see them after unpacking, the packets a
server hands to `send_packet`, and the send functions of `sendpkt.c` with the pack
functions of `pack.c` they call.

An absent optional field has its default; an absent ticket is the empty string.  A bytes
field may have any length.  The functions of this development collect what a step does
with the outside as a list of actions; a clock is read at the moment the actions so far
have been taken, so `now n` and `time n` are the readings after `n` actions.
-/

namespace Tangent

/-- The packet types of `chord.h`. -/
inductive PacketType where
  | addrDiscover
  | addrDiscoverReply
  | data
  | fs
  | fsReply
  | stab
  | stabReply
  | notify
  | ping
  | pong
  deriving DecidableEq

/-- The number a packet type stands for. -/
def PacketType.code : PacketType → UInt8
  | .addrDiscover => 0
  | .addrDiscoverReply => 1
  | .data => 2
  | .fs => 3
  | .fsReply => 4
  | .stab => 5
  | .stabReply => 6
  | .notify => 7
  | .ping => 8
  | .pong => 9

/-- An `AddrDiscover` message. -/
structure AddrDiscover where
  ticket : Bytes
  deriving DecidableEq

/-- An `AddrDiscoverReply` message. -/
structure AddrDiscoverReply where
  ticket : Bytes
  addr : Bytes
  deriving DecidableEq

/-- A `Data` message. -/
structure Data where
  id : Bytes
  ttl : UInt32
  last : Bool
  data : Bytes
  deriving DecidableEq

/-- A `FindSuccessor` message. -/
structure FindSuccessor where
  ticket : Bytes
  ttl : UInt32
  addr : Bytes
  port : UInt32
  deriving DecidableEq

/-- A `FindSuccessorReply` message. -/
structure FindSuccessorReply where
  ticket : Bytes
  addr : Bytes
  port : UInt32
  deriving DecidableEq

/-- A `Stabilize` message. -/
structure Stabilize where
  addr : Bytes
  port : UInt32
  deriving DecidableEq

/-- A `StabilizeReply` message. -/
structure StabilizeReply where
  addr : Bytes
  port : UInt32
  deriving DecidableEq

/-- A `Ping` message. -/
structure Ping where
  ticket : Bytes
  time : UInt64
  deriving DecidableEq

/-- A `Pong` message. -/
structure Pong where
  ticket : Bytes
  time : UInt64
  deriving DecidableEq

/-- An unpacked message; a `Notify` has no fields. -/
inductive Msg where
  | addrDiscover (m : AddrDiscover)
  | addrDiscoverReply (m : AddrDiscoverReply)
  | data (m : Data)
  | fs (m : FindSuccessor)
  | fsReply (m : FindSuccessorReply)
  | stab (m : Stabilize)
  | stabReply (m : StabilizeReply)
  | notify
  | ping (m : Ping)
  | pong (m : Pong)
  deriving DecidableEq

/-- A packet handed to `send_packet`. -/
structure Packet where
  toAddr : In6Addr
  toPort : UInt16
  msg : Msg
  deriving DecidableEq

/-- What a step does with the outside: it hands a packet to `send_packet`, or reaches the
place in `process_data` where a data packet is handled locally. -/
inductive Action where
  | send (p : Packet)
  | upcall (id : ChordID) (data : Bytes)
  deriving DecidableEq

/-- What a step reads from the outside: the clocks `get_current_time` and `time`, the draw
of `random` that picks a well-known node, the memory behind the end of a message field,
and the value the local variable `fnew` of a handler happens to have before it is
assigned. -/
structure Io where
  now : ℕ → UInt64
  time : ℕ → ℕ
  random : ℕ
  behind : ℕ → UInt8
  fnew : Bool

/-! ### The arguments of the tickets -/

/-- The ticket arguments `"c6s"` of an address discovery. -/
def addrDiscoverArgs (addr : In6Addr) (port : UInt16) : List HashArg :=
  [.c PacketType.addrDiscover.code, .v6 addr, .s port]

/-- The ticket arguments `"c"` of a lookup. -/
def fsArgs : List HashArg :=
  [.c PacketType.fs.code]

/-- The ticket arguments `"c6sl"` of a ping. -/
def pingArgs (addr : In6Addr) (port : UInt16) (time : UInt64) : List HashArg :=
  [.c PacketType.ping.code, .v6 addr, .s port, .l time]

/-! ### Sending -/

section Send

variable (L : Library) (io : Io) (srv : ChordServer) (acts : List Action)

/-- `send_packet`, after the actions `acts`. -/
def sendPacket (toAddr : In6Addr) (toPort : UInt16) (msg : Msg) : List Action :=
  acts ++ [.send ⟨toAddr, toPort, msg⟩]

/-- `send_addr_discover`. -/
def sendAddrDiscover (toAddr : In6Addr) (toPort : UInt16) : List Action :=
  sendPacket acts toAddr toPort (.addrDiscover
    ⟨packTicket L srv (io.time acts.length) (addrDiscoverArgs toAddr toPort)⟩)

/-- `send_addr_discover_reply`. -/
def sendAddrDiscoverReply (ticket : Bytes) (toAddr : In6Addr) (toPort : UInt16) :
    List Action :=
  sendPacket acts toAddr toPort (.addrDiscoverReply ⟨ticket, toAddr.s6Addr⟩)

/-- `send_data`.  The hop count is narrowed to an `uchar`, the length of the data to an
`ushort`. -/
def sendData (last : Bool) (ttl : UInt8) (np : Node) (id : ChordID) (data : Bytes) :
    List Action :=
  sendPacket acts np.addr np.port
    (.data ⟨id.x, ttl.toUInt32, last, data.take (data.length % 2 ^ 16)⟩)

/-- `send_fs_forward`. -/
def sendFsForward (ticket : Bytes) (ttl : UInt8) (toAddr : In6Addr) (toPort : UInt16)
    (addr : In6Addr) (port : UInt16) : List Action :=
  sendPacket acts toAddr toPort (.fs ⟨ticket, ttl.toUInt32, addr.s6Addr, port.toUInt32⟩)

/-- `send_fs`. -/
def sendFs (ttl : UInt8) (toAddr : In6Addr) (toPort : UInt16) (addr : In6Addr)
    (port : UInt16) : List Action :=
  sendFsForward acts (packTicket L srv (io.time acts.length) fsArgs) ttl toAddr toPort addr
    port

/-- `send_fs_reply`. -/
def sendFsReply (ticket : Bytes) (toAddr : In6Addr) (toPort : UInt16) (addr : In6Addr)
    (port : UInt16) : List Action :=
  sendPacket acts toAddr toPort (.fsReply ⟨ticket, addr.s6Addr, port.toUInt32⟩)

/-- `send_stab`. -/
def sendStab (toAddr : In6Addr) (toPort : UInt16) (addr : In6Addr) (port : UInt16) :
    List Action :=
  sendPacket acts toAddr toPort (.stab ⟨addr.s6Addr, port.toUInt32⟩)

/-- `send_stab_reply`. -/
def sendStabReply (toAddr : In6Addr) (toPort : UInt16) (addr : In6Addr) (port : UInt16) :
    List Action :=
  sendPacket acts toAddr toPort (.stabReply ⟨addr.s6Addr, port.toUInt32⟩)

/-- `send_notify`. -/
def sendNotify (toAddr : In6Addr) (toPort : UInt16) : List Action :=
  sendPacket acts toAddr toPort .notify

/-- `send_ping(srv, to_addr, to_port, get_current_time())`. -/
def sendPing (toAddr : In6Addr) (toPort : UInt16) : List Action :=
  let time := io.now acts.length
  sendPacket acts toAddr toPort (.ping
    ⟨packTicket L srv (io.time acts.length) (pingArgs toAddr toPort time), time⟩)

/-- `send_pong`. -/
def sendPong (ticket : Bytes) (toAddr : In6Addr) (toPort : UInt16) (time : UInt64) :
    List Action :=
  sendPacket acts toAddr toPort (.pong ⟨ticket, time⟩)

end Send

end Tangent

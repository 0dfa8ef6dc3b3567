import Tangent.Model.Process

/-!
# Datagrams

`dispatcher.c`, and `new_server` and `handle_packet` of `chord.c` as far as they use it.  The
functions that unpack messages are generated from `messages.proto`; a `Protobuf` supplies them.

A dispatcher holds an array of handlers, one for each type below its size, and a list of odd
ones with larger types.  The entries of the array are zero until a handler is set.  A handler
comes with its message type, its unpack function and its process function, to which the server
and what the step reads from outside have been supplied; the name of a handler is used in log
messages and left out.  The faults are those of the dispatcher itself; what the process function
returns is handed on as it is.
-/

namespace Tangent

/-- A `Header`: the type of a packet and its packed message. -/
structure Header where
  type : UInt32
  payload : Bytes
  deriving DecidableEq

/-- The unpack functions generated from `messages.proto`; they return no message if the bytes
are malformed. -/
structure Protobuf where
  headerUnpack : Bytes → Option Header
  addrDiscoverUnpack : Bytes → Option AddrDiscover
  addrDiscoverReplyUnpack : Bytes → Option AddrDiscoverReply
  dataUnpack : Bytes → Option Data
  findSuccessorUnpack : Bytes → Option FindSuccessor
  findSuccessorReplyUnpack : Bytes → Option FindSuccessorReply
  stabilizeUnpack : Bytes → Option Stabilize
  stabilizeReplyUnpack : Bytes → Option StabilizeReply
  notifyUnpack : Bytes → Option Unit
  pingUnpack : Bytes → Option Ping
  pongUnpack : Bytes → Option Pong

/-! ### The dispatcher -/

/-- A `packet_handler` that has been set, with process function to `R`. -/
structure PacketHandler (R : Type) where
  Message : Type
  unpack : Bytes → Option Message
  process : Message → Node → R

/-- A `Dispatcher`. -/
structure Dispatcher (R : Type) where
  handlers : List (Option (PacketHandler R))
  odd : List (ℤ × PacketHandler R)

/-- What goes wrong in the dispatcher: a header is used that did not unpack, `PACKET_NAMES`,
the packet buffer or the array of handlers is read outside its bounds, a handler is called that
has not been set, or a block is written to behind its end. -/
inductive DispatchFault where
  | missingHeader
  | packetNames
  | packetBuffer
  | handlers
  | unsetHandler
  | overrun
  deriving DecidableEq

/-- What becomes of a datagram: no handler is known for its type, its message is malformed, or
the process function has returned. -/
inductive Dispatched (R : Type) where
  | dropped
  | unpackFailed
  | ran (ret : R)
  deriving DecidableEq

section Dispatcher

variable {R : Type}

/-- `new_dispatcher`. -/
def newDispatcher (size : ℕ) : Dispatcher R :=
  ⟨List.replicate size none, []⟩

/-- The loop of `get_handler` over the odd handlers. -/
def getOddHandler (value : ℤ) : List (ℤ × PacketHandler R) → Option (PacketHandler R)
  | [] => none
  | (v, handler) :: odd =>
      if v < value then getOddHandler value odd
      else if v = value then some handler
      else none

/-- `get_handler`: no handler, or an entry of the array or the list, which may not have been
set. -/
def getHandler (d : Dispatcher R) (value : ℤ) :
    Except DispatchFault (Option (Option (PacketHandler R))) :=
  if value < d.handlers.length then
    if value < 0 then .error .handlers else .ok d.handlers[value.toNat]?
  else
    .ok ((getOddHandler value d.odd).map some)

/-- `init_handler` for the handler `get_handler` finds. -/
def initHandler (d : Dispatcher R) (value : ℤ) (handler : PacketHandler R) : Dispatcher R :=
  if value < d.handlers.length then
    { d with handlers := d.handlers.set value.toNat (some handler) }
  else
    { d with odd := d.odd.map fun o => if o.1 = value then (value, handler) else o }

/-- `dispatcher_create_handler`.  The block for an odd handler has the size of a
`packet_handler`, which an `odd_packet_handler` exceeds. -/
def dispatcherCreateHandler (d : Dispatcher R) (value : ℤ) (handler : PacketHandler R) :
    Except DispatchFault (Dispatcher R) :=
  if value < d.handlers.length then
    if value < 0 then .error .handlers else .ok (initHandler d value handler)
  else
    .error .overrun

/-- `dispatcher_set_packet_body`. -/
def dispatcherSetPacketBody (d : Dispatcher R) (value : ℤ) (handler : PacketHandler R) :
    Except DispatchFault (Dispatcher R) :=
  match getHandler d value with
  | .error fault => .error fault
  | .ok none => dispatcherCreateHandler d value handler
  | .ok (some _) => .ok (initHandler d value handler)

/-- `PACKET_NAMES`. -/
def packetNames : List String :=
  ["ADDR_DISCOVER", "ADDR_DISCOVER_REPLY", "DATA", "FS", "FS_REPLY", "STAB", "STAB_REPLY",
    "NOTIFY", "PING", "PONG"]

/-- `BUFSIZE`. -/
abbrev bufsize : ℕ := 65535

/-- The part of `dispatch_packet` that has found the handler. -/
def PacketHandler.dispatch (handler : PacketHandler R) (payload : Bytes) (frm : Node) :
    Dispatched R :=
  match handler.unpack payload with
  | none => .unpackFailed
  | some msg => .ran (handler.process msg frm)

/-- `dispatch_packet` with a dispatcher whose `unpack_error` is not set.  The arguments of the
log message are evaluated first: the name of the type, and the byte of the packet at the index
`header->type`, which need not be one of the packet; `size` is the size of the block the packet
lies in.  `get_handler` gets the type as an `int`. -/
def dispatchPacket (headerUnpack : Bytes → Option Header) (d : Dispatcher R) (size : ℕ)
    (buf : Bytes) (frm : Node) : Except DispatchFault (Dispatched R) :=
  match headerUnpack buf with
  | none => .error .missingHeader
  | some header =>
      if packetNames.length ≤ header.type.toNat then
        .error .packetNames
      else if size ≤ header.type.toNat then
        .error .packetBuffer
      else
        match getHandler d header.type.toInt32.toInt with
        | .error fault => .error fault
        | .ok none => .ok .dropped
        | .ok (some none) => .error .unsetHandler
        | .ok (some (some handler)) => .ok (handler.dispatch header.payload frm)

end Dispatcher

/-! ### The dispatcher of a server -/

section Server

variable (W : Protobuf) (L : Library) (io : Io) (srv : ChordServer)

/-- The unpack function and the process function `new_server` registers for a type. -/
def registered : PacketType → PacketHandler (Except Fault Outcome)
  | .addrDiscover => ⟨AddrDiscover, W.addrDiscoverUnpack, processAddrDiscover srv⟩
  | .addrDiscoverReply =>
      ⟨AddrDiscoverReply, W.addrDiscoverReplyUnpack, processAddrDiscoverReply L io srv⟩
  | .data => ⟨Data, W.dataUnpack, processData io srv⟩
  | .fs => ⟨FindSuccessor, W.findSuccessorUnpack, processFs L io srv⟩
  | .fsReply => ⟨FindSuccessorReply, W.findSuccessorReplyUnpack, processFsReply L io srv⟩
  | .stab => ⟨Stabilize, W.stabilizeUnpack, processStab L io srv⟩
  | .stabReply => ⟨StabilizeReply, W.stabilizeReplyUnpack, processStabReply L io srv⟩
  | .notify => ⟨Unit, W.notifyUnpack, fun _ => processNotify L io srv⟩
  | .ping => ⟨Ping, W.pingUnpack, processPing L io srv⟩
  | .pong => ⟨Pong, W.pongUnpack, processPong L io srv⟩

/-- The types `new_server` registers handlers for, in its order. -/
def registeredTypes : List PacketType :=
  [.addrDiscover, .addrDiscoverReply, .data, .fs, .fsReply, .stab, .stabReply, .notify, .ping,
    .pong]

/-- The dispatcher `new_server` sets up. -/
def serverDispatcher : Except DispatchFault (Dispatcher (Except Fault Outcome)) :=
  registeredTypes.foldlM
    (fun d t => dispatcherSetPacketBody d t.code.toNat (registered W L io srv t))
    (newDispatcher (PacketType.pong.code.toNat + 1))

/-! ### Datagrams of a server -/

/-- `to_v6addr`: the V4-mapped address of an IPv4 address of four bytes. -/
def toV6Addr (v4addr : UInt32) : In6Addr :=
  ⟨List.replicate 10 0 ++ List.replicate 2 0xff ++ leBytes 4 v4addr.toNat, by simp [leBytes]⟩

/-- `V4_MAPPED`. -/
def In6Addr.v4Mapped (addr : In6Addr) : Bool :=
  addr.s6Addr.take 12 = List.replicate 10 0 ++ List.replicate 2 0xff

@[simp]
theorem v4Mapped_toV6Addr (v4addr : UInt32) :
  (toV6Addr v4addr).v4Mapped = true
  := by
  simp [In6Addr.v4Mapped, toV6Addr]

/-- The `send_func` of a server, for a packet: `send_raw_v6`, or `send_raw_v4`, which asserts
that the address is V4-mapped. -/
def sendFunc (pkt : Packet) : Except Fault Unit :=
  if srv.isV6 then .ok ()
  else if pkt.toAddr.v4Mapped then .ok ()
  else .error .assertion

/-- Where a datagram came from, as `recvfrom` tells: a `sockaddr_in6` if the server has a
socket of version 6, and else a `sockaddr_in`. -/
inductive Source where
  | in6 (sin6Addr : In6Addr) (port : UInt16)
  | in4 (sAddr : UInt32) (port : UInt16)

/-- The sender `handle_packet` makes of it. -/
def Source.peer : Source → Peer
  | .in6 sin6Addr port => ⟨sin6Addr, port⟩
  | .in4 sAddr port => ⟨toV6Addr sAddr, port⟩

/-- The source is of the kind the socket of the server has. -/
def Source.fits (srv : ChordServer) : Source → Prop
  | .in6 .. => srv.isV6 = true
  | .in4 .. => srv.isV6 = false

/-- `handle_packet` for a datagram that `recvfrom` has returned in a buffer of `BUFSIZE` bytes. -/
def handlePacket (src : Source) (buf : Bytes) :
    Except DispatchFault (Dispatched (Except Fault Outcome)) :=
  match serverDispatcher W L io srv with
  | .error fault => .error fault
  | .ok d => dispatchPacket W.headerUnpack d bufsize buf (src.peer.node L)

end Server

end Tangent

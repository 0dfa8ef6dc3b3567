import Tangent.Model.Stabilize
import Tangent.Shared

/-!
# The servers of a process

The servers of a process share the static variables of the code: the counter `idx` of
`stabilize`, the buffers `ticket_buf` and `buf` of `sendpkt.c` and the buffer `msg_buf` of
`pack.c`.  A packet goes through the buffers before it is sent: its ticket, if the server issues
it, is packed into `ticket_buf` and read from there, its message into `msg_buf`, and its header,
with the message, into `buf`.  Static variables that only log messages read are left out.

The functions that pack messages are generated from `messages.proto`; a `Packing` supplies
them.  That a message may not fit into a buffer is not modelled.
-/

namespace Tangent

/-- What the code calls in protobuf-c to pack: `protobuf_c_message_pack`, and `header__pack` for
a version, a type and a payload. -/
structure Packing where
  messagePack : Msg → Bytes
  headerPack : UInt32 → UInt32 → Bytes → Bytes

/-- The static variables. -/
structure Statics where
  idx : ℕ
  ticketBuf : Bytes
  msgBuf : Bytes
  buf : Bytes
  deriving DecidableEq

/-- What is handed to `sendto`. -/
structure Sent where
  dst : Peer
  bytes : Bytes
  deriving DecidableEq

/-- What happens to a server of a process; `stabilize` finds the counter itself. -/
inductive Trigger where
  | packet (frm : Peer) (msg : Msg) (io : Io)
  | tick (io : Io)
  | discover (io : Io)

/-- `CHORD_WIRE_VERSION`. -/
abbrev chordWireVersion : UInt32 := 1

/-- The type of a message. -/
def Msg.type : Msg → PacketType
  | .addrDiscover _ => .addrDiscover
  | .addrDiscoverReply _ => .addrDiscoverReply
  | .data _ => .data
  | .fs _ => .fs
  | .fsReply _ => .fsReply
  | .stab _ => .stab
  | .stabReply _ => .stabReply
  | .notify => .notify
  | .ping _ => .ping
  | .pong _ => .pong

/-- Write to the beginning of a buffer. -/
def overwrite (buf data : Bytes) : Bytes :=
  data ++ buf.drop data.length

/-- What is read back from a buffer is what was written. -/
@[simp]
theorem take_overwrite (buf data : Bytes) :
  (overwrite buf data).take data.length = data
  := by
  simp [overwrite]

section Process

variable (L : Library) (K : Packing)

/-- The ticket is packed into `ticket_buf`, and read from there. -/
def Statics.loadTicket (st : Statics) (ticket : Bytes) : Statics × Bytes :=
  let st := { st with ticketBuf := overwrite st.ticketBuf ticket }
  (st, st.ticketBuf.take ticket.length)

/-- The ticket of a message the server issues goes through `ticket_buf`: that of an address
discovery and of a ping, and that of a lookup the server starts, which the timer does. -/
def Statics.loadMsg (st : Statics) (starts : Bool) : Msg → Statics × Msg
  | .addrDiscover m =>
      let loaded := st.loadTicket m.ticket
      (loaded.1, .addrDiscover { m with ticket := loaded.2 })
  | .fs m =>
      if starts then
        let loaded := st.loadTicket m.ticket
        (loaded.1, .fs { m with ticket := loaded.2 })
      else
        (st, .fs m)
  | .ping m =>
      let loaded := st.loadTicket m.ticket
      (loaded.1, .ping { m with ticket := loaded.2 })
  | msg => (st, msg)

/-- `pack_header`, with the length it returns. -/
def packHeader (st : Statics) (type : PacketType) (msg : Msg) : Statics × ℕ :=
  let payload := K.messagePack msg
  let st := { st with msgBuf := overwrite st.msgBuf payload }
  let bytes := K.headerPack chordWireVersion type.code.toUInt32 (st.msgBuf.take payload.length)
  ({ st with buf := overwrite st.buf bytes }, bytes.length)

/-- A send function, up to `sendto`. -/
def transmit (starts : Bool) (st : Statics) (pkt : Packet) : Statics × Sent :=
  let loaded := st.loadMsg starts pkt.msg
  let packed := packHeader K loaded.1 pkt.msg.type loaded.2
  (packed.1, ⟨⟨pkt.toAddr, pkt.toPort⟩, packed.1.buf.take packed.2⟩)

/-- The packets among the actions are sent one after the other. -/
def transmitAll (starts : Bool) : Statics → List Action → Statics × List Sent
  | st, [] => (st, [])
  | st, .send pkt :: acts =>
      let sent := transmit K starts st pkt
      let rest := transmitAll starts sent.1 acts
      (rest.1, sent.2 :: rest.2)
  | st, .upcall _ _ :: acts => transmitAll starts st acts

/-- What a server of a process does with the counter at `idx`: the server and the counter
after it, and the actions. -/
def reactAt (srv : ChordServer) (idx : ℕ) :
    Trigger → Except Fault (ChordServer × ℕ × List Action)
  | .packet frm msg io =>
      (process L io srv msg (frm.node L)).map fun out => (out.srv, idx, out.acts)
  | .tick io => (stabilize L io srv idx).map fun t => (t.srv, t.idx, t.acts)
  | .discover io => .ok (srv, idx, discoverAddr L io srv)

/-- The lookups the server sends are its own. -/
def Trigger.starts : Trigger → Bool
  | .tick _ => true
  | _ => false

/-- What a server of a process leaves behind: the server, the static variables and what it
sent. -/
def reactIn (srv : ChordServer) (st : Statics) (e : Trigger) :
    Except Fault (ChordServer × Statics × List Sent) :=
  (reactAt L srv st.idx e).map fun r =>
    (r.1, transmitAll K e.starts { st with idx := r.2.1 } r.2.2)

/-- A process: its servers, the static variables, and what the servers have done so far. -/
abbrev Process (ι : Type) : Type :=
  Shared.System ι ChordServer Statics (List Sent)

/-- The process `server_initialize_list_from_file` sets up; the counter is zero, and nothing has
been written to the buffers. -/
def newProcess {ι : Type} (cfg : ι → Config) : Process ι :=
  ⟨fun i => newServer (cfg i), ⟨0, [], [], []⟩, []⟩

/-- The process after a list of triggers, each at one of its servers. -/
def runProcess {ι : Type} [DecidableEq ι] (cfg : ι → Config) (evs : List (ι × Trigger)) :
    Except Fault (Process ι) :=
  Machine.run (Shared.step (reactIn L K)) (newProcess cfg) evs

end Process

end Tangent

import Mathlib.Logic.Function.Basic
import Tangent.Model.Dispatcher
import Tangent.Model.Statics
import Tangent.Network.Stable

/-!
# Networks of servers

Servers exchange datagrams and their timers fire.  Server `i` sends from and receives at
`home i`, whether it has learnt that address or not.  A datagram can be delivered, lost or
duplicated.

There are two such networks.  In the one the datagrams hold messages, and a server reacts to
them as `react` says.  In the other they hold bytes: they come out of the packet buffers of the
process a server belongs to, and go through `handle_packet`.
-/

namespace Tangent

/-! ### Networks of messages -/

/-- What happens in a network. -/
inductive Move (ι : Type*) where
  | deliver (i : ι) (d : Datagram) (io : Io)
  | lose (d : Datagram)
  | duplicate (d : Datagram)
  | tick (i : ι) (idx : ℕ) (io : Io)
  | discover (i : ι) (io : Io)

/-- Why a network stops: what should happen is not possible, or a server faults. -/
inductive NetFault where
  | impossible
  | fault (f : Fault)
  deriving DecidableEq

section Net

variable {ι : Type*} [DecidableEq ι] (L : Library) (home : ι → Peer)

/-- A server reacts to an event, and its packets are on their way. -/
def Net.reactTo (net : Net ι) (i : ι) (e : Event) : Except NetFault (Net ι) :=
  match react L (net.servers i) e with
  | .ok (srv, acts) =>
      .ok ⟨Function.update net.servers i srv, net.flight ++ datagrams (home i) acts⟩
  | .error f => .error (.fault f)

/-- The network after a move. -/
def netMove (net : Net ι) : Move ι → Except NetFault (Net ι)
  | .deliver i d io =>
      if d ∈ net.flight ∧ d.dst = home i then
        Net.reactTo L home { net with flight := net.flight.erase d } i (.packet d.src d.msg io)
      else
        .error .impossible
  | .lose d =>
      if d ∈ net.flight then .ok { net with flight := net.flight.erase d }
      else .error .impossible
  | .duplicate d =>
      if d ∈ net.flight then .ok { net with flight := d :: net.flight } else .error .impossible
  | .tick i idx io => Net.reactTo L home net i (.tick idx io)
  | .discover i io => Net.reactTo L home net i (.discover io)

/-- The network after a list of moves. -/
def netRun (net : Net ι) (ms : List (Move ι)) : Except NetFault (Net ι) :=
  Machine.run (netMove L home) net ms

end Net

/-- The first server of the sample ring. -/
abbrev sampleFirst : Fin 3 :=
  0

/-- The second server of the sample ring. -/
abbrev sampleSecond : Fin 3 :=
  1

/-- The ping of the sample network is delivered. -/
def samplePing : Move (Fin 3) :=
  .deliver sampleFirst ⟨samplePeer 20 0, samplePeer 10 0, .ping ⟨sampleTicket, 0⟩⟩ sampleIo

/-! ### Networks of bytes -/

/-- A datagram as the sockets see it. -/
structure WireDatagram where
  src : Peer
  dst : Peer
  bytes : Bytes
  deriving DecidableEq

/-- Servers, the static variables of their processes, and the datagrams on their way. -/
structure WireNet (ι κ : Type*) where
  servers : ι → ChordServer
  statics : κ → Statics
  flight : List WireDatagram

/-- What happens in a network of bytes.  `recvfrom` tells where a datagram that is delivered
came from, and a tick finds the counter among the static variables. -/
inductive WireMove (ι : Type*) where
  | deliver (i : ι) (src : Source) (d : WireDatagram) (io : Io)
  | lose (d : WireDatagram)
  | duplicate (d : WireDatagram)
  | tick (i : ι) (io : Io)
  | discover (i : ι) (io : Io)

/-- Why a network of bytes stops: what should happen is not possible, the dispatcher of a
server faults, or the server itself. -/
inductive WireFault where
  | impossible
  | dispatch (f : DispatchFault)
  | fault (f : Fault)
  deriving DecidableEq

section Wire

variable {ι κ : Type*} [DecidableEq ι] [DecidableEq κ] (W : Protobuf) (K : Packing)
  (L : Library) (home : ι → Peer) (proc : ι → κ)

/-- What a server makes of a datagram, and what it sends. -/
def receive (io : Io) (srv : ChordServer) (st : Statics) (src : Source) (buf : Bytes) :
    Except WireFault (ChordServer × Statics × List Sent) :=
  match handlePacket W L io srv src buf with
  | .error f => .error (.dispatch f)
  | .ok (.ran (.error f)) => .error (.fault f)
  | .ok (.ran (.ok out)) =>
      let sent := transmitAll K false st out.acts
      .ok (out.srv, sent.1, sent.2)
  | .ok _ => .ok (srv, st, [])

/-- A timer of a server fires. -/
def fire (srv : ChordServer) (st : Statics) (e : Trigger) :
    Except WireFault (ChordServer × Statics × List Sent) :=
  match reactIn L K srv st e with
  | .ok r => .ok r
  | .error f => .error (.fault f)

/-- What a server leaves behind is put into the network. -/
def WireNet.put (w : WireNet ι κ) (i : ι)
    (r : Except WireFault (ChordServer × Statics × List Sent)) :
    Except WireFault (WireNet ι κ) :=
  match r with
  | .ok (srv, st, sent) =>
      .ok ⟨Function.update w.servers i srv, Function.update w.statics (proc i) st,
        w.flight ++ sent.map fun s => ⟨home i, s.dst, s.bytes⟩⟩
  | .error f => .error f

/-- The network of bytes after a move. -/
def wireMove (w : WireNet ι κ) : WireMove ι → Except WireFault (WireNet ι κ)
  | .deliver i src d io =>
      if d ∈ w.flight ∧ d.dst = home i ∧ src.peer = d.src then
        WireNet.put home proc { w with flight := w.flight.erase d } i
          (receive W K L io (w.servers i) (w.statics (proc i)) src d.bytes)
      else
        .error .impossible
  | .lose d =>
      if d ∈ w.flight then .ok { w with flight := w.flight.erase d } else .error .impossible
  | .duplicate d =>
      if d ∈ w.flight then .ok { w with flight := d :: w.flight } else .error .impossible
  | .tick i io =>
      WireNet.put home proc w i (fire K L (w.servers i) (w.statics (proc i)) (.tick io))
  | .discover i io =>
      WireNet.put home proc w i (fire K L (w.servers i) (w.statics (proc i)) (.discover io))

/-- The network of bytes after a list of moves. -/
def wireRun (w : WireNet ι κ) (ms : List (WireMove ι)) : Except WireFault (WireNet ι κ) :=
  Machine.run (wireMove W K L home proc) w ms

end Wire

end Tangent

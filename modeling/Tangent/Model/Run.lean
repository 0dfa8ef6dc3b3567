import Tangent.Machine
import Tangent.Model.Stabilize

/-!
# Runs of a server

A server reacts to packets, which `handle_packet` hands to the handler of their type with
the sender at the position its address and port hash to, and to its two timers.  A
reachable state is one a new server reaches by some list of events.
-/

namespace Tangent

/-- What can happen to a server: a packet arrives, the maintenance timer fires with the
counter of `stabilize` at `idx`, or the timer of the address discovery fires. -/
inductive Event where
  | packet (frm : Peer) (msg : Msg) (io : Io)
  | tick (idx : ℕ) (io : Io)
  | discover (io : Io)

/-- The event is a packet. -/
def Event.IsPacket : Event → Prop
  | .packet .. => True
  | _ => False

/-- The server after an event, and what it did. -/
def react (L : Library) (srv : ChordServer) : Event → Except Fault (ChordServer × List Action)
  | .packet frm msg io => (process L io srv msg (frm.node L)).map fun out => (out.srv, out.acts)
  | .tick idx io => (stabilize L io srv idx).map fun t => (t.srv, t.acts)
  | .discover io => .ok (srv, discoverAddr L io srv)

/-- The server after an event. -/
def step (L : Library) (srv : ChordServer) (e : Event) : Except Fault ChordServer :=
  (react L srv e).map Prod.fst

/-- The server after a list of events. -/
def run (L : Library) (srv : ChordServer) (es : List Event) : Except Fault ChordServer :=
  Machine.run (step L) srv es

/-- The server is in a state a new server can reach. -/
def Reachable (L : Library) (srv : ChordServer) : Prop :=
  ∃ cfg es, run L (newServer cfg) es = .ok srv

/-- A property of new servers that every event preserves holds of the reachable states. -/
theorem Reachable.invariant {L : Library} {I : ChordServer → Prop} {srv : ChordServer}
    (start : ∀ cfg, I (newServer cfg))
    (preserve : ∀ srv e srv', I srv → step L srv e = .ok srv' → I srv')
    (h : Reachable L srv) :
  I srv
  := by
  obtain ⟨cfg, es, hrun⟩ := h
  apply Machine.run_invariant (start cfg) preserve hrun

/-- The states a reachable state reaches are reachable. -/
theorem Reachable.run {L : Library} {srv srv' : ChordServer} {es : List Event}
    (h : Reachable L srv) (hrun : run L srv es = .ok srv') :
  Reachable L srv'
  := by
  obtain ⟨cfg, es₀, h₀⟩ := h
  use cfg, es₀ ++ es
  apply Machine.run_append_eq_ok.mpr
  exact ⟨srv, h₀, hrun⟩

/-- The states of a run of a new server are reachable. -/
theorem Reachable.of_visits {L : Library} {cfg : Config} {es : List Event} {srv : ChordServer}
    (h : Machine.Visits (step L) (newServer cfg) es srv) :
  Reachable L srv
  := by
  obtain ⟨es₁, -, hrun⟩ := h
  exact ⟨cfg, es₁, hrun⟩

/-- The state a new server reaches by a list of events; if they fault, a new server. -/
def runTo (L : Library) (cfg : Config) (es : List Event) : ChordServer :=
  match run L (newServer cfg) es with
  | .ok srv => srv
  | .error _ => newServer cfg

theorem Reachable.runTo (L : Library) (cfg : Config) (es : List Event) :
  Reachable L (runTo L cfg es)
  := by
  rw [Tangent.runTo]
  split
  · rename_i srv hrun
    exact ⟨cfg, es, hrun⟩
  · exact ⟨cfg, [], rfl⟩

/-! ### A sample of servers

A library whose hash is the first byte of what it is given, so that peers whose addresses
start with one byte collide, and servers that have learnt their address and got pongs from
some peers.  The first four bytes of every hash are zero, so the sample ticket verifies for
every request. -/

/-- A library whose hash is the first byte. -/
def sampleLibrary : Library where
  sha1 b := ⟨List.replicate 19 0 ++ [b.headD 0], by simp⟩
  ticketPack ticket := leBytes 4 ticket.time.toNat ++ ticket.hash
  ticketUnpack b :=
    if b.length < 4 then none
    else some ⟨UInt32.ofNat (Bytes.beNat (b.take 4).reverse), b.drop 4⟩
  freeUnpackedNull := true

/-- Clocks at zero, and memory filled with zeros. -/
def sampleIo : Io :=
  ⟨fun _ => 0, fun _ => 0, 0, fun _ => 0, false⟩

/-- The ticket `packTicket` issues at time zero with the sample library. -/
def sampleTicket : Bytes :=
  List.replicate 8 0

/-- The peer whose address starts with the bytes `b` and `c`. -/
def samplePeer (b c : UInt8) : Peer :=
  ⟨⟨b :: c :: List.replicate 14 0, by simp⟩, 1⟩

/-- A pong with the sample ticket. -/
def samplePong (p : Peer) : Event :=
  .packet p (.pong ⟨sampleTicket, 0⟩) sampleIo

/-- A notification. -/
def sampleNotify (p : Peer) : Event :=
  .packet p .notify sampleIo

/-- The settings of a server at `p`. -/
def sampleConfig (p : Peer) : Config :=
  ⟨[], true, p.port, []⟩

/-- A peer tells a server at `p` its address. -/
def sampleAddr (p : Peer) : Event :=
  .packet p (.addrDiscoverReply ⟨sampleTicket, p.addr.s6Addr⟩) sampleIo

/-- The server at `p`, after it has learnt its address and got pongs from `ps`. -/
def sampleServer (p : Peer) (ps : List Peer) : ChordServer :=
  runTo sampleLibrary (sampleConfig p) (sampleAddr p :: ps.map samplePong)

/-- The server at `p`, after it has learnt its address, with passive fingers for `qs` and active
ones for `ps`. -/
def sampleMixed (p : Peer) (qs ps : List Peer) : ChordServer :=
  runTo sampleLibrary (sampleConfig p)
    (sampleAddr p :: (qs.map sampleNotify ++ ps.map samplePong))

theorem sampleServer_reachable (p : Peer) (ps : List Peer) :
  Reachable sampleLibrary (sampleServer p ps)
  := Reachable.runTo ..

theorem sampleMixed_reachable (p : Peer) (qs ps : List Peer) :
  Reachable sampleLibrary (sampleMixed p qs ps)
  := Reachable.runTo ..

end Tangent

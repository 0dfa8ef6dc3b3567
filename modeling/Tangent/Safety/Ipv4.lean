import Tangent.Model.Dispatcher
import Tangent.Network.Sends

/-!
# Servers of version 4

A server with a socket of version 4 sends to V4-mapped addresses only; `send_raw_v4` asserts it.
The addresses come from the well-known nodes, from the senders of packets, which are V4-mapped
since they came through the socket, and from the fields of messages, which may hold any address.
So the assertion holds in every run in which the peers the server takes from messages are
V4-mapped.
-/

namespace Tangent

variable {L : Library} {srv srv' : ChordServer} {e : Event} {acts : List Action} {pkt : Packet}

/-- The addresses a server has in store are V4-mapped. -/
structure V4Table (srv : ChordServer) : Prop where
  wellKnown : ∀ p ∈ srv.wellKnown, p.addr.v4Mapped = true
  fingers : ∀ f ∈ srv.flist, f.node.addr.v4Mapped = true

/-- The sender of a packet has a V4-mapped address. -/
def fromV4 : Event → Prop
  | .packet frm _ _ => frm.addr.v4Mapped = true
  | _ => True

/-- The peer the server takes from the message of a packet, if it takes one, has a V4-mapped
address. -/
def takesV4 (L : Library) (srv : ChordServer) : Event → Prop
  | .packet _ msg io => ∀ p, TakesPeer L io srv msg p → p.addr.v4Mapped = true
  | _ => True

theorem V4Table.known (h : V4Table srv) {p : Peer} (hp : Known srv p) :
  p.addr.v4Mapped = true
  := by
  rcases hp with hp | ⟨f, hf, rfl⟩
  · exact h.wellKnown p hp
  · exact h.fingers f hf

/-- A step that takes no other address keeps the addresses in store V4-mapped. -/
theorem V4Table.step (h : V4Table srv) (hinv : TableInv L srv) (hfrm : fromV4 e)
    (htakes : takesV4 L srv e) (hs : Tangent.step L srv e = .ok srv') :
  V4Table srv'
  := by
  have hset := (step_steps hinv hs).settings_eq
  simp only [ChordServer.settings, Prod.mk.injEq] at hset
  constructor
  · rw [hset.2.2.2]
    exact h.wellKnown
  · intro g hg
    rw [Tangent.step, Except.map_eq_ok] at hs
    obtain ⟨⟨srv₁, acts⟩, hs, rfl⟩ := hs
    cases e with
    | packet frm msg io =>
        obtain ⟨out, ho, heq⟩ := Except.map_eq_ok.mp hs
        cases heq
        obtain ⟨f, hf, hnode⟩ | ⟨p, rfl | hp, hnode⟩ := process_mem_taken hinv ho hg
        · rw [← hnode]
          exact h.fingers f hf
        · rw [hnode]
          exact hfrm
        · rw [hnode]
          exact htakes p hp
    | tick idx io =>
        obtain ⟨t, ht, heq⟩ := Except.map_eq_ok.mp hs
        cases heq
        obtain ⟨f, hf, hnode, -⟩ := stabilize_mem hinv ht hg
        rw [← hnode]
        exact h.fingers f hf
    | discover io =>
        cases hs
        exact h.fingers g hg

/-- A step that takes no other address sends to V4-mapped addresses. -/
theorem V4Table.sends (h : V4Table srv) (hinv : TableInv L srv) (hfrm : fromV4 e)
    (htakes : takesV4 L srv e) (hreact : react L srv e = .ok (srv', acts)) :
  Sends (fun pkt => pkt.toAddr.v4Mapped = true) acts
  := by
  have hs : Tangent.step L srv e = .ok srv' := Except.map_eq_ok.mpr ⟨_, hreact, rfl⟩
  have hafter := h.step hinv hfrm htakes hs
  cases e with
  | packet frm msg io =>
      obtain ⟨out, ho, heq⟩ := Except.map_eq_ok.mp hreact
      cases heq
      intro pkt hpkt
      obtain hp | ⟨f, hf, hp⟩ | ⟨f, hf, hp⟩ | hp := process_sends hinv ho pkt hpkt
      · have hv4 : frm.addr.v4Mapped = true := hfrm
        rw [← hp] at hv4
        exact hv4
      · have hv4 := h.fingers f hf
        rw [show f.node.addr = pkt.toAddr from congrArg Peer.addr hp] at hv4
        exact hv4
      · have hv4 := hafter.fingers f hf
        rw [show f.node.addr = pkt.toAddr from congrArg Peer.addr hp] at hv4
        exact hv4
      · exact htakes pkt.dst hp
  | tick idx io =>
      obtain ⟨t, ht, heq⟩ := Except.map_eq_ok.mp hreact
      cases heq
      intro pkt hpkt
      exact h.known (stabilize_sends hinv ht pkt hpkt).1
  | discover io =>
      cases hreact
      intro pkt hpkt
      exact h.wellKnown _ (discoverAddr_sends pkt hpkt)

/-! ### Runs -/

variable {cfg : Config} {es : List Event}

/-- The packets of a run came through the socket of the server. -/
def ThroughSocket (cfg : Config) (es : List Event) : Prop :=
  ∀ frm msg io, Event.packet frm msg io ∈ es →
    ∃ src : Source, src.fits (newServer cfg) ∧ src.peer = frm

theorem ThroughSocket.fromV4 (h : ThroughSocket cfg es) (hv4 : cfg.isV6 = false) (he : e ∈ es) :
  fromV4 e
  := by
  cases e with
  | packet frm msg io =>
      obtain ⟨src, hfits, rfl⟩ := h frm msg io he
      cases src with
      | in6 addr port =>
          have hv6 : cfg.isV6 = true := hfits
          rw [hv4] at hv6
          cases hv6
      | in4 addr port => exact v4Mapped_toV6Addr addr
  | tick idx io => trivial
  | discover io => trivial

/-- In every run of a server of version 4 with V4-mapped well-known nodes in which the peers it
takes from messages are V4-mapped, every packet is sent to a V4-mapped address, and the
assertion of `send_raw_v4` holds. -/
theorem v4_server_sends_to_v4 (hv4 : cfg.isV6 = false)
    (hwell : ∀ p ∈ cfg.wellKnown, p.addr.v4Mapped = true) (hsocket : ThroughSocket cfg es)
    (htakes : ∀ srv e, Machine.Meets (step L) (newServer cfg) es srv e → takesV4 L srv e) :
  ∀ srv e srv' acts, Machine.Meets (step L) (newServer cfg) es srv e →
    react L srv e = .ok (srv', acts) → ∀ pkt, .send pkt ∈ acts →
      pkt.toAddr.v4Mapped = true ∧ sendFunc srv pkt = .ok ()
  := by
  have hmem : ∀ {srv e}, Machine.Meets (step L) (newServer cfg) es srv e → e ∈ es := by
    rintro srv e ⟨es₁, hpre, -⟩
    exact hpre.subset (by simp)
  have htable : ∀ {srv}, Machine.Visits (step L) (newServer cfg) es srv → V4Table srv := by
    intro srv hvisits
    apply hvisits.induction (P := V4Table)
    · constructor
      · exact hwell
      · intro f hf
        cases hf
    · intro s₁ e s₂ hmeets h hs
      apply h.step (Reachable.of_visits hmeets.visits).tableInv
        (hsocket.fromV4 hv4 (hmem hmeets)) (htakes s₁ e hmeets) hs
  intro srv e srv' acts hmeets hreact pkt hpkt
  have hmapped := (htable hmeets.visits).sends (Reachable.of_visits hmeets.visits).tableInv
    (hsocket.fromV4 hv4 (hmem hmeets)) (htakes srv e hmeets) hreact pkt hpkt
  use hmapped
  rw [sendFunc, if_pos hmapped]
  split
  · rfl
  · rfl

/-! ### A sample -/

/-- The source with the IPv4 address 10.0.0.`b`. -/
def sampleSource (b : UInt8) : Source :=
  .in4 (10 + 16777216 * b.toUInt32) 1

/-- The settings of a server of version 4. -/
def sampleConfigV4 : Config :=
  ⟨[], false, 1, [(sampleSource 2).peer]⟩

/-- A server of version 4 learns its address and is asked for the successor of a peer. -/
def sampleRunV4 (p : Peer) : List Event :=
  [.packet (sampleSource 2).peer
      (.addrDiscoverReply ⟨sampleTicket, (sampleSource 1).peer.addr.s6Addr⟩) sampleIo,
    .packet (sampleSource 2).peer (.fs ⟨sampleTicket, 32, p.addr.s6Addr, p.port.toUInt32⟩)
      sampleIo]

theorem sampleRunV4_throughSocket (p : Peer) :
  ThroughSocket sampleConfigV4 (sampleRunV4 p)
  := by
  intro frm msg io hmem
  simp only [sampleRunV4, List.mem_cons, Event.packet.injEq, List.not_mem_nil, or_false] at hmem
  rcases hmem with ⟨rfl, -⟩ | ⟨rfl, -⟩
  · exact ⟨sampleSource 2, rfl, rfl⟩
  · exact ⟨sampleSource 2, rfl, rfl⟩

/-- A server of version 4 that is asked by a peer with an IPv4 address answers to that
address. -/
theorem v4_server_sends_to_v4_sample :
  ∃ srv e srv' pkt, Machine.Meets (step sampleLibrary) (newServer sampleConfigV4)
      (sampleRunV4 (sampleSource 3).peer) srv e ∧
    react sampleLibrary srv e = .ok (srv', [.send pkt]) ∧
    pkt.toAddr.v4Mapped = true ∧ sendFunc srv pkt = .ok ()
  := by
  have hsends : ∀ srv e srv' acts, Machine.Meets (step sampleLibrary) (newServer sampleConfigV4)
      (sampleRunV4 (sampleSource 3).peer) srv e →
        react sampleLibrary srv e = .ok (srv', acts) → ∀ pkt, .send pkt ∈ acts →
          pkt.toAddr.v4Mapped = true ∧ sendFunc srv pkt = .ok () := by
    apply v4_server_sends_to_v4 rfl
    · intro p hp
      rw [List.mem_singleton.mp hp]
      exact v4Mapped_toV6Addr _
    · apply sampleRunV4_throughSocket
    · intro srv e hmeets
      rcases Machine.meets_cons_iff.mp hmeets with ⟨-, rfl⟩ | ⟨s₁, -, hmeets⟩
      · rintro p ⟨⟩
      · rcases Machine.meets_cons_iff.mp hmeets with ⟨-, rfl⟩ | ⟨s₂, -, hmeets⟩
        · rintro p ⟨⟩
          decide
        · exact absurd hmeets Machine.not_meets_nil
  have hmeets : Machine.Meets (step sampleLibrary) (newServer sampleConfigV4)
      (sampleRunV4 (sampleSource 3).peer)
      (runTo sampleLibrary sampleConfigV4 ((sampleRunV4 (sampleSource 3).peer).take 1))
      (.packet (sampleSource 2).peer
        (.fs ⟨sampleTicket, 32, (sampleSource 3).peer.addr.s6Addr, 1⟩) sampleIo) :=
    ⟨(sampleRunV4 (sampleSource 3).peer).take 1, List.prefix_rfl, rfl⟩
  refine ⟨_, _, _, _, hmeets, rfl, ?_⟩
  exact hsends _ _ _ _ hmeets rfl _ (List.mem_singleton.mpr rfl)

/-- A server of version 4 that is asked by a peer with an IPv6 address answers to that address,
and the assertion of `send_raw_v4` fails. -/
theorem v4_server_sends_to_v6 :
  ∃ srv e srv' pkt, Machine.Meets (step sampleLibrary) (newServer sampleConfigV4)
      (sampleRunV4 (samplePeer 1 0)) srv e ∧
    react sampleLibrary srv e = .ok (srv', [.send pkt]) ∧
    pkt.toAddr.v4Mapped = false ∧ sendFunc srv pkt = .error .assertion
  := by
  refine ⟨runTo sampleLibrary sampleConfigV4 ((sampleRunV4 (samplePeer 1 0)).take 1),
    .packet (sampleSource 2).peer
      (.fs ⟨sampleTicket, 32, (samplePeer 1 0).addr.s6Addr, 1⟩) sampleIo, _, _, ?_, rfl, ?_, ?_⟩
  · exact ⟨(sampleRunV4 (samplePeer 1 0)).take 1, List.prefix_rfl, rfl⟩
  · decide
  · decide

end Tangent

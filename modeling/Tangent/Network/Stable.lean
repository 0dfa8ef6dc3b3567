import Mathlib.Logic.Function.Basic
import Mathlib.Logic.Relation
import Tangent.Network.Table

/-!
# A stable ring stays stable

A network is a family of servers and the datagrams in flight.  A datagram can be delivered,
lost or duplicated, and the timer of a server can fire.  In a stable network every table is
stable, and the datagrams in flight come from members and name members.  As long as no ping
drops a successor or a predecessor, a stable network stays stable, and no server ever changes
its successor, its predecessor or its range.
-/

namespace Tangent

/-! ### Networks -/

/-- A packet on its way. -/
structure Datagram where
  src : Peer
  dst : Peer
  msg : Msg
  deriving DecidableEq

/-- Servers, and the packets on their way. -/
structure Net (ι : Type*) where
  servers : ι → ChordServer
  flight : List Datagram

/-- The packets a server at `src` sends. -/
def datagrams (src : Peer) (acts : List Action) : List Datagram :=
  acts.filterMap fun a =>
    match a with
    | .send pkt => some ⟨src, ⟨pkt.toAddr, pkt.toPort⟩, pkt.msg⟩
    | .upcall .. => none

section Net

variable {ι : Type*}

/-- A step of a network. -/
inductive NetStep [DecidableEq ι] (L : Library) : Net ι → Net ι → Prop where
  | deliver {net : Net ι} {srv : ChordServer} {acts : List Action} (i : ι) (d : Datagram)
      (io : Io) (mem : d ∈ net.flight) (dst : (net.servers i).node.peer = d.dst)
      (reacts : react L (net.servers i) (.packet d.src d.msg io) = .ok (srv, acts)) :
      NetStep L net ⟨Function.update net.servers i srv,
        net.flight.erase d ++ datagrams (net.servers i).node.peer acts⟩
  | lose {net : Net ι} (d : Datagram) :
      NetStep L net ⟨net.servers, net.flight.erase d⟩
  | duplicate {net : Net ι} (d : Datagram) (mem : d ∈ net.flight) :
      NetStep L net ⟨net.servers, d :: net.flight⟩
  | tick {net : Net ι} {srv : ChordServer} {acts : List Action} (i : ι) (idx : ℕ) (io : Io)
      (keeps : pingKeeps L io (net.servers i))
      (reacts : react L (net.servers i) (.tick idx io) = .ok (srv, acts)) :
      NetStep L net ⟨Function.update net.servers i srv,
        net.flight ++ datagrams (net.servers i).node.peer acts⟩

/-- The datagram comes from a member, and the peer it names, if it names one, is a
member. -/
def Produced (n : ι → Node) (d : Datagram) : Prop :=
  IsMember n d.src ∧ d.msg.Names (IsMember n)

/-- The servers are the members `n` of a ring; each satisfies the invariant of the finger
table, its table contains members only, its first finger is its successor and its last finger
its predecessor, both active, and what is in flight was produced by members. -/
structure StableNet (L : Library) {n : ι → Node} (ids : Function.Injective fun i => (n i).id)
    (net : Net ι) : Prop where
  inv : ∀ i, TableInv L (net.servers i)
  node : ∀ i, (net.servers i).node = n i
  table : ∀ i, ∀ f ∈ (net.servers i).flist, ∃ j, f.node = n j
  first : ∀ i j, (placement ids).IsSucc i j →
    (net.servers i).flist.head?.map (fun f => (f.node, f.isActive)) = some (n j, true)
  last : ∀ i j, (placement ids).IsPred i j →
    (net.servers i).flist.getLast?.map (fun f => (f.node, f.isActive)) = some (n j, true)
  flight : ∀ d ∈ net.flight, Produced n d

variable {L : Library} {n : ι → Node} {ids : Function.Injective fun i => (n i).id}
  {net net' : Net ι} {i : ι} {srv : ChordServer} {acts : List Action}

theorem mem_datagrams {src : Peer} {d : Datagram} (h : d ∈ datagrams src acts) :
  d.src = src ∧ ∃ pkt, .send pkt ∈ acts ∧ d.msg = pkt.msg
  := by
  obtain ⟨a, ha, heq⟩ := List.mem_filterMap.mp h
  cases a with
  | send pkt =>
      cases heq
      exact ⟨rfl, pkt, ha, rfl⟩
  | upcall id data => cases heq

theorem StableNet.of_stableTable (h : ∀ i, StableTable L ids i (net.servers i))
    (flight : ∀ d ∈ net.flight, Produced n d) :
  StableNet L ids net
  := by
  constructor
  · intro i
    apply (h i).inv
  · intro i
    apply (h i).node
  · intro i
    apply (h i).table
  · intro i j hj
    obtain ⟨k, f, hk, hf, hactive, hnode⟩ := (h i).first
    rw [hf, Option.map_some, hactive, hnode, hk.unique hj]
  · intro i j hj
    obtain ⟨k, f, hk, hf, hactive, hnode⟩ := (h i).last
    rw [hf, Option.map_some, hactive, hnode, hk.unique hj]
  · exact flight

section Stable

variable [Finite ι] [Nontrivial ι]

theorem StableNet.stableTable (h : StableNet L ids net) (i : ι) :
  StableTable L ids i (net.servers i)
  := by
  obtain ⟨k, hk⟩ := exists_ne i
  have hactive : ∀ f ∈ (net.servers i).flist, f.isActive = true →
      f.node.id ∈ activeIds (net.servers i) := by
    intro f hf hfa
    apply List.mem_map.mpr
    exact ⟨f, List.mem_filter.mpr ⟨hf, hfa⟩, rfl⟩
  constructor
  · apply h.inv
  · apply h.node
  · apply h.table
  · obtain ⟨j, hj⟩ := (placement ids).exists_isSucc hk
    obtain ⟨f, hf, heq⟩ := Option.map_eq_some_iff.mp (h.first i j hj)
    rw [Prod.mk.injEq] at heq
    use j, hj
    rw [← heq.1]
    apply hactive f (List.mem_of_head? hf) heq.2
  · obtain ⟨j, hj⟩ := (placement ids).exists_isPred hk
    obtain ⟨f, hf, heq⟩ := Option.map_eq_some_iff.mp (h.last i j hj)
    rw [Prod.mk.injEq] at heq
    use j, hj
    rw [← heq.1]
    apply hactive f (List.mem_of_getLast? hf) heq.2

/-- The members of a stable network are at the positions their peers hash to. -/
theorem StableNet.node_eq (h : StableNet L ids net) (j : ι) :
  (n j).peer.node L = n j
  := by
  have hpos := (h.inv j).position (h.stableTable j).discovered
  rw [h.node j] at hpos
  exact hpos.symm

variable [DecidableEq ι]

/-- A network stays stable if one server goes to a stable state and sends messages that name
members. -/
theorem StableNet.update (h : StableNet L ids net) (hsrv : StableTable L ids i srv)
    (hacts : NamesAll (IsMember n) acts) {flight : List Datagram} (hflight : flight ⊆ net.flight) :
  StableNet L ids ⟨Function.update net.servers i srv,
    flight ++ datagrams (net.servers i).node.peer acts⟩
  := by
  apply StableNet.of_stableTable
  · intro j
    by_cases hj : j = i
    · subst hj
      simpa using hsrv
    · simpa [hj] using h.stableTable j
  · intro d hd
    rcases List.mem_append.mp hd with hd | hd
    · apply h.flight d (hflight hd)
    · obtain ⟨hsrc, pkt, hpkt, hmsg⟩ := mem_datagrams hd
      constructor
      · exact ⟨i, by rw [hsrc, h.node]⟩
      · rw [hmsg]
        apply hacts pkt hpkt

/-- A step of a network keeps it stable. -/
theorem StableNet.step (h : StableNet L ids net) (hs : NetStep L net net') :
  StableNet L ids net'
  := by
  cases hs with
  | deliver i d io mem dst reacts =>
      obtain ⟨out, ho, heq⟩ := Except.map_eq_ok.mp reacts
      cases heq
      obtain ⟨hsrc, hmsg⟩ := h.flight d mem
      have hold := h.stableTable i
      have hnew := hold.packet h.node_eq hsrc (fun p hp => hmsg.named hsrc hp) ho
      apply h.update hnew _ List.erase_subset
      apply process_names hmsg _ hold.fingers_isMember hnew.fingers_isMember ho
      exact ⟨i, by rw [h.node]⟩
  | lose d =>
      apply StableNet.of_stableTable
      · apply h.stableTable
      · intro d' hd'
        apply h.flight d' (List.mem_of_mem_erase hd')
  | duplicate d mem =>
      apply StableNet.of_stableTable
      · apply h.stableTable
      · intro d' hd'
        rcases List.mem_cons.mp hd' with rfl | hd'
        · apply h.flight d' mem
        · apply h.flight d' hd'
  | tick i idx io keeps reacts =>
      obtain ⟨t, ht, heq⟩ := Except.map_eq_ok.mp reacts
      cases heq
      apply h.update ((h.stableTable i).tick keeps ht) _ (List.Subset.refl _)
      apply stabilize_names _ (h.inv i) ht
      exact ⟨i, by rw [h.node]⟩

/-- From a stable network of at least two servers, every state that deliveries, losses and
duplications of datagrams and ticks lead to is stable, as long as no ping drops a successor or
a predecessor; and every server has the successor, the predecessor and the range it had. -/
theorem stable_ring_stays_stable (h : StableNet L ids net)
    (hs : Relation.ReflTransGen (NetStep L) net net') :
  StableNet L ids net' ∧
    ∀ i, (succFinger (net'.servers i)).map (·.node) = (succFinger (net.servers i)).map (·.node) ∧
      (predFinger (net'.servers i)).map (·.node) = (predFinger (net.servers i)).map (·.node) ∧
      ∀ x, chordIdIsLocal (net'.servers i) x = chordIdIsLocal (net.servers i) x
  := by
  have hstable : StableNet L ids net' := by
    induction hs with
    | refl => exact h
    | tail _ hstep ih => apply ih.step hstep
  use hstable
  intro i
  apply (h.stableTable i).same (hstable.stableTable i)

end Stable

end Net

/-- Three servers, with a ping from the second to the first in flight. -/
def sampleNet : Net (Fin 3) :=
  ⟨sampleRing, [⟨samplePeer 20 0, samplePeer 10 0, .ping ⟨sampleTicket, 0⟩⟩]⟩

theorem sampleNet_stable :
  StableNet sampleLibrary sampleRing_stable.ids sampleNet
  where
  inv i := (sampleRing_reachable i).tableInv
  node i := rfl
  table := by decide
  first := by decide
  last := by decide
  flight := by
    intro d hd
    rw [sampleNet, List.mem_singleton] at hd
    subst hd
    exact ⟨⟨1, rfl⟩, trivial⟩

/-- The ping is answered by a pong, and the network is stable. -/
theorem stable_ring_stays_stable_sample :
  ∃ net, NetStep sampleLibrary sampleNet net ∧
    net.flight = [⟨samplePeer 10 0, samplePeer 20 0, .pong ⟨sampleTicket, 0⟩⟩] ∧
    StableNet sampleLibrary sampleRing_stable.ids net
  := by
  have hstep : NetStep sampleLibrary sampleNet _ :=
    .deliver 0 ⟨samplePeer 20 0, samplePeer 10 0, .ping ⟨sampleTicket, 0⟩⟩ sampleIo
      List.mem_cons_self rfl rfl
  refine ⟨_, hstep, ?_, (stable_ring_stays_stable sampleNet_stable (.single hstep)).1⟩
  decide

end Tangent

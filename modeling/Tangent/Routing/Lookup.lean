import Tangent.Routing.Delivery

/-!
# Lookups in a stable ring

A lookup that starts at any server but the one that asks is forwarded to closest preceding
fingers until a server finds that the position lies between itself and its successor.  That
server answers, and the answer names the owner of the position.
-/

namespace Tangent

variable {ι : Type*} {L : Library} {σ : ι → ChordServer} {i j o : ι} {p : Peer} {ticket : Bytes}

/-- A lookup for the peer `p` with the given ticket that arrives at `i` is answered with the
server `o`: either `i` sends `p` a reply that carries the ticket and names `o`, and does
nothing else, or `i` sends one copy of the lookup to another server and does nothing else,
and the copy is answered with `o`. -/
inductive Answered (L : Library) (σ : ι → ChordServer) (p : Peer) (ticket : Bytes) :
    ι → FindSuccessor → ι → Prop where
  | here {i o : ι} {msg : FindSuccessor}
      (reply : ∀ io frm, processFs L io (σ i) msg frm
        = .ok ⟨σ i, [.send ⟨p.addr, p.port,
            .fsReply ⟨ticket, (σ o).node.addr.s6Addr, (σ o).node.port.toUInt32⟩⟩], .noError⟩) :
      Answered L σ p ticket i msg o
  | forward {i j o : ι} {msg m : FindSuccessor}
      (sent : ∀ io frm, processFs L io (σ i) msg frm
        = .ok ⟨σ i, [.send ⟨(σ j).node.addr, (σ j).node.port, .fs m⟩], .noError⟩)
      (onward : Answered L σ p ticket j m o) :
      Answered L σ p ticket i msg o

/-! ### One server -/

/-- What a server does with a lookup that is not its own. -/
theorem processFs_eq {io : Io} {srv : ChordServer} {msg : FindSuccessor} {frm : Node}
    (hd : srv.Discovered) (hne : msg.addr ≠ []) (hp : msg.requester io = p)
    (hother : p ≠ srv.node.peer) (httl : msg.ttl - 1 ≠ 0) :
  processFs L io srv msg frm
    = .ok ⟨srv,
        match succFinger srv with
        | none =>
            sendFsReply [] msg.ticket p.addr p.port srv.node.addr srv.node.port
        | some succ =>
            if idIsBetween (p.node L).id srv.node.id succ.node.id
                || idEquals (p.node L).id succ.node.id then
              sendFsReply [] msg.ticket p.addr p.port succ.node.addr succ.node.port
            else
              sendFsForward [] msg.ticket (msg.ttl - 1).toUInt8
                (closestPrecedingNode srv (p.node L).id false).addr
                (closestPrecedingNode srv (p.node L).id false).port p.addr p.port,
        .noError⟩
  := by
  obtain ⟨addr, port⟩ := p
  rw [FindSuccessor.requester, Peer.mk.injEq] at hp
  obtain ⟨haddr, hport⟩ := hp
  have hcopy : v6AddrSet msg.addr io.behind = .ok addr := v6AddrSet_eq_ok.mpr ⟨hne, haddr⟩
  rw [ChordServer.Discovered] at hd
  rw [ne_eq, Node.peer_eq_iff] at hother
  simp only [processFs, hd, hcopy, Except.ok_bind, hport, httl, hother, Bool.false_eq_true,
    if_false]
  cases succFinger srv with
  | none => rfl
  | some s =>
      cases hid : idIsBetween (getAddressId L addr port) srv.node.id s.node.id
          || idEquals (getAddressId L addr port) s.node.id with
      | true => simp [Peer.node, hid]
      | false => simp [Peer.node, hid]

/-- The address of a lookup whose requester does not depend on what lies behind it is there. -/
theorem FindSuccessor.addr_ne_nil {msg : FindSuccessor} (h : ∀ io, msg.requester io = p) :
  msg.addr ≠ []
  := by
  have haddr : ∀ behind, fieldAddr msg.addr behind = p.addr :=
    fun behind => congrArg Peer.addr (h { sampleIo with behind })
  exact ne_nil_of_fieldAddr haddr

/-- A server of the ring answers a lookup that is not its own with the owner of the
position, or forwards it to a server that is nearer to the position and not the one that
asks. -/
theorem LookupRing.processFs_cases [Finite ι] (h : LookupRing L σ) {msg : FindSuccessor}
    (hp : ∀ io, msg.requester io = p) (hother : p ≠ (σ i).node.peer) (httl : msg.ttl - 1 ≠ 0) :
  (∃ o, IsOwner σ (p.node L).id o ∧ ∀ io frm, processFs L io (σ i) msg frm
    = .ok ⟨σ i, [.send ⟨p.addr, p.port,
        .fsReply ⟨msg.ticket, (σ o).node.addr.s6Addr, (σ o).node.port.toUInt32⟩⟩], .noError⟩) ∨
  ∃ j, p ≠ (σ j).node.peer ∧
    ChordID.arc (σ j).node.id (p.node L).id < ChordID.arc (σ i).node.id (p.node L).id ∧
    ∀ io frm, processFs L io (σ i) msg frm
      = .ok ⟨σ i, [.send ⟨(σ j).node.addr, (σ j).node.port,
          .fs ⟨msg.ticket, (msg.ttl - 1).toUInt8.toUInt32, p.addr.s6Addr, p.port.toUInt32⟩⟩],
          .noError⟩
  := by
  have heq : ∀ io frm, processFs L io (σ i) msg frm = _ :=
    fun io _ => processFs_eq (h.discovered i) (FindSuccessor.addr_ne_nil hp) (hp io) hother httl
  cases hs : succFinger (σ i) with
  | none =>
      left
      use i
      constructor
      · intro k
        have hk : k = i := by
          by_contra hne
          obtain ⟨j, hj⟩ := (placement h.ids).exists_isSucc hne
          have := h.succ i j hj
          simp [hs] at this
        rw [hk]
      · intro io frm
        rw [heq io frm, hs]
        rfl
  | some s =>
      cases hid : idIsBetween (p.node L).id (σ i).node.id s.node.id
          || idEquals (p.node L).id s.node.id with
      | true =>
          left
          obtain ⟨o, ho, howner⟩ := h.isOwner_succ hs (between_or_equals_iff.mp hid)
          use o, howner
          intro io frm
          rw [heq io frm, hs, ← ho]
          simp only [hid, if_true]
          rfl
      | false =>
          right
          have hid' := hid
          rw [Bool.eq_false_iff, ne_eq, between_or_equals_iff] at hid'
          obtain ⟨g, hg, hnode⟩ := exists_closestPrecedingFinger hs hid'
          obtain ⟨hmem, hactive, hlt⟩ := closestPrecedingFinger_mem hg
          obtain ⟨j, hj⟩ := h.active i g hmem hactive
          rw [hj] at hlt hnode
          use j
          refine ⟨?_, ChordID.arc_lt_of_lt hlt, ?_⟩
          · intro heq
            rw [(h.inv j).position (h.discovered j), ← heq] at hlt
            exact lt_irrefl _ hlt
          · intro io frm
            rw [heq io frm, hs, hnode]
            simp only [hid, Bool.false_eq_true, if_false]
            rfl

/-! ### The way of a lookup -/

/-- Servers of the ring are told apart by their addresses and ports. -/
theorem LookupRing.eq_of_peer_eq (h : LookupRing L σ)
    (hpeer : (σ i).node.peer = (σ j).node.peer) :
  i = j
  := by
  apply h.ids
  show (σ i).node.id = (σ j).node.id
  rw [(h.inv i).position (h.discovered i), (h.inv j).position (h.discovered j), hpeer]

/-- A server drops a lookup without hops left. -/
theorem processFs_expired {io : Io} {srv : ChordServer} {msg : FindSuccessor} {frm : Node}
    (hd : srv.Discovered) (hne : msg.addr ≠ []) (httl : msg.ttl - 1 = 0) :
  processFs L io srv msg frm = .ok ⟨srv, [], .ttlExpired⟩
  := by
  rw [ChordServer.Discovered] at hd
  simp [processFs, hd, v6AddrSet_of_ne hne, httl]

/-- Whatever the hops left, a lookup is answered with no server but the owner of the position. -/
theorem LookupRing.isOwner_of_answered [Finite ι] (h : LookupRing L σ) {msg : FindSuccessor}
    (ha : Answered L σ p ticket i msg o) (hp : ∀ io, msg.requester io = p)
    (hother : p ≠ (σ i).node.peer) :
  IsOwner σ (p.node L).id o
  := by
  induction ha with
  | @here i o msg reply =>
      have hr := reply sampleIo ⟨0, 0, 0⟩
      by_cases httl : msg.ttl - 1 = 0
      · rw [processFs_expired (h.discovered i) (FindSuccessor.addr_ne_nil hp) httl] at hr
        cases hr
      obtain ⟨o', ho', hreply⟩ | ⟨j, -, -, hsent⟩ := h.processFs_cases hp hother httl
      · have hr' := hr.symm.trans (hreply sampleIo ⟨0, 0, 0⟩)
        simp only [Except.ok.injEq, Outcome.mk.injEq, List.cons.injEq, Action.send.injEq,
          Packet.mk.injEq, Msg.fsReply.injEq, FindSuccessorReply.mk.injEq, true_and, and_true,
          ← In6Addr.ext_iff, UInt16.toUInt32_inj] at hr'
        have hpeer : (σ o).node.peer = (σ o').node.peer := by
          rw [Node.peer, Node.peer, hr'.2.1, hr'.2.2]
        rw [h.eq_of_peer_eq hpeer]
        exact ho'
      · have hr' := hr.symm.trans (hsent sampleIo ⟨0, 0, 0⟩)
        simp at hr'
  | @forward i j o msg m sent onward ih =>
      have hs := sent sampleIo ⟨0, 0, 0⟩
      by_cases httl : msg.ttl - 1 = 0
      · rw [processFs_expired (h.discovered i) (FindSuccessor.addr_ne_nil hp) httl] at hs
        cases hs
      obtain ⟨o', -, hreply⟩ | ⟨j', hj', -, hsent⟩ := h.processFs_cases hp hother httl
      · have hs' := hs.symm.trans (hreply sampleIo ⟨0, 0, 0⟩)
        simp at hs'
      · have hs' := hs.symm.trans (hsent sampleIo ⟨0, 0, 0⟩)
        simp only [Except.ok.injEq, Outcome.mk.injEq, List.cons.injEq, Action.send.injEq,
          Packet.mk.injEq, Msg.fs.injEq, true_and, and_true] at hs'
        obtain ⟨haddr, hport, rfl⟩ := hs'
        have hpeer : (σ j).node.peer = (σ j').node.peer := by
          rw [Node.peer, Node.peer, haddr, hport]
        obtain rfl := h.eq_of_peer_eq hpeer
        apply ih _ hj'
        intro io
        simp [FindSuccessor.requester]

/-- A lookup with enough hops left is answered with the owner of the position. -/
theorem LookupRing.answered [Fintype ι] (h : LookupRing L σ)
    (ho : IsOwner σ (p.node L).id o) {msg : FindSuccessor} (hticket : msg.ticket = ticket)
    (hp : ∀ io, msg.requester io = p) (hother : p ≠ (σ i).node.peer)
    (hops : Clockwise.rank (fun k => ChordID.arc (σ k).node.id (p.node L).id) i + 2
      ≤ msg.ttl.toNat)
    (h₂₅₅ : msg.ttl.toNat ≤ 255) :
  Answered L σ p ticket i msg o
  := by
  induction hn : Clockwise.rank (fun k => ChordID.arc (σ k).node.id (p.node L).id) i
    using Nat.strong_induction_on generalizing i msg with
  | _ n ih =>
      obtain ⟨httl, httl'⟩ := ttl_sub_one (by omega) h₂₅₅
      obtain ⟨o', ho', hreply⟩ | ⟨j, hj, hlt, hsent⟩ := h.processFs_cases hp hother httl
      · obtain rfl := h.isOwner_unique ho ho'
        rw [hticket] at hreply
        apply Answered.here hreply
      · have hrank := Clockwise.rank_lt_rank
          (f := fun k => ChordID.arc (σ k).node.id (p.node L).id) hlt
        apply Answered.forward hsent
        apply ih _ _ _ _ hj _ _ rfl
        · omega
        · exact hticket
        · intro io
          simp [FindSuccessor.requester]
        · simp only [httl']
          omega
        · simp only [httl']
          omega

end Tangent

import Tangent.Network.Sends

/-!
# The peers a message names

Stabilize messages and the replies to them and to lookups name a peer, which the receiver
inserts.  The handlers and the timer name nobody but the server itself and its fingers.
-/

namespace Tangent

variable {L : Library} {io : Io} {srv srv' : ChordServer} {frm p : Peer} {msg : Msg}
  {out : Outcome} {acts : List Action} {r : Inserted} {f g : Finger} {Q : Peer → Prop}

/-- The message is one of those the servers of a ring exchange, and the peer it names, if it
names one, satisfies `Q`. -/
def Msg.Names (Q : Peer → Prop) : Msg → Prop
  | .fs _ => True
  | .fsReply m => ∃ p, Q p ∧ m.addr = p.addr.s6Addr ∧ m.port = p.port.toUInt32
  | .stab m => ∃ p, Q p ∧ m = ⟨p.addr.s6Addr, p.port.toUInt32⟩
  | .stabReply m => ∃ p, Q p ∧ m = ⟨p.addr.s6Addr, p.port.toUInt32⟩
  | .notify => True
  | .ping _ => True
  | .pong _ => True
  | _ => False

/-- The peer a handler inserts is the one the message names, or the sender. -/
theorem Msg.Names.named (h : msg.Names Q) (hfrm : Q frm) (hp : msg.named io frm = some p) :
  Q p
  := by
  cases msg with
  | fsReply m =>
      obtain ⟨q, hq, haddr, hport⟩ := h
      cases hp
      simpa [haddr, hport] using hq
  | stab m =>
      obtain ⟨q, hq, rfl⟩ := h
      cases hp
      simpa using hq
  | stabReply m =>
      obtain ⟨q, hq, rfl⟩ := h
      cases hp
      simpa using hq
  | notify =>
      cases hp
      exact hfrm
  | ping m =>
      cases hp
      exact hfrm
  | fs m => cases hp
  | pong m => cases hp
  | addrDiscover m => cases hp
  | addrDiscoverReply m => cases hp
  | data m => cases hp

/-- What is sent names peers that satisfy `Q`. -/
def NamesAll (Q : Peer → Prop) (acts : List Action) : Prop :=
  ∀ pkt, .send pkt ∈ acts → pkt.msg.Names Q

theorem NamesAll.nil :
  NamesAll Q []
  := by
  intro pkt hpkt
  cases hpkt

theorem NamesAll.sendPacket (h : NamesAll Q acts) (hmsg : msg.Names Q) (addr : In6Addr)
    (port : UInt16) :
  NamesAll Q (sendPacket acts addr port msg)
  := by
  intro pkt hpkt
  rw [Tangent.sendPacket, List.mem_append, List.mem_singleton] at hpkt
  rcases hpkt with hpkt | hpkt
  · apply h pkt hpkt
  · cases hpkt
    exact hmsg

theorem NamesAll.sendPing (h : NamesAll Q acts) (addr : In6Addr) (port : UInt16) :
  NamesAll Q (sendPing L io srv acts addr port)
  := by
  apply h.sendPacket
  trivial

theorem NamesAll.sendPong (h : NamesAll Q acts) (ticket : Bytes) (addr : In6Addr)
    (port : UInt16) (time : UInt64) :
  NamesAll Q (sendPong acts ticket addr port time)
  := by
  apply h.sendPacket
  trivial

theorem NamesAll.sendNotify (h : NamesAll Q acts) (addr : In6Addr) (port : UInt16) :
  NamesAll Q (sendNotify acts addr port)
  := by
  apply h.sendPacket
  trivial

theorem NamesAll.sendFsForward (h : NamesAll Q acts) (ticket : Bytes) (ttl : UInt8)
    (toAddr : In6Addr) (toPort : UInt16) (addr : In6Addr) (port : UInt16) :
  NamesAll Q (sendFsForward acts ticket ttl toAddr toPort addr port)
  := by
  apply h.sendPacket
  trivial

/-- A ping that is sent under a condition. -/
theorem NamesAll.ping_if {b : Prop} [Decidable b] (h : NamesAll Q acts) (addr : In6Addr)
    (port : UInt16) :
  NamesAll Q (if b then Tangent.sendPing L io srv acts addr port else acts)
  := by
  split
  · apply h.sendPing
  · exact h

/-! ### The handlers -/

theorem processFs_names {m : FindSuccessor} {n : Node} (hown : Q srv.node.peer)
    (hfingers : ∀ f ∈ srv.flist, Q f.node.peer) (h : processFs L io srv m n = .ok out) :
  NamesAll Q out.acts
  := by
  obtain ⟨ret, -, -, rfl⟩ | ⟨-, -, -, rfl⟩ | ⟨-, -, -, -, rfl⟩ | ⟨-, -, -, s, hs, -, rfl⟩ |
    ⟨-, -, -, s, -, -, rfl⟩ := processFs_cases h
  · apply NamesAll.nil
  · apply NamesAll.nil
  · apply NamesAll.nil.sendPacket
    exact ⟨srv.node.peer, hown, rfl, rfl⟩
  · apply NamesAll.nil.sendPacket
    exact ⟨s.node.peer, hfingers s (succFinger_mem hs).1, rfl, rfl⟩
  · apply NamesAll.nil.sendFsForward

theorem processFsReply_names {m : FindSuccessorReply} {n : Node}
    (h : processFsReply L io srv m n = .ok out) :
  NamesAll Q out.acts
  := by
  obtain ⟨ret, -, -, rfl⟩ | ⟨-, -, -, rfl⟩ | ⟨-, -, -, r, -, rfl⟩ := processFsReply_cases h
  · apply NamesAll.nil
  · apply NamesAll.nil
  · apply NamesAll.nil.ping_if

theorem processStab_names {m : Stabilize} {n : Node}
    (hfingers : ∀ f ∈ out.srv.flist, Q f.node.peer) (h : processStab L io srv m n = .ok out) :
  NamesAll Q out.acts
  := by
  obtain ⟨-, rfl⟩ | ⟨-, r, -, rfl | ⟨pred, hpred, rfl⟩⟩ := processStab_cases h
  · apply NamesAll.nil
  · apply NamesAll.nil
  · apply NamesAll.nil.sendPacket
    exact ⟨pred.node.peer, hfingers pred hpred, rfl⟩

theorem processStabReply_names {m : StabilizeReply} {n : Node}
    (h : processStabReply L io srv m n = .ok out) :
  NamesAll Q out.acts
  := by
  obtain ⟨-, rfl⟩ | ⟨-, -, rfl⟩ | ⟨-, -, r, -, succ, -, rfl⟩ := processStabReply_cases h
  · apply NamesAll.nil
  · apply NamesAll.nil
  · apply NamesAll.ping_if
    apply NamesAll.nil.sendNotify

theorem processNotify_names {n : Node} (h : processNotify L io srv n = .ok out) :
  NamesAll Q out.acts
  := by
  obtain ⟨-, rfl⟩ | ⟨-, r, -, rfl⟩ := processNotify_cases h
  · apply NamesAll.nil
  · apply NamesAll.nil.ping_if

theorem processPing_names {m : Ping} {n : Node} (h : processPing L io srv m n = .ok out) :
  NamesAll Q out.acts
  := by
  obtain ⟨-, rfl⟩ | ⟨-, r, -, rfl⟩ := processPing_cases h
  · apply NamesAll.nil
  · apply NamesAll.sendPong
    apply NamesAll.nil.ping_if

theorem processPong_names {m : Pong} {n : Node} (h : processPong L io srv m n = .ok out) :
  NamesAll Q out.acts
  := by
  obtain ⟨ret, -, -, rfl⟩ | ⟨-, -, r, -, ⟨-, rfl⟩ | ⟨id, srv', -, -, rfl⟩⟩ :=
    processPong_cases h
  · apply NamesAll.nil
  · apply NamesAll.nil
  · apply NamesAll.nil

/-- What the handlers send names the server itself and its fingers. -/
theorem process_names (hmsg : msg.Names Q) (hown : Q srv.node.peer)
    (hbefore : ∀ f ∈ srv.flist, Q f.node.peer) (hafter : ∀ f ∈ out.srv.flist, Q f.node.peer)
    (h : process L io srv msg (frm.node L) = .ok out) :
  NamesAll Q out.acts
  := by
  cases msg with
  | fs m => apply processFs_names (n := frm.node L) hown hbefore h
  | fsReply m => apply processFsReply_names (n := frm.node L) h
  | stab m => apply processStab_names (n := frm.node L) hafter h
  | stabReply m => apply processStabReply_names (n := frm.node L) h
  | notify => apply processNotify_names h
  | ping m => apply processPing_names h
  | pong m => apply processPong_names h
  | addrDiscover m => cases hmsg
  | addrDiscoverReply m => cases hmsg
  | data m => cases hmsg

/-! ### The timer -/

/-- What a tick sends names the server itself. -/
theorem stabilize_names {idx : ℕ} {t : Tick} (hown : Q srv.node.peer) (hinv : TableInv L srv)
    (ht : stabilize L io srv idx = .ok t) :
  NamesAll Q t.acts
  := by
  intro pkt hpkt
  obtain ⟨-, ⟨m, hmsg⟩ | ⟨m, hmsg⟩ | hmsg⟩ := stabilize_sends hinv ht pkt hpkt
  · rw [hmsg]
    trivial
  · rw [hmsg]
    trivial
  · rw [hmsg]
    exact ⟨srv.node.peer, hown, rfl⟩

end Tangent

import Mathlib.Algebra.BigOperators.Group.Finset.Basic
import Tangent.Network.Members
import Tangent.Routing.Ttl

/-!
# How long a network goes on without its timers

A packet is answered by packets that lead to less: a stabilize message to a reply, the reply to a
notification, a lookup to one with a smaller budget of hops.  The exception is the ping a server
sends to a peer it has just inserted.  In a network of so few members that no passive finger is
ever evicted, a server inserts a member once, so the deliveries come to an end, whatever their
order and whatever is lost.
-/

namespace Tangent

variable {ι : Type*} {L : Library} {io : Io} {n : ι → Node} {i : ι} {srv srv' : ChordServer}
  {frm p : Peer} {msg : Msg} {out : Outcome} {f g : Finger} {acts : List Action} {r : Inserted}

/-! ### Weights -/

/-- The number of deliveries a message leads to, itself included, but for those of pings to new
fingers and what follows from them. -/
def Msg.weight : Msg → ℕ
  | .addrDiscover _ => 2
  | .addrDiscoverReply _ => 1
  | .data m => hopBudget m.ttl + 1
  | .fs m => hopBudget m.ttl + 2
  | .fsReply _ => 1
  | .stab _ => 3
  | .stabReply _ => 2
  | .notify => 1
  | .ping _ => 2
  | .pong _ => 1

/-- The weight of the datagrams on their way. -/
def flightWeight (flight : List Datagram) : ℕ :=
  (flight.map fun d => d.msg.weight).sum

/-- The weight of an action. -/
def Action.weight : Action → ℕ
  | .send pkt => pkt.msg.weight
  | .upcall _ _ => 0

/-- The weight of what a server does. -/
def actsWeight (acts : List Action) : ℕ :=
  (acts.map Action.weight).sum

theorem flightWeight_datagrams (p : Peer) (acts : List Action) :
  flightWeight (datagrams p acts) = actsWeight acts
  := by
  induction acts with
  | nil => rfl
  | cons a acts ih =>
      rw [flightWeight, datagrams] at ih
      cases a with
      | send pkt => simp [flightWeight, datagrams, actsWeight, Action.weight, ih]
      | upcall id data => simp [flightWeight, datagrams, actsWeight, Action.weight, ih]

theorem flightWeight_append (l₁ l₂ : List Datagram) :
  flightWeight (l₁ ++ l₂) = flightWeight l₁ + flightWeight l₂
  := by
  simp [flightWeight]

theorem flightWeight_erase {flight : List Datagram} {d : Datagram} (hd : d ∈ flight) :
  flightWeight (flight.erase d) + d.msg.weight = flightWeight flight
  := by
  have hperm := List.perm_cons_erase hd
  rw [flightWeight, flightWeight, (hperm.map _).sum_eq, List.map_cons, List.sum_cons, add_comm]

@[simp]
theorem actsWeight_nil :
  actsWeight [] = 0
  := rfl

@[simp]
theorem actsWeight_sendPacket (addr : In6Addr) (port : UInt16) :
  actsWeight (sendPacket acts addr port msg) = actsWeight acts + msg.weight
  := by
  simp [actsWeight, sendPacket, Action.weight]

/-- A ping that is sent under a condition. -/
theorem actsWeight_ping_if (b : Bool) (addr : In6Addr) (port : UInt16) :
  actsWeight (if b = true then sendPing L io srv acts addr port else acts)
    = actsWeight acts + 2 * b.toNat
  := by
  cases b with
  | true => simp [sendPing, Msg.weight]
  | false => simp

/-! ### Growing tables -/

section Growth

variable [Fintype ι]

/-- The table of a member has room for all the others. -/
theorem MemberTable.length_le (h : MemberTable L n i srv)
    (ids : Function.Injective fun i => (n i).id) {avoid : Finset ι}
    (hnot : ∀ j ∈ avoid, ∀ f ∈ srv.flist, f.node.id ≠ (n j).id) :
  srv.flist.length + avoid.card ≤ Fintype.card ι
  := by
  classical
  have hsub : (srv.flist.map fun f => f.node.id).toFinset
      ⊆ (Finset.univ \ avoid).image fun j => (n j).id := by
    intro x hx
    rw [List.mem_toFinset, List.mem_map] at hx
    obtain ⟨f, hf, rfl⟩ := hx
    obtain ⟨j, hj⟩ := h.table f hf
    apply Finset.mem_image.mpr
    refine ⟨j, ?_, by rw [hj]⟩
    rw [Finset.mem_sdiff]
    refine ⟨Finset.mem_univ j, ?_⟩
    intro havoid
    exact hnot j havoid f hf (by rw [hj])
  have hcard := Finset.card_le_card hsub
  rw [List.toFinset_card_of_nodup h.inv.order.nodup_ids, List.length_map,
    Finset.card_image_of_injective _ ids, Finset.card_sdiff_of_subset (Finset.subset_univ _),
    Finset.card_univ] at hcard
  have hle := Finset.card_le_univ avoid
  omega

/-- There are at most as many fingers as other members. -/
theorem MemberTable.length_le_pred (h : MemberTable L n i srv)
    (ids : Function.Injective fun i => (n i).id) :
  srv.flist.length + 1 ≤ Fintype.card ι
  := by
  classical
  have hroom : srv.flist.length + ({i} : Finset ι).card ≤ Fintype.card ι := by
    apply h.length_le ids
    intro j hj f hf
    rw [Finset.mem_singleton.mp hj]
    exact h.id_ne ids hf
  rwa [Finset.card_singleton] at hroom

/-- In a small network an insertion evicts nobody: the table grows by the member if it is new. -/
theorem MemberTable.insertFinger_growth (h : MemberTable L n i srv)
    (ids : Function.Injective fun i => (n i).id) (hn : ∀ j, (n j).peer.node L = n j)
    (hcard : Fintype.card ι ≤ 21) (hp : IsMember n p) (hother : p ≠ srv.node.peer)
    (hr : insertFinger srv (p.node L).id p.addr p.port = .ok r) :
  ∃ b, r.fnew = some b ∧ r.srv.flist.length = srv.flist.length + b.toNat
  := by
  classical
  obtain ⟨hself, -⟩ | ⟨-, f, -, -, -, rfl⟩ | ⟨-, f, -, -, -, rfl⟩
    | ⟨-, hfresh, srv₁, hevict, rfl⟩ := insertFinger_cases hr
  · exact absurd hself hother
  · exact ⟨false, rfl, rfl⟩
  · exact ⟨false, rfl, by simp [modifyFinger]⟩
  · use true, rfl
    obtain ⟨k, rfl⟩ := hp
    have hki : k ≠ i := by
      rintro rfl
      exact hother (by rw [h.node])
    have hroom : srv.flist.length + ({i, k} : Finset ι).card ≤ Fintype.card ι := by
      apply h.length_le ids
      intro j hj f hf
      rw [Finset.mem_insert, Finset.mem_singleton] at hj
      rcases hj with rfl | rfl
      · exact h.id_ne ids hf
      · have hne := hfresh f hf
        rw [hn] at hne
        exact hne
    rw [Finset.card_pair hki.symm] at hroom
    have hpassive : srv.numPassiveFingers < maxPassiveFingers := by
      rw [h.inv.passive]
      have hle := List.countP_le_length (p := Finger.isPassive) (l := srv.flist)
      show _ < (20 : ℤ)
      omega
    rw [evictPassive, if_neg (not_le.mpr hpassive)] at hevict
    cases hevict
    obtain ⟨l₁, l₂, hl, heq, -⟩ := exists_insert_eq h.inv.order hfresh
    rw [heq, hl]
    simp only [List.length_append, List.length_cons, Bool.toNat_true]
    omega

/-- An insertion of the peer adds a finger or none, and `fnew` says which, unless it is the server
itself, for which `insert_finger` stores nothing. -/
def GrowsBy (L : Library) (srv : ChordServer) (p : Peer) : Prop :=
  ∀ r, insertFinger srv (p.node L).id p.addr p.port = .ok r →
    ∃ b : Bool, r.srv.flist.length = srv.flist.length + b.toNat ∧
      (p ≠ srv.node.peer → r.fnew = some b)

theorem MemberTable.growsBy (h : MemberTable L n i srv)
    (ids : Function.Injective fun i => (n i).id) (hn : ∀ j, (n j).peer.node L = n j)
    (hcard : Fintype.card ι ≤ 21) (hp : IsMember n p) :
  GrowsBy L srv p
  := by
  intro r hr
  by_cases hself : p = srv.node.peer
  · have hnone : r.srv = srv := by
      rw [insertFinger, if_pos (Node.peer_eq_iff.mp hself)] at hr
      cases hr
      rfl
    exact ⟨false, by rw [hnone]; rfl, absurd hself⟩
  · obtain ⟨b, hb, hlen⟩ := h.insertFinger_growth ids hn hcard hp hself hr
    exact ⟨b, hlen, fun _ => hb⟩

/-! ### Handlers -/

/-- The handler may ping the sender. -/
def Msg.AsksBack : Msg → Prop
  | .notify | .ping _ => True
  | _ => False

theorem acceptPong_length {id : ChordID} {newRtt : ℤ}
    (h : acceptPong srv id newRtt = .ok srv') :
  srv'.flist.length = srv.flist.length
  := by
  have hrefresh : ∀ {s s' : ChordServer} {pred : Option Finger}, refreshPred s pred = .ok s' →
      s'.flist = s.flist := by
    intro s s' pred hs
    rw [refreshPred] at hs
    split at hs
    · split at hs <;> cases hs
      rfl
    · split at hs <;> cases hs <;> rfl
  rw [acceptPong] at h
  split at h
  · cases h
  · rw [hrefresh h, activateFinger]
    split <;> simp [modifyFinger]

/-- A forwarded lookup or data packet has a smaller budget. -/
theorem hopBudget_forward {ttl : UInt32} (h : ttl - 1 ≠ 0) :
  hopBudget (ttl - 1).toUInt8.toUInt32 + 1 ≤ hopBudget ttl
  := hopBudget_nextTtl_lt h

/-- The peer a reply names is not the server if the test of the handler says so. -/
theorem ne_of_not_namesSelf {addr : In6Addr} {port : UInt32} {q : UInt16}
    (hport : port = q.toUInt32) (h : ¬ namesSelf srv addr port) :
  (⟨addr, port.toUInt16⟩ : Peer) ≠ srv.node.peer
  := by
  subst hport
  intro heq
  obtain ⟨haddr, hq⟩ := Node.peer_eq_iff.mp heq
  simp only at hq
  rw [UInt16.toUInt16_toUInt32] at hq
  exact h ⟨haddr, by rw [hq]⟩

/-- The handler has inserted a finger or none, and what it sends has less weight than the message,
but for a ping to the finger. -/
def Lighter (srv : ChordServer) (msg : Msg) (out : Outcome) : Prop :=
  ∃ b : Bool, out.srv.flist.length = srv.flist.length + b.toNat ∧
    actsWeight out.acts + 1 ≤ msg.weight + 2 * b.toNat

theorem Lighter.of_length_eq (hlen : out.srv.flist.length = srv.flist.length)
    (hle : actsWeight out.acts + 1 ≤ msg.weight) :
  Lighter srv msg out
  := ⟨false, hlen, hle⟩

theorem processAddrDiscoverReply_lighter {m : AddrDiscoverReply} {k : Node} (hd : srv.Discovered)
    (h : processAddrDiscoverReply L io srv m k = .ok out) :
  Lighter srv (.addrDiscoverReply m) out
  := by
  obtain ⟨-, rfl⟩ | ⟨hun, -, -⟩ | ⟨-, rfl⟩ := processAddrDiscoverReply_cases h
  · exact .of_length_eq rfl (by simp [Msg.weight])
  · exact absurd hd hun
  · exact .of_length_eq rfl (by simp [Msg.weight])

theorem processData_lighter {m : Data} {k : Node} (h : processData io srv m k = .ok out) :
  Lighter srv (.data m) out
  := by
  obtain ⟨ret, -, -, rfl⟩ | ⟨-, -, -, rfl⟩ | ⟨-, httl, -, rfl⟩ := processData_cases h
  · exact .of_length_eq rfl (by simp [Msg.weight])
  · exact .of_length_eq rfl (by simp [actsWeight, Action.weight, Msg.weight])
  · have hbudget := hopBudget_forward httl
    exact .of_length_eq rfl (by simpa [sendData, Msg.weight] using hbudget)

theorem processFs_lighter {m : FindSuccessor} {k : Node} (h : processFs L io srv m k = .ok out) :
  Lighter srv (.fs m) out
  := by
  obtain ⟨ret, -, -, rfl⟩ | ⟨-, -, -, rfl⟩ | ⟨-, -, -, -, rfl⟩ | ⟨-, -, -, s, -, -, rfl⟩
    | ⟨-, httl, -, s, -, -, rfl⟩ := processFs_cases h
  · exact .of_length_eq rfl (by simp [Msg.weight])
  · exact .of_length_eq rfl (by simp [Msg.weight])
  · exact .of_length_eq rfl (by simp [sendFsReply, Msg.weight])
  · exact .of_length_eq rfl (by simp [sendFsReply, Msg.weight])
  · have hbudget := hopBudget_forward httl
    exact .of_length_eq rfl (by simpa [sendFsForward, Msg.weight] using hbudget)

theorem processFsReply_lighter {m : FindSuccessorReply} {k : Node} {q : UInt16}
    (hgrow : GrowsBy L srv ⟨fieldAddr m.addr io.behind, m.port.toUInt16⟩)
    (hport : m.port = q.toUInt32) (h : processFsReply L io srv m k = .ok out) :
  Lighter srv (.fsReply m) out
  := by
  obtain ⟨ret, -, -, rfl⟩ | ⟨-, -, -, rfl⟩ | ⟨-, -, hother, r, hr, rfl⟩ := processFsReply_cases h
  · exact .of_length_eq rfl (by simp [Msg.weight])
  · exact .of_length_eq rfl (by simp [Msg.weight])
  · obtain ⟨b, hlen, hb⟩ := hgrow r hr
    refine ⟨b, hlen, ?_⟩
    rw [hb (ne_of_not_namesSelf hport hother), Option.getD_some, actsWeight_ping_if,
      actsWeight_nil, Msg.weight]
    omega

theorem processStab_lighter {m : Stabilize} {k : Node} (hd : srv.Discovered)
    (hgrow : GrowsBy L srv ⟨fieldAddr m.addr io.behind, m.port.toUInt16⟩)
    (h : processStab L io srv m k = .ok out) :
  Lighter srv (.stab m) out
  := by
  obtain ⟨hun, -⟩ | ⟨-, r, hr, hout⟩ := processStab_cases h
  · exact absurd hd hun
  · obtain ⟨b, hlen, -⟩ := hgrow r hr
    use b
    rcases hout with rfl | ⟨pred, -, rfl⟩
    · exact ⟨hlen, by simp [Msg.weight]; omega⟩
    · exact ⟨hlen, by simp [sendStabReply, Msg.weight]⟩

theorem processStabReply_lighter {m : StabilizeReply} {k : Node} {q : UInt16} (hd : srv.Discovered)
    (hgrow : GrowsBy L srv ⟨fieldAddr m.addr io.behind, m.port.toUInt16⟩)
    (hport : m.port = q.toUInt32) (h : processStabReply L io srv m k = .ok out) :
  Lighter srv (.stabReply m) out
  := by
  obtain ⟨hun, -⟩ | ⟨-, -, rfl⟩ | ⟨-, hother, r, hr, succ, -, rfl⟩ := processStabReply_cases h
  · exact absurd hd hun
  · exact .of_length_eq rfl (by simp [Msg.weight])
  · obtain ⟨b, hlen, hb⟩ := hgrow r hr
    refine ⟨b, hlen, ?_⟩
    rw [hb (ne_of_not_namesSelf hport hother), Option.getD_some, actsWeight_ping_if]
    simp only [sendNotify, actsWeight_sendPacket, actsWeight_nil, Msg.weight]
    omega

theorem processNotify_lighter (hd : srv.Discovered) (hgrow : GrowsBy L srv frm)
    (hother : frm ≠ srv.node.peer) (h : processNotify L io srv (frm.node L) = .ok out) :
  Lighter srv .notify out
  := by
  obtain ⟨hun, -⟩ | ⟨-, r, hr, rfl⟩ := processNotify_cases h
  · exact absurd hd hun
  · obtain ⟨b, hlen, hb⟩ := hgrow r hr
    refine ⟨b, hlen, ?_⟩
    rw [hb hother, Option.getD_some, actsWeight_ping_if, actsWeight_nil, Msg.weight]
    omega

theorem processPing_lighter {m : Ping} (hd : srv.Discovered) (hgrow : GrowsBy L srv frm)
    (hother : frm ≠ srv.node.peer) (h : processPing L io srv m (frm.node L) = .ok out) :
  Lighter srv (.ping m) out
  := by
  obtain ⟨hun, -⟩ | ⟨-, r, hr, rfl⟩ := processPing_cases h
  · exact absurd hd hun
  · obtain ⟨b, hlen, hb⟩ := hgrow r hr
    refine ⟨b, hlen, ?_⟩
    have hand : (b && betterPred r.srv (frm.node L).id).toNat ≤ b.toNat := by
      cases b <;> simp [Bool.toNat_le]
    rw [hb hother, Option.getD_some, sendPong, actsWeight_sendPacket, actsWeight_ping_if,
      actsWeight_nil]
    simp only [Msg.weight]
    omega

theorem processPong_lighter {m : Pong} (hgrow : GrowsBy L srv frm)
    (h : processPong L io srv m (frm.node L) = .ok out) :
  Lighter srv (.pong m) out
  := by
  obtain ⟨ret, -, -, rfl⟩ | ⟨-, -, r, hr, hout⟩ := processPong_cases h
  · exact .of_length_eq rfl (by simp [Msg.weight])
  · obtain ⟨b, hlen, -⟩ := hgrow r hr
    use b
    rcases hout with ⟨-, rfl⟩ | ⟨k, srv', -, haccept, rfl⟩
    · exact ⟨hlen, by simp [Msg.weight]⟩
    · refine ⟨?_, by simp [Msg.weight]⟩
      rw [← hlen]
      exact acceptPong_length haccept

/-- A handler sends packets of less weight than the one it got, but for a ping to a member it has
inserted. -/
theorem MemberTable.process_weight (h : MemberTable L n i srv)
    (ids : Function.Injective fun i => (n i).id) (hn : ∀ j, (n j).peer.node L = n j)
    (hcard : Fintype.card ι ≤ 21) (hfrm : IsMember n frm) (hmsg : msg.Within (IsMember n))
    (hback : msg.AsksBack → frm ≠ srv.node.peer)
    (ho : process L io srv msg (frm.node L) = .ok out) :
  Lighter srv msg out
  := by
  have hgrow : ∀ p, IsMember n p → GrowsBy L srv p :=
    fun p hp => h.growsBy ids hn hcard hp
  cases msg with
  | addrDiscover m =>
      cases ho
      exact .of_length_eq rfl (by simp [sendAddrDiscoverReply, Msg.weight])
  | addrDiscoverReply m =>
      exact processAddrDiscoverReply_lighter (k := frm.node L) h.discovered ho
  | data m => exact processData_lighter (k := frm.node L) ho
  | fs m => exact processFs_lighter (k := frm.node L) ho
  | fsReply m =>
      obtain hplain | ⟨q, -, -, hport⟩ := id hmsg
      · cases hplain
      · have hnamed : IsMember n ⟨fieldAddr m.addr io.behind, m.port.toUInt16⟩ :=
          hmsg.named hfrm rfl
        exact processFsReply_lighter (k := frm.node L) (hgrow _ hnamed) hport ho
  | stab m =>
      have hnamed : IsMember n ⟨fieldAddr m.addr io.behind, m.port.toUInt16⟩ :=
        hmsg.named hfrm rfl
      exact processStab_lighter (k := frm.node L) h.discovered (hgrow _ hnamed) ho
  | stabReply m =>
      obtain hplain | ⟨q, -, hm⟩ := id hmsg
      · cases hplain
      · have hport : m.port = q.port.toUInt32 := by rw [hm]
        have hnamed : IsMember n ⟨fieldAddr m.addr io.behind, m.port.toUInt16⟩ :=
          hmsg.named hfrm rfl
        exact processStabReply_lighter (k := frm.node L) h.discovered (hgrow _ hnamed) hport ho
  | notify => exact processNotify_lighter h.discovered (hgrow frm hfrm) (hback trivial) ho
  | ping m => exact processPing_lighter h.discovered (hgrow frm hfrm) (hback trivial) ho
  | pong m => exact processPong_lighter (hgrow frm hfrm) ho

end Growth

/-- The packet is not a ping or a notification the server `srv` sends to itself. -/
def SparesSelf (srv : ChordServer) (pkt : Packet) : Prop :=
  pkt.msg.AsksBack → pkt.dst ≠ srv.node.peer

theorem SparesSelf.ping_if {srv₁ : ChordServer} (b : Bool) (hacts : Sends (SparesSelf srv) acts)
    (hp : p ≠ srv.node.peer) :
  Sends (SparesSelf srv) (if b = true then sendPing L io srv₁ acts p.addr p.port else acts)
  := by
  split
  · exact hacts.sendPacket fun _ => hp
  · exact hacts

theorem processData_sparesSelf {m : Data} {k : Node} (h : processData io srv m k = .ok out) :
  Sends (SparesSelf srv) out.acts
  := by
  obtain ⟨ret, -, -, rfl⟩ | ⟨-, -, -, rfl⟩ | ⟨-, -, -, rfl⟩ := processData_cases h
  · exact Sends.nil
  · intro pkt hpkt
    simp at hpkt
  · exact Sends.nil.sendPacket False.elim

theorem processFs_sparesSelf {m : FindSuccessor} {k : Node}
    (h : processFs L io srv m k = .ok out) :
  Sends (SparesSelf srv) out.acts
  := by
  obtain ⟨ret, -, -, rfl⟩ | ⟨-, -, -, rfl⟩ | ⟨-, -, -, -, rfl⟩ | ⟨-, -, -, s, -, -, rfl⟩
    | ⟨-, -, -, s, -, -, rfl⟩ := processFs_cases h
  · exact Sends.nil
  · exact Sends.nil
  · exact Sends.nil.sendPacket False.elim
  · exact Sends.nil.sendPacket False.elim
  · exact Sends.nil.sendPacket False.elim

theorem processFsReply_sparesSelf {m : FindSuccessorReply} {k : Node} {q : UInt16}
    (hport : m.port = q.toUInt32) (h : processFsReply L io srv m k = .ok out) :
  Sends (SparesSelf srv) out.acts
  := by
  obtain ⟨ret, -, -, rfl⟩ | ⟨-, -, -, rfl⟩ | ⟨-, -, hother, r, hr, rfl⟩ := processFsReply_cases h
  · exact Sends.nil
  · exact Sends.nil
  · exact SparesSelf.ping_if _ Sends.nil (ne_of_not_namesSelf hport hother)

/-- The notification goes to the successor, which is not the server. -/
theorem processStabReply_sparesSelf {m : StabilizeReply} {k : Node} {q : UInt16}
    (hinv : TableInv L srv) (hport : m.port = q.toUInt32)
    (h : processStabReply L io srv m k = .ok out) :
  Sends (SparesSelf srv) out.acts
  := by
  obtain ⟨-, rfl⟩ | ⟨-, -, rfl⟩ | ⟨hd, hother, r, hr, succ, hsucc, rfl⟩ :=
    processStabReply_cases h
  · exact Sends.nil
  · exact Sends.nil
  · have hsteps := insertFinger_steps (p := ⟨fieldAddr m.addr io.behind, m.port.toUInt16⟩)
      hinv hd hr
    have hnode : r.srv.node = srv.node := (hsteps.sameNode (by simp)).1
    have hpeer := ((hsteps.inv hinv).fingers succ (succFinger_mem hsucc).1).2
    rw [hnode] at hpeer
    exact SparesSelf.ping_if _ (Sends.nil.sendPacket fun _ => hpeer)
      (ne_of_not_namesSelf hport hother)

/-- What a handler sends in answer to a datagram that somebody else has sent, or that asks for no
ping, is no ping or notification to the server itself. -/
theorem MemberTable.process_sparesSelf (h : MemberTable L n i srv) (hmsg : msg.Within (IsMember n))
    (hback : msg.AsksBack → frm ≠ srv.node.peer)
    (ho : process L io srv msg (frm.node L) = .ok out) :
  Sends (SparesSelf srv) out.acts
  := by
  cases msg with
  | addrDiscover m =>
      cases ho
      exact Sends.nil.sendPacket False.elim
  | addrDiscoverReply m =>
      obtain ⟨-, rfl⟩ | ⟨-, -, rfl⟩ | ⟨-, rfl⟩ := processAddrDiscoverReply_cases ho
      · exact Sends.nil
      · exact Sends.nil
      · exact Sends.nil
  | data m => exact processData_sparesSelf (k := frm.node L) ho
  | fs m => exact processFs_sparesSelf (k := frm.node L) ho
  | fsReply m =>
      obtain hplain | ⟨q, -, -, hport⟩ := hmsg
      · cases hplain
      · exact processFsReply_sparesSelf (k := frm.node L) hport ho
  | stab m =>
      obtain ⟨-, rfl⟩ | ⟨-, r, hr, rfl | ⟨pred, -, rfl⟩⟩ := processStab_cases (n := frm.node L) ho
      · exact Sends.nil
      · exact Sends.nil
      · exact Sends.nil.sendPacket False.elim
  | stabReply m =>
      obtain hplain | ⟨q, -, hm⟩ := hmsg
      · cases hplain
      · have hport : m.port = q.port.toUInt32 := by rw [hm]
        exact processStabReply_sparesSelf (k := frm.node L) h.inv hport ho
  | notify =>
      obtain ⟨-, rfl⟩ | ⟨-, r, hr, rfl⟩ := processNotify_cases ho
      · exact Sends.nil
      · exact SparesSelf.ping_if _ Sends.nil (hback trivial)
  | ping m =>
      obtain ⟨-, rfl⟩ | ⟨-, r, hr, rfl⟩ := processPing_cases ho
      · exact Sends.nil
      · exact (SparesSelf.ping_if _ Sends.nil (hback trivial)).sendPacket False.elim
  | pong m =>
      obtain ⟨ret, -, -, rfl⟩ | ⟨-, -, r, -, ⟨-, rfl⟩ | ⟨k, srv', -, -, rfl⟩⟩ :=
        processPong_cases ho
      · exact Sends.nil
      · exact Sends.nil
      · exact Sends.nil

/-! ### Networks -/

section Net

variable {net net' : Net ι}

/-- Members, and no ping and no notification is on its way from a server to itself.  (A server that
gets one may answer with a ping to itself, for `insert_finger` stores nothing through `fnew` then,
and so without end.) -/
structure PoliteNet (L : Library) (n : ι → Node) (net : Net ι) : Prop
    extends MemberNet L n net where
  others : ∀ d ∈ net.flight, d.msg.AsksBack → d.src ≠ d.dst

/-- The move is the delivery or the loss of a datagram. -/
def Move.Passes : Move ι → Prop
  | .deliver .. => True
  | .lose _ => True
  | _ => False

/-- The move is the delivery of a datagram. -/
def Move.isDelivery : Move ι → Bool
  | .deliver .. => true
  | _ => false

variable [Fintype ι] [DecidableEq ι]

/-- What the datagrams on their way can still lead to: their own weights, and a ping to each member
a server has not inserted yet. -/
def remaining (net : Net ι) : ℕ :=
  flightWeight net.flight
    + 2 * ∑ i, (Fintype.card ι - 1 - (net.servers i).flist.length)

/-- The room in the tables when one of them changes. -/
theorem sum_room_update (servers : ι → ChordServer) (i : ι) (srv : ChordServer) (k : ℕ) :
  ∑ j, (k - (Function.update servers i srv j).flist.length) + (k - (servers i).flist.length)
    = ∑ j, (k - (servers j).flist.length) + (k - srv.flist.length)
  := by
  have hrest : ∑ j ∈ Finset.univ.erase i, (k - (Function.update servers i srv j).flist.length)
      = ∑ j ∈ Finset.univ.erase i, (k - (servers j).flist.length) := by
    apply Finset.sum_congr rfl
    intro j hj
    rw [Function.update_of_ne (Finset.ne_of_mem_erase hj)]
  have hi := Finset.mem_univ i
  rw [← Finset.add_sum_erase _ _ hi, ← Finset.add_sum_erase _ (fun j => k - _) hi, hrest,
    Function.update_self]
  omega

/-- A loss keeps the network polite. -/
theorem PoliteNet.lose {d : Datagram} (h : PoliteNet L n net)
    (hm : netMove L (homes n) net (.lose d) = .ok net') :
  PoliteNet L n net' ∧ remaining net' ≤ remaining net
  := by
  have hmember := h.toMemberNet.move hm
  rw [netMove] at hm
  split at hm
  · rename_i hd
    cases hm
    have hweight := flightWeight_erase hd
    refine ⟨⟨hmember, fun d' hd' => h.others d' (List.mem_of_mem_erase hd')⟩, ?_⟩
    simp only [remaining]
    omega
  · cases hm

/-- A delivery keeps the network polite and leaves less. -/
theorem PoliteNet.deliver {d : Datagram} (h : PoliteNet L n net)
    (ids : Function.Injective fun i => (n i).id) (hcard : Fintype.card ι ≤ 21)
    (hm : netMove L (homes n) net (.deliver i d io) = .ok net') :
  PoliteNet L n net' ∧ 1 + remaining net' ≤ remaining net
  := by
  have hmember := h.toMemberNet.move hm
  rw [netMove] at hm
  split at hm
  · rename_i hpossible
    obtain ⟨hd, hdst⟩ := hpossible
    obtain ⟨srv, acts, hreact, rfl⟩ := reactTo_eq_ok.mp hm
    obtain ⟨out, hout, heq⟩ := Except.map_eq_ok.mp hreact
    cases heq
    have htable := h.table i
    obtain ⟨hsrc, hmsg⟩ := h.flight d hd
    have hback : d.msg.AsksBack → d.src ≠ (net.servers i).node.peer := by
      intro hasks
      rw [htable.node]
      have hother := h.others d hd hasks
      rw [hdst] at hother
      exact hother
    constructor
    · refine ⟨hmember, ?_⟩
      intro d' hd' hasks
      rcases List.mem_append.mp hd' with hd' | hd'
      · exact h.others d' (List.mem_of_mem_erase hd') hasks
      · obtain ⟨pkt, hpkt, rfl⟩ := mem_datagrams_iff.mp hd'
        have hspares := htable.process_sparesSelf hmsg hback hout pkt hpkt hasks
        rw [htable.node] at hspares
        exact hspares.symm
    · obtain ⟨b, hlen, hweight⟩ := htable.process_weight ids h.node_eq hcard hsrc hmsg hback hout
      have htable' := hmember.table i
      simp only [Function.update_self] at htable'
      have hroom := htable'.length_le_pred ids
      have hsum := sum_room_update net.servers i out.srv (Fintype.card ι - 1)
      have herase := flightWeight_erase hd
      simp only [remaining, flightWeight_append, flightWeight_datagrams]
      omega
  · cases hm

/-- A delivery or a loss keeps the network polite, and a delivery leaves less. -/
theorem PoliteNet.move {m : Move ι} (h : PoliteNet L n net)
    (ids : Function.Injective fun i => (n i).id) (hcard : Fintype.card ι ≤ 21) (hp : m.Passes)
    (hm : netMove L (homes n) net m = .ok net') :
  PoliteNet L n net' ∧ (if m.isDelivery then 1 else 0) + remaining net' ≤ remaining net
  := by
  cases m with
  | lose d =>
      obtain ⟨hpolite, hle⟩ := h.lose hm
      exact ⟨hpolite, by simpa [Move.isDelivery] using hle⟩
  | deliver i d io =>
      obtain ⟨hpolite, hle⟩ := h.deliver ids hcard hm
      exact ⟨hpolite, by simpa [Move.isDelivery] using hle⟩
  | _ => cases hp

/-- In a network of at most twenty-one members that know their addresses, whatever the tables
contain, the datagrams on their way are answered by a bounded number of others, unless a ping or a
notification is on its way from a server to itself: if no timer fires, no more datagrams are
delivered than their weights and the room in the tables allow, whatever the order of the deliveries
and whatever is lost. -/
theorem deliveries_bounded (h : PoliteNet L n net) (ids : Function.Injective fun i => (n i).id)
    (hcard : Fintype.card ι ≤ 21) {ms : List (Move ι)} (hms : ∀ m ∈ ms, m.Passes)
    (hrun : netRun L (homes n) net ms = .ok net') :
  ms.countP Move.isDelivery + remaining net' ≤ remaining net
  := Machine.countP_add_le h (fun _ _ _ hp h hm => h.move ids hcard hp hm) hms hrun

end Net

/-! ### A sample -/

theorem sampleNet_polite :
  PoliteNet sampleLibrary sampleMembers sampleNet
  where
  table i := ⟨(sampleRing_reachable i).tableInv, rfl, by revert i; decide, by revert i; decide⟩
  flight := by
    intro d hd
    obtain ⟨hsrc, hmsg⟩ := sampleNet_stable.flight d hd
    exact ⟨hsrc, .inr hmsg⟩
  others := by
    intro d hd _
    rw [sampleNet, List.mem_singleton] at hd
    subst hd
    decide

/-- The ping is answered by one pong. -/
theorem deliveries_bounded_sample :
  ∃ net, netRun sampleLibrary (homes sampleMembers) sampleNet [samplePing] = .ok net ∧
    net.flight = [⟨samplePeer 10 0, samplePeer 20 0, .pong ⟨sampleTicket, 0⟩⟩] ∧
    1 + remaining net ≤ remaining sampleNet
  := by
  have hpasses : ∀ m ∈ [samplePing], m.Passes := by
    intro m hm
    rw [List.mem_singleton.mp hm]
    trivial
  refine ⟨_, rfl, by decide, ?_⟩
  exact deliveries_bounded sampleNet_polite sampleRing_stable.ids (by decide) hpasses rfl

end Tangent

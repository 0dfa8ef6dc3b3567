import Tangent.Model.Network
import Tangent.Network.Table

/-!
# Networks of members

Servers that know their addresses, whose tables contain members of the network only, among
datagrams that come from members and name members.  Whatever happens in such a network, it stays
one: nothing is assumed of the order of the datagrams, of losses, or of what the timers drop.
-/

namespace Tangent

variable {ι : Type*} {L : Library} {io : Io} {n : ι → Node} {i j : ι} {srv srv' : ChordServer}
  {frm p : Peer} {msg : Msg} {out : Outcome} {f g : Finger} {acts : List Action}

/-! ### Tables -/

/-- The server is the member `i`, it knows its address, and its table contains members only. -/
structure MemberTable (L : Library) (n : ι → Node) (i : ι) (srv : ChordServer) : Prop where
  inv : TableInv L srv
  node : srv.node = n i
  discovered : srv.Discovered
  table : ∀ f ∈ srv.flist, ∃ j, f.node = n j

/-- The message is one that names nobody and makes the receiver insert nobody. -/
def Msg.IsPlain : Msg → Prop
  | .addrDiscover _ | .addrDiscoverReply _ | .data _ => True
  | _ => False

/-- The message names nobody, or a peer that satisfies `Q`. -/
def Msg.Within (Q : Peer → Prop) (msg : Msg) : Prop :=
  msg.IsPlain ∨ msg.Names Q

/-- The peer a handler inserts is the one the message names, or the sender. -/
theorem Msg.Within.named {Q : Peer → Prop} (h : msg.Within Q) (hfrm : Q frm)
    (hp : msg.named io frm = some p) :
  Q p
  := by
  obtain hplain | hnames := h
  · cases msg with
    | addrDiscover | addrDiscoverReply | data => cases hp
    | _ => cases hplain
  · exact hnames.named hfrm hp

theorem MemberTable.fingers_isMember (h : MemberTable L n i srv) :
  ∀ f ∈ srv.flist, IsMember n f.node.peer
  := by
  intro f hf
  obtain ⟨j, hj⟩ := h.table f hf
  exact ⟨j, by rw [hj]⟩

/-- A finger of a member belongs to another member. -/
theorem MemberTable.id_ne (h : MemberTable L n i srv)
    (ids : Function.Injective fun i => (n i).id) (hf : f ∈ srv.flist) :
  f.node.id ≠ (n i).id
  := by
  obtain ⟨j, hj⟩ := h.table f hf
  intro hid
  rw [hj] at hid
  obtain rfl : j = i := ids hid
  apply (h.inv.fingers f hf).2
  rw [hj, h.node]

/-- A member is at the position its address and port hash to. -/
theorem MemberTable.node_eq (h : MemberTable L n i srv) :
  (n i).peer.node L = n i
  := by
  have hpos := h.inv.position h.discovered
  rw [h.node] at hpos
  exact hpos.symm

/-- Steps that insert members only keep the table one of members. -/
theorem MemberTable.of_steps {K : Set Kind} (h : MemberTable L n i srv)
    (hs : TableSteps L K srv srv') (hK : .adopt ∉ K)
    (hmem : ∀ g ∈ srv'.flist, ∃ j, g.node = n j) :
  MemberTable L n i srv'
  := by
  have hnode := (hs.sameNode hK).1
  refine ⟨hs.inv h.inv, ?_, ?_, hmem⟩
  · rw [hnode, h.node]
  · rw [ChordServer.Discovered, hnode]
    exact h.discovered

/-- A packet from a member that names no stranger keeps the table. -/
theorem MemberTable.packet (h : MemberTable L n i srv) (hn : ∀ j, (n j).peer.node L = n j)
    (hfrm : IsMember n frm) (hmsg : msg.Within (IsMember n))
    (ho : process L io srv msg (frm.node L) = .ok out) :
  MemberTable L n i out.srv
  := by
  apply h.of_steps (process_steps h.inv ho) (by simp [packetKinds, h.discovered])
  intro g hg
  rcases process_mem_node h.inv ho hg with ⟨f, hf, hnode⟩ | ⟨p, hp, hnode⟩
  · rw [← hnode]
    exact h.table f hf
  · have hmember : IsMember n p := by
      rcases hp with hp | rfl
      · exact hmsg.named hfrm hp
      · exact hfrm
    obtain ⟨m, rfl⟩ := hmember
    exact ⟨m, by rw [hnode, hn]⟩

/-- A tick keeps the table. -/
theorem MemberTable.tick {idx : ℕ} {t : Tick} (h : MemberTable L n i srv)
    (ht : stabilize L io srv idx = .ok t) :
  MemberTable L n i t.srv
  := by
  have hmem : ∀ g ∈ t.srv.flist, ∃ j, g.node = n j := by
    intro g hg
    obtain ⟨f, hf, hnode, -⟩ := stabilize_mem h.inv ht hg
    rw [← hnode]
    exact h.table f hf
  obtain ⟨-, heq⟩ | hsteps := stabilize_steps h.inv ht
  · rw [heq]
    exact h
  · have hping : TableSteps L {.touch, .drop, .trim, .cursor} srv (ping L io srv).1 :=
      (ping_steps io h.inv).mono (by simp [Set.insert_subset_iff])
    have hrest : TableSteps L {.touch, .drop, .trim, .cursor} (ping L io srv).1 t.srv :=
      hsteps.mono (by simp [Set.insert_subset_iff])
    exact h.of_steps (hping.trans hrest) (by simp) hmem

/-! ### What members send -/

/-- The packets that are sent name members. -/
abbrev SendsWithin (n : ι → Node) (acts : List Action) : Prop :=
  Sends (fun pkt => pkt.msg.Within (IsMember n)) acts

theorem NamesAll.within (h : NamesAll (IsMember n) acts) :
  SendsWithin n acts
  := fun pkt hpkt => .inr (h pkt hpkt)

theorem process_plain (hplain : msg.IsPlain)
    (ho : process L io srv msg (frm.node L) = .ok out) :
  SendsWithin n out.acts
  := by
  cases msg with
  | addrDiscover m =>
      cases ho
      exact Sends.nil.sendPacket (.inl trivial)
  | addrDiscoverReply m =>
      obtain ⟨-, rfl⟩ | ⟨-, -, rfl⟩ | ⟨-, rfl⟩ := processAddrDiscoverReply_cases ho
      · exact Sends.nil
      · exact Sends.nil
      · exact Sends.nil
  | data m =>
      have hdata : processData io srv m (frm.node L) = .ok out := ho
      obtain ⟨ret, -, -, rfl⟩ | ⟨-, -, -, rfl⟩ | ⟨-, -, -, rfl⟩ := processData_cases hdata
      · exact Sends.nil
      · intro pkt hpkt
        simp at hpkt
      · exact Sends.nil.sendPacket (.inl trivial)
  | _ => cases hplain

theorem MemberTable.process_within (h : MemberTable L n i srv)
    (h' : MemberTable L n i out.srv) (hmsg : msg.Within (IsMember n))
    (ho : process L io srv msg (frm.node L) = .ok out) :
  SendsWithin n out.acts
  := by
  obtain hplain | hnames := hmsg
  · exact process_plain hplain ho
  · have hown : IsMember n srv.node.peer := ⟨i, by rw [h.node]⟩
    exact (process_names hnames hown h.fingers_isMember h'.fingers_isMember ho).within

/-! ### Networks -/

/-- The servers are members, and the datagrams on their way come from members and name nobody
else. -/
structure MemberNet (L : Library) (n : ι → Node) (net : Net ι) : Prop where
  table : ∀ i, MemberTable L n i (net.servers i)
  flight : ∀ d ∈ net.flight, IsMember n d.src ∧ d.msg.Within (IsMember n)

section Net

variable {net net' : Net ι}

/-- What a server sends comes from its address, and goes where its packets go. -/
theorem mem_datagrams_iff {src : Peer} {d : Datagram} :
  d ∈ datagrams src acts ↔ ∃ pkt, .send pkt ∈ acts ∧ d = ⟨src, pkt.dst, pkt.msg⟩
  := by
  rw [datagrams, List.mem_filterMap]
  constructor
  · rintro ⟨a, ha, heq⟩
    cases a with
    | send pkt =>
        cases heq
        exact ⟨pkt, ha, rfl⟩
    | upcall id data => cases heq
  · rintro ⟨pkt, hpkt, rfl⟩
    exact ⟨_, hpkt, rfl⟩

/-- Members send from and receive at the addresses they know. -/
abbrev homes (n : ι → Node) (i : ι) : Peer :=
  (n i).peer

theorem MemberNet.node_eq (h : MemberNet L n net) (j : ι) :
  (n j).peer.node L = n j
  := (h.table j).node_eq

/-- A stable ring is a network of members. -/
theorem StableNet.memberNet [Finite ι] [Nontrivial ι]
    {ids : Function.Injective fun i => (n i).id} (h : StableNet L ids net) :
  MemberNet L n net
  where
  table i := {
    inv := h.inv i
    node := h.node i
    discovered := (h.stableTable i).discovered
    table := h.table i }
  flight := by
    intro d hd
    obtain ⟨hsrc, hmsg⟩ := h.flight d hd
    exact ⟨hsrc, .inr hmsg⟩

/-- Members with different identifiers have different addresses. -/
theorem MemberNet.peer_inj (h : MemberNet L n net) (ids : Function.Injective fun i => (n i).id)
    (hpeer : (n i).peer = (n j).peer) :
  i = j
  := by
  apply ids
  have hnode := h.node_eq i
  rw [hpeer, h.node_eq j] at hnode
  simp only [hnode]

theorem MemberNet.discoverAddr_eq (h : MemberNet L n net) (i : ι) (io : Io) :
  discoverAddr L io (net.servers i) = []
  := by
  rw [discoverAddr, if_neg (not_unspecified_of_discovered (h.table i).discovered)]

variable [DecidableEq ι]

theorem reactTo_eq_ok {home : ι → Peer} {e : Event} :
  Net.reactTo L home net i e = .ok net' ↔
    ∃ srv acts, react L (net.servers i) e = .ok (srv, acts) ∧
      net' = ⟨Function.update net.servers i srv, net.flight ++ datagrams (home i) acts⟩
  := by
  rw [Net.reactTo]
  cases react L (net.servers i) e with
  | error f => simp
  | ok p =>
      obtain ⟨srv, acts⟩ := p
      simp [eq_comm]

/-- One member reacts, and sends. -/
theorem MemberNet.update (h : MemberNet L n net) (hsrv : MemberTable L n i srv)
    (hacts : SendsWithin n acts) :
  MemberNet L n
    ⟨Function.update net.servers i srv, net.flight ++ datagrams (homes n i) acts⟩
  := by
  constructor
  · intro j
    by_cases hj : j = i
    · subst hj
      simpa using hsrv
    · simpa [hj] using h.table j
  · intro d hd
    rcases List.mem_append.mp hd with hd | hd
    · exact h.flight d hd
    · obtain ⟨hsrc, pkt, hpkt, hmsg⟩ := mem_datagrams hd
      constructor
      · exact ⟨i, hsrc⟩
      · rw [hmsg]
        exact hacts pkt hpkt

omit [DecidableEq ι] in
theorem MemberNet.of_subset {flight : List Datagram} (h : MemberNet L n net)
    (hsub : flight ⊆ net.flight) :
  MemberNet L n { net with flight := flight }
  := ⟨h.table, fun d hd => h.flight d (hsub hd)⟩

/-- What a move of a network of members is: a datagram goes to the member it is for, which reacts,
or only the datagrams change, or a member's timer fires. -/
theorem MemberNet.move_cases {m : Move ι} (h : MemberNet L n net)
    (hm : netMove L (homes n) net m = .ok net') :
  (∃ i d io out, m = .deliver i d io ∧ d ∈ net.flight ∧ d.dst = (n i).peer ∧
      process L io (net.servers i) d.msg (d.src.node L) = .ok out ∧
      net' = ⟨Function.update net.servers i out.srv,
        net.flight.erase d ++ datagrams (n i).peer out.acts⟩) ∨
    (net'.servers = net.servers ∧ net'.flight ⊆ net.flight ∧ ∀ i d io, m ≠ .deliver i d io) ∨
    (∃ i idx io t, m = .tick i idx io ∧ stabilize L io (net.servers i) idx = .ok t ∧
      net' = ⟨Function.update net.servers i t.srv,
        net.flight ++ datagrams (n i).peer t.acts⟩)
  := by
  cases m with
  | deliver i d io =>
      rw [netMove] at hm
      split at hm
      · rename_i hpossible
        obtain ⟨srv, acts, hreact, rfl⟩ := reactTo_eq_ok.mp hm
        obtain ⟨out, hout, heq⟩ := Except.map_eq_ok.mp hreact
        cases heq
        exact .inl ⟨i, d, io, out, rfl, hpossible.1, hpossible.2, hout, rfl⟩
      · cases hm
  | lose d =>
      rw [netMove] at hm
      split at hm
      · cases hm
        exact .inr (.inl ⟨rfl, List.erase_subset, by simp⟩)
      · cases hm
  | duplicate d =>
      rw [netMove] at hm
      split at hm
      · rename_i hmem
        cases hm
        exact .inr (.inl ⟨rfl, List.cons_subset.mpr ⟨hmem, List.Subset.refl _⟩, by simp⟩)
      · cases hm
  | tick i idx io =>
      obtain ⟨srv, acts, hreact, rfl⟩ := reactTo_eq_ok.mp hm
      obtain ⟨t, ht, heq⟩ := Except.map_eq_ok.mp hreact
      cases heq
      exact .inr (.inr ⟨i, idx, io, t, rfl, ht, rfl⟩)
  | discover i io =>
      rw [netMove] at hm
      obtain ⟨srv, acts, hreact, rfl⟩ := reactTo_eq_ok.mp hm
      cases hreact
      refine .inr (.inl ⟨?_, ?_, by simp⟩)
      · simp
      · simp [h.discoverAddr_eq, datagrams]

/-- A network of members stays one. -/
theorem MemberNet.move {m : Move ι} (h : MemberNet L n net)
    (hm : netMove L (homes n) net m = .ok net') :
  MemberNet L n net'
  := by
  obtain ⟨i, d, io, out, -, hd, -, hout, rfl⟩ | ⟨hservers, hflight, -⟩
    | ⟨i, idx, io, t, -, ht, rfl⟩ := h.move_cases hm
  · obtain ⟨hsrc, hmsg⟩ := h.flight d hd
    have hnew := (h.table i).packet h.node_eq hsrc hmsg hout
    exact (h.of_subset (List.erase_subset (a := d))).update hnew
      ((h.table i).process_within hnew hmsg hout)
  · constructor
    · rw [hservers]
      exact h.table
    · exact fun d hd => h.flight d (hflight hd)
  · have hown : IsMember n (net.servers i).node.peer := ⟨i, by rw [(h.table i).node]⟩
    exact h.update ((h.table i).tick ht) (stabilize_names hown (h.table i).inv ht).within

/-- A network of members whose tables are stable keeps them stable, as long as no ping drops a
successor or a predecessor. -/
theorem MemberNet.stable_move [Finite ι] [Nontrivial ι] {m : Move ι}
    {ids : Function.Injective fun i => (n i).id} (h : MemberNet L n net)
    (hstable : ∀ i, StableTable L ids i (net.servers i))
    (keeps : ∀ i idx io, m = .tick i idx io → pingKeeps L io (net.servers i))
    (hm : netMove L (homes n) net m = .ok net') :
  ∀ i, StableTable L ids i (net'.servers i)
  := by
  have hupdate : ∀ {i srv flight}, StableTable L ids i srv →
      ∀ j, StableTable L ids j
        ((⟨Function.update net.servers i srv, flight⟩ : Net ι).servers j) := by
    intro i srv flight hsrv j
    by_cases hj : j = i
    · subst hj
      simpa using hsrv
    · simpa [hj] using hstable j
  obtain ⟨i, d, io, out, -, hd, -, hout, rfl⟩ | ⟨hservers, -, -⟩
    | ⟨i, idx, io, t, rfl, ht, rfl⟩ := h.move_cases hm
  · obtain ⟨hsrc, hmsg⟩ := h.flight d hd
    exact hupdate ((hstable i).packet h.node_eq hsrc (fun p hp => hmsg.named hsrc hp) hout)
  · rw [hservers]
    exact hstable
  · exact hupdate ((hstable i).tick (keeps i idx io rfl) ht)

/-- A network of members stays one in every run. -/
theorem MemberNet.run {ms : List (Move ι)} (h : MemberNet L n net)
    (hrun : netRun L (homes n) net ms = .ok net') :
  MemberNet L n net'
  := Machine.run_invariant h (fun _ _ _ h hm => h.move hm) hrun

end Net

/-- The members of the sample networks. -/
abbrev sampleMembers (i : Fin 3) : Node :=
  (sampleRing i).node

end Tangent

import Tangent.Ownership

/-!
# Forwarding

A data packet is forwarded to the predecessor once its `last` flag is set, else to the
successor, which sets the flag, or to the closest preceding active finger.  A lookup is
forwarded to the closest preceding active finger.  A hop to a preceding finger brings the
packet nearer to its target, a hop to a predecessor brings it nearer from the other side, so
no packet is forwarded forever, whatever the tables contain.
-/

namespace Tangent

variable {L : Library} {io : Io} {srv : ChordServer} {id : ChordID} {f : Finger} {last : Bool}
  {out : Outcome} {frm : Node} {pkt : Packet}

/-! ### The next node -/

/-- The closest preceding active finger lies between the server and the target. -/
theorem closestPrecedingFinger_mem (h : closestPrecedingFinger srv id false = some f) :
  f ∈ srv.flist ∧ f.isActive = true ∧ ChordID.arc srv.node.id f.node.id < ChordID.arc srv.node.id id
  := by
  have hf := List.find?_some h
  rw [Bool.false_or, Bool.and_eq_true, idIsBetween_iff] at hf
  exact ⟨List.mem_reverse.mp (List.mem_of_find?_eq_some h), hf⟩

/-- The test of the routing functions for a target that belongs to the successor. -/
theorem between_or_equals_iff {x a b : ChordID} :
  (idIsBetween x a b || idEquals x b) = true ↔ ChordID.arc a x ≤ ChordID.arc a b
  := by
  rw [Bool.or_eq_true, idIsBetween_iff, idEquals_iff, le_iff_lt_or_eq, ChordID.arc_inj]

/-- If the target lies behind the successor, there is a closest preceding finger. -/
theorem exists_closestPrecedingFinger (hf : succFinger srv = some f)
    (hid : ¬ ChordID.arc srv.node.id id ≤ ChordID.arc srv.node.id f.node.id) :
  ∃ g, closestPrecedingFinger srv id false = some g ∧ closestPrecedingNode srv id false = g.node
  := by
  obtain ⟨hmem, hactive⟩ := succFinger_mem hf
  cases hg : closestPrecedingFinger srv id false with
  | none =>
      have hnot := List.find?_eq_none.mp hg f (List.mem_reverse.mpr hmem)
      rw [Bool.false_or, Bool.and_eq_true, idIsBetween_iff, not_and] at hnot
      exact absurd (not_le.mp hid) (hnot hactive)
  | some g =>
      use g, rfl
      rw [closestPrecedingNode, hg]

/-- A server with a target that is not local has a predecessor and a successor. -/
theorem TableInv.exists_of_not_local (h : TableInv L srv)
    (hid : chordIdIsLocal srv id = false) :
  (∃ p, predFinger srv = some p ∧ srv.predBound = p.node.id) ∧ ∃ s, succFinger srv = some s
  := by
  have hne : activeIds srv ≠ [] := by
    intro hnil
    have hlocal := h.chordIdIsLocal_of_bound_eq (h.ownBound_eq_iff.mpr (.inl hnil)) id
    rw [hid] at hlocal
    cases hlocal
  constructor
  · cases hp : predFinger srv with
    | none =>
        have hlast := predFinger_map_id srv
        rw [hp] at hlast
        exact absurd (List.getLast?_eq_none_iff.mp hlast.symm) hne
    | some p =>
        use p, rfl
        rw [h.bound, ownBound_eq, hp]
        rfl
  · cases hs : succFinger srv with
    | none =>
        have hhead := succFinger_map_id srv
        rw [hs] at hhead
        exact absurd (List.head?_eq_none_iff.mp hhead.symm) hne
    | some s =>
        use s

/-- Where a data packet goes whose target is not local. -/
inductive NextHop (srv : ChordServer) (id : ChordID) : Bool → Finger → Bool → Prop where
  | pred {p : Finger} (found : predFinger srv = some p) (bound : srv.predBound = p.node.id) :
      NextHop srv id true p true
  | succ {s : Finger} (found : succFinger srv = some s)
      (owned : ChordID.arc srv.node.id id ≤ ChordID.arc srv.node.id s.node.id) :
      NextHop srv id false s true
  | preceding {g : Finger} (found : closestPrecedingFinger srv id false = some g) :
      NextHop srv id false g false

theorem TableInv.nextRouteNode_eq (h : TableInv L srv) (hid : chordIdIsLocal srv id = false)
    (last : Bool) :
  ∃ g last', nextRouteNode srv id last = (g.node, last') ∧ NextHop srv id last g last'
  := by
  obtain ⟨⟨p, hp, hb⟩, s, hs⟩ := h.exists_of_not_local hid
  cases last with
  | true =>
      use p, true
      simp only [nextRouteNode, if_true, hp, true_and]
      apply NextHop.pred hp hb
  | false =>
      simp only [nextRouteNode, Bool.false_eq_true, if_false, hs]
      split
      · rename_i howned
        use s, true, rfl
        apply NextHop.succ hs (between_or_equals_iff.mp howned)
      · rename_i howned
        rw [between_or_equals_iff] at howned
        obtain ⟨g, hg, hnode⟩ := exists_closestPrecedingFinger hs howned
        use g, false, by rw [hnode]
        apply NextHop.preceding hg

theorem NextHop.mem {last' : Bool} (h : NextHop srv id last f last') :
  f ∈ srv.flist ∧ f.isActive = true
  := by
  cases h with
  | pred found bound => apply predFinger_mem found
  | succ found owned => apply succFinger_mem found
  | preceding found =>
      obtain ⟨hmem, hactive, -⟩ := closestPrecedingFinger_mem found
      exact ⟨hmem, hactive⟩

/-- A hop that leaves the flag unset brings the packet nearer to its target. -/
theorem NextHop.arc_lt {last' : Bool} (h : NextHop srv id last f last') (hlast : last' = false) :
  ChordID.arc f.node.id id < ChordID.arc srv.node.id id
  := by
  cases h with
  | pred found bound => cases hlast
  | succ found owned => cases hlast
  | preceding found => apply ChordID.arc_lt_of_lt (closestPrecedingFinger_mem found).2.2

/-- Once the flag is set it stays set, and a hop brings the packet nearer to its target from
behind. -/
theorem NextHop.gap_lt {last' : Bool} (h : NextHop srv id last f last')
    (hid : chordIdIsLocal srv id = false) (hlast : last = true) :
  last' = true ∧ ChordID.gap id f.node.id < ChordID.gap id srv.node.id
  := by
  cases h with
  | pred found bound =>
      use rfl
      apply ChordID.gap_lt_of_not_arc_le
      rw [← bound, ← chordIdIsLocal_iff, hid]
      simp
  | succ found owned => cases hlast
  | preceding found => cases hlast

/-! ### The handlers -/

/-- What `process_data` sends: nothing, or a copy of the packet to the next node if the
target is not local. -/
theorem processData_send {msg : Data} (h : processData io srv msg frm = .ok out)
    (hp : .send pkt ∈ out.acts) :
  chordIdIsLocal srv (fieldId msg.id io.behind) = false ∧
    ∃ np m, nextRouteNode srv (fieldId msg.id io.behind) msg.last = (np, m.last) ∧
      pkt = ⟨np.addr, np.port, .data m⟩
  := by
  obtain ⟨ret, -, -, rfl⟩ | ⟨-, -, -, rfl⟩ | ⟨-, -, hlocal, rfl⟩ := processData_cases h
  · cases hp
  · simp at hp
  · simp only [sendData, sendPacket, List.nil_append, List.mem_singleton,
      Action.send.injEq] at hp
    refine ⟨hlocal, _, _, ?_, hp⟩
    rfl

/-- A lookup `process_fs` forwards goes to the closest preceding active finger. -/
theorem processFs_send {msg m : FindSuccessor} {addr : In6Addr} {port : UInt16}
    (h : processFs L io srv msg frm = .ok out) (hp : .send ⟨addr, port, .fs m⟩ ∈ out.acts) :
  ∃ g, closestPrecedingFinger srv ((msg.requester io).node L).id false = some g ∧
    g.node.addr = addr ∧ g.node.port = port
  := by
  obtain ⟨ret, -, -, rfl⟩ | ⟨-, -, -, rfl⟩ | ⟨-, -, -, -, rfl⟩ | ⟨-, -, -, s, -, -, rfl⟩ |
    ⟨-, -, -, s, hs, hid, rfl⟩ := processFs_cases h
  · cases hp
  · cases hp
  · simp [sendFsReply, sendPacket] at hp
  · simp [sendFsReply, sendPacket] at hp
  · rw [Bool.eq_false_iff, ne_eq, between_or_equals_iff] at hid
    obtain ⟨g, hg, hnode⟩ := exists_closestPrecedingFinger hs hid
    simp only [sendFsForward, sendPacket, List.nil_append, List.mem_singleton,
      Action.send.injEq, Packet.mk.injEq, hnode] at hp
    exact ⟨g, hg, hp.1.symm, hp.2.1.symm⟩

/-! ### Chains of hops -/

section Chain

variable {ι : Type*} (σ : ι → ChordServer)

/-- The server `i` sends a data packet for `id`, which it got with some flag, on to the
server `j` with some flag. -/
def DataHop (id : ChordID) (c c' : ι × Bool) : Prop :=
  ∃ io msg frm out m, fieldId msg.id io.behind = id ∧ msg.last = c.2 ∧
    processData io (σ c.1) msg frm = .ok out ∧ m.last = c'.2 ∧
    .send ⟨(σ c'.1).node.addr, (σ c'.1).node.port, .data m⟩ ∈ out.acts

/-- The server `i` sends a lookup for the peer `p` on to the server `j`. -/
def FsHop (L : Library) (p : Peer) (i j : ι) : Prop :=
  ∃ io msg frm out m, FindSuccessor.requester io msg = p ∧
    processFs L io (σ i) msg frm = .ok out ∧
    .send ⟨(σ j).node.addr, (σ j).node.port, .fs m⟩ ∈ out.acts

variable {σ} {i j : ι} {c c' : ι × Bool} {p : Peer}

/-- A data packet goes to a finger of the server that sends it. -/
theorem DataHop.nextHop (hinv : ∀ i, TableInv L (σ i)) (h : DataHop σ id c c') :
  chordIdIsLocal (σ c.1) id = false ∧
    ∃ g, NextHop (σ c.1) id c.2 g c'.2 ∧ g.node.peer = (σ c'.1).node.peer
  := by
  obtain ⟨io, msg, frm, out, m, rfl, hlast, hout, hlast', hsend⟩ := h
  obtain ⟨hlocal, np, m', hnext, hpkt⟩ := processData_send hout hsend
  obtain ⟨g, last', hroute, hop⟩ := (hinv c.1).nextRouteNode_eq hlocal msg.last
  rw [Packet.mk.injEq, Msg.data.injEq] at hpkt
  obtain ⟨haddr, hport, rfl⟩ := hpkt
  rw [hroute, Prod.mk.injEq] at hnext
  obtain ⟨rfl, rfl⟩ := hnext
  use hlocal, g
  rw [← hlast, ← hlast']
  use hop
  rw [Node.peer, Node.peer, haddr, hport]

theorem FsHop.preceding (h : FsHop σ L p i j) :
  ∃ g, closestPrecedingFinger (σ i) (p.node L).id false = some g ∧
    g.node.peer = (σ j).node.peer
  := by
  obtain ⟨io, msg, frm, out, m, rfl, hout, hsend⟩ := h
  obtain ⟨g, hg, haddr, hport⟩ := processFs_send hout hsend
  use g, hg
  rw [Node.peer, Node.peer, haddr, hport]

/-- A hop of a data packet goes to another server; it brings the packet nearer to its
target, or nearer from behind once the flag is set. -/
theorem DataHop.nearer (hinv : ∀ i, TableInv L (σ i))
    (hpoint : ∀ i, ∀ f ∈ (σ i).flist, ∀ j, f.node.peer = (σ j).node.peer →
      f.node.id = (σ j).node.id)
    (h : DataHop σ id c c') :
  c'.1 ≠ c.1 ∧
    (c'.2 = false → ChordID.arc (σ c'.1).node.id id < ChordID.arc (σ c.1).node.id id) ∧
    (c.2 = true → c'.2 = true ∧
      ChordID.gap id (σ c'.1).node.id < ChordID.gap id (σ c.1).node.id)
  := by
  obtain ⟨hlocal, g, hnext, hpeer⟩ := h.nextHop hinv
  have hg := hnext.mem.1
  rw [← hpoint c.1 g hg c'.1 hpeer]
  refine ⟨?_, hnext.arc_lt, hnext.gap_lt hlocal⟩
  intro heq
  rw [heq] at hpeer
  exact ((hinv c.1).fingers g hg).2 hpeer

/-- A hop of a lookup goes to another server and brings it nearer to its target. -/
theorem FsHop.nearer (hinv : ∀ i, TableInv L (σ i))
    (hpoint : ∀ i, ∀ f ∈ (σ i).flist, ∀ j, f.node.peer = (σ j).node.peer →
      f.node.id = (σ j).node.id)
    (h : FsHop σ L p i j) :
  j ≠ i ∧ ChordID.arc (σ j).node.id (p.node L).id < ChordID.arc (σ i).node.id (p.node L).id
  := by
  obtain ⟨g, hg, hpeer⟩ := h.preceding
  obtain ⟨hmem, -, hlt⟩ := closestPrecedingFinger_mem hg
  rw [← hpoint i g hmem j hpeer]
  refine ⟨?_, ChordID.arc_lt_of_lt hlt⟩
  rintro rfl
  exact ((hinv j).fingers g hmem).2 hpeer

/-- The measure of a data packet on its way: how far it is from its target, and whether it
still has to pass it. -/
def dataMeasure (σ : ι → ChordServer) (id : ChordID) (c : ι × Bool) : ℕ :=
  if c.2 then ChordID.gap id (σ c.1).node.id
  else 2 ^ chordIdBits + ChordID.arc (σ c.1).node.id id

theorem DataHop.measure_lt (hinv : ∀ i, TableInv L (σ i))
    (hpoint : ∀ i, ∀ f ∈ (σ i).flist, ∀ j, f.node.peer = (σ j).node.peer →
      f.node.id = (σ j).node.id)
    (h : DataHop σ id c c') :
  dataMeasure σ id c' < dataMeasure σ id c
  := by
  obtain ⟨-, harc, hgap⟩ := h.nearer hinv hpoint
  rw [dataMeasure, dataMeasure]
  cases hc : c.2 with
  | true =>
      obtain ⟨hc', hlt⟩ := hgap hc
      simpa [hc'] using hlt
  | false =>
      cases hc' : c'.2 with
      | true =>
          apply lt_of_lt_of_le (ChordID.gap_lt id _)
          apply Nat.le_add_right
      | false =>
          have hlt := harc hc'
          simpa using hlt

/-- In a family of servers in arbitrary reachable states, in which the identifier of a
finger is that of the server it points to, no packet is forwarded by a server to itself or
forever.  A data hop that leaves the flag unset and a hop of a lookup bring the packet nearer
to its target; once the flag is set it stays set, and every hop brings the packet nearer to
its target from behind. -/
theorem routing_never_loops (hσ : ∀ i, Reachable L (σ i))
    (hpoint : ∀ i, ∀ f ∈ (σ i).flist, ∀ j, f.node.peer = (σ j).node.peer →
      f.node.id = (σ j).node.id) :
  (∀ id c c', DataHop σ id c c' → c'.1 ≠ c.1 ∧
      (c'.2 = false →
        ChordID.arc (σ c'.1).node.id id < ChordID.arc (σ c.1).node.id id) ∧
      (c.2 = true → c'.2 = true ∧
        ChordID.gap id (σ c'.1).node.id < ChordID.gap id (σ c.1).node.id)) ∧
    (∀ p i j, FsHop σ L p i j → j ≠ i ∧
      ChordID.arc (σ j).node.id (p.node L).id < ChordID.arc (σ i).node.id (p.node L).id) ∧
    (∀ id, ¬ ∃ c : ℕ → ι × Bool, ∀ k, DataHop σ id (c k) (c (k + 1))) ∧
    (∀ p, ¬ ∃ c : ℕ → ι, ∀ k, FsHop σ L p (c k) (c (k + 1)))
  := by
  have hinv := fun i => (hσ i).tableInv
  refine ⟨?_, ?_, ?_, ?_⟩
  · intro id c c' hop
    apply hop.nearer hinv hpoint
  · intro p i j hop
    apply hop.nearer hinv hpoint
  · intro id
    apply not_exists_chain_of_lt (dataMeasure σ id)
    intro c c' hop
    apply hop.measure_lt hinv hpoint
  · intro p
    apply not_exists_chain_of_lt fun i => ChordID.arc (σ i).node.id (p.node L).id
    intro i j hop
    apply (hop.nearer hinv hpoint).2

/-- Two servers, the first of which also knows a peer that is not among them. -/
def samplePair : Bool → ChordServer
  | true => sampleServer (samplePeer 1 0) [samplePeer 2 0, samplePeer 7 0]
  | false => sampleServer (samplePeer 2 0) [samplePeer 1 0]

/-- The first server sends a lookup on to the second, which is nearer to the target. -/
theorem routing_never_loops_sample :
  FsHop samplePair sampleLibrary (samplePeer 5 0) true false ∧
    ChordID.arc (samplePair false).node.id ((samplePeer 5 0).node sampleLibrary).id
      < ChordID.arc (samplePair true).node.id ((samplePeer 5 0).node sampleLibrary).id
  := by
  have hop : FsHop samplePair sampleLibrary (samplePeer 5 0) true false := by
    refine ⟨sampleIo, ⟨sampleTicket, 4, (samplePeer 5 0).addr.s6Addr, 1⟩, ⟨0, 0, 0⟩, _,
      ⟨sampleTicket, 3, (samplePeer 5 0).addr.s6Addr, 1⟩, rfl, rfl, ?_⟩
    decide
  have hroute := routing_never_loops (L := sampleLibrary) (σ := samplePair)
    (by
      intro b
      cases b with
      | true => apply sampleServer_reachable
      | false => apply sampleServer_reachable)
    (by decide)
  exact ⟨hop, (hroute.2.1 _ _ _ hop).2⟩

end Chain

end Tangent

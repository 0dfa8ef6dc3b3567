import Tangent.Handlers
import Tangent.Table.Step

/-!
# What packets do to the finger table

`PacketEffect` lists what a handler can do to a server: nothing, adopt an address, insert
the peer the message names, or insert the sender of a pong whose ticket verifies and
activate it.  Each of these is a sequence of steps of the finger table, whose kinds are
given by the type of the message.
-/

namespace Tangent

variable {L : Library} {io : Io} {srv srv' : ChordServer} {f : Finger} {p frm : Peer}
  {r : Inserted} {out : Outcome} {msg : Msg}

/-! ### Insertion -/

/-- The finger `get_worst_passive_finger` finds is a passive finger of the list. -/
theorem worstPassiveLoop_mem :
    ∀ {fs : List Finger} {worst : Option Finger} {record : ℤ} {f : Finger},
      worstPassiveLoop fs worst record = some f →
      worst = some f ∨ (f ∈ fs ∧ f.isPassive = true)
  | [], _, _, _, h => .inl h
  | g :: fs, worst, record, f, h => by
      rw [worstPassiveLoop] at h
      split at h
      · rename_i hg
        split at h
        · cases h
          exact .inr ⟨List.mem_cons_self, hg.1⟩
        · rcases worstPassiveLoop_mem h with h | ⟨h, hp⟩
          · cases h
            exact .inr ⟨List.mem_cons_self, hg.1⟩
          · exact .inr ⟨List.mem_cons_of_mem g h, hp⟩
      · rcases worstPassiveLoop_mem h with h | ⟨h, hp⟩
        · exact .inl h
        · exact .inr ⟨List.mem_cons_of_mem g h, hp⟩

/-- Making room evicts at most one passive finger and leaves fewer than
`maxPassiveFingers` of them. -/
theorem evictPassive_spec (h : TableInv L srv) (he : evictPassive srv = .ok srv') :
  TableSteps L {.evict} srv srv' ∧ srv'.node = srv.node ∧ srv'.flist.Sublist srv.flist ∧
    srv'.numPassiveFingers < maxPassiveFingers
  := by
  rw [evictPassive] at he
  split at he
  · split at he
    · cases he
    · rename_i f hworst
      cases he
      rcases worstPassiveLoop_mem hworst with hf | ⟨hf, hp⟩
      · cases hf
      · obtain ⟨l₁, l₂, hl⟩ := List.append_of_mem hf
        have hle := h.passive_le
        use (TableStep.evict f hf hp).steps rfl, (removeFinger_sameNode srv f).1
        rw [h.removeFinger_eq hl]
        constructor
        · simp [withBound, hl]
        · simp only [withBound, hp, if_true]
          omega
  · rename_i hlt
    cases he
    exact ⟨TableSteps.refl srv, rfl, List.Sublist.refl _, not_le.mp hlt⟩

/-- What `insert_finger` does for a peer: nothing for the server itself, nothing for a
peer it knows, replace the peer of a finger, or insert a finger. -/
theorem insertFinger_cases (hr : insertFinger srv (p.node L).id p.addr p.port = .ok r) :
  (p = srv.node.peer ∧ r = ⟨srv, none, none⟩) ∨
    (p ≠ srv.node.peer ∧ ∃ f ∈ srv.flist, f.node.id = (p.node L).id ∧ f.node.addr = p.addr ∧
      r = ⟨srv, some f.node.id, some false⟩) ∨
    (p ≠ srv.node.peer ∧ ∃ f ∈ srv.flist, f.node.id = (p.node L).id ∧ f.node.addr ≠ p.addr ∧
      r = ⟨modifyFinger srv f.node.id (replacePeer p.addr p.port), some f.node.id,
        some false⟩) ∨
    (p ≠ srv.node.peer ∧ (∀ f ∈ srv.flist, f.node.id ≠ (p.node L).id) ∧
      ∃ srv₁, evictPassive srv = .ok srv₁ ∧
        r = ⟨fingerlistInsert
            { srv₁ with numPassiveFingers := srv₁.numPassiveFingers + 1 }
            (newFinger (p.node L)), some (p.node L).id, some true⟩)
  := by
  rw [insertFinger] at hr
  split at hr
  · rename_i hp
    cases hr
    exact .inl ⟨Node.peer_eq_iff.mpr hp, rfl⟩
  · rename_i hp
    rw [← Node.peer_eq_iff] at hp
    split at hr
    · rename_i f hget
      obtain ⟨hid, -⟩ := List.find?_eq_some_iff_append.mp hget
      have hmem := List.mem_of_find?_eq_some hget
      rw [idEquals_iff] at hid
      simp only [v6AddrEquals_iff] at hr
      split at hr
      · rename_i haddr
        cases hr
        exact .inr (.inr (.inl ⟨hp, f, hmem, hid.symm, haddr, rfl⟩))
      · rename_i haddr
        cases hr
        exact .inr (.inl ⟨hp, f, hmem, hid.symm, not_not.mp haddr, rfl⟩)
    · rename_i hget
      obtain ⟨srv₁, hev, heq⟩ := Except.bind_eq_ok.mp hr
      cases heq
      refine .inr (.inr (.inr ⟨hp, ?_, srv₁, hev, rfl⟩))
      intro f hf hid
      have := List.find?_eq_none.mp hget f hf
      simp [hid] at this

/-- An insertion that returns no finger was for the server itself, and keeps the server. -/
theorem insertFinger_none (hr : insertFinger srv (p.node L).id p.addr p.port = .ok r)
    (hnone : r.finger = none) :
  r.srv = srv
  := by
  obtain ⟨-, rfl⟩ | ⟨-, f, -, -, -, rfl⟩ | ⟨-, f, -, -, -, rfl⟩ | ⟨-, -, srv₁, -, rfl⟩ :=
    insertFinger_cases hr
  · rfl
  · cases hnone
  · cases hnone
  · cases hnone

/-- The steps of an insertion. -/
theorem insertFinger_steps (h : TableInv L srv) (hd : srv.Discovered)
    (hr : insertFinger srv (p.node L).id p.addr p.port = .ok r) :
  TableSteps L {.insert, .evict, .replace} srv r.srv
  := by
  obtain ⟨-, rfl⟩ | ⟨-, f, -, -, -, rfl⟩ | ⟨hp, f, hf, hid, -, rfl⟩ |
    ⟨hp, hnew, srv₁, hev, rfl⟩ := insertFinger_cases hr
  · apply TableSteps.refl
  · apply TableSteps.refl
  · apply TableStep.steps (TableStep.replace f p hf hp hid)
    simp
  · obtain ⟨hsteps, hnode, hsub, hroom⟩ := evictPassive_spec h hev
    apply TableSteps.trans (hsteps.mono (by simp))
    apply TableStep.steps (TableStep.insert p _ _ _ hroom)
    · simp
    · rw [ChordServer.Discovered, hnode]
      apply hd
    · rw [hnode]
      apply hp
    · intro f hf
      apply hnew f (hsub.subset hf)

/-- The identifier an insertion returns is that of the peer, and there is a finger under
it in the list. -/
theorem insertFinger_mem (h : TableInv L srv) {id : ChordID}
    (hr : insertFinger srv (p.node L).id p.addr p.port = .ok r) (hid : r.finger = some id) :
  id = (p.node L).id ∧ ∃ f ∈ r.srv.flist, f.node.id = id
  := by
  obtain ⟨-, rfl⟩ | ⟨-, f, hf, hfid, -, rfl⟩ | ⟨-, f, hf, hfid, -, rfl⟩ |
    ⟨-, hnew, srv₁, hev, rfl⟩ := insertFinger_cases hr
  · cases hid
  · cases hid
    exact ⟨hfid, f, hf, rfl⟩
  · cases hid
    use hfid, replacePeer p.addr p.port f
    obtain ⟨l₁, l₂, hl⟩ := List.append_of_mem hf
    simp [h.order.modifyFinger_eq hl, replacePeer]
  · cases hid
    use rfl, newFinger (p.node L)
    obtain ⟨hsteps, -, hsub, -⟩ := evictPassive_spec h hev
    obtain ⟨l₁, l₂, -, heq, -⟩ := exists_insert_eq (hsteps.inv h).order
      fun f hf => hnew f (hsub.subset hf)
    rw [heq]
    simp [newFinger]

/-- The fingers after an insertion have nodes from before it, or the node of the peer. -/
theorem insertFinger_mem_node (h : TableInv L srv) {g : Finger}
    (hr : insertFinger srv (p.node L).id p.addr p.port = .ok r) (hg : g ∈ r.srv.flist) :
  (∃ f ∈ srv.flist, f.node = g.node) ∨ g.node = p.node L
  := by
  obtain ⟨-, rfl⟩ | ⟨-, f, -, -, -, rfl⟩ | ⟨-, f, hf, hid, -, rfl⟩ |
    ⟨-, hnew, srv₁, hev, rfl⟩ := insertFinger_cases hr
  · exact .inl ⟨g, hg, rfl⟩
  · exact .inl ⟨g, hg, rfl⟩
  · obtain ⟨a, ha, rfl⟩ := List.mem_map.mp hg
    split
    · rename_i hid'
      right
      simp only [replacePeer, hid', hid]
      rfl
    · exact .inl ⟨a, ha, rfl⟩
  · obtain ⟨hsteps, -, hsub, -⟩ := evictPassive_spec h hev
    obtain ⟨l₁, l₂, hl, heq, -⟩ := exists_insert_eq (hsteps.inv h).order
      fun f hf => hnew f (hsub.subset hf)
    rw [heq] at hg
    simp only [List.mem_append, List.mem_cons] at hg
    rcases hg with hg | rfl | hg
    · exact .inl ⟨g, hsub.subset (by simp [hl, hg]), rfl⟩
    · exact .inr rfl
    · exact .inl ⟨g, hsub.subset (by simp [hl, hg]), rfl⟩

/-! ### Accepting a pong -/

/-- A finger of the list is found under its identifier. -/
theorem TableInv.getFinger_eq (h : TableInv L srv) (hf : f ∈ srv.flist) :
  getFinger srv f.node.id = some f
  := by
  cases hget : getFinger srv f.node.id with
  | none =>
      have := List.find?_eq_none.mp hget f hf
      simp at this
  | some g =>
      obtain ⟨hid, -⟩ := List.find?_eq_some_iff_append.mp hget
      rw [idEquals_iff] at hid
      rw [h.order.eq_of_id_eq hf (List.mem_of_find?_eq_some hget) hid]

/-- The end of `process_pong` brings the range up to date if it was up to date for the
predecessor it is given, and the server has not lost its predecessor. -/
theorem refreshPred_eq {pred : Option Finger}
    (h : srv.predBound = (pred.map (·.node.id)).getD srv.node.id)
    (hpred : predFinger srv = none → pred = none) :
  refreshPred srv pred = .ok (withBound srv)
  := by
  rw [refreshPred, withBound, ownBound_eq]
  cases hnew : predFinger srv with
  | none =>
      obtain rfl := hpred hnew
      simp only [Option.map_none, Option.getD_none] at h ⊢
      rw [if_pos trivial, ← h]
  | some newpred =>
      simp only [Option.map_some, Option.getD_some, ne_eq]
      split
      · rfl
      · rename_i hne
        rw [not_not.mp hne] at h
        simp only [Option.getD_some] at h
        rw [← h]

/-- What `process_pong` does with the finger: it refreshes it, activates it and brings the
range up to date. -/
theorem acceptPong_eq (h : TableInv L srv) (hf : f ∈ srv.flist) (newRtt : ℤ) :
  acceptPong srv f.node.id newRtt = .ok
    (withBound (activateFinger (modifyFinger srv f.node.id (refreshFinger newRtt))
      (refreshFinger newRtt f)))
  := by
  have hinv : TableInv L (modifyFinger srv f.node.id (refreshFinger newRtt)) :=
    (TableStep.touch f _ hf rfl rfl).inv h
  have hf' : refreshFinger newRtt f
      ∈ (modifyFinger srv f.node.id (refreshFinger newRtt)).flist := by
    apply List.mem_map.mpr
    exact ⟨f, hf, if_pos rfl⟩
  have hget : getFinger (modifyFinger srv f.node.id (refreshFinger newRtt)) f.node.id
      = some (refreshFinger newRtt f) := hinv.getFinger_eq hf'
  rw [acceptPong, hget]
  apply refreshPred_eq
  · rw [activateFinger]
    split
    · apply hinv.bound.trans (ownBound_eq _)
    · apply hinv.bound.trans (ownBound_eq _)
  · by_cases hp : (refreshFinger newRtt f).isPassive
    · obtain ⟨l₁, l₂, hl⟩ := List.append_of_mem hf'
      rw [hinv.activateFinger_eq hl hp]
      intro hnone
      have := List.find?_eq_none.mp hnone { refreshFinger newRtt f with status := .active }
      simp [Finger.isActive] at this
    · rw [activateFinger, if_neg hp]
      exact id

/-- The steps of `process_pong` after the insertion. -/
theorem acceptPong_steps (h : TableInv L srv) (hf : f ∈ srv.flist) {newRtt : ℤ}
    (ha : acceptPong srv f.node.id newRtt = .ok srv') :
  TableSteps L {.touch, .activate} srv srv'
  := by
  have htouch : TableStep L .touch srv (modifyFinger srv f.node.id (refreshFinger newRtt)) :=
    TableStep.touch f _ hf rfl rfl
  have hinv := htouch.inv h
  have hf' : refreshFinger newRtt f
      ∈ (modifyFinger srv f.node.id (refreshFinger newRtt)).flist := by
    apply List.mem_map.mpr
    exact ⟨f, hf, if_pos rfl⟩
  rw [acceptPong_eq h hf, Except.ok.injEq] at ha
  subst ha
  apply TableSteps.trans (htouch.steps (by simp))
  by_cases hp : (refreshFinger newRtt f).isPassive
  · apply (TableStep.activate _ hf' hp).steps
    simp
  · rw [activateFinger, if_neg hp, withBound, ← hinv.bound]
    apply TableSteps.refl

/-- The fingers after a pong are fingers from before it, but for the finger of the pong,
which keeps its node and has no unanswered pings. -/
theorem acceptPong_mem (h : TableInv L srv) (hf : f ∈ srv.flist) {newRtt : ℤ} {g : Finger}
    (ha : acceptPong srv f.node.id newRtt = .ok srv') (hg : g ∈ srv'.flist) :
  (g ∈ srv.flist ∧ g.node.id ≠ f.node.id) ∨ (g.node = f.node ∧ g.npings = 0)
  := by
  rw [acceptPong_eq h hf, Except.ok.injEq] at ha
  subst ha
  have hmodify : ∀ g ∈ (modifyFinger srv f.node.id (refreshFinger newRtt)).flist,
      (g ∈ srv.flist ∧ g.node.id ≠ f.node.id) ∨ (g.node = f.node ∧ g.npings = 0) := by
    intro g hg
    obtain ⟨a, ha, rfl⟩ := List.mem_map.mp hg
    split
    · rename_i hid
      obtain rfl := h.order.eq_of_id_eq ha hf hid
      exact .inr ⟨rfl, rfl⟩
    · rename_i hid
      exact .inl ⟨ha, hid⟩
  rw [withBound, activateFinger] at hg
  split at hg
  · obtain ⟨a, ha, rfl⟩ := List.mem_map.mp hg
    split
    · rename_i hid
      rcases hmodify a ha with ⟨-, hne⟩ | hrenewed
      · exact absurd hid hne
      · exact .inr hrenewed
    · apply hmodify a ha
  · apply hmodify g hg

/-! ### The handlers -/

/-- The peer a handler inserts on the word of the packet alone: the one the message names,
or the sender. -/
def Msg.named (io : Io) (frm : Peer) : Msg → Option Peer
  | .fsReply m => some ⟨fieldAddr m.addr io.behind, m.port.toUInt16⟩
  | .stab m => some ⟨fieldAddr m.addr io.behind, m.port.toUInt16⟩
  | .stabReply m => some ⟨fieldAddr m.addr io.behind, m.port.toUInt16⟩
  | .notify => some frm
  | .ping _ => some frm
  | _ => none

/-- The ticket of a pong verifies for a ping to its sender. -/
def pongVerified (L : Library) (io : Io) (srv : ChordServer) (frm : Peer) (m : Pong) : Prop :=
  verifyTicket L srv (io.time 0) m.ticket (pingArgs frm.addr frm.port m.time) = .ok true

/-- What a handler can do to a server. -/
inductive PacketEffect (L : Library) (io : Io) (srv : ChordServer) (frm : Peer) :
    Msg → ChordServer → Prop where
  | keep {msg : Msg} : PacketEffect L io srv frm msg srv
  | adopt {m : AddrDiscoverReply} (undiscovered : ¬ srv.Discovered) :
      PacketEffect L io srv frm (.addrDiscoverReply m)
        (adoptAddress L srv (fieldAddr m.addr io.behind))
  | insert {msg : Msg} {p : Peer} {r : Inserted} (discovered : srv.Discovered)
      (named : msg.named io frm = some p)
      (ticket : ∀ m, msg = .fsReply m →
        verifyTicket L srv (io.time 0) m.ticket fsArgs = .ok true)
      (inserted : insertFinger srv (p.node L).id p.addr p.port = .ok r) :
      PacketEffect L io srv frm msg r.srv
  | accept {m : Pong} {r : Inserted} {id : ChordID} {newRtt : ℤ} {srv' : ChordServer}
      (discovered : srv.Discovered) (verified : pongVerified L io srv frm m)
      (inserted : insertFinger srv (frm.node L).id frm.addr frm.port = .ok r)
      (finger : r.finger = some id) (accepted : acceptPong r.srv id newRtt = .ok srv') :
      PacketEffect L io srv frm (.pong m) srv'

/-- `process_data` keeps the server. -/
theorem processData_srv {m : Data} {n : Node} (h : processData io srv m n = .ok out) :
  out.srv = srv
  := by
  obtain ⟨ret, -, -, rfl⟩ | ⟨-, -, -, rfl⟩ | ⟨-, -, -, rfl⟩ := processData_cases h
  · rfl
  · rfl
  · rfl

/-- `process_fs` keeps the server. -/
theorem processFs_srv {m : FindSuccessor} {n : Node} (h : processFs L io srv m n = .ok out) :
  out.srv = srv
  := by
  obtain ⟨ret, -, -, rfl⟩ | ⟨-, -, -, rfl⟩ | ⟨-, -, -, -, rfl⟩ | ⟨-, -, -, s, -, -, rfl⟩ |
    ⟨-, -, -, s, -, -, rfl⟩ := processFs_cases h
  · rfl
  · rfl
  · rfl
  · rfl
  · rfl

/-- A handler that inserts the peer the message names, without a ticket. -/
theorem PacketEffect.of_insert (named : msg.named io frm = some p)
    (ticket : ∀ m, msg ≠ .fsReply m) (hd : srv.Discovered)
    (hr : insertFinger srv (p.node L).id p.addr p.port = .ok r) :
  PacketEffect L io srv frm msg r.srv
  := by
  apply PacketEffect.insert hd named _ hr
  intro m hm
  exact absurd hm (ticket m)

theorem processFsReply_effect {m : FindSuccessorReply}
    (h : processFsReply L io srv m (frm.node L) = .ok out) :
  PacketEffect L io srv frm (.fsReply m) out.srv
  := by
  obtain ⟨ret, -, -, rfl⟩ | ⟨-, -, -, rfl⟩ | ⟨hd, hv, -, r, hr, rfl⟩ :=
    processFsReply_cases (n := frm.node L) h
  · apply PacketEffect.keep
  · apply PacketEffect.keep
  · apply PacketEffect.insert hd (p := ⟨fieldAddr m.addr io.behind, m.port.toUInt16⟩) rfl _ hr
    intro m' hm'
    cases hm'
    exact hv

theorem processStab_effect {m : Stabilize}
    (h : processStab L io srv m (frm.node L) = .ok out) :
  PacketEffect L io srv frm (.stab m) out.srv
  := by
  obtain ⟨-, rfl⟩ | ⟨hd, r, hr, rfl | ⟨pred, -, rfl⟩⟩ := processStab_cases (n := frm.node L) h
  · apply PacketEffect.keep
  · exact PacketEffect.of_insert rfl (by simp) hd hr
  · exact PacketEffect.of_insert rfl (by simp) hd hr

theorem processStabReply_effect {m : StabilizeReply}
    (h : processStabReply L io srv m (frm.node L) = .ok out) :
  PacketEffect L io srv frm (.stabReply m) out.srv
  := by
  obtain ⟨-, rfl⟩ | ⟨-, -, rfl⟩ | ⟨hd, -, r, hr, succ, -, rfl⟩ :=
    processStabReply_cases (n := frm.node L) h
  · apply PacketEffect.keep
  · apply PacketEffect.keep
  · exact PacketEffect.of_insert rfl (by simp) hd hr

theorem processNotify_effect (h : processNotify L io srv (frm.node L) = .ok out) :
  PacketEffect L io srv frm .notify out.srv
  := by
  obtain ⟨-, rfl⟩ | ⟨hd, r, hr, rfl⟩ := processNotify_cases h
  · apply PacketEffect.keep
  · exact PacketEffect.of_insert rfl (by simp) hd hr

theorem processPing_effect {m : Ping} (h : processPing L io srv m (frm.node L) = .ok out) :
  PacketEffect L io srv frm (.ping m) out.srv
  := by
  obtain ⟨-, rfl⟩ | ⟨hd, r, hr, rfl⟩ := processPing_cases h
  · apply PacketEffect.keep
  · exact PacketEffect.of_insert rfl (by simp) hd hr

theorem processPong_effect {m : Pong} (h : processPong L io srv m (frm.node L) = .ok out) :
  PacketEffect L io srv frm (.pong m) out.srv
  := by
  obtain ⟨ret, -, -, rfl⟩ | ⟨hd, hv, r, hr, ⟨hnone, rfl⟩ | ⟨id, srv', hid, ha, rfl⟩⟩ :=
    processPong_cases h
  · apply PacketEffect.keep
  · rw [insertFinger_none hr hnone]
    apply PacketEffect.keep
  · exact PacketEffect.accept hd hv hr hid ha

theorem processAddrDiscoverReply_effect {m : AddrDiscoverReply}
    (h : processAddrDiscoverReply L io srv m (frm.node L) = .ok out) :
  PacketEffect L io srv frm (.addrDiscoverReply m) out.srv
  := by
  obtain ⟨-, rfl⟩ | ⟨hun, -, rfl⟩ | ⟨-, rfl⟩ := processAddrDiscoverReply_cases h
  · apply PacketEffect.keep
  · exact PacketEffect.adopt hun
  · apply PacketEffect.keep

/-- What a packet does to a server is one of the effects. -/
theorem process_effect (h : process L io srv msg (frm.node L) = .ok out) :
  PacketEffect L io srv frm msg out.srv
  := by
  cases msg with
  | addrDiscover m =>
      cases h
      apply PacketEffect.keep
  | addrDiscoverReply m => apply processAddrDiscoverReply_effect h
  | data m =>
      obtain rfl : out.srv = srv := processData_srv (n := frm.node L) h
      apply PacketEffect.keep
  | fs m =>
      obtain rfl : out.srv = srv := processFs_srv (n := frm.node L) h
      apply PacketEffect.keep
  | fsReply m => apply processFsReply_effect h
  | stab m => apply processStab_effect h
  | stabReply m => apply processStabReply_effect h
  | notify => apply processNotify_effect h
  | ping m => apply processPing_effect h
  | pong m => apply processPong_effect h

/-! ### The steps of a packet -/

/-- The kinds of steps a packet from `frm` can cause in a server. -/
def packetKinds (L : Library) (io : Io) (srv : ChordServer) (frm : Peer) (msg : Msg) :
    Set Kind :=
  {k | k ∈ ({.insert, .evict, .replace, .touch} : Set Kind) ∨ (k = .adopt ∧ ¬ srv.Discovered) ∨
    (k = .activate ∧ ∃ m, msg = .pong m ∧ pongVerified L io srv frm m)}

/-- A packet causes steps that insert, evict, replace or touch fingers; it adopts an
address only if there is none, and activates only for a verified pong. -/
theorem process_steps (h : TableInv L srv)
    (ho : process L io srv msg (frm.node L) = .ok out) :
  TableSteps L (packetKinds L io srv frm msg) srv out.srv
  := by
  have he := process_effect ho
  generalize out.srv = srv' at he ⊢
  cases he with
  | keep => apply TableSteps.refl
  | adopt undiscovered =>
      apply (TableStep.adopt _ undiscovered).steps
      exact .inr (.inl ⟨rfl, undiscovered⟩)
  | insert discovered named ticket inserted =>
      apply (insertFinger_steps h discovered inserted).mono
      rintro k (rfl | rfl | rfl) <;> simp [packetKinds]
  | accept discovered verified inserted finger accepted =>
      have hins := insertFinger_steps h discovered inserted
      obtain ⟨rfl, f, hf, hid⟩ := insertFinger_mem h inserted finger
      rw [← hid] at accepted
      have hacc := acceptPong_steps (hins.inv h) hf accepted
      apply TableSteps.trans
      · apply hins.mono
        rintro k (rfl | rfl | rfl) <;> simp [packetKinds]
      · apply hacc.mono
        rintro k (rfl | rfl)
        · simp [packetKinds]
        · exact .inr (.inr ⟨rfl, _, rfl, verified⟩)

/-- The fingers after a packet have nodes from before it, or the node of the peer the packet
names or comes from. -/
theorem process_mem_node (h : TableInv L srv) {g : Finger}
    (ho : process L io srv msg (frm.node L) = .ok out) (hg : g ∈ out.srv.flist) :
  (∃ f ∈ srv.flist, f.node = g.node) ∨
    ∃ p, (msg.named io frm = some p ∨ p = frm) ∧ g.node = p.node L
  := by
  have he := process_effect ho
  generalize out.srv = srv' at he hg
  cases he with
  | keep => exact .inl ⟨g, hg, rfl⟩
  | adopt undiscovered => exact .inl ⟨g, hg, rfl⟩
  | insert discovered named ticket inserted =>
      rcases insertFinger_mem_node h inserted hg with hold | hnew
      · exact .inl hold
      · exact .inr ⟨_, .inl named, hnew⟩
  | @accept m r id newRtt srv' discovered verified inserted finger accepted =>
      have hinv := (insertFinger_steps h discovered inserted).inv h
      obtain ⟨rfl, f, hf, hid⟩ := insertFinger_mem h inserted finger
      rw [← hid] at accepted
      have hmem : ∃ g' ∈ r.srv.flist, g'.node = g.node := by
        rcases acceptPong_mem hinv hf accepted hg with ⟨hg, -⟩ | ⟨hnode, -⟩
        · exact ⟨g, hg, rfl⟩
        · exact ⟨f, hf, hnode.symm⟩
      obtain ⟨g', hg', hnode⟩ := hmem
      rw [← hnode]
      rcases insertFinger_mem_node h inserted hg' with hold | hnew
      · exact .inl hold
      · exact .inr ⟨frm, .inr rfl, hnew⟩

end Tangent

import Tangent.Security.Tickets

/-!
# The fingers a handler uses

The handlers look up the successor and the predecessor with `succ_finger` and `pred_finger`,
which return no finger if none is active.  `UsesFinger` lists where a handler then uses what it
got as a node.  All of these are behind a test or find an active finger in every reachable
state, except for one: the handler of stabilize replies notifies the successor, whether there
is one or not.
-/

namespace Tangent

variable {L : Library} {io : Io} {srv srv' : ChordServer} {frm p : Peer} {msg : Msg}
  {f : Finger} {r : Inserted}

/-! ### Insertion always succeeds -/

/-- `get_worst_passive_finger` finds a finger if it has one already or one is left that beats
the record. -/
theorem worstPassiveLoop_isSome (fs : List Finger) (worst : Option Finger) (record : ℤ)
    (h : worst.isSome = true ∨ ∃ f ∈ fs, f.isPassive = true ∧ record < f.npings) :
  (worstPassiveLoop fs worst record).isSome = true
  := by
  induction fs generalizing worst record with
  | nil =>
      rcases h with h | ⟨f, hf, -⟩
      · exact h
      · cases hf
  | cons g fs ih =>
      rw [worstPassiveLoop]
      split
      · split
        · rfl
        · apply ih
          exact .inl rfl
      · rename_i hg
        apply ih
        rcases h with h | ⟨f, hf, hbeats⟩
        · exact .inl h
        · rcases List.mem_cons.mp hf with rfl | hf
          · exact absurd hbeats hg
          · exact .inr ⟨f, hf, hbeats⟩

/-- There is a passive finger to evict when there are too many. -/
theorem TableInv.evictPassive_ok (h : TableInv L srv) :
  ∃ srv', evictPassive srv = .ok srv'
  := by
  rw [evictPassive]
  split
  · rename_i hfull
    have hpos : 0 < srv.flist.countP Finger.isPassive := by
      have hcount := h.passive
      have hmany : (20 : ℤ) ≤ srv.numPassiveFingers := hfull
      omega
    obtain ⟨f, hf, hp⟩ := List.countP_pos_iff.mp hpos
    have hworst : (getWorstPassiveFinger srv).isSome = true := by
      apply worstPassiveLoop_isSome
      refine .inr ⟨f, hf, hp, ?_⟩
      omega
    obtain ⟨worst, hworst⟩ := Option.isSome_iff_exists.mp hworst
    rw [hworst]
    exact ⟨_, rfl⟩
  · exact ⟨srv, rfl⟩

/-- No assertion of `insert_finger` fails. -/
theorem TableInv.insertFinger_ok (h : TableInv L srv) (id : ChordID) (addr : In6Addr)
    (port : UInt16) :
  ∃ r, insertFinger srv id addr port = .ok r
  := by
  rw [insertFinger]
  split
  · exact ⟨_, rfl⟩
  · split
    · split
      · exact ⟨_, rfl⟩
      · exact ⟨_, rfl⟩
    · obtain ⟨srv', hev⟩ := h.evictPassive_ok
      exact ⟨_, Except.bind_eq_ok.mpr ⟨srv', hev, rfl⟩⟩

/-- An insertion keeps the identifiers of the active fingers. -/
theorem TableInv.insertFinger_activeIds (h : TableInv L srv) (hd : srv.Discovered)
    (hr : insertFinger srv (p.node L).id p.addr p.port = .ok r) :
  activeIds r.srv = activeIds srv
  := by
  apply ((insertFinger_steps h hd hr).quiet h _).2.1
  rintro k (rfl | rfl | rfl) <;> simp [quiet]

/-- A server has a successor if and only if it has an active finger. -/
theorem succFinger_eq_none_iff :
  succFinger srv = none ↔ activeIds srv = []
  := by
  rw [← List.head?_eq_none_iff, ← succFinger_map_id, Option.map_eq_none_iff]

theorem TableInv.succFinger_insertFinger (h : TableInv L srv) (hd : srv.Discovered)
    (hr : insertFinger srv (p.node L).id p.addr p.port = .ok r) :
  succFinger r.srv = none ↔ succFinger srv = none
  := by
  rw [succFinger_eq_none_iff, succFinger_eq_none_iff, h.insertFinger_activeIds hd hr]

/-! ### The uses of the successor and the predecessor -/

/-- The peer a message with an address and a port names. -/
def peerNamed (io : Io) (addr : Bytes) (port : UInt32) : Peer :=
  ⟨fieldAddr addr io.behind, port.toUInt16⟩

/-- The handler of the message uses the result `o` of `succ_finger` or `pred_finger` as a node,
at a moment when the server is `s`.  `process_stab` looks up the predecessor before it inserts
a finger, and uses it afterwards; `process_pong` uses the new predecessor if it differs from
the one before the activation. -/
inductive UsesFinger (L : Library) (io : Io) (srv : ChordServer) (frm : Peer) :
    Msg → ChordServer → Option Finger → Prop where
  | dataPred {m : Data} (copied : m.id ≠ []) (discovered : srv.Discovered)
      (alive : m.ttl - 1 ≠ 0)
      (remote : chordIdIsLocal srv (fieldId m.id io.behind) = false) (last : m.last = true)
      (found : predFinger srv ≠ none) :
      UsesFinger L io srv frm (.data m) srv (predFinger srv)
  | dataSucc {m : Data} (copied : m.id ≠ []) (discovered : srv.Discovered)
      (alive : m.ttl - 1 ≠ 0)
      (remote : chordIdIsLocal srv (fieldId m.id io.behind) = false)
      (last : m.last = true → predFinger srv = none) (found : succFinger srv ≠ none) :
      UsesFinger L io srv frm (.data m) srv (succFinger srv)
  | fs {m : FindSuccessor} (discovered : srv.Discovered) (copied : m.addr ≠ [])
      (alive : m.ttl - 1 ≠ 0)
      (other : peerNamed io m.addr m.port ≠ srv.node.peer) (found : succFinger srv ≠ none) :
      UsesFinger L io srv frm (.fs m) srv (succFinger srv)
  | stab {m : Stabilize} {pred : Finger} {r : Inserted} (discovered : srv.Discovered)
      (copied : m.addr ≠ [])
      (found : predFinger srv = some pred)
      (inserted : insertFinger srv ((peerNamed io m.addr m.port).node L).id
        (peerNamed io m.addr m.port).addr (peerNamed io m.addr m.port).port = .ok r) :
      UsesFinger L io srv frm (.stab m) r.srv (getFinger r.srv pred.node.id)
  | stabReply {m : StabilizeReply} {r : Inserted} (discovered : srv.Discovered)
      (copied : m.addr ≠ [])
      (other : ¬ namesSelf srv (fieldAddr m.addr io.behind) m.port)
      (inserted : insertFinger srv ((peerNamed io m.addr m.port).node L).id
        (peerNamed io m.addr m.port).addr (peerNamed io m.addr m.port).port = .ok r) :
      UsesFinger L io srv frm (.stabReply m) r.srv (succFinger r.srv)
  | ping {m : Ping} {r : Inserted} (discovered : srv.Discovered)
      (inserted : insertFinger srv (frm.node L).id frm.addr frm.port = .ok r)
      (fresh : r.fnew.getD io.fnew = true) (found : predFinger r.srv ≠ none) :
      UsesFinger L io srv frm (.ping m) r.srv (predFinger r.srv)
  | pong {m : Pong} {r : Inserted} {id : ChordID} {f : Finger} {newRtt : ℤ}
      (discovered : srv.Discovered) (verified : pongVerified L io srv frm m)
      (inserted : insertFinger srv (frm.node L).id frm.addr frm.port = .ok r)
      (finger : r.finger = some id)
      (rtt : newRtt = (io.now 0 - m.time).toInt64.toInt)
      (refreshed : getFinger (modifyFinger r.srv id (refreshFinger newRtt)) id = some f)
      (moved : (predFinger (modifyFinger r.srv id (refreshFinger newRtt))).map (·.node.id)
        ≠ (predFinger (activateFinger (modifyFinger r.srv id (refreshFinger newRtt)) f)).map
          (·.node.id)) :
      UsesFinger L io srv frm (.pong m)
        (activateFinger (modifyFinger r.srv id (refreshFinger newRtt)) f)
        (predFinger (activateFinger (modifyFinger r.srv id (refreshFinger newRtt)) f))

/-- A stabilize reply about another peer, with an address, reaches a server that knows its own
address and has no active finger. -/
def repliesWithoutSuccessor (io : Io) (srv : ChordServer) : Msg → Prop
  | .stabReply m =>
      srv.Discovered ∧ m.addr ≠ [] ∧ ¬ namesSelf srv (fieldAddr m.addr io.behind) m.port ∧
        succFinger srv = none
  | _ => False

theorem succFinger_active (h : succFinger srv ≠ none) :
  ∃ f ∈ srv.flist, f.isActive = true ∧ succFinger srv = some f
  := by
  obtain ⟨f, hf⟩ := Option.ne_none_iff_exists'.mp h
  obtain ⟨hmem, hactive⟩ := succFinger_mem hf
  exact ⟨f, hmem, hactive, hf⟩

theorem predFinger_active (h : predFinger srv ≠ none) :
  ∃ f ∈ srv.flist, f.isActive = true ∧ predFinger srv = some f
  := by
  obtain ⟨f, hf⟩ := Option.ne_none_iff_exists'.mp h
  obtain ⟨hmem, hactive⟩ := predFinger_mem hf
  exact ⟨f, hmem, hactive, hf⟩

/-- The predecessor is still an active finger of the list after an insertion. -/
theorem TableInv.getFinger_pred (h : TableInv L srv) (hd : srv.Discovered) {pred : Finger}
    (hpred : predFinger srv = some pred)
    (hr : insertFinger srv (p.node L).id p.addr p.port = .ok r) :
  ∃ f ∈ r.srv.flist, f.isActive = true ∧ getFinger r.srv pred.node.id = some f
  := by
  have hmem : pred.node.id ∈ activeIds r.srv := by
    rw [h.insertFinger_activeIds hd hr]
    apply List.mem_of_getLast?
    rw [← predFinger_map_id, hpred]
    rfl
  obtain ⟨f, hf, hid⟩ := List.mem_map.mp hmem
  obtain ⟨hf, hactive⟩ := List.mem_filter.mp hf
  have hinv := (insertFinger_steps h hd hr).inv h
  rw [← hid]
  exact ⟨f, hf, hactive, hinv.getFinger_eq hf⟩

/-- There is a predecessor after a finger of the list has been activated. -/
theorem TableInv.predFinger_activateFinger (h : TableInv L srv) (hf : f ∈ srv.flist) :
  predFinger (activateFinger srv f) ≠ none
  := by
  have hactive : ∃ g ∈ (activateFinger srv f).flist, g.isActive = true := by
    by_cases hp : f.isPassive = true
    · obtain ⟨l₁, l₂, hl⟩ := List.append_of_mem hf
      rw [h.activateFinger_eq hl hp]
      use { f with status := .active }
      simp [Finger.isActive]
    · rw [activateFinger, if_neg hp]
      use f, hf
      rw [← Bool.not_eq_false, ← Finger.isPassive_iff]
      exact hp
  obtain ⟨g, hg, hactive⟩ := hactive
  intro hnone
  exact List.find?_eq_none.mp hnone g (List.mem_reverse.mpr hg) hactive

/-! ### The faults of the handlers -/

/-- The ticket the handler of the message tests, if it tests one, can be freed. -/
def Msg.ticketFreeable (L : Library) : Msg → Prop
  | .addrDiscoverReply m => freeable L m.ticket
  | .fsReply m => freeable L m.ticket
  | .pong m => freeable L m.ticket
  | _ => True

theorem verifyTicket_ok (srv : ChordServer) (now : ℕ) {ticket : Bytes} (args : List HashArg)
    (h : freeable L ticket) :
  ∃ valid, verifyTicket L srv now ticket args = .ok valid
  := by
  by_cases hv : verifyTicket L srv now ticket args = .ok true
  · exact ⟨true, hv⟩
  · obtain ⟨-, hv⟩ | ⟨hfree, -⟩ := verifyTicket_of_ne hv
    · exact ⟨false, hv⟩
    · exact absurd h hfree

/-- The handler copies a field that is empty. -/
def copiesEmpty (L : Library) (io : Io) (srv : ChordServer) (frm : Peer) : Msg → Prop
  | .addrDiscoverReply m =>
      verifyTicket L srv (io.time 0) m.ticket (addrDiscoverArgs frm.addr frm.port) = .ok true ∧
        ¬ srv.Discovered ∧ m.addr = []
  | .data m => m.id = []
  | .fs m => srv.Discovered ∧ m.addr = []
  | .fsReply m => srv.Discovered ∧ m.addr = []
  | .stab m => srv.Discovered ∧ m.addr = []
  | .stabReply m => srv.Discovered ∧ m.addr = []
  | _ => False

/-- A handler that inserts a finger returns if what it does afterwards does. -/
theorem TableInv.bind_insertFinger_ok (h : TableInv L srv) {id : ChordID} {addr : In6Addr}
    {port : UInt16} {k : Inserted → Except Fault Outcome}
    (hk : ∀ r, insertFinger srv id addr port = .ok r → ∃ out, k r = .ok out) :
  ∃ out, (insertFinger srv id addr port).bind k = .ok out
  := by
  obtain ⟨r, hr⟩ := h.insertFinger_ok id addr port
  obtain ⟨out, hout⟩ := hk r hr
  exact ⟨out, Except.bind_eq_ok.mpr ⟨r, hr, hout⟩⟩

theorem TableInv.processFsReply_ok (h : TableInv L srv) {m : FindSuccessorReply}
    (ht : freeable L m.ticket) (hcopy : ¬ copiesEmpty L io srv frm (.fsReply m)) (n : Node) :
  ∃ out, processFsReply L io srv m n = .ok out
  := by
  rw [processFsReply]
  split
  · exact ⟨_, rfl⟩
  · rename_i hun
    have hne : m.addr ≠ [] := fun hnil => hcopy ⟨discovered_of_not_unspecified hun, hnil⟩
    obtain ⟨valid, hv⟩ := verifyTicket_ok srv (io.time 0) fsArgs ht
    simp only [v6AddrSet_of_ne hne, hv, bind, Except.bind]
    split
    · exact ⟨_, rfl⟩
    · split
      · exact ⟨_, rfl⟩
      · apply h.bind_insertFinger_ok
        intro r _
        split
        · exact ⟨_, rfl⟩
        · exact ⟨_, rfl⟩

theorem TableInv.processStab_ok (h : TableInv L srv) {m : Stabilize}
    (hcopy : ¬ copiesEmpty L io srv frm (.stab m)) (n : Node) :
  ∃ out, processStab L io srv m n = .ok out
  := by
  rw [processStab]
  split
  · exact ⟨_, rfl⟩
  · rename_i hun
    have hne : m.addr ≠ [] := fun hnil => hcopy ⟨discovered_of_not_unspecified hun, hnil⟩
    rw [v6AddrSet_of_ne hne, Except.ok_bind]
    apply h.bind_insertFinger_ok
    intro r hr
    split
    · exact ⟨_, rfl⟩
    · rename_i pred hpred
      obtain ⟨f, -, -, hf⟩ := h.getFinger_pred (p := peerNamed io m.addr m.port)
        (discovered_of_not_unspecified hun) hpred hr
      rw [hf]
      exact ⟨_, rfl⟩

/-- The handler of stabilize replies returns if there is a successor to notify. -/
theorem TableInv.processStabReply_ok (h : TableInv L srv) {m : StabilizeReply}
    (hwith : ¬ repliesWithoutSuccessor io srv (.stabReply m))
    (hcopy : ¬ copiesEmpty L io srv frm (.stabReply m)) (n : Node) :
  ∃ out, processStabReply L io srv m n = .ok out
  := by
  rw [processStabReply]
  split
  · exact ⟨_, rfl⟩
  · rename_i hun
    have hd := discovered_of_not_unspecified hun
    have hne : m.addr ≠ [] := fun hnil => hcopy ⟨hd, hnil⟩
    simp only [v6AddrSet_of_ne hne, Except.ok_bind]
    split
    · exact ⟨_, rfl⟩
    · rename_i hother
      apply h.bind_insertFinger_ok
      intro r hr
      split
      · rename_i hnone
        rw [h.succFinger_insertFinger (p := peerNamed io m.addr m.port) hd hr] at hnone
        exact absurd ⟨hd, hne, hother, hnone⟩ hwith
      · split
        · exact ⟨_, rfl⟩
        · exact ⟨_, rfl⟩

theorem TableInv.processPong_ok (h : TableInv L srv) {m : Pong} (ht : freeable L m.ticket) :
  ∃ out, processPong L io srv m (frm.node L) = .ok out
  := by
  rw [processPong]
  split
  · exact ⟨_, rfl⟩
  · rename_i hun
    obtain ⟨valid, hv⟩ := verifyTicket_ok srv (io.time 0)
      (pingArgs (frm.node L).addr (frm.node L).port m.time) ht
    simp only [hv, bind, Except.bind]
    split
    · exact ⟨_, rfl⟩
    · apply h.bind_insertFinger_ok
      intro r hr
      split
      · exact ⟨_, rfl⟩
      · rename_i id hid
        have hinv := (insertFinger_steps h (discovered_of_not_unspecified hun) hr).inv h
        obtain ⟨rfl, f, hf, hfid⟩ := insertFinger_mem h hr hid
        rw [← hfid, acceptPong_eq hinv hf]
        exact ⟨_, rfl⟩

theorem processAddrDiscoverReply_ok {m : AddrDiscoverReply}
    (ht : (Msg.addrDiscoverReply m).ticketFreeable L)
    (hcopy : ¬ copiesEmpty L io srv frm (.addrDiscoverReply m)) :
  ∃ out, processAddrDiscoverReply L io srv m (frm.node L) = .ok out
  := by
  obtain ⟨valid, hv⟩ := verifyTicket_ok srv (io.time 0)
    (addrDiscoverArgs (frm.node L).addr (frm.node L).port) ht
  simp only [processAddrDiscoverReply, hv, Except.ok_bind]
  split
  · exact ⟨_, rfl⟩
  · rename_i hvalid
    rw [not_not.mp hvalid] at hv
    split
    · rename_i hun
      have hne : m.addr ≠ [] :=
        fun hnil => hcopy ⟨hv, not_discovered_of_unspecified hun, hnil⟩
      rw [v6AddrSet_of_ne hne]
      exact ⟨_, rfl⟩
    · exact ⟨_, rfl⟩

theorem processData_ok {m : Data} (hid : m.id ≠ []) (n : Node) :
  ∃ out, processData io srv m n = .ok out
  := by
  simp only [processData, chordIdSet_of_ne hid, Except.ok_bind]
  split
  · exact ⟨_, rfl⟩
  · split
    · exact ⟨_, rfl⟩
    · split
      · exact ⟨_, rfl⟩
      · exact ⟨_, rfl⟩

theorem processFs_ok {m : FindSuccessor} (hcopy : ¬ copiesEmpty L io srv frm (.fs m)) (n : Node) :
  ∃ out, processFs L io srv m n = .ok out
  := by
  rw [processFs]
  split
  · exact ⟨_, rfl⟩
  · rename_i hun
    have hne : m.addr ≠ [] := fun hnil => hcopy ⟨discovered_of_not_unspecified hun, hnil⟩
    simp only [v6AddrSet_of_ne hne, Except.ok_bind]
    split
    · exact ⟨_, rfl⟩
    · split
      · exact ⟨_, rfl⟩
      · split
        · exact ⟨_, rfl⟩
        · split
          · exact ⟨_, rfl⟩
          · exact ⟨_, rfl⟩

theorem TableInv.processNotify_ok (h : TableInv L srv) :
  ∃ out, processNotify L io srv (frm.node L) = .ok out
  := by
  rw [processNotify]
  split
  · exact ⟨_, rfl⟩
  · apply h.bind_insertFinger_ok
    intro r _
    split
    · exact ⟨_, rfl⟩
    · exact ⟨_, rfl⟩

theorem TableInv.processPing_ok (h : TableInv L srv) (m : Ping) :
  ∃ out, processPing L io srv m (frm.node L) = .ok out
  := by
  rw [processPing]
  split
  · exact ⟨_, rfl⟩
  · apply h.bind_insertFinger_ok
    intro r _
    exact ⟨_, rfl⟩

/-- The handlers return, whatever the packet, if the ticket they test can be freed and the field
they copy is not empty, except that a stabilize reply needs a successor. -/
theorem TableInv.process_ok (h : TableInv L srv) (ht : msg.ticketFreeable L)
    (hwith : ¬ repliesWithoutSuccessor io srv msg) (hcopy : ¬ copiesEmpty L io srv frm msg) :
  ∃ out, process L io srv msg (frm.node L) = .ok out
  := by
  cases msg with
  | addrDiscover m => exact ⟨_, rfl⟩
  | addrDiscoverReply m => apply processAddrDiscoverReply_ok ht hcopy
  | data m => apply processData_ok hcopy (frm.node L)
  | fs m => apply processFs_ok hcopy (frm.node L)
  | fsReply m => apply h.processFsReply_ok ht hcopy (frm.node L)
  | stab m => apply h.processStab_ok hcopy (frm.node L)
  | stabReply m => apply h.processStabReply_ok hwith hcopy (frm.node L)
  | notify => apply h.processNotify_ok
  | ping m => apply h.processPing_ok
  | pong m => apply h.processPong_ok ht

/-- The process stops when a handler uses a missing finger. -/
theorem TableInv.process_error (h : TableInv L srv)
    (hwithout : repliesWithoutSuccessor io srv msg) :
  process L io srv msg (frm.node L) = .error .nullPointer
  := by
  cases msg with
  | stabReply m =>
      obtain ⟨hd, hne, hother, hnone⟩ := hwithout
      obtain ⟨r, hr⟩ := h.insertFinger_ok ((peerNamed io m.addr m.port).node L).id
        (peerNamed io m.addr m.port).addr (peerNamed io m.addr m.port).port
      have hnone' := (h.succFinger_insertFinger hd hr).mpr hnone
      rw [process, processStabReply, if_neg (Bool.eq_false_iff.mp hd), v6AddrSet_of_ne hne,
        Except.ok_bind]
      rw [namesSelf] at hother
      simp only [hother, if_false]
      show (insertFinger srv ((peerNamed io m.addr m.port).node L).id
        (peerNamed io m.addr m.port).addr (peerNamed io m.addr m.port).port).bind _ = _
      rw [hr]
      simp only [Except.bind, hnone']
      rfl
  | _ => exact hwithout.elim

/-- The process stops when a handler copies an empty field. -/
theorem process_of_copiesEmpty (h : copiesEmpty L io srv frm msg) :
  process L io srv msg (frm.node L) = .error .nullPointer
  := by
  cases msg with
  | addrDiscoverReply m =>
      obtain ⟨hv, hun, hnil⟩ := h
      have hv' : verifyTicket L srv (io.time 0) m.ticket
        (addrDiscoverArgs (frm.node L).addr (frm.node L).port) = .ok true := hv
      simp [process, processAddrDiscoverReply, hv', unspecified_of_not_discovered hun, hnil]
  | data m =>
      rw [process, processData, show m.id = [] from h, chordIdSet_nil, Except.error_bind]
  | fs m =>
      rw [process, processFs, if_neg (not_unspecified_of_discovered h.1), h.2, v6AddrSet_nil,
        Except.error_bind]
  | fsReply m =>
      rw [process, processFsReply, if_neg (not_unspecified_of_discovered h.1), h.2,
        v6AddrSet_nil, Except.error_bind]
  | stab m =>
      rw [process, processStab, if_neg (not_unspecified_of_discovered h.1), h.2, v6AddrSet_nil,
        Except.error_bind]
  | stabReply m =>
      rw [process, processStabReply, if_neg (not_unspecified_of_discovered h.1), h.2,
        v6AddrSet_nil, Except.error_bind]
  | _ => exact h.elim

/-- In every reachable state, what a handler uses as a node is an active finger of the list,
if and only if the packet is not a stabilize reply about another peer that reaches a server
without an active finger. -/
theorem uses_active_fingers_iff (h : Reachable L srv) (io : Io) (frm : Peer) (msg : Msg) :
  (∀ s o, UsesFinger L io srv frm msg s o →
      ∃ f ∈ s.flist, f.isActive = true ∧ o = some f) ↔
    ¬ repliesWithoutSuccessor io srv msg
  := by
  have hinv := h.tableInv
  constructor
  · intro huses hwithout
    cases msg with
    | stabReply m =>
        obtain ⟨hd, hne, hother, hnone⟩ := hwithout
        obtain ⟨r, hr⟩ := hinv.insertFinger_ok ((peerNamed io m.addr m.port).node L).id
          (peerNamed io m.addr m.port).addr (peerNamed io m.addr m.port).port
        obtain ⟨f, -, -, hf⟩ := huses _ _ (.stabReply hd hne hother hr)
        rw [(hinv.succFinger_insertFinger hd hr).mpr hnone] at hf
        cases hf
    | _ => exact hwithout
  · intro hwith s o huse
    cases huse with
    | dataPred copied discovered alive remote last found => apply predFinger_active found
    | dataSucc copied discovered alive remote last found => apply succFinger_active found
    | fs discovered copied alive other found => apply succFinger_active found
    | stab discovered copied found inserted => apply hinv.getFinger_pred discovered found inserted
    | stabReply discovered copied other inserted =>
        apply succFinger_active
        rw [ne_eq, hinv.succFinger_insertFinger discovered inserted]
        intro hnone
        exact hwith ⟨discovered, copied, other, hnone⟩
    | ping discovered inserted fresh found => apply predFinger_active found
    | @pong m r id f newRtt discovered verified inserted finger rtt refreshed moved =>
        apply predFinger_active
        have hins := (insertFinger_steps hinv discovered inserted).inv hinv
        obtain ⟨rfl, g, hg, hid⟩ := insertFinger_mem hinv inserted finger
        rw [← hid] at refreshed ⊢
        have htouch : TableInv L (modifyFinger r.srv g.node.id (refreshFinger newRtt)) :=
          (TableStep.touch g _ hg rfl rfl).inv hins
        apply htouch.predFinger_activateFinger (List.mem_of_find?_eq_some refreshed)

/-- A server with an active finger notifies it when it gets a stabilize reply. -/
theorem uses_active_fingers_sample :
  ∃ s o, UsesFinger sampleLibrary sampleIo (sampleServer (samplePeer 1 0) [samplePeer 3 0])
      (samplePeer 3 0) (.stabReply ⟨(samplePeer 2 0).addr.s6Addr, 1⟩) s o ∧
    ∃ f ∈ s.flist, f.isActive = true ∧ o = some f
  := by
  have huses : ∀ s o, UsesFinger sampleLibrary sampleIo
      (sampleServer (samplePeer 1 0) [samplePeer 3 0]) (samplePeer 3 0)
      (.stabReply ⟨(samplePeer 2 0).addr.s6Addr, 1⟩) s o →
        ∃ f ∈ s.flist, f.isActive = true ∧ o = some f := by
    apply (uses_active_fingers_iff (sampleServer_reachable _ _) _ _ _).mpr
    rintro ⟨-, -, -, hnone⟩
    revert hnone
    decide
  obtain ⟨r, hr⟩ := (sampleServer_reachable (samplePeer 1 0)
    [samplePeer 3 0]).tableInv.insertFinger_ok ((samplePeer 2 0).node sampleLibrary).id
      (samplePeer 2 0).addr 1
  have huse : UsesFinger sampleLibrary sampleIo (sampleServer (samplePeer 1 0) [samplePeer 3 0])
      (samplePeer 3 0) (.stabReply ⟨(samplePeer 2 0).addr.s6Addr, 1⟩) _ _ :=
    .stabReply (by decide) (by decide) (by decide) hr
  exact ⟨_, _, huse, huses _ _ huse⟩

/-- A server that has just learnt its address and gets a stabilize reply about another peer
notifies a successor it does not have. -/
theorem stabReply_without_successor :
  ∃ s o, Reachable sampleLibrary (sampleServer (samplePeer 1 0) []) ∧
    UsesFinger sampleLibrary sampleIo (sampleServer (samplePeer 1 0) []) (samplePeer 3 0)
      (.stabReply ⟨(samplePeer 2 0).addr.s6Addr, 1⟩) s o ∧
    o = none ∧ (∀ f ∈ s.flist, f.isActive = false) ∧
    process sampleLibrary sampleIo (sampleServer (samplePeer 1 0) [])
        (.stabReply ⟨(samplePeer 2 0).addr.s6Addr, 1⟩) ((samplePeer 3 0).node sampleLibrary)
      = .error .nullPointer
  := by
  have hinsert : insertFinger (sampleServer (samplePeer 1 0) [])
      ((samplePeer 2 0).node sampleLibrary).id (samplePeer 2 0).addr 1
      = .ok ⟨fingerlistInsert
          { sampleServer (samplePeer 1 0) [] with numPassiveFingers := 1 }
          (newFinger ((samplePeer 2 0).node sampleLibrary)),
        some ((samplePeer 2 0).node sampleLibrary).id, some true⟩ := by decide
  refine ⟨_, _, sampleServer_reachable _ _, .stabReply ?_ ?_ ?_ hinsert, ?_, ?_, ?_⟩
  · decide
  · decide
  · decide
  · decide
  · decide
  · decide

end Tangent

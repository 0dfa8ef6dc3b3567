import Tangent.Safety.Fingers
import Tangent.Table.Clean
import Tangent.Table.Tick

/-!
# Assertions and cursors of the maintenance code

No assertion of the finger table and of the timer fails in a reachable state, the two cursors of
`stabilize` stay in their ranges, and the walks along the finger list follow no missing finger:
the functions of the timer return from every reachable state.
-/

namespace Tangent

variable {L : Library} {io : Io} {srv srv' : ChordServer} {f : Finger} {k : Kind} {K : Set Kind}
  {frm : Peer} {msg : Msg} {idx : ℕ}

/-! ### The pointers of `fix_succs_preds` -/

section Pointers

variable (L : Library) (io : Io)

/-- Follow `next` from a finger `k` times, or until the last finger.  A pointer is the list from
the finger it points to on, `NULL` the empty one. -/
def followNext : ℕ → List Finger → Except Fault (List Finger)
  | 0, fs => .ok fs
  | _ + 1, [] => .error .nullPointer
  | _ + 1, [f] => .ok [f]
  | k + 1, _ :: g :: gs => followNext k (g :: gs)

/-- The loop of `fix_succs_preds` over the predecessors, `k` of which have been passed. -/
def followPrev (srv : ChordServer) (succ : Finger) (acts : List Action) :
    ℕ → List Finger → Except Fault (List Action)
  | k, [] => if npredecessors ≤ k then .ok acts else .error .nullPointer
  | _, [_] => .ok acts
  | k, f :: g :: fs =>
      if npredecessors ≤ k then
        .ok acts
      else if srv.flist.getLast?.map (·.node.id) = some f.node.id then
        followPrev srv succ acts (k + 1) (g :: fs)
      else if f.node.id = succ.node.id then
        .ok acts
      else if k = srv.toFixBackup then
        .ok (sendFs L io srv acts defTtl f.node.addr f.node.port srv.node.addr srv.node.port)
      else
        followPrev srv succ acts (k + 1) (g :: fs)

/-- `fix_succs_preds`, with what it does when a pointer it follows is `NULL`. -/
def followSuccsPreds (srv : ChordServer) (acts : List Action) :
    Except Fault (ChordServer × List Action) := do
  if succFinger srv = none then
    return (srv, acts)
  match ← followNext srv.toFixBackup (srv.flist.dropWhile fun f => !f.isActive) with
  | [] => throw .nullPointer
  | [_] => return ({ srv with toFixBackup := 0 }, acts)
  | f :: _ :: _ =>
      let acts :=
        sendFs L io srv acts defTtl f.node.addr f.node.port srv.node.addr srv.node.port
      let acts ← followPrev L io srv f acts 0 (srv.flist.reverse.dropWhile fun f => !f.isActive)
      let next := srv.toFixBackup + 1
      return ({ srv with toFixBackup := if nsuccessors ≤ next then 0 else next }, acts)

end Pointers

theorem followNext_cons (k : ℕ) (f : Finger) (fs : List Finger) :
  followNext k (f :: fs) = .ok ((walkNext k f fs).1 :: (walkNext k f fs).2)
  := by
  induction k generalizing f fs with
  | zero => rfl
  | succ k ih =>
      cases fs with
      | nil => rfl
      | cons g gs =>
          rw [followNext, ih, walkNext]

theorem followPrev_cons {succ : Finger} {acts : List Action} (k : ℕ) (f : Finger)
    (fs : List Finger) :
  followPrev L io srv succ acts k (f :: fs) = .ok (fixPredsLoop L io srv succ acts k (f :: fs))
  := by
  induction fs generalizing k f with
  | nil => rfl
  | cons g fs ih =>
      rw [followPrev, fixPredsLoop]
      split
      · rfl
      · split
        · apply ih
        · split
          · rfl
          · split
            · rfl
            · apply ih

/-- `fix_succs_preds` follows no missing finger, whatever the list. -/
theorem followSuccsPreds_eq (L : Library) (io : Io) (srv : ChordServer) (acts : List Action) :
  followSuccsPreds L io srv acts = .ok (fixSuccsPreds L io srv acts)
  := by
  have hhead : succFinger srv = (srv.flist.dropWhile fun f => !f.isActive).head? := by
    rw [succFinger, List.find?_eq_head?_dropWhile_not]
  rw [followSuccsPreds, fixSuccsPreds]
  cases hactive : srv.flist.dropWhile (fun f => !f.isActive) with
  | nil =>
      rw [hactive, List.head?_nil] at hhead
      rw [if_pos hhead]
      rfl
  | cons f fs =>
      rw [hactive, List.head?_cons] at hhead
      rw [if_neg (by simp [hhead]), followNext_cons]
      obtain ⟨g, gs, hwalk⟩ : ∃ g gs, walkNext srv.toFixBackup f fs = (g, gs) := ⟨_, _, rfl⟩
      simp only [hwalk]
      cases gs with
      | nil => rfl
      | cons g' gs =>
          obtain ⟨p, ps, hpred⟩ : ∃ p ps,
              srv.flist.reverse.dropWhile (fun f => !f.isActive) = p :: ps := by
            apply List.exists_cons_of_ne_nil
            intro hnil
            rw [List.dropWhile_eq_nil_iff] at hnil
            have hmem := succFinger_mem hhead
            have hf := hnil f (List.mem_reverse.mpr hmem.1)
            rw [hmem.2] at hf
            cases hf
          simp only [hpred, bind, Except.bind, followPrev_cons]
          rfl

/-! ### The cursors -/

/-- The cursors of `fix_fingers` and `fix_succs_preds`. -/
def ChordServer.cursors (srv : ChordServer) : ℕ × ℕ :=
  (srv.toFixFinger, srv.toFixBackup)

/-- The cursors are in their ranges. -/
def CursorInv (srv : ChordServer) : Prop :=
  srv.toFixFinger < nfingers ∧ srv.toFixBackup < nsuccessors

theorem CursorInv.of_cursors_eq (h : CursorInv srv) (heq : srv'.cursors = srv.cursors) :
  CursorInv srv'
  := by
  obtain ⟨hf, hb⟩ := Prod.mk.inj heq
  rw [CursorInv, hf, hb]
  exact h

/-- Only the steps of the maintenance code move its cursors. -/
theorem TableStep.cursors_eq (hs : TableStep L k srv srv') (hk : k ≠ .cursor) :
  srv'.cursors = srv.cursors
  := by
  by_cases hadopt : k = .adopt
  · subst hadopt
    cases hs
    rfl
  · have hcursors := congrArg ChordServer.cursors (hs.withoutTable_eq hadopt hk)
    exact hcursors

theorem TableSteps.cursors_eq (hs : TableSteps L K srv srv') (hK : .cursor ∉ K) :
  srv'.cursors = srv.cursors
  := by
  apply hs.eq_of_step
  intro k hk s s' hstep
  apply hstep.cursors_eq (ne_of_mem_of_not_mem hk hK)

theorem ping_cursors (io : Io) (h : TableInv L srv) :
  (ping L io srv).1.cursors = srv.cursors
  := by
  have hloop : (pingLoop L io srv.flist 0 ⟨srv, [], none⟩).srv.cursors = srv.cursors := by
    apply (pingLoop_steps srv.flist [] 0 ⟨srv, [], none⟩ h rfl).cursors_eq
    simp
  rw [ping]
  split
  · exact hloop
  · exact hloop

theorem CursorInv.of_fixSuccsPreds (h : CursorInv srv) (L : Library) (io : Io)
    (acts : List Action) :
  CursorInv (fixSuccsPreds L io srv acts).1
  := by
  rw [fixSuccsPreds]
  split
  · exact h
  · split
    · exact ⟨h.1, (by decide : 0 < nsuccessors)⟩
    · refine ⟨h.1, ?_⟩
      simp only
      split
      · decide
      · omega

theorem CursorInv.of_moveFixFinger (h : CursorInv srv) (L : Library) (io : Io) (succ : Finger)
    (acts : List Action) :
  CursorInv (moveFixFinger L io srv succ acts).1
  := by
  rw [moveFixFinger]
  split
  · exact ⟨(by decide : nfingers - 1 < nfingers), h.2⟩
  · exact ⟨lt_of_le_of_lt (Nat.sub_le _ _) h.1, h.2⟩

/-! ### The timer -/

theorem fixSuccsPreds_flist (L : Library) (io : Io) (srv : ChordServer) (acts : List Action) :
  (fixSuccsPreds L io srv acts).1.flist = srv.flist
  := by
  rw [fixSuccsPreds]
  split
  · rfl
  · split
    · rfl
    · rfl

/-- A server with a successor has a predecessor. -/
theorem predFinger_ne_none (h : succFinger srv = some f) :
  ∃ p, predFinger srv = some p
  := by
  obtain ⟨hmem, hactive⟩ := succFinger_mem h
  rw [← Option.isSome_iff_exists, predFinger, List.find?_isSome]
  exact ⟨f, List.mem_reverse.mpr hmem, hactive⟩

/-- `fix_fingers` returns if there is a successor and its cursor is in its range. -/
theorem CursorInv.exists_fixFingers (h : CursorInv srv) (hf : succFinger srv = some f) (io : Io)
    (acts : List Action) :
  ∃ srv' acts', fixFingers L io srv acts = .ok (srv', acts') ∧ CursorInv srv'
  := by
  rw [fixFingers, if_neg (not_le.mpr h.1), hf]
  exact ⟨_, _, rfl, h.of_moveFixFinger L io f acts⟩

/-- A tick returns, and leaves the cursors in their ranges. -/
theorem CursorInv.exists_stabilize (h : CursorInv srv) (hinv : TableInv L srv) (io : Io) (idx : ℕ) :
  ∃ t, stabilize L io srv idx = .ok t ∧ CursorInv t.srv
  := by
  rw [stabilize]
  split
  · exact ⟨_, rfl, h⟩
  · have hping : CursorInv (ping L io srv).1 := h.of_cursors_eq (ping_cursors io hinv)
    have hinv₁ := (ping_steps io hinv).inv hinv
    simp only
    cases hsucc : succFinger (ping L io srv).1 with
    | none => exact ⟨_, rfl, hping⟩
    | some succ =>
        obtain ⟨p, hp⟩ := predFinger_ne_none hsucc
        obtain ⟨acts, hacts⟩ : ∃ acts, pingPred L io (ping L io srv).1 idx
            (sendStab (ping L io srv).2 succ.node.addr succ.node.port (ping L io srv).1.node.addr
              (ping L io srv).1.node.port) = .ok acts := by
          rw [pingPred, hp]
          split
          · exact ⟨_, rfl⟩
          · exact ⟨_, rfl⟩
        have hsucc' : succFinger (fixSuccsPreds L io (ping L io srv).1 acts).1 = some succ := by
          rw [succFinger, fixSuccsPreds_flist]
          exact hsucc
        obtain ⟨srv₂, acts₂, hfix, hcur⟩ :=
          (hping.of_fixSuccsPreds L io acts).exists_fixFingers (L := L) hsucc' io
            (fixSuccsPreds L io (ping L io srv).1 acts).2
        have hinv₂ : TableInv L srv₂ := by
          apply TableSteps.inv hinv₁
          exact (fixSuccsPreds_steps L io _ acts).trans (fixFingers_steps hfix)
        simp only [hacts, hfix, bind, Except.bind]
        split
        · obtain ⟨srv₃, hclean, -, -⟩ := cleanFingerList_eq hinv₂.order
          have hcur₃ : CursorInv srv₃ := by
            apply hcur.of_cursors_eq
            apply (cleanFingerList_steps hinv₂ hclean).cursors_eq
            simp
          rw [hclean]
          exact ⟨_, rfl, hcur₃⟩
        · exact ⟨_, rfl, hcur⟩

/-! ### Reachable states -/

theorem CursorInv.of_newServer (cfg : Config) :
  CursorInv (newServer cfg)
  := ⟨(by decide : nfingers - 1 < nfingers), (by decide : 0 < nsuccessors)⟩

/-- The cursors are in their ranges in every reachable state. -/
theorem Reachable.cursorInv (h : Reachable L srv) :
  CursorInv srv
  := by
  have hboth : TableInv L srv ∧ CursorInv srv := by
    apply h.invariant (I := fun srv => TableInv L srv ∧ CursorInv srv)
    · intro cfg
      exact ⟨TableInv.newServer L cfg, CursorInv.of_newServer cfg⟩
    · rintro srv e srv' ⟨hinv, hcur⟩ hs
      refine ⟨hinv.step hs, ?_⟩
      rw [step, Except.map_eq_ok] at hs
      obtain ⟨⟨srv₁, acts⟩, hs, rfl⟩ := hs
      cases e with
      | packet frm msg io =>
          obtain ⟨out, hout, heq⟩ := Except.map_eq_ok.mp hs
          cases heq
          apply hcur.of_cursors_eq
          apply (process_steps hinv hout).cursors_eq
          simp [packetKinds]
      | tick idx io =>
          obtain ⟨t, ht, hcur'⟩ := hcur.exists_stabilize hinv io idx
          rw [react, ht] at hs
          cases hs
          exact hcur'
      | discover io =>
          cases hs
          exact hcur
  exact hboth.2

/-- The test of a ticket that cannot be freed uses a missing pointer. -/
theorem verifyTicket_of_not_freeable {now : ℕ} {ticket : Bytes} {args : List HashArg}
    (h : ¬ freeable L ticket) :
  verifyTicket L srv now ticket args = .error .nullPointer
  := by
  obtain ⟨hunpack, hfree⟩ := not_or.mp h
  simp [verifyTicket, not_not.mp hunpack, hfree]

/-- A handler that tests a ticket that cannot be freed uses a missing pointer if it faults. -/
theorem process_fault_of_not_freeable {e : Fault} (ht : ¬ msg.ticketFreeable L)
    (hcopy : ¬ copiesEmpty L io srv frm msg)
    (hfault : process L io srv msg (frm.node L) = .error e) :
  e = .nullPointer
  := by
  cases msg with
  | addrDiscoverReply m =>
      rw [process, processAddrDiscoverReply, verifyTicket_of_not_freeable ht] at hfault
      cases hfault
      rfl
  | fsReply m =>
      rw [process, processFsReply] at hfault
      split at hfault
      · cases hfault
      · rename_i hun
        have hne : m.addr ≠ [] := fun hnil => hcopy ⟨discovered_of_not_unspecified hun, hnil⟩
        rw [v6AddrSet_of_ne hne, Except.ok_bind, verifyTicket_of_not_freeable ht] at hfault
        cases hfault
        rfl
  | pong m =>
      rw [process, processPong] at hfault
      split at hfault
      · cases hfault
      · rw [verifyTicket_of_not_freeable ht] at hfault
        cases hfault
        rfl
  | _ => exact absurd trivial ht

/-- A handler that faults uses a missing pointer. -/
theorem TableInv.process_fault {e : Fault} (h : TableInv L srv)
    (hfault : process L io srv msg (frm.node L) = .error e) :
  e = .nullPointer
  := by
  by_cases hcopy : copiesEmpty L io srv frm msg
  · rw [process_of_copiesEmpty hcopy] at hfault
    cases hfault
    rfl
  · by_cases ht : msg.ticketFreeable L
    · by_cases hwithout : repliesWithoutSuccessor io srv msg
      · rw [h.process_error hwithout] at hfault
        cases hfault
        rfl
      · obtain ⟨out, hout⟩ := h.process_ok ht hwithout hcopy
        rw [hout] at hfault
        cases hfault
    · apply process_fault_of_not_freeable ht hcopy hfault

/-- No handler fails an assertion. -/
theorem TableInv.process_ne_assertion (h : TableInv L srv) (io : Io) (frm : Peer) (msg : Msg) :
  process L io srv msg (frm.node L) ≠ .error .assertion
  := by
  intro hfault
  cases h.process_fault hfault

/-- In every reachable state `insert_finger` and the handlers fail no assertion, a tick returns
whatever its counter and its draws, the cursors of the maintenance code are in their ranges, and
the walks of `fix_fingers`, `fix_succs_preds` and `clean_finger_list` follow no missing finger. -/
theorem maintenance_never_faults (h : Reachable L srv) :
  (∀ id addr port, ∃ r, insertFinger srv id addr port = .ok r) ∧
    (∀ io (frm : Peer) msg, process L io srv msg (frm.node L) ≠ .error .assertion) ∧
    (∀ io idx, ∃ t, stabilize L io srv idx = .ok t) ∧
    srv.toFixFinger < nfingers ∧ srv.toFixBackup < nsuccessors ∧
    (∀ io acts, succFinger srv ≠ none → ∃ r, fixFingers L io srv acts = .ok r) ∧
    (∀ io s acts, followSuccsPreds L io s acts = .ok (fixSuccsPreds L io s acts)) ∧
    ∃ srv', cleanFingerList srv = .ok srv'
  := by
  have hinv := h.tableInv
  have hcur := h.cursorInv
  refine ⟨hinv.insertFinger_ok, hinv.process_ne_assertion, ?_, hcur.1, hcur.2, ?_, ?_, ?_⟩
  · intro io idx
    obtain ⟨t, ht, -⟩ := hcur.exists_stabilize hinv io idx
    exact ⟨t, ht⟩
  · intro io acts hsucc
    obtain ⟨f, hf⟩ := Option.ne_none_iff_exists'.mp hsucc
    obtain ⟨srv', acts', hfix, -⟩ := hcur.exists_fixFingers (L := L) hf io acts
    exact ⟨_, hfix⟩
  · intro io s acts
    apply followSuccsPreds_eq
  · obtain ⟨srv', hclean, -, -⟩ := cleanFingerList_eq hinv.order
    exact ⟨srv', hclean⟩

/-- A server with passive and active fingers takes a tick that pings its predecessor and cleans
its list. -/
theorem maintenance_never_faults_sample :
  ∃ t, stabilize sampleLibrary sampleIo
    (sampleMixed (samplePeer 1 0) [samplePeer 2 0, samplePeer 3 0, samplePeer 4 0]
      [samplePeer 3 0]) 0 = .ok t
  := (maintenance_never_faults (sampleMixed_reachable _ _ _)).2.2.1 _ _

end Tangent

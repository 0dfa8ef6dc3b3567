import Tangent.Ownership

/-!
# What packets can do to the active fingers

Packets take no active finger from the table, and the active fingers change only by a pong
whose ticket verifies.  So packets do not enlarge the range of a server, with one exception: a
verified pong from a peer under the server's own identifier makes the server its own
predecessor.
-/

namespace Tangent

variable {L : Library} {io : Io} {srv srv' : ChordServer} {frm : Peer} {msg : Msg}
  {out : Outcome} {f : Finger} {es : List Event} {x : ChordID}

/-! ### One packet -/

/-- Activation keeps the active fingers and adds at most the finger itself. -/
theorem TableInv.activeIds_activate (h : TableInv L srv) (hf : f ∈ srv.flist) :
  (activeIds srv).Sublist (activeIds (activateFinger srv f)) ∧
    ∀ id ∈ activeIds (activateFinger srv f), id ∈ activeIds srv ∨ id = f.node.id
  := by
  by_cases hp : f.isPassive = true
  · obtain ⟨l₁, l₂, hl⟩ := List.append_of_mem hf
    have hactive : ({ f with status := .active } : Finger).isActive = true := rfl
    rw [h.activateFinger_eq hl hp]
    simp only [activeIds, hl, List.filter_append, List.filter_cons, hactive,
      Finger.isPassive_iff.mp hp, if_true, Bool.false_eq_true, if_false, List.map_append,
      List.map_cons]
    constructor
    · simp
    · intro id hid
      simp only [List.mem_append, List.mem_cons] at hid ⊢
      tauto
  · rw [activateFinger, if_neg hp]
    exact ⟨List.Sublist.refl _, fun id hid => .inl hid⟩

/-- A packet keeps the active fingers, and adds at most the sender of a verified pong. -/
theorem process_activeIds (h : TableInv L srv) (hd : srv.Discovered)
    (ho : process L io srv msg (frm.node L) = .ok out) :
  (activeIds srv).Sublist (activeIds out.srv) ∧
    ∀ id ∈ activeIds out.srv, id ∈ activeIds srv ∨
      (id = (frm.node L).id ∧ ∃ m, msg = .pong m ∧ pongVerified L io srv frm m)
  := by
  have he := process_effect ho
  generalize out.srv = srv' at he ⊢
  cases he with
  | keep => exact ⟨List.Sublist.refl _, fun id hid => .inl hid⟩
  | adopt undiscovered => exact absurd hd undiscovered
  | insert discovered named ticket inserted =>
      have hsteps := insertFinger_steps h discovered inserted
      rw [(hsteps.quiet h (by simp [quiet, Set.insert_subset_iff])).2.1]
      exact ⟨List.Sublist.refl _, fun id hid => .inl hid⟩
  | @accept m r id newRtt srv' discovered verified inserted finger accepted =>
      have hsteps := insertFinger_steps h discovered inserted
      have hids := (hsteps.quiet h (by simp [quiet, Set.insert_subset_iff])).2.1
      have hinv := hsteps.inv h
      obtain ⟨rfl, f, hf, hid⟩ := insertFinger_mem h inserted finger
      rw [← hid, acceptPong_eq hinv hf, Except.ok.injEq] at accepted
      subst accepted
      have htouch : TableStep L .touch r.srv
          (modifyFinger r.srv f.node.id (refreshFinger newRtt)) := .touch f _ hf rfl rfl
      have hf' : refreshFinger newRtt f
          ∈ (modifyFinger r.srv f.node.id (refreshFinger newRtt)).flist := by
        apply List.mem_map.mpr
        exact ⟨f, hf, if_pos rfl⟩
      obtain ⟨hsub, hmem⟩ := (htouch.inv hinv).activeIds_activate hf'
      rw [htouch.activeIds_eq hinv (by simp [quiet]), hids] at hsub hmem
      use hsub
      intro id hid'
      rcases hmem id hid' with hold | hnew
      · exact .inl hold
      · exact .inr ⟨hnew.trans hid, m, rfl, verified⟩

/-- A packet that is no verified pong keeps the active fingers and the range. -/
theorem process_quiet (h : TableInv L srv) (hd : srv.Discovered)
    (ho : process L io srv msg (frm.node L) = .ok out)
    (hno : ∀ m, msg = .pong m → ¬ pongVerified L io srv frm m) :
  activeIds out.srv = activeIds srv ∧ out.srv.predBound = srv.predBound
  := by
  apply ((process_steps h ho).quiet h _).2
  rintro k (hk | ⟨-, hk⟩ | ⟨-, m, hm, hv⟩)
  · rcases hk with rfl | rfl | rfl | rfl <;> simp [quiet]
  · exact absurd hd hk
  · exact absurd hv (hno m hm)

/-! ### Runs of packets -/

/-- Whether a ticket verifies depends on the settings of the server only. -/
theorem pongVerified_congr {m : Pong} (h : srv'.settings = srv.settings) :
  pongVerified L io srv' frm m ↔ pongVerified L io srv frm m
  := by
  simp only [ChordServer.settings, Prod.mk.injEq] at h
  simp only [pongVerified, verifyTicket, h.1, h.2.1]

/-- What holds after a run of packets: the node and the settings are the same, the active
fingers are still active, and the active fingers are the old ones and the senders of
verified pongs; without verified pongs they are the old ones, and the range is the same. -/
structure PacketRun (L : Library) (srv : ChordServer) (es : List Event) (srv' : ChordServer) :
    Prop where
  inv : TableInv L srv'
  same : SameNode srv srv'
  kept : (activeIds srv).Sublist (activeIds srv')
  added : ∀ id ∈ activeIds srv', id ∈ activeIds srv ∨
    ∃ frm m io, Event.packet frm (.pong m) io ∈ es ∧ pongVerified L io srv frm m ∧
      id = (frm.node L).id
  quiet : (∀ frm m io, Event.packet frm (.pong m) io ∈ es → ¬ pongVerified L io srv frm m) →
    activeIds srv' = activeIds srv ∧ srv'.predBound = srv.predBound

theorem PacketRun.discovered (h : PacketRun L srv es srv') (hd : srv.Discovered) :
  srv'.Discovered
  := by
  rw [ChordServer.Discovered, h.same.1]
  exact hd

theorem PacketRun.snoc {srv'' : ChordServer} (h : PacketRun L srv es srv')
    (hd : srv.Discovered) (hs : step L srv' (.packet frm msg io) = .ok srv'') :
  PacketRun L srv (es ++ [.packet frm msg io]) srv''
  := by
  have hd' := h.discovered hd
  have hsame := h.inv.step_sameNode hd' hs
  have hinv := h.inv.step hs
  rw [step, react, Except.map_eq_ok] at hs
  obtain ⟨⟨_, acts⟩, hreact, rfl⟩ := hs
  obtain ⟨out, ho, heq⟩ := Except.map_eq_ok.mp hreact
  cases heq
  obtain ⟨hsub, hmem⟩ := process_activeIds h.inv hd' ho
  constructor
  · exact hinv
  · exact ⟨hsame.1.trans h.same.1, hsame.2.trans h.same.2⟩
  · exact h.kept.trans hsub
  · intro id hid
    rcases hmem id hid with hold | ⟨hnew, m, rfl, hv⟩
    · rcases h.added id hold with hold | ⟨frm', m', io', hmem', hv'⟩
      · exact .inl hold
      · exact .inr ⟨frm', m', io', List.mem_append_left _ hmem', hv'⟩
    · refine .inr ⟨frm, m, io, by simp, ?_, hnew⟩
      rw [← pongVerified_congr h.same.2]
      exact hv
  · intro hno
    have hold := h.quiet fun frm m io hmem' => hno frm m io (List.mem_append_left _ hmem')
    have hstep := process_quiet h.inv hd' ho
      (by
        rintro m rfl
        rw [pongVerified_congr h.same.2]
        apply hno frm m io
        simp)
    exact ⟨hstep.1.trans hold.1, hstep.2.trans hold.2⟩

theorem PacketRun.of_run (h : TableInv L srv) (hd : srv.Discovered)
    (hes : ∀ e ∈ es, e.IsPacket) (hrun : run L srv es = .ok srv') :
  PacketRun L srv es srv'
  := by
  revert hes
  apply Machine.run_induction (P := fun es srv' => (∀ e ∈ es, e.IsPacket) → PacketRun L srv es srv')
    _ _ hrun
  · intro _
    constructor
    · exact h
    · exact ⟨rfl, rfl⟩
    · apply List.Sublist.refl
    · intro id hid
      exact .inl hid
    · intro _
      exact ⟨rfl, rfl⟩
  · intro es srv₁ e srv₂ _ ih hs hes
    have hrun₁ := ih fun e he => hes e (List.mem_append_left _ he)
    have he := hes e (by simp)
    cases e with
    | packet frm msg io => apply hrun₁.snoc hd hs
    | tick idx io => exact absurd he id
    | discover io => exact absurd he id

/-- With the same node and more active fingers, none of them under the server's own
identifier unless there was one, a server owns no more. -/
theorem TableInv.local_of_local (h : TableInv L srv) (h' : TableInv L srv')
    (hnode : srv'.node = srv.node) (hsub : activeIds srv ⊆ activeIds srv')
    (hown : srv.node.id ∈ activeIds srv' → srv.node.id ∈ activeIds srv)
    (hx : chordIdIsLocal srv' x = true) :
  chordIdIsLocal srv x = true
  := by
  by_cases hb : ownBound srv = srv.node.id
  · apply h.chordIdIsLocal_of_bound_eq hb
  · have hb' := hb
    rw [h.ownBound_eq_iff, not_or] at hb'
    have hmem : ownBound srv ∈ activeIds srv := by
      rw [ownBound, List.getLast?_eq_some_getLast hb'.1, Option.getD_some]
      apply List.getLast_mem
    rw [h.chordIdIsLocal_iff, ← hnode]
    apply h'.arc_le_of_local (hsub hmem) _ hx
    rw [hnode]
    intro hmem'
    exact hb'.2 (hown hmem')

/-- However many packets of whatever contents a server with a known address gets: it owns no
more than before, unless a verified pong came from a peer under the server's own identifier;
no active finger leaves the table; and without a verified pong the identifiers of the active
fingers, of the successor and of the predecessor, and the range, are the same. -/
theorem packets_keep_verified_peers (h : Reachable L srv) (hd : srv.Discovered)
    (hes : ∀ e ∈ es, e.IsPacket) (hrun : run L srv es = .ok srv') :
  ((∀ frm m io, Event.packet frm (.pong m) io ∈ es → pongVerified L io srv frm m →
      (frm.node L).id ≠ srv.node.id) →
    ∀ x, chordIdIsLocal srv' x = true → chordIdIsLocal srv x = true) ∧
  (activeIds srv).Sublist (activeIds srv') ∧
  ((∀ frm m io, Event.packet frm (.pong m) io ∈ es → ¬ pongVerified L io srv frm m) →
    activeIds srv' = activeIds srv ∧ srv'.predBound = srv.predBound ∧
    (succFinger srv').map (·.node.id) = (succFinger srv).map (·.node.id) ∧
    (predFinger srv').map (·.node.id) = (predFinger srv).map (·.node.id) ∧
    ∀ x, chordIdIsLocal srv' x = chordIdIsLocal srv x)
  := by
  have hpr := PacketRun.of_run h.tableInv hd hes hrun
  refine ⟨?_, hpr.kept, ?_⟩
  · intro hne x hx
    apply h.tableInv.local_of_local hpr.inv hpr.same.1 hpr.kept.subset _ hx
    intro hown
    rcases hpr.added _ hown with hold | ⟨frm, m, io, hmem, hv, heq⟩
    · exact hold
    · exact absurd heq.symm (hne frm m io hmem hv)
  · intro hno
    obtain ⟨hids, hbound⟩ := hpr.quiet hno
    refine ⟨hids, hbound, ?_, ?_, ?_⟩
    · rw [succFinger_map_id, succFinger_map_id, hids]
    · rw [predFinger_map_id, predFinger_map_id, hids]
    · intro x
      rw [chordIdIsLocal, chordIdIsLocal, hbound, hpr.same.1]

/-- A verified pong from a third peer. -/
theorem packets_keep_verified_peers_sample :
  run sampleLibrary (sampleServer (samplePeer 10 0) [samplePeer 20 0])
      [samplePong (samplePeer 30 0)]
      = .ok (sampleServer (samplePeer 10 0) [samplePeer 20 0, samplePeer 30 0]) ∧
    ∀ x,
      chordIdIsLocal (sampleServer (samplePeer 10 0) [samplePeer 20 0, samplePeer 30 0]) x = true →
      chordIdIsLocal (sampleServer (samplePeer 10 0) [samplePeer 20 0]) x = true
  := by
  have hrun : run sampleLibrary (sampleServer (samplePeer 10 0) [samplePeer 20 0])
      [samplePong (samplePeer 30 0)]
      = .ok (sampleServer (samplePeer 10 0) [samplePeer 20 0, samplePeer 30 0]) := by
    decide
  use hrun
  apply (packets_keep_verified_peers (sampleServer_reachable _ _) (by decide) _ hrun).1
  · intro frm m io hmem _
    rw [List.mem_singleton] at hmem
    cases hmem
    decide
  · intro e he
    rw [List.mem_singleton] at he
    subst he
    trivial

/-- A verified pong from a peer under the server's own identifier enlarges the range of the
server. -/
theorem range_grows_by_collision :
  ∃ srv srv' e x, Reachable sampleLibrary srv ∧ srv.Discovered ∧ e.IsPacket ∧
    run sampleLibrary srv [e] = .ok srv' ∧
    chordIdIsLocal srv x = false ∧ chordIdIsLocal srv' x = true
  := by
  use sampleServer (samplePeer 10 0) [samplePeer 20 0],
    sampleServer (samplePeer 10 0) [samplePeer 20 0, samplePeer 10 1],
    samplePong (samplePeer 10 1), ((samplePeer 15 0).node sampleLibrary).id,
    sampleServer_reachable _ _
  refine ⟨by decide, trivial, ?_⟩
  decide

end Tangent

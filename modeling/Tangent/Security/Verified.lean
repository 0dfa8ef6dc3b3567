import Tangent.Ownership

/-!
# Active fingers and verified pongs

A finger is activated by a pong whose ticket verifies, which shows that its peer has
answered a ping.  `insert_finger` breaks this link in two ways when the hashes of two peers
collide.  It replaces the peer of an active finger and leaves the finger active; and it takes
a finger with the sender's address for the sender's, whatever the port.  In a run without
these two kinds of steps every active finger belongs to a peer with a verified pong.
-/

namespace Tangent

variable {L : Library} {cfg : Config} {io : Io} {srv srv' : ChordServer} {frm p : Peer}
  {msg : Msg} {out : Outcome} {f g : Finger} {r : Inserted} {e : Event} {es : List Event}

/-- In the run of the events `es` the server has processed a pong of `p` whose ticket
verified. -/
def VerifiedIn (L : Library) (cfg : Config) (es : List Event) (p : Peer) : Prop :=
  ∃ es₁ m io es₂ srv₁, es = es₁ ++ .packet p (.pong m) io :: es₂ ∧
    run L (newServer cfg) es₁ = .ok srv₁ ∧ srv₁.Discovered ∧ pongVerified L io srv₁ p m

theorem VerifiedIn.append (h : VerifiedIn L cfg es p) (es' : List Event) :
  VerifiedIn L cfg (es ++ es') p
  := by
  obtain ⟨es₁, m, io, es₂, srv₁, rfl, hsrv₁⟩ := h
  use es₁, m, io, es₂ ++ es', srv₁
  simpa using hsrv₁

/-- The handler reaches `insert_finger` for `p` on the word of the packet alone, or with the
ticket of a lookup. -/
def inserts (L : Library) (io : Io) (srv : ChordServer) (frm : Peer) (msg : Msg) (p : Peer) :
    Prop :=
  msg.named io frm = some p ∧ p ≠ srv.node.peer ∧
    ∀ m, msg = .fsReply m → verifyTicket L srv (io.time 0) m.ticket fsArgs = .ok true

/-- The event does not replace the peer of an active finger without a verified pong, and a
verified pong does not find a passive finger with the address of the sender and another
port. -/
def keepsPeers (L : Library) (srv : ChordServer) : Event → Prop
  | .packet frm msg io =>
      (∀ p, inserts L io srv frm msg p → ∀ f ∈ srv.flist, f.isActive = true →
        f.node.id = (p.node L).id → f.node.addr = p.addr) ∧
      (∀ m, msg = .pong m → pongVerified L io srv frm m → ∀ f ∈ srv.flist,
        f.isPassive = true → f.node.id = (frm.node L).id → f.node.addr = frm.addr →
        f.node.port = frm.port)
  | _ => True

/-! ### One step -/

/-- The active fingers after an insertion are active fingers from before it, or a finger
whose peer was replaced. -/
theorem insertFinger_active (h : TableInv L srv)
    (hr : insertFinger srv (p.node L).id p.addr p.port = .ok r) (hg : g ∈ r.srv.flist)
    (hactive : g.isActive = true) :
  g ∈ srv.flist ∨ (p ≠ srv.node.peer ∧ g.node.peer = p ∧
    ∃ f ∈ srv.flist, f.isActive = true ∧ f.node.id = (p.node L).id ∧ f.node.addr ≠ p.addr)
  := by
  obtain ⟨-, rfl⟩ | ⟨-, f, -, -, -, rfl⟩ | ⟨hp, f, hf, hid, haddr, rfl⟩ |
    ⟨-, hnew, srv₁, hev, rfl⟩ := insertFinger_cases hr
  · exact .inl hg
  · exact .inl hg
  · obtain ⟨a, ha, rfl⟩ := List.mem_map.mp hg
    split
    · rename_i hid'
      obtain rfl := h.order.eq_of_id_eq ha hf hid'
      rw [if_pos rfl] at hactive
      exact .inr ⟨hp, rfl, a, ha, hactive, hid, haddr⟩
    · exact .inl ha
  · obtain ⟨hsteps, -, hsub, -⟩ := evictPassive_spec h hev
    obtain ⟨l₁, l₂, hl, heq, -⟩ := exists_insert_eq (hsteps.inv h).order
      fun f hf => hnew f (hsub.subset hf)
    rw [heq] at hg
    simp only [List.mem_append, List.mem_cons] at hg
    rcases hg with hg | rfl | hg
    · exact .inl (hsub.subset (by simp [hl, hg]))
    · cases hactive
    · exact .inl (hsub.subset (by simp [hl, hg]))

/-- The finger an insertion returns has the peer, or is a finger from before it with the
address of the peer. -/
theorem insertFinger_found (h : TableInv L srv) {id : ChordID}
    (hr : insertFinger srv (p.node L).id p.addr p.port = .ok r) (hid : r.finger = some id) :
  ∃ f ∈ r.srv.flist, f.node.id = id ∧
    (f.node.peer = p ∨ (f ∈ srv.flist ∧ f.node.id = (p.node L).id ∧ f.node.addr = p.addr))
  := by
  obtain ⟨-, rfl⟩ | ⟨-, f, hf, hfid, haddr, rfl⟩ | ⟨-, f, hf, hfid, -, rfl⟩ |
    ⟨-, hnew, srv₁, hev, rfl⟩ := insertFinger_cases hr
  · cases hid
  · cases hid
    exact ⟨f, hf, rfl, .inr ⟨hf, hfid, haddr⟩⟩
  · cases hid
    obtain ⟨l₁, l₂, hl⟩ := List.append_of_mem hf
    use replacePeer p.addr p.port f
    rw [h.order.modifyFinger_eq hl]
    refine ⟨by simp, rfl, .inl rfl⟩
  · cases hid
    obtain ⟨hsteps, -, hsub, -⟩ := evictPassive_spec h hev
    obtain ⟨l₁, l₂, hl, heq, -⟩ := exists_insert_eq (hsteps.inv h).order
      fun f hf => hnew f (hsub.subset hf)
    use newFinger (p.node L)
    rw [heq]
    refine ⟨by simp, rfl, .inl rfl⟩

/-- After a packet that keeps the peers, an active finger has the peer of an active finger
from before it, or the packet is a verified pong of its peer. -/
theorem process_active (h : TableInv L srv) (hsafe : keepsPeers L srv (.packet frm msg io))
    (ho : process L io srv msg (frm.node L) = .ok out) (hg : g ∈ out.srv.flist)
    (hactive : g.isActive = true) :
  (∃ f ∈ srv.flist, f.isActive = true ∧ f.node = g.node) ∨
    (srv.Discovered ∧ g.node.peer = frm ∧ ∃ m, msg = .pong m ∧ pongVerified L io srv frm m)
  := by
  have he := process_effect ho
  generalize out.srv = srv' at he hg
  cases he with
  | keep => exact .inl ⟨g, hg, hactive, rfl⟩
  | adopt undiscovered => exact .inl ⟨g, hg, hactive, rfl⟩
  | insert discovered named ticket inserted =>
      rcases insertFinger_active h inserted hg hactive with hold | ⟨hp, -, f, hf, hfa, hid, haddr⟩
      · exact .inl ⟨g, hold, hactive, rfl⟩
      · exact absurd (hsafe.1 _ ⟨named, hp, ticket⟩ f hf hfa hid) haddr
  | @accept m r id newRtt srv' discovered verified inserted finger accepted =>
      have hv : ∃ m', Msg.pong m = .pong m' ∧ pongVerified L io srv frm m' :=
        ⟨m, rfl, verified⟩
      have hinv := (insertFinger_steps h discovered inserted).inv h
      obtain ⟨f, hf, rfl, hfound⟩ := insertFinger_found h inserted finger
      rcases acceptPong_mem hinv hf accepted hg with ⟨hg, -⟩ | ⟨hnode, -⟩
      · rcases insertFinger_active h inserted hg hactive with hold | ⟨-, hpeer, -⟩
        · exact .inl ⟨g, hold, hactive, rfl⟩
        · exact .inr ⟨discovered, hpeer, hv⟩
      · rcases hfound with hpeer | ⟨hold, hid, haddr⟩
        · exact .inr ⟨discovered, by rw [hnode, hpeer], hv⟩
        · by_cases hfa : f.isActive = true
          · exact .inl ⟨f, hold, hfa, hnode.symm⟩
          · have hport := hsafe.2 m rfl verified f hold
              (Finger.isPassive_iff.mpr (Bool.eq_false_iff.mpr hfa)) hid haddr
            refine .inr ⟨discovered, ?_, hv⟩
            rw [hnode, Node.peer, haddr, hport]

/-- After an event that keeps the peers, an active finger has the peer of an active finger
from before it, or the event is a verified pong of its peer. -/
theorem step_active (h : TableInv L srv) (hsafe : keepsPeers L srv e)
    (hs : step L srv e = .ok srv') (hg : g ∈ srv'.flist) (hactive : g.isActive = true) :
  (∃ f ∈ srv.flist, f.isActive = true ∧ f.node = g.node) ∨
    (srv.Discovered ∧ ∃ m io, e = .packet g.node.peer (.pong m) io ∧
      pongVerified L io srv g.node.peer m)
  := by
  rw [step, Except.map_eq_ok] at hs
  obtain ⟨⟨_, acts⟩, hs, rfl⟩ := hs
  cases e with
  | packet frm msg io =>
      obtain ⟨out, ho, heq⟩ := Except.map_eq_ok.mp hs
      cases heq
      rcases process_active h hsafe ho hg hactive with hold | ⟨hd, rfl, m, rfl, hv⟩
      · exact .inl hold
      · exact .inr ⟨hd, m, io, rfl, hv⟩
  | tick idx io =>
      obtain ⟨t, ht, heq⟩ := Except.map_eq_ok.mp hs
      cases heq
      obtain ⟨f, hf, hnode, hstatus⟩ := stabilize_mem h ht hg
      refine .inl ⟨f, hf, ?_, hnode⟩
      rw [Finger.isActive, hstatus]
      exact hactive
  | discover io =>
      cases hs
      exact .inl ⟨g, hg, hactive, rfl⟩

/-! ### Runs -/

/-- In every run whose events keep the peers of active fingers, every active finger in the
state reached belongs to a peer of which the server has processed a verified pong. -/
theorem active_is_verified (hrun : run L (newServer cfg) es = .ok srv)
    (hsafe : ∀ es₁ e es₂ srv₁, es = es₁ ++ e :: es₂ → run L (newServer cfg) es₁ = .ok srv₁ →
      keepsPeers L srv₁ e) :
  ∀ f ∈ srv.flist, f.isActive = true → VerifiedIn L cfg es f.node.peer
  := by
  revert hsafe
  apply Machine.run_induction (P := fun es srv =>
    (∀ es₁ e es₂ srv₁, es = es₁ ++ e :: es₂ → run L (newServer cfg) es₁ = .ok srv₁ →
      keepsPeers L srv₁ e) →
    ∀ f ∈ srv.flist, f.isActive = true → VerifiedIn L cfg es f.node.peer) _ _ hrun
  · intro _ f hf
    cases hf
  · intro es srv₁ e srv₂ hrun₁ ih hs hsafe g hg hactive
    have hinv := Reachable.tableInv ⟨cfg, es, hrun₁⟩
    have hold := ih fun es₁ e' es₂ srv' hes hrun' =>
      hsafe es₁ e' (es₂ ++ [e]) srv' (by simp [hes]) hrun'
    rcases step_active hinv (hsafe es e [] srv₁ rfl hrun₁) hs hg hactive with
      ⟨f, hf, hfa, hnode⟩ | ⟨hd, m, io, rfl, hv⟩
    · rw [← hnode]
      apply (hold f hf hfa).append
    · exact ⟨es, m, io, [], srv₁, rfl, hrun₁, hd, hv⟩

/-- A server without fingers has no peer to replace. -/
theorem keepsPeers_of_nil (h : srv.flist = []) (e : Event) :
  keepsPeers L srv e
  := by
  cases e with
  | packet frm msg io => simp [keepsPeers, h]
  | tick idx io => trivial
  | discover io => trivial

/-- A server that learns its address and gets a pong. -/
theorem active_is_verified_sample :
  VerifiedIn sampleLibrary (sampleConfig (samplePeer 10 0))
    [sampleAddr (samplePeer 10 0), samplePong (samplePeer 20 0)] (samplePeer 20 0)
  := by
  have hrun : run sampleLibrary (newServer (sampleConfig (samplePeer 10 0)))
      [sampleAddr (samplePeer 10 0), samplePong (samplePeer 20 0)]
      = .ok (sampleServer (samplePeer 10 0) [samplePeer 20 0]) := by
    decide
  have hrun₀ : run sampleLibrary (newServer (sampleConfig (samplePeer 10 0)))
      [sampleAddr (samplePeer 10 0)] = .ok (sampleServer (samplePeer 10 0) []) := by
    decide
  apply active_is_verified hrun _ ⟨(samplePeer 20 0).node sampleLibrary, .active, 0, 0, 0⟩
  · decide
  · rfl
  · intro es₁ e es₂ srv₁ hes hrun₁
    apply keepsPeers_of_nil
    match es₁ with
    | [] =>
        cases hrun₁
        rfl
    | [e₀] =>
        cases hes
        rw [hrun₀] at hrun₁
        cases hrun₁
        decide
    | _ :: _ :: _ => simp at hes

/-- A notification from a peer whose hash collides with that of an active finger puts the peer
into the finger, which stays active, though the peer has sent no pong. -/
theorem unverified_active_by_collision :
  ∃ cfg es srv, run sampleLibrary (newServer cfg) es = .ok srv ∧
    ∃ f ∈ srv.flist, f.isActive = true ∧ ¬ VerifiedIn sampleLibrary cfg es f.node.peer
  := by
  refine ⟨sampleConfig (samplePeer 10 0), [sampleAddr (samplePeer 10 0),
    samplePong (samplePeer 20 0), .packet (samplePeer 20 1) .notify sampleIo], _, rfl,
    ⟨⟨((samplePeer 20 1).node sampleLibrary), .active, 0, 0, 0⟩, ?_, rfl, ?_⟩⟩
  · decide
  · rintro ⟨es₁, m, io, es₂, srv₁, hes, -⟩
    have hmem : Event.packet (samplePeer 20 1) (.pong m) io ∈
        [sampleAddr (samplePeer 10 0), samplePong (samplePeer 20 0),
          .packet (samplePeer 20 1) .notify sampleIo] := by
      rw [hes]
      simp [Node.peer, Peer.node]
    simp [sampleAddr, samplePong, samplePeer] at hmem

end Tangent

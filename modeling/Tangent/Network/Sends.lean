import Tangent.Routing.Hop

/-!
# Where packets go

A tick sends lookups, pings and stabilize messages about the server itself, to the well-known
nodes and to the fingers.  A handler sends to the sender of the packet, to the fingers, and to
the peers it takes from the messages: the one that asks for its successor, and the ones it
inserts.
-/

namespace Tangent

variable {L : Library} {io : Io} {srv srv' : ChordServer} {frm p : Peer} {msg : Msg}
  {out : Outcome} {acts : List Action} {r : Inserted} {f g : Finger} {pkt : Packet}
  {P : Packet → Prop}

/-- The peer a packet is sent to. -/
def Packet.dst (pkt : Packet) : Peer :=
  ⟨pkt.toAddr, pkt.toPort⟩

/-- The packets that are sent satisfy `P`. -/
def Sends (P : Packet → Prop) (acts : List Action) : Prop :=
  ∀ pkt, .send pkt ∈ acts → P pkt

theorem Sends.nil :
  Sends P []
  := by
  intro pkt hpkt
  cases hpkt

theorem Sends.sendPacket {addr : In6Addr} {port : UInt16} (h : Sends P acts)
    (hpkt : P ⟨addr, port, msg⟩) :
  Sends P (sendPacket acts addr port msg)
  := by
  intro pkt hmem
  rw [Tangent.sendPacket, List.mem_append, List.mem_singleton] at hmem
  rcases hmem with hmem | heq
  · apply h pkt hmem
  · cases heq
    exact hpkt

/-- A ping that is sent under a condition. -/
theorem Sends.ping_if {b : Prop} [Decidable b] {addr : In6Addr} {port : UInt16}
    (h : Sends P acts) (hping : ∀ m, P ⟨addr, port, .ping m⟩) :
  Sends P (if b then sendPing L io srv acts addr port else acts)
  := by
  split
  · apply h.sendPacket (hping _)
  · exact h

/-! ### The timer -/

/-- The peer is a well-known node or the peer of a finger. -/
def Known (srv : ChordServer) (p : Peer) : Prop :=
  p ∈ srv.wellKnown ∨ ∃ f ∈ srv.flist, f.node.peer = p

/-- The packet is one of those a tick sends. -/
def TickPacket (srv : ChordServer) (pkt : Packet) : Prop :=
  Known srv pkt.dst ∧
    ((∃ m, pkt.msg = .fs m) ∨ (∃ m, pkt.msg = .ping m) ∨
      pkt.msg = .stab ⟨srv.node.addr.s6Addr, srv.node.port.toUInt32⟩)

theorem Known.of_mem (hf : f ∈ srv.flist) :
  Known srv f.node.peer
  := .inr ⟨f, hf, rfl⟩

/-- Shrinking steps add nothing to what the server knows and sends. -/
theorem TickPacket.of_steps {K : Set Kind} (hinv : TableInv L srv)
    (hs : TableSteps L K srv srv') (hK : K ⊆ shrinking) (h : TickPacket srv' pkt) :
  TickPacket srv pkt
  := by
  obtain ⟨hknown, hmsg⟩ := h
  have hsame : SameNode srv srv' := by
    apply hs.sameNode
    intro hadopt
    simpa [shrinking] using hK hadopt
  have hwell : srv'.wellKnown = srv.wellKnown := by
    have hset := hsame.2
    simp only [ChordServer.settings, Prod.mk.injEq] at hset
    exact hset.2.2.2
  constructor
  · rcases hknown with hwk | ⟨f, hf, hp⟩
    · left
      rw [← hwell]
      exact hwk
    · obtain ⟨g, hg, hnode, -⟩ := hs.mem_of_mem hinv hK hf
      rw [← hp, ← hnode]
      exact Known.of_mem hg
  · rw [← hsame.1]
    exact hmsg

/-- Following `next` leads to a finger of the list. -/
theorem walkNext_mem (k : ℕ) (f : Finger) (fs : List Finger) :
  (walkNext k f fs).1 ∈ f :: fs
  := by
  fun_induction walkNext k f fs with
  | case1 k f g gs ih => exact List.mem_cons_of_mem f ih
  | case2 => exact List.mem_cons_self

/-! A function of the timer adds packets of a tick to those sent before; `P` holds of both. -/

section Tick

variable (hP : ∀ pkt, TickPacket srv pkt → P pkt)

include hP

theorem sendPing_sends {srv₁ : ChordServer} (h : Sends P acts)
    {addr : In6Addr} {port : UInt16} (hdst : Known srv ⟨addr, port⟩) :
  Sends P (sendPing L io srv₁ acts addr port)
  := h.sendPacket (hP _ ⟨hdst, .inr (.inl ⟨_, rfl⟩)⟩)

theorem sendFs_sends {srv₁ : ChordServer} (h : Sends P acts)
    {toAddr : In6Addr} {toPort : UInt16} (hdst : Known srv ⟨toAddr, toPort⟩) (ttl : UInt8)
    (addr : In6Addr) (port : UInt16) :
  Sends P (sendFs L io srv₁ acts ttl toAddr toPort addr port)
  := h.sendPacket (hP _ ⟨hdst, .inl ⟨_, rfl⟩⟩)

theorem pingLoop_sends {fs : List Finger} {i : ℕ} {st : PingState}
    (hfs : ∀ f ∈ fs, f ∈ srv.flist) (h : Sends P st.acts) :
  Sends P (pingLoop L io fs i st).acts
  := by
  induction fs generalizing i st with
  | nil => exact h
  | cons f fs ih =>
      have hf := hfs f List.mem_cons_self
      have hfs' : ∀ f ∈ fs, f ∈ srv.flist := fun g hg => hfs g (List.mem_cons_of_mem f hg)
      rw [pingLoop]
      split
      · apply ih hfs'
        exact h
      · split
        · apply ih hfs'
          apply sendPing_sends hP h (Known.of_mem hf)
        · apply ih hfs' h

theorem ping_sends :
  Sends P (ping L io srv).2
  := by
  have hloop : Sends P (pingLoop L io srv.flist 0 ⟨srv, [], none⟩).acts := by
    apply pingLoop_sends hP _ Sends.nil
    intro f hf
    exact hf
  rw [ping]
  split
  · exact hloop
  · exact hloop

theorem fixPredsLoop_sends {s : Finger} {k : ℕ} {fs : List Finger}
    (hfs : ∀ f ∈ fs, f ∈ srv.flist) (h : Sends P acts) :
  Sends P (fixPredsLoop L io srv s acts k fs)
  := by
  fun_induction fixPredsLoop L io srv s acts k fs with
  | case1 => exact h
  | case2 k f g fs _ _ ih => apply ih fun g hg => hfs g (List.mem_cons_of_mem f hg)
  | case3 => exact h
  | case4 f g fs _ => apply sendFs_sends hP h (Known.of_mem (hfs f List.mem_cons_self))
  | case5 k f g fs _ _ _ _ ih => apply ih fun g hg => hfs g (List.mem_cons_of_mem f hg)
  | case6 => exact h

theorem fixSuccsPreds_sends (L : Library) (io : Io) (h : Sends P acts) :
  Sends P (fixSuccsPreds L io srv acts).2
  := by
  rw [fixSuccsPreds]
  split
  · exact h
  · rename_i f fs hdrop
    have hmem : ∀ g ∈ f :: fs, g ∈ srv.flist := by
      rw [← hdrop]
      intro g hg
      exact (List.dropWhile_sublist _).subset hg
    split
    · exact h
    · rename_i g _ _ hwalk
      have hg := walkNext_mem srv.toFixBackup f fs
      rw [hwalk] at hg
      apply fixPredsLoop_sends hP
      · intro a ha
        exact List.mem_reverse.mp ((List.dropWhile_sublist _).subset ha)
      · apply sendFs_sends hP h (Known.of_mem (hmem g hg))

theorem askWellKnown_sends {rnd i : ℕ} {ps : List Peer} (hps : ∀ p ∈ ps, p ∈ srv.wellKnown)
    (h : Sends P acts) :
  Sends P (askWellKnown L io srv rnd i ps acts)
  := by
  induction ps generalizing i acts with
  | nil => exact h
  | cons p ps ih =>
      apply ih fun q hq => hps q (List.mem_cons_of_mem p hq)
      split
      · apply sendFs_sends hP h (.inl (hps p List.mem_cons_self))
      · exact h

theorem askFarFinger_sends {s : Finger} (hs : s ∈ srv.flist) (h : Sends P acts)
    {srv₁ : ChordServer} (hl : srv₁.flist = srv.flist) :
  Sends P (askFarFinger L io srv₁ s acts)
  := by
  have hmem : (closestPrecedingFinger srv₁
      (chordIdSuccessor srv₁.node.id (nfingers - 1)) false).getD s ∈ srv.flist := by
    cases hf : closestPrecedingFinger srv₁
        (chordIdSuccessor srv₁.node.id (nfingers - 1)) false with
    | none => exact hs
    | some f =>
        rw [← hl]
        exact (closestPrecedingFinger_mem hf).1
  rw [askFarFinger]
  split
  · apply sendFs_sends hP _ (Known.of_mem hmem)
    apply sendFs_sends hP h (Known.of_mem hmem)
  · apply sendFs_sends hP h (Known.of_mem hmem)

theorem fixFingers_sends {acts' : List Action} (h : Sends P acts)
    (hx : fixFingers L io srv acts = .ok (srv', acts')) :
  Sends P acts'
  := by
  have hmove : ∀ s, (moveFixFinger L io srv s acts).1.flist = srv.flist ∧
      Sends P (moveFixFinger L io srv s acts).2 := by
    intro s
    rw [moveFixFinger]
    split
    · use rfl
      simp only
      split
      · apply askWellKnown_sends hP _ h
        intro p hp
        exact hp
      · exact h
    · exact ⟨rfl, h⟩
  rw [fixFingers] at hx
  split at hx
  · cases hx
  · split at hx
    · cases hx
    · rename_i s hs
      cases hx
      apply askFarFinger_sends hP (succFinger_mem hs).1 (hmove s).2 (hmove s).1

theorem joinWellKnown_sends {ps : List Peer} (hps : ∀ p ∈ ps, p ∈ srv.wellKnown)
    (h : Sends P acts) :
  Sends P (joinWellKnown L io srv ps acts)
  := by
  induction ps generalizing acts with
  | nil => exact h
  | cons p ps ih =>
      have hp : Known srv p := .inl (hps p List.mem_cons_self)
      apply ih fun q hq => hps q (List.mem_cons_of_mem p hq)
      apply sendPing_sends hP _ hp
      apply sendFs_sends hP h hp

theorem pingPred_sends {idx : ℕ} {acts' : List Action} (h : Sends P acts)
    (hp : pingPred L io srv idx acts = .ok acts') :
  Sends P acts'
  := by
  rw [pingPred] at hp
  split at hp
  · split at hp
    · cases hp
    · rename_i pred hpred
      cases hp
      apply sendPing_sends hP h (Known.of_mem (predFinger_mem hpred).1)
  · cases hp
    exact h

end Tick

/-- What a tick sends. -/
theorem stabilize_sends {idx : ℕ} {t : Tick} (hinv : TableInv L srv)
    (ht : stabilize L io srv idx = .ok t) :
  Sends (TickPacket srv) t.acts
  := by
  rw [stabilize] at ht
  split at ht
  · cases ht
    apply joinWellKnown_sends (fun _ => id) _ Sends.nil
    intro p hp
    exact hp
  · have hping := ping_steps io hinv
    have hsends : Sends (TickPacket srv) (ping L io srv).2 := ping_sends fun _ => id
    have hP : ∀ pkt, TickPacket (ping L io srv).1 pkt → TickPacket srv pkt :=
      fun pkt h => h.of_steps hinv hping (by simp [shrinking, Set.insert_subset_iff])
    simp only at ht
    split at ht
    · cases ht
      exact hsends
    · rename_i s hs
      have hstab : Sends (TickPacket srv) (sendStab (ping L io srv).2 s.node.addr s.node.port
          (ping L io srv).1.node.addr (ping L io srv).1.node.port) :=
        hsends.sendPacket (hP _ ⟨Known.of_mem (succFinger_mem hs).1, .inr (.inr rfl)⟩)
      obtain ⟨acts, hpred, ht⟩ := Except.bind_eq_ok.mp ht
      obtain ⟨⟨srv₂, acts₂⟩, hff, ht⟩ := Except.bind_eq_ok.mp ht
      have hfix := fixSuccsPreds_sends hP L io (pingPred_sends hP hstab hpred)
      have hacts₂ : Sends (TickPacket srv) acts₂ := by
        apply fixFingers_sends _ hfix hff
        intro pkt hpkt
        apply hP pkt
        apply hpkt.of_steps (hping.inv hinv) (fixSuccsPreds_steps L io _ acts)
        simp [shrinking]
      split at ht
      · obtain ⟨srv₃, -, ht⟩ := Except.bind_eq_ok.mp ht
        cases ht
        exact hacts₂
      · cases ht
        exact hacts₂

/-- What `discover_addr` sends. -/
theorem discoverAddr_sends :
  Sends (fun pkt => pkt.dst ∈ srv.wellKnown) (discoverAddr L io srv)
  := by
  have hfold : ∀ (ps : List Peer) (acts : List Action), (∀ p ∈ ps, p ∈ srv.wellKnown) →
      Sends (fun pkt => pkt.dst ∈ srv.wellKnown) acts →
      Sends (fun pkt => pkt.dst ∈ srv.wellKnown)
        (ps.foldl (fun acts p => sendAddrDiscover L io srv acts p.addr p.port) acts) := by
    intro ps
    induction ps with
    | nil =>
        intro acts _ h
        exact h
    | cons p ps ih =>
        intro acts hps h
        apply ih _ fun q hq => hps q (List.mem_cons_of_mem p hq)
        exact h.sendPacket (hps p List.mem_cons_self)
  rw [discoverAddr]
  split
  · apply hfold srv.wellKnown [] _ Sends.nil
    intro p hp
    exact hp
  · apply Sends.nil

/-! ### The handlers -/

/-- The handler of the message takes the peer from it: it answers the peer that asks for its
successor, or it inserts the peer of a reply or a stabilize message, pings it or answers it. -/
inductive TakesPeer (L : Library) (io : Io) (srv : ChordServer) : Msg → Peer → Prop where
  | fs {m : FindSuccessor} (discovered : srv.Discovered) (alive : m.ttl - 1 ≠ 0)
      (other : m.requester io ≠ srv.node.peer)
      (answered : ∀ s, succFinger srv = some s →
        (idIsBetween ((m.requester io).node L).id srv.node.id s.node.id
          || idEquals ((m.requester io).node L).id s.node.id) = true) :
      TakesPeer L io srv (.fs m) (m.requester io)
  | fsReply {m : FindSuccessorReply} (discovered : srv.Discovered)
      (verified : verifyTicket L srv (io.time 0) m.ticket fsArgs = .ok true)
      (other : ¬ namesSelf srv (fieldAddr m.addr io.behind) m.port) :
      TakesPeer L io srv (.fsReply m) ⟨fieldAddr m.addr io.behind, m.port.toUInt16⟩
  | stab {m : Stabilize} (discovered : srv.Discovered) :
      TakesPeer L io srv (.stab m) ⟨fieldAddr m.addr io.behind, m.port.toUInt16⟩
  | stabReply {m : StabilizeReply} (discovered : srv.Discovered)
      (other : ¬ namesSelf srv (fieldAddr m.addr io.behind) m.port) :
      TakesPeer L io srv (.stabReply m) ⟨fieldAddr m.addr io.behind, m.port.toUInt16⟩

/-- The peers a handler deals with: the sender, the fingers before and after, and the peer it
takes from the message. -/
def Involved (L : Library) (io : Io) (srv srv' : ChordServer) (frm : Peer) (msg : Msg)
    (p : Peer) : Prop :=
  p = frm ∨ (∃ f ∈ srv.flist, f.node.peer = p) ∨ (∃ f ∈ srv'.flist, f.node.peer = p) ∨
    TakesPeer L io srv msg p

theorem processData_sends {m : Data} (hinv : TableInv L srv)
    (h : processData io srv m (frm.node L) = .ok out) :
  Sends (fun pkt => Involved L io srv out.srv frm (.data m) pkt.dst) out.acts
  := by
  obtain ⟨ret, -, -, rfl⟩ | ⟨-, -, -, rfl⟩ | ⟨-, -, hremote, rfl⟩ := processData_cases h
  · apply Sends.nil
  · intro pkt hpkt
    simp at hpkt
  · obtain ⟨g, last', heq, hnext⟩ := hinv.nextRouteNode_eq hremote m.last
    refine Sends.nil.sendPacket ?_
    rw [heq]
    exact .inr (.inl ⟨g, hnext.mem.1, rfl⟩)

theorem processFs_sends {m : FindSuccessor} (h : processFs L io srv m (frm.node L) = .ok out) :
  Sends (fun pkt => Involved L io srv out.srv frm (.fs m) pkt.dst) out.acts
  := by
  obtain ⟨ret, -, -, rfl⟩ | ⟨-, -, -, rfl⟩ | ⟨hd, httl, hother, hs, rfl⟩ |
    ⟨hd, httl, hother, s, hs, hid, rfl⟩ | ⟨-, -, -, s, hs, hid, rfl⟩ := processFs_cases h
  · apply Sends.nil
  · apply Sends.nil
  · refine Sends.nil.sendPacket ?_
    refine .inr (.inr (.inr (.fs hd httl hother ?_)))
    simp [hs]
  · refine Sends.nil.sendPacket ?_
    refine .inr (.inr (.inr (.fs hd httl hother ?_)))
    intro s' hs'
    rw [hs] at hs'
    cases hs'
    exact hid
  · rw [← Bool.not_eq_true, between_or_equals_iff] at hid
    obtain ⟨g, hg, hnode⟩ := exists_closestPrecedingFinger hs hid
    refine Sends.nil.sendPacket ?_
    rw [hnode]
    exact .inr (.inl ⟨g, (closestPrecedingFinger_mem hg).1, rfl⟩)

theorem processFsReply_sends {m : FindSuccessorReply}
    (h : processFsReply L io srv m (frm.node L) = .ok out) :
  Sends (fun pkt => Involved L io srv out.srv frm (.fsReply m) pkt.dst) out.acts
  := by
  obtain ⟨ret, -, -, rfl⟩ | ⟨-, -, -, rfl⟩ | ⟨hd, hv, hother, r, -, rfl⟩ := processFsReply_cases h
  · apply Sends.nil
  · apply Sends.nil
  · refine Sends.ping_if Sends.nil ?_
    intro m'
    exact .inr (.inr (.inr (.fsReply hd hv hother)))

theorem processStab_sends {m : Stabilize} (h : processStab L io srv m (frm.node L) = .ok out) :
  Sends (fun pkt => Involved L io srv out.srv frm (.stab m) pkt.dst) out.acts
  := by
  obtain ⟨-, rfl⟩ | ⟨hd, r, -, rfl | ⟨pred, -, rfl⟩⟩ := processStab_cases h
  · apply Sends.nil
  · apply Sends.nil
  · refine Sends.nil.sendPacket ?_
    exact .inr (.inr (.inr (.stab hd)))

theorem processStabReply_sends {m : StabilizeReply}
    (h : processStabReply L io srv m (frm.node L) = .ok out) :
  Sends (fun pkt => Involved L io srv out.srv frm (.stabReply m) pkt.dst) out.acts
  := by
  obtain ⟨-, rfl⟩ | ⟨-, -, rfl⟩ | ⟨hd, hother, r, -, s, hs, rfl⟩ := processStabReply_cases h
  · apply Sends.nil
  · apply Sends.nil
  · apply Sends.ping_if
    · refine Sends.nil.sendPacket ?_
      exact .inr (.inr (.inl ⟨s, (succFinger_mem hs).1, rfl⟩))
    · intro m'
      exact .inr (.inr (.inr (.stabReply hd hother)))

/-- What a handler sends goes to the peers it deals with. -/
theorem process_sends (hinv : TableInv L srv) (h : process L io srv msg (frm.node L) = .ok out) :
  Sends (fun pkt => Involved L io srv out.srv frm msg pkt.dst) out.acts
  := by
  cases msg with
  | addrDiscover m =>
      cases h
      refine Sends.nil.sendPacket ?_
      exact .inl rfl
  | addrDiscoverReply m =>
      obtain ⟨-, rfl⟩ | ⟨-, -, rfl⟩ | ⟨-, rfl⟩ := processAddrDiscoverReply_cases h
      · apply Sends.nil
      · apply Sends.nil
      · apply Sends.nil
  | data m => exact processData_sends hinv h
  | fs m => exact processFs_sends h
  | fsReply m => exact processFsReply_sends h
  | stab m => exact processStab_sends h
  | stabReply m => exact processStabReply_sends h
  | notify =>
      obtain ⟨-, rfl⟩ | ⟨-, r, -, rfl⟩ := processNotify_cases h
      · apply Sends.nil
      · refine Sends.ping_if Sends.nil ?_
        intro m'
        exact .inl rfl
  | ping m =>
      obtain ⟨-, rfl⟩ | ⟨-, r, -, rfl⟩ := processPing_cases h
      · apply Sends.nil
      · apply Sends.sendPacket
        · refine Sends.ping_if Sends.nil ?_
          intro m'
          exact .inl rfl
        · exact .inl rfl
  | pong m =>
      obtain ⟨ret, -, -, rfl⟩ | ⟨-, -, r, -, ⟨-, rfl⟩ | ⟨id, srv', -, -, rfl⟩⟩ :=
        processPong_cases h
      · apply Sends.nil
      · apply Sends.nil
      · apply Sends.nil

/-- The fingers after a packet have nodes from before it, or the node of the sender or of the
peer the handler takes from the message. -/
theorem process_mem_taken (hinv : TableInv L srv)
    (h : process L io srv msg (frm.node L) = .ok out) (hg : g ∈ out.srv.flist) :
  (∃ f ∈ srv.flist, f.node = g.node) ∨
    ∃ p, (p = frm ∨ TakesPeer L io srv msg p) ∧ g.node = p.node L
  := by
  have htaken : ∀ {p : Peer} {r : Inserted},
      insertFinger srv (p.node L).id p.addr p.port = .ok r → g ∈ r.srv.flist →
      TakesPeer L io srv msg p → (∃ f ∈ srv.flist, f.node = g.node) ∨
        ∃ p, (p = frm ∨ TakesPeer L io srv msg p) ∧ g.node = p.node L := by
    intro p r hr hg htakes
    rcases insertFinger_mem_node hinv hr hg with hold | hnew
    · exact .inl hold
    · exact .inr ⟨p, .inr htakes, hnew⟩
  cases msg with
  | fsReply m =>
      obtain ⟨ret, -, -, rfl⟩ | ⟨-, -, -, rfl⟩ | ⟨hd, hv, hother, r, hr, rfl⟩ :=
        processFsReply_cases (n := frm.node L) h
      · exact .inl ⟨g, hg, rfl⟩
      · exact .inl ⟨g, hg, rfl⟩
      · exact htaken (p := ⟨fieldAddr m.addr io.behind, m.port.toUInt16⟩) hr hg
          (.fsReply hd hv hother)
  | stab m =>
      obtain ⟨-, rfl⟩ | ⟨hd, r, hr, rfl | ⟨pred, -, rfl⟩⟩ := processStab_cases (n := frm.node L) h
      · exact .inl ⟨g, hg, rfl⟩
      · exact htaken (p := ⟨fieldAddr m.addr io.behind, m.port.toUInt16⟩) hr hg (.stab hd)
      · exact htaken (p := ⟨fieldAddr m.addr io.behind, m.port.toUInt16⟩) hr hg (.stab hd)
  | stabReply m =>
      obtain ⟨-, rfl⟩ | ⟨-, -, rfl⟩ | ⟨hd, hother, r, hr, s, -, rfl⟩ :=
        processStabReply_cases (n := frm.node L) h
      · exact .inl ⟨g, hg, rfl⟩
      · exact .inl ⟨g, hg, rfl⟩
      · exact htaken (p := ⟨fieldAddr m.addr io.behind, m.port.toUInt16⟩) hr hg
          (.stabReply hd hother)
  | notify =>
      rcases process_mem_node hinv h hg with hold | ⟨p, hp, hnode⟩
      · exact .inl hold
      · exact .inr ⟨p, .inl (hp.elim (fun h => (Option.some.inj h).symm) id), hnode⟩
  | ping m =>
      rcases process_mem_node hinv h hg with hold | ⟨p, hp, hnode⟩
      · exact .inl hold
      · exact .inr ⟨p, .inl (hp.elim (fun h => (Option.some.inj h).symm) id), hnode⟩
  | _ =>
      rcases process_mem_node hinv h hg with hold | ⟨p, hnamed | rfl, hnode⟩
      · exact .inl hold
      · cases hnamed
      · exact .inr ⟨p, .inl rfl, hnode⟩

end Tangent

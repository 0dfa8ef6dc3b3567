import Tangent.Ownership
import Tangent.Table.Ping

/-!
# Unanswered pings

The counter `npings` of a finger is the number of pings `ping` has sent to it since it was last
renewed: since it was inserted, since its address was replaced, or since a verified pong came from
it.  It does not exceed `PING_THRESH`.  Every event either renews a finger, which then has no
unanswered pings, or adds to its counter the pings it sends.
-/

namespace Tangent

variable {L : Library} {cfg : Config} {io : Io} {srv srv' : ChordServer} {f g : Finger}
  {frm p : Peer} {msg : Msg} {out : Outcome} {r : Inserted} {e : Event} {es : List Event}

/-- The event renews the finger with the identifier `id`: it inserts the finger, it replaces its
address, or it is a verified pong that `insert_finger` takes to come from it, because the sender
has its identifier and its address. -/
inductive Renews (L : Library) (id : ChordID) (srv : ChordServer) (e : Event)
    (srv' : ChordServer) : Prop where
  | inserted (fresh : ∀ f ∈ srv.flist, f.node.id ≠ id) (there : ∃ g ∈ srv'.flist, g.node.id = id)
  | replaced (there : ∃ f ∈ srv.flist, ∃ g ∈ srv'.flist,
      f.node.id = id ∧ g.node.id = id ∧ f.node.addr ≠ g.node.addr)
  | ponged {frm : Peer} {m : Pong} {io : Io} (pong : e = .packet frm (.pong m) io)
      (verified : pongVerified L io srv frm m) (sender : (frm.node L).id = id)
      (other : frm ≠ srv.node.peer)
      (there : ∃ f ∈ srv.flist, f.node.id = id ∧ f.node.addr = frm.addr)

/-- The number of pings `ping` sends to `p` when an event happens. -/
def pingsTo (L : Library) (p : Peer) (srv : ChordServer) : Event → ℕ
  | .tick _ io => (ping L io srv).2.countP (Action.isPingTo p)
  | _ => 0

/-! ### One step -/

/-- The fingers after steps that trim the list and move the cursors are fingers from before
them. -/
theorem TableSteps.mem_of_trim (h : TableInv L srv) (hs : TableSteps L {.trim, .cursor} srv srv')
    (hg : g ∈ srv'.flist) :
  g ∈ srv.flist
  := by
  induction hs with
  | refl => exact hg
  | tail hs hstep ih =>
      obtain ⟨k, hk, hstep⟩ := hstep
      apply ih
      cases hstep with
      | trim f split left right =>
          apply (TableSteps.inv h hs).mem_removeFinger (by simp [split]) hg
      | cursor a b c => exact hg
      | adopt addr undiscovered => simp at hk
      | insert p discovered other fresh room => simp at hk
      | evict f mem passive => simp at hk
      | drop f mem => simp at hk
      | replace f p mem other same => simp at hk
      | touch f u mem node status => simp at hk
      | activate f mem passive => simp at hk

/-- A tick counts the pings it sends; what it leaves of a finger was below the threshold. -/
theorem stabilize_counts {idx : ℕ} {t : Tick} (h : TableInv L srv)
    (ht : stabilize L io srv idx = .ok t) (hg : g ∈ t.srv.flist) :
  ∃ f ∈ srv.flist, f.npings < pingThresh ∧ g.node = f.node ∧
    g.npings = f.npings + (ping L io srv).2.countP (Action.isPingTo g.node.peer) ∧
    g.npings ≤ f.npings + 1
  := by
  obtain ⟨hnil, heq⟩ | hsteps := stabilize_steps h ht
  · rw [heq, hnil] at hg
    cases hg
  · apply ping_mem h
    apply hsteps.mem_of_trim ((ping_steps io h).inv h) hg

/-- The fingers after an insertion are fingers from before it, but for the finger of the peer if it
is new or has got another address; this one has no unanswered pings. -/
theorem insertFinger_npings (h : TableInv L srv)
    (hr : insertFinger srv (p.node L).id p.addr p.port = .ok r) (hg : g ∈ r.srv.flist) :
  g ∈ srv.flist ∨ (g.npings = 0 ∧ g.node.id = (p.node L).id ∧
    ((∀ f ∈ srv.flist, f.node.id ≠ g.node.id) ∨
      ∃ f ∈ srv.flist, f.node.id = g.node.id ∧ f.node.addr ≠ g.node.addr))
  := by
  obtain ⟨-, rfl⟩ | ⟨-, f, -, -, -, rfl⟩ | ⟨-, f, hf, hid, haddr, rfl⟩ |
    ⟨-, hnew, srv₁, hev, rfl⟩ := insertFinger_cases hr
  · exact .inl hg
  · exact .inl hg
  · obtain ⟨a, ha, rfl⟩ := List.mem_map.mp hg
    split
    · rename_i hid'
      obtain rfl := h.order.eq_of_id_eq ha hf hid'
      exact .inr ⟨rfl, hid, .inr ⟨a, ha, rfl, haddr⟩⟩
    · exact .inl ha
  · obtain ⟨hsteps, -, hsub, -⟩ := evictPassive_spec h hev
    obtain ⟨l₁, l₂, hl, heq, -⟩ := exists_insert_eq (hsteps.inv h).order
      fun f hf => hnew f (hsub.subset hf)
    rw [heq] at hg
    simp only [List.mem_append, List.mem_cons] at hg
    rcases hg with hg | rfl | hg
    · exact .inl (hsub.subset (by simp [hl, hg]))
    · exact .inr ⟨rfl, rfl, .inl hnew⟩
    · exact .inl (hsub.subset (by simp [hl, hg]))

/-- The finger an insertion for another peer returns is new, or has got another address, or has
been there with the address of the peer. -/
theorem insertFinger_origin (hr : insertFinger srv (p.node L).id p.addr p.port = .ok r)
    {id : ChordID} (hid : r.finger = some id) :
  id = (p.node L).id ∧ p ≠ srv.node.peer ∧
    ((∀ f ∈ srv.flist, f.node.id ≠ id) ∨
      (∃ f ∈ srv.flist, f.node.id = id ∧ f.node.addr = p.addr) ∨
      (∃ f ∈ srv.flist, f.node.id = id ∧
        ∀ g ∈ r.srv.flist, g.node.id = id → f.node.addr ≠ g.node.addr))
  := by
  obtain ⟨-, rfl⟩ | ⟨hp, f, hf, hfid, haddr, rfl⟩ | ⟨hp, f, hf, hfid, haddr, rfl⟩ |
    ⟨hp, hnew, srv₁, -, rfl⟩ := insertFinger_cases hr
  · cases hid
  · cases hid
    exact ⟨hfid, hp, .inr (.inl ⟨f, hf, rfl, haddr⟩)⟩
  · cases hid
    refine ⟨hfid, hp, .inr (.inr ⟨f, hf, rfl, ?_⟩)⟩
    intro g hg hgid
    obtain ⟨a, ha, rfl⟩ := List.mem_map.mp hg
    split at hgid
    · rename_i hid'
      rw [if_pos hid']
      exact haddr
    · rename_i hid'
      exact absurd hgid hid'
  · cases hid
    exact ⟨rfl, hp, .inl hnew⟩

/-- A packet leaves a finger as it is, or renews it. -/
theorem process_renews (h : TableInv L srv) (ho : process L io srv msg (frm.node L) = .ok out)
    (hg : g ∈ out.srv.flist) :
  g ∈ srv.flist ∨
    (g.npings = 0 ∧ Renews L g.node.id srv (.packet frm msg io) out.srv)
  := by
  have he := process_effect ho
  generalize out.srv = srv' at he hg ⊢
  cases he with
  | keep => exact .inl hg
  | adopt undiscovered => exact .inl hg
  | insert discovered named ticket inserted =>
      rcases insertFinger_npings h inserted hg with hold | ⟨hzero, -, hfresh | hrepl⟩
      · exact .inl hold
      · exact .inr ⟨hzero, .inserted hfresh ⟨g, hg, rfl⟩⟩
      · obtain ⟨f, hf, hid, haddr⟩ := hrepl
        exact .inr ⟨hzero, .replaced ⟨f, hf, g, hg, hid, rfl, haddr⟩⟩
  | @accept m r id newRtt srv' discovered verified inserted finger accepted =>
      have hinv := (insertFinger_steps h discovered inserted).inv h
      obtain ⟨-, f, hf, hid⟩ := insertFinger_mem h inserted finger
      obtain ⟨hsender, hother, horigin⟩ := insertFinger_origin inserted finger
      subst hid
      rcases acceptPong_mem hinv hf accepted hg with ⟨hg', hne⟩ | ⟨hnode, hzero⟩
      · rcases insertFinger_npings h inserted hg' with hold | ⟨-, hid, -⟩
        · exact .inl hold
        · exact absurd (hid.trans hsender.symm) hne
      · right
        use hzero
        rw [hnode]
        obtain hfresh | ⟨f₀, hf₀, hid₀, haddr⟩ | ⟨f₀, hf₀, hid₀, haddr⟩ := horigin
        · apply Renews.inserted hfresh ⟨g, hg, by rw [hnode]⟩
        · apply Renews.ponged rfl verified hsender.symm hother ⟨f₀, hf₀, hid₀, haddr⟩
        · refine .replaced ⟨f₀, hf₀, g, hg, hid₀, by rw [hnode], ?_⟩
          rw [hnode]
          apply haddr f hf rfl

/-- A verified pong from a finger leaves it without unanswered pings. -/
theorem processPong_npings {m : Pong} (h : TableInv L srv)
    (ho : process L io srv (.pong m) (frm.node L) = .ok out) (hg : g ∈ out.srv.flist)
    (hf : f ∈ srv.flist) (hverified : pongVerified L io srv frm m)
    (hsender : (frm.node L).id = g.node.id) (hother : frm ≠ srv.node.peer) :
  g.npings = 0
  := by
  have hd := h.discovered hf
  obtain ⟨ret, -, hun | hfalse, -⟩ | ⟨-, -, r, hr, ⟨hnone, -⟩ | ⟨id, srv', hid, ha, rfl⟩⟩ :=
    processPong_cases (n := frm.node L) ho
  · exact absurd hd hun
  · rw [pongVerified] at hverified
    exact absurd (hverified.symm.trans hfalse) (by simp)
  · obtain ⟨hself, -⟩ | ⟨-, f, -, -, -, rfl⟩ | ⟨-, f, -, -, -, rfl⟩ | ⟨-, -, srv₁, -, rfl⟩ :=
      insertFinger_cases hr
    · exact absurd hself hother
    · cases hnone
    · cases hnone
    · cases hnone
  · have hinv := (insertFinger_steps h hd hr).inv h
    obtain ⟨rfl, f', hf', hid'⟩ := insertFinger_mem h hr hid
    rw [← hid'] at ha
    rcases acceptPong_mem hinv hf' ha hg with ⟨-, hne⟩ | ⟨-, hzero⟩
    · exact absurd (hsender.symm.trans hid'.symm) hne
    · exact hzero

/-- A finger that keeps its node is renewed by a verified pong only. -/
theorem Renews.of_kept (h : TableInv L srv) (h' : TableInv L srv') (hf : f ∈ srv.flist)
    (hg : g ∈ srv'.flist) (hnode : f.node = g.node) (hr : Renews L g.node.id srv e srv') :
  ∃ frm m io, e = .packet frm (.pong m) io ∧ pongVerified L io srv frm m ∧
    (frm.node L).id = g.node.id ∧ frm ≠ srv.node.peer
  := by
  cases hr with
  | inserted fresh there => exact absurd (by rw [hnode]) (fresh f hf)
  | replaced there =>
      obtain ⟨f₁, hf₁, g₁, hg₁, hid, hid', haddr⟩ := there
      obtain rfl := h.order.eq_of_id_eq hf₁ hf (by rw [hid, hnode])
      obtain rfl := h'.order.eq_of_id_eq hg₁ hg hid'
      exact absurd (by rw [hnode]) haddr
  | @ponged frm m io pong verified sender other there =>
      exact ⟨frm, m, io, pong, verified, sender, other⟩

/-- An event leaves a finger it renews without unanswered pings, and counts the pings it sends to
any other. -/
theorem step_npings (h : TableInv L srv) (hs : step L srv e = .ok srv') (hg : g ∈ srv'.flist) :
  (Renews L g.node.id srv e srv' ∧ g.npings = 0) ∨
    (¬ Renews L g.node.id srv e srv' ∧ ∃ f ∈ srv.flist, f.node = g.node ∧
      g.npings = f.npings + pingsTo L g.node.peer srv e)
  := by
  have h' := h.step hs
  rw [step, Except.map_eq_ok] at hs
  obtain ⟨⟨_, acts⟩, hs, rfl⟩ := hs
  cases e with
  | packet frm msg io =>
      obtain ⟨out, ho, heq⟩ := Except.map_eq_ok.mp hs
      cases heq
      rcases process_renews h ho hg with hold | ⟨hzero, hrenews⟩
      · by_cases hrenews : Renews L g.node.id srv (.packet frm msg io) out.srv
        · left
          use hrenews
          obtain ⟨frm, m, io, heq, hverified, hsender, hother⟩ :=
            hrenews.of_kept h h' hold hg rfl
          cases heq
          apply processPong_npings h ho hg hold hverified hsender hother
        · exact .inr ⟨hrenews, g, hold, rfl, rfl⟩
      · exact .inl ⟨hrenews, hzero⟩
  | tick idx io =>
      obtain ⟨t, ht, heq⟩ := Except.map_eq_ok.mp hs
      cases heq
      obtain ⟨f, hf, -, hnode, hcount, -⟩ := stabilize_counts h ht hg
      refine .inr ⟨?_, f, hf, hnode.symm, hcount⟩
      intro hrenews
      obtain ⟨frm, m, io, heq, -⟩ := hrenews.of_kept h h' hf hg hnode.symm
      cases heq
  | discover io =>
      cases hs
      refine .inr ⟨?_, g, hg, rfl, rfl⟩
      intro hrenews
      obtain ⟨frm, m, io, heq, -⟩ := hrenews.of_kept h h' hg hg rfl
      cases heq

/-- No event leads above the threshold. -/
theorem step_npings_le (h : TableInv L srv) (hle : ∀ f ∈ srv.flist, f.npings ≤ pingThresh)
    (hs : step L srv e = .ok srv') :
  ∀ g ∈ srv'.flist, g.npings ≤ pingThresh
  := by
  intro g hg
  rw [step, Except.map_eq_ok] at hs
  obtain ⟨⟨_, acts⟩, hs, rfl⟩ := hs
  cases e with
  | packet frm msg io =>
      obtain ⟨out, ho, heq⟩ := Except.map_eq_ok.mp hs
      cases heq
      rcases process_renews h ho hg with hold | ⟨hzero, -⟩
      · apply hle g hold
      · rw [hzero]
        apply Nat.zero_le pingThresh
  | tick idx io =>
      obtain ⟨t, ht, heq⟩ := Except.map_eq_ok.mp hs
      cases heq
      obtain ⟨f, -, hlt, -, -, hcount⟩ := stabilize_counts h ht hg
      omega
  | discover io =>
      cases hs
      apply hle g hg

/-! ### Runs -/

/-- In every reachable state a finger has at most `PING_THRESH` unanswered pings. -/
theorem Reachable.npings_le (h : Reachable L srv) :
  ∀ f ∈ srv.flist, f.npings ≤ pingThresh
  := by
  have hboth : TableInv L srv ∧ ∀ f ∈ srv.flist, f.npings ≤ pingThresh := by
    apply h.invariant (I := fun srv => TableInv L srv ∧ ∀ f ∈ srv.flist, f.npings ≤ pingThresh)
    · intro cfg
      refine ⟨.newServer L cfg, ?_⟩
      intro f hf
      cases hf
    · rintro srv e srv' ⟨hinv, hle⟩ hs
      exact ⟨hinv.step hs, step_npings_le hinv hle hs⟩
  exact hboth.2

/-- In every run, the unanswered pings of a finger are the pings `ping` has sent to it since the
latest event that renewed it. -/
theorem run_npings (hrun : run L (newServer cfg) es = .ok srv) :
  ∀ f ∈ srv.flist, Machine.SinceLast (step L) (pingsTo L f.node.peer) (Renews L f.node.id)
    (newServer cfg) es f.npings
  := by
  apply Machine.run_induction (P := fun es srv => ∀ f ∈ srv.flist, Machine.SinceLast (step L)
    (pingsTo L f.node.peer) (Renews L f.node.id) (newServer cfg) es f.npings) _ _ hrun
  · intro f hf
    cases hf
  · intro es srv₁ e srv₂ hrun₁ ih hs g hg
    have hinv := Reachable.tableInv ⟨cfg, es, hrun₁⟩
    rcases step_npings hinv hs hg with ⟨hrenews, hzero⟩ | ⟨hnot, f, hf, hnode, hcount⟩
    · rw [hzero]
      exact .reset hrun₁ hs hrenews
    · have hold := ih f hf
      rw [hnode] at hold
      rw [hcount]
      apply hold.count hrun₁ hs hnot

/-- A finger that `ping` drops has as many unanswered pings as allowed. -/
theorem npings_of_dropped (h : TableInv L srv) (hf : f ∈ srv.flist)
    (hdropped : ∀ g ∈ (ping L io srv).1.flist, g.node.id ≠ f.node.id) :
  pingThresh ≤ f.npings
  := by
  by_contra hlt
  rw [not_le] at hlt
  obtain ⟨j, hj⟩ := List.mem_iff_getElem?.mp hf
  have hleft : ∃ g, pingAt srv.toPing j f = some g := by
    rw [pingAt, if_neg (not_le.mpr hlt)]
    split
    · exact ⟨_, rfl⟩
    · exact ⟨_, rfl⟩
  obtain ⟨g, hg⟩ := hleft
  obtain ⟨-, hnode, -⟩ := pingAt_eq_some hg
  apply hdropped g _ (by rw [hnode])
  rw [ping_flist L io h.order, pingFrom, List.mem_filterMap]
  exact ⟨(f, j), List.mk_mem_zipIdx_iff_getElem?.mpr hj, hg⟩

/-- A packet that names a peer the server knows keeps the server. -/
theorem process_named_known (h : TableInv L srv) (hf : f ∈ srv.flist)
    (hnamed : msg.named io frm = some p) (hid : (p.node L).id = f.node.id)
    (haddr : p.addr = f.node.addr) (ho : process L io srv msg (frm.node L) = .ok out) :
  out.srv = srv
  := by
  have he := process_effect ho
  generalize out.srv = srv' at he ⊢
  cases he with
  | keep => rfl
  | adopt undiscovered => cases hnamed
  | insert discovered named ticket inserted =>
      rw [hnamed] at named
      cases named
      obtain ⟨-, rfl⟩ | ⟨-, f', -, -, -, rfl⟩ | ⟨-, f', hf', hid', haddr', rfl⟩ |
        ⟨-, hnew, srv₁, -, rfl⟩ := insertFinger_cases inserted
      · rfl
      · rfl
      · obtain rfl := h.order.eq_of_id_eq hf' hf (hid'.trans hid)
        exact absurd haddr.symm haddr'
      · exact absurd hid.symm (hnew f hf)
  | accept discovered verified inserted finger accepted => cases hnamed

/-- In every run, the counter of a finger is the number of pings `ping` has sent to it since it was
last renewed, and at most `PING_THRESH`.  `ping` drops a finger with that many only, and a packet
that names a peer the server knows changes nothing. -/
theorem npings_counts_unanswered (hrun : run L (newServer cfg) es = .ok srv)
    (hf : f ∈ srv.flist) :
  Machine.SinceLast (step L) (pingsTo L f.node.peer) (Renews L f.node.id) (newServer cfg) es
      f.npings ∧
    f.npings ≤ pingThresh ∧
    (∀ io, (∀ g ∈ (ping L io srv).1.flist, g.node.id ≠ f.node.id) → f.npings = pingThresh) ∧
    (∀ frm msg io p out, msg.named io frm = some p → (p.node L).id = f.node.id →
      p.addr = f.node.addr → process L io srv msg (frm.node L) = .ok out → out.srv = srv)
  := by
  have hreach : Reachable L srv := ⟨cfg, es, hrun⟩
  have hinv := hreach.tableInv
  have hle := hreach.npings_le f hf
  refine ⟨run_npings hrun f hf, hle, ?_, ?_⟩
  · intro io hdropped
    apply le_antisymm hle (npings_of_dropped hinv hf hdropped)
  · intro frm msg io p out hnamed hid haddr ho
    apply process_named_known hinv hf hnamed hid haddr ho

/-- A server is notified by a peer and sends it two pings. -/
theorem npings_counts_unanswered_sample :
  ∃ srv f, run sampleLibrary (newServer (sampleConfig (samplePeer 1 0)))
      [sampleAddr (samplePeer 1 0), sampleNotify (samplePeer 3 0), .tick 0 sampleIo,
        .tick 1 sampleIo] = .ok srv ∧
    f ∈ srv.flist ∧ f.npings = 2 ∧
    Machine.SinceLast (step sampleLibrary) (pingsTo sampleLibrary f.node.peer)
      (Renews sampleLibrary f.node.id) (newServer (sampleConfig (samplePeer 1 0)))
      [sampleAddr (samplePeer 1 0), sampleNotify (samplePeer 3 0), .tick 0 sampleIo,
        .tick 1 sampleIo] 2
  := by
  refine ⟨_, ⟨(samplePeer 3 0).node sampleLibrary, .passive, 2, 0, 0⟩, rfl, by decide, rfl, ?_⟩
  apply (npings_counts_unanswered (f := ⟨(samplePeer 3 0).node sampleLibrary, .passive, 2, 0, 0⟩)
    rfl (by decide)).1

end Tangent

import Tangent.Network.Members

/-!
# Neighbours come closer

In a network of members a packet can only add active fingers.  So as long as no tick removes its
successor or its predecessor, the successor of a server comes no farther, its predecessor comes
no farther, and its range does not grow; and once a member next to a server is one of its active
fingers, it stays its neighbour.  A member becomes an active finger by a verified pong, so the
ring is stable in the end if and only if every server has got one from either side.
-/

namespace Tangent

variable {ι : Type*} {L : Library} {io : Io} {n : ι → Node} {i j : ι}
  {srv srv' srv'' : ChordServer} {frm p : Peer} {msg : Msg} {out : Outcome} {f g s : Finger}
  {id x : ChordID}

/-! ### The ends of the active fingers -/

/-- The active fingers are in ring order. -/
theorem TableInv.activeIds_pairwise (h : TableInv L srv) :
  (activeIds srv).Pairwise fun a b => ChordID.arc srv.node.id a < ChordID.arc srv.node.id b
  := by
  rw [activeIds, List.pairwise_map]
  exact List.Pairwise.filter _ h.order

/-- No active finger is nearer than the successor. -/
theorem TableInv.succ_le (h : TableInv L srv) (hs : succFinger srv = some s)
    (hid : id ∈ activeIds srv) :
  ChordID.arc srv.node.id s.node.id ≤ ChordID.arc srv.node.id id
  := by
  have hhead := succFinger_map_id srv
  rw [hs, Option.map_some] at hhead
  obtain ⟨l, hl⟩ := List.head?_eq_some_iff.mp hhead.symm
  have hsorted := h.activeIds_pairwise
  rw [hl] at hid hsorted
  rcases List.mem_cons.mp hid with rfl | hid
  · exact le_refl _
  · exact (List.rel_of_pairwise_cons hsorted hid).le

/-- No active finger is farther than the predecessor. -/
theorem TableInv.le_pred (h : TableInv L srv) (hp : predFinger srv = some s)
    (hid : id ∈ activeIds srv) :
  ChordID.arc srv.node.id id ≤ ChordID.arc srv.node.id s.node.id
  := by
  have hle := h.arc_le_ownBound hid
  rw [ownBound_eq, hp] at hle
  exact hle

theorem succFinger_id_mem (hs : succFinger srv = some s) :
  s.node.id ∈ activeIds srv
  := by
  obtain ⟨hmem, hactive⟩ := succFinger_mem hs
  exact List.mem_map.mpr ⟨s, List.mem_filter.mpr ⟨hmem, hactive⟩, rfl⟩

theorem predFinger_id_mem (hp : predFinger srv = some s) :
  s.node.id ∈ activeIds srv
  := by
  obtain ⟨hmem, hactive⟩ := predFinger_mem hp
  exact List.mem_map.mpr ⟨s, List.mem_filter.mpr ⟨hmem, hactive⟩, rfl⟩

/-- With an active finger there is a successor and a predecessor. -/
theorem exists_neighbours (hid : id ∈ activeIds srv) :
  (∃ s, succFinger srv = some s) ∧ ∃ p, predFinger srv = some p
  := by
  have hne : activeIds srv ≠ [] := List.ne_nil_of_mem hid
  constructor
  · have hhead := succFinger_map_id srv
    cases hs : succFinger srv with
    | some s => exact ⟨s, rfl⟩
    | none =>
        rw [hs] at hhead
        exact absurd (List.head?_eq_none_iff.mp hhead.symm) hne
  · have hlast := predFinger_map_id srv
    cases hp : predFinger srv with
    | some p => exact ⟨p, rfl⟩
    | none =>
        rw [hp] at hlast
        exact absurd (List.getLast?_eq_none_iff.mp hlast.symm) hne

/-! ### Coming closer -/

/-- For every active finger of a state of a server, the other state has one that is no farther,
and one that is no nearer. -/
structure Closer (srv srv' : ChordServer) : Prop where
  node : srv'.node = srv.node
  near : ∀ id ∈ activeIds srv, ∃ id' ∈ activeIds srv',
    ChordID.arc srv.node.id id' ≤ ChordID.arc srv.node.id id
  far : ∀ id ∈ activeIds srv, ∃ id' ∈ activeIds srv',
    ChordID.arc srv.node.id id ≤ ChordID.arc srv.node.id id'

theorem Closer.of_subset (hnode : srv'.node = srv.node) (h : activeIds srv ⊆ activeIds srv') :
  Closer srv srv'
  := ⟨hnode, fun id hid => ⟨id, h hid, le_refl _⟩, fun id hid => ⟨id, h hid, le_refl _⟩⟩

theorem Closer.refl (srv : ChordServer) :
  Closer srv srv
  := .of_subset rfl (List.Subset.refl _)

theorem Closer.trans (h : Closer srv srv') (h' : Closer srv' srv'') :
  Closer srv srv''
  := by
  refine ⟨h'.node.trans h.node, ?_, ?_⟩
  · intro id hid
    obtain ⟨id', hid', hle⟩ := h.near id hid
    obtain ⟨id'', hid'', hle'⟩ := h'.near id' hid'
    rw [h.node] at hle'
    exact ⟨id'', hid'', hle'.trans hle⟩
  · intro id hid
    obtain ⟨id', hid', hle⟩ := h.far id hid
    obtain ⟨id'', hid'', hle'⟩ := h'.far id' hid'
    rw [h.node] at hle'
    exact ⟨id'', hid'', hle.trans hle'⟩

/-- The successor comes no farther. -/
theorem Closer.succ (h : Closer srv srv') (hinv' : TableInv L srv')
    (hs : succFinger srv = some s) :
  ∃ s', succFinger srv' = some s' ∧
    ChordID.arc srv.node.id s'.node.id ≤ ChordID.arc srv.node.id s.node.id
  := by
  obtain ⟨id', hid', hle⟩ := h.near _ (succFinger_id_mem hs)
  obtain ⟨⟨s', hs'⟩, -⟩ := exists_neighbours hid'
  have hmin := hinv'.succ_le hs' hid'
  rw [h.node] at hmin
  exact ⟨s', hs', hmin.trans hle⟩

/-- The predecessor comes no farther, counted counterclockwise. -/
theorem Closer.pred (h : Closer srv srv') (hinv' : TableInv L srv')
    (hp : predFinger srv = some s) :
  ∃ p', predFinger srv' = some p' ∧
    ChordID.arc srv.node.id s.node.id ≤ ChordID.arc srv.node.id p'.node.id
  := by
  obtain ⟨id', hid', hle⟩ := h.far _ (predFinger_id_mem hp)
  obtain ⟨-, p', hp'⟩ := exists_neighbours hid'
  have hmax := hinv'.le_pred hp' hid'
  rw [h.node] at hmax
  exact ⟨p', hp', hle.trans hmax⟩

/-- The range does not grow, if no active finger has the identifier of the server. -/
theorem Closer.local (h : Closer srv srv') (hinv : TableInv L srv) (hinv' : TableInv L srv')
    (hother : ∀ id ∈ activeIds srv', id ≠ srv.node.id)
    (hx : chordIdIsLocal srv' x = true) :
  chordIdIsLocal srv x = true
  := by
  cases hp : predFinger srv with
  | none =>
      apply hinv.chordIdIsLocal_of_bound_eq
      rw [ownBound_eq, hp]
      rfl
  | some p =>
      obtain ⟨p', hp', hle⟩ := h.pred hinv' hp
      rw [hinv'.chordIdIsLocal_iff, ownBound_eq, hp', h.node] at hx
      rw [hinv.chordIdIsLocal_iff, ownBound_eq, hp]
      exact ChordID.arc_le_of_le (hother _ (predFinger_id_mem hp')) hle hx

/-! ### Packets and ticks -/

/-- A packet brings neighbours closer. -/
theorem MemberTable.closer_packet (h : MemberTable L n i srv)
    (ho : process L io srv msg (frm.node L) = .ok out) :
  Closer srv out.srv
  := by
  have hnode := (process_steps h.inv ho).sameNode (by simp [packetKinds, h.discovered])
  exact .of_subset hnode.1 (process_activeIds h.inv h.discovered ho).1.subset

/-- The tick removes neither the successor nor the predecessor. -/
def tickKeeps (L : Library) (io : Io) (srv : ChordServer) (idx : ℕ) : Prop :=
  ∀ t, stabilize L io srv idx = .ok t → ∀ f, succFinger srv = some f ∨ predFinger srv = some f →
    ∃ g ∈ t.srv.flist, g.node.id = f.node.id

/-- Whatever a tick removes, what it leaves active was active. -/
theorem TableInv.stabilize_shrinks {idx : ℕ} {t : Tick} (h : TableInv L srv)
    (ht : stabilize L io srv idx = .ok t) :
  TableSteps L shrinking srv t.srv
  := by
  obtain ⟨-, heq⟩ | hsteps := stabilize_steps h ht
  · rw [heq]
    exact .refl srv
  · have hping : TableSteps L shrinking srv (ping L io srv).1 :=
      (ping_steps io h).mono (by simp [shrinking, Set.insert_subset_iff])
    have hrest : TableSteps L shrinking (ping L io srv).1 t.srv :=
      hsteps.mono (by simp [shrinking, Set.insert_subset_iff])
    exact hping.trans hrest

theorem MemberTable.closer_tick {idx : ℕ} {t : Tick} (h : MemberTable L n i srv)
    (hkeep : tickKeeps L io srv idx) (ht : stabilize L io srv idx = .ok t) :
  Closer srv t.srv
  := by
  have hsteps := h.inv.stabilize_shrinks ht
  have hnode : t.srv.node = srv.node := by
    rw [(h.tick ht).node, h.node]
  have hstays : ∀ f, succFinger srv = some f ∨ predFinger srv = some f →
      f.node.id ∈ activeIds srv → f.node.id ∈ activeIds t.srv := by
    intro f hf hid
    obtain ⟨g, hg, hgid⟩ := hkeep t ht f hf
    exact h.inv.activeIds_of_mem hsteps (Set.Subset.refl _) hid hg hgid
  refine ⟨hnode, ?_, ?_⟩
  · intro id hid
    obtain ⟨⟨s, hs⟩, -⟩ := exists_neighbours hid
    exact ⟨_, hstays s (.inl hs) (succFinger_id_mem hs), h.inv.succ_le hs hid⟩
  · intro id hid
    obtain ⟨-, p, hp⟩ := exists_neighbours hid
    exact ⟨_, hstays p (.inr hp) (predFinger_id_mem hp), h.inv.le_pred hp hid⟩

/-- A finger that is activated is active. -/
theorem TableInv.mem_activeIds_activate (h : TableInv L srv) (hf : f ∈ srv.flist) :
  f.node.id ∈ activeIds (activateFinger srv f)
  := by
  by_cases hp : f.isPassive = true
  · obtain ⟨l₁, l₂, hl⟩ := List.append_of_mem hf
    have hactive : ({ f with status := .active } : Finger).isActive = true := rfl
    rw [h.activateFinger_eq hl hp]
    exact List.mem_map.mpr ⟨{ f with status := .active }, List.mem_filter.mpr ⟨by simp, hactive⟩,
      rfl⟩
  · rw [activateFinger, if_neg hp]
    have hactive : f.isActive = true := by
      rw [Finger.isPassive_iff, Bool.not_eq_false] at hp
      exact hp
    exact List.mem_map.mpr ⟨f, List.mem_filter.mpr ⟨hf, hactive⟩, rfl⟩

/-- The sender of a verified pong is an active finger. -/
theorem MemberTable.active_of_pong {m : Pong} (h : MemberTable L n i srv)
    (hother : frm ≠ srv.node.peer) (hv : pongVerified L io srv frm m)
    (ho : process L io srv (.pong m) (frm.node L) = .ok out) :
  (frm.node L).id ∈ activeIds out.srv
  := by
  have hpong : processPong L io srv m (frm.node L) = .ok out := ho
  obtain ⟨ret, -, hdrop, -⟩ | ⟨hd, -, r, hr, hfinger⟩ := processPong_cases hpong
  · rcases hdrop with hun | hfalse
    · exact absurd h.discovered hun
    · have htrue : Except.ok false = Except.ok true := hfalse.symm.trans hv
      cases htrue
  · rcases hfinger with ⟨hnone, -⟩ | ⟨id, srv', hid, haccept, rfl⟩
    · obtain ⟨hself, -⟩ | ⟨-, f, -, -, -, rfl⟩ | ⟨-, f, -, -, -, rfl⟩ | ⟨-, -, srv₁, -, rfl⟩ :=
        insertFinger_cases hr
      · exact absurd hself hother
      · cases hnone
      · cases hnone
      · cases hnone
    · have hinv := (insertFinger_steps h.inv hd hr).inv h.inv
      obtain ⟨rfl, f, hf, hid⟩ := insertFinger_mem h.inv hr hid
      rw [← hid, acceptPong_eq hinv hf, Except.ok.injEq] at haccept
      subst haccept
      have htouch : TableStep L .touch r.srv
          (modifyFinger r.srv f.node.id (refreshFinger (io.now 0 - m.time).toInt64.toInt)) :=
        .touch f _ hf rfl rfl
      have hactive := (htouch.inv hinv).mem_activeIds_activate
        (f := refreshFinger (io.now 0 - m.time).toInt64.toInt f)
        (List.mem_map.mpr ⟨f, hf, if_pos rfl⟩)
      rw [← hid]
      exact hactive

/-! ### Runs -/

section Net

variable {net net' : Net ι} {ms : List (Move ι)} [DecidableEq ι]

/-- The ticks of a run remove neither successors nor predecessors. -/
def ticksKeep (L : Library) (n : ι → Node) (net : Net ι) (ms : List (Move ι)) : Prop :=
  ∀ net₁ i idx io, Machine.Meets (netMove L (homes n)) net ms net₁ (.tick i idx io) →
    tickKeeps L io (net₁.servers i) idx

theorem MemberNet.closer_move {m : Move ι} (h : MemberNet L n net)
    (keeps : ∀ i idx io, m = .tick i idx io → tickKeeps L io (net.servers i) idx)
    (hm : netMove L (homes n) net m = .ok net') (j : ι) :
  Closer (net.servers j) (net'.servers j)
  := by
  have hupdate : ∀ {i srv flight}, Closer (net.servers i) srv →
      Closer (net.servers j) ((⟨Function.update net.servers i srv, flight⟩ : Net ι).servers j) := by
    intro i srv flight hcloser
    by_cases hj : j = i
    · subst hj
      simpa using hcloser
    · simpa [hj] using Closer.refl _
  obtain ⟨i, d, io, out, -, -, -, hout, rfl⟩ | ⟨hservers, -, -⟩
    | ⟨i, idx, io, t, rfl, ht, rfl⟩ := h.move_cases hm
  · exact hupdate ((h.table i).closer_packet hout)
  · rw [hservers]
    exact .refl _
  · exact hupdate ((h.table i).closer_tick (keeps i idx io rfl) ht)

theorem MemberNet.closer_run (h : MemberNet L n net) (keeps : ticksKeep L n net ms)
    (hrun : netRun L (homes n) net ms = .ok net') (j : ι) :
  Closer (net.servers j) (net'.servers j)
  := by
  have hvisits : Machine.Visits (netMove L (homes n)) net ms net' := ⟨ms, List.prefix_rfl, hrun⟩
  have hend := hvisits.induction
    (P := fun net₁ => MemberNet L n net₁ ∧ Closer (net.servers j) (net₁.servers j))
    ⟨h, .refl _⟩ (by
      rintro net₁ m net₂ hmeets ⟨h₁, hcloser⟩ hm
      refine ⟨h₁.move hm, hcloser.trans (h₁.closer_move ?_ hm j)⟩
      rintro i idx io rfl
      exact keeps net₁ i idx io hmeets)
  exact hend.2

/-- Whatever happens in a network of members, as long as no tick removes a successor or a
predecessor: no server gets a successor farther clockwise than the one it has, or a predecessor
farther counterclockwise, and what is not in the range of a server does not come into it. -/
theorem neighbours_come_closer (h : MemberNet L n net)
    (ids : Function.Injective fun i => (n i).id) (keeps : ticksKeep L n net ms)
    (hrun : netRun L (homes n) net ms = .ok net') (i : ι) :
  (∀ s, succFinger (net.servers i) = some s → ∃ s', succFinger (net'.servers i) = some s' ∧
      ChordID.arc (n i).id s'.node.id ≤ ChordID.arc (n i).id s.node.id) ∧
    (∀ p, predFinger (net.servers i) = some p → ∃ p', predFinger (net'.servers i) = some p' ∧
      ChordID.arc (n i).id p.node.id ≤ ChordID.arc (n i).id p'.node.id) ∧
    ∀ x, chordIdIsLocal (net'.servers i) x = true → chordIdIsLocal (net.servers i) x = true
  := by
  have hcloser := h.closer_run keeps hrun i
  have htable := h.table i
  have htable' := (h.run hrun).table i
  rw [← htable.node]
  refine ⟨fun s hs => hcloser.succ htable'.inv hs, fun p hp => hcloser.pred htable'.inv hp, ?_⟩
  intro x hx
  apply hcloser.local htable.inv htable'.inv _ hx
  intro id hid
  obtain ⟨f, hf, rfl⟩ := List.mem_map.mp hid
  rw [htable.node]
  exact htable'.id_ne ids (List.mem_filter.mp hf).1

/-! ### Pongs from the neighbours -/

/-- In the run, the member `i` gets a verified pong from the member `j`. -/
def GetsPong (L : Library) (n : ι → Node) (net : Net ι) (ms : List (Move ι)) (i j : ι) : Prop :=
  ∃ net₁ d m io, Machine.Meets (netMove L (homes n)) net ms net₁ (.deliver i d io) ∧
    d.src = (n j).peer ∧ d.msg = .pong m ∧ pongVerified L io (net₁.servers i) (n j).peer m

/-- A member that becomes an active finger has sent a verified pong. -/
theorem MemberNet.getsPong_of_active (h : MemberNet L n net)
    (ids : Function.Injective fun i => (n i).id)
    (hrun : netRun L (homes n) net ms = .ok net') (hid : (n j).id ∈ activeIds (net'.servers i)) :
  (n j).id ∈ activeIds (net.servers i) ∨ GetsPong L n net ms i j
  := by
  revert hid
  apply Machine.run_induction (P := fun ms net₁ => (n j).id ∈ activeIds (net₁.servers i) →
    (n j).id ∈ activeIds (net.servers i) ∨ GetsPong L n net ms i j) _ _ hrun
  · exact fun hid => .inl hid
  · intro ms₁ net₁ m net₂ hrun₁ ih hm hid
    have h₁ := h.run hrun₁
    have hextend : (n j).id ∈ activeIds (net₁.servers i) → (n j).id ∈ activeIds (net.servers i) ∨
        GetsPong L n net (ms₁ ++ [m]) i j := by
      intro hid₁
      obtain hold | ⟨net₃, d, p, io, hmeets, hp⟩ := ih hid₁
      · exact .inl hold
      · exact .inr ⟨net₃, d, p, io, Machine.meets_concat_iff.mpr (.inl hmeets), hp⟩
    obtain ⟨k, d, io, out, rfl, hd, hdst, hout, rfl⟩ | ⟨hservers, -, -⟩
      | ⟨k, idx, io, t, rfl, ht, rfl⟩ := h₁.move_cases hm
    · by_cases hk : k = i
      · subst hk
        simp only [Function.update_self] at hid
        obtain ⟨-, hnew⟩ := process_activeIds (h₁.table k).inv (h₁.table k).discovered hout
        obtain hold | ⟨hsrc, p, hp, hv⟩ := hnew _ hid
        · exact hextend hold
        · obtain ⟨⟨k', hk'⟩, -⟩ := h₁.flight d hd
          rw [hk', h₁.node_eq] at hsrc
          obtain rfl : j = k' := ids hsrc
          rw [hk'] at hv
          exact .inr ⟨net₁, d, p, io, Machine.meets_concat_iff.mpr (.inr ⟨hrun₁, rfl⟩), hk', hp,
            hv⟩
      · simp only [Function.update_of_ne (Ne.symm hk)] at hid
        exact hextend hid
    · rw [hservers] at hid
      exact hextend hid
    · by_cases hk : k = i
      · subst hk
        simp only [Function.update_self] at hid
        obtain ⟨f, hf, hfid⟩ := List.mem_map.mp hid
        obtain ⟨hf, hactive⟩ := List.mem_filter.mp hf
        obtain ⟨g, hg, hnode, hstatus⟩ := stabilize_mem (h₁.table k).inv ht hf
        apply hextend
        rw [← hfid, ← hnode]
        refine List.mem_map.mpr ⟨g, List.mem_filter.mpr ⟨hg, ?_⟩, rfl⟩
        rw [Finger.isActive, hstatus]
        exact hactive
      · simp only [Function.update_of_ne (Ne.symm hk)] at hid
        exact hextend hid

/-- A pong makes its sender an active finger at some moment of the run. -/
theorem GetsPong.exists_active (h : MemberNet L n net) (hij : j ≠ i)
    (ids : Function.Injective fun i => (n i).id)
    (hrun : netRun L (homes n) net ms = .ok net') (hp : GetsPong L n net ms i j) :
  ∃ net₁, Machine.Visits (netMove L (homes n)) net ms net₁ ∧
    (n j).id ∈ activeIds (net₁.servers i)
  := by
  obtain ⟨net₁, d, m, io, hmeets, hsrc, hmsg, hv⟩ := hp
  obtain ⟨ms₁, ⟨ms₂, rfl⟩, hrun₁⟩ := id hmeets
  obtain ⟨net₂, hrun₂, -⟩ := Machine.run_append_eq_ok.mp hrun
  obtain ⟨net₁', hrun₁', hm⟩ := Machine.run_concat_eq_ok.mp hrun₂
  rw [hrun₁] at hrun₁'
  cases hrun₁'
  refine ⟨net₂, hmeets.visits_step hm, ?_⟩
  have h₁ := h.run hrun₁
  obtain ⟨k, d', io', out, heq, -, -, hout, rfl⟩ | ⟨-, -, hno⟩ | ⟨k, idx, io', t, heq, -, -⟩ :=
    h₁.move_cases hm
  · cases heq
    have htable := h₁.table i
    have hother : (n j).peer ≠ (net₁.servers i).node.peer := by
      rw [htable.node]
      intro hpeer
      apply hij
      apply ids
      have hnode := h₁.node_eq j
      rw [hpeer, h₁.node_eq i] at hnode
      simp only [hnode]
    rw [hsrc, hmsg] at hout
    have hactive := htable.active_of_pong hother hv hout
    rw [h₁.node_eq] at hactive
    simpa using hactive
  · exact absurd rfl (hno i d io)
  · cases heq

/-- A neighbour that is an active finger at some moment of the run is one at its end. -/
theorem MemberNet.neighbour_stays [Finite ι] {net₁ : Net ι} (h : MemberNet L n net)
    (ids : Function.Injective fun i => (n i).id) (keeps : ticksKeep L n net ms)
    (hrun : netRun L (homes n) net ms = .ok net')
    (hij : (placement ids).IsSucc i j ∨ (placement ids).IsPred i j)
    (hvisits : Machine.Visits (netMove L (homes n)) net ms net₁)
    (hid : (n j).id ∈ activeIds (net₁.servers i)) :
  (n j).id ∈ activeIds (net'.servers i)
  := by
  obtain ⟨ms₁, ms₂, rfl, hrun₁, hrest⟩ := hvisits.rest hrun
  have h₁ := h.run hrun₁
  have hcloser := h₁.closer_run (fun net₂ k idx io hm => keeps net₂ k idx io (hm.append_left hrun₁))
    hrest i
  have htable' := (h₁.run hrest).table i
  have hmember : ∀ id' ∈ activeIds (net'.servers i), ∃ k, k ≠ i ∧ id' = (n k).id := by
    intro id' hid'
    obtain ⟨f, hf, rfl⟩ := List.mem_map.mp hid'
    have hne := htable'.id_ne ids (List.mem_filter.mp hf).1
    obtain ⟨k, hk⟩ := htable'.table f (List.mem_filter.mp hf).1
    rw [hk] at hne ⊢
    exact ⟨k, fun heq => hne (by rw [heq]), rfl⟩
  have hnode := (h₁.table i).node
  rcases hij with hsucc | hpred
  · obtain ⟨id', hid', hle⟩ := hcloser.near _ hid
    obtain ⟨k, hk, rfl⟩ := hmember id' hid'
    rw [hnode] at hle
    have heq := le_antisymm hle (hsucc.2 k hk)
    rw [ChordID.arc_inj] at heq
    rwa [← heq]
  · obtain ⟨id', hid', hle⟩ := hcloser.far _ hid
    obtain ⟨k, hk, rfl⟩ := hmember id' hid'
    rw [hnode] at hle
    have heq := le_antisymm hle (hpred.dist_le hk)
    rw [ChordID.arc_inj] at heq
    rwa [heq]

/-- A neighbour that has sent a verified pong in the run is an active finger at its end. -/
theorem MemberNet.neighbour_of_pong [Finite ι] (h : MemberNet L n net)
    (ids : Function.Injective fun i => (n i).id) (keeps : ticksKeep L n net ms)
    (hrun : netRun L (homes n) net ms = .ok net')
    (hij : (placement ids).IsSucc i j ∨ (placement ids).IsPred i j)
    (hpong : GetsPong L n net ms i j) :
  (n j).id ∈ activeIds (net'.servers i)
  := by
  have hne : j ≠ i := by
    rcases hij with hsucc | hpred
    · exact hsucc.1
    · exact hpred.1
  obtain ⟨net₁, hvisits, hid⟩ := hpong.exists_active h hne ids hrun
  exact h.neighbour_stays ids keeps hrun hij hvisits hid

omit [DecidableEq ι] in
/-- A ring whose members have their neighbours as active fingers is stable. -/
theorem MemberNet.stable_of_active [Finite ι] [Nontrivial ι] (h : MemberNet L n net)
    (ids : Function.Injective fun i => (n i).id)
    (hactive : ∀ i j, (placement ids).IsSucc i j ∨ (placement ids).IsPred i j →
      (n j).id ∈ activeIds (net.servers i)) (i : ι) :
  StableTable L ids i (net.servers i)
  := by
  obtain ⟨k, hk⟩ := exists_ne i
  obtain ⟨s, hs⟩ := (placement ids).exists_isSucc hk
  obtain ⟨p, hp⟩ := (placement ids).exists_isPred hk
  have htable := h.table i
  exact ⟨htable.inv, htable.node, htable.table, ⟨s, hs, hactive i s (.inl hs)⟩,
    ⟨p, hp, hactive i p (.inr hp)⟩⟩

/-- Whatever happens in a network of members, as long as no tick removes a successor or a
predecessor: in the end every server has its true neighbours as active fingers, and so forms with
the others a ring in which packets are delivered and lookups answered, if and only if each server
has had them from the start or has got a verified pong from them. -/
theorem ring_stable_iff [Finite ι] [Nontrivial ι] (h : MemberNet L n net)
    (ids : Function.Injective fun i => (n i).id) (keeps : ticksKeep L n net ms)
    (hrun : netRun L (homes n) net ms = .ok net') :
  (∀ i, StableTable L ids i (net'.servers i)) ↔
    ∀ i j, (placement ids).IsSucc i j ∨ (placement ids).IsPred i j →
      (n j).id ∈ activeIds (net.servers i) ∨ GetsPong L n net ms i j
  := by
  have h' := h.run hrun
  constructor
  · intro hstable i j hij
    apply h.getsPong_of_active ids hrun
    rcases hij with hsucc | hpred
    · obtain ⟨k, hk, hactive⟩ := (hstable i).succ
      rwa [hsucc.unique hk]
    · obtain ⟨k, hk, hactive⟩ := (hstable i).pred
      rwa [hpred.unique hk]
  · intro hlearn
    apply h'.stable_of_active ids
    intro i j hij
    rcases hlearn i j hij with hstart | hpong
    · exact h.neighbour_stays ids keeps hrun hij ⟨[], List.nil_prefix, rfl⟩ hstart
    · exact h.neighbour_of_pong ids keeps hrun hij hpong

end Net

/-! ### A sample -/

/-- The sample ring, in which the first server does not know the second yet. -/
def sampleArriving (i : Fin 3) : ChordServer :=
  if i = sampleFirst then sampleServer (samplePeer 10 0) [samplePeer 30 0] else sampleRing i

theorem sampleArriving_reachable (i : Fin 3) :
  Reachable sampleLibrary (sampleArriving i)
  := by
  rw [sampleArriving]
  split
  · exact sampleServer_reachable _ _
  · exact sampleRing_reachable i

/-- A pong from the second server is on its way to the first. -/
def sampleArrival : Net (Fin 3) :=
  ⟨sampleArriving, [⟨samplePeer 20 0, samplePeer 10 0, .pong ⟨sampleTicket, 0⟩⟩]⟩

/-- The pong is delivered. -/
def sampleAccept : Move (Fin 3) :=
  .deliver sampleFirst ⟨samplePeer 20 0, samplePeer 10 0, .pong ⟨sampleTicket, 0⟩⟩ sampleIo

theorem sampleArrival_members :
  MemberNet sampleLibrary sampleMembers sampleArrival
  where
  table i := ⟨(sampleArriving_reachable i).tableInv, by revert i; decide, by revert i; decide,
    by revert i; decide⟩
  flight := by
    intro d hd
    rw [sampleArrival, List.mem_singleton] at hd
    subst hd
    exact ⟨⟨1, rfl⟩, .inr trivial⟩

theorem sampleAccept_keeps :
  ticksKeep sampleLibrary sampleMembers sampleArrival [sampleAccept]
  := by
  intro net i idx io hmeets
  obtain ⟨-, heq⟩ | ⟨net₁, -, hnil⟩ := Machine.meets_cons_iff.mp hmeets
  · cases heq
  · exact absurd hnil Machine.not_meets_nil

/-- The successor of the first server comes closer. -/
theorem neighbours_come_closer_sample :
  ∃ net, netRun sampleLibrary (homes sampleMembers) sampleArrival [sampleAccept] = .ok net ∧
    ∃ s', succFinger (net.servers 0) = some s' ∧
      ChordID.arc (sampleMembers 0).id s'.node.id
        ≤ ChordID.arc (sampleMembers 0).id (sampleMembers 2).id
  := by
  refine ⟨_, rfl, ?_⟩
  exact (neighbours_come_closer sampleArrival_members sampleRing_stable.ids sampleAccept_keeps rfl
    0).1 _ rfl

/-- Of the neighbours of the first server, it has had one from the start, and gets the pong of
the other. -/
theorem ring_stable_iff_sample :
  ∃ net, netRun sampleLibrary (homes sampleMembers) sampleArrival [sampleAccept] = .ok net ∧
    ∀ i, StableTable sampleLibrary sampleRing_stable.ids i (net.servers i)
  := by
  refine ⟨_, rfl, ?_⟩
  apply (ring_stable_iff sampleArrival_members sampleRing_stable.ids sampleAccept_keeps rfl).mpr
  intro i j hij
  have hne : j ≠ i := by
    rcases hij with hsucc | hpred
    · exact hsucc.1
    · exact hpred.1
  by_cases hpong : i = 0 ∧ j = 1
  · obtain ⟨rfl, rfl⟩ := hpong
    exact .inr ⟨_, _, _, _, Machine.meets_cons_iff.mpr (.inl ⟨rfl, rfl⟩), rfl, rfl, rfl⟩
  · left
    revert i j
    decide

end Tangent

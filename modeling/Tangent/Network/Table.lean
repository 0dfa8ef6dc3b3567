import Tangent.Network.Names
import Tangent.Routing.Delivery
import Tangent.Security.Packets

/-!
# Tables of the members of a ring

In a stable table every finger is another member of the ring, and the true successor and
predecessor of the server are among its active fingers.  The successor is the member nearest
clockwise, so in ring order it is the first finger, and the predecessor is the last.  Packets
that come from members and name members keep a table stable, and so do ticks whose ping drops
neither of the two.
-/

namespace Tangent

variable {ι : Type*} {L : Library} {io : Io} {n : ι → Node} {i j : ι} {srv srv' : ChordServer}
  {frm p : Peer} {msg : Msg} {out : Outcome} {f g : Finger} {r : Inserted} {id : ChordID}

/-! ### Tables of members -/

/-- The peer is a member of the ring. -/
def IsMember (n : ι → Node) (p : Peer) : Prop :=
  ∃ j, p = (n j).peer

/-- The server is the member `i` of the ring, its table contains other members only, and its
true successor and predecessor are among its active fingers. -/
structure StableTable (L : Library) {n : ι → Node} (ids : Function.Injective fun i => (n i).id)
    (i : ι) (srv : ChordServer) : Prop where
  inv : TableInv L srv
  node : srv.node = n i
  table : ∀ f ∈ srv.flist, ∃ j, f.node = n j
  succ : ∃ j, (placement ids).IsSucc i j ∧ (n j).id ∈ activeIds srv
  pred : ∃ j, (placement ids).IsPred i j ∧ (n j).id ∈ activeIds srv

section Table

variable {ids : Function.Injective fun i => (n i).id} {l₁ l₂ : List Finger}

theorem StableTable.discovered (h : StableTable L ids i srv) :
  srv.Discovered
  := by
  obtain ⟨j, -, hj⟩ := h.succ
  obtain ⟨f, hf, -⟩ := List.mem_map.mp hj
  apply h.inv.discovered (List.mem_filter.mp hf).1

/-- A finger belongs to another member, and its place in the list is given by its distance
from the server. -/
theorem StableTable.finger (h : StableTable L ids i srv) (hf : f ∈ srv.flist) :
  ∃ j, j ≠ i ∧ f.node = n j ∧ ringKey srv f = (placement ids).dist i j
  := by
  obtain ⟨j, hj⟩ := h.table f hf
  use j
  refine ⟨?_, hj, ?_⟩
  · rintro rfl
    apply (h.inv.fingers f hf).2
    rw [hj, h.node]
  · rw [ringKey, h.node, hj]
    rfl

/-- The fingers left of a finger are nearer, those right of it are farther. -/
theorem StableTable.ringKey_lt (h : StableTable L ids i srv) (hl : srv.flist = l₁ ++ f :: l₂) :
  (∀ a ∈ l₁, ringKey srv a < ringKey srv f) ∧ (∀ b ∈ l₂, ringKey srv f < ringKey srv b)
  := by
  have ho := h.inv.order
  rw [RingOrder, hl] at ho
  obtain ⟨-, h₂, h₁₂⟩ := List.pairwise_append.mp ho
  constructor
  · intro a ha
    apply h₁₂ a ha f List.mem_cons_self
  · apply (List.pairwise_cons.mp h₂).1

/-- There is nothing left of the successor. -/
theorem StableTable.left_of_succ (h : StableTable L ids i srv) (hj : (placement ids).IsSucc i j)
    (hl : srv.flist = l₁ ++ f :: l₂) (hid : f.node.id = (n j).id) :
  l₁ = []
  := by
  by_contra hne
  obtain ⟨a, ha⟩ := List.exists_mem_of_ne_nil _ hne
  have hlt := (h.ringKey_lt hl).1 a ha
  obtain ⟨k, hk, -, hkey⟩ := h.finger (f := a) (by simp [hl, ha])
  obtain ⟨k', -, hk', hkey'⟩ := h.finger (f := f) (by simp [hl])
  have hkj : k' = j := by
    apply ids
    rw [hk'] at hid
    exact hid
  rw [hkey, hkey', hkj] at hlt
  exact absurd (hj.2 k hk) (not_le.mpr hlt)

/-- There is nothing right of the predecessor. -/
theorem StableTable.right_of_pred (h : StableTable L ids i srv) (hj : (placement ids).IsPred i j)
    (hl : srv.flist = l₁ ++ f :: l₂) (hid : f.node.id = (n j).id) :
  l₂ = []
  := by
  by_contra hne
  obtain ⟨b, hb⟩ := List.exists_mem_of_ne_nil _ hne
  have hlt := (h.ringKey_lt hl).2 b hb
  obtain ⟨k, hk, -, hkey⟩ := h.finger (f := b) (by simp [hl, hb])
  obtain ⟨k', -, hk', hkey'⟩ := h.finger (f := f) (by simp [hl])
  have hkj : k' = j := by
    apply ids
    rw [hk'] at hid
    exact hid
  rw [hkey, hkey', hkj] at hlt
  exact absurd (hj.dist_le hk) (not_le.mpr hlt)

theorem StableTable.fingers_isMember (h : StableTable L ids i srv) :
  ∀ f ∈ srv.flist, IsMember n f.node.peer
  := by
  intro f hf
  obtain ⟨j, hj⟩ := h.table f hf
  exact ⟨j, by rw [hj]⟩

/-- The list begins with the successor, which is active. -/
theorem StableTable.first (h : StableTable L ids i srv) :
  ∃ j f, (placement ids).IsSucc i j ∧ srv.flist.head? = some f ∧ f.isActive = true ∧
    f.node = n j
  := by
  obtain ⟨j, hj, hmem⟩ := h.succ
  obtain ⟨f, hf, hid⟩ := List.mem_map.mp hmem
  obtain ⟨hf, hactive⟩ := List.mem_filter.mp hf
  obtain ⟨l₁, l₂, hl⟩ := List.append_of_mem hf
  have hnil := h.left_of_succ hj hl hid
  obtain ⟨k, hk⟩ := h.table f hf
  have hkj : k = j := by
    apply ids
    rw [hk] at hid
    exact hid
  use j, f, hj
  simp [hl, hnil, hactive, hk, hkj]

/-- The list ends with the predecessor, which is active. -/
theorem StableTable.last (h : StableTable L ids i srv) :
  ∃ j f, (placement ids).IsPred i j ∧ srv.flist.getLast? = some f ∧ f.isActive = true ∧
    f.node = n j
  := by
  obtain ⟨j, hj, hmem⟩ := h.pred
  obtain ⟨f, hf, hid⟩ := List.mem_map.mp hmem
  obtain ⟨hf, hactive⟩ := List.mem_filter.mp hf
  obtain ⟨l₁, l₂, hl⟩ := List.append_of_mem hf
  have hnil := h.right_of_pred hj hl hid
  obtain ⟨k, hk⟩ := h.table f hf
  have hkj : k = j := by
    apply ids
    rw [hk] at hid
    exact hid
  use j, f, hj
  simp [hl, hnil, hactive, hk, hkj]

/-! ### Ticks -/

theorem TableInv.activeIds_removeFinger (h : TableInv L srv) (hf : f ∈ srv.flist)
    (hid : id ∈ activeIds srv) (hne : id ≠ f.node.id) :
  id ∈ activeIds (removeFinger srv f)
  := by
  obtain ⟨g, hg, rfl⟩ := List.mem_map.mp hid
  obtain ⟨hg, hactive⟩ := List.mem_filter.mp hg
  obtain ⟨l₁, l₂, hl⟩ := List.append_of_mem hf
  apply List.mem_map.mpr
  refine ⟨g, List.mem_filter.mpr ⟨?_, hactive⟩, rfl⟩
  rw [hl, List.mem_append, List.mem_cons] at hg
  rw [h.removeFinger_eq hl, withBound, List.mem_append]
  rcases hg with hg | rfl | hg
  · exact .inl hg
  · exact absurd rfl hne
  · exact .inr hg

/-- A finger inside the list is neither the successor nor the predecessor. -/
theorem StableTable.trim (h : StableTable L ids i srv) (hl : srv.flist = l₁ ++ f :: l₂)
    (hleft : l₁ ≠ []) (hright : l₂ ≠ []) :
  StableTable L ids i (removeFinger srv f)
  := by
  have hf : f ∈ srv.flist := by
    simp [hl]
  obtain ⟨j, hj, hmem⟩ := h.succ
  obtain ⟨k, hk, hmem'⟩ := h.pred
  constructor
  · apply h.inv.remove hf
  · rw [(removeFinger_sameNode srv f).1, h.node]
  · intro g hg
    apply h.table g (h.inv.mem_removeFinger hf hg)
  · use j, hj
    apply h.inv.activeIds_removeFinger hf hmem
    intro heq
    exact hleft (h.left_of_succ hj hl heq.symm)
  · use k, hk
    apply h.inv.activeIds_removeFinger hf hmem'
    intro heq
    exact hright (h.right_of_pred hk hl heq.symm)

theorem StableTable.trims (h : StableTable L ids i srv)
    (hs : TableSteps L {.trim, .cursor} srv srv') :
  StableTable L ids i srv'
  := by
  induction hs with
  | refl => exact h
  | tail _ hstep ih =>
      obtain ⟨k, hk, hstep⟩ := hstep
      rcases hk with rfl | rfl
      · cases hstep with
        | trim f split left right => apply ih.trim split left right
      · have hinv := hstep.inv ih.inv
        cases hstep with
        | cursor a b c => exact ⟨hinv, ih.node, ih.table, ih.succ, ih.pred⟩

/-- The ping of the tick does not drop the successor or the predecessor. -/
def pingKeeps (L : Library) (io : Io) (srv : ChordServer) : Prop :=
  ∀ f, succFinger srv = some f ∨ predFinger srv = some f →
    ∃ g ∈ (ping L io srv).1.flist, g.node.id = f.node.id

/-- An active finger that is not dropped stays active. -/
theorem TableInv.activeIds_of_mem (h : TableInv L srv) {K : Set Kind}
    (hs : TableSteps L K srv srv') (hK : K ⊆ shrinking) (hid : id ∈ activeIds srv)
    (hg : g ∈ srv'.flist) (hgid : g.node.id = id) :
  id ∈ activeIds srv'
  := by
  obtain ⟨f, hf, rfl⟩ := List.mem_map.mp hid
  obtain ⟨hf, hactive⟩ := List.mem_filter.mp hf
  obtain ⟨f', hf', hnode, hstatus⟩ := hs.mem_of_mem h hK hg
  obtain rfl := h.order.eq_of_id_eq hf' hf (by rw [hnode, hgid])
  apply List.mem_map.mpr
  refine ⟨g, List.mem_filter.mpr ⟨hg, ?_⟩, hgid⟩
  rw [Finger.isActive, ← hstatus]
  exact hactive

/-- The successor of the server is its true successor. -/
theorem StableTable.succFinger_eq (h : StableTable L ids i srv)
    (hj : (placement ids).IsSucc i j) :
  ∃ f, succFinger srv = some f ∧ f.node = n j
  := by
  obtain ⟨k, f, hk, hhead, hactive, hnode⟩ := h.first
  obtain rfl := hk.unique hj
  use f
  refine ⟨?_, hnode⟩
  obtain ⟨l, hl⟩ := List.head?_eq_some_iff.mp hhead
  rw [succFinger, hl, List.find?_cons_of_pos hactive]

/-- The predecessor of the server is its true predecessor. -/
theorem StableTable.predFinger_eq (h : StableTable L ids i srv)
    (hj : (placement ids).IsPred i j) :
  ∃ f, predFinger srv = some f ∧ f.node = n j
  := by
  obtain ⟨k, f, hk, hlast, hactive, hnode⟩ := h.last
  obtain rfl := hk.unique hj
  use f
  refine ⟨?_, hnode⟩
  obtain ⟨l, hl⟩ := List.getLast?_eq_some_iff.mp hlast
  rw [predFinger, hl, List.reverse_append, List.reverse_singleton, List.singleton_append,
    List.find?_cons_of_pos hactive]

/-- Two stable states of a server have the same successor, predecessor and range. -/
theorem StableTable.same (h : StableTable L ids i srv)
    (h' : StableTable L ids i srv') :
  (succFinger srv').map (·.node) = (succFinger srv).map (·.node) ∧
    (predFinger srv').map (·.node) = (predFinger srv).map (·.node) ∧
    ∀ x, chordIdIsLocal srv' x = chordIdIsLocal srv x
  := by
  obtain ⟨j, hj, -⟩ := h.succ
  obtain ⟨s, hs, hsn⟩ := h.succFinger_eq hj
  obtain ⟨s', hs', hsn'⟩ := h'.succFinger_eq hj
  obtain ⟨k, hk, -⟩ := h.pred
  obtain ⟨p, hp, hpn⟩ := h.predFinger_eq hk
  obtain ⟨p', hp', hpn'⟩ := h'.predFinger_eq hk
  refine ⟨?_, ?_, ?_⟩
  · rw [hs, hs', Option.map_some, Option.map_some, hsn, hsn']
  · rw [hp, hp', Option.map_some, Option.map_some, hpn, hpn']
  · intro x
    have hb : srv.predBound = (n k).id := by
      rw [h.inv.bound, ownBound_eq, hp, Option.map_some, Option.getD_some, hpn]
    have hb' : srv'.predBound = (n k).id := by
      rw [h'.inv.bound, ownBound_eq, hp', Option.map_some, Option.getD_some, hpn']
    rw [chordIdIsLocal, chordIdIsLocal, hb, hb', h.node, h'.node]

theorem StableTable.ping (h : StableTable L ids i srv) (hkeep : pingKeeps L io srv) :
  StableTable L ids i (ping L io srv).1
  := by
  have hsteps := ping_steps io h.inv
  have hshrink : ({.touch, .drop, .cursor} : Set Kind) ⊆ shrinking := by
    simp [shrinking, Set.insert_subset_iff]
  obtain ⟨j, hj, hmem⟩ := h.succ
  obtain ⟨k, hk, hmem'⟩ := h.pred
  constructor
  · apply hsteps.inv h.inv
  · rw [(hsteps.sameNode (by simp)).1, h.node]
  · intro g hg
    obtain ⟨f, hf, hnode, -⟩ := hsteps.mem_of_mem h.inv hshrink hg
    rw [← hnode]
    apply h.table f hf
  · obtain ⟨f, hf, hnode⟩ := h.succFinger_eq hj
    obtain ⟨g, hg, hid⟩ := hkeep f (.inl hf)
    use j, hj
    apply h.inv.activeIds_of_mem hsteps hshrink hmem hg
    rw [hid, hnode]
  · obtain ⟨f, hf, hnode⟩ := h.predFinger_eq hk
    obtain ⟨g, hg, hid⟩ := hkeep f (.inr hf)
    use k, hk
    apply h.inv.activeIds_of_mem hsteps hshrink hmem' hg
    rw [hid, hnode]

/-- A tick keeps the table stable. -/
theorem StableTable.tick {idx : ℕ} {t : Tick} (h : StableTable L ids i srv)
    (hkeep : pingKeeps L io srv) (ht : stabilize L io srv idx = .ok t) :
  StableTable L ids i t.srv
  := by
  obtain ⟨-, heq⟩ | hsteps := stabilize_steps h.inv ht
  · rw [heq]
    exact h
  · apply (h.ping hkeep).trims hsteps

/-! ### Packets -/

/-- A packet from a member that makes the server insert no stranger keeps the table stable. -/
theorem StableTable.packet (h : StableTable L ids i srv)
    (hn : ∀ j, (n j).peer.node L = n j) (hfrm : IsMember n frm)
    (hnamed : ∀ p, msg.named io frm = some p → IsMember n p)
    (ho : process L io srv msg (frm.node L) = .ok out) :
  StableTable L ids i out.srv
  := by
  have hsteps := process_steps h.inv ho
  obtain ⟨hsub, -⟩ := process_activeIds h.inv h.discovered ho
  obtain ⟨j, hj, hmem⟩ := h.succ
  obtain ⟨k, hk, hmem'⟩ := h.pred
  constructor
  · apply hsteps.inv h.inv
  · rw [(hsteps.sameNode (by simp [packetKinds, h.discovered])).1, h.node]
  · intro g hg
    rcases process_mem_node h.inv ho hg with ⟨f, hf, hnode⟩ | ⟨p, hp, hnode⟩
    · rw [← hnode]
      apply h.table f hf
    · have hmember : IsMember n p := by
        rcases hp with hp | rfl
        · exact hnamed p hp
        · exact hfrm
      obtain ⟨m, rfl⟩ := hmember
      exact ⟨m, by rw [hnode, hn]⟩
  · exact ⟨j, hj, hsub.subset hmem⟩
  · exact ⟨k, hk, hsub.subset hmem'⟩

end Table

end Tangent

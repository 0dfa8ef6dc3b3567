import Tangent.Ascending
import Tangent.Model.Run

/-!
# The invariant of the finger table

`TableInv L srv` collects what holds of the finger table of a server at every moment: the
list is in ring order, `predBound` is the identifier of the last active finger, the
passive fingers are counted and bounded, nothing is in the list before the address is
known, and every finger is filed under the hash of its address and port.

The functions of the finger table are described by how they change the list: it is split
at the finger they work on, and the parts stay as they are.
-/

namespace Tangent

/-! ### The active fingers -/

/-- The identifiers of the active fingers, from the head of the list to its tail. -/
def activeIds (srv : ChordServer) : List ChordID :=
  (srv.flist.filter Finger.isActive).map (·.node.id)

/-- The successor is the first active finger. -/
theorem succFinger_map_id (srv : ChordServer) :
  (succFinger srv).map (·.node.id) = (activeIds srv).head?
  := by
  rw [succFinger, activeIds, List.head?_map, List.head?_filter]

/-- The predecessor is the last active finger. -/
theorem predFinger_map_id (srv : ChordServer) :
  (predFinger srv).map (·.node.id) = (activeIds srv).getLast?
  := by
  rw [predFinger, activeIds, List.getLast?_map, List.getLast?_filter]

theorem succFinger_mem {srv : ChordServer} {f : Finger} (h : succFinger srv = some f) :
  f ∈ srv.flist ∧ f.isActive = true
  := ⟨List.mem_of_find?_eq_some h, List.find?_some h⟩

theorem predFinger_mem {srv : ChordServer} {f : Finger} (h : predFinger srv = some f) :
  f ∈ srv.flist ∧ f.isActive = true
  := ⟨List.mem_reverse.mp (List.mem_of_find?_eq_some h), List.find?_some h⟩

/-- The left bound of the range a server should own: the identifier of its predecessor, or
its own if there is none. -/
def ownBound (srv : ChordServer) : ChordID :=
  (activeIds srv).getLast?.getD srv.node.id

theorem ownBound_eq (srv : ChordServer) :
  ownBound srv = ((predFinger srv).map (·.node.id)).getD srv.node.id
  := by
  rw [ownBound, predFinger_map_id]

/-- The server with its range brought up to date. -/
def withBound (srv : ChordServer) : ChordServer :=
  { srv with predBound := ownBound srv }

/-! ### The invariant -/

/-- The position of a finger in the ring order: its clockwise distance from the server. -/
def ringKey (srv : ChordServer) (f : Finger) : ℕ :=
  ChordID.arc srv.node.id f.node.id

/-- The finger list is in ring order: read from the head, the distance from the server
increases. -/
def RingOrder (srv : ChordServer) : Prop :=
  AscendingBy (ringKey srv) srv.flist

/-- What holds of the finger table in every reachable state. -/
structure TableInv (L : Library) (srv : ChordServer) : Prop where
  order : RingOrder srv
  bound : srv.predBound = ownBound srv
  passive : srv.numPassiveFingers = srv.flist.countP Finger.isPassive
  passive_le : srv.numPassiveFingers ≤ maxPassiveFingers
  undiscovered : ¬ srv.Discovered → srv.flist = []
  position : srv.Discovered → srv.node = srv.node.peer.node L
  fingers : ∀ f ∈ srv.flist, f.node = f.node.peer.node L ∧ f.node.peer ≠ srv.node.peer

variable {L : Library} {srv : ChordServer} {f g : Finger} {l₁ l₂ : List Finger}

theorem TableInv.newServer (L : Library) (cfg : Config) :
  TableInv L (newServer cfg)
  := by
  have hun : ¬ (Tangent.newServer cfg).Discovered := by
    simp [ChordServer.Discovered, Tangent.newServer]
  constructor
  · apply List.Pairwise.nil
  · rfl
  · rfl
  · exact (by decide : (0 : ℤ) ≤ 20)
  · intro _
    rfl
  · intro h
    exact absurd h hun
  · intro f hf
    cases hf

theorem TableInv.discovered (h : TableInv L srv) (hf : f ∈ srv.flist) :
  srv.Discovered
  := by
  by_contra hd
  rw [h.undiscovered hd] at hf
  cases hf

/-! ### Splitting the list at a finger -/

/-- Fingers of one list with one identifier are one finger. -/
theorem RingOrder.eq_of_id_eq (h : RingOrder srv) (hf : f ∈ srv.flist) (hg : g ∈ srv.flist)
    (hid : f.node.id = g.node.id) :
  f = g
  := by
  apply AscendingBy.eq_of_key_eq h hf hg
  rw [ringKey, ringKey, hid]

/-- No two fingers share an identifier. -/
theorem RingOrder.nodup_ids (h : RingOrder srv) :
  (srv.flist.map fun f => f.node.id).Nodup
  := by
  apply List.Pairwise.map _ _ h
  intro f g hlt heq
  simp [ringKey, heq] at hlt

/-- The identifiers left and right of a finger are not its own. -/
theorem RingOrder.ne_of_split (h : RingOrder srv) (hl : srv.flist = l₁ ++ f :: l₂) :
  (∀ a ∈ l₁, a.node.id ≠ f.node.id) ∧ (∀ b ∈ l₂, b.node.id ≠ f.node.id)
  := by
  rw [RingOrder, hl] at h
  obtain ⟨-, ho₂, ho₁₂⟩ := List.pairwise_append.mp h
  constructor
  · intro a ha hid
    have hlt := ho₁₂ a ha f List.mem_cons_self
    simp [ringKey, hid] at hlt
  · intro b hb hid
    have hlt := (List.pairwise_cons.mp ho₂).1 b hb
    simp [ringKey, hid] at hlt

/-- Changing the finger at which the list is split leaves the parts as they are. -/
theorem RingOrder.modifyFinger_eq (h : RingOrder srv) (hl : srv.flist = l₁ ++ f :: l₂)
    (u : Finger → Finger) :
  modifyFinger srv f.node.id u = { srv with flist := l₁ ++ u f :: l₂ }
  := by
  obtain ⟨h₁, h₂⟩ := h.ne_of_split hl
  have hmap : ∀ l : List Finger, (∀ a ∈ l, a.node.id ≠ f.node.id) →
      l.map (fun a => if a.node.id = f.node.id then u a else a) = l := by
    intro l hne
    apply List.map_congr_left (g := id) _ |>.trans (List.map_id l)
    intro a ha
    simp [hne a ha]
  simp only [modifyFinger, hl, List.map_append, List.map_cons, if_true, hmap l₁ h₁, hmap l₂ h₂]

/-- Taking out the finger at which the list is split leaves the parts as they are. -/
theorem RingOrder.eraseP_eq (h : RingOrder srv) (hl : srv.flist = l₁ ++ f :: l₂) :
  srv.flist.eraseP (fun a => a.node.id = f.node.id) = l₁ ++ l₂
  := by
  obtain ⟨h₁, -⟩ := h.ne_of_split hl
  rw [hl, List.eraseP_append_right _ (by simpa using h₁)]
  simp

/-- A refresh brings the range up to date if it was up to date for the predecessor it is
given. -/
theorem refreshRange_eq {pred : Option Finger}
    (h : srv.predBound = (pred.map (·.node.id)).getD srv.node.id) :
  refreshRange srv pred = withBound srv
  := by
  rw [refreshRange]
  split
  · rw [withBound, ownBound_eq]
    cases predFinger srv <;> rfl
  · rename_i hpf
    rw [withBound, ownBound_eq, ← not_ne_iff.mp hpf, ← h]

/-- A removal takes the finger out, adjusts the counter and brings the range up to
date. -/
theorem TableInv.removeFinger_eq (h : TableInv L srv) (hl : srv.flist = l₁ ++ f :: l₂) :
  removeFinger srv f = withBound
    { srv with
      flist := l₁ ++ l₂
      numPassiveFingers := srv.numPassiveFingers - if f.isPassive then 1 else 0 }
  := by
  have hb : srv.predBound = ((predFinger srv).map (·.node.id)).getD srv.node.id := by
    rw [h.bound, ownBound_eq]
  rw [removeFinger]
  split
  · rw [refreshRange_eq, unlinkFinger, h.order.eraseP_eq hl]
    apply hb
  · rw [refreshRange_eq, unlinkFinger, h.order.eraseP_eq hl, sub_zero]
    apply hb

theorem ringKey_congr {srv' : ChordServer} (h : srv'.node = srv.node) :
  ringKey srv' = ringKey srv
  := by
  funext f
  rw [ringKey, ringKey, h]

theorem refreshRange_flist (srv : ChordServer) (pred : Option Finger) :
  (refreshRange srv pred).flist = srv.flist
  := by
  rw [refreshRange]
  split
  · split
    · rfl
    · rfl
  · rfl

/-- A removal takes the finger out of the list. -/
theorem RingOrder.removeFinger_flist (h : RingOrder srv) (hl : srv.flist = l₁ ++ f :: l₂) :
  (removeFinger srv f).flist = l₁ ++ l₂
  := by
  rw [removeFinger]
  split
  · rw [refreshRange_flist, unlinkFinger]
    exact h.eraseP_eq hl
  · rw [refreshRange_flist, unlinkFinger]
    exact h.eraseP_eq hl

theorem RingOrder.of_sublist {srv' : ChordServer} (h : RingOrder srv) (hn : srv'.node = srv.node)
    (hs : srv'.flist.Sublist srv.flist) :
  RingOrder srv'
  := by
  rw [RingOrder, ringKey_congr hn]
  exact AscendingBy.sublist h hs

/-- Changing a finger without moving it keeps the ring order. -/
theorem RingOrder.modifyFinger (h : RingOrder srv) (hf : f ∈ srv.flist) {u : Finger → Finger}
    (hid : (u f).node.id = f.node.id) :
  RingOrder (modifyFinger srv f.node.id u)
  := by
  obtain ⟨l₁, l₂, hl⟩ := List.append_of_mem hf
  rw [h.modifyFinger_eq hl]
  rw [RingOrder, hl] at h
  apply h.replace
  rw [ringKey, ringKey, hid]

/-- The members of a server that are set once. -/
def ChordServer.settings (srv : ChordServer) : Bytes × ℕ × Bool × List Peer :=
  (srv.ticketSalt, srv.ticketHashLen, srv.isV6, srv.wellKnown)

/-- Two states of a server differ in its finger table, its range and its cursors only. -/
def SameNode (srv srv' : ChordServer) : Prop :=
  srv'.node = srv.node ∧ srv'.settings = srv.settings

/-- A server without its finger list, the number of its passive fingers and its range. -/
def ChordServer.withoutTable (srv : ChordServer) : ChordServer :=
  { srv with predBound := 0, flist := [], numPassiveFingers := 0 }

theorem SameNode.of_withoutTable {srv' : ChordServer} (h : srv'.withoutTable = srv.withoutTable) :
  SameNode srv srv'
  := by
  have hnode := congrArg ChordServer.node h
  have hsettings := congrArg ChordServer.settings h
  exact ⟨hnode, hsettings⟩

theorem refreshRange_withoutTable (srv : ChordServer) (pred : Option Finger) :
  (refreshRange srv pred).withoutTable = srv.withoutTable
  := by
  rw [refreshRange]
  split
  · split
    · rfl
    · rfl
  · rfl

theorem removeFinger_withoutTable (srv : ChordServer) (f : Finger) :
  (removeFinger srv f).withoutTable = srv.withoutTable
  := by
  rw [removeFinger]
  split
  · apply refreshRange_withoutTable
  · apply refreshRange_withoutTable

theorem fingerlistInsert_withoutTable (srv : ChordServer) (f : Finger) :
  (fingerlistInsert srv f).withoutTable = srv.withoutTable
  := by
  rw [fingerlistInsert]
  split
  · rfl
  · split
    · rfl
    · rfl

theorem activateFinger_withoutTable (srv : ChordServer) (f : Finger) :
  (activateFinger srv f).withoutTable = srv.withoutTable
  := by
  rw [activateFinger]
  split
  · rfl
  · rfl

theorem removeFinger_sameNode (srv : ChordServer) (f : Finger) :
  SameNode srv (removeFinger srv f)
  := .of_withoutTable (removeFinger_withoutTable srv f)

/-! ### Linking in a finger -/

/-- A finger is linked in behind the finger at which the list is split. -/
theorem insertAfter_append (h₁ : ∀ a ∈ l₁, a.node.id ≠ g.node.id) :
  insertAfter g.node.id f (l₁ ++ g :: l₂) = l₁ ++ g :: f :: l₂
  := by
  induction l₁ with
  | nil => simp [insertAfter]
  | cons a l₁ ih =>
      have ha := h₁ a List.mem_cons_self
      have hl := ih fun b hb => h₁ b (List.mem_cons_of_mem a hb)
      simp only [List.cons_append, insertAfter, ha, if_false, hl]

/-- A finger under a new identifier is linked in between the fingers that come before it
in ring order and those that come after it. -/
theorem RingOrder.exists_fingerlistInsert_eq (h : RingOrder srv)
    (hf : ∀ a ∈ srv.flist, a.node.id ≠ f.node.id) :
  ∃ l₁ l₂, srv.flist = l₁ ++ l₂ ∧ fingerlistInsert srv f = { srv with flist := l₁ ++ f :: l₂ } ∧
    (∀ a ∈ l₁, ringKey srv a < ringKey srv f) ∧ (∀ b ∈ l₂, ringKey srv f < ringKey srv b)
  := by
  have hlt : ∀ b ∈ srv.flist, idIsBetween b.node.id srv.node.id f.node.id = false →
      ringKey srv f < ringKey srv b := by
    intro b hb hnot
    rw [← Bool.not_eq_true, idIsBetween_iff, not_lt] at hnot
    apply lt_of_le_of_ne hnot
    intro heq
    exact hf b hb (ChordID.arc_inj.mp heq).symm
  by_cases hnil : srv.flist = []
  · use [], []
    simp [hnil, fingerlistInsert]
  rw [fingerlistInsert, if_neg hnil]
  cases hprec : closestPrecedingFinger srv f.node.id true with
  | none =>
      use [], srv.flist
      simp only [closestPrecedingFinger, Bool.true_or, Bool.true_and, List.find?_eq_none,
        List.mem_reverse, Bool.not_eq_true] at hprec
      simp only [List.nil_append, List.not_mem_nil, false_implies, implies_true, true_and]
      intro b hb
      apply hlt b hb (hprec b hb)
  | some g =>
      obtain ⟨hg, l₁, l₂, hl, hl₂⟩ := List.exists_append_of_find?_reverse hprec
      simp only [Bool.true_or, Bool.true_and] at hg hl₂
      have hne := h.ne_of_split hl
      rw [RingOrder, hl] at h
      use l₁ ++ [g], l₂
      refine ⟨by simp [hl], by simp [hl, insertAfter_append hne.1], ?_, ?_⟩
      · have hgf : ringKey srv g < ringKey srv f := idIsBetween_iff.mp hg
        intro a ha
        rcases List.mem_append.mp ha with ha | ha
        · apply lt_trans _ hgf
          apply (List.pairwise_append.mp h).2.2 a ha g List.mem_cons_self
        · rw [List.mem_singleton.mp ha]
          exact hgf
      · intro b hb
        apply hlt b _ (hl₂ b hb)
        simp [hl, hb]

end Tangent

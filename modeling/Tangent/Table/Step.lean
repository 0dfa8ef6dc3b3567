import Tangent.Table.Invariant
import Mathlib.Logic.Relation

/-!
# Steps of the finger table

What the handlers and the timer do to a server is a sequence of elementary steps, each of
one of nine kinds: the address is adopted, a passive finger is inserted or evicted, a
finger is dropped, a finger is trimmed from the inside of the list, the peer of a finger is
replaced, its counters are touched, it is activated, or a cursor of the maintenance code
moves.  Every step keeps the invariant of the table, and the quiet steps, those that insert,
evict, replace or touch a finger or move a cursor, keep the identifiers of the active
fingers, and with them the range of the server.
-/

namespace Tangent

/-- The kinds of elementary steps. -/
inductive Kind where
  | adopt
  | insert
  | evict
  | drop
  | trim
  | replace
  | touch
  | activate
  | cursor
  deriving DecidableEq

/-- An elementary step of a server. -/
inductive TableStep (L : Library) : Kind → ChordServer → ChordServer → Prop where
  | adopt {srv : ChordServer} (addr : In6Addr) (undiscovered : ¬ srv.Discovered) :
      TableStep L .adopt srv (adoptAddress L srv addr)
  | insert {srv : ChordServer} (p : Peer) (discovered : srv.Discovered)
      (other : p ≠ srv.node.peer) (fresh : ∀ f ∈ srv.flist, f.node.id ≠ (p.node L).id)
      (room : srv.numPassiveFingers < maxPassiveFingers) :
      TableStep L .insert srv (fingerlistInsert
        { srv with numPassiveFingers := srv.numPassiveFingers + 1 } (newFinger (p.node L)))
  | evict {srv : ChordServer} (f : Finger) (mem : f ∈ srv.flist)
      (passive : f.isPassive = true) :
      TableStep L .evict srv (removeFinger srv f)
  | drop {srv : ChordServer} (f : Finger) (mem : f ∈ srv.flist) :
      TableStep L .drop srv (removeFinger srv f)
  | trim {srv : ChordServer} (f : Finger) {l₁ l₂ : List Finger}
      (split : srv.flist = l₁ ++ f :: l₂) (left : l₁ ≠ []) (right : l₂ ≠ []) :
      TableStep L .trim srv (removeFinger srv f)
  | replace {srv : ChordServer} (f : Finger) (p : Peer) (mem : f ∈ srv.flist)
      (other : p ≠ srv.node.peer) (same : f.node.id = (p.node L).id) :
      TableStep L .replace srv (modifyFinger srv f.node.id (replacePeer p.addr p.port))
  | touch {srv : ChordServer} (f : Finger) (u : Finger → Finger) (mem : f ∈ srv.flist)
      (node : (u f).node = f.node) (status : (u f).status = f.status) :
      TableStep L .touch srv (modifyFinger srv f.node.id u)
  | activate {srv : ChordServer} (f : Finger) (mem : f ∈ srv.flist)
      (passive : f.isPassive = true) :
      TableStep L .activate srv (withBound (activateFinger srv f))
  | cursor {srv : ChordServer} (toFixFinger toFixBackup toPing : ℕ) :
      TableStep L .cursor srv
        { srv with toFixFinger := toFixFinger, toFixBackup := toFixBackup, toPing := toPing }

/-- A sequence of steps, each of a kind in `K`. -/
def TableSteps (L : Library) (K : Set Kind) : ChordServer → ChordServer → Prop :=
  Relation.ReflTransGen fun srv srv' => ∃ k ∈ K, TableStep L k srv srv'

variable {L : Library} {k : Kind} {K K' : Set Kind} {srv srv' srv'' : ChordServer}
  {f : Finger} {l₁ l₂ : List Finger}

theorem TableStep.steps (h : TableStep L k srv srv') (hk : k ∈ K) :
  TableSteps L K srv srv'
  := Relation.ReflTransGen.single ⟨k, hk, h⟩

theorem TableSteps.refl (srv : ChordServer) :
  TableSteps L K srv srv
  := Relation.ReflTransGen.refl

theorem TableSteps.trans (h : TableSteps L K srv srv') (h' : TableSteps L K srv' srv'') :
  TableSteps L K srv srv''
  := Relation.ReflTransGen.trans h h'

theorem TableSteps.mono (hK : K ⊆ K') (h : TableSteps L K srv srv') :
  TableSteps L K' srv srv'
  := by
  apply Relation.ReflTransGen.mono _ srv srv' h
  rintro a b ⟨k, hk, hab⟩
  exact ⟨k, hK hk, hab⟩

theorem TableSteps.cursor (hK : .cursor ∈ K) (srv : ChordServer)
    (toFixFinger toFixBackup toPing : ℕ) :
  TableSteps L K srv
    { srv with toFixFinger := toFixFinger, toFixBackup := toFixBackup, toPing := toPing }
  := TableStep.steps (.cursor toFixFinger toFixBackup toPing) hK

/-! ### What the steps do to the list -/

/-- A new list in ring order, with the range and the counter that belong to it, keeps the
invariant. -/
theorem TableInv.update (h : TableInv L srv) {l : List Finger} {n : ℤ}
    (order : AscendingBy (ringKey srv) l)
    (passive : n = l.countP Finger.isPassive) (passive_le : n ≤ maxPassiveFingers)
    (discovered : l ≠ [] → srv.Discovered)
    (fingers : ∀ f ∈ l, f.node = f.node.peer.node L ∧ f.node.peer ≠ srv.node.peer) :
  TableInv L (withBound { srv with flist := l, numPassiveFingers := n })
  := by
  constructor
  · apply order
  · rfl
  · apply passive
  · apply passive_le
  · intro hd
    by_contra hne
    exact hd (discovered hne)
  · apply h.position
  · apply fingers

/-- With the same active fingers the range is up to date. -/
theorem TableInv.withBound_eq (h : TableInv L srv) {l : List Finger} {n : ℤ}
    (active : (l.filter Finger.isActive).map (·.node.id) = activeIds srv) :
  withBound { srv with flist := l, numPassiveFingers := n }
    = { srv with flist := l, numPassiveFingers := n }
  := by
  have hb : ownBound { srv with flist := l, numPassiveFingers := n } = srv.predBound := by
    rw [h.bound, ownBound, ownBound, ← active]
    rfl
  rw [withBound, hb]

/-- An inserted finger splits the list at its place in the ring order. -/
theorem exists_insert_eq {p : Peer} (h : RingOrder srv)
    (fresh : ∀ f ∈ srv.flist, f.node.id ≠ (p.node L).id) :
  ∃ l₁ l₂, srv.flist = l₁ ++ l₂ ∧
    fingerlistInsert { srv with numPassiveFingers := srv.numPassiveFingers + 1 }
        (newFinger (p.node L))
      = { srv with
          flist := l₁ ++ newFinger (p.node L) :: l₂
          numPassiveFingers := srv.numPassiveFingers + 1 } ∧
    AscendingBy (ringKey srv) (l₁ ++ newFinger (p.node L) :: l₂)
  := by
  have h' : RingOrder { srv with numPassiveFingers := srv.numPassiveFingers + 1 } := h
  obtain ⟨l₁, l₂, hl, heq, hlt₁, hlt₂⟩ :=
    h'.exists_fingerlistInsert_eq (f := newFinger (p.node L)) fresh
  refine ⟨l₁, l₂, hl, heq, ?_⟩
  apply AscendingBy.insert _ hlt₁ hlt₂
  rw [← hl]
  apply h

/-- An activated finger keeps its place in the list. -/
theorem TableInv.activateFinger_eq (h : TableInv L srv) (hl : srv.flist = l₁ ++ f :: l₂)
    (hf : f.isPassive = true) :
  activateFinger srv f
    = { srv with
        flist := l₁ ++ { f with status := .active } :: l₂
        numPassiveFingers := srv.numPassiveFingers - 1 }
  := by
  rw [activateFinger, if_pos hf, h.order.modifyFinger_eq hl]

/-! ### The steps keep the invariant -/

theorem TableInv.adopt (h : TableInv L srv) (hd : ¬ srv.Discovered) (addr : In6Addr) :
  TableInv L (adoptAddress L srv addr)
  := by
  have hnil := h.undiscovered hd
  have hids : activeIds (adoptAddress L srv addr) = [] := by
    simp [activeIds, adoptAddress, chordUpdateRange, hnil]
  constructor
  · simp [RingOrder, adoptAddress, chordUpdateRange, hnil, AscendingBy]
  · rw [ownBound, hids]
    rfl
  · apply h.passive
  · apply h.passive_le
  · intro _
    apply hnil
  · intro _
    rfl
  · simp [adoptAddress, chordUpdateRange, hnil]

theorem TableInv.insert (h : TableInv L srv) {p : Peer} (discovered : srv.Discovered)
    (other : p ≠ srv.node.peer) (fresh : ∀ f ∈ srv.flist, f.node.id ≠ (p.node L).id)
    (room : srv.numPassiveFingers < maxPassiveFingers) :
  TableInv L (fingerlistInsert
    { srv with numPassiveFingers := srv.numPassiveFingers + 1 } (newFinger (p.node L)))
  := by
  obtain ⟨l₁, l₂, hl, heq, ho⟩ := exists_insert_eq h.order fresh
  have hactive : ((l₁ ++ newFinger (p.node L) :: l₂).filter Finger.isActive).map (·.node.id)
      = activeIds srv := by
    simp [activeIds, hl, newFinger, Finger.isActive]
  rw [heq, ← h.withBound_eq hactive]
  apply h.update ho
  · simp only [h.passive, hl, List.countP_append, List.countP_cons, newFinger,
      Finger.isPassive, decide_true, if_true, Nat.cast_add, Nat.cast_one]
    omega
  · omega
  · intro _
    apply discovered
  · intro f hf
    simp only [List.mem_append, List.mem_cons] at hf
    rcases hf with hf | rfl | hf
    · apply h.fingers f (by simp [hl, hf])
    · exact ⟨rfl, other⟩
    · apply h.fingers f (by simp [hl, hf])

theorem TableInv.remove (h : TableInv L srv) (hf : f ∈ srv.flist) :
  TableInv L (removeFinger srv f)
  := by
  obtain ⟨l₁, l₂, hl⟩ := List.append_of_mem hf
  have hsub : (l₁ ++ l₂).Sublist srv.flist := by
    simp [hl]
  rw [h.removeFinger_eq hl]
  apply h.update (h.order.sublist hsub)
  · simp only [h.passive, hl, List.countP_append, List.countP_cons, Nat.cast_add, Nat.cast_ite,
      Nat.cast_one, Nat.cast_zero]
    omega
  · have := h.passive_le
    split <;> omega
  · intro _
    apply h.discovered hf
  · intro g hg
    apply h.fingers g (hsub.subset hg)

/-- Changing a finger without moving it or changing its status keeps the invariant, if it
is still filed under the hash of its peer. -/
theorem TableInv.modify (h : TableInv L srv) (hf : f ∈ srv.flist) {u : Finger → Finger}
    (hid : (u f).node.id = f.node.id) (hstatus : (u f).status = f.status)
    (hpos : (u f).node = (u f).node.peer.node L) (hother : (u f).node.peer ≠ srv.node.peer) :
  TableInv L (modifyFinger srv f.node.id u)
  := by
  obtain ⟨l₁, l₂, hl⟩ := List.append_of_mem hf
  have hactive : ((l₁ ++ u f :: l₂).filter Finger.isActive).map (·.node.id)
      = activeIds srv := by
    have hu : (u f).isActive = f.isActive := by
      rw [Finger.isActive, Finger.isActive, hstatus]
    simp only [activeIds, hl, List.filter_append, List.filter_cons, hu]
    split <;> simp [hid]
  have hpassive : (u f).isPassive = f.isPassive := by
    rw [Finger.isPassive, Finger.isPassive, hstatus]
  rw [h.order.modifyFinger_eq hl, ← h.withBound_eq hactive]
  apply h.update
  · have ho := h.order
    rw [RingOrder, hl] at ho
    apply ho.replace
    rw [ringKey, ringKey, hid]
  · simp only [h.passive, hl, List.countP_append, List.countP_cons, hpassive]
  · apply h.passive_le
  · intro _
    apply h.discovered hf
  · intro g hg
    simp only [List.mem_append, List.mem_cons] at hg
    rcases hg with hg | rfl | hg
    · apply h.fingers g (by simp [hl, hg])
    · exact ⟨hpos, hother⟩
    · apply h.fingers g (by simp [hl, hg])

theorem TableInv.activate (h : TableInv L srv) (hf : f ∈ srv.flist)
    (hp : f.isPassive = true) :
  TableInv L (withBound (activateFinger srv f))
  := by
  obtain ⟨l₁, l₂, hl⟩ := List.append_of_mem hf
  have hact : ({ f with status := .active } : Finger).isPassive = false := rfl
  rw [h.activateFinger_eq hl hp]
  apply h.update
  · have ho := h.order
    rw [RingOrder, hl] at ho
    exact ho.replace rfl
  · simp only [h.passive, hl, List.countP_append, List.countP_cons, hp, hact, if_true,
      Bool.false_eq_true, if_false, Nat.cast_add, Nat.cast_one]
    omega
  · have := h.passive_le
    omega
  · intro _
    apply h.discovered hf
  · intro g hg
    simp only [List.mem_append, List.mem_cons] at hg
    rcases hg with hg | rfl | hg
    · apply h.fingers g (by simp [hl, hg])
    · apply h.fingers f hf
    · apply h.fingers g (by simp [hl, hg])

/-- Every step keeps the invariant of the table. -/
theorem TableStep.inv (h : TableInv L srv) (hs : TableStep L k srv srv') :
  TableInv L srv'
  := by
  cases hs with
  | adopt addr undiscovered => apply h.adopt undiscovered
  | insert p discovered other fresh room => apply h.insert discovered other fresh room
  | evict f mem passive => apply h.remove mem
  | drop f mem => apply h.remove mem
  | trim f split left right =>
      apply h.remove
      simp [split]
  | replace f p mem other same =>
      apply h.modify mem rfl rfl
      · simp only [replacePeer, same]
        rfl
      · apply other
  | touch f u mem node status =>
      apply h.modify mem (by rw [node]) status
      · rw [node]
        apply (h.fingers f mem).1
      · rw [node]
        apply (h.fingers f mem).2
  | activate f mem passive => apply h.activate mem passive
  | cursor a b c =>
      constructor
      · apply h.order
      · apply h.bound
      · apply h.passive
      · apply h.passive_le
      · apply h.undiscovered
      · apply h.position
      · apply h.fingers

theorem TableSteps.inv (h : TableInv L srv) (hs : TableSteps L K srv srv') :
  TableInv L srv'
  := by
  induction hs with
  | refl => exact h
  | tail _ hstep ih =>
      obtain ⟨k, -, hk⟩ := hstep
      apply hk.inv ih

/-! ### What the steps keep -/

/-- What every step of the kinds in `K` keeps, a sequence of them keeps. -/
theorem TableSteps.eq_of_step {α : Type*} {g : ChordServer → α} (hs : TableSteps L K srv srv')
    (hstep : ∀ k ∈ K, ∀ s s', TableStep L k s s' → g s' = g s) :
  g srv' = g srv
  := by
  induction hs with
  | refl => rfl
  | tail _ hlast ih =>
      obtain ⟨k, hk, hlast⟩ := hlast
      rw [hstep k hk _ _ hlast, ih]

/-- The steps but the adoption of an address and the moves of the cursors change the finger table
and the range only. -/
theorem TableStep.withoutTable_eq (hs : TableStep L k srv srv') (hadopt : k ≠ .adopt)
    (hcursor : k ≠ .cursor) :
  srv'.withoutTable = srv.withoutTable
  := by
  cases hs with
  | adopt addr undiscovered => exact absurd rfl hadopt
  | insert p discovered other fresh room => apply fingerlistInsert_withoutTable
  | evict f mem passive => apply removeFinger_withoutTable
  | drop f mem => apply removeFinger_withoutTable
  | trim f split left right => apply removeFinger_withoutTable
  | replace f p mem other same => rfl
  | touch f u mem node status => rfl
  | activate f mem passive => apply activateFinger_withoutTable
  | cursor a b c => exact absurd rfl hcursor

/-- The node and the settings change in no step but the adoption of an address. -/
theorem TableStep.sameNode (hs : TableStep L k srv srv') (hk : k ≠ .adopt) :
  SameNode srv srv'
  := by
  by_cases hcursor : k = .cursor
  · subst hcursor
    cases hs
    exact ⟨rfl, rfl⟩
  · apply SameNode.of_withoutTable (hs.withoutTable_eq hk hcursor)

/-- The settings change in no step. -/
theorem TableStep.settings_eq (hs : TableStep L k srv srv') :
  srv'.settings = srv.settings
  := by
  by_cases hk : k = .adopt
  · subst hk
    cases hs
    rfl
  · apply (hs.sameNode hk).2

theorem TableSteps.settings_eq (hs : TableSteps L K srv srv') :
  srv'.settings = srv.settings
  := by
  apply hs.eq_of_step
  intro k _ s s' hstep
  apply hstep.settings_eq

theorem TableSteps.sameNode (hs : TableSteps L K srv srv') (hK : .adopt ∉ K) :
  SameNode srv srv'
  := by
  constructor
  · apply hs.eq_of_step
    intro k hk s s' hstep
    apply (hstep.sameNode (ne_of_mem_of_not_mem hk hK)).1
  · apply hs.settings_eq

/-- The kinds of steps that keep the active fingers. -/
def quiet : Set Kind :=
  {.insert, .evict, .replace, .touch, .cursor}

/-- Changing a finger without moving it or changing its status keeps the identifiers of
the active fingers. -/
theorem TableInv.activeIds_modify (h : TableInv L srv) (hf : f ∈ srv.flist)
    {u : Finger → Finger} (hid : (u f).node.id = f.node.id) (hstatus : (u f).status = f.status) :
  activeIds (modifyFinger srv f.node.id u) = activeIds srv
  := by
  obtain ⟨l₁, l₂, hl⟩ := List.append_of_mem hf
  have hu : (u f).isActive = f.isActive := by
    rw [Finger.isActive, Finger.isActive, hstatus]
  rw [h.order.modifyFinger_eq hl]
  simp only [activeIds, hl, List.filter_append, List.filter_cons, hu]
  split <;> simp [hid]

/-- Quiet steps keep the identifiers of the active fingers. -/
theorem TableStep.activeIds_eq (h : TableInv L srv) (hs : TableStep L k srv srv')
    (hk : k ∈ quiet) :
  activeIds srv' = activeIds srv
  := by
  cases hs with
  | adopt addr undiscovered => simp [quiet] at hk
  | insert p discovered other fresh room =>
      obtain ⟨l₁, l₂, hl, heq, -⟩ := exists_insert_eq h.order fresh
      rw [heq]
      simp [activeIds, hl, newFinger, Finger.isActive]
  | evict f mem passive =>
      obtain ⟨l₁, l₂, hl⟩ := List.append_of_mem mem
      rw [h.removeFinger_eq hl]
      simp [activeIds, withBound, hl, Finger.isPassive_iff.mp passive]
  | drop f mem => simp [quiet] at hk
  | trim f split left right => simp [quiet] at hk
  | replace f p mem other same => apply h.activeIds_modify mem rfl rfl
  | touch f u mem node status => apply h.activeIds_modify mem (by rw [node]) status
  | activate f mem passive => simp [quiet] at hk
  | cursor a b c => rfl

/-- Quiet steps keep the node, the identifiers of the active fingers and the range. -/
theorem TableSteps.quiet (h : TableInv L srv) (hs : TableSteps L K srv srv') (hK : K ⊆ quiet) :
  srv'.node = srv.node ∧ activeIds srv' = activeIds srv ∧ srv'.predBound = srv.predBound
  := by
  have hnode : srv'.node = srv.node := by
    apply (hs.sameNode _).1
    intro hadopt
    simpa [Tangent.quiet] using hK hadopt
  have hids : activeIds srv' = activeIds srv := by
    clear hnode
    induction hs with
    | refl => rfl
    | tail hs hstep ih =>
        obtain ⟨k, hk, hstep⟩ := hstep
        rw [hstep.activeIds_eq (TableSteps.inv h hs) (hK hk), ih]
  refine ⟨hnode, hids, ?_⟩
  rw [h.bound, (hs.inv h).bound, ownBound, ownBound, hids, hnode]

/-- The kinds of steps that add no finger and change no node and no status. -/
def shrinking : Set Kind :=
  {.evict, .drop, .trim, .touch, .cursor}

theorem TableInv.mem_removeFinger (h : TableInv L srv) (hf : f ∈ srv.flist) {g : Finger}
    (hg : g ∈ (removeFinger srv f).flist) :
  g ∈ srv.flist
  := by
  obtain ⟨l₁, l₂, hl⟩ := List.append_of_mem hf
  rw [h.removeFinger_eq hl] at hg
  rw [hl]
  simp only [withBound, List.mem_append, List.mem_cons] at hg ⊢
  tauto

/-- The fingers after a shrinking step are fingers from before it. -/
theorem TableStep.mem_of_mem (h : TableInv L srv) (hs : TableStep L k srv srv')
    (hk : k ∈ shrinking) (hf : f ∈ srv'.flist) :
  ∃ g ∈ srv.flist, g.node = f.node ∧ g.status = f.status
  := by
  cases hs with
  | adopt addr undiscovered => simp [shrinking] at hk
  | insert p discovered other fresh room => simp [shrinking] at hk
  | evict g mem passive => exact ⟨f, h.mem_removeFinger mem hf, rfl, rfl⟩
  | drop g mem => exact ⟨f, h.mem_removeFinger mem hf, rfl, rfl⟩
  | trim g split left right => exact ⟨f, h.mem_removeFinger (by simp [split]) hf, rfl, rfl⟩
  | replace g p mem other same => simp [shrinking] at hk
  | touch g u mem node status =>
      obtain ⟨a, ha, rfl⟩ := List.mem_map.mp hf
      use a, ha
      split
      · rename_i hid
        obtain rfl := h.order.eq_of_id_eq ha mem hid
        exact ⟨node.symm, status.symm⟩
      · exact ⟨rfl, rfl⟩
  | activate g mem passive => simp [shrinking] at hk
  | cursor a b c => exact ⟨f, hf, rfl, rfl⟩

theorem TableSteps.mem_of_mem (h : TableInv L srv) (hs : TableSteps L K srv srv')
    (hK : K ⊆ shrinking) (hf : f ∈ srv'.flist) :
  ∃ g ∈ srv.flist, g.node = f.node ∧ g.status = f.status
  := by
  induction hs generalizing f with
  | refl => exact ⟨f, hf, rfl, rfl⟩
  | tail hs hstep ih =>
      obtain ⟨k, hk, hstep⟩ := hstep
      obtain ⟨g, hg, hnode, hstatus⟩ := hstep.mem_of_mem (TableSteps.inv h hs) (hK hk) hf
      obtain ⟨g', hg', hnode', hstatus'⟩ := ih hg
      exact ⟨g', hg', hnode'.trans hnode, hstatus'.trans hstatus⟩

end Tangent

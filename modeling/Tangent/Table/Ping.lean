import Tangent.Table.Tick

/-!
# The pings of a tick

`ping` walks along the finger list while it removes fingers from it.  What it does with a finger
depends on the finger and its position in the list before the walk only: `pingAt` tells whether
it is dropped, pinged or left alone.  The lemmas here describe the list, the cursor and the
packets after the walk in these terms.
-/

namespace Tangent

variable {L : Library} {io : Io} {srv : ChordServer} {f g : Finger} {l₁ l₂ : List Finger}

/-- `ping` sends a ping to the finger at the position `i` of the list. -/
def isPinged (toPing i : ℕ) (f : Finger) : Bool :=
  f.npings < pingThresh ∧ (f.npings ≠ 0 ∨ toPing = i)

/-- A finger that is dropped is not pinged. -/
theorem isPinged_of_dead {toPing i : ℕ} (hdead : pingThresh ≤ f.npings) :
  isPinged toPing i f = false
  := by
  simp [isPinged, not_lt.mpr hdead]

/-- A finger that is not dropped is pinged if it has not answered or if it is its turn. -/
theorem isPinged_of_live {toPing i : ℕ} (hlive : ¬ pingThresh ≤ f.npings) :
  isPinged toPing i f = true ↔ f.npings ≠ 0 ∨ toPing = i
  := by
  simp [isPinged, not_le.mp hlive]

/-- What `ping` leaves of the finger at the position `i` of the list. -/
def pingAt (toPing i : ℕ) (f : Finger) : Option Finger :=
  if pingThresh ≤ f.npings then none
  else if isPinged toPing i f then some (countPing f)
  else some f

/-- What `ping` leaves of a part of the list that starts at the position `i`. -/
def pingFrom (toPing i : ℕ) (fs : List Finger) : List Finger :=
  (fs.zipIdx i).filterMap fun p => pingAt toPing p.2 p.1

theorem pingFrom_cons (toPing i : ℕ) (f : Finger) (fs : List Finger) :
  pingFrom toPing i (f :: fs) = (pingAt toPing i f).toList ++ pingFrom toPing (i + 1) fs
  := by
  rw [pingFrom, List.zipIdx_cons, List.filterMap_cons]
  cases pingAt toPing i f <;> rfl

theorem pingFrom_append (toPing i : ℕ) (l₁ l₂ : List Finger) :
  pingFrom toPing i (l₁ ++ l₂) = pingFrom toPing i l₁ ++ pingFrom toPing (i + l₁.length) l₂
  := by
  rw [pingFrom, List.zipIdx_append, List.filterMap_append]
  rfl

/-- The finger `ping` leaves has the node and the status of the finger it was. -/
theorem pingAt_eq_some {toPing i : ℕ} (h : pingAt toPing i f = some g) :
  f.npings < pingThresh ∧ g.node = f.node ∧ g.status = f.status ∧
    g.npings = f.npings + if isPinged toPing i f then 1 else 0
  := by
  rw [pingAt] at h
  split at h
  · cases h
  · rename_i hlt
    split at h
    · rename_i hpinged
      cases h
      simp [countPing, hpinged, not_le.mp hlt]
    · rename_i hpinged
      cases h
      simp [hpinged, not_le.mp hlt]

/-! ### The walk -/

/-- The action is a ping to `p`. -/
def Action.isPingTo (p : Peer) : Action → Bool
  | .send ⟨toAddr, toPort, .ping _⟩ => (⟨toAddr, toPort⟩ : Peer) = p
  | _ => false

/-- The number of pings `ping` sends to `p` on its way along a part of the list that starts at the
position `i`. -/
def pingsFrom (toPing i : ℕ) (fs : List Finger) (p : Peer) : ℕ :=
  (fs.zipIdx i).countP fun q => isPinged toPing q.2 q.1 && q.1.node.peer = p

theorem pingsFrom_cons (toPing i : ℕ) (f : Finger) (fs : List Finger) (p : Peer) :
  pingsFrom toPing i (f :: fs) p
    = (if isPinged toPing i f = true ∧ f.node.peer = p then 1 else 0)
      + pingsFrom toPing (i + 1) fs p
  := by
  simp [pingsFrom, List.countP_cons, add_comm]

theorem countP_sendPing (p : Peer) (srv : ChordServer) (acts : List Action) (f : Finger) :
  (sendPing L io srv acts f.node.addr f.node.port).countP (Action.isPingTo p)
    = acts.countP (Action.isPingTo p) + if f.node.peer = p then 1 else 0
  := by
  rw [sendPing, sendPacket, List.countP_append, List.countP_singleton, Action.isPingTo]
  congr 1
  simp only [decide_eq_true_eq]
  rfl

theorem removeFinger_toPing (srv : ChordServer) (f : Finger) :
  (removeFinger srv f).toPing = srv.toPing
  := by
  have hsame := congrArg ChordServer.toPing (removeFinger_withoutTable srv f)
  exact hsame

/-- The walk changes the finger table and the range only. -/
theorem pingLoop_withoutTable (L : Library) (io : Io) (fs : List Finger) (i : ℕ)
    (st : PingState) :
  (pingLoop L io fs i st).srv.withoutTable = st.srv.withoutTable
  := by
  induction fs generalizing i st with
  | nil => rfl
  | cons f fs ih =>
      rw [pingLoop]
      split
      · rw [ih]
        apply removeFinger_withoutTable
      · split
        · rw [ih]
          rfl
        · apply ih

/-- When the walk drops a finger, the rest of the list stays in order. -/
theorem RingOrder.drop (h : RingOrder srv) (hl : srv.flist = l₁ ++ f :: l₂) :
  RingOrder (removeFinger srv f)
  := by
  apply h.of_sublist (removeFinger_sameNode srv f).1
  rw [h.removeFinger_flist hl, hl]
  simp

/-- The walk leaves `pingFrom` of the part of the list it has before it, and sends the pings
`pingsFrom` counts. -/
theorem pingLoop_eq (L : Library) (io : Io) (fs visited : List Finger) (i : ℕ) (st : PingState)
    (h : RingOrder st.srv) (hl : st.srv.flist = visited ++ fs) :
  (pingLoop L io fs i st).srv.flist = visited ++ pingFrom st.srv.toPing i fs ∧
    ∀ p, (pingLoop L io fs i st).acts.countP (Action.isPingTo p)
      = st.acts.countP (Action.isPingTo p) + pingsFrom st.srv.toPing i fs p
  := by
  induction fs generalizing visited i st with
  | nil => exact ⟨hl, fun p => rfl⟩
  | cons f fs ih =>
      have hf : f ∈ st.srv.flist := by
        simp [hl]
      rw [pingLoop, pingFrom_cons]
      simp only [pingsFrom_cons]
      split
      · rename_i hdead
        obtain ⟨hflist, hacts⟩ := ih visited (i + 1) { st with srv := removeFinger st.srv f }
          (h.drop hl) (h.removeFinger_flist hl)
        rw [removeFinger_toPing] at hflist hacts
        constructor
        · rw [hflist, pingAt, if_pos hdead]
          rfl
        · intro p
          rw [hacts p, isPinged_of_dead hdead]
          simp
      · rename_i hlive
        split
        · rename_i hping
          have hyes := (isPinged_of_live hlive).mpr hping
          have horder : RingOrder (modifyFinger st.srv f.node.id countPing) :=
            h.modifyFinger hf rfl
          have hl' : (modifyFinger st.srv f.node.id countPing).flist
              = (visited ++ [countPing f]) ++ fs := by
            simp [h.modifyFinger_eq hl]
          obtain ⟨hflist, hacts⟩ :=
            ih (visited ++ [countPing f]) (i + 1)
              { srv := modifyFinger st.srv f.node.id countPing
                acts := sendPing L io st.srv st.acts f.node.addr f.node.port
                pinged := if st.srv.toPing = i then some f.node.id else st.pinged }
              horder hl'
          constructor
          · rw [hflist, pingAt, if_neg hlive, if_pos hyes]
            simp [modifyFinger]
          · intro p
            rw [hacts p, countP_sendPing, hyes]
            simp only [true_and, add_assoc]
            rfl
        · rename_i hquiet
          have hno : isPinged st.srv.toPing i f = false := by
            rw [← Bool.not_eq_true, isPinged_of_live hlive]
            exact hquiet
          obtain ⟨hflist, hacts⟩ := ih (visited ++ [f]) (i + 1) st h (by simp [hl])
          constructor
          · rw [hflist, pingAt, if_neg hlive, hno]
            simp
          · intro p
            rw [hacts p, hno]
            simp

theorem ping_node (L : Library) (io : Io) (srv : ChordServer) :
  (ping L io srv).1.node = srv.node
  := by
  have hsame := congrArg ChordServer.node
    (pingLoop_withoutTable L io srv.flist 0 ⟨srv, [], none⟩)
  rw [ping]
  split
  · exact hsame
  · exact hsame

theorem ping_isV6 (L : Library) (io : Io) (srv : ChordServer) :
  (ping L io srv).1.isV6 = srv.isV6
  := by
  have hsame := congrArg ChordServer.isV6
    (pingLoop_withoutTable L io srv.flist 0 ⟨srv, [], none⟩)
  rw [ping]
  split
  · exact hsame
  · exact hsame

/-- `ping` leaves of the list what it leaves of each finger. -/
theorem ping_flist (L : Library) (io : Io) (h : RingOrder srv) :
  (ping L io srv).1.flist = pingFrom srv.toPing 0 srv.flist
  := by
  have hloop := (pingLoop_eq L io srv.flist [] 0 ⟨srv, [], none⟩ h rfl).1
  rw [ping]
  split
  · exact hloop
  · exact hloop

/-- The pings `ping` sends to `p`. -/
theorem ping_countP (L : Library) (io : Io) (h : RingOrder srv) (p : Peer) :
  (ping L io srv).2.countP (Action.isPingTo p) = pingsFrom srv.toPing 0 srv.flist p
  := by
  have hloop := (pingLoop_eq L io srv.flist [] 0 ⟨srv, [], none⟩ h rfl).2 p
  rw [List.countP_nil, zero_add] at hloop
  rw [ping]
  split
  · exact hloop
  · exact hloop

/-- The fingers of a list have different peers. -/
theorem TableInv.peer_ne_of_split (h : TableInv L srv) (hl : srv.flist = l₁ ++ f :: l₂) :
  ∀ g ∈ l₁ ++ l₂, g.node.peer ≠ f.node.peer
  := by
  intro g hg heq
  obtain ⟨hleft, hright⟩ := h.order.ne_of_split hl
  have hgl : g ∈ srv.flist := by
    rw [hl]
    simp only [List.mem_append, List.mem_cons] at hg ⊢
    tauto
  have hid : g.node.id = f.node.id := by
    rw [(h.fingers g hgl).1, (h.fingers f (by simp [hl])).1, heq]
  rcases List.mem_append.mp hg with hg | hg
  · apply hleft g hg hid
  · apply hright g hg hid

theorem pingsFrom_eq_zero {toPing i : ℕ} {fs : List Finger} {p : Peer}
    (h : ∀ g ∈ fs, g.node.peer ≠ p) :
  pingsFrom toPing i fs p = 0
  := by
  rw [pingsFrom, List.countP_eq_zero]
  rintro ⟨g, j⟩ hg
  simp [h g (List.fst_mem_of_mem_zipIdx hg)]

/-- `ping` sends a finger one ping or none. -/
theorem TableInv.pingsFrom_eq (h : TableInv L srv) (hl : srv.flist = l₁ ++ f :: l₂) :
  pingsFrom srv.toPing 0 srv.flist f.node.peer = if isPinged srv.toPing l₁.length f then 1 else 0
  := by
  have hne := h.peer_ne_of_split hl
  have hleft : pingsFrom srv.toPing 0 l₁ f.node.peer = 0 :=
    pingsFrom_eq_zero fun g hg => hne g (List.mem_append_left l₂ hg)
  have hright : pingsFrom srv.toPing (l₁.length + 1) l₂ f.node.peer = 0 :=
    pingsFrom_eq_zero fun g hg => hne g (List.mem_append_right l₁ hg)
  rw [pingsFrom] at hleft hright
  rw [pingsFrom, hl, List.zipIdx_append, List.countP_append, zero_add, List.zipIdx_cons,
    List.countP_cons, hleft, hright]
  simp

/-- The list at the position of a finger. -/
theorem exists_split_of_getElem? {α : Type*} {l : List α} {j : ℕ} {a : α} (h : l[j]? = some a) :
  ∃ l₁ l₂, l = l₁ ++ a :: l₂ ∧ l₁.length = j
  := by
  obtain ⟨hlt, rfl⟩ := List.getElem?_eq_some_iff.mp h
  refine ⟨l.take j, l.drop (j + 1), ?_, List.length_take_of_le (le_of_lt hlt)⟩
  rw [← List.drop_eq_getElem_cons hlt, List.take_append_drop]

/-- What `ping` leaves of a finger has counted the pings it was sent, which are none or one. -/
theorem ping_mem (h : TableInv L srv) (hg : g ∈ (ping L io srv).1.flist) :
  ∃ f ∈ srv.flist, f.npings < pingThresh ∧ g.node = f.node ∧
    g.npings = f.npings + (ping L io srv).2.countP (Action.isPingTo g.node.peer) ∧
    g.npings ≤ f.npings + 1
  := by
  rw [ping_flist L io h.order, pingFrom, List.mem_filterMap] at hg
  obtain ⟨⟨f, j⟩, hf, hg⟩ := hg
  rw [List.mk_mem_zipIdx_iff_getElem?] at hf
  obtain ⟨l₁, l₂, hl, rfl⟩ := exists_split_of_getElem? hf
  obtain ⟨hlt, hnode, -, hcount⟩ := pingAt_eq_some hg
  rw [hnode, ping_countP L io h.order, h.pingsFrom_eq hl]
  refine ⟨f, List.mem_of_getElem? hf, hlt, rfl, hcount, ?_⟩
  rw [hcount]
  apply Nat.add_le_add_left
  split
  · rfl
  · apply Nat.zero_le 1

end Tangent

import Tangent.Heap.Listed
import Tangent.Table.Invariant

/-!
# The links of the finger list

On a heap that represents a list, a search finds what it finds in the list, and the case splits of
`fingerlist_insert` and `remove_finger` come to the same two operations on doubly linked lists:
`fingerlist_insert` links the finger in between two parts of the list (`fingerlistInsert_eq`), and
`remove_finger` takes it out (`unlink_eq`), wherever it is.
-/

/-- A bound on the length of a list with a first element leaves one for the rest. -/
theorem List.exists_of_length_cons_le {α : Type*} {x : α} {l : List α} {n : ℕ}
    (h : (x :: l).length ≤ n) :
  ∃ k, n = k + 1 ∧ l.length ≤ k
  := by
  cases n with
  | zero => simp at h
  | succ k => exact ⟨k, rfl, by simpa using h⟩

namespace Tangent

open DoublyLinked

namespace HeapServer

variable {A : Type} {srv : HeapServer A} {l l₁ l₂ : List (A × Finger)}
  {a b f newF : A} {v g : Finger} {c : Cell A Finger} {p q : Option A} {fuel n : ℕ}

/-! ### Pointers -/

theorem read_eq (h : srv.flist.heap a = some c) :
  srv.read (some a) = .ok c
  := by
  simp [read, h]

theorem read_of_represents (h : srv.flist.Represents (l₁ ++ (a, v) :: l₂)) :
  srv.read (some a) = .ok ⟨v, first l₂, last l₁⟩
  := read_eq h.cell_eq

/-! ### Searches -/

/-- A search along a path finds what the search through its cells finds. -/
theorem search_eq {link : Cell A Finger → Option A} {P : Finger → Bool}
    (h : Path (fun a => (srv.flist.heap a).map fun c => (c.val, link c)) p l none)
    (hn : l.length ≤ n) :
  srv.search link P n p = .ok ((l.find? fun e => P e.2).map Prod.fst)
  := by
  induction l generalizing p n with
  | nil =>
      cases h
      cases n <;> rfl
  | cons e l ih =>
      cases h with
      | cons cell rest =>
          rename_i a v r
          obtain ⟨c, hc, heq⟩ := Option.map_eq_some_iff.mp cell
          cases heq
          obtain ⟨n, rfl, hlen⟩ := List.exists_of_length_cons_le hn
          have hrest := ih rest hlen
          simp only [search, read_eq hc, Except.ok_bind]
          by_cases hP : P c.val
          · simp [hP, Pure.pure, Except.pure]
          · simpa [hP] using hrest

/-- `pred_finger` finds the last active finger. -/
theorem predFinger_eq (h : srv.flist.Represents l) (hfuel : l.length ≤ fuel) :
  srv.predFinger fuel = .ok ((ListedServer.mk srv.members l).predFinger.map Prod.fst)
  := by
  apply search_eq h.backward
  simpa using hfuel

/-- `get_finger` finds the first finger with the identifier. -/
theorem getFinger_eq (h : srv.flist.Represents l) (hfuel : l.length ≤ fuel) (id : ChordID) :
  srv.getFinger fuel id = .ok (((ListedServer.mk srv.members l).getFinger id).map Prod.fst)
  := search_eq h.forward hfuel

/-- `closest_preceding_finger` finds the last finger before the identifier. -/
theorem closestPrecedingFinger_eq (h : srv.flist.Represents l) (hfuel : l.length ≤ fuel)
    (id : ChordID) :
  srv.closestPrecedingFinger fuel id true
    = .ok (last (l.rdropWhile fun e => !idIsBetween e.2.node.id srv.members.node.id id))
  := by
  have hlen : l.reverse.length ≤ fuel := by simpa using hfuel
  rw [closestPrecedingFinger, last, List.rdropWhile, List.getLast?_reverse,
    ← List.find?_not_eq_head?_dropWhile]
  simp only [Bool.not_not]
  exact search_eq h.backward hlen

/-- The loop of `get_worst_passive_finger` finds what the loop over the list finds. -/
theorem worstPassiveLoop_eq (h : Path srv.flist.forward.links p l none) (hn : l.length ≤ n)
    (worst : Option (A × Finger)) (record : ℤ) :
  srv.worstPassiveLoop n p (worst.map Prod.fst) record
    = .ok ((ListedServer.worstPassiveLoop l worst record).map Prod.fst)
  := by
  induction l generalizing p n worst record with
  | nil =>
      cases h
      cases n <;> rfl
  | cons e l ih =>
      cases h with
      | cons cell rest =>
          rename_i a v r
          obtain ⟨c, hc, heq⟩ := Option.map_eq_some_iff.mp cell
          cases heq
          obtain ⟨n, rfl, hlen⟩ := List.exists_of_length_cons_le hn
          simp only [worstPassiveLoop, ListedServer.worstPassiveLoop, read_eq hc, Except.ok_bind]
          split
          · split
            · rfl
            · apply ih rest hlen (some (a, c.val))
          · apply ih rest hlen worst

theorem getWorstPassiveFinger_eq (h : srv.flist.Represents l) (hfuel : l.length ≤ fuel) :
  srv.getWorstPassiveFinger fuel
    = .ok ((ListedServer.worstPassiveLoop l none (-1)).map Prod.fst)
  := worstPassiveLoop_eq h.forward hfuel none (-1)

/-! ### Linking a finger in -/

section Writes

variable [DecidableEq A]

theorem writeNext_eq (h : (srv.flist.heap a).isSome) (q : Option A) :
  srv.writeNext (some a) q = .ok { srv with flist := srv.flist.setNext a q }
  := by
  obtain ⟨c, hc⟩ := Option.isSome_iff_exists.mp h
  rw [writeNext, read_eq hc]
  rfl

theorem writePrev_eq (h : (srv.flist.heap a).isSome) (q : Option A) :
  srv.writePrev (some a) q = .ok { srv with flist := srv.flist.setPrev a q }
  := by
  obtain ⟨c, hc⟩ := Option.isSome_iff_exists.mp h
  rw [writePrev, read_eq hc]
  rfl

theorem writeFinger_eq (h : (srv.flist.heap a).isSome) (u : Finger → Finger) :
  srv.writeFinger (some a) u = .ok { srv with flist := srv.flist.setVal a u }
  := by
  obtain ⟨c, hc⟩ := Option.isSome_iff_exists.mp h
  rw [writeFinger, read_eq hc]
  rfl

/-- The finger is told its neighbours before they are told of it. -/
theorem represents_setNext_setPrev (h : srv.flist.Represents l)
    (hnew : srv.flist.heap newF = some ⟨g, none, none⟩) (hfresh : ∀ e ∈ l, e.1 ≠ newF)
    (p q : Option A) :
  ((srv.flist.setNext newF p).setPrev newF q).Represents l ∧
    ((srv.flist.setNext newF p).setPrev newF q).heap newF = some ⟨g, p, q⟩
  := by
  constructor
  · apply Store.Represents.modify _ hfresh
    apply h.modify hfresh
  · simp [Store.setPrev, Store.setNext, hnew]

/-- `insertFront` puts the finger in front of a list with a first finger. -/
theorem exists_insertFront_eq (h : srv.flist.Represents ((b, v) :: l))
    (hnew : srv.flist.heap newF = some ⟨g, none, none⟩)
    (hfresh : ∀ e ∈ (b, v) :: l, e.1 ≠ newF) :
  ∃ flist, srv.insertFront newF = .ok { srv with flist := flist } ∧
    flist.Represents ((newF, g) :: (b, v) :: l)
  := by
  have hhead : srv.flist.head = some b := h.head_eq
  obtain ⟨hrep, hcell⟩ := represents_setNext_setPrev h hnew hfresh (some b) none
  have hnil : Store.Represents _ ([] ++ (b, v) :: l) := hrep
  have hb := hnil.cell_eq
  refine ⟨_, ?_, hnil.link hcell hfresh⟩
  rw [insertFront, writeNext_eq (by simp [hnew]), Except.ok_bind,
    writePrev_eq (by simp [Store.setNext, hnew]), Except.ok_bind]
  simp only [hhead, hrep.head_eq, first_cons]
  rw [writePrev_eq (by simp [hb])]
  rfl

/-- Linking a finger in before another, or at the end, is one write on the way back. -/
theorem insertBefore_eq (h : ∀ a, p = some a → (srv.flist.heap a).isSome) :
  srv.insertBefore p newF = .ok { srv with flist := srv.flist.linkPrev p (some newF) }
  := by
  cases p with
  | none => rfl
  | some a =>
      rw [insertBefore, if_pos (by simp), writePrev_eq (h a rfl)]
      rfl

/-- The writes of `insertBehind`, in the order in which a finger is linked in. -/
theorem setNext_setPrev_linkPrev (s : Store A Finger) (hp : ∀ a, p = some a → a ≠ b ∧ a ≠ newF) :
  ((s.linkPrev p (some newF)).setPrev newF (some b)).setNext b (some newF)
    = ((s.setPrev newF (some b)).linkNext (some b) (some newF)).linkPrev p (some newF)
  := by
  cases p with
  | none => rfl
  | some a =>
      obtain ⟨hb, hnew⟩ := hp a rfl
      simp only [Store.linkPrev, Store.linkNext, Store.setPrev, Store.setNext]
      rw [Store.modify_comm hnew, Store.modify_comm hb]

/-- `insertBehind` puts the finger right behind `b`. -/
theorem exists_insertBehind_eq (h : srv.flist.Represents (l₁ ++ (b, v) :: l₂))
    (hnew : srv.flist.heap newF = some ⟨g, none, none⟩)
    (hfresh : ∀ e ∈ l₁ ++ (b, v) :: l₂, e.1 ≠ newF) :
  ∃ flist, srv.insertBehind b newF = .ok { srv with flist := flist } ∧
    flist.Represents (l₁ ++ (b, v) :: (newF, g) :: l₂)
  := by
  have hnext : ∀ a, first l₂ = some a → a ≠ b ∧ a ≠ newF ∧ (srv.flist.heap a).isSome := by
    intro a ha
    obtain ⟨w, hw⟩ := exists_mem_of_first_eq ha
    have hmem : (a, w) ∈ l₁ ++ (b, v) :: l₂ := by
      simp [hw]
    exact ⟨h.ne_of_mem (List.mem_append_right l₁ hw), hfresh _ hmem, h.isSome_of_mem hmem⟩
  obtain ⟨hrep, hcell⟩ := represents_setNext_setPrev h hnew hfresh (first l₂) (some b)
  rw [List.append_cons] at hrep
  have hlink := hrep.link (by simpa using hcell) (by simpa using hfresh)
  rw [last_concat] at hlink
  refine ⟨_, ?_, by simpa using hlink⟩
  have hmid : (srv.flist.setNext newF (first l₂)).Represents (l₁ ++ (b, v) :: l₂) :=
    h.modify hfresh _
  rw [insertBehind, read_of_represents h, Except.ok_bind, writeNext_eq (by simp [hnew]),
    Except.ok_bind, read_of_represents hmid, Except.ok_bind,
    insertBefore_eq (by simpa using fun a ha => (hnext a ha).2.2), Except.ok_bind,
    writePrev_eq (by simp [hnew]), Except.ok_bind, writeNext_eq (by simp [h.cell_eq])]
  rw [setNext_setPrev_linkPrev _ fun a ha => ⟨(hnext a ha).1, (hnext a ha).2.1⟩]

/-- `fingerlist_insert` puts the finger right behind the last finger that precedes it, or in
front. -/
theorem exists_fingerlistInsert_eq (h : srv.flist.Represents l) (hfuel : l.length ≤ fuel)
    (hnew : srv.flist.heap newF = some ⟨g, none, none⟩) (hfresh : ∀ e ∈ l, e.1 ≠ newF) :
  ∃ flist, srv.fingerlistInsert fuel newF = .ok { srv with flist := flist } ∧
    flist.Represents
      (insertBehindLast (fun e => idIsBetween e.2.node.id srv.members.node.id g.node.id)
        (newF, g) l)
  := by
  rw [fingerlistInsert]
  cases l with
  | nil =>
      have hnil : srv.flist.Represents ([] ++ []) := h
      rw [if_pos (by simp [h.head_eq])]
      exact ⟨_, rfl, hnil.link hnew hfresh⟩
  | cons e l =>
      rw [if_neg (by simp [h.head_eq]), read_eq hnew, Except.ok_bind,
        closestPrecedingFinger_eq h hfuel, Except.ok_bind, insertBehindLast]
      have hl : (e :: l).rdropWhile _ ++ (e :: l).rtakeWhile
          (fun e => !idIsBetween e.2.node.id srv.members.node.id g.node.id) = e :: l :=
        List.rdropWhile_append_rtakeWhile
      generalize (e :: l).rdropWhile _ = l₁ at hl ⊢
      generalize (e :: l).rtakeWhile _ = l₂ at hl ⊢
      rcases List.eq_nil_or_concat' l₁ with rfl | ⟨l₀, ⟨b, w⟩, rfl⟩
      · rw [List.nil_append] at hl
        subst hl
        apply exists_insertFront_eq h hnew hfresh
      · rw [← hl, List.append_assoc] at h hfresh
        rw [last_concat, List.append_assoc]
        apply exists_insertBehind_eq h hnew hfresh

/-! ### Taking a finger out -/

theorem unlinkHead_of_ne (h : srv.flist.head ≠ some f) :
  srv.unlinkHead f = .ok srv
  := if_neg h

theorem unlinkTail_of_ne (h : srv.flist.tail ≠ some f) :
  srv.unlinkTail f = .ok srv
  := if_neg h

/-- The only finger leaves no first finger. -/
theorem unlinkHead_of_alone (h : srv.flist.head = some f)
    (hcell : srv.flist.heap f = some ⟨v, none, q⟩) :
  srv.unlinkHead f = .ok { srv with flist := srv.flist.linkNext none none }
  := by
  rw [unlinkHead, if_pos h, read_eq hcell, Except.ok_bind]
  rfl

/-- The first finger hands its place to the finger behind it. -/
theorem unlinkHead_of_next (h : srv.flist.head = some f)
    (hcell : srv.flist.heap f = some ⟨v, some a, q⟩) (ha : (srv.flist.heap a).isSome) :
  srv.unlinkHead f = .ok { srv with
    flist := (srv.flist.linkNext none (some a)).linkPrev (some a) none }
  := by
  rw [unlinkHead, if_pos h, read_eq hcell, Except.ok_bind]
  simp only [ne_eq, reduceCtorEq, not_false_eq_true, if_true]
  exact writePrev_eq (by exact ha) none

/-- The only finger leaves no last finger. -/
theorem unlinkTail_of_alone (h : srv.flist.tail = some f)
    (hcell : srv.flist.heap f = some ⟨v, q, none⟩) :
  srv.unlinkTail f = .ok { srv with flist := srv.flist.linkPrev none none }
  := by
  rw [unlinkTail, if_pos h, read_eq hcell, Except.ok_bind]
  rfl

/-- The last finger hands its place to the finger before it. -/
theorem unlinkTail_of_prev (h : srv.flist.tail = some f)
    (hcell : srv.flist.heap f = some ⟨v, q, some a⟩) (ha : (srv.flist.heap a).isSome) :
  srv.unlinkTail f = .ok { srv with
    flist := (srv.flist.linkNext (some a) none).linkPrev none (some a) }
  := by
  rw [unlinkTail, if_pos h, read_eq hcell, Except.ok_bind]
  simp only [ne_eq, reduceCtorEq, not_false_eq_true, if_true]
  exact writeNext_eq (by exact ha) none

/-- A finger with neighbours on both sides is taken out from between them. -/
theorem unlinkInner_eq (hcell : srv.flist.heap f = some ⟨v, some b, some a⟩) (ha : a ≠ f)
    (hb : (srv.flist.heap b).isSome) (ha' : (srv.flist.heap a).isSome) :
  srv.unlinkInner f = .ok { srv with
    flist := (srv.flist.linkNext (some a) (some b)).linkPrev (some b) (some a) }
  := by
  have hcell' : (srv.flist.setNext a (some b)).heap f = some ⟨v, some b, some a⟩ := by
    rw [Store.setNext, Store.heap_modify_of_ne ha.symm, hcell]
  rw [unlinkInner, read_eq hcell, Except.ok_bind, writeNext_eq ha', Except.ok_bind,
    read_eq hcell', Except.ok_bind, writePrev_eq (by simpa using hb)]
  rfl

/-- `unlink` takes the finger out, wherever it is in the list. -/
theorem unlink_eq (h : srv.flist.Represents (l₁ ++ (f, v) :: l₂)) :
  srv.unlink f = .ok { srv with
    flist := (srv.flist.linkNext (last l₁) (first l₂)).linkPrev (first l₂) (last l₁) }
  := by
  have hcell := h.cell_eq
  have hhead := h.head_eq_iff
  have htail := h.tail_eq_iff
  have hnext : ∀ a, first l₂ = some a → (srv.flist.heap a).isSome := by
    intro a ha
    obtain ⟨w, hw⟩ := exists_mem_of_first_eq ha
    apply h.isSome_of_mem (v := w)
    simp [hw]
  have hprev : ∀ a, last l₁ = some a → (srv.flist.heap a).isSome := by
    intro a ha
    obtain ⟨w, hw⟩ := exists_mem_of_last_eq ha
    apply h.isSome_of_mem (v := w)
    simp [hw]
  rw [unlink]
  -- The finger is the first if nothing is before it, and the last if nothing is behind it.
  rcases List.eq_nil_or_concat' l₁ with rfl | ⟨l₀, b, rfl⟩
  · rw [if_neg (by simp [hhead])]
    cases l₂ with
    | nil =>
        rw [unlinkHead_of_alone (hhead.mpr rfl) hcell, Except.ok_bind]
        exact unlinkTail_of_alone (by exact htail.mpr rfl) (by exact hcell)
    | cons e l₂ =>
        rw [unlinkHead_of_next (hhead.mpr rfl) hcell (hnext e.1 rfl), Except.ok_bind]
        exact unlinkTail_of_ne (by exact htail.not.mpr (by simp))
  · rw [last_concat] at hcell hprev ⊢
    cases l₂ with
    | nil =>
        rw [if_neg (by simp [htail]), unlinkHead_of_ne (hhead.not.mpr (by simp)), Except.ok_bind,
          unlinkTail_of_prev (htail.mpr rfl) hcell (hprev b.1 rfl)]
        rfl
    | cons e l₂ =>
        have hne : b.1 ≠ f := h.disjoint (x := b) (by simp) List.mem_cons_self
        rw [if_pos (by simp [hhead, htail])]
        apply unlinkInner_eq hcell hne (hnext e.1 rfl) (hprev b.1 rfl)

end Writes

end HeapServer

end Tangent

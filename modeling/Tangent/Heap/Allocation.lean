import Tangent.Heap.Loops

/-!
# Allocation

Only `new_finger` uses memory that was free: the other functions on the finger list write to
fingers that are there, and `remove_finger` frees the one it takes out.  So an insertion finds no
memory only if the allocator has no address for it, or one that is in use.
-/

namespace Tangent

open DoublyLinked

namespace HeapServer

variable {A : Type} {srv srv' srv'' : HeapServer A} {a b f newF : A} {p q pred : Option A}

/-- There is a finger at the address. -/
def InUse (srv : HeapServer A) (a : A) : Prop :=
  (srv.flist.heap a).isSome

/-- All memory in use is in use in the other. -/
def Within (srv' srv : HeapServer A) : Prop :=
  ∀ a, srv'.InUse a → srv.InUse a

theorem Within.refl (srv : HeapServer A) :
  srv.Within srv
  := fun _ h => h

theorem Within.trans (h : srv''.Within srv') (h' : srv'.Within srv) :
  srv''.Within srv
  := fun a ha => h' a (h a ha)

section Writes

variable [DecidableEq A]

/-! ### Writes -/

theorem within_modify (members : ChordServer) (flist : Store A Finger) (a : A)
    (u : Cell A Finger → Cell A Finger) :
  (HeapServer.mk members (flist.modify a u)).Within ⟨members, flist⟩
  := by
  intro b hb
  rwa [InUse, Store.isSome_heap_modify] at hb

theorem within_of_writeNext_eq (h : srv.writeNext p q = .ok srv') :
  srv'.Within srv
  := by
  cases p with
  | none => cases h
  | some a =>
      obtain ⟨c, -, rfl⟩ := Except.map_eq_ok.mp h
      apply within_modify

theorem within_of_writePrev_eq (h : srv.writePrev p q = .ok srv') :
  srv'.Within srv
  := by
  cases p with
  | none => cases h
  | some a =>
      obtain ⟨c, -, rfl⟩ := Except.map_eq_ok.mp h
      apply within_modify

theorem within_of_writeFinger_eq {u : Finger → Finger} (h : srv.writeFinger p u = .ok srv') :
  srv'.Within srv
  := by
  cases p with
  | none => cases h
  | some a =>
      obtain ⟨c, -, rfl⟩ := Except.map_eq_ok.mp h
      apply within_modify

/-! ### Linking a finger in -/

theorem within_of_insertFront_eq (h : srv.insertFront newF = .ok srv') :
  srv'.Within srv
  := by
  obtain ⟨srv₁, h₁, h⟩ := Except.bind_eq_ok.mp h
  obtain ⟨srv₂, h₂, h⟩ := Except.bind_eq_ok.mp h
  obtain ⟨srv₃, h₃, h⟩ := Except.bind_eq_ok.mp h
  cases h
  have hwrites := (within_of_writePrev_eq h₃).trans
    ((within_of_writePrev_eq h₂).trans (within_of_writeNext_eq h₁))
  exact hwrites

theorem within_of_insertBefore_eq (h : srv.insertBefore p newF = .ok srv') :
  srv'.Within srv
  := by
  rw [insertBefore] at h
  split at h
  · apply within_of_writePrev_eq h
  · cases h
    exact .refl _

theorem within_of_insertBehind_eq (h : srv.insertBehind b newF = .ok srv') :
  srv'.Within srv
  := by
  obtain ⟨c, -, h⟩ := Except.bind_eq_ok.mp h
  obtain ⟨srv₁, h₁, h⟩ := Except.bind_eq_ok.mp h
  obtain ⟨c', -, h⟩ := Except.bind_eq_ok.mp h
  obtain ⟨srv₂, h₂, h⟩ := Except.bind_eq_ok.mp h
  obtain ⟨srv₃, h₃, h⟩ := Except.bind_eq_ok.mp h
  apply (within_of_writeNext_eq h).trans
  apply (within_of_writePrev_eq h₃).trans
  apply (within_of_insertBefore_eq h₂).trans (within_of_writeNext_eq h₁)

variable {fuel : ℕ}

theorem within_of_fingerlistInsert_eq (h : srv.fingerlistInsert fuel newF = .ok srv') :
  srv'.Within srv
  := by
  rw [fingerlistInsert] at h
  split at h
  · cases h
    exact .refl _
  · obtain ⟨c, -, h⟩ := Except.bind_eq_ok.mp h
    obtain ⟨prec, -, h⟩ := Except.bind_eq_ok.mp h
    cases prec with
    | none => apply within_of_insertFront_eq h
    | some prec => apply within_of_insertBehind_eq h

/-! ### Taking a finger out -/

theorem within_of_unlinkInner_eq (h : srv.unlinkInner f = .ok srv') :
  srv'.Within srv
  := by
  obtain ⟨c, -, h⟩ := Except.bind_eq_ok.mp h
  obtain ⟨srv₁, h₁, h⟩ := Except.bind_eq_ok.mp h
  obtain ⟨c', -, h⟩ := Except.bind_eq_ok.mp h
  apply (within_of_writePrev_eq h).trans (within_of_writeNext_eq h₁)

theorem within_of_unlinkHead_eq (h : srv.unlinkHead f = .ok srv') :
  srv'.Within srv
  := by
  rw [unlinkHead] at h
  split at h
  · obtain ⟨c, -, h⟩ := Except.bind_eq_ok.mp h
    simp only at h
    split at h
    · have hwrite := within_of_writePrev_eq h
      exact hwrite
    · cases h
      exact .refl _
  · cases h
    exact .refl _

theorem within_of_unlinkTail_eq (h : srv.unlinkTail f = .ok srv') :
  srv'.Within srv
  := by
  rw [unlinkTail] at h
  split at h
  · obtain ⟨c, -, h⟩ := Except.bind_eq_ok.mp h
    simp only at h
    split at h
    · have hwrite := within_of_writeNext_eq h
      exact hwrite
    · cases h
      exact .refl _
  · cases h
    exact .refl _

theorem within_of_unlink_eq (h : srv.unlink f = .ok srv') :
  srv'.Within srv
  := by
  rw [unlink] at h
  split at h
  · apply within_of_unlinkInner_eq h
  · obtain ⟨srv₁, h₁, h⟩ := Except.bind_eq_ok.mp h
    apply (within_of_unlinkTail_eq h).trans (within_of_unlinkHead_eq h₁)

theorem flist_of_refreshRange_eq (h : srv.refreshRange fuel pred = .ok srv') :
  srv'.flist = srv.flist
  := by
  obtain ⟨pf, -, h⟩ := Except.bind_eq_ok.mp h
  split at h
  · cases pf with
    | none =>
        cases h
        rfl
    | some pf =>
        obtain ⟨c, -, h⟩ := Except.bind_eq_ok.mp h
        cases h
        rfl
  · cases h
    rfl

/-- `remove_finger` frees the finger. -/
theorem within_of_removeFinger_eq (h : srv.removeFinger fuel f = .ok srv') :
  srv'.Within srv ∧ ¬ srv'.InUse f
  := by
  obtain ⟨c, -, h⟩ := Except.bind_eq_ok.mp h
  obtain ⟨pred, -, h⟩ := Except.bind_eq_ok.mp h
  obtain ⟨srv₁, h₁, h⟩ := Except.bind_eq_ok.mp h
  obtain ⟨srv₂, h₂, h⟩ := Except.bind_eq_ok.mp h
  cases h
  constructor
  · intro a ha
    apply within_of_unlink_eq h₁
    rw [InUse, free, Store.put, flist_of_refreshRange_eq h₂] at ha
    by_cases haf : a = f
    · subst haf
      simp at ha
    · rw [InUse]
      simpa [haf] using ha
  · simp [InUse, free, Store.put]

/-! ### Inserting a finger -/

theorem within_of_evictPassive_eq (h : srv.evictPassive fuel = .ok srv') :
  srv'.Within srv
  := by
  rw [evictPassive] at h
  split at h
  · obtain ⟨worst, -, h⟩ := Except.bind_eq_ok.mp h
    cases worst with
    | none => cases h
    | some worst => exact (within_of_removeFinger_eq h).1
  · cases h
    exact .refl _

/-- `new_finger` puts a finger into the memory the allocator chooses, if that is free. -/
theorem newFinger_eq_ok {choice : Option A} {node : Node} :
  srv.newFinger choice node = .ok (srv', newF) ↔
    choice = some newF ∧ ¬ srv.InUse newF ∧
      srv' = { srv with
        flist := srv.flist.put newF (some ⟨Tangent.newFinger node, none, none⟩) }
  := by
  cases choice with
  | none => simp [HeapServer.newFinger]
  | some b =>
      rw [HeapServer.newFinger]
      cases hb : srv.flist.heap b with
      | some c =>
          simp only [reduceCtorEq, false_iff, not_and, Option.some.injEq]
          rintro rfl hfree
          simp [InUse, hb] at hfree
      | none =>
          simp only [Except.ok.injEq, Prod.mk.injEq, Option.some.injEq]
          constructor
          · rintro ⟨rfl, rfl⟩
            exact ⟨rfl, by simp [InUse, hb], rfl⟩
          · rintro ⟨rfl, -, rfl⟩
            exact ⟨rfl, rfl⟩

/-! ### Out of memory -/

variable {t : ListedServer A} {choice : Option A} {L : Library}

/-- Making room takes no memory. -/
theorem Refines.evictPassive_ne_noMemory (h : srv.Refines t) (hfuel : t.fingers.length ≤ fuel) :
  srv.evictPassive fuel ≠ .error .noMemory
  := by
  rw [HeapServer.evictPassive]
  split
  · rw [getWorstPassiveFinger_eq h.flist hfuel, Except.ok_bind]
    cases hw : ListedServer.worstPassiveLoop t.fingers none (-1) with
    | none =>
        intro hfault
        cases hfault
    | some e =>
        obtain ⟨l₁, l₂, hl⟩ := List.append_of_mem
          ((ListedServer.mem_of_worstPassiveLoop_eq hw).resolve_right (by simp))
        obtain ⟨srv', hsrv', -⟩ := h.removeFinger hfuel hl
        simp only [Option.map_some, hsrv']
        intro hfault
        cases hfault
  · intro hfault
    cases hfault

/-- A new finger fits into memory that is free. -/
theorem Refines.insertNew_ne_noMemory (h : srv.Refines t) (hfuel : t.fingers.length ≤ fuel) {a : A}
    (hfree : ¬ srv.InUse a) (node : Node) :
  srv.insertNew fuel (some a) node ≠ .error .noMemory
  := by
  intro hins
  have hagrees := h.evictPassive hfuel
  rw [HeapServer.insertNew] at hins
  cases hevict : srv.evictPassive fuel with
  | error e =>
      rw [hevict] at hins
      cases hins
      exact h.evictPassive_ne_noMemory hfuel hevict
  | ok srv₁ =>
      rw [hevict] at hagrees hins
      obtain ⟨t₁, ht₁, h₁⟩ : ∃ t₁, t.evictPassive = .ok t₁ ∧ srv₁.Refines t₁ := by
        generalize t.evictPassive = y at hagrees
        cases hagrees with
        | ok h₁ => exact ⟨_, rfl, h₁⟩
      have hfree₁ : srv₁.flist.heap a = none := by
        simpa [InUse] using mt (within_of_evictPassive_eq hevict a) hfree
      have hfresh : ∀ e ∈ t₁.fingers, e.1 ≠ a := by
        rintro e he rfl
        have hsome := h₁.flist.isSome_of_mem he
        simp [hfree₁] at hsome
      have hnew : Refines
          { members := { srv₁.members with
              numPassiveFingers := srv₁.members.numPassiveFingers + 1 }
            flist := srv₁.flist.put a (some ⟨Tangent.newFinger node, none, none⟩) }
          (t₁.countPassive 1) := by
        refine ⟨?_, h₁.flist.put hfresh _⟩
        rw [ListedServer.countPassive, h₁.members]
      obtain ⟨srv₂, hsrv₂, -⟩ := hnew.fingerlistInsert (e := (a, Tangent.newFinger node))
        ((t.sublist_of_evictPassive_eq ht₁).length_le.trans hfuel) (by simp [Store.put]) hfresh
      simp only [Except.ok_bind, HeapServer.newFinger, hfree₁] at hins
      rw [hsrv₂] at hins
      cases hins

/-- There is no memory for a new finger if the address the allocator chooses is in use. -/
theorem Refines.inUse_of_noMemory (h : srv.Refines t) (hfuel : t.fingers.length ≤ fuel)
    {node : Node}
    (hins : srv.insertFinger fuel choice node.id node.addr node.port = .error .noMemory) :
  ∀ a, choice = some a → srv.InUse a
  := by
  rintro a rfl
  by_contra hfree
  rw [HeapServer.insertFinger] at hins
  split at hins
  · cases hins
  · rw [getFinger_eq h.flist hfuel, Except.ok_bind] at hins
    cases hget : ListedServer.getFinger ⟨srv.members, t.fingers⟩ node.id with
    | some e =>
        obtain ⟨l₁, l₂, hl⟩ := List.append_of_mem (List.mem_of_find?_eq_some hget)
        simp only [hget, Option.map_some, insertKnown, h.read_eq hl, Except.ok_bind] at hins
        split at hins
        · obtain ⟨srv', hsrv', -, -⟩ := h.writeFinger hl (replacePeer node.addr node.port)
          rw [hsrv'] at hins
          cases hins
        · cases hins
    | none =>
        rw [hget] at hins
        exact h.insertNew_ne_noMemory hfuel hfree node hins

end Writes

end HeapServer

end Tangent

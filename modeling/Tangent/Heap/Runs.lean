import Tangent.Heap.Allocation

/-!
# Runs on the heap

Every run of operations on a heap that represents a list goes like the run on the list: it ends in a
heap that represents the list the other ends in, or where the other ends, at a failed assertion, or
it runs out of memory, at an operation for which the allocator has none that is free.  No pointer
that is `NULL` or freed is ever used, and every loop ends.
-/

namespace Tangent

open DoublyLinked

namespace ListedServer

variable {A : Type} [DecidableEq A] (t : ListedServer A)

theorem length_acceptPong (e : A × Finger) (newRtt : ℤ) :
  (t.acceptPong e newRtt).fingers.length = t.fingers.length
  := by
  rw [acceptPong, fingers_refreshRange, activateFinger]
  split
  · simp [countPassive]
  · simp

theorem length_pingLoop_le (L : Library) (io : Io) (es : List (A × Finger)) (i : ℕ)
    (st : PingState A) :
  (pingLoop L io es i st).srv.fingers.length ≤ st.srv.fingers.length
  := by
  induction es generalizing i st with
  | nil => exact le_refl _
  | cons e es ih =>
      rw [pingLoop]
      split
      · apply (ih ..).trans (length_removeFinger_le ..)
      · split
        · apply (ih ..).trans (length_modifyFinger ..).le
        · apply ih

/-- An operation adds one finger at most. -/
theorem length_le_of_step_eq {L : Library} {op : HeapServer.Op A} {t' : ListedServer A}
    (h : t.step L op = .ok t') :
  t'.fingers.length ≤ t.fingers.length + 1
  := by
  cases op with
  | insert choice node =>
      obtain ⟨u, hu, rfl⟩ := Except.map_eq_ok.mp h
      apply t.length_le_of_insertFinger_eq hu
  | pong choice node newRtt =>
      obtain ⟨⟨t₁, x⟩, hu, h⟩ := Except.bind_eq_ok.mp h
      have hlen := t.length_le_of_insertFinger_eq hu
      cases x with
      | none =>
          cases h
          exact hlen
      | some e =>
          cases h
          exact (length_acceptPong ..).le.trans hlen
  | ping io =>
      cases h
      have hlen := length_pingLoop_le L io t.fingers 0 ⟨t, [], none⟩
      exact hlen.trans (Nat.le_succ _)
  | clean =>
      cases h
      exact t.sublist_cleanFingerList.length_le.trans (Nat.le_succ _)

theorem fault_of_evictPassive_eq {e : HeapFault} (h : t.evictPassive = .error e) :
  e = .assertion
  := by
  rw [evictPassive] at h
  split at h
  · split at h
    · cases h
      rfl
    · cases h
  · cases h

theorem fault_of_insertFinger_eq {choice : Option A} {node : Node} {e : HeapFault}
    (h : t.insertFinger choice node = .error e) :
  e = .assertion ∨ e = .noMemory
  := by
  rw [insertFinger] at h
  split at h
  · cases h
  · split at h
    · split at h
      · cases h
      · cases h
    · rw [insertNew] at h
      cases hevict : t.evictPassive with
      | error e' =>
          rw [hevict] at h
          cases h
          exact .inl (t.fault_of_evictPassive_eq hevict)
      | ok t' =>
          rw [hevict, Except.ok_bind] at h
          cases choice with
          | none =>
              cases h
              exact .inr rfl
          | some a => cases h

/-- On lists, an operation fails at the assertion of `insert_finger` or for want of memory. -/
theorem fault_of_step_eq {L : Library} {op : HeapServer.Op A} {e : HeapFault}
    (h : t.step L op = .error e) :
  e = .assertion ∨ e = .noMemory
  := by
  cases op with
  | insert choice node =>
      rw [step] at h
      cases hins : t.insertFinger choice node with
      | error e' =>
          rw [hins] at h
          cases h
          apply t.fault_of_insertFinger_eq hins
      | ok u =>
          rw [hins] at h
          cases h
  | pong choice node newRtt =>
      rw [step, processPong] at h
      cases hins : t.insertFinger choice node with
      | error e' =>
          rw [hins] at h
          cases h
          apply t.fault_of_insertFinger_eq hins
      | ok u =>
          obtain ⟨t', x⟩ := u
          rw [hins, Except.ok_bind] at h
          cases x <;> cases h
  | ping io => cases h
  | clean => cases h

theorem fault_of_run_eq {L : Library} {ops : List (HeapServer.Op A)} {e : HeapFault}
    (h : t.run L ops = .error e) :
  e = .assertion ∨ e = .noMemory
  := by
  induction ops generalizing t with
  | nil => cases h
  | cons op ops ih =>
      rw [run, Machine.run] at h
      split at h
      · rename_i t' _
        apply ih t' h
      · rename_i e' hstep
        cases h
        apply t.fault_of_step_eq hstep

end ListedServer

namespace HeapServer

variable {A : Type} [DecidableEq A] {srv : HeapServer A} {t : ListedServer A} {fuel : ℕ}
  {L : Library}

/-- An operation on the heap goes like the operation on the list. -/
theorem Refines.step (h : srv.Refines t) (hfuel : t.fingers.length < fuel) (op : Op A) :
  Agrees Refines (srv.step fuel L op) (t.step L op)
  := by
  cases op with
  | insert choice node =>
      apply (h.insertFinger hfuel.le choice node).map
      intro r u hr
      exact hr.srv
  | pong choice node newRtt => apply h.processPong hfuel
  | ping io =>
      obtain ⟨srv', hsrv', href⟩ := h.ping hfuel.le L io
      rw [HeapServer.step, hsrv']
      exact .ok href
  | clean =>
      obtain ⟨srv', hsrv', href⟩ := h.cleanFingerList hfuel.le
      rw [HeapServer.step, hsrv']
      exact .ok href

/-- A run on the heap goes like the run on the list, if its loops may make a turn for each finger
there is and each that may be inserted. -/
theorem Refines.run {ops : List (Op A)} (h : srv.Refines t)
    (hfuel : t.fingers.length + ops.length ≤ fuel) :
  Agrees Refines (srv.run fuel L ops) (t.run L ops)
  := by
  induction ops generalizing srv t with
  | nil => exact .ok h
  | cons op ops ih =>
      rw [List.length_cons] at hfuel
      have hlen : t.fingers.length < fuel := by omega
      have hstep := h.step hlen (L := L) op
      rw [HeapServer.run, ListedServer.run, Machine.run, Machine.run]
      generalize srv.step fuel L op = x at hstep ⊢
      cases hy : t.step L op with
      | ok t' =>
          have hlen' := t.length_le_of_step_eq hy
          rw [hy] at hstep
          cases hstep with
          | ok h' => apply ih h' (by omega)
          | noMemory => exact .noMemory _
      | error e =>
          rw [hy] at hstep
          cases hstep with
          | error => exact .error e
          | noMemory => exact .noMemory _

/-- The operation inserts a finger, and the allocator chooses this address for it. -/
def Op.Allocates : Op A → Option A → Prop
  | .insert choice _, c => choice = c
  | .pong choice _ _, c => choice = c
  | .ping _, _ => False
  | .clean, _ => False

/-- Where a run of operations ends for want of memory: the allocator has no address for a finger, or
one that is in use. -/
def RunsOut (fuel : ℕ) (L : Library) (srv : HeapServer A) (ops : List (Op A)) : Prop :=
  ∃ srv₁ op choice, Machine.Meets (HeapServer.step fuel L) srv ops srv₁ op ∧
    op.Allocates choice ∧ ∀ a, choice = some a → srv₁.InUse a

/-- Behind the insertion `process_pong` takes no memory. -/
theorem Refines.processPong_ne_noMemory (h : srv.Refines t) (hfuel : t.fingers.length < fuel)
    {choice : Option A} {node : Node} {r : Inserted A}
    (hins : srv.insertFinger fuel choice node.id node.addr node.port = .ok r) (newRtt : ℤ) :
  srv.processPong fuel choice node newRtt ≠ .error .noMemory
  := by
  have hagrees := h.insertFinger hfuel.le choice node
  rw [HeapServer.processPong, hins, Except.ok_bind]
  rw [hins] at hagrees
  cases hy : t.insertFinger choice node with
  | error e =>
      rw [hy] at hagrees
      cases hagrees
  | ok u =>
      obtain ⟨t', x⟩ := u
      rw [hy] at hagrees
      obtain ⟨hsrv, hfinger⟩ : r.srv.Refines t' ∧ r.finger = x.map Prod.fst := by
        cases hagrees with
        | ok hr => exact ⟨hr.srv, hr.finger⟩
      cases x with
      | none =>
          rw [hfinger]
          intro hfault
          cases hfault
      | some e =>
          obtain ⟨l₁, l₂, hl⟩ := List.append_of_mem (t.mem_of_insertFinger_eq hy)
          have hlen := (t.length_le_of_insertFinger_eq hy).trans hfuel
          obtain ⟨srv', hsrv', -⟩ := hsrv.acceptPong hlen hl newRtt
          rw [hfinger]
          simp only [Option.map_some, hsrv']
          intro hfault
          cases hfault

/-- An operation finds no memory only at an address that is in use. -/
theorem Refines.exists_allocates (h : srv.Refines t) (hfuel : t.fingers.length < fuel) {op : Op A}
    (hop : srv.step fuel L op = .error .noMemory) :
  ∃ choice, op.Allocates choice ∧ ∀ a, choice = some a → srv.InUse a
  := by
  cases op with
  | insert choice node =>
      refine ⟨choice, rfl, ?_⟩
      rw [HeapServer.step] at hop
      cases hins : srv.insertFinger fuel choice node.id node.addr node.port with
      | ok r =>
          rw [hins] at hop
          cases hop
      | error e =>
          rw [hins] at hop
          cases hop
          exact h.inUse_of_noMemory hfuel.le hins
  | pong choice node newRtt =>
      refine ⟨choice, rfl, ?_⟩
      cases hins : srv.insertFinger fuel choice node.id node.addr node.port with
      | ok r => exact absurd hop (h.processPong_ne_noMemory hfuel hins newRtt)
      | error e =>
          rw [HeapServer.step, HeapServer.processPong, hins] at hop
          cases hop
          exact h.inUse_of_noMemory hfuel.le hins
  | ping io =>
      obtain ⟨srv', hsrv', -⟩ := h.ping hfuel.le L io
      rw [HeapServer.step, hsrv'] at hop
      cases hop
  | clean =>
      obtain ⟨srv', hsrv', -⟩ := h.cleanFingerList hfuel.le
      rw [HeapServer.step, hsrv'] at hop
      cases hop

/-- A run ends for want of memory only where an operation finds none. -/
theorem Refines.runsOut {ops : List (Op A)} (h : srv.Refines t)
    (hfuel : t.fingers.length + ops.length ≤ fuel)
    (hrun : srv.run fuel L ops = .error .noMemory) :
  RunsOut fuel L srv ops
  := by
  induction ops generalizing srv t with
  | nil => cases hrun
  | cons op ops ih =>
      rw [List.length_cons] at hfuel
      have hlen : t.fingers.length < fuel := by omega
      have hstep := h.step hlen (L := L) op
      rw [HeapServer.run, Machine.run] at hrun
      cases hx : srv.step fuel L op with
      | error e =>
          rw [hx] at hrun
          cases hrun
          obtain ⟨choice, hchoice, huse⟩ := h.exists_allocates hlen hx
          exact ⟨srv, op, choice, Machine.meets_cons_iff.mpr (.inl ⟨rfl, rfl⟩), hchoice, huse⟩
      | ok srv₁ =>
          rw [hx] at hrun hstep
          obtain ⟨t₁, ht₁, h₁⟩ : ∃ t₁, t.step L op = .ok t₁ ∧ srv₁.Refines t₁ := by
            generalize t.step L op = y at hstep
            cases hstep with
            | ok h₁ => exact ⟨_, rfl, h₁⟩
          have hlen₁ := t.length_le_of_step_eq ht₁
          obtain ⟨srv₂, op', choice, hmeets, hrest⟩ := ih h₁ (by omega) hrun
          exact ⟨srv₂, op', choice, Machine.meets_cons_iff.mpr (.inr ⟨srv₁, hx, hmeets⟩), hrest⟩

variable {l : List (A × Finger)}

/-- On a heap that represents a list, `fingerlist_insert` and `remove_finger` leave heaps that
represent the list with the new finger right behind the closest preceding finger, or in front, and
the list without the removed finger; and so on for any operations, which leave the list the same
operations on lists leave, unless the process ends at an assertion, where the run on the list ends
too, or at an operation for which the allocator has no memory that is free. -/
theorem represents_insert_remove_run (h : srv.flist.Represents l) (hfuel : l.length ≤ fuel) :
  (∀ newF g, srv.flist.heap newF = some ⟨g, none, none⟩ → (∀ e ∈ l, e.1 ≠ newF) →
    ∃ srv' l₁ l₂, srv.fingerlistInsert fuel newF = .ok srv' ∧
      srv.closestPrecedingFinger fuel g.node.id true = .ok (last l₁) ∧ l = l₁ ++ l₂ ∧
      srv'.flist.Represents (l₁ ++ (newF, g) :: l₂)) ∧
    (∀ l₁ f v l₂, l = l₁ ++ (f, v) :: l₂ →
      ∃ srv', srv.removeFinger fuel f = .ok srv' ∧ srv'.flist.Represents (l₁ ++ l₂)) ∧
    ∀ L ops, l.length + ops.length ≤ fuel →
      (∃ srv' t', srv.run fuel L ops = .ok srv' ∧
        ListedServer.run L ⟨srv.members, l⟩ ops = .ok t' ∧ srv'.members = t'.members ∧
        srv'.flist.Represents t'.fingers) ∨
      (srv.run fuel L ops = .error .assertion ∧
        ListedServer.run L ⟨srv.members, l⟩ ops = .error .assertion) ∨
      (srv.run fuel L ops = .error .noMemory ∧ RunsOut fuel L srv ops)
  := by
  have href : srv.Refines ⟨srv.members, l⟩ := ⟨rfl, h⟩
  refine ⟨?_, ?_, ?_⟩
  · intro newF g hnew hfresh
    obtain ⟨flist, hins, hrep⟩ := exists_fingerlistInsert_eq h hfuel hnew hfresh
    exact ⟨_, _, _, hins, closestPrecedingFinger_eq h hfuel g.node.id,
      List.rdropWhile_append_rtakeWhile.symm, hrep⟩
  · rintro l₁ f v l₂ rfl
    obtain ⟨srv', hsrv', hout⟩ := href.removeFinger (e := (f, v)) hfuel rfl
    have hfingers := ListedServer.fingers_removeFinger_eq _ href.nodup (e := (f, v)) rfl
    refine ⟨srv', hsrv', ?_⟩
    rw [← hfingers]
    exact hout.flist
  · intro L ops hops
    have hrun := href.run (L := L) hops
    cases hx : srv.run fuel L ops with
    | ok srv' =>
        rw [hx] at hrun
        generalize ListedServer.run L ⟨srv.members, l⟩ ops = y at hrun ⊢
        cases hrun with
        | ok h' => exact .inl ⟨srv', _, rfl, rfl, h'.members, h'.flist⟩
    | error e =>
        rw [hx] at hrun
        by_cases hmem : e = .noMemory
        · subst hmem
          exact .inr (.inr ⟨rfl, href.runsOut hops hx⟩)
        · cases hy : ListedServer.run L ⟨srv.members, l⟩ ops with
          | ok t' =>
              rw [hy] at hrun
              cases hrun
              exact absurd rfl hmem
          | error e' =>
              rw [hy] at hrun
              cases hrun with
              | error =>
                  obtain rfl := (ListedServer.fault_of_run_eq _ hy).resolve_right hmem
                  exact .inr (.inl ⟨rfl, rfl⟩)
              | noMemory => exact absurd rfl hmem

/-- A finger at distance `2 ^ k` from the identifier `0`. -/
def sampleFinger (k : ℕ) : Finger :=
  Tangent.newFinger ⟨chordIdSuccessor 0 k, 0, 1⟩

/-- A server with fingers at the addresses `0` and `1`, and one at `2` that is not linked in. -/
def sampleHeap : HeapServer ℕ where
  members := newServer ⟨[], true, 1, []⟩
  flist :=
    { head := some 0
      tail := some 1
      heap := fun
        | 0 => some ⟨sampleFinger 0, some 1, none⟩
        | 1 => some ⟨sampleFinger 2, none, some 0⟩
        | 2 => some ⟨sampleFinger 1, none, none⟩
        | _ => none }

theorem sampleHeap_represents :
  sampleHeap.flist.Represents [(0, sampleFinger 0), (1, sampleFinger 2)]
  := by
  constructor
  · exact .cons rfl (.cons rfl (.nil none))
  · exact .cons rfl (.cons rfl (.nil none))

/-- A finger is inserted at the free address `3`, and the list is cleaned. -/
def sampleOps : List (Op ℕ) :=
  [.insert (some 3) ⟨chordIdSuccessor 0 4, 0, 2⟩, .clean]

/-- The finger at `2` goes between the two others, behind the one at `0`, and the first finger can
be removed.  The operations leave the two fingers and the new one. -/
theorem represents_insert_remove_run_sample :
  sampleHeap.flist.Represents [(0, sampleFinger 0), (1, sampleFinger 2)] ∧
    (∃ srv' l₁ l₂, sampleHeap.fingerlistInsert 4 2 = .ok srv' ∧
      sampleHeap.closestPrecedingFinger 4 (sampleFinger 1).node.id true = .ok (last l₁) ∧
      [(0, sampleFinger 0), (1, sampleFinger 2)] = l₁ ++ l₂ ∧
      srv'.flist.Represents (l₁ ++ (2, sampleFinger 1) :: l₂)) ∧
    sampleHeap.closestPrecedingFinger 4 (sampleFinger 1).node.id true = .ok (some 0) ∧
    (∃ srv', sampleHeap.removeFinger 4 0 = .ok srv' ∧
      srv'.flist.Represents ([] ++ [(1, sampleFinger 2)])) ∧
    ∃ (srv' : HeapServer ℕ) (t' : ListedServer ℕ),
      sampleHeap.run 4 sampleLibrary sampleOps = .ok srv' ∧
      srv'.flist.Represents t'.fingers ∧ t'.fingers.map Prod.fst = [0, 1, 3]
  := by
  have h := represents_insert_remove_run sampleHeap_represents (show 2 ≤ 4 by decide)
  refine ⟨sampleHeap_represents, h.1 2 (sampleFinger 1) rfl (by simp), by decide, ?_, ?_⟩
  · exact h.2.1 [] 0 (sampleFinger 0) [(1, sampleFinger 2)] rfl
  · have hlist : (ListedServer.run sampleLibrary
        ⟨sampleHeap.members, [(0, sampleFinger 0), (1, sampleFinger 2)]⟩ sampleOps).toOption.map
          (fun t => t.fingers.map Prod.fst) = some [0, 1, 3] := by decide +kernel
    have hheap : (sampleHeap.run 4 sampleLibrary sampleOps).toOption.isSome = true := by
      decide +kernel
    rcases h.2.2 sampleLibrary sampleOps (by decide) with
      ⟨srv', t', hsrv', ht', -, hrep⟩ | ⟨hfault, -⟩ | ⟨hfault, -⟩
    · rw [ht'] at hlist
      exact ⟨srv', t', hsrv', hrep, Option.some.inj hlist⟩
    · rw [hfault] at hheap
      cases hheap
    · rw [hfault] at hheap
      cases hheap

end HeapServer

end Tangent

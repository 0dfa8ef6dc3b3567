import Tangent.Heap.Links

/-!
# The heap refines the list

A heap server refines a server with a list if the heap represents the list and the other members
agree.  Each function on the heap, started in such a pair, succeeds when its counterpart on lists
does and leaves such a pair (`Agrees`), given that its loops may make as many turns as there are
fingers.  So does every run, in which the list grows by at most one finger an operation.
-/

namespace Tangent

open DoublyLinked

/-- A computation on the heap and one on lists end alike: with related values or with the same
fault.  The one on the heap may also run out of memory. -/
inductive Agrees {α β : Type} (R : α → β → Prop) :
    Except HeapFault α → Except HeapFault β → Prop where
  | ok {a : α} {b : β} (h : R a b) : Agrees R (.ok a) (.ok b)
  | error (e : HeapFault) : Agrees R (.error e) (.error e)
  | noMemory (y : Except HeapFault β) : Agrees R (.error .noMemory) y

/-- Computations that go on alike after related values end alike. -/
theorem Agrees.bind {α β γ δ : Type} {R : α → β → Prop} {S : γ → δ → Prop}
    {x : Except HeapFault α} {y : Except HeapFault β} {k : α → Except HeapFault γ}
    {k' : β → Except HeapFault δ} (h : Agrees R x y)
    (hk : ∀ a b, y = .ok b → R a b → Agrees S (k a) (k' b)) :
  Agrees S (x >>= k) (y >>= k')
  := by
  cases h with
  | ok hab => apply hk _ _ rfl hab
  | error e => exact .error e
  | noMemory y => exact .noMemory _

theorem Agrees.map {α β γ δ : Type} {R : α → β → Prop} {S : γ → δ → Prop}
    {x : Except HeapFault α} {y : Except HeapFault β} {g : α → γ} {g' : β → δ} (h : Agrees R x y)
    (hg : ∀ a b, R a b → S (g a) (g' b)) :
  Agrees S (x.map g) (y.map g')
  := by
  cases h with
  | ok hab => exact .ok (hg _ _ hab)
  | error e => exact .error e
  | noMemory y => exact .noMemory _

namespace ListedServer

variable {A : Type} [DecidableEq A] (t : ListedServer A)

@[simp]
theorem fingers_refreshRange (pred : Option A) :
  (t.refreshRange pred).fingers = t.fingers
  := by
  rw [refreshRange]
  split
  · rfl
  · rfl

theorem fingers_removeFinger (e : A × Finger) :
  (t.removeFinger e).fingers = t.fingers.eraseP fun x => x.1 = e.1
  := by
  rw [removeFinger, fingers_refreshRange]
  split
  · rfl
  · rfl

variable {l₁ l₂ : List (A × Finger)} {e : A × Finger}

omit [DecidableEq A] in
/-- In a list without repeated addresses, no other finger has the address of a finger. -/
theorem ne_of_mem (h : (t.fingers.map Prod.fst).Nodup) (hl : t.fingers = l₁ ++ e :: l₂)
    {x : A × Finger} (hx : x ∈ l₁ ++ l₂) :
  x.1 ≠ e.1
  := by
  rw [hl, List.map_append, List.map_cons, List.nodup_middle, List.nodup_cons,
    ← List.map_append] at h
  intro hxe
  exact h.1 (List.mem_map.mpr ⟨x, hx, hxe⟩)

theorem fingers_unlink (h : (t.fingers.map Prod.fst).Nodup) (hl : t.fingers = l₁ ++ e :: l₂) :
  (t.unlink e.1).fingers = l₁ ++ l₂
  := by
  have hne : ∀ x ∈ l₁, ¬ (decide (x.1 = e.1) = true) := by
    intro x hx
    simpa using t.ne_of_mem h hl (List.mem_append_left l₂ hx)
  rw [unlink, hl, List.eraseP_append_right _ hne]
  simp

/-- `remove_finger` leaves the other fingers. -/
theorem fingers_removeFinger_eq (h : (t.fingers.map Prod.fst).Nodup)
    (hl : t.fingers = l₁ ++ e :: l₂) :
  (t.removeFinger e).fingers = l₁ ++ l₂
  := by
  rw [fingers_removeFinger]
  exact t.fingers_unlink h hl

/-- A change of a finger leaves the other fingers as they are. -/
theorem fingers_modifyFinger (h : (t.fingers.map Prod.fst).Nodup)
    (hl : t.fingers = l₁ ++ e :: l₂) (u : Finger → Finger) :
  (t.modifyFinger e.1 u).fingers = l₁ ++ (e.1, u e.2) :: l₂
  := by
  have hsame : ∀ l ⊆ l₁ ++ l₂, l.map (fun x => if x.1 = e.1 then (x.1, u x.2) else x) = l := by
    intro l hsub
    apply List.map_congr_left (g := id) _ |>.trans (List.map_id l)
    intro x hx
    rw [if_neg (t.ne_of_mem h hl (hsub hx)), id]
  rw [modifyFinger, hl, List.map_append, List.map_cons, hsame l₁ (by simp),
    hsame l₂ (by simp), if_pos rfl]

/-- `activate_finger` leaves the finger active, at its place. -/
theorem exists_fingers_activateFinger (h : (t.fingers.map Prod.fst).Nodup)
    (hl : t.fingers = l₁ ++ e :: l₂) :
  ∃ f : Finger, (t.activateFinger e).fingers = l₁ ++ (e.1, f) :: l₂ ∧ f.isActive ∧
    f.node = e.2.node
  := by
  rw [activateFinger]
  cases hpass : e.2.isPassive with
  | true =>
      refine ⟨{ e.2 with status := .active }, ?_, rfl, rfl⟩
      exact (t.countPassive (-1)).fingers_modifyFinger h hl fun f => { f with status := .active }
  | false =>
      refine ⟨e.2, hl, ?_, rfl⟩
      rw [← Finger.not_isActive, Bool.not_eq_false'] at hpass
      exact hpass

theorem sublist_removeFinger (e : A × Finger) :
  (t.removeFinger e).fingers.Sublist t.fingers
  := by
  rw [fingers_removeFinger]
  apply List.eraseP_sublist

theorem length_removeFinger_le (e : A × Finger) :
  (t.removeFinger e).fingers.length ≤ t.fingers.length
  := (t.sublist_removeFinger e).length_le

omit [DecidableEq A] in
theorem mem_of_worstPassiveLoop_eq {l : List (A × Finger)} {worst : Option (A × Finger)} {n : ℤ}
    {e : A × Finger} (h : worstPassiveLoop l worst n = some e) :
  e ∈ l ∨ worst = some e
  := by
  induction l generalizing worst n with
  | nil => exact .inr h
  | cons x l ih =>
      rw [worstPassiveLoop] at h
      split at h
      · split at h
        · cases h
          exact .inl List.mem_cons_self
        · rcases ih h with hl | hx
          · exact .inl (List.mem_cons_of_mem x hl)
          · cases hx
            exact .inl List.mem_cons_self
      · rcases ih h with hl | hw
        · exact .inl (List.mem_cons_of_mem x hl)
        · exact .inr hw

/-- Making room removes one finger at most. -/
theorem sublist_of_evictPassive_eq {t' : ListedServer A} (h : t.evictPassive = .ok t') :
  t'.fingers.Sublist t.fingers
  := by
  rw [evictPassive] at h
  split at h
  · cases hw : worstPassiveLoop t.fingers none (-1) with
    | none =>
        rw [hw] at h
        cases h
    | some e =>
        rw [hw] at h
        cases h
        apply sublist_removeFinger
  · cases h
    exact .refl _

@[simp]
theorem length_modifyFinger (a : A) (u : Finger → Finger) :
  (t.modifyFinger a u).fingers.length = t.fingers.length
  := by
  simp [modifyFinger]

omit [DecidableEq A] in
theorem length_fingerlistInsert (e : A × Finger) :
  (t.fingerlistInsert e).fingers.length = t.fingers.length + 1
  := by
  have hl := congrArg List.length (List.rdropWhile_append_rtakeWhile
    (p := fun g => !idIsBetween g.2.node.id t.members.node.id e.2.node.id) (l := t.fingers))
  rw [List.length_append] at hl
  rw [fingerlistInsert, insertBehindLast, List.length_append, List.length_cons]
  omega

omit [DecidableEq A] in
theorem mem_fingerlistInsert (e : A × Finger) :
  e ∈ (t.fingerlistInsert e).fingers
  := by
  rw [fingerlistInsert, insertBehindLast]
  exact List.mem_append_right _ List.mem_cons_self

/-- What `insert_finger` does: nothing for the server itself, nothing for a finger of the list but a
change of its peer, and else it puts a new finger into the list. -/
theorem insertFinger_cases {choice : Option A} {node : Node}
    {u : ListedServer A × Option (A × Finger)} (h : t.insertFinger choice node = .ok u) :
  u = (t, none) ∨
    (∃ e ∈ t.fingers, u = (t, some e)) ∨
    (∃ e ∈ t.fingers, u = (t.modifyFinger e.1 (replacePeer node.addr node.port),
      some (e.1, replacePeer node.addr node.port e.2))) ∨
    (∃ t' a, t.getFinger node.id = none ∧ t.evictPassive = .ok t' ∧ choice = some a ∧
      u = ((t'.countPassive 1).fingerlistInsert (a, newFinger node), some (a, newFinger node)))
  := by
  rw [insertFinger] at h
  split at h
  · cases h
    exact .inl rfl
  · cases hget : t.getFinger node.id with
    | some e =>
        have he : e ∈ t.fingers := List.mem_of_find?_eq_some hget
        simp only [hget] at h
        split at h
        · cases h
          exact .inr (.inr (.inl ⟨e, he, rfl⟩))
        · cases h
          exact .inr (.inl ⟨e, he, rfl⟩)
    | none =>
        simp only [hget] at h
        obtain ⟨t', ht', h⟩ := Except.bind_eq_ok.mp h
        cases choice with
        | none => cases h
        | some a =>
            cases h
            exact .inr (.inr (.inr ⟨t', a, rfl, ht', rfl, rfl⟩))

/-- The list grows by one finger at most. -/
theorem length_le_of_insertFinger_eq {choice : Option A} {node : Node}
    {u : ListedServer A × Option (A × Finger)} (h : t.insertFinger choice node = .ok u) :
  u.1.fingers.length ≤ t.fingers.length + 1
  := by
  obtain rfl | ⟨e, -, rfl⟩ | ⟨e, -, rfl⟩ | ⟨t', a, -, ht', -, rfl⟩ := t.insertFinger_cases h
  · apply Nat.le_succ
  · apply Nat.le_succ
  · apply (length_modifyFinger ..).le.trans (Nat.le_succ _)
  · have hlen := (t.sublist_of_evictPassive_eq ht').length_le
    simp only [length_fingerlistInsert, countPassive]
    omega

/-- The finger `insert_finger` returns is in the list. -/
theorem mem_of_insertFinger_eq {choice : Option A} {node : Node} {t' : ListedServer A}
    (h : t.insertFinger choice node = .ok (t', some e)) :
  e ∈ t'.fingers
  := by
  obtain hu | ⟨x, hx, hu⟩ | ⟨x, hx, hu⟩ | ⟨t₁, a, -, -, -, hu⟩ := t.insertFinger_cases h
  · cases hu
  · cases hu
    exact hx
  · cases hu
    apply List.mem_map.mpr
    exact ⟨x, hx, if_pos rfl⟩
  · cases hu
    apply mem_fingerlistInsert

end ListedServer

namespace HeapServer

variable {A : Type}

/-- The heap represents the list, and the other members agree. -/
structure Refines (srv : HeapServer A) (t : ListedServer A) : Prop where
  members : srv.members = t.members
  flist : srv.flist.Represents t.fingers

/-- The servers `insert_finger` leaves behind are related, and so are what it returns. -/
structure Inserted.Refines (r : Inserted A) (u : ListedServer A × Option (A × Finger)) :
    Prop where
  srv : r.srv.Refines u.1
  finger : r.finger = u.2.map Prod.fst

variable {srv : HeapServer A} {t : ListedServer A} {e : A × Finger} {fuel : ℕ}
  {l₁ l₂ : List (A × Finger)}

namespace Refines

theorem nodup (h : srv.Refines t) :
  (t.fingers.map Prod.fst).Nodup
  := h.flist.nodup

/-- A finger of the list is read with its neighbours. -/
theorem read_eq (h : srv.Refines t) (hl : t.fingers = l₁ ++ e :: l₂) :
  srv.read (some e.1) = .ok ⟨e.2, first l₂, last l₁⟩
  := by
  have hrep := h.flist
  rw [hl] at hrep
  apply read_of_represents hrep

theorem exists_read_eq (h : srv.Refines t) (he : e ∈ t.fingers) :
  ∃ c, srv.read (some e.1) = .ok c ∧ c.val = e.2
  := by
  obtain ⟨l₁, l₂, hl⟩ := List.append_of_mem he
  exact ⟨_, h.read_eq hl, rfl⟩

theorem predFinger_eq (h : srv.Refines t) (hfuel : t.fingers.length ≤ fuel) :
  srv.predFinger fuel = .ok (t.predFinger.map Prod.fst)
  := HeapServer.predFinger_eq h.flist hfuel

/-- There is one passive finger less. -/
theorem countPassive (h : srv.Refines t) :
  Refines { srv with members := { srv.members with
    numPassiveFingers := srv.members.numPassiveFingers - 1 } } (t.countPassive (-1))
  := by
  refine ⟨?_, h.flist⟩
  rw [ListedServer.countPassive, h.members, sub_eq_add_neg]

variable [DecidableEq A]

/-- The range is brought up to date with the last active finger. -/
theorem refreshRange (h : srv.Refines t) (hfuel : t.fingers.length ≤ fuel) (pred : Option A) :
  ∃ srv', srv.refreshRange fuel pred = .ok srv' ∧ srv'.Refines (t.refreshRange pred)
  := by
  rw [HeapServer.refreshRange, h.predFinger_eq hfuel, Except.ok_bind, ListedServer.refreshRange]
  split
  · cases hpred : t.predFinger with
    | none =>
        refine ⟨_, rfl, ?_, h.flist⟩
        rw [ListedServer.updateRange, hpred, h.members]
        rfl
    | some e =>
        obtain ⟨l₁, l₂, hl⟩ := List.append_of_mem
          (List.mem_reverse.mp (List.mem_of_find?_eq_some hpred))
        simp only [Option.map_some, h.read_eq hl, Except.ok_bind]
        refine ⟨_, rfl, ?_, h.flist⟩
        rw [ListedServer.updateRange, hpred, h.members]
        rfl
  · exact ⟨_, rfl, h⟩

/-- The part of `remove_finger` behind the count of passive fingers. -/
theorem unlink (h : srv.Refines t) (hfuel : t.fingers.length ≤ fuel)
    (hl : t.fingers = l₁ ++ e :: l₂) (pred : Option A) :
  ∃ srv', (do
      let srv ← srv.unlink e.1
      let srv ← srv.refreshRange fuel pred
      return srv.free e.1) = .ok srv' ∧ srv'.Refines ((t.unlink e.1).refreshRange pred)
  := by
  have hrep := h.flist
  rw [hl] at hrep
  have hfingers := t.fingers_unlink h.nodup hl
  have hmid : Refines { srv with
      flist := (srv.flist.linkNext (last l₁) (first l₂)).linkPrev (first l₂) (last l₁) }
      (t.unlink e.1) := by
    refine ⟨h.members, ?_⟩
    rw [hfingers]
    exact hrep.unlink
  have hlen : (t.unlink e.1).fingers.length ≤ fuel := by
    rw [hl, List.length_append, List.length_cons] at hfuel
    rw [hfingers, List.length_append]
    omega
  obtain ⟨srv', hsrv', href⟩ := hmid.refreshRange hlen pred
  refine ⟨srv'.free e.1, ?_, href.members, ?_⟩
  · rw [unlink_eq hrep, Except.ok_bind, hsrv']
    rfl
  · apply href.flist.put
    intro x hx
    rw [ListedServer.fingers_refreshRange, hfingers] at hx
    apply hrep.ne_of_mem hx

/-- `remove_finger` takes the finger out of the list. -/
theorem removeFinger (h : srv.Refines t) (hfuel : t.fingers.length ≤ fuel)
    (hl : t.fingers = l₁ ++ e :: l₂) :
  ∃ srv', srv.removeFinger fuel e.1 = .ok srv' ∧ srv'.Refines (t.removeFinger e)
  := by
  rw [HeapServer.removeFinger, h.read_eq hl, Except.ok_bind, ListedServer.removeFinger]
  cases hpass : e.2.isPassive with
  | true =>
      have hcount := h.countPassive
      simp only [if_true]
      rw [hcount.predFinger_eq hfuel, Except.ok_bind]
      apply hcount.unlink hfuel hl
  | false =>
      simp only [Bool.false_eq_true, if_false]
      rw [h.predFinger_eq hfuel, Except.ok_bind]
      apply h.unlink hfuel hl

/-- Making room for a passive finger. -/
theorem evictPassive (h : srv.Refines t) (hfuel : t.fingers.length ≤ fuel) :
  Agrees Refines (srv.evictPassive fuel) t.evictPassive
  := by
  rw [HeapServer.evictPassive, ListedServer.evictPassive, h.members]
  split
  · rw [getWorstPassiveFinger_eq h.flist hfuel, Except.ok_bind]
    cases hw : ListedServer.worstPassiveLoop t.fingers none (-1) with
    | none => exact .error _
    | some e =>
        obtain ⟨l₁, l₂, hl⟩ := List.append_of_mem
          ((ListedServer.mem_of_worstPassiveLoop_eq hw).resolve_right (by simp))
        obtain ⟨srv', hsrv', href⟩ := h.removeFinger hfuel hl
        simp only [Option.map_some, hsrv']
        exact .ok href
  · exact .ok h

/-- A change of a finger that is no change of links. -/
theorem writeFinger (h : srv.Refines t) (hl : t.fingers = l₁ ++ e :: l₂) (u : Finger → Finger) :
  ∃ srv', srv.writeFinger (some e.1) u = .ok srv' ∧ srv'.Refines (t.modifyFinger e.1 u) ∧
    (t.modifyFinger e.1 u).fingers = l₁ ++ (e.1, u e.2) :: l₂
  := by
  have hrep := h.flist
  rw [hl] at hrep
  have hfingers := t.fingers_modifyFinger h.nodup hl u
  refine ⟨_, writeFinger_eq (by simp [hrep.cell_eq]) u, ⟨h.members, ?_⟩, hfingers⟩
  rw [hfingers]
  apply hrep.setVal

/-- `fingerlist_insert` links in a finger that is not in the list. -/
theorem fingerlistInsert (h : srv.Refines t) (hfuel : t.fingers.length ≤ fuel)
    (hnew : srv.flist.heap e.1 = some ⟨e.2, none, none⟩) (hfresh : ∀ x ∈ t.fingers, x.1 ≠ e.1) :
  ∃ srv', srv.fingerlistInsert fuel e.1 = .ok srv' ∧ srv'.Refines (t.fingerlistInsert e)
  := by
  obtain ⟨flist, hins, hrep⟩ := exists_fingerlistInsert_eq h.flist hfuel hnew hfresh
  refine ⟨_, hins, h.members, ?_⟩
  rw [h.members] at hrep
  exact hrep

/-- A new finger in fresh memory. -/
theorem insertNew (h : srv.Refines t) (hfuel : t.fingers.length ≤ fuel) (choice : Option A)
    (node : Node) :
  Agrees Inserted.Refines (srv.insertNew fuel choice node) (t.insertNew choice node)
  := by
  rw [HeapServer.insertNew, ListedServer.insertNew]
  apply (h.evictPassive hfuel).bind
  intro srv' t' ht' h'
  have hlen := (t.sublist_of_evictPassive_eq ht').length_le.trans hfuel
  cases choice with
  | none => exact .error _
  | some a =>
      simp only [HeapServer.newFinger]
      cases hfree : srv'.flist.heap a with
      | some c => exact .noMemory _
      | none =>
          have hfresh : ∀ e ∈ t'.fingers, e.1 ≠ a := by
            rintro e he rfl
            have hsome := h'.flist.isSome_of_mem he
            simp [hfree] at hsome
          have hnew : Refines
              { members := { srv'.members with
                  numPassiveFingers := srv'.members.numPassiveFingers + 1 }
                flist := srv'.flist.put a (some ⟨Tangent.newFinger node, none, none⟩) }
              (t'.countPassive 1) := by
            refine ⟨?_, h'.flist.put hfresh _⟩
            rw [ListedServer.countPassive, h'.members]
          obtain ⟨srv₁, hsrv₁, href⟩ := hnew.fingerlistInsert (e := (a, Tangent.newFinger node))
            hlen (by simp [Store.put]) hfresh
          rw [Except.ok_bind, hsrv₁]
          exact .ok ⟨href, rfl⟩

/-- `insert_finger`. -/
theorem insertFinger (h : srv.Refines t) (hfuel : t.fingers.length ≤ fuel) (choice : Option A)
    (node : Node) :
  Agrees Inserted.Refines (srv.insertFinger fuel choice node.id node.addr node.port)
    (t.insertFinger choice node)
  := by
  rw [HeapServer.insertFinger, ListedServer.insertFinger, h.members]
  split
  · exact .ok ⟨h, rfl⟩
  · rw [getFinger_eq h.flist hfuel, Except.ok_bind, h.members]
    cases hget : t.getFinger node.id with
    | none => apply h.insertNew hfuel
    | some e =>
        obtain ⟨l₁, l₂, hl⟩ := List.append_of_mem (List.mem_of_find?_eq_some hget)
        simp only [Option.map_some, insertKnown, h.read_eq hl, Except.ok_bind]
        split
        · obtain ⟨srv', hsrv', href, -⟩ := h.writeFinger hl (replacePeer node.addr node.port)
          rw [hsrv']
          exact .ok ⟨href, rfl⟩
        · exact .ok ⟨h, rfl⟩

/-- `activate_finger` of the heap and of the list. -/
theorem activateFinger (h : srv.Refines t) (hl : t.fingers = l₁ ++ e :: l₂) :
  ∃ srv', srv.activateFinger e.1 = .ok srv' ∧ srv'.Refines (t.activateFinger e)
  := by
  rw [HeapServer.activateFinger, h.read_eq hl, Except.ok_bind, ListedServer.activateFinger]
  split
  · obtain ⟨srv', hsrv', href, -⟩ :=
      h.countPassive.writeFinger hl fun f => { f with status := .active }
    exact ⟨srv', hsrv', href⟩
  · exact ⟨srv, rfl, h⟩

/-- With an active finger in the list, the assertion of `process_pong` holds. -/
theorem refreshPred (h : srv.Refines t) (hfuel : t.fingers.length ≤ fuel)
    (hactive : ∃ x ∈ t.fingers, x.2.isActive) (pred : Option A) :
  ∃ srv', srv.refreshPred fuel pred = .ok srv' ∧ srv'.Refines (t.refreshRange pred)
  := by
  rw [HeapServer.refreshPred, h.predFinger_eq hfuel, Except.ok_bind, ListedServer.refreshRange]
  cases hpred : t.predFinger with
  | none =>
      obtain ⟨x, hx, hact⟩ := hactive
      rw [ListedServer.predFinger, List.find?_eq_none] at hpred
      exact absurd hact (hpred x (List.mem_reverse.mpr hx))
  | some e =>
      obtain ⟨l₁, l₂, hl⟩ := List.append_of_mem
        (List.mem_reverse.mp (List.mem_of_find?_eq_some hpred))
      simp only [Option.map_some, h.read_eq hl, Except.ok_bind]
      split
      · refine ⟨_, rfl, ?_, h.flist⟩
        rw [ListedServer.updateRange, hpred, h.members]
        rfl
      · exact ⟨_, rfl, h⟩

/-- A pong changes the finger and the range. -/
theorem acceptPong (h : srv.Refines t) (hfuel : t.fingers.length ≤ fuel)
    (hl : t.fingers = l₁ ++ e :: l₂) (newRtt : ℤ) :
  ∃ srv', srv.acceptPong fuel e.1 newRtt = .ok srv' ∧ srv'.Refines (t.acceptPong e newRtt)
  := by
  obtain ⟨srv₁, hsrv₁, h₁, hl₁⟩ := h.writeFinger hl (refreshFinger newRtt)
  obtain ⟨srv₂, hsrv₂, h₂⟩ := h₁.activateFinger (e := (e.1, refreshFinger newRtt e.2)) hl₁
  obtain ⟨f, hl₂, hf, -⟩ := ListedServer.exists_fingers_activateFinger _ h₁.nodup hl₁
  rw [hl, List.length_append, List.length_cons] at hfuel
  rw [HeapServer.acceptPong, hsrv₁, Except.ok_bind,
    h₁.predFinger_eq (by simpa [hl₁] using hfuel), Except.ok_bind, hsrv₂, Except.ok_bind]
  apply h₂.refreshPred (by simpa [hl₂] using hfuel)
  exact ⟨(e.1, f), by simp [hl₂], hf⟩

/-- `process_pong`, behind the check of the ticket. -/
theorem processPong (h : srv.Refines t) (hfuel : t.fingers.length < fuel) (choice : Option A)
    (node : Node) (newRtt : ℤ) :
  Agrees Refines (srv.processPong fuel choice node newRtt) (t.processPong choice node newRtt)
  := by
  rw [HeapServer.processPong, ListedServer.processPong]
  apply (h.insertFinger hfuel.le choice node).bind
  rintro r ⟨t', x⟩ hr ⟨hsrv, hfinger⟩
  cases x with
  | none =>
      rw [hfinger]
      exact .ok hsrv
  | some e =>
      rw [hfinger]
      obtain ⟨l₁, l₂, hl⟩ := List.append_of_mem (t.mem_of_insertFinger_eq hr)
      have hlen : t'.fingers.length ≤ fuel := (t.length_le_of_insertFinger_eq hr).trans hfuel
      obtain ⟨srv', hsrv', href⟩ := hsrv.acceptPong hlen hl newRtt
      simp only [Option.map_some, hsrv']
      exact .ok href

end Refines

end HeapServer

end Tangent

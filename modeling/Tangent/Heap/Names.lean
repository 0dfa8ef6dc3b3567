import Tangent.Heap.Runs

/-!
# Pointers and identifiers

`Model.Finger` tells the fingers of a list apart by their identifiers, where the code compares
pointers.  While no two fingers of a list share an identifier, that makes no difference: forgetting
the addresses takes each function on lists with addresses to the function of that name in
`Model.Finger`, `Model.Process` and `Model.Stabilize`.
-/

namespace Tangent

open DoublyLinked

namespace ListedServer

variable {A : Type}

/-- The server without the addresses of its fingers. -/
def forget (t : ListedServer A) : ChordServer :=
  { t.members with flist := t.fingers.map Prod.snd }

theorem flist_forget (t : ListedServer A) :
  t.forget.flist = t.fingers.map Prod.snd
  := rfl

/-- No two fingers of the list share an address or an identifier. -/
structure Named (t : ListedServer A) : Prop where
  addresses : (t.fingers.map Prod.fst).Nodup
  ids : (t.fingers.map fun e => e.2.node.id).Nodup

variable {t : ListedServer A} {e x y : A × Finger} {l l₁ l₂ : List (A × Finger)}

/-- Fingers of a list have the same address if and only if they have the same identifier. -/
theorem Named.addr_eq_iff (h : t.Named) (hx : x ∈ t.fingers) (hy : y ∈ t.fingers) :
  x.1 = y.1 ↔ x.2.node.id = y.2.node.id
  := by
  constructor
  · intro hxy
    rw [List.inj_on_of_nodup_map h.addresses hx hy hxy]
  · intro hxy
    rw [List.inj_on_of_nodup_map h.ids hx hy hxy]

theorem Named.of_sublist {t' : ListedServer A} (h : t.Named)
    (hsub : t'.fingers.Sublist t.fingers) :
  t'.Named
  := ⟨h.addresses.sublist (hsub.map _), h.ids.sublist (hsub.map _)⟩

/-- The identifiers left and right of a finger are not its own. -/
theorem Named.id_ne (h : t.Named) (hl : t.fingers = l₁ ++ e :: l₂) (hx : x ∈ l₁ ++ l₂) :
  x.2.node.id ≠ e.2.node.id
  := by
  have hne := t.ne_of_mem h.addresses hl hx
  rwa [ne_eq, h.addr_eq_iff (by rw [hl]; simp at hx ⊢; tauto) (by simp [hl])] at hne

/-! ### Searches -/

theorem predFinger_forget :
  Tangent.predFinger t.forget = t.predFinger.map Prod.snd
  := by
  rw [Tangent.predFinger, predFinger, forget, ← List.map_reverse, List.find?_map]
  rfl

theorem getFinger_forget (id : ChordID) :
  Tangent.getFinger t.forget id = (t.getFinger id).map Prod.snd
  := by
  rw [Tangent.getFinger, getFinger, forget, List.find?_map]
  rfl

theorem worstPassiveLoop_map (worst : Option (A × Finger)) (n : ℤ) :
  Tangent.worstPassiveLoop (l.map Prod.snd) (worst.map Prod.snd) n
    = (worstPassiveLoop l worst n).map Prod.snd
  := by
  induction l generalizing worst n with
  | nil => rfl
  | cons e l ih =>
      simp only [List.map_cons, Tangent.worstPassiveLoop, worstPassiveLoop]
      split
      · split
        · rfl
        · apply ih (some e)
      · apply ih

/-- The last finger before an identifier ends the part of the list behind which a finger with that
identifier goes. -/
theorem closestPrecedingFinger_forget (id : ChordID) :
  Tangent.closestPrecedingFinger t.forget id true
    = (t.fingers.rdropWhile fun e =>
        !idIsBetween e.2.node.id t.members.node.id id).getLast?.map Prod.snd
  := by
  rw [Tangent.closestPrecedingFinger, forget, ← List.map_reverse, List.find?_map,
    List.rdropWhile, List.getLast?_reverse, ← List.find?_not_eq_head?_dropWhile]
  simp only [Bool.not_not]
  rfl

/-! ### Changes of the list -/

variable [DecidableEq A]

theorem unlink_forget (h : t.Named) (he : e ∈ t.fingers) :
  (t.unlink e.1).forget = unlinkFinger t.forget e.2.node.id
  := by
  obtain ⟨l₁, l₂, hl⟩ := List.append_of_mem he
  have hne : ∀ f ∈ l₁.map Prod.snd, ¬ (decide (f.node.id = e.2.node.id) = true) := by
    intro f hf
    obtain ⟨x, hx, rfl⟩ := List.mem_map.mp hf
    simpa using h.id_ne hl (List.mem_append_left l₂ hx)
  rw [forget, t.fingers_unlink h.addresses hl, unlinkFinger, forget, hl, List.map_append,
    List.map_append, List.map_cons, List.eraseP_append_right _ hne]
  simp [unlink]

theorem modifyFinger_forget (h : t.Named) (he : e ∈ t.fingers) (u : Finger → Finger) :
  (t.modifyFinger e.1 u).forget = Tangent.modifyFinger t.forget e.2.node.id u
  := by
  simp only [forget, modifyFinger, Tangent.modifyFinger, List.map_map]
  congr 1
  apply List.map_congr_left
  intro x hx
  simp only [Function.comp_apply, h.addr_eq_iff hx he]
  split
  · rfl
  · rfl

/-- The range is updated for the same predecessors. -/
theorem refreshRange_forget {pred : Option (A × Finger)}
    (hpred : ∀ x, pred = some x → ∀ y ∈ t.fingers, x.1 = y.1 ↔ x.2.node.id = y.2.node.id) :
  (t.refreshRange (pred.map Prod.fst)).forget
    = Tangent.refreshRange t.forget (pred.map Prod.snd)
  := by
  have hiff : pred.map Prod.fst = t.predFinger.map Prod.fst ↔
      (pred.map Prod.snd).map (·.node.id) = (Tangent.predFinger t.forget).map (·.node.id) := by
    rw [predFinger_forget]
    cases hp : t.predFinger with
    | none => cases pred <;> simp
    | some y =>
        have hy := List.mem_reverse.mp (List.mem_of_find?_eq_some hp)
        cases pred with
        | none => simp
        | some x => simpa using hpred x rfl y hy
  rw [refreshRange, Tangent.refreshRange]
  simp only [ne_eq, hiff]
  split
  · rw [updateRange, predFinger_forget]
    cases t.predFinger with
    | none => rfl
    | some y => rfl
  · rfl

theorem removeFinger_forget (h : t.Named) (he : e ∈ t.fingers) :
  (t.removeFinger e).forget = Tangent.removeFinger t.forget e.2
  := by
  have hrest : ∀ t : ListedServer A, t.Named → e ∈ t.fingers →
      ((t.unlink e.1).refreshRange (t.predFinger.map Prod.fst)).forget
        = Tangent.refreshRange (unlinkFinger t.forget e.2.node.id)
          (Tangent.predFinger t.forget) := by
    intro t h he
    rw [refreshRange_forget, unlink_forget h he, predFinger_forget]
    intro x hx y hy
    apply h.addr_eq_iff
    · exact List.mem_reverse.mp (List.mem_of_find?_eq_some hx)
    · exact List.mem_of_mem_eraseP hy
  rw [removeFinger, Tangent.removeFinger]
  cases hpass : e.2.isPassive with
  | true => exact hrest (t.countPassive (-1)) ⟨h.addresses, h.ids⟩ he
  | false => exact hrest t h he

theorem Named.removeFinger (h : t.Named) (e : A × Finger) :
  (t.removeFinger e).Named
  := h.of_sublist (t.sublist_removeFinger e)

theorem addresses_modifyFinger (t : ListedServer A) (a : A) (u : Finger → Finger) :
  (t.modifyFinger a u).fingers.map Prod.fst = t.fingers.map Prod.fst
  := by
  simp only [modifyFinger, List.map_map]
  apply List.map_congr_left
  intro x _
  simp only [Function.comp_apply]
  split
  · rfl
  · rfl

/-- A change of a finger that keeps its identifier. -/
theorem Named.modifyFinger (h : t.Named) (a : A) {u : Finger → Finger}
    (hu : ∀ f, (u f).node.id = f.node.id) :
  (t.modifyFinger a u).Named
  := by
  have hids : ((t.modifyFinger a u).fingers.map fun e => e.2.node.id)
      = t.fingers.map fun e => e.2.node.id := by
    simp only [ListedServer.modifyFinger, List.map_map]
    apply List.map_congr_left
    intro x _
    simp only [Function.comp_apply]
    split
    · apply hu
    · rfl
  constructor
  · rw [addresses_modifyFinger]
    exact h.addresses
  · rw [hids]
    exact h.ids

omit [DecidableEq A] in
/-- The finger behind which a new one goes is found by its identifier. -/
theorem fingerlistInsert_forget (h : t.Named) (e : A × Finger) :
  (t.fingerlistInsert e).forget = Tangent.fingerlistInsert t.forget e.2
  := by
  have hl : t.fingers.rdropWhile _ ++ t.fingers.rtakeWhile
      (fun g => !idIsBetween g.2.node.id t.members.node.id e.2.node.id) = t.fingers :=
    List.rdropWhile_append_rtakeWhile
  rw [forget, fingerlistInsert, insertBehindLast, Tangent.fingerlistInsert,
    closestPrecedingFinger_forget]
  generalize t.fingers.rdropWhile _ = l₁ at hl ⊢
  generalize t.fingers.rtakeWhile _ = l₂ at hl ⊢
  rcases List.eq_nil_or_concat' l₁ with rfl | ⟨l₀, b, rfl⟩
  · rw [List.nil_append] at hl
    subst hl
    split
    · rename_i hnil
      have hnil' : t.fingers = [] := List.map_eq_nil_iff.mp hnil
      simp [forget, hnil']
    · rfl
  · rw [List.append_assoc] at hl
    have hflist : t.forget.flist = l₀.map Prod.snd ++ b.2 :: l₂.map Prod.snd := by
      simp [forget, ← hl]
    have hids : ∀ f ∈ l₀.map Prod.snd, f.node.id ≠ b.2.node.id := by
      intro f hf
      obtain ⟨x, hx, rfl⟩ := List.mem_map.mp hf
      apply h.id_ne hl.symm (List.mem_append_left l₂ hx)
    rw [if_neg (by simp [hflist]), List.getLast?_concat, Option.map_some]
    simp only [hflist, insertAfter_append hids]
    simp [forget]

/-! ### Inserting a finger -/

/-- The passive finger that is evicted. -/
theorem evictPassive_forget (h : t.Named) :
  Tangent.evictPassive t.forget
    = match t.evictPassive with
      | .ok t' => .ok t'.forget
      | .error _ => .error .assertion
  := by
  have hworst : Tangent.getWorstPassiveFinger t.forget
      = (worstPassiveLoop t.fingers none (-1)).map Prod.snd := worstPassiveLoop_map none (-1)
  rw [Tangent.evictPassive, evictPassive, hworst]
  by_cases hmax : maxPassiveFingers ≤ t.members.numPassiveFingers
  · rw [if_pos hmax, if_pos (show maxPassiveFingers ≤ t.forget.numPassiveFingers from hmax)]
    cases hw : worstPassiveLoop t.fingers none (-1) with
    | none => rfl
    | some e =>
        have he := (mem_of_worstPassiveLoop_eq hw).resolve_right (by simp)
        simp only [Option.map_some, removeFinger_forget h he]
  · rw [if_neg hmax, if_neg (show ¬ maxPassiveFingers ≤ t.forget.numPassiveFingers from hmax)]

theorem Named.evictPassive {t' : ListedServer A} (h : t.Named) (ht : t.evictPassive = .ok t') :
  t'.Named
  := h.of_sublist (t.sublist_of_evictPassive_eq ht)

/-- What `insert_finger` leaves behind, without addresses. -/
theorem insertFinger_forget {choice : Option A} {node : Node}
    {u : ListedServer A × Option (A × Finger)} (h : t.Named)
    (hu : t.insertFinger choice node = .ok u) :
  ∃ fnew, Tangent.insertFinger t.forget node.id node.addr node.port
    = .ok ⟨u.1.forget, u.2.map (·.2.node.id), fnew⟩
  := by
  rw [insertFinger] at hu
  rw [Tangent.insertFinger, getFinger_forget]
  by_cases hself : v6AddrEquals t.members.node.addr node.addr ∧ t.members.node.port = node.port
  · rw [if_pos hself] at hu
    cases hu
    exact ⟨none, if_pos hself⟩
  · rw [if_neg hself] at hu
    rw [if_neg (by exact hself)]
    cases hget : t.getFinger node.id with
    | some e =>
        have he : e ∈ t.fingers := List.mem_of_find?_eq_some hget
        simp only [hget] at hu
        simp only [Option.map_some]
        split at hu
        · rename_i haddr
          cases hu
          use some false
          rw [if_pos haddr, modifyFinger_forget h he]
          rfl
        · rename_i haddr
          cases hu
          use some false
          rw [if_neg haddr]
          rfl
    | none =>
        simp only [hget, insertNew] at hu
        obtain ⟨t', ht', hu⟩ := Except.bind_eq_ok.mp hu
        cases choice with
        | none => cases hu
        | some a =>
            cases hu
            use some true
            have hcount : (t'.countPassive 1).Named :=
              ⟨(h.evictPassive ht').addresses, (h.evictPassive ht').ids⟩
            have hins := fingerlistInsert_forget hcount (a, newFinger node)
            simp only [Option.map_none, evictPassive_forget h, ht', Except.ok_bind]
            rw [hins]
            rfl

/-- Where there is no finger to evict, there is none without addresses. -/
theorem insertFinger_forget_error {choice : Option A} {node : Node} (h : t.Named)
    (hu : t.insertFinger choice node = .error .assertion) :
  Tangent.insertFinger t.forget node.id node.addr node.port = .error .assertion
  := by
  rw [insertFinger] at hu
  rw [Tangent.insertFinger, getFinger_forget]
  by_cases hself : v6AddrEquals t.members.node.addr node.addr ∧ t.members.node.port = node.port
  · rw [if_pos hself] at hu
    cases hu
  · rw [if_neg hself] at hu
    rw [if_neg (by exact hself)]
    cases hget : t.getFinger node.id with
    | some e =>
        simp only [hget] at hu
        split at hu
        · cases hu
        · cases hu
    | none =>
        simp only [hget, insertNew] at hu
        simp only [Option.map_none, evictPassive_forget h]
        cases hevict : t.evictPassive with
        | error e => rfl
        | ok t' =>
            rw [hevict, Except.ok_bind] at hu
            cases choice with
            | none => cases hu
            | some a => cases hu

/-- `activate_finger`, without addresses. -/
theorem activateFinger_forget (h : t.Named) (he : e ∈ t.fingers) :
  (t.activateFinger e).forget = Tangent.activateFinger t.forget e.2
  := by
  rw [activateFinger, Tangent.activateFinger]
  split
  · have hcount : (t.countPassive (-1)).Named := ⟨h.addresses, h.ids⟩
    rw [modifyFinger_forget hcount he]
    rfl
  · rfl

/-! ### A pong -/

omit [DecidableEq A] in
/-- A finger of the list is found under its identifier. -/
theorem Named.getFinger_eq (h : t.Named) (he : e ∈ t.fingers) :
  t.getFinger e.2.node.id = some e
  := by
  cases hget : t.getFinger e.2.node.id with
  | none =>
      have hne := List.find?_eq_none.mp hget e he
      simp at hne
  | some x =>
      obtain ⟨hid, -⟩ := List.find?_eq_some_iff_append.mp hget
      rw [idEquals_iff] at hid
      rw [List.inj_on_of_nodup_map h.ids he (List.mem_of_find?_eq_some hget) hid]

/-- With an active finger in the list, the end of `process_pong` updates the range like
`remove_finger`. -/
theorem refreshPred_forget {pred : Option (A × Finger)} (hactive : ∃ x ∈ t.fingers, x.2.isActive)
    (hpred : ∀ x, pred = some x → ∀ y ∈ t.fingers, x.1 = y.1 ↔ x.2.node.id = y.2.node.id) :
  Tangent.refreshPred t.forget (pred.map Prod.snd)
    = .ok (t.refreshRange (pred.map Prod.fst)).forget
  := by
  rw [refreshRange_forget hpred, Tangent.refreshPred, Tangent.refreshRange, predFinger_forget]
  cases hp : t.predFinger with
  | none =>
      obtain ⟨x, hx, hact⟩ := hactive
      exact absurd hact (List.find?_eq_none.mp hp x (List.mem_reverse.mpr hx))
  | some y =>
      simp only [Option.map_some]
      split
      · rfl
      · rfl

/-- The part of `process_pong` that deals with a finger, without addresses. -/
theorem acceptPong_forget (h : t.Named) (he : e ∈ t.fingers) (newRtt : ℤ) :
  Tangent.acceptPong t.forget e.2.node.id newRtt = .ok (t.acceptPong e newRtt).forget
  := by
  have hnamed : (t.modifyFinger e.1 (refreshFinger newRtt)).Named := h.modifyFinger _ fun _ => rfl
  have he' : (e.1, refreshFinger newRtt e.2)
      ∈ (t.modifyFinger e.1 (refreshFinger newRtt)).fingers := by
    apply List.mem_map.mpr
    exact ⟨e, he, if_pos rfl⟩
  have hget := hnamed.getFinger_eq he'
  have hid : (refreshFinger newRtt e.2).node.id = e.2.node.id := rfl
  rw [hid] at hget
  rw [Tangent.acceptPong, ← modifyFinger_forget h he, getFinger_forget, hget, acceptPong]
  generalize t.modifyFinger e.1 (refreshFinger newRtt) = t₁ at hnamed he' ⊢
  simp only [Option.map_some, predFinger_forget]
  rw [← activateFinger_forget hnamed he']
  obtain ⟨l₁, l₂, hl⟩ := List.append_of_mem he'
  obtain ⟨f, hfingers, hactive, hnode⟩ := t₁.exists_fingers_activateFinger hnamed.addresses hl
  apply refreshPred_forget
  · exact ⟨(e.1, f), by simp [hfingers], hactive⟩
  · intro x hx y hy
    have hx' := List.mem_reverse.mp (List.mem_of_find?_eq_some hx)
    rw [hfingers, List.mem_append, List.mem_cons] at hy
    rcases hy with hy | rfl | hy
    · apply hnamed.addr_eq_iff hx' (by simp [hl, hy])
    · rw [hnode]
      apply hnamed.addr_eq_iff hx' he'
    · apply hnamed.addr_eq_iff hx' (by simp [hl, hy])

/-! ### Pinging -/

section Ping

variable {L : Library} {io : Io} {u : PingState A} {v : Tangent.PingState}
  {visited es : List (A × Finger)} {i : ℕ}

omit [DecidableEq A] in
/-- The variables of the two loops of `ping` agree after the fingers `visited`, of which `f_pinged`
is one. -/
structure PingState.Forgets (u : PingState A) (v : Tangent.PingState)
    (visited es : List (A × Finger)) : Prop where
  named : u.srv.Named
  fingers : u.srv.fingers = visited ++ es
  srv : v.srv = u.srv.forget
  acts : v.acts = u.acts
  pinged : ∃ x : Option (A × Finger), u.pinged = x.map Prod.fst ∧
    v.pinged = x.map (·.2.node.id) ∧ ∀ e, x = some e → e ∈ visited

theorem PingState.Forgets.pingLoop (h : u.Forgets v visited es) :
  ∃ visited', (ListedServer.pingLoop L io es i u).Forgets
    (Tangent.pingLoop L io (es.map Prod.snd) i v) visited' []
  := by
  induction es generalizing i u v visited with
  | nil => exact ⟨visited, h⟩
  | cons e es ih =>
      have he : e ∈ u.srv.fingers := by simp [h.fingers]
      obtain ⟨x, hu, hv, hx⟩ := h.pinged
      have htoPing : v.srv.toPing = u.srv.members.toPing := by
        rw [h.srv]
        rfl
      rw [List.map_cons, ListedServer.pingLoop, Tangent.pingLoop]
      simp only [htoPing]
      split
      · apply ih
        refine ⟨h.named.removeFinger e, ?_, ?_, h.acts, x, hu, hv, hx⟩
        · exact u.srv.fingers_removeFinger_eq h.named.addresses h.fingers
        · rw [h.srv, removeFinger_forget h.named he]
      · split
        · have hfingers := u.srv.fingers_modifyFinger h.named.addresses h.fingers countPing
          apply ih
          refine ⟨h.named.modifyFinger _ fun _ => rfl, hfingers.trans (List.append_cons ..), ?_, ?_,
            ?_⟩
          · rw [h.srv, modifyFinger_forget h.named he]
          · rw [h.acts, h.srv]
            rfl
          · split
            · exact ⟨some (e.1, countPing e.2), rfl, rfl, by simp⟩
            · refine ⟨x, hu, hv, ?_⟩
              intro y hy
              apply List.mem_append_left _ (hx y hy)
        · apply ih
          refine ⟨h.named, h.fingers.trans (List.append_cons ..), h.srv, h.acts, x, hu, hv, ?_⟩
          intro y hy
          apply List.mem_append_left _ (hx y hy)

omit [DecidableEq A] in
/-- `f_pinged` is the last finger if its identifier is that of the last finger. -/
theorem PingState.Forgets.pinged_iff (h : u.Forgets v visited es) :
  (v.pinged = none ∨ v.pinged = v.srv.flist.getLast?.map (·.node.id)) ↔
    (u.pinged = none ∨ u.pinged = last u.srv.fingers)
  := by
  obtain ⟨x, hu, hv, hx⟩ := h.pinged
  have hlast : v.srv.flist.getLast?.map (·.node.id)
      = u.srv.fingers.getLast?.map (·.2.node.id) := by
    rw [h.srv, forget, List.getLast?_map, Option.map_map]
    rfl
  rw [hu, hv, hlast, last]
  cases x with
  | none => simp
  | some e =>
      have he : e ∈ u.srv.fingers := by
        rw [h.fingers]
        apply List.mem_append_left _ (hx e rfl)
      cases hl : u.srv.fingers.getLast? with
      | none => simp
      | some y => simpa using (h.named.addr_eq_iff he (List.mem_of_getLast? hl)).symm

theorem Named.pingLoop (h : t.Named) (L : Library) (io : Io) :
  ∃ visited, (ListedServer.pingLoop L io t.fingers 0 ⟨t, [], none⟩).Forgets
    (Tangent.pingLoop L io (t.fingers.map Prod.snd) 0 ⟨t.forget, [], none⟩) visited []
  := by
  have hstart : PingState.Forgets ⟨t, [], none⟩ ⟨t.forget, [], none⟩ [] t.fingers :=
    ⟨h, rfl, rfl, rfl, none, rfl, rfl, by simp⟩
  apply hstart.pingLoop

/-- `ping`, without addresses. -/
theorem ping_forget (h : t.Named) (L : Library) (io : Io) :
  Tangent.ping L io t.forget = ((t.ping L io).1.forget, (t.ping L io).2)
  := by
  obtain ⟨visited, hend⟩ := h.pingLoop L io
  rw [Tangent.ping, ping, flist_forget]
  generalize pingLoop L io t.fingers 0 ⟨t, [], none⟩ = u at hend ⊢
  generalize Tangent.pingLoop L io (t.fingers.map Prod.snd) 0 ⟨t.forget, [], none⟩ = v at hend ⊢
  have hpinged := hend.pinged_iff
  rw [hend.srv] at hpinged
  simp only [hend.srv, hend.acts, hpinged]
  by_cases hlast : u.pinged = none ∨ u.pinged = last u.srv.fingers
  · simp only [if_pos hlast]
    rfl
  · simp only [if_neg hlast]
    rfl

end Ping

/-! ### Cleaning -/

section Clean

variable {f lastsucc lastpred : A × Finger} {fs rest : List (A × Finger)} {id : ChordID} {k : ℕ}

theorem cleanRemove_forget (h : t.Named) (hl : t.fingers = (f :: fs).reverse ++ rest)
    (hs : lastsucc ∈ t.fingers) :
  Tangent.cleanRemove lastsucc.2.node.id id ((f :: fs).map Prod.snd) t.forget
    = ((cleanRemove lastsucc.1 id f fs t).1.forget,
      (cleanRemove lastsucc.1 id f fs t).2.map fun x => (x.1 :: x.2).map Prod.snd)
  := by
  induction fs generalizing f rest t with
  | nil => rfl
  | cons p fs ih =>
      have hf : f ∈ t.fingers := by simp [hl]
      have hl' : t.fingers = (fs.reverse ++ [p]) ++ f :: rest := by simpa using hl
      rw [List.map_cons, List.map_cons, Tangent.cleanRemove, cleanRemove]
      simp only [← h.addr_eq_iff hf hs]
      split
      · rfl
      · rename_i hne
        split
        · rw [← removeFinger_forget h hf]
          have hfingers := t.fingers_removeFinger_eq h.addresses hl'
          apply ih (h.removeFinger f) (by rw [hfingers, List.reverse_cons])
          rw [fingers_removeFinger]
          apply (List.mem_eraseP_of_neg _).mpr hs
          simpa using Ne.symm hne
        · rfl

/-- The outer loop of `clean_finger_list` never gets to the head of the list. -/
theorem cleanLoop_forget (h : t.Named) (hl : t.fingers = (f :: fs).reverse ++ rest)
    (hs : lastsucc ∈ t.fingers) :
  Tangent.cleanLoop lastsucc.2.node.id lastpred.2.node.id k ((f :: fs).map Prod.snd) t.forget
    = .ok (cleanLoop lastsucc lastpred k f fs t).forget
  := by
  induction k generalizing f fs rest t with
  | zero => rfl
  | succ k ih =>
      have hf : f ∈ t.fingers := by simp [hl]
      have hnode : t.forget.node = t.members.node := rfl
      rw [Tangent.cleanLoop, cleanLoop]
      simp only [List.map_cons, List.head?_cons, Option.map_some, Option.some.injEq,
        ← h.addr_eq_iff hf hs, hnode]
      split
      · rfl
      · split
        · apply ih h hl hs
        · split
          · rfl
          · split
            · apply ih h hl hs
            · have hkeeps := t.cleanRemove_keeps (chordIdSuccessor t.members.node.id k) lastsucc.1
                h.addresses hl
              have hsub := t.sublist_cleanRemove lastsucc.1
                (chordIdSuccessor t.members.node.id k) f fs
              rw [← List.map_cons, cleanRemove_forget h hl hs]
              generalize cleanRemove _ _ f fs t = u at hkeeps hsub ⊢
              obtain ⟨t', x⟩ := u
              cases x with
              | none => rfl
              | some x =>
                  obtain ⟨rest', hl', -⟩ := hkeeps.behind x rfl
                  apply ih (h.of_sublist hsub) hl' (hkeeps.lastsucc lastsucc hs rfl)

/-- `clean_finger_list`, without addresses. -/
theorem cleanFingerList_forget (h : t.Named) :
  Tangent.cleanFingerList t.forget = .ok t.cleanFingerList.forget
  := by
  rw [Tangent.cleanFingerList, cleanFingerList, flist_forget, ← List.map_drop]
  rcases hdrop : t.fingers.drop (nsuccessors - 1) with _ | ⟨lastsucc, _ | ⟨y, zs⟩⟩
  · rfl
  · rfl
  · have hlen : 4 ≤ t.fingers.reverse.length := by
      have hd : t.fingers.length - 7 = zs.length + 2 := by
        simpa using congrArg List.length hdrop
      rw [List.length_reverse]
      omega
    obtain ⟨p₀, p₁, lastpred, f, fs, hrev⟩ := HeapServer.exists_four_of_le_length hlen
    have hs : lastsucc ∈ t.fingers := by
      apply List.mem_of_mem_drop (i := nsuccessors - 1)
      rw [hdrop]
      apply List.mem_cons_self
    have hl : t.fingers = (f :: fs).reverse ++ [lastpred, p₁, p₀] := by
      rw [← List.reverse_reverse t.fingers, hrev]
      simp
    have hskip : Tangent.skipPreds lastsucc.2.node.id (npredecessors - 1)
        (t.fingers.map Prod.snd).reverse
        = .ok (if p₀.1 = lastsucc.1 ∨ p₁.1 = lastsucc.1 then none
          else some ((lastpred :: f :: fs).map Prod.snd)) := by
      have h₀ := h.addr_eq_iff (x := p₀) (y := lastsucc) (by simp [hl]) hs
      have h₁ := h.addr_eq_iff (x := p₁) (y := lastsucc) (by simp [hl]) hs
      have htwo : npredecessors - 1 = 0 + 1 + 1 := rfl
      rw [← List.map_reverse, hrev, htwo]
      simp only [List.map_cons, Tangent.skipPreds, ← h₀, ← h₁]
      by_cases hp₀ : p₀.1 = lastsucc.1
      · simp [hp₀]
      · by_cases hp₁ : p₁.1 = lastsucc.1
        · simp [hp₁]
        · simp [hp₀, hp₁]
    simp only [List.map_cons, hskip, hrev]
    by_cases hmem : p₀.1 = lastsucc.1 ∨ p₁.1 = lastsucc.1
    · simp only [if_pos hmem]
      rfl
    · simp only [if_neg hmem]
      apply cleanLoop_forget h hl hs

end Clean

/-! ### Runs -/

omit [DecidableEq A] in
/-- A new finger goes into the list. -/
theorem fingerlistInsert_perm (t : ListedServer A) (e : A × Finger) :
  (t.fingerlistInsert e).fingers.Perm (e :: t.fingers)
  := by
  rw [fingerlistInsert, insertBehindLast]
  apply List.perm_middle.trans
  rw [List.rdropWhile_append_rtakeWhile]

/-- `insert_finger` looks up the identifier of a finger before it puts it into the list. -/
theorem Named.ids_insertFinger {choice : Option A} {node : Node}
    {u : ListedServer A × Option (A × Finger)} (h : t.Named)
    (hu : t.insertFinger choice node = .ok u) :
  (u.1.fingers.map fun e => e.2.node.id).Nodup
  := by
  obtain rfl | ⟨e, -, rfl⟩ | ⟨e, -, rfl⟩ | ⟨t', a, hget, ht', -, rfl⟩ := t.insertFinger_cases hu
  · exact h.ids
  · exact h.ids
  · have hnamed : (t.modifyFinger e.1 (replacePeer node.addr node.port)).Named :=
      h.modifyFinger _ fun _ => rfl
    exact hnamed.ids
  · have hsub := t.sublist_of_evictPassive_eq ht'
    have hperm := (t'.countPassive 1).fingerlistInsert_perm (a, newFinger node)
    rw [(hperm.map _).nodup_iff, List.map_cons, List.nodup_cons]
    refine ⟨?_, h.ids.sublist (hsub.map _)⟩
    intro hmem
    obtain ⟨x, hx, hid⟩ := List.mem_map.mp hmem
    have hne := List.find?_eq_none.mp hget x (hsub.subset hx)
    simp [idEquals_iff, hid, newFinger] at hne

theorem Named.refreshRange (h : t.Named) (pred : Option A) :
  (t.refreshRange pred).Named
  := by
  apply h.of_sublist
  rw [fingers_refreshRange]

theorem addresses_acceptPong (t : ListedServer A) (e : A × Finger) (newRtt : ℤ) :
  (t.acceptPong e newRtt).fingers.map Prod.fst = t.fingers.map Prod.fst
  := by
  rw [acceptPong, fingers_refreshRange, activateFinger]
  split
  · rw [addresses_modifyFinger, countPassive, addresses_modifyFinger]
  · rw [addresses_modifyFinger]

theorem Named.acceptPong (h : t.Named) (e : A × Finger) (newRtt : ℤ) :
  (t.acceptPong e newRtt).Named
  := by
  have hnamed : (t.modifyFinger e.1 (refreshFinger newRtt)).Named := h.modifyFinger _ fun _ => rfl
  rw [ListedServer.acceptPong]
  apply Named.refreshRange
  rw [activateFinger]
  split
  · have hcount : ((t.modifyFinger e.1 (refreshFinger newRtt)).countPassive (-1)).Named :=
      ⟨hnamed.addresses, hnamed.ids⟩
    apply hcount.modifyFinger
    exact fun _ => rfl
  · exact hnamed

theorem Named.ping (h : t.Named) (L : Library) (io : Io) :
  (t.ping L io).1.Named
  := by
  obtain ⟨visited, hend⟩ := h.pingLoop L io
  exact ⟨hend.named.addresses, hend.named.ids⟩

theorem Named.cleanFingerList (h : t.Named) :
  t.cleanFingerList.Named
  := h.of_sublist t.sublist_cleanFingerList

end ListedServer

end Tangent

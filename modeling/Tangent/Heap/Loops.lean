import Tangent.Heap.Refinement

/-!
# Pinging and cleaning on the heap

The two loops that remove fingers while they walk.  The loop of `ping` has read the finger behind
the one it removes, and the inner loop of `clean_finger_list` the one before it, so both go on at a
finger of the list that is left.
-/

namespace Tangent

open DoublyLinked

namespace ListedServer

variable {A : Type} {f : A × Finger} {fs rest : List (A × Finger)}

/-- What the inner loop of `clean_finger_list` leaves of the list: the finger at `a`, and where it
goes on, the fingers before that and the fingers `rest` behind the loop. -/
structure CleanKeeps (a : A) (rest : List (A × Finger)) (t : ListedServer A)
    (u : ListedServer A × Option ((A × Finger) × List (A × Finger))) : Prop where
  lastsucc : ∀ x ∈ t.fingers, x.1 = a → x ∈ u.1.fingers
  behind : ∀ x, u.2 = some x → ∃ rest', u.1.fingers = (x.1 :: x.2).reverse ++ rest' ∧ rest ⊆ rest'

theorem CleanKeeps.stop (a : A) (rest : List (A × Finger)) (t : ListedServer A) :
  CleanKeeps a rest t (t, none)
  := ⟨fun _ hx _ => hx, by simp⟩

variable [DecidableEq A]

theorem sublist_cleanRemove (t : ListedServer A) (a : A) (id : ChordID) (f : A × Finger)
    (fs : List (A × Finger)) :
  (cleanRemove a id f fs t).1.fingers.Sublist t.fingers
  := by
  induction fs generalizing f t with
  | nil => exact .refl _
  | cons p fs ih =>
      rw [cleanRemove]
      split
      · exact .refl _
      · split
        · apply (ih ..).trans (sublist_removeFinger ..)
        · exact .refl _

theorem sublist_cleanLoop (t : ListedServer A) (lastsucc lastpred : A × Finger) (k : ℕ)
    (f : A × Finger) (fs : List (A × Finger)) :
  (cleanLoop lastsucc lastpred k f fs t).fingers.Sublist t.fingers
  := by
  induction k generalizing f fs t with
  | zero => exact .refl _
  | succ k ih =>
      rw [cleanLoop]
      have hremove := t.sublist_cleanRemove lastsucc.1
        (chordIdSuccessor t.members.node.id k) f fs
      split
      · exact .refl _
      · simp only
        split
        · apply ih
        · split
          · exact .refl _
          · split
            · apply ih
            · split
              · rename_i hr
                rw [hr] at hremove
                exact hremove
              · rename_i hr
                rw [hr] at hremove
                apply (ih ..).trans hremove

/-- `clean_finger_list` removes fingers. -/
theorem sublist_cleanFingerList (t : ListedServer A) :
  t.cleanFingerList.fingers.Sublist t.fingers
  := by
  rw [cleanFingerList]
  split
  · split
    · exact .refl _
    · apply sublist_cleanLoop
  · exact .refl _

/-- The inner loop stops at the finger at `a`, so it never removes it. -/
theorem cleanRemove_keeps (t : ListedServer A) (id : ChordID) (a : A)
    (h : (t.fingers.map Prod.fst).Nodup)
    (hl : t.fingers = (f :: fs).reverse ++ rest) :
  CleanKeeps a rest t (cleanRemove a id f fs t)
  := by
  induction fs generalizing f rest t with
  | nil => apply CleanKeeps.stop
  | cons p fs ih =>
      have hf : t.fingers = (fs.reverse ++ [p]) ++ f :: rest := by simpa using hl
      rw [cleanRemove]
      split
      · apply CleanKeeps.stop
      · rename_i hne
        split
        · have hfingers : (t.removeFinger f).fingers = (p :: fs).reverse ++ rest := by
            rw [t.fingers_removeFinger_eq h hf, List.reverse_cons]
          have hnodup := h.sublist ((t.sublist_removeFinger f).map Prod.fst)
          have hkeeps := ih (t.removeFinger f) hnodup hfingers
          refine ⟨?_, hkeeps.behind⟩
          intro x hx hxa
          apply hkeeps.lastsucc x _ hxa
          rw [fingers_removeFinger]
          apply (List.mem_eraseP_of_neg _).mpr hx
          rw [hxa]
          simpa using Ne.symm hne
        · refine ⟨fun x hx _ => hx, ?_⟩
          intro x hx
          cases hx
          exact ⟨f :: rest, by simpa using hl, List.subset_cons_self f rest⟩

end ListedServer

namespace HeapServer

variable {A : Type} {srv : HeapServer A} {t : ListedServer A} {fuel : ℕ}

/-! ### Pinging -/

section Ping

variable [DecidableEq A] {L : Library} {io : Io} {st : PingState A} {u : ListedServer.PingState A}
  {visited es : List (A × Finger)} {i n : ℕ}

/-- The variables of the two loops agree after the fingers `visited`, of which `f_pinged` is
one. -/
structure PingState.Refines (st : PingState A) (u : ListedServer.PingState A)
    (visited es : List (A × Finger)) : Prop where
  srv : st.srv.Refines u.srv
  acts : st.acts = u.acts
  pinged : st.pinged = u.pinged
  fingers : u.srv.fingers = visited ++ es
  mem : ∀ a, u.pinged = some a → ∃ f, (a, f) ∈ visited

variable {e : A × Finger}

/-- A turn that removes the finger. -/
theorem PingState.Refines.drop (h : st.Refines u visited (e :: es))
    (hfuel : (visited ++ e :: es).length ≤ fuel) :
  ∃ srv', st.srv.removeFinger fuel e.1 = .ok srv' ∧
    PingState.Refines { st with srv := srv' } { u with srv := u.srv.removeFinger e } visited es
  := by
  rw [← h.fingers] at hfuel
  obtain ⟨srv', hsrv', href⟩ := h.srv.removeFinger hfuel h.fingers
  have hfingers := u.srv.fingers_removeFinger_eq h.srv.nodup h.fingers
  exact ⟨srv', hsrv', href, h.acts, h.pinged, hfingers, h.mem⟩

/-- A turn that pings the finger. -/
theorem PingState.Refines.count (h : st.Refines u visited (e :: es)) (L : Library) (io : Io)
    (here : Bool) :
  ∃ srv', st.srv.writeFinger (some e.1) countPing = .ok srv' ∧
    srv'.read (some e.1) = .ok ⟨countPing e.2, first es, last visited⟩ ∧
    srv'.members = u.srv.members ∧
    PingState.Refines
      { srv := srv'
        acts := sendPing L io srv'.members st.acts e.2.node.addr e.2.node.port
        pinged := if here then some e.1 else st.pinged }
      { srv := u.srv.modifyFinger e.1 countPing
        acts := sendPing L io u.srv.members u.acts e.2.node.addr e.2.node.port
        pinged := if here then some e.1 else u.pinged }
      (visited ++ [(e.1, countPing e.2)]) es
  := by
  obtain ⟨srv', hsrv', href, hfingers⟩ := h.srv.writeFinger h.fingers countPing
  have hmembers : srv'.members = u.srv.members := href.members
  refine ⟨srv', hsrv', href.read_eq (e := (e.1, countPing e.2)) hfingers, hmembers, href, ?_, ?_,
    hfingers.trans (List.append_cons ..), ?_⟩
  · rw [h.acts, hmembers]
  · rw [h.pinged]
  · intro a ha
    split at ha
    · cases ha
      exact ⟨_, List.mem_append_right _ List.mem_cons_self⟩
    · obtain ⟨f, hf⟩ := h.mem a ha
      exact ⟨f, List.mem_append_left _ hf⟩

omit [DecidableEq A] in
/-- A turn that does nothing with the finger. -/
theorem PingState.Refines.skip (h : st.Refines u visited (e :: es)) :
  st.Refines u (visited ++ [e]) es
  := by
  refine ⟨h.srv, h.acts, h.pinged, h.fingers.trans (List.append_cons ..), ?_⟩
  intro a ha
  obtain ⟨f, hf⟩ := h.mem a ha
  exact ⟨f, List.mem_append_left _ hf⟩

/-- The loop of `ping` keeps hold of the finger behind the one it removes. -/
theorem PingState.Refines.pingLoop (h : st.Refines u visited es)
    (hfuel : (visited ++ es).length ≤ fuel) (hn : es.length ≤ n) :
  ∃ st' visited', HeapServer.pingLoop fuel L io n (first es) i st = .ok st' ∧
    st'.Refines (ListedServer.pingLoop L io es i u) visited' []
  := by
  induction es generalizing n i st u visited with
  | nil =>
      refine ⟨st, visited, ?_, h⟩
      cases n <;> rfl
  | cons e es ih =>
      obtain ⟨n, rfl, hn'⟩ := List.exists_of_length_cons_le hn
      have htoPing : st.srv.members.toPing = u.srv.members.toPing := by
        rw [h.srv.members]
      rw [first_cons, HeapServer.pingLoop, h.srv.read_eq h.fingers, Except.ok_bind,
        ListedServer.pingLoop]
      simp only [htoPing]
      split
      · obtain ⟨srv', hsrv', hdrop⟩ := h.drop hfuel
        rw [hsrv', Except.ok_bind]
        refine ih hdrop ?_ hn'
        simp only [List.length_append, List.length_cons] at hfuel ⊢
        omega
      · split
        · obtain ⟨srv', hsrv', hread, hmembers, hcount⟩ :=
            h.count L io (u.srv.members.toPing = i)
          rw [hsrv', Except.ok_bind, hread, Except.ok_bind]
          simp only [decide_eq_true_eq] at hcount
          rw [hmembers] at hcount ⊢
          apply ih hcount (by simpa using hfuel) hn'
        · apply ih h.skip (by simpa using hfuel) hn'

/-- The finger behind `f_pinged` is missing if that is the last one. -/
theorem Refines.hasNext (h : srv.Refines t) {p : Option A}
    (hp : ∀ a, p = some a → ∃ f, (a, f) ∈ t.fingers) :
  srv.hasNext p = .ok (!decide (p = none ∨ p = last t.fingers))
  := by
  cases p with
  | none => rfl
  | some a =>
      obtain ⟨f, hf⟩ := hp a rfl
      obtain ⟨l₁, l₂, hl⟩ := List.append_of_mem hf
      have hrep := h.flist
      rw [hl] at hrep
      have hlast : some a = last t.fingers ↔ l₂ = [] := by
        rw [eq_comm, ← h.flist.tail_eq]
        exact hrep.tail_eq_iff
      rw [HeapServer.hasNext, h.read_eq (e := (a, f)) hl]
      simp only [hlast, reduceCtorEq, false_or]
      cases l₂ with
      | nil => rfl
      | cons x l₂ => rfl

/-- `ping` of the heap and of the list. -/
theorem Refines.ping (h : srv.Refines t) (hfuel : t.fingers.length ≤ fuel) (L : Library) (io : Io) :
  ∃ srv', srv.ping fuel L io = .ok (srv', (t.ping L io).2) ∧ srv'.Refines (t.ping L io).1
  := by
  have hstart : PingState.Refines ⟨srv, [], none⟩ ⟨t, [], none⟩ [] t.fingers :=
    ⟨h, rfl, rfl, rfl, by simp⟩
  obtain ⟨st, visited, hst, hend⟩ := hstart.pingLoop hfuel hfuel
  have hfingers := hend.fingers
  rw [List.append_nil] at hfingers
  rw [HeapServer.ping, h.flist.head_eq, hst, Except.ok_bind, hend.pinged,
    hend.srv.hasNext (by rw [hfingers]; exact hend.mem), Except.ok_bind, hend.acts]
  refine ⟨_, rfl, ?_, hend.srv.flist⟩
  simp only [hend.srv.members, ListedServer.ping, Bool.not_eq_eq_eq_not, Bool.not_true,
    decide_eq_false_iff_not, ite_not]

end Ping

/-! ### Cleaning -/

section Clean

variable {p : Option A} {l fs rest : List (A × Finger)} {f lastsucc lastpred : A × Finger}
  {id : ChordID} {k n : ℕ}

/-- The walk over the successors ends `k` fingers on. -/
theorem skipSuccs_eq (h : Path srv.flist.forward.links p l none) :
  srv.skipSuccs k p = .ok (first (l.drop k))
  := by
  induction k generalizing p l with
  | zero =>
      rw [h.start_eq, List.drop_zero]
      cases first l <;> rfl
  | succ k ih =>
      cases h with
      | nil => rfl
      | cons cell rest =>
          obtain ⟨c, hc, heq⟩ := Option.map_eq_some_iff.mp cell
          cases heq
          rw [skipSuccs, read_eq hc, Except.ok_bind]
          apply ih rest

variable [DecidableEq A]

/-- The walk over the predecessors ends `k` fingers back, unless it meets the last successor. -/
theorem skipPreds_eq {a : A} (h : Path srv.flist.backward.links p l none) (hk : k ≤ l.length) :
  srv.skipPreds a k p
    = .ok (if a ∈ (l.take k).map Prod.fst then none else some (first (l.drop k)))
  := by
  induction k generalizing p l with
  | zero => simp [skipPreds, h.start_eq]
  | succ k ih =>
      cases h with
      | nil => simp at hk
      | cons cell rest =>
          rename_i b v r l
          obtain ⟨c, hc, heq⟩ := Option.map_eq_some_iff.mp cell
          cases heq
          rw [skipPreds]
          by_cases hb : b = a
          · simp [hb]
          · rw [if_neg (by simpa using hb), read_eq hc, Except.ok_bind,
              ih rest (by simpa using hk)]
            simp [Ne.symm hb]

/-- The inner loop keeps hold of the finger before the one it removes, and goes on at the same
finger as on the list. -/
theorem Refines.cleanRemove {a : A} (h : srv.Refines t)
    (hl : t.fingers = (f :: fs).reverse ++ rest) (hfuel : t.fingers.length ≤ fuel)
    (hn : (f :: fs).length ≤ n) :
  ∃ srv', HeapServer.cleanRemove fuel a id n (some f.1) srv
      = .ok (srv', (ListedServer.cleanRemove a id f fs t).2.map fun x => some x.1.1) ∧
    srv'.Refines (ListedServer.cleanRemove a id f fs t).1
  := by
  induction fs generalizing f rest srv t n with
  | nil =>
      obtain ⟨n, rfl, -⟩ := List.exists_of_length_cons_le hn
      have hf : t.fingers = [] ++ f :: rest := hl
      rw [HeapServer.cleanRemove, h.read_eq hf, Except.ok_bind]
      exact ⟨srv, rfl, h⟩
  | cons p fs ih =>
      obtain ⟨n, rfl, hn'⟩ := List.exists_of_length_cons_le hn
      have hf : t.fingers = (fs.reverse ++ [p]) ++ f :: rest := by simpa using hl
      have hp : t.fingers = fs.reverse ++ p :: (f :: rest) := by simpa using hl
      rw [HeapServer.cleanRemove, h.read_eq hf, Except.ok_bind, ListedServer.cleanRemove,
        last_concat]
      simp only [reduceCtorEq, false_or, h.read_eq hp, Except.ok_bind]
      split
      · exact ⟨srv, rfl, h⟩
      · split
        · obtain ⟨srv', hsrv', href⟩ := h.removeFinger hfuel hf
          have hfingers : (t.removeFinger f).fingers = (p :: fs).reverse ++ rest := by
            rw [t.fingers_removeFinger_eq h.nodup hf, List.reverse_cons]
          have hlen := (t.length_removeFinger_le f).trans hfuel
          rw [hsrv', Except.ok_bind]
          apply ih href hfingers hlen hn'
        · exact ⟨srv, rfl, h⟩

/-- The outer loop never removes the two fingers it compares with. -/
theorem Refines.cleanLoop (h : srv.Refines t) (hl : t.fingers = (f :: fs).reverse ++ rest)
    (hfuel : t.fingers.length ≤ fuel) (hs : lastsucc ∈ t.fingers) (hp : lastpred ∈ rest) :
  ∃ srv', HeapServer.cleanLoop fuel lastsucc.1 lastpred.1 k (some f.1) srv = .ok srv' ∧
    srv'.Refines (ListedServer.cleanLoop lastsucc lastpred k f fs t)
  := by
  induction k generalizing f fs rest srv t with
  | zero => exact ⟨srv, rfl, h⟩
  | succ k ih =>
      obtain ⟨lp, hlp, hlp'⟩ := h.exists_read_eq (e := lastpred) (by simp [hl, hp])
      obtain ⟨ls, hls, hls'⟩ := h.exists_read_eq hs
      obtain ⟨c, hc, hc'⟩ := h.exists_read_eq (e := f) (by simp [hl])
      rw [HeapServer.cleanLoop, ListedServer.cleanLoop]
      simp only [Option.some.injEq, hlp, hls, hc, Except.ok_bind, hlp', hls', hc', h.members]
      split
      · exact ⟨srv, rfl, h⟩
      · split
        · apply ih h hl hfuel hs hp
        · split
          · exact ⟨srv, rfl, h⟩
          · split
            · apply ih h hl hfuel hs hp
            · have hn : (f :: fs).length ≤ fuel := by
                rw [hl, List.length_append, List.length_reverse] at hfuel
                omega
              obtain ⟨srv', hr, hsrv⟩ := h.cleanRemove hl hfuel hn
              rw [hr, Except.ok_bind]
              have hkeeps := t.cleanRemove_keeps (chordIdSuccessor t.members.node.id k) lastsucc.1
                h.nodup hl
              have hsub := t.sublist_cleanRemove lastsucc.1
                (chordIdSuccessor t.members.node.id k) f fs
              generalize ListedServer.cleanRemove _ _ f fs t = u at hsrv hkeeps hsub ⊢
              obtain ⟨t', x⟩ := u
              cases x with
              | none => exact ⟨srv', rfl, hsrv⟩
              | some x =>
                  obtain ⟨rest', hl', hrest⟩ := hkeeps.behind x rfl
                  have hlen := hsub.length_le.trans hfuel
                  apply ih hsrv hl' hlen (hkeeps.lastsucc lastsucc hs rfl) (hrest hp)

theorem exists_four_of_le_length {α : Type*} {l : List α} (h : 4 ≤ l.length) :
  ∃ a b c d l', l = a :: b :: c :: d :: l'
  := by
  match l, h with
  | a :: b :: c :: d :: l', _ => exact ⟨a, b, c, d, l', rfl⟩

/-- `clean_finger_list` of the heap and of the list. -/
theorem Refines.cleanFingerList (h : srv.Refines t) (hfuel : t.fingers.length ≤ fuel) :
  ∃ srv', srv.cleanFingerList fuel = .ok srv' ∧ srv'.Refines t.cleanFingerList
  := by
  have hskip : srv.skipSuccs (nsuccessors - 1) srv.flist.head
      = .ok (first (t.fingers.drop (nsuccessors - 1))) := skipSuccs_eq h.flist.forward
  have hl := (List.take_append_drop (nsuccessors - 1) t.fingers).symm
  rw [HeapServer.cleanFingerList, hskip, Except.ok_bind, ListedServer.cleanFingerList]
  rcases hdrop : t.fingers.drop (nsuccessors - 1) with _ | ⟨lastsucc, _ | ⟨y, zs⟩⟩
  · exact ⟨srv, rfl, h⟩
  · rw [hdrop] at hl
    simp only [first_cons, h.read_eq hl, Except.ok_bind, first_nil, if_true]
    exact ⟨srv, rfl, h⟩
  · rw [hdrop] at hl
    simp only [first_cons, h.read_eq hl, Except.ok_bind, reduceCtorEq, if_false]
    have hlen : 4 ≤ t.fingers.reverse.length := by
      have hd : t.fingers.length - 7 = zs.length + 2 := by
        simpa using congrArg List.length hdrop
      rw [List.length_reverse]
      omega
    obtain ⟨p₀, p₁, lastpred, f, fs, hrev⟩ := exists_four_of_le_length hlen
    have hskip' : srv.skipPreds lastsucc.1 (npredecessors - 1) srv.flist.tail
        = .ok (if p₀.1 = lastsucc.1 ∨ p₁.1 = lastsucc.1 then none else some (some lastpred.1)) := by
      refine (skipPreds_eq h.flist.backward (by rw [npredecessors]; omega)).trans ?_
      rw [hrev]
      simp [eq_comm]
    have hf : t.fingers = (f :: fs).reverse ++ lastpred :: [p₁, p₀] := by
      rw [← List.reverse_reverse t.fingers, hrev]
      simp
    rw [hskip', hrev, Except.ok_bind]
    by_cases hmem : p₀.1 = lastsucc.1 ∨ p₁.1 = lastsucc.1
    · simp only [if_pos hmem]
      exact ⟨srv, rfl, h⟩
    · simp only [if_neg hmem, h.read_eq hf, Except.ok_bind, last_reverse, first_cons]
      apply h.cleanLoop hf hfuel _ List.mem_cons_self
      rw [hl]
      simp

end Clean

end HeapServer

end Tangent

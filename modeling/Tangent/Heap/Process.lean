import Tangent.Heap.Memory

/-!
# The handlers in memory

On a heap that holds a server, each packet handler goes like the handler of that server: the same
packets go out and the same code is returned, and the heap it leaves holds the server the other
leaves.  Where the one with a list of fingers uses a missing finger, the one on the heap uses
`NULL`, and the pointer `process_stab` keeps over an insertion still points to its finger, for only
passive fingers are evicted.
-/

namespace Tangent

open DoublyLinked

/-- A computation on the heap ends like one with a list of fingers: with related values or with the
same fault.  The one on the heap may also run out of memory, and then `P` holds. -/
inductive Mirrors {α β : Type} (P : Prop) (R : α → β → Prop) :
    Except HeapFault α → Except Fault β → Prop where
  | ok {a : α} {b : β} (h : R a b) : Mirrors P R (.ok a) (.ok b)
  | error (e : Fault) : Mirrors P R (.error (.ofFault e)) (.error e)
  | noMemory (h : P) (y : Except Fault β) : Mirrors P R (.error .noMemory) y

section Mirrors

variable {α β γ δ : Type} {P : Prop} {R : α → β → Prop} {S : γ → δ → Prop}
  {x : Except HeapFault α} {y : Except Fault β}

theorem Mirrors.bind {k : α → Except HeapFault γ} {k' : β → Except Fault δ}
    (h : Mirrors P R x y) (hk : ∀ a b, y = .ok b → R a b → Mirrors P S (k a) (k' b)) :
  Mirrors P S (x >>= k) (y >>= k')
  := by
  cases h with
  | ok hab => apply hk _ _ rfl hab
  | error e => exact .error e
  | noMemory hP y => exact .noMemory hP _

theorem Mirrors.map {g : α → γ} {g' : β → δ} (h : Mirrors P R x y)
    (hg : ∀ a b, R a b → S (g a) (g' b)) :
  Mirrors P S (x.map g) (y.map g')
  := by
  cases h with
  | ok hab => exact .ok (hg _ _ hab)
  | error e => exact .error e
  | noMemory hP y => exact .noMemory hP _

theorem Mirrors.elim (h : Mirrors P R x y) :
  (∃ a b, x = .ok a ∧ y = .ok b ∧ R a b) ∨
    (∃ e, x = .error (.ofFault e) ∧ y = .error e) ∨
    (x = .error .noMemory ∧ P)
  := by
  cases h with
  | ok hab => exact .inl ⟨_, _, rfl, rfl, hab⟩
  | error e => exact .inr (.inl ⟨e, rfl, rfl⟩)
  | noMemory hP y => exact .inr (.inr ⟨rfl, hP⟩)

end Mirrors

/-! ### What the members decide -/

namespace ListedServer

variable {A : Type} (t : ListedServer A)

theorem node_forget :
  t.forget.node = t.members.node
  := rfl

theorem chordIdIsLocal_forget (id : ChordID) :
  chordIdIsLocal t.forget id = chordIdIsLocal t.members id
  := rfl

theorem verifyTicket_forget (L : Library) (now : ℕ) (ticket : Bytes) (args : List HashArg) :
  verifyTicket L t.forget now ticket args = verifyTicket L t.members now ticket args
  := rfl

theorem sendPing_forget (L : Library) (io : Io) (acts : List Action) (addr : In6Addr)
    (port : UInt16) :
  sendPing L io t.forget acts addr port = sendPing L io t.members acts addr port
  := rfl

theorem sendFs_forget (L : Library) (io : Io) (acts : List Action) (ttl : UInt8)
    (toAddr addr : In6Addr) (toPort port : UInt16) :
  sendFs L io t.forget acts ttl toAddr toPort addr port
    = sendFs L io t.members acts ttl toAddr toPort addr port
  := rfl

end ListedServer

namespace HeapServer

variable {A : Type} {srv : HeapServer A} {t : ListedServer A} {e : A × Finger} {fuel : ℕ}
  {L : Library} {io : Io} {choice : Option A}

/-! ### Searches -/

/-- A search on the heap finds the finger a search in a list finds. -/
inductive Finds (srv : HeapServer A) : Except HeapFault (Option A) → Option Finger → Prop where
  | none : Finds srv (.ok none) none
  | some {a : A} {c : Cell A Finger} (read : srv.read (some a) = .ok c) :
      Finds srv (.ok (some a)) (some c.val)

theorem Refines.finds (h : srv.Refines t) {l : List (A × Finger)} (hl : l ⊆ t.fingers)
    (P : Finger → Bool) :
  srv.Finds (.ok ((l.find? fun e => P e.2).map Prod.fst)) ((l.map Prod.snd).find? P)
  := by
  rw [List.find?_map]
  cases hfind : l.find? fun e => P e.2 with
  | none =>
      rw [show l.find? (P ∘ Prod.snd) = none from hfind]
      exact .none
  | some e =>
      obtain ⟨c, hread, hval⟩ := h.exists_read_eq (hl (List.mem_of_find?_eq_some hfind))
      rw [show l.find? (P ∘ Prod.snd) = some e from hfind, Option.map_some, Option.map_some,
        ← hval]
      exact .some hread

theorem Refines.succFinger (h : srv.Refines t) (hfuel : t.fingers.length ≤ fuel) :
  srv.Finds (srv.succFinger fuel) (Tangent.succFinger t.forget)
  := by
  have hsearch : srv.succFinger fuel
      = .ok ((t.fingers.find? fun e => e.2.isActive).map Prod.fst) :=
    search_eq h.flist.forward hfuel
  rw [hsearch]
  apply h.finds (List.Subset.refl _)

theorem Refines.predFinger (h : srv.Refines t) (hfuel : t.fingers.length ≤ fuel) :
  srv.Finds (srv.predFinger fuel) (Tangent.predFinger t.forget)
  := by
  rw [h.predFinger_eq hfuel, Tangent.predFinger, ListedServer.flist_forget, ← List.map_reverse]
  apply h.finds (List.reverse_subset.mpr (List.Subset.refl _))

theorem Refines.closestPrecedingFinger (h : srv.Refines t) (hfuel : t.fingers.length ≤ fuel)
    (id : ChordID) (fall : Bool) :
  srv.Finds (srv.closestPrecedingFinger fuel id fall)
    (Tangent.closestPrecedingFinger t.forget id fall)
  := by
  have hlen : t.fingers.reverse.length ≤ fuel := by simpa using hfuel
  have hsearch : srv.closestPrecedingFinger fuel id fall
      = .ok ((t.fingers.reverse.find? fun e =>
        (fall || e.2.isActive) && idIsBetween e.2.node.id srv.members.node.id id).map Prod.fst) :=
    search_eq h.flist.backward hlen
  rw [hsearch, h.members, Tangent.closestPrecedingFinger, ListedServer.flist_forget,
    ← List.map_reverse]
  exact h.finds (List.reverse_subset.mpr (List.Subset.refl _)) fun f =>
    (fall || f.isActive) && idIsBetween f.node.id t.members.node.id id

/-- `closest_preceding_node`. -/
theorem Refines.closestPrecedingNode (h : srv.Refines t) (hfuel : t.fingers.length ≤ fuel)
    (id : ChordID) (fall : Bool) :
  HeapProcess.closestPrecedingNode fuel srv id fall
    = .ok (Tangent.closestPrecedingNode t.forget id fall)
  := by
  have hfinds := h.closestPrecedingFinger hfuel id fall
  rw [HeapProcess.closestPrecedingNode, Tangent.closestPrecedingNode]
  generalize srv.closestPrecedingFinger fuel id fall = x at hfinds ⊢
  generalize Tangent.closestPrecedingFinger t.forget id fall = y at hfinds ⊢
  cases hfinds with
  | none =>
      rw [Except.ok_bind, h.members]
      rfl
  | some read =>
      simp only [Except.ok_bind, read]
      rfl

theorem Refines.nextRouteSucc (h : srv.Refines t) (hfuel : t.fingers.length ≤ fuel)
    (id : ChordID) :
  HeapProcess.nextRouteSucc fuel srv id = .ok (nextRouteNode t.forget id false)
  := by
  have hfinds := h.succFinger hfuel
  rw [HeapProcess.nextRouteSucc, nextRouteNode, h.closestPrecedingNode hfuel, h.members,
    t.node_forget]
  simp only [Bool.false_eq_true, if_false]
  generalize srv.succFinger fuel = x at hfinds ⊢
  generalize Tangent.succFinger t.forget = y at hfinds ⊢
  cases hfinds with
  | none => rfl
  | some read =>
      simp only [Except.ok_bind, read]
      split
      · rfl
      · rfl

/-- `next_route_node`. -/
theorem Refines.nextRouteNode (h : srv.Refines t) (hfuel : t.fingers.length ≤ fuel)
    (id : ChordID) (last : Bool) :
  HeapProcess.nextRouteNode fuel srv id last = .ok (Tangent.nextRouteNode t.forget id last)
  := by
  cases last with
  | false => apply h.nextRouteSucc hfuel
  | true =>
      have hfinds := h.predFinger hfuel
      have hsucc := h.nextRouteSucc hfuel id
      rw [HeapProcess.nextRouteNode, if_pos rfl, Tangent.nextRouteNode, if_pos rfl]
      generalize srv.predFinger fuel = x at hfinds ⊢
      generalize Tangent.predFinger t.forget = y at hfinds ⊢
      cases hfinds with
      | none => exact hsucc
      | some read =>
          simp only [Except.ok_bind, read]
          rfl

/-! ### Inserting a finger -/

section Insert

variable [DecidableEq A]

/-- What `insert_finger` stores through `fnew`. -/
theorem fnew_of_insertFinger_eq {id : ChordID} {addr : In6Addr} {port : UInt16}
    {r : Inserted A} {o : Option A} (h : srv.insertFinger fuel choice id addr port = .ok r)
    (hget : srv.getFinger fuel id = .ok o) :
  r.fnew = if v6AddrEquals srv.members.node.addr addr ∧ srv.members.node.port = port then none
    else some o.isNone
  := by
  rw [HeapServer.insertFinger] at h
  split at h
  · rename_i hself
    cases h
    rw [if_pos hself]
  · rename_i hself
    rw [if_neg hself]
    rw [hget, Except.ok_bind] at h
    cases o with
    | none =>
        obtain ⟨srv₁, -, h⟩ := Except.bind_eq_ok.mp h
        obtain ⟨⟨srv₂, newF⟩, -, h⟩ := Except.bind_eq_ok.mp h
        obtain ⟨srv₃, -, h⟩ := Except.bind_eq_ok.mp h
        cases h
        rfl
    | some f =>
        obtain ⟨c, -, h⟩ := Except.bind_eq_ok.mp h
        split at h
        · obtain ⟨srv₁, -, h⟩ := Except.bind_eq_ok.mp h
          cases h
          rfl
        · cases h
          rfl

/-- What `insert_finger` leaves behind in memory and with a list of fingers. -/
structure Inserted.Mirrors (t : ListedServer A) (choice : Option A) (node : Node)
    (r : Inserted A) (r' : Tangent.Inserted) (u : ListedServer A × Option (A × Finger)) :
    Prop where
  srv : r.srv.Refines u.1
  named : u.1.Named
  srv' : r'.srv = u.1.forget
  finger : r.finger = u.2.map Prod.fst
  finger' : r'.finger = u.2.map (·.2.node.id)
  fnew : r.fnew = r'.fnew
  listed : t.insertFinger choice node = .ok u

omit [DecidableEq A] in
/-- What `insert_finger` stores through `fnew`, without addresses. -/
theorem fnew_of_insertFinger_forget_eq {node : Node} {r : Tangent.Inserted}
    (h : Tangent.insertFinger t.forget node.id node.addr node.port = .ok r) :
  r.fnew = if v6AddrEquals t.members.node.addr node.addr ∧ t.members.node.port = node.port then
    none else some (t.getFinger node.id).isNone
  := by
  rw [Tangent.insertFinger, t.node_forget, ListedServer.getFinger_forget] at h
  split at h
  · rename_i hself
    cases h
    rw [if_pos hself]
  · rename_i hself
    rw [if_neg hself]
    cases hget : t.getFinger node.id with
    | some e =>
        simp only [hget, Option.map_some] at h
        split at h
        · cases h
          rfl
        · cases h
          rfl
    | none =>
        simp only [hget, Option.map_none] at h
        obtain ⟨s, -, h⟩ := Except.bind_eq_ok.mp h
        cases h
        rfl

/-- `insert_finger`. -/
theorem Refines.insertFinger_mirrors (h : srv.Refines t) (hnamed : t.Named)
    (hfuel : t.fingers.length ≤ fuel) (choice : Option A) (node : Node) :
  Mirrors (∀ a, choice = some a → srv.InUse a)
    (fun r r' => ∃ u, Inserted.Mirrors t choice node r r' u)
    (srv.insertFinger fuel choice node.id node.addr node.port)
    (Tangent.insertFinger t.forget node.id node.addr node.port)
  := by
  have hagrees := h.insertFinger hfuel choice node
  cases hx : srv.insertFinger fuel choice node.id node.addr node.port with
  | ok r =>
      rw [hx] at hagrees
      cases hy : t.insertFinger choice node with
      | error e =>
          rw [hy] at hagrees
          cases hagrees
      | ok u =>
          rw [hy] at hagrees
          cases hagrees with
          | ok hr =>
              obtain ⟨fnew, hins⟩ := ListedServer.insertFinger_forget hnamed hy
              have hfnew := fnew_of_insertFinger_forget_eq hins
              have hfnew' := fnew_of_insertFinger_eq hx (getFinger_eq h.flist hfuel node.id)
              rw [hins]
              refine .ok ⟨u, hr.srv, ⟨hr.srv.nodup, hnamed.ids_insertFinger hy⟩, rfl, hr.finger,
                rfl, ?_, hy⟩
              rw [hfnew, hfnew', h.members, Option.isNone_map]
  | error e =>
      rw [hx] at hagrees
      cases hy : t.insertFinger choice node with
      | ok u =>
          rw [hy] at hagrees
          cases hagrees
          exact .noMemory (h.inUse_of_noMemory hfuel hx) _
      | error e' =>
          rw [hy] at hagrees
          cases hagrees with
          | noMemory => exact .noMemory (h.inUse_of_noMemory hfuel hx) _
          | error =>
              rcases t.fault_of_insertFinger_eq hy with rfl | rfl
              · rw [ListedServer.insertFinger_forget_error hnamed hy]
                exact .error .assertion
              · exact .noMemory (h.inUse_of_noMemory hfuel hx) _

variable {node : Node} {r : Inserted A} {r' : Tangent.Inserted}
  {u : ListedServer A × Option (A × Finger)}

theorem Inserted.Mirrors.holds (h : Inserted.Mirrors t choice node r r' u) :
  r.srv.Holds r'.srv
  := ⟨u.1, h.srv, h.named, h.srv'.symm⟩

theorem Inserted.Mirrors.sendPing_eq (h : Inserted.Mirrors t choice node r r' u) (L : Library)
    (io : Io) (acts : List Action) (addr : In6Addr) (port : UInt16) :
  sendPing L io r.srv.members acts addr port = sendPing L io r'.srv acts addr port
  := by
  rw [h.srv', h.srv.members, ListedServer.sendPing_forget]

/-- The list has one finger more at most. -/
theorem Inserted.Mirrors.length_le (h : Inserted.Mirrors t choice node r r' u)
    (hfuel : t.fingers.length < fuel) :
  u.1.fingers.length ≤ fuel
  := (t.length_le_of_insertFinger_eq h.listed).trans hfuel

end Insert

end HeapServer

/-! ### The finger that is evicted -/

namespace ListedServer

variable {A : Type} {t t' : ListedServer A} {e : A × Finger}

theorem isPassive_of_worstPassiveLoop_eq {l : List (A × Finger)} {worst : Option (A × Finger)}
    {n : ℤ} (hworst : ∀ w, worst = some w → w.2.isPassive)
    (h : worstPassiveLoop l worst n = some e) :
  e.2.isPassive
  := by
  induction l generalizing worst n with
  | nil => exact hworst e h
  | cons x l ih =>
      rw [worstPassiveLoop] at h
      split at h
      · rename_i hx
        split at h
        · cases h
          exact hx.1
        · apply ih _ h
          rintro w hw
          cases hw
          exact hx.1
      · apply ih hworst h

variable [DecidableEq A]

/-- Active fingers are not evicted. -/
theorem mem_of_evictPassive_eq (haddr : (t.fingers.map Prod.fst).Nodup)
    (h : t.evictPassive = .ok t') (he : e ∈ t.fingers) (hactive : e.2.isActive) :
  e ∈ t'.fingers
  := by
  rw [evictPassive] at h
  split at h
  · cases hw : worstPassiveLoop t.fingers none (-1) with
    | none =>
        rw [hw] at h
        cases h
    | some w =>
        rw [hw] at h
        cases h
        have hpassive : w.2.isPassive := isPassive_of_worstPassiveLoop_eq (by simp) hw
        have hwmem := (mem_of_worstPassiveLoop_eq hw).resolve_right (by simp)
        rw [fingers_removeFinger]
        apply (List.mem_eraseP_of_neg _).mpr he
        -- Another finger at the address of `w` would be `w`, which is passive.
        have hne : e.1 ≠ w.1 := by
          intro heq
          obtain rfl := List.inj_on_of_nodup_map haddr he hwmem heq
          rw [← Finger.not_isActive, hactive] at hpassive
          cases hpassive
        simpa using hne
  · cases h
    exact he

/-- An active finger stays at its address when another is inserted. -/
theorem exists_mem_of_insertFinger_eq {choice : Option A} {node : Node}
    {u : ListedServer A × Option (A × Finger)} (haddr : (t.fingers.map Prod.fst).Nodup)
    (h : t.insertFinger choice node = .ok u) (he : e ∈ t.fingers) (hactive : e.2.isActive) :
  ∃ x ∈ u.1.fingers, x.1 = e.1 ∧ x.2.node.id = e.2.node.id
  := by
  obtain rfl | ⟨y, -, rfl⟩ | ⟨y, -, rfl⟩ | ⟨t', a, -, ht', -, rfl⟩ := t.insertFinger_cases h
  · exact ⟨e, he, rfl, rfl⟩
  · exact ⟨e, he, rfl, rfl⟩
  · refine ⟨_, List.mem_map.mpr ⟨e, he, rfl⟩, ?_⟩
    split
    · exact ⟨rfl, rfl⟩
    · exact ⟨rfl, rfl⟩
  · refine ⟨e, ?_, rfl, rfl⟩
    apply ((t'.countPassive 1).fingerlistInsert_perm (a, newFinger node)).symm.subset
    apply List.mem_cons_of_mem
    apply mem_of_evictPassive_eq haddr ht' he hactive

end ListedServer

/-! ### The handlers -/

namespace HeapServer

variable {A : Type} {srv : HeapServer A} {t : ListedServer A} {fuel : ℕ} {L : Library} {io : Io}
  {choice : Option A} {P : Prop} {frm : Node}

/-- A handler has left a server the heap holds, the same packets and the same code. -/
structure Mirrored (o : HeapProcess.Outcome A) (out : Tangent.Outcome) : Prop where
  srv : o.srv.Holds out.srv
  acts : o.acts = out.acts
  ret : o.ret = out.ret

theorem Refines.holds_forget (h : srv.Refines t) (hnamed : t.Named) :
  srv.Holds t.forget
  := ⟨t, h, hnamed, rfl⟩

theorem Refines.verifyTicket (h : srv.Refines t) (L : Library) (io : Io) (ticket : Bytes)
    (args : List HashArg) :
  Mirrors P Eq (HeapProcess.verifyTicket L io srv ticket args)
    (Tangent.verifyTicket L t.forget (io.time 0) ticket args)
  := by
  rw [HeapProcess.verifyTicket, h.members, t.verifyTicket_forget]
  cases Tangent.verifyTicket L t.members (io.time 0) ticket args with
  | ok valid => exact .ok rfl
  | error e => exact .error e

/-- A copy out of a field goes alike. -/
theorem v6AddrSet_mirrors (data : Bytes) (behind : ℕ → UInt8) :
  Mirrors P Eq (HeapProcess.v6AddrSet data behind) (Tangent.v6AddrSet data behind)
  := by
  rw [HeapProcess.v6AddrSet]
  cases Tangent.v6AddrSet data behind with
  | ok addr => exact .ok rfl
  | error e => exact .error e

theorem chordIdSet_mirrors (data : Bytes) (behind : ℕ → UInt8) :
  Mirrors P Eq (HeapProcess.chordIdSet data behind) (Tangent.chordIdSet data behind)
  := by
  rw [HeapProcess.chordIdSet]
  cases Tangent.chordIdSet data behind with
  | ok id => exact .ok rfl
  | error e => exact .error e

/-- Adopting an address changes members other than the list. -/
theorem Refines.adoptAddress (h : srv.Refines t) (L : Library) (addr : In6Addr) :
  ∃ t' : ListedServer A, t'.fingers = t.fingers ∧
    Refines { srv with members := adoptAddress L srv.members addr } t' ∧
    t'.forget = Tangent.adoptAddress L t.forget addr
  := ⟨⟨Tangent.adoptAddress L t.members addr, t.fingers⟩, rfl, ⟨by rw [h.members], h.flist⟩, rfl⟩

theorem Refines.processAddrDiscoverReply_mirrors (h : srv.Refines t) (hnamed : t.Named)
    (m : AddrDiscoverReply) (frm : Node) :
  Mirrors P Mirrored (HeapProcess.processAddrDiscoverReply L io srv m frm)
    (Tangent.processAddrDiscoverReply L io t.forget m frm)
  := by
  have hholds := h.holds_forget hnamed
  rw [HeapProcess.processAddrDiscoverReply, Tangent.processAddrDiscoverReply]
  apply (h.verifyTicket L io m.ticket (addrDiscoverArgs frm.addr frm.port)).bind
  rintro valid _ - rfl
  rw [t.node_forget, ← h.members]
  split
  · exact .ok ⟨hholds, rfl, rfl⟩
  · split
    · apply (v6AddrSet_mirrors m.addr io.behind).bind
      rintro addr _ - rfl
      obtain ⟨t', hfingers, href, hforget⟩ := h.adoptAddress L addr
      refine .ok ⟨⟨t', href, ?_, hforget⟩, rfl, rfl⟩
      exact ⟨hfingers ▸ hnamed.addresses, hfingers ▸ hnamed.ids⟩
    · exact .ok ⟨hholds, rfl, rfl⟩

theorem Refines.processData_mirrors (h : srv.Refines t) (hnamed : t.Named)
    (hfuel : t.fingers.length ≤ fuel) (m : Data) (frm : Node) :
  Mirrors P Mirrored (HeapProcess.processData fuel io srv m frm)
    (Tangent.processData io t.forget m frm)
  := by
  have hholds := h.holds_forget hnamed
  rw [HeapProcess.processData, Tangent.processData, t.node_forget, ← h.members]
  apply (chordIdSet_mirrors m.id io.behind).bind
  rintro id _ - rfl
  rw [t.chordIdIsLocal_forget, ← h.members]
  simp only
  split
  · exact .ok ⟨hholds, rfl, rfl⟩
  · split
    · exact .ok ⟨hholds, rfl, rfl⟩
    · split
      · exact .ok ⟨hholds, rfl, rfl⟩
      · rw [h.nextRouteNode hfuel]
        exact .ok ⟨hholds, rfl, rfl⟩

theorem Refines.processFs_mirrors (h : srv.Refines t) (hnamed : t.Named)
    (hfuel : t.fingers.length ≤ fuel) (m : FindSuccessor) (frm : Node) :
  Mirrors P Mirrored (HeapProcess.processFs fuel L io srv m frm)
    (Tangent.processFs L io t.forget m frm)
  := by
  have hholds := h.holds_forget hnamed
  have hfinds := h.succFinger hfuel
  rw [HeapProcess.processFs, Tangent.processFs, t.node_forget, ← h.members]
  simp only
  split
  · exact .ok ⟨hholds, rfl, rfl⟩
  · apply (v6AddrSet_mirrors m.addr io.behind).bind
    rintro addr _ - rfl
    split
    · exact .ok ⟨hholds, rfl, rfl⟩
    · split
      · exact .ok ⟨hholds, rfl, rfl⟩
      · generalize srv.succFinger fuel = x at hfinds ⊢
        generalize Tangent.succFinger t.forget = y at hfinds ⊢
        cases hfinds with
        | none => exact .ok ⟨hholds, rfl, rfl⟩
        | some read =>
            simp only [Except.ok_bind, read]
            split
            · exact .ok ⟨hholds, rfl, rfl⟩
            · rw [h.closestPrecedingNode hfuel]
              exact .ok ⟨hholds, rfl, rfl⟩

variable [DecidableEq A]

theorem Refines.processFsReply_mirrors (h : srv.Refines t) (hnamed : t.Named)
    (hfuel : t.fingers.length ≤ fuel) (m : FindSuccessorReply) (frm : Node) :
  Mirrors (∀ a, choice = some a → srv.InUse a) Mirrored
    (HeapProcess.processFsReply fuel L io srv choice m frm)
    (Tangent.processFsReply L io t.forget m frm)
  := by
  have hholds := h.holds_forget hnamed
  rw [HeapProcess.processFsReply, Tangent.processFsReply, t.node_forget, ← h.members]
  split
  · exact .ok ⟨hholds, rfl, rfl⟩
  · apply (v6AddrSet_mirrors m.addr io.behind).bind
    rintro addr _ - rfl
    apply (h.verifyTicket L io m.ticket fsArgs).bind
    rintro valid _ - rfl
    split
    · exact .ok ⟨hholds, rfl, rfl⟩
    · split
      · exact .ok ⟨hholds, rfl, rfl⟩
      · apply (h.insertFinger_mirrors hnamed hfuel choice
          ⟨_, addr, m.port.toUInt16⟩).bind
        rintro r r' - ⟨u, hu⟩
        rw [hu.fnew]
        split
        · exact .ok ⟨hu.holds, hu.sendPing_eq .., rfl⟩
        · exact .ok ⟨hu.holds, rfl, rfl⟩

/-- The predecessor looked up before the insertion is still there behind it. -/
theorem Refines.processStab_mirrors (h : srv.Refines t) (hnamed : t.Named)
    (hfuel : t.fingers.length ≤ fuel) (m : Stabilize) (frm : Node) :
  Mirrors (∀ a, choice = some a → srv.InUse a) Mirrored
    (HeapProcess.processStab fuel L io srv choice m frm)
    (Tangent.processStab L io t.forget m frm)
  := by
  have hholds := h.holds_forget hnamed
  rw [HeapProcess.processStab, Tangent.processStab, h.predFinger_eq hfuel, Except.ok_bind,
    ListedServer.predFinger_forget, t.node_forget, ← h.members]
  split
  · exact .ok ⟨hholds, rfl, rfl⟩
  · apply (v6AddrSet_mirrors m.addr io.behind).bind
    rintro addr _ - rfl
    apply (h.insertFinger_mirrors hnamed hfuel choice ⟨_, addr, m.port.toUInt16⟩).bind
    rintro r r' - ⟨u, hu⟩
    cases hpred : t.predFinger with
    | none => exact .ok ⟨hu.holds, rfl, rfl⟩
    | some e =>
        have he := List.mem_reverse.mp (List.mem_of_find?_eq_some hpred)
        have hactive : e.2.isActive :=
          List.find?_some (p := fun e : A × Finger => e.2.isActive) hpred
        obtain ⟨x, hx, haddr, hid⟩ :=
          ListedServer.exists_mem_of_insertFinger_eq hnamed.addresses hu.listed he hactive
        obtain ⟨c, hread, hval⟩ := hu.srv.exists_read_eq hx
        have hget := hu.named.getFinger_eq hx
        rw [haddr] at hread
        rw [hid] at hget
        simp only [Option.map_some, hread, Except.ok_bind, hu.srv',
          ListedServer.getFinger_forget, hget, hval]
        refine .ok ⟨?_, rfl, rfl⟩
        rw [← hu.srv']
        exact hu.holds

/-- Where there is no successor to notify, the code on the heap reads through `NULL`. -/
theorem Refines.processStabReply_mirrors (h : srv.Refines t) (hnamed : t.Named)
    (hfuel : t.fingers.length < fuel) (m : StabilizeReply) (frm : Node) :
  Mirrors (∀ a, choice = some a → srv.InUse a) Mirrored
    (HeapProcess.processStabReply fuel L io srv choice m frm)
    (Tangent.processStabReply L io t.forget m frm)
  := by
  have hholds := h.holds_forget hnamed
  rw [HeapProcess.processStabReply, Tangent.processStabReply, t.node_forget, ← h.members]
  split
  · exact .ok ⟨hholds, rfl, rfl⟩
  · apply (v6AddrSet_mirrors m.addr io.behind).bind
    rintro addr _ - rfl
    simp only
    split
    · exact .ok ⟨hholds, rfl, rfl⟩
    · apply (h.insertFinger_mirrors hnamed hfuel.le choice ⟨_, addr, m.port.toUInt16⟩).bind
      rintro r r' - ⟨u, hu⟩
      have hfinds := hu.srv.succFinger (hu.length_le hfuel)
      rw [← hu.srv'] at hfinds
      rw [hu.fnew]
      generalize r.srv.succFinger fuel = x at hfinds ⊢
      generalize Tangent.succFinger r'.srv = y at hfinds ⊢
      cases hfinds with
      | none => exact .error .nullPointer
      | some read =>
          simp only [Except.ok_bind, read]
          split
          · exact .ok ⟨hu.holds, hu.sendPing_eq .., rfl⟩
          · exact .ok ⟨hu.holds, rfl, rfl⟩

theorem Refines.processNotify_mirrors (h : srv.Refines t) (hnamed : t.Named)
    (hfuel : t.fingers.length ≤ fuel) (frm : Node) :
  Mirrors (∀ a, choice = some a → srv.InUse a) Mirrored
    (HeapProcess.processNotify fuel L io srv choice frm)
    (Tangent.processNotify L io t.forget frm)
  := by
  rw [HeapProcess.processNotify, Tangent.processNotify, t.node_forget, ← h.members]
  split
  · exact .ok ⟨h.holds_forget hnamed, rfl, rfl⟩
  · apply (h.insertFinger_mirrors hnamed hfuel choice frm).bind
    rintro r r' - ⟨u, hu⟩
    rw [hu.fnew]
    split
    · exact .ok ⟨hu.holds, hu.sendPing_eq .., rfl⟩
    · exact .ok ⟨hu.holds, rfl, rfl⟩

omit [DecidableEq A] in
/-- The test of `process_ping`. -/
theorem Refines.pingsBack (h : srv.Refines t) (hfuel : t.fingers.length ≤ fuel) (fnew : Bool)
    (id : ChordID) :
  (do
      let pred ← srv.predFinger fuel
      HeapProcess.pingsBack srv fnew pred id) = .ok (fnew && betterPred t.forget id)
  := by
  have hfinds := h.predFinger hfuel
  rw [betterPred, t.node_forget, ← h.members]
  generalize srv.predFinger fuel = x at hfinds ⊢
  generalize Tangent.predFinger t.forget = y at hfinds ⊢
  cases fnew with
  | false =>
      cases hfinds with
      | none => rfl
      | some read => rfl
  | true =>
      cases hfinds with
      | none => rfl
      | some read =>
          rw [Except.ok_bind, HeapProcess.pingsBack, if_pos rfl, read]
          rfl

theorem Refines.processPing_mirrors (h : srv.Refines t) (hnamed : t.Named)
    (hfuel : t.fingers.length < fuel) (m : Ping) (frm : Node) :
  Mirrors (∀ a, choice = some a → srv.InUse a) Mirrored
    (HeapProcess.processPing fuel L io srv choice m frm)
    (Tangent.processPing L io t.forget m frm)
  := by
  rw [HeapProcess.processPing, Tangent.processPing, t.node_forget, ← h.members]
  split
  · exact .ok ⟨h.holds_forget hnamed, rfl, rfl⟩
  · apply (h.insertFinger_mirrors hnamed hfuel.le choice frm).bind
    rintro r r' - ⟨u, hu⟩
    have hback := hu.srv.pingsBack (hu.length_le hfuel) (r'.fnew.getD io.fnew) frm.id
    rw [← hu.srv'] at hback
    obtain ⟨pred, hpred, hback⟩ := Except.bind_eq_ok.mp hback
    simp only [hu.fnew, hpred, hback, Except.ok_bind]
    refine .ok ⟨hu.holds, ?_, rfl⟩
    rw [hu.sendPing_eq]

theorem Refines.processPong_mirrors (h : srv.Refines t) (hnamed : t.Named)
    (hfuel : t.fingers.length < fuel) (m : Pong) (frm : Node) :
  Mirrors (∀ a, choice = some a → srv.InUse a) Mirrored
    (HeapProcess.processPong fuel L io srv choice m frm)
    (Tangent.processPong L io t.forget m frm)
  := by
  have hholds := h.holds_forget hnamed
  rw [HeapProcess.processPong, Tangent.processPong, t.node_forget, ← h.members]
  split
  · exact .ok ⟨hholds, rfl, rfl⟩
  · apply (h.verifyTicket L io m.ticket (pingArgs frm.addr frm.port m.time)).bind
    rintro valid _ - rfl
    split
    · exact .ok ⟨hholds, rfl, rfl⟩
    · apply (h.insertFinger_mirrors hnamed hfuel.le choice frm).bind
      rintro r r' - ⟨⟨t', x⟩, hu⟩
      rw [hu.finger, hu.finger']
      cases x with
      | none => exact .ok ⟨hu.holds, rfl, rfl⟩
      | some e =>
          have he := t.mem_of_insertFinger_eq hu.listed
          obtain ⟨l₁, l₂, hl⟩ := List.append_of_mem he
          obtain ⟨srv', hsrv', href⟩ := hu.srv.acceptPong (hu.length_le hfuel) hl
            (io.now 0 - m.time).toInt64.toInt
          have hforget := ListedServer.acceptPong_forget hu.named he
            (io.now 0 - m.time).toInt64.toInt
          rw [← hu.srv'] at hforget
          simp only [Option.map_some, hsrv', hforget, Except.ok_bind]
          exact .ok ⟨⟨_, href, hu.named.acceptPong e _, rfl⟩, rfl, rfl⟩

/-- Each handler goes like the handler with a list of fingers. -/
theorem Refines.process_mirrors (h : srv.Refines t) (hnamed : t.Named)
    (hfuel : t.fingers.length < fuel) (msg : Msg) (frm : Node) :
  Mirrors (∀ a, choice = some a → srv.InUse a) Mirrored
    (HeapProcess.process fuel L io srv choice msg frm) (Tangent.process L io t.forget msg frm)
  := by
  cases msg with
  | addrDiscover m => exact .ok ⟨h.holds_forget hnamed, rfl, rfl⟩
  | addrDiscoverReply m => apply h.processAddrDiscoverReply_mirrors hnamed
  | data m => apply h.processData_mirrors hnamed hfuel.le m frm
  | fs m => apply h.processFs_mirrors hnamed hfuel.le m frm
  | fsReply m => apply h.processFsReply_mirrors hnamed hfuel.le m frm
  | stab m => apply h.processStab_mirrors hnamed hfuel.le m frm
  | stabReply m => apply h.processStabReply_mirrors hnamed hfuel m frm
  | notify => apply h.processNotify_mirrors hnamed hfuel.le
  | ping m => apply h.processPing_mirrors hnamed hfuel
  | pong m => apply h.processPong_mirrors hnamed hfuel

end HeapServer

end Tangent

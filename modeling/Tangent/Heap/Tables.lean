import Tangent.Heap.Names
import Tangent.Safety.Maintenance

/-!
# Finger tables in memory

The servers of `Model.Server` hold their fingers in a list and tell them apart by their identifiers.
A heap server holds such a server if it represents its list.  Every run of operations on the heap
then goes like the run on the server it holds, and with the invariant of the finger table none ends
at an assertion.
-/

namespace Tangent

/-- The server after an operation, where fingers are told apart by their identifiers. -/
def applyOp {A : Type} (L : Library) (srv : ChordServer) :
    HeapServer.Op A → Except Fault ChordServer
  | .insert _ node => (insertFinger srv node.id node.addr node.port).map Inserted.srv
  | .pong _ node newRtt => do
      let r ← insertFinger srv node.id node.addr node.port
      match r.finger with
      | none => pure r.srv
      | some id => acceptPong r.srv id newRtt
  | .ping io => .ok (ping L io srv).1
  | .clean => cleanFingerList srv

/-- The server after a list of operations. -/
def applyOps {A : Type} (L : Library) (srv : ChordServer) (ops : List (HeapServer.Op A)) :
    Except Fault ChordServer :=
  Machine.run (applyOp L) srv ops

namespace ListedServer

variable {A : Type} [DecidableEq A] {L : Library} {t t' : ListedServer A} {op : HeapServer.Op A}

/-- An operation goes alike with and without addresses, if the allocator chooses fresh ones. -/
theorem Named.step (h : t.Named) (ht : t.step L op = .ok t')
    (haddr : (t'.fingers.map Prod.fst).Nodup) :
  t'.Named ∧ applyOp L t.forget op = .ok t'.forget
  := by
  cases op with
  | insert choice node =>
      obtain ⟨u, hu, rfl⟩ := Except.map_eq_ok.mp ht
      obtain ⟨fnew, hins⟩ := insertFinger_forget h hu
      refine ⟨⟨haddr, h.ids_insertFinger hu⟩, ?_⟩
      rw [applyOp, hins]
      rfl
  | pong choice node newRtt =>
      obtain ⟨⟨t₁, x⟩, hu, ht⟩ := Except.bind_eq_ok.mp ht
      obtain ⟨fnew, hins⟩ := insertFinger_forget h hu
      rw [applyOp, hins, Except.ok_bind]
      cases x with
      | none =>
          cases ht
          exact ⟨⟨haddr, h.ids_insertFinger hu⟩, rfl⟩
      | some e =>
          cases ht
          rw [addresses_acceptPong] at haddr
          have hnamed : t₁.Named := ⟨haddr, h.ids_insertFinger hu⟩
          use hnamed.acceptPong e newRtt
          apply acceptPong_forget hnamed (t.mem_of_insertFinger_eq hu)
  | ping io =>
      cases ht
      use h.ping L io
      rw [applyOp, ping_forget h]
  | clean =>
      cases ht
      exact ⟨h.cleanFingerList, cleanFingerList_forget h⟩

/-- Where an operation fails at an assertion, it does so without addresses. -/
theorem Named.step_assertion (h : t.Named) (ht : t.step L op = .error .assertion) :
  applyOp L t.forget op = .error .assertion
  := by
  cases op with
  | insert choice node =>
      rw [ListedServer.step] at ht
      cases hu : t.insertFinger choice node with
      | error e =>
          rw [hu] at ht
          cases ht
          rw [applyOp, insertFinger_forget_error h hu]
          rfl
      | ok u =>
          rw [hu] at ht
          cases ht
  | pong choice node newRtt =>
      rw [ListedServer.step, processPong] at ht
      cases hu : t.insertFinger choice node with
      | error e =>
          rw [hu] at ht
          cases ht
          rw [applyOp, insertFinger_forget_error h hu]
          rfl
      | ok u =>
          obtain ⟨t', x⟩ := u
          rw [hu, Except.ok_bind] at ht
          cases x <;> cases ht
  | ping io => cases ht
  | clean => cases ht

end ListedServer

namespace HeapServer

variable {A : Type} {L : Library} {srv : HeapServer A} {s s' : ChordServer} {fuel : ℕ}

/-- The heap holds the finger list of the server, and the other members agree. -/
def Holds (srv : HeapServer A) (s : ChordServer) : Prop :=
  ∃ t : ListedServer A, srv.Refines t ∧ t.Named ∧ t.forget = s

/-- A new server holds no fingers. -/
theorem holds_newServer (A : Type) (cfg : Config) :
  HeapServer.Holds (A := A) ⟨newServer cfg, ⟨none, none, fun _ => none⟩⟩ (newServer cfg)
  := ⟨⟨newServer cfg, []⟩, ⟨rfl, ⟨.nil none, .nil none⟩⟩, ⟨.nil, .nil⟩, rfl⟩

/-- A heap that represents a list in ring order holds the server with that list. -/
theorem Refines.holds {t : ListedServer A} (h : srv.Refines t) (horder : RingOrder t.forget) :
  srv.Holds t.forget
  := by
  have hids := horder.nodup_ids
  rw [ListedServer.flist_forget, List.map_map] at hids
  exact ⟨t, h, ⟨h.nodup, hids⟩, rfl⟩

variable {op : Op A} {ops : List (Op A)}

/-- The node of an operation is at the position of its peer, as that of a packet is. -/
def Op.Positioned (L : Library) : Op A → Prop
  | .insert _ node => node = node.peer.node L
  | .pong _ node _ => node = node.peer.node L
  | .ping _ => True
  | .clean => True

/-- With the invariant of the finger table, no operation fails. -/
theorem exists_applyOp_eq (hinv : TableInv L s) (hd : s.Discovered) (hop : op.Positioned L) :
  ∃ s', applyOp L s op = .ok s' ∧ TableSteps L {k | k ≠ .adopt} s s'
  := by
  cases op with
  | insert choice node =>
      obtain ⟨r, hr⟩ := hinv.insertFinger_ok node.id node.addr node.port
      refine ⟨r.srv, by rw [applyOp, hr]; rfl, ?_⟩
      rw [hop] at hr
      apply (insertFinger_steps hinv hd hr).mono
      rintro k (rfl | rfl | rfl) <;> simp
  | pong choice node newRtt =>
      obtain ⟨r, hr⟩ := hinv.insertFinger_ok node.id node.addr node.port
      rw [applyOp, hr, Except.ok_bind]
      rw [hop] at hr
      have hins := insertFinger_steps hinv hd hr
      have hkinds : TableSteps L {k | k ≠ .adopt} s r.srv := by
        apply hins.mono
        rintro k (rfl | rfl | rfl) <;> simp
      cases hfinger : r.finger with
      | none => exact ⟨r.srv, rfl, hkinds⟩
      | some id =>
          obtain ⟨rfl, f, hf, hid⟩ := insertFinger_mem hinv hr hfinger
          have hacc := acceptPong_eq (hins.inv hinv) hf newRtt
          rw [← hid]
          refine ⟨_, hacc, hkinds.trans ?_⟩
          apply (acceptPong_steps (hins.inv hinv) hf hacc).mono
          rintro k (rfl | rfl) <;> simp
  | ping io =>
      refine ⟨_, rfl, ?_⟩
      apply (ping_steps io hinv).mono
      rintro k (rfl | rfl | rfl) <;> simp
  | clean =>
      obtain ⟨s', hs', -, -⟩ := cleanFingerList_eq hinv.order
      refine ⟨s', hs', ?_⟩
      apply (cleanFingerList_steps hinv hs').mono
      rintro k rfl
      simp

variable [DecidableEq A]

/-- An operation on the heap goes like the operation on the server it holds. -/
theorem Holds.step (h : srv.Holds s) (hfuel : s.flist.length < fuel) (op : Op A) :
  (∃ srv' s', srv.step fuel L op = .ok srv' ∧ applyOp L s op = .ok s' ∧ srv'.Holds s' ∧
      s'.flist.length ≤ s.flist.length + 1) ∨
    (srv.step fuel L op = .error .assertion ∧ applyOp L s op = .error .assertion) ∨
    srv.step fuel L op = .error .noMemory
  := by
  obtain ⟨t, href, hnamed, rfl⟩ := h
  have hstep := href.step (by simpa [ListedServer.forget] using hfuel) (L := L) op
  generalize srv.step fuel L op = x at hstep ⊢
  cases hy : t.step L op with
  | ok t' =>
      rw [hy] at hstep
      cases hstep with
      | ok href' =>
          obtain ⟨hnamed', happly⟩ := hnamed.step hy href'.nodup
          refine .inl ⟨_, t'.forget, rfl, happly, ⟨t', href', hnamed', rfl⟩, ?_⟩
          simpa [ListedServer.forget] using t.length_le_of_step_eq hy
      | noMemory => exact .inr (.inr rfl)
  | error e =>
      rw [hy] at hstep
      cases hstep with
      | error =>
          rcases t.fault_of_step_eq hy with rfl | rfl
          · exact .inr (.inl ⟨rfl, hnamed.step_assertion hy⟩)
          · exact .inr (.inr rfl)
      | noMemory => exact .inr (.inr rfl)

/-- A run on a heap that holds a server with the invariant of the finger table goes like the run on
the server, and ends for want of memory at most. -/
theorem Holds.run (h : srv.Holds s) (hinv : TableInv L s) (hd : s.Discovered)
    (hops : ∀ op ∈ ops, op.Positioned L) (hfuel : s.flist.length + ops.length ≤ fuel) :
  (∃ srv' s', srv.run fuel L ops = .ok srv' ∧ applyOps L s ops = .ok s' ∧ srv'.Holds s' ∧
      TableInv L s') ∨
    srv.run fuel L ops = .error .noMemory
  := by
  induction ops generalizing srv s with
  | nil => exact .inl ⟨srv, s, rfl, rfl, h, hinv⟩
  | cons op ops ih =>
      rw [List.length_cons] at hfuel
      obtain ⟨s₁, hs₁, hsteps⟩ := exists_applyOp_eq hinv hd (hops op List.mem_cons_self)
      have hd₁ : s₁.Discovered := by
        rw [ChordServer.Discovered, (hsteps.sameNode (by simp)).1]
        exact hd
      rw [HeapServer.run, applyOps, Machine.run, Machine.run, hs₁]
      have hlt : s.flist.length < fuel := by omega
      rcases h.step hlt (L := L) op with
        ⟨srv', s', hsrv', hs', h', hlen⟩ | ⟨-, hfault⟩ | hfault
      · obtain rfl : s₁ = s' := by simpa [hs₁] using hs'
        rw [hsrv']
        apply ih h' (hsteps.inv hinv) hd₁ (fun op hop => hops op (List.mem_cons_of_mem _ hop))
        omega
      · rw [hs₁] at hfault
        cases hfault
      · rw [hfault]
        exact .inr rfl

end HeapServer

end Tangent

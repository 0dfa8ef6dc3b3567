import Tangent.Heap.Timer

/-!
# Runs of a server in memory

Whatever packets arrive and whatever timers fire, a server with its finger list in memory goes like
the server with a list of fingers that `Model.Run` describes, so what is proved of every run of the
latter holds of the code with its pointers.  A run may end early: at one of the uses of `NULL` that
a packet can bring about, where `ping` writes a text behind the end of its buffer, where a server
with a socket of version 4 sends to another address, or where the allocator finds no free memory.
-/

namespace Tangent

open DoublyLinked

variable {L : Library} {s : ChordServer} {e : Event} {f : Fault} {r : ChordServer × List Action}

/-! ### Where an event stops a server -/

/-- The event has the server send the packet; if `ping` does not return, it has sent some pings. -/
def SendsAt (L : Library) (s : ChordServer) (e : Event) (pkt : Packet) : Prop :=
  (∃ s' acts, react L s e = .ok (s', acts) ∧ .send pkt ∈ acts) ∨
    ∃ idx io, e = .tick idx io ∧ .send pkt ∈ (ping L io s).2

/-- The event stops the server with a fault: a packet is a stabilize reply for which there is no
successor, has a ticket that cannot be freed, or an empty field that is copied; the timer drops a
finger, and its text or that of the server does not fit; or a packet is sent to an address the
server cannot send to. -/
inductive StopsAt (L : Library) (s : ChordServer) (e : Event) : Fault → Prop where
  | nullPointer {frm : Peer} {msg : Msg} {io : Io} (packet : e = .packet frm msg io)
      (cause : repliesWithoutSuccessor io s msg ∨ ¬ msg.ticketFreeable L ∨
        copiesEmpty L io s frm msg) : StopsAt L s e .nullPointer
  | overrun {idx : ℕ} {io : Io} {g : Finger} (tick : e = .tick idx io) (mem : g ∈ s.flist)
      (dead : pingThresh ≤ g.npings) (texts : ¬ (textFits s.node.addr ∧ textFits g.node.addr)) :
      StopsAt L s e .overrun
  | assertion {pkt : Packet} (sends : SendsAt L s e pkt) (addr : ¬ CanSendTo s pkt.toAddr) :
      StopsAt L s e .assertion

/-- If the timer returns, it has done what it does without its buffers. -/
theorem Serve.stabilize_eq_ok {io : Io} {idx : ℕ} {t : Tick}
    (h : Serve.stabilize L io s idx = .ok t) :
  Tangent.stabilize L io s idx = .ok t
  := by
  rw [Serve.stabilize] at h
  split at h
  · exact h
  · obtain ⟨-, -, h⟩ := Except.bind_eq_ok.mp h
    exact h

theorem Serve.react_eq_ok (h : Serve.react L s e = .ok r) :
  Tangent.react L s e = .ok r
  := by
  cases e with
  | packet frm msg io => exact h
  | tick idx io =>
      obtain ⟨t, ht, rfl⟩ := Except.map_eq_ok.mp h
      rw [Tangent.react, Serve.stabilize_eq_ok ht]
      rfl
  | discover io => exact h

/-- A finger that `ping` pings is sent a packet. -/
theorem exists_ping_of_isPinged (L : Library) (io : Io) {g : Finger} {i : ℕ} (h : RingOrder s)
    (hg : (g, i) ∈ s.flist.zipIdx) (hpinged : isPinged s.toPing i g = true) :
  ∃ pkt, .send pkt ∈ (ping L io s).2 ∧ pkt.toAddr = g.node.addr
  := by
  have hpos : 0 < (ping L io s).2.countP (Action.isPingTo g.node.peer) := by
    rw [ping_countP L io h, pingsFrom, List.countP_pos_iff]
    exact ⟨(g, i), hg, by simp [hpinged]⟩
  obtain ⟨act, hact, hto⟩ := List.countP_pos_iff.mp hpos
  cases act with
  | upcall id data => cases hto
  | send pkt =>
      refine ⟨pkt, hact, ?_⟩
      obtain ⟨toAddr, toPort, msg⟩ := pkt
      cases msg with
      | ping m =>
          simp only [Action.isPingTo, decide_eq_true_eq] at hto
          exact congrArg Peer.addr hto
      | _ => cases hto

/-- What stops the timer of a reachable server is a call of `ping`. -/
theorem Reachable.tick_stops {io : Io} {idx : ℕ} (h : Reachable L s)
    (hfault : Serve.stabilize L io s idx = .error f) :
  StopsAt L s (.tick idx io) f
  := by
  obtain ⟨t, ht, -⟩ := h.cursorInv.exists_stabilize h.tableInv io idx
  rw [Serve.stabilize, ht] at hfault
  split at hfault
  · cases hfault
  · cases hping : Serve.ping L io s with
    | ok r =>
        rw [hping] at hfault
        cases hfault
    | error f' =>
        rw [hping] at hfault
        cases hfault
        obtain ⟨⟨g, i⟩, hg, hstops⟩ := Serve.stops_of_ping_eq hping
        cases hstops with
        | overrun dead texts => exact .overrun rfl (List.fst_mem_of_mem_zipIdx hg) dead texts
        | assertion pinged addr =>
            obtain ⟨pkt, hpkt, heq⟩ := exists_ping_of_isPinged L io h.tableInv.order hg pinged
            exact .assertion (.inr ⟨idx, io, rfl, hpkt⟩) (by rwa [heq])

/-- What stops a reachable server before its packets go out. -/
theorem Reachable.react_stops (h : Reachable L s) (hfault : Serve.react L s e = .error f) :
  StopsAt L s e f
  := by
  cases e with
  | packet frm msg io =>
      rw [Serve.react, Tangent.react] at hfault
      cases hout : process L io s msg (frm.node L) with
      | ok out =>
          rw [hout] at hfault
          cases hfault
      | error f' =>
          rw [hout] at hfault
          cases hfault
          obtain rfl := h.tableInv.process_fault hout
          apply StopsAt.nullPointer rfl
          by_contra hnone
          rw [not_or, not_or, not_not] at hnone
          obtain ⟨out, hok⟩ := h.tableInv.process_ok hnone.2.1 hnone.1 hnone.2.2
          rw [hout] at hok
          cases hok
  | tick idx io =>
      rw [Serve.react] at hfault
      cases ht : Serve.stabilize L io s idx with
      | ok t =>
          rw [ht] at hfault
          cases hfault
      | error f' =>
          rw [ht] at hfault
          cases hfault
          apply h.tick_stops ht
  | discover io => cases hfault

/-- What stops a reachable server. -/
theorem Reachable.serve_stops {acts : List Action} (h : Reachable L s)
    (hfault : serve L (s, acts) e = .error f) :
  StopsAt L s e f
  := by
  rw [serve] at hfault
  cases hr : Serve.react L s e with
  | error f' =>
      rw [hr] at hfault
      cases hfault
      apply h.react_stops hr
  | ok r =>
      rw [hr, Except.ok_bind] at hfault
      cases hsend : sendAll r.1 r.2 with
      | ok u =>
          rw [hsend] at hfault
          cases hfault
      | error f' =>
          rw [hsend] at hfault
          cases hfault
          obtain ⟨rfl, pkt, hpkt, haddr⟩ := sendAll_eq_error hsend
          have hreact := Serve.react_eq_ok hr
          have hs : step L s e = .ok r.1 := Except.map_eq_ok.mpr ⟨r, hreact, rfl⟩
          have hset := (step_steps h.tableInv hs).settings_eq
          simp only [ChordServer.settings, Prod.mk.injEq] at hset
          refine .assertion (.inl ⟨r.1, r.2, hreact, hpkt⟩) ?_
          rwa [CanSendTo, hset.2.2.1] at haddr

/-- The server after an event is reachable. -/
theorem Reachable.react {acts : List Action} {s' : ChordServer} (h : Reachable L s)
    (hr : react L s e = .ok (s', acts)) :
  Reachable L s'
  := by
  have hrun : Tangent.run L s [e] = .ok s' := by
    apply Machine.run_cons_eq_ok.mpr
    refine ⟨s', ?_, rfl⟩
    rw [step, hr]
    rfl
  apply h.run hrun

namespace HeapServer

variable {A : Type} {srv : HeapServer A} {fuel n : ℕ} {cfg : Config}
  {st : HeapServer A × List Action} {st' : ChordServer × List Action}
  {es : List (Event × Option A)} {choice : Option A}

/-- A neat heap holds a server with no more fingers. -/
theorem Holds.length_le (h : srv.Holds s) (hneat : srv.Neat n) :
  s.flist.length ≤ n
  := by
  obtain ⟨t, href, -, rfl⟩ := h
  obtain ⟨l, hrep, -, hlen⟩ := hneat
  rw [ListedServer.flist_forget, List.length_map, href.flist.unique hrep]
  exact hlen

/-- A server in memory and a reachable one with a list of fingers have come equally far. -/
structure Serves (L : Library) (n : ℕ) (st : HeapServer A × List Action)
    (st' : ChordServer × List Action) : Prop where
  neat : st.1.Neat n
  holds : st.1.Holds st'.1
  acts : st.2 = st'.2
  reachable : Reachable L st'.1

theorem Serves.newHeapServer (A : Type) (L : Library) (cfg : Config) :
  Serves L 0 (Tangent.newHeapServer A cfg, []) (newServer cfg, [])
  := ⟨Neat.newHeapServer A cfg, holds_newServer A cfg, rfl, cfg, [], rfl⟩

variable [DecidableEq A]

omit [DecidableEq A] in
/-- The packets of an event go out in memory as they do with a list of fingers. -/
theorem Reacts.sendAll {P : Prop} {r : HeapServer A × List Action}
    {r' : ChordServer × List Action} (h : Reacts r r') :
  Mirrors P Eq (r.1.sendAll r.2) (Tangent.sendAll r'.1 r'.2)
  := by
  obtain ⟨t, href, -, hforget⟩ := h.srv
  have hsame : Tangent.sendAll r.1.members r.2 = Tangent.sendAll r'.1 r'.2 := by
    have hv6 : t.members.isV6 = t.forget.isV6 := rfl
    rw [h.acts, href.members, ← hforget, sendAll_congr hv6]
  rw [HeapServer.sendAll, hsame]
  cases Tangent.sendAll r'.1 r'.2 with
  | ok u => exact .ok rfl
  | error e => exact .error e

/-- An event takes them equally far. -/
theorem Serves.serve (h : Serves L n st st') (hfuel : n < fuel) (e : Event) (choice : Option A) :
  Mirrors (∀ a, choice = some a → st.1.InUse a) (Serves L (n + 1))
    (HeapServer.serve fuel L st (e, choice)) (Tangent.serve L st' e)
  := by
  have hlen := (h.holds.length_le h.neat).trans_lt hfuel
  rw [HeapServer.serve, Tangent.serve]
  rcases (h.holds.react hlen choice e (L := L)).elim with
    ⟨r, r', hx, hy, hr⟩ | ⟨f, hx, hy⟩ | ⟨hx, hfree⟩
  · have hacts : st.2 ++ r.2 = st'.2 ++ r'.2 := by rw [h.acts, hr.acts]
    have hreach : Reachable L r'.1 := h.reachable.react (Serve.react_eq_ok hy)
    have hneat : r.1.Neat (n + 1) := h.neat.react hfuel.le hx
    simp only [hx, hy, Except.ok_bind]
    apply hr.sendAll.bind
    rintro u _ - -
    exact .ok ⟨hneat, hr.srv, hacts, hreach⟩
  · simp only [hx, hy]
    exact .error f
  · simp only [hx]
    exact .noMemory hfree _

/-- Where a run in memory ends for want of memory. -/
def Exhausts (fuel : ℕ) (L : Library) (st : HeapServer A × List Action)
    (es : List (Event × Option A)) : Prop :=
  ∃ st₁ e choice, Machine.Meets (HeapServer.serve fuel L) st es st₁ (e, choice) ∧
    ∀ a, choice = some a → st₁.1.InUse a

/-- Where a run in memory ends with a fault. -/
def Stops (fuel : ℕ) (L : Library) (st : HeapServer A × List Action)
    (es : List (Event × Option A)) (f : Fault) : Prop :=
  ∃ st₁ s e choice, Machine.Meets (HeapServer.serve fuel L) st es st₁ (e, choice) ∧
    st₁.1.Holds s ∧ StopsAt L s e f

variable {st₁ : HeapServer A × List Action} {ev : Event × Option A}

theorem Exhausts.cons (hs : HeapServer.serve fuel L st ev = .ok st₁)
    (h : Exhausts fuel L st₁ es) :
  Exhausts fuel L st (ev :: es)
  := by
  obtain ⟨st₂, e, choice, hmeets, hfree⟩ := h
  exact ⟨st₂, e, choice, Machine.meets_cons_iff.mpr (.inr ⟨st₁, hs, hmeets⟩), hfree⟩

theorem Stops.cons (hs : HeapServer.serve fuel L st ev = .ok st₁) (h : Stops fuel L st₁ es f) :
  Stops fuel L st (ev :: es) f
  := by
  obtain ⟨st₂, s, e, choice, hmeets, hcause⟩ := h
  exact ⟨st₂, s, e, choice, Machine.meets_cons_iff.mpr (.inr ⟨st₁, hs, hmeets⟩), hcause⟩

/-- The two go equally far through all events, or the one in memory ends early. -/
theorem Serves.run (h : Serves L n st st') (hfuel : n + es.length ≤ fuel) :
  (∃ r r', Machine.run (HeapServer.serve fuel L) st es = .ok r ∧
      Machine.run (Tangent.serve L) st' (es.map Prod.fst) = .ok r' ∧
      Serves L (n + es.length) r r') ∨
    (∃ f, Machine.run (HeapServer.serve fuel L) st es = .error (.ofFault f) ∧
      Machine.run (Tangent.serve L) st' (es.map Prod.fst) = .error f ∧
      Stops fuel L st es f) ∨
    (Machine.run (HeapServer.serve fuel L) st es = .error .noMemory ∧ Exhausts fuel L st es)
  := by
  induction es generalizing st st' n with
  | nil => exact .inl ⟨st, st', rfl, rfl, h⟩
  | cons ev es ih =>
      obtain ⟨e, choice⟩ := ev
      rw [List.length_cons] at hfuel ⊢
      rw [List.map_cons, Machine.run, Machine.run]
      simp only
      rcases (h.serve (show n < fuel by omega) e choice).elim with
        ⟨r, r', hx, hy, hr⟩ | ⟨f, hx, hy⟩ | ⟨hx, hfree⟩
      · simp only [hx, hy]
        have hrest := ih hr (by omega)
        rw [Nat.add_right_comm, Nat.add_assoc] at hrest
        apply hrest.imp_right
        apply Or.imp
        · rintro ⟨f, h₁, h₂, h₃⟩
          exact ⟨f, h₁, h₂, h₃.cons hx⟩
        · rintro ⟨h₁, h₂⟩
          exact ⟨h₁, h₂.cons hx⟩
      · have hcause : StopsAt L st'.1 e f := h.reachable.serve_stops hy
        rw [hx, hy]
        right
        left
        exact ⟨f, rfl, rfl, st, st'.1, e, choice, Machine.meets_cons_iff.mpr (.inl ⟨rfl, rfl⟩),
          h.holds, hcause⟩
      · rw [hx]
        right
        right
        exact ⟨rfl, st, e, choice, Machine.meets_cons_iff.mpr (.inl ⟨rfl, rfl⟩), hfree⟩

/-- Every run of a new server in memory, whatever packets arrive and whatever timers fire, goes like
the run with a list of fingers: it does the same, and the heap it ends with holds the server the
other ends with.  Or both runs end with the same fault, at an event that `StopsAt` describes; or the
allocator found no free memory for a new finger.  So no other `NULL` is used, nor any finger that
has been freed, no other assertion fails, and every loop ends. -/
theorem heap_runs_like_list (L : Library) (cfg : Config) (hfuel : es.length ≤ fuel) :
  (∃ srv s acts,
      Machine.run (HeapServer.serve fuel L) (Tangent.newHeapServer A cfg, []) es
        = .ok (srv, acts) ∧
      Machine.run (Tangent.serve L) (newServer cfg, []) (es.map Prod.fst) = .ok (s, acts) ∧
      srv.Holds s ∧ Reachable L s) ∨
    (∃ f, Machine.run (HeapServer.serve fuel L) (Tangent.newHeapServer A cfg, []) es
        = .error (.ofFault f) ∧
      Machine.run (Tangent.serve L) (newServer cfg, []) (es.map Prod.fst) = .error f ∧
      Stops fuel L (Tangent.newHeapServer A cfg, []) es f) ∨
    (Machine.run (HeapServer.serve fuel L) (Tangent.newHeapServer A cfg, []) es
        = .error .noMemory ∧
      Exhausts fuel L (Tangent.newHeapServer A cfg, []) es)
  := by
  rcases (Serves.newHeapServer A L cfg).run ((Nat.zero_add _).trans_le hfuel) with
    ⟨⟨srv, acts⟩, ⟨s, acts'⟩, h₁, h₂, h⟩ | h
  · obtain rfl : acts = acts' := h.acts
    exact .inl ⟨srv, s, acts, h₁, h₂, h.holds, h.reachable⟩
  · exact .inr h

/-- The server of the sample has sent seven packets in memory, and as many with a list, and its list
starts with the finger at `2`. -/
theorem heap_runs_like_list_sample :
  ∃ srv s acts,
    Machine.run (HeapServer.serve 5 sampleLibrary)
        (Tangent.newHeapServer ℕ (sampleConfig (samplePeer 1 0)), []) sampleHeapEvents
      = .ok (srv, acts) ∧
    Machine.run (Tangent.serve sampleLibrary) (newServer (sampleConfig (samplePeer 1 0)), [])
        (sampleHeapEvents.map Prod.fst) = .ok (s, acts) ∧
    srv.Holds s ∧ acts.length = 7 ∧ srv.flist.head = some 2
  := by
  have hend : ((Machine.run (HeapServer.serve 5 sampleLibrary)
      (Tangent.newHeapServer ℕ (sampleConfig (samplePeer 1 0)), []) sampleHeapEvents).toOption.any
        fun st => decide (st.2.length = 7 ∧ st.1.flist.head = some 2)) = true := by decide +kernel
  rcases heap_runs_like_list (A := ℕ) sampleLibrary (sampleConfig (samplePeer 1 0))
    (show sampleHeapEvents.length ≤ 5 by decide) with
    ⟨srv, s, acts, h₁, h₂, hholds, -⟩ | ⟨f, h, -⟩ | ⟨h, -⟩
  · rw [h₁] at hend
    exact ⟨srv, s, acts, h₁, h₂, hholds, of_decide_eq_true hend⟩
  · rw [h] at hend
    cases hend
  · rw [h] at hend
    cases hend

end HeapServer

end Tangent

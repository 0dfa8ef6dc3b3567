import Tangent.Ownership

/-!
# Address discovery

A server without an address asks its well-known nodes for it, and starts the maintenance when
one of them answers.  It looks for its address while its address is the unspecified one, and
keeps no record of the phase besides its timers.  So the phases come apart when the address it
is told, and adopts, is the unspecified one: the timer of the discovery is then removed, though
there still is no address.
-/

namespace Tangent

variable {L : Library} {srv srv' : ChordServer} {e : Event}

/-! ### The two phases -/

/-- The timers of a server. -/
def ChordServer.timers (srv : ChordServer) : Bool × Bool :=
  (srv.discoverAddrEvent, srv.stabEvent)

/-- The server looks for its address: it has none, asks for it periodically, does no
maintenance and knows no finger. -/
def Searching (srv : ChordServer) : Prop :=
  ¬ srv.Discovered ∧ srv.timers = (true, false) ∧ srv.flist = []

/-- The server has found its address: it asks for it no longer, does its maintenance, and
keeps its address and its identifier from now on. -/
def Settled (L : Library) (srv : ChordServer) : Prop :=
  srv.Discovered ∧ srv.timers = (false, true) ∧
    ∀ es srv', run L srv es = .ok srv' →
      srv'.node.addr = srv.node.addr ∧ srv'.node.id = srv.node.id

/-- The event is a reply to an address discovery that tells the server the address `addr`,
with a ticket that verifies. -/
def tellsAddr (L : Library) (srv : ChordServer) (addr : In6Addr) : Event → Prop
  | .packet frm (.addrDiscoverReply m) io =>
      verifyTicket L srv (io.time 0) m.ticket (addrDiscoverArgs frm.addr frm.port) = .ok true ∧
        v6AddrSet m.addr io.behind = .ok addr
  | _ => False

/-- A server without an address is told the unspecified one, with a ticket that verifies. -/
def tellsUnspecified (L : Library) (srv : ChordServer) (e : Event) : Prop :=
  ¬ srv.Discovered ∧ ∃ addr, tellsAddr L srv addr e ∧ addr.isUnspecified = true

/-! ### The timers -/

/-- The timers are switched in no step but the adoption of an address. -/
theorem TableStep.timers_eq {k : Kind} (hs : TableStep L k srv srv') (hk : k ≠ .adopt) :
  srv'.timers = srv.timers
  := by
  by_cases hcursor : k = .cursor
  · subst hcursor
    cases hs
    rfl
  · have htimers := congrArg ChordServer.timers (hs.withoutTable_eq hk hcursor)
    exact htimers

theorem TableSteps.timers_eq {K : Set Kind} (hs : TableSteps L K srv srv') (hK : .adopt ∉ K) :
  srv'.timers = srv.timers
  := by
  apply hs.eq_of_step
  intro k hk s s' hstep
  apply hstep.timers_eq (ne_of_mem_of_not_mem hk hK)

/-! ### The steps of the discovery -/

/-- A server without an address stays as it is, but for the adoption of the address it is
told. -/
theorem TableInv.step_undiscovered (h : TableInv L srv) (hd : ¬ srv.Discovered)
    (hs : Tangent.step L srv e = .ok srv') :
  srv' = srv ∨ ∃ addr, tellsAddr L srv addr e ∧ srv' = adoptAddress L srv addr
  := by
  rw [Tangent.step, Except.map_eq_ok] at hs
  obtain ⟨⟨srv₁, acts⟩, hs, rfl⟩ := hs
  cases e with
  | packet frm msg io =>
      obtain ⟨out, ho, heq⟩ := Except.map_eq_ok.mp hs
      cases heq
      have he := process_effect ho
      generalize hout : out.srv = srv' at he
      cases he with
      | keep => exact .inl rfl
      | adopt undiscovered =>
          obtain ⟨-, rfl⟩ | ⟨-, hv, rfl⟩ | ⟨-, rfl⟩ := processAddrDiscoverReply_cases ho
          · exact .inl hout.symm
          · exact .inr ⟨_, ⟨hv, processAddrDiscoverReply_copy hd hv ho⟩, rfl⟩
          · exact .inl hout.symm
      | insert discovered named ticket inserted => exact absurd discovered hd
      | accept discovered verified inserted finger accepted => exact absurd discovered hd
  | tick idx io =>
      obtain ⟨t, ht, heq⟩ := Except.map_eq_ok.mp hs
      cases heq
      rw [stabilize, if_pos (h.undiscovered hd)] at ht
      cases ht
      exact .inl rfl
  | discover io =>
      cases hs
      exact .inl rfl

/-- A server without an address adopts the address it is told. -/
theorem step_eq_adoptAddress {addr : In6Addr} (hd : ¬ srv.Discovered)
    (ht : tellsAddr L srv addr e) :
  step L srv e = .ok (adoptAddress L srv addr)
  := by
  cases e with
  | packet frm msg io =>
      cases msg with
      | addrDiscoverReply m =>
          obtain ⟨hv, hcopy⟩ := ht
          have hun : srv.node.addr.isUnspecified = true := by
            simpa [ChordServer.Discovered] using hd
          have hv' : verifyTicket L srv (io.time 0) m.ticket
              (addrDiscoverArgs (frm.node L).addr (frm.node L).port) = .ok true := hv
          simp [step, react, process, processAddrDiscoverReply, hv', hun, hcopy, Except.map, bind,
            Except.bind, pure, Except.pure]
      | _ => exact ht.elim
  | tick idx io => exact ht.elim
  | discover io => exact ht.elim

/-- A server keeps its timers once it knows its address. -/
theorem TableInv.step_timers (h : TableInv L srv) (hd : srv.Discovered)
    (hs : Tangent.step L srv e = .ok srv') :
  srv'.timers = srv.timers
  := by
  apply (step_steps h hs).timers_eq
  simp [hd]

/-! ### The phases of a run -/

/-- What holds of a server in a run that adopts no unspecified address: it looks for its
address, or has one and the timers that go with it. -/
def InPhase (srv : ChordServer) : Prop :=
  Searching srv ∨ (srv.Discovered ∧ srv.timers = (false, true))

theorem InPhase.newServer (cfg : Config) :
  InPhase (newServer cfg)
  := by
  left
  refine ⟨?_, rfl, rfl⟩
  simp [ChordServer.Discovered, Tangent.newServer]

/-- A step that tells no unspecified address keeps the timers in line with the address. -/
theorem InPhase.step (h : TableInv L srv) (hphase : InPhase srv)
    (ht : ¬ tellsUnspecified L srv e) (hs : Tangent.step L srv e = .ok srv') :
  InPhase srv'
  := by
  rcases hphase with hsearch | ⟨hd, htimers⟩
  · obtain rfl | ⟨addr, htell, rfl⟩ := h.step_undiscovered hsearch.1 hs
    · exact .inl hsearch
    · right
      refine ⟨?_, rfl⟩
      apply Bool.eq_false_iff.mpr
      intro hun
      exact ht ⟨hsearch.1, addr, htell, hun⟩
  · right
    constructor
    · rw [ChordServer.Discovered, (h.step_sameNode hd hs).1]
      exact hd
    · rw [h.step_timers hd hs, htimers]

/-- A reachable server that knows its address keeps its node for ever. -/
theorem Reachable.node_eq {es : List Event} (h : Reachable L srv) (hd : srv.Discovered)
    (hrun : Tangent.run L srv es = .ok srv') :
  srv'.node = srv.node
  := by
  have hkeep : TableInv L srv' ∧ srv'.node = srv.node := by
    apply Machine.run_invariant (I := fun s => TableInv L s ∧ s.node = srv.node)
      ⟨h.tableInv, rfl⟩ _ hrun
    rintro s₁ e s₂ ⟨hinv, heq⟩ hs
    have hd₁ : s₁.Discovered := by
      rw [ChordServer.Discovered, heq]
      exact hd
    exact ⟨hinv.step hs, (hinv.step_sameNode hd₁ hs).1.trans heq⟩
  exact hkeep.2

/-- Every state of a run of a new server is one in which the server looks for its address or
has found it for good, if and only if the run meets no reply that tells a server without an
address the unspecified one. -/
theorem discovery_phases_iff (L : Library) (cfg : Config) (es : List Event) :
  (∀ srv, Machine.Visits (step L) (newServer cfg) es srv → Searching srv ∨ Settled L srv) ↔
    ∀ srv e, Machine.Meets (step L) (newServer cfg) es srv e → ¬ tellsUnspecified L srv e
  := by
  constructor
  · rintro h srv e hmeets ⟨hd, addr, htell, hun⟩
    have hs := step_eq_adoptAddress hd htell
    have hd' : ¬ (adoptAddress L srv addr).Discovered := not_discovered_of_unspecified hun
    rcases h _ (hmeets.visits_step hs) with ⟨-, htimers, -⟩ | ⟨hfound, -⟩
    · cases htimers
    · exact hd' hfound
  · intro h srv hvisits
    have hphase : InPhase srv := by
      apply hvisits.induction (P := InPhase) (InPhase.newServer cfg)
      intro s₁ e s₂ hmeets hphase hs
      apply hphase.step (Reachable.of_visits hmeets.visits).tableInv (h s₁ e hmeets) hs
    rcases hphase with hsearch | ⟨hd, htimers⟩
    · exact .inl hsearch
    · right
      refine ⟨hd, htimers, ?_⟩
      intro es' srv' hrun
      rw [(Reachable.of_visits hvisits).node_eq hd hrun]
      exact ⟨rfl, rfl⟩

/-- A new server that is told the unspecified address, with a valid ticket, stops looking for
its address without having one. -/
theorem discovery_stops_without_address :
  ∃ srv, Machine.Visits (step sampleLibrary) (newServer (sampleConfig (samplePeer 1 0)))
      [sampleAddr ⟨0, 1⟩] srv ∧
    ¬ Searching srv ∧ ¬ Settled sampleLibrary srv ∧ ¬ srv.Discovered ∧
    srv.discoverAddrEvent = false ∧ srv.stabEvent = true
  := by
  have hrun : run sampleLibrary (newServer (sampleConfig (samplePeer 1 0))) [sampleAddr ⟨0, 1⟩]
      = .ok (sampleServer ⟨0, 1⟩ []) := rfl
  have hd : ¬ (sampleServer ⟨0, 1⟩ []).Discovered := by decide
  refine ⟨sampleServer ⟨0, 1⟩ [], ⟨_, List.prefix_rfl, hrun⟩, ?_, ?_, hd, by decide, by decide⟩
  · rintro ⟨-, htimers, -⟩
    cases htimers
  · rintro ⟨hfound, -⟩
    exact hd hfound

end Tangent

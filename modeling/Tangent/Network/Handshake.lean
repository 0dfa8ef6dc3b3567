import Tangent.Network.Closer
import Tangent.Security.Exchange

/-!
# Handshakes

A ping that arrives comes back as a pong with the same ticket, and the pong makes the peer an
active finger.  So once every server has pinged its true neighbours, and the pings and the pongs
have arrived before their tickets time out, the ring is stable, whatever else happens meanwhile
and in whatever order.
-/

namespace Tangent

variable {ι : Type*} {L : Library} {io : Io} {n : ι → Node} {i j : ι} {srv srv' : ChordServer}
  {p : Peer} {ticket : Bytes} {time : UInt64} {t : ℕ}

/-! ### Tickets of pings -/

/-- The server has issued the ticket for a ping to `p` at the time `t`. -/
def Issued (L : Library) (srv : ChordServer) (t : ℕ) (p : Peer) (ticket : Bytes)
    (time : UInt64) : Prop :=
  t + ticketTimeout < 2 ^ 32 ∧ ticket = packTicket L srv t (pingArgs p.addr p.port time)

theorem Issued.congr (h : Issued L srv t p ticket time) (hset : srv'.settings = srv.settings) :
  Issued L srv' t p ticket time
  := by
  obtain ⟨hfits, rfl⟩ := h
  refine ⟨hfits, ?_⟩
  simp only [ChordServer.settings, Prod.mk.injEq] at hset
  simp only [packTicket, hset.1, hset.2.1]

/-- In a pong from `p`, the ticket verifies until it times out. -/
theorem Issued.verified (h : Issued L srv t p ticket time) (hpack : L.Roundtrip)
    (hreach : Reachable L srv) (hclock : io.time 0 ≤ t + ticketTimeout) :
  pongVerified L io srv p ⟨ticket, time⟩
  := by
  obtain ⟨hfits, rfl⟩ := h
  apply verifyTicket_self hpack hreach rfl hclock hfits

/-! ### One move -/

section Net

variable {net net' : Net ι} {ms : List (Move ι)} {m : Move ι}

/-- The pong of the member `j` to the member `i` with that ticket. -/
def pongBack (n : ι → Node) (i j : ι) (ticket : Bytes) (time : UInt64) : Datagram :=
  ⟨(n j).peer, (n i).peer, .pong ⟨ticket, time⟩⟩

/-- There is a ping from the member `i` to the member `j` on its way, or a pong back, with that
ticket, which the server has issued at the time `t`. -/
def Underway (L : Library) (n : ι → Node) (t : ℕ) (ticket : Bytes) (time : UInt64) (net : Net ι)
    (i j : ι) : Prop :=
  Issued L (net.servers i) t (n j).peer ticket time ∧
    (⟨(n i).peer, (n j).peer, .ping ⟨ticket, time⟩⟩ ∈ net.flight ∨
      pongBack n i j ticket time ∈ net.flight)

/-- When the server reads the pong with that ticket, which it has issued at the time `t`, the ticket
has not timed out. -/
def InTime (n : ι → Node) (t : ℕ) (ticket : Bytes) (time : UInt64) (ms : List (Move ι))
    (i j : ι) : Prop :=
  ∀ io, .deliver i (pongBack n i j ticket time) io ∈ ms → io.time 0 ≤ t + ticketTimeout

variable [DecidableEq ι]

/-- The servers keep their settings. -/
theorem MemberNet.settings_move (h : MemberNet L n net)
    (hm : netMove L (homes n) net m = .ok net') (i : ι) :
  (net'.servers i).settings = (net.servers i).settings
  := by
  have hupdate : ∀ {k srv flight}, srv.settings = (net.servers k).settings →
      ((⟨Function.update net.servers k srv, flight⟩ : Net ι).servers i).settings
        = (net.servers i).settings := by
    intro k srv flight hset
    by_cases hi : i = k
    · subst hi
      simpa using hset
    · simp [hi]
  obtain ⟨k, d, io, out, -, -, -, hout, rfl⟩ | ⟨hservers, -, -⟩ | ⟨k, idx, io, tk, -, ht, rfl⟩ :=
    h.move_cases hm
  · exact hupdate (process_steps (h.table k).inv hout).settings_eq
  · rw [hservers]
  · exact hupdate ((h.table k).inv.stabilize_shrinks ht).settings_eq

/-- The servers stay in states that new servers can reach. -/
theorem reachable_move {home : ι → Peer} (h : ∀ i, Reachable L (net.servers i))
    (hm : netMove L home net m = .ok net') (i : ι) :
  Reachable L (net'.servers i)
  := by
  have hreact : ∀ flight k e, Net.reactTo L home ⟨net.servers, flight⟩ k e = .ok net' →
      Reachable L (net'.servers i) := by
    intro flight k e hk
    obtain ⟨srv, acts, hsrv, rfl⟩ := reactTo_eq_ok.mp hk
    by_cases hi : i = k
    · subst hi
      have hstep : step L (net.servers i) e = .ok srv := Except.map_eq_ok.mpr ⟨_, hsrv, rfl⟩
      have hrun : run L (net.servers i) [e] = .ok srv :=
        Machine.run_cons_eq_ok.mpr ⟨srv, hstep, rfl⟩
      simp only [Function.update_self]
      exact (h i).run hrun
    · simp only [Function.update_of_ne hi]
      exact h i
  cases m with
  | deliver k d io =>
      rw [netMove] at hm
      split at hm
      · exact hreact _ k _ hm
      · cases hm
  | lose d =>
      rw [netMove] at hm
      split at hm
      · cases hm
        exact h i
      · cases hm
  | duplicate d =>
      rw [netMove] at hm
      split at hm
      · cases hm
        exact h i
      · cases hm
  | tick k idx io => exact hreact _ k _ hm
  | discover k io =>
      rw [netMove] at hm
      exact hreact _ k _ hm

/-- A datagram that is not lost stays on its way until it is delivered. -/
theorem mem_flight_of_move {d : Datagram} (hlossless : ∀ d, m ≠ .lose d)
    (hm : netMove L (homes n) net m = .ok net') (hd : d ∈ net.flight) :
  d ∈ net'.flight ∨ ∃ i io, m = .deliver i d io ∧ d.dst = (n i).peer
  := by
  cases m with
  | deliver i d' io =>
      rw [netMove] at hm
      split at hm
      · rename_i hpossible
        obtain ⟨srv, acts, -, rfl⟩ := reactTo_eq_ok.mp hm
        by_cases heq : d = d'
        · subst heq
          exact .inr ⟨i, io, rfl, hpossible.2⟩
        · exact .inl (List.mem_append_left _ ((List.mem_erase_of_ne heq).mpr hd))
      · cases hm
  | lose d' => exact absurd rfl (hlossless d')
  | duplicate d' =>
      rw [netMove] at hm
      split at hm
      · cases hm
        exact .inl (List.mem_cons_of_mem d' hd)
      · cases hm
  | tick i idx io =>
      obtain ⟨srv, acts, -, rfl⟩ := reactTo_eq_ok.mp hm
      exact .inl (List.mem_append_left _ hd)
  | discover i io =>
      rw [netMove] at hm
      obtain ⟨srv, acts, -, rfl⟩ := reactTo_eq_ok.mp hm
      exact .inl (List.mem_append_left _ hd)

omit [DecidableEq ι] in
/-- A member answers a ping with a pong that carries its ticket. -/
theorem MemberTable.answers_ping {frm : Peer} {m : Ping} {out : Outcome}
    (h : MemberTable L n i srv) (ho : process L io srv (.ping m) (frm.node L) = .ok out) :
  .send ⟨frm.addr, frm.port, .pong ⟨m.ticket, m.time⟩⟩ ∈ out.acts
  := by
  obtain ⟨hun, -⟩ | ⟨-, r, -, rfl⟩ := processPing_cases ho
  · exact absurd h.discovered hun
  · exact List.mem_append_right _ List.mem_cons_self

/-- An exchange that is underway stays so, until the pong is delivered. -/
theorem MemberNet.underway_move (h : MemberNet L n net)
    (ids : Function.Injective fun i => (n i).id) (hlossless : ∀ d, m ≠ .lose d)
    (hm : netMove L (homes n) net m = .ok net') (hway : Underway L n t ticket time net i j) :
  Underway L n t ticket time net' i j ∨
    ∃ io, m = .deliver i (pongBack n i j ticket time) io
  := by
  obtain ⟨hissued, hd⟩ := hway
  have hissued' := hissued.congr (h.settings_move hm i)
  rcases hd with hd | hd
  · rcases mem_flight_of_move hlossless hm hd with hd' | ⟨k, io, rfl, hdst⟩
    · exact .inl ⟨hissued', .inl hd'⟩
    · obtain rfl : j = k := h.peer_inj ids hdst
      obtain ⟨k, d, io', out, heq, -, -, hout, rfl⟩ | ⟨-, -, hno⟩ | ⟨k, idx, io', tk, heq, -, -⟩ :=
        h.move_cases hm
      · cases heq
        refine .inl ⟨hissued', .inr (List.mem_append_right _ ?_)⟩
        exact mem_datagrams_iff.mpr ⟨_, (h.table j).answers_ping hout, rfl⟩
      · exact absurd rfl (hno j _ io)
      · cases heq
  · rcases mem_flight_of_move hlossless hm hd with hd' | ⟨k, io, rfl, hdst⟩
    · exact .inl ⟨hissued', .inr hd'⟩
    · obtain rfl : i = k := h.peer_inj ids hdst
      exact .inr ⟨io, rfl⟩

/-! ### Runs -/

/-- Along a run without losses, an exchange that is underway stays so or makes the server get a
pong. -/
theorem MemberNet.underway_run (h : MemberNet L n net)
    (ids : Function.Injective fun i => (n i).id) (hpack : L.Roundtrip)
    (hreach : ∀ i, Reachable L (net.servers i)) (hlossless : ∀ d, .lose d ∉ ms)
    (intime : InTime n t ticket time ms i j)
    (hrun : netRun L (homes n) net ms = .ok net') (hway : Underway L n t ticket time net i j) :
  Underway L n t ticket time net' i j ∨ GetsPong L n net ms i j
  := by
  have hvisits : Machine.Visits (netMove L (homes n)) net ms net' := ⟨ms, List.prefix_rfl, hrun⟩
  have hend := hvisits.induction
    (P := fun net₁ => MemberNet L n net₁ ∧ (∀ i, Reachable L (net₁.servers i)) ∧
      (Underway L n t ticket time net₁ i j ∨ GetsPong L n net ms i j))
    ⟨h, hreach, .inl hway⟩ (by
      rintro net₁ m net₂ hmeets ⟨h₁, hreach₁, hway₁⟩ hm
      refine ⟨h₁.move hm, reachable_move hreach₁ hm, ?_⟩
      obtain hway₁ | hpong := hway₁
      · have hkept : ∀ d, m ≠ .lose d := by
          rintro d rfl
          exact hlossless d hmeets.mem
        obtain hway₂ | ⟨io, rfl⟩ := h₁.underway_move ids hkept hm hway₁
        · exact .inl hway₂
        · have hv := hway₁.1.verified hpack (hreach₁ i) (intime io hmeets.mem)
          exact .inr ⟨net₁, _, _, io, hmeets, rfl, rfl, hv⟩
      · exact .inr hpong)
  exact hend.2.2

/-- Whatever happens in a network of members, as long as no datagram is lost, and no tick removes
a successor or a predecessor: if every server has its true neighbours as active fingers, or at
some moment has a ping to them on its way or a pong from them, with a ticket that has not timed out
when the server reads it, and in the end no ping and no pong is left, then in the end the ring is
stable. -/
theorem handshakes_complete [Finite ι] [Nontrivial ι] (h : MemberNet L n net)
    (ids : Function.Injective fun i => (n i).id) (hpack : L.Roundtrip)
    (hreach : ∀ i, Reachable L (net.servers i)) (keeps : ticksKeep L n net ms)
    (hlossless : ∀ d, .lose d ∉ ms)
    (hrun : netRun L (homes n) net ms = .ok net')
    (quiet : ∀ d ∈ net'.flight, (∀ m, d.msg ≠ .ping m) ∧ ∀ m, d.msg ≠ .pong m)
    (meets : ∀ i j, (placement ids).IsSucc i j ∨ (placement ids).IsPred i j →
      (n j).id ∈ activeIds (net.servers i) ∨
        ∃ net₁ t ticket time, Machine.Visits (netMove L (homes n)) net ms net₁ ∧
          Underway L n t ticket time net₁ i j ∧ InTime n t ticket time ms i j) :
  ∀ i, StableTable L ids i (net'.servers i)
  := by
  apply (h.run hrun).stable_of_active ids
  intro i j hij
  obtain hactive | ⟨net₁, t, ticket, time, hvisits, hway, intime⟩ := meets i j hij
  · exact h.neighbour_stays ids keeps hrun hij ⟨[], List.nil_prefix, rfl⟩ hactive
  · obtain ⟨ms₁, ms₂, rfl, hrun₁, hrest⟩ := hvisits.rest hrun
    obtain ⟨-, hd | hd⟩ | ⟨net₂, d, m, io, hmeets, hpong⟩ :=
      (h.run hrun₁).underway_run ids hpack (Machine.run_invariant hreach
          (fun _ _ _ hr hm => reachable_move hr hm) hrun₁)
        (fun d hd => hlossless d (List.mem_append_right _ hd))
        (fun io hd => intime io (List.mem_append_right _ hd)) hrest hway
    · exact absurd rfl ((quiet _ hd).1 _)
    · exact absurd rfl ((quiet _ hd).2 _)
    · exact h.neighbour_of_pong ids keeps hrun hij
        ⟨net₂, d, m, io, hmeets.append_left hrun₁, hpong⟩

end Net

/-! ### A sample -/

/-- A ping from the first server, which does not know the second yet, is on its way to it. -/
def sampleAsking : Net (Fin 3) :=
  ⟨sampleArriving, [⟨samplePeer 10 0, samplePeer 20 0, .ping ⟨sampleTicket, 0⟩⟩]⟩

/-- The ping is delivered, and then the pong. -/
def sampleHandshake : List (Move (Fin 3)) :=
  [.deliver sampleSecond ⟨samplePeer 10 0, samplePeer 20 0, .ping ⟨sampleTicket, 0⟩⟩ sampleIo,
    sampleAccept]

theorem sampleAsking_members :
  MemberNet sampleLibrary sampleMembers sampleAsking
  where
  table := sampleArrival_members.table
  flight := by
    intro d hd
    rw [sampleAsking, List.mem_singleton] at hd
    subst hd
    exact ⟨⟨0, rfl⟩, .inr trivial⟩

theorem sampleHandshake_keeps :
  ticksKeep sampleLibrary sampleMembers sampleAsking sampleHandshake
  := by
  intro net i idx io hmeets
  have hmem := hmeets.mem
  simp [sampleHandshake, sampleAccept] at hmem

/-- After the handshake, the ring is stable. -/
theorem handshakes_complete_sample :
  ∃ net, netRun sampleLibrary (homes sampleMembers) sampleAsking sampleHandshake = .ok net ∧
    ∀ i, StableTable sampleLibrary sampleRing_stable.ids i (net.servers i)
  := by
  have hrun : ∃ net, netRun sampleLibrary (homes sampleMembers) sampleAsking sampleHandshake
      = .ok net ∧ net.flight = [] := ⟨_, rfl, by decide⟩
  obtain ⟨net, hrun, hflight⟩ := hrun
  have hissued : Issued sampleLibrary (sampleArriving 0) 0 (samplePeer 20 0) sampleTicket 0 :=
    ⟨by decide, by decide⟩
  refine ⟨net, hrun, ?_⟩
  apply handshakes_complete sampleAsking_members sampleRing_stable.ids
    sampleTickets_roundtrip sampleArriving_reachable sampleHandshake_keeps _ hrun
  · simp [hflight]
  · intro i j hij
    by_cases hpair : i = 0 ∧ j = 1
    · obtain ⟨rfl, rfl⟩ := hpair
      refine .inr ⟨_, 0, sampleTicket, 0, ⟨[], List.nil_prefix, rfl⟩,
        ⟨hissued, .inl List.mem_cons_self⟩, ?_⟩
      intro io hmem
      simp only [sampleHandshake, sampleAccept, List.mem_cons, Move.deliver.injEq,
        List.not_mem_nil, or_false] at hmem
      rcases hmem with ⟨-, -, rfl⟩ | ⟨-, -, rfl⟩ <;> decide
    · left
      revert i j
      decide
  · simp [sampleHandshake, sampleAccept]

end Tangent

import Tangent.Model.Serve
import Tangent.Table.Ping

/-!
# Where a server stops

A call of `ping` may stop the process where it drops a finger, because the texts of the addresses do
not fit into its buffers, and where it pings one, because a server with a socket of version 4 has to
send to another address.  `PingSafe` says when it does neither; then `Serve.ping` is `ping`.
-/

namespace Tangent

variable {L : Library} {io : Io} {srv srv' : ChordServer} {f : Finger} {e : Fault} {i : ℕ}

theorem writeText_of_fits {addr : In6Addr} (h : textFits addr) :
  writeText addr = .ok ()
  := if_pos h

theorem writeText_of_not_fits {addr : In6Addr} (h : ¬ textFits addr) :
  writeText addr = .error .overrun
  := if_neg h

/-- The addresses the server can send to. -/
def CanSendTo (srv : ChordServer) (addr : In6Addr) : Prop :=
  srv.isV6 = true ∨ addr.v4Mapped = true

instance (srv : ChordServer) (addr : In6Addr) : Decidable (CanSendTo srv addr) :=
  inferInstanceAs (Decidable (_ ∨ _))

theorem sendFunc_of_canSendTo {pkt : Packet} (h : CanSendTo srv pkt.toAddr) :
  sendFunc srv pkt = .ok ()
  := by
  rw [sendFunc]
  split
  · rfl
  · rename_i hv6
    rw [if_pos (h.resolve_left hv6)]

theorem sendFunc_of_not_canSendTo {pkt : Packet} (h : ¬ CanSendTo srv pkt.toAddr) :
  sendFunc srv pkt = .error .assertion
  := by
  rw [CanSendTo, not_or] at h
  rw [sendFunc, if_neg h.1, if_neg h.2]

theorem sendAll_singleton (srv : ChordServer) (pkt : Packet) :
  sendAll srv [.send pkt] = sendFunc srv pkt
  := by
  rw [sendAll]
  by_cases h : CanSendTo srv pkt.toAddr
  · rw [sendFunc_of_canSendTo h]
    rfl
  · rw [sendFunc_of_not_canSendTo h]
    rfl

/-- Which packets go out depends on the socket of the server only. -/
theorem sendAll_congr (h : srv'.isV6 = srv.isV6) (acts : List Action) :
  sendAll srv' acts = sendAll srv acts
  := by
  induction acts with
  | nil => rfl
  | cons act acts ih =>
      cases act with
      | send pkt => rw [sendAll, sendAll, sendFunc, sendFunc, h, ih]
      | upcall id data => exact ih

/-- Packets that do not go out are stopped by the assertion of `send_raw_v4`. -/
theorem sendAll_eq_error {acts : List Action} (h : sendAll srv acts = .error e) :
  e = .assertion ∧ ∃ pkt, .send pkt ∈ acts ∧ ¬ CanSendTo srv pkt.toAddr
  := by
  induction acts with
  | nil => cases h
  | cons act acts ih =>
      have htail (h : sendAll srv acts = .error e) :
          e = .assertion ∧ ∃ pkt, .send pkt ∈ act :: acts ∧ ¬ CanSendTo srv pkt.toAddr := by
        obtain ⟨he, pkt, hpkt, haddr⟩ := ih h
        exact ⟨he, pkt, List.mem_cons_of_mem act hpkt, haddr⟩
      cases act with
      | upcall id data => exact htail h
      | send pkt =>
          rw [sendAll] at h
          by_cases haddr : CanSendTo srv pkt.toAddr
          · rw [sendFunc_of_canSendTo haddr] at h
            apply htail h
          · rw [sendFunc_of_not_canSendTo haddr] at h
            cases h
            exact ⟨rfl, pkt, List.mem_cons_self, haddr⟩

/-- A ping goes out, or is stopped by the assertion of `send_raw_v4`. -/
theorem sendAll_sendPing (L : Library) (io : Io) (srv : ChordServer) (addr : In6Addr)
    (port : UInt16) :
  sendAll srv (sendPing L io srv [] addr port)
    = if CanSendTo srv addr then .ok () else .error .assertion
  := by
  refine (sendAll_singleton ..).trans ?_
  split
  · rename_i haddr
    apply sendFunc_of_canSendTo haddr
  · rename_i haddr
    apply sendFunc_of_not_canSendTo haddr

/-! ### The calls of `ping` -/

/-- What `ping` calls at the finger at the position `i`, and may not return from. -/
def pingCall (srv : ChordServer) (i : ℕ) (f : Finger) : Except Fault Unit :=
  if pingThresh ≤ f.npings then do
    writeText srv.node.addr
    writeText f.node.addr
  else if isPinged srv.toPing i f then
    if CanSendTo srv f.node.addr then .ok () else .error .assertion
  else
    .ok ()

/-- What it calls on its way along a part of the list that starts at the position `i`. -/
def pingCalls (srv : ChordServer) : ℕ → List Finger → Except Fault Unit
  | _, [] => .ok ()
  | i, f :: fs => do
      pingCall srv i f
      pingCalls srv (i + 1) fs

theorem pingCall_congr (h : srv'.withoutTable = srv.withoutTable) (i : ℕ) (f : Finger) :
  pingCall srv' i f = pingCall srv i f
  := by
  have hnode := congrArg ChordServer.node h
  have hv6 := congrArg ChordServer.isV6 h
  have htoPing := congrArg ChordServer.toPing h
  simp only [ChordServer.withoutTable] at hnode hv6 htoPing
  have hcan : CanSendTo srv' f.node.addr ↔ CanSendTo srv f.node.addr := by
    rw [CanSendTo, CanSendTo, hv6]
  simp only [pingCall, hnode, htoPing, hcan]

theorem pingCalls_congr (h : srv'.withoutTable = srv.withoutTable) (i : ℕ) (fs : List Finger) :
  pingCalls srv' i fs = pingCalls srv i fs
  := by
  induction fs generalizing i with
  | nil => rfl
  | cons f fs ih => rw [pingCalls, pingCalls, pingCall_congr h, ih]

/-- `ping` goes along the list like the walk that does not stop, as far as its calls return. -/
theorem Serve.pingLoop_eq (L : Library) (io : Io) (fs : List Finger) (i : ℕ) (st : PingState) :
  Serve.pingLoop L io fs i st
    = pingCalls st.srv i fs >>= fun _ => .ok (Tangent.pingLoop L io fs i st)
  := by
  induction fs generalizing i st with
  | nil => rfl
  | cons f fs ih =>
      rw [Serve.pingLoop, Tangent.pingLoop, pingCalls, pingCall]
      by_cases hdead : pingThresh ≤ f.npings
      · simp only [if_pos hdead, ih, bind_assoc]
        rw [pingCalls_congr (removeFinger_withoutTable st.srv f)]
      · by_cases hpinged : f.npings ≠ 0 ∨ st.srv.toPing = i
        · have hlive := (isPinged_of_live hdead).mpr hpinged
          have hsame : (modifyFinger st.srv f.node.id countPing).withoutTable
              = st.srv.withoutTable := rfl
          simp only [if_neg hdead, if_pos hpinged, if_pos hlive, sendAll_sendPing, ih,
            bind_assoc]
          rw [pingCalls_congr hsame]
        · have hquiet := mt (isPinged_of_live hdead).mp hpinged
          simp only [if_neg hdead, if_neg hpinged, if_neg hquiet, ih, Except.ok_bind]

theorem Serve.ping_eq (L : Library) (io : Io) (srv : ChordServer) :
  Serve.ping L io srv = pingCalls srv 0 srv.flist >>= fun _ => .ok (Tangent.ping L io srv)
  := by
  rw [Serve.ping, Serve.pingLoop_eq, bind_assoc]
  apply Except.bind_congr
  intro _ _
  simp only [Except.ok_bind, Tangent.ping]
  split
  · rfl
  · rfl

/-! ### Where `ping` passes -/

/-- `ping` gets past the finger at the position `i`: if it drops the finger, the texts of the two
addresses fit into the buffers, and if it pings it, the server can send to it. -/
structure PingPasses (srv : ChordServer) (i : ℕ) (f : Finger) : Prop where
  texts : pingThresh ≤ f.npings → textFits srv.node.addr ∧ textFits f.node.addr
  sends : isPinged srv.toPing i f = true → CanSendTo srv f.node.addr

/-- `ping` gets past every finger. -/
def PingSafe (srv : ChordServer) : Prop :=
  ∀ p ∈ srv.flist.zipIdx, PingPasses srv p.2 p.1

/-- `ping` does not get past a finger it drops, or not past one it pings. -/
inductive PingStops (srv : ChordServer) (i : ℕ) (f : Finger) : Fault → Prop where
  | overrun (dead : pingThresh ≤ f.npings)
      (texts : ¬ (textFits srv.node.addr ∧ textFits f.node.addr)) : PingStops srv i f .overrun
  | assertion (pinged : isPinged srv.toPing i f = true) (addr : ¬ CanSendTo srv f.node.addr) :
      PingStops srv i f .assertion

theorem PingPasses.not_stops (h : PingPasses srv i f) :
  ¬ PingStops srv i f e
  := by
  intro hstops
  cases hstops with
  | overrun dead texts => exact texts (h.texts dead)
  | assertion pinged addr => exact addr (h.sends pinged)

theorem pingCall_cases (srv : ChordServer) (i : ℕ) (f : Finger) :
  (pingCall srv i f = .ok () ∧ PingPasses srv i f) ∨
    ∃ e, pingCall srv i f = .error e ∧ PingStops srv i f e
  := by
  rw [pingCall]
  by_cases hdead : pingThresh ≤ f.npings
  · have hquiet : ¬ isPinged srv.toPing i f := by
      simp [isPinged_of_dead hdead]
    rw [if_pos hdead]
    by_cases hsrv : textFits srv.node.addr
    · rw [writeText_of_fits hsrv, Except.ok_bind]
      by_cases hf : textFits f.node.addr
      · exact .inl ⟨writeText_of_fits hf, fun _ => ⟨hsrv, hf⟩, fun h => absurd h hquiet⟩
      · exact .inr ⟨_, writeText_of_not_fits hf, .overrun hdead fun h => hf h.2⟩
    · rw [writeText_of_not_fits hsrv]
      exact .inr ⟨_, rfl, .overrun hdead fun h => hsrv h.1⟩
  · rw [if_neg hdead]
    split
    · rename_i hpinged
      split
      · rename_i haddr
        exact .inl ⟨rfl, fun h => absurd h hdead, fun _ => haddr⟩
      · rename_i haddr
        exact .inr ⟨_, rfl, .assertion hpinged haddr⟩
    · rename_i hquiet
      exact .inl ⟨rfl, fun h => absurd h hdead, fun h => absurd h hquiet⟩

theorem pingCalls_cases (srv : ChordServer) (i : ℕ) (fs : List Finger) :
  (pingCalls srv i fs = .ok () ∧ ∀ p ∈ fs.zipIdx i, PingPasses srv p.2 p.1) ∨
    ∃ e, pingCalls srv i fs = .error e ∧ ∃ p ∈ fs.zipIdx i, PingStops srv p.2 p.1 e
  := by
  induction fs generalizing i with
  | nil => exact .inl ⟨rfl, by simp⟩
  | cons f fs ih =>
      rw [pingCalls, List.zipIdx_cons]
      rcases pingCall_cases srv i f with ⟨hok, hpasses⟩ | ⟨e, herr, hstops⟩
      · rw [hok, Except.ok_bind]
        rcases ih (i + 1) with ⟨hrest, hall⟩ | ⟨e, hrest, p, hp, hstops⟩
        · exact .inl ⟨hrest, List.forall_mem_cons.mpr ⟨hpasses, hall⟩⟩
        · exact .inr ⟨e, hrest, p, List.mem_cons_of_mem _ hp, hstops⟩
      · rw [herr]
        exact .inr ⟨e, rfl, (f, i), List.mem_cons_self, hstops⟩

/-- Where `ping` gets past every finger, it does what it does without its buffers. -/
theorem Serve.ping_of_safe (h : PingSafe srv) (L : Library) (io : Io) :
  Serve.ping L io srv = .ok (Tangent.ping L io srv)
  := by
  rw [Serve.ping_eq]
  rcases pingCalls_cases srv 0 srv.flist with ⟨hok, -⟩ | ⟨e, -, p, hp, hstops⟩
  · rw [hok]
    rfl
  · exact absurd hstops (h p hp).not_stops

theorem Serve.safe_of_ping_eq {r : ChordServer × List Action} (h : Serve.ping L io srv = .ok r) :
  PingSafe srv
  := by
  rw [Serve.ping_eq] at h
  rcases pingCalls_cases srv 0 srv.flist with ⟨-, hall⟩ | ⟨e, herr, -⟩
  · exact hall
  · rw [herr] at h
    cases h

theorem Serve.stops_of_ping_eq (h : Serve.ping L io srv = .error e) :
  ∃ p ∈ srv.flist.zipIdx, PingStops srv p.2 p.1 e
  := by
  rw [Serve.ping_eq] at h
  rcases pingCalls_cases srv 0 srv.flist with ⟨hok, -⟩ | ⟨e', herr, hstops⟩
  · rw [hok] at h
    cases h
  · rw [herr] at h
    cases h
    exact hstops

end Tangent

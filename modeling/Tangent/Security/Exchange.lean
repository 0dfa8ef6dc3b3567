import Tangent.Routing.Ttl
import Tangent.Security.Requests

/-!
# Honest exchanges

A server that answers a request copies the ticket of the request into the answer, and a
server that sends a lookup on copies it into the copy.  So the ticket of an answer is the one
the server issued, and it verifies until it times out: the fields the handler of the answer
hashes are those of the request, if the answer comes from where the request was sent to.
-/

namespace Tangent

variable {L : Library} {io io' : Io} {srv srv' : ChordServer} {acts : List Action}

/-- A server that gets the message `m` sends the message `m'`. -/
def Answers (L : Library) (m m' : Msg) : Prop :=
  ∃ io srv frm out addr port, process L io srv m (Peer.node L frm) = .ok out ∧
    .send ⟨addr, port, m'⟩ ∈ out.acts

/-! ### Tickets on their way -/

theorem Answers.addrDiscover {m : AddrDiscover} {m' : AddrDiscoverReply}
    (h : Answers L (.addrDiscover m) (.addrDiscoverReply m')) :
  m'.ticket = m.ticket
  := by
  obtain ⟨io, srv, frm, out, addr, port, hout, hsend⟩ := h
  cases hout
  simp only [sendAddrDiscoverReply, sendPacket, List.nil_append, List.mem_singleton,
    Action.send.injEq, Packet.mk.injEq, Msg.addrDiscoverReply.injEq] at hsend
  rw [hsend.2.2]

theorem Answers.fs {m : FindSuccessor} {m' : FindSuccessorReply}
    (h : Answers L (.fs m) (.fsReply m')) :
  m'.ticket = m.ticket
  := by
  obtain ⟨io, srv, frm, out, addr, port, hout, hsend⟩ := h
  obtain ⟨ret, -, -, rfl⟩ | ⟨-, -, -, rfl⟩ | ⟨-, -, -, -, rfl⟩ | ⟨-, -, -, s, -, -, rfl⟩ |
    ⟨-, -, -, s, -, -, rfl⟩ := processFs_cases (n := frm.node L) hout
  · cases hsend
  · cases hsend
  · simp only [sendFsReply, sendPacket, List.nil_append, List.mem_singleton,
      Action.send.injEq, Packet.mk.injEq, Msg.fsReply.injEq] at hsend
    rw [hsend.2.2]
  · simp only [sendFsReply, sendPacket, List.nil_append, List.mem_singleton,
      Action.send.injEq, Packet.mk.injEq, Msg.fsReply.injEq] at hsend
    rw [hsend.2.2]
  · simp [sendFsForward, sendPacket] at hsend

/-- A pong carries the ticket and the time of the ping. -/
theorem Answers.ping {m : Ping} {m' : Pong} (h : Answers L (.ping m) (.pong m')) :
  m'.ticket = m.ticket ∧ m'.time = m.time
  := by
  obtain ⟨io, srv, frm, out, addr, port, hout, hsend⟩ := h
  obtain ⟨-, rfl⟩ | ⟨-, r, -, rfl⟩ := processPing_cases hout
  · cases hsend
  · simp only [sendPong, sendPacket, List.mem_append, List.mem_singleton, Action.send.injEq,
      Packet.mk.injEq, Msg.pong.injEq] at hsend
    rcases hsend with hsend | hsend
    · split at hsend
      · simp [sendPing, sendPacket] at hsend
      · cases hsend
    · rw [hsend.2.2]
      exact ⟨rfl, rfl⟩

/-- Copies of a lookup carry its ticket, however often it is sent on. -/
theorem FsForward.ticket_eq {m m' : FindSuccessor}
    (h : Relation.ReflTransGen (FsForward L) m m') :
  m'.ticket = m.ticket
  := by
  induction h with
  | refl => rfl
  | tail _ hop ih => rw [hop.eq.2.2, ih]

/-! ### Verification -/

/-- A ticket verifies for the request it was issued for until it times out. -/
theorem verifyTicket_self {t t' : ℕ} (hpack : L.Roundtrip) (h : Reachable L srv)
    (hset : srv'.settings = srv.settings) (hlate : t' ≤ t + ticketTimeout)
    (hfits : t + ticketTimeout < 2 ^ 32) (args : List HashArg) :
  verifyTicket L srv' t' (packTicket L srv t args) args = .ok true
  := by
  rw [verifyTicket_packTicket hpack h hset]
  unfold ticketTimeout at hlate hfits ⊢
  have htime : (UInt32.ofNat t).toNat = t := by
    rw [UInt32.toNat_ofNat']
    omega
  rw [htime]
  exact ⟨by omega, rfl⟩

/-- The tickets of a server verify in the answers of honest servers: the answer to an address
discovery or to a ping that comes from the address and port the request was sent to, and the
answer to a lookup that any number of servers have sent on, if it arrives before the ticket
times out. -/
theorem honest_replies_verify {es : List Event} {t t' : ℕ} {dst : Peer} (hpack : L.Roundtrip)
    (h : Reachable L srv) (hrun : run L srv es = .ok srv') (hissued : io.time acts.length = t)
    (hverified : io'.time 0 = t') (hlate : t' ≤ t + ticketTimeout)
    (hfits : t + ticketTimeout < 2 ^ 32) :
  (∀ m m', sendAddrDiscover L io srv acts dst.addr dst.port
        = acts ++ [.send ⟨dst.addr, dst.port, .addrDiscover m⟩] →
      Answers L (.addrDiscover m) (.addrDiscoverReply m') →
      carriesTicket L io' srv' dst (.addrDiscoverReply m')) ∧
    (∀ ttl addr port m m₁ m' frm, sendFs L io srv acts ttl dst.addr dst.port addr port
        = acts ++ [.send ⟨dst.addr, dst.port, .fs m⟩] →
      Relation.ReflTransGen (FsForward L) m m₁ → Answers L (.fs m₁) (.fsReply m') →
      carriesTicket L io' srv' frm (.fsReply m')) ∧
    (∀ m m', sendPing L io srv acts dst.addr dst.port
        = acts ++ [.send ⟨dst.addr, dst.port, .ping m⟩] →
      Answers L (.ping m) (.pong m') → carriesTicket L io' srv' dst (.pong m'))
  := by
  have hset := h.settings_eq hrun
  have hself := verifyTicket_self hpack h hset hlate hfits
  refine ⟨?_, ?_, ?_⟩
  · intro m m' hsent hanswer
    simp only [sendAddrDiscover, sendPacket, List.append_cancel_left_eq, List.cons.injEq,
      Action.send.injEq, Packet.mk.injEq, Msg.addrDiscover.injEq, hissued] at hsent
    rw [carriesTicket, hanswer.addrDiscover, ← hsent.1.2.2, hverified]
    apply hself
  · intro ttl addr port m m₁ m' frm hsent hops hanswer
    simp only [sendFs, sendFsForward, sendPacket, List.append_cancel_left_eq, List.cons.injEq,
      Action.send.injEq, Packet.mk.injEq, Msg.fs.injEq, hissued] at hsent
    rw [carriesTicket, hanswer.fs, FsForward.ticket_eq hops, ← hsent.1.2.2, hverified]
    apply hself
  · intro m m' hsent hanswer
    simp only [sendPing, sendPacket, List.append_cancel_left_eq, List.cons.injEq,
      Action.send.injEq, Packet.mk.injEq, Msg.ping.injEq, hissued] at hsent
    rw [carriesTicket, pongVerified, hanswer.ping.1, hanswer.ping.2, ← hsent.1.2.2, hverified]
    apply hself

/-- The ping of a new server, answered by another server. -/
theorem honest_replies_verify_sample :
  carriesTicket sampleTickets sampleIo (newServer (sampleConfig (samplePeer 10 0)))
    (samplePeer 20 0) (.pong
      ⟨packTicket sampleTickets (newServer (sampleConfig (samplePeer 10 0))) 0
        (pingArgs (samplePeer 20 0).addr (samplePeer 20 0).port 0), 0⟩)
  := by
  have hrun : run sampleTickets (newServer (sampleConfig (samplePeer 10 0))) []
      = .ok (newServer (sampleConfig (samplePeer 10 0))) := rfl
  have hissued : sampleIo.time ([] : List Action).length = 0 := rfl
  have hverified : sampleIo.time 0 = 0 := rfl
  apply (honest_replies_verify sampleTickets_roundtrip ⟨_, [], rfl⟩ hrun hissued hverified
    (by decide) (by decide)).2.2 _ _ rfl
  refine ⟨sampleIo, sampleServer (samplePeer 20 0) [], samplePeer 10 0, _,
    (samplePeer 10 0).addr, (samplePeer 10 0).port, rfl, ?_⟩
  decide

end Tangent

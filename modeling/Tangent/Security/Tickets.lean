import Tangent.Ownership

/-!
# Responses without a valid ticket

A response carries the ticket of the request it answers; a stabilize reply carries none.
The handlers of the other three responses reject a response whose ticket does not verify, if
the ticket can be unpacked or the library lets a missing one be freed; the handler of replies to
lookups copies the address before it tests the ticket, so the field must not be empty.  The
handler of stabilize replies rejects nothing once the server knows its address.
-/

namespace Tangent

variable {L : Library} {io : Io} {srv : ChordServer} {frm : Peer} {msg : Msg} {out : Outcome}

/-- The messages that answer a request of the server. -/
def Msg.IsResponse : Msg → Prop
  | .addrDiscoverReply _ => True
  | .fsReply _ => True
  | .stabReply _ => True
  | .pong _ => True
  | _ => False

/-- The message carries a ticket that verifies against the salt of the server for the
request the message answers. -/
def carriesTicket (L : Library) (io : Io) (srv : ChordServer) (frm : Peer) : Msg → Prop
  | .addrDiscoverReply m =>
      verifyTicket L srv (io.time 0) m.ticket (addrDiscoverArgs frm.addr frm.port) = .ok true
  | .fsReply m => verifyTicket L srv (io.time 0) m.ticket fsArgs = .ok true
  | .pong m => pongVerified L io srv frm m
  | _ => False

/-- The handler returns an error, keeps the server as it is and does nothing else. -/
def rejected (L : Library) (io : Io) (srv : ChordServer) (frm : Peer) (msg : Msg) : Prop :=
  ∃ ret, ret ≠ .noError ∧ process L io srv msg (frm.node L) = .ok ⟨srv, [], ret⟩

/-- The ticket can be unpacked, or it does no harm that it cannot. -/
def freeable (L : Library) (ticket : Bytes) : Prop :=
  L.ticketUnpack ticket ≠ none ∨ L.freeUnpackedNull = true

/-- The message meets a check that rejects it: the test for an unknown address, or the test
of the ticket, before which `process_fs_reply` copies the address. -/
def guarded (L : Library) (srv : ChordServer) : Msg → Prop
  | .addrDiscoverReply m => freeable L m.ticket
  | .fsReply m => ¬ srv.Discovered ∨ (m.addr ≠ [] ∧ freeable L m.ticket)
  | .stabReply _ => ¬ srv.Discovered
  | .pong m => ¬ srv.Discovered ∨ freeable L m.ticket
  | _ => False

/-- The test of a ticket fails, or the process does, depending on whether the ticket can be
freed. -/
theorem verifyTicket_of_ne {now : ℕ} {ticket : Bytes} {args : List HashArg}
    (h : verifyTicket L srv now ticket args ≠ .ok true) :
  (freeable L ticket ∧ verifyTicket L srv now ticket args = .ok false) ∨
    (¬ freeable L ticket ∧ verifyTicket L srv now ticket args = .error .nullPointer)
  := by
  rw [freeable]
  cases hunpack : L.ticketUnpack ticket with
  | none =>
      cases hfree : L.freeUnpackedNull with
      | true => simp [verifyTicket, hunpack, hfree]
      | false => simp [verifyTicket, hunpack, hfree]
  | some t =>
      refine .inl ⟨.inl (by simp), ?_⟩
      rw [verifyTicket, hunpack] at h ⊢
      simp only at h ⊢
      split
      · rfl
      · rename_i hlen
        rw [if_neg hlen] at h
        split
        · rfl
        · rename_i htime
          rw [if_neg htime] at h
          simpa using h

/-- A handler that tests a ticket which does not verify rejects the message if and only if
the ticket can be freed. -/
theorem checked_rejected_iff {now : ℕ} {ticket : Bytes} {args : List HashArg}
    {k : Except Fault Outcome} (h : verifyTicket L srv now ticket args ≠ .ok true) :
  (∃ ret, ret ≠ .noError ∧
    ((verifyTicket L srv now ticket args).bind fun valid =>
      if ¬ valid = true then .ok ⟨srv, [], .invalidTicket⟩ else k) = .ok ⟨srv, [], ret⟩) ↔
    freeable L ticket
  := by
  obtain ⟨hfree, hv⟩ | ⟨hfree, hv⟩ := verifyTicket_of_ne h
  · rw [hv]
    apply iff_of_true _ hfree
    use .invalidTicket, by decide
    rfl
  · rw [hv]
    apply iff_of_false _ hfree
    rintro ⟨ret, -, hret⟩
    cases hret

/-- A server that does not know its address rejects what needs it. -/
theorem undiscovered_rejected_iff {k : Except Fault Outcome} {P : Prop}
    (h : srv.Discovered → ((∃ ret, ret ≠ .noError ∧ k = .ok ⟨srv, [], ret⟩) ↔ P)) :
  (∃ ret, ret ≠ .noError ∧
    (if srv.node.addr.isUnspecified = true then .ok ⟨srv, [], .addrUndiscovered⟩ else k)
      = .ok ⟨srv, [], ret⟩) ↔ ¬ srv.Discovered ∨ P
  := by
  rw [ChordServer.Discovered, Bool.not_eq_false]
  split
  · rename_i hun
    apply iff_of_true _ (.inl hun)
    use .addrUndiscovered, by decide
  · rename_i hd
    rw [h (Bool.eq_false_iff.mpr hd), or_iff_right hd]

/-- A handler that copies an address rejects the message if and only if there is one and it
rejects the message afterwards. -/
theorem copied_rejected_iff {data : Bytes} {k : In6Addr → Except Fault Outcome} :
  (∃ ret, ret ≠ .noError ∧
    ((v6AddrSet data io.behind).bind fun addr => k addr) = .ok ⟨srv, [], ret⟩) ↔
    data ≠ [] ∧ ∃ ret, ret ≠ .noError ∧ k (fieldAddr data io.behind) = .ok ⟨srv, [], ret⟩
  := by
  constructor
  · rintro ⟨ret, hret, h⟩
    obtain ⟨addr, hcopy, h⟩ := Except.bind_eq_ok.mp h
    obtain ⟨hne, rfl⟩ := v6AddrSet_eq_ok.mp hcopy
    exact ⟨hne, ret, hret, h⟩
  · rintro ⟨hne, ret, hret, h⟩
    rw [v6AddrSet_of_ne hne]
    exact ⟨ret, hret, h⟩

/-- A server that does not know its address rejects everything but discovery requests and the
replies to its own; of a data packet it copies the identifier first. -/
theorem rejected_of_not_discovered (hun : ¬ srv.Discovered) (hask : ∀ m, msg ≠ .addrDiscover m)
    (htell : ∀ m, msg ≠ .addrDiscoverReply m) (hdata : ∀ m, msg = .data m → m.id ≠ []) :
  rejected L io srv frm msg
  := by
  have hun := unspecified_of_not_discovered hun
  use .addrUndiscovered, by decide
  cases msg with
  | addrDiscover m => exact absurd rfl (hask m)
  | addrDiscoverReply m => exact absurd rfl (htell m)
  | data m =>
      rw [process, processData, chordIdSet_of_ne (hdata m rfl), Except.ok_bind]
      exact if_pos hun
  | fs m => exact if_pos hun
  | fsReply m => exact if_pos hun
  | stab m => exact if_pos hun
  | stabReply m => exact if_pos hun
  | notify => exact if_pos hun
  | ping m => exact if_pos hun
  | pong m => exact if_pos hun

/-- The handler of stabilize replies returns no error to a server that knows its
address. -/
theorem processStabReply_ret {m : StabilizeReply} {n : Node} (hd : srv.Discovered)
    (h : processStabReply L io srv m n = .ok out) :
  out.ret = .noError
  := by
  obtain ⟨hun, -⟩ | ⟨-, -, rfl⟩ | ⟨-, -, r, -, succ, -, rfl⟩ := processStabReply_cases h
  · exact absurd hd hun
  · rfl
  · rfl

/-- A response that carries no valid ticket is rejected, with the server unchanged and
nothing sent, if and only if it is guarded: a stabilize reply only while the server does not
know its address, and another response only if its ticket can be freed or the server refuses
it before the test of the ticket; the address of a reply to a lookup must not be empty then. -/
theorem response_rejected_iff (hmsg : msg.IsResponse) (hno : ¬ carriesTicket L io srv frm msg) :
  rejected L io srv frm msg ↔ guarded L srv msg
  := by
  cases msg with
  | addrDiscoverReply m => exact checked_rejected_iff hno
  | fsReply m =>
      apply undiscovered_rejected_iff
      intro _
      apply copied_rejected_iff.trans
      apply and_congr_right
      intro _
      exact checked_rejected_iff hno
  | stabReply m =>
      rw [guarded]
      constructor
      · rintro ⟨ret, hret, ho⟩ hd
        exact hret (processStabReply_ret (n := frm.node L) hd ho)
      · intro hun
        apply rejected_of_not_discovered hun
        · simp
        · simp
        · simp
  | pong m =>
      apply undiscovered_rejected_iff
      intro _
      exact checked_rejected_iff hno
  | addrDiscover m => cases hmsg
  | data m => cases hmsg
  | fs m => cases hmsg
  | stab m => cases hmsg
  | notify => cases hmsg
  | ping m => cases hmsg

/-- A pong without a ticket. -/
theorem response_rejected_iff_sample :
  rejected sampleLibrary sampleIo (sampleServer (samplePeer 10 0) [samplePeer 20 0])
    (samplePeer 30 0) (.pong ⟨[], 0⟩)
  := by
  apply (response_rejected_iff _ _).mpr
  · exact .inr (.inr rfl)
  · trivial
  · rw [carriesTicket, pongVerified]
    decide

/-- A stabilize reply, which carries no ticket, makes a server insert the peer it names and
send two packets. -/
theorem stabReply_accepted :
  ∃ srv frm msg out, Reachable sampleLibrary srv ∧ msg.IsResponse ∧
    ¬ carriesTicket sampleLibrary sampleIo srv frm msg ∧
    process sampleLibrary sampleIo srv msg (frm.node sampleLibrary) = .ok out ∧
    out.ret = .noError ∧ out.srv ≠ srv ∧ out.acts.length = 2
  := by
  refine ⟨sampleServer (samplePeer 10 0) [samplePeer 20 0], samplePeer 40 0,
    .stabReply ⟨(samplePeer 30 0).addr.s6Addr, 1⟩, _, sampleServer_reachable _ _, trivial, id,
    rfl, ?_⟩
  decide

end Tangent

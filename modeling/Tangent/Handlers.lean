import Tangent.Model.Run

/-!
# The handlers case by case

What a handler of `process.c` returns, if it returns, in each of the cases its tests
distinguish.  The other modules take a handler apart by these lemmas and do not look into its
definition.
-/

namespace Tangent

variable {L : Library} {io : Io} {srv : ChordServer} {n : Node} {out : Outcome}

/-- The test for an unknown address. -/
theorem discovered_of_not_unspecified (h : ¬ srv.node.addr.isUnspecified = true) :
  srv.Discovered
  := Bool.eq_false_iff.mpr h

theorem not_discovered_of_unspecified (h : srv.node.addr.isUnspecified = true) :
  ¬ srv.Discovered
  := by
  rw [ChordServer.Discovered, h]
  simp

theorem not_unspecified_of_discovered (h : srv.Discovered) :
  ¬ srv.node.addr.isUnspecified = true
  := Bool.eq_false_iff.mp h

theorem unspecified_of_not_discovered (h : ¬ srv.Discovered) :
  srv.node.addr.isUnspecified = true
  := by
  rwa [ChordServer.Discovered, Bool.not_eq_false] at h

theorem processAddrDiscoverReply_cases {m : AddrDiscoverReply}
    (h : processAddrDiscoverReply L io srv m n = .ok out) :
  (verifyTicket L srv (io.time 0) m.ticket (addrDiscoverArgs n.addr n.port) = .ok false ∧
      out = ⟨srv, [], .invalidTicket⟩) ∨
    (¬ srv.Discovered ∧
      verifyTicket L srv (io.time 0) m.ticket (addrDiscoverArgs n.addr n.port) = .ok true ∧
      out = ⟨adoptAddress L srv (fieldAddr m.addr io.behind), [], .noError⟩) ∨
    (srv.Discovered ∧ out = ⟨srv, [], .noError⟩)
  := by
  simp only [processAddrDiscoverReply] at h
  obtain ⟨valid, hv, h⟩ := Except.bind_eq_ok.mp h
  split at h
  · rename_i hvalid
    rw [Bool.eq_false_iff.mpr hvalid] at hv
    cases h
    exact .inl ⟨hv, rfl⟩
  · rename_i hvalid
    rw [not_not.mp hvalid] at hv
    split at h
    · rename_i hun
      obtain ⟨addr, hcopy, h⟩ := Except.bind_eq_ok.mp h
      obtain ⟨-, rfl⟩ := v6AddrSet_eq_ok.mp hcopy
      cases h
      exact .inr (.inl ⟨not_discovered_of_unspecified hun, hv, rfl⟩)
    · rename_i hd
      cases h
      exact .inr (.inr ⟨discovered_of_not_unspecified hd, rfl⟩)

/-- The address of a reply is copied if it is adopted, so its field is not empty. -/
theorem processAddrDiscoverReply_copy {m : AddrDiscoverReply} (hd : ¬ srv.Discovered)
    (hv : verifyTicket L srv (io.time 0) m.ticket (addrDiscoverArgs n.addr n.port) = .ok true)
    (h : processAddrDiscoverReply L io srv m n = .ok out) :
  v6AddrSet m.addr io.behind = .ok (fieldAddr m.addr io.behind)
  := by
  simp only [processAddrDiscoverReply, hv] at h
  rw [Except.ok_bind, if_neg (by simp), if_pos (unspecified_of_not_discovered hd)] at h
  obtain ⟨addr, hcopy, -⟩ := Except.bind_eq_ok.mp h
  rw [hcopy, (v6AddrSet_eq_ok.mp hcopy).2]

/-- A data packet is dropped, handled, or sent to the next node. -/
theorem processData_cases {m : Data} (h : processData io srv m n = .ok out) :
  (∃ ret, ret ≠ .noError ∧ (¬ srv.Discovered ∨ m.ttl - 1 = 0) ∧ out = ⟨srv, [], ret⟩) ∨
    (srv.Discovered ∧ m.ttl - 1 ≠ 0 ∧
      chordIdIsLocal srv (fieldId m.id io.behind) = true ∧
      out = ⟨srv, [.upcall (fieldId m.id io.behind) m.data], .noError⟩) ∨
    (srv.Discovered ∧ m.ttl - 1 ≠ 0 ∧
      chordIdIsLocal srv (fieldId m.id io.behind) = false ∧
      out = ⟨srv, sendData [] (nextRouteNode srv (fieldId m.id io.behind) m.last).2
        (m.ttl - 1).toUInt8 (nextRouteNode srv (fieldId m.id io.behind) m.last).1
        (fieldId m.id io.behind) m.data, .noError⟩)
  := by
  simp only [processData] at h
  obtain ⟨id, hcopy, h⟩ := Except.bind_eq_ok.mp h
  obtain ⟨-, rfl⟩ := chordIdSet_eq_ok.mp hcopy
  split at h
  · rename_i hun
    cases h
    exact .inl ⟨.addrUndiscovered, by decide, .inl (not_discovered_of_unspecified hun), rfl⟩
  · rename_i hd
    have hd' := discovered_of_not_unspecified hd
    split at h
    · rename_i httl
      cases h
      exact .inl ⟨.ttlExpired, by decide, .inr httl, rfl⟩
    · rename_i httl
      split at h
      · rename_i hlocal
        cases h
        exact .inr (.inl ⟨hd', httl, hlocal, rfl⟩)
      · rename_i hlocal
        cases h
        exact .inr (.inr ⟨hd', httl, Bool.eq_false_iff.mpr hlocal, rfl⟩)

/-- The identifier of a data packet is copied first, so its field is not empty. -/
theorem processData_id_ne {m : Data} (h : processData io srv m n = .ok out) :
  m.id ≠ []
  := by
  simp only [processData] at h
  obtain ⟨id, hcopy, -⟩ := Except.bind_eq_ok.mp h
  exact (chordIdSet_eq_ok.mp hcopy).1

/-- The peer that asks for the successor of its position. -/
def FindSuccessor.requester (io : Io) (msg : FindSuccessor) : Peer :=
  ⟨fieldAddr msg.addr io.behind, msg.port.toUInt16⟩

/-- A lookup is dropped, answered with the server or its successor, or sent to the closest
preceding node. -/
theorem processFs_cases {m : FindSuccessor} (h : processFs L io srv m n = .ok out) :
  (∃ ret, ret ≠ .noError ∧ (¬ srv.Discovered ∨ m.ttl - 1 = 0) ∧ out = ⟨srv, [], ret⟩) ∨
    (srv.Discovered ∧ m.ttl - 1 ≠ 0 ∧ m.requester io = srv.node.peer ∧
      out = ⟨srv, [], .noError⟩) ∨
    (srv.Discovered ∧ m.ttl - 1 ≠ 0 ∧ m.requester io ≠ srv.node.peer ∧ succFinger srv = none ∧
      out = ⟨srv, sendFsReply [] m.ticket (m.requester io).addr (m.requester io).port
        srv.node.addr srv.node.port, .noError⟩) ∨
    (srv.Discovered ∧ m.ttl - 1 ≠ 0 ∧ m.requester io ≠ srv.node.peer ∧
      ∃ s, succFinger srv = some s ∧
      (idIsBetween ((m.requester io).node L).id srv.node.id s.node.id
        || idEquals ((m.requester io).node L).id s.node.id) = true ∧
      out = ⟨srv, sendFsReply [] m.ticket (m.requester io).addr (m.requester io).port
        s.node.addr s.node.port, .noError⟩) ∨
    (srv.Discovered ∧ m.ttl - 1 ≠ 0 ∧ m.requester io ≠ srv.node.peer ∧
      ∃ s, succFinger srv = some s ∧
      (idIsBetween ((m.requester io).node L).id srv.node.id s.node.id
        || idEquals ((m.requester io).node L).id s.node.id) = false ∧
      out = ⟨srv, sendFsForward [] m.ticket (m.ttl - 1).toUInt8
        (closestPrecedingNode srv ((m.requester io).node L).id false).addr
        (closestPrecedingNode srv ((m.requester io).node L).id false).port
        (m.requester io).addr (m.requester io).port, .noError⟩)
  := by
  simp only [processFs] at h
  split at h
  · rename_i hun
    cases h
    exact .inl ⟨.addrUndiscovered, by decide, .inl (not_discovered_of_unspecified hun), rfl⟩
  · rename_i hd
    have hd' := discovered_of_not_unspecified hd
    obtain ⟨addr, hcopy, h⟩ := Except.bind_eq_ok.mp h
    obtain ⟨-, rfl⟩ := v6AddrSet_eq_ok.mp hcopy
    split at h
    · rename_i httl
      cases h
      exact .inl ⟨.ttlExpired, by decide, .inr httl, rfl⟩
    · rename_i httl
      split at h
      · rename_i hself
        cases h
        exact .inr (.inl ⟨hd', httl, Node.peer_eq_iff.mpr hself, rfl⟩)
      · rename_i hself
        have hother : m.requester io ≠ srv.node.peer := mt Node.peer_eq_iff.mp hself
        split at h
        · rename_i hs
          cases h
          exact .inr (.inr (.inl ⟨hd', httl, hother, hs, rfl⟩))
        · rename_i s hs
          split at h
          · rename_i hid
            cases h
            exact .inr (.inr (.inr (.inl ⟨hd', httl, hother, s, hs, hid, rfl⟩)))
          · rename_i hid
            have hid' := Bool.eq_false_iff.mpr hid
            cases h
            exact .inr (.inr (.inr (.inr ⟨hd', httl, hother, s, hs, hid', rfl⟩)))

/-- The address of a lookup is copied before the test of the hop count, so its field is not
empty. -/
theorem processFs_addr_ne {m : FindSuccessor} (hd : srv.Discovered)
    (h : processFs L io srv m n = .ok out) :
  m.addr ≠ []
  := by
  simp only [processFs] at h
  rw [if_neg (not_unspecified_of_discovered hd)] at h
  obtain ⟨addr, hcopy, -⟩ := Except.bind_eq_ok.mp h
  exact (v6AddrSet_eq_ok.mp hcopy).1

/-- The test of the handlers of replies for the server's own address and port: the port of
the message has thirty-two bits. -/
def namesSelf (srv : ChordServer) (addr : In6Addr) (port : UInt32) : Prop :=
  v6AddrEquals srv.node.addr addr = true ∧ srv.node.port.toUInt32 = port

instance (srv : ChordServer) (addr : In6Addr) (port : UInt32) :
    Decidable (namesSelf srv addr port) :=
  inferInstanceAs (Decidable (_ ∧ _))

/-- The peer of a reply to a lookup is inserted, and pinged if it is new, if the ticket
verifies. -/
theorem processFsReply_cases {m : FindSuccessorReply}
    (h : processFsReply L io srv m n = .ok out) :
  (∃ ret, ret ≠ .noError ∧
      (¬ srv.Discovered ∨ verifyTicket L srv (io.time 0) m.ticket fsArgs = .ok false) ∧
      out = ⟨srv, [], ret⟩) ∨
    (srv.Discovered ∧ verifyTicket L srv (io.time 0) m.ticket fsArgs = .ok true ∧
      namesSelf srv (fieldAddr m.addr io.behind) m.port ∧ out = ⟨srv, [], .noError⟩) ∨
    (srv.Discovered ∧ verifyTicket L srv (io.time 0) m.ticket fsArgs = .ok true ∧
      ¬ namesSelf srv (fieldAddr m.addr io.behind) m.port ∧
      ∃ r, insertFinger srv (getAddressId L (fieldAddr m.addr io.behind) m.port.toUInt16)
        (fieldAddr m.addr io.behind) m.port.toUInt16 = .ok r ∧
      out = ⟨r.srv,
        if r.fnew.getD io.fnew then
          sendPing L io r.srv [] (fieldAddr m.addr io.behind) m.port.toUInt16
        else [],
        .noError⟩)
  := by
  simp only [processFsReply] at h
  split at h
  · rename_i hun
    cases h
    exact .inl ⟨.addrUndiscovered, by decide, .inl (not_discovered_of_unspecified hun), rfl⟩
  · rename_i hd
    have hd' := discovered_of_not_unspecified hd
    obtain ⟨addr, hcopy, h⟩ := Except.bind_eq_ok.mp h
    obtain ⟨-, rfl⟩ := v6AddrSet_eq_ok.mp hcopy
    obtain ⟨valid, hv, h⟩ := Except.bind_eq_ok.mp h
    split at h
    · rename_i hvalid
      rw [Bool.eq_false_iff.mpr hvalid] at hv
      cases h
      exact .inl ⟨.invalidTicket, by decide, .inr hv, rfl⟩
    · rename_i hvalid
      rw [not_not.mp hvalid] at hv
      split at h
      · rename_i hself
        cases h
        exact .inr (.inl ⟨hd', hv, hself, rfl⟩)
      · rename_i hself
        obtain ⟨r, hr, h⟩ := Except.bind_eq_ok.mp h
        refine .inr (.inr ⟨hd', hv, hself, r, hr, ?_⟩)
        split at h
        · rename_i hnew
          cases h
          rw [if_pos hnew]
        · rename_i hnew
          cases h
          rw [if_neg hnew]

/-- The address of a reply to a lookup is copied before the test of the ticket, so its field is
not empty. -/
theorem processFsReply_addr_ne {m : FindSuccessorReply} (hd : srv.Discovered)
    (h : processFsReply L io srv m n = .ok out) :
  m.addr ≠ []
  := by
  simp only [processFsReply] at h
  rw [if_neg (not_unspecified_of_discovered hd)] at h
  obtain ⟨addr, hcopy, -⟩ := Except.bind_eq_ok.mp h
  exact (v6AddrSet_eq_ok.mp hcopy).1

/-- The peer of a stabilize message is inserted, and told of the predecessor if there was
one. -/
theorem processStab_cases {m : Stabilize} (h : processStab L io srv m n = .ok out) :
  (¬ srv.Discovered ∧ out = ⟨srv, [], .addrUndiscovered⟩) ∨
    (srv.Discovered ∧ ∃ r,
      insertFinger srv (getAddressId L (fieldAddr m.addr io.behind) m.port.toUInt16)
        (fieldAddr m.addr io.behind) m.port.toUInt16 = .ok r ∧
      (out = ⟨r.srv, [], .noError⟩ ∨
        ∃ pred ∈ r.srv.flist, out = ⟨r.srv,
          sendStabReply [] (fieldAddr m.addr io.behind) m.port.toUInt16 pred.node.addr
            pred.node.port,
          .noError⟩))
  := by
  simp only [processStab] at h
  split at h
  · rename_i hun
    cases h
    exact .inl ⟨not_discovered_of_unspecified hun, rfl⟩
  · rename_i hd
    obtain ⟨addr, hcopy, h⟩ := Except.bind_eq_ok.mp h
    obtain ⟨-, rfl⟩ := v6AddrSet_eq_ok.mp hcopy
    obtain ⟨r, hr, h⟩ := Except.bind_eq_ok.mp h
    refine .inr ⟨discovered_of_not_unspecified hd, r, hr, ?_⟩
    split at h
    · cases h
      exact .inl rfl
    · split at h
      · cases h
      · rename_i pred hpred
        cases h
        exact .inr ⟨pred, List.mem_of_find?_eq_some hpred, rfl⟩

/-- The peer of a reply to a stabilize message is inserted unless it is the server itself;
the successor is notified, and the peer pinged if it is new. -/
theorem processStabReply_cases {m : StabilizeReply}
    (h : processStabReply L io srv m n = .ok out) :
  (¬ srv.Discovered ∧ out = ⟨srv, [], .addrUndiscovered⟩) ∨
    (srv.Discovered ∧ namesSelf srv (fieldAddr m.addr io.behind) m.port ∧
      out = ⟨srv, [], .noError⟩) ∨
    (srv.Discovered ∧ ¬ namesSelf srv (fieldAddr m.addr io.behind) m.port ∧ ∃ r,
      insertFinger srv (getAddressId L (fieldAddr m.addr io.behind) m.port.toUInt16)
        (fieldAddr m.addr io.behind) m.port.toUInt16 = .ok r ∧
      ∃ succ, succFinger r.srv = some succ ∧
      out = ⟨r.srv,
        if r.fnew.getD io.fnew then
          sendPing L io r.srv (sendNotify [] succ.node.addr succ.node.port)
            (fieldAddr m.addr io.behind) m.port.toUInt16
        else sendNotify [] succ.node.addr succ.node.port,
        .noError⟩)
  := by
  simp only [processStabReply] at h
  split at h
  · rename_i hun
    cases h
    exact .inl ⟨not_discovered_of_unspecified hun, rfl⟩
  · rename_i hd
    obtain ⟨addr, hcopy, h⟩ := Except.bind_eq_ok.mp h
    obtain ⟨-, rfl⟩ := v6AddrSet_eq_ok.mp hcopy
    split at h
    · rename_i hself
      cases h
      exact .inr (.inl ⟨discovered_of_not_unspecified hd, hself, rfl⟩)
    · rename_i hself
      obtain ⟨r, hr, h⟩ := Except.bind_eq_ok.mp h
      split at h
      · cases h
      · rename_i succ hsucc
        refine .inr (.inr ⟨discovered_of_not_unspecified hd, hself, r, hr, succ, hsucc, ?_⟩)
        split at h
        · rename_i hnew
          cases h
          rw [if_pos hnew]
        · rename_i hnew
          cases h
          rw [if_neg hnew]

/-- The sender of a notification is inserted, and pinged if it is new. -/
theorem processNotify_cases (h : processNotify L io srv n = .ok out) :
  (¬ srv.Discovered ∧ out = ⟨srv, [], .addrUndiscovered⟩) ∨
    (srv.Discovered ∧ ∃ r, insertFinger srv n.id n.addr n.port = .ok r ∧
      out = ⟨r.srv, if r.fnew.getD io.fnew then sendPing L io r.srv [] n.addr n.port else [],
        .noError⟩)
  := by
  simp only [processNotify] at h
  split at h
  · rename_i hun
    cases h
    exact .inl ⟨not_discovered_of_unspecified hun, rfl⟩
  · rename_i hd
    obtain ⟨r, hr, h⟩ := Except.bind_eq_ok.mp h
    refine .inr ⟨discovered_of_not_unspecified hd, r, hr, ?_⟩
    split at h
    · rename_i hnew
      cases h
      rw [if_pos hnew]
    · rename_i hnew
      cases h
      rw [if_neg hnew]

/-- The sender of a ping is inserted and answered; it is pinged back if it is new and would
be the predecessor. -/
theorem processPing_cases {m : Ping} (h : processPing L io srv m n = .ok out) :
  (¬ srv.Discovered ∧ out = ⟨srv, [], .addrUndiscovered⟩) ∨
    (srv.Discovered ∧ ∃ r, insertFinger srv n.id n.addr n.port = .ok r ∧
      out = ⟨r.srv,
        sendPong
          (if r.fnew.getD io.fnew && betterPred r.srv n.id then
            sendPing L io r.srv [] n.addr n.port
          else [])
          m.ticket n.addr n.port m.time,
        .noError⟩)
  := by
  simp only [processPing] at h
  split at h
  · rename_i hun
    cases h
    exact .inl ⟨not_discovered_of_unspecified hun, rfl⟩
  · rename_i hd
    obtain ⟨r, hr, h⟩ := Except.bind_eq_ok.mp h
    cases h
    exact .inr ⟨discovered_of_not_unspecified hd, r, hr, rfl⟩

/-- The sender of a pong is inserted and activated if the ticket verifies, unless it is the
server itself. -/
theorem processPong_cases {m : Pong} (h : processPong L io srv m n = .ok out) :
  (∃ ret, ret ≠ .noError ∧
      (¬ srv.Discovered ∨
        verifyTicket L srv (io.time 0) m.ticket (pingArgs n.addr n.port m.time) = .ok false) ∧
      out = ⟨srv, [], ret⟩) ∨
    (srv.Discovered ∧
      verifyTicket L srv (io.time 0) m.ticket (pingArgs n.addr n.port m.time) = .ok true ∧
      ∃ r, insertFinger srv n.id n.addr n.port = .ok r ∧
      ((r.finger = none ∧ out = ⟨r.srv, [], .fingerError⟩) ∨
        ∃ id srv', r.finger = some id ∧
          acceptPong r.srv id (io.now 0 - m.time).toInt64.toInt = .ok srv' ∧
          out = ⟨srv', [], .noError⟩))
  := by
  simp only [processPong] at h
  split at h
  · rename_i hun
    cases h
    exact .inl ⟨.addrUndiscovered, by decide, .inl (not_discovered_of_unspecified hun), rfl⟩
  · rename_i hd
    obtain ⟨valid, hv, h⟩ := Except.bind_eq_ok.mp h
    split at h
    · rename_i hvalid
      rw [Bool.eq_false_iff.mpr hvalid] at hv
      cases h
      exact .inl ⟨.invalidTicket, by decide, .inr hv, rfl⟩
    · rename_i hvalid
      rw [not_not.mp hvalid] at hv
      obtain ⟨r, hr, h⟩ := Except.bind_eq_ok.mp h
      refine .inr ⟨discovered_of_not_unspecified hd, hv, r, hr, ?_⟩
      split at h
      · rename_i hnone
        cases h
        exact .inl ⟨hnone, rfl⟩
      · rename_i id hid
        obtain ⟨srv', ha, h⟩ := Except.bind_eq_ok.mp h
        cases h
        exact .inr ⟨id, srv', hid, ha, rfl⟩

end Tangent

import Tangent.Safety.Fingers

/-!
# The flag for a new finger

A handler leaves it to `insert_finger` to store in `fnew` whether the finger is new, and pings
the peer if it is.  `insert_finger` stores nothing when it is asked to insert the server itself.
The handlers of replies keep the server itself out by a comparison of the ports as numbers of
thirty-two bits, though `insert_finger` gets the low sixteen bits; those of notifications and
pings do not compare at all.
-/

namespace Tangent

variable {L : Library} {io : Io} {srv : ChordServer} {frm p : Peer} {msg : Msg} {r : Inserted}

/-- The handler of the message calls `insert_finger` with the result `r` and goes on to test
`fnew`.  The handler of stabilize replies gets there if there is a successor to notify. -/
inductive TestsFnew (L : Library) (io : Io) (srv : ChordServer) (frm : Peer) :
    Msg → Inserted → Prop where
  | fsReply {m : FindSuccessorReply} {r : Inserted} (discovered : srv.Discovered)
      (copied : m.addr ≠ [])
      (verified : verifyTicket L srv (io.time 0) m.ticket fsArgs = .ok true)
      (other : ¬ namesSelf srv (fieldAddr m.addr io.behind) m.port)
      (inserted : insertFinger srv ((peerNamed io m.addr m.port).node L).id
        (peerNamed io m.addr m.port).addr (peerNamed io m.addr m.port).port = .ok r) :
      TestsFnew L io srv frm (.fsReply m) r
  | stabReply {m : StabilizeReply} {r : Inserted} (discovered : srv.Discovered)
      (copied : m.addr ≠ [])
      (other : ¬ namesSelf srv (fieldAddr m.addr io.behind) m.port)
      (inserted : insertFinger srv ((peerNamed io m.addr m.port).node L).id
        (peerNamed io m.addr m.port).addr (peerNamed io m.addr m.port).port = .ok r)
      (successor : succFinger r.srv ≠ none) :
      TestsFnew L io srv frm (.stabReply m) r
  | notify {r : Inserted} (discovered : srv.Discovered)
      (inserted : insertFinger srv (frm.node L).id frm.addr frm.port = .ok r) :
      TestsFnew L io srv frm .notify r
  | ping {m : Ping} {r : Inserted} (discovered : srv.Discovered)
      (inserted : insertFinger srv (frm.node L).id frm.addr frm.port = .ok r) :
      TestsFnew L io srv frm (.ping m) r

/-- The address is the server's own, and the port is its own in the low sixteen bits only. -/
def aliasesSelf (srv : ChordServer) (addr : In6Addr) (port : UInt32) : Prop :=
  srv.node.addr = addr ∧ srv.node.port = port.toUInt16 ∧ srv.node.port.toUInt32 ≠ port

/-- The packet makes its handler insert the server itself and test `fnew` afterwards: a reply
whose port is the server's own but for the high bits, or a notification or a ping that comes
from the server's own address and port. -/
def insertsSelf (L : Library) (io : Io) (srv : ChordServer) (frm : Peer) : Msg → Prop
  | .fsReply m =>
      srv.Discovered ∧ m.addr ≠ [] ∧
        verifyTicket L srv (io.time 0) m.ticket fsArgs = .ok true ∧
        aliasesSelf srv (fieldAddr m.addr io.behind) m.port
  | .stabReply m =>
      srv.Discovered ∧ m.addr ≠ [] ∧ aliasesSelf srv (fieldAddr m.addr io.behind) m.port ∧
        succFinger srv ≠ none
  | .notify => srv.Discovered ∧ frm = srv.node.peer
  | .ping _ => srv.Discovered ∧ frm = srv.node.peer
  | _ => False

/-- `insert_finger` stores the flag if and only if the peer is not the server itself. -/
theorem insertFinger_fnew_iff (hr : insertFinger srv (p.node L).id p.addr p.port = .ok r) :
  r.fnew = none ↔ p = srv.node.peer
  := by
  obtain ⟨hp, rfl⟩ | ⟨hp, f, -, -, -, rfl⟩ | ⟨hp, f, -, -, -, rfl⟩ | ⟨hp, -, srv₁, -, rfl⟩ :=
    insertFinger_cases hr
  · exact iff_of_true rfl hp
  · exact iff_of_false (by simp) hp
  · exact iff_of_false (by simp) hp
  · exact iff_of_false (by simp) hp

/-- Asked to insert the server itself, `insert_finger` does nothing. -/
theorem insertFinger_self (hp : p = srv.node.peer) (id : ChordID) :
  insertFinger srv id p.addr p.port = .ok ⟨srv, none, none⟩
  := by
  rw [insertFinger, if_pos (Node.peer_eq_iff.mp hp)]

/-- The test of the handlers of replies lets the server itself through when the port is its
own in the low bits only. -/
theorem aliasesSelf_iff {addr : Bytes} {port : UInt32} :
  aliasesSelf srv (fieldAddr addr io.behind) port ↔
    ¬ namesSelf srv (fieldAddr addr io.behind) port ∧ peerNamed io addr port = srv.node.peer
  := by
  rw [aliasesSelf, namesSelf, v6AddrEquals_iff, peerNamed, Node.peer_eq_iff, v6AddrEquals_iff]
  tauto

/-- With a peer other than the server itself, the value `fnew` had before plays no role. -/
theorem getD_fnew (hr : insertFinger srv (p.node L).id p.addr p.port = .ok r)
    (hp : p ≠ srv.node.peer) (b b' : Bool) :
  r.fnew.getD b = r.fnew.getD b'
  := by
  obtain ⟨fnew, hfnew⟩ := Option.ne_none_iff_exists'.mp
    (mt (insertFinger_fnew_iff hr).mp hp)
  rw [hfnew]
  rfl

theorem processFsReply_congr {m : FindSuccessorReply}
    (h : ¬ insertsSelf L io srv frm (.fsReply m)) (b : Bool) :
  processFsReply L { io with fnew := b } srv m (frm.node L)
    = processFsReply L io srv m (frm.node L)
  := by
  rw [processFsReply, processFsReply]
  split
  · rfl
  · rename_i hun
    apply Except.bind_congr
    intro addr hcopy
    obtain ⟨hne, rfl⟩ := v6AddrSet_eq_ok.mp hcopy
    apply Except.bind_congr
    intro valid hv
    split
    · rfl
    · rename_i hvalid
      rw [not_not.mp hvalid] at hv
      split
      · rfl
      · rename_i hother
        apply Except.bind_congr
        intro r hr
        have hp : peerNamed io m.addr m.port ≠ srv.node.peer := by
          intro hp
          exact h ⟨discovered_of_not_unspecified hun, hne, hv, aliasesSelf_iff.mpr ⟨hother, hp⟩⟩
        rw [getD_fnew (p := peerNamed io m.addr m.port) hr hp b io.fnew]
        rfl

theorem processStabReply_congr {m : StabilizeReply}
    (h : ¬ insertsSelf L io srv frm (.stabReply m)) (b : Bool) :
  processStabReply L { io with fnew := b } srv m (frm.node L)
    = processStabReply L io srv m (frm.node L)
  := by
  rw [processStabReply, processStabReply]
  split
  · rfl
  · rename_i hun
    apply Except.bind_congr
    intro addr hcopy
    obtain ⟨hne, rfl⟩ := v6AddrSet_eq_ok.mp hcopy
    simp only
    split
    · rfl
    · rename_i hother
      apply Except.bind_congr
      intro r hr
      split
      · rfl
      · rename_i succ hsucc
        have hp : peerNamed io m.addr m.port ≠ srv.node.peer := by
          intro hp
          have hr' : insertFinger srv ((peerNamed io m.addr m.port).node L).id
            (peerNamed io m.addr m.port).addr (peerNamed io m.addr m.port).port = .ok r := hr
          rw [insertFinger_self hp] at hr'
          cases hr'
          refine h ⟨discovered_of_not_unspecified hun, hne, aliasesSelf_iff.mpr ⟨hother, hp⟩, ?_⟩
          rw [hsucc]
          simp
        rw [getD_fnew (p := peerNamed io m.addr m.port) hr hp b io.fnew]
        rfl

theorem processNotify_congr (h : ¬ insertsSelf L io srv frm .notify) (b : Bool) :
  processNotify L { io with fnew := b } srv (frm.node L) = processNotify L io srv (frm.node L)
  := by
  rw [processNotify, processNotify]
  split
  · rfl
  · rename_i hun
    apply Except.bind_congr
    intro r hr
    have hp : frm ≠ srv.node.peer := by
      intro hp
      exact h ⟨discovered_of_not_unspecified hun, hp⟩
    rw [getD_fnew hr hp b io.fnew]
    rfl

theorem processPing_congr {m : Ping} (h : ¬ insertsSelf L io srv frm (.ping m)) (b : Bool) :
  processPing L { io with fnew := b } srv m (frm.node L) = processPing L io srv m (frm.node L)
  := by
  rw [processPing, processPing]
  split
  · rfl
  · rename_i hun
    apply Except.bind_congr
    intro r hr
    have hp : frm ≠ srv.node.peer := by
      intro hp
      exact h ⟨discovered_of_not_unspecified hun, hp⟩
    rw [getD_fnew hr hp b io.fnew]
    rfl

/-- What a handler does does not depend on the value `fnew` had before, unless the packet makes
it insert the server itself. -/
theorem process_congr_fnew (h : ¬ insertsSelf L io srv frm msg) (b : Bool) :
  process L { io with fnew := b } srv msg (frm.node L) = process L io srv msg (frm.node L)
  := by
  cases msg with
  | addrDiscover m => rfl
  | addrDiscoverReply m => rfl
  | data m => rfl
  | fs m => rfl
  | fsReply m => exact processFsReply_congr h b
  | stab m => rfl
  | stabReply m => exact processStabReply_congr h b
  | notify => exact processNotify_congr h b
  | ping m => exact processPing_congr h b
  | pong m => rfl

/-- Before a handler tests `fnew`, `insert_finger` has stored it in that call, if and only if
the packet does not make the handler insert the server itself. -/
theorem fnew_stored_iff :
  (∀ r, TestsFnew L io srv frm msg r → r.fnew ≠ none) ↔ ¬ insertsSelf L io srv frm msg
  := by
  constructor
  · intro h hself
    cases msg with
    | fsReply m =>
        obtain ⟨hd, hne, hv, halias⟩ := hself
        obtain ⟨hother, hp⟩ := aliasesSelf_iff.mp halias
        exact h _ (.fsReply hd hne hv hother (insertFinger_self hp _)) rfl
    | stabReply m =>
        obtain ⟨hd, hne, halias, hsucc⟩ := hself
        obtain ⟨hother, hp⟩ := aliasesSelf_iff.mp halias
        exact h _ (.stabReply hd hne hother (insertFinger_self hp _) hsucc) rfl
    | notify =>
        obtain ⟨hd, hp⟩ := hself
        exact h _ (.notify hd (insertFinger_self hp _)) rfl
    | ping m =>
        obtain ⟨hd, hp⟩ := hself
        exact h _ (.ping hd (insertFinger_self hp _)) rfl
    | _ => exact hself
  · intro hother r htest hnone
    apply hother
    cases htest with
    | fsReply discovered copied verified other inserted =>
        have hp := (insertFinger_fnew_iff inserted).mp hnone
        exact ⟨discovered, copied, verified, aliasesSelf_iff.mpr ⟨other, hp⟩⟩
    | stabReply discovered copied other inserted successor =>
        have hp := (insertFinger_fnew_iff inserted).mp hnone
        rw [insertFinger_self hp] at inserted
        cases inserted
        exact ⟨discovered, copied, aliasesSelf_iff.mpr ⟨other, hp⟩, successor⟩
    | notify discovered inserted =>
        exact ⟨discovered, (insertFinger_fnew_iff inserted).mp hnone⟩
    | ping discovered inserted =>
        exact ⟨discovered, (insertFinger_fnew_iff inserted).mp hnone⟩

/-- In every state and for every packet, a handler tests a value of `fnew` that `insert_finger`
has stored in that call, if and only if the packet does not make the handler insert the server
itself; and then what it does is the same whatever `fnew` was before. -/
theorem fnew_defined_iff (L : Library) (io : Io) (srv : ChordServer) (frm : Peer) (msg : Msg) :
  ((∀ r, TestsFnew L io srv frm msg r → r.fnew ≠ none) ↔ ¬ insertsSelf L io srv frm msg) ∧
    (¬ insertsSelf L io srv frm msg → ∀ b,
      process L { io with fnew := b } srv msg (frm.node L)
        = process L io srv msg (frm.node L))
  := ⟨fnew_stored_iff, process_congr_fnew⟩

/-- A notification that comes from the server's own address and port is answered by a ping or
not, depending on the value `fnew` happens to have. -/
theorem fnew_undefined_from_self :
  ∃ srv r, Reachable sampleLibrary srv ∧
    TestsFnew sampleLibrary sampleIo srv (samplePeer 1 0) .notify r ∧ r.fnew = none ∧
    process sampleLibrary { sampleIo with fnew := true } srv .notify
        ((samplePeer 1 0).node sampleLibrary)
      ≠ process sampleLibrary { sampleIo with fnew := false } srv .notify
        ((samplePeer 1 0).node sampleLibrary)
  := by
  refine ⟨sampleServer (samplePeer 1 0) [], _, sampleServer_reachable _ _,
    .notify ?_ (insertFinger_self ?_ _), rfl, ?_⟩
  · decide
  · decide
  · decide

end Tangent

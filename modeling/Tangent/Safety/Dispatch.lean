import Tangent.Model.Dispatcher
import Tangent.Model.Run
import Mathlib.Tactic.IntervalCases

/-!
# Every datagram is dispatched or dropped

`dispatch_packet` tests whether there is a handler for the type of a packet and whether the
message unpacks.  It does not test whether the header unpacked, and before it looks for the
handler it logs the name of the type, which it reads from `PACKET_NAMES` at the place the packet
says.  So a datagram is dispatched safely exactly if its header unpacks and has one of the ten
types; what then happens is what `process` does with the message.
-/

namespace Tangent

variable {W : Protobuf} {L : Library} {io : Io} {srv : ChordServer} {frm : Node}
  {buf : Bytes} {header : Header} {t : PacketType}

/-- The message of the given type in a payload. -/
def Protobuf.unpack (W : Protobuf) : PacketType → Bytes → Option Msg
  | .addrDiscover, b => (W.addrDiscoverUnpack b).map .addrDiscover
  | .addrDiscoverReply, b => (W.addrDiscoverReplyUnpack b).map .addrDiscoverReply
  | .data, b => (W.dataUnpack b).map .data
  | .fs, b => (W.findSuccessorUnpack b).map .fs
  | .fsReply, b => (W.findSuccessorReplyUnpack b).map .fsReply
  | .stab, b => (W.stabilizeUnpack b).map .stab
  | .stabReply, b => (W.stabilizeReplyUnpack b).map .stabReply
  | .notify, b => (W.notifyUnpack b).map fun _ => .notify
  | .ping, b => (W.pingUnpack b).map .ping
  | .pong, b => (W.pongUnpack b).map .pong

/-- What becomes of a packet whose payload holds the message, if any. -/
def dispatched (L : Library) (io : Io) (srv : ChordServer) (frm : Node) :
    Option Msg → Dispatched (Except Fault Outcome)
  | none => .unpackFailed
  | some msg => .ran (process L io srv msg frm)

/-- The datagram is dispatched or dropped: the process function registered for its type has run
on its message, or its message did not unpack, or nothing has happened. -/
def DispatchedOrDropped (W : Protobuf) (L : Library) (io : Io) (srv : ChordServer) (src : Source)
    (buf : Bytes) : Prop :=
  ∃ result, handlePacket W L io srv src buf = .ok result ∧
    (result = .dropped ∨ result = .unpackFailed ∨
      ∃ header t msg, W.headerUnpack buf = some header ∧ header.type = t.code.toUInt32 ∧
        W.unpack t header.payload = some msg ∧
        result = .ran (process L io srv msg (src.peer.node L)))

/-! ### The dispatcher of a server -/

section Setup

variable {R : Type} {d : Dispatcher R} {i size : ℕ}

/-- Setting the handler of a type below the size of the dispatcher fills its entry. -/
theorem dispatcherSetPacketBody_eq (hi : i < d.handlers.length) (handler : PacketHandler R) :
  dispatcherSetPacketBody d i handler
    = .ok { d with handlers := d.handlers.set i (some handler) }
  := by
  have hlt : (i : ℤ) < d.handlers.length := by
    exact_mod_cast hi
  have hget : getHandler d i = .ok (some d.handlers[i]) := by
    rw [getHandler, if_pos hlt, if_neg (by omega), Int.toNat_natCast,
      List.getElem?_eq_getElem hi]
  rw [dispatcherSetPacketBody, hget]
  simp only [initHandler, hlt, if_true, Int.toNat_natCast]

/-- Registering handlers under consecutive types fills the array in their order. -/
theorem foldlM_setPacketBody {T : Type} (code : T → ℕ) (handler : T → PacketHandler R)
    (ts : List T) (set : List (Option (PacketHandler R)))
    (hcodes : ts.map code = List.range' set.length ts.length) :
  ts.foldlM (fun d t => dispatcherSetPacketBody d (code t) (handler t))
      (⟨set ++ List.replicate ts.length none, []⟩ : Dispatcher R)
    = .ok ⟨set ++ ts.map fun t => some (handler t), []⟩
  := by
  induction ts generalizing set with
  | nil =>
      rw [List.foldlM_nil]
      simp [pure, Except.pure]
  | cons t ts ih =>
      simp only [List.map_cons, List.length_cons, List.range'_succ, List.cons.injEq] at hcodes
      have hi : code t < (set ++ List.replicate (ts.length + 1)
          (none : Option (PacketHandler R))).length := by
        simp [hcodes.1]
      have hset : (set ++ List.replicate (ts.length + 1) none).set (code t)
          (some (handler t)) = (set ++ [some (handler t)]) ++ List.replicate ts.length none := by
        rw [hcodes.1, List.set_append_right _ _ (le_refl _), List.replicate_succ]
        simp
      have htail := ih (set ++ [some (handler t)]) (by simpa using hcodes.2)
      rw [List.append_assoc set [some (handler t)] (ts.map _)] at htail
      rw [List.foldlM_cons, List.length_cons, dispatcherSetPacketBody_eq hi]
      simp only [hset]
      exact htail

/-- With a handler for its type, a packet is dispatched to it. -/
theorem dispatchPacket_eq {headerUnpack : Bytes → Option Header} {handler : PacketHandler R}
    (hheader : headerUnpack buf = some header) (hname : header.type.toNat < packetNames.length)
    (hbuf : header.type.toNat < size)
    (hget : getHandler d header.type.toInt32.toInt = .ok (some (some handler))) :
  dispatchPacket headerUnpack d size buf frm
    = .ok (handler.dispatch header.payload frm)
  := by
  simp only [dispatchPacket, hheader, hget, if_neg (not_le.mpr hname), if_neg (not_le.mpr hbuf)]

end Setup

/-- The dispatcher of a server has the ten handlers in its array and no odd ones. -/
theorem serverDispatcher_eq (W : Protobuf) (L : Library) (io : Io) (srv : ChordServer) :
  serverDispatcher W L io srv
    = .ok ⟨registeredTypes.map fun t => some (registered W L io srv t), []⟩
  := by
  apply foldlM_setPacketBody (fun t => t.code.toNat) (registered W L io srv) registeredTypes []
  rfl

/-- What `handle_packet` does is what `dispatch_packet` does with that dispatcher. -/
theorem handlePacket_eq_dispatchPacket (W : Protobuf) (L : Library) (io : Io)
    (srv : ChordServer) (src : Source) (buf : Bytes) :
  handlePacket W L io srv src buf
    = dispatchPacket W.headerUnpack
        ⟨registeredTypes.map fun t => some (registered W L io srv t), []⟩ bufsize buf
        (src.peer.node L)
  := by
  delta handlePacket
  rw [serverDispatcher_eq]

/-- The numbers below ten are the types of packets. -/
theorem exists_code_eq {n : UInt32} (h : n.toNat < packetNames.length) :
  ∃ t : PacketType, n = t.code.toUInt32
  := by
  have hn : n = UInt32.ofNat n.toNat := UInt32.ofNat_toNat.symm
  have hlt : n.toNat < 10 := h
  rw [hn]
  interval_cases n.toNat
  · exact ⟨.addrDiscover, rfl⟩
  · exact ⟨.addrDiscoverReply, rfl⟩
  · exact ⟨.data, rfl⟩
  · exact ⟨.fs, rfl⟩
  · exact ⟨.fsReply, rfl⟩
  · exact ⟨.stab, rfl⟩
  · exact ⟨.stabReply, rfl⟩
  · exact ⟨.notify, rfl⟩
  · exact ⟨.ping, rfl⟩
  · exact ⟨.pong, rfl⟩

theorem getHandler_eq (W : Protobuf) (L : Library) (io : Io) (srv : ChordServer)
    (t : PacketType) :
  getHandler ⟨registeredTypes.map fun t => some (registered W L io srv t), []⟩
      t.code.toUInt32.toInt32.toInt
    = .ok (some (some (registered W L io srv t)))
  := by
  cases t <;> rfl

/-- A handler whose process function does what `process` does with the messages of one
kind. -/
theorem dispatch_eq_dispatched {M : Type} {unpack : Bytes → Option M}
    {handle : M → Node → Except Fault Outcome} (kind : M → Msg)
    (hhandle : ∀ m, handle m frm = process L io srv (kind m) frm) (payload : Bytes) :
  (⟨M, unpack, handle⟩ : PacketHandler (Except Fault Outcome)).dispatch payload frm
    = dispatched L io srv frm ((unpack payload).map kind)
  := by
  simp only [PacketHandler.dispatch]
  cases unpack payload with
  | none => rfl
  | some m => simp [dispatched, hhandle]

/-- The handler of a type unpacks a message of that type and does with it what `process`
does. -/
theorem registered_dispatch (W : Protobuf) (L : Library) (io : Io) (srv : ChordServer)
    (frm : Node) (t : PacketType) (payload : Bytes) :
  (registered W L io srv t).dispatch payload frm
    = dispatched L io srv frm (W.unpack t payload)
  := by
  cases t with
  | addrDiscover => exact dispatch_eq_dispatched .addrDiscover (fun _ => rfl) payload
  | addrDiscoverReply => exact dispatch_eq_dispatched .addrDiscoverReply (fun _ => rfl) payload
  | data => exact dispatch_eq_dispatched .data (fun _ => rfl) payload
  | fs => exact dispatch_eq_dispatched .fs (fun _ => rfl) payload
  | fsReply => exact dispatch_eq_dispatched .fsReply (fun _ => rfl) payload
  | stab => exact dispatch_eq_dispatched .stab (fun _ => rfl) payload
  | stabReply => exact dispatch_eq_dispatched .stabReply (fun _ => rfl) payload
  | notify => exact dispatch_eq_dispatched (fun _ => .notify) (fun _ => rfl) payload
  | ping => exact dispatch_eq_dispatched .ping (fun _ => rfl) payload
  | pong => exact dispatch_eq_dispatched .pong (fun _ => rfl) payload

/-- A datagram whose header unpacks to one of the types is dispatched to the handler of that
type. -/
theorem handlePacket_eq {src : Source} (hheader : W.headerUnpack buf = some header)
    (ht : header.type = t.code.toUInt32) :
  handlePacket W L io srv src buf
    = .ok (dispatched L io srv (src.peer.node L) (W.unpack t header.payload))
  := by
  have hname : header.type.toNat < packetNames.length := by
    rw [ht]
    cases t <;> decide
  have hget := getHandler_eq W L io srv t
  rw [← ht] at hget
  rw [handlePacket_eq_dispatchPacket, ← registered_dispatch]
  exact dispatchPacket_eq hheader hname (hname.trans (by decide)) hget

/-! ### Safe datagrams -/

/-- A datagram is dispatched or dropped, and no header, name, buffer or handler is used that is
not there, if and only if its header unpacks and its type is one of the ten. -/
theorem dispatched_or_dropped_iff (W : Protobuf) (L : Library) (io : Io) (srv : ChordServer)
    (src : Source) (buf : Bytes) :
  DispatchedOrDropped W L io srv src buf ↔
    ∃ header, W.headerUnpack buf = some header ∧ header.type < 10
  := by
  constructor
  · rintro ⟨result, hresult, -⟩
    rw [handlePacket_eq_dispatchPacket, dispatchPacket] at hresult
    split at hresult
    · cases hresult
    · rename_i header hheader
      use header, hheader
      split at hresult
      · cases hresult
      · rename_i hname
        rw [UInt32.lt_iff_toNat_lt]
        exact not_le.mp hname
  · rintro ⟨header, hheader, hlt⟩
    obtain ⟨t, ht⟩ := exists_code_eq (UInt32.lt_iff_toNat_lt.mp hlt)
    refine ⟨_, handlePacket_eq hheader ht, ?_⟩
    cases hmsg : W.unpack t header.payload with
    | none => exact .inr (.inl rfl)
    | some msg => exact .inr (.inr ⟨header, t, msg, hheader, ht, hmsg, rfl⟩)

/-- A datagram that holds a message of one of the types is handled as a packet of a run is. -/
theorem handlePacket_ran {src : Source} {msg : Msg} (hheader : W.headerUnpack buf = some header)
    (ht : header.type = t.code.toUInt32) (hmsg : W.unpack t header.payload = some msg) :
  handlePacket W L io srv src buf = .ok (.ran (process L io srv msg (src.peer.node L)))
  := by
  rw [handlePacket_eq hheader ht, hmsg]
  rfl

/-- Unpack functions for headers with a type of seven bits and a payload of at most 127 bytes,
and for notifications. -/
def sampleProtobuf : Protobuf where
  headerUnpack
    | 0x10 :: type :: 0x1a :: len :: payload =>
        if type < 128 ∧ len < 128 ∧ len.toNat = payload.length then some ⟨type.toUInt32, payload⟩
        else none
    | _ => none
  addrDiscoverUnpack _ := none
  addrDiscoverReplyUnpack _ := none
  dataUnpack _ := none
  findSuccessorUnpack _ := none
  findSuccessorReplyUnpack _ := none
  stabilizeUnpack _ := none
  stabilizeReplyUnpack _ := none
  notifyUnpack b := if b = [] then some () else none
  pingUnpack _ := none
  pongUnpack _ := none

/-- An empty datagram makes the server use a header it does not have, and a datagram of type ten
makes it read the name of the type behind the end of `PACKET_NAMES`. -/
theorem datagrams_not_dropped :
  handlePacket sampleProtobuf sampleLibrary sampleIo (newServer (sampleConfig (samplePeer 1 0)))
      (.in6 (samplePeer 2 0).addr 1) [] = .error .missingHeader ∧
    handlePacket sampleProtobuf sampleLibrary sampleIo
      (newServer (sampleConfig (samplePeer 1 0))) (.in6 (samplePeer 2 0).addr 1)
      [0x10, 10, 0x1a, 0] = .error .packetNames ∧
    ¬ DispatchedOrDropped sampleProtobuf sampleLibrary sampleIo
      (newServer (sampleConfig (samplePeer 1 0))) (.in6 (samplePeer 2 0).addr 1) [] ∧
    ¬ DispatchedOrDropped sampleProtobuf sampleLibrary sampleIo
      (newServer (sampleConfig (samplePeer 1 0))) (.in6 (samplePeer 2 0).addr 1)
      [0x10, 10, 0x1a, 0]
  := by
  have hempty : handlePacket sampleProtobuf sampleLibrary sampleIo
      (newServer (sampleConfig (samplePeer 1 0))) (.in6 (samplePeer 2 0).addr 1) []
      = .error .missingHeader := by
    rw [handlePacket_eq_dispatchPacket]
    rfl
  have hten : handlePacket sampleProtobuf sampleLibrary sampleIo
      (newServer (sampleConfig (samplePeer 1 0))) (.in6 (samplePeer 2 0).addr 1)
      [0x10, 10, 0x1a, 0] = .error .packetNames := by
    rw [handlePacket_eq_dispatchPacket]
    rfl
  refine ⟨hempty, hten, ?_, ?_⟩
  · rintro ⟨result, hresult, -⟩
    rw [hempty] at hresult
    cases hresult
  · rintro ⟨result, hresult, -⟩
    rw [hten] at hresult
    cases hresult

end Tangent

import Tangent.Model.Wire
import Tangent.Safety.Dispatch
import Tangent.Safety.Fingers

/-!
# Responses in the packet buffers

A packet is packed twice: its message into `msg_buf`, and the header with the message in it into
`buf`.  Both buffers have `BUFSIZE` bytes, as has the one datagrams are received in, and nothing
tests whether a packet fits.  A response repeats the ticket or the data of the request, and it has
fields that the request may leave out, so it can be longer than the datagram it answers.

The header takes eight bytes if the message is long, so a packet fits into the buffers if and only
if its message has at most 65527 bytes.
-/

namespace Tangent

variable {W : Protobuf} {L : Library} {io : Io} {srv : ChordServer} {src : Source} {frm : Node}
  {buf : Bytes} {header : Header} {t : PacketType} {msg : Msg} {pkt : Packet} {out : Outcome}

/-! ### Round trips -/

/-- The fields of the message can be written. -/
def Msg.Packable (msg : Msg) : Prop :=
  ∀ f ∈ msg.fields, Wire.ValidField f

@[simp]
theorem unpackUint32_toNat (n : UInt32) :
  unpackUint32 (.varint n.toNat) = some n
  := by
  simp [unpackUint32, Wire.Value.toNat]

@[simp]
theorem unpackBool_toNat (b : Bool) :
  unpackBool (.varint b.toNat) = some b
  := by
  cases b <;> rfl

@[simp]
theorem unpackTime_packTime (time : UInt64) :
  unpackTime (packTime time) = some time
  := by
  have hlt : time.toNat < 256 ^ 8 := time.toNat_lt
  rw [packTime, unpackTime, Wire.Value.toFixed64, Option.map_some, beNat_reverse_leBytes,
    Nat.mod_eq_of_lt hlt, UInt64.ofNat_toNat]

/-- A message that is packed is unpacked. -/
theorem unpack_messagePack (h : msg.Packable) :
  wireProtobuf.unpack msg.type (wirePacking.messagePack msg) = some msg
  := by
  have hdecode := Wire.decode_encode h
  cases msg <;>
    simp only [Msg.fields] at hdecode <;>
    simp [Msg.type, Protobuf.unpack, wireProtobuf, wirePacking, hdecode, Msg.fields,
      Wire.optional, Wire.required]

/-- A header is unpacked whether it has a version or not. -/
theorem headerUnpack_encode {payload : Bytes} (hlen : payload.length < 128 ^ 5)
    (version : Option UInt32) (type : UInt32) :
  wireProtobuf.headerUnpack (Wire.encode (headerFields version type payload))
    = some ⟨type, payload⟩
  := by
  have hvarint (n : UInt32) : n.toNat < 128 ^ 10 := n.toNat_lt.trans (by decide)
  have hvalid : ∀ f ∈ headerFields version type payload, Wire.ValidField f := by
    rintro f hf
    simp only [headerFields, List.mem_append, List.mem_map, List.mem_cons, List.not_mem_nil,
      or_false] at hf
    obtain ⟨v, -, rfl⟩ | rfl | rfl := hf
    · exact ⟨by simp, hvarint v⟩
    · exact ⟨by simp, hvarint type⟩
    · exact ⟨by simp, hlen⟩
  have hdecode := Wire.decode_encode hvalid
  simp only [wireProtobuf, hdecode]
  cases version <;> simp [headerFields, Wire.optional, Wire.required]

/-! ### Lengths -/

/-- The packet fits into the buffers: its message into `msg_buf`, and its header into `buf`. -/
def FitsBuffers (pkt : Packet) : Prop :=
  (wirePacking.messagePack pkt.msg).length ≤ bufsize ∧
    ∀ st, (packHeader wirePacking st pkt.msg.type pkt.msg).2 ≤ bufsize

/-- A header has two bytes for the type and one for the tag of the payload. -/
theorem length_headerFields_none {type : UInt32} (htype : type.toNat < 128) (payload : Bytes) :
  (Wire.encode (headerFields none type payload)).length
    = (Wire.varint payload.length).length + payload.length + 3
  := by
  rw [Wire.length_encode (by simp [headerFields])]
  simp only [headerFields, Option.toList_none, List.map_cons, List.map_nil, List.nil_append,
    List.sum_cons, List.sum_nil, Wire.Value.encode, List.length_append, Wire.varint_of_lt htype,
    List.length_singleton]
  omega

/-- The version takes two more. -/
theorem length_headerFields_some {version type : UInt32} (hversion : version.toNat < 128)
    (htype : type.toNat < 128) (payload : Bytes) :
  (Wire.encode (headerFields (some version) type payload)).length
    = (Wire.varint payload.length).length + payload.length + 5
  := by
  have hencode : Wire.encode (headerFields (some version) type payload)
      = Wire.encodeField (1, .varint version.toNat)
        ++ Wire.encode (headerFields none type payload) := rfl
  have hfield : (Wire.encodeField (1, .varint version.toNat)).length = 2 := by
    rw [Wire.encodeField, Wire.Value.encode, Wire.varint_of_lt hversion,
      Wire.varint_of_lt (by simp [Wire.Value.kind])]
    rfl
  rw [hencode, List.length_append, hfield, length_headerFields_none htype]
  omega

theorem PacketType.code_lt (t : PacketType) :
  t.code.toUInt32.toNat < 128
  := by
  cases t <;> decide

theorem packHeader_length (st : Statics) (t : PacketType) (msg : Msg) :
  (packHeader wirePacking st t msg).2
    = (Wire.varint (wirePacking.messagePack msg).length).length
      + (wirePacking.messagePack msg).length + 5
  := by
  rw [packHeader, take_overwrite]
  exact length_headerFields_some (by decide) t.code_lt _

/-- A packet fits if and only if there is room for eight bytes beside its message. -/
theorem fitsBuffers_iff :
  FitsBuffers pkt ↔ (wirePacking.messagePack pkt.msg).length ≤ 65527
  := by
  have hheader := Wire.length_varint_add_le_iff (n := (wirePacking.messagePack pkt.msg).length)
    (by decide : 16386 ≤ 65530) (by decide)
  have hbufsize : bufsize = 65535 := rfl
  rw [FitsBuffers]
  simp only [packHeader_length, hbufsize]
  constructor
  · rintro ⟨-, hbuf⟩
    have := hbuf ⟨0, [], [], []⟩
    omega
  · intro hlen
    exact ⟨by omega, fun _ => by omega⟩

/-- Every field takes a byte for its tag. -/
theorem length_messagePack (msg : Msg) :
  (wirePacking.messagePack msg).length = (msg.fields.map fun f => f.2.encode.length + 1).sum
  := by
  rw [wirePacking, Wire.length_encode]
  cases msg <;> simp [Msg.fields]

/-- The bytes a port takes. -/
def portSize (port : UInt16) : ℕ :=
  if port < 128 then 1 else if port < 16384 then 2 else 3

/-- The bytes a hop count takes. -/
def ttlSize (ttl : UInt8) : ℕ :=
  if ttl < 128 then 1 else 2

theorem portSize_le (port : UInt16) :
  portSize port ≤ 3
  := by
  rw [portSize]
  split
  · decide
  · split <;> decide

theorem ttlSize_le (ttl : UInt8) :
  ttlSize ttl ≤ 2
  := by
  rw [ttlSize]
  split <;> decide

section Values

theorem length_encode_bytes (b : Bytes) :
  (Wire.Value.bytes b).encode.length = (Wire.varint b.length).length + b.length
  := List.length_append

theorem length_encode_addr (addr : In6Addr) :
  (Wire.Value.bytes addr.s6Addr).encode.length = 17
  := by
  rw [length_encode_bytes, addr.length_s6Addr, Wire.varint_of_lt (by decide)]
  rfl

theorem length_encode_id (id : ChordID) :
  (Wire.Value.bytes id.x).encode.length = 21
  := by
  rw [length_encode_bytes, id.length_x, Wire.varint_of_lt (by decide)]
  rfl

theorem length_encode_bool (b : Bool) :
  (Wire.Value.varint b.toNat).encode.length = 1
  := by
  rw [Wire.Value.encode, Wire.varint_of_lt (by cases b <;> decide)]
  rfl

theorem length_encode_port (port : UInt16) :
  (Wire.Value.varint port.toUInt32.toNat).encode.length = portSize port
  := by
  have h₁ := Wire.length_varint_le_iff (n := port.toNat) (by decide : 0 < 1)
  have h₂ := Wire.length_varint_le_iff (n := port.toNat) (by decide : 0 < 2)
  have h₃ := Wire.length_varint_le_iff (n := port.toNat) (by decide : 0 < 3)
  have hpos := Wire.length_varint_pos port.toNat
  have hlt := port.toNat_lt
  rw [Wire.Value.encode, UInt16.toNat_toUInt32, portSize]
  simp only [UInt16.lt_iff_toNat_lt, UInt16.reduceToNat]
  split
  · omega
  · split <;> omega

theorem length_encode_ttl (ttl : UInt8) :
  (Wire.Value.varint ttl.toUInt32.toNat).encode.length = ttlSize ttl
  := by
  have h₁ := Wire.length_varint_le_iff (n := ttl.toNat) (by decide : 0 < 1)
  have h₂ := Wire.length_varint_le_iff (n := ttl.toNat) (by decide : 0 < 2)
  have hpos := Wire.length_varint_pos ttl.toNat
  have hlt := ttl.toNat_lt
  rw [Wire.Value.encode, UInt8.toNat_toUInt32, ttlSize]
  simp only [UInt8.lt_iff_toNat_lt, UInt8.reduceToNat]
  split <;> omega

theorem length_encode_time (time : UInt64) :
  (packTime time).encode.length = 8
  := length_leBytes 8 time.toNat

end Values

/-- A message with `n` bytes of a ticket or of data and `k` other bytes. -/
theorem echo_le_iff {n k : ℕ} (hk : k ≤ 100) :
  (Wire.varint n).length + n + k ≤ 65527 ↔ n + k ≤ 65524
  := by
  have h := Wire.length_varint_add_le_iff (n := n) (N := 65527 - k) (by omega) (by omega)
  omega

section Responses

variable {toAddr addr : In6Addr} {toPort port : UInt16} {ticket : Bytes} {ttl : UInt8}

theorem addrDiscoverReply_fits_iff :
  FitsBuffers ⟨toAddr, toPort, .addrDiscoverReply ⟨ticket, addr.s6Addr⟩⟩
    ↔ ticket.length ≤ 65505
  := by
  have hecho := echo_le_iff (n := ticket.length) (by decide : 19 ≤ 100)
  rw [fitsBuffers_iff, length_messagePack]
  simp only [Msg.fields, List.map_cons, List.map_nil, List.sum_cons, List.sum_nil,
    length_encode_bytes ticket, length_encode_addr]
  omega

theorem pong_fits_iff {time : UInt64} :
  FitsBuffers ⟨toAddr, toPort, .pong ⟨ticket, time⟩⟩ ↔ ticket.length ≤ 65514
  := by
  have hecho := echo_le_iff (n := ticket.length) (by decide : 10 ≤ 100)
  rw [fitsBuffers_iff, length_messagePack]
  simp only [Msg.fields, List.map_cons, List.map_nil, List.sum_cons, List.sum_nil,
    length_encode_bytes ticket, length_encode_time]
  omega

theorem fsReply_fits_iff :
  FitsBuffers ⟨toAddr, toPort, .fsReply ⟨ticket, addr.s6Addr, port.toUInt32⟩⟩
    ↔ ticket.length + portSize port ≤ 65504
  := by
  have hport := portSize_le port
  have hecho := echo_le_iff (n := ticket.length) (by omega : portSize port + 20 ≤ 100)
  rw [fitsBuffers_iff, length_messagePack]
  simp only [Msg.fields, List.map_cons, List.map_nil, List.sum_cons, List.sum_nil,
    length_encode_bytes ticket, length_encode_addr, length_encode_port]
  omega

theorem fs_fits_iff :
  FitsBuffers ⟨toAddr, toPort, .fs ⟨ticket, ttl.toUInt32, addr.s6Addr, port.toUInt32⟩⟩
    ↔ ticket.length + ttlSize ttl + portSize port ≤ 65503
  := by
  have httl := ttlSize_le ttl
  have hport := portSize_le port
  have hecho := echo_le_iff (n := ticket.length)
    (by omega : ttlSize ttl + portSize port + 21 ≤ 100)
  rw [fitsBuffers_iff, length_messagePack]
  simp only [Msg.fields, List.map_cons, List.map_nil, List.sum_cons, List.sum_nil,
    length_encode_bytes ticket, length_encode_addr, length_encode_port, length_encode_ttl]
  omega

theorem data_fits_iff {id : ChordID} {last : Bool} {data : Bytes} :
  FitsBuffers ⟨toAddr, toPort, .data ⟨id.x, ttl.toUInt32, last, data⟩⟩
    ↔ data.length + ttlSize ttl ≤ 65498
  := by
  have httl := ttlSize_le ttl
  have hecho := echo_le_iff (n := data.length) (by omega : ttlSize ttl + 26 ≤ 100)
  rw [fitsBuffers_iff, length_messagePack]
  simp only [Msg.fields, List.map_cons, List.map_nil, List.sum_cons, List.sum_nil,
    length_encode_bytes data, length_encode_id, length_encode_bool, length_encode_ttl]
  omega

end Responses

/-! ### Responses of a server -/

/-- The replies and forwards among the actions fit into the buffers; pings of the server's own
are none. -/
def ResponsesFit (acts : List Action) : Prop :=
  ∀ pkt, .send pkt ∈ acts → pkt.msg.type ≠ .ping → FitsBuffers pkt

/-- The node `process_fs` answers with; else it sends the lookup on. -/
def fsAnswer (L : Library) (io : Io) (srv : ChordServer) (m : FindSuccessor) : Option Node :=
  match succFinger srv with
  | none => some srv.node
  | some succ =>
      if idIsBetween ((m.requester io).node L).id srv.node.id succ.node.id
          || idEquals ((m.requester io).node L).id succ.node.id then
        some succ.node
      else
        none

/-- The request is short enough for its response: what the response repeats of it leaves room
for the other fields.  Requests that are dropped or handled locally may have any length, and those
the handler does not survive. -/
def responseFits (L : Library) (io : Io) (srv : ChordServer) : Msg → Prop
  | .addrDiscover m => m.ticket.length ≤ 65505
  | .data m =>
      m.id ≠ [] → srv.Discovered → m.ttl - 1 ≠ 0 →
        chordIdIsLocal srv (fieldId m.id io.behind) = false →
        m.data.length % 2 ^ 16 + ttlSize (m.ttl - 1).toUInt8 ≤ 65498
  | .fs m =>
      srv.Discovered → m.addr ≠ [] → m.ttl - 1 ≠ 0 → m.requester io ≠ srv.node.peer →
        match fsAnswer L io srv m with
        | some np => m.ticket.length + portSize np.port ≤ 65504
        | none =>
            m.ticket.length + ttlSize (m.ttl - 1).toUInt8 + portSize (m.requester io).port
              ≤ 65503
  | .ping m => srv.Discovered → m.ticket.length ≤ 65514
  | _ => True

/-- The requests whose handlers reply, forward or pong. -/
def PacketType.isAnswered : PacketType → Bool
  | .addrDiscover | .data | .fs | .ping => true
  | _ => false

theorem responsesFit_nil :
  ResponsesFit []
  := by
  intro pkt hpkt
  simp at hpkt

theorem responsesFit_upcall {id : ChordID} {data : Bytes} :
  ResponsesFit [.upcall id data]
  := by
  intro pkt hpkt
  simp at hpkt

/-- A response is the only one, whether the server pings somebody before or not. -/
theorem responsesFit_append {acts : List Action} (hacts : ResponsesFit acts)
    (htype : pkt.msg.type ≠ .ping) :
  ResponsesFit (acts ++ [.send pkt]) ↔ FitsBuffers pkt
  := by
  constructor
  · intro h
    apply h pkt (by simp) htype
  · intro h pkt' hmem htype'
    rw [List.mem_append, List.mem_singleton] at hmem
    obtain hmem | heq := hmem
    · exact hacts pkt' hmem htype'
    · cases heq
      exact h

theorem responsesFit_processData {m : Data} (h : processData io srv m frm = .ok out) :
  ResponsesFit out.acts ↔ responseFits L io srv (.data m)
  := by
  rw [responseFits]
  have hid := processData_id_ne h
  obtain ⟨ret, -, hdrop, rfl⟩ | ⟨hd, httl, hlocal, rfl⟩ | ⟨hd, httl, hlocal, rfl⟩ :=
    processData_cases h
  · refine iff_of_true responsesFit_nil ?_
    intro _ hd httl
    exact absurd hdrop (by tauto)
  · refine iff_of_true responsesFit_upcall ?_
    intro _ _ _ hremote
    simp [hremote] at hlocal
  · have hlen : (m.data.take (m.data.length % 2 ^ 16)).length = m.data.length % 2 ^ 16 := by
      rw [List.length_take, min_eq_left (Nat.mod_le ..)]
    refine (responsesFit_append responsesFit_nil (by simp [Msg.type])).trans ?_
    simp only [data_fits_iff, hlen, hid, hd, httl, hlocal, ne_eq, not_false_eq_true,
      forall_const]

theorem responsesFit_processFs {m : FindSuccessor} (h : processFs L io srv m frm = .ok out) :
  ResponsesFit out.acts ↔ responseFits L io srv (.fs m)
  := by
  rw [responseFits]
  obtain ⟨ret, -, hdrop, rfl⟩ | ⟨-, -, hself, rfl⟩ | ⟨hd, httl, hother, hs, rfl⟩
    | ⟨hd, httl, hother, s, hs, hid, rfl⟩ | ⟨hd, httl, hother, s, hs, hid, rfl⟩ :=
    processFs_cases h
  · refine iff_of_true responsesFit_nil ?_
    intro hd _ httl
    exact absurd hdrop (by tauto)
  · refine iff_of_true responsesFit_nil ?_
    intro _ _ _ hother
    exact absurd hself hother
  · have haddr := processFs_addr_ne hd h
    have hanswer : fsAnswer L io srv m = some srv.node := by
      rw [fsAnswer, hs]
    refine (responsesFit_append responsesFit_nil (by simp [Msg.type])).trans ?_
    simp only [fsReply_fits_iff, hanswer, hd, haddr, httl, hother, ne_eq, not_false_eq_true,
      forall_const]
  · have haddr := processFs_addr_ne hd h
    have hanswer : fsAnswer L io srv m = some s.node := by
      simp only [fsAnswer, hs, hid, if_true]
    refine (responsesFit_append responsesFit_nil (by simp [Msg.type])).trans ?_
    simp only [fsReply_fits_iff, hanswer, hd, haddr, httl, hother, ne_eq, not_false_eq_true,
      forall_const]
  · have haddr := processFs_addr_ne hd h
    have hanswer : fsAnswer L io srv m = none := by
      simp only [fsAnswer, hs, hid, Bool.false_eq_true, if_false]
    refine (responsesFit_append responsesFit_nil (by simp [Msg.type])).trans ?_
    simp only [fs_fits_iff, hanswer, hd, haddr, httl, hother, ne_eq, not_false_eq_true,
      forall_const]

theorem responsesFit_processPing {m : Ping} (h : processPing L io srv m frm = .ok out) :
  ResponsesFit out.acts ↔ responseFits L io srv (.ping m)
  := by
  rw [responseFits]
  obtain ⟨hd, rfl⟩ | ⟨hd, r, -, rfl⟩ := processPing_cases h
  · refine iff_of_true responsesFit_nil ?_
    intro hd'
    exact absurd hd' hd
  · refine (responsesFit_append ?_ (by simp [Msg.type])).trans ?_
    · split
      · intro pkt hpkt htype
        simp only [sendPing, sendPacket, List.nil_append, List.mem_singleton] at hpkt
        cases hpkt
        simp [Msg.type] at htype
      · exact responsesFit_nil
    · simp only [pong_fits_iff, hd, forall_const]

theorem responsesFit_process (h : process L io srv msg frm = .ok out)
    (hanswered : msg.type.isAnswered = true) :
  ResponsesFit out.acts ↔ responseFits L io srv msg
  := by
  cases msg with
  | addrDiscover m =>
      cases h
      refine (responsesFit_append responsesFit_nil (by simp [Msg.type])).trans ?_
      exact addrDiscoverReply_fits_iff
  | data m =>
      have hdata : processData io srv m frm = .ok out := h
      exact responsesFit_processData hdata
  | fs m =>
      have hfs : processFs L io srv m frm = .ok out := h
      exact responsesFit_processFs hfs
  | ping m => exact responsesFit_processPing h
  | addrDiscoverReply | fsReply | stab | stabReply | notify | pong => cases hanswered

/-- The handlers of these requests return, unless they copy an empty field. -/
theorem TableInv.process_ok_of_isAnswered (h : TableInv L srv)
    (hanswered : msg.type.isAnswered = true) {io : Io} {p : Peer}
    (hcopy : ¬ copiesEmpty L io srv p msg) :
  ∃ out, process L io srv msg (p.node L) = .ok out
  := by
  apply h.process_ok _ _ hcopy
  · cases msg <;> first | exact trivial | cases hanswered
  · cases msg <;> first | exact not_false | cases hanswered

/-- A request of which an empty field is copied has no response. -/
theorem responseFits_of_copiesEmpty {p : Peer} (h : copiesEmpty L io srv p msg) :
  responseFits L io srv msg
  := by
  cases msg with
  | data m =>
      intro hne
      exact absurd h hne
  | fs m =>
      intro _ hne
      exact absurd h.2 hne
  | addrDiscover m => exact h.elim
  | ping m => exact h.elim
  | addrDiscoverReply | fsReply | stab | stabReply | notify | pong => trivial

theorem Protobuf.type_of_unpack (h : W.unpack t buf = some msg) :
  msg.type = t
  := by
  cases t <;>
    · obtain ⟨m, -, rfl⟩ := Option.map_eq_some_iff.mp h
      rfl

/-- The replies and forwards of a handler that returns fit into the packet buffers of a reachable
server if and only if the request is short enough for its response; and the handler of a request
returns unless it copies an empty field. -/
theorem responses_fit_iff (hreach : Reachable L srv)
    (hheader : W.headerUnpack buf = some header) (ht : header.type = t.code.toUInt32)
    (hmsg : W.unpack t header.payload = some msg) (hanswered : t.isAnswered = true) :
  ∃ result, handlePacket W L io srv src buf = .ok (.ran result) ∧
    ((∀ out, result = .ok out → ResponsesFit out.acts) ↔ responseFits L io srv msg) ∧
    (¬ copiesEmpty L io srv src.peer msg → ∃ out, result = .ok out)
  := by
  have htype : msg.type.isAnswered = true := by
    rw [Protobuf.type_of_unpack hmsg]
    exact hanswered
  have hinv := hreach.tableInv
  refine ⟨_, handlePacket_ran hheader ht hmsg, ?_, hinv.process_ok_of_isAnswered htype⟩
  by_cases hcopy : copiesEmpty L io srv src.peer msg
  · apply iff_of_true _ (responseFits_of_copiesEmpty hcopy)
    intro out hout
    rw [process_of_copiesEmpty hcopy] at hout
    cases hout
  · obtain ⟨out, hout⟩ := hinv.process_ok_of_isAnswered htype hcopy
    rw [hout, ← responsesFit_process hout htype]
    constructor
    · intro h
      exact h out rfl
    · rintro h _ ⟨⟩
      exact h

/-- A message that repeats a long string takes three bytes for its length. -/
theorem length_varint_long {n : ℕ} (h : 16384 ≤ n) (h' : n < 2097152) :
  (Wire.varint n).length = 3
  := by
  have h₂ := Wire.length_varint_le_iff (n := n) (by decide : 0 < 2)
  have h₃ := Wire.length_varint_le_iff (n := n) (by decide : 0 < 3)
  omega

/-- An address discovery without a version, with a ticket of the given length. -/
def sampleDiscover (n : ℕ) : Bytes :=
  Wire.encode (headerFields none PacketType.addrDiscover.code.toUInt32
    (wirePacking.messagePack (.addrDiscover ⟨List.replicate n 0⟩)))

section Sample

variable {n : ℕ}

theorem sampleDiscover_payload (h : 16384 ≤ n) (h' : n < 65536) :
  (wirePacking.messagePack (.addrDiscover ⟨List.replicate n 0⟩)).length = n + 4
  := by
  rw [length_messagePack]
  simp only [Msg.fields, List.map_cons, List.map_nil, List.sum_cons, List.sum_nil,
    length_encode_bytes, List.length_replicate, length_varint_long h (by omega)]
  omega

theorem length_sampleDiscover (h : 16384 ≤ n) (h' : n < 65536) :
  (sampleDiscover n).length = n + 10
  := by
  rw [sampleDiscover, length_headerFields_none (PacketType.code_lt _),
    sampleDiscover_payload h h', length_varint_long (by omega) (by omega)]
  omega

/-- The datagram holds what it was made of. -/
theorem sampleDiscover_unpack (h : 16384 ≤ n) (h' : n < 65536) :
  ∃ payload, wireProtobuf.headerUnpack (sampleDiscover n)
      = some ⟨PacketType.addrDiscover.code.toUInt32, payload⟩ ∧
    wireProtobuf.unpack .addrDiscover payload = some (.addrDiscover ⟨List.replicate n 0⟩)
  := by
  have hpack : (Msg.addrDiscover ⟨List.replicate n 0⟩).Packable := by
    intro f hf
    rw [Msg.fields, List.mem_singleton] at hf
    subst hf
    refine ⟨by simp, ?_⟩
    rw [Wire.Value.Valid, List.length_replicate]
    omega
  refine ⟨_, headerUnpack_encode ?_ none _, unpack_messagePack hpack⟩
  rw [sampleDiscover_payload h h']
  omega

end Sample

/-- A ticket of 65500 bytes is repeated in a reply that fits. -/
theorem responses_fit_iff_sample :
  ∃ out, handlePacket wireProtobuf sampleLibrary sampleIo (sampleServer (samplePeer 10 0) [])
      (.in6 (samplePeer 20 0).addr 1) (sampleDiscover 65500) = .ok (.ran (.ok out)) ∧
    ResponsesFit out.acts
  := by
  obtain ⟨payload, hheader, hmsg⟩ := sampleDiscover_unpack (n := 65500) (by decide) (by decide)
  obtain ⟨result, hrun, hiff, hreturns⟩ := responses_fit_iff
    (sampleServer_reachable (samplePeer 10 0) []) hheader rfl hmsg rfl
  obtain ⟨out, rfl⟩ := hreturns not_false
  refine ⟨out, hrun, hiff.mpr ?_ out rfl⟩
  rw [responseFits, List.length_replicate]
  decide

/-- A new server with a socket of version 6 receives a datagram of 65516 bytes, which is less
than such a socket can deliver, and packs a reply of 65536 bytes. -/
theorem addr_discover_reply_overflows :
  Reachable sampleLibrary (newServer (sampleConfig (samplePeer 10 0))) ∧
    (Source.in6 (samplePeer 20 0).addr 1).fits (newServer (sampleConfig (samplePeer 10 0))) ∧
    (sampleDiscover 65506).length = 65516 ∧
    ∃ out pkt, handlePacket wireProtobuf sampleLibrary sampleIo
        (newServer (sampleConfig (samplePeer 10 0))) (.in6 (samplePeer 20 0).addr 1)
        (sampleDiscover 65506) = .ok (.ran (.ok out)) ∧
      out.acts = [.send pkt] ∧
      (∀ st, (packHeader wirePacking st pkt.msg.type pkt.msg).2 = 65536) ∧
      ¬ ResponsesFit out.acts
  := by
  obtain ⟨payload, hheader, hmsg⟩ := sampleDiscover_unpack (n := 65506) (by decide) (by decide)
  have hlen : (wirePacking.messagePack
      (.addrDiscoverReply ⟨List.replicate 65506 0, (samplePeer 20 0).addr.s6Addr⟩)).length
        = 65528 := by
    rw [length_messagePack]
    simp only [Msg.fields, List.map_cons, List.map_nil, List.sum_cons, List.sum_nil,
      length_encode_bytes (List.replicate 65506 0), length_encode_addr, List.length_replicate,
      length_varint_long (by decide : 16384 ≤ 65506) (by decide)]
    omega
  have hover (st : Statics) : (packHeader wirePacking st .addrDiscoverReply
      (.addrDiscoverReply ⟨List.replicate 65506 0, (samplePeer 20 0).addr.s6Addr⟩)).2
        = 65536 := by
    rw [packHeader_length, hlen, length_varint_long (by decide) (by decide)]
  refine ⟨⟨_, [], rfl⟩, rfl, length_sampleDiscover (by decide) (by decide), _, _,
    handlePacket_ran hheader rfl hmsg, rfl, hover, ?_⟩
  intro hfit
  have hle := (hfit _ (List.mem_singleton_self _) (by simp [Msg.type])).2 ⟨0, [], [], []⟩
  exact absurd ((hover _).symm.le.trans hle) (by decide)

end Tangent

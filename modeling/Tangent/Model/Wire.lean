import Tangent.Model.Dispatcher
import Tangent.Model.Statics
import Tangent.Wire

/-!
# Messages on the wire

The code protobuf-c generates from `messages.proto`, as far as the format of protocol buffers
determines it: `wirePacking` writes a message with every field the pack functions of `pack.c`
set, which are all of them, and `wireProtobuf` reads one in which optional fields may be missing.
-/

namespace Tangent

/-! ### Packing -/

/-- A time as a `fixed64`. -/
def packTime (time : UInt64) : Wire.Value :=
  .fixed64 (leBytes 8 time.toNat)

/-- The fields of a message with their numbers, as the pack functions set them. -/
def Msg.fields : Msg → List Wire.Field
  | .addrDiscover m => [(1, .bytes m.ticket)]
  | .addrDiscoverReply m => [(1, .bytes m.ticket), (2, .bytes m.addr)]
  | .data m =>
      [(1, .bytes m.id), (2, .varint m.ttl.toNat), (3, .varint m.last.toNat), (4, .bytes m.data)]
  | .fs m =>
      [(1, .bytes m.ticket), (2, .varint m.ttl.toNat), (3, .bytes m.addr),
        (4, .varint m.port.toNat)]
  | .fsReply m => [(1, .bytes m.ticket), (2, .bytes m.addr), (3, .varint m.port.toNat)]
  | .stab m => [(1, .bytes m.addr), (2, .varint m.port.toNat)]
  | .stabReply m => [(1, .bytes m.addr), (2, .varint m.port.toNat)]
  | .notify => []
  | .ping m => [(1, .bytes m.ticket), (2, packTime m.time)]
  | .pong m => [(1, .bytes m.ticket), (2, packTime m.time)]

/-- The fields of a header; the version may be missing. -/
def headerFields (version : Option UInt32) (type : UInt32) (payload : Bytes) : List Wire.Field :=
  (version.toList.map fun v => (1, .varint v.toNat))
    ++ [(2, .varint type.toNat), (3, .bytes payload)]

/-- The pack functions generated from `messages.proto`. -/
def wirePacking : Packing where
  messagePack msg := Wire.encode msg.fields
  headerPack version type payload := Wire.encode (headerFields (some version) type payload)

/-! ### Unpacking -/

/-- A value as an `uint32`; higher bits are cut off. -/
def unpackUint32 (v : Wire.Value) : Option UInt32 :=
  v.toNat.map UInt32.ofNat

/-- A value as a `bool`. -/
def unpackBool (v : Wire.Value) : Option Bool :=
  v.toNat.map fun n => decide (n ≠ 0)

/-- A value as a `fixed64`. -/
def unpackTime (v : Wire.Value) : Option UInt64 :=
  v.toFixed64.map fun b => UInt64.ofNat (Bytes.beNat b.reverse)

/-- The unpack functions generated from `messages.proto`.  A missing ticket is empty, a missing
`ttl` of a `Data` message is 32, and what else is missing is zero. -/
def wireProtobuf : Protobuf where
  headerUnpack b := do
    let fs ← Wire.decode b
    let _ ← Wire.optional unpackUint32 1 fs
    return ⟨← Wire.required unpackUint32 2 fs, ← Wire.required Wire.Value.toBytes 3 fs⟩
  addrDiscoverUnpack b := do
    let fs ← Wire.decode b
    return ⟨(← Wire.optional Wire.Value.toBytes 1 fs).getD []⟩
  addrDiscoverReplyUnpack b := do
    let fs ← Wire.decode b
    return ⟨(← Wire.optional Wire.Value.toBytes 1 fs).getD [],
      ← Wire.required Wire.Value.toBytes 2 fs⟩
  dataUnpack b := do
    let fs ← Wire.decode b
    return ⟨← Wire.required Wire.Value.toBytes 1 fs,
      (← Wire.optional unpackUint32 2 fs).getD 32,
      (← Wire.optional unpackBool 3 fs).getD false,
      ← Wire.required Wire.Value.toBytes 4 fs⟩
  findSuccessorUnpack b := do
    let fs ← Wire.decode b
    return ⟨(← Wire.optional Wire.Value.toBytes 1 fs).getD [],
      (← Wire.optional unpackUint32 2 fs).getD 0,
      ← Wire.required Wire.Value.toBytes 3 fs,
      ← Wire.required unpackUint32 4 fs⟩
  findSuccessorReplyUnpack b := do
    let fs ← Wire.decode b
    return ⟨(← Wire.optional Wire.Value.toBytes 1 fs).getD [],
      ← Wire.required Wire.Value.toBytes 2 fs,
      ← Wire.required unpackUint32 3 fs⟩
  stabilizeUnpack b := do
    let fs ← Wire.decode b
    return ⟨← Wire.required Wire.Value.toBytes 1 fs, ← Wire.required unpackUint32 2 fs⟩
  stabilizeReplyUnpack b := do
    let fs ← Wire.decode b
    return ⟨← Wire.required Wire.Value.toBytes 1 fs, ← Wire.required unpackUint32 2 fs⟩
  notifyUnpack b := do
    let _ ← Wire.decode b
    return ()
  pingUnpack b := do
    let fs ← Wire.decode b
    return ⟨(← Wire.optional Wire.Value.toBytes 1 fs).getD [],
      ← Wire.required unpackTime 2 fs⟩
  pongUnpack b := do
    let fs ← Wire.decode b
    return ⟨(← Wire.optional Wire.Value.toBytes 1 fs).getD [],
      ← Wire.required unpackTime 2 fs⟩

end Tangent

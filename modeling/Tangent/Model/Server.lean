import Tangent.Model.Id

/-!
# The server record

The data model of `chord.h` and `finger.h`: addresses, nodes, fingers and the server
record, the constants of `chord_opts.h`, `new_server`, and the two functions of `chord.c`
on the range of identifiers a server owns.

The doubly linked finger list is the list `flist`, read from `head_flist` to `tail_flist`.
The two `struct event` members that matter are the flags `stabEvent` and
`discoverAddrEvent`, which tell whether the timer is armed.  The members no function of
the server reads (`key_array`, `num_keys`, `tunnel_sock`, `packet_handlers`) are left out,
and so are the socket, the event base and the dispatcher.
-/

namespace Tangent

/-! ### Constants -/

/-- `NFINGERS`. -/
abbrev nfingers : ℕ := chordIdBits

/-- `NSUCCESSORS`. -/
abbrev nsuccessors : ℕ := 8

/-- `NPREDECESSORS`. -/
abbrev npredecessors : ℕ := 3

/-- `MAX_PASSIVE_FINGERS`. -/
abbrev maxPassiveFingers : ℤ := 20

/-- `PING_THRESH`. -/
abbrev pingThresh : ℕ := 5

/-- `DEF_TTL`. -/
abbrev defTtl : UInt8 := 32

/-! ### Addresses -/

/-- An `in6_addr`: sixteen bytes. -/
@[ext]
structure In6Addr where
  s6Addr : Bytes
  length_s6Addr : s6Addr.length = 16
  deriving DecidableEq

/-- The unspecified address `::`. -/
instance : Zero In6Addr :=
  ⟨⟨List.replicate 16 0, by simp⟩⟩

/-- `IN6_IS_ADDR_UNSPECIFIED`. -/
def In6Addr.isUnspecified (addr : In6Addr) : Bool :=
  addr.s6Addr.all (· = 0)

@[simp]
theorem In6Addr.isUnspecified_zero :
  (0 : In6Addr).isUnspecified = true
  := rfl

/-- `v6_addr_equals`. -/
def v6AddrEquals (addr1 addr2 : In6Addr) : Bool :=
  Bytes.memcmp addr1.s6Addr addr2.s6Addr = 0

@[simp]
theorem v6AddrEquals_iff {addr1 addr2 : In6Addr} :
  v6AddrEquals addr1 addr2 = true ↔ addr1 = addr2
  := by
  rw [v6AddrEquals, decide_eq_true_iff,
    Bytes.memcmp_eq_zero_iff (addr1.length_s6Addr.trans addr2.length_s6Addr.symm),
    In6Addr.ext_iff]

/-- `memcpy` of `n` bytes out of a buffer `src` that is not empty; `behind i` is the byte that
lies at offset `i` when the buffer is shorter than that. -/
def memcpy (n : ℕ) (src : Bytes) (behind : ℕ → UInt8) : Bytes :=
  (List.range n).map (fun i => src.getD i (behind i))

@[simp]
theorem length_memcpy (n : ℕ) (src : Bytes) (behind : ℕ → UInt8) :
  (memcpy n src behind).length = n
  := by
  simp [memcpy]

/-- Copying a whole buffer reads nothing behind it. -/
theorem memcpy_length {n : ℕ} {src : Bytes} (h : src.length = n) (behind : ℕ → UInt8) :
  memcpy n src behind = src
  := by
  apply List.ext_getElem
  · simp [h]
  · intro i hi hi'
    simp [memcpy, hi']

/-- The address at the start of a field. -/
def fieldAddr (data : Bytes) (behind : ℕ → UInt8) : In6Addr :=
  ⟨memcpy 16 data behind, length_memcpy ..⟩

@[simp]
theorem fieldAddr_s6Addr (addr : In6Addr) (behind : ℕ → UInt8) :
  fieldAddr addr.s6Addr behind = addr
  := by
  apply In6Addr.ext
  apply memcpy_length addr.length_s6Addr

/-- The identifier at the start of a field. -/
def fieldId (data : Bytes) (behind : ℕ → UInt8) : ChordID :=
  ⟨memcpy chordIdBytes data behind, length_memcpy ..⟩

@[simp]
theorem fieldId_x (id : ChordID) (behind : ℕ → UInt8) :
  fieldId id.x behind = id
  := by
  apply ChordID.ext
  apply memcpy_length id.length_x

/-! ### Faults -/

/-- What stops the process: a failed assertion, the use of a pointer that is `NULL`, or a write
behind the end of a local buffer. -/
inductive Fault where
  | assertion
  | nullPointer
  | overrun
  deriving DecidableEq

/-- A copy out of a field of an unpacked message, which puts `value` in its destination.  The
unpacking allocates no buffer for an empty field, so the `data` of one is `NULL`. -/
def copyField {α : Type} (data : Bytes) (value : α) : Except Fault α :=
  if data = [] then .error .nullPointer else .ok value

theorem copyField_eq_ok {α : Type} {data : Bytes} {value copy : α} :
  copyField data value = .ok copy ↔ data ≠ [] ∧ value = copy
  := by
  rw [copyField]
  split
  · rename_i h
    simp [h]
  · rename_i h
    simp [h]

/-- `v6_addr_set`, and the copies `memcpy(addr.s6_addr, data, 16)` of the handlers. -/
def v6AddrSet (data : Bytes) (behind : ℕ → UInt8) : Except Fault In6Addr :=
  copyField data (fieldAddr data behind)

theorem v6AddrSet_eq_ok {data : Bytes} {behind : ℕ → UInt8} {addr : In6Addr} :
  v6AddrSet data behind = .ok addr ↔ data ≠ [] ∧ fieldAddr data behind = addr
  := copyField_eq_ok

theorem v6AddrSet_of_ne {data : Bytes} (h : data ≠ []) (behind : ℕ → UInt8) :
  v6AddrSet data behind = .ok (fieldAddr data behind)
  := if_neg h

@[simp]
theorem v6AddrSet_nil (behind : ℕ → UInt8) :
  v6AddrSet [] behind = .error .nullPointer
  := rfl

/-- A field whose address does not depend on what lies behind it is not empty. -/
theorem ne_nil_of_fieldAddr {data : Bytes} {addr : In6Addr}
    (h : ∀ behind, fieldAddr data behind = addr) :
  data ≠ []
  := by
  rintro rfl
  have heq := (h fun _ => 0).trans (h fun _ => 1).symm
  revert heq
  decide

/-- The copy `memcpy(id.x, data, CHORD_ID_BYTES)` of `process_data`. -/
def chordIdSet (data : Bytes) (behind : ℕ → UInt8) : Except Fault ChordID :=
  copyField data (fieldId data behind)

theorem chordIdSet_eq_ok {data : Bytes} {behind : ℕ → UInt8} {id : ChordID} :
  chordIdSet data behind = .ok id ↔ data ≠ [] ∧ fieldId data behind = id
  := copyField_eq_ok

theorem chordIdSet_of_ne {data : Bytes} (h : data ≠ []) (behind : ℕ → UInt8) :
  chordIdSet data behind = .ok (fieldId data behind)
  := if_neg h

@[simp]
theorem chordIdSet_nil (behind : ℕ → UInt8) :
  chordIdSet [] behind = .error .nullPointer
  := rfl

/-- A field whose identifier does not depend on what lies behind it is not empty. -/
theorem ne_nil_of_fieldId {data : Bytes} {id : ChordID}
    (h : ∀ behind, fieldId data behind = id) :
  data ≠ []
  := by
  rintro rfl
  have heq := (h fun _ => 0).trans (h fun _ => 1).symm
  revert heq
  decide

/-! ### Nodes and fingers -/

/-- An address and a port. -/
structure Peer where
  addr : In6Addr
  port : UInt16
  deriving DecidableEq

/-- A `Node`: an identifier, an address and a port. -/
structure Node where
  id : ChordID
  addr : In6Addr
  port : UInt16
  deriving DecidableEq

/-- The address and port of a node. -/
def Node.peer (n : Node) : Peer :=
  ⟨n.addr, n.port⟩

/-- The test of the handlers for a node's own address and port. -/
theorem Node.peer_eq_iff {n : Node} {p : Peer} :
  p = n.peer ↔ v6AddrEquals n.addr p.addr = true ∧ n.port = p.port
  := by
  obtain ⟨addr, port⟩ := p
  rw [v6AddrEquals_iff, eq_comm, Node.peer, Peer.mk.injEq]

/-- Whether a finger is known to answer: `F_PASSIVE` or `F_ACTIVE`. -/
inductive Status where
  | passive
  | active
  deriving DecidableEq

/-- A `Finger`.  The identifier of its node is what tells it from the other fingers of a
list. -/
structure Finger where
  node : Node
  status : Status
  npings : ℕ
  rttAvg : ℤ
  rttDev : ℤ
  deriving DecidableEq

/-- The finger is `F_ACTIVE`. -/
def Finger.isActive (f : Finger) : Bool :=
  f.status = .active

/-- The finger is `F_PASSIVE`. -/
def Finger.isPassive (f : Finger) : Bool :=
  f.status = .passive

@[simp]
theorem Finger.not_isActive (f : Finger) :
  (!f.isActive) = f.isPassive
  := by
  unfold isActive isPassive
  cases f.status <;> rfl

theorem Finger.isPassive_iff {f : Finger} :
  f.isPassive = true ↔ f.isActive = false
  := by
  rw [← not_isActive, Bool.not_eq_true']

/-! ### The server -/


/-- A `ChordServer`. -/
structure ChordServer where
  node : Node
  predBound : ChordID
  flist : List Finger
  numPassiveFingers : ℤ
  toFixFinger : ℕ
  toFixBackup : ℕ
  toPing : ℕ
  isV6 : Bool
  wellKnown : List Peer
  stabEvent : Bool
  discoverAddrEvent : Bool
  ticketSalt : Bytes
  ticketHashLen : ℕ
  deriving DecidableEq

/-- What `server_initialize_list_from_file` and the random generator supply for a new
server. -/
structure Config where
  ticketSalt : Bytes
  isV6 : Bool
  port : UInt16
  wellKnown : List Peer

/-- `new_server`, and the members `server_initialize_list_from_file` then sets. -/
def newServer (cfg : Config) : ChordServer where
  node := ⟨0, 0, cfg.port⟩
  predBound := 0
  flist := []
  numPassiveFingers := 0
  toFixFinger := nfingers - 1
  toFixBackup := 0
  toPing := 0
  isV6 := cfg.isV6
  wellKnown := cfg.wellKnown
  stabEvent := false
  discoverAddrEvent := true
  ticketSalt := cfg.ticketSalt
  ticketHashLen := 4

/-- The server has learnt its own address. -/
def ChordServer.Discovered (srv : ChordServer) : Prop :=
  srv.node.addr.isUnspecified = false

instance (srv : ChordServer) : Decidable srv.Discovered :=
  inferInstanceAs (Decidable (_ = _))

/-- `chord_update_range`. -/
def chordUpdateRange (srv : ChordServer) (l r : ChordID) : ChordServer :=
  { srv with predBound := l, node := { srv.node with id := r } }

/-- `chord_id_is_local`. -/
def chordIdIsLocal (srv : ChordServer) (x : ChordID) : Bool :=
  idEquals x srv.node.id || idIsBetween x srv.predBound srv.node.id

/-- The identifiers local to a server are those of the clockwise interval from its
`predBound` to its own identifier, the latter included. -/
theorem chordIdIsLocal_iff {srv : ChordServer} {x : ChordID} :
  chordIdIsLocal srv x = true ↔
    ChordID.arc srv.predBound x ≤ ChordID.arc srv.predBound srv.node.id
  := by
  rw [chordIdIsLocal, Bool.or_eq_true, idEquals_iff, idIsBetween_iff, le_iff_eq_or_lt,
    ChordID.arc_inj]

end Tangent

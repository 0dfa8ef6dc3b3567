import Tangent.Model.Server

/-!
# Hashing and tickets

`crypt.c`.  The hash function is OpenSSL's, and the packing of tickets is generated from
`messages.proto` at build time; a `Library` supplies them.  The variable arguments of
`vpack_hash` are a list of `HashArg`, one for each letter of the format string, and `vpackHash`
is the byte string fed to the digest, on a machine that stores the low byte of an integer
first.
-/

namespace Tangent

/-- A `Ticket`: the time it was issued at and the hash that binds it to its request. -/
structure Ticket where
  time : UInt32
  hash : Bytes
  deriving DecidableEq

/-- What the code calls in OpenSSL and protobuf-c: the SHA-1 digest of a byte string, the
packing and unpacking of tickets, and whether `ticket__free_unpacked` may be given a
`NULL` pointer.  The copy of it in `messages.pb-c.c` may not, since it reads the message in an
assertion; later versions of the generator emit a test for `NULL`. -/
structure Library where
  sha1 : Bytes → ChordID
  ticketPack : Ticket → Bytes
  ticketUnpack : Bytes → Option Ticket
  freeUnpackedNull : Bool

/-- A format letter of `vpack_hash` with its argument. -/
inductive HashArg where
  | c (v : UInt8)
  | s (v : UInt16)
  | l (v : UInt64)
  | x (v : ChordID)
  | v6 (v : In6Addr)

/-- The `w` bytes of an integer, low byte first. -/
def leBytes (w n : ℕ) : Bytes :=
  (List.range w).map (fun i => UInt8.ofNat (n / 256 ^ i))

theorem leBytes_succ (w n : ℕ) :
  leBytes (w + 1) n = UInt8.ofNat n :: leBytes w (n / 256)
  := by
  simp [leBytes, List.range_succ_eq_map, Nat.div_div_eq_div_mul, pow_succ, mul_comm]

@[simp]
theorem length_leBytes (w n : ℕ) :
  (leBytes w n).length = w
  := by
  simp [leBytes]

/-- Reading the bytes of an integer back, most significant byte first. -/
theorem beNat_reverse_leBytes (w n : ℕ) :
  Bytes.beNat (leBytes w n).reverse = n % 256 ^ w
  := by
  induction w generalizing n with
  | zero => simp [leBytes, Bytes.beNat, Nat.mod_one]
  | succ w ih =>
      rw [leBytes_succ, List.reverse_cons, Bytes.beNat_append, ih, pow_succ, mul_comm (256 ^ w),
        Nat.mod_mul]
      simp only [Bytes.beNat, List.length_singleton, List.length_nil, pow_one, pow_zero, mul_one,
        add_zero, UInt8.toNat_ofNat']
      ring

/-- The bytes `vpack_hash` feeds to the digest for one format letter. -/
def HashArg.bytes : HashArg → Bytes
  | .c v => [v]
  | .s v => leBytes 2 v.toNat
  | .l v => leBytes 8 v.toNat
  | .x v => v.x
  | .v6 v => v.s6Addr

/-- `vpack_hash`. -/
def vpackHash (args : List HashArg) : Bytes :=
  args.flatMap HashArg.bytes

/-- `htons` on a machine that stores the low byte first. -/
def htons (v : UInt16) : UInt16 :=
  v <<< 8 ||| v >>> 8

/-- `get_address_id`. -/
def getAddressId (L : Library) (addr : In6Addr) (port : UInt16) : ChordID :=
  L.sha1 (vpackHash [.v6 addr, .s (htons port)])

/-- The node of a peer, at the position its address and port hash to. -/
def Peer.node (L : Library) (p : Peer) : Node :=
  ⟨getAddressId L p.addr p.port, p.addr, p.port⟩

/-- `TICKET_TIMEOUT`, in seconds. -/
abbrev ticketTimeout : ℤ := 1000000

/-- The digest of `pack_ticket` and `verify_ticket`, cut to `hashLen` bytes. -/
def ticketHash (L : Library) (salt : Bytes) (hashLen : ℕ) (time : UInt32)
    (args : List HashArg) : Bytes :=
  (L.sha1 (salt ++ vpackHash [.l time.toUInt64] ++ vpackHash args)).x.take hashLen

/-- `pack_ticket`, at the time `now`. -/
def packTicket (L : Library) (srv : ChordServer) (now : ℕ) (args : List HashArg) : Bytes :=
  let epochTime := UInt32.ofNat now
  L.ticketPack ⟨epochTime, ticketHash L srv.ticketSalt srv.ticketHashLen epochTime args⟩

/-- `verify_ticket`, at the time `now`.  When the ticket does not unpack, the function
still frees it. -/
def verifyTicket (L : Library) (srv : ChordServer) (now : ℕ) (buf : Bytes)
    (args : List HashArg) : Except Fault Bool :=
  match L.ticketUnpack buf with
  | none => if L.freeUnpackedNull then .ok false else .error .nullPointer
  | some ticket =>
      if ticket.hash.length ≠ srv.ticketHashLen then
        .ok false
      else if (ticket.time.toNat : ℤ) < now - ticketTimeout then
        .ok false
      else
        .ok (decide (Bytes.memcmp
          (ticketHash L srv.ticketSalt srv.ticketHashLen ticket.time args) ticket.hash = 0))

end Tangent

import Mathlib.Data.Set.Function
import Tangent.Security.Tickets

/-!
# Tickets and the requests they belong to

A ticket is the time it was issued at and a hash of the salt, the time and the fields of the
request, one behind the other without separators.  The fields of a request have the widths
its format string gives them, and the three format strings have different widths, so the
hashed bytes determine the time and the request.

A ticket therefore verifies in the handler of a response if and only if the response answers
the request the ticket was issued for and the ticket has not timed out, as long as the hash
does not collide on the requests in question.
-/

namespace Tangent

variable {L : Library} {io : Io} {srv srv' : ChordServer} {frm : Peer} {msg : Msg}

/-! ### The bytes of a format string -/

/-- The bytes of an integer determine it up to its width. -/
theorem leBytes_inj {w n m : ℕ} (h : leBytes w n = leBytes w m) :
  n % 256 ^ w = m % 256 ^ w
  := by
  rw [← beNat_reverse_leBytes, h, beNat_reverse_leBytes]

/-- The letter of the format string an argument is packed by. -/
def HashArg.letter : HashArg → Char
  | .c _ => 'c'
  | .s _ => 's'
  | .l _ => 'l'
  | .x _ => 'x'
  | .v6 _ => '6'

/-- The number of bytes an argument takes depends on its letter only. -/
theorem HashArg.length_bytes {a b : HashArg} (h : a.letter = b.letter) :
  a.bytes.length = b.bytes.length
  := by
  cases a <;> cases b <;> simp_all [letter, bytes, ChordID.length_x, In6Addr.length_s6Addr]

/-- An argument is determined by its letter and its bytes. -/
theorem HashArg.bytes_inj {a b : HashArg} (h : a.letter = b.letter) (hb : a.bytes = b.bytes) :
  a = b
  := by
  cases a with
  | c v =>
      cases b with
      | c v' => simpa [bytes] using hb
      | _ => simp [letter] at h
  | s v =>
      cases b with
      | s v' =>
          have hv : v.toNat < 256 ^ 2 := v.toNat_lt
          have hv' : v'.toNat < 256 ^ 2 := v'.toNat_lt
          have heq := leBytes_inj hb
          rw [Nat.mod_eq_of_lt hv, Nat.mod_eq_of_lt hv'] at heq
          rw [UInt16.toNat_inj.mp heq]
      | _ => simp [letter] at h
  | l v =>
      cases b with
      | l v' =>
          have hv : v.toNat < 256 ^ 8 := v.toNat_lt
          have hv' : v'.toNat < 256 ^ 8 := v'.toNat_lt
          have heq := leBytes_inj hb
          rw [Nat.mod_eq_of_lt hv, Nat.mod_eq_of_lt hv'] at heq
          rw [UInt64.toNat_inj.mp heq]
      | _ => simp [letter] at h
  | x v =>
      cases b with
      | x v' => rw [ChordID.ext hb]
      | _ => simp [letter] at h
  | v6 v =>
      cases b with
      | v6 v' => rw [In6Addr.ext hb]
      | _ => simp [letter] at h

/-- For one format string, what `vpack_hash` hashes determines the arguments. -/
theorem vpackHash_inj {args args' : List HashArg}
    (hfmt : args.map HashArg.letter = args'.map HashArg.letter)
    (h : vpackHash args = vpackHash args') :
  args = args'
  := by
  induction args generalizing args' with
  | nil =>
      symm
      simpa using hfmt.symm
  | cons a args ih =>
      cases args' with
      | nil => simp at hfmt
      | cons b args' =>
          rw [List.map_cons, List.map_cons, List.cons.injEq] at hfmt
          rw [vpackHash, List.flatMap_cons, vpackHash, List.flatMap_cons] at h
          obtain ⟨hhead, htail⟩ := List.append_inj h (HashArg.length_bytes hfmt.1)
          rw [HashArg.bytes_inj hfmt.1 hhead, ih hfmt.2 htail]

/-! ### Requests -/

/-- A request that carries a ticket, with the fields that are hashed into it. -/
inductive Request where
  | addrDiscover (addr : In6Addr) (port : UInt16)
  | fs
  | ping (addr : In6Addr) (port : UInt16) (time : UInt64)
  deriving DecidableEq

/-- The arguments of the ticket of a request. -/
def Request.args : Request → List HashArg
  | .addrDiscover addr port => addrDiscoverArgs addr port
  | .fs => fsArgs
  | .ping addr port time => pingArgs addr port time

/-- The bytes hashed for the ticket of a request. -/
def ticketBytes (salt : Bytes) (time : UInt32) (r : Request) : Bytes :=
  salt ++ vpackHash [.l time.toUInt64] ++ vpackHash r.args

/-- The number of bytes a request is hashed to. -/
def Request.width : Request → ℕ
  | .addrDiscover .. => 19
  | .fs => 1
  | .ping .. => 27

theorem Request.length_vpackHash (r : Request) :
  (vpackHash r.args).length = r.width
  := by
  cases r with
  | addrDiscover addr port =>
      simp [args, addrDiscoverArgs, vpackHash, HashArg.bytes, addr.length_s6Addr, width]
  | fs => rfl
  | ping addr port time =>
      simp [args, pingArgs, vpackHash, HashArg.bytes, addr.length_s6Addr, width]

/-- Requests of one type have one format string, and the types are told apart by the
width. -/
theorem Request.vpackHash_inj {r r' : Request} (h : vpackHash r.args = vpackHash r'.args) :
  r = r'
  := by
  have hwidth : r.width = r'.width := by
    rw [← r.length_vpackHash, h, r'.length_vpackHash]
  cases r with
  | addrDiscover addr port =>
      cases r' with
      | addrDiscover addr' port' =>
          have := Tangent.vpackHash_inj (by rfl) h
          simp_all [args, addrDiscoverArgs]
      | fs => simp [width] at hwidth
      | ping addr' port' time' => simp [width] at hwidth
  | fs =>
      cases r' with
      | addrDiscover addr' port' => simp [width] at hwidth
      | fs => rfl
      | ping addr' port' time' => simp [width] at hwidth
  | ping addr port time =>
      cases r' with
      | addrDiscover addr' port' => simp [width] at hwidth
      | fs => simp [width] at hwidth
      | ping addr' port' time' =>
          have := Tangent.vpackHash_inj (by rfl) h
          simp_all [args, pingArgs]

/-- For one salt, the hashed bytes determine the time and the request. -/
theorem ticketBytes_inj {salt : Bytes} {time time' : UInt32} {r r' : Request}
    (h : ticketBytes salt time r = ticketBytes salt time' r') :
  time = time' ∧ r = r'
  := by
  rw [ticketBytes, ticketBytes, List.append_assoc, List.append_assoc,
    List.append_cancel_left_eq] at h
  obtain ⟨htime, hreq⟩ := List.append_inj h (by simp [vpackHash, HashArg.bytes])
  constructor
  · have := vpackHash_inj (by rfl) htime
    simpa [UInt32.toUInt64_inj] using this
  · apply Request.vpackHash_inj hreq

/-! ### Verification -/

/-- The request a response from `frm` answers. -/
def Msg.answers (frm : Peer) : Msg → Option Request
  | .addrDiscoverReply _ => some (.addrDiscover frm.addr frm.port)
  | .fsReply _ => some .fs
  | .pong m => some (.ping frm.addr frm.port m.time)
  | _ => none

/-- The ticket a response carries. -/
def Msg.ticket : Msg → Bytes
  | .addrDiscoverReply m => m.ticket
  | .fsReply m => m.ticket
  | .pong m => m.ticket
  | _ => []

/-- The handler of a response verifies its ticket for the request it answers. -/
theorem carriesTicket_iff :
  carriesTicket L io srv frm msg ↔
    ∃ r, msg.answers frm = some r ∧
      verifyTicket L srv (io.time 0) msg.ticket r.args = .ok true
  := by
  cases msg <;> simp [carriesTicket, Msg.answers, Msg.ticket, pongVerified, Request.args]

/-- The hashes of tickets are four bytes of the digest. -/
theorem Reachable.ticketHashLen (h : Reachable L srv) :
  srv.ticketHashLen = 4
  := by
  obtain ⟨cfg, es, hrun⟩ := h
  have hnew : Reachable L (newServer cfg) := ⟨cfg, [], rfl⟩
  have heq := hnew.settings_eq hrun
  simp only [ChordServer.settings, Prod.mk.injEq] at heq
  exact heq.2.1

/-- Unpacking undoes packing. -/
def Library.Roundtrip (L : Library) : Prop :=
  ∀ t, L.ticketUnpack (L.ticketPack t) = some t

/-- A ticket of the server verifies for the arguments `args'` if and only if it has not timed
out and the hash for them is the one in the ticket. -/
theorem verifyTicket_packTicket {now now' : ℕ} {args args' : List HashArg}
    (hpack : L.Roundtrip) (h : Reachable L srv) (hset : srv'.settings = srv.settings) :
  verifyTicket L srv' now' (packTicket L srv now args) args' = .ok true ↔
    now' - ticketTimeout ≤ (UInt32.ofNat now).toNat ∧
      ticketHash L srv.ticketSalt srv.ticketHashLen (UInt32.ofNat now) args'
        = ticketHash L srv.ticketSalt srv.ticketHashLen (UInt32.ofNat now) args
  := by
  have hlen : ∀ args, (ticketHash L srv.ticketSalt srv.ticketHashLen (UInt32.ofNat now)
      args).length = srv.ticketHashLen := by
    intro args
    simp [ticketHash, ChordID.length_x, chordIdBytes, h.ticketHashLen]
  simp only [ChordServer.settings, Prod.mk.injEq] at hset
  rw [packTicket, verifyTicket, hpack]
  simp only [hset.1, hset.2.1, hlen, ne_eq, not_true_eq_false, if_false]
  split
  · rename_i hlate
    constructor
    · intro hv
      cases hv
    · rintro ⟨htime, -⟩
      exact absurd htime (not_le.mpr hlate)
  · rename_i htime
    rw [Except.ok.injEq, decide_eq_true_iff,
      Bytes.memcmp_eq_zero_iff ((hlen args').trans (hlen args).symm)]
    exact ⟨fun heq => ⟨not_lt.mp htime, heq⟩, fun hh => hh.2⟩

/-- The truncated hash does not collide on the tickets of the requests of `R`. -/
def CollisionFree (L : Library) (srv : ChordServer) (R : Set (UInt32 × Request)) : Prop :=
  ∀ x ∈ R, ∀ y ∈ R,
    ticketHash L srv.ticketSalt srv.ticketHashLen x.1 x.2.args
      = ticketHash L srv.ticketSalt srv.ticketHashLen y.1 y.2.args →
    ticketBytes srv.ticketSalt x.1 x.2 = ticketBytes srv.ticketSalt y.1 y.2

/-- The bytes hashed for two requests that differ in their type, their time, or a field that
is hashed, are different.  So, on requests on which the truncated hash does not collide, a
ticket the server issued verifies in the handler of a response if and only if the response
answers the request the ticket was issued for, and the ticket has not timed out. -/
theorem ticket_bound_to_request {es : List Event} (hpack : L.Roundtrip) (h : Reachable L srv)
    (hrun : run L srv es = .ok srv') :
  (∀ time time' r r', (time, r) ≠ (time', r') →
      ticketBytes srv.ticketSalt time r ≠ ticketBytes srv.ticketSalt time' r') ∧
    ∀ R, CollisionFree L srv R → ∀ now r r' frm msg io,
      (UInt32.ofNat now, r) ∈ R → (UInt32.ofNat now, r') ∈ R →
      msg.answers frm = some r' → msg.ticket = packTicket L srv now r.args →
      (carriesTicket L io srv' frm msg ↔
        r' = r ∧ io.time 0 - ticketTimeout ≤ (UInt32.ofNat now).toNat)
  := by
  constructor
  · intro time time' r r' hne heq
    obtain ⟨rfl, rfl⟩ := ticketBytes_inj heq
    exact hne rfl
  · intro R hR now r r' frm msg io hr hr' hanswers hticket
    have hset := h.settings_eq hrun
    have hiff : carriesTicket L io srv' frm msg ↔
        verifyTicket L srv' (io.time 0) (packTicket L srv now r.args) r'.args = .ok true := by
      rw [carriesTicket_iff, hanswers, hticket]
      simp
    rw [hiff, verifyTicket_packTicket hpack h hset]
    constructor
    · rintro ⟨htime, hhash⟩
      exact ⟨(ticketBytes_inj (hR _ hr' _ hr hhash)).2, htime⟩
    · rintro ⟨rfl, htime⟩
      exact ⟨htime, rfl⟩

/-- The sample library with a hash that begins with the length of what is hashed. -/
def sampleTickets : Library :=
  { sampleLibrary with
    sha1 := fun b => ⟨UInt8.ofNat b.length :: List.replicate 19 0, by simp⟩ }

theorem sampleTickets_roundtrip :
  sampleTickets.Roundtrip
  := by
  rintro ⟨time, hash⟩
  have htime : time.toNat < 256 ^ 4 := time.toNat_lt
  have htake : (leBytes 4 time.toNat ++ hash).take 4 = leBytes 4 time.toNat :=
    List.take_left' (length_leBytes 4 _)
  have hdrop : (leBytes 4 time.toNat ++ hash).drop 4 = hash :=
    List.drop_left' (length_leBytes 4 _)
  have hunpack : sampleTickets.ticketUnpack (sampleTickets.ticketPack ⟨time, hash⟩)
      = some ⟨UInt32.ofNat (Bytes.beNat (leBytes 4 time.toNat).reverse), hash⟩ := by
    simp only [sampleTickets, sampleLibrary, htake, hdrop]
    simp
  rw [hunpack, beNat_reverse_leBytes, Nat.mod_eq_of_lt htime, UInt32.ofNat_toNat]

/-- The ticket of a lookup verifies in a reply to a lookup, and not in a pong. -/
theorem ticket_bound_to_request_sample :
  carriesTicket sampleTickets sampleIo (newServer (sampleConfig (samplePeer 10 0)))
      (samplePeer 20 0) (.fsReply
        ⟨packTicket sampleTickets (newServer (sampleConfig (samplePeer 10 0))) 0 fsArgs, [], 0⟩) ∧
    ¬ carriesTicket sampleTickets sampleIo (newServer (sampleConfig (samplePeer 10 0)))
      (samplePeer 20 0) (.pong
        ⟨packTicket sampleTickets (newServer (sampleConfig (samplePeer 10 0))) 0 fsArgs, 0⟩)
  := by
  have hrun : run sampleTickets (newServer (sampleConfig (samplePeer 10 0))) []
      = .ok (newServer (sampleConfig (samplePeer 10 0))) := rfl
  have hbound := (ticket_bound_to_request sampleTickets_roundtrip ⟨_, [], rfl⟩ hrun).2
    {(0, .fs), (0, .ping (samplePeer 20 0).addr (samplePeer 20 0).port 0)}
    (by
      rintro x (rfl | rfl) y (rfl | rfl) hxy
      · rfl
      · exact absurd hxy (by decide)
      · exact absurd hxy (by decide)
      · rfl)
    0 .fs
  constructor
  · apply (hbound .fs (samplePeer 20 0) _ sampleIo (by simp) (by simp) rfl rfl).mpr
    exact ⟨rfl, by decide⟩
  · intro hv
    have heq := (hbound _ (samplePeer 20 0) _ sampleIo (by simp) (by simp) rfl rfl).mp hv
    cases heq.1

end Tangent

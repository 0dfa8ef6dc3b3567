import Mathlib.Algebra.Order.BigOperators.Group.List
import Tangent.Network.Simulation
import Tangent.Safety.Buffers

/-!
# Messages that travel as bytes

A short message has room for what a response repeats of it.  What servers send in response to
short messages is short again, and so is what their timers send.  A packet with a short message
fits into the buffers, and its datagram is unpacked to the message it was made of.  So with the
pack and unpack functions generated from `messages.proto`, a network of bytes that holds short
messages simulates the network of messages.
-/

namespace Tangent

variable {L : Library} {io : Io} {srv srv' : ChordServer} {n : Node} {out : Outcome} {msg : Msg}
  {acts : List Action} {ticket : Bytes} {addr : In6Addr} {port : UInt16}

/-! ### Short messages -/

/-- What a response repeats of a message. -/
def Msg.echo : Msg → Bytes
  | .addrDiscover m => m.ticket
  | .data m => m.data
  | .fs m => m.ticket
  | .ping m => m.ticket
  | _ => []

/-- The message can be written and fits into the buffers, and leaves room for its response. -/
structure Msg.Short (msg : Msg) : Prop where
  packable : msg.Packable
  fits : (wirePacking.messagePack msg).length ≤ 65527
  echo : msg.echo.length ≤ 65496

/-- What a field of a message holds can be written, unless it is a long string. -/
theorem Msg.field_valid {f : Wire.Field} (hf : f ∈ msg.fields) :
  f.1 < 2 ^ 29 ∧ ((∃ b, f.2 = .bytes b) ∨ f.2.Valid)
  := by
  have hvarint (v : UInt32) : (Wire.Value.varint v.toNat).Valid := v.toNat_lt.trans (by decide)
  have hbool (b : Bool) : (Wire.Value.varint b.toNat).Valid := by
    cases b <;> (show _ < 128 ^ 10) <;> decide
  have htime (t : UInt64) : (packTime t).Valid := length_leBytes 8 t.toNat
  revert f
  cases msg <;> simp [Msg.fields, hvarint, hbool, htime]

/-- A message can be written if its strings are not too long. -/
theorem Msg.packable_of_bytes (h : ∀ f ∈ msg.fields, ∀ b, f.2 = .bytes b → b.length < 128 ^ 5) :
  msg.Packable
  := by
  intro f hf
  obtain ⟨hnum, ⟨b, hb⟩ | hvalid⟩ := Msg.field_valid hf
  · refine ⟨hnum, ?_⟩
    rw [hb]
    exact h f hf b hb
  · exact ⟨hnum, hvalid⟩

/-- A message that fits into the buffers can be written. -/
theorem Msg.Short.of_fits (fits : (wirePacking.messagePack msg).length ≤ 65527)
    (echo : msg.echo.length ≤ 65496) :
  msg.Short
  := by
  refine ⟨Msg.packable_of_bytes ?_, fits, echo⟩
  intro f hf b hb
  have hle : f.2.encode.length + 1 ≤ (wirePacking.messagePack msg).length := by
    rw [length_messagePack]
    exact List.le_sum_of_mem (List.mem_map.mpr ⟨f, hf, rfl⟩)
  rw [hb, length_encode_bytes] at hle
  omega

section Short

variable {ttl : UInt8} {time : UInt64}

theorem short_addrDiscover (h : ticket.length ≤ 65496) :
  (Msg.addrDiscover ⟨ticket⟩).Short
  := by
  have hecho := echo_le_iff (n := ticket.length) (by decide : 1 ≤ 100)
  refine .of_fits ?_ h
  rw [length_messagePack]
  simp only [Msg.fields, List.map_cons, List.map_nil, List.sum_cons, List.sum_nil,
    length_encode_bytes]
  omega

theorem short_addrDiscoverReply (h : ticket.length ≤ 65496) :
  (Msg.addrDiscoverReply ⟨ticket, addr.s6Addr⟩).Short
  := by
  have hfits : FitsBuffers ⟨0, 0, .addrDiscoverReply ⟨ticket, addr.s6Addr⟩⟩ :=
    addrDiscoverReply_fits_iff.mpr (h.trans (by decide))
  exact .of_fits (fitsBuffers_iff.mp hfits) (Nat.zero_le _)

theorem short_pong (h : ticket.length ≤ 65496) :
  (Msg.pong ⟨ticket, time⟩).Short
  := by
  have hfits : FitsBuffers ⟨0, 0, .pong ⟨ticket, time⟩⟩ :=
    pong_fits_iff.mpr (h.trans (by decide))
  exact .of_fits (fitsBuffers_iff.mp hfits) (Nat.zero_le _)

theorem short_ping (h : ticket.length ≤ 65496) :
  (Msg.ping ⟨ticket, time⟩).Short
  := by
  have hfits : (Msg.pong ⟨ticket, time⟩).Short := short_pong h
  exact .of_fits hfits.fits h

theorem short_fsReply (h : ticket.length ≤ 65496) :
  (Msg.fsReply ⟨ticket, addr.s6Addr, port.toUInt32⟩).Short
  := by
  have hport := portSize_le port
  have hfits : FitsBuffers ⟨0, 0, .fsReply ⟨ticket, addr.s6Addr, port.toUInt32⟩⟩ :=
    fsReply_fits_iff.mpr (by omega)
  exact .of_fits (fitsBuffers_iff.mp hfits) (Nat.zero_le _)

theorem short_fs (h : ticket.length ≤ 65496) :
  (Msg.fs ⟨ticket, ttl.toUInt32, addr.s6Addr, port.toUInt32⟩).Short
  := by
  have hport := portSize_le port
  have httl := ttlSize_le ttl
  have hfits : FitsBuffers ⟨0, 0, .fs ⟨ticket, ttl.toUInt32, addr.s6Addr, port.toUInt32⟩⟩ :=
    fs_fits_iff.mpr (by omega)
  exact .of_fits (fitsBuffers_iff.mp hfits) h

theorem short_data {id : ChordID} {last : Bool} {data : Bytes} (h : data.length ≤ 65496) :
  (Msg.data ⟨id.x, ttl.toUInt32, last, data⟩).Short
  := by
  have httl := ttlSize_le ttl
  have hfits : FitsBuffers ⟨0, 0, .data ⟨id.x, ttl.toUInt32, last, data⟩⟩ :=
    data_fits_iff.mpr (by omega)
  exact .of_fits (fitsBuffers_iff.mp hfits) h

/-- The messages that hold an address and a port only. -/
theorem length_messagePack_stab :
  (wirePacking.messagePack (.stab ⟨addr.s6Addr, port.toUInt32⟩)).length ≤ 65527
  := by
  have hport := portSize_le port
  rw [length_messagePack]
  simp only [Msg.fields, List.map_cons, List.map_nil, List.sum_cons, List.sum_nil,
    length_encode_addr, length_encode_port]
  omega

theorem short_stab :
  (Msg.stab ⟨addr.s6Addr, port.toUInt32⟩).Short
  := .of_fits length_messagePack_stab (Nat.zero_le _)

theorem short_stabReply :
  (Msg.stabReply ⟨addr.s6Addr, port.toUInt32⟩).Short
  := by
  have hfits : (Msg.stab ⟨addr.s6Addr, port.toUInt32⟩).Short := short_stab
  exact .of_fits hfits.fits (Nat.zero_le _)

theorem short_notify :
  Msg.notify.Short
  := .of_fits (Nat.zero_le _) (Nat.zero_le _)

end Short

/-! ### What servers send -/

/-- Tickets with a hash no longer than a digest fit into `ticket_buf`. -/
def TicketsFit (L : Library) : Prop :=
  ∀ t : Ticket, t.hash.length ≤ chordIdBytes → (L.ticketPack t).length ≤ 1024

theorem TicketsFit.packTicket_le (h : TicketsFit L) (srv : ChordServer) (now : ℕ)
    (args : List HashArg) :
  (packTicket L srv now args).length ≤ 1024
  := h ⟨UInt32.ofNat now, ticketHash L srv.ticketSalt srv.ticketHashLen (UInt32.ofNat now) args⟩
    (by simp [ticketHash, ChordID.length_x])

variable {starts : Bool}

theorem TicketsFit.sendPing (hL : TicketsFit L) (h : SendsPassing Msg.Short starts acts)
    (addr : In6Addr) (port : UInt16) :
  SendsPassing Msg.Short starts (sendPing L io srv acts addr port)
  := by
  have hticket := hL.packTicket_le srv (io.time acts.length)
    (pingArgs addr port (io.now acts.length))
  exact h.sendPacket ⟨short_ping (hticket.trans (by decide)), hticket⟩

theorem TicketsFit.sendFs (hL : TicketsFit L) (h : SendsPassing Msg.Short starts acts) (ttl : UInt8)
    (toAddr : In6Addr) (toPort : UInt16) (addr : In6Addr) (port : UInt16) :
  SendsPassing Msg.Short starts (sendFs L io srv acts ttl toAddr toPort addr port)
  := by
  have hticket := hL.packTicket_le srv (io.time acts.length) fsArgs
  refine h.sendPacket ⟨short_fs (hticket.trans (by decide)), ?_⟩
  rw [Msg.loads]
  split
  · exact hticket
  · exact Nat.zero_le _

theorem TicketsFit.ping_if (hL : TicketsFit L) {b : Prop} [Decidable b]
    (h : SendsPassing Msg.Short starts acts) (addr : In6Addr) (port : UInt16) :
  SendsPassing Msg.Short starts (if b then Tangent.sendPing L io srv acts addr port else acts)
  := by
  split
  · exact hL.sendPing h addr port
  · exact h

theorem processData_passing {m : Data} (hm : m.data.length ≤ 65496)
    (h : processData io srv m n = .ok out) :
  SendsPassing Msg.Short false out.acts
  := by
  obtain ⟨ret, -, -, rfl⟩ | ⟨-, -, -, rfl⟩ | ⟨-, -, -, rfl⟩ := processData_cases h
  · exact Sends.nil
  · intro pkt hpkt
    simp at hpkt
  · have hdata : (m.data.take (m.data.length % 2 ^ 16)).length ≤ 65496 := by
      rw [List.length_take]
      omega
    exact Sends.nil.sendPacket ⟨short_data hdata, Nat.zero_le _⟩

theorem processFs_passing {m : FindSuccessor} (hm : m.ticket.length ≤ 65496)
    (h : processFs L io srv m n = .ok out) :
  SendsPassing Msg.Short false out.acts
  := by
  obtain ⟨ret, -, -, rfl⟩ | ⟨-, -, -, rfl⟩ | ⟨-, -, -, -, rfl⟩ | ⟨-, -, -, s, -, -, rfl⟩
    | ⟨-, -, -, s, -, -, rfl⟩ := processFs_cases h
  · exact Sends.nil
  · exact Sends.nil
  · exact Sends.nil.sendPacket ⟨short_fsReply hm, Nat.zero_le _⟩
  · exact Sends.nil.sendPacket ⟨short_fsReply hm, Nat.zero_le _⟩
  · exact Sends.nil.sendPacket ⟨short_fs hm, Nat.zero_le _⟩

/-- What a handler sends in response to a message that leaves room for it is short. -/
theorem process_passing (hL : TicketsFit L) (hmsg : msg.echo.length ≤ 65496)
    (h : process L io srv msg n = .ok out) :
  SendsPassing Msg.Short false out.acts
  := by
  cases msg with
  | addrDiscover m =>
      cases h
      exact Sends.nil.sendPacket ⟨short_addrDiscoverReply hmsg, Nat.zero_le _⟩
  | addrDiscoverReply m =>
      obtain ⟨-, rfl⟩ | ⟨-, -, rfl⟩ | ⟨-, rfl⟩ := processAddrDiscoverReply_cases h
      · exact Sends.nil
      · exact Sends.nil
      · exact Sends.nil
  | data m => exact processData_passing (n := n) hmsg h
  | fs m => exact processFs_passing (n := n) hmsg h
  | fsReply m =>
      obtain ⟨ret, -, -, rfl⟩ | ⟨-, -, -, rfl⟩ | ⟨-, -, -, r, -, rfl⟩ :=
        processFsReply_cases (n := n) h
      · exact Sends.nil
      · exact Sends.nil
      · exact hL.ping_if Sends.nil _ _
  | stab m =>
      obtain ⟨-, rfl⟩ | ⟨-, r, -, rfl | ⟨pred, hpred, rfl⟩⟩ := processStab_cases (n := n) h
      · exact Sends.nil
      · exact Sends.nil
      · exact Sends.nil.sendPacket ⟨short_stabReply, Nat.zero_le _⟩
  | stabReply m =>
      obtain ⟨-, rfl⟩ | ⟨-, -, rfl⟩ | ⟨-, -, r, -, succ, -, rfl⟩ :=
        processStabReply_cases (n := n) h
      · exact Sends.nil
      · exact Sends.nil
      · exact hL.ping_if (Sends.nil.sendPacket ⟨short_notify, Nat.zero_le _⟩) _ _
  | notify =>
      obtain ⟨-, rfl⟩ | ⟨-, r, -, rfl⟩ := processNotify_cases h
      · exact Sends.nil
      · exact hL.ping_if Sends.nil _ _
  | ping m =>
      obtain ⟨-, rfl⟩ | ⟨-, r, -, rfl⟩ := processPing_cases h
      · exact Sends.nil
      · exact (hL.ping_if Sends.nil _ _).sendPacket ⟨short_pong hmsg, Nat.zero_le _⟩
  | pong m =>
      obtain ⟨ret, -, -, rfl⟩ | ⟨-, -, r, -, ⟨-, rfl⟩ | ⟨id, srv', -, -, rfl⟩⟩ :=
        processPong_cases h
      · exact Sends.nil
      · exact Sends.nil
      · exact Sends.nil

/-! ### What timers send -/

section Tick

variable {P : List Action → Prop}
  (fs : ∀ srv acts addr port addr' port', P acts →
    P (sendFs L io srv acts defTtl addr port addr' port'))

include fs

theorem askWellKnown_acts {rnd i : ℕ} {ps : List Peer} (h : P acts) :
  P (askWellKnown L io srv rnd i ps acts)
  := by
  induction ps generalizing i acts with
  | nil => exact h
  | cons p ps ih =>
      apply ih
      split
      · exact fs _ _ _ _ _ _ h
      · exact h

theorem fixFingers_acts {acts' : List Action} (h : P acts)
    (hx : fixFingers L io srv acts = .ok (srv', acts')) :
  P acts'
  := by
  rw [fixFingers] at hx
  split at hx
  · cases hx
  · split at hx
    · cases hx
    · rename_i s _
      cases hx
      have hmove : P (moveFixFinger L io srv s acts).2 := by
        rw [moveFixFinger]
        split
        · simp only
          split
          · exact askWellKnown_acts fs h
          · exact h
        · exact h
      rw [askFarFinger]
      split
      · exact fs _ _ _ _ _ _ (fs _ _ _ _ _ _ hmove)
      · exact fs _ _ _ _ _ _ hmove

theorem fixPredsLoop_acts {s : Finger} {k : ℕ} {l : List Finger} (h : P acts) :
  P (fixPredsLoop L io srv s acts k l)
  := by
  fun_induction fixPredsLoop L io srv s acts k l with
  | case4 => exact fs _ _ _ _ _ _ h
  | case2 _ _ _ _ _ _ ih => exact ih
  | case5 _ _ _ _ _ _ _ _ ih => exact ih
  | _ => exact h

theorem fixSuccsPreds_acts (h : P acts) :
  P (fixSuccsPreds L io srv acts).2
  := by
  rw [fixSuccsPreds]
  split
  · exact h
  · split
    · exact h
    · exact fixPredsLoop_acts fs (fs _ _ _ _ _ _ h)

variable (ping : ∀ srv acts addr port, P acts → P (sendPing L io srv acts addr port))

include ping

theorem joinWellKnown_acts {ps : List Peer} (h : P acts) :
  P (joinWellKnown L io srv ps acts)
  := by
  induction ps generalizing acts with
  | nil => exact h
  | cons p ps ih => exact ih (ping _ _ _ _ (fs _ _ _ _ _ _ h))

omit fs in
theorem pingLoop_acts {l : List Finger} {i : ℕ} {st : PingState} (h : P st.acts) :
  P (pingLoop L io l i st).acts
  := by
  induction l generalizing i st with
  | nil => exact h
  | cons f l ih =>
      rw [pingLoop]
      split
      · exact ih h
      · split
        · exact ih (ping _ _ _ _ h)
        · exact ih h

omit fs in
theorem pingPred_acts {idx : ℕ} {acts' : List Action} (h : P acts)
    (hp : pingPred L io srv idx acts = .ok acts') :
  P acts'
  := by
  rw [pingPred] at hp
  split at hp
  · split at hp
    · cases hp
    · cases hp
      exact ping _ _ _ _ h
  · cases hp
    exact h

/-- What holds of no actions, and is kept by the send functions the timer calls, holds of what a
tick does. -/
theorem stabilize_acts {idx : ℕ} {t : Tick} (nil : P [])
    (stab : ∀ acts addr port addr' port', P acts → P (sendStab acts addr port addr' port'))
    (ht : stabilize L io srv idx = .ok t) :
  P t.acts
  := by
  have hping : P (Tangent.ping L io srv).2 := by
    rw [Tangent.ping]
    split
    · exact pingLoop_acts ping nil
    · exact pingLoop_acts ping nil
  rw [stabilize] at ht
  split at ht
  · cases ht
    exact joinWellKnown_acts fs ping nil
  · simp only at ht
    split at ht
    · cases ht
      exact hping
    · obtain ⟨acts, hpred, ht⟩ := Except.bind_eq_ok.mp ht
      obtain ⟨⟨srv', acts'⟩, hfix, ht⟩ := Except.bind_eq_ok.mp ht
      have hacts := fixFingers_acts fs
        (fixSuccsPreds_acts fs (pingPred_acts ping (stab _ _ _ _ _ hping) hpred)) hfix
      simp only at ht
      split at ht
      · obtain ⟨srv'', -, ht⟩ := Except.bind_eq_ok.mp ht
        cases ht
        exact hacts
      · cases ht
        exact hacts

end Tick

/-- What a tick sends goes through the buffers. -/
theorem stabilize_passing {idx : ℕ} {t : Tick} (hL : TicketsFit L)
    (ht : stabilize L io srv idx = .ok t) :
  SendsPassing Msg.Short starts t.acts
  := by
  refine stabilize_acts (P := SendsPassing Msg.Short starts) ?_ ?_ Sends.nil ?_ ht
  · intro srv acts addr port addr' port' h
    exact hL.sendFs h defTtl addr port addr' port'
  · intro srv acts addr port h
    exact hL.sendPing h addr port
  · intro acts addr port addr' port' h
    exact h.sendPacket ⟨short_stab, Nat.zero_le _⟩

theorem discoverAddr_passing (hL : TicketsFit L) :
  SendsPassing Msg.Short starts (discoverAddr L io srv)
  := by
  have hfold : ∀ (ps : List Peer) (acts : List Action), SendsPassing Msg.Short starts acts →
      SendsPassing Msg.Short starts
        (ps.foldl (fun acts p => sendAddrDiscover L io srv acts p.addr p.port) acts) := by
    intro ps
    induction ps with
    | nil => exact fun acts h => h
    | cons p ps ih =>
        intro acts h
        have hticket := hL.packTicket_le srv (io.time acts.length)
          (addrDiscoverArgs p.addr p.port)
        exact ih _ (h.sendPacket ⟨short_addrDiscover (hticket.trans (by decide)), hticket⟩)
  rw [discoverAddr]
  split
  · exact hfold _ _ Sends.nil
  · exact Sends.nil

/-! ### The wire -/

/-- Short messages are unpacked as they were packed. -/
theorem short_roundTrips :
  RoundTrips wireProtobuf wirePacking Msg.Short
  where
  header msg h := headerUnpack_encode (h.fits.trans_lt (by decide)) (some chordWireVersion) _
  message msg h := unpack_messagePack h.packable
  payload_le msg h := h.fits.trans (by decide)
  datagram_le msg h := by
    have hpkt : FitsBuffers ⟨0, 0, msg⟩ := fitsBuffers_iff.mpr h.fits
    have hlen := hpkt.2 ⟨0, [], [], []⟩
    rw [packHeader, take_overwrite] at hlen
    exact hlen

theorem short_keptBySends (hL : TicketsFit L) :
  KeptBySends L Msg.Short
  where
  process _ _ _ _ _ h hout := process_passing hL h.echo hout
  tick _ _ _ _ ht := stabilize_passing hL ht
  discover _ _ := discoverAddr_passing hL

section Networks

variable {ι κ : Type*} [DecidableEq ι] [DecidableEq κ] {home : ι → Peer} {proc : ι → κ}
  {net : Net ι} {w w' : WireNet ι κ}

/-- Whatever the order in which datagrams are delivered, lost and duplicated and timers fire, a
network of bytes that starts with short messages does what the network of messages does: no
dispatcher meets a malformed datagram, no buffer is overrun, and every datagram on its way is the
packed form of the message that was sent. -/
theorem wire_run_simulated (hL : TicketsFit L) (h : OnWire wirePacking Msg.Short net w)
    (ms : List (WireMove ι)) :
  (∀ w', wireRun wireProtobuf wirePacking L home proc w ms = .ok w' →
      (∃ ms' net', List.Forall₂ (WireMove.Matches wirePacking) ms ms' ∧
        netRun L home net ms' = .ok net' ∧ OnWire wirePacking Msg.Short net' w') ∧
      ∀ d ∈ w'.flight, d.bytes.length ≤ bufsize) ∧
    ∀ f, wireRun wireProtobuf wirePacking L home proc w ms ≠ .error (.dispatch f)
  := by
  have hkept := short_keptBySends hL
  constructor
  · intro w' hw'
    obtain ⟨ms', net', hms, hnet, h'⟩ := h.run short_roundTrips hkept hw'
    exact ⟨⟨ms', net', hms, hnet, h'⟩, fun d hd => h'.length_le short_roundTrips hd⟩
  · intro f
    exact h.run_no_dispatch_fault short_roundTrips hkept ms f

variable {n : ι → Node} {ids : Function.Injective fun i => (n i).id}

/-- A ring of members that exchange bytes is stable, and stays stable whatever happens to the
datagrams, as long as no ping drops a successor or a predecessor: every server keeps its
successor, its predecessor and its range, and what is on its way has been sent by members and
names nobody else. -/
theorem wire_ring_stays_stable [Finite ι] [Nontrivial ι] (hL : TicketsFit L)
    (h : OnWire wirePacking Msg.Short net w)
    (hmembers : MemberNet L n net) (hstable : ∀ i, StableTable L ids i (net.servers i))
    {ms : List (WireMove ι)}
    (keeps : ∀ w₁ i io,
      Machine.Meets (wireMove wireProtobuf wirePacking L (homes n) proc) w ms w₁ (.tick i io) →
      pingKeeps L io (w₁.servers i))
    (hrun : wireRun wireProtobuf wirePacking L (homes n) proc w ms = .ok w') :
  (∀ i, (succFinger (w'.servers i)).map (·.node) = (succFinger (w.servers i)).map (·.node) ∧
      (predFinger (w'.servers i)).map (·.node) = (predFinger (w.servers i)).map (·.node) ∧
      ∀ x, chordIdIsLocal (w'.servers i) x = chordIdIsLocal (w.servers i) x) ∧
    ∀ d ∈ w'.flight,
      ∃ d' : Datagram, d'.onWire wirePacking = d ∧ IsMember n d'.src ∧ d'.msg.Within (IsMember n)
  := by
  obtain ⟨net', h', hmembers', hstable'⟩ :=
    h.stable_run short_roundTrips (short_keptBySends hL) hmembers hstable keeps hrun
  constructor
  · intro i
    rw [h.servers, h'.servers]
    exact (hstable i).same (hstable' i)
  · intro d hd
    obtain ⟨d', hmem, rfl⟩ := h'.exists_of_mem hd
    exact ⟨d', rfl, hmembers'.flight d' hmem⟩

end Networks

/-! ### A sample -/

theorem sampleLibrary_ticketsFit :
  TicketsFit sampleLibrary
  := by
  intro t ht
  rw [sampleLibrary, List.length_append, length_leBytes]
  have hbytes : chordIdBytes = 20 := rfl
  omega

/-- The servers of one process, with a ping on its way. -/
def sampleWireNet : WireNet (Fin 3) Unit :=
  ⟨sampleRing, fun _ => ⟨0, [], [], []⟩, sampleNet.flight.map (Datagram.onWire wirePacking)⟩

theorem sampleWireNet_onWire :
  OnWire wirePacking Msg.Short sampleNet sampleWireNet
  where
  servers := rfl
  flight := rfl
  msgs := by
    intro d hd
    rw [sampleNet, List.mem_singleton] at hd
    subst hd
    exact short_ping (by decide)
  statics _ := ⟨Nat.zero_le _, Nat.zero_le _, Nat.zero_le _⟩

/-- The ping is delivered. -/
def sampleDelivery : WireMove (Fin 3) :=
  .deliver sampleFirst (.in6 (samplePeer 20 0).addr (samplePeer 20 0).port)
    (Datagram.onWire wirePacking ⟨samplePeer 20 0, samplePeer 10 0, .ping ⟨sampleTicket, 0⟩⟩)
    sampleIo

theorem sampleDelivery_possible :
  ∃ w', wireRun wireProtobuf wirePacking sampleLibrary (fun i => (sampleRing i).node.peer)
    (fun _ => ()) sampleWireNet [sampleDelivery] = .ok w'
  := by
  have hshort : (Msg.ping ⟨sampleTicket, 0⟩).Short := short_ping (by decide)
  have hmove : ∃ w', wireMove wireProtobuf wirePacking sampleLibrary
      (fun i => (sampleRing i).node.peer) (fun _ => ()) sampleWireNet sampleDelivery
        = .ok w' := by
    rw [sampleDelivery, wireMove, if_pos ⟨List.mem_cons_self, rfl, rfl⟩,
      short_roundTrips.receive hshort rfl]
    exact ⟨_, rfl⟩
  obtain ⟨w', hmove⟩ := hmove
  exact ⟨w', Machine.run_cons_eq_ok.mpr ⟨w', hmove, rfl⟩⟩

/-- The delivery of the ping is a delivery of the message. -/
theorem wire_run_simulated_sample :
  ∃ w' ms net', wireRun wireProtobuf wirePacking sampleLibrary
      (fun i => (sampleRing i).node.peer) (fun _ => ()) sampleWireNet [sampleDelivery] = .ok w' ∧
    netRun sampleLibrary (fun i => (sampleRing i).node.peer) sampleNet ms = .ok net' ∧
    OnWire wirePacking Msg.Short net' w'
  := by
  obtain ⟨w', hrun⟩ := sampleDelivery_possible
  obtain ⟨⟨ms, net', -, hnet, h'⟩, -⟩ := (wire_run_simulated sampleLibrary_ticketsFit
    sampleWireNet_onWire [sampleDelivery]).1 w' hrun
  exact ⟨w', ms, net', hrun, hnet, h'⟩

/-- After the delivery, the first server has the successor it had. -/
theorem wire_ring_stays_stable_sample :
  ∃ w', wireRun wireProtobuf wirePacking sampleLibrary
      (fun i => (sampleRing i).node.peer) (fun _ => ()) sampleWireNet [sampleDelivery] = .ok w' ∧
    (succFinger (w'.servers 0)).map (·.node) = some (sampleRing 1).node
  := by
  obtain ⟨w', hrun⟩ := sampleDelivery_possible
  use w', hrun
  obtain ⟨hsame, -⟩ := wire_ring_stays_stable sampleLibrary_ticketsFit sampleWireNet_onWire
    sampleNet_stable.memberNet sampleNet_stable.stableTable (by
      intro w₁ i io hmeets
      obtain ⟨-, heq⟩ | ⟨w₂, -, hnil⟩ := Machine.meets_cons_iff.mp hmeets
      · cases heq
      · exact absurd hnil Machine.not_meets_nil) hrun
  rw [(hsame 0).1]
  rfl

end Tangent

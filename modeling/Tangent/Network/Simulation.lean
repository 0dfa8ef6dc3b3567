import Tangent.Network.Members
import Tangent.Safety.Dispatch
import Tangent.Safety.Interference

/-!
# The network of bytes simulates the network of messages

`OnWire K S net w` relates a network of messages to a network of bytes: the servers are the same,
each datagram of `w` is the packed form of one of `net`, all messages satisfy `S`, and the static
buffers have not been overrun.  Every move of one network is matched by a move of the other, so
what is proved of the messages servers exchange holds of the bytes they exchange.

This needs two things.  What is packed of the messages that satisfy `S` fits into the buffers and
is unpacked again, and what servers send in a network of such messages satisfies `S` again.
-/

namespace Tangent

variable {W : Protobuf} {K : Packing} {S : Msg → Prop} {L : Library} {io : Io}
  {srv srv' : ChordServer} {msg : Msg} {acts : List Action} {src : Source} {st : Statics}
  {starts : Bool} {pkt : Packet}

/-! ### Pack and unpack functions -/

/-- The datagram a message is packed into. -/
def Packing.datagram (K : Packing) (msg : Msg) : Bytes :=
  K.headerPack chordWireVersion msg.type.code.toUInt32 (K.messagePack msg)

/-- What of a message goes through `ticket_buf`. -/
def Msg.loads (starts : Bool) : Msg → Bytes
  | .addrDiscover m => m.ticket
  | .fs m => if starts then m.ticket else []
  | .ping m => m.ticket
  | _ => []

/-- The packets that are sent satisfy `S`, and `ticket_buf` is not overrun. -/
abbrev SendsPassing (S : Msg → Prop) (starts : Bool) (acts : List Action) : Prop :=
  Sends (fun pkt => S pkt.msg ∧ (pkt.msg.loads starts).length ≤ 1024) acts

/-- What is packed of the messages that satisfy `S` fits into the buffers and is unpacked again. -/
structure RoundTrips (W : Protobuf) (K : Packing) (S : Msg → Prop) : Prop where
  header : ∀ msg, S msg →
    W.headerUnpack (K.datagram msg) = some ⟨msg.type.code.toUInt32, K.messagePack msg⟩
  message : ∀ msg, S msg → W.unpack msg.type (K.messagePack msg) = some msg
  payload_le : ∀ msg, S msg → (K.messagePack msg).length ≤ bufsize
  datagram_le : ∀ msg, S msg → (K.datagram msg).length ≤ bufsize

/-- What servers send in response to messages that satisfy `S` satisfies `S` again, and so does
what their timers send. -/
structure KeptBySends (L : Library) (S : Msg → Prop) : Prop where
  process : ∀ io srv msg n out, S msg → process L io srv msg n = .ok out →
    SendsPassing S false out.acts
  tick : ∀ io srv idx t, stabilize L io srv idx = .ok t → SendsPassing S true t.acts
  discover : ∀ io srv, SendsPassing S false (discoverAddr L io srv)

/-! ### Buffers -/

/-- Nothing has been written behind the ends of the static buffers. -/
structure Statics.Fits (st : Statics) : Prop where
  ticketBuf : st.ticketBuf.length ≤ 1024
  msgBuf : st.msgBuf.length ≤ bufsize
  buf : st.buf.length ≤ bufsize

theorem length_overwrite_le {buf data : Bytes} {n : ℕ} (hbuf : buf.length ≤ n)
    (hdata : data.length ≤ n) :
  (overwrite buf data).length ≤ n
  := by
  rw [overwrite, List.length_append, List.length_drop]
  omega

theorem loadMsg_fits (h : st.Fits) (hmsg : (msg.loads starts).length ≤ 1024) :
  (st.loadMsg starts msg).1.Fits
  := by
  cases msg with
  | addrDiscover m => exact { h with ticketBuf := length_overwrite_le h.ticketBuf hmsg }
  | ping m => exact { h with ticketBuf := length_overwrite_le h.ticketBuf hmsg }
  | fs m =>
      rw [Statics.loadMsg]
      rw [Msg.loads] at hmsg
      split at hmsg
      · rename_i hstarts
        rw [if_pos hstarts]
        exact { h with ticketBuf := length_overwrite_le h.ticketBuf hmsg }
      · rename_i hstarts
        rw [if_neg hstarts]
        exact h
  | _ => exact h

/-- A message is packed without overrunning the buffers. -/
theorem RoundTrips.packHeader_fits (hform : RoundTrips W K S) (h : st.Fits) (hmsg : S msg) :
  (packHeader K st msg.type msg).1.Fits
  := by
  refine ⟨h.ticketBuf, length_overwrite_le h.msgBuf (hform.payload_le msg hmsg), ?_⟩
  rw [packHeader, take_overwrite]
  exact length_overwrite_le h.buf (hform.datagram_le msg hmsg)

theorem RoundTrips.transmitAll_fits (hform : RoundTrips W K S) (h : st.Fits)
    (hacts : SendsPassing S starts acts) :
  (transmitAll K starts st acts).1.Fits
  := by
  induction acts generalizing st with
  | nil => exact h
  | cons a acts ih =>
      have hrest : SendsPassing S starts acts := fun pkt hpkt =>
        hacts pkt (List.mem_cons_of_mem a hpkt)
      cases a with
      | upcall id data => exact ih h hrest
      | send pkt =>
          obtain ⟨hmsg, hloads⟩ := hacts pkt List.mem_cons_self
          apply ih _ hrest
          rw [transmit, loadMsg_snd]
          exact hform.packHeader_fits (loadMsg_fits h hloads) hmsg

/-! ### Datagrams -/

/-- A datagram as the sockets see it. -/
def Datagram.onWire (K : Packing) (d : Datagram) : WireDatagram :=
  ⟨d.src, d.dst, K.datagram d.msg⟩

/-- The datagrams a server sends, as the sockets see them. -/
theorem map_onWire_datagrams (K : Packing) (starts : Bool) (p : Peer) (st : Statics)
    (acts : List Action) :
  (datagrams p acts).map (Datagram.onWire K)
    = (transmitAll K starts st acts).2.map fun s => ⟨p, s.dst, s.bytes⟩
  := by
  rw [transmitAll_snd]
  induction acts with
  | nil => rfl
  | cons a acts ih =>
      cases a with
      | upcall id data => exact ih
      | send pkt =>
          rw [datagrams, List.filterMap_cons, ← datagrams, List.map_cons, ih]
          rfl

/-- A server does with the packed form of a message what it does with the message. -/
theorem RoundTrips.handlePacket (hform : RoundTrips W K S) (h : S msg) :
  handlePacket W L io srv src (K.datagram msg)
    = .ok (.ran (process L io srv msg (src.peer.node L)))
  := handlePacket_ran (hform.header msg h) rfl (hform.message msg h)

theorem PacketType.code_injective {t t' : PacketType}
    (h : t.code.toUInt32 = t'.code.toUInt32) :
  t = t'
  := by
  cases t <;> cases t' <;> first | rfl | exact absurd h (by decide)

/-- Different messages have different packed forms. -/
theorem RoundTrips.onWire_injective {d d' : Datagram} (hform : RoundTrips W K S) (h : S d.msg)
    (h' : S d'.msg) (heq : d.onWire K = d'.onWire K) :
  d = d'
  := by
  simp only [Datagram.onWire, WireDatagram.mk.injEq] at heq
  obtain ⟨hsrc, hdst, hbytes⟩ := heq
  have hheader := hform.header d.msg h
  rw [hbytes, hform.header d'.msg h', Option.some.injEq, Header.mk.injEq] at hheader
  obtain ⟨hcode, hpayload⟩ := hheader
  have hmsg := hform.message d.msg h
  rw [← PacketType.code_injective hcode, ← hpayload, hform.message d'.msg h',
    Option.some.injEq] at hmsg
  cases d
  cases d'
  simp_all

/-- A datagram is taken out of the network by taking out its packed form. -/
theorem RoundTrips.erase_onWire {flight : List Datagram} {d : Datagram}
    (hform : RoundTrips W K S) (h : ∀ d ∈ flight, S d.msg) (hd : S d.msg) :
  (flight.map (Datagram.onWire K)).erase (d.onWire K) = (flight.erase d).map (Datagram.onWire K)
  := by
  induction flight with
  | nil => rfl
  | cons a flight ih =>
      obtain ⟨ha, hrest⟩ := List.forall_mem_cons.mp h
      rw [List.map_cons, List.erase_cons, List.erase_cons]
      by_cases heq : a = d
      · simp [heq]
      · have hne : a.onWire K ≠ d.onWire K := fun hw => heq (hform.onWire_injective ha hd hw)
        simp [heq, hne, ih hrest]

/-! ### Networks -/

section Networks

variable {ι κ : Type*} [DecidableEq ι] [DecidableEq κ] {home : ι → Peer} {proc : ι → κ}
  {net net' : Net ι} {w w' : WireNet ι κ}

/-- The network of bytes is the packed form of the network of messages. -/
structure OnWire (K : Packing) (S : Msg → Prop) (net : Net ι) (w : WireNet ι κ) : Prop where
  servers : w.servers = net.servers
  flight : w.flight = net.flight.map (Datagram.onWire K)
  msgs : ∀ d ∈ net.flight, S d.msg
  statics : ∀ k, (w.statics k).Fits

/-- Moves that are the same but for the form of the datagrams and the counter of a tick. -/
inductive WireMove.Matches (K : Packing) : WireMove ι → Move ι → Prop where
  | deliver (i : ι) (src : Source) (d : Datagram) (io : Io) :
      Matches K (.deliver i src (d.onWire K) io) (.deliver i d io)
  | lose (d : Datagram) : Matches K (.lose (d.onWire K)) (.lose d)
  | duplicate (d : Datagram) : Matches K (.duplicate (d.onWire K)) (.duplicate d)
  | tick (i : ι) (idx : ℕ) (io : Io) : Matches K (.tick i io) (.tick i idx io)
  | discover (i : ι) (io : Io) : Matches K (.discover i io) (.discover i io)

/-- What a move leads to in the two networks: related networks, or the same fault of a server. -/
inductive Outcomes (K : Packing) (S : Msg → Prop) :
    Except NetFault (Net ι) → Except WireFault (WireNet ι κ) → Prop where
  | ok {net : Net ι} {w : WireNet ι κ} (related : OnWire K S net w) :
      Outcomes K S (.ok net) (.ok w)
  | fault (f : Fault) : Outcomes K S (.error (.fault f)) (.error (.fault f))

omit [DecidableEq ι] [DecidableEq κ] in
theorem OnWire.exists_of_mem {d : WireDatagram} (h : OnWire K S net w) (hd : d ∈ w.flight) :
  ∃ d' ∈ net.flight, d'.onWire K = d
  := by
  rw [h.flight] at hd
  exact List.mem_map.mp hd

omit [DecidableEq ι] [DecidableEq κ] in
/-- A datagram leaves both networks. -/
theorem OnWire.erase {d : Datagram} (hform : RoundTrips W K S) (h : OnWire K S net w)
    (hd : d ∈ net.flight) :
  OnWire K S { net with flight := net.flight.erase d }
    { w with flight := w.flight.erase (d.onWire K) }
  := by
  refine ⟨h.servers, ?_, ?_, h.statics⟩
  · simp only [h.flight, hform.erase_onWire h.msgs (h.msgs d hd)]
  · intro d' hd'
    exact h.msgs d' (List.mem_of_mem_erase hd')

/-- A server reacts, and its packets go through the buffers. -/
theorem OnWire.put (hform : RoundTrips W K S) (h : OnWire K S net w) (i : ι) (starts : Bool)
    (hst : st.Fits) {e : Event} {r : Except WireFault (ChordServer × Statics × List Sent)}
    (hr : r = match react L (net.servers i) e with
      | .ok (srv, acts) => .ok (srv, transmitAll K starts st acts)
      | .error f => .error (.fault f))
    (hacts : ∀ srv acts, react L (net.servers i) e = .ok (srv, acts) →
      SendsPassing S starts acts) :
  Outcomes K S (Net.reactTo L home net i e) (WireNet.put home proc w i r)
  := by
  subst hr
  rw [Net.reactTo]
  cases hreact : react L (net.servers i) e with
  | error f => exact .fault f
  | ok p =>
      obtain ⟨srv', acts⟩ := p
      have hpass := hacts srv' acts hreact
      apply Outcomes.ok
      constructor
      · simp only [h.servers]
      · simp only [h.flight, List.map_append, map_onWire_datagrams K starts (home i) st acts]
      · intro d hd
        rcases List.mem_append.mp hd with hd | hd
        · exact h.msgs d hd
        · obtain ⟨-, pkt, hpkt, hmsg⟩ := mem_datagrams hd
          rw [hmsg]
          exact (hpass pkt hpkt).1
      · intro k
        by_cases hk : k = proc i
        · simpa [hk] using hform.transmitAll_fits hst hpass
        · simpa [hk] using h.statics k

/-- With a datagram of the network, a server does what it does with its message. -/
theorem RoundTrips.receive {d : Datagram} (hform : RoundTrips W K S) (hd : S d.msg)
    (hsrc : src.peer = d.src) :
  receive W K L io srv st src (d.onWire K).bytes
    = match react L srv (.packet d.src d.msg io) with
      | .ok (srv, acts) => .ok (srv, transmitAll K false st acts)
      | .error f => .error (.fault f)
  := by
  have hhandle : Tangent.handlePacket W L io srv src (d.onWire K).bytes
      = .ok (.ran (process L io srv d.msg (d.src.node L))) := by
    rw [← hsrc]
    exact hform.handlePacket hd
  rw [Tangent.receive, hhandle, react]
  cases process L io srv d.msg (d.src.node L) with
  | ok out => rfl
  | error f => rfl

variable (home proc)

/-- The delivery of a datagram is the delivery of its packed form. -/
theorem OnWire.deliver {d : Datagram} {i : ι} (hform : RoundTrips W K S)
    (hkept : KeptBySends L S) (h : OnWire K S net w) (hd : d ∈ net.flight) (hdst : d.dst = home i)
    (hsrc : src.peer = d.src) :
  Outcomes K S (netMove L home net (.deliver i d io))
    (wireMove W K L home proc w (.deliver i src (d.onWire K) io))
  := by
  have hwire : d.onWire K ∈ w.flight := by
    rw [h.flight]
    exact List.mem_map_of_mem hd
  have hmsg := h.msgs d hd
  rw [netMove, if_pos ⟨hd, hdst⟩, wireMove, if_pos ⟨hwire, hdst, hsrc⟩]
  apply (h.erase hform hd).put hform i false (h.statics (proc i))
  · rw [h.servers]
    exact hform.receive hmsg hsrc
  · intro srv acts hreact
    obtain ⟨out, hout, heq⟩ := Except.map_eq_ok.mp hreact
    cases heq
    exact hkept.process _ _ _ _ out hmsg hout

omit [DecidableEq ι] [DecidableEq κ] in
/-- A datagram is put into both networks once more. -/
theorem OnWire.duplicate {d : Datagram} (h : OnWire K S net w) (hd : d ∈ net.flight) :
  OnWire K S { net with flight := d :: net.flight }
    { w with flight := d.onWire K :: w.flight }
  := by
  refine ⟨h.servers, ?_, ?_, h.statics⟩
  · simp only [h.flight, List.map_cons]
  · intro d' hd'
    rcases List.mem_cons.mp hd' with rfl | hd'
    · exact h.msgs d' hd
    · exact h.msgs d' hd'

/-- A tick reads the counter of the process. -/
theorem OnWire.tick (hform : RoundTrips W K S) (hkept : KeptBySends L S) (h : OnWire K S net w)
    (i : ι) (io : Io) :
  Outcomes K S (netMove L home net (.tick i (w.statics (proc i)).idx io))
    (wireMove W K L home proc w (.tick i io))
  := by
  rw [netMove, wireMove, fire, reactIn, reactAt, h.servers]
  cases ht : stabilize L io (net.servers i) (w.statics (proc i)).idx with
  | error f =>
      rw [Net.reactTo, react, ht]
      exact .fault f
  | ok t =>
      have hfits : Statics.Fits { w.statics (proc i) with idx := t.idx } :=
        { h.statics (proc i) with }
      apply h.put hform i true hfits
      · rw [react, ht]
        rfl
      · intro srv acts hreact
        rw [react, ht] at hreact
        cases hreact
        exact hkept.tick _ _ _ t ht

theorem OnWire.discover (hform : RoundTrips W K S) (hkept : KeptBySends L S)
    (h : OnWire K S net w) (i : ι) (io : Io) :
  Outcomes K S (netMove L home net (.discover i io))
    (wireMove W K L home proc w (.discover i io))
  := by
  rw [netMove, wireMove, fire, reactIn, reactAt, h.servers]
  apply h.put hform i false (h.statics (proc i))
  · rfl
  · intro srv acts hreact
    cases hreact
    exact hkept.discover io _

/-- Every move of the network of bytes that is possible is matched by a move of the network of
messages, and both lead to related networks or to the same fault. -/
theorem OnWire.move (hform : RoundTrips W K S) (hkept : KeptBySends L S) (h : OnWire K S net w)
    (m : WireMove ι) :
  wireMove W K L home proc w m = .error .impossible ∨
    ∃ m', m.Matches K m' ∧ Outcomes K S (netMove L home net m') (wireMove W K L home proc w m)
  := by
  cases m with
  | deliver i src d io =>
      by_cases hpossible : d ∈ w.flight ∧ d.dst = home i ∧ src.peer = d.src
      · obtain ⟨hd, hdst, hsrc⟩ := hpossible
        obtain ⟨d, hmem, rfl⟩ := h.exists_of_mem hd
        exact .inr ⟨_, .deliver i src d io, h.deliver home proc hform hkept hmem hdst hsrc⟩
      · rw [wireMove, if_neg hpossible]
        exact .inl rfl
  | lose d =>
      by_cases hd : d ∈ w.flight
      · obtain ⟨d, hmem, rfl⟩ := h.exists_of_mem hd
        refine .inr ⟨_, .lose d, ?_⟩
        rw [wireMove, if_pos hd, netMove, if_pos hmem]
        exact .ok (h.erase hform hmem)
      · rw [wireMove, if_neg hd]
        exact .inl rfl
  | duplicate d =>
      by_cases hd : d ∈ w.flight
      · obtain ⟨d, hmem, rfl⟩ := h.exists_of_mem hd
        refine .inr ⟨_, .duplicate d, ?_⟩
        rw [wireMove, if_pos hd, netMove, if_pos hmem]
        exact .ok (h.duplicate hmem)
      · rw [wireMove, if_neg hd]
        exact .inl rfl
  | tick i io => exact .inr ⟨_, .tick i _ io, h.tick home proc hform hkept i io⟩
  | discover i io => exact .inr ⟨_, .discover i io, h.discover home proc hform hkept i io⟩

variable {home proc}

theorem OnWire.step {m : WireMove ι} (hform : RoundTrips W K S) (hkept : KeptBySends L S)
    (h : OnWire K S net w) (hs : wireMove W K L home proc w m = .ok w') :
  ∃ m' net', m.Matches K m' ∧ netMove L home net m' = .ok net' ∧ OnWire K S net' w'
  := by
  obtain himp | ⟨m', hm, hout⟩ := h.move home proc hform hkept m
  · rw [himp] at hs
    cases hs
  · rw [hs] at hout
    generalize hr : netMove L home net m' = r at hout
    cases hout with
    | ok related => exact ⟨m', _, hm, hr, related⟩

/-- The dispatchers of the servers do not fault. -/
theorem OnWire.no_dispatch_fault (hform : RoundTrips W K S) (hkept : KeptBySends L S)
    (h : OnWire K S net w) (m : WireMove ι) (f : DispatchFault) :
  wireMove W K L home proc w m ≠ .error (.dispatch f)
  := by
  intro hf
  obtain himp | ⟨m', hm, hout⟩ := h.move home proc hform hkept m
  · rw [himp] at hf
    cases hf
  · rw [hf] at hout
    generalize netMove L home net m' = r at hout
    cases hout

omit [DecidableEq ι] [DecidableEq κ] in
/-- A datagram of a related network fits into the buffer it is received in. -/
theorem OnWire.length_le {d : WireDatagram} (hform : RoundTrips W K S) (h : OnWire K S net w)
    (hd : d ∈ w.flight) :
  d.bytes.length ≤ bufsize
  := by
  obtain ⟨d, hmem, rfl⟩ := h.exists_of_mem hd
  exact hform.datagram_le d.msg (h.msgs d hmem)

/-- Every run of the network of bytes is matched by a run of the network of messages. -/
theorem OnWire.run {ms : List (WireMove ι)} (hform : RoundTrips W K S) (hkept : KeptBySends L S)
    (h : OnWire K S net w) (hrun : wireRun W K L home proc w ms = .ok w') :
  ∃ ms' net', List.Forall₂ (WireMove.Matches K) ms ms' ∧ netRun L home net ms' = .ok net' ∧
    OnWire K S net' w'
  := by
  obtain ⟨ms', net', hms, hrun', h'⟩ := Machine.run_simulation
    (R := fun w net => OnWire K S net w) (M := WireMove.Matches K)
    (fun w net m w₁ hw hs => hw.step hform hkept hs) h hrun
  exact ⟨ms', net', hms, hrun', h'⟩

/-- No dispatcher faults in a run. -/
theorem OnWire.run_no_dispatch_fault (hform : RoundTrips W K S) (hkept : KeptBySends L S)
    (h : OnWire K S net w) (ms : List (WireMove ι)) (f : DispatchFault) :
  wireRun W K L home proc w ms ≠ .error (.dispatch f)
  := by
  intro hf
  obtain ⟨w₁, m, ⟨ms₁, -, hvisit⟩, hfault⟩ := Machine.exists_meets_of_run_eq_error hf
  obtain ⟨ms', net₁, -, -, h₁⟩ := h.run hform hkept hvisit
  exact h₁.no_dispatch_fault hform hkept m f hfault

/-! ### A stable ring on the wire -/

variable {n : ι → Node} {ids : Function.Injective fun i => (n i).id}

/-- A stable ring of members that exchange bytes stays one, as long as no ping drops a successor
or a predecessor. -/
theorem OnWire.stable_run [Finite ι] [Nontrivial ι] {ms : List (WireMove ι)}
    (hform : RoundTrips W K S) (hkept : KeptBySends L S) (h : OnWire K S net w)
    (hmembers : MemberNet L n net) (hstable : ∀ i, StableTable L ids i (net.servers i))
    (keeps : ∀ w₁ i io, Machine.Meets (wireMove W K L (homes n) proc) w ms w₁ (.tick i io) →
      pingKeeps L io (w₁.servers i))
    (hrun : wireRun W K L (homes n) proc w ms = .ok w') :
  ∃ net', OnWire K S net' w' ∧ MemberNet L n net' ∧ ∀ i, StableTable L ids i (net'.servers i)
  := by
  have hvisits : Machine.Visits (wireMove W K L (homes n) proc) w ms w' :=
    ⟨ms, List.prefix_rfl, hrun⟩
  apply hvisits.induction (P := fun w => ∃ net, OnWire K S net w ∧ MemberNet L n net ∧
    ∀ i, StableTable L ids i (net.servers i)) ⟨net, h, hmembers, hstable⟩
  rintro w₁ m w₂ hmeets ⟨net₁, h₁, hmembers₁, hstable₁⟩ hs
  obtain ⟨m', net₂, hm, hmove, h₂⟩ := h₁.step hform hkept hs
  refine ⟨net₂, h₂, hmembers₁.move hmove, hmembers₁.stable_move hstable₁ ?_ hmove⟩
  rintro i idx io rfl
  cases hm
  rw [← h₁.servers]
  exact keeps w₁ i io hmeets

end Networks

end Tangent

import Tangent.Model.Transfer
import Mathlib.Data.List.TakeWhile

/-!
# Framing under partial transfers

`blocking_send_buf` offers the whole buffer again after every call of `UDT::send`, and
`blocking_recv_buf` stores everything it receives at the start of its buffer.  Both are right if
and only if the first call transfers all bytes.  If it does so each time, the two sides of a
transfer agree on the name and the size of the file.
-/

namespace Tangent

variable {u c s : Udt} {fuel size k : ℕ} {sock : UdtSock} {buf old : Bytes}

/-- What UDT promises: a call that asks for some bytes transfers at least one of them, and no
more. -/
structure Udt.Splits (u : Udt) : Prop where
  send : ∀ k n, 0 < n → ∃ a, u.send k n = some a ∧ 0 < a ∧ a ≤ n
  recv : ∀ k n, 0 < n → ∃ a, u.recv k n = some a ∧ 0 < a ∧ a ≤ n

/-- From the `k`-th call of `UDT::send` on, `blocking_send_buf` puts exactly the bytes of any
buffer of the size on the stream. -/
def Udt.SendsExactly (u : Udt) (k size : ℕ) : Prop :=
  ∀ fuel sock buf, size ≤ fuel → sock.sends = k → buf.length = size →
    ∃ sock', blockingSendBuf u fuel sock buf size = .done sock' ∧
      sock'.outgoing = sock.outgoing ++ buf

/-- From the `k`-th call of `UDT::recv` on, `blocking_recv_buf` fills any buffer of the size with
exactly the next bytes of any stream. -/
def Udt.ReceivesExactly (u : Udt) (k size : ℕ) : Prop :=
  ∀ fuel sock old, size ≤ fuel → sock.recvs = k → old.length = size →
    size ≤ sock.incoming.length →
    ∃ sock', blockingRecvBuf u fuel sock old size = .done (sock.incoming.take size, sock') ∧
      sock'.incoming = sock.incoming.drop size

/-- The call of `UDT::send` that starts `blocking_send_buf` transfers everything. -/
def Udt.SendsWhole (u : Udt) (k size : ℕ) : Prop :=
  size = 0 ∨ u.send k size = some size

/-- The call of `UDT::recv` that starts `blocking_recv_buf` transfers everything. -/
def Udt.ReceivesWhole (u : Udt) (k size : ℕ) : Prop :=
  size = 0 ∨ u.recv k size = some size

/-! ### Sending -/

/-- A loop that has sent enough returns, whatever fuel it has. -/
theorem sendLoop_of_le {sent : ℕ} (h : size ≤ sent) :
  sendLoop u buf size fuel sent sock = .done sock
  := by
  cases fuel with
  | zero => rw [sendLoop, if_neg (not_lt.mpr h)]
  | succ fuel => rw [sendLoop, if_neg (not_lt.mpr h)]

/-- If the first call takes everything, the loop makes no other. -/
theorem blockingSendBuf_whole (fuel size : ℕ) (sock : UdtSock) (buf : Bytes)
    (hfuel : size ≤ fuel) (hlen : buf.length = size) (hwhole : u.SendsWhole sock.sends size) :
  ∃ sock', blockingSendBuf u fuel sock buf size = .done sock' ∧
    sock'.outgoing = sock.outgoing ++ buf ∧ sock'.incoming = sock.incoming ∧
    sock'.sends = sock.sends + (if size = 0 then 0 else 1) ∧ sock'.recvs = sock.recvs
  := by
  rw [blockingSendBuf, Int.toNat_natCast]
  rcases Nat.eq_zero_or_pos size with rfl | hpos
  · refine ⟨sock, sendLoop_of_le le_rfl, ?_, rfl, rfl, rfl⟩
    simp [List.length_eq_zero_iff.mp hlen]
  · obtain ⟨fuel, rfl⟩ := Nat.exists_eq_succ_of_ne_zero (show fuel ≠ 0 by omega)
    have hsend := hwhole.resolve_left (by omega)
    rw [sendLoop, if_pos hpos, hsend]
    refine ⟨_, sendLoop_of_le (by omega), ?_, rfl, ?_, rfl⟩
    · simp [← hlen]
    · simp [Nat.ne_of_gt hpos]

/-- The loop sends on from where it is. -/
theorem sendLoop_extends {sent : ℕ} {sock' : UdtSock}
    (h : sendLoop u buf size fuel sent sock = .done sock') :
  sock.outgoing <+: sock'.outgoing
  := by
  induction fuel generalizing sent sock with
  | zero =>
      rw [sendLoop] at h
      split at h
      · cases h
      · cases h
        exact List.prefix_rfl
  | succ fuel ih =>
      rw [sendLoop] at h
      split at h
      · split at h
        · cases h
        · exact (List.prefix_append _ _).trans (ih h)
      · cases h
        exact List.prefix_rfl

/-- A call that is not the first sends the first byte of the buffer again. -/
theorem sendLoop_again (hu : u.Splits) {sent : ℕ} {sock' : UdtSock} {b : UInt8} (hlt : sent < size)
    (h : sendLoop u (b :: buf) size fuel sent sock = .done sock') :
  sock.outgoing ++ [b] <+: sock'.outgoing
  := by
  cases fuel with
  | zero =>
      rw [sendLoop, if_pos hlt] at h
      cases h
  | succ fuel =>
      obtain ⟨a, ha, hpos, -⟩ := hu.send sock.sends size (by omega)
      rw [sendLoop, if_pos hlt, ha] at h
      obtain ⟨a, rfl⟩ := Nat.exists_eq_succ_of_ne_zero (show a ≠ 0 by omega)
      apply List.IsPrefix.trans _ (sendLoop_extends h)
      simp

/-- A first call that takes a part only spoils a buffer in which the first byte differs from the
others. -/
theorem not_sendsExactly (hu : u.Splits) (hpart : ¬ u.SendsWhole k size) :
  ¬ u.SendsExactly k size
  := by
  rw [Udt.SendsWhole, not_or] at hpart
  obtain ⟨hne, hsend⟩ := hpart
  obtain ⟨a, ha, hpos, hle⟩ := hu.send k size (by omega)
  have hlt : a < size := by
    refine lt_of_le_of_ne hle ?_
    rintro rfl
    apply hsend ha
  intro hexact
  obtain ⟨sock', hdone, hout⟩ := hexact size ⟨[], [], k, 0⟩ (0 :: List.replicate (size - 1) 1)
    le_rfl rfl (by simp; omega)
  obtain ⟨n, rfl⟩ := Nat.exists_eq_succ_of_ne_zero hne
  rw [blockingSendBuf, Int.toNat_natCast, sendLoop, if_pos (by omega), ha] at hdone
  have hagain := sendLoop_again hu (by omega) hdone
  rw [hout] at hagain
  -- behind the part that was taken there would have to be the first byte again
  obtain ⟨a, rfl⟩ := Nat.exists_eq_succ_of_ne_zero (show a ≠ 0 by omega)
  simp only [List.nil_append, List.take_succ_cons, List.cons_append, List.cons_prefix_cons,
    true_and] at hagain
  have hmem := hagain.subset (List.mem_append_right _ (List.mem_singleton_self 0))
  simp at hmem

/-- `blocking_send_buf` is right if and only if the first call takes everything. -/
theorem sendsExactly_iff (hu : u.Splits) :
  u.SendsExactly k size ↔ u.SendsWhole k size
  := by
  constructor
  · intro hexact
    by_contra hpart
    apply not_sendsExactly hu hpart hexact
  · rintro hwhole fuel sock buf hfuel rfl hlen
    obtain ⟨sock', hdone, hout, -⟩ := blockingSendBuf_whole fuel size sock buf hfuel hlen hwhole
    exact ⟨sock', hdone, hout⟩

/-! ### Receiving -/

theorem recvLoop_of_le {received : ℕ} (h : size ≤ received) :
  recvLoop u size fuel received buf sock = .done (buf, sock)
  := by
  cases fuel with
  | zero => rw [recvLoop, if_neg (not_lt.mpr h)]
  | succ fuel => rw [recvLoop, if_neg (not_lt.mpr h)]

/-- If the first call returns everything, the loop makes no other. -/
theorem blockingRecvBuf_whole (fuel size : ℕ) (sock : UdtSock) (old : Bytes)
    (hfuel : size ≤ fuel) (hlen : old.length = size) (hincoming : size ≤ sock.incoming.length)
    (hwhole : u.ReceivesWhole sock.recvs size) :
  ∃ sock', blockingRecvBuf u fuel sock old size = .done (sock.incoming.take size, sock') ∧
    sock'.incoming = sock.incoming.drop size ∧ sock'.outgoing = sock.outgoing ∧
    sock'.recvs = sock.recvs + (if size = 0 then 0 else 1) ∧ sock'.sends = sock.sends
  := by
  rw [blockingRecvBuf, Int.toNat_natCast]
  rcases Nat.eq_zero_or_pos size with rfl | hpos
  · refine ⟨sock, ?_, rfl, rfl, rfl, rfl⟩
    rw [recvLoop_of_le le_rfl, List.length_eq_zero_iff.mp hlen, List.take_zero]
  · obtain ⟨fuel, rfl⟩ := Nat.exists_eq_succ_of_ne_zero (show fuel ≠ 0 by omega)
    have hrecv := hwhole.resolve_left (by omega)
    have hsome : sock.incoming ≠ [] := List.ne_nil_of_length_pos (by omega)
    rw [recvLoop, if_pos hpos, if_neg hsome, Nat.sub_zero, hrecv]
    simp only [Nat.min_eq_left hincoming]
    rw [recvLoop_of_le (by omega), List.drop_of_length_le (le_of_eq hlen), List.append_nil]
    refine ⟨_, rfl, rfl, rfl, ?_, rfl⟩
    simp [Nat.ne_of_gt hpos]

/-- The loop leaves the first byte of what comes last at the start of the buffer. -/
theorem recvLoop_head (hu : u.Splits) {received m : ℕ} {b : UInt8} {buf' : Bytes}
    {sock' : UdtSock} (hlt : received < size) (hm : size - received ≤ m)
    (hincoming : sock.incoming = List.replicate m b)
    (h : recvLoop u size fuel received buf sock = .done (buf', sock')) :
  buf'.head? = some b
  := by
  induction fuel generalizing received m buf sock with
  | zero =>
      rw [recvLoop, if_pos hlt] at h
      cases h
  | succ fuel ih =>
      obtain ⟨a, ha, hpos, hle⟩ := hu.recv sock.recvs (size - received) (by omega)
      have hmin : min a sock.incoming.length = a := by
        rw [hincoming, List.length_replicate]
        omega
      have hsome : sock.incoming ≠ [] := by
        rw [hincoming, ne_eq, List.replicate_eq_nil_iff]
        omega
      rw [recvLoop, if_pos hlt, if_neg hsome, ha] at h
      simp only [hmin] at h
      by_cases hmore : received + a < size
      · apply ih hmore (m := m - a) (by omega) _ h
        simp [hincoming]
      · rw [recvLoop_of_le (not_lt.mp hmore)] at h
        cases h
        obtain ⟨n, rfl⟩ := Nat.exists_eq_succ_of_ne_zero (show m ≠ 0 by omega)
        obtain ⟨a, rfl⟩ := Nat.exists_eq_succ_of_ne_zero (show a ≠ 0 by omega)
        simp [hincoming, List.replicate_succ]

/-- A first call that returns a part only spoils the buffer for a stream in which the first byte
differs from the others. -/
theorem not_receivesExactly (hu : u.Splits) (hpart : ¬ u.ReceivesWhole k size) :
  ¬ u.ReceivesExactly k size
  := by
  rw [Udt.ReceivesWhole, not_or] at hpart
  obtain ⟨hne, hrecv⟩ := hpart
  obtain ⟨a, ha, hpos, hle⟩ := hu.recv k size (by omega)
  have hlt : a < size := by
    refine lt_of_le_of_ne hle ?_
    rintro rfl
    apply hrecv ha
  intro hexact
  obtain ⟨n, rfl⟩ := Nat.exists_eq_succ_of_ne_zero hne
  obtain ⟨sock', hdone, -⟩ := hexact (n + 1) ⟨[], 0 :: List.replicate n 1, 0, k⟩
    (List.replicate (n + 1) 0) le_rfl rfl (by simp) (by simp)
  rw [blockingRecvBuf, Int.toNat_natCast, recvLoop, if_pos (by omega), if_neg (by simp),
    Nat.sub_zero, ha] at hdone
  have hmin : min a (0 :: List.replicate n (1 : UInt8)).length = a := by
    simp
    omega
  simp only [hmin] at hdone
  have hhead := recvLoop_head hu (m := n + 1 - a) (b := 1) (by omega) (by omega) ?_ hdone
  · simp at hhead
  · obtain ⟨a, rfl⟩ := Nat.exists_eq_succ_of_ne_zero (show a ≠ 0 by omega)
    simp

/-- `blocking_recv_buf` is right if and only if the first call returns everything. -/
theorem receivesExactly_iff (hu : u.Splits) :
  u.ReceivesExactly k size ↔ u.ReceivesWhole k size
  := by
  constructor
  · intro hexact
    by_contra hpart
    apply not_receivesExactly hu hpart hexact
  · rintro hwhole fuel sock old hfuel rfl hlen hincoming
    obtain ⟨sock', hdone, hrest, -⟩ :=
      blockingRecvBuf_whole fuel size sock old hfuel hlen hincoming hwhole
    exact ⟨sock', hdone, hrest⟩

/-! ### The two sides -/

section Exchange

variable {old : ℕ → UInt8} {r p : Transfer}

/-- The name goes from the side that wants the file to the other one. -/
def exchangeName (c s : Udt) (fuel : ℕ) (old : ℕ → UInt8) (r p : Transfer) :
    IoResult (Transfer × Transfer) :=
  (sendFileName c fuel r).bind fun r =>
    (receiveFileName s fuel old
      { p with udtSock := { p.udtSock with incoming := r.udtSock.outgoing } }).bind fun p =>
      .done (r, p)

/-- The name goes over, and the size comes back, in front of the contents of the file: the name
that is read, the size that is sent and the size that is read. -/
def exchange (c s : Udt) (fuel : ℕ) (old : ℕ → UInt8) (size : Bytes → Option Int32)
    (contents : Bytes) (r p : Transfer) : IoResult (Bytes × Int32 × Int32) :=
  (sendFileName c fuel r).bind fun r =>
    (transferSend s fuel old size true
      { p with udtSock := { p.udtSock with incoming := r.udtSock.outgoing } }).bind
      fun (sent, p) =>
        (receiveFileSize c fuel old { r with
          udtSock := { r.udtSock with incoming := p.udtSock.outgoing ++ contents } }).bind
          fun (read, _) => .done (p.file, sent, read)

/-- The transfer has not used its socket. -/
def Transfer.Fresh (trans : Transfer) : Prop :=
  trans.udtSock = ⟨[], [], 0, 0⟩

/-- The first UDT call for each of the fields of a transfer transfers everything. -/
structure WholeCalls (c s : Udt) (len : ℕ) : Prop where
  sendLength : c.SendsWhole 0 2
  sendName : c.SendsWhole 1 len
  recvLength : s.ReceivesWhole 0 2
  recvName : s.ReceivesWhole 1 len
  sendSize : s.SendsWhole 0 4
  recvSize : c.ReceivesWhole 0 4

@[simp]
theorem length_netBytes (w n : ℕ) :
  (netBytes w n).length = w
  := by
  simp [netBytes]

theorem beNat_netBytes {w n : ℕ} (h : n < 256 ^ w) :
  Bytes.beNat (netBytes w n) = n
  := by
  rw [netBytes, beNat_reverse_leBytes, Nat.mod_eq_of_lt h]

/-- What `transfer_receive` sends first. -/
theorem sendFileName_eq (hr : r.Fresh) (hlen : r.file.length < 2 ^ 15)
    (hfuel : r.file.length + 4 ≤ fuel) (hwhole : WholeCalls c s r.file.length) :
  ∃ r', sendFileName c fuel r = .done r' ∧
    r'.udtSock.outgoing = netBytes 2 r.file.length ++ r.file ∧ r'.udtSock.recvs = 0
  := by
  have hlen' : (UInt16.ofNat r.file.length).toNat = r.file.length := by
    rw [UInt16.toNat_ofNat', Nat.mod_eq_of_lt (by omega)]
  obtain ⟨s₁, hdone₁, hout₁, -, hsends₁, hrecvs₁⟩ := blockingSendBuf_whole fuel 2 r.udtSock
    (netBytes 2 r.file.length) (by omega) (by simp) (by rw [hr]; exact hwhole.sendLength)
  have hsecond : s₁.sends = 1 := by
    rw [hsends₁, hr]
    rfl
  obtain ⟨s₂, hdone₂, hout₂, -, -, hrecvs₂⟩ := blockingSendBuf_whole fuel r.file.length s₁ r.file
    (by omega) rfl (by rw [hsecond]; exact hwhole.sendName)
  rw [Nat.cast_ofNat] at hdone₁
  refine ⟨{ r with udtSock := s₂ }, ?_, ?_, ?_⟩
  · simp only [sendFileName, Int16.toUInt16_ofNat', hlen', hdone₁, IoResult.bind,
      Int16.toInt_ofNat_of_lt hlen, hdone₂]
  · rw [hout₂, hout₁, hr, List.nil_append]
  · rw [hrecvs₂, hrecvs₁, hr]

/-- What `transfer_send` makes of it. -/
theorem receiveFileName_eq (old : ℕ → UInt8) (p : Transfer)
    (hp : p.udtSock = ⟨[], netBytes 2 buf.length ++ buf, 0, 0⟩)
    (hnul : 0 ∉ buf) (hlen : buf.length < 2 ^ 15) (hfuel : buf.length + 4 ≤ fuel)
    (hwhole : WholeCalls c s buf.length) :
  ∃ p', receiveFileName s fuel old p = .done p' ∧ p'.file = buf ∧ p'.dir = p.dir ∧
    p'.udtSock.outgoing = [] ∧ p'.udtSock.sends = 0
  := by
  obtain ⟨s₁, hdone₁, hin₁, hout₁, hrecvs₁, hsends₁⟩ := blockingRecvBuf_whole fuel 2 p.udtSock
    ((List.range 2).map old) (by omega) (by simp) (by simp [hp])
    (by rw [hp]; exact hwhole.recvLength)
  rw [hp, List.take_left' (length_netBytes _ _), ← hp, Nat.cast_ofNat] at hdone₁
  rw [hp, List.drop_left' (length_netBytes _ _)] at hin₁
  have hsecond : s₁.recvs = 1 := by
    rw [hrecvs₁, hp]
    rfl
  obtain ⟨s₂, hdone₂, -, hout₂, -, hsends₂⟩ := blockingRecvBuf_whole fuel buf.length s₁
    ((List.range buf.length).map old) (by omega) (by simp) (by rw [hin₁])
    (by rw [hsecond]; exact hwhole.recvName)
  rw [hin₁, List.take_length] at hdone₂
  have hname : buf.takeWhile (· ≠ 0) = buf := by
    rw [List.takeWhile_eq_self_iff]
    intro b hb
    rw [decide_eq_true_iff]
    rintro rfl
    apply hnul hb
  have hread : Bytes.beNat (netBytes 2 buf.length) = buf.length := beNat_netBytes (by omega)
  have hpos : ¬ (buf.length : ℤ) + 1 ≤ 0 := by
    omega
  refine ⟨{ p with file := buf, udtSock := s₂ }, ?_, rfl, rfl, ?_, ?_⟩
  · simp only [receiveFileName, hdone₁, IoResult.bind, hread, Int16.toInt_ofNat_of_lt hlen,
      if_neg hpos, Int.toNat_natCast, hdone₂, hname]
  · rw [hout₂, hout₁, hp]
  · rw [hsends₂, hsends₁, hp]

/-- With whole calls, the name that is read is the name that was sent. -/
theorem name_exchanged (old : ℕ → UInt8) (hr : r.Fresh) (hp : p.Fresh) (hnul : 0 ∉ r.file)
    (hlen : r.file.length < 2 ^ 15) (hfuel : r.file.length + 4 ≤ fuel)
    (hwhole : WholeCalls c s r.file.length) :
  ∃ r' p', sendFileName c fuel r = .done r' ∧
    receiveFileName s fuel old
      { p with udtSock := { p.udtSock with incoming := r'.udtSock.outgoing } } = .done p' ∧
    p'.file = r.file ∧ p'.dir = p.dir ∧ r'.udtSock.recvs = 0 ∧ p'.udtSock.outgoing = [] ∧
    p'.udtSock.sends = 0
  := by
  obtain ⟨r', hsend, hout, hrecvs⟩ := sendFileName_eq hr hlen hfuel hwhole
  obtain ⟨p', hrecv, hfile, hdir, hout', hsends⟩ := receiveFileName_eq old
    { p with udtSock := { p.udtSock with incoming := r'.udtSock.outgoing } }
    (by rw [hp, hout]) hnul hlen hfuel hwhole
  exact ⟨r', p', hsend, hrecv, hfile, hdir, hrecvs, hout', hsends⟩

theorem int32_ofNat_toNat (sz : Int32) :
  Int32.ofNat sz.toUInt32.toNat = sz
  := Int32.ofNat_bitVecToNat sz.toBitVec

/-- With whole calls, a size that is sent is read. -/
theorem size_exchanged (fuel : ℕ) (old : ℕ → UInt8) (contents : Bytes)
    {size : Bytes → Option Int32} {sz : Int32} (hsends : p.udtSock.sends = 0)
    (hout : p.udtSock.outgoing = []) (hrecvs : r.udtSock.recvs = 0) (hfuel : 4 ≤ fuel)
    (hsend : s.SendsWhole 0 4) (hrecv : c.ReceivesWhole 0 4)
    (hsize : size p.path = some sz) (hpath : p.path.length < pathSize) :
  ∃ p', sendFileSize s fuel size p = .done (sz, p') ∧ p'.file = p.file ∧
    ∃ r', receiveFileSize c fuel old { r with
        udtSock := { r.udtSock with incoming := p'.udtSock.outgoing ++ contents } }
      = .done (sz, r')
  := by
  obtain ⟨s₁, hdone₁, hout₁, -⟩ := blockingSendBuf_whole fuel 4 p.udtSock
    (netBytes 4 sz.toUInt32.toNat) hfuel (by simp) (by rw [hsends]; exact hsend)
  rw [hout, List.nil_append] at hout₁
  rw [Nat.cast_ofNat] at hdone₁
  refine ⟨{ p with udtSock := s₁ }, ?_, rfl, ?_⟩
  · simp only [sendFileSize, if_neg (not_le.mpr hpath), hsize, hdone₁, IoResult.bind]
  · obtain ⟨s₂, hdone₂, -⟩ := blockingRecvBuf_whole (u := c) fuel 4
      { r.udtSock with incoming := s₁.outgoing ++ contents } ((List.range 4).map old) hfuel
      (by simp) (by simp [hout₁]) (by simp only [hrecvs]; exact hrecv)
    rw [Nat.cast_ofNat] at hdone₂
    simp only [hout₁, List.take_left' (length_netBytes _ _)] at hdone₂
    have hlt : sz.toUInt32.toNat < 256 ^ 4 := sz.toUInt32.toNat_lt
    refine ⟨{ r with udtSock := s₂ }, ?_⟩
    simp only [receiveFileSize, hout₁, hdone₂, IoResult.bind, beNat_netBytes hlt,
      int32_ofNat_toNat]

/-- `blocking_send_buf` and `blocking_recv_buf` are right for all buffers of a size and all streams
if and only if their first UDT call transfers everything.  If it does so for every field, a name
of less than `2 ^ 15` bytes is read as it was sent, and the size of the file is read as it was
sent if and only if the path of the file fits in the array of `transfer_send`. -/
theorem framing_iff (hc : c.Splits) (hs : s.Splits) :
  (∀ k size, (c.SendsExactly k size ↔ c.SendsWhole k size) ∧
      (c.ReceivesExactly k size ↔ c.ReceivesWhole k size)) ∧
    (∀ k size, (s.SendsExactly k size ↔ s.SendsWhole k size) ∧
      (s.ReceivesExactly k size ↔ s.ReceivesWhole k size)) ∧
    ∀ fuel old r p, r.Fresh → p.Fresh → 0 ∉ r.file → r.file.length < 2 ^ 15 →
      r.file.length + 4 ≤ fuel → WholeCalls c s r.file.length →
      (∃ r' p', exchangeName c s fuel old r p = .done (r', p') ∧ p'.file = r.file) ∧
      ∀ size contents sz, size (p.dir ++ [47] ++ r.file) = some sz →
        (exchange c s fuel old size contents r p = .done (r.file, sz, sz) ↔
          p.dir.length + 1 + r.file.length < pathSize)
  := by
  refine ⟨fun k size => ⟨sendsExactly_iff hc, receivesExactly_iff hc⟩,
    fun k size => ⟨sendsExactly_iff hs, receivesExactly_iff hs⟩, ?_⟩
  intro fuel old r p hr hp hnul hlen hfuel hwhole
  obtain ⟨r', p', hsend, hrecv, hfile, hdir, hrecvs, hout, hsends⟩ :=
    name_exchanged old hr hp hnul hlen hfuel hwhole
  refine ⟨⟨r', p', ?_, hfile⟩, ?_⟩
  · simp only [exchangeName, hsend, IoResult.bind, hrecv]
  intro size contents sz hsize
  have hpath : p'.path = p.dir ++ [47] ++ r.file := by
    rw [Transfer.path, hfile, hdir]
  have hpathLen : p'.path.length = p.dir.length + 1 + r.file.length := by
    rw [hpath, List.length_append, List.length_append, List.length_singleton]
  rw [← hpath] at hsize
  rw [← hpathLen]
  constructor
  · intro hexchange
    by_contra hlong
    simp only [exchange, hsend, IoResult.bind, transferSend, hrecv, sendFileSize,
      if_pos (not_lt.mp hlong)] at hexchange
    cases hexchange
  · intro hshort
    obtain ⟨p₁, hsent, hfile₁, r₁, hread⟩ := size_exchanged fuel old contents hsends hout hrecvs
      (by omega) hwhole.sendSize hwhole.recvSize hsize hshort
    simp only [exchange, hsend, IoResult.bind, transferSend, hrecv, hsent, if_true, hread, hfile₁,
      hfile]

/-- A socket that transfers everything at once. -/
def wholeUdt : Udt :=
  ⟨fun _ n => some n, fun _ n => some n⟩

theorem wholeUdt_splits :
  wholeUdt.Splits
  := ⟨fun _ n hn => ⟨n, rfl, hn, le_rfl⟩, fun _ n hn => ⟨n, rfl, hn, le_rfl⟩⟩

/-- A socket whose first calls transfer a single byte. -/
def slowUdt : Udt :=
  ⟨fun k n => some (if k = 0 then 1 else n), fun k n => some (if k = 0 then 1 else n)⟩

theorem slowUdt_splits :
  slowUdt.Splits
  := by
  constructor
  · intro k n hn
    refine ⟨_, rfl, ?_⟩
    split <;> omega
  · intro k n hn
    refine ⟨_, rfl, ?_⟩
    split <;> omega

/-- A transfer of the file with the given name in the directory `.`. -/
def sampleTransfer (file : Bytes) : Transfer :=
  ⟨[46], file, ⟨[], [], 0, 0⟩⟩

/-- The name `ab` and the size `5` of the file go over. -/
theorem framing_iff_sample :
  exchange wholeUdt wholeUdt 6 (fun _ => 7) (fun _ => some 5) [1, 2] (sampleTransfer [97, 98])
    (sampleTransfer []) = .done ([97, 98], 5, 5)
  := by
  obtain ⟨-, -, hframing⟩ := framing_iff wholeUdt_splits wholeUdt_splits
  have hwhole : WholeCalls wholeUdt wholeUdt 2 :=
    ⟨.inr rfl, .inr rfl, .inr rfl, .inr rfl, .inr rfl, .inr rfl⟩
  obtain ⟨-, hsize⟩ := hframing 6 (fun _ => 7) (sampleTransfer [97, 98]) (sampleTransfer []) rfl
    rfl (by decide) (by decide) (by decide) hwhole
  exact (hsize (fun _ => some 5) [1, 2] 5 rfl).mpr (by decide)

/-- With a socket whose first calls transfer a single byte, two bytes are sent as three, the
buffer for two bytes is not filled, and the name `a` is read as the empty name. -/
theorem framing_fails :
  slowUdt.Splits ∧
    (¬ ∃ sock', blockingSendBuf slowUdt 2 ⟨[], [], 0, 0⟩ [0, 1] 2 = .done sock' ∧
      sock'.outgoing = [0, 1]) ∧
    (¬ ∃ sock', blockingRecvBuf slowUdt 2 ⟨[], [0, 1], 0, 0⟩ [7, 7] 2 = .done ([0, 1], sock')) ∧
    ∃ r' p', exchangeName slowUdt wholeUdt 6 (fun _ => 7) (sampleTransfer [97])
      (sampleTransfer []) = .done (r', p') ∧ p'.file = []
  := by
  have hsend : blockingSendBuf slowUdt 2 ⟨[], [], 0, 0⟩ [0, 1] 2
      = .done ⟨[0, 0, 1], [], 2, 0⟩ := by decide
  have hrecv : blockingRecvBuf slowUdt 2 ⟨[], [0, 1], 0, 0⟩ [7, 7] 2
      = .done ([1, 7], ⟨[], [], 0, 2⟩) := by decide
  refine ⟨slowUdt_splits, ?_, ?_, ?_⟩
  · rintro ⟨sock', hdone, hout⟩
    rw [hsend] at hdone
    cases hdone
    exact absurd hout (by decide)
  · rintro ⟨sock', hdone⟩
    rw [hrecv] at hdone
    cases hdone
  · refine ⟨⟨[46], [97], ⟨[0, 0, 1, 97], [], 3, 0⟩⟩, ⟨[46], [], ⟨[], [1, 97], 0, 1⟩⟩, ?_, rfl⟩
    decide

end Exchange

end Tangent

import Tangent.Model.Run
import Tangent.Model.Statics

/-!
# Servers that share a process

What a server sends does not depend on what the buffers held before, since they are written
before they are read.  The counter of `stabilize` is another matter: it counts the ticks of all
servers of the process, while each server looks at it to tell whether to ping its predecessor
and to clean its finger list.  So a server is not disturbed by another as long as its ticks find
the counter where they would find it without the other, as far as the two periods go.
-/

namespace Tangent

variable {L : Library} {K : Packing} {io : Io} {srv srv' : ChordServer} {st st' : Statics}
  {idx idx' : ℕ} {e : Trigger}

/-! ### The buffers -/

/-- The bytes of a packet. -/
def Packet.sent (K : Packing) (pkt : Packet) : Sent :=
  ⟨⟨pkt.toAddr, pkt.toPort⟩, K.headerPack chordWireVersion pkt.msg.type.code.toUInt32
    (K.messagePack pkt.msg)⟩

/-- A ticket comes out of the buffer as it went in. -/
theorem loadMsg_snd (st : Statics) (starts : Bool) (msg : Msg) :
  (st.loadMsg starts msg).2 = msg
  := by
  cases msg with
  | addrDiscover m => simp [Statics.loadMsg, Statics.loadTicket]
  | fs m => cases starts <;> simp [Statics.loadMsg, Statics.loadTicket]
  | ping m => simp [Statics.loadMsg, Statics.loadTicket]
  | _ => rfl

/-- What is sent does not depend on what the buffers held before. -/
theorem transmit_snd (starts : Bool) (st : Statics) (pkt : Packet) :
  (transmit K starts st pkt).2 = pkt.sent K
  := by
  simp [transmit, packHeader, Packet.sent, loadMsg_snd]

/-- The bytes of the packets among the actions. -/
def sentOf (K : Packing) : List Action → List Sent
  | [] => []
  | .send pkt :: acts => pkt.sent K :: sentOf K acts
  | .upcall _ _ :: acts => sentOf K acts

theorem transmitAll_snd (starts : Bool) (st : Statics) (acts : List Action) :
  (transmitAll K starts st acts).2 = sentOf K acts
  := by
  induction acts generalizing st with
  | nil => rfl
  | cons a acts ih =>
      cases a with
      | send pkt => simp [transmitAll, sentOf, transmit_snd, ih]
      | upcall id data => simp [transmitAll, sentOf, ih]

/-! ### The counter -/

/-- The counters are both multiples of the period of the pings to the predecessor, or both not,
and the same for the period of the cleaning. -/
def SamePhase (idx idx' : ℕ) : Prop :=
  (idx % periodPingPred = 0 ↔ idx' % periodPingPred = 0) ∧
    (idx % chordCleanPeriod = 0 ↔ idx' % chordCleanPeriod = 0)

instance (idx idx' : ℕ) : Decidable (SamePhase idx idx') :=
  inferInstanceAs (Decidable (_ ∧ _))

/-- The trigger is a tick that gets as far as to look at the counter: the server has a finger,
and a successor after the pings. -/
def looksAtIdx (L : Library) (srv : ChordServer) : Trigger → Prop
  | .tick io => srv.flist ≠ [] ∧ succFinger (ping L io srv).1 ≠ none
  | _ => False

/-- If the server looks at the counter, it finds it in the same phase. -/
def findsSamePhase (L : Library) (srv : ChordServer) (e : Trigger) (st st' : Statics) : Prop :=
  looksAtIdx L srv e → SamePhase st.idx st'.idx

theorem pingPred_congr {acts : List Action}
    (h : idx % periodPingPred = 0 ↔ idx' % periodPingPred = 0) :
  pingPred L io srv idx' acts = pingPred L io srv idx acts
  := by
  simp only [pingPred, h]

/-- The server and the actions a tick leaves behind are the same with counters in the same
phase. -/
theorem stabilize_congr (hphase : findsSamePhase L srv (.tick io) st st') :
  (stabilize L io srv st'.idx).map (fun t => (t.srv, t.acts))
    = (stabilize L io srv st.idx).map fun t => (t.srv, t.acts)
  := by
  rw [stabilize, stabilize]
  split
  · rfl
  · rename_i hne
    simp only
    split
    · rfl
    · rename_i s hs
      obtain ⟨hping, hclean⟩ := hphase ⟨hne, by simp [hs]⟩
      rw [pingPred_congr hping]
      cases pingPred L io (ping L io srv).1 st.idx _ with
      | error f => rfl
      | ok acts =>
          simp only [bind, Except.bind]
          cases fixFingers L io (fixSuccsPreds L io (ping L io srv).1 acts).1
              (fixSuccsPreds L io (ping L io srv).1 acts).2 with
          | error f => rfl
          | ok fixed =>
              simp only [hclean]
              split
              · cases cleanFingerList fixed.1 with
                | error f => rfl
                | ok srv' => rfl
              · rfl

/-- A server does the same with counters in the same phase. -/
theorem reactAt_congr {acts : List Action} {n : ℕ} (hphase : findsSamePhase L srv e st st')
    (hr : reactAt L srv st.idx e = .ok (srv', n, acts)) :
  ∃ n', reactAt L srv st'.idx e = .ok (srv', n', acts)
  := by
  cases e with
  | packet frm msg io =>
      obtain ⟨out, ho, heq⟩ := Except.map_eq_ok.mp hr
      cases heq
      exact ⟨st'.idx, Except.map_eq_ok.mpr ⟨out, ho, rfl⟩⟩
  | tick io =>
      obtain ⟨t, ht, heq⟩ := Except.map_eq_ok.mp hr
      cases heq
      have hsame := stabilize_congr hphase
      rw [ht] at hsame
      obtain ⟨t', ht', heq⟩ := Except.map_eq_ok.mp hsame
      simp only [Prod.mk.injEq] at heq
      refine ⟨t'.idx, Except.map_eq_ok.mpr ⟨t', ht', ?_⟩⟩
      rw [heq.1, heq.2]
  | discover io =>
      cases hr
      exact ⟨st'.idx, rfl⟩

/-- What a server of a process sends are the packets among its actions. -/
theorem reactIn_eq_ok {sent : List Sent} :
  (∃ g, reactIn L K srv st e = .ok (srv', g, sent)) ↔
    ∃ n acts, reactAt L srv st.idx e = .ok (srv', n, acts) ∧ sentOf K acts = sent
  := by
  constructor
  · rintro ⟨g, hr⟩
    obtain ⟨⟨s, n, acts⟩, ha, heq⟩ := Except.map_eq_ok.mp hr
    simp only [Prod.mk.injEq] at heq
    obtain ⟨rfl, heq⟩ := heq
    refine ⟨n, acts, ha, ?_⟩
    rw [← transmitAll_snd e.starts { st with idx := n }, heq]
  · rintro ⟨n, acts, ha, rfl⟩
    use (transmitAll K e.starts { st with idx := n } acts).1
    refine Except.map_eq_ok.mpr ⟨_, ha, ?_⟩
    rw [← transmitAll_snd e.starts { st with idx := n }]

/-- A server does the same, and sends the same, with static variables in the same phase. -/
theorem reactIn_congr {sent : List Sent} {g : Statics} (hphase : findsSamePhase L srv e st st')
    (hr : reactIn L K srv st e = .ok (srv', g, sent)) :
  ∃ g', reactIn L K srv st' e = .ok (srv', g', sent)
  := by
  obtain ⟨n, acts, ha, hsent⟩ := reactIn_eq_ok.mp ⟨g, hr⟩
  obtain ⟨n', ha'⟩ := reactAt_congr hphase ha
  exact reactIn_eq_ok.mpr ⟨n', acts, ha', hsent⟩

/-! ### Runs of a process -/

section Run

variable {ι : Type} [DecidableEq ι] {cfg : ι → Config} {evs : List (ι × Trigger)}
  {x : Process ι}

/-- In every run of a process in which the servers other than `T`, whenever they look at the
counter of `stabilize`, find it in the phase in which they would find it without `T`, each of
them goes through the same states and sends the same packets as in the run without the steps
of `T`. -/
theorem servers_do_not_interfere (T : ι) (hrun : runProcess L K cfg evs = .ok x)
    (hphase : ∀ evs₁ S e x₁ y₁, evs₁ ++ [(S, e)] <+: evs → S ≠ T →
      runProcess L K cfg evs₁ = .ok x₁ →
      runProcess L K cfg (Shared.without T evs₁) = .ok y₁ →
      findsSamePhase L (x₁.comp S) e x₁.shared y₁.shared) :
  ∃ y, runProcess L K cfg (Shared.without T evs) = .ok y ∧
    ∀ S ≠ T, y.comp S = x.comp S ∧ y.seen S = x.seen S
  := by
  apply Shared.run_without (findsSamePhase L) _ hrun hphase
  intro srv st st' e srv' g sent hphase hr
  exact reactIn_congr hphase hr

end Run

/-! ### A sample -/

/-- A field with a number below 128. -/
def varintField (field v : ℕ) : Bytes :=
  [UInt8.ofNat (8 * field), UInt8.ofNat v]

/-- A field with a number of eight bytes. -/
def fixedField (field v : ℕ) : Bytes :=
  UInt8.ofNat (8 * field + 1) :: leBytes 8 v

/-- A field with fewer than 128 bytes. -/
def bytesField (field : ℕ) (b : Bytes) : Bytes :=
  UInt8.ofNat (8 * field + 2) :: UInt8.ofNat b.length :: b

/-- The packing of messages whose numbers and lengths are below 128. -/
def samplePacking : Packing where
  messagePack
    | .addrDiscover m => bytesField 1 m.ticket
    | .addrDiscoverReply m => bytesField 1 m.ticket ++ bytesField 2 m.addr
    | .data m =>
        bytesField 1 m.id ++ varintField 2 m.ttl.toNat ++ varintField 3 m.last.toNat
          ++ bytesField 4 m.data
    | .fs m =>
        bytesField 1 m.ticket ++ varintField 2 m.ttl.toNat ++ bytesField 3 m.addr
          ++ varintField 4 m.port.toNat
    | .fsReply m => bytesField 1 m.ticket ++ bytesField 2 m.addr ++ varintField 3 m.port.toNat
    | .stab m => bytesField 1 m.addr ++ varintField 2 m.port.toNat
    | .stabReply m => bytesField 1 m.addr ++ varintField 2 m.port.toNat
    | .notify => []
    | .ping m => bytesField 1 m.ticket ++ fixedField 2 m.time.toNat
    | .pong m => bytesField 1 m.ticket ++ fixedField 2 m.time.toNat
  headerPack version type payload :=
    varintField 1 version.toNat ++ varintField 2 type.toNat ++ bytesField 3 payload

/-- Two servers of one process. -/
def sampleServers (i : Bool) : Config :=
  sampleConfig (samplePeer (if i then 2 else 1) 0)

/-- A server of the process learns its address and gets a pong. -/
def sampleJoin (i : Bool) : List (Bool × Trigger) :=
  [(i, .packet (samplePeer 9 0)
      (.addrDiscoverReply ⟨sampleTicket, (samplePeer (if i then 2 else 1) 0).addr.s6Addr⟩)
      sampleIo),
    (i, .packet (samplePeer 9 0) (.pong ⟨sampleTicket, 0⟩) sampleIo)]

/-- Both servers have a finger, and the timer of each fires once, first that of `i`. -/
def sampleTicks (i : Bool) : List (Bool × Trigger) :=
  sampleJoin true ++ sampleJoin false ++ [(i, .tick sampleIo), (!i, .tick sampleIo)]

/-- The numbers of packets the server `false` has sent at its steps. -/
def sampleCounts (x : Process Bool) : List ℕ :=
  (x.seen false).map fun o => o.2.length

/-- The server whose timer fires second does not ping its predecessor, since the timer of the
other server has moved the counter. -/
theorem shared_counter_interferes :
  ¬ ∀ x, runProcess sampleLibrary samplePacking sampleServers (sampleTicks true) = .ok x →
    ∃ y, runProcess sampleLibrary samplePacking sampleServers
        (Shared.without true (sampleTicks true)) = .ok y ∧
      ∀ S ≠ true, y.comp S = x.comp S ∧ y.seen S = x.seen S
  := by
  intro hall
  have hx : (runProcess sampleLibrary samplePacking sampleServers (sampleTicks true)).map
      sampleCounts = .ok [0, 0, 3] := by
    rfl
  have hy : (runProcess sampleLibrary samplePacking sampleServers
      (Shared.without true (sampleTicks true))).map sampleCounts = .ok [0, 0, 4] := by
    rfl
  obtain ⟨x, hrun, hcounts⟩ := Except.map_eq_ok.mp hx
  obtain ⟨y, hrun', hsame⟩ := hall x hrun
  rw [hrun'] at hy
  have hseen := (hsame false (by decide)).2
  have hcounts' : sampleCounts y = [0, 0, 4] := Except.ok.inj hy
  rw [sampleCounts, hseen, ← sampleCounts, hcounts] at hcounts'
  exact absurd hcounts' (by decide)

/-- A prefix of the run in which the timer of `false` fires first, up to a step of `false`: only
its tick looks at the counter, which is still zero. -/
theorem sampleTicks_idx {evs : List (Bool × Trigger)} {e : Trigger} {srv : ChordServer}
    (hpre : evs ++ [(false, e)] <+: sampleTicks false) (hlook : looksAtIdx L srv e) :
  evs = sampleJoin true ++ sampleJoin false
  := by
  have hget : (sampleTicks false)[evs.length]? = some (false, e) := by
    obtain ⟨rest, hrest⟩ := hpre
    simp [← hrest]
  have htake : evs = (sampleTicks false).take evs.length :=
    List.prefix_iff_eq_take.mp ((List.prefix_append evs _).trans hpre)
  have hlen : evs.length < 6 := (List.getElem?_eq_some_iff.mp hget).1
  generalize evs.length = n at hget htake hlen
  match n, hlen with
  | 0, _ | 1, _ | 5, _ => cases hget
  | 2, _ | 3, _ =>
      cases hget
      cases hlook
  | 4, _ => exact htake

/-- The server whose timer fires first is not disturbed. -/
theorem servers_do_not_interfere_sample :
  ∃ y, runProcess sampleLibrary samplePacking sampleServers
      (Shared.without true (sampleTicks false)) = .ok y ∧
    sampleCounts y = [0, 0, 4]
  := by
  have hx : (runProcess sampleLibrary samplePacking sampleServers (sampleTicks false)).map
      sampleCounts = .ok [0, 0, 4] := by
    rfl
  have hidx : (runProcess sampleLibrary samplePacking sampleServers
      (sampleJoin true ++ sampleJoin false)).map (fun x => x.shared.idx) = .ok 0 := by
    rfl
  have hidx' : (runProcess sampleLibrary samplePacking sampleServers
      (Shared.without true (sampleJoin true ++ sampleJoin false))).map
        (fun x => x.shared.idx) = .ok 0 := by
    rfl
  obtain ⟨x, hrun, hcounts⟩ := Except.map_eq_ok.mp hx
  obtain ⟨y, hrun', hsame⟩ := servers_do_not_interfere true hrun (by
    intro evs S e x₁ y₁ hpre hS hrun₁ hrun₂ hlook
    obtain rfl : S = false := by simpa using hS
    obtain rfl := sampleTicks_idx hpre hlook
    rw [hrun₁] at hidx
    rw [hrun₂] at hidx'
    have hzero : x₁.shared.idx = 0 := Except.ok.inj hidx
    have hzero' : y₁.shared.idx = 0 := Except.ok.inj hidx'
    rw [SamePhase, hzero, hzero']
    exact ⟨Iff.rfl, Iff.rfl⟩)
  refine ⟨y, hrun', ?_⟩
  rw [sampleCounts, (hsame false (by decide)).2]
  exact hcounts

end Tangent

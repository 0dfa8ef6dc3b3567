import Tangent.Routing.Lookup
import Tangent.Safety.Maintenance

/-!
# The lookups of `fix_fingers`

While its cursor is at `k`, `fix_fingers` computes `node.id + 2 ^ k` and asks a far finger.  The
request it sends names the address and port of the server itself and not the identifier it has
computed, so the ring answers it with the owner of `node.id`, which is the server itself.

When the cursor starts anew, `fix_fingers` also draws the index of a well-known node.  Its loop
counts a node before it compares the count with the index, so the index `0` names no node, and
every other one the node before.
-/

namespace Tangent

variable {ι : Type*} {L : Library} {σ : ι → ChordServer} {i j o : ι} {io : Io}
  {srv : ChordServer} {succ : Finger} {acts : List Action}

/-! ### What is sent -/

/-- The branch of `fix_fingers` that decrements its cursor is taken. -/
def decrements (srv : ChordServer) (succ : Finger) : Prop :=
  succFinger srv = some succ ∧ srv.toFixFinger ≠ 0 ∧
    idIsBetween (chordIdSuccessor srv.node.id srv.toFixFinger) srv.node.id succ.node.id = false

instance (srv : ChordServer) (succ : Finger) : Decidable (decrements srv succ) :=
  inferInstanceAs (Decidable (_ ∧ _ ∧ _))

/-- The finger that branch asks. -/
def farFinger (srv : ChordServer) (succ : Finger) : Finger :=
  (closestPrecedingFinger srv (chordIdSuccessor srv.node.id (nfingers - 1)) false).getD succ

/-- The request that branch sends, the `n`-th packet of the tick. -/
def fixFingerRequest (L : Library) (io : Io) (srv : ChordServer) (n : ℕ) : FindSuccessor :=
  ⟨packTicket L srv (io.time n) fsArgs, defTtl.toUInt32, srv.node.addr.s6Addr,
    srv.node.port.toUInt32⟩

/-- In the branch that decrements the cursor, `fix_fingers` sends one packet, a request for the
server's own address and port. -/
theorem fixFingers_eq (hk : srv.toFixFinger < nfingers) (hdec : decrements srv succ) :
  fixFingers L io srv acts
    = .ok ({ srv with toFixFinger := srv.toFixFinger - 1 },
        acts ++ [.send ⟨(farFinger srv succ).node.addr, (farFinger srv succ).node.port,
          .fs (fixFingerRequest L io srv acts.length)⟩])
  := by
  obtain ⟨hsucc, hpos, hnot⟩ := hdec
  have hfar : srv.toFixFinger - 1 ≠ nfingers - 1 := by
    omega
  rw [fixFingers, if_neg (not_le.mpr hk), hsucc]
  simp only [moveFixFinger, hnot, hpos, Bool.false_eq_true, or_self, if_false, askFarFinger, hfar,
    false_and]
  rfl

/-- The finger `fix_fingers` asks is active. -/
theorem farFinger_mem (hsucc : succFinger srv = some succ) :
  farFinger srv succ ∈ srv.flist ∧ (farFinger srv succ).isActive = true
  := by
  rw [farFinger]
  cases hf : closestPrecedingFinger srv (chordIdSuccessor srv.node.id (nfingers - 1)) false with
  | none => apply succFinger_mem hsucc
  | some f =>
      obtain ⟨hmem, hactive, -⟩ := closestPrecedingFinger_mem hf
      exact ⟨hmem, hactive⟩

/-! ### What is answered -/

/-- A server is its own first server at or after `node.id + 2 ^ k` if and only if all others are
nearer to it than that. -/
theorem LookupRing.isOwner_chordIdSuccessor_iff (h : LookupRing L σ) {k : ℕ} (hk : k < nfingers) :
  IsOwner σ (chordIdSuccessor (σ i).node.id k) i ↔
    ∀ j, j ≠ i → ChordID.arc (σ i).node.id (σ j).node.id < 2 ^ k
  := by
  have harc := arc_chordIdSuccessor (σ i).node.id hk
  have hpow : 2 ^ k < 2 ^ chordIdBits := Nat.pow_lt_pow_right (by decide) hk
  have hself : ChordID.gap (chordIdSuccessor (σ i).node.id k) (σ i).node.id
      = 2 ^ chordIdBits - 2 ^ k := by
    have hle : ChordID.arc (σ i).node.id (chordIdSuccessor (σ i).node.id k)
        ≤ ChordID.arc (σ i).node.id (σ i).node.id := by
      rw [harc, ChordID.arc_self]
      apply le_of_lt hpow
    rw [ChordID.gap_of_arc_le hle, harc, ChordID.arc_self]
  constructor
  · intro hown j hj
    by_contra hfar
    rw [not_lt, ← harc] at hfar
    have hgap := hown j
    have hne : ChordID.arc (σ i).node.id (σ j).node.id < 2 ^ chordIdBits :=
      ChordID.arc_lt_iff_ne.mpr fun heq => hj (h.ids heq).symm
    rw [hself, ChordID.gap_of_arc_le hfar] at hgap
    rw [harc] at hfar hgap
    omega
  · intro hall j
    rcases eq_or_ne j i with rfl | hj
    · apply le_refl
    · have hlt := hall j hj
      rw [← harc] at hlt
      rw [hself, ChordID.gap_of_arc_lt hlt, harc]
      omega

/-- The request `fix_fingers` sends in the branch that decrements its cursor goes to another server
of the ring and is answered, if there are fewer servers than hops, and never with any server but
the one that asks. -/
theorem LookupRing.fixFinger_answered [Fintype ι] (h : LookupRing L σ)
    (hreach : Reachable L (σ i)) (hdec : decrements (σ i) succ) (io : Io) (acts : List Action) :
  ∃ j m, j ≠ i ∧
    fixFingers L io (σ i) acts
      = .ok ({ σ i with toFixFinger := (σ i).toFixFinger - 1 },
          acts ++ [.send ⟨(σ j).node.addr, (σ j).node.port, .fs m⟩]) ∧
    (Fintype.card ι < defTtl.toNat → Answered L σ (σ i).node.peer m.ticket j m i) ∧
    ∀ o, Answered L σ (σ i).node.peer m.ticket j m o → o = i
  := by
  have hid : ((σ i).node.peer.node L).id = (σ i).node.id := by
    rw [← (h.inv i).position (h.discovered i)]
  have hown : IsOwner σ ((σ i).node.peer.node L).id i := by
    intro k
    rw [hid]
    have hself : ChordID.gap (σ i).node.id (σ i).node.id = 0 := by
      simp [ChordID.gap, Clockwise.gap]
    omega
  obtain ⟨hmem, hactive⟩ := farFinger_mem hdec.1
  obtain ⟨j, hj⟩ := h.active i _ hmem hactive
  have hother : (σ i).node.peer ≠ (σ j).node.peer := by
    rw [← hj]
    exact ((h.inv i).fingers _ hmem).2.symm
  have hreq : ∀ io', (fixFingerRequest L io (σ i) acts.length).requester io'
      = (σ i).node.peer := by
    intro io'
    simp [FindSuccessor.requester, fixFingerRequest, Node.peer]
  refine ⟨j, fixFingerRequest L io (σ i) acts.length, ?_, ?_, ?_, ?_⟩
  · rintro rfl
    apply hother rfl
  · rw [fixFingers_eq hreach.cursorInv.1 hdec, hj]
  · intro hcard
    apply h.answered hown rfl hreq hother _ (by decide : 32 ≤ 255)
    have hlt := Clockwise.rank_lt_card
      (fun k => ChordID.arc (σ k).node.id ((σ i).node.peer.node L).id) j
    have httl : (fixFingerRequest L io (σ i) acts.length).ttl.toNat = 32 := rfl
    have hcard' : Fintype.card ι < 32 := hcard
    omega
  · intro o ho
    apply h.isOwner_unique (h.isOwner_of_answered ho hreq hother) hown

/-- In a stable ring, the request `fix_fingers` sends in the branch that decrements its cursor
goes to a server of the ring, is answered if there are fewer servers than hops, and any answer to
it names the first server at or clockwise after `node.id + 2 ^ k`, for `k` the cursor, if and only
if no other server is that far from the one that asks. -/
theorem fixFinger_answered_iff [Fintype ι] (h : StableRing L σ) (hreach : Reachable L (σ i))
    (hdec : decrements (σ i) succ) (io : Io) (acts : List Action) :
  ∃ j m, fixFingers L io (σ i) acts
      = .ok ({ σ i with toFixFinger := (σ i).toFixFinger - 1 },
          acts ++ [.send ⟨(σ j).node.addr, (σ j).node.port, .fs m⟩]) ∧
    (Fintype.card ι < defTtl.toNat → ∃ o, Answered L σ (σ i).node.peer m.ticket j m o) ∧
    ∀ o, Answered L σ (σ i).node.peer m.ticket j m o →
      (IsOwner σ (chordIdSuccessor (σ i).node.id (σ i).toFixFinger) o ↔
        ∀ k, k ≠ i → ChordID.arc (σ i).node.id (σ k).node.id < 2 ^ (σ i).toFixFinger)
  := by
  have hring := h.toLookupRing
  obtain ⟨j, m, -, hfix, hanswer, honly⟩ := hring.fixFinger_answered hreach hdec io acts
  refine ⟨j, m, hfix, fun hcard => ⟨i, hanswer hcard⟩, ?_⟩
  intro o ho
  rw [honly o ho]
  apply hring.isOwner_chordIdSuccessor_iff hreach.cursorInv.1

/-- The first server of the sample ring asks for `node.id + 2 ^ 159` and is told of itself, the
first server there. -/
theorem fixFinger_answered_iff_sample :
  ∃ j m, fixFingers sampleLibrary sampleIo (sampleRing 0) []
      = .ok ({ sampleRing 0 with toFixFinger := 158 },
          [.send ⟨(sampleRing j).node.addr, (sampleRing j).node.port, .fs m⟩]) ∧
    ∃ o, Answered sampleLibrary sampleRing (sampleRing 0).node.peer m.ticket j m o ∧
      IsOwner sampleRing (chordIdSuccessor (sampleRing 0).node.id 159) o
  := by
  obtain ⟨succ, -, hdec⟩ : ∃ succ ∈ (sampleRing 0).flist, decrements (sampleRing 0) succ := by
    decide
  obtain ⟨j, m, hfix, hanswered, hiff⟩ :=
    fixFinger_answered_iff sampleRing_stable (sampleRing_reachable 0) hdec sampleIo []
  obtain ⟨o, ho⟩ := hanswered (by decide)
  exact ⟨j, m, hfix, o, ho, (hiff o ho).mpr (by decide)⟩

/-- The sample library, with the first byte of an address as the first byte of its position. -/
def spreadLibrary : Library :=
  { sampleLibrary with
    sha1 := fun b =>
      if b.length = 18 then ⟨b.headD 0 :: List.replicate 19 0, by simp⟩
      else ⟨List.replicate 20 0, by simp⟩ }

/-- The server at `p`, after it has learnt its address and got a pong from `q`. -/
def spreadServer (p q : Peer) : ChordServer :=
  runTo spreadLibrary (sampleConfig p) [sampleAddr p, samplePong q]

theorem spreadServer_reachable (p q : Peer) :
  Reachable spreadLibrary (spreadServer p q)
  := Reachable.runTo ..

/-- Two servers that know one another, opposite each other on the circle. -/
def spreadRing : Bool → ChordServer
  | false => spreadServer (samplePeer 16 0) (samplePeer 144 0)
  | true => spreadServer (samplePeer 144 0) (samplePeer 16 0)

theorem spreadRing_reachable (i : Bool) :
  Reachable spreadLibrary (spreadRing i)
  := by
  cases i with
  | false => apply spreadServer_reachable ..
  | true => apply spreadServer_reachable ..

theorem spreadRing_stable :
  StableRing spreadLibrary spreadRing
  where
  inv i := (spreadRing_reachable i).tableInv
  discovered := by decide
  ids := by decide
  active := by decide
  succ := by decide
  pred := by decide

/-- A server asks its finger, the only other server and the first one at `node.id + 2 ^ 159`, and
is told of itself. -/
theorem fixFinger_answered_with_itself :
  ∃ m, fixFingers spreadLibrary sampleIo (spreadRing false) []
      = .ok ({ spreadRing false with toFixFinger := 158 },
          [.send ⟨(spreadRing true).node.addr, (spreadRing true).node.port, .fs m⟩]) ∧
    (spreadRing false).toFixFinger = 159 ∧
    (∀ o, Answered spreadLibrary spreadRing (spreadRing false).node.peer m.ticket true m o ↔
      o = false) ∧
    IsOwner spreadRing (chordIdSuccessor (spreadRing false).node.id 159) true ∧
    ¬ IsOwner spreadRing (chordIdSuccessor (spreadRing false).node.id 159) false
  := by
  obtain ⟨succ, -, hdec⟩ :
      ∃ succ ∈ (spreadRing false).flist, decrements (spreadRing false) succ := by
    decide
  obtain ⟨j, m, hj, hfix, hanswer, honly⟩ := spreadRing_stable.toLookupRing.fixFinger_answered
    (spreadRing_reachable false) hdec sampleIo []
  obtain rfl : j = true := by
    simpa using hj
  refine ⟨m, hfix, by decide, ?_, by decide, by decide⟩
  intro o
  constructor
  · apply honly o
  · rintro rfl
    apply hanswer (by decide)

/-! ### The well-known nodes -/

/-- The branch of `fix_fingers` that sets its cursor anew is taken. -/
def resets (srv : ChordServer) (succ : Finger) : Prop :=
  succFinger srv = some succ ∧
    (idIsBetween (chordIdSuccessor srv.node.id srv.toFixFinger) srv.node.id succ.node.id = true ∨
      srv.toFixFinger = 0)

instance (srv : ChordServer) (succ : Finger) : Decidable (resets srv succ) :=
  inferInstanceAs (Decidable (_ ∧ _))

/-- Of the well-known nodes `fix_fingers` asks only `p`, with one request, and then goes on to the
far finger. -/
def AsksOnly (L : Library) (io : Io) (srv : ChordServer) (succ : Finger) (acts : List Action)
    (p : Peer) : Prop :=
  fixFingers L io srv acts
    = .ok ({ srv with toFixFinger := nfingers - 1 },
        askFarFinger L io { srv with toFixFinger := nfingers - 1 } succ
          (acts ++ [.send ⟨p.addr, p.port, .fs (fixFingerRequest L io srv acts.length)⟩]))

/-- The loop over the well-known nodes asks the node before the one with the index. -/
theorem askWellKnown_eq (rnd i : ℕ) (ps : List Peer) (acts : List Action) :
  askWellKnown L io srv rnd i ps acts
    = acts ++ ((if i < rnd then ps[rnd - (i + 1)]? else none).map fun p =>
        .send ⟨p.addr, p.port, .fs (fixFingerRequest L io srv acts.length)⟩).toList
  := by
  induction ps generalizing i acts with
  | nil => simp [askWellKnown]
  | cons p ps ih =>
      rw [askWellKnown, ih]
      rcases lt_trichotomy (i + 1) rnd with hlt | rfl | hgt
      · have hk : rnd - (i + 1) = rnd - (i + 1 + 1) + 1 := by omega
        rw [if_neg (show i + 1 ≠ rnd by omega), if_pos hlt, if_pos (show i < rnd by omega), hk,
          List.getElem?_cons_succ]
      · rw [if_pos rfl, if_neg (lt_irrefl (i + 1)), if_pos (Nat.lt_succ_self i)]
        simp [sendFs, sendFsForward, sendPacket, fixFingerRequest]
      · rw [if_neg (show i + 1 ≠ rnd by omega), if_neg (show ¬ i + 1 < rnd by omega),
          if_neg (show ¬ i < rnd by omega)]

/-- In the branch that sets the cursor anew, `fix_fingers` asks the node before the one whose index
it has drawn. -/
theorem fixFingers_reset_eq (hk : srv.toFixFinger < nfingers) (hreset : resets srv succ) :
  fixFingers L io srv acts
    = .ok ({ srv with toFixFinger := nfingers - 1 },
        askFarFinger L io { srv with toFixFinger := nfingers - 1 } succ
          (acts ++ ((if 0 < io.random % srv.wellKnown.length then
              srv.wellKnown[io.random % srv.wellKnown.length - 1]? else none).map fun p =>
            .send ⟨p.addr, p.port, .fs (fixFingerRequest L io srv acts.length)⟩).toList))
  := by
  obtain ⟨hsucc, hcase⟩ := hreset
  rw [fixFingers, if_neg (not_le.mpr hk), hsucc]
  simp only [moveFixFinger, if_pos hcase]
  split
  · rw [askWellKnown_eq]
  · rename_i hnone
    have hnil : srv.wellKnown = [] := List.eq_nil_of_length_eq_zero (by omega)
    simp [hnil]

/-- What `fix_fingers` has sent before it asks the far finger can be told from all it has sent. -/
theorem askFarFinger_inj {acts' : List Action}
    (h : askFarFinger L io srv succ acts = askFarFinger L io srv succ acts') :
  acts = acts'
  := by
  simp only [askFarFinger] at h
  split at h
  · simp only [sendFs, sendFsForward, sendPacket, List.append_assoc] at h
    apply List.append_inj_left' h rfl
  · apply List.append_inj_left' h rfl

theorem asksOnly_iff (hk : srv.toFixFinger < nfingers) (hreset : resets srv succ) {p : Peer} :
  AsksOnly L io srv succ acts p ↔
    0 < io.random % srv.wellKnown.length ∧
      srv.wellKnown[io.random % srv.wellKnown.length - 1]? = some p
  := by
  rw [AsksOnly, fixFingers_reset_eq hk hreset, Except.ok.injEq, Prod.mk.injEq,
    and_iff_right rfl]
  constructor
  · intro heq
    have hsent := List.append_cancel_left (askFarFinger_inj heq)
    split at hsent
    · rename_i hpos
      use hpos
      cases hget : srv.wellKnown[io.random % srv.wellKnown.length - 1]? with
      | none =>
          rw [hget] at hsent
          cases hsent
      | some q =>
          rw [hget] at hsent
          simp only [Option.map_some, Option.toList_some, List.cons.injEq, Action.send.injEq,
            Packet.mk.injEq, and_true] at hsent
          obtain ⟨haddr, hport⟩ := hsent
          cases p
          cases q
          simp_all
    · cases hsent
  · rintro ⟨hpos, hget⟩
    rw [if_pos hpos, hget]
    rfl

/-- The well-known nodes `fix_fingers` asks for some draw are those in front of the last one. -/
theorem exists_asksOnly_iff (hk : srv.toFixFinger < nfingers) (hreset : resets srv succ)
    {p : Peer} :
  (∃ io, AsksOnly L io srv succ acts p) ↔ p ∈ srv.wellKnown.dropLast
  := by
  simp only [asksOnly_iff hk hreset, List.mem_iff_getElem?, List.getElem?_dropLast]
  constructor
  · rintro ⟨io, hpos, hget⟩
    have hlen := List.length_pos_of_mem (List.mem_of_getElem? hget)
    have hlt := Nat.mod_lt io.random hlen
    use io.random % srv.wellKnown.length - 1
    rw [if_pos (by omega), hget]
  · rintro ⟨k, hget⟩
    split at hget
    · rename_i hlt
      have hmod : (k + 1) % srv.wellKnown.length = k + 1 := Nat.mod_eq_of_lt (by omega)
      use { sampleIo with random := k + 1 }
      rw [hmod]
      exact ⟨Nat.succ_pos k, hget⟩
    · cases hget

/-- When `fix_fingers` sets its cursor anew it asks the well-known node whose index it has drawn,
and no other, if and only if the index is not `0` and the node before is the same.  Every
well-known node is asked for some draw if and only if the last one occurs twice. -/
theorem wellKnown_asked_iff (h : Reachable L srv) (hreset : resets srv succ)
    (hwell : srv.wellKnown ≠ []) (acts : List Action) :
  (∀ io p, srv.wellKnown[io.random % srv.wellKnown.length]? = some p →
      (AsksOnly L io srv succ acts p ↔
        io.random % srv.wellKnown.length ≠ 0 ∧
          srv.wellKnown[io.random % srv.wellKnown.length - 1]? = some p)) ∧
    ((∀ p ∈ srv.wellKnown, ∃ io, AsksOnly L io srv succ acts p) ↔
      srv.wellKnown.getLast hwell ∈ srv.wellKnown.dropLast)
  := by
  have hk := h.cursorInv.1
  constructor
  · intro io p _
    rw [asksOnly_iff hk hreset, Nat.pos_iff_ne_zero]
  · simp only [exists_asksOnly_iff hk hreset]
    constructor
    · intro hall
      apply hall _ (List.getLast_mem hwell)
    · intro hlast p hp
      rw [← List.dropLast_append_getLast hwell, List.mem_append, List.mem_singleton] at hp
      rcases hp with hp | rfl
      · exact hp
      · exact hlast

/-- The server at `10`, which knows the peers `ps` from its configuration, after it has learnt its
address and got a pong from the peer at `5`. -/
def sampleKnowing (ps : List Peer) : ChordServer :=
  runTo sampleLibrary { sampleConfig (samplePeer 10 0) with wellKnown := ps }
    [sampleAddr (samplePeer 10 0), samplePong (samplePeer 5 0)]

theorem sampleKnowing_reachable (ps : List Peer) :
  Reachable sampleLibrary (sampleKnowing ps)
  := Reachable.runTo ..

/-- The finger of that server for the peer at `5`. -/
def sampleKnown : Finger :=
  ⟨(samplePeer 5 0).node sampleLibrary, .active, 0, 0, 0⟩

/-- With one peer listed twice, the draw `1` asks it. -/
theorem wellKnown_asked_iff_sample :
  AsksOnly sampleLibrary { sampleIo with random := 1 }
    (sampleKnowing [samplePeer 2 0, samplePeer 2 0]) sampleKnown [] (samplePeer 2 0)
  := by
  have hreset : resets (sampleKnowing [samplePeer 2 0, samplePeer 2 0]) sampleKnown := by
    decide
  have hasked := wellKnown_asked_iff (sampleKnowing_reachable [samplePeer 2 0, samplePeer 2 0])
    hreset (by decide) []
  rw [hasked.1 _ _ (by decide)]
  decide

/-- The only well-known node is never asked. -/
theorem wellKnown_not_asked :
  ∃ srv, Reachable sampleLibrary srv ∧ srv.wellKnown = [samplePeer 2 0] ∧
    resets srv sampleKnown ∧
    ∀ io acts, ¬ AsksOnly sampleLibrary io srv sampleKnown acts (samplePeer 2 0)
  := by
  refine ⟨sampleKnowing [samplePeer 2 0], sampleKnowing_reachable _, by decide, by decide, ?_⟩
  intro io acts hasks
  rw [asksOnly_iff (by decide) (by decide)] at hasks
  have hlen : (sampleKnowing [samplePeer 2 0]).wellKnown.length = 1 := by decide
  rw [hlen, Nat.mod_one] at hasks
  exact absurd hasks.1 (lt_irrefl 0)

end Tangent

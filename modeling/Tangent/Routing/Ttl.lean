import Tangent.Routing.Lookup

/-!
# The hop count

A server decrements the hop count of a packet as a 32-bit number, drops the packet if it
becomes zero, and sends it on with the hop count narrowed to a byte.  So the hop count of the
copy is smaller than that of the packet, unless the latter is zero: then the copy starts anew
with 255 hops.
-/

namespace Tangent

variable {L : Library}

/-- A server sends `m'` on as a copy of the data packet `m`. -/
def DataForward (m m' : Data) : Prop :=
  ∃ io srv frm out addr port, processData io srv m frm = .ok out ∧
    .send ⟨addr, port, .data m'⟩ ∈ out.acts

/-- A server sends `m'` on as a copy of the lookup `m`. -/
def FsForward (L : Library) (m m' : FindSuccessor) : Prop :=
  ∃ io srv frm out addr port, processFs L io srv m frm = .ok out ∧
    .send ⟨addr, port, .fs m'⟩ ∈ out.acts

/-- The hop count a packet is sent on with. -/
def nextTtl (t : UInt32) : UInt32 :=
  (t - 1).toUInt8.toUInt32

theorem DataForward.ttl_eq {m m' : Data} (h : DataForward m m') :
  m.ttl - 1 ≠ 0 ∧ m'.ttl = nextTtl m.ttl
  := by
  obtain ⟨io, srv, frm, out, addr, port, hout, hsend⟩ := h
  obtain ⟨ret, -, -, rfl⟩ | ⟨-, -, -, rfl⟩ | ⟨-, httl, -, rfl⟩ := processData_cases hout
  · cases hsend
  · simp at hsend
  · simp only [sendData, sendPacket, List.nil_append, List.mem_singleton, Action.send.injEq,
      Packet.mk.injEq, Msg.data.injEq] at hsend
    use httl
    rw [hsend.2.2]
    rfl

/-- A copy of a lookup carries the ticket of the lookup. -/
theorem FsForward.eq {m m' : FindSuccessor} (h : FsForward L m m') :
  m.ttl - 1 ≠ 0 ∧ m'.ttl = nextTtl m.ttl ∧ m'.ticket = m.ticket
  := by
  obtain ⟨io, srv, frm, out, addr, port, hout, hsend⟩ := h
  obtain ⟨ret, -, -, rfl⟩ | ⟨-, -, -, rfl⟩ | ⟨-, -, -, -, rfl⟩ | ⟨-, -, -, s, -, -, rfl⟩ |
    ⟨-, httl, -, s, -, -, rfl⟩ := processFs_cases hout
  · cases hsend
  · cases hsend
  · simp [sendFsReply, sendPacket] at hsend
  · simp [sendFsReply, sendPacket] at hsend
  · simp only [sendFsForward, sendPacket, List.nil_append, List.mem_singleton,
      Action.send.injEq, Packet.mk.injEq, Msg.fs.injEq] at hsend
    use httl
    rw [hsend.2.2]
    exact ⟨rfl, rfl⟩

/-! ### How often a packet is sent on -/

/-- How often a packet with the hop count `t` can be sent on. -/
def hopBudget (t : UInt32) : ℕ :=
  if t.toNat = 0 then 255
  else if t.toNat ≤ 256 then t.toNat - 1
  else if (t.toNat - 1) % 256 = 0 then 256
  else (t.toNat - 1) % 256

theorem toNat_nextTtl (t : UInt32) :
  (nextTtl t).toNat = if t.toNat = 0 then 255 else (t.toNat - 1) % 256
  := by
  have ht := t.toNat_lt
  rw [nextTtl, UInt8.toNat_toUInt32, UInt32.toNat_toUInt8, UInt32.toNat_sub, UInt32.toNat_one]
  split <;> omega

/-- Sending a packet on leaves a smaller budget. -/
theorem hopBudget_nextTtl_lt {t : UInt32} (ht : t - 1 ≠ 0) :
  hopBudget (nextTtl t) < hopBudget t
  := by
  have hone : t.toNat ≠ 1 := by
    intro h
    apply ht
    rw [UInt32.toNat_inj.mp (h.trans UInt32.toNat_one.symm)]
    rfl
  have hnext := toNat_nextTtl t
  simp only [hopBudget]
  by_cases hzero : t.toNat = 0
  · rw [if_pos hzero] at hnext
    rw [hnext, hzero]
    decide
  · rw [if_neg hzero] at hnext
    rw [hnext, if_neg hzero]
    split_ifs <;> omega

/-- Only a packet with the hop count zero can be sent on as often as its hop count says. -/
theorem hopBudget_lt {t : UInt32} (ht : t ≠ 0) :
  hopBudget t < max t.toNat 1
  := by
  have hne : t.toNat ≠ 0 := by
    intro h
    apply ht
    rw [UInt32.toNat_inj.mp (h.trans UInt32.toNat_zero.symm)]
  simp only [hopBudget]
  split_ifs <;> omega

theorem nextTtl_lt {t : UInt32} (ht : t ≠ 0) :
  nextTtl t < t
  := by
  have hne : t.toNat ≠ 0 := by
    intro h
    apply ht
    rw [UInt32.toNat_inj.mp (h.trans UInt32.toNat_zero.symm)]
  rw [UInt32.lt_iff_toNat_lt, toNat_nextTtl, if_neg hne]
  have := Nat.mod_le (t.toNat - 1) 256
  omega

/-- The hop count `t` bounds how far data packets go: a copy has a smaller hop count, and a
chain of copies is shorter than the hop count. -/
def DataBounded (t : UInt32) : Prop :=
  (∀ m m', m.ttl = t → DataForward m m' → m'.ttl < m.ttl) ∧
    ∀ (c : ℕ → Data) (k : ℕ), (c 0).ttl = t → (∀ i < k, DataForward (c i) (c (i + 1))) →
      k < max t.toNat 1

/-- The hop count `t` bounds how far lookups go. -/
def FsBounded (L : Library) (t : UInt32) : Prop :=
  (∀ m m', m.ttl = t → FsForward L m m' → m'.ttl < m.ttl) ∧
    ∀ (c : ℕ → FindSuccessor) (k : ℕ), (c 0).ttl = t →
      (∀ i < k, FsForward L (c i) (c (i + 1))) → k < max t.toNat 1

theorem dataBounded {t : UInt32} (ht : t ≠ 0) :
  DataBounded t
  := by
  constructor
  · rintro m m' rfl hop
    rw [hop.ttl_eq.2]
    apply nextTtl_lt ht
  · rintro c k rfl hc
    apply lt_of_le_of_lt _ (hopBudget_lt ht)
    apply chain_length_le (fun m : Data => hopBudget m.ttl) _ hc
    intro m m' hop
    simp only [hop.ttl_eq.2]
    apply hopBudget_nextTtl_lt hop.ttl_eq.1

theorem fsBounded {t : UInt32} (ht : t ≠ 0) :
  FsBounded L t
  := by
  constructor
  · rintro m m' rfl hop
    rw [hop.eq.2.1]
    apply nextTtl_lt ht
  · rintro c k rfl hc
    apply lt_of_le_of_lt _ (hopBudget_lt ht)
    apply chain_length_le (fun m : FindSuccessor => hopBudget m.ttl) _ hc
    intro m m' hop
    simp only [hop.eq.2.1]
    apply hopBudget_nextTtl_lt hop.eq.1

/-- A server sends a data packet with the hop count zero on with 255 hops. -/
theorem dataForward_zero :
  DataForward ⟨((samplePeer 15 0).node sampleLibrary).id.x, 0, false, []⟩
    ⟨((samplePeer 15 0).node sampleLibrary).id.x, 255, true, []⟩
  := by
  refine ⟨sampleIo, sampleRing 0, ⟨0, 0, 0⟩, _, (samplePeer 20 0).addr, (samplePeer 20 0).port,
    rfl, ?_⟩
  decide

/-- A server at the position of the peer that asks, with its only finger elsewhere, sends a
lookup with the hop count zero on with 255 hops, whatever the hash. -/
theorem exists_fsForward_zero (L : Library) :
  ∃ m m', m.ttl = 0 ∧ m'.ttl = 255 ∧ FsForward L m m'
  := by
  obtain ⟨other, hne⟩ : ∃ other, ((samplePeer 1 0).node L).id ≠ other := by
    by_cases hzero : ((samplePeer 1 0).node L).id = 0
    · use ((samplePeer 1 0).node sampleLibrary).id
      rw [hzero]
      decide
    · exact ⟨0, hzero⟩
  let srv : ChordServer :=
    { newServer (sampleConfig (samplePeer 2 0)) with
      node := ⟨((samplePeer 1 0).node L).id, (samplePeer 2 0).addr, 1⟩
      flist := [⟨⟨other, (samplePeer 3 0).addr, 1⟩, .active, 0, 0, 0⟩] }
  have hother : samplePeer 1 0 ≠ srv.node.peer :=
    (by decide : samplePeer 1 0 ≠ samplePeer 2 0)
  have hid : ¬ (idIsBetween ((samplePeer 1 0).node L).id srv.node.id other
      || idEquals ((samplePeer 1 0).node L).id other) = true := by
    rw [between_or_equals_iff, ChordID.arc_self, not_le]
    apply ChordID.arc_lt_iff_ne.mpr hne
  refine ⟨⟨[], 0, (samplePeer 1 0).addr.s6Addr, 1⟩,
    ⟨[], 255, (samplePeer 1 0).addr.s6Addr, 1⟩, rfl, rfl, sampleIo, srv, ⟨0, 0, 0⟩, _,
    (closestPrecedingNode srv ((samplePeer 1 0).node L).id false).addr,
    (closestPrecedingNode srv ((samplePeer 1 0).node L).id false).port,
    processFs_eq (p := samplePeer 1 0) rfl (by decide) rfl hother (by decide), ?_⟩
  simp only [show succFinger srv = some ⟨⟨other, (samplePeer 3 0).addr, 1⟩, .active, 0, 0, 0⟩
    from rfl, hid, Bool.false_eq_true, if_false]
  rw [sendFsForward, sendPacket, List.nil_append, List.mem_singleton]
  rfl

/-- The hop count bounds how far a packet goes if and only if it is not zero; a lookup that
leaves it out has the hop count zero. -/
theorem ttl_bounds_forwarding_iff (L : Library) (t : UInt32) :
  (DataBounded t ↔ t ≠ 0) ∧ (FsBounded L t ↔ t ≠ 0)
  := by
  constructor
  · constructor
    · rintro ⟨hdec, -⟩ rfl
      exact absurd (hdec _ _ rfl dataForward_zero) (by decide)
    · apply dataBounded
  · constructor
    · rintro ⟨hdec, -⟩ rfl
      obtain ⟨m, m', hm, hm', hop⟩ := exists_fsForward_zero L
      have hlt := hdec m m' hm hop
      rw [hm, hm'] at hlt
      exact absurd hlt (by decide)
    · apply fsBounded

/-- A server that gets a lookup without a hop count sends it on with 255 hops. -/
theorem ttl_grows_from_zero :
  ∃ srv msg msg' out, Reachable sampleLibrary srv ∧ msg.ttl = 0 ∧
    processFs sampleLibrary sampleIo srv msg ⟨0, 0, 0⟩ = .ok out ∧
    out.acts = [.send ⟨(samplePeer 20 0).addr, (samplePeer 20 0).port, .fs msg'⟩] ∧
    ¬ msg'.ttl < msg.ttl
  := by
  refine ⟨sampleServer (samplePeer 10 0) [samplePeer 20 0],
    ⟨sampleTicket, 0, (samplePeer 25 0).addr.s6Addr, 1⟩,
    ⟨sampleTicket, 255, (samplePeer 25 0).addr.s6Addr, 1⟩, _, sampleServer_reachable _ _, rfl,
    rfl, ?_⟩
  decide

end Tangent

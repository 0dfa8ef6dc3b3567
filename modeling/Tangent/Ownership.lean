import Tangent.Table.Packet
import Tangent.Table.Tick

/-!
# Ring order and ownership

The invariant of the finger table holds in every reachable state.  So the finger list is in
ring order, the range of a server is the interval from its last active finger to itself, and
two servers that hold each other as active fingers own disjoint ranges, unless one of them
holds an active finger under its own identifier.
-/

namespace Tangent

variable {L : Library} {srv srv' A B : ChordServer} {e : Event}

/-! ### Reachable states -/

/-- The steps of an event. -/
theorem step_steps (h : TableInv L srv) (hs : step L srv e = .ok srv') :
  TableSteps L {k | k = .adopt → ¬ srv.Discovered} srv srv'
  := by
  rw [step, Except.map_eq_ok] at hs
  obtain ⟨⟨srv₁, acts⟩, hs, rfl⟩ := hs
  cases e with
  | packet frm msg io =>
      obtain ⟨out, ho, heq⟩ := Except.map_eq_ok.mp hs
      cases heq
      apply (process_steps h ho).mono
      rintro k hk rfl
      simpa [packetKinds] using hk
  | tick idx io =>
      obtain ⟨t, ht, heq⟩ := Except.map_eq_ok.mp hs
      cases heq
      obtain ⟨-, heq⟩ | hsteps := stabilize_steps h ht
      · rw [heq]
        apply TableSteps.refl
      · apply TableSteps.trans
        · apply (ping_steps io h).mono
          rintro k (rfl | rfl | rfl) hk <;> cases hk
        · apply hsteps.mono
          rintro k (rfl | rfl) hk <;> cases hk
  | discover io =>
      cases hs
      apply TableSteps.refl

theorem TableInv.step (h : TableInv L srv) (hs : step L srv e = .ok srv') :
  TableInv L srv'
  := (step_steps h hs).inv h

/-- The invariant of the finger table holds in every reachable state. -/
theorem Reachable.tableInv (h : Reachable L srv) :
  TableInv L srv
  := by
  apply h.invariant (TableInv.newServer L)
  intro srv e srv' hinv hs
  apply hinv.step hs

/-- A server that knows its address keeps its node and its settings. -/
theorem TableInv.step_sameNode (h : TableInv L srv) (hd : srv.Discovered)
    (hs : Tangent.step L srv e = .ok srv') :
  SameNode srv srv'
  := by
  apply (step_steps h hs).sameNode
  simp [hd]

/-- A server keeps its settings. -/
theorem Reachable.settings_eq (h : Reachable L srv) {es : List Event}
    (hrun : Tangent.run L srv es = .ok srv') :
  srv'.settings = srv.settings
  := by
  have hkeep : TableInv L srv' ∧ srv'.settings = srv.settings := by
    apply Machine.run_invariant (I := fun s => TableInv L s ∧ s.settings = srv.settings)
      ⟨h.tableInv, rfl⟩ _ hrun
    rintro s₁ e s₂ ⟨hinv, heq⟩ hs
    exact ⟨hinv.step hs, (step_steps hinv hs).settings_eq.trans heq⟩
  exact hkeep.2

/-! ### Ring order -/

/-- In every reachable state the finger list, read from the head, is strictly increasing in
clockwise distance from the server; so no two fingers share an identifier, and the
identifier of the server does not change while there is a finger. -/
theorem reachable_ringOrder (h : Reachable L srv) :
  (srv.flist.Pairwise fun f g =>
      ChordID.arc srv.node.id f.node.id < ChordID.arc srv.node.id g.node.id) ∧
    (srv.flist.map fun f => f.node.id).Nodup ∧
    (srv.flist ≠ [] → ∀ e srv', step L srv e = .ok srv' → srv'.node.id = srv.node.id)
  := by
  have hinv := h.tableInv
  refine ⟨hinv.order, hinv.order.nodup_ids, ?_⟩
  intro hne e srv' hs
  obtain ⟨f, hf⟩ := List.exists_mem_of_ne_nil _ hne
  rw [(hinv.step_sameNode (hinv.discovered hf) hs).1]

theorem reachable_ringOrder_sample :
  ((sampleServer (samplePeer 1 0) [samplePeer 3 0, samplePeer 1 1, samplePeer 2 0]).flist.map
      fun f => f.node.id.toNat) = [2, 3, 1] ∧
    (sampleServer (samplePeer 1 0) [samplePeer 3 0, samplePeer 1 1, samplePeer 2 0]).flist.Pairwise
      fun f g => ChordID.arc
        (sampleServer (samplePeer 1 0) [samplePeer 3 0, samplePeer 1 1, samplePeer 2 0]).node.id
        f.node.id
      < ChordID.arc
        (sampleServer (samplePeer 1 0) [samplePeer 3 0, samplePeer 1 1, samplePeer 2 0]).node.id
        g.node.id
  := ⟨by decide, (reachable_ringOrder (sampleServer_reachable _ _)).1⟩

/-! ### Passive fingers and positions -/

/-- In every reachable state the counter of the passive fingers is their number in the list,
and there are no more of them than allowed. -/
theorem reachable_passive_count (h : Reachable L srv) :
  srv.numPassiveFingers = (srv.flist.filter Finger.isPassive).length ∧
    srv.numPassiveFingers ≤ maxPassiveFingers
  := by
  have hinv := h.tableInv
  rw [← List.countP_eq_length_filter]
  exact ⟨hinv.passive, hinv.passive_le⟩

theorem reachable_passive_count_sample :
  (sampleMixed (samplePeer 1 0) [samplePeer 2 0, samplePeer 3 0, samplePeer 4 0]
      [samplePeer 3 0]).numPassiveFingers = 2 ∧
    ((sampleMixed (samplePeer 1 0) [samplePeer 2 0, samplePeer 3 0, samplePeer 4 0]
      [samplePeer 3 0]).flist.filter Finger.isPassive).length = 2
  := by
  have hcount := (reachable_passive_count (sampleMixed_reachable (samplePeer 1 0)
    [samplePeer 2 0, samplePeer 3 0, samplePeer 4 0] [samplePeer 3 0])).1
  have htwo : (sampleMixed (samplePeer 1 0) [samplePeer 2 0, samplePeer 3 0, samplePeer 4 0]
      [samplePeer 3 0]).numPassiveFingers = 2 := by decide
  rw [htwo] at hcount
  exact ⟨htwo, by exact_mod_cast hcount.symm⟩

/-- In every reachable state a finger is filed under the hash of its address and port, which
are not those of the server, and a server that knows its address is at the position its own
address and port hash to. -/
theorem reachable_position (h : Reachable L srv) :
  (∀ f ∈ srv.flist, f.node.id = getAddressId L f.node.addr f.node.port ∧
      (f.node.addr, f.node.port) ≠ (srv.node.addr, srv.node.port)) ∧
    (srv.Discovered → srv.node.id = getAddressId L srv.node.addr srv.node.port)
  := by
  have hinv := h.tableInv
  constructor
  · intro f hf
    obtain ⟨hnode, hother⟩ := hinv.fingers f hf
    constructor
    · rw [hnode]
      rfl
    · intro heq
      rw [Prod.mk.injEq] at heq
      apply hother
      rw [Node.peer, Node.peer, heq.1, heq.2]
  · intro hd
    rw [hinv.position hd]
    rfl

theorem reachable_position_sample :
  (sampleServer (samplePeer 1 0) [samplePeer 3 0]).flist.map (fun f => f.node.id.toNat) = [3] ∧
    (sampleServer (samplePeer 1 0) [samplePeer 3 0]).node.id
      = getAddressId sampleLibrary (samplePeer 1 0).addr (samplePeer 1 0).port
  := ⟨by decide, (reachable_position (sampleServer_reachable _ _)).2 (by decide)⟩

/-! ### The range of a server -/

/-- The server owns the interval from the bound of its range. -/
theorem TableInv.chordIdIsLocal_iff (h : TableInv L srv) {x : ChordID} :
  chordIdIsLocal srv x = true ↔
    ChordID.arc (ownBound srv) x ≤ ChordID.arc (ownBound srv) srv.node.id
  := by
  rw [Tangent.chordIdIsLocal_iff, h.bound]

/-- A server without a predecessor other than itself owns the whole circle. -/
theorem TableInv.chordIdIsLocal_of_bound_eq (h : TableInv L srv) (hb : ownBound srv = srv.node.id)
    (x : ChordID) :
  chordIdIsLocal srv x = true
  := by
  rw [h.chordIdIsLocal_iff, hb, ChordID.arc_self]
  apply ChordID.arc_le

/-- In every reachable state `predBound` is the identifier of the last active finger, or
the server's own if there is none; so an identifier is local if and only if there is no
active finger, or it lies in the clockwise interval from the predecessor to the server. -/
theorem reachable_ownership (h : Reachable L srv) :
  (∀ f, (srv.flist.filter Finger.isActive).getLast? = some f → srv.predBound = f.node.id) ∧
    (srv.flist.filter Finger.isActive = [] → srv.predBound = srv.node.id) ∧
    ∀ x, chordIdIsLocal srv x = true ↔
      srv.flist.filter Finger.isActive = [] ∨
        ∃ p, predFinger srv = some p ∧
          ChordID.arc p.node.id x ≤ ChordID.arc p.node.id srv.node.id
  := by
  have hinv := h.tableInv
  have hpred : predFinger srv = (srv.flist.filter Finger.isActive).getLast? := by
    rw [predFinger, List.getLast?_filter]
  have hsome : ∀ f, predFinger srv = some f → ownBound srv = f.node.id := by
    intro f hf
    rw [ownBound_eq, hf]
    rfl
  have hnone : srv.flist.filter Finger.isActive = [] → ownBound srv = srv.node.id := by
    intro hnil
    rw [ownBound_eq, hpred, hnil]
    rfl
  refine ⟨?_, ?_, ?_⟩
  · intro f hf
    rw [hinv.bound, hsome f (hpred.trans hf)]
  · intro hnil
    rw [hinv.bound, hnone hnil]
  · intro x
    constructor
    · intro hx
      by_cases hnil : srv.flist.filter Finger.isActive = []
      · exact .inl hnil
      · right
        obtain ⟨p, hp⟩ := Option.isSome_iff_exists.mp (List.getLast?_isSome.mpr hnil)
        use p, hpred.trans hp
        rw [hinv.chordIdIsLocal_iff, hsome p (hpred.trans hp)] at hx
        exact hx
    · rintro (hnil | ⟨p, hp, hx⟩)
      · apply hinv.chordIdIsLocal_of_bound_eq (hnone hnil)
      · rw [hinv.chordIdIsLocal_iff, hsome p hp]
        exact hx

theorem reachable_ownership_sample :
  (sampleServer (samplePeer 4 0) [samplePeer 3 0, samplePeer 9 0]).predBound.toNat = 3 ∧
    ∀ x, chordIdIsLocal (sampleServer (samplePeer 4 0) [samplePeer 3 0, samplePeer 9 0]) x = true ↔
      (sampleServer (samplePeer 4 0) [samplePeer 3 0, samplePeer 9 0]).flist.filter
          Finger.isActive = [] ∨
        ∃ p, predFinger (sampleServer (samplePeer 4 0) [samplePeer 3 0, samplePeer 9 0]) = some p ∧
          ChordID.arc p.node.id x ≤ ChordID.arc p.node.id
            (sampleServer (samplePeer 4 0) [samplePeer 3 0, samplePeer 9 0]).node.id
  := ⟨by decide, (reachable_ownership (sampleServer_reachable _ _)).2.2⟩

/-! ### Exclusive ownership -/

/-- The active fingers are at most as far from the server as its predecessor. -/
theorem TableInv.arc_le_ownBound (h : TableInv L srv) {id : ChordID} (hid : id ∈ activeIds srv) :
  ChordID.arc srv.node.id id ≤ ChordID.arc srv.node.id (ownBound srv)
  := by
  obtain ⟨f, hf, rfl⟩ := List.mem_map.mp hid
  obtain ⟨hf, hactive⟩ := List.mem_filter.mp hf
  cases hp : predFinger srv with
  | none =>
      have := List.find?_eq_none.mp hp f (List.mem_reverse.mpr hf)
      exact absurd hactive this
  | some p =>
      rw [ownBound_eq, hp]
      apply AscendingBy.le_of_find?_reverse h.order hp hf hactive

/-- The server is its own bound if it has no active finger, or one under its own
identifier. -/
theorem TableInv.ownBound_eq_iff (h : TableInv L srv) :
  ownBound srv = srv.node.id ↔ activeIds srv = [] ∨ srv.node.id ∈ activeIds srv
  := by
  constructor
  · intro hb
    by_cases hnil : activeIds srv = []
    · exact .inl hnil
    · right
      rw [ownBound, List.getLast?_eq_some_getLast hnil, Option.getD_some] at hb
      rw [← hb]
      apply List.getLast_mem
  · rintro (hnil | hmem)
    · rw [ownBound, hnil]
      rfl
    · have hle := h.arc_le_ownBound hmem
      have hge := ChordID.arc_le srv.node.id (ownBound srv)
      rw [ChordID.arc_self] at hle
      rw [← ChordID.arc_self srv.node.id] at hle hge
      exact ChordID.arc_inj.mp (le_antisymm hge hle)

/-- What is local to a server lies between any of its active fingers and the server, if no
active finger has the identifier of the server. -/
theorem TableInv.arc_le_of_local (h : TableInv L srv) {id x : ChordID}
    (hid : id ∈ activeIds srv) (hown : srv.node.id ∉ activeIds srv)
    (hx : chordIdIsLocal srv x = true) :
  ChordID.arc id x ≤ ChordID.arc id srv.node.id
  := by
  have hb : ownBound srv ≠ srv.node.id := by
    rw [ne_eq, h.ownBound_eq_iff]
    rintro (hnil | hmem)
    · rw [hnil] at hid
      cases hid
    · exact hown hmem
  apply ChordID.arc_le_of_le hb (h.arc_le_ownBound hid)
  exact h.chordIdIsLocal_iff.mp hx

/-- Two servers with different identifiers that hold each other as active fingers own
nothing in common if and only if neither holds an active finger under its own
identifier. -/
theorem exclusive_ownership_iff (hA : Reachable L A) (hB : Reachable L B)
    (hne : A.node.id ≠ B.node.id) (hAB : B.node.id ∈ activeIds A)
    (hBA : A.node.id ∈ activeIds B) :
  (∀ x, ¬ (chordIdIsLocal A x = true ∧ chordIdIsLocal B x = true)) ↔
    A.node.id ∉ activeIds A ∧ B.node.id ∉ activeIds B
  := by
  have hlocal : ∀ srv : ChordServer, chordIdIsLocal srv srv.node.id = true := by
    intro srv
    rw [chordIdIsLocal_iff]
  constructor
  · intro h
    constructor
    · intro hown
      have hall := hA.tableInv.chordIdIsLocal_of_bound_eq
        (hA.tableInv.ownBound_eq_iff.mpr (.inr hown))
      exact h B.node.id ⟨hall _, hlocal B⟩
    · intro hown
      have hall := hB.tableInv.chordIdIsLocal_of_bound_eq
        (hB.tableInv.ownBound_eq_iff.mpr (.inr hown))
      exact h A.node.id ⟨hlocal A, hall _⟩
  · rintro ⟨hownA, hownB⟩ x ⟨hxA, hxB⟩
    have hleA := hA.tableInv.arc_le_of_local hAB hownA hxA
    have hleB := hB.tableInv.arc_le_of_local hBA hownB hxB
    exact ChordID.not_arc_le_of_arc_le hne.symm hleA hleB

theorem exclusive_ownership_iff_sample :
  (∀ x, ¬ (chordIdIsLocal (sampleServer (samplePeer 1 0) [samplePeer 2 0, samplePeer 9 0]) x = true
      ∧ chordIdIsLocal (sampleServer (samplePeer 2 0) [samplePeer 1 0]) x = true)) ↔
    (sampleServer (samplePeer 1 0) [samplePeer 2 0, samplePeer 9 0]).node.id
        ∉ activeIds (sampleServer (samplePeer 1 0) [samplePeer 2 0, samplePeer 9 0]) ∧
      (sampleServer (samplePeer 2 0) [samplePeer 1 0]).node.id
        ∉ activeIds (sampleServer (samplePeer 2 0) [samplePeer 1 0])
  := exclusive_ownership_iff (sampleServer_reachable _ _) (sampleServer_reachable _ _)
      (by decide) (by decide) (by decide)

/-- A server that got a pong from a peer under its own identifier owns the whole circle,
and so shares a range with a server that holds it as an active finger and that it holds as
an active finger. -/
theorem shared_ownership_of_collision :
  ∃ A B x, Reachable sampleLibrary A ∧ Reachable sampleLibrary B ∧ A.node.id ≠ B.node.id ∧
    (∃ f ∈ A.flist, f.isActive = true ∧ f.node = B.node) ∧
    (∃ f ∈ B.flist, f.isActive = true ∧ f.node = A.node) ∧
    chordIdIsLocal A x = true ∧ chordIdIsLocal B x = true
  := by
  use sampleServer (samplePeer 1 0) [samplePeer 2 0, samplePeer 1 1],
    sampleServer (samplePeer 2 0) [samplePeer 1 0], (samplePeer 2 0).node sampleLibrary |>.id
  refine ⟨sampleServer_reachable _ _, sampleServer_reachable _ _, ?_⟩
  decide

end Tangent

import Mathlib.Tactic.FinCases
import Tangent.Clockwise.Ring
import Tangent.Routing.Hop

/-!
# Delivery in a stable ring

In a ring of servers whose active fingers are in the ring and whose successors and
predecessors are the true ones, every identifier is local to one server, the first at or
clockwise after it, and a data packet that may be forwarded as often as there are servers
is handled there and nowhere else.
-/

namespace Tangent

variable {ι : Type*}

/-- Members with distinct identifiers, placed on the circle of identifiers. -/
def placement {id : ι → ChordID} (ids : Function.Injective id) :
    Clockwise.Placement (2 ^ chordIdBits) ι where
  pos i := (id i).toNat
  pos_lt i := (id i).toNat_lt
  pos_injective := ChordID.toNat_injective.comp ids

/-- The server `i` is the first at or clockwise after `id`. -/
def IsOwner (σ : ι → ChordServer) (id : ChordID) (i : ι) : Prop :=
  ∀ k, ChordID.gap id (σ i).node.id ≤ ChordID.gap id (σ k).node.id

instance [Fintype ι] (σ : ι → ChordServer) (id : ChordID) (i : ι) :
    Decidable (IsOwner σ id i) :=
  inferInstanceAs (Decidable (∀ _, _))

/-- Servers that know their addresses, with distinct identifiers, whose active fingers are
among them and whose successors are the true ones. -/
structure LookupRing (L : Library) (σ : ι → ChordServer) : Prop where
  inv : ∀ i, TableInv L (σ i)
  discovered : ∀ i, (σ i).Discovered
  ids : Function.Injective fun i => (σ i).node.id
  active : ∀ i, ∀ f ∈ (σ i).flist, f.isActive = true → ∃ j, f.node = (σ j).node
  succ : ∀ i j, (placement ids).IsSucc i j →
    (succFinger (σ i)).map (·.node) = some (σ j).node

/-- A ring whose predecessors are the true ones as well. -/
structure StableRing (L : Library) (σ : ι → ChordServer) : Prop extends LookupRing L σ where
  pred : ∀ i j, (placement ids).IsPred i j →
    (predFinger (σ i)).map (·.node) = some (σ j).node

variable {L : Library} {σ : ι → ChordServer} {id : ChordID} {i j o : ι} {f : Finger}

/-! ### Owners -/

theorem isOwner_iff (ids : Function.Injective fun i => (σ i).node.id) :
  IsOwner σ id i ↔ (placement ids).IsOwner id.toNat i
  := Iff.rfl

theorem LookupRing.exists_isOwner [Finite ι] [Nonempty ι] (h : LookupRing L σ) (id : ChordID) :
  ∃ i, IsOwner σ id i
  := (placement h.ids).exists_isOwner id.toNat

theorem LookupRing.isOwner_unique (h : LookupRing L σ) (hi : IsOwner σ id i)
    (hj : IsOwner σ id j) :
  i = j
  := by
  rw [isOwner_iff h.ids] at hi hj
  apply hi.unique id.toNat_lt hj

/-- A server other than the owner is nearer to the identifier, walking clockwise. -/
theorem LookupRing.arc_lt_of_isOwner (h : LookupRing L σ) (ho : IsOwner σ id o) (hi : i ≠ o) :
  ChordID.arc (σ i).node.id id < ChordID.arc (σ o).node.id id
  := by
  rw [isOwner_iff h.ids] at ho
  apply ho.arc_lt id.toNat_lt hi

/-- A server in a ring of its own has no active finger. -/
theorem LookupRing.activeIds_eq_nil [Subsingleton ι] (h : LookupRing L σ) (i : ι) :
  activeIds (σ i) = []
  := by
  apply List.map_eq_nil_iff.mpr
  apply List.filter_eq_nil_iff.mpr
  intro f hf hactive
  obtain ⟨j, hj⟩ := h.active i f hf hactive
  apply ((h.inv i).fingers f hf).2
  rw [hj, Subsingleton.elim j i]

/-- The successor owns the identifiers between the server and it. -/
theorem LookupRing.isOwner_succ [Finite ι] (h : LookupRing L σ)
    (hf : succFinger (σ i) = some f)
    (hid : ChordID.arc (σ i).node.id id ≤ ChordID.arc (σ i).node.id f.node.id) :
  ∃ j, f.node = (σ j).node ∧ IsOwner σ id j
  := by
  obtain ⟨hmem, hactive⟩ := succFinger_mem hf
  obtain ⟨k, hk⟩ := h.active i f hmem hactive
  have hki : k ≠ i := by
    rintro rfl
    apply ((h.inv k).fingers f hmem).2
    rw [hk]
  obtain ⟨j, hj⟩ := (placement h.ids).exists_isSucc hki
  have hnode := h.succ i j hj
  rw [hf, Option.map_some, Option.some.injEq] at hnode
  use j, hnode
  rw [isOwner_iff h.ids]
  apply hj.isOwner id.toNat_lt
  rw [hnode] at hid
  exact hid

/-- An identifier is local to a server of a stable ring if and only if the server is its
owner. -/
theorem StableRing.chordIdIsLocal_iff [Finite ι] (h : StableRing L σ) :
  chordIdIsLocal (σ i) id = true ↔ IsOwner σ id i
  := by
  by_cases halone : ∃ k, k ≠ i
  · obtain ⟨k, hk⟩ := halone
    obtain ⟨j, hj⟩ := (placement h.ids).exists_isPred hk
    obtain ⟨p, hp, hnode⟩ := Option.map_eq_some_iff.mp (h.pred i j hj)
    have hb : ownBound (σ i) = (σ j).node.id := by
      rw [ownBound_eq, hp, Option.map_some, Option.getD_some, hnode]
    rw [(h.inv i).chordIdIsLocal_iff, hb, isOwner_iff h.ids, ← hj.owner_iff id.toNat_lt]
    rfl
  · have : Subsingleton ι := by
      constructor
      intro a b
      rw [not_exists] at halone
      rw [not_not.mp (halone a), not_not.mp (halone b)]
    constructor
    · intro _ k
      rw [Subsingleton.elim k i]
    · intro _
      apply (h.inv i).chordIdIsLocal_of_bound_eq
      apply (h.inv i).ownBound_eq_iff.mpr
      exact .inl (h.activeIds_eq_nil i)

/-! ### Hops -/

/-- A hop count from two up, which fits a byte, is decremented on the way. -/
theorem ttl_sub_one {ttl : UInt32} (h₂ : 2 ≤ ttl.toNat) (h₂₅₅ : ttl.toNat ≤ 255) :
  ttl - 1 ≠ 0 ∧ (ttl - 1).toUInt8.toUInt32.toNat = ttl.toNat - 1
  := by
  have hle : (1 : UInt32) ≤ ttl := by
    rw [UInt32.le_iff_toNat_le]
    exact le_trans (by decide) h₂
  have hsub : (ttl - 1).toNat = ttl.toNat - 1 := UInt32.toNat_sub_of_le _ _ hle
  constructor
  · intro heq
    rw [heq] at hsub
    simp only [UInt32.toNat_zero] at hsub
    omega
  · rw [UInt8.toNat_toUInt32, UInt32.toNat_toUInt8, hsub]
    omega

section Hops

variable [Fintype ι]

/-- A bound on the number of hops a data packet for `id` takes from the server `i`. -/
def hopsLeft (σ : ι → ChordServer) (id : ChordID) (i : ι) (last : Bool) : ℕ :=
  if IsOwner σ id i then 0
  else if last then Clockwise.rank (fun k => ChordID.gap id (σ k).node.id) i
  else Clockwise.rank (fun k => ChordID.arc (σ k).node.id id) i + 1

/-- There are fewer hops than servers. -/
theorem LookupRing.hopsLeft_lt (h : LookupRing L σ) (id : ChordID) (i : ι) (last : Bool) :
  hopsLeft σ id i last < Fintype.card ι
  := by
  have : Nonempty ι := ⟨i⟩
  obtain ⟨o, ho⟩ := h.exists_isOwner id
  rw [hopsLeft]
  split
  · apply Fintype.card_pos
  · rename_i hi
    split
    · apply Clockwise.rank_lt_card
    · have hio : i ≠ o := by
        rintro rfl
        exact hi ho
      have hlt := Clockwise.rank_lt_rank (f := fun k => ChordID.arc (σ k).node.id id)
        (h.arc_lt_of_isOwner ho hio)
      have hcard := Clockwise.rank_lt_card (fun k => ChordID.arc (σ k).node.id id) o
      omega

/-- Every hop leaves fewer hops. -/
theorem StableRing.hopsLeft_lt_of_nextHop (h : StableRing L σ) {last last' : Bool}
    (hid : chordIdIsLocal (σ i) id = false) (hop : NextHop (σ i) id last f last') :
  ∃ j, f.node = (σ j).node ∧ hopsLeft σ id j last' < hopsLeft σ id i last
  := by
  have hi : ¬ IsOwner σ id i := by
    rw [← h.chordIdIsLocal_iff, hid]
    simp
  obtain ⟨hmem, hactive⟩ := hop.mem
  cases hop with
  | succ found owned =>
      obtain ⟨j, hj, howner⟩ := h.isOwner_succ found owned
      use j, hj
      rw [hopsLeft, hopsLeft, if_pos howner, if_neg hi]
      apply Nat.succ_pos
  | pred found bound =>
      obtain ⟨j, hj⟩ := h.active i f hmem hactive
      use j, hj
      have hlt := ((NextHop.pred found bound : NextHop (σ i) id _ _ _).gap_lt hid rfl).2
      rw [hj] at hlt
      rw [hopsLeft, hopsLeft, if_neg hi, if_pos rfl, if_pos rfl]
      have hrank := Clockwise.rank_lt_rank (f := fun k => ChordID.gap id (σ k).node.id) hlt
      split
      · omega
      · exact hrank
  | preceding found =>
      obtain ⟨j, hj⟩ := h.active i f hmem hactive
      use j, hj
      have hlt := (NextHop.preceding found).arc_lt rfl
      rw [hj] at hlt
      have hrank := Clockwise.rank_lt_rank (f := fun k => ChordID.arc (σ k).node.id id) hlt
      rw [hopsLeft, hopsLeft, if_neg hi]
      simp only [Bool.false_eq_true, if_false]
      split
      · omega
      · omega

end Hops

/-! ### Delivery -/

/-- A data packet that arrives at `i` is handled at `o`: either `i` handles it and does
nothing else, or `i` sends one copy of it to another server and does nothing else, and the
copy is handled at `o`. -/
inductive Handled (σ : ι → ChordServer) (id : ChordID) : ι → Data → ι → Prop where
  | here {i : ι} {msg : Data}
      (upcall : ∀ io frm, processData io (σ i) msg frm
        = .ok ⟨σ i, [.upcall id msg.data], .noError⟩) :
      Handled σ id i msg i
  | forward {i j o : ι} {msg m : Data}
      (sent : ∀ io frm, processData io (σ i) msg frm
        = .ok ⟨σ i, [.send ⟨(σ j).node.addr, (σ j).node.port, .data m⟩], .noError⟩)
      (onward : Handled σ id j m o) :
      Handled σ id i msg o

theorem processData_eq {io : Io} {srv : ChordServer} {msg : Data} {frm : Node}
    (hd : srv.Discovered) (hid : chordIdSet msg.id io.behind = .ok id)
    (httl : msg.ttl - 1 ≠ 0) :
  processData io srv msg frm
    = .ok ⟨srv,
        if chordIdIsLocal srv id then [.upcall id msg.data]
        else sendData [] (nextRouteNode srv id msg.last).2 (msg.ttl - 1).toUInt8
          (nextRouteNode srv id msg.last).1 id msg.data,
        .noError⟩
  := by
  rw [ChordServer.Discovered] at hd
  simp only [processData, hid, Except.ok_bind, hd, httl, if_false, Bool.false_eq_true]
  split <;> rfl

/-- A packet with enough hops left is handled at the owner of its target. -/
theorem StableRing.handled [Fintype ι] (h : StableRing L σ) (ho : IsOwner σ id o) {msg : Data}
    (hid : ∀ io : Io, fieldId msg.id io.behind = id)
    (hops : hopsLeft σ id i msg.last + 2 ≤ msg.ttl.toNat) (h₂₅₅ : msg.ttl.toNat ≤ 255) :
  Handled σ id i msg o
  := by
  induction hn : hopsLeft σ id i msg.last using Nat.strong_induction_on generalizing i msg with
  | _ n ih =>
      obtain ⟨httl, httl'⟩ := ttl_sub_one (by omega) h₂₅₅
      have hne : msg.id ≠ [] := ne_nil_of_fieldId fun behind => hid { sampleIo with behind }
      have hcopy : ∀ io : Io, chordIdSet msg.id io.behind = .ok id :=
        fun io => chordIdSet_eq_ok.mpr ⟨hne, hid io⟩
      cases hlocal : chordIdIsLocal (σ i) id with
      | true =>
          obtain rfl := h.isOwner_unique (h.chordIdIsLocal_iff.mp hlocal) ho
          apply Handled.here
          intro io frm
          rw [processData_eq (h.discovered i) (hcopy io) httl, if_pos hlocal]
      | false =>
          obtain ⟨g, last', hroute, hop⟩ := (h.inv i).nextRouteNode_eq hlocal msg.last
          obtain ⟨j, hj, hlt⟩ := h.hopsLeft_lt_of_nextHop hlocal hop
          apply Handled.forward
          · intro io frm
            rw [processData_eq (h.discovered i) (hcopy io) httl, hlocal, hroute, hj]
            rfl
          · apply ih (hopsLeft σ id j last') (by omega)
            · intro io
              apply fieldId_x
            · simp only [httl']
              omega
            · simp only [httl']
              omega
            · rfl

/-- A packet is handled only where its target is local. -/
theorem Handled.chordIdIsLocal {msg : Data} (h : Handled σ id i msg o) :
  chordIdIsLocal (σ o) id = true
  := by
  induction h with
  | here upcall =>
      have hup := upcall sampleIo ⟨0, 0, 0⟩
      obtain ⟨ret, -, -, heq⟩ | ⟨-, -, hlocal, heq⟩ | ⟨-, -, -, heq⟩ := processData_cases hup
      · cases heq
      · rw [Outcome.mk.injEq] at heq
        cases heq.2.1
        exact hlocal
      · cases heq
  | forward sent onward ih => exact ih

/-- In a stable ring every identifier is local to exactly one server, the first at or
clockwise after it, and a data packet for it, starting at any server with either flag and
with one more hop allowed than there are servers, is handled at that server and nowhere
else. -/
theorem delivery_to_owner [Fintype ι] [Nonempty ι] (h : StableRing L σ) (id : ChordID) :
  (∃! i, chordIdIsLocal (σ i) id = true) ∧
    (∀ i, chordIdIsLocal (σ i) id = true ↔ IsOwner σ id i) ∧
    ∀ i (msg : Data), (∀ io : Io, fieldId msg.id io.behind = id) →
      Fintype.card ι + 1 ≤ msg.ttl.toNat → msg.ttl.toNat ≤ 255 →
      ∀ o, Handled σ id i msg o ↔ IsOwner σ id o
  := by
  refine ⟨?_, ?_, ?_⟩
  · obtain ⟨o, ho⟩ := h.exists_isOwner id
    use o, h.chordIdIsLocal_iff.mpr ho
    intro i hi
    apply h.isOwner_unique (h.chordIdIsLocal_iff.mp hi) ho
  · intro i
    apply h.chordIdIsLocal_iff
  · intro i msg hid httl h₂₅₅ o
    constructor
    · intro hh
      apply h.chordIdIsLocal_iff.mp hh.chordIdIsLocal
    · intro ho
      have hlt := h.hopsLeft_lt id i msg.last
      apply h.handled ho hid (by omega) h₂₅₅

/-- Three servers that know one another. -/
def sampleRing : Fin 3 → ChordServer
  | 0 => sampleServer (samplePeer 10 0) [samplePeer 20 0, samplePeer 30 0]
  | 1 => sampleServer (samplePeer 20 0) [samplePeer 10 0, samplePeer 30 0]
  | 2 => sampleServer (samplePeer 30 0) [samplePeer 10 0, samplePeer 20 0]

theorem sampleRing_reachable (i : Fin 3) :
  Reachable sampleLibrary (sampleRing i)
  := by
  fin_cases i <;> apply sampleServer_reachable

theorem sampleRing_stable :
  StableRing sampleLibrary sampleRing
  where
  inv i := (sampleRing_reachable i).tableInv
  discovered := by decide
  ids := by decide
  active := by decide
  succ := by decide
  pred := by decide

/-- The data packet for the identifier `25` that enters at the first server is handled at the
third. -/
theorem delivery_to_owner_sample :
  Handled sampleRing ((samplePeer 25 0).node sampleLibrary).id 0
    ⟨((samplePeer 25 0).node sampleLibrary).id.x, 4, false, [1, 2, 3]⟩ 2
  := by
  apply ((delivery_to_owner sampleRing_stable _).2.2 0 _ _ _ _ 2).mpr
  · decide
  · intro io
    apply fieldId_x
  · decide
  · decide

/-- A server alone in its ring that does not know its address yet. -/
def sampleAlone : Fin 1 → ChordServer
  | 0 => newServer (sampleConfig (samplePeer 10 0))

theorem sampleAlone_reachable (i : Fin 1) :
  Reachable sampleLibrary (sampleAlone i)
  := by
  fin_cases i
  exact ⟨_, [], rfl⟩

/-- A server alone in its ring, with neither fingers nor a predecessor, drops the packets for
the identifiers that are local to it as long as it does not know its address. -/
theorem undiscovered_server_handles_nothing :
  (∀ i, Reachable sampleLibrary (sampleAlone i)) ∧
    (∀ i, (sampleAlone i).flist = [] ∧ succFinger (sampleAlone i) = none ∧
      predFinger (sampleAlone i) = none ∧
      (sampleAlone i).predBound = (sampleAlone i).node.id) ∧
    IsOwner sampleAlone ((samplePeer 25 0).node sampleLibrary).id 0 ∧
    chordIdIsLocal (sampleAlone 0) ((samplePeer 25 0).node sampleLibrary).id = true ∧
    ¬ Handled sampleAlone ((samplePeer 25 0).node sampleLibrary).id 0
      ⟨((samplePeer 25 0).node sampleLibrary).id.x, 2, false, [1, 2, 3]⟩ 0
  := by
  refine ⟨sampleAlone_reachable, by decide, by decide, by decide, ?_⟩
  intro h
  cases h with
  | here upcall =>
      have hdrop := upcall sampleIo ⟨0, 0, 0⟩
      cases hdrop
  | forward sent onward =>
      have hdrop := sent sampleIo ⟨0, 0, 0⟩
      cases hdrop

end Tangent

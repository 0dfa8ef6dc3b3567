import Tangent.Routing.Hop

/-!
# The searches in the finger list

`succ_finger`, `pred_finger` and `closest_preceding_finger` return the first finger they meet.
As the list is in ring order, this is the nearest finger to the server, the nearest one from
behind, and the nearest one to the target.  A finger filed under the identifier of the server
itself is the last one of the list, a whole turn away.
-/

namespace Tangent

variable {L : Library} {srv : ChordServer} {id : ChordID} {f : Finger} {fall : Bool}

/-- The finger may be used: all fingers may if `fall` is set, else the active ones. -/
def Eligible (fall : Bool) (f : Finger) : Prop :=
  fall = true ∨ f.isActive = true

/-- There is a closest preceding finger unless no eligible finger precedes the target. -/
theorem closestPrecedingFinger_eq_none_iff :
  closestPrecedingFinger srv id fall = none ↔
    ∀ g ∈ srv.flist, Eligible fall g → ¬ idIsBetween g.node.id srv.node.id id
  := by
  simp [closestPrecedingFinger, List.find?_eq_none, Eligible]

/-- The closest preceding finger is the eligible finger between the server and the target with
no eligible finger between it and the target. -/
theorem RingOrder.closestPrecedingFinger_eq_some_iff (h : RingOrder srv) :
  closestPrecedingFinger srv id fall = some f ↔
    f ∈ srv.flist ∧ Eligible fall f ∧ idIsBetween f.node.id srv.node.id id ∧
      ∀ g ∈ srv.flist, Eligible fall g → ¬ idIsBetween g.node.id f.node.id id
  := by
  rw [closestPrecedingFinger, AscendingBy.find?_reverse_eq_some_iff h]
  simp only [Bool.and_eq_true, Bool.or_eq_true, and_assoc]
  refine and_congr_right fun hmem => and_congr_right fun heligible =>
    and_congr_right fun hbetween => ?_
  rw [idIsBetween_iff] at hbetween
  refine forall₂_congr fun g hg => ?_
  rw [and_imp, Eligible, idIsBetween_iff, idIsBetween_iff, ChordID.arc_lt_iff_of_lt hbetween,
    not_and', not_lt]
  rfl

theorem succFinger_eq_none_iff_forall :
  succFinger srv = none ↔ ∀ g ∈ srv.flist, g.isActive = false
  := by
  simp [succFinger, List.find?_eq_none]

/-- The successor is the active finger with no active finger between the server and it. -/
theorem RingOrder.succFinger_eq_some_iff (h : RingOrder srv) :
  succFinger srv = some f ↔
    f ∈ srv.flist ∧ f.isActive = true ∧
      ∀ g ∈ srv.flist, g.isActive = true → ¬ idIsBetween g.node.id srv.node.id f.node.id
  := by
  rw [succFinger, AscendingBy.find?_eq_some_iff h]
  simp only [idIsBetween_iff, not_lt]
  rfl

theorem predFinger_eq_none_iff_forall :
  predFinger srv = none ↔ ∀ g ∈ srv.flist, g.isActive = false
  := by
  simp [predFinger, List.find?_eq_none]

/-- The predecessor is the last active finger in ring order. -/
theorem RingOrder.predFinger_eq_some_iff (h : RingOrder srv) :
  predFinger srv = some f ↔
    f ∈ srv.flist ∧ f.isActive = true ∧
      ∀ g ∈ srv.flist, g.isActive = true → ringKey srv g ≤ ringKey srv f
  := AscendingBy.find?_reverse_eq_some_iff h

/-- Unless the predecessor has the identifier of the server, no active finger lies between it and
the server. -/
theorem RingOrder.not_between_predFinger (h : RingOrder srv) (hf : predFinger srv = some f)
    (hne : f.node.id ≠ srv.node.id) :
  ∀ g ∈ srv.flist, g.isActive = true → ¬ idIsBetween g.node.id f.node.id srv.node.id
  := by
  obtain ⟨-, -, hlast⟩ := h.predFinger_eq_some_iff.mp hf
  have hlt : ChordID.arc srv.node.id f.node.id < ChordID.arc srv.node.id srv.node.id := by
    rw [ChordID.arc_self, ChordID.arc_lt_iff_ne]
    exact hne.symm
  intro g hg hactive hbetween
  rw [idIsBetween_iff, ChordID.arc_lt_iff_of_lt hlt] at hbetween
  exact absurd hbetween.1 (not_lt.mpr (hlast g hg hactive))

/-- The searches find what is nearest on the ring.  No active finger lies between the predecessor
and the server, unless it has the server's own identifier.  `closest_preceding_node` does not
return the server itself where `process_fs` and `process_data` call it: for a target that does not
belong to the successor, and for one that is not local. -/
structure FindsNearest (L : Library) (srv : ChordServer) : Prop where
  preceding_none (id : ChordID) (fall : Bool) : closestPrecedingFinger srv id fall = none ↔
    ∀ g ∈ srv.flist, Eligible fall g → ¬ idIsBetween g.node.id srv.node.id id
  preceding (id : ChordID) (fall : Bool) (f : Finger) :
    closestPrecedingFinger srv id fall = some f ↔
      f ∈ srv.flist ∧ Eligible fall f ∧ idIsBetween f.node.id srv.node.id id ∧
        ∀ g ∈ srv.flist, Eligible fall g → ¬ idIsBetween g.node.id f.node.id id
  succ_none : succFinger srv = none ↔ ∀ g ∈ srv.flist, g.isActive = false
  succ (f : Finger) : succFinger srv = some f ↔
    f ∈ srv.flist ∧ f.isActive = true ∧
      ∀ g ∈ srv.flist, g.isActive = true → ¬ idIsBetween g.node.id srv.node.id f.node.id
  pred_none : predFinger srv = none ↔ ∀ g ∈ srv.flist, g.isActive = false
  pred (f : Finger) : predFinger srv = some f ↔
    f ∈ srv.flist ∧ f.isActive = true ∧
      ∀ g ∈ srv.flist, g.isActive = true → ringKey srv g ≤ ringKey srv f
  pred_between (f : Finger) : predFinger srv = some f → f.node.id ≠ srv.node.id →
    ∀ g ∈ srv.flist, g.isActive = true → ¬ idIsBetween g.node.id f.node.id srv.node.id
  lookup (id : ChordID) (s : Finger) : succFinger srv = some s →
    (idIsBetween id srv.node.id s.node.id || idEquals id s.node.id) = false →
    ∃ g ∈ srv.flist, closestPrecedingFinger srv id false = some g
  process_fs {io : Io} {msg m : FindSuccessor} {frm : Node} {out : Outcome} {addr : In6Addr}
      {port : UInt16} : processFs L io srv msg frm = .ok out →
    .send ⟨addr, port, .fs m⟩ ∈ out.acts →
    ∃ g ∈ srv.flist, closestPrecedingFinger srv ((msg.requester io).node L).id false = some g ∧
      g.node.addr = addr ∧ g.node.port = port
  process_data (id : ChordID) (last : Bool) : chordIdIsLocal srv id = false →
    ∃ g ∈ srv.flist, ∃ last', nextRouteNode srv id last = (g.node, last') ∧
      NextHop srv id last g last'

/-- In every reachable state the searches find what is nearest on the ring. -/
theorem searches_find_nearest (h : Reachable L srv) :
  FindsNearest L srv
  := by
  have hinv := h.tableInv
  have horder := hinv.order
  constructor
  case preceding_none => exact fun id fall => closestPrecedingFinger_eq_none_iff
  case preceding => exact fun id fall f => horder.closestPrecedingFinger_eq_some_iff
  case succ_none => exact succFinger_eq_none_iff_forall
  case succ => exact fun f => horder.succFinger_eq_some_iff
  case pred_none => exact predFinger_eq_none_iff_forall
  case pred => exact fun f => horder.predFinger_eq_some_iff
  case pred_between => exact fun f hf hne => horder.not_between_predFinger hf hne
  case lookup =>
    intro id s hs hid
    rw [Bool.eq_false_iff, ne_eq, between_or_equals_iff] at hid
    obtain ⟨g, hg, -⟩ := exists_closestPrecedingFinger hs hid
    exact ⟨g, (closestPrecedingFinger_mem hg).1, hg⟩
  case process_fs =>
    intro io msg m frm out addr port ho hsend
    obtain ⟨g, hg, hto⟩ := processFs_send ho hsend
    exact ⟨g, (closestPrecedingFinger_mem hg).1, hg, hto⟩
  case process_data =>
    intro id last hlocal
    obtain ⟨g, last', hnext, hop⟩ := hinv.nextRouteNode_eq hlocal last
    exact ⟨g, hop.mem.1, last', hnext, hop⟩

/-- The server at `10` with active fingers for the peers at `20` and `30`: the second one is its
predecessor, and the closest preceding finger for the target `25` is the first one. -/
theorem searches_find_nearest_sample :
  ∃ p g, predFinger (sampleServer (samplePeer 10 0) [samplePeer 20 0, samplePeer 30 0]) = some p ∧
    (∀ f ∈ (sampleServer (samplePeer 10 0) [samplePeer 20 0, samplePeer 30 0]).flist,
      f.isActive = true → ¬ idIsBetween f.node.id p.node.id
        (sampleServer (samplePeer 10 0) [samplePeer 20 0, samplePeer 30 0]).node.id) ∧
    closestPrecedingFinger (sampleServer (samplePeer 10 0) [samplePeer 20 0, samplePeer 30 0])
      ((samplePeer 25 0).node sampleLibrary).id false = some g ∧
    g.node = (samplePeer 20 0).node sampleLibrary
  := by
  have hnearest := searches_find_nearest
    (sampleServer_reachable (samplePeer 10 0) [samplePeer 20 0, samplePeer 30 0])
  refine ⟨⟨(samplePeer 30 0).node sampleLibrary, .active, 0, 0, 0⟩,
    ⟨(samplePeer 20 0).node sampleLibrary, .active, 0, 0, 0⟩, by decide, ?_, ?_, rfl⟩
  · apply hnearest.pred_between _ (by decide) (by decide)
  · rw [hnearest.preceding]
    unfold Eligible
    decide

/-- A peer whose address hashes to the server's own identifier is its predecessor, and the active
finger for another peer lies between the two, all the way round. -/
theorem pred_finger_own_id :
  ∃ srv f g, Reachable sampleLibrary srv ∧ predFinger srv = some f ∧ g ∈ srv.flist ∧
    g.isActive = true ∧ idIsBetween g.node.id f.node.id srv.node.id = true
  := by
  refine ⟨sampleServer (samplePeer 10 0) [samplePeer 20 0, samplePeer 10 1],
    ⟨(samplePeer 10 1).node sampleLibrary, .active, 0, 0, 0⟩,
    ⟨(samplePeer 20 0).node sampleLibrary, .active, 0, 0, 0⟩, sampleServer_reachable _ _, ?_⟩
  decide

end Tangent

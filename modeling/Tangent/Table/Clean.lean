import Mathlib.Data.List.DropRight
import Tangent.Thinning
import Tangent.Table.Invariant

/-!
# What cleaning leaves of the finger list

`clean_finger_list` walks from the last fingers to the first, while its powers of two go down.
Its comparisons of identifiers are comparisons of distances from the server, and what it removes
is what the pass of `Thinning` drops: the inner loop is one power of that pass
(`cleanRemove_of_hit`, `cleanRemove_of_lt`), the outer loop all of them (`cleanLoop_eq`).
-/

namespace Tangent

open Thinning

variable {srv srv' : ChordServer} {f g p s : Finger} {A fs gs l lo hi rest : List Finger}

/-! ### Identifiers in ring order -/

theorem ne_of_ringKey_lt (h : ringKey srv f < ringKey srv g) :
  g.node.id ≠ f.node.id
  := by
  intro hid
  simp [ringKey, hid] at h

/-- Only the last finger of a list can have the identifier of the server. -/
theorem ne_node_of_ringKey_lt (h : ringKey srv f < ringKey srv g) :
  f.node.id ≠ srv.node.id
  := by
  apply Ne.symm
  apply ChordID.arc_lt_iff_ne.mp
  exact lt_of_lt_of_le h (ChordID.arc_le _ _)

/-! ### The inner loop -/

/-- The test of the inner loop for the removal of `f`, with `p` the finger before it. -/
def notProper (id : ChordID) (f p : Finger) : Prop :=
  (idIsBetween p.node.id id f.node.id || idEquals p.node.id id) = true

/-- The inner loop removes the fingers `gs` in front of `p` if each of them fails its test. -/
theorem cleanRemove_append {lastsucc id : ChordID} (h : RingOrder srv)
    (hl : srv.flist = (gs ++ p :: fs).reverse ++ rest)
    (hgs : ∀ f ∈ gs, f.node.id ≠ lastsucc) (hrun : (gs ++ [p]).IsChain (notProper id)) :
  ∃ srv', cleanRemove lastsucc id (gs ++ p :: fs) srv = cleanRemove lastsucc id (p :: fs) srv' ∧
    srv'.flist = (p :: fs).reverse ++ rest ∧ srv'.node = srv.node
  := by
  induction gs generalizing srv with
  | nil => exact ⟨srv, rfl, hl, rfl⟩
  | cons f gs ih =>
      obtain ⟨q, qs, hq⟩ : ∃ q qs, gs ++ [p] = q :: qs :=
        List.exists_cons_of_ne_nil (by simp)
      have hlist : gs ++ p :: fs = q :: (qs ++ fs) := by
        rw [← List.cons_append, ← hq]
        simp
      rw [List.cons_append, hq, List.isChain_cons_cons] at hrun
      have hl' : srv.flist = (gs ++ p :: fs).reverse ++ f :: rest := by
        simpa using hl
      have hne := hgs f List.mem_cons_self
      have hflist := h.removeFinger_flist hl'
      have hnode := (removeFinger_sameNode srv f).1
      have horder := h.of_sublist hnode (by rw [hflist, hl']; simp)
      obtain ⟨srv', hrem, hrest, hnode'⟩ := ih horder hflist
        (fun g hg => hgs g (List.mem_cons_of_mem f hg)) (by rw [hq]; exact hrun.2)
      refine ⟨srv', ?_, hrest, hnode'.trans hnode⟩
      have htest : (idIsBetween q.node.id id f.node.id || idEquals q.node.id id) = true := hrun.1
      rw [← hrem, List.cons_append, hlist, cleanRemove, if_neg hne, if_pos htest]

/-- The test of the inner loop, in terms of the distance from the server. -/
theorem notProper_iff {id : ChordID} (hlt : ringKey srv p < ringKey srv f) :
  notProper id f p ↔
    ChordID.arc srv.node.id id ≤ ringKey srv p ∨ ringKey srv f ≤ ChordID.arc srv.node.id id
  := between_or_equals_iff_of_lt hlt

/-- The inner loop removes the fingers behind `p` if between no two neighbours from `p` on lies
the identifier it works on. -/
theorem cleanRemove_behind {lastsucc id : ChordID} (h : RingOrder srv)
    (hl : srv.flist = A ++ p :: hi ++ rest) (hhi : ∀ f ∈ hi, f.node.id ≠ lastsucc)
    (hx : (p :: hi).IsChain fun a b => ChordID.arc srv.node.id id ≤ ringKey srv a ∨
      ringKey srv b ≤ ChordID.arc srv.node.id id) :
  ∃ srv', cleanRemove lastsucc id (hi.reverse ++ p :: A.reverse) srv
      = cleanRemove lastsucc id (p :: A.reverse) srv' ∧
    srv'.flist = A ++ p :: rest ∧ srv'.node = srv.node
  := by
  have hasc : AscendingBy (ringKey srv) (p :: hi) := by
    apply AscendingBy.sublist h
    rw [hl]
    simp
  have hrun : (hi.reverse ++ [p]).IsChain (notProper id) := by
    rw [← List.reverse_cons, List.isChain_reverse]
    rw [List.isChain_iff_forall_rel_of_append_cons_cons] at hx ⊢
    intro a b l₁ l₂ heq
    have hlt := hasc.isChain
    rw [List.isChain_iff_forall_rel_of_append_cons_cons] at hlt
    exact (notProper_iff (hlt heq)).mpr (hx heq)
  have hl' : srv.flist = (hi.reverse ++ p :: A.reverse).reverse ++ rest := by
    simp [hl]
  obtain ⟨srv', hrem, hrest, hnode⟩ := cleanRemove_append h hl' (by simpa using hhi) hrun
  exact ⟨srv', hrem, by simpa using hrest, hnode⟩

/-- The inner loop stops at the last successor. -/
theorem cleanRemove_lastsucc {id : ChordID} :
  cleanRemove s.node.id id (s :: fs) srv = (srv, none)
  := by
  cases fs with
  | nil => rfl
  | cons p fs => simp [cleanRemove]

/-- If the identifier is that of a finger, the inner loop removes all fingers behind the last
successor, and the function returns. -/
theorem cleanRemove_of_hit {id : ChordID} (h : RingOrder srv)
    (hl : srv.flist = A ++ s :: l ++ rest) (hg : g ∈ s :: l)
    (hid : ringKey srv g = ChordID.arc srv.node.id id) :
  ∃ srv', cleanRemove s.node.id id (l.reverse ++ s :: A.reverse) srv = (srv', none) ∧
    srv'.flist = A ++ s :: rest ∧ srv'.node = srv.node
  := by
  have hasc : AscendingBy (ringKey srv) (s :: l) := by
    apply AscendingBy.sublist h
    rw [hl]
    simp
  have hne : ∀ f ∈ l, f.node.id ≠ s.node.id := by
    intro f hf
    exact ne_of_ringKey_lt ((List.pairwise_cons.mp hasc).1 f hf)
  have hchain := hasc.isChain_of_mem hg
  rw [hid] at hchain
  obtain ⟨srv', hrem, hrest, hnode⟩ := cleanRemove_behind h hl hne hchain
  rw [cleanRemove_lastsucc] at hrem
  exact ⟨srv', hrem, hrest, hnode⟩

/-- If the identifier lies between two neighbours, the inner loop keeps the second of them and
removes the fingers behind it. -/
theorem cleanRemove_of_lt {id : ChordID} (h : RingOrder srv)
    (hl : srv.flist = A ++ s :: (lo ++ g :: hi) ++ rest)
    (hs : ringKey srv s < ChordID.arc srv.node.id id)
    (hlo : ∀ f ∈ lo, ringKey srv f < ChordID.arc srv.node.id id)
    (hg : ChordID.arc srv.node.id id < ringKey srv g) :
  ∃ srv', cleanRemove s.node.id id ((lo ++ g :: hi).reverse ++ s :: A.reverse) srv
      = (srv', some (lo.reverse ++ s :: A.reverse)) ∧
    srv'.flist = A ++ s :: lo ++ g :: rest ∧ srv'.node = srv.node
  := by
  have hasc : AscendingBy (ringKey srv) (s :: (lo ++ g :: hi)) := by
    apply AscendingBy.sublist h
    rw [hl]
    simp
  obtain ⟨hsl, hasc'⟩ := List.pairwise_cons.mp hasc
  have hne : ∀ f ∈ lo ++ g :: hi, f.node.id ≠ s.node.id := by
    intro f hf
    exact ne_of_ringKey_lt (hsl f hf)
  have hchain := AscendingBy.isChain_of_le (List.pairwise_append.mp hasc').2.1 (le_of_lt hg)
  have hl' : srv.flist = (A ++ s :: lo) ++ g :: hi ++ rest := by
    simp [hl]
  obtain ⟨srv', hrem, hrest, hnode⟩ := cleanRemove_behind h hl'
    (fun f hf => hne f (by simp [hf])) hchain
  refine ⟨srv', ?_, by simpa using hrest, hnode⟩
  have hcur : (lo ++ g :: hi).reverse ++ s :: A.reverse
      = hi.reverse ++ g :: (A ++ s :: lo).reverse := by
    simp
  have hnext : lo.reverse ++ s :: A.reverse = (A ++ s :: lo).reverse := by
    simp
  rw [hcur, hrem, hnext]
  obtain ⟨ini, q, hq⟩ : ∃ ini q, s :: lo = ini ++ [q] :=
    ⟨_, _, (List.dropLast_append_getLast (List.cons_ne_nil s lo)).symm⟩
  have hback : (A ++ s :: lo).reverse = q :: (A ++ ini).reverse := by
    simp [hq]
  have hqlt : ringKey srv q < ChordID.arc srv.node.id id := by
    have hmem : q ∈ s :: lo := by
      simp [hq]
    rcases List.mem_cons.mp hmem with rfl | hmem
    · exact hs
    · exact hlo q hmem
  have hkeep : ¬ (idIsBetween q.node.id id g.node.id || idEquals q.node.id id) = true := by
    rw [between_or_equals_iff_of_lt (a := srv.node.id) (lt_trans hqlt hg)]
    rintro (hle | hle)
    · exact absurd hqlt (not_lt.mpr hle)
    · exact absurd hg (not_lt.mpr hle)
  rw [hback, cleanRemove, if_neg (hne g (by simp)), if_neg hkeep]

/-! ### The outer loop -/

/-- The tests of the outer loop, in terms of the distance from the server: the power is among the
predecessors, or before the last successor, or behind the finger reached. -/
theorem clean_pred_iff {k : ℕ} (hk : k < chordIdBits) (hp : p.node.id ≠ srv.node.id) :
  (idIsBetween (chordIdSuccessor srv.node.id k) p.node.id srv.node.id ||
      idEquals (chordIdSuccessor srv.node.id k) p.node.id) = true ↔ ringKey srv p ≤ 2 ^ k
  := by
  have hne := chordIdSuccessor_ne srv.node.id hk
  rw [between_or_equals_left_iff hp hne, arc_chordIdSuccessor srv.node.id hk, ringKey]

theorem clean_succ_iff {k : ℕ} (hk : k < chordIdBits) :
  (idIsBetween (chordIdSuccessor srv.node.id k) srv.node.id s.node.id ||
      idEquals (chordIdSuccessor srv.node.id k) srv.node.id) = true ↔ 2 ^ k < ringKey srv s
  := by
  have hne := chordIdSuccessor_ne srv.node.id hk
  rw [Bool.or_eq_true, idIsBetween_iff, idEquals_iff, arc_chordIdSuccessor srv.node.id hk,
    or_iff_left hne, ringKey]

theorem clean_behind_iff {k : ℕ} (hk : k < chordIdBits) :
  idIsBetween f.node.id srv.node.id (chordIdSuccessor srv.node.id k) = true ↔
    ringKey srv f < 2 ^ k
  := by
  rw [idIsBetween_iff, arc_chordIdSuccessor srv.node.id hk, ringKey]

/-- The outer loop leaves what the pass over the powers below `2 ^ k` leaves. -/
theorem cleanLoop_eq {k : ℕ} (hk : k ≤ chordIdBits) (h : RingOrder srv)
    (hl : srv.flist = A ++ s :: l ++ rest) (hp : p.node.id ≠ srv.node.id)
    (hlp : ∀ f ∈ l, ringKey srv f < ringKey srv p) (hlk : ∀ f ∈ l, ringKey srv f < 2 ^ k) :
  ∃ srv', cleanLoop s.node.id p.node.id k (l.reverse ++ s :: A.reverse) srv = .ok srv' ∧
    srv'.flist = A ++ s :: thinned (ringKey srv) k s l ++ rest ∧ srv'.node = srv.node
  := by
  induction k generalizing srv l rest with
  | zero => exact ⟨srv, rfl, by rw [thinned_zero, hl], rfl⟩
  | succ k ih =>
      have hk' : k < chordIdBits := hk
      have harc := arc_chordIdSuccessor srv.node.id hk'
      have hasc : AscendingBy (ringKey srv) (s :: l) := by
        apply AscendingBy.sublist h
        rw [hl]
        simp
      obtain ⟨hsl, hl'⟩ := List.pairwise_cons.mp hasc
      rcases List.eq_nil_or_concat' l with rfl | ⟨ini, f, rfl⟩
      · refine ⟨srv, ?_, by rw [thinned_nil, hl], rfl⟩
        rw [cleanLoop, if_pos (by simp)]
      have hfs : (ini ++ [f]).reverse ++ s :: A.reverse
          = f :: (ini.reverse ++ s :: A.reverse) := by
        simp
      have hf : f.node.id ≠ s.node.id := ne_of_ringKey_lt (hsl f (by simp))
      rw [cleanLoop, if_neg (by simpa using hf)]
      simp only
      by_cases hpred : ringKey srv p ≤ 2 ^ k
      · have hlt : ∀ g ∈ ini ++ [f], ringKey srv g < 2 ^ k :=
          fun g hg => lt_of_lt_of_le (hlp g hg) hpred
        rw [if_pos ((clean_pred_iff hk' hp).mpr hpred), thinned_succ_of_lt hlt]
        apply ih (le_of_lt hk') h hl hp hlp hlt
      rw [if_neg (mt (clean_pred_iff hk' hp).mp hpred)]
      by_cases hsucc : 2 ^ k < ringKey srv s
      · rw [if_pos ((clean_succ_iff hk').mpr hsucc)]
        exact ⟨srv, rfl, by rw [thinned_of_lt hasc hsucc, hl], rfl⟩
      rw [if_neg (mt (clean_succ_iff hk').mp hsucc), hfs]
      simp only
      by_cases hbehind : ringKey srv f < 2 ^ k
      · have hlt : ∀ g ∈ ini ++ [f], ringKey srv g < 2 ^ k :=
          fun g hg => lt_of_le_of_lt (AscendingBy.le_of_mem_append_singleton hl' hg) hbehind
        rw [if_pos ((clean_behind_iff hk').mpr hbehind), thinned_succ_of_lt hlt, ← hfs]
        apply ih (le_of_lt hk') h hl hp hlp hlt
      rw [if_neg (mt (clean_behind_iff hk').mp hbehind), ← hfs]
      obtain ⟨g, hg, hpow⟩ | ⟨lo, g, hi, hsplit, hs, hlo, hg⟩ :=
        AscendingBy.hit_or_between hasc (not_lt.mp hsucc) (by simp) (not_lt.mp hbehind)
      · obtain ⟨srv', hrem, hrest, hnode⟩ := cleanRemove_of_hit h hl hg (hpow.trans harc.symm)
        rw [hrem, thinned_of_hit hasc (not_lt.mp hsucc) hg hpow]
        exact ⟨srv', rfl, by simp [hrest], hnode⟩
      rw [hsplit] at hl hlp hasc ⊢
      obtain ⟨srv₁, hrem, hrest, hnode⟩ :=
        cleanRemove_of_lt h hl (harc ▸ hs) (harc ▸ hlo) (harc ▸ hg)
      have hkey := ringKey_congr hnode
      have horder := h.of_sublist hnode (by rw [hrest, hl]; simp)
      obtain ⟨srv', hloop, hflist, hnode'⟩ := ih (le_of_lt hk') horder hrest (hnode ▸ hp)
        (by rw [hkey]; intro f hf; exact hlp f (by simp [hf])) (by rw [hkey]; exact hlo)
      rw [hrem]
      refine ⟨srv', hloop, ?_, hnode'.trans hnode⟩
      rw [hflist, hkey, thinned_append hasc hs hlo hg]
      simp

/-- When the last successor is the last predecessor, the outer loop removes nothing. -/
theorem cleanLoop_touching {k : ℕ} (hk : k ≤ chordIdBits) (hs : s.node.id ≠ srv.node.id) :
  cleanLoop s.node.id s.node.id k fs srv = .ok srv
  := by
  induction k with
  | zero => rfl
  | succ k ih =>
      have hk' : k < chordIdBits := hk
      rw [cleanLoop]
      split
      · rfl
      · simp only
        by_cases hpred : ringKey srv s ≤ 2 ^ k
        · rw [if_pos ((clean_pred_iff hk' hs).mpr hpred)]
          apply ih (le_of_lt hk')
        · rw [if_neg (mt (clean_pred_iff hk' hs).mp hpred),
            if_pos ((clean_succ_iff hk').mpr (not_le.mp hpred))]

/-! ### The whole list -/

/-- Between the first `NSUCCESSORS` fingers and the last `NPREDECESSORS` fingers. -/
def disposable (srv : ChordServer) : List Finger :=
  (srv.flist.drop nsuccessors).rdrop npredecessors

/-- The last of the first `NSUCCESSORS` fingers. -/
def lastsucc (srv : ChordServer) : Option Finger :=
  srv.flist[nsuccessors - 1]?

/-- `clean_finger_list` removes the finger. -/
def Removable (srv : ChordServer) (f : Finger) : Prop :=
  f ∈ disposable srv ∧ ∃ s ∈ lastsucc srv, Dropped (ringKey srv) nfingers s (disposable srv) f

instance (srv : ChordServer) (f : Finger) : Decidable (Removable srv f) :=
  inferInstanceAs (Decidable (_ ∧ ∃ s ∈ lastsucc srv, Dropped _ _ s _ f))

/-- The skipped predecessors are passed without meeting the last successor. -/
theorem skipPreds_append_eq {last : ChordID} (hgs : ∀ f ∈ gs, f.node.id ≠ last) :
  skipPreds last gs.length (gs ++ fs) = .ok (some fs)
  := by
  induction gs with
  | nil => rfl
  | cons f gs ih =>
      rw [List.length_cons, List.cons_append, skipPreds, if_neg (hgs f List.mem_cons_self)]
      apply ih
      intro g hg
      exact hgs g (List.mem_cons_of_mem f hg)

/-- The sections of a list that consists of successors, further fingers and predecessors. -/
theorem sections_of_eq {C : List Finger} (hl : srv.flist = A ++ s :: l ++ p :: C)
    (hA : A.length = nsuccessors - 1) (hC : C.length = npredecessors - 1) :
  disposable srv = l ∧ lastsucc srv = some s ∧ srv.flist.take nsuccessors = A ++ [s] ∧
    srv.flist.rtake npredecessors = p :: C
  := by
  have hfront : (A ++ [s]).length = nsuccessors := by
    rw [List.length_append, hA]
    rfl
  have hback : (p :: C).length = npredecessors := by
    rw [List.length_cons, hC]
    rfl
  have hl₁ : srv.flist = (A ++ [s]) ++ (l ++ p :: C) := by
    simp [hl]
  have hl₂ : srv.flist = (A ++ s :: l) ++ p :: C := hl
  refine ⟨?_, ?_, ?_, ?_⟩
  · rw [disposable, hl₁, ← hfront, List.drop_left, List.rdrop, List.length_append, hback,
      Nat.add_sub_cancel, List.take_left]
  · rw [lastsucc, hl₂, List.append_assoc, ← hA, List.getElem?_append_right (le_refl _)]
    simp
  · rw [hl₁, ← hfront, List.take_left]
  · rw [hl₂, List.rtake, List.length_append, hback, Nat.add_sub_cancel, List.drop_left]

/-- A list that is long enough consists of the successors, the disposable fingers and the
predecessors. -/
theorem exists_sections (hn : nsuccessors + npredecessors ≤ srv.flist.length) :
  ∃ A s p C, srv.flist = A ++ s :: disposable srv ++ p :: C ∧ A.length = nsuccessors - 1 ∧
    C.length = npredecessors - 1
  := by
  have hn' : 11 ≤ srv.flist.length := hn
  have h7 : 7 < srv.flist.length := by
    omega
  have hlen : ((srv.flist.drop 8).rtake 3).length = 3 := by
    rw [List.rtake, List.length_drop, List.length_drop]
    omega
  obtain ⟨p, C, hC⟩ : ∃ p C, (srv.flist.drop 8).rtake 3 = p :: C :=
    List.exists_cons_of_length_pos (by omega)
  have hdrop : srv.flist.drop 8 = disposable srv ++ p :: C := by
    rw [← hC, disposable, List.rdrop, List.rtake, List.take_append_drop]
  refine ⟨srv.flist.take 7, srv.flist[7], p, C, ?_, ?_, ?_⟩
  · rw [List.append_assoc, List.cons_append, ← hdrop, ← List.drop_eq_getElem_cons h7,
      List.take_append_drop]
  · rw [List.length_take]
    show min 7 _ = 7
    omega
  · rw [hC, List.length_cons] at hlen
    show C.length = 2
    omega

/-- On a list too short for disposable fingers, `clean_finger_list` returns. -/
theorem cleanFingerList_of_short (h : RingOrder srv)
    (hn : srv.flist.length < nsuccessors + npredecessors) :
  cleanFingerList srv = .ok srv
  := by
  have hn' : srv.flist.length < 11 := hn
  have hrev : srv.flist.reverse = (srv.flist.drop 7).reverse ++ (srv.flist.take 7).reverse := by
    rw [← List.reverse_append, List.take_append_drop]
  have hlen : (srv.flist.drop 7).length < 4 := by
    rw [List.length_drop]
    omega
  rw [cleanFingerList, hrev]
  simp only [nsuccessors, npredecessors, Nat.add_one_sub_one]
  have hasc : AscendingBy (ringKey srv) (srv.flist.drop 7) :=
    AscendingBy.sublist h (List.drop_sublist 7 srv.flist)
  match hd : srv.flist.drop 7 with
  | [] => rfl
  | [_] => rfl
  | [s, c] =>
      rw [hd] at hasc
      have hc : c.node.id ≠ s.node.id :=
        ne_of_ringKey_lt ((List.pairwise_cons.mp hasc).1 c (by simp))
      simp [skipPreds, hc]
      rfl
  | [s, c, c'] =>
      rw [hd] at hasc
      have hlt := (List.pairwise_cons.mp hasc).1
      have hc : c.node.id ≠ s.node.id := ne_of_ringKey_lt (hlt c (by simp))
      have hc' : c'.node.id ≠ s.node.id := ne_of_ringKey_lt (hlt c' (by simp))
      have hs := ne_node_of_ringKey_lt (hlt c (by simp))
      simp [skipPreds, hc, hc']
      exact cleanLoop_touching le_rfl hs
  | _ :: _ :: _ :: _ :: _ =>
      rw [hd] at hlen
      simp at hlen
      omega

theorem disposable_of_short (hn : srv.flist.length < nsuccessors + npredecessors) :
  disposable srv = []
  := by
  have hn' : srv.flist.length < 11 := hn
  rw [disposable, List.rdrop, List.length_drop]
  have hlen : srv.flist.length - 8 - 3 = 0 := by
    omega
  rw [hlen, List.take_zero]

/-- The removable fingers of a list in ring order are removable fingers between the successors and
the predecessors. -/
theorem filter_removable {A C : List Finger} (h : RingOrder srv)
    (hl : srv.flist = A ++ s :: disposable srv ++ p :: C) (hs : lastsucc srv = some s) :
  srv.flist.filter (fun f => ¬ Removable srv f)
    = A ++ s :: thinned (ringKey srv) nfingers s (disposable srv) ++ p :: C
  := by
  have hnodup : (A ++ s :: disposable srv ++ p :: C).Nodup := by
    rw [← hl]
    exact h.nodup_ids.of_map _
  have hself : ∀ l : List Finger, (∀ f ∈ l, f ∉ disposable srv) →
      l.filter (fun f => ¬ Removable srv f) = l := by
    intro l hl
    apply List.filter_eq_self.mpr
    intro f hf
    rw [decide_eq_true_iff]
    intro hrem
    exact hl f hf hrem.1
  have hmid : (disposable srv).filter (fun f => ¬ Removable srv f)
      = thinned (ringKey srv) nfingers s (disposable srv) := by
    apply List.filter_congr
    intro f hf
    simp [Removable, hs, hf]
  rw [List.append_assoc, List.nodup_append, List.cons_append, List.nodup_cons] at hnodup
  obtain ⟨-, ⟨hsmid, hmidC⟩, hA⟩ := hnodup
  rw [List.nodup_append] at hmidC
  conv_lhs => rw [hl, List.filter_append, List.filter_append, List.filter_cons]
  rw [hself A _, hself (p :: C) _, hmid, if_pos]
  · simp only [decide_eq_true_iff]
    intro hrem
    exact hsmid (List.mem_append_left _ hrem.1)
  · intro f hf hmem
    exact hmidC.2.2 f hmem f hf rfl
  · intro f hf hmem
    exact hA f hf f (by simp [hmem]) rfl

/-- `clean_finger_list` returns, and removes the removable fingers. -/
theorem cleanFingerList_eq (h : RingOrder srv) :
  ∃ srv', cleanFingerList srv = .ok srv' ∧ srv'.node = srv.node ∧
    srv'.flist = srv.flist.filter fun f => ¬ Removable srv f
  := by
  rcases lt_or_ge srv.flist.length (nsuccessors + npredecessors) with hn | hn
  · refine ⟨srv, cleanFingerList_of_short h hn, rfl, ?_⟩
    symm
    apply List.filter_eq_self.mpr
    intro f hf
    simp [Removable, disposable_of_short hn]
  obtain ⟨A, s, p, C, hl, hA, hC⟩ := exists_sections hn
  have hs := (sections_of_eq hl hA hC).2.1
  have hasc : AscendingBy (ringKey srv) (A ++ s :: disposable srv ++ p :: C) := by
    rw [← hl]
    exact h
  obtain ⟨hfront, hback, hfb⟩ := List.pairwise_append.mp hasc
  have hCs : ∀ f ∈ C, f.node.id ≠ s.node.id := by
    intro f hf
    exact ne_of_ringKey_lt (hfb s (by simp) f (by simp [hf]))
  have hp : p.node.id ≠ srv.node.id := by
    obtain ⟨c, hc⟩ := List.exists_mem_of_length_pos (l := C) (by rw [hC]; decide)
    exact ne_node_of_ringKey_lt ((List.pairwise_cons.mp hback).1 c hc)
  have hlp : ∀ f ∈ disposable srv, ringKey srv f < ringKey srv p := by
    intro f hf
    exact hfb f (by simp [hf]) p List.mem_cons_self
  have hlk : ∀ f ∈ disposable srv, ringKey srv f < 2 ^ chordIdBits := by
    intro f hf
    exact lt_of_lt_of_le (hlp f hf) (ChordID.arc_le _ _)
  obtain ⟨srv', hloop, hflist, hnode⟩ := cleanLoop_eq le_rfl h hl hp hlp hlk
  refine ⟨srv', ?_, hnode, ?_⟩
  · have hskip : skipPreds s.node.id (npredecessors - 1) srv.flist.reverse
        = .ok (some (p :: ((disposable srv).reverse ++ s :: A.reverse))) := by
      have hrev : srv.flist.reverse
          = C.reverse ++ p :: ((disposable srv).reverse ++ s :: A.reverse) := by
        rw [hl]
        simp
      rw [hrev, ← hC, ← List.length_reverse]
      apply skipPreds_append_eq
      simpa using hCs
    have hdrop : ∃ a as, srv.flist.drop (nsuccessors - 1) = s :: a :: as := by
      rw [hl, ← hA, List.append_assoc, List.drop_left]
      cases disposable srv with
      | nil => exact ⟨p, C, rfl⟩
      | cons a as => exact ⟨a, as ++ p :: C, rfl⟩
    obtain ⟨a, as, hdrop⟩ := hdrop
    rw [cleanFingerList, hdrop]
    simp only [hskip]
    exact hloop
  · rw [hflist, filter_removable h hl hs]

end Tangent

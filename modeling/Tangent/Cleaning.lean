import Tangent.Ownership
import Tangent.Table.Clean
import Tangent.Table.Tick

/-!
# What cleaning should keep and remove

`clean_finger_list` is to keep the first `NSUCCESSORS` fingers, the last `NPREDECESSORS` fingers
and the proper fingers, those that are the first at or clockwise after some `node.id + 2 ^ k`, and
to remove all others.  It keeps them all if and only if no disposable finger lies exactly at some
`node.id + 2 ^ k`, and the others are gone if and only if there is such a finger, or the walk down
the powers of two reaches all disposable fingers.  Its positions take no account of whether a
finger is active, so the neighbours of a server can be among what it removes.
-/

namespace Tangent

open Thinning

variable {L : Library} {srv srv' : ChordServer} {f g s : Finger} {k : ℕ}

/-! ### Backups and proper fingers -/

/-- The finger is among the first `NSUCCESSORS` or the last `NPREDECESSORS`. -/
def Backup (srv : ChordServer) (f : Finger) : Prop :=
  f ∈ srv.flist.take nsuccessors ∨ f ∈ srv.flist.rtake npredecessors

/-- The finger is the first of the list at or clockwise after some `node.id + 2 ^ k`. -/
def ProperFinger (srv : ChordServer) (f : Finger) : Prop :=
  f ∈ srv.flist ∧ ∃ k < nfingers, ∀ g ∈ srv.flist,
    ChordID.gap (chordIdSuccessor srv.node.id k) f.node.id ≤
      ChordID.gap (chordIdSuccessor srv.node.id k) g.node.id

/-- The finger lies exactly at some `node.id + 2 ^ k`. -/
def AtPower (srv : ChordServer) (f : Finger) : Prop :=
  ∃ k < nfingers, f.node.id = chordIdSuccessor srv.node.id k

/-- Some `node.id + 2 ^ k` lies at or after the last successor and at or before the finger. -/
def PastPower (srv : ChordServer) (f : Finger) : Prop :=
  ∃ s ∈ lastsucc srv, ∃ k < nfingers, ringKey srv s ≤ 2 ^ k ∧ 2 ^ k ≤ ringKey srv f

instance (srv : ChordServer) (f : Finger) : Decidable (AtPower srv f) :=
  inferInstanceAs (Decidable (∃ k < nfingers, _ = _))

instance (srv : ChordServer) (f : Finger) : Decidable (PastPower srv f) :=
  inferInstanceAs (Decidable (∃ s ∈ lastsucc srv, ∃ k < nfingers, _ ∧ _))

theorem atPower_iff :
  AtPower srv f ↔ OnPower (ringKey srv) nfingers f
  := by
  constructor
  · rintro ⟨k, hk, hid⟩
    refine ⟨k, hk, ?_⟩
    rw [ringKey, hid, arc_chordIdSuccessor _ hk]
  · rintro ⟨k, hk, hpow⟩
    refine ⟨k, hk, ?_⟩
    rw [ringKey, ← arc_chordIdSuccessor srv.node.id hk] at hpow
    exact ChordID.arc_inj.mp hpow

theorem pastPower_iff (hs : lastsucc srv = some s) :
  PastPower srv f ↔ Reached (ringKey srv) nfingers s f
  := by
  simp [PastPower, Reached, hs]

/-- Walking from `node.id + 2 ^ k`, one finger comes at or before another if it lies before the
server and so does not the other, or neither lies before the server or both do and it is nearer
to the server. -/
theorem gap_le_gap_iff (hk : k < nfingers) :
  ChordID.gap (chordIdSuccessor srv.node.id k) f.node.id ≤
      ChordID.gap (chordIdSuccessor srv.node.id k) g.node.id ↔
    (2 ^ k ≤ ringKey srv f ∧ (2 ^ k ≤ ringKey srv g → ringKey srv f ≤ ringKey srv g)) ∨
      (ringKey srv g < 2 ^ k ∧ ringKey srv f ≤ ringKey srv g)
  := by
  have hgap : ∀ f : Finger, ChordID.gap (chordIdSuccessor srv.node.id k) f.node.id
      = if 2 ^ k ≤ ringKey srv f then ringKey srv f - 2 ^ k
        else 2 ^ chordIdBits + ringKey srv f - 2 ^ k := by
    intro f
    have harc := arc_chordIdSuccessor srv.node.id hk
    split
    · rename_i hle
      rw [ringKey, ← harc] at hle
      rw [ChordID.gap_of_arc_le hle, harc, ringKey]
    · rename_i hlt
      rw [ringKey, ← harc, not_le] at hlt
      rw [ChordID.gap_of_arc_lt hlt, harc, ringKey]
  have hle : ∀ f : Finger, 0 < ringKey srv f ∧ ringKey srv f ≤ 2 ^ chordIdBits :=
    fun f => ⟨ChordID.arc_pos _ _, ChordID.arc_le _ _⟩
  have hf := hle f
  have hg := hle g
  have hpow : 2 ^ k < 2 ^ chordIdBits := Nat.pow_lt_pow_right (by decide) hk
  rw [hgap f, hgap g]
  clear hgap hle
  generalize 2 ^ chordIdBits = M at *
  generalize 2 ^ k = x at *
  split_ifs <;> omega

/-! ### Disposable fingers -/

/-- A finger is a backup or disposable. -/
theorem backup_or_disposable (hf : f ∈ srv.flist) :
  Backup srv f ∨ f ∈ disposable srv
  := by
  rw [← List.take_append_drop nsuccessors srv.flist, List.mem_append] at hf
  rcases hf with hf | hf
  · exact .inl (.inl hf)
  · have hsplit : srv.flist.drop nsuccessors
        = disposable srv ++ (srv.flist.drop nsuccessors).rtake npredecessors := by
      rw [disposable, List.rdrop, List.rtake, List.take_append_drop]
    rw [hsplit, List.mem_append] at hf
    rcases hf with hf | hf
    · exact .inr hf
    · left
      right
      rw [List.rtake, List.drop_drop, List.length_drop] at hf
      rw [List.rtake]
      apply (List.drop_sublist_drop_left srv.flist _).subset hf
      omega

/-- Where the fingers are, seen from a disposable finger. -/
theorem RingOrder.disposable_spec (h : RingOrder srv) (hf : f ∈ disposable srv) :
  f ∈ srv.flist ∧ ¬ Backup srv f ∧ ∃ s ∈ srv.flist, lastsucc srv = some s ∧
    ringKey srv s < ringKey srv f ∧
    ∀ g ∈ srv.flist, ringKey srv g < ringKey srv s ∨ g ∈ s :: disposable srv ∨
      ringKey srv f < ringKey srv g
  := by
  have hn : nsuccessors + npredecessors ≤ srv.flist.length := by
    by_contra hn
    rw [disposable_of_short (not_le.mp hn)] at hf
    cases hf
  obtain ⟨A, s, p, C, hl, hlenA, hlenC⟩ := exists_sections hn
  obtain ⟨-, hs, htake, hrtake⟩ := sections_of_eq hl hlenA hlenC
  have hasc : AscendingBy (ringKey srv) (A ++ s :: disposable srv ++ p :: C) := by
    rw [← hl]
    exact h
  obtain ⟨hfront, -, hfb⟩ := List.pairwise_append.mp hasc
  obtain ⟨-, hmid, hA⟩ := List.pairwise_append.mp hfront
  have hsf := (List.pairwise_cons.mp hmid).1 f hf
  refine ⟨by rw [hl]; simp [hf], ?_, s, by rw [hl]; simp, hs, hsf, ?_⟩
  · rintro (hb | hb)
    · rw [htake, List.mem_append, List.mem_singleton] at hb
      rcases hb with hb | rfl
      · exact absurd (hA f hb f (by simp [hf])) (lt_irrefl _)
      · exact absurd hsf (lt_irrefl _)
    · rw [hrtake] at hb
      exact absurd (hfb f (by simp [hf]) f hb) (lt_irrefl _)
  · intro g hg
    rw [hl, List.mem_append, List.mem_append] at hg
    rcases hg with (hg | hg) | hg
    · exact .inl (hA g hg s List.mem_cons_self)
    · exact .inr (.inl hg)
    · exact .inr (.inr (hfb f (by simp [hf]) g hg))

/-- A disposable finger is proper if and only if it is the first of the disposable fingers and the
last successor at or after some `node.id + 2 ^ k`. -/
theorem RingOrder.properFinger_iff (h : RingOrder srv) (hf : f ∈ disposable srv)
    (hs : lastsucc srv = some s) :
  ProperFinger srv f ↔ Represents (ringKey srv) nfingers (s :: disposable srv) f
  := by
  obtain ⟨hmem, -, s', hsmem, hs', hsf, hwhere⟩ := h.disposable_spec hf
  obtain rfl : s' = s := Option.some_inj.mp (hs'.symm.trans hs)
  constructor
  · rintro ⟨-, k, hk, hmin⟩
    have hpow : 2 ^ k ≤ ringKey srv f := by
      rcases (gap_le_gap_iff hk).mp (hmin s' hsmem) with ⟨hle, -⟩ | ⟨-, hle⟩
      · exact hle
      · omega
    refine ⟨k, hk, hpow, ?_⟩
    intro g hg hkg
    have hg' : g ∈ srv.flist := by
      rcases List.mem_cons.mp hg with rfl | hg
      · exact hsmem
      · exact (h.disposable_spec hg).1
    rcases (gap_le_gap_iff hk).mp (hmin g hg') with ⟨-, hle⟩ | ⟨hlt, -⟩
    · exact hle hkg
    · omega
  · rintro ⟨k, hk, hpow, hmin⟩
    refine ⟨hmem, k, hk, ?_⟩
    intro g hg
    rw [gap_le_gap_iff hk]
    left
    refine ⟨hpow, ?_⟩
    intro hkg
    rcases hwhere g hg with hlt | hg | hlt
    · have := hmin s' List.mem_cons_self (by omega)
      omega
    · exact hmin g hg hkg
    · exact le_of_lt hlt

/-- Cleaning removes a disposable finger if a disposable finger at or behind it lies at some
`node.id + 2 ^ k`, or if it lies behind some `node.id + 2 ^ k` that is not among the successors
and is not proper. -/
theorem RingOrder.removable_iff (h : RingOrder srv) (hf : f ∈ disposable srv) :
  Removable srv f ↔
    (∃ g ∈ disposable srv, AtPower srv g ∧ ringKey srv f ≤ ringKey srv g) ∨
      PastPower srv f ∧ ¬ ProperFinger srv f
  := by
  obtain ⟨-, -, s, -, hs, -, -⟩ := h.disposable_spec hf
  rw [h.properFinger_iff hf hs, pastPower_iff hs]
  simp [Removable, Dropped, atPower_iff, hs, hf]

/-- A finger at some `node.id + 2 ^ k` is proper. -/
theorem AtPower.properFinger (h : AtPower srv f) (hf : f ∈ srv.flist) :
  ProperFinger srv f
  := by
  obtain ⟨k, hk, hid⟩ := h
  refine ⟨hf, k, hk, ?_⟩
  intro g hg
  have hpow : ringKey srv f = 2 ^ k := by
    rw [ringKey, hid, arc_chordIdSuccessor _ hk]
  rw [gap_le_gap_iff hk]
  left
  exact ⟨le_of_eq hpow.symm, fun hle => by omega⟩

/-- Cleaning removes a disposable finger at some `node.id + 2 ^ k`, which is proper. -/
theorem RingOrder.removable_of_atPower (h : RingOrder srv) (hf : f ∈ disposable srv)
    (hpow : AtPower srv f) :
  ProperFinger srv f ∧ Removable srv f
  := by
  refine ⟨hpow.properFinger (h.disposable_spec hf).1, ?_⟩
  rw [h.removable_iff hf]
  exact .inl ⟨f, hf, hpow, le_refl _⟩

/-- A server that got pongs from peers at the distances `ds`. -/
def sampleSpread (ds : List UInt8) : ChordServer :=
  sampleServer (samplePeer 1 0) (ds.map fun d => samplePeer (1 + d) 0)

theorem sampleSpread_reachable (ds : List UInt8) :
  Reachable sampleLibrary (sampleSpread ds)
  := sampleServer_reachable ..

/-- No finger is exactly at a power of two but among the successors. -/
def sampleBetween : ChordServer :=
  sampleSpread [1, 2, 3, 5, 6, 7, 9, 10, 17, 20, 30, 40, 50]

/-- A disposable finger is exactly at the distance `2 ^ 4`. -/
def sampleExact : ChordServer :=
  sampleSpread [1, 2, 3, 5, 6, 7, 9, 10, 12, 16, 20, 30, 40, 50]

/-- A disposable finger is at the distance `12`, the last successor at the distance `10`. -/
def sampleShort : ChordServer :=
  sampleSpread [1, 2, 3, 5, 6, 7, 9, 10, 12, 30, 40, 50]

/-- Eight passive fingers stand before the only active one and three behind it. -/
def sampleCrowded : ChordServer :=
  sampleMixed (samplePeer 1 0)
    ([1, 2, 3, 4, 5, 6, 7, 8, 10, 11, 12].map fun d => samplePeer (1 + d) 0) [samplePeer 10 0]

/-! ### What cleaning keeps -/

/-- `clean_finger_list` returns and removes fingers without changing the others or their order.
It keeps the backups and the proper fingers if and only if no disposable finger lies exactly at
some `node.id + 2 ^ k`. -/
theorem cleaning_keeps_iff (h : RingOrder srv) :
  ∃ srv', cleanFingerList srv = .ok srv' ∧ srv'.flist.Sublist srv.flist ∧
    ((∀ f ∈ srv.flist, Backup srv f ∨ ProperFinger srv f → f ∈ srv'.flist) ↔
      ∀ f ∈ disposable srv, ¬ AtPower srv f)
  := by
  obtain ⟨srv', hclean, -, hflist⟩ := cleanFingerList_eq h
  refine ⟨srv', hclean, by rw [hflist]; exact List.filter_sublist, ?_⟩
  have hkept : ∀ f ∈ srv.flist, f ∈ srv'.flist ↔ ¬ Removable srv f := by
    intro f hf
    simp [hflist, hf]
  constructor
  · intro hall f hf hpow
    obtain ⟨hmem, -, -⟩ := h.disposable_spec hf
    obtain ⟨hproper, hrem⟩ := h.removable_of_atPower hf hpow
    exact (hkept f hmem).mp (hall f hmem (.inr hproper)) hrem
  · intro hnone f hf hkeep
    rw [hkept f hf]
    intro hrem
    rcases hkeep with hbackup | hproper
    · exact (h.disposable_spec hrem.1).2.1 hbackup
    · rcases (h.removable_iff hrem.1).mp hrem with ⟨g, hg, hpow, -⟩ | ⟨-, hnot⟩
      · exact hnone g hg hpow
      · exact hnot hproper

theorem cleaning_keeps_iff_sample :
  ∃ srv', cleanFingerList sampleBetween = .ok srv' ∧
    ∀ f ∈ sampleBetween.flist, Backup sampleBetween f ∨ ProperFinger sampleBetween f →
      f ∈ srv'.flist
  := by
  have hreach : Reachable sampleLibrary sampleBetween := sampleSpread_reachable _
  obtain ⟨srv', hclean, -, hiff⟩ := cleaning_keeps_iff hreach.tableInv.order
  exact ⟨srv', hclean, hiff.mpr (by decide +kernel)⟩

/-- With a finger exactly at the distance `2 ^ 4` between the successors and the predecessors,
cleaning removes that finger, although it is the proper finger for `node.id + 2 ^ 4`. -/
theorem cleaning_removes_proper_finger :
  ∃ srv srv' f, Reachable sampleLibrary srv ∧ RingOrder srv ∧ f ∈ srv.flist ∧
    ProperFinger srv f ∧ cleanFingerList srv = .ok srv' ∧ f ∉ srv'.flist
  := by
  have hreach : Reachable sampleLibrary sampleExact := sampleSpread_reachable _
  have horder := hreach.tableInv.order
  obtain ⟨srv', hclean, -, hflist⟩ := cleanFingerList_eq horder
  obtain ⟨f, hf, hpow⟩ : ∃ f ∈ disposable sampleExact, AtPower sampleExact f := by
    decide +kernel
  obtain ⟨hproper, hrem⟩ := horder.removable_of_atPower hf hpow
  refine ⟨sampleExact, srv', f, hreach, horder, hproper.1, hproper, hclean, ?_⟩
  simp [hflist, hrem]

/-! ### What cleaning removes -/

/-- After cleaning, the disposable fingers are those that were disposable and not removable, behind
the same last successor. -/
theorem RingOrder.disposable_cleaned (h : RingOrder srv)
    (hflist : srv'.flist = srv.flist.filter fun f => ¬ Removable srv f) :
  disposable srv' = (disposable srv).filter (fun f => ¬ Removable srv f) ∧
    (disposable srv ≠ [] → lastsucc srv' = lastsucc srv)
  := by
  rcases lt_or_ge srv.flist.length (nsuccessors + npredecessors) with hn | hn
  · have hn' : srv'.flist.length < nsuccessors + npredecessors := by
      rw [hflist]
      exact lt_of_le_of_lt (List.length_filter_le _ _) hn
    rw [disposable_of_short hn, disposable_of_short hn']
    simp
  · obtain ⟨A, s, p, C, hl, hlenA, hlenC⟩ := exists_sections hn
    have hs := (sections_of_eq hl hlenA hlenC).2.1
    rw [filter_removable h hl hs] at hflist
    obtain ⟨hdis, hs', -, -⟩ := sections_of_eq hflist hlenA hlenC
    rw [hdis, hs, hs']
    refine ⟨?_, fun _ => rfl⟩
    apply List.filter_congr
    intro f hf
    simp [Removable, hs, hf]

/-- A disposable finger that is left is proper if and only if some `node.id + 2 ^ k` that is not
among the successors lies at or before it. -/
theorem RingOrder.properFinger_cleaned_iff (h : RingOrder srv) (hnode : srv'.node = srv.node)
    (hflist : srv'.flist = srv.flist.filter fun f => ¬ Removable srv f)
    (hf : f ∈ disposable srv) (hkept : ¬ Removable srv f) :
  ProperFinger srv' f ↔ PastPower srv f
  := by
  obtain ⟨-, -, s, -, hs, hsf, -⟩ := h.disposable_spec hf
  have h' : RingOrder srv' := h.of_sublist hnode (by rw [hflist]; exact List.filter_sublist)
  obtain ⟨hdis, hlast⟩ := h.disposable_cleaned hflist
  have hf' : f ∈ disposable srv' := by
    simp [hdis, hf, hkept]
  have hs' : lastsucc srv' = some s := (hlast (List.ne_nil_of_mem hf)).trans hs
  rw [h'.properFinger_iff hf' hs', pastPower_iff hs, ringKey_congr hnode]
  constructor
  · rintro ⟨k, hk, hpow, hmin⟩
    refine ⟨k, hk, ?_, hpow⟩
    by_contra hlt
    have := hmin s List.mem_cons_self (le_of_lt (not_le.mp hlt))
    omega
  · intro hpast
    have hproper : ProperFinger srv f := by
      by_contra hnot
      exact hkept ((h.removable_iff hf).mpr (.inr ⟨(pastPower_iff hs).mpr hpast, hnot⟩))
    obtain ⟨k, hk, hpow, hmin⟩ := (h.properFinger_iff hf hs).mp hproper
    refine ⟨k, hk, hpow, ?_⟩
    intro g hg
    apply hmin g
    rcases List.mem_cons.mp hg with rfl | hg
    · exact List.mem_cons_self
    · rw [hdis, List.mem_filter] at hg
      exact List.mem_cons_of_mem s hg.1

/-- After `clean_finger_list`, every finger is a backup or a proper finger if and only if a
disposable finger lay exactly at some `node.id + 2 ^ k`, or every disposable finger lay at or
behind some `node.id + 2 ^ k` that is at or behind the last successor. -/
theorem cleaning_removes_iff (h : RingOrder srv) :
  ∃ srv', cleanFingerList srv = .ok srv' ∧
    ((∀ f ∈ srv'.flist, Backup srv' f ∨ ProperFinger srv' f) ↔
      (∃ f ∈ disposable srv, AtPower srv f) ∨ ∀ f ∈ disposable srv, PastPower srv f)
  := by
  obtain ⟨srv', hclean, hnode, hflist⟩ := cleanFingerList_eq h
  refine ⟨srv', hclean, ?_⟩
  have h' : RingOrder srv' := h.of_sublist hnode (by rw [hflist]; exact List.filter_sublist)
  have hdis := (h.disposable_cleaned hflist).1
  have hleft : (∀ f ∈ srv'.flist, Backup srv' f ∨ ProperFinger srv' f) ↔
      ∀ f ∈ disposable srv, ¬ Removable srv f → PastPower srv f := by
    constructor
    · intro hall f hf hkept
      have hf' : f ∈ disposable srv' := by
        simp [hdis, hf, hkept]
      obtain ⟨hmem, hbackup, -⟩ := h'.disposable_spec hf'
      rw [← h.properFinger_cleaned_iff hnode hflist hf hkept]
      exact (hall f hmem).resolve_left hbackup
    · intro hall f hmem
      rcases backup_or_disposable hmem with hbackup | hf'
      · exact .inl hbackup
      · right
        rw [hdis, List.mem_filter, decide_eq_true_iff] at hf'
        obtain ⟨hf, hkept⟩ := hf'
        rw [h.properFinger_cleaned_iff hnode hflist hf hkept]
        exact hall f hf hkept
  rw [hleft]
  constructor
  · intro hall
    by_cases hex : ∃ f ∈ disposable srv, AtPower srv f
    · exact .inl hex
    · right
      intro f hf
      by_cases hrem : Removable srv f
      · rcases (h.removable_iff hf).mp hrem with ⟨g, hg, hpow, -⟩ | ⟨hpast, -⟩
        · exact absurd ⟨g, hg, hpow⟩ hex
        · exact hpast
      · exact hall f hf hrem
  · rintro (⟨g, hg, hpow⟩ | hall) f hf hkept
    · obtain ⟨k, hk, hkey⟩ := atPower_iff.mp hpow
      obtain ⟨-, -, s, -, hs, hsg, -⟩ := h.disposable_spec hg
      refine ⟨s, hs, k, hk, by omega, ?_⟩
      by_contra hlt
      apply hkept
      rw [h.removable_iff hf]
      exact .inl ⟨g, hg, hpow, by omega⟩
    · exact hall f hf

theorem cleaning_removes_iff_sample :
  ∃ srv', cleanFingerList sampleBetween = .ok srv' ∧
    ∀ f ∈ srv'.flist, Backup srv' f ∨ ProperFinger srv' f
  := by
  have hreach : Reachable sampleLibrary sampleBetween := sampleSpread_reachable _
  obtain ⟨srv', hclean, hiff⟩ := cleaning_removes_iff hreach.tableInv.order
  exact ⟨srv', hclean, hiff.mpr (.inr (by decide +kernel))⟩

/-- The last successor is at the distance `10`, the first disposable finger at the distance `12`.
The walk down the powers ends at `2 ^ 3`, before it comes to that finger, which is neither a
backup nor a proper finger. -/
theorem cleaning_leaves_improper_finger :
  ∃ srv srv' f, Reachable sampleLibrary srv ∧ RingOrder srv ∧ cleanFingerList srv = .ok srv' ∧
    f ∈ srv'.flist ∧ ¬ (Backup srv' f ∨ ProperFinger srv' f)
  := by
  have hreach : Reachable sampleLibrary sampleShort := sampleSpread_reachable _
  have horder := hreach.tableInv.order
  obtain ⟨srv', hclean, hnode, hflist⟩ := cleanFingerList_eq horder
  obtain ⟨f, hf, hkept, hpast⟩ : ∃ f ∈ disposable sampleShort,
      ¬ Removable sampleShort f ∧ ¬ PastPower sampleShort f := by
    decide +kernel
  have hf' : f ∈ disposable srv' := by
    simp [(horder.disposable_cleaned hflist).1, hf, hkept]
  have horder' : RingOrder srv' :=
    horder.of_sublist hnode (by rw [hflist]; exact List.filter_sublist)
  obtain ⟨hmem, hbackup, -⟩ := horder'.disposable_spec hf'
  refine ⟨sampleShort, srv', f, hreach, horder, hclean, hmem, ?_⟩
  rw [horder.properFinger_cleaned_iff hnode hflist hf hkept]
  exact not_or.mpr ⟨hbackup, hpast⟩

/-! ### Neighbours -/

/-- Cleaning keeps the successor, the predecessor and the range of a server if and only if each
neighbour among the disposable fingers lies behind every disposable finger at some
`node.id + 2 ^ k`, and is proper if some `node.id + 2 ^ k` lies between the last successor and
it. -/
theorem cleaning_keeps_neighbours_iff (h : Reachable L srv) :
  ∃ srv', cleanFingerList srv = .ok srv' ∧
    ((succFinger srv' = succFinger srv ∧ predFinger srv' = predFinger srv ∧
        srv'.predBound = srv.predBound ∧ ∀ x, chordIdIsLocal srv' x = chordIdIsLocal srv x) ↔
      ∀ f ∈ disposable srv, succFinger srv = some f ∨ predFinger srv = some f →
        (∀ g ∈ disposable srv, AtPower srv g → ringKey srv g < ringKey srv f) ∧
          (PastPower srv f → ProperFinger srv f))
  := by
  have hinv := h.tableInv
  obtain ⟨srv', hclean, hnode, hflist⟩ := cleanFingerList_eq hinv.order
  have hinv' : TableInv L srv' := (cleanFingerList_steps hinv hclean).inv hinv
  refine ⟨srv', hclean, ?_⟩
  have hsucc : succFinger srv' = succFinger srv ↔
      ∀ f, succFinger srv = some f → ¬ Removable srv f := by
    rw [succFinger, succFinger, hflist, List.find?_filter_eq_iff]
    simp only [decide_eq_true_iff]
  have hpred : predFinger srv' = predFinger srv ↔
      ∀ f, predFinger srv = some f → ¬ Removable srv f := by
    rw [predFinger, predFinger, hflist, ← List.filter_reverse, List.find?_filter_eq_iff]
    simp only [decide_eq_true_iff]
  have hrange : predFinger srv' = predFinger srv → srv'.predBound = srv.predBound := by
    intro hpf
    rw [hinv.bound, hinv'.bound, ownBound_eq, ownBound_eq, hpf, hnode]
  have hremovable : ∀ f ∈ disposable srv, ¬ Removable srv f ↔
      (∀ g ∈ disposable srv, AtPower srv g → ringKey srv g < ringKey srv f) ∧
        (PastPower srv f → ProperFinger srv f) := by
    intro f hf
    rw [hinv.order.removable_iff hf]
    push Not
    rfl
  constructor
  · rintro ⟨hs, hp, -, -⟩ f hf hneighbour
    rw [← hremovable f hf]
    rcases hneighbour with hf' | hf'
    · exact hsucc.mp hs f hf'
    · exact hpred.mp hp f hf'
  · intro hall
    have hkept : ∀ f, succFinger srv = some f ∨ predFinger srv = some f → ¬ Removable srv f := by
      intro f hf hrem
      exact (hremovable f hrem.1).mpr (hall f hrem.1 hf) hrem
    have hs := hsucc.mpr fun f hf => hkept f (.inl hf)
    have hp := hpred.mpr fun f hf => hkept f (.inr hf)
    have hb := hrange hp
    refine ⟨hs, hp, hb, ?_⟩
    intro x
    rw [chordIdIsLocal, chordIdIsLocal, hb, hnode]

theorem cleaning_keeps_neighbours_iff_sample :
  ∃ srv', cleanFingerList sampleExact = .ok srv' ∧ succFinger srv' = succFinger sampleExact ∧
    predFinger srv' = predFinger sampleExact ∧ srv'.predBound = sampleExact.predBound
  := by
  have hreach : Reachable sampleLibrary sampleExact := sampleSpread_reachable _
  obtain ⟨srv', hclean, hiff⟩ := cleaning_keeps_neighbours_iff hreach
  have hfar : ∀ f ∈ disposable sampleExact,
      ¬ (succFinger sampleExact = some f ∨ predFinger sampleExact = some f) := by
    decide +kernel
  obtain ⟨hs, hp, hb, -⟩ := hiff.mpr fun f hf hneighbour => absurd hneighbour (hfar f hf)
  exact ⟨srv', hclean, hs, hp, hb⟩

/-- Cleaning removes the only active finger, so the server loses its successor and its predecessor
and takes over the whole circle. -/
theorem cleaning_removes_neighbours :
  ∃ srv srv', Reachable sampleLibrary srv ∧ cleanFingerList srv = .ok srv' ∧
    succFinger srv' ≠ succFinger srv ∧ predFinger srv' ≠ predFinger srv ∧
    srv'.predBound ≠ srv.predBound ∧ ∃ x, chordIdIsLocal srv' x ≠ chordIdIsLocal srv x
  := by
  have hreach : Reachable sampleLibrary sampleCrowded := sampleMixed_reachable ..
  obtain ⟨srv', hclean, -, -⟩ := cleanFingerList_eq hreach.tableInv.order
  let x := ((samplePeer 5 0).node sampleLibrary).id
  have hval : (cleanFingerList sampleCrowded).toOption.map
      (fun srv' => (succFinger srv', predFinger srv', srv'.predBound, chordIdIsLocal srv' x))
      = some (none, none, sampleCrowded.node.id, true) := by
    decide +kernel
  have hold : (succFinger sampleCrowded).isSome ∧ (predFinger sampleCrowded).isSome ∧
      sampleCrowded.predBound ≠ sampleCrowded.node.id ∧
      chordIdIsLocal sampleCrowded x = false := by
    decide +kernel
  rw [hclean] at hval
  simp only [Except.toOption, Option.map_some, Option.some.injEq, Prod.mk.injEq] at hval
  obtain ⟨hs, hp, hb, hlocal⟩ := hval
  obtain ⟨hs', hp', hb', hlocal'⟩ := hold
  use sampleCrowded, srv', hreach, hclean
  refine ⟨?_, ?_, ?_, x, ?_⟩
  · rw [hs]
    intro heq
    simp [← heq] at hs'
  · rw [hp]
    intro heq
    simp [← heq] at hp'
  · rw [hb]
    exact hb'.symm
  · rw [hlocal, hlocal']
    decide

end Tangent

import Tangent.Safety.Fingers
import Tangent.Unanswered

/-!
# The worst passive finger

`get_worst_passive_finger` looks for the passive finger with the most unanswered pings.  It stops
at the first one with `PING_THRESH - 1`, as if no finger could have more.  But `ping` leaves
fingers with `PING_THRESH` unanswered pings until its next call, so the finger it stops at need
not be the worst.
-/

namespace Tangent

variable {L : Library} {srv : ChordServer} {f : Finger} {fs : List Finger}

/-- The search stops at the finger. -/
def stopsSearch (f : Finger) : Bool :=
  f.isPassive ∧ pingThresh - 1 ≤ f.npings

/-- The search returns the first finger it stops at. -/
theorem worstPassiveLoop_of_find? {worst : Option Finger} {record : ℤ}
    (hrecord : record < (pingThresh - 1 : ℕ)) (hfind : fs.find? stopsSearch = some f) :
  worstPassiveLoop fs worst record = some f
  := by
  induction fs generalizing worst record with
  | nil => cases hfind
  | cons g fs ih =>
      rw [worstPassiveLoop]
      cases hstop : stopsSearch g with
      | true =>
          rw [List.find?_cons_of_pos hstop] at hfind
          cases hfind
          rw [stopsSearch, decide_eq_true_iff] at hstop
          have hbeats : record < f.npings := lt_of_lt_of_le hrecord (by exact_mod_cast hstop.2)
          rw [if_pos ⟨hstop.1, hbeats⟩, if_pos (by exact_mod_cast hstop.2)]
      | false =>
          rw [List.find?_cons_of_neg (by simp [hstop])] at hfind
          rw [stopsSearch, decide_eq_false_iff_not] at hstop
          split
          · rename_i hg
            have hlt : ¬ pingThresh - 1 ≤ g.npings := fun hle => hstop ⟨hg.1, hle⟩
            rw [if_neg hlt]
            apply ih (by exact_mod_cast not_le.mp hlt) hfind
          · apply ih hrecord hfind

/-- A search that does not stop early returns a finger with the most unanswered pings. -/
theorem worstPassiveLoop_le {worst : Option Finger} {record : ℤ}
    (hworst : ∀ w, worst = some w → record = w.npings) (hnone : ∀ g ∈ fs, ¬ stopsSearch g)
    (hres : worstPassiveLoop fs worst record = some f) :
  record ≤ f.npings ∧ ∀ g ∈ fs, g.isPassive = true → g.npings ≤ f.npings
  := by
  induction fs generalizing worst record with
  | nil =>
      use le_of_eq (hworst f hres)
      intro g hg
      cases hg
  | cons g fs ih =>
      have hg := hnone g List.mem_cons_self
      have htail : ∀ a ∈ fs, ¬ stopsSearch a := fun a ha => hnone a (List.mem_cons_of_mem g ha)
      rw [stopsSearch, decide_eq_true_iff] at hg
      rw [worstPassiveLoop] at hres
      split at hres
      · rename_i hbeats
        rw [if_neg fun hle => hg ⟨hbeats.1, hle⟩] at hres
        obtain ⟨hle, hrest⟩ := ih (by simp) htail hres
        constructor
        · omega
        · intro a ha hpassive
          rcases List.mem_cons.mp ha with rfl | ha
          · exact_mod_cast hle
          · apply hrest a ha hpassive
      · rename_i hbeats
        obtain ⟨hle, hrest⟩ := ih hworst htail hres
        use hle
        intro a ha hpassive
        rcases List.mem_cons.mp ha with rfl | ha
        · have hrecord : (a.npings : ℤ) ≤ record := by
            by_contra hlt
            apply hbeats ⟨hpassive, not_le.mp hlt⟩
          omega
        · apply hrest a ha hpassive

/-- `get_worst_passive_finger` finds a finger if and only if there is a passive one. -/
theorem getWorstPassiveFinger_eq_none_iff :
  getWorstPassiveFinger srv = none ↔ ∀ f ∈ srv.flist, f.isPassive = false
  := by
  constructor
  · intro hnone f hf
    by_contra hpassive
    have hsome : (getWorstPassiveFinger srv).isSome = true := by
      apply worstPassiveLoop_isSome
      refine .inr ⟨f, hf, Bool.eq_true_of_not_eq_false hpassive, ?_⟩
      omega
    rw [hnone] at hsome
    cases hsome
  · intro hall
    cases hworst : getWorstPassiveFinger srv with
    | none => rfl
    | some f =>
        rcases worstPassiveLoop_mem hworst with hf | ⟨hf, hpassive⟩
        · cases hf
        · rw [hall f hf] at hpassive
          cases hpassive

/-- The finger is a passive finger of the list with the most unanswered pings. -/
def IsWorstPassive (srv : ChordServer) (f : Finger) : Prop :=
  f ∈ srv.flist ∧ f.isPassive = true ∧ ∀ g ∈ srv.flist, g.isPassive = true → g.npings ≤ f.npings

/-- A search that stops early is right if its finger has `PING_THRESH` unanswered pings, or no
passive finger has. -/
theorem isWorstPassive_iff_of_find? (hle : ∀ f ∈ srv.flist, f.npings ≤ pingThresh)
    (hfind : srv.flist.find? stopsSearch = some f) :
  IsWorstPassive srv f ↔
    ∀ g ∈ srv.flist, g.isPassive = true → g.npings = pingThresh → f.npings = pingThresh
  := by
  have hstop := List.find?_some hfind
  rw [stopsSearch, decide_eq_true_iff] at hstop
  have hmem : f ∈ srv.flist := List.mem_of_find?_eq_some hfind
  have hfle := hle f hmem
  constructor
  · intro hworst g hg hpassive hnpings
    have hgle := hworst.2.2 g hg hpassive
    omega
  · intro hall
    refine ⟨hmem, hstop.1, ?_⟩
    intro g hg hpassive
    by_contra hlt
    have hgle := hle g hg
    have hfull := hall g hg hpassive (by omega)
    omega

/-- If some passive finger has `PING_THRESH` unanswered pings, the search stops at one that has if
and only if no passive finger with `PING_THRESH - 1` comes before the first one. -/
theorem stops_at_full_iff (hle : ∀ f ∈ srv.flist, f.npings ≤ pingThresh)
    (hfind : srv.flist.find? stopsSearch = some f) :
  (∀ g ∈ srv.flist, g.isPassive = true → g.npings = pingThresh → f.npings = pingThresh) ↔
    ∀ l₁ f l₂, srv.flist = l₁ ++ f :: l₂ → f.isPassive = true → f.npings = pingThresh - 1 →
      (∃ g ∈ l₂, g.isPassive = true ∧ g.npings = pingThresh) →
      ∃ g ∈ l₁, g.isPassive = true ∧ g.npings = pingThresh
  := by
  obtain ⟨hstop, l₁, l₂, hl, hbefore⟩ := List.find?_eq_some_iff_append.mp hfind
  rw [stopsSearch, decide_eq_true_iff] at hstop
  obtain ⟨hpassive, hstop⟩ := hstop
  have hfle := hle f (List.mem_of_find?_eq_some hfind)
  have hclear : ∀ g ∈ l₁, g.isPassive = true → g.npings ≠ pingThresh := by
    intro g hg hgp hnpings
    have hgstop : stopsSearch g = true := by
      rw [stopsSearch, decide_eq_true_iff, hnpings]
      exact ⟨hgp, Nat.sub_le pingThresh 1⟩
    simpa [hgstop] using hbefore g hg
  constructor
  · rintro hall l₁' f' l₂' hl' hpassive' hnpings' ⟨g, hg, hgp, hgn⟩
    have hfull := hall g (by simp [hl', hg]) hgp hgn
    refine ⟨f, ?_, hpassive, hfull⟩
    have hstop' : stopsSearch f' = true := by
      simp [stopsSearch, hpassive', hnpings']
    rw [hl', List.find?_append, List.find?_cons_of_pos hstop'] at hfind
    cases hfind' : l₁'.find? stopsSearch with
    | none =>
        rw [hfind'] at hfind
        cases hfind
        rw [hnpings'] at hfull
        exact absurd hfull (by decide)
    | some a =>
        rw [hfind'] at hfind
        cases hfind
        apply List.mem_of_find?_eq_some hfind'
  · intro hcond g hg hgp hgn
    by_contra hpart
    rw [hl, List.mem_append, List.mem_cons] at hg
    rcases hg with hg | rfl | hg
    · apply hclear g hg hgp hgn
    · apply hpart hgn
    · obtain ⟨a, ha, hap, han⟩ := hcond l₁ f l₂ hl hpassive (by omega) ⟨g, hg, hgp, hgn⟩
      apply hclear a ha hap han

/-- In every reachable state, `get_worst_passive_finger` returns a passive finger with the most
unanswered pings, if there is any passive finger, if and only if no passive finger with
`PING_THRESH - 1` unanswered pings comes before the first one with `PING_THRESH`. -/
theorem worst_passive_iff (h : Reachable L srv) :
  ((getWorstPassiveFinger srv = none ↔ ∀ f ∈ srv.flist, f.isPassive = false) ∧
      ∀ f, getWorstPassiveFinger srv = some f → IsWorstPassive srv f) ↔
    ∀ l₁ f l₂, srv.flist = l₁ ++ f :: l₂ → f.isPassive = true → f.npings = pingThresh - 1 →
      (∃ g ∈ l₂, g.isPassive = true ∧ g.npings = pingThresh) →
      ∃ g ∈ l₁, g.isPassive = true ∧ g.npings = pingThresh
  := by
  have hle := h.npings_le
  rw [and_iff_right getWorstPassiveFinger_eq_none_iff]
  cases hfind : srv.flist.find? stopsSearch with
  | none =>
      have hnone := List.find?_eq_none.mp hfind
      constructor
      · intro _ l₁ f l₂ hl hpassive hnpings
        exfalso
        apply hnone f (by simp [hl])
        simp [stopsSearch, hpassive, hnpings]
      · intro _ f hworst
        obtain hf | ⟨hf, hpassive⟩ := worstPassiveLoop_mem hworst
        · cases hf
        · exact ⟨hf, hpassive, (worstPassiveLoop_le (by simp) hnone hworst).2⟩
  | some f =>
      have hworst : getWorstPassiveFinger srv = some f :=
        worstPassiveLoop_of_find? (by decide) hfind
      rw [← stops_at_full_iff hle hfind, ← isWorstPassive_iff_of_find? hle hfind]
      simp only [hworst, Option.some.injEq, forall_eq']

/-- The server at `p` after it has learnt its address, a notification from `q`, a tick, a
notification from `q'` and `k` more ticks. -/
def sampleTicked (p q q' : Peer) (k : ℕ) : ChordServer :=
  runTo sampleLibrary (sampleConfig p)
    ([sampleAddr p, sampleNotify q, .tick 0 sampleIo, sampleNotify q'] ++
      List.replicate k (.tick 0 sampleIo))

theorem sampleTicked_reachable (p q q' : Peer) (k : ℕ) :
  Reachable sampleLibrary (sampleTicked p q q' k)
  := Reachable.runTo ..

/-- Passive fingers with two unanswered pings and with one. -/
theorem worst_passive_iff_sample :
  ∃ f, getWorstPassiveFinger
      (sampleTicked (samplePeer 1 0) (samplePeer 3 0) (samplePeer 2 0) 1) = some f ∧
    f.npings = 2 ∧
    IsWorstPassive (sampleTicked (samplePeer 1 0) (samplePeer 3 0) (samplePeer 2 0) 1) f
  := by
  have hfew : ∀ f ∈ (sampleTicked (samplePeer 1 0) (samplePeer 3 0) (samplePeer 2 0) 1).flist,
      f.npings ≠ pingThresh - 1 := by
    decide
  refine ⟨⟨(samplePeer 3 0).node sampleLibrary, .passive, 2, 0, 0⟩, by decide, rfl, ?_⟩
  apply ((worst_passive_iff (sampleTicked_reachable _ _ _ _)).mpr _).2 _ (by decide)
  intro l₁ f l₂ hl _ hnpings
  exact absurd hnpings (hfew f (by simp [hl]))

/-- The finger of the peer at `2` has four unanswered pings, that of the peer at `3` behind it has
five. -/
theorem worst_passive_overlooked :
  ∃ srv f, Reachable sampleLibrary srv ∧ getWorstPassiveFinger srv = some f ∧
    ¬ IsWorstPassive srv f
  := by
  refine ⟨sampleTicked (samplePeer 1 0) (samplePeer 3 0) (samplePeer 2 0) 4,
    ⟨(samplePeer 2 0).node sampleLibrary, .passive, 4, 0, 0⟩, sampleTicked_reachable _ _ _ _,
    by decide, ?_⟩
  intro hworst
  have hle := hworst.2.2 ⟨(samplePeer 3 0).node sampleLibrary, .passive, 5, 0, 0⟩ (by decide) rfl
  exact absurd hle (by decide)

end Tangent

import Tangent.Table.Step

/-!
# What the timer does to the finger table

A tick is a sequence of steps that touch or drop fingers, trim the list and move the
cursors.  The loop of `ping` walks along the list while it removes fingers from it: what it
has not yet visited is always the rest of the current list.  The loops of
`clean_finger_list` walk from some finger back to the head, with the skipped predecessors
behind them, so what they remove is neither the first nor the last finger.
-/

namespace Tangent

variable {L : Library} {io : Io} {srv srv' : ChordServer} {f : Finger}

/-! ### Pinging -/

/-- The loop of `ping` touches and drops fingers. -/
theorem pingLoop_steps (fs visited : List Finger) (i : ℕ) (st : PingState)
    (h : TableInv L st.srv) (hl : st.srv.flist = visited ++ fs) :
  TableSteps L {.touch, .drop} st.srv (pingLoop L io fs i st).srv
  := by
  induction fs generalizing visited i st with
  | nil => apply TableSteps.refl
  | cons f fs ih =>
      have hf : f ∈ st.srv.flist := by
        simp [hl]
      rw [pingLoop]
      split
      · have hstep : TableStep L .drop st.srv (removeFinger st.srv f) := .drop f hf
        apply TableSteps.trans (hstep.steps (by simp))
        apply ih visited (i + 1) { st with srv := removeFinger st.srv f } (hstep.inv h)
        rw [h.removeFinger_eq hl, withBound]
      · split
        · have hstep : TableStep L .touch st.srv (modifyFinger st.srv f.node.id countPing) :=
            .touch f countPing hf rfl rfl
          have hl' : (modifyFinger st.srv f.node.id countPing).flist
              = (visited ++ [countPing f]) ++ fs := by
            simp [h.order.modifyFinger_eq hl]
          apply TableSteps.trans (hstep.steps (by simp))
          apply ih (visited ++ [countPing f]) (i + 1) ⟨_, _, _⟩ (hstep.inv h) hl'
        · apply ih (visited ++ [f]) (i + 1) st h
          simp [hl]

/-- `ping` touches and drops fingers and moves its cursor. -/
theorem ping_steps (io : Io) (h : TableInv L srv) :
  TableSteps L {.touch, .drop, .cursor} srv (ping L io srv).1
  := by
  have hloop : TableSteps L {.touch, .drop} srv (pingLoop L io srv.flist 0 ⟨srv, [], none⟩).srv :=
    pingLoop_steps srv.flist [] 0 ⟨srv, [], none⟩ h rfl
  rw [ping]
  split
  · apply TableSteps.trans (hloop.mono (by intro k; simp; tauto))
    apply TableSteps.cursor (by simp)
  · apply TableSteps.trans (hloop.mono (by intro k; simp; tauto))
    apply TableSteps.cursor (by simp)

/-! ### Fixing successors, predecessors and fingers -/

/-- `fix_succs_preds` moves its cursor. -/
theorem fixSuccsPreds_steps (L : Library) (io : Io) (srv : ChordServer) (acts : List Action) :
  TableSteps L {.cursor} srv (fixSuccsPreds L io srv acts).1
  := by
  rw [fixSuccsPreds]
  split
  · apply TableSteps.refl
  · split
    · apply TableSteps.cursor (by simp) srv srv.toFixFinger 0 srv.toPing
    · apply TableSteps.cursor (by simp) srv srv.toFixFinger _ srv.toPing

/-- `fix_fingers` moves its cursor. -/
theorem fixFingers_steps {acts acts' : List Action}
    (hx : fixFingers L io srv acts = .ok (srv', acts')) :
  TableSteps L {.cursor} srv srv'
  := by
  simp only [fixFingers] at hx
  split at hx
  · cases hx
  · split at hx
    · cases hx
    · cases hx
      rw [moveFixFinger]
      split
      · apply TableSteps.cursor (by simp) srv _ srv.toFixBackup srv.toPing
      · apply TableSteps.cursor (by simp) srv _ srv.toFixBackup srv.toPing

/-! ### Cleaning -/

/-- The fingers the inner loop of `clean_finger_list` removes are inside the list, and it
stops with a part of the list that leads back to the head. -/
theorem cleanRemove_steps {lastsucc id : ChordID} {fs rest : List Finger}
    (h : TableInv L srv) (hl : srv.flist = fs.reverse ++ rest) (hrest : rest ≠ []) :
  TableSteps L {.trim} srv (cleanRemove lastsucc id fs srv).1 ∧
    ∀ fs', (cleanRemove lastsucc id fs srv).2 = some fs' →
      ∃ rest', rest' ≠ [] ∧ (cleanRemove lastsucc id fs srv).1.flist = fs'.reverse ++ rest'
  := by
  fun_induction cleanRemove lastsucc id fs srv generalizing rest with
  | case1 f p fs srv hlast =>
      use TableSteps.refl _
      intro fs' hfs'
      cases hfs'
  | case2 f p fs srv hlast hbetween ih =>
      have hl' : srv.flist = (p :: fs).reverse ++ f :: rest := by
        simpa using hl
      have hstep : TableStep L .trim srv (removeFinger srv f) :=
        .trim f hl' (by simp) hrest
      obtain ⟨hsteps, hstop⟩ := ih (hstep.inv h) (by rw [h.removeFinger_eq hl', withBound]) hrest
      exact ⟨(hstep.steps (by simp)).trans hsteps, hstop⟩
  | case3 f p fs srv hlast hbetween =>
      use TableSteps.refl _
      intro fs' hfs'
      cases hfs'
      use f :: rest
      simpa using hl
  | case4 fs srv hfs =>
      use TableSteps.refl _
      intro fs' hfs'
      cases hfs'

/-- The outer loop of `clean_finger_list` removes fingers inside the list. -/
theorem cleanLoop_steps {lastsucc lastpred : ChordID} {k : ℕ} {fs rest : List Finger}
    (h : TableInv L srv) (hl : srv.flist = fs.reverse ++ rest) (hrest : rest ≠ [])
    (hc : cleanLoop lastsucc lastpred k fs srv = .ok srv') :
  TableSteps L {.trim} srv srv'
  := by
  induction k generalizing fs rest srv with
  | zero =>
      cases hc
      apply TableSteps.refl
  | succ k ih =>
      simp only [cleanLoop] at hc
      split at hc
      · cases hc
        apply TableSteps.refl
      · split at hc
        · apply ih h hl hrest hc
        · split at hc
          · cases hc
            apply TableSteps.refl
          · split at hc
            · cases hc
            · split at hc
              · apply ih h hl hrest hc
              · obtain ⟨hsteps, hstop⟩ := cleanRemove_steps (L := L) h hl hrest
                split at hc
                · rename_i heq
                  cases hc
                  rw [heq] at hsteps
                  apply hsteps
                · rename_i heq
                  rw [heq] at hsteps hstop
                  obtain ⟨rest', hrest', hl'⟩ := hstop _ rfl
                  apply hsteps.trans
                  apply ih (hsteps.inv h) hl' hrest' hc

/-- The predecessors `clean_finger_list` skips are at the end of the list. -/
theorem skipPreds_append {lastsucc : ChordID} {k : ℕ} {fs fs' : List Finger}
    (hs : skipPreds lastsucc k fs = .ok (some fs')) :
  ∃ skipped, fs = skipped ++ fs'
  := by
  fun_induction skipPreds lastsucc k fs with
  | case1 fs =>
      cases hs
      use []
      rfl
  | case2 => cases hs
  | case3 k f fs hlast => cases hs
  | case4 k f fs hlast ih =>
      obtain ⟨skipped, rfl⟩ := ih hs
      use f :: skipped
      rfl

/-- `clean_finger_list` removes fingers inside the list. -/
theorem cleanFingerList_steps (h : TableInv L srv) (hc : cleanFingerList srv = .ok srv') :
  TableSteps L {.trim} srv srv'
  := by
  rw [cleanFingerList] at hc
  split at hc
  · obtain ⟨skipped, hskip, hc⟩ := Except.bind_eq_ok.mp hc
    split at hc
    · cases hc
      apply TableSteps.refl
    · cases hc
    · rename_i lastpred fs
      obtain ⟨preds, hpreds⟩ := skipPreds_append hskip
      have hl : srv.flist = fs.reverse ++ (lastpred :: preds.reverse) := by
        apply List.reverse_injective
        simp [hpreds]
      apply cleanLoop_steps h hl (by simp) hc
  · cases hc
    apply TableSteps.refl

/-! ### The steps of a tick -/

/-- A tick of a server with fingers is a ping, followed by steps that trim the list and move the
cursors. -/
theorem stabilize_steps {idx : ℕ} {t : Tick} (h : TableInv L srv)
    (ht : stabilize L io srv idx = .ok t) :
  (srv.flist = [] ∧ t.srv = srv) ∨ TableSteps L {.trim, .cursor} (ping L io srv).1 t.srv
  := by
  rw [stabilize] at ht
  split at ht
  · rename_i hnil
    cases ht
    exact .inl ⟨hnil, rfl⟩
  · have hinv := (ping_steps io h).inv h
    simp only at ht
    split at ht
    · cases ht
      exact .inr (TableSteps.refl _)
    · right
      obtain ⟨acts, -, ht⟩ := Except.bind_eq_ok.mp ht
      have hfix := fixSuccsPreds_steps L io (ping L io srv).1 acts
      obtain ⟨⟨srv₂, acts₂⟩, hff, ht⟩ := Except.bind_eq_ok.mp ht
      have hcur : TableSteps L {.cursor} (ping L io srv).1 srv₂ :=
        hfix.trans (fixFingers_steps hff)
      have hcur' : TableSteps L {.trim, .cursor} (ping L io srv).1 srv₂ :=
        hcur.mono (by simp)
      split at ht
      · obtain ⟨srv₃, hcl, ht⟩ := Except.bind_eq_ok.mp ht
        cases ht
        apply hcur'.trans
        apply (cleanFingerList_steps (hcur.inv hinv) hcl).mono
        simp
      · cases ht
        apply hcur'

/-- The fingers after a tick are fingers from before it. -/
theorem stabilize_mem {idx : ℕ} {t : Tick} (h : TableInv L srv)
    (ht : stabilize L io srv idx = .ok t) (hf : f ∈ t.srv.flist) :
  ∃ g ∈ srv.flist, g.node = f.node ∧ g.status = f.status
  := by
  obtain ⟨-, heq⟩ | hsteps := stabilize_steps h ht
  · rw [heq] at hf
    exact ⟨f, hf, rfl, rfl⟩
  · have hping := ping_steps io h
    obtain ⟨g, hg, hnode, hstatus⟩ :=
      hsteps.mem_of_mem (hping.inv h) (by simp [shrinking, Set.insert_subset_iff]) hf
    obtain ⟨g', hg', hnode', hstatus'⟩ :=
      hping.mem_of_mem h (by simp [shrinking, Set.insert_subset_iff]) hg
    exact ⟨g', hg', hnode'.trans hnode, hstatus'.trans hstatus⟩

end Tangent

import Tangent.Heap.Tables
import Tangent.Model.HeapProcess

/-!
# The memory in use

The functions on the finger list write to fingers that are there, so none but `new_finger` uses
memory that was free, and `remove_finger` leaves the finger it takes out unused.  So a heap whose
memory in use is that of the fingers of the list stays one: nothing leaks.
-/

namespace Tangent

open DoublyLinked

namespace HeapServer

variable {A : Type} {srv srv' srv'' : HeapServer A} {a b f newF : A} {p q pred : Option A}

section Refresh

variable [DecidableEq A] {fuel : ℕ}

theorem flist_of_refreshPred_eq (h : srv.refreshPred fuel pred = .ok srv') :
  srv'.flist = srv.flist
  := by
  obtain ⟨newpred, -, h⟩ := Except.bind_eq_ok.mp h
  cases newpred with
  | none =>
      simp only at h
      split at h
      · cases h
        rfl
      · cases h
  | some newpred =>
      simp only at h
      split at h
      · obtain ⟨c, -, h⟩ := Except.bind_eq_ok.mp h
        cases h
        rfl
      · cases h
        rfl

end Refresh

/-! ### Neat heaps -/

/-- The heap represents a list of `n` fingers at most, and no other memory is in use. -/
def Neat (srv : HeapServer A) (n : ℕ) : Prop :=
  ∃ l, srv.flist.Represents l ∧ (∀ a, srv.InUse a → a ∈ l.map Prod.fst) ∧ l.length ≤ n

variable {n m fuel : ℕ} {c : Cell A Finger} {choice : Option A} {id : ChordID} {addr : In6Addr}
  {port : UInt16} {r : Inserted A} {u : Finger → Finger} {newRtt : ℤ} {L : Library} {io : Io}

theorem Neat.mono (h : srv.Neat n) (hnm : n ≤ m) :
  srv.Neat m
  := by
  obtain ⟨l, hrep, huse, hlen⟩ := h
  exact ⟨l, hrep, huse, hlen.trans hnm⟩

/-- Whether a heap is neat depends on the finger list. -/
theorem Neat.of_flist_eq (h : srv.Neat n) (hflist : srv'.flist = srv.flist) :
  srv'.Neat n
  := by
  rw [Neat, hflist]
  obtain ⟨l, hrep, huse, hlen⟩ := h
  refine ⟨l, hrep, ?_, hlen⟩
  intro a ha
  apply huse a
  rwa [InUse, ← hflist]

theorem inUse_of_read_eq (h : srv.read (some f) = .ok c) :
  srv.InUse f
  := by
  rw [InUse]
  cases hf : srv.flist.heap f with
  | none => simp [read, hf] at h
  | some c => rfl

/-- In a neat heap, a finger in memory is in the list. -/
theorem Neat.exists_split (h : srv.Neat n) (hf : srv.InUse f) :
  ∃ l₁ v l₂, srv.flist.Represents (l₁ ++ (f, v) :: l₂) ∧
    (∀ a, srv.InUse a → a ∈ (l₁ ++ (f, v) :: l₂).map Prod.fst) ∧
    (l₁ ++ (f, v) :: l₂).length ≤ n
  := by
  obtain ⟨l, hrep, huse, hlen⟩ := h
  obtain ⟨⟨f, v⟩, hmem, rfl⟩ := List.mem_map.mp (huse f hf)
  obtain ⟨l₁, l₂, rfl⟩ := List.append_of_mem hmem
  exact ⟨l₁, v, l₂, hrep, huse, hlen⟩

variable [DecidableEq A]

theorem Neat.writeFinger (h : srv.Neat n) (hw : srv.writeFinger p u = .ok srv') :
  srv'.Neat n
  := by
  have hwithin := within_of_writeFinger_eq hw
  cases p with
  | none => cases hw
  | some f =>
      obtain ⟨c, hc, rfl⟩ := Except.map_eq_ok.mp hw
      obtain ⟨l₁, v, l₂, hrep, huse, hlen⟩ := h.exists_split (inUse_of_read_eq hc)
      refine ⟨_, hrep.setVal u, ?_, by simpa using hlen⟩
      intro a ha
      simpa using huse a (hwithin a ha)

/-- The finger that is removed leaves no memory behind. -/
theorem Neat.removeFinger (h : srv.Neat n) (hfuel : n ≤ fuel)
    (hr : srv.removeFinger fuel f = .ok srv') :
  srv'.Neat n
  := by
  obtain ⟨hwithin, hfree⟩ := within_of_removeFinger_eq hr
  obtain ⟨c, hc, -⟩ := Except.bind_eq_ok.mp hr
  obtain ⟨l₁, v, l₂, hrep, huse, hlen⟩ := h.exists_split (inUse_of_read_eq hc)
  have href : srv.Refines ⟨srv.members, l₁ ++ (f, v) :: l₂⟩ := ⟨rfl, hrep⟩
  obtain ⟨srv₁, h₁, href₁⟩ := href.removeFinger (e := (f, v)) (hlen.trans hfuel) rfl
  obtain rfl : srv₁ = srv' := by
    rw [hr] at h₁
    cases h₁
    rfl
  have hfingers := ListedServer.fingers_removeFinger_eq _ href.nodup (e := (f, v)) rfl
  refine ⟨l₁ ++ l₂, hfingers ▸ href₁.flist, ?_, ?_⟩
  · intro a ha
    have haf : a ≠ f := by
      rintro rfl
      exact hfree ha
    have hmem := huse a (hwithin a ha)
    simp only [List.map_append, List.map_cons, List.mem_append, List.mem_cons, haf,
      false_or] at hmem
    rwa [List.map_append, List.mem_append]
  · simp only [List.length_append, List.length_cons] at hlen ⊢
    omega

theorem Neat.evictPassive (h : srv.Neat n) (hfuel : n ≤ fuel)
    (he : srv.evictPassive fuel = .ok srv') :
  srv'.Neat n
  := by
  rw [HeapServer.evictPassive] at he
  split at he
  · obtain ⟨worst, -, he⟩ := Except.bind_eq_ok.mp he
    cases worst with
    | none => cases he
    | some worst => apply h.removeFinger hfuel he
  · cases he
    exact h

/-- The memory of a new finger is that of a finger of the list once it is linked in. -/
theorem Neat.insertNew {node : Node} (h : srv.Neat n) (hfuel : n ≤ fuel)
    (hr : srv.insertNew fuel choice node = .ok r) :
  r.srv.Neat (n + 1)
  := by
  obtain ⟨srv₁, h₁, hr⟩ := Except.bind_eq_ok.mp hr
  obtain ⟨⟨srv₂, newF⟩, h₂, hr⟩ := Except.bind_eq_ok.mp hr
  obtain ⟨srv₃, h₃, hr⟩ := Except.bind_eq_ok.mp hr
  cases hr
  obtain ⟨l, hrep, huse, hlen⟩ := h.evictPassive hfuel h₁
  obtain ⟨-, hfree, hsrv₂⟩ := newFinger_eq_ok.mp h₂
  have hfresh : ∀ e ∈ l, e.1 ≠ newF := by
    rintro e he rfl
    exact hfree (hrep.isSome_of_mem he)
  have hput : srv₂.flist.Represents l := by
    rw [hsrv₂]
    apply hrep.put hfresh
  have hcell : srv₂.flist.heap newF = some ⟨Tangent.newFinger node, none, none⟩ := by
    simp [hsrv₂, Store.put]
  obtain ⟨flist, hins, hrep'⟩ := exists_fingerlistInsert_eq hput (hlen.trans hfuel) hcell hfresh
  rw [h₃] at hins
  cases hins
  have hperm := ListedServer.fingerlistInsert_perm ⟨srv₂.members, l⟩
    (newF, Tangent.newFinger node)
  refine ⟨_, hrep', ?_, ?_⟩
  · intro a ha
    have hmem := within_of_fingerlistInsert_eq h₃ a ha
    apply (hperm.map Prod.fst).symm.subset
    by_cases han : a = newF
    · rw [han]
      exact List.mem_cons_self
    · apply List.mem_cons_of_mem
      apply huse a
      rw [InUse, hsrv₂, Store.put] at hmem
      rw [InUse]
      simpa [han] using hmem
  · apply hperm.length_eq.trans_le
    rw [List.length_cons]
    exact Nat.succ_le_succ hlen

theorem Neat.insertFinger (h : srv.Neat n) (hfuel : n ≤ fuel)
    (hr : srv.insertFinger fuel choice id addr port = .ok r) :
  r.srv.Neat (n + 1)
  := by
  rw [HeapServer.insertFinger] at hr
  split at hr
  · cases hr
    exact h.mono (Nat.le_succ n)
  · obtain ⟨known, -, hr⟩ := Except.bind_eq_ok.mp hr
    cases known with
    | none => apply h.insertNew hfuel hr
    | some f =>
        obtain ⟨c, -, hr⟩ := Except.bind_eq_ok.mp hr
        split at hr
        · obtain ⟨srv₁, h₁, hr⟩ := Except.bind_eq_ok.mp hr
          cases hr
          exact (h.writeFinger h₁).mono (Nat.le_succ n)
        · cases hr
          exact h.mono (Nat.le_succ n)

theorem Neat.activateFinger (h : srv.Neat n) (ha : srv.activateFinger f = .ok srv') :
  srv'.Neat n
  := by
  obtain ⟨c, -, ha⟩ := Except.bind_eq_ok.mp ha
  split at ha
  · apply Neat.writeFinger _ ha
    apply h.of_flist_eq rfl
  · cases ha
    exact h

theorem Neat.acceptPong (h : srv.Neat n) (ha : srv.acceptPong fuel f newRtt = .ok srv') :
  srv'.Neat n
  := by
  obtain ⟨srv₁, h₁, ha⟩ := Except.bind_eq_ok.mp ha
  obtain ⟨pred, -, ha⟩ := Except.bind_eq_ok.mp ha
  obtain ⟨srv₂, h₂, ha⟩ := Except.bind_eq_ok.mp ha
  apply ((h.writeFinger h₁).activateFinger h₂).of_flist_eq
  apply flist_of_refreshPred_eq ha

/-! ### Pinging and cleaning -/

theorem Neat.pingLoop {st st' : PingState A} {k i : ℕ} (h : st.srv.Neat n) (hfuel : n ≤ fuel)
    (hst : HeapServer.pingLoop fuel L io k p i st = .ok st') :
  st'.srv.Neat n
  := by
  induction k generalizing p i st with
  | zero =>
      cases p with
      | none =>
          cases hst
          exact h
      | some f => cases hst
  | succ k ih =>
      cases p with
      | none =>
          cases hst
          exact h
      | some f =>
          obtain ⟨c, -, hst⟩ := Except.bind_eq_ok.mp hst
          split at hst
          · obtain ⟨srv₁, h₁, hst⟩ := Except.bind_eq_ok.mp hst
            apply ih _ hst
            apply h.removeFinger hfuel h₁
          · split at hst
            · obtain ⟨srv₁, h₁, hst⟩ := Except.bind_eq_ok.mp hst
              obtain ⟨c', -, hst⟩ := Except.bind_eq_ok.mp hst
              apply ih _ hst
              apply h.writeFinger h₁
            · apply ih h hst

theorem Neat.ping {acts : List Action} (h : srv.Neat n) (hfuel : n ≤ fuel)
    (hp : srv.ping fuel L io = .ok (srv', acts)) :
  srv'.Neat n
  := by
  obtain ⟨st, hst, hp⟩ := Except.bind_eq_ok.mp hp
  obtain ⟨more, -, hp⟩ := Except.bind_eq_ok.mp hp
  cases hp
  have hloop : st.srv.Neat n := Neat.pingLoop h hfuel hst
  exact hloop.of_flist_eq rfl

/-- The loop with the buffers is the loop without them if it returns. -/
theorem pingLoop_of_servePingLoop_eq {st st' : PingState A} {k i : ℕ}
    (h : servePingLoop fuel L io k p i st = .ok st') :
  HeapServer.pingLoop fuel L io k p i st = .ok st'
  := by
  induction k generalizing p i st with
  | zero =>
      cases p with
      | none => exact h
      | some f => cases h
  | succ k ih =>
      cases p with
      | none => exact h
      | some f =>
          obtain ⟨c, hc, h⟩ := Except.bind_eq_ok.mp h
          rw [HeapServer.pingLoop, hc, Except.ok_bind]
          split at h
          · rename_i hdead
            obtain ⟨-, -, h⟩ := Except.bind_eq_ok.mp h
            obtain ⟨-, -, h⟩ := Except.bind_eq_ok.mp h
            obtain ⟨srv₁, h₁, h⟩ := Except.bind_eq_ok.mp h
            rw [if_pos hdead, h₁, Except.ok_bind]
            apply ih h
          · rename_i hlive
            rw [if_neg hlive]
            split at h
            · rename_i hpinged
              obtain ⟨srv₁, h₁, h⟩ := Except.bind_eq_ok.mp h
              obtain ⟨c', hc', h⟩ := Except.bind_eq_ok.mp h
              obtain ⟨-, -, h⟩ := Except.bind_eq_ok.mp h
              rw [if_pos hpinged, h₁, Except.ok_bind, hc', Except.ok_bind]
              apply ih h
            · rename_i hquiet
              rw [if_neg hquiet]
              apply ih h

theorem ping_of_servePing_eq {r : HeapServer A × List Action}
    (h : srv.servePing fuel L io = .ok r) :
  srv.ping fuel L io = .ok r
  := by
  obtain ⟨st, hst, h⟩ := Except.bind_eq_ok.mp h
  rw [HeapServer.ping, pingLoop_of_servePingLoop_eq hst, Except.ok_bind]
  exact h

theorem Neat.cleanRemove {lastsucc : A} {k : ℕ} {q : Option (Option A)} (h : srv.Neat n)
    (hfuel : n ≤ fuel)
    (hc : HeapServer.cleanRemove fuel lastsucc id k p srv = .ok (srv', q)) :
  srv'.Neat n
  := by
  induction k generalizing p srv with
  | zero => cases hc
  | succ k ih =>
      cases p with
      | none => cases hc
      | some f =>
          obtain ⟨c, -, hc⟩ := Except.bind_eq_ok.mp hc
          split at hc
          · cases hc
            exact h
          · obtain ⟨c', -, hc⟩ := Except.bind_eq_ok.mp hc
            split at hc
            · obtain ⟨srv₁, h₁, hc⟩ := Except.bind_eq_ok.mp hc
              apply ih (h.removeFinger hfuel h₁) hc
            · cases hc
              exact h

theorem Neat.cleanLoop {lastsucc lastpred : A} {k : ℕ} (h : srv.Neat n) (hfuel : n ≤ fuel)
    (hc : HeapServer.cleanLoop fuel lastsucc lastpred k p srv = .ok srv') :
  srv'.Neat n
  := by
  induction k generalizing p srv with
  | zero =>
      cases hc
      exact h
  | succ k ih =>
      rw [HeapServer.cleanLoop] at hc
      split at hc
      · cases hc
        exact h
      · obtain ⟨lp, -, hc⟩ := Except.bind_eq_ok.mp hc
        split at hc
        · apply ih h hc
        · obtain ⟨ls, -, hc⟩ := Except.bind_eq_ok.mp hc
          split at hc
          · cases hc
            exact h
          · obtain ⟨c, -, hc⟩ := Except.bind_eq_ok.mp hc
            split at hc
            · apply ih h hc
            · obtain ⟨⟨srv₁, q⟩, h₁, hc⟩ := Except.bind_eq_ok.mp hc
              have hrem := h.cleanRemove hfuel h₁
              cases q with
              | none =>
                  cases hc
                  exact hrem
              | some q => apply ih hrem hc

theorem Neat.cleanFingerList (h : srv.Neat n) (hfuel : n ≤ fuel)
    (hc : srv.cleanFingerList fuel = .ok srv') :
  srv'.Neat n
  := by
  obtain ⟨lastsucc, -, hc⟩ := Except.bind_eq_ok.mp hc
  cases lastsucc with
  | none =>
      cases hc
      exact h
  | some lastsucc =>
      obtain ⟨c, -, hc⟩ := Except.bind_eq_ok.mp hc
      split at hc
      · cases hc
        exact h
      · obtain ⟨q, -, hc⟩ := Except.bind_eq_ok.mp hc
        rcases q with _ | _ | lastpred
        · cases hc
          exact h
        · cases hc
        · obtain ⟨c', -, hc⟩ := Except.bind_eq_ok.mp hc
          apply h.cleanLoop hfuel hc

/-! ### The handlers -/

section Process

variable {frm : Node} {out : HeapProcess.Outcome A}

omit [DecidableEq A] in
theorem srv_of_processData_eq {m : Data} (frm : Node)
    (h : HeapProcess.processData fuel io srv m frm = .ok out) :
  out.srv = srv
  := by
  rw [HeapProcess.processData] at h
  obtain ⟨id, -, h⟩ := Except.bind_eq_ok.mp h
  simp only at h
  split at h
  · cases h
    rfl
  · split at h
    · cases h
      rfl
    · split at h
      · cases h
        rfl
      · obtain ⟨np, -, h⟩ := Except.bind_eq_ok.mp h
        cases h
        rfl

omit [DecidableEq A] in
theorem srv_of_processFs_eq {m : FindSuccessor} (frm : Node)
    (h : HeapProcess.processFs fuel L io srv m frm = .ok out) :
  out.srv = srv
  := by
  rw [HeapProcess.processFs] at h
  simp only at h
  split at h
  · cases h
    rfl
  · obtain ⟨addr, -, h⟩ := Except.bind_eq_ok.mp h
    split at h
    · cases h
      rfl
    · split at h
      · cases h
        rfl
      · obtain ⟨succ, -, h⟩ := Except.bind_eq_ok.mp h
        cases succ with
        | none =>
            cases h
            rfl
        | some succ =>
            obtain ⟨c, -, h⟩ := Except.bind_eq_ok.mp h
            split at h
            · cases h
              rfl
            · obtain ⟨np, -, h⟩ := Except.bind_eq_ok.mp h
              cases h
              rfl

omit [DecidableEq A] in
theorem Neat.processAddrDiscoverReply {m : AddrDiscoverReply} (h : srv.Neat n)
    (hout : HeapProcess.processAddrDiscoverReply L io srv m frm = .ok out) :
  out.srv.Neat n
  := by
  obtain ⟨valid, -, hout⟩ := Except.bind_eq_ok.mp hout
  split at hout
  · cases hout
    exact h
  · split at hout
    · obtain ⟨addr, -, hout⟩ := Except.bind_eq_ok.mp hout
      cases hout
      apply h.of_flist_eq rfl
    · cases hout
      exact h

theorem Neat.processFsReply {m : FindSuccessorReply} (h : srv.Neat n) (frm : Node)
    (hfuel : n ≤ fuel)
    (hout : HeapProcess.processFsReply fuel L io srv choice m frm = .ok out) :
  out.srv.Neat (n + 1)
  := by
  rw [HeapProcess.processFsReply] at hout
  split at hout
  · cases hout
    apply h.mono (Nat.le_succ n)
  · obtain ⟨addr, -, hout⟩ := Except.bind_eq_ok.mp hout
    obtain ⟨valid, -, hout⟩ := Except.bind_eq_ok.mp hout
    split at hout
    · cases hout
      apply h.mono (Nat.le_succ n)
    · split at hout
      · cases hout
        apply h.mono (Nat.le_succ n)
      · obtain ⟨r, hr, hout⟩ := Except.bind_eq_ok.mp hout
        have hins := h.insertFinger hfuel hr
        split at hout
        · cases hout
          exact hins
        · cases hout
          exact hins

theorem Neat.processStab {m : Stabilize} (h : srv.Neat n) (frm : Node) (hfuel : n ≤ fuel)
    (hout : HeapProcess.processStab fuel L io srv choice m frm = .ok out) :
  out.srv.Neat (n + 1)
  := by
  obtain ⟨pred, -, hout⟩ := Except.bind_eq_ok.mp hout
  split at hout
  · cases hout
    apply h.mono (Nat.le_succ n)
  · obtain ⟨addr, -, hout⟩ := Except.bind_eq_ok.mp hout
    obtain ⟨r, hr, hout⟩ := Except.bind_eq_ok.mp hout
    have hins := h.insertFinger hfuel hr
    cases pred with
    | none =>
        cases hout
        exact hins
    | some pred =>
        obtain ⟨c, -, hout⟩ := Except.bind_eq_ok.mp hout
        cases hout
        exact hins

theorem Neat.processStabReply {m : StabilizeReply} (h : srv.Neat n) (frm : Node) (hfuel : n ≤ fuel)
    (hout : HeapProcess.processStabReply fuel L io srv choice m frm = .ok out) :
  out.srv.Neat (n + 1)
  := by
  rw [HeapProcess.processStabReply] at hout
  split at hout
  · cases hout
    apply h.mono (Nat.le_succ n)
  · obtain ⟨addr, -, hout⟩ := Except.bind_eq_ok.mp hout
    split at hout
    · cases hout
      apply h.mono (Nat.le_succ n)
    · obtain ⟨r, hr, hout⟩ := Except.bind_eq_ok.mp hout
      obtain ⟨succ, -, hout⟩ := Except.bind_eq_ok.mp hout
      obtain ⟨c, -, hout⟩ := Except.bind_eq_ok.mp hout
      have hins := h.insertFinger hfuel hr
      split at hout
      · cases hout
        exact hins
      · cases hout
        exact hins

theorem Neat.processNotify (h : srv.Neat n) (hfuel : n ≤ fuel)
    (hout : HeapProcess.processNotify fuel L io srv choice frm = .ok out) :
  out.srv.Neat (n + 1)
  := by
  rw [HeapProcess.processNotify] at hout
  split at hout
  · cases hout
    apply h.mono (Nat.le_succ n)
  · obtain ⟨r, hr, hout⟩ := Except.bind_eq_ok.mp hout
    have hins := h.insertFinger hfuel hr
    split at hout
    · cases hout
      exact hins
    · cases hout
      exact hins

theorem Neat.processPing {m : Ping} (h : srv.Neat n) (hfuel : n ≤ fuel)
    (hout : HeapProcess.processPing fuel L io srv choice m frm = .ok out) :
  out.srv.Neat (n + 1)
  := by
  rw [HeapProcess.processPing] at hout
  split at hout
  · cases hout
    apply h.mono (Nat.le_succ n)
  · obtain ⟨r, hr, hout⟩ := Except.bind_eq_ok.mp hout
    obtain ⟨pred, -, hout⟩ := Except.bind_eq_ok.mp hout
    obtain ⟨back, -, hout⟩ := Except.bind_eq_ok.mp hout
    cases hout
    exact h.insertFinger hfuel hr

theorem Neat.processPong {m : Pong} (h : srv.Neat n) (hfuel : n ≤ fuel)
    (hout : HeapProcess.processPong fuel L io srv choice m frm = .ok out) :
  out.srv.Neat (n + 1)
  := by
  rw [HeapProcess.processPong] at hout
  split at hout
  · cases hout
    apply h.mono (Nat.le_succ n)
  · obtain ⟨valid, -, hout⟩ := Except.bind_eq_ok.mp hout
    split at hout
    · cases hout
      apply h.mono (Nat.le_succ n)
    · obtain ⟨r, hr, hout⟩ := Except.bind_eq_ok.mp hout
      have hins := h.insertFinger hfuel hr
      split at hout
      · cases hout
        exact hins
      · obtain ⟨srv₁, h₁, hout⟩ := Except.bind_eq_ok.mp hout
        cases hout
        apply hins.acceptPong h₁

/-- A handler inserts one finger at most. -/
theorem Neat.process {msg : Msg} (h : srv.Neat n) (hfuel : n ≤ fuel)
    (hout : HeapProcess.process fuel L io srv choice msg frm = .ok out) :
  out.srv.Neat (n + 1)
  := by
  cases msg with
  | addrDiscover m =>
      cases hout
      apply h.mono (Nat.le_succ n)
  | addrDiscoverReply m => apply (h.processAddrDiscoverReply hout).mono (Nat.le_succ n)
  | data m =>
      have hsrv : out.srv = srv := srv_of_processData_eq frm hout
      rw [hsrv]
      apply h.mono (Nat.le_succ n)
  | fs m =>
      have hsrv : out.srv = srv := srv_of_processFs_eq frm hout
      rw [hsrv]
      apply h.mono (Nat.le_succ n)
  | fsReply m => exact h.processFsReply frm hfuel hout
  | stab m => exact h.processStab frm hfuel hout
  | stabReply m => exact h.processStabReply frm hfuel hout
  | notify => apply h.processNotify hfuel hout
  | ping m => apply h.processPing hfuel hout
  | pong m => apply h.processPong hfuel hout

end Process

/-! ### The timer -/

theorem flist_of_fixSuccsPreds_eq {acts acts' : List Action}
    (h : srv.fixSuccsPreds fuel L io acts = .ok (srv', acts')) :
  srv'.flist = srv.flist
  := by
  obtain ⟨succ, -, h⟩ := Except.bind_eq_ok.mp h
  cases succ with
  | none =>
      cases h
      rfl
  | some f =>
      obtain ⟨g, -, h⟩ := Except.bind_eq_ok.mp h
      obtain ⟨c, -, h⟩ := Except.bind_eq_ok.mp h
      split at h
      · cases h
        rfl
      · obtain ⟨pred, -, h⟩ := Except.bind_eq_ok.mp h
        obtain ⟨acts₁, -, h⟩ := Except.bind_eq_ok.mp h
        cases h
        rfl

omit [DecidableEq A] in
theorem flist_of_fixFingers_eq {acts acts' : List Action}
    (h : srv.fixFingers fuel L io acts = .ok (srv', acts')) :
  srv'.flist = srv.flist
  := by
  obtain ⟨succ, -, h⟩ := Except.bind_eq_ok.mp h
  split at h
  · cases h
  · obtain ⟨c, -, h⟩ := Except.bind_eq_ok.mp h
    obtain ⟨acts₁, -, h⟩ := Except.bind_eq_ok.mp h
    cases h
    rfl

theorem Neat.stabilize {idx : ℕ} {t : Tick A} (h : srv.Neat n) (hfuel : n ≤ fuel)
    (ht : srv.stabilize fuel L io idx = .ok t) :
  t.srv.Neat n
  := by
  rw [HeapServer.stabilize] at ht
  split at ht
  · cases ht
    exact h
  · obtain ⟨⟨srv₁, acts₁⟩, h₁, ht⟩ := Except.bind_eq_ok.mp ht
    have hping := h.ping hfuel (ping_of_servePing_eq h₁)
    obtain ⟨succ, -, ht⟩ := Except.bind_eq_ok.mp ht
    cases succ with
    | none =>
        cases ht
        exact hping
    | some succ =>
        obtain ⟨c, -, ht⟩ := Except.bind_eq_ok.mp ht
        obtain ⟨acts₂, -, ht⟩ := Except.bind_eq_ok.mp ht
        obtain ⟨⟨srv₃, acts₃⟩, h₃, ht⟩ := Except.bind_eq_ok.mp ht
        obtain ⟨⟨srv₄, acts₄⟩, h₄, ht⟩ := Except.bind_eq_ok.mp ht
        have hfix : srv₄.Neat n := by
          apply Neat.of_flist_eq _ (flist_of_fixFingers_eq h₄)
          apply hping.of_flist_eq (flist_of_fixSuccsPreds_eq h₃)
        simp only at ht
        split at ht
        · obtain ⟨srv₅, h₅, ht⟩ := Except.bind_eq_ok.mp ht
          cases ht
          apply hfix.cleanFingerList hfuel h₅
        · cases ht
          exact hfix

/-! ### Runs -/

theorem Neat.react {e : Event} {acts : List Action} (h : srv.Neat n) (hfuel : n ≤ fuel)
    (hr : srv.react fuel L choice e = .ok (srv', acts)) :
  srv'.Neat (n + 1)
  := by
  cases e with
  | packet frm msg io =>
      obtain ⟨out, hout, heq⟩ := Except.map_eq_ok.mp hr
      cases heq
      apply h.process hfuel hout
  | tick idx io =>
      obtain ⟨t, ht, heq⟩ := Except.map_eq_ok.mp hr
      cases heq
      apply (h.stabilize hfuel ht).mono (Nat.le_succ n)
  | discover io =>
      cases hr
      apply h.mono (Nat.le_succ n)

theorem Neat.newHeapServer (A : Type) (cfg : Config) :
  (newHeapServer A cfg).Neat 0
  := by
  refine ⟨[], ⟨.nil none, .nil none⟩, ?_, le_refl _⟩
  intro a ha
  cases ha

variable {st st' : HeapServer A × List Action} {es : List (Event × Option A)}

theorem Neat.serve (h : st.1.Neat n) (hfuel : n + es.length ≤ fuel)
    (hrun : Machine.run (HeapServer.serve fuel L) st es = .ok st') :
  st'.1.Neat (n + es.length)
  := by
  induction es generalizing st n with
  | nil =>
      cases hrun
      exact h
  | cons e es ih =>
      rw [List.length_cons] at hfuel ⊢
      obtain ⟨st₁, h₁, hrun⟩ := Machine.run_cons_eq_ok.mp hrun
      obtain ⟨⟨srv₁, acts₁⟩, hr, h₁⟩ := Except.bind_eq_ok.mp h₁
      obtain ⟨-, -, h₁⟩ := Except.bind_eq_ok.mp h₁
      cases h₁
      have hreact : srv₁.Neat (n + 1) := h.react (by omega) hr
      have hrest := ih hreact (by omega) hrun
      rwa [Nat.add_right_comm, Nat.add_assoc] at hrest

/-- In every run of a new server, whatever packets arrive and whatever timers fire, the fingers in
memory are those of the finger list, which has no more fingers than there were events: no finger
leaks, and none of the list has been freed. -/
theorem no_finger_leaks (cfg : Config) (hfuel : es.length ≤ fuel)
    (hrun : Machine.run (HeapServer.serve fuel L) (Tangent.newHeapServer A cfg, []) es = .ok st') :
  ∃ l, st'.1.flist.Represents l ∧ (∀ a, st'.1.InUse a ↔ a ∈ l.map Prod.fst) ∧
    l.length ≤ es.length
  := by
  have hstart : (Tangent.newHeapServer A cfg, ([] : List Action)).1.Neat 0 :=
    Neat.newHeapServer A cfg
  obtain ⟨l, hrep, huse, hlen⟩ := hstart.serve (by omega) hrun
  rw [Nat.zero_add] at hlen
  refine ⟨l, hrep, ?_, hlen⟩
  intro a
  constructor
  · apply huse
  · intro ha
    obtain ⟨⟨a, v⟩, hmem, rfl⟩ := List.mem_map.mp ha
    apply hrep.isSome_of_mem hmem

/-- A server learns its address, hears from two peers, pings one of them in a tick, and tells a
third of its predecessor.  The new fingers lie at `0`, `1` and `2`. -/
def sampleHeapEvents : List (Event × Option ℕ) :=
  [(sampleAddr (samplePeer 1 0), none), (samplePong (samplePeer 3 0), some 0),
    (sampleNotify (samplePeer 5 0), some 1), (.tick 0 sampleIo, none),
    (.packet (samplePeer 2 0) (.stab ⟨(samplePeer 2 0).addr.s6Addr, 1⟩) sampleIo, some 2)]

/-- The three fingers of the sample are in memory, and nothing else is. -/
theorem no_finger_leaks_sample :
  ∃ st : HeapServer ℕ × List Action, ∃ l,
    Machine.run (HeapServer.serve 5 sampleLibrary)
        (Tangent.newHeapServer ℕ (sampleConfig (samplePeer 1 0)), []) sampleHeapEvents = .ok st ∧
    st.1.flist.Represents l ∧ (∀ a, st.1.InUse a ↔ a ∈ l.map Prod.fst) ∧ st.1.InUse 2
  := by
  have hend : ((Machine.run (HeapServer.serve 5 sampleLibrary)
      (Tangent.newHeapServer ℕ (sampleConfig (samplePeer 1 0)), []) sampleHeapEvents).toOption.any
        fun st => (st.1.flist.heap 2).isSome) = true := by decide +kernel
  cases hrun : Machine.run (HeapServer.serve 5 sampleLibrary)
      (Tangent.newHeapServer ℕ (sampleConfig (samplePeer 1 0)), []) sampleHeapEvents with
  | error f =>
      rw [hrun] at hend
      cases hend
  | ok st =>
      rw [hrun] at hend
      obtain ⟨l, hrep, huse, -⟩ := no_finger_leaks _ (by decide) hrun
      exact ⟨st, l, rfl, hrep, huse, hend⟩

end HeapServer

end Tangent

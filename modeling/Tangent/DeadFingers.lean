import Mathlib.Tactic.SplitIfs
import Tangent.Ownership
import Tangent.Serve

/-!
# Dead fingers

A finger that answers no pings is dropped after a number of calls of `ping` that depends on the
length of the list only, whatever the other fingers do.  Once it has been pinged, every call
pings it again until it has `PING_THRESH` unanswered pings, and the next call drops it.  Until
then the cursor of `ping` comes nearer to it with every call, except that dropping other fingers
may move it anywhere; this can happen no more often than there are other fingers.

A call that drops a finger writes two addresses into buffers that are too small for many addresses,
so all this holds as long as `ping` gets past every finger it drops or pings.
-/

namespace Tangent

variable {L : Library} {io : Io} {srv₀ srv srv' : ChordServer} {f g : Finger} {id : ChordID}
  {l₁ l₂ : List Finger}

/-- Between two calls of `ping` fingers other than the one with the identifier `id` may have
answered: each finger keeps its place and its node, and it keeps its unanswered pings, or, if it
is another one, has none any more. -/
structure OthersAnswer (id : ChordID) (srv srv' : ChordServer) : Prop where
  node : srv'.node = srv.node
  isV6 : srv'.isV6 = srv.isV6
  toPing : srv'.toPing = srv.toPing
  flist : List.Forall₂ (fun f f' => f'.node = f.node ∧
    (f'.npings = f.npings ∨ (f.node.id ≠ id ∧ f'.npings = 0))) srv.flist srv'.flist

/-- A call of `ping`, after which fingers other than the one with the identifier `id` may answer. -/
def PingRound (L : Library) (id : ChordID) (srv srv' : ChordServer) : Prop :=
  ∃ io, OthersAnswer id (ping L io srv).1 srv'

/-- The server after `k` calls of `ping`, which may stop the process.  After each call there may be
answers. -/
def pingRounds (L : Library) (io : ℕ → Io) (answers : ℕ → ChordServer → ChordServer)
    (srv : ChordServer) : ℕ → Except Fault ChordServer
  | 0 => .ok srv
  | k + 1 => do
      let srv ← pingRounds L io answers srv k
      let r ← Serve.ping L (io k) srv
      return answers k r.1

/-- The finger with the identifier `id` is gone after at most `n` calls of `ping`. -/
def DroppedWithin (L : Library) (io : ℕ → Io) (answers : ℕ → ChordServer → ChordServer)
    (srv : ChordServer) (id : ChordID) (n : ℕ) : Prop :=
  ∃ k ≤ n, ∃ s, pingRounds L io answers srv k = .ok s ∧ ∀ g ∈ s.flist, g.node.id ≠ id

/-! ### Answers -/

theorem OthersAnswer.refl (id : ChordID) (srv : ChordServer) :
  OthersAnswer id srv srv
  := by
  refine ⟨rfl, rfl, rfl, List.forall₂_same.mpr ?_⟩
  intro f _
  exact ⟨rfl, .inl rfl⟩

theorem OthersAnswer.modifyFinger {id' : ChordID} (h : OthersAnswer id srv srv') (hne : id' ≠ id)
    {u : Finger → Finger} (hu : ∀ f, (u f).node = f.node)
    (hcount : ∀ f, (u f).npings = f.npings ∨ (u f).npings = 0) :
  OthersAnswer id srv (modifyFinger srv' id' u)
  := by
  refine ⟨h.node, h.isV6, h.toPing, ?_⟩
  rw [Tangent.modifyFinger, List.forall₂_map_right_iff]
  apply h.flist.imp
  rintro f f' ⟨hnode, hkept⟩
  split
  · rename_i hid
    refine ⟨(hu f').trans hnode, ?_⟩
    have hother : f.node.id ≠ id := by
      rw [← hnode, hid]
      exact hne
    rcases hcount f' with hsame | hzero
    · rw [hsame]
      exact hkept
    · exact .inr ⟨hother, hzero⟩
  · exact ⟨hnode, hkept⟩

theorem OthersAnswer.acceptPong (hothers : OthersAnswer id srv₀ srv) (h : TableInv L srv)
    (hf : f ∈ srv.flist) (hne : f.node.id ≠ id) {newRtt : ℤ}
    (ha : acceptPong srv f.node.id newRtt = .ok srv') :
  OthersAnswer id srv₀ srv'
  := by
  rw [acceptPong_eq h hf, Except.ok.injEq] at ha
  subst ha
  have hrefreshed := hothers.modifyFinger hne
    (u := refreshFinger newRtt) (fun _ => rfl) (fun _ => .inr rfl)
  rw [withBound, activateFinger]
  split
  · have hboth := hrefreshed.modifyFinger hne (u := fun f => { f with status := .active })
      (fun _ => rfl) (fun _ => .inl rfl)
    exact ⟨hboth.node, hboth.isV6, hboth.toPing, hboth.flist⟩
  · exact ⟨hrefreshed.node, hrefreshed.isV6, hrefreshed.toPing, hrefreshed.flist⟩

/-- A pong from a finger is an answer of that finger. -/
theorem OthersAnswer.process_pong (hothers : OthersAnswer id srv₀ srv) (h : TableInv L srv)
    (hf : f ∈ srv.flist) (hne : f.node.id ≠ id) {m : Pong} {out : Outcome}
    (ho : process L io srv (.pong m) f.node = .ok out) :
  OthersAnswer id srv₀ out.srv
  := by
  obtain ⟨hnode, hpeer⟩ := h.fingers f hf
  obtain ⟨ret, -, -, rfl⟩ | ⟨-, -, r, hr, hout⟩ := processPong_cases ho
  · exact hothers
  · have hkept : r = ⟨srv, some f.node.id, some false⟩ := by
      rw [hnode] at hr
      obtain ⟨hself, -⟩ | ⟨-, g, -, hid, -, rfl⟩ | ⟨-, g, hg, hid, haddr, -⟩ | ⟨-, hnew, -⟩ :=
        insertFinger_cases hr
      · exact absurd hself hpeer
      · rw [hid, ← hnode]
      · rw [← hnode] at hid
        obtain rfl := h.order.eq_of_id_eq hg hf hid
        exact absurd rfl haddr
      · exact absurd (by rw [← hnode]) (hnew f hf)
    subst hkept
    obtain ⟨hnone, -⟩ | ⟨id', srv', hid', ha, rfl⟩ := hout
    · cases hnone
    · cases hid'
      apply hothers.acceptPong h hf hne ha

/-! ### Ring order -/

/-- Fingers with the nodes of some of the fingers of a list in ring order are in ring order. -/
theorem RingOrder.of_map_node (h : RingOrder srv) (hnode : srv'.node = srv.node)
    (hsub : (srv'.flist.map (·.node)).Sublist (srv.flist.map (·.node))) :
  RingOrder srv'
  := by
  have hpairs : (srv.flist.map (·.node)).Pairwise
      (fun a b => ChordID.arc srv.node.id a.id < ChordID.arc srv.node.id b.id) :=
    List.pairwise_map.mpr h
  have hsorted := hpairs.sublist hsub
  rw [List.pairwise_map] at hsorted
  rw [RingOrder, AscendingBy, ringKey_congr hnode]
  exact hsorted

theorem pingFrom_map_node (toPing i : ℕ) (fs : List Finger) :
  ((pingFrom toPing i fs).map (·.node)).Sublist (fs.map (·.node))
  := by
  induction fs generalizing i with
  | nil => apply List.Sublist.refl _
  | cons f fs ih =>
      rw [pingFrom_cons]
      cases hat : pingAt toPing i f with
      | none => exact (ih (i + 1)).cons _
      | some g =>
          obtain ⟨-, hnode, -⟩ := pingAt_eq_some hat
          simpa [hnode] using ih (i + 1)

theorem OthersAnswer.map_node (h : OthersAnswer id srv srv') :
  srv'.flist.map (·.node) = srv.flist.map (·.node)
  := by
  have hall := h.flist
  generalize srv.flist = l at hall ⊢
  generalize srv'.flist = l' at hall ⊢
  induction hall with
  | nil => rfl
  | cons hhead _ ih => simp [hhead.1, ih]

theorem RingOrder.pingRound (h : RingOrder srv) (hround : PingRound L id srv srv') :
  RingOrder srv'
  := by
  obtain ⟨io, hothers⟩ := hround
  apply h.of_map_node (hothers.node.trans (ping_node L io srv))
  rw [hothers.map_node, ping_flist L io h]
  apply pingFrom_map_node

/-! ### The cursor -/

/-- The cursor after a move round `n` positions.  It may start behind the end, from where it goes to
`0`. -/
def next (n t : ℕ) : ℕ :=
  if t + 1 < n then t + 1 else 0

/-- The number of moves from `t` to the position `d`. -/
def wait (n t d : ℕ) : ℕ :=
  if t ≤ d then d - t else if t < n then n - t + d else d + 1

section Cursor

variable {n t d : ℕ}

theorem wait_le (hd : d < n) :
  wait n t d ≤ n
  := by
  unfold wait
  split_ifs <;> omega

/-- A cursor that is elsewhere comes one move nearer. -/
theorem wait_next (hd : d < n) (h : t ≠ d) :
  wait n (next n t) d + 1 = wait n t d
  := by
  unfold wait next
  split_ifs <;> omega

end Cursor

/-- The finger the walk along live fingers finds at its cursor. -/
theorem pingLoop_pinged (L : Library) (io : Io) {fs : List Finger} (i : ℕ) (st : PingState)
    (hlive : ∀ f ∈ fs, f.npings < pingThresh) :
  (pingLoop L io fs i st).pinged
    = if i ≤ st.srv.toPing then (fs[st.srv.toPing - i]?.map (·.node.id)).or st.pinged
      else st.pinged
  := by
  induction fs generalizing i st with
  | nil => simp [pingLoop]
  | cons f fs ih =>
      have hf := hlive f List.mem_cons_self
      have htail : ∀ a ∈ fs, a.npings < pingThresh :=
        fun a ha => hlive a (List.mem_cons_of_mem f ha)
      have hhead : (pingLoop L io (f :: fs) i st).pinged
          = if i + 1 ≤ st.srv.toPing then
              (fs[st.srv.toPing - (i + 1)]?.map (·.node.id)).or
                (if st.srv.toPing = i then some f.node.id else st.pinged)
            else if st.srv.toPing = i then some f.node.id else st.pinged := by
        rw [pingLoop, if_neg (not_le.mpr hf)]
        split
        · rw [ih _ _ htail]
          rfl
        · rename_i hquiet
          rw [ih _ _ htail, if_neg fun heq => hquiet (.inr heq)]
      rw [hhead]
      rcases lt_trichotomy st.srv.toPing i with hlt | heq | hgt
      · rw [if_neg (by omega), if_neg (by omega), if_neg (by omega)]
      · rw [if_neg (by omega), if_pos heq, if_pos (by omega), heq]
        simp
      · obtain ⟨k, hk⟩ : ∃ k, st.srv.toPing - i = k + 1 := ⟨st.srv.toPing - i - 1, by omega⟩
        rw [if_pos (by omega), if_neg (by omega), if_pos (by omega), hk, List.getElem?_cons_succ,
          show st.srv.toPing - (i + 1) = k by omega]

/-- The identifiers of two positions of a list in ring order are different. -/
theorem RingOrder.getElem_id_ne (h : RingOrder srv) {i j : ℕ} (hij : i < j)
    (hj : j < srv.flist.length) :
  (srv.flist[i]).node.id ≠ (srv.flist[j]).node.id
  := by
  have hlt := List.pairwise_iff_getElem.mp h i j (hij.trans hj) hj hij
  intro hid
  simp [ringKey, hid] at hlt

/-- Without a finger to drop, `ping` keeps the length of the list. -/
theorem length_pingFrom_eq (toPing i : ℕ) {fs : List Finger}
    (hlive : ∀ f ∈ fs, f.npings < pingThresh) :
  (pingFrom toPing i fs).length = fs.length
  := by
  have hlen : (pingFrom toPing i fs).length = (fs.zipIdx i).length := by
    rw [pingFrom, List.filterMap_length_eq_length]
    rintro ⟨f, j⟩ hf
    rw [pingAt, if_neg (not_le.mpr (hlive f (List.fst_mem_of_mem_zipIdx hf)))]
    split
    · rfl
    · rfl
  simpa using hlen

/-- Without a finger to drop, `ping` keeps the nodes of the list. -/
theorem pingFrom_map_node_eq (toPing i : ℕ) {fs : List Finger}
    (hlive : ∀ f ∈ fs, f.npings < pingThresh) :
  (pingFrom toPing i fs).map (·.node) = fs.map (·.node)
  := by
  apply (pingFrom_map_node toPing i fs).eq_of_length
  rw [List.length_map, List.length_map, length_pingFrom_eq toPing i hlive]

/-- A finger to drop makes the list shorter. -/
theorem length_pingFrom_lt {toPing i : ℕ} {fs : List Finger} (hf : f ∈ fs)
    (hdead : pingThresh ≤ f.npings) :
  (pingFrom toPing i fs).length < fs.length
  := by
  obtain ⟨j, hj⟩ := List.mem_iff_getElem?.mp hf
  have hlt : (pingFrom toPing i fs).length < (fs.zipIdx i).length := by
    rw [pingFrom, List.length_filterMap_lt_length_iff_exists]
    refine ⟨(f, i + j), ?_, if_pos hdead⟩
    rw [List.mk_mem_zipIdx_iff_le_and_getElem?_sub]
    exact ⟨Nat.le_add_right i j, by rw [Nat.add_sub_cancel_left]; exact hj⟩
  simpa using hlt

/-- Without a finger to drop, a call of `ping` moves its cursor on. -/
theorem ping_toPing (L : Library) (io : Io) (h : RingOrder srv)
    (hlive : ∀ f ∈ srv.flist, f.npings < pingThresh) :
  (ping L io srv).1.toPing = next srv.flist.length srv.toPing
  := by
  have hpinged := pingLoop_pinged L io 0 ⟨srv, [], none⟩ hlive
  have hflist := (pingLoop_eq L io srv.flist [] 0 ⟨srv, [], none⟩ h rfl).1
  have hcursor := congrArg ChordServer.toPing
    (pingLoop_withoutTable L io srv.flist 0 ⟨srv, [], none⟩)
  simp only [ChordServer.withoutTable] at hcursor
  simp only [Nat.zero_le, if_true, Nat.sub_zero, Option.or_none] at hpinged
  have hlast : (pingLoop L io srv.flist 0 ⟨srv, [], none⟩).srv.flist.getLast?.map (·.node.id)
      = srv.flist[srv.flist.length - 1]?.map (·.node.id) := by
    have hnodes :=
      congrArg (fun l => l.getLast?.map (·.id)) (pingFrom_map_node_eq srv.toPing 0 hlive)
    simp only [List.getLast?_map, Option.map_map] at hnodes
    rw [hflist, List.nil_append, ← List.getLast?_eq_getElem?]
    exact hnodes
  rw [ping, hpinged, hlast, hcursor, next]
  by_cases ht : srv.toPing < srv.flist.length
  · have hlt : srv.flist.length - 1 < srv.flist.length := by omega
    rw [List.getElem?_eq_getElem ht, List.getElem?_eq_getElem hlt]
    by_cases hmore : srv.toPing + 1 < srv.flist.length
    · have hne := h.getElem_id_ne (by omega : srv.toPing < srv.flist.length - 1) hlt
      rw [if_pos hmore, if_neg (by simpa using hne)]
    · have heq : srv.flist.length - 1 = srv.toPing := by omega
      rw [if_neg hmore, if_pos (by simp [heq])]
  · rw [List.getElem?_eq_none (not_lt.mp ht), if_pos (.inl rfl), if_neg (by omega)]

/-! ### The deadline -/

/-- A bound on the number of calls of `ping` before it drops the finger with the identifier `id`,
if that finger does not answer. -/
def deadline (id : ChordID) (srv : ChordServer) : ℕ :=
  let n := srv.flist.length
  let d := srv.flist.findIdx fun f => f.node.id = id
  match srv.flist[d]? with
  | none => 0
  | some f => if f.npings = 0 then 6 + n * n + wait n srv.toPing d else 6 - f.npings

theorem deadline_eq (h : RingOrder srv) (hl : srv.flist = l₁ ++ f :: l₂) (hid : f.node.id = id) :
  deadline id srv
    = if f.npings = 0 then
        6 + srv.flist.length * srv.flist.length
          + wait srv.flist.length srv.toPing l₁.length
      else 6 - f.npings
  := by
  have hd : srv.flist.findIdx (fun f => f.node.id = id) = l₁.length := by
    have hleft : l₁.findIdx (fun f => f.node.id = id) = l₁.length := by
      rw [List.findIdx_eq_length]
      intro a ha
      rw [decide_eq_false_iff_not, ← hid]
      exact (h.ne_of_split hl).1 a ha
    rw [hl, List.findIdx_append, hleft]
    simp [List.findIdx_cons, hid]
  have hget : srv.flist[l₁.length]? = some f := by
    simp [hl]
  simp only [deadline, hd, hget]

/-- The fingers after a call of `ping` left and right of a finger that is not dropped. -/
theorem pingRound_split (h : RingOrder srv) (hl : srv.flist = l₁ ++ f :: l₂)
    (hothers : OthersAnswer f.node.id (ping L io srv).1 srv')
    (hthere : ∃ g ∈ srv'.flist, g.node.id = f.node.id) :
  f.npings < pingThresh ∧ ∃ l₁' g l₂', srv'.flist = l₁' ++ g :: l₂' ∧ g.node.id = f.node.id ∧
    g.npings = f.npings + (if isPinged srv.toPing l₁.length f then 1 else 0) ∧
    l₁'.length = (pingFrom srv.toPing 0 l₁).length
  := by
  obtain ⟨hleft, hright⟩ := h.ne_of_split hl
  have hflist : (ping L io srv).1.flist = pingFrom srv.toPing 0 l₁ ++
      ((pingAt srv.toPing l₁.length f).toList ++ pingFrom srv.toPing (l₁.length + 1) l₂) := by
    rw [ping_flist L io h, hl, pingFrom_append, pingFrom_cons, zero_add]
  cases hat : pingAt srv.toPing l₁.length f with
  | none =>
      exfalso
      obtain ⟨g, hg, hid⟩ := hthere
      have hmem : g.node ∈ srv'.flist.map (·.node) := List.mem_map_of_mem hg
      rw [hothers.map_node, hflist, hat, Option.toList_none, List.nil_append, List.map_append,
        List.mem_append] at hmem
      rcases hmem with hmem | hmem
      · obtain ⟨a, ha, hnode⟩ := List.mem_map.mp ((pingFrom_map_node _ _ _).subset hmem)
        apply hleft a ha (by rw [hnode, hid])
      · obtain ⟨a, ha, hnode⟩ := List.mem_map.mp ((pingFrom_map_node _ _ _).subset hmem)
        apply hright a ha (by rw [hnode, hid])
  | some g =>
      obtain ⟨hlt, hnode, -, hcount⟩ := pingAt_eq_some hat
      have hall := hothers.flist
      rw [hflist, hat, Option.toList_some, List.singleton_append] at hall
      have hlen := hall.length_eq
      have hdrop := List.forall₂_drop (pingFrom srv.toPing 0 l₁).length hall
      rw [List.drop_left, List.forall₂_cons_left_iff] at hdrop
      obtain ⟨g', l₂', ⟨hnode', hkept⟩, -, hrest⟩ := hdrop
      refine ⟨hlt, srv'.flist.take (pingFrom srv.toPing 0 l₁).length, g', l₂', ?_, ?_, ?_, ?_⟩
      · rw [← hrest, List.take_append_drop]
      · rw [hnode', hnode]
      · rcases hkept with hkept | ⟨hne, -⟩
        · rw [hkept, hcount]
        · exact absurd (by rw [hnode]) hne
      · apply List.length_take_of_le
        rw [← hlen, List.length_append]
        apply Nat.le_add_right _ _

theorem mul_self_add_lt {m n : ℕ} (h : m < n) :
  m * m + m < n * n
  := by
  calc m * m + m = m * (m + 1) := by ring
    _ ≤ m * n := Nat.mul_le_mul_left m h
    _ < n * n := Nat.mul_lt_mul_of_pos_right h (by omega)

/-- With every call of `ping` the deadline of a finger that does not answer comes nearer. -/
theorem deadline_lt (h : RingOrder srv) (hf : f ∈ srv.flist)
    (hround : PingRound L f.node.id srv srv')
    (hthere : ∃ g ∈ srv'.flist, g.node.id = f.node.id) :
  deadline f.node.id srv' < deadline f.node.id srv
  := by
  have h' := h.pingRound hround
  obtain ⟨io, hothers⟩ := hround
  obtain ⟨l₁, l₂, hl⟩ := List.append_of_mem hf
  obtain ⟨hlt, l₁', g, l₂', hl', hid, hcount, hlen₁⟩ := pingRound_split h hl hothers hthere
  have hlen : srv'.flist.length = (pingFrom srv.toPing 0 srv.flist).length := by
    rw [← hothers.flist.length_eq, ping_flist L io h]
  have hd : l₁.length < srv.flist.length := by
    simp [hl]
  have hd' : l₁'.length < srv'.flist.length := by
    simp [hl']
  rw [deadline_eq h hl rfl, deadline_eq h' hl' hid, hcount]
  by_cases hpinged : isPinged srv.toPing l₁.length f
  · rw [if_pos hpinged, if_neg (by omega)]
    split
    · omega
    · have hlt' : f.npings < 5 := hlt
      omega
  · have hquiet : f.npings = 0 ∧ srv.toPing ≠ l₁.length := by
      rw [isPinged_of_live (not_le.mpr hlt), not_or, not_not] at hpinged
      exact hpinged
    rw [if_neg hpinged, add_zero, if_pos hquiet.1, if_pos hquiet.1]
    by_cases hlive : ∀ a ∈ srv.flist, a.npings < pingThresh
    · -- no finger is dropped, so the cursor comes nearer
      have hcursor : srv'.toPing = next srv.flist.length srv.toPing := by
        rw [hothers.toPing, ping_toPing L io h hlive]
      have hleft : ∀ a ∈ l₁, a.npings < pingThresh := fun a ha => hlive a (by simp [hl, ha])
      rw [hcursor, hlen, hlen₁, length_pingFrom_eq _ _ hlive, length_pingFrom_eq _ _ hleft]
      have hwait := wait_next hd hquiet.2
      omega
    · -- the list becomes shorter, which makes up for any move of the cursor
      push Not at hlive
      obtain ⟨a, ha, hdead⟩ := hlive
      have hshorter : srv'.flist.length < srv.flist.length := by
        rw [hlen]
        apply length_pingFrom_lt ha hdead
      have hwait := wait_le (t := srv'.toPing) hd'
      have hsquare := mul_self_add_lt hshorter
      omega

theorem deadline_lt_square (h : RingOrder srv) (hf : f ∈ srv.flist) :
  deadline f.node.id srv < (srv.flist.length + 2) ^ 2
  := by
  obtain ⟨l₁, l₂, hl⟩ := List.append_of_mem hf
  have hd : l₁.length < srv.flist.length := by
    simp [hl]
  have hwait := wait_le (t := srv.toPing) hd
  have hsquare : (srv.flist.length + 2) ^ 2
      = srv.flist.length * srv.flist.length + 4 * srv.flist.length + 4 := by
    ring
  rw [deadline_eq h hl rfl, hsquare]
  split
  · omega
  · omega

/-- A finger that `ping` has dropped does not come back. -/
theorem PingRound.mem_of_mem (h : RingOrder srv) (hround : PingRound L id srv srv')
    (hg : g ∈ srv'.flist) :
  ∃ f ∈ srv.flist, f.node = g.node
  := by
  obtain ⟨io, hothers⟩ := hround
  have hmem : g.node ∈ srv'.flist.map (·.node) := List.mem_map_of_mem hg
  rw [hothers.map_node, ping_flist L io h] at hmem
  apply List.mem_map.mp ((pingFrom_map_node _ _ _).subset hmem)

/-- A finger with few unanswered pings stays. -/
theorem there_after (h : RingOrder srv) (hothers : OthersAnswer id (ping L io srv).1 srv')
    (hf : f ∈ srv.flist) (hlive : f.npings < pingThresh) :
  ∃ g ∈ srv'.flist, g.node = f.node
  := by
  obtain ⟨j, hj⟩ := List.mem_iff_getElem?.mp hf
  have hleft : ∃ g, pingAt srv.toPing j f = some g := by
    rw [pingAt, if_neg (not_le.mpr hlive)]
    split
    · exact ⟨_, rfl⟩
    · exact ⟨_, rfl⟩
  obtain ⟨g, hat⟩ := hleft
  have hg : g ∈ (ping L io srv).1.flist := by
    rw [ping_flist L io h, pingFrom, List.mem_filterMap]
    exact ⟨(f, j), List.mk_mem_zipIdx_iff_getElem?.mpr hj, hat⟩
  have hmem : f.node ∈ srv'.flist.map (·.node) := by
    rw [hothers.map_node, ← (pingAt_eq_some hat).2.1]
    exact List.mem_map_of_mem hg
  apply List.mem_map.mp hmem

section Rounds

variable {s : ℕ → ChordServer} {k : ℕ}

theorem RingOrder.pingRounds (h : RingOrder (s 0))
    (hround : ∀ i < k, PingRound L id (s i) (s (i + 1))) :
  ∀ i ≤ k, RingOrder (s i)
  := by
  intro i
  induction i with
  | zero => exact fun _ => h
  | succ i ih => exact fun hi => (ih (by omega)).pingRound (hround i (by omega))

/-- A finger that is there after a number of calls of `ping` has been there all the time. -/
theorem RingOrder.there_before (h : RingOrder (s 0))
    (hround : ∀ i < k, PingRound L id (s i) (s (i + 1)))
    (hthere : ∃ g ∈ (s k).flist, g.node.id = id) :
  ∀ i ≤ k, ∃ g ∈ (s i).flist, g.node.id = id
  := by
  intro i hi
  induction hi using Nat.decreasingInduction with
  | self => exact hthere
  | of_succ j hj ih =>
      obtain ⟨g, hg, hid⟩ := ih
      obtain ⟨f, hf, hnode⟩ := (hround j hj).mem_of_mem (h.pingRounds hround j (by omega)) hg
      exact ⟨f, hf, by rw [hnode, hid]⟩

/-- A finger that is there after `k` calls of `ping` had a deadline of at least `k`. -/
theorem RingOrder.le_deadline (h : RingOrder (s 0))
    (hround : ∀ i < k, PingRound L id (s i) (s (i + 1)))
    (hthere : ∃ g ∈ (s k).flist, g.node.id = id) :
  k ≤ deadline id (s 0)
  := by
  have hbefore := h.there_before hround hthere
  apply chain_length_le (r := fun a b => deadline id b < deadline id a) (deadline id)
    fun _ _ hlt => hlt
  intro i hi
  obtain ⟨f, hf, rfl⟩ := hbefore i (by omega)
  apply deadline_lt (h.pingRounds hround i (by omega)) hf (hround i hi) (hbefore (i + 1) hi)

/-- Wherever the cursor stands, a finger that does not answer is gone after a number of calls of
`ping` that depends on the number of fingers only. -/
theorem RingOrder.gone (h : RingOrder (s 0)) (hf : f ∈ (s 0).flist)
    (hround : ∀ i < k, PingRound L f.node.id (s i) (s (i + 1)))
    (hk : ((s 0).flist.length + 2) ^ 2 ≤ k) :
  ∀ g ∈ (s k).flist, g.node.id ≠ f.node.id
  := by
  intro g hg hid
  have hlong := h.le_deadline hround ⟨g, hg, hid⟩
  have hshort := deadline_lt_square h hf
  omega

end Rounds

/-! ### Calls that may stop the process -/

section Calls

variable {ios : ℕ → Io} {answers : ℕ → ChordServer → ChordServer} {s t : ChordServer} {j k : ℕ}

theorem pingRounds_succ_eq_ok :
  pingRounds L ios answers srv (k + 1) = .ok t ↔
    ∃ s, pingRounds L ios answers srv k = .ok s ∧ PingSafe s ∧
      answers k (ping L (ios k) s).1 = t
  := by
  rw [pingRounds]
  constructor
  · intro h
    obtain ⟨s, hs, h⟩ := Except.bind_eq_ok.mp h
    obtain ⟨r, hr, h⟩ := Except.bind_eq_ok.mp h
    have hsafe := Serve.safe_of_ping_eq hr
    rw [Serve.ping_of_safe hsafe] at hr
    cases hr
    cases h
    exact ⟨s, hs, hsafe, rfl⟩
  · rintro ⟨s, hs, hsafe, rfl⟩
    rw [hs, Except.ok_bind, Serve.ping_of_safe hsafe]
    rfl

/-- The calls before one that returns have returned. -/
theorem exists_pingRounds_eq (h : pingRounds L ios answers srv k = .ok t) (hj : j ≤ k) :
  ∃ s, pingRounds L ios answers srv j = .ok s
  := by
  induction hj using Nat.decreasingInduction with
  | self => exact ⟨t, h⟩
  | of_succ j hj ih =>
      obtain ⟨s', hs'⟩ := ih
      obtain ⟨s, hs, -⟩ := pingRounds_succ_eq_ok.mp hs'
      exact ⟨s, hs⟩

variable (hanswers : ∀ k s, OthersAnswer id s (answers k s))

include hanswers

/-- Calls that return are rounds. -/
theorem exists_rounds (h : pingRounds L ios answers srv k = .ok t) :
  ∃ s : ℕ → ChordServer, (∀ j ≤ k, pingRounds L ios answers srv j = .ok (s j)) ∧
    ∀ j < k, PingRound L id (s j) (s (j + 1))
  := by
  have hnonempty : Nonempty ChordServer := ⟨t⟩
  choose! s hs using fun j (hj : j ≤ k) => exists_pingRounds_eq h hj
  refine ⟨s, hs, ?_⟩
  intro j hj
  obtain ⟨s', hs', -, heq⟩ := pingRounds_succ_eq_ok.mp (hs (j + 1) hj)
  rw [hs j hj.le] at hs'
  cases hs'
  rw [← heq]
  exact ⟨ios j, hanswers j _⟩

/-- What the calls leave of the server: its node, its socket, and nodes of fingers it had. -/
theorem pingRounds_kept (horder : RingOrder srv) (h : pingRounds L ios answers srv k = .ok t) :
  t.node = srv.node ∧ t.isV6 = srv.isV6 ∧ RingOrder t ∧
    ∀ g ∈ t.flist, ∃ f ∈ srv.flist, f.node = g.node
  := by
  induction k generalizing t with
  | zero =>
      cases h
      exact ⟨rfl, rfl, horder, fun g hg => ⟨g, hg, rfl⟩⟩
  | succ k ih =>
      obtain ⟨s, hs, -, rfl⟩ := pingRounds_succ_eq_ok.mp h
      obtain ⟨hnode, hv6, hring, hmem⟩ := ih hs
      have hround : PingRound L id s (answers k (ping L (ios k) s).1) :=
        ⟨ios k, hanswers k _⟩
      have hothers := hanswers k (ping L (ios k) s).1
      refine ⟨?_, ?_, hring.pingRound hround, ?_⟩
      · rw [hothers.node, ping_node, hnode]
      · rw [hothers.isV6, ping_isV6, hv6]
      · intro g hg
        obtain ⟨f, hf, hfg⟩ := hround.mem_of_mem hring hg
        obtain ⟨f', hf', hff⟩ := hmem f hf
        exact ⟨f', hf', hff.trans hfg⟩

/-- A finger that is gone stays away. -/
theorem gone_of_gone (horder : RingOrder srv) (hs : pingRounds L ios answers srv j = .ok s)
    (ht : pingRounds L ios answers srv k = .ok t) (hjk : j ≤ k)
    (hgone : ∀ g ∈ s.flist, g.node.id ≠ id) :
  ∀ g ∈ t.flist, g.node.id ≠ id
  := by
  obtain ⟨r, hr, hround⟩ := exists_rounds hanswers ht
  have hstart : RingOrder (r 0) := by
    cases hr 0 (Nat.zero_le k)
    exact horder
  obtain rfl : r j = s := by simpa [hs] using (hr j hjk).symm
  obtain rfl : r k = t := by simpa [ht] using (hr k le_rfl).symm
  intro g hg hid
  obtain ⟨g', hg', hid'⟩ := hstart.there_before hround ⟨g, hg, hid⟩ j hjk
  exact hgone g' hg' hid'

variable {n : ℕ}

omit hanswers in
/-- As long as `ping` gets past every finger, it drops the one that does not answer. -/
theorem droppedWithin_of_safe (horder : RingOrder srv)
    (hanswers : ∀ k s, OthersAnswer f.node.id s (answers k s)) (hf : f ∈ srv.flist)
    (hn : (srv.flist.length + 2) ^ 2 ≤ n)
    (hsafe : ∀ k s, pingRounds L ios answers srv k = .ok s →
      (∃ g ∈ s.flist, g.node.id = f.node.id) → PingSafe s) :
  DroppedWithin L ios answers srv f.node.id n
  := by
  by_contra hnot
  have hthere : ∀ k ≤ n, ∀ s, pingRounds L ios answers srv k = .ok s →
      ∃ g ∈ s.flist, g.node.id = f.node.id := by
    intro k hk s hs
    by_contra hgone
    push Not at hgone
    exact hnot ⟨k, hk, s, hs, hgone⟩
  have hall : ∀ k ≤ n, ∃ s, pingRounds L ios answers srv k = .ok s := by
    intro k
    induction k with
    | zero => exact fun _ => ⟨srv, rfl⟩
    | succ k ih =>
        intro hk
        obtain ⟨s, hs⟩ := ih (by omega)
        exact ⟨_, pingRounds_succ_eq_ok.mpr
          ⟨s, hs, hsafe k s hs (hthere k (by omega) s hs), rfl⟩⟩
  obtain ⟨t, ht⟩ := hall n le_rfl
  obtain ⟨r, hr, hround⟩ := exists_rounds hanswers ht
  have hstart : r 0 = srv := by simpa [pingRounds] using (hr 0 (Nat.zero_le n)).symm
  obtain ⟨g, hg, hid⟩ := hthere n le_rfl (r n) (hr n le_rfl)
  rw [← hstart] at horder hf hn
  exact horder.gone hf hround hn g hg hid

/-- As long as the finger is there, `ping` has got past every finger if it drops it in the end. -/
theorem safe_of_droppedWithin (horder : RingOrder srv)
    (hdropped : DroppedWithin L ios answers srv id n)
    (hs : pingRounds L ios answers srv k = .ok s) (hthere : ∃ g ∈ s.flist, g.node.id = id) :
  PingSafe s
  := by
  obtain ⟨j, -, t, ht, hgone⟩ := hdropped
  have hkj : k + 1 ≤ j := by
    by_contra hlt
    obtain ⟨g, hg, hid⟩ := hthere
    exact gone_of_gone hanswers horder ht hs (by omega) hgone g hg hid
  obtain ⟨s', hs'⟩ := exists_pingRounds_eq ht hkj
  obtain ⟨s'', hs'', hsafe, -⟩ := pingRounds_succ_eq_ok.mp hs'
  rw [hs] at hs''
  cases hs''
  exact hsafe

omit hanswers in
/-- Before a finger is dropped, its text and that of the server have fitted. -/
theorem fits_of_droppedWithin (horder : RingOrder srv)
    (hanswers : ∀ k s, OthersAnswer f.node.id s (answers k s)) (hf : f ∈ srv.flist)
    (hdropped : DroppedWithin L ios answers srv f.node.id n) :
  textFits srv.node.addr ∧ textFits f.node.addr
  := by
  obtain ⟨k, -, t, ht, hgone⟩ := hdropped
  induction k generalizing t with
  | zero =>
      cases ht
      exact absurd rfl (hgone f hf)
  | succ k ih =>
      obtain ⟨s, hs, hsafe, rfl⟩ := pingRounds_succ_eq_ok.mp ht
      by_cases hthere : ∃ g ∈ s.flist, g.node.id = f.node.id
      · obtain ⟨g, hg, hid⟩ := hthere
        obtain ⟨hnode, -, hring, hmem⟩ := pingRounds_kept hanswers horder hs
        obtain ⟨f', hf', hfg⟩ := hmem g hg
        obtain rfl := horder.eq_of_id_eq hf' hf (by rw [hfg, hid])
        have hdead : pingThresh ≤ g.npings := by
          by_contra hlive
          obtain ⟨g', hg', hnode'⟩ := there_after hring
            (hanswers k (ping L (ios k) s).1) hg (not_le.mp hlive)
          exact hgone g' hg' (by rw [hnode', hid])
        obtain ⟨j, hj⟩ := List.mem_iff_getElem?.mp hg
        have hpasses := hsafe (g, j) (List.mk_mem_zipIdx_iff_getElem?.mpr hj)
        have htexts := hpasses.texts hdead
        rwa [hnode, ← hfg] at htexts
      · push Not at hthere
        apply ih s hs hthere

/-- If all texts fit and the server can send to all its fingers, `ping` gets past every finger in
all the calls. -/
theorem safe_of_fits (horder : RingOrder srv) (hsrv : textFits srv.node.addr)
    (hfits : ∀ g ∈ srv.flist, textFits g.node.addr ∧ CanSendTo srv g.node.addr)
    (hs : pingRounds L ios answers srv k = .ok s) :
  PingSafe s
  := by
  obtain ⟨hnode, hv6, -, hmem⟩ := pingRounds_kept hanswers horder hs
  rintro ⟨g, j⟩ hg
  obtain ⟨f, hf, hfg⟩ := hmem g (List.fst_mem_of_mem_zipIdx hg)
  obtain ⟨htext, hcan⟩ := hfits f hf
  rw [hfg] at htext hcan
  constructor
  · intro _
    rw [hnode]
    exact ⟨hsrv, htext⟩
  · intro _
    rw [CanSendTo, hv6]
    exact hcan

end Calls

/-- Wherever the cursor stands, a finger that does not answer is gone after at most `(n + 2) ^ 2`
calls of `ping`, for a list of `n` fingers, if and only if each call, as long as the finger is
there, finds a state in which `ping` gets past every finger.  It does if all texts fit and the
server can send to all fingers; and it drops no finger whose text, or that of the server, does not
fit. -/
theorem dead_finger_dropped_iff (h : Reachable L srv) (hf : f ∈ srv.flist) (toPing : ℕ)
    (io : ℕ → Io) (answers : ℕ → ChordServer → ChordServer)
    (hanswers : ∀ k s, OthersAnswer f.node.id s (answers k s)) :
  (DroppedWithin L io answers { srv with toPing := toPing } f.node.id
      ((srv.flist.length + 2) ^ 2) ↔
    ∀ k s, pingRounds L io answers { srv with toPing := toPing } k = .ok s →
      (∃ g ∈ s.flist, g.node.id = f.node.id) → PingSafe s) ∧
    (textFits srv.node.addr →
      (∀ g ∈ srv.flist, textFits g.node.addr ∧ CanSendTo srv g.node.addr) →
      DroppedWithin L io answers { srv with toPing := toPing } f.node.id
        ((srv.flist.length + 2) ^ 2)) ∧
    ∀ n, DroppedWithin L io answers { srv with toPing := toPing } f.node.id n →
      textFits srv.node.addr ∧ textFits f.node.addr
  := by
  have horder : RingOrder { srv with toPing := toPing } := h.tableInv.order
  refine ⟨⟨?_, ?_⟩, ?_, ?_⟩
  · intro hdropped k s hs hthere
    apply safe_of_droppedWithin hanswers horder hdropped hs hthere
  · intro hsafe
    apply droppedWithin_of_safe horder hanswers hf le_rfl hsafe
  · intro hsrv hfits
    apply droppedWithin_of_safe horder hanswers hf le_rfl
    intro k s hs _
    apply safe_of_fits hanswers horder hsrv hfits hs
  · intro n hdropped
    apply fits_of_droppedWithin horder hanswers hf hdropped

/-! ### A sample -/

/-- A server with fingers for two peers, and its cursor behind the end. -/
def sampleCursorBehind : ChordServer :=
  { sampleServer (samplePeer 1 0) [samplePeer 2 0, samplePeer 3 0] with toPing := 7 }

/-- If no finger answers, the first of the two is gone after 16 calls. -/
theorem dead_finger_dropped_iff_sample :
  (samplePeer 2 0).node sampleLibrary ∈ sampleCursorBehind.flist.map (·.node) ∧
    DroppedWithin sampleLibrary (fun _ => sampleIo) (fun _ s => s) sampleCursorBehind
      ((samplePeer 2 0).node sampleLibrary).id 16
  := by
  refine ⟨by decide, ?_⟩
  apply (dead_finger_dropped_iff (f := ⟨(samplePeer 2 0).node sampleLibrary, .active, 0, 0, 0⟩)
    (sampleServer_reachable (samplePeer 1 0) [samplePeer 2 0, samplePeer 3 0]) (by decide) 7
    (fun _ => sampleIo) (fun _ s => s) fun _ _ => .refl _ _).2.1
  · decide +kernel
  · decide +kernel

/-- The peer `[2001:db8:1:2:3:4:5:6]:1`. -/
def sampleLongPeer : Peer :=
  ⟨⟨[0x20, 0x01, 0x0d, 0xb8, 0, 1, 0, 2, 0, 3, 0, 4, 0, 5, 0, 6], rfl⟩, 1⟩

/-- A server with a finger for that peer. -/
def sampleLong : ChordServer :=
  sampleServer (samplePeer 1 0) [sampleLongPeer]

/-- The text of the address has 20 characters.  The sixth call of `ping` writes it into a buffer for
16, and the finger is never dropped. -/
theorem long_text_overruns :
  Reachable sampleLibrary sampleLong ∧
    sampleLongPeer.node sampleLibrary ∈ sampleLong.flist.map (·.node) ∧
    (inetNtop sampleLongPeer.addr).length = 20 ∧
    pingRounds sampleLibrary (fun _ => sampleIo) (fun _ s => s) sampleLong 6
      = .error .overrun ∧
    ∀ n, ¬ DroppedWithin sampleLibrary (fun _ => sampleIo) (fun _ s => s) sampleLong
      (sampleLongPeer.node sampleLibrary).id n
  := by
  have hreach : Reachable sampleLibrary sampleLong :=
    sampleServer_reachable (samplePeer 1 0) [sampleLongPeer]
  refine ⟨hreach, by decide, by decide +kernel, rfl, ?_⟩
  intro n hdropped
  have htexts := fits_of_droppedWithin
    (f := ⟨sampleLongPeer.node sampleLibrary, .active, 0, 0, 0⟩) hreach.tableInv.order
    (fun _ _ => .refl _ _) (by decide) hdropped
  have hlong : ¬ textFits sampleLongPeer.addr := by decide +kernel
  exact hlong htexts.2

end Tangent

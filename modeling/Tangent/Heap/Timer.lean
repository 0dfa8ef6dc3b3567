import Tangent.Heap.Process
import Tangent.Serve

/-!
# The maintenance timer in memory

On a heap that holds a server, a tick goes like the tick of that server.  The walks of
`fix_succs_preds` along `next` and `prev` end where the walks along the list end, and compare
pointers where those compare identifiers.  A tick uses no new memory.
-/

namespace Tangent

open DoublyLinked

theorem ListedServer.withoutTable_removeFinger {A : Type} [DecidableEq A] (t : ListedServer A)
    (e : A × Finger) :
  (t.removeFinger e).members.withoutTable = t.members.withoutTable
  := by
  rw [ListedServer.removeFinger, ListedServer.refreshRange]
  split
  · split
    · rfl
    · rfl
  · split
    · rfl
    · rfl

/-- The last finger of a list has no finger behind it. -/
theorem ListedServer.Named.getLast_iff {A : Type} {t : ListedServer A} {e : A × Finger}
    {l₁ l₂ : List (A × Finger)} (h : t.Named) (hl : t.fingers = l₁ ++ e :: l₂) :
  t.forget.flist.getLast?.map (·.node.id) = some e.2.node.id ↔ l₂ = []
  := by
  rw [ListedServer.flist_forget, List.getLast?_map, Option.map_map, hl]
  rcases List.eq_nil_or_concat' l₂ with rfl | ⟨l₀, y, rfl⟩
  · simp
  · have hne : y.2.node.id ≠ e.2.node.id := by
      apply h.id_ne hl
      simp
    rw [← List.cons_append, ← List.append_assoc, List.getLast?_concat]
    simp [hne]

namespace HeapServer

variable {A : Type} [DecidableEq A] {srv : HeapServer A} {t : ListedServer A}
  {e succ : A × Finger} {l₁ l₂ fs rest : List (A × Finger)} {fuel k n idx : ℕ} {P : Prop}
  {L : Library} {io : Io} {acts : List Action}

/-! ### The walks of `fix_succs_preds` -/

omit [DecidableEq A] in
/-- The walk along `next` ends at a finger of the list. -/
theorem Refines.walkNext (h : srv.Refines t) (hl : t.fingers = l₁ ++ e :: l₂) (k : ℕ) :
  ∃ r₁ x r₂, t.fingers = r₁ ++ x :: r₂ ∧ srv.walkNext k e.1 = .ok x.1 ∧
    Tangent.walkNext k e.2 (l₂.map Prod.snd) = (x.2, r₂.map Prod.snd)
  := by
  induction k generalizing l₁ e l₂ with
  | zero => exact ⟨l₁, e, l₂, hl, rfl, by simp [Tangent.walkNext]⟩
  | succ k ih =>
      cases l₂ with
      | nil =>
          refine ⟨l₁, e, [], hl, ?_, rfl⟩
          rw [HeapServer.walkNext, h.read_eq hl, Except.ok_bind]
          rfl
      | cons g l₂ =>
          obtain ⟨r₁, x, r₂, hr, hwalk, hwalk'⟩ := ih (hl.trans (List.append_cons ..))
          refine ⟨r₁, x, r₂, hr, ?_, hwalk'⟩
          rw [HeapServer.walkNext, h.read_eq hl, Except.ok_bind]
          exact hwalk

/-- The walk along `prev` goes like the loop over the list back to the head. -/
theorem Refines.fixPredsLoop (h : srv.Refines t) (hnamed : t.Named)
    (hl : t.fingers = (e :: fs).reverse ++ rest) (hsucc : succ ∈ t.fingers)
    (hn : n + k = npredecessors) (L : Library) (io : Io) (acts : List Action) :
  srv.fixPredsLoop L io succ.1 acts n k (some e.1)
    = .ok (Tangent.fixPredsLoop L io t.forget succ.2 acts k ((e :: fs).map Prod.snd))
  := by
  induction fs generalizing e rest n k with
  | nil =>
      have hl' : t.fingers = [] ++ e :: rest := hl
      cases n with
      | zero => rfl
      | succ n =>
          rw [HeapServer.fixPredsLoop, h.read_eq hl', Except.ok_bind]
          rfl
  | cons g fs ih =>
      have hl' : t.fingers = (fs.reverse ++ [g]) ++ e :: rest := by simpa using hl
      rw [List.map_cons, List.map_cons, Tangent.fixPredsLoop]
      cases n with
      | zero =>
          rw [if_pos (by omega)]
          rfl
      | succ n =>
          have hlast := hnamed.getLast_iff hl'
          have heq := hnamed.addr_eq_iff (x := e) (y := succ) (by simp [hl']) hsucc
          have hg : t.fingers = (g :: fs).reverse ++ (e :: rest) := by simpa using hl
          have hrec := ih hg (show n + (k + 1) = npredecessors by omega)
          have hk : ¬ npredecessors ≤ k := by omega
          have hfirst : first rest = none ↔ rest = [] := by
            rw [first, Option.map_eq_none_iff, List.head?_eq_none_iff]
          rw [HeapServer.fixPredsLoop, h.read_eq hl', Except.ok_bind, if_neg hk, last_concat]
          simp only [reduceCtorEq, if_false, Option.some.injEq, hlast, heq, hfirst]
          split
          · exact hrec
          · rename_i hrest
            split
            · rfl
            · obtain ⟨y, rest, rfl⟩ := List.exists_cons_of_ne_nil hrest
              have hy : t.fingers = (fs.reverse ++ [g] ++ [e]) ++ y :: rest := by simp [hl']
              have hfix : t.forget.toFixBackup = srv.members.toFixBackup := by
                rw [h.members]
                rfl
              rw [hfix, first_cons, h.read_eq hy]
              split
              · rw [h.members]
                rfl
              · exact hrec

/-! ### Fixing successors, predecessors and fingers -/

/-- What a function of the timer leaves behind in memory and with a list of fingers: the same
fingers, and the same packets. -/
def Fixes (t : ListedServer A) (r : Except HeapFault (HeapServer A × List Action))
    (r' : ChordServer × List Action) : Prop :=
  ∃ srv' t', r = .ok (srv', r'.2) ∧ srv'.Refines t' ∧ t'.forget = r'.1 ∧ t'.fingers = t.fingers

omit [DecidableEq A] in
theorem fixes_toFixBackup (h : srv.Refines t) (i : ℕ) (acts : List Action) :
  Fixes t (.ok ({ srv with members := { srv.members with toFixBackup := i } }, acts))
    ({ t.forget with toFixBackup := i }, acts)
  := by
  refine ⟨_, ⟨{ t.members with toFixBackup := i }, t.fingers⟩, rfl, ⟨?_, h.flist⟩, rfl, rfl⟩
  rw [h.members]

omit [DecidableEq A] in
/-- The search for the predecessor stops where the list before it, read backwards, starts. -/
theorem Refines.exists_predFinger_eq (h : srv.Refines t) (hfuel : t.fingers.length ≤ fuel)
    (he : e ∈ t.fingers) (hactive : e.2.isActive) :
  ∃ p ps rest, t.fingers = (p :: ps).reverse ++ rest ∧ srv.predFinger fuel = .ok (some p.1) ∧
    (t.fingers.map Prod.snd).reverse.dropWhile (fun f => !f.isActive) = (p :: ps).map Prod.snd
  := by
  have hl := List.takeWhile_append_dropWhile (p := fun e : A × Finger => !e.2.isActive)
    (l := t.fingers.reverse)
  obtain ⟨p, ps, hd⟩ : ∃ p ps, t.fingers.reverse.dropWhile (fun e => !e.2.isActive) = p :: ps := by
    apply List.exists_cons_of_ne_nil
    intro hnil
    rw [List.dropWhile_eq_nil_iff] at hnil
    have hnot := hnil e (List.mem_reverse.mpr he)
    rw [hactive] at hnot
    cases hnot
  refine ⟨p, ps, (t.fingers.reverse.takeWhile fun e => !e.2.isActive).reverse, ?_, ?_, ?_⟩
  · rw [← List.reverse_append, ← hd, hl, List.reverse_reverse]
  · rw [h.predFinger_eq hfuel, ListedServer.predFinger, List.find?_eq_head?_dropWhile_not, hd]
    rfl
  · rw [← List.map_reverse, List.dropWhile_map, ← hd]
    rfl

omit [DecidableEq A] in
theorem Refines.sendFs_eq (h : srv.Refines t) (L : Library) (io : Io) (acts : List Action)
    (ttl : UInt8) (addr : In6Addr) (port : UInt16) :
  sendFs L io srv.members acts ttl addr port srv.members.node.addr srv.members.node.port
    = sendFs L io t.forget acts ttl addr port t.forget.node.addr t.forget.node.port
  := by
  rw [h.members, t.sendFs_forget, t.node_forget]

/-- `fix_succs_preds`. -/
theorem Refines.fixSuccsPreds (h : srv.Refines t) (hnamed : t.Named)
    (hfuel : t.fingers.length ≤ fuel) (L : Library) (io : Io) (acts : List Action) :
  Fixes t (srv.fixSuccsPreds fuel L io acts) (Tangent.fixSuccsPreds L io t.forget acts)
  := by
  have hsucc : srv.succFinger fuel
      = .ok ((t.fingers.find? fun e => e.2.isActive).map Prod.fst) :=
    search_eq h.flist.forward hfuel
  have hl := List.takeWhile_append_dropWhile (p := fun e : A × Finger => !e.2.isActive)
    (l := t.fingers)
  have hfix : srv.members.toFixBackup = t.forget.toFixBackup := by
    rw [h.members]
    rfl
  rw [HeapServer.fixSuccsPreds, hsucc, Except.ok_bind, List.find?_eq_head?_dropWhile_not,
    Tangent.fixSuccsPreds, ListedServer.flist_forget, List.dropWhile_map, hfix]
  simp only [Function.comp_def]
  cases hd : t.fingers.dropWhile (fun e => !e.2.isActive) with
  | nil => exact ⟨srv, t, rfl, h, rfl, rfl⟩
  | cons f fs =>
      have hf : t.fingers = t.fingers.takeWhile (fun e => !e.2.isActive) ++ f :: fs := by
        rw [← hd, hl]
      obtain ⟨r₁, x, r₂, hr, hwalk, hwalk'⟩ := h.walkNext hf t.forget.toFixBackup
      simp only [List.head?_cons, Option.map_some, List.map_cons, hwalk, hwalk', Except.ok_bind,
        h.read_eq hr]
      cases r₂ with
      | nil => exact fixes_toFixBackup h 0 acts
      | cons y r₂ =>
          have hx : x ∈ t.fingers := by simp [hr]
          have hfind : t.fingers.find? (fun e => e.2.isActive) = some f := by
            rw [List.find?_eq_head?_dropWhile_not, hd]
            rfl
          obtain ⟨p, ps, rest, hp, hpred, hdrop⟩ := h.exists_predFinger_eq hfuel
            (List.mem_of_find?_eq_some hfind)
            (List.find?_some (p := fun e : A × Finger => e.2.isActive) hfind)
          have hloop := h.fixPredsLoop hnamed hp hx (Nat.add_zero npredecessors) L io
            (sendFs L io t.forget acts defTtl x.2.node.addr x.2.node.port t.forget.node.addr
              t.forget.node.port)
          simp only [List.map_cons, first_cons, reduceCtorEq, if_false, hpred, Except.ok_bind,
            h.sendFs_eq, hloop, hdrop]
          apply fixes_toFixBackup h

omit [DecidableEq A] in
theorem askWellKnown_forget (t : ListedServer A) (L : Library) (io : Io) (rnd i : ℕ)
    (ps : List Peer) (acts : List Action) :
  askWellKnown L io t.forget rnd i ps acts = askWellKnown L io t.members rnd i ps acts
  := by
  induction ps generalizing i acts with
  | nil => rfl
  | cons p ps ih =>
      rw [askWellKnown, askWellKnown, ih]
      rfl

omit [DecidableEq A] in
theorem moveFixFinger_forget (t : ListedServer A) (L : Library) (io : Io) (succ : Finger)
    (acts : List Action) :
  moveFixFinger L io t.forget succ acts
    = ((ListedServer.mk (moveFixFinger L io t.members succ acts).1 t.fingers).forget,
      (moveFixFinger L io t.members succ acts).2)
  := by
  have hiff : (idIsBetween (chordIdSuccessor t.forget.node.id t.forget.toFixFinger)
      t.forget.node.id succ.node.id = true ∨ t.forget.toFixFinger = 0) ↔
      (idIsBetween (chordIdSuccessor t.members.node.id t.members.toFixFinger)
        t.members.node.id succ.node.id = true ∨ t.members.toFixFinger = 0) := Iff.rfl
  rw [moveFixFinger, moveFixFinger]
  by_cases hstart : idIsBetween (chordIdSuccessor t.members.node.id t.members.toFixFinger)
      t.members.node.id succ.node.id = true ∨ t.members.toFixFinger = 0
  · rw [if_pos (hiff.mpr hstart), if_pos hstart, askWellKnown_forget]
    rfl
  · rw [if_neg (hiff.not.mpr hstart), if_neg hstart]
    rfl

omit [DecidableEq A] in
/-- The last finger can be read if there is one. -/
theorem Refines.exists_read_tail_eq (h : srv.Refines t) (hne : t.fingers ≠ []) :
  ∃ c, srv.read srv.flist.tail = .ok c
  := by
  rw [h.flist.tail_eq, last, List.getLast?_eq_some_getLast hne]
  obtain ⟨c, hread, -⟩ := h.exists_read_eq (List.getLast_mem hne)
  exact ⟨c, hread⟩

omit [DecidableEq A] in
theorem Refines.tail_eq_none_iff (h : srv.Refines t) :
  srv.flist.tail = none ↔ t.fingers = []
  := by
  rw [h.flist.tail_eq, last, Option.map_eq_none_iff, List.getLast?_eq_none_iff]

omit [DecidableEq A] in
/-- The part of `fix_fingers` that asks a finger far away. -/
theorem Refines.askFarFinger (h : srv.Refines t) (hfuel : t.fingers.length ≤ fuel)
    {succ : A} {c : Cell A Finger} (hsucc : srv.read (some succ) = .ok c) (L : Library) (io : Io)
    (acts : List Action) :
  srv.askFarFinger fuel L io (some succ) acts
    = .ok (Tangent.askFarFinger L io t.forget c.val acts)
  := by
  obtain ⟨f, hf⟩ : ∃ f, srv.closestPrecedingFinger fuel
      (chordIdSuccessor srv.members.node.id (nfingers - 1)) false = .ok f ∧
      ∃ c', srv.read (if f = none then some succ else f) = .ok c' ∧
        c'.val = (Tangent.closestPrecedingFinger t.forget
          (chordIdSuccessor t.forget.node.id (nfingers - 1)) false).getD c.val := by
    have hfinds := h.closestPrecedingFinger hfuel
      (chordIdSuccessor srv.members.node.id (nfingers - 1)) false
    rw [h.members] at hfinds ⊢
    rw [t.node_forget]
    generalize srv.closestPrecedingFinger fuel _ false = x at hfinds ⊢
    generalize Tangent.closestPrecedingFinger t.forget _ false = y at hfinds ⊢
    cases hfinds with
    | none => exact ⟨none, rfl, c, hsucc, rfl⟩
    | @some a c' read => exact ⟨some a, rfl, c', read, rfl⟩
  obtain ⟨hcpf, c', hread, hval⟩ := hf
  have hiff : (srv.members.toFixFinger = nfingers - 1 ∧ srv.flist.tail ≠ none) ↔
      (t.forget.toFixFinger = nfingers - 1 ∧ t.forget.flist ≠ []) := by
    rw [h.members, ne_eq, h.tail_eq_none_iff, ListedServer.flist_forget, ne_eq,
      List.map_eq_nil_iff]
    rfl
  rw [HeapServer.askFarFinger, Tangent.askFarFinger, hcpf, Except.ok_bind, hread, Except.ok_bind]
  simp only [hval, h.sendFs_eq]
  by_cases hlast : t.forget.toFixFinger = nfingers - 1 ∧ t.forget.flist ≠ []
  · obtain ⟨c₀, hread₀⟩ := h.exists_read_tail_eq (mt h.tail_eq_none_iff.mpr (hiff.mpr hlast).2)
    rw [if_pos (hiff.mpr hlast), if_pos hlast, hread₀]
    rfl
  · rw [if_neg (hiff.not.mpr hlast), if_neg hlast]
    rfl

omit [DecidableEq A] in
/-- `fix_fingers`. -/
theorem Refines.fixFingers (h : srv.Refines t) (hfuel : t.fingers.length ≤ fuel)
    (acts : List Action) :
  Mirrors P (fun r r' => r.2 = r'.2 ∧
      ∃ t' : ListedServer A, r.1.Refines t' ∧ t'.forget = r'.1 ∧ t'.fingers = t.fingers)
    (srv.fixFingers fuel L io acts) (Tangent.fixFingers L io t.forget acts)
  := by
  have hfinds := h.succFinger hfuel
  have hfix : srv.members.toFixFinger = t.forget.toFixFinger := by
    rw [h.members]
    rfl
  rw [HeapServer.fixFingers, Tangent.fixFingers, hfix]
  generalize hx : srv.succFinger fuel = x at hfinds ⊢
  generalize hy : Tangent.succFinger t.forget = y at hfinds ⊢
  cases hfinds with
  | none =>
      rw [Except.ok_bind]
      split
      · exact .error .assertion
      · exact .error .nullPointer
  | @some a c read =>
      rw [Except.ok_bind, read, Except.ok_bind, h.members]
      split
      · exact .error .assertion
      · have href : Refines ⟨(moveFixFinger L io t.members c.val acts).1, srv.flist⟩
            ⟨(moveFixFinger L io t.members c.val acts).1, t.fingers⟩ := ⟨rfl, h.flist⟩
        have hask := href.askFarFinger hfuel read L io
          (moveFixFinger L io t.members c.val acts).2
        simp only [hask, Except.ok_bind, moveFixFinger_forget]
        exact .ok ⟨rfl, _, href, rfl, rfl⟩

/-! ### The calls of `ping` -/

/-- The loop with the buffers makes its calls, and goes like the loop without them if they all
return. -/
theorem PingState.Refines.servePingLoop {st : PingState A} {u : ListedServer.PingState A}
    {visited es : List (A × Finger)} {i n : ℕ} (h : st.Refines u visited es)
    (hfuel : (visited ++ es).length ≤ fuel) (hn : es.length ≤ n) :
  HeapServer.servePingLoop fuel L io n (first es) i st
    = (pingCalls u.srv.members i (es.map Prod.snd)).mapError HeapFault.ofFault >>= fun _ =>
      HeapServer.pingLoop fuel L io n (first es) i st
  := by
  induction es generalizing n i st u visited with
  | nil => cases n <;> rfl
  | cons e es ih =>
      obtain ⟨n, rfl, hn'⟩ := List.exists_of_length_cons_le hn
      have hmembers := h.srv.members
      rw [first_cons, HeapServer.servePingLoop, HeapServer.pingLoop, h.srv.read_eq h.fingers,
        Except.ok_bind, Except.ok_bind, List.map_cons, pingCalls, pingCall]
      simp only [hmembers]
      by_cases hdead : pingThresh ≤ e.2.npings
      · obtain ⟨srv', hsrv', hdrop⟩ := h.drop hfuel
        have hlen : (visited ++ es).length ≤ fuel := by
          simp only [List.length_append, List.length_cons] at hfuel ⊢
          omega
        have hrest := ih hdrop hlen hn' (i := i + 1)
        simp only [pingCalls_congr (u.srv.withoutTable_removeFinger e)] at hrest
        simp only [if_pos hdead, hsrv', Except.ok_bind, hrest, HeapServer.writeText,
          Except.mapError_bind, bind_assoc]
      · rw [if_neg hdead, if_neg hdead, if_neg hdead]
        by_cases hpinged : e.2.npings ≠ 0 ∨ u.srv.members.toPing = i
        · have hlive := (isPinged_of_live hdead).mpr hpinged
          obtain ⟨srv', hsrv', hread, hsame, hcount⟩ :=
            h.count L io (u.srv.members.toPing = i)
          simp only [decide_eq_true_eq, hsame] at hcount
          have hrest := ih hcount (by simpa using hfuel) hn' (i := i + 1)
          have hnode : (countPing e.2).node = e.2.node := rfl
          simp only [if_pos hpinged, if_pos hlive, hsrv', hread, Except.ok_bind, hsame, hnode,
            HeapServer.sendAll, sendAll_sendPing, hrest, Except.mapError_bind, bind_assoc]
          rfl
        · have hquiet := mt (isPinged_of_live hdead).mp hpinged
          rw [if_neg hpinged, if_neg hpinged, if_neg hquiet, Except.ok_bind]
          apply ih h.skip (by simpa using hfuel) hn'

theorem Refines.servePing (h : srv.Refines t) (hfuel : t.fingers.length ≤ fuel) :
  srv.servePing fuel L io
    = (pingCalls t.members 0 (t.fingers.map Prod.snd)).mapError HeapFault.ofFault >>= fun _ =>
      srv.ping fuel L io
  := by
  have hstart : PingState.Refines ⟨srv, [], none⟩ ⟨t, [], none⟩ [] t.fingers :=
    ⟨h, rfl, rfl, rfl, by simp⟩
  rw [HeapServer.servePing, HeapServer.ping, h.flist.head_eq, hstart.servePingLoop hfuel hfuel,
    bind_assoc]

/-! ### The timer -/

omit [DecidableEq A] in
/-- The part of `stabilize` that pings the predecessor. -/
theorem Refines.pingPred (h : srv.Refines t) (hfuel : t.fingers.length ≤ fuel) (idx : ℕ)
    (acts : List Action) :
  Mirrors P Eq (srv.pingPred fuel L io idx acts) (Tangent.pingPred L io t.forget idx acts)
  := by
  have hfinds := h.predFinger hfuel
  rw [HeapServer.pingPred, Tangent.pingPred]
  split
  · generalize srv.predFinger fuel = x at hfinds ⊢
    generalize Tangent.predFinger t.forget = y at hfinds ⊢
    cases hfinds with
    | none => exact .error .assertion
    | some read =>
        simp only [Except.ok_bind, read]
        rw [h.members]
        exact .ok rfl
  · exact .ok rfl

omit [DecidableEq A] in
theorem joinWellKnown_forget (t : ListedServer A) (L : Library) (io : Io) (ps : List Peer)
    (acts : List Action) :
  joinWellKnown L io t.forget ps acts = joinWellKnown L io t.members ps acts
  := by
  induction ps generalizing acts with
  | nil => rfl
  | cons p ps ih =>
      rw [joinWellKnown, joinWellKnown, ih]
      rfl

/-- A tick leaves a server the heap holds, and the same packets. -/
structure Tick.Mirrors (r : Tick A) (r' : Tangent.Tick) : Prop where
  srv : r.srv.Holds r'.srv
  acts : r.acts = r'.acts

/-- What `stabilize` does behind `ping`, if there is a successor. -/
theorem Refines.stabilize_fix (h : srv.Refines t) (hnamed : t.Named)
    (hfuel : t.fingers.length ≤ fuel) (idx : ℕ) (acts : List Action) :
  Tangent.Mirrors P Tick.Mirrors
    (do
      let acts ← srv.pingPred fuel L io idx acts
      let (srv, acts) ← srv.fixSuccsPreds fuel L io acts
      let (srv, acts) ← srv.fixFingers fuel L io acts
      if idx % chordCleanPeriod = 0 then
        let srv ← srv.cleanFingerList fuel
        return ⟨srv, acts, idx + 1⟩
      return ⟨srv, acts, idx + 1⟩)
    (do
      let acts ← Tangent.pingPred L io t.forget idx acts
      let (srv, acts) := Tangent.fixSuccsPreds L io t.forget acts
      let (srv, acts) ← Tangent.fixFingers L io srv acts
      if idx % chordCleanPeriod = 0 then
        let srv ← Tangent.cleanFingerList srv
        return ⟨srv, acts, idx + 1⟩
      return ⟨srv, acts, idx + 1⟩)
  := by
  apply (h.pingPred hfuel idx acts).bind
  rintro acts _ - rfl
  obtain ⟨srv₁, t₁, h₁, href₁, hforget₁, hfingers₁⟩ := h.fixSuccsPreds hnamed hfuel L io acts
  rw [h₁, Except.ok_bind]
  generalize Tangent.fixSuccsPreds L io t.forget acts = q at hforget₁ ⊢
  obtain ⟨s₁, acts₁⟩ := q
  subst hforget₁
  simp only
  apply (href₁.fixFingers (hfingers₁ ▸ hfuel) acts₁).bind
  rintro ⟨srv₂, acts₂⟩ ⟨s₂, acts₂'⟩ - ⟨rfl, t₂, href₂, rfl, hfingers₂⟩
  rw [hfingers₁] at hfingers₂
  have hnamed₂ : t₂.Named := ⟨hfingers₂ ▸ hnamed.addresses, hfingers₂ ▸ hnamed.ids⟩
  simp only
  split
  · obtain ⟨srv₃, hclean, href₃⟩ := href₂.cleanFingerList (hfingers₂ ▸ hfuel)
    rw [hclean, ListedServer.cleanFingerList_forget hnamed₂]
    exact .ok ⟨⟨_, href₃, hnamed₂.cleanFingerList, rfl⟩, rfl⟩
  · exact .ok ⟨⟨t₂, href₂, hnamed₂, rfl⟩, rfl⟩

/-- `stabilize`. -/
theorem Refines.stabilize (h : srv.Refines t) (hnamed : t.Named)
    (hfuel : t.fingers.length ≤ fuel) (idx : ℕ) :
  Tangent.Mirrors P Tick.Mirrors (srv.stabilize fuel L io idx)
    (Serve.stabilize L io t.forget idx)
  := by
  have hhead : srv.flist.head = none ↔ t.forget.flist = [] := by
    rw [h.flist.head_eq, first, Option.map_eq_none_iff, List.head?_eq_none_iff,
      ListedServer.flist_forget, List.map_eq_nil_iff]
  rw [HeapServer.stabilize, Serve.stabilize, Tangent.stabilize]
  by_cases hnil : t.forget.flist = []
  · rw [if_pos (hhead.mpr hnil), if_pos hnil, if_pos hnil, h.members, joinWellKnown_forget]
    exact .ok ⟨h.holds_forget hnamed, rfl⟩
  · have hsame : t.forget.withoutTable = t.members.withoutTable := rfl
    have hcalls : pingCalls t.forget 0 t.forget.flist
        = pingCalls t.members 0 (t.fingers.map Prod.snd) := pingCalls_congr hsame 0 _
    rw [if_neg (hhead.not.mpr hnil), if_neg hnil, if_neg hnil, h.servePing hfuel, Serve.ping_eq,
      hcalls]
    cases pingCalls t.members 0 (t.fingers.map Prod.snd) with
    | error e => exact .error e
    | ok u =>
        have hmap : (Except.ok u : Except Fault Unit).mapError HeapFault.ofFault = .ok u := rfl
        obtain ⟨srv₁, h₁, href₁⟩ := h.ping hfuel L io
        have hlen : (t.ping L io).1.fingers.length ≤ fuel :=
          (ListedServer.length_pingLoop_le L io t.fingers 0 ⟨t, [], none⟩).trans hfuel
        have hnamed₁ := hnamed.ping L io
        have hfinds := href₁.succFinger hlen
        simp only [hmap, Except.ok_bind, h₁, ListedServer.ping_forget hnamed]
        generalize srv₁.succFinger fuel = x at hfinds ⊢
        generalize Tangent.succFinger (t.ping L io).1.forget = y at hfinds ⊢
        cases hfinds with
        | none => exact .ok ⟨href₁.holds_forget hnamed₁, rfl⟩
        | some read =>
            simp only [Except.ok_bind, read]
            rw [href₁.members, ← (t.ping L io).1.node_forget]
            apply href₁.stabilize_fix hnamed₁ hlen

/-! ### An event -/

/-- What an event leaves behind: a server the heap holds, and the same packets. -/
structure Reacts (r : HeapServer A × List Action) (r' : ChordServer × List Action) : Prop where
  srv : r.1.Holds r'.1
  acts : r.2 = r'.2

/-- An event goes like the event with a list of fingers. -/
theorem Holds.react {s : ChordServer} (h : srv.Holds s) (hfuel : s.flist.length < fuel)
    (choice : Option A) (ev : Event) :
  Mirrors (∀ a, choice = some a → srv.InUse a) Reacts (srv.react fuel L choice ev)
    (Serve.react L s ev)
  := by
  obtain ⟨t, href, hnamed, rfl⟩ := h
  rw [ListedServer.flist_forget, List.length_map] at hfuel
  cases ev with
  | packet frm msg io =>
      apply (href.process_mirrors hnamed hfuel msg (frm.node L)).map
      intro o out ho
      exact ⟨ho.srv, ho.acts⟩
  | tick idx io =>
      apply (href.stabilize hnamed hfuel.le idx).map
      intro r r' hr
      exact ⟨hr.srv, hr.acts⟩
  | discover io =>
      refine .ok ⟨href.holds_forget hnamed, ?_⟩
      rw [href.members]
      rfl

end HeapServer

end Tangent

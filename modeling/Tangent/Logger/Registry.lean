import Tangent.Logger.Hashmap

/-!
# One logger for each name

The map of loggers is only added to, so it is a map whatever the names hash to.  As long as
memory does not run out, `clog_get_logger` gives the logger it has given for the name before, and
different loggers for different names.
-/

namespace Tangent.Logger

open Probing

variable {calloc : ℕ → Bool} {c c' : Clog} {opens : Bool} {name : Bytes} {l : Option ℕ}
  {m m' : Hashmap ℕ} {ctxs : List LoggerCtx} {ctx : LoggerCtx} {status : MapStatus}

/-! ### The map of loggers -/

/-- The map holds loggers under their names. -/
def NamesLoggers (m : Hashmap ℕ) (ctxs : List LoggerCtx) : Prop :=
  ∀ name l, content m.data name = some l → ∃ ctx, ctxs[l]? = some ctx ∧ ctx.name = name

theorem NamesLoggers.empty (tableSize : ℕ) :
  NamesLoggers (.empty tableSize) ctxs
  := by
  intro name l hl
  rw [content_empty] at hl
  cases hl

/-- A logger more does not matter to those that are in the map. -/
theorem NamesLoggers.append (h : NamesLoggers m ctxs) (ctx : LoggerCtx) :
  NamesLoggers m (ctxs ++ [ctx])
  := by
  intro name l hl
  obtain ⟨ctx', hctx, hname⟩ := h name l hl
  refine ⟨ctx', ?_, hname⟩
  rw [List.getElem?_append_left (List.getElem?_eq_some_iff.mp hctx).1, hctx]

/-- A logger is put into the map under its name. -/
theorem NamesLoggers.put (h : NamesLoggers m ctxs) (htidy : Tidy m) (ctx : LoggerCtx)
    (hname : ctx.name = name)
    (hput : hashmapPut calloc m name ctxs.length = some (status, m')) :
  Tidy m' ∧ NamesLoggers m' (ctxs ++ [ctx]) ∧ (status = .ok →
    content m'.data = Function.update (content m.data) name (some ctxs.length))
  := by
  have hresult := htidy.put_result htidy.not_duplicates hput
  have happend := h.append ctx
  cases status with
  | ok =>
      obtain ⟨-, hkept, hmap⟩ := hresult
      refine ⟨hkept htidy, ?_, fun _ => hmap⟩
      intro name' l' hl'
      rw [hmap] at hl'
      by_cases heq : name' = name
      · subst heq
        rw [Function.update_self] at hl'
        cases hl'
        exact ⟨ctx, by simp, hname⟩
      · rw [Function.update_of_ne heq] at hl'
        apply happend name' l' hl'
  | omem =>
      obtain ⟨-, hkept, hsub⟩ := hresult
      refine ⟨hkept htidy, fun name' l' hl' => happend name' l' (hsub name' l' hl'), ?_⟩
      intro hok
      cases hok
  | _ => exact hresult.elim

/-! ### One call -/

/-- The map of loggers, if there is one, has no gaps, and holds loggers under their names. -/
structure Registry (c : Clog) : Prop where
  tidy : ∀ m, c.loggers = some m → Tidy m
  entry : ∀ m, c.loggers = some m → NamesLoggers m c.ctxs

/-- The logger the map holds under a name. -/
def Clog.held (c : Clog) (name : Bytes) : Option ℕ :=
  c.loggers.bind fun m => content m.data name

theorem Registry.ctx_of_held {l : ℕ} (h : Registry c) (hl : c.held name = some l) :
  ∃ ctx, c.ctxs[l]? = some ctx ∧ ctx.name = name
  := by
  obtain ⟨m, hm, hcontent⟩ := Option.bind_eq_some_iff.mp hl
  apply h.entry m hm name l hcontent

/-- A logger that is found is the one in the map, and a logger that is not found is added to
it, unless it cannot be opened. -/
theorem Registry.getLogger_cases (h : Registry c) (hm : c.loggers = some m)
    (calloc : ℕ → Bool) (opens : Bool) (name : Bytes) :
  (∃ l, content m.data name = some l ∧
      clogGetLogger calloc c opens name = .ok (some l, c)) ∨
    (opens = false ∧ clogGetLogger calloc c opens name = .error .nullPointer) ∨
    (content m.data name = none ∧ ∃ status m',
      hashmapPut calloc m name c.ctxs.length = some (status, m') ∧
      clogGetLogger calloc c opens name
        = .ok (if status = .ok then some c.ctxs.length else none,
          ⟨some m', c.clogDefaultLogLevel,
            c.ctxs ++ [⟨name, c.clogDefaultLogLevel, [], false⟩]⟩))
  := by
  have htidy := h.tidy m hm
  have hget : clogGetLogger calloc c opens name
      = clogGetLogger calloc { c with loggers := some m } opens name := by
    rw [← hm]
  rw [hget, clogGetLogger]
  simp only [htidy.hashmapGet_eq]
  cases hcontent : content m.data name with
  | some l => exact .inl ⟨l, rfl, by rw [← hm]; rfl⟩
  | none =>
      right
      cases opens with
      | false => exact .inl ⟨rfl, rfl⟩
      | true =>
          obtain ⟨⟨status, m'⟩, hput⟩ := htidy.exists_put calloc name c.ctxs.length
          have hnew : (c.ctxs ++ [⟨name, c.clogDefaultLogLevel, [], false⟩])[c.ctxs.length]?
              = some ⟨name, c.clogDefaultLogLevel, [], false⟩ := by simp
          refine .inr ⟨rfl, status, m', hput, ?_⟩
          simp only [found, loggerCtxNewFile, if_true, clogAddLogger, Option.bind_some, hnew,
            Option.map_some, hput]
          by_cases hok : status = .ok
          · simp [hok]
          · simp [hok]

/-- After a call that returns, the map is one of loggers again. -/
theorem Registry.getLogger (h : Registry c)
    (hget : clogGetLogger calloc c opens name = .ok (l, c')) :
  Registry c'
  := by
  cases hm : c.loggers with
  | none =>
      rw [clogGetLogger, hm] at hget
      cases hget
  | some m =>
      rcases h.getLogger_cases hm calloc opens name with
        ⟨l₁, -, heq⟩ | ⟨-, heq⟩ | ⟨-, status, m', hput, heq⟩
      · rw [heq] at hget
        cases hget
        exact h
      · rw [heq] at hget
        cases hget
      · rw [heq] at hget
        cases hget
        obtain ⟨htidy, hnames, -⟩ := (h.entry m hm).put (h.tidy m hm)
          ⟨name, c.clogDefaultLogLevel, [], false⟩ rfl hput
        constructor
        · rintro _ ⟨⟩
          exact htidy
        · rintro _ ⟨⟩
          exact hnames

/-- A logger that a call gives is held under its name, and those that were held still are. -/
theorem Registry.held_getLogger {l : ℕ} (h : Registry c)
    (hget : clogGetLogger calloc c opens name = .ok (some l, c')) :
  c'.held name = some l ∧ ∀ name' l', c.held name' = some l' → c'.held name' = some l'
  := by
  cases hm : c.loggers with
  | none =>
      rw [clogGetLogger, hm] at hget
      cases hget
  | some m =>
      have hheld : c.held = content m.data := by
        funext name
        rw [Clog.held, hm, Option.bind_some]
      rcases h.getLogger_cases hm calloc opens name with
        ⟨l₁, hcontent, heq⟩ | ⟨-, heq⟩ | ⟨hcontent, status, m', hput, heq⟩
      · rw [heq] at hget
        cases hget
        exact ⟨by rw [hheld, hcontent], fun _ _ hold => hold⟩
      · rw [heq] at hget
        cases hget
      · rw [heq] at hget
        by_cases hok : status = .ok
        · rw [if_pos hok] at hget
          cases hget
          obtain ⟨-, -, hmap⟩ := (h.entry m hm).put (h.tidy m hm)
            ⟨name, c.clogDefaultLogLevel, [], false⟩ rfl hput
          have hafter : ∀ ctxs, Clog.held ⟨some m', c.clogDefaultLogLevel, ctxs⟩
              = Function.update (content m.data) name (some c.ctxs.length) := by
            intro ctxs
            funext name'
            rw [Clog.held, Option.bind_some, hmap hok]
          rw [hafter, hheld]
          refine ⟨Function.update_self .., ?_⟩
          intro name' l' hold
          have hne : name' ≠ name := by
            rintro rfl
            rw [hcontent] at hold
            cases hold
          rw [Function.update_of_ne hne, hold]
        · rw [if_neg hok] at hget
          cases hget

/-- A call that returns has found a map, and leaves one. -/
theorem Registry.loggers_getLogger (h : Registry c)
    (hget : clogGetLogger calloc c opens name = .ok (l, c')) :
  c'.loggers ≠ none
  := by
  cases hm : c.loggers with
  | none =>
      rw [clogGetLogger, hm] at hget
      cases hget
  | some m =>
      rcases h.getLogger_cases hm calloc opens name with
        ⟨l₁, -, heq⟩ | ⟨-, heq⟩ | ⟨-, status, m', -, heq⟩
      · rw [heq] at hget
        cases hget
        rw [hm]
        simp
      · rw [heq] at hget
        cases hget
      · rw [heq] at hget
        cases hget
        simp

/-- A call faults only if there is no map, or if a logger cannot be opened. -/
theorem Registry.getLogger_error {f : ClogFault} (h : Registry c)
    (hget : clogGetLogger calloc c opens name = .error f) :
  f = .nullPointer ∧ (c.loggers = none ∨ opens = false)
  := by
  cases hm : c.loggers with
  | none =>
      rw [clogGetLogger, hm] at hget
      cases hget
      exact ⟨rfl, .inl rfl⟩
  | some m =>
      rcases h.getLogger_cases hm calloc opens name with
        ⟨l₁, -, heq⟩ | ⟨hopens, heq⟩ | ⟨-, status, m', -, heq⟩
      · rw [heq] at hget
        cases hget
      · rw [heq] at hget
        cases hget
        exact ⟨rfl, .inr hopens⟩
      · rw [heq] at hget
        cases hget

/-! ### Runs -/

/-- What is done with loggers: one is looked up, with what `calloc` can deliver and whether the
logger can be opened, or the level for new ones is set. -/
inductive ClogCall where
  | getLogger (calloc : ℕ → Bool) (opens : Bool) (name : Bytes)
  | setDefaultLogLevel (level : ℤ)

/-- The variables after a call, and the loggers that have been given out. -/
def clogStep (s : Clog × List (Bytes × Option ℕ)) :
    ClogCall → Except ClogFault (Clog × List (Bytes × Option ℕ))
  | .getLogger calloc opens name =>
      (clogGetLogger calloc s.1 opens name).map fun r => (r.2, s.2 ++ [(name, r.1)])
  | .setDefaultLogLevel level => .ok ({ s.1 with clogDefaultLogLevel := level }, s.2)

/-- The variables after `clog_init` and a list of calls, and the loggers they have given out. -/
def clogRun (calloc : ℕ → Bool) (malloc : Bool) (level : ℤ) (cs : List ClogCall) :
    Except ClogFault (Clog × List (Bytes × Option ℕ)) :=
  Machine.run clogStep (clogInit calloc malloc level, []) cs

theorem Registry.init (calloc : ℕ → Bool) (malloc : Bool) (level : ℤ) :
  Registry (clogInit calloc malloc level)
  := by
  have hempty : ∀ m, hashmapNew calloc malloc = some m → m = (.empty initialSize : Hashmap ℕ) := by
    intro m hm
    rw [hashmapNew] at hm
    split at hm
    · cases hm
      rfl
    · cases hm
  constructor
  · intro m hm
    rw [hempty m hm]
    exact Tidy.empty (by decide)
  · intro m hm
    rw [hempty m hm]
    apply NamesLoggers.empty

/-- The loggers that have been given out are held under their names, if none could not be given. -/
structure Recorded (s : Clog × List (Bytes × Option ℕ)) : Prop where
  registry : Registry s.1
  given : (∀ name, (name, none) ∉ s.2) → ∀ name l, (name, some l) ∈ s.2 → s.1.held name = some l

theorem Recorded.step {s s' : Clog × List (Bytes × Option ℕ)} {call : ClogCall}
    (h : Recorded s) (hs : clogStep s call = .ok s') :
  Recorded s'
  := by
  cases call with
  | setDefaultLogLevel level =>
      cases hs
      exact ⟨⟨h.registry.tidy, h.registry.entry⟩, h.given⟩
  | getLogger calloc opens name =>
      obtain ⟨⟨l, c'⟩, hget, rfl⟩ := Except.map_eq_ok.mp hs
      refine ⟨h.registry.getLogger hget, ?_⟩
      intro hnull name' l' hmem
      have hold : ∀ name, (name, none) ∉ s.2 := fun name hname =>
        hnull name (List.mem_append_left _ hname)
      have hlast : l ≠ none := by
        rintro rfl
        exact hnull name (List.mem_append_right _ List.mem_cons_self)
      obtain ⟨l₁, rfl⟩ := Option.ne_none_iff_exists'.mp hlast
      obtain ⟨hnew, hkept⟩ := h.registry.held_getLogger hget
      rcases List.mem_append.mp hmem with hmem | hmem
      · exact hkept name' l' (h.given hold name' l' hmem)
      · rw [List.mem_singleton] at hmem
        cases hmem
        exact hnew

/-- A map that is there stays there. -/
theorem Recorded.loggers_step {s s' : Clog × List (Bytes × Option ℕ)} {call : ClogCall}
    (h : Recorded s) (hm : s.1.loggers ≠ none) (hs : clogStep s call = .ok s') :
  s'.1.loggers ≠ none
  := by
  cases call with
  | setDefaultLogLevel level =>
      cases hs
      exact hm
  | getLogger calloc opens name =>
      obtain ⟨⟨l, c'⟩, hget, rfl⟩ := Except.map_eq_ok.mp hs
      apply h.registry.loggers_getLogger hget

theorem Recorded.init (calloc : ℕ → Bool) (malloc : Bool) (level : ℤ) :
  Recorded (clogInit calloc malloc level, [])
  := ⟨.init calloc malloc level, by simp⟩

variable {malloc : Bool} {level : ℤ} {cs : List ClogCall}

/-- The loggers of a run in which all could be given have the names they were given for, and
different ones for different names. -/
theorem Recorded.same_iff {rs : List (Bytes × Option ℕ)} (h : Recorded (c, rs))
    (hnull : ∀ name, (name, none) ∉ rs) {name' : Bytes} {l l' : ℕ} (hmem : (name, some l) ∈ rs)
    (hmem' : (name', some l') ∈ rs) :
  l = l' ↔ name = name'
  := by
  have hl := h.given hnull name l hmem
  have hl' := h.given hnull name' l' hmem'
  constructor
  · rintro rfl
    obtain ⟨ctx, hctx, rfl⟩ := h.registry.ctx_of_held hl
    obtain ⟨ctx', hctx', rfl⟩ := h.registry.ctx_of_held hl'
    rw [hctx] at hctx'
    cases hctx'
    rfl
  · rintro rfl
    rw [hl] at hl'
    cases hl'
    rfl

/-- A run that faults has no map, or meets a logger that cannot be opened. -/
theorem clogRun_error {f : ClogFault} (hrun : clogRun calloc malloc level cs = .error f) :
  f = .nullPointer ∧ ((hashmapNew calloc malloc : Option (Hashmap ℕ)) = none ∨
    ∃ calloc name, .getLogger calloc false name ∈ cs)
  := by
  obtain ⟨s, call, hmeets, hs⟩ := Machine.exists_meets_of_run_eq_error hrun
  have hinv : Recorded s ∧
      ((hashmapNew calloc malloc : Option (Hashmap ℕ)) ≠ none → s.1.loggers ≠ none) := by
    apply hmeets.visits.induction (P := fun s => Recorded s ∧
      ((hashmapNew calloc malloc : Option (Hashmap ℕ)) ≠ none → s.1.loggers ≠ none))
      ⟨.init calloc malloc level, id⟩
    rintro s₁ call₁ s₂ - ⟨h, hm⟩ hs₁
    exact ⟨h.step hs₁, fun hnew => h.loggers_step (hm hnew) hs₁⟩
  obtain ⟨h, hm⟩ := hinv
  cases call with
  | setDefaultLogLevel level => cases hs
  | getLogger calloc' opens name =>
      rw [clogStep] at hs
      cases hget : clogGetLogger calloc' s.1 opens name with
      | ok r =>
          rw [hget] at hs
          cases hs
      | error f' =>
          rw [hget] at hs
          cases hs
          obtain ⟨hnull, hnone | rfl⟩ := h.registry.getLogger_error hget
          · refine ⟨hnull, .inl ?_⟩
            by_contra hnew
            exact hm hnew hnone
          · exact ⟨hnull, .inr ⟨calloc', name, hmeets.mem⟩⟩

/-- Whatever loggers are looked up in whatever order after `clog_init`, whatever their names hash to
and whenever memory runs out: if no lookup has given a null pointer, two of them have given the same
logger if and only if the names are the same, and it has that name.  A lookup faults only with a
null pointer, and only if `clog_init` got no map or a logger cannot be opened. -/
theorem one_logger_per_name (calloc : ℕ → Bool) (malloc : Bool) (level : ℤ)
    (cs : List ClogCall) :
  (∀ c rs, clogRun calloc malloc level cs = .ok (c, rs) → (∀ name, (name, none) ∉ rs) →
      (∀ name l, (name, some l) ∈ rs → ∃ ctx, c.ctxs[l]? = some ctx ∧ ctx.name = name) ∧
      ∀ name l name' l', (name, some l) ∈ rs → (name', some l') ∈ rs → (l = l' ↔ name = name')) ∧
    ∀ f, clogRun calloc malloc level cs = .error f →
      f = .nullPointer ∧ ((hashmapNew calloc malloc : Option (Hashmap ℕ)) = none ∨
        ∃ calloc name, .getLogger calloc false name ∈ cs)
  := by
  constructor
  · intro c rs hrun hnull
    have hrecorded : Recorded (c, rs) :=
      Machine.run_invariant (.init calloc malloc level) (fun _ _ _ h hs => h.step hs) hrun
    constructor
    · intro name l hmem
      apply hrecorded.registry.ctx_of_held (hrecorded.given hnull name l hmem)
    · intro name l name' l' hmem hmem'
      apply hrecorded.same_iff hnull hmem hmem'
  · intro f hrun
    apply clogRun_error hrun

/-- Three lookups, the last one for the name of the first; at the second, there is no memory for a
larger map. -/
def sampleLookups : List ClogCall :=
  [.getLogger (fun _ => true) true [97], .getLogger (fun _ => false) true [98],
    .getLogger (fun _ => true) true [97]]

/-- The first and the last lookup have given the first logger, and the second another one. -/
theorem one_logger_per_name_sample :
  ∃ c, clogRun (fun _ => true) true 0 sampleLookups
      = .ok (c, [([97], some 0), ([98], some 1), ([97], some 0)]) ∧
    ∃ ctx, c.ctxs[1]? = some ctx ∧ ctx.name = [98]
  := by
  have hgiven : ((clogRun (fun _ => true) true 0 sampleLookups).toOption.map Prod.snd)
      = some [([97], some 0), ([98], some 1), ([97], some 0)] := by decide +kernel
  cases hrun : clogRun (fun _ => true) true 0 sampleLookups with
  | error f =>
      rw [hrun] at hgiven
      cases hgiven
  | ok r =>
      obtain ⟨c, rs⟩ := r
      rw [hrun] at hgiven
      cases hgiven
      refine ⟨c, rfl, ?_⟩
      obtain ⟨hnames, -⟩ := (one_logger_per_name (fun _ => true) true 0 sampleLookups).1 c _ hrun
        (by simp)
      apply hnames [98] 1
      simp

end Tangent.Logger

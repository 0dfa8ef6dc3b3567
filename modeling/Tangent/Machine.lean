import Mathlib.Data.List.Induction
import Mathlib.Order.OrderIsoNat

/-!
# Runs of a machine

A machine takes a state and an event to a state, or faults.  `run` feeds it a list of
events; a run that faults has no final state.  `run_induction` is the rule for properties
of the final state that may also speak of the events so far.
-/

/-- A computation that succeeds hands its value on. -/
@[simp]
theorem Except.ok_bind {ε α β : Type} (a : α) (k : α → Except ε β) :
  (Except.ok a >>= k) = k a
  := rfl

/-- A computation that fails hands its failure on. -/
@[simp]
theorem Except.error_bind {ε α β : Type} (e : ε) (k : α → Except ε β) :
  (Except.error e >>= k) = .error e
  := rfl

theorem Except.mapError_bind {ε ε' α β : Type} (g : ε → ε') (x : Except ε α)
    (k : α → Except ε β) :
  (x >>= k).mapError g = x.mapError g >>= fun a => (k a).mapError g
  := by
  cases x with
  | ok a => rfl
  | error e => rfl

/-- A computation followed by another succeeds when both succeed. -/
theorem Except.bind_eq_ok {ε α β : Type*} {x : Except ε α} {k : α → Except ε β} {b : β} :
  x.bind k = .ok b ↔ ∃ a, x = .ok a ∧ k a = .ok b
  := by
  cases x with
  | ok a => simp [Except.bind]
  | error e => simp [Except.bind]

/-- What follows a computation matters for the values it can return only. -/
theorem Except.bind_congr {ε α β : Type*} {x : Except ε α} {k k' : α → Except ε β}
    (h : ∀ a, x = .ok a → k a = k' a) :
  x.bind k = x.bind k'
  := by
  cases x with
  | ok a => exact h a rfl
  | error e => rfl

theorem Except.map_eq_ok {ε α β : Type*} {x : Except ε α} {g : α → β} {b : β} :
  x.map g = .ok b ↔ ∃ a, x = .ok a ∧ g a = b
  := by
  cases x with
  | ok a => simp [Except.map]
  | error e => simp [Except.map]

/-- A relation along which a measure decreases has no infinite chain. -/
theorem not_exists_chain_of_lt {α : Type*} {r : α → α → Prop} (m : α → ℕ)
    (h : ∀ a b, r a b → m b < m a) :
  ¬ ∃ c : ℕ → α, ∀ k, r (c k) (c (k + 1))
  := by
  rintro ⟨c, hc⟩
  have hanti : StrictAnti (m ∘ c) := strictAnti_nat_of_succ_lt fun k => h _ _ (hc k)
  exact not_strictAnti_of_wellFoundedLT _ hanti

/-- A chain along which a measure decreases is no longer than the measure at its start. -/
theorem chain_length_le {α : Type*} {r : α → α → Prop} (m : α → ℕ)
    (h : ∀ a b, r a b → m b < m a) {c : ℕ → α} {k : ℕ} (hc : ∀ i < k, r (c i) (c (i + 1))) :
  k ≤ m (c 0)
  := by
  have hle : k + m (c k) ≤ m (c 0) := by
    induction k with
    | zero => simp
    | succ k ih =>
        have hk := ih fun i hi => hc i (Nat.lt_succ_of_lt hi)
        have hlt := h _ _ (hc k (Nat.lt_succ_self k))
        omega
  omega

namespace Machine

variable {S E F : Type*} (step : S → E → Except F S)

/-- The state after the events of a list. -/
def run : S → List E → Except F S
  | s, [] => .ok s
  | s, e :: es =>
      match step s e with
      | .ok s' => run s' es
      | .error f => .error f

variable {step} {s s' : S} {e : E} {es es' : List E}

theorem run_cons_eq_ok :
  run step s (e :: es) = .ok s' ↔ ∃ s₁, step s e = .ok s₁ ∧ run step s₁ es = .ok s'
  := by
  simp only [run]
  cases h : step s e with
  | ok s₁ => simp
  | error f => simp

/-- A run of an appended list is a run of its first part followed by a run of its
second. -/
theorem run_append_eq_ok :
  run step s (es ++ es') = .ok s' ↔ ∃ s₁, run step s es = .ok s₁ ∧ run step s₁ es' = .ok s'
  := by
  induction es generalizing s with
  | nil => simp [run]
  | cons e es ih =>
      simp only [List.cons_append, run_cons_eq_ok, ih]
      constructor
      · rintro ⟨s₁, h₁, s₂, h₂, h₃⟩
        exact ⟨s₂, ⟨s₁, h₁, h₂⟩, h₃⟩
      · rintro ⟨s₂, ⟨s₁, h₁, h₂⟩, h₃⟩
        exact ⟨s₁, h₁, s₂, h₂, h₃⟩

theorem run_concat_eq_ok :
  run step s (es ++ [e]) = .ok s' ↔ ∃ s₁, run step s es = .ok s₁ ∧ step s₁ e = .ok s'
  := by
  simp only [run_append_eq_ok, run_cons_eq_ok]
  simp [run]

/-- A property of the events so far and the state reached holds of every run if it holds
at the start and every step extends it. -/
theorem run_induction {P : List E → S → Prop} (start : P [] s)
    (extend : ∀ es s₁ e s₂, run step s es = .ok s₁ → P es s₁ → step s₁ e = .ok s₂ →
      P (es ++ [e]) s₂)
    (h : run step s es = .ok s') :
  P es s'
  := by
  induction es using List.reverseRecOn generalizing s' with
  | nil =>
      cases h
      exact start
  | append_singleton es e ih =>
      obtain ⟨s₁, h₁, h₂⟩ := run_concat_eq_ok.mp h
      apply extend es s₁ e s' h₁ (ih h₁) h₂

/-- An invariant of the steps holds at the end of every run that starts in it. -/
theorem run_invariant {I : S → Prop} (start : I s)
    (preserve : ∀ s₁ e s₂, I s₁ → step s₁ e = .ok s₂ → I s₂)
    (h : run step s es = .ok s') :
  I s'
  := by
  apply run_induction (P := fun _ s => I s) start _ h
  intro _ s₁ e s₂ _ hI hstep
  apply preserve s₁ e s₂ hI hstep

/-- If the events that are counted lower a measure, and no event raises it, a run has no more of
them than the measure goes down. -/
theorem countP_add_le {m : S → ℕ} {I : S → Prop} {A : E → Prop} {p : E → Bool} (start : I s)
    (preserve : ∀ s₁ e s₂, A e → I s₁ → step s₁ e = .ok s₂ →
      I s₂ ∧ (if p e then 1 else 0) + m s₂ ≤ m s₁)
    (allowed : ∀ e ∈ es, A e) (h : run step s es = .ok s') :
  es.countP p + m s' ≤ m s
  := by
  induction es generalizing s with
  | nil =>
      cases h
      simp
  | cons e es ih =>
      obtain ⟨he, hes⟩ := List.forall_mem_cons.mp allowed
      obtain ⟨s₁, hs, hrun⟩ := run_cons_eq_ok.mp h
      obtain ⟨hI, hle⟩ := preserve s e s₁ he start hs
      have hrest := ih hI hes hrun
      rw [List.countP_cons]
      omega

/-- If every step from related states is matched by a step of another machine to related
states, the runs from related states are matched. -/
theorem run_simulation {S' E' F' : Type*} {step' : S' → E' → Except F' S'} {R : S → S' → Prop}
    {M : E → E' → Prop} {t : S'}
    (simulate : ∀ s t e s₁, R s t → step s e = .ok s₁ →
      ∃ e' t₁, M e e' ∧ step' t e' = .ok t₁ ∧ R s₁ t₁)
    (start : R s t) (h : run step s es = .ok s') :
  ∃ es' t', List.Forall₂ M es es' ∧ run step' t es' = .ok t' ∧ R s' t'
  := by
  induction es generalizing s t with
  | nil =>
      cases h
      exact ⟨[], t, .nil, rfl, start⟩
  | cons e es ih =>
      obtain ⟨s₁, hs, hrun⟩ := run_cons_eq_ok.mp h
      obtain ⟨e', t₁, hM, ht, hR⟩ := simulate s t e s₁ start hs
      obtain ⟨es', t', hMs, hrun', hR'⟩ := ih hR hrun
      exact ⟨e' :: es', t', .cons hM hMs, run_cons_eq_ok.mpr ⟨t₁, ht, hrun'⟩, hR'⟩

/-! ### The states and the steps of a run -/

variable (step) in
/-- The run of the events passes through a state, which it reaches by the first of them. -/
def Visits (s : S) (es : List E) (s' : S) : Prop :=
  ∃ es₁, es₁ <+: es ∧ run step s es₁ = .ok s'

variable (step) in
/-- The run of the events meets an event in a state. -/
def Meets (s : S) (es : List E) (s' : S) (e : E) : Prop :=
  ∃ es₁, es₁ ++ [e] <+: es ∧ run step s es₁ = .ok s'

theorem Meets.visits (h : Meets step s es s' e) :
  Visits step s es s'
  := by
  obtain ⟨es₁, hpre, hrun⟩ := h
  exact ⟨es₁, (List.prefix_append es₁ [e]).trans hpre, hrun⟩

/-- The state after an event a run meets is a state of the run. -/
theorem Meets.visits_step {s₁ : S} (h : Meets step s es s₁ e) (hs : step s₁ e = .ok s') :
  Visits step s es s'
  := by
  obtain ⟨es₁, hpre, hrun⟩ := h
  exact ⟨es₁ ++ [e], hpre, run_concat_eq_ok.mpr ⟨s₁, hrun, hs⟩⟩

theorem Meets.mem (h : Meets step s es s' e) :
  e ∈ es
  := by
  obtain ⟨es₁, hpre, -⟩ := h
  apply hpre.subset
  simp

theorem not_meets_nil :
  ¬ Meets step s [] s' e
  := by
  rintro ⟨es₁, hpre, -⟩
  simp at hpre

/-- A run meets its first event in its first state, and the others in a run of the rest. -/
theorem meets_cons_iff {e' : E} :
  Meets step s (e :: es) s' e' ↔
    (s = s' ∧ e = e') ∨ ∃ s₁, step s e = .ok s₁ ∧ Meets step s₁ es s' e'
  := by
  constructor
  · rintro ⟨es₁, hpre, hrun⟩
    cases es₁ with
    | nil =>
        cases hrun
        exact .inl ⟨rfl, by simpa [eq_comm] using hpre⟩
    | cons e₁ es₁ =>
        rw [List.cons_append, List.cons_prefix_cons] at hpre
        obtain ⟨rfl, hpre⟩ := hpre
        obtain ⟨s₁, hs, hrun⟩ := run_cons_eq_ok.mp hrun
        exact .inr ⟨s₁, hs, es₁, hpre, hrun⟩
  · rintro (⟨rfl, rfl⟩ | ⟨s₁, hs, es₁, hpre, hrun⟩)
    · exact ⟨[], by simp, rfl⟩
    · use e :: es₁
      rw [List.cons_append, List.cons_prefix_cons]
      exact ⟨⟨rfl, hpre⟩, run_cons_eq_ok.mpr ⟨s₁, hs, hrun⟩⟩

/-- A property holds of every state of a run if it holds at the start and every event the run
meets preserves it. -/
theorem Visits.induction {P : S → Prop} (start : P s)
    (preserve : ∀ s₁ e s₂, Meets step s es s₁ e → P s₁ → step s₁ e = .ok s₂ → P s₂)
    (h : Visits step s es s') :
  P s'
  := by
  obtain ⟨es₁, hpre, hrun⟩ := h
  apply run_induction (P := fun es₁ s' => es₁ <+: es → P s') _ _ hrun hpre
  · intro _
    exact start
  · intro es₁ s₁ e s₂ hrun hP hs hpre
    have hpre₁ := (List.prefix_append es₁ [e]).trans hpre
    apply preserve s₁ e s₂ ⟨es₁, hpre, hrun⟩ (hP hpre₁) hs

/-- What the rest of a run meets, the run meets. -/
theorem Meets.append_left {es₁ : List E} {s₁ : S} (h₁ : run step s es₁ = .ok s₁)
    (h : Meets step s₁ es s' e) :
  Meets step s (es₁ ++ es) s' e
  := by
  obtain ⟨es₂, hpre, h₂⟩ := h
  refine ⟨es₁ ++ es₂, ?_, run_append_eq_ok.mpr ⟨s₁, h₁, h₂⟩⟩
  rw [List.append_assoc]
  exact List.prefix_append_right_inj _ |>.mpr hpre

/-- From a state of a run, the run goes on to its end. -/
theorem Visits.rest {s₁ : S} (h : Visits step s es s₁) (hrun : run step s es = .ok s') :
  ∃ es₁ es₂, es = es₁ ++ es₂ ∧ run step s es₁ = .ok s₁ ∧ run step s₁ es₂ = .ok s'
  := by
  obtain ⟨es₁, ⟨es₂, rfl⟩, h₁⟩ := h
  obtain ⟨s₂, h₂, hrest⟩ := run_append_eq_ok.mp hrun
  rw [h₁] at h₂
  cases h₂
  exact ⟨es₁, es₂, rfl, h₁, hrest⟩

theorem meets_concat_iff {e' : E} :
  Meets step s (es ++ [e]) s' e' ↔ Meets step s es s' e' ∨ (run step s es = .ok s' ∧ e' = e)
  := by
  constructor
  · rintro ⟨es₁, hpre, hrun⟩
    rcases List.prefix_concat_iff.mp hpre with heq | hpre
    · obtain ⟨rfl, heq⟩ := List.append_inj' heq rfl
      exact .inr ⟨hrun, by simpa using heq⟩
    · exact .inl ⟨es₁, hpre, hrun⟩
  · rintro (⟨es₁, hpre, hrun⟩ | ⟨hrun, rfl⟩)
    · exact ⟨es₁, hpre.trans (List.prefix_append es [e]), hrun⟩
    · exact ⟨es, List.prefix_rfl, hrun⟩

/-- A run that faults meets the event it faults at. -/
theorem exists_meets_of_run_eq_error {f : F} (h : run step s es = .error f) :
  ∃ s₁ e, Meets step s es s₁ e ∧ step s₁ e = .error f
  := by
  induction es generalizing s with
  | nil => cases h
  | cons e es ih =>
      rw [run] at h
      split at h
      · rename_i s₁ hs
        obtain ⟨s₂, e', hmeets, hf⟩ := ih h
        exact ⟨s₂, e', meets_cons_iff.mpr (.inr ⟨s₁, hs, hmeets⟩), hf⟩
      · rename_i f' hf
        cases h
        exact ⟨s, e, meets_cons_iff.mpr (.inl ⟨rfl, rfl⟩), hf⟩

/-! ### Counting since the latest reset -/

variable (step) in
/-- The weights of the events of a run, each in the state it meets, added up. -/
def total (w : S → E → ℕ) : S → List E → ℕ
  | _, [] => 0
  | s, e :: es =>
      w s e +
        match step s e with
        | .ok s' => total w s' es
        | .error _ => 0

variable (step) in
/-- The run of the events has a latest step that `R` holds of, and the weights of the events
after it add up to `n`. -/
def SinceLast (w : S → E → ℕ) (R : S → E → S → Prop) (s : S) (es : List E) (n : ℕ) : Prop :=
  ∃ es₁ e es₂ s₁ s₂, es = es₁ ++ e :: es₂ ∧ run step s es₁ = .ok s₁ ∧ step s₁ e = .ok s₂ ∧
    R s₁ e s₂ ∧
    (∀ s₃ e' s₄, Meets step s₂ es₂ s₃ e' → step s₃ e' = .ok s₄ → ¬ R s₃ e' s₄) ∧
    n = total step w s₂ es₂

variable {w : S → E → ℕ} {R : S → E → S → Prop} {n : ℕ} {s₁ s₂ : S}

theorem total_concat (h : run step s es = .ok s₁) :
  total step w s (es ++ [e]) = total step w s es + w s₁ e
  := by
  induction es generalizing s with
  | nil =>
      cases h
      simp only [List.nil_append, total, zero_add, Nat.add_eq_left]
      split
      · rfl
      · rfl
  | cons e' es ih =>
      obtain ⟨s', hs', hrun⟩ := run_cons_eq_ok.mp h
      simp only [List.cons_append, total, hs', ih hrun, add_assoc]

/-- The count starts anew with a step `R` holds of. -/
theorem SinceLast.reset (hrun : run step s es = .ok s₁) (hs : step s₁ e = .ok s₂)
    (hR : R s₁ e s₂) :
  SinceLast step w R s (es ++ [e]) 0
  := by
  refine ⟨es, e, [], s₁, s₂, rfl, hrun, hs, hR, ?_, rfl⟩
  intro s₃ e' s₄ hmeets
  exact absurd hmeets not_meets_nil

/-- The weight of any other event is added to the count. -/
theorem SinceLast.count (h : SinceLast step w R s es n) (hrun : run step s es = .ok s₁)
    (hs : step s₁ e = .ok s₂) (hR : ¬ R s₁ e s₂) :
  SinceLast step w R s (es ++ [e]) (n + w s₁ e)
  := by
  obtain ⟨es₁, e₀, es₂, a, b, rfl, ha, hb, hR₀, hnone, rfl⟩ := h
  obtain ⟨a', ha', hrest⟩ := run_append_eq_ok.mp hrun
  obtain rfl : a' = a := by
    rw [ha] at ha'
    cases ha'
    rfl
  obtain ⟨b', hb', hrest⟩ := run_cons_eq_ok.mp hrest
  obtain rfl : b' = b := by
    rw [hb] at hb'
    cases hb'
    rfl
  refine ⟨es₁, e₀, es₂ ++ [e], a', b', by simp, ha, hb, hR₀, ?_, (total_concat hrest).symm⟩
  intro s₃ e' s₄ hmeets hs₄
  rcases meets_concat_iff.mp hmeets with hold | ⟨hlast, rfl⟩
  · exact hnone s₃ e' s₄ hold hs₄
  · rw [hrest] at hlast
    cases hlast
    rw [hs] at hs₄
    cases hs₄
    exact hR

end Machine

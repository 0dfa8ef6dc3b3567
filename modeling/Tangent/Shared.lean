import Tangent.Machine
import Mathlib.Logic.Function.Basic

/-!
# Components that share a state

A system has components, each with a state of its own, and a state they share.  An event
happens to one component, which reacts to it and leaves behind its new state, the new shared
state and an output.  The history records for every step which component took it, its state
after it and its output.

`run_without` is the rule for systems whose components do not interfere: if the shared states
of a run, and of the run without the events of one component, agree as far as the reactions of
the other components look at them, then the other components go through the same states and
have the same outputs in both.
-/

namespace Shared

variable {ι σ γ E F O : Type*}

/-- The states of the components, the state they share, and the history. -/
structure System (ι σ γ O : Type*) where
  comp : ι → σ
  shared : γ
  history : List (ι × σ × O)

/-- The events without those of the component `t`. -/
def without [DecidableEq ι] (t : ι) (evs : List (ι × E)) : List (ι × E) :=
  evs.filter fun ev => ev.1 ≠ t

/-- The states of a component and its outputs so far. -/
def System.seen [DecidableEq ι] (sys : System ι σ γ O) (i : ι) : List (σ × O) :=
  sys.history.filterMap fun h => if h.1 = i then some h.2 else none

variable [DecidableEq ι] (react : σ → γ → E → Except F (σ × γ × O))

/-- The system after an event. -/
def step (sys : System ι σ γ O) (ev : ι × E) : Except F (System ι σ γ O) :=
  (react (sys.comp ev.1) sys.shared ev.2).map fun r =>
    ⟨Function.update sys.comp ev.1 r.1, r.2.1, sys.history ++ [(ev.1, r.1, r.2.2)]⟩

variable {react} {x x' y : System ι σ γ O} {i t : ι} {e : E} {evs : List (ι × E)}

theorem step_eq_ok :
  step react x (i, e) = .ok x' ↔
    ∃ s g o, react (x.comp i) x.shared e = .ok (s, g, o) ∧
      x' = ⟨Function.update x.comp i s, g, x.history ++ [(i, s, o)]⟩
  := by
  rw [step, Except.map_eq_ok]
  constructor
  · rintro ⟨⟨s, g, o⟩, hr, rfl⟩
    exact ⟨s, g, o, hr, rfl⟩
  · rintro ⟨s, g, o, hr, rfl⟩
    exact ⟨⟨s, g, o⟩, hr, rfl⟩

/-- The components other than `t` are in the same states and have seen the same. -/
def SameBut (t : ι) (x y : System ι σ γ O) : Prop :=
  ∀ i ≠ t, y.comp i = x.comp i ∧ y.seen i = x.seen i

/-- A step of the component `t` is not seen by the others. -/
theorem SameBut.step_left (h : SameBut t x y) (hs : step react x (t, e) = .ok x') :
  SameBut t x' y
  := by
  obtain ⟨s, g, o, -, rfl⟩ := step_eq_ok.mp hs
  intro i hi
  obtain ⟨hcomp, hseen⟩ := h i hi
  constructor
  · simp [hcomp, Function.update_of_ne hi]
  · rw [hseen]
    simp [System.seen, hi.symm]

/-- Another component takes the same step in both systems, if the shared states agree as far
as its reaction looks at them. -/
theorem SameBut.step_both {agree : σ → E → γ → γ → Prop}
    (hreact : ∀ s g h e s' g' o, agree s e g h → react s g e = .ok (s', g', o) →
      ∃ h', react s h e = .ok (s', h', o))
    (h : SameBut t x y) (hi : i ≠ t) (hagree : agree (x.comp i) e x.shared y.shared)
    (hs : step react x (i, e) = .ok x') :
  ∃ y', step react y (i, e) = .ok y' ∧ SameBut t x' y'
  := by
  obtain ⟨s, g, o, hr, rfl⟩ := step_eq_ok.mp hs
  obtain ⟨g', hr'⟩ := hreact _ _ _ _ _ _ _ hagree hr
  rw [← (h i hi).1] at hr'
  refine ⟨_, step_eq_ok.mpr ⟨s, g', o, hr', rfl⟩, ?_⟩
  intro j hj
  obtain ⟨hcomp, hseen⟩ := h j hj
  constructor
  · by_cases hji : j = i
    · subst hji
      simp
    · simp [Function.update_of_ne hji, hcomp]
  · simp only [System.seen, List.filterMap_append] at hseen ⊢
    rw [hseen]

/-- Without the events of one component, the others go through the same states and have the
same outputs, if the shared states of both runs agree before each of their events as far as
their reactions look at them. -/
theorem run_without (agree : σ → E → γ → γ → Prop)
    (hreact : ∀ s g h e s' g' o, agree s e g h → react s g e = .ok (s', g', o) →
      ∃ h', react s h e = .ok (s', h', o))
    (hrun : Machine.run (step react) x evs = .ok x')
    (hagree : ∀ evs₁ i e x₁ y₁, evs₁ ++ [(i, e)] <+: evs → i ≠ t →
      Machine.run (step react) x evs₁ = .ok x₁ →
      Machine.run (step react) x (without t evs₁) = .ok y₁ →
      agree (x₁.comp i) e x₁.shared y₁.shared) :
  ∃ y', Machine.run (step react) x (without t evs) = .ok y' ∧ SameBut t x' y'
  := by
  apply Machine.run_induction (P := fun evs₁ x₁ => evs₁ <+: evs →
    ∃ y₁, Machine.run (step react) x (without t evs₁) = .ok y₁ ∧ SameBut t x₁ y₁)
    _ _ hrun List.prefix_rfl
  · intro _
    exact ⟨x, rfl, fun i _ => ⟨rfl, rfl⟩⟩
  · rintro evs₁ x₁ ⟨i, e⟩ x₂ hrun₁ ih hs hpre
    obtain ⟨y₁, hrun', hsame⟩ := ih ((List.prefix_append evs₁ _).trans hpre)
    by_cases hi : i = t
    · subst hi
      refine ⟨y₁, ?_, hsame.step_left hs⟩
      rw [without, List.filter_append]
      simpa [without] using hrun'
    · have hag := hagree evs₁ i e x₁ y₁ hpre hi hrun₁ hrun'
      obtain ⟨y₂, hs', hsame'⟩ := hsame.step_both hreact hi hag hs
      refine ⟨y₂, ?_, hsame'⟩
      have hlast : without t (evs₁ ++ [(i, e)]) = without t evs₁ ++ [(i, e)] := by
        simp [without, List.filter_append, hi]
      rw [hlast]
      exact Machine.run_concat_eq_ok.mpr ⟨y₁, hrun', hs'⟩

end Shared

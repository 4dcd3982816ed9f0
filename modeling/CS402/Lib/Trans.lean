import CS402.Lib.Outcome

/-!
# Labelled transition systems

A system is given by its steps `T s e s'`: in the state `s` the event `e` can
happen and leads to `s'`.  A run is a finite sequence of such steps; the events
are kept, because the specifications of this development speak about what
happened along the run and not only about where it ended.

Two rules do all the work later.  `Run.invariant` is the usual induction: what
holds at the start and survives every step holds wherever a run arrives.
`Run.history` is the same with a specification that is computed from the events:
a relation between the state and the history that every step maintains.

`restrict T C` is the system `T` in which only those steps are taken whose state
and event meet the condition `C`.
-/

universe u v

namespace CS402.Lib

variable {σ : Type u} {ε : Type v} {φ : Type*} {s s' : σ}

/-- The step relation of a labelled transition system. -/
abbrev Trans (σ : Type u) (ε : Type v) := σ → ε → σ → Prop

/-- The system of a step function that may crash: a crash leads nowhere. -/
def ofStep {φ : Type*} (step : σ → ε → Except φ σ) : Trans σ ε :=
  fun s e s' ↦ step s e = .ok s'

/-- The steps of `T` whose state and event meet `C`. -/
def restrict (T : Trans σ ε) (C : σ → ε → Prop) : Trans σ ε :=
  fun s e s' ↦ C s e ∧ T s e s'

/-- A run of `T`; the history lists the events, the latest one first. -/
inductive Run (T : Trans σ ε) (s₀ : σ) : List ε → σ → Prop
  /-- The empty run stays where it starts. -/
  | start : Run T s₀ [] s₀
  /-- A run is continued by one step. -/
  | step {h : List ε} {s s' : σ} {e : ε} : Run T s₀ h s → T s e s' → Run T s₀ (e :: h) s'

namespace Run

variable {T : Trans σ ε} {s₀ s s' : σ} {h h' : List ε}

/-- **The invariant rule.** -/
theorem invariant {I : σ → Prop} (hstep : ∀ s e s', I s → T s e s' → I s')
    (h₀ : I s₀) (hr : Run T s₀ h s) : I s := by
  induction hr with
  | start => exact h₀
  | step _ hs ih => exact hstep _ _ _ ih hs

/-- **The history rule.**  A relation between states and histories that holds at
the start and that every step maintains holds at the end of every run. -/
theorem history {R : List ε → σ → Prop}
    (hstep : ∀ h s e s', R h s → T s e s' → R (e :: h) s')
    (h₀ : R [] s₀) (hr : Run T s₀ h s) : R h s := by
  induction hr with
  | start => exact h₀
  | step _ hs ih => exact hstep _ _ _ _ ih hs

theorem trans (hr : Run T s₀ h s) (hr' : Run T s h' s') : Run T s₀ (h' ++ h) s' := by
  induction hr' with
  | start => exact hr
  | step _ hs ih => exact .step ih hs

end Run

/-- Run a step function over a list of events, the first event first. -/
def exec {φ : Type*} (step : σ → ε → Except φ σ) : σ → List ε → Except φ σ
  | s, [] => .ok s
  | s, e :: es => step s e >>= fun s' ↦ exec step s' es

/-- Run a list of events and test the state they lead to. -/
def check {φ : Type*} (step : σ → ε → Except φ σ) (s : σ) (es : List ε) (p : σ → Bool) : Bool :=
  match exec step s es with
  | .ok s' => p s'
  | .error _ => false

theorem exists_of_check {f : σ → ε → Except φ σ} {l : List ε}
    {p : σ → Bool} (h : check f s l p = true) : ∃ s', exec f s l = .ok s' ∧ p s' = true := by
  unfold check at h
  split at h
  · next s' hs => exact ⟨s', hs, h⟩
  · cases h

theorem Run.of_exec {step : σ → ε → Except φ σ} {es : List ε}
    (h : exec step s es = .ok s') : Run (ofStep step) s es.reverse s' := by
  induction es generalizing s with
  | nil =>
    simp only [exec, Except.ok.injEq] at h
    exact h ▸ .start
  | cons e es ih =>
    obtain ⟨s₁, h₁, h₂⟩ := bind_ok h
    rw [List.reverse_cons]
    exact Run.trans (.step .start h₁) (ih h₂)

/-- A step function that takes only those steps whose state and event meet `C`, and
crashes with `e₀` otherwise. -/
def guarded {φ : Type*} (e₀ : φ) (step : σ → ε → Except φ σ) (C : σ → ε → Prop)
    [∀ s e, Decidable (C s e)] : σ → ε → Except φ σ :=
  fun s e ↦ if C s e then step s e else .error e₀

theorem guarded_eq_ok {e₀ : φ} {step : σ → ε → Except φ σ} {C : σ → ε → Prop}
    [∀ s e, Decidable (C s e)] {e : ε} :
    guarded e₀ step C s e = .ok s' ↔ restrict (ofStep step) C s e s' := by
  unfold guarded restrict ofStep
  split <;> simp_all

theorem Run.of_exec_guarded {e₀ : φ} {step : σ → ε → Except φ σ}
    {C : σ → ε → Prop} [∀ s e, Decidable (C s e)] {es : List ε}
    (h : exec (guarded e₀ step C) s es = .ok s') :
    Run (restrict (ofStep step) C) s es.reverse s' := by
  have hT : ofStep (guarded e₀ step C) = restrict (ofStep step) C := by
    funext s e s'
    exact propext guarded_eq_ok
  exact hT ▸ Run.of_exec h

end CS402.Lib

import Mathlib.Data.List.Basic
import Mathlib.Logic.Basic

/-!
# Computations that may crash

A kernel routine either returns or does not: an assertion fails, a pointer that
was never set is followed, a loop never ends.  We model such a routine by
`Except φ α`, where `φ` says how the run was lost, and write it in `do`
notation with the state passed explicitly.

The lemmas of this file take such a routine apart.  `bind_ok` peels off one
call at a time, `bind_demand` an assertion, `bind_follow` a pointer, and
`foldl_invariant` a loop over a list; no proof has to unfold the monad.
-/

universe u v w

namespace CS402.Lib

variable {φ : Type u} {α β σ : Type v} {x : Except φ α} {f : α → Except φ β} {b : β} {e : φ}
  {p : Prop} {ι : Type w}

/-- A sequence returns exactly when its first part returns and the rest returns
from there. -/
theorem bind_eq_ok : x >>= f = .ok b ↔ ∃ a, x = .ok a ∧ f a = .ok b := by
  cases x with
  | error e => simp [bind, Except.bind]
  | ok a => simp [bind, Except.bind]

theorem bind_ok (h : x >>= f = .ok b) : ∃ a, x = .ok a ∧ f a = .ok b :=
  bind_eq_ok.mp h

theorem bind_eq_error : x >>= f = .error e ↔ x = .error e ∨ ∃ a, x = .ok a ∧ f a = .error e := by
  cases x with
  | error e' => simp [bind, Except.bind]
  | ok a => simp [bind, Except.bind]

@[simp] theorem pure_eq_ok {a b : α} : (pure a : Except φ α) = .ok b ↔ a = b := by
  simp [pure, Except.pure]

theorem map_eq_ok {f : α → β} : f <$> x = .ok b ↔ ∃ a, x = .ok a ∧ f a = b := by
  cases x with
  | error e => simp [Functor.map, Except.map]
  | ok a => simp [Functor.map, Except.map]

@[simp] theorem ok_bind (a : α) (f : α → Except φ β) :
    (Except.ok a : Except φ α) >>= f = f a := rfl

@[simp] theorem error_bind (e : φ) (f : α → Except φ β) :
    (Except.error e : Except φ α) >>= f = .error e := rfl

/-- An assertion: crash with `e` unless `p` holds. -/
def demand (e : φ) (p : Prop) [Decidable p] : Except φ Unit :=
  if p then .ok () else .error e

@[simp] theorem demand_eq_ok [Decidable p] {u : Unit} : demand e p = .ok u ↔ p := by
  unfold demand
  split <;> simp_all

theorem bind_demand {β : Type} [Decidable p] {f : Unit → Except φ β} {b : β}
    (h : demand e p >>= f = .ok b) : p ∧ f () = .ok b := by
  obtain ⟨_, hp, h⟩ := bind_ok h
  exact ⟨demand_eq_ok.mp hp, h⟩

theorem demand_pos [Decidable p] (h : p) : demand e p = .ok () :=
  if_pos h

theorem demand_bind {β : Type} [Decidable p] (h : p) (f : Unit → Except φ β) :
    demand e p >>= f = f () := by
  rw [demand_pos h, ok_bind]

@[simp] theorem demand_true [Decidable True] : demand e True = .ok () :=
  demand_pos trivial

theorem demand_neg [Decidable p] (h : ¬ p) : demand e p = .error e :=
  if_neg h

theorem demand_bind_error {β : Type} [Decidable p] {f : Unit → Except φ β} {e' : φ}
    (h : demand e p >>= f = .error e') : e' = e ∨ p ∧ f () = .error e' := by
  by_cases hp : p
  · exact .inr ⟨hp, by rwa [demand_pos hp] at h⟩
  · rw [demand_neg hp] at h
    cases h
    exact .inl rfl

/-- Following a pointer: crash with `e` when there is nothing behind it. -/
def follow (e : φ) : Option α → Except φ α
  | some a => .ok a
  | none => .error e

@[simp] theorem follow_eq_ok {o : Option α} {a : α} : follow e o = .ok a ↔ o = some a := by
  cases o <;> simp [follow]

theorem bind_follow {o : Option α}
    (h : follow e o >>= f = .ok b) : ∃ a, o = some a ∧ f a = .ok b := by
  obtain ⟨a, ha, h⟩ := bind_ok h
  exact ⟨a, follow_eq_ok.mp ha, h⟩

@[simp] theorem follow_some (e : φ) (a : α) : follow e (some a) = .ok a := rfl

theorem follow_bind (e : φ) (a : α) (f : α → Except φ β) : follow e (some a) >>= f = f a := rfl

@[simp] theorem follow_none (e : φ) : (follow e none : Except φ α) = .error e := rfl

/-- Whether a routine returns a value that passes a test. -/
def returns (p : α → Bool) : Except φ α → Bool
  | .ok a => p a
  | .error _ => false

theorem returns_eq_true {p : α → Bool} : returns p x = true ↔ ∃ a, x = .ok a ∧ p a = true := by
  cases x <;> simp [returns]

/-- Whether a routine crashes in the given way. -/
def crashes [DecidableEq φ] (e : φ) : Except φ α → Bool
  | .error e' => decide (e' = e)
  | .ok _ => false

theorem crashes_eq_true [DecidableEq φ] : crashes e x = true ↔ x = .error e := by
  cases x <;> simp [crashes]

/-- **The loop rule.**  What one turn of a loop over a list preserves, the whole
loop preserves. -/
theorem foldl_invariant {f : σ → ι → Except φ σ} {I : σ → Prop}
    {l : List ι} (hstep : ∀ i ∈ l, ∀ s s', I s → f s i = .ok s' → I s') :
    ∀ {s s' : σ}, I s → l.foldlM f s = .ok s' → I s' := by
  induction l with
  | nil =>
    intro s s' hs h
    rw [List.foldlM_nil, pure_eq_ok] at h
    exact h ▸ hs
  | cons i l ih =>
    intro s s' hs h
    rw [List.foldlM_cons] at h
    obtain ⟨s₁, h₁, h₂⟩ := bind_ok h
    exact ih (fun j hj ↦ hstep j (List.mem_cons_of_mem _ hj))
      (hstep i List.mem_cons_self s s₁ hs h₁) h₂

theorem foldl_rest {f : σ → ι → Except φ σ} {I : List ι → σ → Prop}
    (hstep : ∀ i l s s', I (i :: l) s → f s i = .ok s' → I l s') :
    ∀ {l : List ι} {s s' : σ}, I l s → l.foldlM f s = .ok s' → I [] s' := by
  intro l
  induction l with
  | nil =>
    intro s s' hs h
    rw [List.foldlM_nil, pure_eq_ok] at h
    exact h ▸ hs
  | cons i l ih =>
    intro s s' hs h
    rw [List.foldlM_cons] at h
    obtain ⟨s₁, h₁, h₂⟩ := bind_ok h
    exact ih (hstep i l s s₁ hs h₁) h₂

/-- **The loop rule for loops that return.**  If every turn returns and keeps the
invariant, then so does the whole loop. -/
theorem foldl_total {f : σ → ι → Except φ σ} {I : σ → Prop}
    {l : List ι} (hstep : ∀ i ∈ l, ∀ s, I s → ∃ s', f s i = .ok s' ∧ I s') :
    ∀ {s : σ}, I s → ∃ s', l.foldlM f s = .ok s' ∧ I s' := by
  induction l with
  | nil => exact fun {s} hs ↦ ⟨s, rfl, hs⟩
  | cons i l ih =>
    intro s hs
    obtain ⟨s₁, h₁, hs₁⟩ := hstep i List.mem_cons_self s hs
    obtain ⟨s₂, h₂, hs₂⟩ := ih (fun j hj ↦ hstep j (List.mem_cons_of_mem _ hj)) hs₁
    exact ⟨s₂, by rw [List.foldlM_cons, h₁, ok_bind, h₂], hs₂⟩

/-- **The loop rule for loops that may fail.**  Every turn returns and keeps the invariant if
its condition holds, and fails if not; then so does the loop, for all conditions. -/
theorem foldl_decides {f : σ → ι → Except φ σ} {P : ι → Prop}
    {I : List ι → σ → Prop}
    (hstep : ∀ i l s, I (i :: l) s →
      (P i ∧ ∃ s', f s i = .ok s' ∧ I l s') ∨ (¬ P i ∧ ∃ e, f s i = .error e)) :
    ∀ {l : List ι} {s : σ}, I l s →
      ((∀ i ∈ l, P i) ∧ ∃ s', l.foldlM f s = .ok s' ∧ I [] s') ∨
        ((¬ ∀ i ∈ l, P i) ∧ ∃ e, l.foldlM f s = .error e) := by
  intro l
  induction l with
  | nil => exact fun {s} hs ↦ .inl ⟨fun i hi ↦ absurd hi List.not_mem_nil, s, rfl, hs⟩
  | cons i l ih =>
    intro s hs
    simp only [List.forall_mem_cons, List.foldlM_cons]
    rcases hstep i l s hs with ⟨hi, s₁, h₁, hs₁⟩ | ⟨hi, e, he⟩
    · rw [h₁, ok_bind]
      rcases ih hs₁ with ⟨hl, hrest⟩ | ⟨hl, hrest⟩
      · exact .inl ⟨⟨hi, hl⟩, hrest⟩
      · exact .inr ⟨fun h ↦ hl h.2, hrest⟩
    · rw [he, error_bind]
      exact .inr ⟨fun h ↦ hi h.1, e, rfl⟩

end CS402.Lib

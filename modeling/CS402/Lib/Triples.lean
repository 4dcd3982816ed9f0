import Mathlib
import CS402.Lib.Outcome

/-!
# Triples for computations that may crash

The rules by which `mvcgen` takes a routine apart: a triple says what holds of the result
of a routine that returns.
-/

namespace CS402.Lib

open Std.Do

variable {φ α : Type} {e : φ} {x : Except φ α} {P : Prop} {Q : α → Prop}

theorem triple_iff : (⦃⌜P⌝⦄ x ⦃⇓? a => ⌜Q a⌝⦄) ↔ (P → ∀ a, x = .ok a → Q a) := by
  cases x with
  | error e => exact ⟨fun _ _ _ h ↦ (by cases h), fun _ _ ↦ trivial⟩
  | ok a => exact ⟨fun h hP _ ha ↦ (by cases ha; exact h hP), fun h hP ↦ h hP a rfl⟩

@[spec] theorem ok_spec {a : α} : ⦃⌜True⌝⦄ (.ok a : Except φ α) ⦃⇓? b => ⌜b = a⌝⦄ :=
  triple_iff.mpr fun _ _ h ↦ (Except.ok.inj h).symm

@[spec] theorem follow_spec {o : Option α} : ⦃⌜True⌝⦄ follow e o ⦃⇓? a => ⌜o = some a⌝⦄ :=
  triple_iff.mpr fun _ _ ↦ follow_eq_ok.mp

@[spec] theorem demand_spec [Decidable P] : ⦃⌜True⌝⦄ demand e P ⦃⇓? _ => ⌜P⌝⦄ :=
  triple_iff.mpr fun _ _ ↦ demand_eq_ok.mp

end CS402.Lib

import Mathlib.Algebra.BigOperators.Group.List.Basic
import Mathlib.Algebra.Ring.Nat
import Mathlib.Data.Finset.Card
import Mathlib.Order.Interval.Finset.Nat

/-!
# Stretches of numbers

A stretch is given by its first number and the first one after it.  Stretches that have
nothing in common cover as many numbers as they have together, and so two such lists that
cover the same numbers have the same total length, however they cut it up.
-/

namespace CS402.Lib

/-- The numbers that a list of stretches covers. -/
def covered (l : List (ℕ × ℕ)) : Finset ℕ := l.foldr (fun r c ↦ Finset.Ico r.1 r.2 ∪ c) ∅

/-- The length of a list of stretches. -/
def total (l : List (ℕ × ℕ)) : ℕ := (l.map fun r ↦ r.2 - r.1).sum

variable {l l' : List (ℕ × ℕ)} {z : ℕ}

theorem mem_covered : z ∈ covered l ↔ ∃ r ∈ l, r.1 ≤ z ∧ z < r.2 := by
  induction l with
  | nil => simp [covered]
  | cons r l ih =>
    have hcons : covered (r :: l) = Finset.Ico r.1 r.2 ∪ covered l := rfl
    rw [hcons, Finset.mem_union, ih, Finset.mem_Ico]
    simp

section

variable (h : l.Pairwise fun r r' ↦ r.2 ≤ r'.1 ∨ r'.2 ≤ r.1)
include h

theorem card_covered : (covered l).card = total l := by
  induction l with
  | nil => rfl
  | cons r l ih =>
    obtain ⟨hr, hl⟩ := List.pairwise_cons.mp h
    have hdis : Disjoint (Finset.Ico r.1 r.2) (covered l) := by
      refine Finset.disjoint_left.mpr fun z hz hzl ↦ ?_
      obtain ⟨r', hr', hle, hlt⟩ := mem_covered.mp hzl
      have hzr := Finset.mem_Ico.mp hz
      rcases hr r' hr' with hap | hap <;> omega
    have hcons : covered (r :: l) = Finset.Ico r.1 r.2 ∪ covered l := rfl
    rw [hcons, Finset.card_union_of_disjoint hdis, ih hl, Nat.card_Ico]
    rfl

theorem total_eq
    (h' : l'.Pairwise fun r r' ↦ r.2 ≤ r'.1 ∨ r'.2 ≤ r.1)
    (hsame : ∀ z, (∃ r ∈ l, r.1 ≤ z ∧ z < r.2) ↔ ∃ r ∈ l', r.1 ≤ z ∧ z < r.2) :
    total l = total l' := by
  rw [← card_covered h, ← card_covered h']
  congr 1
  ext z
  rw [mem_covered, mem_covered]
  exact hsame z

theorem total_le {n : ℕ}
    (hn : ∀ r ∈ l, r.2 ≤ n) : total l ≤ n := by
  rw [← card_covered h]
  have hsub : covered l ⊆ Finset.range n := by
    intro z hz
    obtain ⟨r, hr, -, hlt⟩ := mem_covered.mp hz
    exact Finset.mem_range.mpr (hlt.trans_le (hn r hr))
  exact (Finset.card_le_card hsub).trans_eq (Finset.card_range n)

end

end CS402.Lib

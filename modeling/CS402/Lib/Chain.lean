import Mathlib.Algebra.Ring.Nat
import Mathlib.Data.List.Nodup
import Mathlib.Logic.Function.Basic

/-!
# Linked lists in a memory

A list that is linked through its cells: `next` reads the link of a cell, and `0` is the
null pointer.  `Chain next p l` says that `p` leads through the cells of `l`, in this order,
to the end.  The three changes of such a list are a new first cell, taking the first cell
away, and taking out a cell by redirecting the link before it.

A link that leads to an end has no repetition (`Chain.nodup`), so no proof has to carry
that along.
-/

namespace CS402.Lib

open Function

variable {ι : Type*} [Zero ι]

/-- The pointer leads through the cells of the list to the end. -/
def Chain (next : ι → ι) : ι → List ι → Prop
  | p, [] => p = 0
  | p, a :: l => p = a ∧ a ≠ 0 ∧ Chain next (next a) l

namespace Chain

variable {next next' : ι → ι} {p q a : ι} {l l' l₁ l₂ : List ι}

theorem unique (h : Chain next p l) (h' : Chain next p l') : l = l' := by
  induction l generalizing p l' with
  | nil =>
    cases l' with
    | nil => rfl
    | cons b l' => exact absurd (h'.1.symm.trans h) h'.2.1
  | cons a l ih =>
    cases l' with
    | nil => exact absurd (h.1.symm.trans h') h.2.1
    | cons b l' =>
      obtain rfl : a = b := h.1.symm.trans h'.1
      rw [ih h.2.2 h'.2.2]

theorem congr (h : Chain next p l) (heq : ∀ a ∈ l, next' a = next a) : Chain next' p l := by
  induction l generalizing p with
  | nil => exact h
  | cons a l ih =>
    obtain ⟨rfl, hne, hl⟩ := h
    refine ⟨rfl, hne, ?_⟩
    rw [heq p List.mem_cons_self]
    exact ih hl fun b hb ↦ heq b (List.mem_cons_of_mem _ hb)

theorem ne_zero (h : Chain next p l) (ha : a ∈ l) : a ≠ 0 := by
  induction l generalizing p with
  | nil => cases ha
  | cons b l ih =>
    rcases List.mem_cons.mp ha with rfl | ha
    · exact h.2.1
    · exact ih h.2.2 ha

theorem drop (h : Chain next p (l₁ ++ a :: l₂)) : Chain next a (a :: l₂) := by
  induction l₁ generalizing p with
  | nil =>
    obtain ⟨rfl, h⟩ := h
    exact ⟨rfl, h⟩
  | cons b l₁ ih => exact ih h.2.2

theorem nodup (h : Chain next p l) : l.Nodup := by
  induction l generalizing p with
  | nil => exact List.nodup_nil
  | cons a l ih =>
    refine List.nodup_cons.mpr ⟨fun ha ↦ ?_, ih h.2.2⟩
    -- a cell that comes again would lead to two chains of different length
    obtain ⟨l₁, l₂, rfl⟩ := List.append_of_mem ha
    have hlong : Chain next a (a :: (l₁ ++ a :: l₂)) := ⟨rfl, h.2⟩
    have hlen := congrArg List.length ((drop h.2.2).unique hlong)
    simp only [List.length_cons, List.length_append] at hlen
    omega

theorem range {next : ℕ → ℕ} {x d n : ℕ} (hx : x ≠ 0)
    (hstep : ∀ j < n, next (x + j * d) = x + (j + 1) * d) (hlast : next (x + n * d) = 0) :
    Chain next x ((List.range (n + 1)).map fun j ↦ x + j * d) := by
  induction n generalizing x with
  | zero => simpa [Chain, hx] using hlast
  | succ n ih =>
    rw [List.range_succ_eq_map, List.map_cons, List.map_map]
    refine ⟨by simp, by simpa using hx, ?_⟩
    have hnext : next (x + 0 * d) = x + d := by simpa using hstep 0 (Nat.succ_pos n)
    have hmap : (fun j ↦ x + j * d) ∘ Nat.succ = fun j ↦ x + d + j * d := by
      funext j
      simp only [comp_apply, Nat.succ_mul]
      omega
    rw [hnext, hmap]
    refine ih (by omega) (fun j hj ↦ ?_) ?_
    · have hj' := hstep (j + 1) (by omega)
      rw [Nat.add_mul, Nat.one_mul, Nat.add_mul (j + 1), Nat.one_mul] at hj'
      rw [show x + d + j * d = x + (j * d + d) by omega, hj', Nat.add_mul]
      omega
    · rw [show x + d + n * d = x + (n + 1) * d by rw [Nat.add_mul]; omega]
      exact hlast

variable [DecidableEq ι]

theorem push (h : Chain next p l) (ha : a ≠ 0) (hal : a ∉ l) :
    Chain (update next a p) a (a :: l) := by
  refine ⟨rfl, ha, ?_⟩
  rw [update_self]
  refine h.congr fun b hb ↦ update_of_ne ?_ _ _
  rintro rfl
  exact hal hb

theorem unlink (h : Chain next p (l₁ ++ q :: a :: l₂)) :
    Chain (update next q (next a)) p (l₁ ++ q :: l₂) := by
  have hnodup := h.nodup
  induction l₁ generalizing p with
  | nil =>
    obtain ⟨rfl, hq, -, -, hl⟩ := h
    refine ⟨rfl, hq, ?_⟩
    rw [update_self]
    refine hl.congr fun b hb ↦ update_of_ne ?_ _ _
    rintro rfl
    exact (List.nodup_cons.mp hnodup).1 (List.mem_cons_of_mem _ hb)
  | cons b l₁ ih =>
    obtain ⟨rfl, hb, hl⟩ := h
    obtain ⟨hbl, hnodup⟩ := List.nodup_cons.mp hnodup
    refine ⟨rfl, hb, ?_⟩
    rw [update_of_ne]
    · exact ih hl hnodup
    · rintro rfl
      simp at hbl

end Chain

end CS402.Lib

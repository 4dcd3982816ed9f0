import Mathlib.Data.Set.Card
import Mathlib.Logic.Function.Basic

/-!
# Counting references

A table `A : κ → Option ι` says which slot refers to what.  `Refs A i n` says that
exactly `n` slots refer to `i`; it is the number that a reference count has to be.
The lemmas say how the number changes when one slot is set: a slot that was empty
adds a reference, a slot that is cleared takes one away, and a slot that neither
referred nor refers to `i` leaves the number alone.
-/

namespace CS402.Lib

open Function Set

variable {κ ι : Type*} {A B : κ → Option ι} {a b : κ} {i j : ι} {n m : ℕ} {x : Option ι}

theorem update_eq_some [DecidableEq κ] :
    update A a x b = some i ↔ (b = a ∧ x = some i) ∨ (b ≠ a ∧ A b = some i) := by
  rcases eq_or_ne b a with rfl | h
  · simp
  · simp [h]

theorem of_update_some [DecidableEq κ] (h : update A a (some i) b = some j) :
    (b = a ∧ j = i) ∨ (b ≠ a ∧ A b = some j) :=
  (update_eq_some.mp h).imp_left (And.imp_right fun hij ↦ (Option.some.inj hij).symm)

theorem of_update_none [DecidableEq κ] (h : update A a none b = some j) : b ≠ a ∧ A b = some j :=
  (update_eq_some.mp h).resolve_left fun hx ↦ nomatch hx.2

theorem update_other [DecidableEq κ] (hne : b ≠ a) (h : A b = some i) : update A a x b = some i :=
  update_eq_some.mpr (.inr ⟨hne, h⟩)

theorem exists_of_update [DecidableEq κ] {P : ι → Prop} {k : ι}
    (h : update A a (some j) b = some k) (ha : A a = some i) (hi : k = j → P i) (hk : P k) :
    ∃ l, A b = some l ∧ P l := by
  rcases of_update_some h with ⟨rfl, hkj⟩ | ⟨-, h⟩
  · exact ⟨i, ha, hi hkj⟩
  · exact ⟨k, h, hk⟩

theorem exists_update [DecidableEq κ] {P : ι → Prop} {k : ι} (h : A b = some k)
    (ha : A a = some i) (hj : k = i → P j) (hk : P k) :
    ∃ l, update A a (some j) b = some l ∧ P l := by
  rcases eq_or_ne b a with rfl | hne
  · exact ⟨j, update_self .., hj (Option.some.inj (h.symm.trans ha))⟩
  · exact ⟨k, update_other hne h, hk⟩

theorem filled_update [DecidableEq κ] (h : A b = some j) : ∃ k, update A a (some i) b = some k := by
  rcases eq_or_ne b a with rfl | hne
  · exact ⟨i, update_self ..⟩
  · exact ⟨j, update_other hne h⟩

theorem lt_of_update {A : ℕ → Option ι} {a n : ℕ} (hA : ∀ b i, A b = some i → b < n)
    (ha : a < n) (b : ℕ) (i : ι) (h : update A a x b = some i) : b < n := by
  rcases update_eq_some.mp h with ⟨rfl, -⟩ | ⟨-, h⟩
  · exact ha
  · exact hA b i h

/-- Exactly `n` slots of the table refer to `i`. -/
def Refs (A : κ → Option ι) (i : ι) (n : ℕ) : Prop := {a | A a = some i}.encard = n

namespace Refs

theorem unique (h : Refs A i n) (h' : Refs A i m) : n = m :=
  ENat.natCast_inj.mp (Eq.trans (Eq.symm h) h')

theorem congr (h : Refs A i n) (hiff : ∀ a, B a = some i ↔ A a = some i) : Refs B i n := by
  unfold Refs at h ⊢
  rw [← h]
  congr 1
  ext a
  exact hiff a

theorem eq_zero (h : ∀ a, A a ≠ some i) : Refs A i 0 := by
  unfold Refs
  rw [eq_empty_of_forall_notMem (s := {a | A a = some i}) h, encard_empty]
  rfl

theorem ne_of_zero (h : Refs A i 0) (a : κ) : A a ≠ some i := by
  have hempty : {a | A a = some i} = ∅ := encard_eq_zero.mp h
  intro ha
  have hmem : a ∈ {a | A a = some i} := ha
  rw [hempty] at hmem
  exact hmem

theorem pos (h : Refs A i n) (ha : A a = some i) : 0 < n := by
  rcases Nat.eq_zero_or_pos n with rfl | hn
  · exact absurd ha (h.ne_of_zero a)
  · exact hn

theorem exists_of_pos (h : Refs A i n) (hn : 0 < n) : ∃ a, A a = some i := by
  by_contra hno
  have hzero := h.unique (eq_zero fun a ha ↦ hno ⟨a, ha⟩)
  omega

theorem eq_of_one (h : Refs A i 1) (ha : A a = some i) (hb : A b = some i) : a = b := by
  obtain ⟨c, hc⟩ := encard_eq_one.mp h
  have hac : a ∈ ({c} : Set κ) := hc ▸ ha
  have hbc : b ∈ ({c} : Set κ) := hc ▸ hb
  exact hac.trans hbc.symm

variable [DecidableEq κ]

theorem give (h : Refs A i n) (ha : A a ≠ some i) : Refs (update A a (some i)) i (n + 1) := by
  have hset : {b | update A a (some i) b = some i} = insert a {b | A b = some i} := by
    ext b
    rcases eq_or_ne b a with rfl | hb
    · simp
    · simp [hb]
  have hnot : a ∉ {b | A b = some i} := ha
  unfold Refs at h ⊢
  rw [hset, encard_insert_of_notMem hnot, h]
  rfl

theorem drop (h : Refs A i n) (ha : A a = some i) (hx : x ≠ some i) :
    Refs (update A a x) i (n - 1) := by
  have hset : {b | update A a x b = some i} = {b | A b = some i} \ {a} := by
    ext b
    rcases eq_or_ne b a with rfl | hb
    · simp [hx]
    · simp [hb]
  have hmem : a ∈ {b | A b = some i} := ha
  unfold Refs at h ⊢
  rw [hset, encard_sdiff_singleton_of_mem hmem, h]
  rfl

theorem update_same (h : Refs A i n) (hx : x = some i ↔ A a = some i) :
    Refs (update A a x) i n := by
  refine h.congr fun b ↦ ?_
  rcases eq_or_ne b a with rfl | hb
  · rw [update_self]
    exact hx
  · rw [update_of_ne hb]

end Refs

/-! ## Counts that may be too high -/

open Classical in
/-- How many references to `i` a slot holds. -/
noncomputable def one (x : Option ι) (i : ι) : ℤ := if x = some i then 1 else 0

@[simp, grind =] theorem one_none (i : ι) : one none i = 0 := by simp [one]

@[simp, grind =] theorem one_some (i : ι) : one (some i) i = 1 := by simp [one]

theorem one_of_ne (h : j ≠ i) : one (some i) j = 0 := by simp [one, h.symm]

theorem one_cases (x : Option ι) (i : ι) :
    one x i = 0 ∧ x ≠ some i ∨ one x i = 1 ∧ x = some i := by
  unfold one
  split <;> simp_all

/-- The counts `c` allow for every reference. -/
def Counted (A : κ → Option ι) (c : ι → ℤ) : Prop := ∀ i, ∃ n : ℕ, Refs A i n ∧ n ≤ c i

namespace Counted

variable {c c' : ι → ℤ}

theorem mono (h : Counted A c) (hc : ∀ i, c i ≤ c' i) : Counted A c' := fun i ↦
  let ⟨n, hn, hle⟩ := h i
  ⟨n, hn, hle.trans (hc i)⟩

theorem anti (h : Counted A c) (hB : ∀ a i, B a = some i → A a = some i) : Counted B c := by
  intro i
  obtain ⟨n, hn, hle⟩ := h i
  have hsub : {a | B a = some i}.encard ≤ n := hn ▸ encard_le_encard fun a ↦ hB a i
  obtain ⟨m, hm, hmn⟩ := ENat.le_natCast_iff.mp hsub
  exact ⟨m, hm, by omega⟩

theorem pos (h : Counted A c) (ha : A a = some i) : 0 < c i := by
  obtain ⟨n, hn, hle⟩ := h i
  have := hn.pos ha
  omega

theorem set [DecidableEq κ] (h : Counted A c) (hc : ∀ i, c i + one x i - one (A a) i ≤ c' i) :
    Counted (update A a x) c' := by
  intro i
  obtain ⟨n, hn, hle⟩ := h i
  specialize hc i
  by_cases hx : x = some i <;> by_cases ha : A a = some i <;> simp [one, hx, ha] at hc
  · exact ⟨n, hn.update_same (by simp [hx, ha]), by omega⟩
  · exact ⟨n + 1, hx ▸ hn.give ha, by omega⟩
  · have := hn.pos ha
    exact ⟨n - 1, hn.drop ha hx, by omega⟩
  · exact ⟨n, hn.update_same (by simp [hx, ha]), by omega⟩

end Counted

end CS402.Lib

import CS402.Lib.Refs
import Mathlib.Logic.Relation
import Mathlib.Order.Basic

/-!
# Layers

A layer has entries under keys and may lie on another layer.  A key is looked up from a
layer downwards: the first entry counts (`Finds`).  Layers are referred to by the layers
that lie on them and by slots from outside.

A layer that only one other layer refers to can be merged into that one: the entries
that the upper layer lacks move up, the others are dropped, and the upper layer then lies
on what the lower one lay on.  No lookup notices (`finds_merge`).

To go down from a layer and merge what can be merged is possible when every layer on the
way has one or two references, and when the entries that get in each other's way may be
dropped: this is `Fits`.  It is a property of the layers before any of them is merged,
because merging does not change it (`fits_merge`).
-/

namespace CS402.Lib

open Function Relation

/-- Layers `ι` with entries `α` under keys `κ`, and slots `η` that refer to layers. -/
structure Layers (ι η κ α : Type*) where
  below : ι → Option ι
  held : η → Option ι
  entry : ι → κ → Option α

namespace Layers

variable {ι η κ α : Type*}

/-- What a lookup finds: an entry, or the layer at the bottom. -/
inductive Finds (L : Layers ι η κ α) (k : κ) : ι → α ⊕ ι → Prop
  | here {x : ι} {a : α} (h : L.entry x k = some a) : Finds L k x (.inl a)
  | bottom {x : ι} (h : L.entry x k = none) (hb : L.below x = none) : Finds L k x (.inr x)
  | down {x u : ι} {r : α ⊕ ι} (h : L.entry x k = none) (hb : L.below x = some u)
      (hu : Finds L k u r) : Finds L k x r

/-- The layer `o` is not at the bottom, and nobody but the layer `t` refers to it. -/
structure Only (L : Layers ι η κ α) (t o : ι) : Prop where
  below : L.below t = some o
  inner : L.below o ≠ none
  held : ∀ a, L.held a ≠ some o
  parent : ∀ x, L.below x = some o → x = t

/-- How many slots and layers refer to a layer. -/
def Parents (L : Layers ι η κ α) (o : ι) (r : ℕ) : Prop :=
  ∃ e k, Refs L.held o e ∧ Refs L.below o k ∧ e + k = r

/-- The layer `o` and all layers between it and `t` have only one reference. -/
def Under (L : Layers ι η κ α) : ι → ι → Prop := TransGen L.Only

/-- The layer `t` is on the way down from `x`. -/
def Reaches (L : Layers ι η κ α) : ι → ι → Prop := ReflTransGen fun x u ↦ L.below x = some u

/-- The layer below `t` can be merged into `t` or has two references, and what would be
merged into `t` gets in the way of entries that `t` has only if it may be dropped. -/
structure Fine (L : Layers ι η κ α) (D : α → Prop) (t : ι) : Prop where
  parents : ∀ o, L.below t = some o → L.below o ≠ none → L.Only t o ∨ L.Parents o 2
  clash : ∀ o, L.Under t o → ∀ k a, L.entry o k = some a → L.entry t k ≠ none → D a

/-- All layers on the way down from `x` are fine. -/
def Fits (L : Layers ι η κ α) (D : α → Prop) (x : ι) : Prop := ∀ t, L.Reaches x t → L.Fine D t

/-- Layers lie on smaller ones. -/
def Grounded [Preorder ι] (L : Layers ι η κ α) : Prop := ∀ x u, L.below x = some u → u < x

/-- The layer `o` is merged into `t`. -/
def merge [DecidableEq ι] (L : Layers ι η κ α) (t o : ι) : Layers ι η κ α where
  below := update (update L.below t (L.below o)) o none
  held := L.held
  entry := update (update L.entry t fun k ↦ L.entry t k <|> L.entry o k) o fun _ ↦ none

/-- The entry of `o` under `k` has moved up to `t`, or has been dropped because `t` has one. -/
structure Shifts (L L' : Layers ι η κ α) (t o : ι) (k : κ) : Prop where
  below : L'.below = L.below
  held : L'.held = L.held
  gone : L'.entry o k = none
  up : L'.entry t k = (L.entry t k <|> L.entry o k)
  other : ∀ x m, (x = t ∨ x = o → m ≠ k) → L'.entry x m = L.entry x m

/-- Some entries of `o` have been shifted up to `t`, the others are as they were. -/
structure Shifted (L L' : Layers ι η κ α) (t o : ι) : Prop where
  below : L'.below = L.below
  held : L'.held = L.held
  other : ∀ x m, x ≠ t → x ≠ o → L'.entry x m = L.entry x m
  both : ∀ m, (L'.entry t m <|> L'.entry o m) = (L.entry t m <|> L.entry o m)
  left : ∀ m, L'.entry o m ≠ none → L'.entry t m = L.entry t m ∧ L'.entry o m = L.entry o m

section

variable {L : Layers ι η κ α} {D : α → Prop} {t o t' o' x u : ι} {k : κ} {r : α ⊕ ι}

/-! ## References -/

theorem Only.parents (h : L.Only t o) : L.Parents o 1 := by
  refine ⟨0, 1, .eq_zero h.held, ?_, rfl⟩
  have hset : {x | L.below x = some o} = {t} := by
    ext x
    exact ⟨h.parent x, fun hx ↦ hx ▸ h.below⟩
  unfold Refs
  rw [hset, Set.encard_singleton]
  rfl

theorem Parents.unique {n m : ℕ} (h : L.Parents o n) (h' : L.Parents o m) : n = m := by
  obtain ⟨e, k, he, hk, rfl⟩ := h
  obtain ⟨e', k', he', hk', rfl⟩ := h'
  rw [he.unique he', hk.unique hk']

theorem Parents.only (h : L.Parents o 1) (hb : L.below t = some o) (hi : L.below o ≠ none) :
    L.Only t o := by
  obtain ⟨e, k, he, hk, hsum⟩ := h
  have hpos := hk.pos hb
  obtain rfl : e = 0 := by omega
  obtain rfl : k = 1 := by omega
  exact ⟨hb, hi, he.ne_of_zero, fun x hx ↦ hk.eq_of_one hx hb⟩

theorem Under.head_cases (h : L.Under t o) : ∃ u, L.Only t u ∧ (u = o ∨ L.Under u o) := by
  induction h with
  | single h => exact ⟨_, h, .inl rfl⟩
  | tail _ hs ih =>
    obtain ⟨u, hu, rfl | hrest⟩ := ih
    · exact ⟨_, hu, .inr (.single hs)⟩
    · exact ⟨u, hu, .inr (.tail hrest hs)⟩

theorem Fits.fine (h : L.Fits D x) : L.Fine D x := h x .refl

theorem fits_iff : L.Fits D x ↔ L.Fine D x ∧ ∀ u, L.below x = some u → L.Fits D u := by
  constructor
  · exact fun h ↦ ⟨h.fine, fun u hu t ht ↦ h t (.head hu ht)⟩
  · rintro ⟨hx, hu⟩ t ht
    rcases ReflTransGen.cases_head ht with rfl | ⟨u, hb, hrest⟩
    · exact hx
    · exact hu u hb t hrest

theorem fits_of_bottom (h : ∀ u, L.below x = some u → L.below u = none) : L.Fits D x := by
  have hfine : ∀ y, (∀ u, L.below y = some u → L.below u = none) → L.Fine D y := by
    intro y hy
    refine ⟨fun u hu hi ↦ absurd (hy u hu) hi, fun u hu ↦ ?_⟩
    obtain ⟨w, hw, -⟩ := hu.head_cases
    exact absurd (hy w hw.below) hw.inner
  rw [fits_iff]
  refine ⟨hfine x h, fun u hu ↦ ?_⟩
  have hnone := h u hu
  rw [fits_iff]
  refine ⟨hfine u fun w hw ↦ ?_, fun w hw ↦ ?_⟩
  · cases hnone.symm.trans hw
  · cases hnone.symm.trans hw

theorem Fine.of_shared (hb : L.below t = some o) (h : L.Parents o 2) : L.Fine D t := by
  constructor
  · intro u hu _
    cases hb.symm.trans hu
    exact .inr h
  · intro x hx
    obtain ⟨u, hu, -⟩ := hx.head_cases
    cases hb.symm.trans hu.below
    cases hu.parents.unique h

theorem Finds.ends (h : L.Finds k x r) :
    (∀ a, r = .inl a → ∃ y, L.entry y k = some a) ∧ ∀ y, r = .inr y → L.below y = none := by
  induction h with
  | @here y a he =>
    refine ⟨fun a' ha ↦ ⟨y, ?_⟩, fun _ hy ↦ ?_⟩
    · cases ha
      exact he
    · cases hy
  | bottom _ hb =>
    refine ⟨fun _ ha ↦ ?_, fun y hy ↦ ?_⟩
    · cases ha
    · cases hy
      exact hb
  | down _ _ _ ih => exact ih

/-! ## Merging -/

theorem Only.ne [Preorder ι] (h : L.Only t o) (hg : L.Grounded) : t ≠ o := (hg t o h.below).ne'

theorem Under.ne [Preorder ι] (h : L.Under t o) (hg : L.Grounded) : o ≠ t := by
  have hlt : o < t := by
    induction h with
    | single h => exact hg _ _ h.below
    | tail _ h ih => exact (hg _ _ h.below).trans ih
  exact hlt.ne

namespace Shifted

variable {L' L'' : Layers ι η κ α}

theorem refl (L : Layers ι η κ α) (t o : ι) : Shifted L L t o :=
  ⟨rfl, rfl, fun _ _ _ _ ↦ rfl, fun _ ↦ rfl, fun _ _ ↦ ⟨rfl, rfl⟩⟩

theorem step (h : Shifted L L' t o) (hs : Shifts L' L'' t o k) : Shifted L L'' t o where
  below := hs.below.trans h.below
  held := hs.held.trans h.held
  other x m hxt hxo := by
    rw [hs.other x m fun hx ↦ (hx.elim hxt hxo).elim, h.other x m hxt hxo]
  both m := by
    by_cases hm : m = k
    · subst hm
      rw [hs.up, hs.gone, ← h.both m]
      cases L'.entry t m <;> cases L'.entry o m <;> rfl
    · rw [hs.other t m fun _ ↦ hm, hs.other o m fun _ ↦ hm, h.both m]
  left m hm := by
    have hk : m ≠ k := by
      rintro rfl
      exact hm hs.gone
    rw [hs.other o m fun _ ↦ hk] at hm
    rw [hs.other t m fun _ ↦ hk, hs.other o m fun _ ↦ hk]
    exact h.left m hm

end Shifted

variable [DecidableEq ι]

theorem merge_below_gone : (L.merge t o).below o = none := update_self ..

theorem merge_below_self (hne : t ≠ o) : (L.merge t o).below t = L.below o := by
  simp [merge, hne]

theorem merge_below_of_ne (ht : x ≠ t) (ho : x ≠ o) : (L.merge t o).below x = L.below x := by
  simp [merge, ht, ho]

theorem merge_entry_gone : (L.merge t o).entry o k = none := by
  simp [merge]

theorem merge_entry_self (hne : t ≠ o) :
    (L.merge t o).entry t k = (L.entry t k <|> L.entry o k) := by
  simp [merge, hne]

theorem merge_entry_of_ne (ht : x ≠ t) (ho : x ≠ o) : (L.merge t o).entry x k = L.entry x k := by
  simp [merge, ht, ho]

theorem Shifted.entry_eq {L' : Layers ι η κ α} (h : Shifted L L' t o) (hne : t ≠ o)
    (hnone : ∀ m, L'.entry o m = none) : L'.entry = (L.merge t o).entry := by
  funext x m
  rcases eq_or_ne x o with rfl | hxo
  · rw [hnone m, merge_entry_gone]
  rcases eq_or_ne x t with rfl | hxt
  · have hboth := h.both m
    rw [hnone m] at hboth
    rw [merge_entry_self hne, ← hboth]
    cases L'.entry x m <;> rfl
  · rw [merge_entry_of_ne hxt hxo, h.other x m hxt hxo]

theorem not_only_merge_gone : ¬ (L.merge t o).Only o o' := by
  intro h'
  have hb := h'.below
  rw [merge_below_gone] at hb
  cases hb

variable [Preorder ι]

theorem Only.merge_below_ne (h : L.Only t o) (hg : L.Grounded) (x : ι) :
    (L.merge t o).below x ≠ some o := by
  intro hx
  rcases eq_or_ne x o with rfl | ho
  · rw [merge_below_gone] at hx
    cases hx
  rcases eq_or_ne x t with rfl | ht
  · rw [merge_below_self (h.ne hg)] at hx
    exact lt_irrefl o (hg o o hx)
  · rw [merge_below_of_ne ht ho] at hx
    exact ht (h.parent x hx)

theorem Only.merge_below_eq_none (h : L.Only t o) (hg : L.Grounded) (ho : x ≠ o) :
    (L.merge t o).below x = none ↔ L.below x = none := by
  rcases eq_or_ne x t with rfl | ht
  · rw [merge_below_self (h.ne hg), h.below]
    exact iff_of_false h.inner nofun
  · rw [merge_below_of_ne ht ho]

theorem Only.grounded_merge (h : L.Only t o) (hg : L.Grounded) : (L.merge t o).Grounded := by
  intro x u hx
  rcases eq_or_ne x o with rfl | ho
  · rw [merge_below_gone] at hx
    cases hx
  rcases eq_or_ne x t with rfl | ht
  · rw [merge_below_self (h.ne hg)] at hx
    exact (hg o u hx).trans (hg x o h.below)
  · rw [merge_below_of_ne ht ho] at hx
    exact hg x u hx

/-- **Merging is not noticed.** -/
theorem finds_merge (hg : L.Grounded) (h : L.Only t o) (hx : x ≠ o) :
    (L.merge t o).Finds k x r ↔ L.Finds k x r := by
  have hne := h.ne hg
  constructor
  · intro hf
    induction hf with
    | @here x a he =>
      rcases eq_or_ne x t with rfl | ht
      · rw [merge_entry_self hne] at he
        cases htop : L.entry x k with
        | some b =>
          rw [htop] at he
          cases he
          exact .here htop
        | none =>
          rw [htop] at he
          exact .down htop h.below (.here he)
      · rw [merge_entry_of_ne ht hx] at he
        exact .here he
    | @bottom x he hb =>
      have hb' := (h.merge_below_eq_none hg hx).mp hb
      have ht : x ≠ t := by
        rintro rfl
        cases hb'.symm.trans h.below
      rw [merge_entry_of_ne ht hx] at he
      exact .bottom he hb'
    | @down x u r he hb _ ih =>
      have hu : u ≠ o := fun huo ↦ h.merge_below_ne hg x (huo ▸ hb)
      rcases eq_or_ne x t with rfl | ht
      · rw [merge_entry_self hne] at he
        rw [merge_below_self hne] at hb
        cases htop : L.entry x k with
        | some b =>
          rw [htop] at he
          cases he
        | none =>
          rw [htop] at he
          exact .down htop h.below (.down he hb (ih hu))
      · rw [merge_entry_of_ne ht hx] at he
        rw [merge_below_of_ne ht hx] at hb
        exact .down he hb (ih hu)
  · intro hf
    -- a lookup that comes to the lower layer finds what it would find from the upper one
    have hboth : (x ≠ o → (L.merge t o).Finds k x r) ∧
        (x = o → L.entry t k = none → (L.merge t o).Finds k t r) := by
      clear hx
      induction hf with
      | @here x a he =>
        refine ⟨fun hx ↦ .here ?_, fun hx htop ↦ .here ?_⟩
        · rcases eq_or_ne x t with rfl | ht
          · rw [merge_entry_self hne, he]
            rfl
          · rw [merge_entry_of_ne ht hx, he]
        · rw [merge_entry_self hne, htop, ← hx, he]
          rfl
      | @bottom x he hb =>
        refine ⟨fun hx ↦ ?_, fun hx ↦ absurd (hx ▸ hb) h.inner⟩
        have ht : x ≠ t := by
          rintro rfl
          cases hb.symm.trans h.below
        exact .bottom (by rw [merge_entry_of_ne ht hx, he]) (by rw [merge_below_of_ne ht hx, hb])
      | @down x u r he hb _ ih =>
        refine ⟨fun hx ↦ ?_, fun hx htop ↦ ?_⟩
        · rcases eq_or_ne x t with rfl | ht
          · cases h.below.symm.trans hb
            exact ih.2 rfl he
          · have hu : u ≠ o := by
              rintro rfl
              exact ht (h.parent x hb)
            exact .down (by rw [merge_entry_of_ne ht hx, he])
              (by rw [merge_below_of_ne ht hx, hb]) (ih.1 hu)
        · have hu : u ≠ o := by
            rintro rfl
            exact (hg x u hb).ne hx.symm
          refine .down ?_ ?_ (ih.1 hu)
          · rw [merge_entry_self hne, htop, ← hx, he]
            rfl
          · rw [merge_below_self hne, ← hx, hb]
    exact hboth.1 hx

/-! ## What merging does to the condition -/

/-- The number of references of the other layers stays the same. -/
theorem parents_merge (hg : L.Grounded) (h : L.Only t o) {n : ℕ} (hx : x ≠ o) :
    (L.merge t o).Parents x n ↔ L.Parents x n := by
  have hne := h.ne hg
  have htx : L.below t ≠ some x := fun htx ↦ hx (Option.some.inj (htx.symm.trans h.below))
  have hcard : {y | (L.merge t o).below y = some x}.encard = {y | L.below y = some x}.encard := by
    by_cases hox : L.below o = some x
    · -- the reference of the lower layer has become one of the upper layer
      have hset : {y | (L.merge t o).below y = some x} =
          insert t ({y | L.below y = some x} \ {o}) := by
        ext y
        simp only [Set.mem_ofPred_eq, Set.mem_insert_iff, Set.mem_sdiff, Set.mem_singleton_iff]
        rcases eq_or_ne y o with rfl | ho
        · simp [merge_below_gone, hne.symm]
        rcases eq_or_ne y t with rfl | ht
        · simp [merge_below_self hne, hox]
        · simp [merge_below_of_ne ht ho, ht, ho]
      have hmem : o ∈ {y | L.below y = some x} := hox
      rw [hset, Set.encard_insert_of_notMem fun ht ↦ htx ht.1,
        Set.encard_sdiff_singleton_add_one hmem]
    · congr 1
      ext y
      simp only [Set.mem_ofPred_eq]
      rcases eq_or_ne y o with rfl | ho
      · simp [merge_below_gone, hox]
      rcases eq_or_ne y t with rfl | ht
      · simp [merge_below_self hne, hox, htx]
      · rw [merge_below_of_ne ht ho]
  refine exists_congr fun e ↦ exists_congr fun k ↦ and_congr_right fun _ ↦ and_congr_left' ?_
  unfold Refs
  rw [hcard]

theorem only_merge_iff {x : ι} (hg : L.Grounded) (h : L.Only t o)
    (hx : (L.merge t o).below t' = L.below x) (ho : L.Only x o' → o' ≠ o) :
    (L.merge t o).Only t' o' ↔ L.Only x o' := by
  constructor
  · intro h'
    have ho' : o' ≠ o := fun he ↦ h.merge_below_ne hg t' (he ▸ h'.below)
    exact ((parents_merge hg h ho').mp h'.parents).only (hx.symm.trans h'.below)
      (mt (h.merge_below_eq_none hg ho').mpr h'.inner)
  · intro h'
    exact ((parents_merge hg h (ho h')).mpr h'.parents).only (hx.trans h'.below)
      (mt (h.merge_below_eq_none hg (ho h')).mp h'.inner)

theorem only_merge (hg : L.Grounded) (h : L.Only t o) (ht : t' ≠ t) (ho : t' ≠ o) :
    (L.merge t o).Only t' o' ↔ L.Only t' o' := by
  refine only_merge_iff hg h (merge_below_of_ne ht ho) fun h' ↦ ?_
  rintro rfl
  exact ht (h.parent t' h'.below)

theorem only_merge_self (hg : L.Grounded) (h : L.Only t o) :
    (L.merge t o).Only t o' ↔ L.Only o o' :=
  only_merge_iff hg h (merge_below_self (h.ne hg)) fun h' ↦ (h'.ne hg).symm

theorem Only.of_merge (h' : (L.merge t o).Only t' o') (hg : L.Grounded) (h : L.Only t o) :
    ∃ x, L.Only x o' := by
  rcases eq_or_ne t' o with rfl | ho
  · exact absurd h' not_only_merge_gone
  rcases eq_or_ne t' t with rfl | ht
  · exact ⟨o, (only_merge_self hg h).mp h'⟩
  · exact ⟨t', (only_merge hg h ht ho).mp h'⟩

theorem under_merge (hg : L.Grounded) (h : L.Only t o) (ht : t' ≠ o) :
    (L.merge t o).Under t' x ↔ L.Under t' x ∧ x ≠ o := by
  have hne := h.ne hg
  have hgone : ∀ {y z}, (L.merge t o).Only y z → z ≠ o := by
    rintro y z hz rfl
    exact h.merge_below_ne hg y hz.below
  constructor
  · intro hu
    -- a step from the upper layer was two steps
    have hstep : ∀ {y z}, (L.merge t o).Only y z → L.Under y z := by
      intro y z hz
      rcases eq_or_ne y o with rfl | ho
      · exact absurd hz not_only_merge_gone
      rcases eq_or_ne y t with rfl | hyt
      · exact .tail (.single h) ((only_merge_self hg h).mp hz)
      · exact .single ((only_merge hg h hyt ho).mp hz)
    induction hu with
    | single hz => exact ⟨hstep hz, hgone hz⟩
    | tail _ hz ih => exact ⟨ih.1.trans (hstep hz), hgone hz⟩
  · rintro ⟨hu, hx⟩
    have hboth : (x ≠ o → (L.merge t o).Under t' x) ∧
        (x = o → t' = t ∨ (L.merge t o).Under t' t) := by
      clear hx
      induction hu with
      | @single z hz =>
        refine ⟨fun hx ↦ ?_, fun hx ↦ ?_⟩
        · rcases eq_or_ne t' t with rfl | htt
          · exact absurd (Option.some.inj (hz.below.symm.trans h.below)) hx
          · exact .single ((only_merge hg h htt ht).mpr hz)
        · exact .inl (h.parent t' (hx ▸ hz.below))
      | @tail y z _ hz ih =>
        rcases eq_or_ne y o with rfl | ho
        · have hz' := (only_merge_self hg h).mpr hz
          refine ⟨fun _ ↦ ?_, fun hzo ↦ absurd hzo (hz.ne hg).symm⟩
          rcases ih.2 rfl with rfl | hu
          · exact .single hz'
          · exact .tail hu hz'
        · rcases eq_or_ne y t with rfl | hyt
          · cases h.below.symm.trans hz.below
            exact ⟨fun hzo ↦ absurd rfl hzo, fun _ ↦ .inr (ih.1 ho)⟩
          · refine ⟨fun _ ↦ .tail (ih.1 ho) ((only_merge hg h hyt ho).mpr hz), fun hzo ↦ ?_⟩
            exact absurd (h.parent y (hzo ▸ hz.below)) hyt
    exact hboth.1 hx

theorem reaches_merge (hg : L.Grounded) (h : L.Only t o) (hx : x ≠ o) :
    (L.merge t o).Reaches x u ↔ L.Reaches x u ∧ u ≠ o := by
  have hne := h.ne hg
  constructor
  · intro hu
    have hstep : ∀ {y z}, (L.merge t o).below y = some z → L.Reaches y z := by
      intro y z hz
      rcases eq_or_ne y o with rfl | ho
      · rw [merge_below_gone] at hz
        cases hz
      rcases eq_or_ne y t with rfl | hyt
      · rw [merge_below_self hne] at hz
        exact .tail (.single h.below) hz
      · rw [merge_below_of_ne hyt ho] at hz
        exact .single hz
    induction hu with
    | refl => exact ⟨.refl, hx⟩
    | @tail y z _ hz ih =>
      exact ⟨ih.1.trans (hstep hz), fun hzo ↦ h.merge_below_ne hg y (hzo ▸ hz)⟩
  · rintro ⟨hu, huo⟩
    have hboth : (u ≠ o → (L.merge t o).Reaches x u) ∧ (u = o → (L.merge t o).Reaches x t) := by
      clear huo
      induction hu with
      | refl => exact ⟨fun _ ↦ .refl, fun hxo ↦ absurd hxo hx⟩
      | @tail y z _ hz ih =>
        rcases eq_or_ne y o with rfl | ho
        · refine ⟨fun _ ↦ .tail (ih.2 rfl) ((merge_below_self hne).trans hz), fun hzo ↦ ?_⟩
          exact absurd hzo (hg y z hz).ne
        · rcases eq_or_ne y t with rfl | hyt
          · cases h.below.symm.trans hz
            exact ⟨fun hzo ↦ absurd rfl hzo, fun _ ↦ ih.1 ho⟩
          · refine ⟨fun _ ↦ .tail (ih.1 ho) ((merge_below_of_ne hyt ho).trans hz), fun hzo ↦ ?_⟩
            exact absurd (h.parent y (hzo ▸ hz)) hyt
    exact hboth.1 huo

section

variable (hg : L.Grounded) (h : L.Only t o)
  (hD : ∀ k a, L.entry o k = some a → L.entry t k ≠ none → D a)

include hg h hD

theorem fine_merge (ht : t' ≠ t) (ho : t' ≠ o) : (L.merge t o).Fine D t' ↔ L.Fine D t' := by
  have hne := h.ne hg
  have hparents : (∀ u, (L.merge t o).below t' = some u → (L.merge t o).below u ≠ none →
      (L.merge t o).Only t' u ∨ (L.merge t o).Parents u 2) ↔
      ∀ u, L.below t' = some u → L.below u ≠ none → L.Only t' u ∨ L.Parents u 2 := by
    refine forall_congr' fun u ↦ ?_
    rw [merge_below_of_ne ht ho]
    refine forall_congr' fun hu ↦ ?_
    have huo : u ≠ o := by
      rintro rfl
      exact ht (h.parent t' hu)
    rw [Ne, h.merge_below_eq_none hg huo, only_merge hg h ht ho, parents_merge hg h huo]
  constructor
  · intro hf
    refine ⟨hparents.mp hf.parents, fun x hx k a ha hk ↦ ?_⟩
    have hk' : (L.merge t o).entry t' k ≠ none := by rwa [merge_entry_of_ne ht ho]
    rcases eq_or_ne x o with rfl | hxo
    · -- the entry has moved up, unless it was in the way
      by_cases htop : L.entry t k = none
      · have hut : (L.merge t x).Under t' t := by
          refine (under_merge hg h ho).mpr ⟨?_, hne⟩
          cases hx with
          | single hx => exact absurd (h.parent t' hx.below) ht
          | tail hy hz => exact h.parent _ hz.below ▸ hy
        refine hf.clash t hut k a ?_ hk'
        rw [merge_entry_self hne, htop, ha]
        rfl
      · exact hD k a ha htop
    · have hux := (under_merge hg h ho).mpr ⟨hx, hxo⟩
      refine hf.clash x hux k a ?_ hk'
      rcases eq_or_ne x t with rfl | hxt
      · rw [merge_entry_self hne, ha]
        rfl
      · rw [merge_entry_of_ne hxt hxo, ha]
  · intro hf
    refine ⟨hparents.mpr hf.parents, fun x hx k a ha hk ↦ ?_⟩
    rw [merge_entry_of_ne ht ho] at hk
    obtain ⟨hu, hxo⟩ := (under_merge hg h ho).mp hx
    rcases eq_or_ne x t with rfl | hxt
    · rw [merge_entry_self hne] at ha
      cases htop : L.entry x k with
      | some b =>
        rw [htop] at ha
        cases ha
        exact hf.clash x hu k a htop hk
      | none =>
        rw [htop] at ha
        exact hf.clash o (.tail hu h) k a ha hk
    · rw [merge_entry_of_ne hxt hxo] at ha
      exact hf.clash x hu k a ha hk

theorem fine_merge_self : (L.merge t o).Fine D t ↔ L.Fine D t ∧ L.Fine D o := by
  have hne := h.ne hg
  have hentry : ∀ {x k}, L.Under t x → x ≠ o → (L.merge t o).entry x k = L.entry x k :=
    fun hx hxo ↦ merge_entry_of_ne (hx.ne hg) hxo
  constructor
  · intro hf
    constructor
    · refine ⟨fun u hu _ ↦ ?_, fun x hx k a ha hk ↦ ?_⟩
      · cases h.below.symm.trans hu
        exact .inl h
      · rcases eq_or_ne x o with rfl | hxo
        · exact hD k a ha hk
        · refine hf.clash x ((under_merge hg h hne).mpr ⟨hx, hxo⟩) k a ?_ ?_
          · rw [hentry hx hxo, ha]
          · rw [merge_entry_self hne]
            obtain ⟨b, hb⟩ := Option.ne_none_iff_exists'.mp hk
            rw [hb]
            exact Option.some_ne_none b
    · refine ⟨fun u hu hi ↦ ?_, fun x hx k a ha hk ↦ ?_⟩
      · have huo : u ≠ o := (hg o u hu).ne
        rcases hf.parents u ((merge_below_self hne).trans hu)
          (mt (h.merge_below_eq_none hg huo).mp hi) with hu' | hu'
        · exact .inl ((only_merge_self hg h).mp hu')
        · exact .inr ((parents_merge hg h huo).mp hu')
      · have hux : L.Under t x := .head h hx
        have hxo : x ≠ o := hx.ne hg
        refine hf.clash x ((under_merge hg h hne).mpr ⟨hux, hxo⟩) k a ?_ ?_
        · rw [hentry hux hxo, ha]
        · rw [merge_entry_self hne]
          obtain ⟨b, hb⟩ := Option.ne_none_iff_exists'.mp hk
          cases htop : L.entry t k with
          | some c => exact Option.some_ne_none c
          | none =>
            rw [hb]
            exact Option.some_ne_none b
  · rintro ⟨ht, ho⟩
    refine ⟨fun u hu hi ↦ ?_, fun x hx k a ha hk ↦ ?_⟩
    · have huo : u ≠ o := fun he ↦ h.merge_below_ne hg t (he ▸ hu)
      rw [merge_below_self hne] at hu
      rcases ho.parents u hu (mt (h.merge_below_eq_none hg huo).mpr hi) with hu' | hu'
      · exact .inl ((only_merge_self hg h).mpr hu')
      · exact .inr ((parents_merge hg h huo).mpr hu')
    · obtain ⟨hu, hxo⟩ := (under_merge hg h hne).mp hx
      rw [hentry hu hxo] at ha
      rw [merge_entry_self hne] at hk
      cases htop : L.entry t k with
      | some b => exact ht.clash x hu k a ha (htop ▸ Option.some_ne_none b)
      | none =>
        rw [htop] at hk
        obtain ⟨w, hw, hrest⟩ := hu.head_cases
        cases h.below.symm.trans hw.below
        rcases hrest with rfl | hrest
        · exact absurd rfl hxo
        · exact ho.clash x hrest k a ha hk

/-- **Merging does not change the condition.** -/
theorem fits_merge (hx : x ≠ o) : (L.merge t o).Fits D x ↔ L.Fits D x := by
  have hne := h.ne hg
  constructor
  · intro hf y hy
    have hreach : ∀ {z}, L.Reaches x z → z ≠ o → (L.merge t o).Fine D z := fun hz hzo ↦
      hf _ ((reaches_merge hg h hx).mpr ⟨hz, hzo⟩)
    rcases eq_or_ne y o with rfl | hyo
    · -- the way to the lower layer leads through the upper one
      rcases ReflTransGen.cases_tail hy with rfl | ⟨z, hz, hzo⟩
      · exact absurd rfl hx
      · cases h.parent z hzo
        exact ((fine_merge_self hg h hD).mp (hreach hz hne)).2
    · rcases eq_or_ne y t with rfl | hyt
      · exact ((fine_merge_self hg h hD).mp (hreach hy hyo)).1
      · exact (fine_merge hg h hD hyt hyo).mp (hreach hy hyo)
  · intro hf y hy
    obtain ⟨hreach, hyo⟩ := (reaches_merge hg h hx).mp hy
    rcases eq_or_ne y t with rfl | hyt
    · exact (fine_merge_self hg h hD).mpr ⟨hf y hreach, hf o (.tail hreach h.below)⟩
    · exact (fine_merge hg h hD hyt hyo).mpr (hf y hreach)

end

/-! ## Merging again and again -/

/-- One layer has been merged into the one above it. -/
def Merges (D : α → Prop) (L L' : Layers ι η κ α) : Prop :=
  ∃ t o, L.Only t o ∧ (∀ k a, L.entry o k = some a → L.entry t k ≠ none → D a) ∧ L' = L.merge t o

/-- Layers have been merged. -/
def Merged (D : α → Prop) : Layers ι η κ α → Layers ι η κ α → Prop := ReflTransGen (Merges D)

namespace Merged

variable {L' : Layers ι η κ α} {a : η}

section

variable (h : Merged D L L') (hg : L.Grounded)
include h hg

theorem keeps : L'.held = L.held ∧ L'.Grounded := by
  induction h with
  | refl => exact ⟨rfl, hg⟩
  | tail _ hs ih =>
    obtain ⟨t, o, ho, -, rfl⟩ := hs
    exact ⟨ih.1, ho.grounded_merge ih.2⟩

theorem finds (hx : L.held a = some x) : L'.Finds k x r ↔ L.Finds k x r := by
  induction h with
  | refl => exact Iff.rfl
  | tail hm hs ih =>
    obtain ⟨hheld, hg'⟩ := Merged.keeps hm hg
    obtain ⟨t, o, ho, -, rfl⟩ := hs
    have hxo : x ≠ o := fun he ↦ ho.held a (by rw [hheld, hx, he])
    exact (finds_merge hg' ho hxo).trans ih

theorem fits (hx : L.held a = some x) : L'.Fits D x ↔ L.Fits D x := by
  induction h with
  | refl => exact Iff.rfl
  | tail hm hs ih =>
    obtain ⟨hheld, hg'⟩ := Merged.keeps hm hg
    obtain ⟨t, o, ho, hD, rfl⟩ := hs
    have hxo : x ≠ o := fun he ↦ ho.held a (by rw [hheld, hx, he])
    exact (fits_merge hg' ho hD hxo).trans ih

theorem only (ho : L'.Only t o) : ∃ x, L.Only x o := by
  induction h generalizing t with
  | refl => exact ⟨t, ho⟩
  | tail hm hs ih =>
    obtain ⟨-, hg'⟩ := Merged.keeps hm hg
    obtain ⟨t', o', ho', -, rfl⟩ := hs
    obtain ⟨x, hx⟩ := ho.of_merge hg' ho'
    exact ih hx

end

end Merged

end

end Layers

end CS402.Lib

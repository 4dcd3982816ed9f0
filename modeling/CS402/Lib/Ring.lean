import Mathlib.Data.List.Chain
import Mathlib.Data.List.Nodup

/-!
# Rings of linked nodes

A list whose nodes are linked in both directions and whose two ends meet in one more
node, the anchor.  `LinkRing next prev a l` says that the nodes of `l`, in this order, and the
anchor `a` form such a ring; `next` and `prev` read the links of a node, if there is one.

All that can be read off a ring follows from one fact (`LinkRing.link`): wherever the list is
cut, the node before the cut and the node behind it are linked.  The node before the first
one and the node behind the last one are the anchor, which `getLastD` and `headD` say.
Correspondingly there are two changes, a node is put into a cut (`LinkRing.insert`) and a node
is taken out (`LinkRing.remove`).
-/

namespace CS402.Lib

variable {ι : Type*}

/-- The links of two neighbours point at each other. -/
def Linked (next prev : ι → Option ι) (x y : ι) : Prop := next x = some y ∧ prev y = some x

/-- The nodes and the anchor form a ring. -/
structure LinkRing (next prev : ι → Option ι) (a : ι) (l : List ι) : Prop where
  nodup : (a :: l).Nodup
  chain : (a :: (l ++ [a])).IsChain (Linked next prev)

namespace LinkRing

variable {next prev next' prev' : ι → Option ι} {a z : ι} {l l₁ l₂ : List ι}

theorem append_iff : LinkRing next prev a (l₁ ++ l₂) ↔ (a :: (l₁ ++ l₂)).Nodup ∧
    (a :: l₁).IsChain (Linked next prev) ∧ (l₂ ++ [a]).IsChain (Linked next prev) ∧
    Linked next prev (l₁.getLastD a) (l₂.headD a) := by
  have hlast : (a :: l₁).getLast? = some (l₁.getLastD a) := by simp [List.getLast?_cons]
  have hhead : (l₂ ++ [a]).head? = some (l₂.headD a) := by cases l₂ <;> rfl
  have hchain : (a :: (l₁ ++ l₂ ++ [a])).IsChain (Linked next prev) ↔
      (a :: l₁).IsChain (Linked next prev) ∧ (l₂ ++ [a]).IsChain (Linked next prev) ∧
        Linked next prev (l₁.getLastD a) (l₂.headD a) := by
    rw [List.append_assoc, ← List.cons_append, List.isChain_append, hlast, hhead]
    simp
  exact ⟨fun h ↦ ⟨h.nodup, hchain.mp h.chain⟩, fun h ↦ ⟨h.1, hchain.mpr h.2⟩⟩

theorem link (l₁ : List ι) (h : LinkRing next prev a (l₁ ++ l₂)) :
    Linked next prev (l₁.getLastD a) (l₂.headD a) :=
  (append_iff.mp h).2.2.2

theorem next_anchor (h : LinkRing next prev a l) : next a = some (l.headD a) :=
  (link [] h).1

theorem prev_anchor (h : LinkRing next prev a l) : prev a = some (l.getLastD a) := by
  rw [← List.append_nil l] at h
  exact (link l h).2

theorem links (l₁ : List ι) (h : LinkRing next prev a (l₁ ++ z :: l₂)) :
    Linked next prev (l₁.getLastD a) z ∧ Linked next prev z (l₂.headD a) := by
  refine ⟨link l₁ h, ?_⟩
  rw [List.append_cons] at h
  simpa using link _ h

theorem next_node (l₁ : List ι) (h : LinkRing next prev a (l₁ ++ z :: l₂)) :
    next z = some (l₂.headD a) :=
  (links l₁ h).2.1

/-- A chain depends on the forward links of all but its last node and on the backward
links of all but its first. -/
theorem chain_congr (h : l.IsChain (Linked next prev)) (hnext : ∀ x ∈ l.dropLast, next' x = next x)
    (hprev : ∀ x ∈ l.tail, prev' x = prev x) : l.IsChain (Linked next' prev') := by
  induction l with
  | nil => exact .nil
  | cons x l ih =>
    cases l with
    | nil => exact .singleton x
    | cons y l =>
      obtain ⟨⟨hx, hy⟩, hrest⟩ := List.isChain_cons_cons.mp h
      refine List.isChain_cons_cons.mpr ⟨⟨?_, ?_⟩, ih hrest ?_ ?_⟩
      · exact (hnext x (by simp)).trans hx
      · exact (hprev y (by simp)).trans hy
      · exact fun w hw ↦ hnext w (by simp [hw])
      · exact fun w hw ↦ hprev w (by simp_all)

theorem nodup_cut (h : (a :: (l₁ ++ l₂)).Nodup) :
    l₁.getLastD a ∉ (a :: l₁).dropLast ∧ l₁.getLastD a ∉ l₂ ∧
      l₂.headD a ∉ l₁ ∧ l₂.headD a ∉ (l₂ ++ [a]).tail := by
  -- the list before the cut from its end, the list behind it from its beginning
  rcases l₁.eq_nil_or_concat with rfl | ⟨l₁, x, rfl⟩
  · cases l₂ with
    | nil => simp
    | cons y l₂ => grind
  · have hdrop : (a :: (l₁ ++ [x])).dropLast = a :: l₁ := by
      rw [← List.cons_append, List.dropLast_concat]
    cases l₂ with
    | nil => grind
    | cons y l₂ => grind

section

variable (hnext : ∀ x ≠ z, x ≠ l₁.getLastD a → next' x = next x)
  (hprev : ∀ x ≠ z, x ≠ l₂.headD a → prev' x = prev x)
include hnext hprev

/-- The two parts of a ring stay chains when only the links across the cut change, and
those of a node outside. -/
theorem parts_congr (hnodup : (a :: (l₁ ++ l₂)).Nodup) (hz : z ∉ a :: (l₁ ++ l₂))
    (h₁ : (a :: l₁).IsChain (Linked next prev)) (h₂ : (l₂ ++ [a]).IsChain (Linked next prev)) :
    (a :: l₁).IsChain (Linked next' prev') ∧ (l₂ ++ [a]).IsChain (Linked next' prev') := by
  obtain ⟨hlast₁, hlast₂, hhead₁, hhead₂⟩ := nodup_cut hnodup
  have hne : ∀ x, x ∈ a :: l₁ ∨ x ∈ l₂ ++ [a] → x ≠ z := by grind
  refine ⟨chain_congr h₁ (fun x hx ↦ ?_) (fun x hx ↦ ?_),
    chain_congr h₂ (fun x hx ↦ ?_) (fun x hx ↦ ?_)⟩
  · exact hnext x (hne x (.inl (List.dropLast_subset _ hx))) fun he ↦ hlast₁ (he ▸ hx)
  · exact hprev x (hne x (.inl (List.mem_of_mem_tail hx))) fun he ↦ hhead₁ (he ▸ hx)
  · have hx₂ : x ∈ l₂ := by simpa using hx
    exact hnext x (hne x (.inr (List.dropLast_subset _ hx))) fun he ↦ hlast₂ (he ▸ hx₂)
  · exact hprev x (hne x (.inr (List.mem_of_mem_tail hx))) fun he ↦ hhead₂ (he ▸ hx)

theorem insert (h : LinkRing next prev a (l₁ ++ l₂)) (hz : z ∉ a :: (l₁ ++ l₂))
    (hleft : Linked next' prev' (l₁.getLastD a) z) (hright : Linked next' prev' z (l₂.headD a)) :
    LinkRing next' prev' a (l₁ ++ z :: l₂) := by
  obtain ⟨hnodup, hchain₁, hchain₂, -⟩ := append_iff.mp h
  obtain ⟨hchain₁, hchain₂⟩ := parts_congr hnext hprev hnodup hz hchain₁ hchain₂
  refine append_iff.mpr ⟨by grind, hchain₁, ?_, hleft⟩
  rw [List.cons_append, List.isChain_cons]
  refine ⟨fun y hy ↦ ?_, hchain₂⟩
  cases l₂ <;> cases hy <;> exact hright

theorem remove (h : LinkRing next prev a (l₁ ++ z :: l₂))
    (hlink : Linked next' prev' (l₁.getLastD a) (l₂.headD a)) :
    LinkRing next' prev' a (l₁ ++ l₂) := by
  obtain ⟨hnodup, hchain₁, hchain₂, -⟩ := append_iff.mp h
  have hnodup' : (a :: (l₁ ++ l₂)).Nodup := hnodup.sublist (by simp)
  rw [List.cons_append, List.isChain_cons] at hchain₂
  obtain ⟨hchain₁, hchain₂⟩ :=
    parts_congr hnext hprev hnodup' (by grind) hchain₁ hchain₂.2
  exact append_iff.mpr ⟨hnodup', hchain₁, hchain₂, hlink⟩

end

end LinkRing

end CS402.Lib

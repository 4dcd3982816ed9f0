import Mathlib.Data.List.Basic
import Mathlib.Data.List.Pairwise
import Mathlib.Order.Basic
import Mathlib.Order.Nat

/-!
# Partial maps given by lists of segments

A segment `[lo, hi)` carries a tag and maps its point `v` to the offset
`off + (v - lo)`.  A list of segments is a partial map on the natural numbers: the
first segment that contains a point decides.  Two operations change such a list.
`insert` adds a segment, before the first one that starts later; `remove` takes the
points of a range away, by dropping, shortening or splitting segments.

`remove` is written the way a loop over a linked list does it: it stops once it has
split a segment, and if a split is impossible it stops without having done it.  On
a list whose segments do not overlap this does not matter, because a range inside
one segment meets no other.
-/

universe u

namespace CS402.Lib

/-- A segment `[lo, hi)`, with the offset of its first point and a tag. -/
structure Seg (β : Type u) where
  lo : ℕ
  hi : ℕ
  off : ℕ
  tag : β

namespace Seg

variable {β : Type u} {s t : Seg β} {lo hi v w : ℕ}

/-- What the segment says about a point. -/
def at? (s : Seg β) (v : ℕ) : Option (ℕ × β) :=
  if s.lo ≤ v ∧ v < s.hi then some (s.off + (v - s.lo), s.tag) else none

/-- The segment has no point in `[lo, hi)`. -/
def Avoids (s : Seg β) (lo hi : ℕ) : Prop := hi ≤ s.lo ∨ s.hi ≤ lo

instance (s : Seg β) (lo hi : ℕ) : Decidable (s.Avoids lo hi) := inferInstanceAs (Decidable (_ ∨ _))

/-- `[lo, hi)` lies inside the segment and touches neither end. -/
def Surrounds (s : Seg β) (lo hi : ℕ) : Prop := s.lo < lo ∧ hi < s.hi

instance (s : Seg β) (lo hi : ℕ) : Decidable (s.Surrounds lo hi) :=
  inferInstanceAs (Decidable (_ ∧ _))

/-- The part below a point. -/
def below (s : Seg β) (v : ℕ) : Seg β := { s with hi := v }

/-- The part from a point on. -/
def above (s : Seg β) (v : ℕ) : Seg β := { s with lo := v, off := s.off + (v - s.lo) }

/-- What is left of a segment without the points of `[lo, hi)`. -/
def cut (lo hi : ℕ) (s : Seg β) : List (Seg β) :=
  if s.Avoids lo hi then [s]
  else (if s.lo < lo then [s.below lo] else []) ++ if hi < s.hi then [s.above hi] else []

theorem at?_of_not_mem (h : ¬ (s.lo ≤ v ∧ v < s.hi)) : s.at? v = none := if_neg h

theorem at?_of_mem (h : s.lo ≤ v ∧ v < s.hi) : s.at? v = some (s.off + (v - s.lo), s.tag) :=
  if_pos h

theorem at?_below (hw : w ≤ s.hi) : (s.below w).at? v = if v < w then s.at? v else none := by
  unfold at? below
  simp only
  split_ifs <;> first | rfl | omega

theorem at?_above (hw : s.lo ≤ w) : (s.above w).at? v = if w ≤ v then s.at? v else none := by
  have hoff : w ≤ v → s.off + (w - s.lo) + (v - w) = s.off + (v - s.lo) := by omega
  unfold at? above
  simp only
  split_ifs <;> first | rfl | omega | simp_all

theorem Avoids.at?_eq_none (h : s.Avoids lo hi) (hv : lo ≤ v ∧ v < hi) : s.at? v = none := by
  refine at?_of_not_mem ?_
  unfold Avoids at h
  omega

theorem lt_of_not_avoids (h : ¬ s.Avoids lo hi) : s.lo < hi ∧ lo < s.hi := by
  unfold Avoids at h
  omega

/-- The parts that are left cover exactly the other points, with the same image. -/
theorem findSome?_cut (hlt : lo < hi) : ((s.cut lo hi).findSome? fun t ↦ t.at? v) =
    if lo ≤ v ∧ v < hi then none else s.at? v := by
  unfold cut
  split
  · next h =>
    rw [List.findSome?_singleton]
    split
    · next hv => exact h.at?_eq_none hv
    · rfl
  next h =>
  have hmeets := lt_of_not_avoids h
  have hbelow := at?_below (v := v) hmeets.2.le
  have habove := at?_above (v := v) hmeets.1.le
  by_cases hlo : v < lo
  · -- only the part below can contain the point
    rw [if_pos hlo] at hbelow
    rw [if_neg (by omega)] at habove
    rw [if_neg (show ¬ (lo ≤ v ∧ v < hi) by omega)]
    by_cases hs : s.lo < lo
    · rw [if_pos hs, List.findSome?_append, List.findSome?_singleton, hbelow]
      split <;> simp [habove]
    · rw [if_neg hs, at?_of_not_mem (by omega)]
      split <;> simp [habove]
  · -- only the part above can
    rw [if_neg hlo] at hbelow
    have hleft : ((if s.lo < lo then [s.below lo] else []).findSome? fun t ↦ t.at? v) = none := by
      split <;> simp [hbelow]
    rw [List.findSome?_append, hleft, Option.none_or]
    by_cases hhi : hi < s.hi
    · rw [if_pos hhi, List.findSome?_singleton, habove]
      split_ifs <;> first | rfl | omega
    · rw [if_neg hhi, List.findSome?_nil]
      split
      · rfl
      · exact (at?_of_not_mem (by omega)).symm

/-- A part that is left: it lies in the segment, avoids the range, keeps the tag, and
its offset fits. -/
theorem of_mem_cut (hs : s.lo < s.hi) (ht : t ∈ s.cut lo hi) :
    t.lo < t.hi ∧ s.lo ≤ t.lo ∧ t.hi ≤ s.hi ∧ t.Avoids lo hi ∧ t.tag = s.tag ∧
      t.off + s.lo = s.off + t.lo := by
  unfold cut at ht
  split at ht
  · next h =>
    cases List.mem_singleton.mp ht
    exact ⟨hs, le_rfl, le_rfl, h, rfl, rfl⟩
  next h =>
  have hmeets := lt_of_not_avoids h
  rcases List.mem_append.mp ht with ht | ht
  · split at ht
    · next hlo =>
      cases List.mem_singleton.mp ht
      exact ⟨hlo, le_rfl, hmeets.2.le, .inr le_rfl, rfl, rfl⟩
    · cases ht
  · split at ht
    · next hhi =>
      cases List.mem_singleton.mp ht
      refine ⟨hhi, hmeets.1.le, le_rfl, .inl le_rfl, rfl, ?_⟩
      show s.off + (hi - s.lo) + s.lo = s.off + hi
      omega
    · cases ht

theorem pairwise_cut (hlt : lo < hi) : (s.cut lo hi).Pairwise fun t t' ↦ t.hi ≤ t'.lo := by
  unfold cut
  split_ifs <;> simp [below, above, hlt.le]

end Seg

namespace Segs

variable {β : Type u}

/-- What the first segment that contains a point says about it. -/
def lookup (l : List (Seg β)) (v : ℕ) : Option (ℕ × β) := l.findSome? fun s ↦ s.at? v

/-- Take the points of `[lo, hi)` away; `ok` says whether a segment can be split. -/
def remove (lo hi : ℕ) (ok : Bool) : List (Seg β) → List (Seg β)
  | [] => []
  | s :: l =>
    if s.Surrounds lo hi then if ok then s.cut lo hi ++ l else s :: l
    else s.cut lo hi ++ remove lo hi ok l

/-- Add a segment, before the first one that starts later. -/
def insert (s : Seg β) : List (Seg β) → List (Seg β)
  | [] => [s]
  | t :: l => if s.lo < t.lo then s :: t :: l else t :: insert s l

/-- The segments are not empty, and each ends before the next one starts. -/
structure Ordered (l : List (Seg β)) : Prop where
  proper : ∀ s ∈ l, s.lo < s.hi
  pairwise : l.Pairwise fun s t ↦ s.hi ≤ t.lo

variable {lo hi v : ℕ} {ok : Bool} {s t : Seg β} {l l' : List (Seg β)}

theorem lookup_cons : lookup (s :: l) v = (s.at? v).or (lookup l v) := by
  unfold lookup
  rw [List.findSome?_cons]
  cases s.at? v <;> rfl

theorem lookup_append : lookup (l ++ l') v = (lookup l v).or (lookup l' v) :=
  List.findSome?_append

theorem lookup_eq_none : lookup l v = none ↔ ∀ s ∈ l, s.at? v = none :=
  List.findSome?_eq_none_iff

theorem lookup_cut (hlt : lo < hi) :
    lookup (s.cut lo hi) v = if lo ≤ v ∧ v < hi then none else s.at? v :=
  Seg.findSome?_cut hlt

theorem Ordered.nil : Ordered ([] : List (Seg β)) := ⟨nofun, .nil⟩

theorem Ordered.tail (h : Ordered (s :: l)) : Ordered l :=
  ⟨fun t ht ↦ h.proper t (List.mem_cons_of_mem _ ht), (List.pairwise_cons.mp h.pairwise).2⟩

theorem Ordered.head_le (h : Ordered (s :: l)) (ht : t ∈ l) : s.hi ≤ t.lo :=
  (List.pairwise_cons.mp h.pairwise).1 t ht

theorem Ordered.hi_le_last (h : Ordered (l ++ [s])) (ht : t ∈ l ++ [s]) : t.hi ≤ s.hi := by
  rcases List.mem_append.mp ht with htl | hts
  · have hle := (List.pairwise_append.mp h.pairwise).2.2 t htl s (List.mem_singleton_self s)
    exact hle.trans (h.proper s (by simp)).le
  · rw [List.mem_singleton.mp hts]

/-! ## Removal -/

theorem lookup_remove_of_not_mem (hlt : lo < hi) (hv : ¬ (lo ≤ v ∧ v < hi)) :
    lookup (remove lo hi ok l) v = lookup l v := by
  induction l with
  | nil => rfl
  | cons s l ih =>
    unfold remove
    split
    · split
      · rw [lookup_append, lookup_cut hlt, if_neg hv, lookup_cons]
      · rfl
    · rw [lookup_append, lookup_cut hlt, if_neg hv, lookup_cons, ih]

theorem remove_of_not_surrounds (h : ∀ s ∈ l, ¬ s.Surrounds lo hi) :
    remove lo hi ok l = remove lo hi true l := by
  induction l with
  | nil => rfl
  | cons s l ih =>
    rw [remove, remove, if_neg (h s List.mem_cons_self), if_neg (h s List.mem_cons_self),
      ih fun t ht ↦ h t (List.mem_cons_of_mem _ ht)]

theorem remove_eq_flatMap (h : Ordered l) : remove lo hi true l = l.flatMap (Seg.cut lo hi) := by
  induction l with
  | nil => rfl
  | cons s l ih =>
    rw [List.flatMap_cons]
    unfold remove
    split
    · next hs =>
      -- the later segments start above the range
      have htail : ∀ t ∈ l, t.cut lo hi = [t] := fun t ht ↦
        if_pos (.inl (hs.2.le.trans (h.head_le ht)))
      rw [if_pos rfl, List.flatMap_congr htail, List.flatMap_singleton']
    · rw [ih h.tail]

theorem remove_of_avoids (h : Ordered l) (hav : ∀ s ∈ l, s.Avoids lo hi) :
    remove lo hi true l = l := by
  have hcut : ∀ s ∈ l, s.cut lo hi = [s] := fun s hs ↦ if_pos (hav s hs)
  rw [remove_eq_flatMap h, List.flatMap_congr hcut, List.flatMap_singleton']

theorem lookup_remove_of_mem (h : Ordered l) (hv : lo ≤ v ∧ v < hi) :
    lookup (remove lo hi true l) v = none := by
  rw [remove_eq_flatMap h, lookup_eq_none]
  intro t ht
  obtain ⟨s, hs, hts⟩ := List.mem_flatMap.mp ht
  exact (Seg.of_mem_cut (h.proper s hs) hts).2.2.2.1.at?_eq_none hv

theorem mem_remove (h : Ordered l) (ht : t ∈ remove lo hi true l) :
    ∃ s ∈ l, s.lo ≤ t.lo ∧ t.hi ≤ s.hi ∧ t.Avoids lo hi ∧ t.tag = s.tag ∧
      t.off + s.lo = s.off + t.lo := by
  rw [remove_eq_flatMap h] at ht
  obtain ⟨s, hs, hts⟩ := List.mem_flatMap.mp ht
  exact ⟨s, hs, (Seg.of_mem_cut (h.proper s hs) hts).2⟩

theorem Ordered.setHi (h : Ordered (l ++ s :: l')) (hlo : s.lo < hi) (hle : ∀ t ∈ l', hi ≤ t.lo) :
    Ordered (l ++ { s with hi := hi } :: l') := by
  obtain ⟨hproper, hpair⟩ := h
  rw [List.pairwise_append, List.pairwise_cons] at hpair
  obtain ⟨hl, ⟨-, hl'⟩, hcross⟩ := hpair
  constructor
  · intro t ht
    rw [List.mem_append, List.mem_cons] at ht
    rcases ht with ht | rfl | ht
    · exact hproper t (List.mem_append_left _ ht)
    · exact hlo
    · exact hproper t (List.mem_append_right _ (List.mem_cons_of_mem _ ht))
  · rw [List.pairwise_append, List.pairwise_cons]
    refine ⟨hl, ⟨hle, hl'⟩, fun t ht u hu ↦ ?_⟩
    rcases List.mem_cons.mp hu with rfl | hu
    · exact hcross t ht s List.mem_cons_self
    · exact hcross t ht u (List.mem_cons_of_mem _ hu)

theorem Ordered.remove (hlt : lo < hi) (h : Ordered l) : Ordered (remove lo hi true l) := by
  rw [remove_eq_flatMap h]
  constructor
  · intro t ht
    obtain ⟨s, hs, hts⟩ := List.mem_flatMap.mp ht
    exact (Seg.of_mem_cut (h.proper s hs) hts).1
  · rw [List.pairwise_flatMap]
    refine ⟨fun s _ ↦ Seg.pairwise_cut hlt, ?_⟩
    refine h.pairwise.imp_of_mem ?_
    intro s s' hs hs' hss t ht t' ht'
    obtain ⟨-, -, ht, -⟩ := Seg.of_mem_cut (h.proper s hs) ht
    obtain ⟨-, ht', -⟩ := Seg.of_mem_cut (h.proper s' hs') ht'
    exact ht.trans (hss.trans ht')

/-! ## Insertion -/

theorem mem_insert : t ∈ insert s l ↔ t = s ∨ t ∈ l := by
  induction l with
  | nil => simp [insert]
  | cons t' l ih =>
    unfold insert
    split
    · exact List.mem_cons
    · rw [List.mem_cons, ih, List.mem_cons]
      exact or_left_comm

theorem lookup_insert_of_not_mem (hv : ¬ (s.lo ≤ v ∧ v < s.hi)) :
    lookup (insert s l) v = lookup l v := by
  have hs : s.at? v = none := Seg.at?_of_not_mem hv
  induction l with
  | nil => rw [insert, lookup_cons, hs, Option.none_or]
  | cons t l ih =>
    unfold insert
    split
    · rw [lookup_cons, hs, Option.none_or]
    · rw [lookup_cons, ih, lookup_cons]

theorem lookup_insert_of_mem (hv : s.lo ≤ v ∧ v < s.hi) (hl : lookup l v = none) :
    lookup (insert s l) v = some (s.off + (v - s.lo), s.tag) := by
  have hs := Seg.at?_of_mem hv
  induction l with
  | nil => rw [insert, lookup_cons, hs, Option.some_or]
  | cons t l ih =>
    rw [lookup_cons, Option.or_eq_none_iff] at hl
    unfold insert
    split
    · rw [lookup_cons, hs, Option.some_or]
    · rw [lookup_cons, hl.1, Option.none_or, ih hl.2]

theorem Ordered.insert (h : Ordered l) (hs : s.lo < s.hi) (hav : ∀ t ∈ l, t.Avoids s.lo s.hi) :
    Ordered (insert s l) := by
  refine ⟨fun t ht ↦ (mem_insert.mp ht).elim (fun heq ↦ heq ▸ hs) (h.proper t), ?_⟩
  induction l with
  | nil => exact List.pairwise_singleton _ _
  | cons t l ih =>
    have hproper := h.proper t List.mem_cons_self
    have ht := hav t List.mem_cons_self
    unfold Seg.Avoids at ht
    unfold Segs.insert
    split
    · next hlt =>
      refine List.pairwise_cons.mpr ⟨?_, h.pairwise⟩
      intro t' ht'
      rcases List.mem_cons.mp ht' with rfl | ht'
      · omega
      · have := h.head_le ht'
        omega
    · refine List.pairwise_cons.mpr ⟨?_, ih h.tail fun t' ht' ↦
        hav t' (List.mem_cons_of_mem _ ht')⟩
      intro t' ht'
      rcases mem_insert.mp ht' with rfl | ht'
      · omega
      · exact h.head_le ht'

theorem insert_eq_append (h : ∀ t ∈ l, t.lo ≤ s.lo) : insert s l = l ++ [s] := by
  induction l with
  | nil => rfl
  | cons t l ih =>
    have ht := h t List.mem_cons_self
    rw [insert, if_neg (by omega), ih fun t' ht' ↦ h t' (List.mem_cons_of_mem _ ht'),
      List.cons_append]

/-! ## Gaps -/

/-- `[v, v + n)` lies in `[lo, hi)` and meets no segment. -/
def Gap (l : List (Seg β)) (lo hi n v : ℕ) : Prop :=
  lo ≤ v ∧ v + n ≤ hi ∧ ∀ s ∈ l, s.Avoids v (v + n)

theorem Gap.move {n : ℕ} (h : Gap (l ++ s :: l') lo hi n v) (hord : Ordered (l ++ s :: l'))
    (hle : v + n ≤ s.lo) (habove : ∀ t ∈ l, t.hi ≤ v) (hs : s.hi ≤ hi) :
    Gap (l ++ s :: l') lo hi n (s.lo - n) := by
  have hproper := hord.proper s (by simp)
  have hlo := h.1
  refine ⟨by omega, by omega, fun t ht ↦ ?_⟩
  rcases List.mem_append.mp ht with ht | ht
  · have := habove t ht
    exact .inr (by omega)
  · have hst : s.lo ≤ t.lo := by
      rcases List.mem_cons.mp ht with rfl | ht
      · exact le_rfl
      · have hpair := (List.pairwise_append.mp hord.pairwise).2.1
        exact hproper.le.trans ((List.pairwise_cons.mp hpair).1 t ht)
    exact .inl (by omega)

end Segs

end CS402.Lib

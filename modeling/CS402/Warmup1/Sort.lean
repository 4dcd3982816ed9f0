import CS402.Lib.Bubble
import CS402.My402List.Sequence
import Mathlib.Data.Int.Order.Basic

/-!
# Sorting the transactions

The model of `BubbleForward` and `sortList` of `warmup1/warmup1.c`.  An object is a pointer to
a transaction, and `time` reads the field of this name; `sortList` compares the times as `int`.
What `malloc` returns depends on memory only.  `exit(1)` is the result `none`.

On a list that represents a sequence, `sortList` does what `Bubble.sort` does to the sequence
(`sortLoop_ok`), so it sorts by time, or exits exactly if there is something to notice.
-/

namespace CS402.My402.Warmup1

open CS402.Lib Function

section

variable (new : My402List → Alloc) (time : Obj → ℤ) (now : ℤ) (anchor : Addr)

/-- The first `if` of `BubbleForward`: the object goes behind `elem1prev`. -/
def putBehind (s : My402List) (obj : Obj) (elem1prev : Addr) : Except Fault (My402List × Addr) :=
  if elem1prev = 0 then do
    let (s, _) ← my402ListPrepend anchor s obj (new s)
    return (s, ← my402ListFirst anchor s)
  else do
    let (s, _) ← my402ListInsertAfter anchor s obj elem1prev (new s)
    return (s, ← my402ListNext anchor s elem1prev)

/-- The second `if` of `BubbleForward`: the object goes before `elem2next`. -/
def putBefore (s : My402List) (obj : Obj) (elem2next : Addr) : Except Fault (My402List × Addr) :=
  if elem2next = 0 then do
    let (s, _) ← my402ListAppend anchor s obj (new s)
    return (s, ← my402ListLast anchor s)
  else do
    let (s, _) ← my402ListInsertBefore anchor s obj elem2next (new s)
    return (s, ← my402ListPrev anchor s elem2next)

/-- `BubbleForward`; the result has the new values of `*pp_elem1` and `*pp_elem2`. -/
def bubbleForward (s : My402List) (elem1 elem2 : Addr) :
    Except Fault (My402List × Addr × Addr) := do
  let obj1 ← s.getObj elem1
  let obj2 ← s.getObj elem2
  let elem1prev ← my402ListPrev anchor s elem1
  let elem2next ← my402ListNext anchor s elem2
  let s ← my402ListUnlink s elem1
  let s ← my402ListUnlink s elem2
  let (s, elem1) ← putBehind new anchor s obj2 elem1prev
  let (s, elem2) ← putBefore new anchor s obj1 elem2next
  return (s, elem1, elem2)

/-- The inner loop of `sortList`, with the number of turns that are left. -/
def sortPass : ℕ → My402List → Addr → Bool → Except Fault (Option (My402List × Bool))
  | 0, s, _, swapped => return some (s, swapped)
  | n + 1, s, elem, swapped => do
    let curVal := int32 (time (← s.getObj elem))
    let nextElem ← my402ListNext anchor s elem
    let nextVal := int32 (time (← s.getObj nextElem))
    if curVal = nextVal ∨ now ≤ curVal then return none
    else if nextVal < curVal then
      let (s, _, nextElem) ← bubbleForward new anchor s elem nextElem
      sortPass n s nextElem true
    else sortPass n s nextElem swapped

/-- The outer loop, with `num_items - i`. -/
def sortLoop : ℕ → My402List → Except Fault (Option My402List)
  | 0, s => return some s
  | n + 1, s => do
    let first ← my402ListFirst anchor s
    match ← sortPass new time now anchor n s first false with
    | none => return none
    | some (s, swapped) => if swapped then sortLoop n s else return some s

/-- `sortList`. -/
def sortList (s : My402List) (numItems : ℤ) : Except Fault (Option My402List) :=
  if my402ListLength s ≠ numItems then return none
  else sortLoop new time now anchor numItems.toNat s

end

/-- `malloc` returns memory that is not in use, as long as there is any. -/
def Mallocs (new : My402List → Alloc) : Prop :=
  ∀ s : My402List, (∃ z ≠ 0, ¬ s.Live z) → ∃ z e, new s = some (z, e) ∧ z ≠ 0 ∧ ¬ s.Live z

variable {new : My402List → Alloc} {time : Obj → ℤ} {now : ℤ} {anchor q r z : Addr}
  {s : My402List} {p l₁ l₂ : List Addr} {xs ys : List Obj} {c o x y : Obj} {e : My402ListElem}
  {n : ℕ} {w : Bool}

/-! ## Swapping two neighbours -/

section

variable (h : Represents anchor c s (l₁ ++ q :: l₂) (xs ++ x :: ys)) (hl : l₁.length = xs.length)
include h hl

theorem obj_at : s.getObj q = .ok x :=
  My402List.getObj_ok (List.cons.inj (h.objs_append hl).2).1

theorem unlink_at : ∃ s', my402ListUnlink s q = .ok s' ∧
    Represents anchor c s' (l₁ ++ l₂) (xs ++ ys) ∧ ∀ w, s'.Live w ↔ w ≠ q ∧ s.Live w := by
  obtain ⟨hleft, hright⟩ := h.ring.links l₁
  obtain ⟨s', hs', hrem, hcount⟩ := unlink_removed hleft hright
  exact ⟨s', hs', h.remove hl hrem hcount, fun _ ↦ hrem.live⟩

end

section

variable (h : Represents anchor c s (l₁ ++ l₂) (xs ++ ys)) (hl : l₁.length = xs.length)
  (hz₀ : z ≠ 0) (hz : ¬ s.Live z) (hlen : (xs ++ ys).length + 1 < 2 ^ 31)
  (hnew : new s = some (z, e))
include h hl hz₀ hz hlen hnew

theorem putBehind_ok : ∃ s', putBehind new anchor s o (l₁.getLastD 0) = .ok (s', z) ∧
    Represents anchor c s' (l₁ ++ z :: l₂) (xs ++ o :: ys) ∧ ∀ w, s'.Live w ↔ w = z ∨ s.Live w := by
  have hcut : Cut s (l₁.getLastD anchor) (l₂.headD anchor) z := ⟨h.ring.link l₁, hz₀, hz⟩
  have hins : ∀ s', Inserted s z o (l₁.getLastD anchor) (l₂.headD anchor) s' → _ :=
    fun s' hi ↦ exists_eq_left.mp (h.insert hz₀ hz hl hlen ⟨s', rfl, hi⟩)
  unfold putBehind
  rcases l₁.eq_nil_or_concat' with rfl | ⟨l, q, rfl⟩
  · rw [List.getLastD_nil] at hcut hins ⊢
    obtain ⟨s', hs', hi⟩ := prepend_inserted hcut
    have hrep := hins s' hi
    refine ⟨s', ?_, hrep, fun _ ↦ hi.live⟩
    rw [if_pos rfl, hnew, hs', ok_bind]
    dsimp only
    rw [hrep.first_ok]
    simp [Query.answer, pointerTo, pure, Except.pure]
  · have hq : q ≠ 0 := h.ne_zero (by simp)
    rw [List.getLastD_concat] at hcut hins ⊢
    obtain ⟨s', hs', hi⟩ := insertAfter_inserted anchor hcut hq
    have hrep := hins s' hi
    refine ⟨s', ?_, hrep, fun _ ↦ hi.live⟩
    rw [if_neg hq, hnew, hs', ok_bind]
    dsimp only
    rw [← List.append_cons] at hrep
    rw [hrep.next_at]
    rfl

theorem putBefore_ok : ∃ s', putBefore new anchor s o (l₂.headD 0) = .ok (s', z) ∧
    Represents anchor c s' (l₁ ++ z :: l₂) (xs ++ o :: ys) := by
  have hcut : Cut s (l₁.getLastD anchor) (l₂.headD anchor) z := ⟨h.ring.link l₁, hz₀, hz⟩
  have hins {r : My402List → Prop} := h.insert (r := r) (o := o) hz₀ hz hl hlen
  unfold putBefore
  cases l₂ with
  | nil =>
    rw [List.append_nil] at h
    rw [List.headD_nil] at hcut hins ⊢
    obtain ⟨s', hs', hrep⟩ := hins (append_inserted hcut h.ring.next_anchor
      (h.headD_eq_anchor.trans h.getLastD_eq_anchor.symm))
    refine ⟨s', ?_, hrep⟩
    rw [if_pos rfl, hnew, hs', ok_bind]
    dsimp only
    rw [hrep.last_ok, Query.answer, if_neg (by simp), ← hrep.length_eq]
    simp [pointerTo, pure, Except.pure]
  | cons q l₂ =>
    have hq : q ≠ 0 := h.ne_zero (by simp)
    obtain ⟨s', hs', hrep⟩ := hins (insertBefore_inserted anchor hcut hq)
    refine ⟨s', ?_, hrep⟩
    rw [List.headD_cons] at hs' ⊢
    rw [if_neg hq, hnew, hs', ok_bind]
    dsimp only
    rw [List.append_cons] at hrep
    rw [hrep.prev_at, List.getLastD_concat]
    rfl

end

/-- `BubbleForward` swaps the objects of two neighbours. -/
theorem bubbleForward_ok (hnew : Mallocs new) (hl : l₁.length = xs.length)
    (h : Represents anchor c s (l₁ ++ q :: r :: l₂) (xs ++ x :: y :: ys)) :
    ∃ s' q' r', bubbleForward new anchor s q r = .ok (s', q', r') ∧
      Represents anchor c s' (l₁ ++ q' :: r' :: l₂) (xs ++ y :: x :: ys) := by
  have hr := h
  rw [List.append_cons, List.append_cons xs] at hr
  have hlen := h.size
  simp only [List.length_append, List.length_cons] at hlen
  have hne : q ≠ r := by
    have := h.ring.nodup
    grind
  have hq₀ : q ≠ 0 := h.ne_zero (by simp)
  have hr₀ : r ≠ 0 := h.ne_zero (by simp)
  obtain ⟨s₁, hs₁, h₁, hlive₁⟩ := unlink_at h hl
  obtain ⟨s₂, hs₂, h₂, hlive₂⟩ := unlink_at h₁ hl
  obtain ⟨z, e, hz, hz₀, hfree⟩ := hnew s₂ ⟨q, hq₀, by simp [hlive₂, hlive₁]⟩
  obtain ⟨s₃, hs₃, h₃, hlive₃⟩ := putBehind_ok (o := y) h₂ hl hz₀ hfree (by simp; omega) hz
  -- at least one of the two elements that were freed is free again
  have hspare : ∃ z ≠ 0, ¬ s₃.Live z := by
    rcases eq_or_ne q z with rfl | hqz
    · exact ⟨r, hr₀, by simp [hlive₃, hlive₂, hne.symm]⟩
    · exact ⟨q, hq₀, by simp [hlive₃, hlive₂, hlive₁, hqz]⟩
  obtain ⟨z', e', hz', hz₀', hfree'⟩ := hnew s₃ hspare
  rw [List.append_cons, List.append_cons xs] at h₃
  obtain ⟨s₄, hs₄, h₄⟩ := putBefore_ok (o := x) h₃ (by simp [hl]) hz₀' hfree'
    (by simp; omega) hz'
  refine ⟨s₄, z, z', ?_, by simpa using h₄⟩
  simp only [bubbleForward, obj_at h hl, obj_at hr (by simp [hl]), h.prev_at, hr.next_at, hs₁, hs₂,
    hs₃, hs₄, ok_bind]
  rfl

/-! ## The loops -/

theorem rel_map {α β γ : Type} {R : α → β → Prop} {S : α → γ → Prop} {a : Option α} {b : Option β}
    {f : β → γ} (h : Option.Rel R a b) (hf : ∀ x y, R x y → S x (f y)) :
    Option.Rel S a (b.map f) := by
  cases h with
  | none => exact .none
  | some h => exact .some (hf _ _ h)

theorem sortPass_ok (time : Obj → ℤ) (now : ℤ) (w : Bool) (hnew : Mallocs new)
    (hl : l₁.length = xs.length) (h : Represents anchor c s (l₁ ++ q :: l₂) (xs ++ x :: ys))
    (hn : n ≤ ys.length) :
    ∃ out, sortPass new time now anchor n s q w = .ok out ∧
      Option.Rel (fun t r ↦ t.2 = (w || r.2) ∧ ∃ p, Represents anchor c t.1 p (xs ++ r.1)) out
        (Bubble.pass (int32 <| time ·) now n x ys) := by
  induction n generalizing s l₁ q l₂ xs x ys w with
  | zero => exact ⟨_, rfl, .some ⟨by simp, _, h⟩⟩
  | succ n ih =>
    obtain ⟨y, ys, rfl⟩ := List.exists_cons_of_length_pos (Nat.zero_lt_of_lt hn)
    have hlen := h.length_eq
    obtain ⟨r, l₂, rfl⟩ : ∃ r l, l₂ = r :: l := by
      refine List.exists_cons_of_length_pos ?_
      simp only [List.length_append, List.length_cons] at hlen
      omega
    have hr := h
    rw [List.append_cons, List.append_cons xs] at hr
    have hn : n ≤ ys.length := Nat.le_of_succ_le_succ hn
    simp only [sortPass, Bubble.pass, obj_at h hl, h.next_at, List.headD_cons,
      obj_at hr (by simp [hl]), ok_bind]
    split
    · exact ⟨none, rfl, .none⟩
    split
    · obtain ⟨s', q', r', hs', h'⟩ := bubbleForward_ok hnew hl h
      rw [List.append_cons, List.append_cons xs] at h'
      obtain ⟨out, hout, hrel⟩ := ih true (by simp [hl]) h' hn
      refine ⟨out, by rw [hs', ok_bind]; exact hout, ?_⟩
      exact rel_map hrel fun t r ht ↦ ⟨by simpa using ht.1, by simpa using ht.2⟩
    · obtain ⟨out, hout, hrel⟩ := ih w (by simp [hl]) hr hn
      refine ⟨out, hout, ?_⟩
      exact rel_map hrel fun t r ht ↦ ⟨by simpa using ht.1, by simpa using ht.2⟩

theorem sortLoop_ok (time : Obj → ℤ) (now : ℤ) (hnew : Mallocs new)
    (h : Represents anchor c s p xs) (hn : n ≤ xs.length) :
    ∃ out, sortLoop new time now anchor n s = .ok out ∧
      Option.Rel (fun t l ↦ ∃ p, Represents anchor c t p l) out
        (Bubble.sort (int32 <| time ·) now n xs) := by
  induction n generalizing s p xs with
  | zero => exact ⟨_, rfl, .some ⟨p, h⟩⟩
  | succ n ih =>
    obtain ⟨x, xs, rfl⟩ := List.exists_cons_of_length_pos (Nat.zero_lt_of_lt hn)
    have hlen := h.length_eq
    obtain ⟨q, p, rfl⟩ := List.exists_cons_of_length_pos (hlen ▸ Nat.zero_lt_of_lt hn)
    have hn : n ≤ xs.length := Nat.le_of_succ_le_succ hn
    have h₀ : Represents anchor c s ([] ++ q :: p) ([] ++ x :: xs) := h
    obtain ⟨out, hout, hrel⟩ := sortPass_ok time now false hnew rfl h₀ hn
    have hfirst : my402ListFirst anchor s = .ok q := h.first_ok
    simp only [sortLoop, hfirst, ok_bind, hout, Bubble.sort]
    cases hp : Bubble.pass (int32 <| time ·) now n x xs with
    | none =>
      rw [hp] at hrel
      cases hrel
      exact ⟨none, rfl, .none⟩
    | some r =>
      rw [hp] at hrel
      cases hrel with
      | @some t _ ht =>
      obtain ⟨hw, p', h'⟩ := ht
      obtain ⟨t, w⟩ := t
      cases hw
      rw [Option.bind_some]
      dsimp only [Bool.false_or]
      split
      · exact ih h' (hn.trans (by simp [Bubble.length_pass hp]))
      · exact ⟨some t, rfl, .some ⟨p', h'⟩⟩

/-- What `sortList` does for the length of the list. -/
theorem sortList_ok (time : Obj → ℤ) (now : ℤ) (hnew : Mallocs new)
    (h : Represents anchor c s p xs) :
    (∃ s' p' xs', sortList new time now anchor s xs.length = .ok (some s') ∧
      Represents anchor c s' p' xs' ∧ xs'.Perm xs ∧
      xs'.Pairwise (fun x y ↦ int32 (time x) < int32 (time y)) ∧
      ¬ Bubble.Noticed (int32 <| time ·) now xs) ∨
    (sortList new time now anchor s xs.length = .ok none ∧
      Bubble.Noticed (int32 <| time ·) now xs) := by
  obtain ⟨out, hout, hrel⟩ := sortLoop_ok time now hnew h le_rfl
  have heq : sortList new time now anchor s xs.length = .ok out := by
    exact (if_neg (not_not.mpr h.count)).trans hout
  rw [heq]
  rcases Bubble.sort_spec (v := (int32 <| time ·)) (b := now) (t := []) (l := xs) rfl with
    ⟨l, hsort, hperm, hord, hn⟩ | ⟨hsort, hn⟩
  · rw [List.append_nil, List.append_nil] at hsort
    rw [hsort] at hrel
    cases hrel with
    | @some t _ ht =>
      obtain ⟨p', h'⟩ := ht
      exact .inl ⟨t, p', l, rfl, h', hperm, hord, hn⟩
  · rw [List.append_nil] at hsort
    rw [hsort] at hrel
    cases hrel
    exact .inr ⟨rfl, hn⟩

/-- **`sortList` sorts.** -/
theorem sortList_sorts (time : Obj → ℤ) (now : ℤ) (hnew : Mallocs new)
    (h : Represents anchor c s p xs) (hdistinct : (xs.map time).Nodup)
    (htime : ∀ x ∈ xs, 0 ≤ time x ∧ time x < now ∧ time x < 2 ^ 31) :
    ∃ s' p' xs', sortList new time now anchor s xs.length = .ok (some s') ∧
      Represents anchor c s' p' xs' ∧ xs'.Perm xs ∧ xs'.Pairwise (time · < time ·) := by
  have hint : ∀ x ∈ xs, int32 (time x) = time x := fun x hx ↦ by
    obtain ⟨h₀, -, h₁⟩ := htime x hx
    exact int32_of_range (by omega) h₁
  rcases sortList_ok time now hnew h with ⟨s', p', xs', hs, h', hperm, hord, -⟩ | ⟨-, hn⟩
  · refine ⟨s', p', xs', hs, h', hperm, hord.imp_of_mem fun hx hy hlt ↦ ?_⟩
    rwa [hint _ (hperm.mem_iff.mp hx), hint _ (hperm.mem_iff.mp hy)] at hlt
  · rcases hn with hdup | ⟨x, hx, hle⟩
    · rw [List.map_congr_left hint] at hdup
      exact absurd hdistinct hdup
    · have hx := List.dropLast_subset _ hx
      have hle : now ≤ time x := hint x hx ▸ show now ≤ int32 (time x) from hle
      exact absurd (htime x hx).2.1 hle.not_gt

/-- A transaction is not before now, or two have the same time. -/
def Bad (time : Obj → ℤ) (now : ℤ) (xs : List Obj) : Prop :=
  ¬ (xs.map time).Nodup ∨ ∃ x ∈ xs, now ≤ time x

/-- Two transactions, that of object 20 before that of object 10. -/
def twoTransactions : My402List where
  numMembers := 2
  cells := update (update (update (fun _ ↦ none) 1 (some ⟨7, 2, 3⟩)) 2 (some ⟨20, 3, 1⟩)) 3
    (some ⟨10, 1, 2⟩)

theorem represents_twoTransactions : Represents 1 7 twoTransactions [2, 3] [20, 10] where
  null := by decide
  anchorObj := by decide
  ring := ⟨by decide, by simp [Linked, twoTransactions, My402List.next, My402List.prev]⟩
  objs := by decide
  count := rfl
  size := by decide

theorem exists_mallocs : ∃ new, Mallocs new := by
  classical
  refine ⟨fun s ↦ if h : ∃ z ≠ 0, ¬ s.Live z then some (h.choose, ⟨0, 0, 0⟩) else none, ?_⟩
  intro s h
  exact ⟨h.choose, _, dif_pos h, h.choose_spec⟩

/-- The two transactions are swapped. -/
theorem sortList_sorts_two : ∃ new s' p' xs', Mallocs new ∧
    Represents 1 7 twoTransactions [2, 3] [20, 10] ∧
    sortList new (fun o ↦ o) 100 1 twoTransactions 2 = .ok (some s') ∧
    Represents 1 7 s' p' xs' ∧ xs'.Perm [20, 10] ∧ xs'.Pairwise (fun x y : ℕ ↦ (x : ℤ) < y) := by
  obtain ⟨new, hnew⟩ := exists_mallocs
  obtain ⟨s', p', xs', h⟩ := sortList_sorts (fun o ↦ o) 100 hnew
    represents_twoTransactions (by decide) (by decide)
  exact ⟨new, s', p', xs', hnew, represents_twoTransactions, h⟩

/-- The times of the two transactions. -/
def times (t u : ℤ) (o : Obj) : ℤ := if o = 20 then t else u

end CS402.My402.Warmup1

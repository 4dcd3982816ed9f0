import Mathlib

/-!
# Bubble sort that gives up

A pass carries an element through a list and leaves it behind at every neighbour with a
greater key, which is carried on instead.  It gives up when it meets two equal keys, or when
the key that it carries has reached a bound.  What is carried is never the last element of
the list, unless it comes there, so the passes together give up exactly if two keys are
equal or one that is not the last has reached the bound (`Noticed`).
-/

namespace CS402.Lib.Bubble

variable {α κ : Type*} [LinearOrder κ] (v : α → κ) (b : κ)

/-- A pass carries `x` past the next `n` elements.  The second component of the result says
whether anything has been swapped. -/
def pass : ℕ → α → List α → Option (List α × Bool)
  | 0, x, ys => some (x :: ys, false)
  | _ + 1, x, [] => some ([x], false)
  | n + 1, x, y :: ys =>
    if v x = v y ∨ b ≤ v x then none
    else if v y < v x then (pass n x ys).map fun r ↦ (y :: r.1, true)
    else (pass n y ys).map fun r ↦ (x :: r.1, r.2)

/-- Passes over the first `n` elements, over one fewer each time; one that swaps nothing is
the last. -/
def sort : ℕ → List α → Option (List α)
  | 0, l => some l
  | _ + 1, [] => some []
  | n + 1, x :: xs => (pass v b n x xs).bind fun r ↦ if r.2 then sort n r.1 else some r.1

/-- Two keys are equal, or one that is not the last has reached the bound. -/
def Noticed (l : List α) : Prop := ¬ (l.map v).Nodup ∨ ∃ y ∈ l.dropLast, b ≤ v y

variable {v b} {l l' t zs : List α} {x y : α} {n : ℕ}

theorem length_pass {r : List α × Bool} (h : pass v b n x l = some r) :
    r.1.length = l.length + 1 := by
  induction n generalizing x l r with
  | zero =>
    cases h
    rfl
  | succ n ih =>
    cases l with
    | nil =>
      cases h
      rfl
    | cons y l =>
      unfold pass at h
      split at h
      · cases h
      split at h
      all_goals
        obtain ⟨r', hr', rfl⟩ := Option.map_eq_some_iff.mp h
        simp [ih hr']

theorem not_noticed (hperm : l'.Perm l) (hl : l'.Pairwise (v · < v ·))
    (hb : ∀ y ∈ l.dropLast, v y < b) : ¬ Noticed v b l := by
  rintro (hdup | ⟨y, hy, hle⟩)
  · refine hdup ((hperm.map v).nodup_iff.mp ?_)
    rw [List.Nodup, List.pairwise_map]
    exact hl.imp ne_of_lt
  · exact (hb y hy).not_ge hle

theorem Noticed.cons (h : Noticed v b (y :: zs)) : Noticed v b (x :: y :: zs) := by
  rcases h with hdup | ⟨w, hw, hle⟩
  · exact .inl fun hn ↦ hdup (List.nodup_cons.mp hn).2
  · exact .inr ⟨w, List.mem_cons_of_mem x hw, hle⟩

theorem Noticed.cons_second (h : Noticed v b (x :: zs)) : Noticed v b (x :: y :: zs) := by
  rcases h with hdup | ⟨w, hw, hle⟩
  · refine .inl fun hn ↦ hdup (hn.sublist ?_)
    exact ((List.sublist_cons_self y zs).cons_cons x).map v
  · refine .inr ⟨w, ?_, hle⟩
    cases zs with
    | nil => cases hw
    | cons z zs => grind

theorem le_last (hperm : (l ++ [y]).Perm (x :: zs)) (hmax : ∀ z ∈ l, v z < v y) : v x ≤ v y := by
  rcases List.mem_append.mp (hperm.mem_iff.mpr List.mem_cons_self) with hx | hx
  · exact (hmax x hx).le
  · exact List.mem_singleton.mp hx ▸ le_rfl

/-- What a pass leaves behind: the greatest key at the end, all in order if nothing was
swapped; no key but the last had reached the bound. -/
theorem pass_spec (x : α) (zs t : List α) :
    (∃ l m w, pass v b zs.length x (zs ++ t) = some (l ++ m :: t, w) ∧
      (l ++ [m]).Perm (x :: zs) ∧ (∀ y ∈ l, v y < v m) ∧
      (w = false → l ++ [m] = x :: zs ∧ (x :: zs).Pairwise (v · < v ·)) ∧
      ∀ y ∈ (x :: zs).dropLast, v y < b) ∨
    (pass v b zs.length x (zs ++ t) = none ∧ Noticed v b (x :: zs)) := by
  induction zs generalizing x with
  | nil => exact .inl ⟨[], x, false, rfl, .refl _, by simp, fun _ ↦ by simp, by simp⟩
  | cons y zs ih =>
    simp only [List.length_cons, List.cons_append, pass]
    by_cases hstop : v x = v y ∨ b ≤ v x
    · rw [if_pos hstop]
      refine .inr ⟨rfl, ?_⟩
      rcases hstop with heq | hle
      · exact .inl (by simp [heq])
      · exact .inr ⟨x, by simp, hle⟩
    rw [if_neg hstop]
    rw [not_or, not_le] at hstop
    obtain ⟨hne, hx⟩ := hstop
    by_cases hlt : v y < v x
    · rw [if_pos hlt]
      rcases ih x with ⟨l, m, w, hp, hperm, hmax, -, hb⟩ | ⟨hp, hn⟩
      · refine .inl ⟨y :: l, m, true, by rw [hp]; rfl, ?_, ?_, nofun, ?_⟩
        · exact (hperm.cons y).trans (.swap x y zs)
        · exact List.forall_mem_cons.mpr ⟨hlt.trans_le (le_last hperm hmax), hmax⟩
        · refine List.forall_mem_cons.mpr ⟨hx, ?_⟩
          cases zs with
          | nil => simp
          | cons z zs =>
            exact List.forall_mem_cons.mpr ⟨hlt.trans hx, (List.forall_mem_cons.mp hb).2⟩
      · exact .inr ⟨by rw [hp]; rfl, hn.cons_second⟩
    · rw [if_neg hlt]
      have hxy : v x < v y := lt_of_le_of_ne (not_lt.mp hlt) hne
      rcases ih y with ⟨l, m, w, hp, hperm, hmax, hsame, hb⟩ | ⟨hp, hn⟩
      · refine .inl ⟨x :: l, m, w, by rw [hp]; rfl, hperm.cons x, ?_, fun hw ↦ ?_, ?_⟩
        · exact List.forall_mem_cons.mpr ⟨hxy.trans_le (le_last hperm hmax), hmax⟩
        · obtain ⟨heq, hord⟩ := hsame hw
          refine ⟨by rw [List.cons_append, heq], List.pairwise_cons.mpr ⟨?_, hord⟩⟩
          refine List.forall_mem_cons.mpr ⟨hxy, fun z hz ↦ ?_⟩
          exact hxy.trans ((List.pairwise_cons.mp hord).1 z hz)
        · exact List.forall_mem_cons.mpr ⟨hx, hb⟩
      · exact .inr ⟨by rw [hp]; rfl, hn.cons⟩

/-- The passes sort by strictly increasing keys, or give up, exactly if there is something
to notice. -/
theorem sort_spec (hl : l.length = n) :
    (∃ l', sort v b n (l ++ t) = some (l' ++ t) ∧ l'.Perm l ∧ l'.Pairwise (v · < v ·) ∧
      ¬ Noticed v b l) ∨ (sort v b n (l ++ t) = none ∧ Noticed v b l) := by
  induction n generalizing l t with
  | zero =>
    obtain rfl := List.length_eq_zero_iff.mp hl
    exact .inl ⟨[], rfl, .refl _, .nil, by simp [Noticed]⟩
  | succ n ih =>
    obtain ⟨x, zs, rfl⟩ := List.exists_cons_of_length_eq_add_one hl
    obtain rfl : zs.length = n := Nat.succ.inj hl
    rcases pass_spec (v := v) (b := b) x zs t with ⟨l, m, w, hp, hperm, hmax, hsame, hb⟩ | ⟨hp, hn⟩
    swap
    · exact .inr ⟨by simp [sort, hp], hn⟩
    cases w with
    | false =>
      obtain ⟨heq, hord⟩ := hsame rfl
      refine .inl ⟨l ++ [m], by simp [sort, hp], hperm, heq ▸ hord, ?_⟩
      exact not_noticed hperm (heq ▸ hord) hb
    | true =>
      have hlen : l.length = zs.length := by simpa using hperm.length_eq
      have hsort : sort v b (zs.length + 1) (x :: zs ++ t) = sort v b zs.length (l ++ m :: t) := by
        simp [sort, hp]
      rw [hsort]
      rcases ih (t := m :: t) hlen with ⟨l', hs, hperm', hord, -⟩ | ⟨hs, hn⟩
      · have hall : (l' ++ [m]).Pairwise (v · < v ·) := by
          refine List.pairwise_append.mpr ⟨hord, List.pairwise_singleton _ _, ?_⟩
          intro y hy z hz
          exact List.mem_singleton.mp hz ▸ hmax y (hperm'.mem_iff.mp hy)
        have hperm'' := (hperm'.append_right [m]).trans hperm
        exact .inl ⟨l' ++ [m], by simp [hs], hperm'', hall, not_noticed hperm'' hall hb⟩
      · refine .inr ⟨hs, .inl fun hnodup ↦ ?_⟩
        rw [← (hperm.map v).nodup_iff, List.map_append] at hnodup
        rcases hn with hdup | ⟨y, hy, hle⟩
        · exact hdup hnodup.of_append_left
        · -- a key that has reached the bound can only be the last, and so can the greatest
          have hlast : ∀ z ∈ l ++ [m], b ≤ v z → z = (x :: zs).getLast (List.cons_ne_nil x zs) := by
            intro z hz hz'
            rw [hperm.mem_iff, ← List.dropLast_append_getLast (List.cons_ne_nil x zs)] at hz
            rcases List.mem_append.mp hz with hz | hz
            · exact absurd hz' (hb z hz).not_ge
            · exact List.mem_singleton.mp hz
          have hyl := List.dropLast_subset l hy
          have hym := hmax y hyl
          have hm := hlast m (by simp) (hle.trans hym.le)
          rw [hlast y (by simp [hyl]) hle, ← hm] at hym
          exact hym.false

end CS402.Lib.Bubble

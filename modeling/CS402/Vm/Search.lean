import CS402.Vm.PageMap

/-!
# The search for a free range

`vmmap_find_range` is to find the highest, or the lowest, range of free pages.  The highest
one ends at the end of user memory or at the start of an area, so it is enough to try
these places from above, and this is what the loop of the source does.  What is missing is
the search from below, the map without areas, and the test that an area has enough pages
before it: `vma_start - npages` is an unsigned number, and below zero it is very large.
-/

namespace CS402.Mm

open CS402.Lib Function

variable [Layout]

namespace Mem

/-- `npages` pages from `start` on lie in user memory and in no area of the list. -/
def Free (s : Mem) (l : List AreaId) (npages start : ℕ) : Prop :=
  Segs.Gap (s.segs l) lowPage highPage npages start

/-- The right answer to a search for `npages` pages: the highest or the lowest start of a
free range, and nothing if there is none. -/
def RightRange (s : Mem) (l : List AreaId) (npages : ℕ) (dir : Dir) : Option ℕ → Prop
  | none => ∀ start, ¬ s.Free l npages start
  | some start => s.Free l npages start ∧ ∀ start', s.Free l npages start' →
    match dir with
    | .hilo => start' ≤ start
    | .lohi => start ≤ start'

variable {s : Mem} {m : MapId} {mp : Vmmap} {a : AreaId} {vma : VmArea} {l rest : List AreaId}
  {npages start : ℕ}

theorem vmmapIsRangeEmpty_of_bounds (hm : s.maps m = some mp) (hpos : 0 < npages)
    (hlow : lowPage ≤ start) (hhigh : start + npages ≤ highPage) :
    ∃ b, s.vmmapIsRangeEmpty m start npages = .ok b ∧
      (b = true ↔ s.Free mp.vmmList npages start) := by
  obtain ⟨b, hb, hiff⟩ := vmmapIsRangeEmpty_eq hm hpos hlow hhigh
  exact ⟨b, hb, hiff.trans ⟨fun h ↦ ⟨hlow, hhigh, h⟩, fun h ↦ h.2.2⟩⟩

theorem vmmapIsRangeEmpty_wrap (hle : (start + npages) % 2 ^ 32 ≤ start) :
    s.vmmapIsRangeEmpty m start npages = .error .assertion := by
  have hnot : ¬ (start < (start + npages) % 2 ^ 32 ∧ lowPage ≤ start ∧
      (start + npages) % 2 ^ 32 ≤ highPage) := by omega
  simp only [vmmapIsRangeEmpty, demand_neg hnot]
  rfl

omit [Layout] in
theorem lowPage_le_highPage [Layout] : lowPage ≤ highPage :=
  Nat.div_le_div_right Layout.low_lt_high.le

theorem findRangeLoop_cons (ha : s.areas a = some vma) (hle : npages ≤ vma.vmaStart)
    (hmax : npages ≤ highPage) (hend : vma.vmaStart ≤ highPage) :
    s.findRangeLoop m npages false (a :: l) = if lowPage ≤ vma.vmaStart - npages then do
        let empty ← s.vmmapIsRangeEmpty m (vma.vmaStart - npages) npages
        if empty then return some (vma.vmaStart - npages) else s.findRangeLoop m npages false l
      else s.findRangeLoop m npages false l := by
  have hsmall := highPage_lt
  have hwrap : (vma.vmaStart + (2 ^ 32 - npages)) % 2 ^ 32 = vma.vmaStart - npages := by
    rw [show vma.vmaStart + (2 ^ 32 - npages) = vma.vmaStart - npages + 2 ^ 32 by omega,
      Nat.add_mod_right, Nat.mod_eq_of_lt (by omega)]
  simp only [findRangeLoop, ha, follow_bind, Bool.false_eq_true, false_and, if_false, hwrap]

theorem findRangeLoop_cons_wrap (ha : s.areas a = some vma) (hlt : vma.vmaStart < npages)
    (hmax : npages ≤ highPage) : s.findRangeLoop m npages false (a :: l) = .error .assertion := by
  have hsmall := highPage_lt
  have hlow := lowPage_le_highPage
  have hwrap : (vma.vmaStart + (2 ^ 32 - npages)) % 2 ^ 32 = vma.vmaStart + (2 ^ 32 - npages) :=
    Nat.mod_eq_of_lt (by omega)
  have hback : (vma.vmaStart + (2 ^ 32 - npages) + npages) % 2 ^ 32 = vma.vmaStart := by
    rw [show vma.vmaStart + (2 ^ 32 - npages) + npages = vma.vmaStart + 2 ^ 32 by omega,
      Nat.add_mod_right, Nat.mod_eq_of_lt (by omega)]
  have htest : s.vmmapIsRangeEmpty m (vma.vmaStart + (2 ^ 32 - npages)) npages =
      .error .assertion := vmmapIsRangeEmpty_wrap (by omega)
  simp only [findRangeLoop, ha, follow_bind, Bool.false_eq_true, false_and, if_false, hwrap,
    htest, if_pos (show lowPage ≤ vma.vmaStart + (2 ^ 32 - npages) by omega)]
  rfl

/-- When the range before the area `a` is taken, every free range lies before the area
below `a`. -/
theorem Free.below (ht : TidyMap s m mp) (hsplit : mp.vmmList = l.reverse ++ a :: rest)
    (ha : s.areas a = some vma) (hfree : s.Free mp.vmmList npages start)
    (hle : start + npages ≤ vma.vmaStart)
    (htaken : ¬ s.Free mp.vmmList npages (vma.vmaStart - npages)) :
    ∃ b l' vmb, l = b :: l' ∧ s.areas b = some vmb ∧ start + npages ≤ vmb.vmaStart := by
  have hsegs : s.segs mp.vmmList = s.segs l.reverse ++ vma.seg :: s.segs rest := by
    rw [hsplit, segs_append, segs_cons ha]
  have hbounds := ht.bounds vma.seg (by simp [hsegs])
  have hord := ht.ordered
  -- otherwise it could be moved up to the area
  have hnot : ¬ ∀ g ∈ s.segs l.reverse, g.hi ≤ start := by
    intro habove
    unfold Free at hfree htaken
    rw [hsegs] at hfree htaken hord
    exact htaken (hfree.move hord hle habove hbounds.2)
  push Not at hnot
  obtain ⟨g, hg, hgt⟩ := hnot
  cases l with
  | nil => simp at hg
  | cons b l' =>
    obtain ⟨vmb, hb, -⟩ := ht.live b (by simp [hsplit])
    refine ⟨b, l', vmb, rfl, hb, ?_⟩
    have hav : start + npages ≤ g.lo := by
      refine (hfree.2.2 g ?_).resolve_right (by omega)
      rw [hsegs]
      exact List.mem_append_left _ hg
    rw [List.reverse_cons, segs_append, segs_cons hb, segs_nil] at hg hsegs
    have hpair := (List.pairwise_append.mp (hsegs ▸ hord.pairwise)).1
    rcases List.mem_append.mp hg with hg' | hg'
    · have hlast := (List.pairwise_append.mp hpair).2.2 g hg' vmb.seg (by simp)
      have hproper := hord.proper g (by rw [hsegs]; simp [hg'])
      exact (hav.trans hproper.le).trans hlast
    · rw [List.mem_singleton] at hg'
      rw [hg'] at hav
      exact hav

/-- The loop, with the areas `rest` behind it, when no free range reaches above the next
area.  It finds the highest free range; if there is none, it is lost at the first area
that has too few pages before it. -/
theorem findRangeLoop_spec (hm : s.maps m = some mp) (ht : TidyMap s m mp) (hpos : 0 < npages)
    (hmax : npages ≤ highPage) (hsplit : mp.vmmList = l.reverse ++ rest)
    (hbelow : ∀ start, s.Free mp.vmmList npages start →
      ∃ a l' vma, l = a :: l' ∧ s.areas a = some vma ∧ start + npages ≤ vma.vmaStart) :
    ((∃ start, s.Free mp.vmmList npages start) ∨ (∀ g ∈ s.segs l, npages ≤ g.lo) →
      ∃ r, s.findRangeLoop m npages false l = .ok r ∧ s.RightRange mp.vmmList npages .hilo r) ∧
    ((∀ start, ¬ s.Free mp.vmmList npages start) → (∃ g ∈ s.segs l, g.lo < npages) →
      s.findRangeLoop m npages false l = .error .assertion) := by
  induction l generalizing rest with
  | nil =>
    refine ⟨fun _ ↦ ⟨none, rfl, fun start hfree ↦ ?_⟩, fun _ hg ↦ ?_⟩
    · obtain ⟨a, l', vma, hl, -⟩ := hbelow start hfree
      cases hl
    · obtain ⟨g, hg, -⟩ := hg
      simp at hg
  | cons a l ih =>
    rw [List.reverse_cons, List.append_assoc, List.singleton_append] at hsplit
    obtain ⟨vma, ha, -⟩ := ht.live a (by simp [hsplit])
    have hmem : vma.seg ∈ s.segs mp.vmmList := mem_segs.mpr ⟨a, by simp [hsplit], vma, ha, rfl⟩
    have hend : vma.vmaEnd ≤ highPage := (ht.bounds _ hmem).2
    have hproper : vma.vmaStart < vma.vmaEnd := ht.ordered.proper _ hmem
    have hle : ∀ start, s.Free mp.vmmList npages start → start + npages ≤ vma.vmaStart := by
      intro start hfree
      obtain ⟨b, l', vmb, hl, hb, hle⟩ := hbelow start hfree
      cases hl
      cases ha.symm.trans hb
      exact hle
    by_cases hwrap : vma.vmaStart < npages
    · have hnone : ∀ start, ¬ s.Free mp.vmmList npages start := by
        intro start hfree
        have := hle start hfree
        omega
      refine ⟨?_, fun _ _ ↦ findRangeLoop_cons_wrap ha hwrap hmax⟩
      rintro (⟨start, hfree⟩ | hall)
      · exact absurd hfree (hnone start)
      · have := hall vma.seg (mem_segs.mpr ⟨a, by simp, vma, ha, rfl⟩)
        exact absurd this (not_le.mpr hwrap)
    rw [not_lt] at hwrap
    rw [findRangeLoop_cons ha hwrap hmax (hproper.le.trans hend), segs_cons ha]
    -- what remains of the search when this area has not given a range
    have hgo : ¬ s.Free mp.vmmList npages (vma.vmaStart - npages) →
        ((∃ start, s.Free mp.vmmList npages start) ∨
          (∀ g ∈ vma.seg :: s.segs l, npages ≤ g.lo) →
          ∃ r, s.findRangeLoop m npages false l = .ok r ∧
            s.RightRange mp.vmmList npages .hilo r) ∧
        ((∀ start, ¬ s.Free mp.vmmList npages start) →
          (∃ g ∈ vma.seg :: s.segs l, g.lo < npages) →
          s.findRangeLoop m npages false l = .error .assertion) := by
      intro htaken
      obtain ⟨hfound, hlost⟩ := ih hsplit fun start hfree ↦
        hfree.below ht hsplit ha (hle start hfree) htaken
      refine ⟨fun h ↦ hfound (h.imp_right fun hall g hg ↦ hall g (List.mem_cons_of_mem _ hg)), ?_⟩
      rintro hnone ⟨g, hg, hlt⟩
      rcases List.mem_cons.mp hg with rfl | hg
      · exact absurd hlt (not_lt.mpr hwrap)
      · exact hlost hnone ⟨g, hg, hlt⟩
    by_cases hlow : lowPage ≤ vma.vmaStart - npages
    · rw [if_pos hlow]
      obtain ⟨b, hb, hiff⟩ := vmmapIsRangeEmpty_of_bounds hm hpos hlow
        (show vma.vmaStart - npages + npages ≤ highPage by omega)
      rw [hb, ok_bind]
      cases b with
      | true =>
        have hfree := hiff.mp rfl
        refine ⟨fun _ ↦ ⟨_, rfl, hfree, fun start hstart ↦ ?_⟩, fun hnone ↦ ?_⟩
        · have := hle start hstart
          show start ≤ vma.vmaStart - npages
          omega
        · exact absurd hfree (hnone _)
      | false =>
        simp only [Bool.false_eq_true, if_false]
        exact hgo fun hfree ↦ Bool.false_ne_true (hiff.mpr hfree)
    · rw [if_neg hlow]
      exact hgo fun hfree ↦ hlow hfree.1

/-- The search from above in a map with areas. -/
theorem vmmapFindRange_hilo (hm : s.maps m = some mp) (ht : TidyMap s m mp) (hpos : 0 < npages)
    (hmax : npages ≤ highPage) (hne : mp.vmmList ≠ []) :
    ((∃ start, s.Free mp.vmmList npages start) ∨ (∀ g ∈ s.segs mp.vmmList, npages ≤ g.lo) →
      ∃ r, s.vmmapFindRange m npages .hilo = .ok r ∧ s.RightRange mp.vmmList npages .hilo r) ∧
    ((∀ start, ¬ s.Free mp.vmmList npages start) → (∃ g ∈ s.segs mp.vmmList, g.lo < npages) →
      s.vmmapFindRange m npages .hilo = .error .assertion) := by
  obtain ⟨a, l, hl⟩ := List.exists_cons_of_ne_nil (List.reverse_ne_nil_iff.mpr hne)
  have hlist : mp.vmmList = l.reverse ++ [a] := by
    rw [← List.reverse_reverse mp.vmmList, hl, List.reverse_cons]
  obtain ⟨vma, ha, -⟩ := ht.live a (by simp [hlist])
  have hsegs : s.segs mp.vmmList = s.segs l.reverse ++ [vma.seg] := by
    rw [hlist, segs_append, segs_cons ha, segs_nil]
  have hmem : vma.seg ∈ s.segs mp.vmmList := by simp [hsegs]
  have hbounds : lowPage ≤ vma.vmaStart ∧ vma.vmaEnd ≤ highPage := ht.bounds _ hmem
  have hproper : vma.vmaStart < vma.vmaEnd := ht.ordered.proper _ hmem
  have hsmall := highPage_lt
  have hmod : (vma.vmaEnd + npages) % 2 ^ 32 = vma.vmaEnd + npages := Nat.mod_eq_of_lt (by omega)
  have hfind : s.vmmapFindRange m npages .hilo = s.findRangeLoop m npages true (a :: l) := by
    simp only [vmmapFindRange, hm, follow_bind, hl]
  rw [hfind]
  by_cases hend : vma.vmaEnd + npages ≤ highPage
  · -- there is room behind the last area
    have hfree : s.Free mp.vmmList npages (highPage - npages) := by
      refine ⟨by omega, by omega, fun g hg ↦ .inr ?_⟩
      have hle : g.hi ≤ vma.vmaEnd := by
        have hord := ht.ordered
        rw [hsegs] at hg hord
        exact hord.hi_le_last hg
      omega
    have hloop : s.findRangeLoop m npages true (a :: l) = .ok (some (highPage - npages)) := by
      simp only [findRangeLoop, ha, follow_bind, true_and, hmod, if_pos hend]
      rfl
    refine ⟨fun _ ↦ ⟨_, hloop, hfree, fun start hstart ↦ ?_⟩, fun hnone ↦ absurd hfree (hnone _)⟩
    have := hstart.2.1
    show start ≤ highPage - npages
    omega
  · have hloop : s.findRangeLoop m npages true (a :: l) =
        s.findRangeLoop m npages false (a :: l) := by
      simp only [findRangeLoop, ha, follow_bind, true_and, hmod, if_neg hend,
        Bool.false_eq_true, false_and, if_false]
    have hbelow : ∀ start, s.Free mp.vmmList npages start →
        ∃ b l' vmb, a :: l = b :: l' ∧ s.areas b = some vmb ∧ start + npages ≤ vmb.vmaStart := by
      intro start hfree
      refine ⟨a, l, vma, rfl, ha, (hfree.2.2 _ hmem).resolve_right fun hge ↦ ?_⟩
      have hhigh := hfree.2.1
      have hge : vma.vmaEnd ≤ start := hge
      omega
    have hsplit : mp.vmmList = (a :: l).reverse ++ [] := by
      rw [List.reverse_cons, List.append_nil, hlist]
    have hspec := findRangeLoop_spec hm ht hpos hmax hsplit hbelow
    rw [hloop]
    have hperm : ∀ g, g ∈ s.segs (a :: l) ↔ g ∈ s.segs mp.vmmList := by
      intro g
      rw [segs_cons ha, hsegs, List.mem_cons, List.mem_append, List.mem_singleton, or_comm]
      simp [segs]
    simpa only [hperm] using hspec

/-- **`vmmap_find_range`** gives the right answer in these cases: from above in a map with
areas, if there is a free range or no area has fewer than `npages` pages before it; from
below, or in a map without areas, if there is no free range. -/
theorem vmmapFindRange_right_iff {dir : Dir} (hm : s.maps m = some mp) (ht : TidyMap s m mp)
    (hpos : 1 ≤ npages) (hmax : npages ≤ highPage) :
    (∃ r, s.vmmapFindRange m npages dir = .ok r ∧ s.RightRange mp.vmmList npages dir r) ↔
      if dir = .hilo ∧ mp.vmmList ≠ [] then
        (∃ start, s.Free mp.vmmList npages start) ∨ ∀ g ∈ s.segs mp.vmmList, npages ≤ g.lo
      else ∀ start, ¬ s.Free mp.vmmList npages start := by
  by_cases hcase : dir = .hilo ∧ mp.vmmList ≠ []
  · rw [if_pos hcase]
    obtain ⟨rfl, hne⟩ := hcase
    obtain ⟨hfound, hlost⟩ := vmmapFindRange_hilo hm ht hpos hmax hne
    refine ⟨?_, hfound⟩
    rintro ⟨r, hr, -⟩
    by_contra hnot
    push Not at hnot
    rw [hlost hnot.1 hnot.2] at hr
    cases hr
  · rw [if_neg hcase]
    have hnone : s.vmmapFindRange m npages dir = .ok none := by
      cases dir with
      | lohi =>
        simp only [vmmapFindRange, hm, follow_bind]
        rfl
      | hilo =>
        have hnil : mp.vmmList = [] := by
          by_contra hne
          exact hcase ⟨rfl, hne⟩
        simp only [vmmapFindRange, hm, follow_bind, hnil, List.reverse_nil]
        rfl
    rw [hnone]
    constructor
    · rintro ⟨r, hr, hright⟩
      cases hr
      exact hright
    · intro hright
      exact ⟨none, rfl, hright⟩

/-- A memory with one map, and one area in it. -/
def oneArea (lo hi : ℕ) : Mem where
  areas := update (fun _ ↦ none) 0 (some
    { vmaStart := lo, vmaEnd := hi, vmaOff := 0, vmaProt := 0, vmaFlags := 0, vmaVmmap := some 1 })
  maps := update (fun _ ↦ none) 1 (some { vmmList := [0] })

theorem tidyMap_oneArea {lo hi : ℕ} (hlt : lo < hi) (hlo : lowPage ≤ lo) (hhi : hi ≤ highPage) :
    TidyMap (oneArea lo hi) 1 { vmmList := [0] } where
  nodup := List.nodup_singleton 0
  live a ha := by
    rw [List.mem_singleton.mp ha]
    exact ⟨_, rfl, rfl⟩
  ordered := ⟨by simpa [oneArea, segs, VmArea.seg] using hlt, List.pairwise_singleton _ _⟩
  bounds := by simpa [oneArea, segs, VmArea.seg] using ⟨hlo, hhi⟩

omit [Layout] in
/-- In the map without areas nothing is found, although all of user memory is free; nor is
anything found from below.  When there is one area, the search for more pages than there
are before it is lost. -/
theorem free_range_missed :
    (∃ s : Mem, s.maps 1 = some {} ∧ @TidyMap .stock s 1 {} ∧
      @vmmapFindRange .stock s 1 1 .hilo = .ok none ∧ @Free .stock s [] 1 1024) ∧
    (@vmmapFindRange .stock (oneArea 2048 2049) 1 1 .lohi = .ok none ∧
      @Free .stock (oneArea 2048 2049) [0] 1 1024) ∧
    @vmmapFindRange .stock (oneArea 1024 786432) 1 1025 .hilo = .error .assertion := by
  let := Layout.stock
  refine ⟨⟨{ maps := update (fun _ ↦ none) 1 (some {}) }, rfl, ?_, rfl, ?_⟩, ⟨rfl, ?_⟩, rfl⟩
  · exact ⟨List.nodup_nil, by simp, .nil, by simp [segs]⟩
  · exact ⟨by decide, by decide, by simp [segs]⟩
  · refine ⟨by decide, by decide, ?_⟩
    simp [oneArea, segs, VmArea.seg, Seg.Avoids]

omit [Layout] in
/-- With one area, a page is found behind it. -/
theorem free_page_found : ∃ r, @vmmapFindRange .stock (oneArea 1024 1025) 1 1 .hilo = .ok r ∧
    @RightRange .stock (oneArea 1024 1025) [0] 1 .hilo r := by
  let := Layout.stock
  have hmap : (oneArea 1024 1025).maps 1 = some { vmmList := [0] } := rfl
  refine (vmmapFindRange_right_iff hmap
    (tidyMap_oneArea (by decide) (by decide) (by decide)) (by decide) (by decide)).mpr ?_
  rw [if_pos (by simp)]
  right
  simp [oneArea, segs, VmArea.seg]

end Mem

end CS402.Mm

import CS402.Vm.Access

/-!
# Mapping without memory

What `vmmap_map` and `vmmap_remove` owe when an allocation that they make fails, or the
`mmap` operation of the vnode does: an error, with the view of the map and the reference
counts of all objects as before.  `Undone` says this of an outcome.

The comment of `vmmap_map` asks for it, but the code drops the old mapping of the range
before it allocates, takes no notice of a removal that could not split an area, and uses
what `anon_create`, `shadow_create` and the `mmap` operation return without a test.  So
the only failure that it survives is that of the new area, when nothing has been removed.
-/

set_option linter.unusedSectionVars false

namespace CS402.Mm

open CS402.Lib Function

namespace Mem

variable [Layout]

/-! ## What may fail -/

/-- An area has pages on both sides of the range, so that `vmmap_remove` has to split it. -/
def Surrounded (s : Mem) (m : MapId) (lo hi : ℕ) : Prop :=
  ∃ mp, s.maps m = some mp ∧
    ∃ a ∈ mp.vmmList, ∃ vma, s.areas a = some vma ∧ vma.vmaStart < lo ∧ hi < vma.vmaEnd

/-- Nothing has to be removed for a new area. -/
def Vacant (s : Mem) (m : MapId) (lopage npages : ℕ) : Prop :=
  lopage = 0 ∨ s.vmmapIsRangeEmpty m lopage npages = .ok true

/-- The arguments are those that `vmmap_map` asks for. -/
structure ValidRange (lopage npages : ℕ) : Prop where
  pos : 0 < npages
  low : lopage = 0 ∨ lowPage ≤ lopage
  high : lopage = 0 ∨ lopage + npages ≤ highPage

/-- Something that `vmmap_map` needs cannot be had: the area that is split off by the
removal, the new area, the object behind it, or the shadow object. -/
inductive MapMisses (s : Mem) (m : MapId) (file : Option VnodeId) (lopage npages : ℕ)
    (flags : Flags) (dir : Dir) : Prop where
  | split (hsur : s.Surrounded m lopage (lopage + npages)) (hno : s.grants .vmarea = false)
  | area {s₁ : Mem} {start : ℕ} (hroom : s.makeRoom m lopage npages dir = .ok (s₁, some start))
      (hno : s₁.grants .vmarea = false)
  | object {s₁ s₂ : Mem} {start : ℕ}
      (hroom : s.makeRoom m lopage npages dir = .ok (s₁, some start))
      (harea : s₁.grants .vmarea = true) (hno : s₁.vmareaAlloc.1.backing file = .ok (s₂, none))
  | shadow {s₁ s₂ : Mem} {start : ℕ} {o : ObjId}
      (hroom : s.makeRoom m lopage npages dir = .ok (s₁, some start))
      (harea : s₁.grants .vmarea = true) (hobj : s₁.vmareaAlloc.1.backing file = .ok (s₂, some o))
      (hprivate : flags.has mapPrivate) (hno : s₂.grants .shadow = false)

/-- What is owed then. -/
def Undone {α : Type} (s : Mem) (m : MapId) (out : Except Fault (Mem × Except Errno α)) : Prop :=
  ∃ s' e, out = .ok (s', .error e) ∧ s'.view m = s.view m ∧
    ∀ o, (s'.objs o).map MmObj.mmoRefcount = (s.objs o).map MmObj.mmoRefcount

/-- `vmmap_remove` with its result: all its `return`s are `return 0`, or `return NULL` where
there is no memory. -/
def vmmapRemoveResult (s : Mem) (m : MapId) (lopage npages : ℕ) :
    Except Fault (Mem × Except Errno Unit) := do
  let s ← s.vmmapRemove m lopage npages
  return (s, .ok ())

variable {s s' : Mem} {m : MapId} {mp : Vmmap} {a : AreaId} {vma : VmArea} {lo hi n : ℕ}
  {file : Option VnodeId} {lopage npages off : ℕ} {prot flags : Flags} {dir : Dir}

/-! ## Removal around a range inside one area -/

theorem removeLoop_append_of_avoids {l₁ l : List AreaId}
    (h : ∀ b ∈ l₁, ∃ vb, s.areas b = some vb ∧ vb.Avoids lo hi) :
    removeLoop m lo hi (l₁ ++ l) s = removeLoop m lo hi l s := by
  induction l₁ with
  | nil => rfl
  | cons b l₁ ih =>
    obtain ⟨vb, hvb, hav⟩ := h b List.mem_cons_self
    rw [List.cons_append, removeLoop, hvb, follow_bind, if_pos hav]
    exact ih fun b hb ↦ h b (List.mem_cons_of_mem _ hb)

theorem avoids_of_surrounds (ht : TidyMap s m mp) (hlohi : lo < hi) (ha : a ∈ mp.vmmList)
    (hvma : s.areas a = some vma) (hlo : vma.vmaStart < lo) (hhi : hi < vma.vmaEnd)
    {b : AreaId} {vb : VmArea} (hb : b ∈ mp.vmmList) (hvb : s.areas b = some vb) (hne : b ≠ a) :
    vb.Avoids lo hi := by
  by_contra hav
  have hmeets : vb.vmaStart < hi ∧ lo < vb.vmaEnd := by
    unfold VmArea.Avoids at hav
    omega
  have hproper : vb.vmaStart < vb.vmaEnd :=
    ht.ordered.proper vb.seg (mem_segs.mpr ⟨b, hb, vb, hvb, rfl⟩)
  rcases le_total lo vb.vmaStart with hle | hle
  · exact hne (ht.area_unique hb ha hvb hvma ⟨le_rfl, hproper⟩
      ⟨(hlo.trans_le hle).le, hmeets.1.trans hhi⟩)
  · exact hne (ht.area_unique hb ha hvb hvma ⟨hle, hmeets.2⟩ ⟨hlo.le, hlohi.trans hhi⟩)

theorem vmmapRemove_of_surrounds (ht : TidyMap s m mp) (hm : s.maps m = some mp) (hn : 0 < n)
    (hlow : lowPage ≤ lo) (hhigh : lo + n ≤ highPage) (ha : a ∈ mp.vmmList)
    (hvma : s.areas a = some vma) (hstart : vma.vmaStart < lo) (hend : lo + n < vma.vmaEnd) :
    s.vmmapRemove m lo n = s.splitArea m lo (lo + n) a vma := by
  have hmeets : ¬ vma.Avoids lo (lo + n) := by
    unfold VmArea.Avoids
    omega
  obtain ⟨b, hb, hiff⟩ := vmmapIsRangeEmpty_eq hm hn hlow hhigh
  have hfull : b = false := by
    by_contra hne
    exact hmeets (hiff.mp (by simpa using hne) vma.seg (mem_segs.mpr ⟨a, ha, vma, hvma, rfl⟩))
  subst hfull
  unfold vmmapRemove
  rw [hb, ok_bind, if_neg Bool.false_ne_true, hm, follow_bind, range_mod hhigh]
  obtain ⟨l₁, l₂, hl, hnot⟩ := List.eq_append_cons_of_mem ha
  have hskip : ∀ b ∈ l₁, ∃ vb, s.areas b = some vb ∧ vb.Avoids lo (lo + n) := by
    intro b hb
    have hin : b ∈ mp.vmmList := hl ▸ List.mem_append_left _ hb
    obtain ⟨vb, hvb, -⟩ := ht.live b hin
    exact ⟨vb, hvb, avoids_of_surrounds ht (by omega) ha hvma hstart hend hin hvb
      (ne_of_mem_of_not_mem hb hnot)⟩
  rw [hl, removeLoop_append_of_avoids hskip, removeLoop, hvma, follow_bind,
    if_neg hmeets, if_pos ⟨hstart, hend⟩]

theorem vmmapRemove_without_memory (h : Tidy s) (hn : 0 < n) (hlow : lowPage ≤ lo)
    (hhigh : lo + n ≤ highPage) (hsur : s.Surrounded m lo (lo + n))
    (hno : s.grants .vmarea = false) : s.vmmapRemove m lo n = .ok (s.draw .vmarea) := by
  obtain ⟨mp, hm, a, ha, vma, hvma, hstart, hend⟩ := hsur
  rw [vmmapRemove_of_surrounds (h.map m mp hm) hm hn hlow hhigh ha hvma hstart hend, splitArea,
    vmareaAlloc, hno]
  rfl

/-- After the split of an area nothing is mapped in between. -/
theorem view_splitArea (ht : TidyMap s m mp) (hm : s.maps m = some mp)
    (hlohi : lo < hi) (ha : a ∈ mp.vmmList)
    (hvma : s.areas a = some vma) (hstart : vma.vmaStart < lo) (hend : hi < vma.vmaEnd)
    (hs : s.splitArea m lo hi a vma = .ok s') (hyes : s.grants .vmarea = true) {v : ℕ}
    (hv : lo ≤ v ∧ v < hi) : s'.view m v = none := by
  rcases splitArea_maps hm hs with ⟨hno, -⟩ | ⟨-, olink, hareas, hmaps, -, -⟩
  · rw [hyes] at hno
    cases hno
  by_contra hne
  obtain ⟨x, hx⟩ := Option.ne_none_iff_exists'.mp hne
  obtain ⟨l₁, l₂, hl, hnot⟩ := List.eq_append_cons_of_mem ha
  have hm' : s'.maps m = some { mp with vmmList := l₁ ++ s.next :: a :: l₂ } := by
    rw [hmaps, update_self, hl, insertBefore_append hnot]
  obtain ⟨b, hb, vb, hvb, hcov⟩ := exists_area_of_view hm' hx
  rw [hareas] at hvb
  rcases eq_or_ne b a with rfl | hba
  · -- the right part
    rw [update_self] at hvb
    cases hvb
    exact absurd hcov.1 hv.2.not_ge
  rw [update_of_ne hba] at hvb
  rcases eq_or_ne b s.next with rfl | hbn
  · -- the left part
    rw [update_self] at hvb
    cases hvb
    exact absurd hcov.2 hv.1.not_gt
  -- another area, which has no page in the range
  rw [update_of_ne hbn] at hvb
  have hin : b ∈ mp.vmmList := by
    rw [hl]
    simp only [List.mem_append, List.mem_cons] at hb ⊢
    tauto
  exact (avoids_of_surrounds ht hlohi ha hvma hstart hend hin hvb hba).elim
    (fun hle ↦ absurd (hle.trans hcov.1) hv.2.not_ge)
    (fun hle ↦ absurd (hcov.2.trans_le hle) hv.1.not_gt)

/-- **What `vmmap_remove` does**: without memory for a split nothing, and otherwise it empties
the range. -/
theorem vmmapRemove_cases (h : Tidy s) (hm : s.maps m = some mp) (hn : 0 < n) (hlow : lowPage ≤ lo)
    (hhigh : lo + n ≤ highPage) (hr : s.vmmapRemove m lo n = .ok s') :
    (s.Surrounded m lo (lo + n) ∧ s.grants .vmarea = false ∧ s' = s.draw .vmarea) ∨
      ∀ v, lo ≤ v ∧ v < lo + n → s'.view m v = none := by
  have ht := h.map m mp hm
  by_cases hsur : s.Surrounded m lo (lo + n)
  · cases hg : s.grants .vmarea with
    | false =>
      rw [vmmapRemove_without_memory h hn hlow hhigh hsur hg] at hr
      exact .inl ⟨hsur, rfl, (Except.ok.inj hr).symm⟩
    | true =>
      right
      intro v hv
      obtain ⟨mp', hm', a, ha, vma, hvma, hstart, hend⟩ := hsur
      cases hm.symm.trans hm'
      rw [vmmapRemove_of_surrounds ht hm hn hlow hhigh ha hvma hstart hend] at hr
      exact view_splitArea ht hm (by omega) ha hvma hstart hend hr hg hv
  · right
    intro v hv
    obtain ⟨-, mp', ok, hs⟩ := vmmapRemove_spec h hm hr
    rw [range_mod hhigh] at hs
    rw [view_eq hs.only.maps_self, hs.segs, Segs.remove_of_not_surrounds ?_,
      Segs.lookup_remove_of_mem ht.ordered hv]
    rintro g hg ⟨hstart, hend⟩
    obtain ⟨a, ha, vma, hvma, rfl⟩ := mem_segs.mp hg
    exact hsur ⟨mp, hm, a, ha, vma, hvma, hstart, hend⟩

theorem exists_view_of_not_empty (ht : TidyMap s m mp) (hm : s.maps m = some mp) (hn : 0 < n)
    (hlow : lowPage ≤ lo) (hhigh : lo + n ≤ highPage)
    (hfull : s.vmmapIsRangeEmpty m lo n ≠ .ok true) :
    ∃ v, (lo ≤ v ∧ v < lo + n) ∧ s.view m v ≠ none := by
  obtain ⟨b, hb, hiff⟩ := vmmapIsRangeEmpty_eq hm hn hlow hhigh
  have hnot : ¬ ∀ g ∈ s.segs mp.vmmList, g.Avoids lo (lo + n) := by
    intro hall
    rw [hiff.mpr hall] at hb
    exact hfull hb
  push Not at hnot
  obtain ⟨g, hg, hmeets⟩ := hnot
  obtain ⟨a, ha, vma, hvma, rfl⟩ := mem_segs.mp hg
  have hproper : vma.vmaStart < vma.vmaEnd := ht.ordered.proper vma.seg hg
  have hov : vma.vmaStart < lo + n ∧ lo < vma.vmaEnd := by
    change ¬ (lo + n ≤ vma.vmaStart ∨ vma.vmaEnd ≤ lo) at hmeets
    omega
  refine ⟨max lo vma.vmaStart, by omega, ?_⟩
  have hcov : vma.Covers (max lo vma.vmaStart) := ⟨by omega, by omega⟩
  unfold view
  rw [ht.vmmapLookup_eq hm ha hvma hcov]
  simp [hvma]

/-! ## Mapping -/

theorem makeRoom_of_vacant {s₁ : Mem} {r : Option ℕ} (hv : s.Vacant m lopage npages)
    (h : s.makeRoom m lopage npages dir = .ok (s₁, r)) : s₁ = s := by
  rcases makeRoom_cases h with ⟨-, hs, -⟩ | ⟨hne, -, b, hb, ⟨-, hs⟩ | hrem⟩
  · exact hs
  · exact hs
  · rw [vmmapRemove, hv.resolve_left hne, ok_bind, if_pos rfl] at hrem
    cases hrem
    rfl

theorem makeRoom_of_not_vacant (hm : s.maps m = some mp) (hvalid : ValidRange lopage npages)
    (hv : ¬ s.Vacant m lopage npages) :
    s.makeRoom m lopage npages dir = do
      let s ← s.vmmapRemove m lopage npages
      return (s, some lopage) := by
  obtain ⟨hne, hfull⟩ := not_or.mp hv
  obtain ⟨b, hb, -⟩ := vmmapIsRangeEmpty_eq hm hvalid.pos (hvalid.low.resolve_left hne)
    (hvalid.high.resolve_left hne)
  have hb' : b = false := by
    by_contra hbt
    rw [Bool.not_eq_false] at hbt
    exact hfull (hbt ▸ hb)
  subst hb'
  unfold makeRoom
  rw [if_neg hne, hb, ok_bind, if_neg Bool.false_ne_true]

theorem Surrounded.not_vacant (hsur : s.Surrounded m lopage (lopage + npages))
    (hvalid : ValidRange lopage npages) : ¬ s.Vacant m lopage npages := by
  obtain ⟨mp, hm, a, ha, vma, hvma, hstart, hend⟩ := hsur
  have hne : lopage ≠ 0 := by omega
  rintro (h₀ | hempty)
  · exact hne h₀
  · obtain ⟨b, hb, hiff⟩ := vmmapIsRangeEmpty_eq hm hvalid.pos (hvalid.low.resolve_left hne)
      (hvalid.high.resolve_left hne)
    cases hempty.symm.trans hb
    have hav := hiff.mp rfl vma.seg (mem_segs.mpr ⟨a, ha, vma, hvma, rfl⟩)
    change lopage + npages ≤ vma.vmaStart ∨ vma.vmaEnd ≤ lopage at hav
    omega

theorem MapMisses.exists_room (h : Tidy s) (hvalid : ValidRange lopage npages)
    (hmiss : s.MapMisses m file lopage npages flags dir) :
    ∃ s₁ start, s.makeRoom m lopage npages dir = .ok (s₁, some start) := by
  cases hmiss with
  | split hsur hno =>
    have hnv := hsur.not_vacant hvalid
    obtain ⟨hne, -⟩ := not_or.mp hnv
    obtain ⟨mp, hm, -⟩ := id hsur
    rw [makeRoom_of_not_vacant hm hvalid hnv, vmmapRemove_without_memory h hvalid.pos
      (hvalid.low.resolve_left hne) (hvalid.high.resolve_left hne) hsur hno, ok_bind]
    exact ⟨_, _, rfl⟩
  | area hroom => exact ⟨_, _, hroom⟩
  | object hroom => exact ⟨_, _, hroom⟩
  | shadow hroom => exact ⟨_, _, hroom⟩

theorem vmmapMap_of_room {s₁ : Mem} {start : ℕ} (hvalid : ValidRange lopage npages)
    (hflags : flags.has mapShared ∨ flags.has mapPrivate) (hoff : PageAligned off)
    (hroom : s.makeRoom m lopage npages dir = .ok (s₁, some start)) :
    s.vmmapMap m file lopage npages prot flags off dir =
      s₁.vmmapPlace m file start npages prot flags off := by
  unfold vmmapMap
  rw [demand_bind hvalid.pos, demand_bind hflags, demand_bind hvalid.low,
    demand_bind hvalid.high, demand_bind hoff, hroom, ok_bind]

theorem vmmapPlace_eq_error {start : ℕ} {e : Errno} :
    s.vmmapPlace m file start npages prot flags off = .ok (s', .error e) ↔
      s.grants .vmarea = false ∧ s' = s.draw .vmarea ∧ e = .ENOMEM := by
  constructor
  · intro h
    rcases vmmapPlace_maps h with ⟨hno, hr, hs'⟩ | ⟨-, hr, -⟩
    · exact ⟨hno, hs', Except.error.inj hr⟩
    · cases hr
  · rintro ⟨hno, rfl, rfl⟩
    rw [vmmapPlace, vmareaAlloc, hno]
    rfl

/-- The failures that `vmmap_map` survives: that of the new area, where nothing had to be
removed or the area to be split could not be split either. -/
def OnlyArea (s : Mem) (m : MapId) (lopage npages : ℕ) : Prop :=
  s.grants .vmarea = false ∧
    (s.Vacant m lopage npages ∨
      s.Surrounded m lopage (lopage + npages) ∧ (s.draw .vmarea).grants .vmarea = false)

theorem vmmapMap_undone_iff (h : Tidy s) (hm : s.maps m = some mp)
    (hvalid : ValidRange lopage npages) (hflags : flags.has mapShared ∨ flags.has mapPrivate)
    (hoff : PageAligned off) (hmiss : s.MapMisses m file lopage npages flags dir) :
    s.Undone m (s.vmmapMap m file lopage npages prot flags off dir) ↔
      s.OnlyArea m lopage npages := by
  obtain ⟨s₁, start, hroom⟩ := hmiss.exists_room h hvalid
  rw [vmmapMap_of_room hvalid hflags hoff hroom]
  constructor
  · rintro ⟨s', e, hout, hview, -⟩
    obtain ⟨hno, rfl, rfl⟩ := vmmapPlace_eq_error.mp hout
    by_cases hv : s.Vacant m lopage npages
    · obtain rfl := makeRoom_of_vacant hv hroom
      exact ⟨hno, .inl hv⟩
    -- something has been removed: either nothing happened or a page is missing in the view
    obtain ⟨hne, hfull⟩ := not_or.mp hv
    have hlow := hvalid.low.resolve_left hne
    have hhigh := hvalid.high.resolve_left hne
    rw [makeRoom_of_not_vacant hm hvalid hv] at hroom
    obtain ⟨s₂, hremove, hs₂⟩ := bind_ok hroom
    cases hs₂
    rcases vmmapRemove_cases h hm hvalid.pos hlow hhigh hremove with ⟨hsur, hg, rfl⟩ | hnone
    · exact ⟨hg, .inr ⟨hsur, hno⟩⟩
    · obtain ⟨v, hv, hsome⟩ :=
        exists_view_of_not_empty (h.map m mp hm) hm hvalid.pos hlow hhigh hfull
      exact absurd ((congrFun hview v).symm.trans (hnone v hv)) hsome
  · rintro ⟨hno, hv | ⟨hsur, hno'⟩⟩
    · obtain rfl := makeRoom_of_vacant hv hroom
      exact ⟨s₁.draw .vmarea, .ENOMEM, vmmapPlace_eq_error.mpr ⟨hno, rfl, rfl⟩, rfl, fun _ ↦ rfl⟩
    · have hnv := hsur.not_vacant hvalid
      obtain ⟨hne, -⟩ := not_or.mp hnv
      rw [makeRoom_of_not_vacant hm hvalid hnv, vmmapRemove_without_memory h hvalid.pos
        (hvalid.low.resolve_left hne) (hvalid.high.resolve_left hne) hsur hno, ok_bind] at hroom
      cases hroom
      exact ⟨(s.draw .vmarea).draw .vmarea, .ENOMEM, vmmapPlace_eq_error.mpr ⟨hno', rfl, rfl⟩, rfl,
        fun _ ↦ rfl⟩

/-- **Mapping without memory.**  On a map in good order, `vmmap_map` undoes what it has done
for the failure of the new area only, as long as nothing has been removed, and `vmmap_remove`
reports no failure at all. -/
theorem mapping_undone_iff (h : Tidy s) (hm : s.maps m = some mp) :
    (∀ file lopage npages prot flags off dir, ValidRange lopage npages →
      (flags.has mapShared ∨ flags.has mapPrivate) → PageAligned off →
      s.MapMisses m file lopage npages flags dir →
      (s.Undone m (s.vmmapMap m file lopage npages prot flags off dir) ↔
        s.OnlyArea m lopage npages)) ∧
    ∀ lopage npages, 0 < npages → lowPage ≤ lopage → lopage + npages ≤ highPage →
      s.Surrounded m lopage (lopage + npages) → s.grants .vmarea = false →
      s.vmmapRemoveResult m lopage npages = .ok (s.draw .vmarea, .ok ()) ∧
        ¬ s.Undone m (s.vmmapRemoveResult m lopage npages) := by
  refine ⟨?_, ?_⟩
  · intro file lopage npages prot flags off dir hvalid hflags hoff hmiss
    exact vmmapMap_undone_iff h hm hvalid hflags hoff hmiss
  · intro lopage npages hpos hlow hhigh hsur hno
    have hres : s.vmmapRemoveResult m lopage npages = .ok (s.draw .vmarea, .ok ()) := by
      unfold vmmapRemoveResult
      rw [vmmapRemove_without_memory h hpos hlow hhigh hsur hno, ok_bind]
      rfl
    refine ⟨hres, ?_⟩
    rintro ⟨s', e, hout, -⟩
    cases hres.symm.trans hout

/-- The same state, except for what an allocator is going to answer. -/
def answering (s : Mem) (k : Allocator) (l : List Bool) : Mem :=
  { s with oracle := update s.oracle k l }

theorem Tidy.answering (h : Tidy s) (k : Allocator) (l : List Bool) : Tidy (s.answering k l) where
  freshArea := h.freshArea
  freshMap := h.freshMap
  map m mp hm := (h.map m mp hm).congr fun _ _ ↦ rfl

/-- How many areas of a map cover a page. -/
def coverage (s : Mem) (m : MapId) (v : ℕ) : ℕ :=
  ((s.maps m).map fun mp ↦ (mp.vmmList.filter (s.covers v)).length).getD 0

/-- Whether an area surrounds a range. -/
def surrounded (s : Mem) (m : MapId) (lo hi : ℕ) : Bool :=
  (s.maps m).any fun mp ↦ mp.vmmList.any fun a ↦
    (s.areas a).any fun vma ↦ vma.vmaStart < lo ∧ hi < vma.vmaEnd

omit [Layout] in
theorem surrounded_iff : s.surrounded m lo hi = true ↔ s.Surrounded m lo hi := by
  simp only [surrounded, Surrounded, Option.any_eq_true, List.any_eq_true, decide_eq_true_eq]

omit [Layout] in
/-- A map with one area of eight pages, and no memory for another area. -/
theorem exists_eightPages : ∃ s mp, @Tidy .stock s ∧ s.maps 0 = some mp ∧
    s.grants .vmarea = false ∧ s.Surrounded 0 1026 1028 ∧
    (∃ s' a, @vmmapMap .stock s 0 none 1026 2 3 2 0 .hilo = .ok (s', .ok a) ∧
      s'.coverage 0 1026 = 2) ∧
    (∃ s₁, @makeRoom .stock s 0 1024 8 .hilo = .ok (s₁, some 1024) ∧
      s₁.grants .vmarea = false) ∧
    (∃ s' mp' e, @vmmapMap .stock s 0 none 1024 8 3 2 0 .hilo = .ok (s', .error e) ∧
      s'.maps 0 = some mp' ∧ s'.coverage 0 1024 = 0 ∧ s.coverage 0 1024 = 1) ∧
    @vmmapIsRangeEmpty .stock s 0 2048 1 = .ok true := by
  obtain ⟨s, hs, htest⟩ := exists_of_check (f := @mapStep .stock) (s := {})
    (l := [.create, .map 0 none 1024 8 3 2 0 .hilo])
    (p := fun s ↦
      let s := s.answering .vmarea [false]
      (s.maps 0).isSome && !s.grants .vmarea && s.surrounded 0 1026 1028 &&
      returns (fun x ↦ x.2.toOption.isSome && x.1.coverage 0 1026 == 2)
        (@vmmapMap .stock s 0 none 1026 2 3 2 0 .hilo) &&
      returns (fun x ↦ x.2 = some 1024 ∧ x.1.grants .vmarea = false)
        (@makeRoom .stock s 0 1024 8 .hilo) &&
      returns (fun x ↦ x.2.toOption.isNone && (x.1.maps 0).isSome && x.1.coverage 0 1024 == 0)
        (@vmmapMap .stock s 0 none 1024 8 3 2 0 .hilo) &&
      s.coverage 0 1024 == 1 &&
      returns (· = true) (@vmmapIsRangeEmpty .stock s 0 2048 1))
    (by decide +kernel)
  have hinv : @Tidy .stock s ∧ ∀ k, s.NoFailure k :=
    (Run.of_exec hs).invariant (I := fun s ↦ @Tidy .stock s ∧ ∀ k, s.NoFailure k)
      (fun _ _ _ h ↦ @tidy_mapStep .stock _ _ _ h)
      ⟨@NoMaps.tidy .stock _ noMaps_empty, noMaps_empty.noFailure⟩
  refine ⟨s.answering .vmarea [false], ?_⟩
  generalize hs₀ : s.answering .vmarea [false] = s₀ at htest ⊢
  have ht₀ : @Tidy .stock s₀ := hs₀ ▸ @Tidy.answering .stock _ hinv.1 _ _
  simp only [Bool.and_eq_true, Option.isSome_iff_exists, Bool.not_eq_true', surrounded_iff,
    returns_eq_true, Prod.exists, decide_eq_true_eq, beq_iff_eq] at htest
  obtain ⟨⟨⟨⟨⟨⟨⟨⟨mp, hm⟩, hno⟩, hsur⟩, s₁, r₁, h₁, hr₁, hc₁⟩, s₂, r₂, h₂, rfl, hno₂⟩,
    s₃, r₃, h₃, ⟨hr₃, mp₃, hm₃⟩, hc₃⟩, hc⟩, b, hb, rfl⟩ := htest
  refine ⟨mp, ht₀, hm, hno, hsur, ?_, ⟨s₂, h₂, hno₂⟩, ?_, hb⟩
  · cases r₁ with
    | ok a => exact ⟨s₁, a, h₁, hc₁⟩
    | error e => cases hr₁.choose_spec
  · cases r₃ with
    | ok a => cases hr₃
    | error e => exact ⟨s₃, mp₃, e, h₃, hm₃, hc₃, hc⟩

omit [Layout] in
theorem view_eq_none_iff (hm : s.maps m = some mp) {v : ℕ} :
    s.view m v = none ↔ s.coverage m v = 0 := by
  rw [coverage, hm, Option.map_some, Option.getD_some, List.length_eq_zero_iff,
    List.filter_eq_nil_iff]
  constructor
  · intro hnone a ha hcov
    have hlookup : s.vmmapLookup m v = .ok (mp.vmmList.find? (s.covers v)) := by
      simp [vmmapLookup, hm]
    obtain ⟨b, hb⟩ := Option.isSome_iff_exists.mp (List.find?_isSome.mpr ⟨a, ha, hcov⟩)
    have hb' := List.find?_some hb
    obtain ⟨vma, hvma, -⟩ := Option.any_eq_true _ _ |>.mp hb'
    rw [view, hlookup, hb] at hnone
    simp [hvma] at hnone
  · intro hall
    by_contra hne
    obtain ⟨x, hx⟩ := Option.ne_none_iff_exists'.mp hne
    obtain ⟨a, ha, vma, hvma, hcov⟩ := exists_area_of_view hm hx
    exact hall a ha (by simp [covers, hvma, hcov])

omit [Layout] in
/-- Without memory for the split, the new area is put over the old one and the call succeeds;
without memory for the new area, the old one is gone. -/
theorem mapping_not_undone : ∃ s mp, @Tidy .stock s ∧ s.maps 0 = some mp ∧
    @MapMisses .stock s 0 none 1026 2 2 .hilo ∧
    (∃ s' a, @vmmapMap .stock s 0 none 1026 2 3 2 0 .hilo = .ok (s', .ok a) ∧
      s'.coverage 0 1026 = 2) ∧
    ¬ s.Undone 0 (@vmmapMap .stock s 0 none 1026 2 3 2 0 .hilo) ∧
    @MapMisses .stock s 0 none 1024 8 2 .hilo ∧
    ¬ s.Undone 0 (@vmmapMap .stock s 0 none 1024 8 3 2 0 .hilo) := by
  obtain ⟨s, mp, ht, hm, hno, hsur, hover, ⟨s₁, hroom, hno₁⟩, hdrop, -⟩ := exists_eightPages
  refine ⟨s, mp, ht, hm, @MapMisses.split .stock _ _ _ _ _ _ _ hsur hno, hover, ?_,
    @MapMisses.area .stock _ _ _ _ _ _ _ _ _ hroom hno₁, ?_⟩
  · obtain ⟨s', a, hmap, -⟩ := hover
    rintro ⟨s'', e, hout, -⟩
    cases hmap.symm.trans hout
  · obtain ⟨s', mp', e, hmap, hm', hgone, hthere⟩ := hdrop
    rintro ⟨s'', e', hout, hview, -⟩
    cases hmap.symm.trans hout
    have hnone : s.view 0 1024 = none :=
      (congrFun hview 1024).symm.trans ((view_eq_none_iff hm').mpr hgone)
    rw [view_eq_none_iff hm, hthere] at hnone
    cases hnone

omit [Layout] in
/-- Without memory for a new area in an empty range nothing happens, and a removal that
cannot split an area succeeds. -/
theorem mapping_undone_when_empty : ∃ s mp, @Tidy .stock s ∧ s.maps 0 = some mp ∧
    s.Undone 0 (@vmmapMap .stock s 0 none 2048 1 3 2 0 .hilo) ∧
    ¬ s.Undone 0 (@vmmapRemoveResult .stock s 0 1026 2) := by
  obtain ⟨s, mp, ht, hm, hno, hsur, -, -, -, hempty⟩ := exists_eightPages
  have hboth := @mapping_undone_iff .stock _ _ _ ht hm
  have hroom : @makeRoom .stock s 0 2048 1 .hilo = .ok (s, some 2048) := by
    unfold makeRoom
    rw [if_neg (by decide), hempty, ok_bind]
    rfl
  have hmap := hboth.1 none 2048 1 3 2 0 .hilo (@ValidRange.mk .stock _ _ (by decide) (by decide)
    (by decide)) (by decide) (by decide) (@MapMisses.area .stock _ _ _ _ _ _ _ _ _ hroom hno)
  have hremove := hboth.2 1026 2 (by decide) (by decide) (by decide) hsur hno
  exact ⟨s, mp, ht, hm, hmap.mpr ⟨hno, .inl (.inr hempty)⟩, hremove.2⟩

end Mem

end CS402.Mm

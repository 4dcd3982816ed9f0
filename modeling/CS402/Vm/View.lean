import CS402.Lib.Segments
import CS402.Mm.Change
import CS402.Vm.Vmmap
import Mathlib.Data.List.Nodup

/-!
# Address-space maps as page maps

An address-space map is a linked list of areas, but what it is for is a partial
map from virtual pages to pages of memory objects: `Mem.view`.  This file connects
the two.  An area is a segment (`VmArea.seg`), the list of areas of a map is a list
of segments, and on these lists `vmmap_lookup`, `vmmap_insert` and `vmmap_remove`
do what `Segs.lookup`, `Segs.insert` and `Segs.remove` do.

`Tidy` is the invariant of the lists: the areas of a map are alive and know their
map, they lie in user memory, are not empty and come one after the other.
-/

set_option linter.unusedSectionVars false

namespace CS402.Mm

open CS402.Lib Function

/-- What all pages of an area have in common. -/
structure AreaTag where
  obj : Option ObjId
  prot : Flags
  flags : Flags
deriving DecidableEq

/-- An area as a segment. -/
def VmArea.seg (vma : VmArea) : Seg AreaTag where
  lo := vma.vmaStart
  hi := vma.vmaEnd
  off := vma.vmaOff
  tag := { obj := vma.vmaObj, prot := vma.vmaProt, flags := vma.vmaFlags }

/-! The four ways in which `vmmap_remove` can leave an area, as cuts of its segment. -/

namespace VmArea

variable {vma : VmArea} {lo hi : ℕ}

theorem cut_seg_split (h : ¬ vma.Avoids lo hi) (hlo : vma.vmaStart < lo) (hhi : hi < vma.vmaEnd) :
    vma.seg.cut lo hi = [vma.seg.below lo, vma.seg.above hi] := by
  unfold Seg.cut
  rw [if_neg (show ¬ vma.seg.Avoids lo hi from h), if_pos (show vma.seg.lo < lo from hlo),
    if_pos (show hi < vma.seg.hi from hhi)]
  rfl

theorem cut_seg_below (h : ¬ vma.Avoids lo hi) (hlo : vma.vmaStart < lo)
    (hhi : ¬ hi < vma.vmaEnd) : vma.seg.cut lo hi = [vma.seg.below lo] := by
  unfold Seg.cut
  rw [if_neg (show ¬ vma.seg.Avoids lo hi from h), if_pos (show vma.seg.lo < lo from hlo),
    if_neg (show ¬ hi < vma.seg.hi from hhi)]
  rfl

theorem cut_seg_above (h : ¬ vma.Avoids lo hi) (hlo : ¬ vma.vmaStart < lo)
    (hhi : hi < vma.vmaEnd) : vma.seg.cut lo hi = [vma.seg.above hi] := by
  unfold Seg.cut
  rw [if_neg (show ¬ vma.seg.Avoids lo hi from h), if_neg (show ¬ vma.seg.lo < lo from hlo),
    if_pos (show hi < vma.seg.hi from hhi)]
  rfl

theorem cut_seg_inside (h : ¬ vma.Avoids lo hi) (hlo : ¬ vma.vmaStart < lo)
    (hhi : ¬ hi < vma.vmaEnd) : vma.seg.cut lo hi = [] := by
  unfold Seg.cut
  rw [if_neg (show ¬ vma.seg.Avoids lo hi from h), if_neg (show ¬ vma.seg.lo < lo from hlo),
    if_neg (show ¬ hi < vma.seg.hi from hhi)]
  rfl

end VmArea

/-- The part of an area before a range that is cut out of it. -/
def VmArea.left (vma : VmArea) (lo : ℕ) (olink : Option ObjId) : VmArea :=
  { vma with vmaEnd := lo, vmaOlink := olink }

/-- The part behind the range. -/
def VmArea.right (vma : VmArea) (lo hi : ℕ) : VmArea :=
  { vma with vmaStart := hi, vmaOff := vma.vmaOff + (lo - vma.vmaStart) + (hi - lo) }

namespace Mem

/-- What `vmmap_lookup` says about a page: the page of the object behind it, and the
object, protection and flags of the area. -/
def view (s : Mem) (m : MapId) (v : ℕ) : Option (ℕ × AreaTag) :=
  match s.vmmapLookup m v with
  | .ok (some a) => (s.areas a).map fun vma ↦ (vma.vmaOff + (v - vma.vmaStart), vma.seg.tag)
  | _ => none

/-- The areas of a list, as segments. -/
def segs (s : Mem) (l : List AreaId) : List (Seg AreaTag) :=
  l.filterMap fun a ↦ (s.areas a).map VmArea.seg

variable {s s' : Mem} {m : MapId} {mp : Vmmap} {a : AreaId} {vma : VmArea} {l l' : List AreaId}
  {o : ObjId}

@[simp] theorem segs_nil : s.segs [] = [] := rfl

theorem segs_cons (h : s.areas a = some vma) : s.segs (a :: l) = vma.seg :: s.segs l := by
  simp [segs, h]

@[simp] theorem segs_append : s.segs (l ++ l') = s.segs l ++ s.segs l' := List.filterMap_append

theorem segs_congr (h : ∀ a ∈ l, s'.areas a = s.areas a) : s'.segs l = s.segs l := by
  unfold segs
  exact List.filterMap_congr fun a ha ↦ by rw [h a ha]

theorem mem_segs {g : Seg AreaTag} :
    g ∈ s.segs l ↔ ∃ a ∈ l, ∃ vma, s.areas a = some vma ∧ vma.seg = g := by
  simp [segs]

/-- The view of a map is the lookup in its segments. -/
theorem view_eq (hm : s.maps m = some mp) (v : ℕ) :
    s.view m v = Segs.lookup (s.segs mp.vmmList) v := by
  have hlookup : s.vmmapLookup m v = .ok (mp.vmmList.find? (s.covers v)) := by
    simp [vmmapLookup, hm]
  unfold view
  rw [hlookup]
  induction mp.vmmList with
  | nil => rfl
  | cons a l ih =>
    rw [List.find?_cons]
    cases ha : s.areas a with
    | none =>
      have hc : s.covers v a = false := by simp [covers, ha]
      have hsegs : s.segs (a :: l) = s.segs l := by simp [segs, ha]
      rw [hc, hsegs]
      exact ih
    | some vma =>
      rw [segs_cons ha, Segs.lookup_cons]
      by_cases hv : vma.Covers v
      · have hc : s.covers v a = true := by simp [covers, ha, hv]
        rw [hc, Seg.at?_of_mem (s := vma.seg) hv, Option.some_or]
        simp [ha, VmArea.seg]
      · have hc : s.covers v a = false := by simp [covers, ha, hv]
        rw [hc, Seg.at?_of_not_mem (s := vma.seg) hv, Option.none_or]
        exact ih

theorem exists_area_of_view (hm : s.maps m = some mp) {v : ℕ} {x : ℕ × AreaTag}
    (h : s.view m v = some x) :
    ∃ a ∈ mp.vmmList, ∃ vma, s.areas a = some vma ∧ vma.Covers v := by
  have hlookup : s.vmmapLookup m v = .ok (mp.vmmList.find? (s.covers v)) := by
    simp [vmmapLookup, hm]
  unfold view at h
  rw [hlookup] at h
  cases hf : mp.vmmList.find? (s.covers v) with
  | none => simp [hf] at h
  | some a =>
    rw [hf] at h
    obtain ⟨vma, hvma, rfl⟩ := Option.map_eq_some_iff.mp h
    have hc := List.find?_some hf
    simp only [covers, hvma, Option.any_some, decide_eq_true_eq] at hc
    exact ⟨a, List.mem_of_find?_eq_some hf, vma, hvma, hc⟩

/-- The areas and the maps are the same, and the allocators have failed no less. -/
structure SameMaps (s s' : Mem) : Prop where
  areas : s'.areas = s.areas
  maps : s'.maps = s.maps
  next : s.next ≤ s'.next
  noFailure : ∀ k, s.NoFailure k → s'.NoFailure k

theorem SameMaps.refl (s : Mem) : SameMaps s s := ⟨rfl, rfl, le_rfl, fun _ h ↦ h⟩

theorem SameMaps.trans {s'' : Mem} (h : SameMaps s s') (h' : SameMaps s' s'') : SameMaps s s'' :=
  ⟨h'.areas.trans h.areas, h'.maps.trans h.maps, h.next.trans h'.next,
    fun k hk ↦ h'.noFailure k (h.noFailure k hk)⟩

theorem Changes.sameMaps (h : Changes s s') : SameMaps s s' := by
  refine h.invariant ?_ (.refl s)
  intro s₁ s₂ hc hs
  refine hs.trans ?_
  cases hc with
  | cache _ _ => exact ⟨rfl, rfl, Nat.le_succ _, fun _ h ↦ h⟩
  | touch _ =>
    unfold touch
    split
    · exact .refl _
    · exact ⟨rfl, rfl, le_rfl, fun _ h ↦ h⟩
  | draw k' => exact ⟨rfl, rfl, le_rfl, fun _ h ↦ h.draw k'⟩
  | _ => exact ⟨rfl, rfl, le_rfl, fun _ h ↦ h⟩

theorem ref_eq_ok : s.ref o = .ok s' ↔ ∃ ob, s.objs o = some ob ∧
    0 < ob.mmoRefcount ∧ s' = s.setObj o (some { ob with mmoRefcount := ob.mmoRefcount + 1 }) := by
  simp only [ref, bind_eq_ok, follow_eq_ok, demand_eq_ok, exists_and_left, exists_const,
    pure_eq_ok]
  exact exists_congr fun ob ↦ and_congr_right fun _ ↦ and_congr_right fun _ ↦ eq_comm

theorem ref_changes (h : s.ref o = .ok s') : Changes s s' := by
  obtain ⟨ob, -, -, rfl⟩ := ref_eq_ok.mp h
  exact (Change.obj o _).changes

theorem linkVma_eq_ok : s.linkVma o a = .ok s' ↔ ∃ ob, s.objs o = some ob ∧
    s' = s.setObj o (some { ob with mmoVmas := a :: ob.mmoVmas }) := by
  simp only [linkVma, bind_eq_ok, follow_eq_ok, pure_eq_ok]
  exact exists_congr fun ob ↦ and_congr_right fun _ ↦ eq_comm

theorem linkVma_changes (h : s.linkVma o a = .ok s') : Changes s s' := by
  obtain ⟨ob, -, rfl⟩ := linkVma_eq_ok.mp h
  exact (Change.obj o _).changes

theorem linkBottom_changes {bottom : ObjId} (h : s.linkBottom o bottom a = .ok s') :
    Changes s s' := by
  unfold linkBottom at h
  split at h
  · cases h
    exact .refl
  · exact linkVma_changes h

theorem unlinkVma_changes (s : Mem) (a : AreaId) (olink : Option ObjId) :
    Changes s (s.unlinkVma a olink) := by
  cases olink with
  | none => exact .refl
  | some o => exact (Change.obj o _).changes

theorem shadowOver_cases {under : ObjId} (h : s.shadowOver under = .ok (s', o)) :
    s.grants .shadow = true ∧ o = s.next ∧ ∃ b,
      ((s.draw .shadow).bump.setObj s.next
        (some { mmoOps := .shadow, mmoRefcount := 1 })).bottomObj under = .ok b ∧
      s' = (s.draw .shadow).bump.setObj s.next (some
        { mmoOps := .shadow, mmoRefcount := 1, mmoShadowed := some under
          mmoBottomObj := some b }) := by
  unfold shadowOver shadowCreate at h
  cases hg : s.grants .shadow with
  | false =>
    rw [hg] at h
    cases h
  | true =>
    rw [hg] at h
    obtain ⟨o', ho', h⟩ := bind_ok h
    cases ho'
    obtain ⟨b, hb, h⟩ := bind_ok h
    rw [setObj_objs, update_self, follow_bind] at h
    cases h
    exact ⟨rfl, rfl, b, hb, by simp [setObj]⟩

/-! ## Removal -/

section Remove

variable [Layout] {lo hi : ℕ}

theorem dropArea_maps (hm : s.maps m = some mp) (h : s.dropArea m a vma = .ok s') :
    s'.areas = update s.areas a none ∧
      s'.maps = update s.maps m (some { mp with vmmList := mp.vmmList.erase a }) ∧
      s.next ≤ s'.next ∧ ∀ k, s.NoFailure k → s'.NoFailure k := by
  obtain ⟨o, -, h⟩ := bind_ok h
  obtain ⟨s₁, hput, h⟩ := bind_ok h
  obtain ⟨mp', hmp', h⟩ := bind_ok h
  have hs' := pure_eq_ok.mp h
  have hsame := (put_changes hput).sameMaps.trans (unlinkVma_changes s₁ a vma.vmaOlink).sameMaps
  rw [follow_eq_ok, hsame.maps, hm] at hmp'
  cases hmp'
  rw [← hs']
  exact ⟨by simp [hsame.areas], by simp [hsame.maps], hsame.next, hsame.noFailure⟩

/-- What splitting an area does to areas and maps: nothing without memory; otherwise
the left part is a new area before the old one, which becomes the right part. -/
theorem splitArea_maps (hm : s.maps m = some mp) (h : s.splitArea m lo hi a vma = .ok s') :
    (s.grants .vmarea = false ∧ s' = s.draw .vmarea) ∨
    (s.grants .vmarea = true ∧ ∃ olink,
      s'.areas = update (update s.areas s.next
          (some (vma.left lo olink))) a (some (vma.right lo hi)) ∧
      s'.maps = update s.maps m
        (some { mp with vmmList := insertBefore a s.next mp.vmmList }) ∧
      s.next < s'.next ∧ ∀ k, s.NoFailure k → s'.NoFailure k) := by
  unfold splitArea vmareaAlloc at h
  cases hg : s.grants .vmarea with
  | false =>
    rw [hg] at h
    exact .inl ⟨rfl, (pure_eq_ok.mp h).symm⟩
  | true =>
    rw [hg] at h
    refine .inr ⟨rfl, ?_⟩
    obtain ⟨o, -, h⟩ := bind_ok h
    obtain ⟨s₁, href, h⟩ := bind_ok h
    obtain ⟨mp', hmp', h⟩ := bind_ok h
    obtain ⟨bottom, -, h⟩ := bind_ok h
    obtain ⟨s₂, hlink, h⟩ := bind_ok h
    have hs' := pure_eq_ok.mp h
    have hs₁ := (ref_changes href).sameMaps
    have hs₂ := (linkBottom_changes hlink).sameMaps
    rw [follow_eq_ok, hs₁.maps] at hmp'
    cases hm.symm.trans hmp'
    rw [← hs']
    refine ⟨if bottom = o then none else some bottom, ?_, ?_, ?_, ?_⟩
    · simp [hs₂.areas, hs₁.areas, VmArea.left, VmArea.right]
    · simp [hs₂.maps, hs₁.maps]
    · exact (Nat.lt_succ_self _).trans_le (hs₁.next.trans hs₂.next)
    · intro k hk
      exact hs₂.noFailure k (hs₁.noFailure k (hk.draw .vmarea))

/-- The loop of `vmmap_remove` has turned the areas `l` into `post`, behind those of
`pre`, which it had been through already. -/
structure Removed (m : MapId) (lo hi : ℕ) (mp : Vmmap) (pre l post : List AreaId) (ok : Bool)
    (s s' : Mem) : Prop where
  maps : s'.maps = update s.maps m (some { mp with vmmList := pre ++ post })
  nodup : (pre ++ post).Nodup
  segs : s'.segs post = Segs.remove lo hi ok (s.segs l)
  ok : s.NoFailure .vmarea → ok = true
  live : ∀ a ∈ post, a < s'.next ∧ ∃ vma, s'.areas a = some vma ∧ vma.vmaVmmap = some m
  mem : ∀ a ∈ post, a ∈ l ∨ s.next ≤ a
  areas : ∀ a ∉ l, a < s.next → s'.areas a = s.areas a
  fresh : (∀ a vma, s.areas a = some vma → a < s.next) →
    ∀ a vma, s'.areas a = some vma → a < s'.next
  next : s.next ≤ s'.next
  noFailure : ∀ k, s.NoFailure k → s'.NoFailure k

theorem insertBefore_append {pre : List AreaId} {b : AreaId} (h : a ∉ pre) :
    insertBefore a b (pre ++ a :: l) = pre ++ b :: a :: l := by
  induction pre with
  | nil => simp [insertBefore]
  | cons x pre ih =>
    rw [List.mem_cons, not_or] at h
    rw [List.cons_append, insertBefore, if_neg (Ne.symm h.1), ih h.2, List.cons_append]

namespace Removed

variable {pre post : List AreaId} {ok : Bool} {vma₁ : VmArea} {s₁ : Mem}

/-- The turn has kept the area, perhaps shortened. -/
theorem keep (ha : s.areas a = some vma) (hal : a ∉ l) (hlt : a < s.next)
    (hcut : vma.seg.cut lo hi = [vma₁.seg]) (hsur : ¬ vma.seg.Surrounds lo hi)
    (hm₁ : vma₁.vmaVmmap = some m)
    (h : Removed m lo hi mp (pre ++ [a]) l post ok (s.setArea a (some vma₁)) s') :
    Removed m lo hi mp pre (a :: l) (a :: post) ok s s' := by
  have ha' : s'.areas a = some vma₁ := (h.areas a hal hlt).trans (by simp)
  refine ⟨?_, ?_, ?_, h.ok, ?_, ?_, ?_, ?_, h.next, h.noFailure⟩
  · simpa using h.maps
  · simpa using h.nodup
  · have hl : (s.setArea a (some vma₁)).segs l = s.segs l :=
      segs_congr fun b hb ↦ by simp [ne_of_mem_of_not_mem hb hal]
    rw [segs_cons ha', segs_cons ha, h.segs, hl, Segs.remove, if_neg hsur, hcut,
      List.singleton_append]
  · intro b hb
    rcases List.mem_cons.mp hb with rfl | hb
    · exact ⟨hlt.trans_le h.next, vma₁, ha', hm₁⟩
    · exact h.live b hb
  · intro b hb
    rcases List.mem_cons.mp hb with rfl | hb
    · exact .inl List.mem_cons_self
    · exact (h.mem b hb).imp_left (List.mem_cons_of_mem _)
  · intro b hb hbn
    rw [List.mem_cons, not_or] at hb
    rw [h.areas b hb.2 hbn, setArea_areas, update_of_ne hb.1]
  · intro hfresh
    refine h.fresh fun b vb hb ↦ ?_
    rcases eq_or_ne b a with rfl | hne
    · exact hlt
    · exact hfresh b vb (by simpa [hne] using hb)

section

variable (ha : s.areas a = some vma) (hnodup : (pre ++ a :: l).Nodup)
  (hlt : ∀ b ∈ pre ++ a :: l, b < s.next)
include ha hnodup hlt

theorem drop (hcut : vma.seg.cut lo hi = []) (hsur : ¬ vma.seg.Surrounds lo hi)
    (hs₁ : s₁.areas = update s.areas a none)
    (hmaps : s₁.maps = update s.maps m (some { mp with vmmList := pre ++ l }))
    (hnext : s.next ≤ s₁.next) (hfail : ∀ k, s.NoFailure k → s₁.NoFailure k)
    (h : Removed m lo hi { mp with vmmList := pre ++ l } pre l post ok s₁ s') :
    Removed m lo hi mp pre (a :: l) post ok s s' := by
  have hal : a ∉ l := (List.nodup_cons.mp (List.nodup_append.mp hnodup).2.1).1
  refine ⟨?_, h.nodup, ?_, fun hf ↦ h.ok (hfail _ hf), h.live, ?_, ?_, ?_, hnext.trans h.next,
    fun k hk ↦ h.noFailure k (hfail k hk)⟩
  · rw [h.maps, hmaps, update_idem]
  · have hl : s₁.segs l = s.segs l :=
      segs_congr fun b hb ↦ by simp [hs₁, ne_of_mem_of_not_mem hb hal]
    rw [segs_cons ha, h.segs, hl, Segs.remove, if_neg hsur, hcut, List.nil_append]
  · exact fun b hb ↦ (h.mem b hb).imp (List.mem_cons_of_mem _) hnext.trans
  · intro b hb hbn
    rw [List.mem_cons, not_or] at hb
    rw [h.areas b hb.2 (hbn.trans_le hnext), hs₁, update_of_ne hb.1]
  · intro hfresh
    refine h.fresh fun b vb hb ↦ ?_
    rcases eq_or_ne b a with rfl | hne
    · simp [hs₁] at hb
    · exact (hfresh b vb (by simpa [hs₁, hne] using hb)).trans_le hnext

variable (hlist : mp.vmmList = pre ++ a :: l)
  (hlive : ∀ b ∈ a :: l, ∃ vb, s.areas b = some vb ∧ vb.vmaVmmap = some m)
  (hsur : vma.seg.Surrounds lo hi)
include hlist hlive hsur

/-- The turn has split the area, and the loop has returned. -/
theorem split (hlohi : lo < hi) (hav : ¬ vma.Avoids lo hi) {olink : Option ObjId}
    (hareas : s'.areas = update (update s.areas s.next
        (some (vma.left lo olink))) a (some (vma.right lo hi)))
    (hmaps : s'.maps = update s.maps m
      (some { mp with vmmList := insertBefore a s.next mp.vmmList }))
    (hnext : s.next < s'.next) (hfail : ∀ k, s.NoFailure k → s'.NoFailure k) :
    Removed m lo hi mp pre (a :: l) (s.next :: a :: l) true s s' := by
  have hal : a ∉ l := (List.nodup_cons.mp (List.nodup_append.mp hnodup).2.1).1
  have hapre : a ∉ pre := fun hin ↦
    (List.nodup_append.mp hnodup).2.2 a hin a List.mem_cons_self rfl
  have hnew : ∀ b ∈ pre ++ a :: l, b ≠ s.next := fun b hb ↦ (hlt b hb).ne
  have hold : ∀ b, b ≠ a → b ≠ s.next → s'.areas b = s.areas b := fun b hba hbn ↦ by
    rw [hareas, update_of_ne hba, update_of_ne hbn]
  have hleft : s'.areas s.next = some (vma.left lo olink) := by
    rw [hareas, update_of_ne (hnew a (by simp)).symm, update_self]
  have hright : s'.areas a = some (vma.right lo hi) := by
    rw [hareas, update_self]
  obtain ⟨vma', hvma', hmap⟩ := hlive a List.mem_cons_self
  cases ha.symm.trans hvma'
  refine ⟨?_, ?_, ?_, fun _ ↦ rfl, ?_, ?_, ?_, ?_, hnext.le, hfail⟩
  · rw [hmaps, hlist, insertBefore_append hapre]
  · rw [List.nodup_append] at hnodup ⊢
    refine ⟨hnodup.1, List.nodup_cons.mpr ⟨?_, hnodup.2.1⟩, ?_⟩
    · exact fun hin ↦ hnew s.next (List.mem_append_right _ hin) rfl
    · rintro x hx _ hy rfl
      rcases List.mem_cons.mp hy with rfl | hy
      · exact hnew _ (List.mem_append_left _ hx) rfl
      · exact hnodup.2.2 x hx x hy rfl
  · have hsegl : s'.segs l = s.segs l := segs_congr fun b hb ↦
      hold b (ne_of_mem_of_not_mem hb hal) (hnew b (by simp [hb]))
    have hoff : vma.vmaOff + (lo - vma.vmaStart) + (hi - lo) =
        vma.vmaOff + (hi - vma.vmaStart) := by
      have hstart : vma.vmaStart < lo := hsur.1
      omega
    rw [segs_cons hleft, segs_cons hright, hsegl, segs_cons ha, Segs.remove, if_pos hsur,
      if_pos rfl, VmArea.cut_seg_split hav hsur.1 hsur.2, VmArea.right, hoff]
    rfl
  · intro b hb
    rcases List.mem_cons.mp hb with rfl | hb
    · exact ⟨hnext, _, hleft, hmap⟩
    refine ⟨(hlt b (List.mem_append_right _ hb)).trans hnext, ?_⟩
    rcases List.mem_cons.mp hb with rfl | hbl
    · exact ⟨_, hright, hmap⟩
    · obtain ⟨vb, hvb, hbm⟩ := hlive b hb
      exact ⟨vb, (hold b (ne_of_mem_of_not_mem hbl hal)
        (hnew b (List.mem_append_right _ hb))).trans hvb, hbm⟩
  · exact fun b hb ↦ (List.mem_cons.mp hb).symm.imp_right fun heq ↦ heq.ge
  · intro b hb hbn
    exact hold b (fun hba ↦ hb (hba ▸ List.mem_cons_self)) hbn.ne
  · intro hfresh b vb hb
    rcases eq_or_ne b s.next with rfl | hbn
    · exact hnext
    rcases eq_or_ne b a with rfl | hba
    · exact (hlt b (by simp)).trans hnext
    · exact (hfresh b vb ((hold b hba hbn) ▸ hb)).trans hnext

theorem stop (hm : s.maps m = some mp) (hg : s.grants .vmarea = false) :
    Removed m lo hi mp pre (a :: l) (a :: l) false s (s.draw .vmarea) := by
  refine ⟨?_, hnodup, ?_, ?_, ?_, fun _ ↦ .inl, fun _ _ _ ↦ rfl, fun hf ↦ hf, le_rfl,
    fun k hk ↦ hk.draw _⟩
  · rw [← hlist, ← hm, draw_maps, update_eq_self]
  · rw [segs_cons ha, Segs.remove, if_pos hsur, if_neg Bool.false_ne_true, ← segs_cons ha]
    rfl
  · intro hf
    rw [hf.grants] at hg
    cases hg
  · intro b hb
    exact ⟨hlt b (List.mem_append_right _ hb), hlive b hb⟩

end

end Removed

/-- **The loop of `vmmap_remove`** removes the range from the segments of the areas it
goes through. -/
theorem removeLoop_removed (hlohi : lo < hi) : ∀ {l} (pre : List AreaId) {s s' : Mem}
    {mp : Vmmap}, s.maps m = some mp → mp.vmmList = pre ++ l → (pre ++ l).Nodup →
    (∀ a ∈ pre ++ l, a < s.next) →
    (∀ a ∈ l, ∃ vma, s.areas a = some vma ∧ vma.vmaVmmap = some m) →
    removeLoop m lo hi l s = .ok s' →
    ∃ post ok, Removed m lo hi mp pre l post ok s s' := by
  intro l
  induction l with
  | nil =>
    intro pre s s' mp hm hlist hnodup hlt _ h
    cases h
    refine ⟨[], true, ?_, hnodup, rfl, fun _ ↦ rfl, nofun, nofun, fun _ _ _ ↦ rfl,
      fun hf ↦ hf, le_rfl, fun _ hf ↦ hf⟩
    rw [← hlist, ← hm, update_eq_self]
  | cons a l ih =>
    intro pre s s' mp hm hlist hnodup hlt hlive h
    obtain ⟨vma, hvma, hmap⟩ := hlive a List.mem_cons_self
    have hal : a ∉ l := (List.nodup_cons.mp (List.nodup_append.mp hnodup).2.1).1
    have hapre : a ∉ pre := fun hin ↦
      (List.nodup_append.mp hnodup).2.2 a hin a List.mem_cons_self rfl
    have halt : a < s.next := hlt a (by simp)
    -- the hypotheses of the induction for a turn that keeps the area as `vma₁`
    have hkeep : ∀ vma₁ : VmArea, vma₁.vmaVmmap = some m →
        vma.seg.cut lo hi = [vma₁.seg] → ¬ vma.seg.Surrounds lo hi →
        removeLoop m lo hi l (s.setArea a (some vma₁)) = .ok s' →
        ∃ post ok, Removed m lo hi mp pre (a :: l) post ok s s' := by
      intro vma₁ hm₁ hcut hsur h
      have hl : ∀ b ∈ l, ∃ vb, (s.setArea a (some vma₁)).areas b = some vb ∧
          vb.vmaVmmap = some m := by
        intro b hb
        obtain ⟨vb, hvb, hbm⟩ := hlive b (List.mem_cons_of_mem _ hb)
        exact ⟨vb, by simpa [ne_of_mem_of_not_mem hb hal] using hvb, hbm⟩
      obtain ⟨post, ok, hpost⟩ := ih (pre ++ [a])
        (by simpa using hm) (by simpa using hlist) (by simpa using hnodup)
        (by simpa using hlt) hl h
      exact ⟨a :: post, ok, hpost.keep hvma hal halt hcut hsur hm₁⟩
    unfold removeLoop at h
    rw [hvma, follow_bind] at h
    split at h
    · next hav =>
      have hself : s.setArea a (some vma) = s := by rw [setArea, ← hvma, update_eq_self]
      refine hkeep vma hmap (if_pos hav) ?_ (hself.symm ▸ h)
      rintro ⟨h₁, h₂⟩
      rcases hav with hav | hav
      · exact absurd (hav.trans_lt h₁) hlohi.not_gt
      · exact absurd (h₂.trans_le hav) hlohi.not_gt
    next hmeets =>
    split at h
    · next hsur =>
      rcases splitArea_maps hm h with ⟨hg, rfl⟩ | ⟨-, olink, hareas, hmaps, hnext, hfail⟩
      · exact ⟨a :: l, false, .stop hvma hnodup hlt hlist hlive hsur hm hg⟩
      · exact ⟨s.next :: a :: l, true, .split hvma hnodup hlt hlist hlive hsur hlohi hmeets
          hareas hmaps hnext hfail⟩
    next hsur =>
    have hsur' : ¬ vma.seg.Surrounds lo hi := hsur
    split at h
    · next hlo =>
      exact hkeep { vma with vmaEnd := lo } hmap
        (VmArea.cut_seg_below hmeets hlo fun hhi ↦ hsur ⟨hlo, hhi⟩) hsur' h
    next hlo =>
    split at h
    · next hhi =>
      exact hkeep { vma with vmaStart := hi, vmaOff := vma.vmaOff + (hi - vma.vmaStart) } hmap
        (VmArea.cut_seg_above hmeets hlo hhi) hsur' h
    next hhi =>
    obtain ⟨s₁, hdrop, h⟩ := bind_ok h
    obtain ⟨hareas, hmaps, hnext, hfail⟩ := dropArea_maps hm hdrop
    have herase : mp.vmmList.erase a = pre ++ l := by
      rw [hlist, List.erase_append_right _ hapre, List.erase_cons_head]
    rw [herase] at hmaps
    have hnodup' : (pre ++ l).Nodup := herase ▸ hlist ▸ hnodup.erase a
    have hsub : ∀ b ∈ pre ++ l, b ∈ pre ++ a :: l := by
      intro b hb
      rcases List.mem_append.mp hb with hb | hb
      · exact List.mem_append_left _ hb
      · exact List.mem_append_right _ (List.mem_cons_of_mem _ hb)
    have hm₁ : s₁.maps m = some { mp with vmmList := pre ++ l } := by rw [hmaps, update_self]
    obtain ⟨post, ok, hpost⟩ := ih pre hm₁ rfl hnodup'
      (fun b hb ↦ (hlt b (hsub b hb)).trans_le hnext)
      (fun b hb ↦ by
        obtain ⟨vb, hvb, hbm⟩ := hlive b (List.mem_cons_of_mem _ hb)
        exact ⟨vb, by rw [hareas, update_of_ne (ne_of_mem_of_not_mem hb hal), hvb], hbm⟩) h
    exact ⟨post, ok, hpost.drop hvma hnodup hlt (VmArea.cut_seg_inside hmeets hlo hhi) hsur'
      hareas hmaps hnext hfail⟩

end Remove

/-! ## Insertion and search -/

section Insert

variable [Layout]

theorem segs_insertSorted {v : VmArea} (hl : ∀ x ∈ l, ∃ vx, s.areas x = some vx)
    (hs' : ∀ x ∈ l, s'.areas x = s.areas x) (ha : s'.areas a = some v) :
    s'.segs (s.insertSorted v.vmaStart a l) = Segs.insert v.seg (s.segs l) := by
  induction l with
  | nil => rw [insertSorted, segs_cons ha]; rfl
  | cons x l ih =>
    obtain ⟨vx, hvx⟩ := hl x List.mem_cons_self
    have hx' : s'.areas x = some vx := (hs' x List.mem_cons_self).trans hvx
    have hl' : s'.segs l = s.segs l := segs_congr fun y hy ↦ hs' y (List.mem_cons_of_mem _ hy)
    rw [segs_cons hvx, insertSorted, Segs.insert, hvx]
    by_cases hlt : v.vmaStart < vx.vmaStart
    · have hseg : v.seg.lo < vx.seg.lo := hlt
      simp only [Option.any_some, hlt, decide_true, if_true, if_pos hseg]
      rw [segs_cons ha, segs_cons hx', hl']
    · have hseg : ¬ v.seg.lo < vx.seg.lo := hlt
      simp only [Option.any_some, hlt, decide_false, Bool.false_eq_true, if_false, if_neg hseg]
      rw [segs_cons hx', ih (fun y hy ↦ hl y (List.mem_cons_of_mem _ hy))
        fun y hy ↦ hs' y (List.mem_cons_of_mem _ hy)]

variable {start : ℕ}

theorem mem_insertSorted {x : AreaId} : x ∈ s.insertSorted start a l ↔ x = a ∨ x ∈ l := by
  induction l with
  | nil => simp [insertSorted]
  | cons y l ih =>
    unfold insertSorted
    split
    · exact List.mem_cons
    · rw [List.mem_cons, ih, List.mem_cons]
      exact or_left_comm

theorem nodup_insertSorted (h : l.Nodup) (ha : a ∉ l) : (s.insertSorted start a l).Nodup := by
  induction l with
  | nil => exact List.nodup_singleton a
  | cons y l ih =>
    rw [List.mem_cons, not_or] at ha
    rw [List.nodup_cons] at h
    unfold insertSorted
    split
    · exact List.nodup_cons.mpr ⟨fun hin ↦ (List.mem_cons.mp hin).elim ha.1 ha.2,
        List.nodup_cons.mpr h⟩
    · refine List.nodup_cons.mpr ⟨?_, ih h.2 ha.2⟩
      rw [mem_insertSorted, not_or]
      exact ⟨Ne.symm ha.1, h.1⟩

theorem vmmapInsert_eq_ok : s.vmmapInsert m a = .ok s' ↔ ∃ mp vma, s.maps m = some mp ∧
    s.areas a = some vma ∧ vma.vmaVmmap = none ∧ vma.vmaStart < vma.vmaEnd ∧
    (lowPage ≤ vma.vmaStart ∧ vma.vmaEnd ≤ highPage) ∧
    s' = (s.setArea a (some { vma with vmaVmmap := some m })).setMap m
      (some { mp with vmmList := s.insertSorted vma.vmaStart a mp.vmmList }) := by
  simp only [vmmapInsert, bind_eq_ok, follow_eq_ok, demand_eq_ok, exists_and_left, exists_const,
    pure_eq_ok]
  refine exists_congr fun mp ↦ and_congr_right fun _ ↦ exists_congr fun vma ↦ ?_
  simp only [and_congr_right_iff]
  intros
  exact eq_comm

variable {npages : ℕ}

theorem vmmapIsRangeEmpty_eq_ok {b : Bool}
    (h : s.vmmapIsRangeEmpty m start npages = .ok b) (hm : s.maps m = some mp) :
    (start < (start + npages) % 2 ^ 32 ∧ lowPage ≤ start ∧
      (start + npages) % 2 ^ 32 ≤ highPage) ∧
    (b = true ↔ ∀ g ∈ s.segs mp.vmmList, g.Avoids start ((start + npages) % 2 ^ 32)) := by
  obtain ⟨hrange, h⟩ := bind_demand h
  rw [hm, follow_bind] at h
  refine ⟨hrange, ?_⟩
  rw [← pure_eq_ok.mp h, List.all_eq_true]
  constructor
  · intro hall g hg
    obtain ⟨a, ha, vma, hvma, rfl⟩ := mem_segs.mp hg
    have := hall a ha
    rw [hvma, Option.all_some, decide_eq_true_eq] at this
    exact this
  · intro hall a ha
    cases hvma : s.areas a with
    | none => rfl
    | some vma =>
      rw [Option.all_some, decide_eq_true_eq]
      exact hall vma.seg (mem_segs.mpr ⟨a, ha, vma, hvma, rfl⟩)

theorem highPage_lt : highPage < 2 ^ 20 := by
  have h := Layout.high_le
  have hp : pnToAddr highPage = userMemHigh := pnToAddr_highPage
  unfold pnToAddr pageSize at hp
  omega

theorem range_mod {lo n : ℕ} (hhigh : lo + n ≤ highPage) : (lo + n) % 2 ^ 32 = lo + n := by
  have := highPage_lt
  omega

theorem vmmapIsRangeEmpty_eq {lo n : ℕ} (hm : s.maps m = some mp) (hn : 0 < n)
    (hlow : lowPage ≤ lo) (hhigh : lo + n ≤ highPage) :
    ∃ b, s.vmmapIsRangeEmpty m lo n = .ok b ∧
      (b = true ↔ ∀ g ∈ s.segs mp.vmmList, g.Avoids lo (lo + n)) := by
  obtain ⟨b, hb⟩ : ∃ b, s.vmmapIsRangeEmpty m lo n = .ok b := by
    refine ⟨_, bind_eq_ok.mpr ⟨(), demand_eq_ok.mpr ?_, bind_eq_ok.mpr ⟨mp, follow_eq_ok.mpr hm, rfl⟩⟩⟩
    rw [range_mod hhigh]
    exact ⟨by omega, hlow, hhigh⟩
  have hiff := (vmmapIsRangeEmpty_eq_ok hb hm).2
  rw [range_mod hhigh] at hiff
  exact ⟨b, hb, hiff⟩

variable {st : ℕ}

theorem findRangeLoop_false (h : s.findRangeLoop m npages false l = .ok (some st)) :
    s.vmmapIsRangeEmpty m st npages = .ok true := by
  induction l with
  | nil => cases h
  | cons a l ih =>
    obtain ⟨vma, -, h⟩ := bind_ok h
    simp only [Bool.false_eq_true, false_and, if_false] at h
    split at h
    · obtain ⟨b, hb, h⟩ := bind_ok h
      split at h
      · next hbt =>
        cases h
        exact hbt ▸ hb
      · exact ih h
    · exact ih h

theorem findRangeLoop_true (h : s.findRangeLoop m npages true l = .ok (some st)) :
    s.vmmapIsRangeEmpty m st npages = .ok true ∨
      ∃ a l' vma, l = a :: l' ∧ s.areas a = some vma ∧
        (vma.vmaEnd + npages) % 2 ^ 32 ≤ highPage ∧ st = highPage - npages := by
  cases l with
  | nil => cases h
  | cons a l =>
    obtain ⟨vma, hvma, h⟩ := bind_follow h
    simp only [true_and] at h
    split at h
    · next hend =>
      cases h
      exact .inr ⟨a, l, vma, rfl, hvma, hend, rfl⟩
    · left
      split at h
      · obtain ⟨b, hb, h⟩ := bind_ok h
        split at h
        · next hbt =>
          cases h
          exact hbt ▸ hb
        · exact findRangeLoop_false h
      · exact findRangeLoop_false h

/-- A range that was found and lies in user memory meets no area. -/
theorem vmmapFindRange_avoids {dir : Dir} (hm : s.maps m = some mp)
    (hord : Segs.Ordered (s.segs mp.vmmList))
    (hbounds : ∀ g ∈ s.segs mp.vmmList, lowPage ≤ g.lo ∧ g.hi ≤ highPage)
    (h : s.vmmapFindRange m npages dir = .ok (some st))
    (hlow : lowPage ≤ st) (hhigh : st + npages ≤ highPage) :
    ∀ g ∈ s.segs mp.vmmList, g.Avoids st (st + npages) := by
  have hsmall := highPage_lt
  have hpos := lowPage_pos
  unfold vmmapFindRange at h
  rw [hm, follow_bind] at h
  cases dir with
  | lohi => cases h
  | hilo =>
    rcases findRangeLoop_true h with h | ⟨a, l', vma, hl, hvma, hend, rfl⟩
    · have hmod : (st + npages) % 2 ^ 32 = st + npages := Nat.mod_eq_of_lt (by omega)
      have := (vmmapIsRangeEmpty_eq_ok h hm).2.mp rfl
      rwa [hmod] at this
    · -- the range lies behind the last area
      have hlist : mp.vmmList = l'.reverse ++ [a] := by
        rw [← List.reverse_reverse mp.vmmList, hl, List.reverse_cons]
      have hsegs : s.segs mp.vmmList = s.segs l'.reverse ++ [vma.seg] := by
        rw [hlist, segs_append, segs_cons hvma, segs_nil]
      intro g hg
      have hle : g.hi ≤ vma.vmaEnd := by
        rw [hsegs] at hg hord
        exact hord.hi_le_last hg
      have hve : vma.vmaEnd ≤ highPage := (hbounds vma.seg (by simp [hsegs])).2
      rw [Nat.mod_eq_of_lt (by omega)] at hend
      exact .inr (by omega)

end Insert

end Mem

end CS402.Mm

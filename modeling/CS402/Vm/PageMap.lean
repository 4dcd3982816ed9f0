import CS402.Lib.Trans
import CS402.Vm.View

/-!
# The operations on maps refine operations on page maps

`Tidy` says that the maps are what `vmmap.c` takes them to be: lists of live areas
in user memory, sorted and disjoint.  Under it, and as long as areas can be
allocated, `vmmap_remove` removes exactly its range from the view, `vmmap_map` adds
exactly the pages of the new area, and `vmmap_clone` makes a map with the same view.
`vmmap_refines` puts this together for all sequences of calls.
-/

set_option linter.unusedSectionVars false

namespace CS402.Mm

open CS402.Lib Function Mem

section

variable [Layout]

/-- A map in good order. -/
structure TidyMap (s : Mem) (m : MapId) (mp : Vmmap) : Prop where
  nodup : mp.vmmList.Nodup
  live : ∀ a ∈ mp.vmmList, ∃ vma, s.areas a = some vma ∧ vma.vmaVmmap = some m
  ordered : Segs.Ordered (s.segs mp.vmmList)
  bounds : ∀ g ∈ s.segs mp.vmmList, lowPage ≤ g.lo ∧ g.hi ≤ highPage

/-- All maps are in good order, and no name is handed out twice. -/
structure Tidy (s : Mem) : Prop where
  freshArea : ∀ a vma, s.areas a = some vma → a < s.next
  freshMap : ∀ m mp, s.maps m = some mp → m < s.next
  map : ∀ m mp, s.maps m = some mp → TidyMap s m mp

variable {s s₁ s' : Mem} {m m' : MapId} {mp mp' : Vmmap} {a : AreaId} {vma : VmArea} {dir : Dir}
  {r : Except Errno AreaId} {lopage : ℕ}

theorem TidyMap.congr (h : TidyMap s m mp)
    (hareas : ∀ a ∈ mp.vmmList, s'.areas a = s.areas a) : TidyMap s' m mp where
  nodup := h.nodup
  live a ha := by rw [hareas a ha]; exact h.live a ha
  ordered := by rw [segs_congr hareas]; exact h.ordered
  bounds := by rw [segs_congr hareas]; exact h.bounds

theorem Tidy.sameMaps (h : Tidy s) (hs : SameMaps s s') : Tidy s' where
  freshArea a vma ha := (h.freshArea a vma (hs.areas ▸ ha)).trans_le hs.next
  freshMap m mp hm := (h.freshMap m mp (hs.maps ▸ hm)).trans_le hs.next
  map m mp hm := (h.map m mp (hs.maps ▸ hm)).congr fun a _ ↦ by rw [hs.areas]

/-- Only the map `m` and its areas have changed; the map was `mp` and is now `mp'`. -/
structure OnlyMap (m : MapId) (mp mp' : Vmmap) (s s' : Mem) : Prop where
  maps : s'.maps = update s.maps m (some mp')
  areas : ∀ a, a < s.next → a ∉ mp.vmmList → s'.areas a = s.areas a
  mem : ∀ a ∈ mp'.vmmList, a ∈ mp.vmmList ∨ s.next ≤ a
  freshArea : ∀ a vma, s'.areas a = some vma → a < s'.next
  next : s.next ≤ s'.next

namespace OnlyMap

variable {mp₀ mp₁ : Vmmap}

theorem maps_self (ho : OnlyMap m mp mp' s s') : s'.maps m = some mp' := by
  rw [ho.maps, update_self]

theorem areas_of_other (h : Tidy s) (hm : s.maps m = some mp) (ho : OnlyMap m mp mp' s s')
    (hm' : s.maps m' = some mp₀) (hne : m' ≠ m) : ∀ a ∈ mp₀.vmmList, s'.areas a = s.areas a := by
  intro a ha
  obtain ⟨vma, hvma, hmap⟩ := (h.map m' mp₀ hm').live a ha
  refine ho.areas a (h.freshArea a vma hvma) fun hin ↦ hne ?_
  obtain ⟨vma', hvma', hmap'⟩ := (h.map m mp hm).live a hin
  cases hvma.symm.trans hvma'
  exact Option.some.inj (hmap.symm.trans hmap')

theorem tidy (h : Tidy s) (hm : s.maps m = some mp) (ho : OnlyMap m mp mp' s s')
    (ht : TidyMap s' m mp') : Tidy s' where
  freshArea := ho.freshArea
  freshMap m' mp₀ hmp := by
    rw [ho.maps] at hmp
    rcases eq_or_ne m' m with rfl | hne
    · exact (h.freshMap m' mp hm).trans_le ho.next
    · rw [update_of_ne hne] at hmp
      exact (h.freshMap m' mp₀ hmp).trans_le ho.next
  map m' mp₀ hmp := by
    rw [ho.maps] at hmp
    rcases eq_or_ne m' m with rfl | hne
    · rw [update_self] at hmp
      cases hmp
      exact ht
    · rw [update_of_ne hne] at hmp
      exact (h.map m' mp₀ hmp).congr (ho.areas_of_other h hm hmp hne)

theorem refl (h : Tidy s) (hm : s.maps m = some mp) : OnlyMap m mp mp s s :=
  ⟨by rw [← hm, update_eq_self], fun _ _ _ ↦ rfl, fun _ ↦ .inl, h.freshArea, le_rfl⟩

theorem trans (h : OnlyMap m mp₀ mp₁ s s₁) (h' : OnlyMap m mp₁ mp' s₁ s') :
    OnlyMap m mp₀ mp' s s' where
  maps := by rw [h'.maps, h.maps, update_idem]
  areas a ha hnot := by
    refine (h'.areas a (ha.trans_le h.next) fun hin ↦ ?_).trans (h.areas a ha hnot)
    exact (h.mem a hin).elim hnot ha.not_ge
  mem a ha := (h'.mem a ha).elim (h.mem a) fun hge ↦ .inr (h.next.trans hge)
  freshArea := h'.freshArea
  next := h.next.trans h'.next

theorem view_of_other (h : Tidy s) (hm : s.maps m = some mp) (ho : OnlyMap m mp mp' s s')
    (hne : m' ≠ m) : s'.view m' = s.view m' := by
  funext v
  have hmaps : s'.maps m' = s.maps m' := by rw [ho.maps, update_of_ne hne]
  cases hmp : s.maps m' with
  | none => simp [view, vmmapLookup, hmaps, hmp]
  | some mp₀ =>
    rw [view_eq (hmaps.trans hmp), view_eq hmp,
      segs_congr (ho.areas_of_other h hm hmp hne)]

end OnlyMap

/-! ## `vmmap_remove` -/

/-- What `vmmap_remove` leaves, in terms of segments. -/
structure RemoveSpec (s s' : Mem) (m : MapId) (lo hi : ℕ) (mp mp' : Vmmap) (ok : Bool) : Prop where
  only : OnlyMap m mp mp' s s'
  proc : mp'.vmmProc = mp.vmmProc
  nodup : mp'.vmmList.Nodup
  live : ∀ a ∈ mp'.vmmList, ∃ vma, s'.areas a = some vma ∧ vma.vmaVmmap = some m
  segs : s'.segs mp'.vmmList = Segs.remove lo hi ok (s.segs mp.vmmList)
  ok : s.NoFailure .vmarea → ok = true
  noFailure : ∀ k, s.NoFailure k → s'.NoFailure k

theorem vmmapRemove_spec {lo n : ℕ} (h : Tidy s) (hm : s.maps m = some mp)
    (hr : s.vmmapRemove m lo n = .ok s') :
    (lo < (lo + n) % 2 ^ 32 ∧ lowPage ≤ lo ∧ (lo + n) % 2 ^ 32 ≤ highPage) ∧
      ∃ mp' ok, RemoveSpec s s' m lo ((lo + n) % 2 ^ 32) mp mp' ok := by
  obtain ⟨empty, hempty, hr⟩ := bind_ok hr
  obtain ⟨hrange, hiff⟩ := vmmapIsRangeEmpty_eq_ok hempty hm
  refine ⟨hrange, ?_⟩
  have ht := h.map m mp hm
  split at hr
  · next he =>
    -- nothing to remove: every segment survives the cut
    cases hr
    exact ⟨mp, true, .refl h hm, rfl, ht.nodup, ht.live,
      (Segs.remove_of_avoids ht.ordered (hiff.mp he)).symm, fun _ ↦ rfl, fun _ hk ↦ hk⟩
  · rw [hm, follow_bind] at hr
    obtain ⟨post, ok, hpost⟩ := removeLoop_removed hrange.1 [] hm rfl ht.nodup
      (fun a ha ↦ (ht.live a ha).elim fun vma hvma ↦ h.freshArea a vma hvma.1) ht.live hr
    exact ⟨{ mp with vmmList := post }, ok,
      ⟨hpost.maps, fun a ha hin ↦ hpost.areas a hin ha, hpost.mem, hpost.fresh h.freshArea,
        hpost.next⟩,
      rfl, hpost.nodup, fun a ha ↦ (hpost.live a ha).2, hpost.segs, hpost.ok, hpost.noFailure⟩

namespace RemoveSpec

variable {lo hi : ℕ}

theorem tidyMap (hs : RemoveSpec s s' m lo hi mp mp' true) (h : TidyMap s m mp) (hlt : lo < hi) :
    TidyMap s' m mp' where
  nodup := hs.nodup
  live := hs.live
  ordered := by rw [hs.segs]; exact h.ordered.remove hlt
  bounds g hg := by
    rw [hs.segs] at hg
    obtain ⟨t, ht, hlo, hhi, -⟩ := Segs.mem_remove h.ordered hg
    have hb := h.bounds t ht
    exact ⟨hb.1.trans hlo, hhi.trans hb.2⟩

theorem tidy (hs : RemoveSpec s s' m lo hi mp mp' true) (h : Tidy s) (hm : s.maps m = some mp)
    (hlt : lo < hi) : Tidy s' :=
  hs.only.tidy h hm (hs.tidyMap (h.map m mp hm) hlt)

theorem view_of_not_mem {ok : Bool} (hs : RemoveSpec s s' m lo hi mp mp' ok)
    (hm : s.maps m = some mp) (hlt : lo < hi) {v : ℕ} (hv : ¬ (lo ≤ v ∧ v < hi)) :
    s'.view m v = s.view m v := by
  rw [view_eq hs.only.maps_self, view_eq hm, hs.segs, Segs.lookup_remove_of_not_mem hlt hv]

theorem view_of_mem (hs : RemoveSpec s s' m lo hi mp mp' true) (h : TidyMap s m mp) {v : ℕ}
    (hv : lo ≤ v ∧ v < hi) : s'.view m v = none := by
  rw [view_eq hs.only.maps_self, hs.segs, Segs.lookup_remove_of_mem h.ordered hv]

end RemoveSpec

/-! ## `vmmap_map` -/

/-- A new area has been inserted: `s₁` is `s` with the area stored. -/
theorem vmmapInsert_new (h : Tidy s) (hm : s.maps m = some mp) (ha : s.next ≤ a)
    (hareas : s₁.areas = update s.areas a (some vma)) (hmaps : s₁.maps = s.maps)
    (hnext : a < s₁.next) (hi : s₁.vmmapInsert m a = .ok s') :
    OnlyMap m mp { mp with vmmList := s₁.insertSorted vma.vmaStart a mp.vmmList } s s' ∧
      s'.areas = update s.areas a (some { vma with vmaVmmap := some m }) ∧
      s'.segs (s₁.insertSorted vma.vmaStart a mp.vmmList) =
        Segs.insert vma.seg (s.segs mp.vmmList) ∧
      s'.next = s₁.next ∧ s'.oracle = s₁.oracle ∧
      vma.vmaStart < vma.vmaEnd ∧ lowPage ≤ vma.vmaStart ∧ vma.vmaEnd ≤ highPage := by
  obtain ⟨mp₁, vma₁, hmp₁, hvma₁, -, hlt, hbounds, rfl⟩ := vmmapInsert_eq_ok.mp hi
  rw [hmaps] at hmp₁
  cases hm.symm.trans hmp₁
  rw [hareas, update_self] at hvma₁
  cases hvma₁
  have hnew : ∀ b vb, s.areas b = some vb → b ≠ a := fun b vb hb ↦
    ((h.freshArea b vb hb).trans_le ha).ne
  have hold : ∀ x ∈ mp.vmmList, x ≠ a := fun x hx ↦
    ((h.map m mp hm).live x hx).elim fun vx hvx ↦ hnew x vx hvx.1
  have hareas' : update s₁.areas a (some { vma with vmaVmmap := some m }) =
      update s.areas a (some { vma with vmaVmmap := some m }) := by rw [hareas, update_idem]
  refine ⟨⟨?_, ?_, ?_, ?_, ?_⟩, ?_, ?_, rfl, rfl, hlt, hbounds⟩
  · show update s₁.maps m _ = _
    rw [hmaps]
  · intro b hb _
    show update s₁.areas a _ b = _
    rw [hareas', update_of_ne (hb.trans_le ha).ne]
  · exact fun b hb ↦ (mem_insertSorted.mp hb).symm.imp_right fun heq ↦ ha.trans_eq heq.symm
  · intro b vb hb
    change update s₁.areas a _ b = some vb at hb
    rw [hareas'] at hb
    rcases eq_or_ne b a with rfl | hne
    · exact hnext
    · rw [update_of_ne hne] at hb
      exact (h.freshArea b vb hb).trans (ha.trans_lt hnext)
  · exact ha.trans hnext.le
  · exact hareas'
  · have hsegs : s₁.segs mp.vmmList = s.segs mp.vmmList :=
      segs_congr fun x hx ↦ by rw [hareas, update_of_ne (hold x hx)]
    rw [← hsegs]
    refine segs_insertSorted (v := { vma with vmaVmmap := some m }) ?_ ?_ (update_self ..)
    · intro x hx
      obtain ⟨vx, hvx, -⟩ := (h.map m mp hm).live x hx
      exact ⟨vx, by rw [hareas, update_of_ne (hold x hx), hvx]⟩
    · intro x hx
      show update s₁.areas a _ x = _
      rw [update_of_ne (hold x hx)]

theorem tidyMap_insert (h : Tidy s) (hm : s.maps m = some mp) (ha : s.next ≤ a)
    (hareas : s'.areas = update s.areas a (some { vma with vmaVmmap := some m }))
    (hsegs : s'.segs (s₁.insertSorted vma.vmaStart a mp.vmmList) =
      Segs.insert vma.seg (s.segs mp.vmmList))
    (hlt : vma.vmaStart < vma.vmaEnd) (hlow : lowPage ≤ vma.vmaStart)
    (hhigh : vma.vmaEnd ≤ highPage)
    (hav : ∀ g ∈ s.segs mp.vmmList, g.Avoids vma.vmaStart vma.vmaEnd) :
    TidyMap s' m { mp with vmmList := s₁.insertSorted vma.vmaStart a mp.vmmList } := by
  have ht := h.map m mp hm
  have hold : ∀ x ∈ mp.vmmList, x ≠ a := fun x hx ↦
    (ht.live x hx).elim fun vx hvx ↦ ((h.freshArea x vx hvx.1).trans_le ha).ne
  refine ⟨nodup_insertSorted ht.nodup fun hin ↦ hold a hin rfl, ?_, ?_, ?_⟩
  · intro x hx
    rcases mem_insertSorted.mp hx with rfl | hx
    · exact ⟨_, by rw [hareas, update_self], rfl⟩
    · rw [hareas, update_of_ne (hold x hx)]
      exact ht.live x hx
  · show Segs.Ordered (s'.segs _)
    rw [hsegs]
    exact ht.ordered.insert hlt hav
  · intro g hg
    change g ∈ s'.segs _ at hg
    rw [hsegs] at hg
    rcases Segs.mem_insert.mp hg with rfl | hg
    · exact ⟨hlow, hhigh⟩
    · exact ht.bounds g hg

section Place

variable {file : Option VnodeId} {start npages off : ℕ} {prot flags : Flags}

/-- The object behind a new area is a new anonymous one or that of the file, with one more
reference. -/
theorem backing_cases {o : Option ObjId} (h : s.backing file = .ok (s', o)) :
    (o = some s.next ∧ s' = (s.draw .anon).bump.setObj s.next
      (some { mmoOps := .anon, mmoRefcount := 1 })) ∨
    (o = none ∧ (s' = s.draw .anon ∨ s' = s)) ∨
    ∃ v vn ob, s.vnodes v = some vn ∧ s.objs vn.vnMmobj = some ob ∧ o = some vn.vnMmobj ∧
      s' = s.setObj vn.vnMmobj (some { ob with mmoRefcount := ob.mmoRefcount + 1 }) := by
  cases file with
  | none =>
    have h' : (s.anonCreate.1, s.anonCreate.2) = (s', o) := Except.ok.inj h
    unfold anonCreate at h'
    split at h'
    · cases h'
      exact .inl ⟨rfl, rfl⟩
    · cases h'
      exact .inr (.inl ⟨rfl, .inl rfl⟩)
  | some v =>
    obtain ⟨vn, hvn, h⟩ := bind_follow h
    split at h
    · cases h
    · cases h
      exact .inr (.inl ⟨rfl, .inr rfl⟩)
    · obtain ⟨s₁, href, h⟩ := bind_ok h
      obtain ⟨ob, hob, -, rfl⟩ := ref_eq_ok.mp href
      cases h
      exact .inr (.inr ⟨v, vn, ob, hvn, hob, rfl, rfl⟩)

theorem backing_sameMaps {o : Option ObjId} (h : s.backing file = .ok (s', o)) : SameMaps s s' := by
  rcases backing_cases h with ⟨-, rfl⟩ | ⟨-, rfl | rfl⟩ | ⟨-, -, -, -, -, -, rfl⟩
  · exact ⟨rfl, rfl, Nat.le_succ _, fun _ hk ↦ hk.draw _⟩
  · exact ⟨rfl, rfl, le_rfl, fun _ hk ↦ hk.draw _⟩
  · exact .refl _
  · exact ⟨rfl, rfl, le_rfl, fun _ hk ↦ hk⟩

theorem shadowOver_sameMaps {under o : ObjId} (h : s.shadowOver under = .ok (s', o)) :
    SameMaps s s' := by
  obtain ⟨-, -, b, -, rfl⟩ := shadowOver_cases h
  exact ⟨rfl, rfl, Nat.le_succ _, fun _ hk ↦ hk.draw _⟩

/-- What the second half of `vmmap_map` does: with memory for the area, it gets its object,
for a private mapping a shadow object over it, and goes on the map. -/
theorem vmmapPlace_cases
    (h : s.vmmapPlace m file start npages prot flags off = .ok (s', r)) :
    (s.grants .vmarea = false ∧ r = .error .ENOMEM ∧ s' = s.draw .vmarea) ∨
    s.grants .vmarea = true ∧ r = .ok s.next ∧ ∃ s₁ under s₂ vma,
      (s.draw .vmarea).bump.backing file = .ok (s₁, under) ∧
      vma = { vmaStart := start, vmaEnd := start + npages, vmaOff := addrToPn off, vmaProt := prot
              vmaFlags := flags, vmaObj := vma.vmaObj, vmaOlink := vma.vmaOlink } ∧
      (s₂.setArea s.next (some vma)).vmmapInsert m s.next = .ok s' ∧
      ((flags.has mapPrivate = true ∧ ∃ u s₃ o ub, under = some u ∧
          s₁.shadowOver u = .ok (s₃, o) ∧ s₃.objs u = some ub ∧ vma.vmaObj = some o ∧
          vma.vmaOlink = some u ∧
          s₂ = s₃.setObj u (some { ub with mmoVmas := s.next :: ub.mmoVmas })) ∨
        (flags.has mapPrivate = false ∧ vma.vmaObj = under ∧ vma.vmaOlink = none ∧ s₂ = s₁)) := by
  unfold vmmapPlace vmareaAlloc at h
  cases hg : s.grants .vmarea with
  | false =>
    rw [hg] at h
    cases h
    exact .inl ⟨rfl, rfl, rfl⟩
  | true =>
    rw [hg] at h
    obtain ⟨⟨s₁, under⟩, hback, h⟩ := bind_ok h
    dsimp only at h
    split at h
    · next hpriv =>
      obtain ⟨u, hu, h⟩ := bind_follow h
      obtain ⟨⟨s₃, o⟩, hsh, h⟩ := bind_ok h
      obtain ⟨s₂, hlink, h⟩ := bind_ok h
      obtain ⟨ub, hub, rfl⟩ := linkVma_eq_ok.mp hlink
      obtain ⟨s₄, hins, h⟩ := bind_ok h
      cases h
      exact .inr ⟨rfl, rfl, s₁, under, _, _, hback, by rfl, hins,
        .inl ⟨hpriv, u, s₃, o, ub, hu, hsh, hub, rfl, rfl, rfl⟩⟩
    · next hpriv =>
      obtain ⟨s₂, hins, h⟩ := bind_ok h
      cases h
      exact .inr ⟨rfl, rfl, s₁, under, _, _, hback, by rfl, hins,
        .inr ⟨(Bool.not_eq_true _).mp hpriv, rfl, rfl, rfl⟩⟩

/-- What it does to areas and maps: without memory for the area nothing, and otherwise a new
area is inserted. -/
theorem vmmapPlace_maps
    (h : s.vmmapPlace m file start npages prot flags off = .ok (s', r)) :
    (s.grants .vmarea = false ∧ r = .error .ENOMEM ∧ s' = s.draw .vmarea) ∨
    (s.grants .vmarea = true ∧ r = .ok s.next ∧ ∃ (s₁ : Mem) (o olink : Option ObjId),
      s₁.areas = update s.areas s.next (some
        { vmaStart := start, vmaEnd := start + npages, vmaOff := addrToPn off, vmaProt := prot
          vmaFlags := flags, vmaObj := o, vmaOlink := olink }) ∧
      s₁.maps = s.maps ∧ s.next < s₁.next ∧ (∀ k, s.NoFailure k → s₁.NoFailure k) ∧
      s₁.vmmapInsert m s.next = .ok s') := by
  rcases vmmapPlace_cases h with hno | ⟨hg, hr, s₁, under, s₂, vma, hback, hvma, hins, hcases⟩
  · exact .inl hno
  have hs₁ := backing_sameMaps hback
  have hs₂ : SameMaps (s.draw .vmarea).bump s₂ := by
    rcases hcases with ⟨-, u, s₃, o, ub, -, hsh, -, -, -, rfl⟩ | ⟨-, -, -, rfl⟩
    · exact hs₁.trans ((shadowOver_sameMaps hsh).trans ⟨rfl, rfl, le_rfl, fun _ hk ↦ hk⟩)
    · exact hs₁
  refine .inr ⟨hg, hr, s₂.setArea s.next (some vma), vma.vmaObj, vma.vmaOlink, ?_, hs₂.maps,
    (Nat.lt_succ_self _).trans_le hs₂.next, fun k hk ↦ hs₂.noFailure k (hk.draw _), hins⟩
  rw [← hvma, setArea_areas, hs₂.areas]
  rfl

theorem makeRoom_cases {st : Option ℕ} (h : s.makeRoom m lopage npages dir = .ok (s', st)) :
    (lopage = 0 ∧ s' = s ∧ s.vmmapFindRange m npages dir = .ok st) ∨
    lopage ≠ 0 ∧ st = some lopage ∧ ∃ b, s.vmmapIsRangeEmpty m lopage npages = .ok b ∧
      (b = true ∧ s' = s ∨ s.vmmapRemove m lopage npages = .ok s') := by
  unfold makeRoom at h
  split at h
  · next h0 =>
    obtain ⟨st, hfind, h⟩ := bind_ok h
    cases h
    exact .inl ⟨h0, rfl, hfind⟩
  next h0 =>
  obtain ⟨b, hb, h⟩ := bind_ok h
  split at h
  · next htrue =>
    cases h
    exact .inr ⟨h0, rfl, b, hb, .inl ⟨htrue, rfl⟩⟩
  · obtain ⟨s₁, hrem, h⟩ := bind_ok h
    cases h
    exact .inr ⟨h0, rfl, b, hb, .inr hrem⟩

theorem vmmapMap_eq_ok
    (hs : s.vmmapMap m file lopage npages prot flags off dir = .ok (s', r)) :
    (lopage = 0 ∨ lopage + npages ≤ highPage) ∧
    ∃ s₁ st, s.makeRoom m lopage npages dir = .ok (s₁, st) ∧
      ((st = none ∧ s' = s₁ ∧ r = .error .ENOMEM) ∨
        ∃ start, st = some start ∧
          s₁.vmmapPlace m file start npages prot flags off = .ok (s', r)) := by
  obtain ⟨_, -, hs⟩ := bind_ok hs
  obtain ⟨_, -, hs⟩ := bind_ok hs
  obtain ⟨_, -, hs⟩ := bind_ok hs
  obtain ⟨hhigh, hs⟩ := bind_demand hs
  obtain ⟨_, -, hs⟩ := bind_ok hs
  obtain ⟨⟨s₁, st⟩, hroom, hs⟩ := bind_ok hs
  refine ⟨hhigh, s₁, st, hroom, ?_⟩
  cases st with
  | none =>
    cases hs
    exact .inl ⟨rfl, rfl, rfl⟩
  | some start => exact .inr ⟨start, rfl, hs⟩

/-- Room has been made at `start`: nothing is mapped there, and elsewhere the view is as
before. -/
structure RoomSpec (s s₁ : Mem) (m : MapId) (mp mp₁ : Vmmap) (lopage npages start : ℕ) : Prop where
  tidy : Tidy s₁
  maps : s₁.maps m = some mp₁
  only : OnlyMap m mp mp₁ s s₁
  avoids : lowPage ≤ start → start + npages ≤ highPage →
    ∀ g ∈ s₁.segs mp₁.vmmList, g.Avoids start (start + npages)
  view : ∀ v, ¬ (start ≤ v ∧ v < start + npages) → s₁.view m v = s.view m v
  given : lopage ≠ 0 → start = lopage
  found : lopage = 0 → s₁ = s
  noFailure : ∀ k, s.NoFailure k → s₁.NoFailure k

theorem makeRoom_spec (h : Tidy s) (hm : s.maps m = some mp)
    (hf : s.NoFailure .vmarea) (hhigh : lopage = 0 ∨ lopage + npages ≤ highPage)
    (hr : s.makeRoom m lopage npages dir = .ok (s₁, some start)) :
    ∃ mp₁, mp₁.vmmProc = mp.vmmProc ∧ RoomSpec s s₁ m mp mp₁ lopage npages start := by
  have ht := h.map m mp hm
  rcases makeRoom_cases hr with ⟨h0, rfl, hfind⟩ | ⟨h0, hst, b, hb, hcases⟩
  · exact ⟨mp, rfl, h, hm, .refl h hm, vmmapFindRange_avoids hm ht.ordered ht.bounds hfind,
      fun _ _ ↦ rfl, fun hne ↦ absurd h0 hne, fun _ ↦ rfl, fun _ hk ↦ hk⟩
  cases hst
  have hle : lopage + npages ≤ highPage := hhigh.resolve_left h0
  have hmod : (lopage + npages) % 2 ^ 32 = lopage + npages :=
    Nat.mod_eq_of_lt (by have := highPage_lt; omega)
  rcases hcases with ⟨htrue, rfl⟩ | hrem
  · have hav := (vmmapIsRangeEmpty_eq_ok hb hm).2.mp htrue
    rw [hmod] at hav
    exact ⟨mp, rfl, h, hm, .refl h hm, fun _ _ ↦ hav, fun _ _ ↦ rfl, fun _ ↦ rfl,
      fun h0' ↦ absurd h0' h0, fun _ hk ↦ hk⟩
  · obtain ⟨hrange, mp₁, ok, hs⟩ := vmmapRemove_spec h hm hrem
    cases hs.ok hf
    rw [hmod] at hrange hs
    refine ⟨mp₁, hs.proc, hs.tidy h hm hrange.1, hs.only.maps_self, hs.only, ?_, ?_, fun _ ↦ rfl,
      fun h0' ↦ absurd h0' h0, hs.noFailure⟩
    · intro _ _ g hg
      rw [hs.segs] at hg
      obtain ⟨-, -, -, -, hav, -⟩ := Segs.mem_remove ht.ordered hg
      exact hav
    · exact fun v hv ↦ hs.view_of_not_mem hm hrange.1 hv

/-- What a successful `vmmap_map` does: the pages of the new area, and only these, are
mapped to the pages of its object. -/
structure MapSpec (s s' : Mem) (m : MapId) (mp mp' : Vmmap) (lopage npages : ℕ)
    (prot flags : Flags) (off start : ℕ) (o : Option ObjId) : Prop where
  tidy : Tidy s'
  maps : s'.maps m = some mp'
  only : OnlyMap m mp mp' s s'
  bounds : lowPage ≤ start ∧ start + npages ≤ highPage
  given : lopage ≠ 0 → start = lopage
  found : lopage = 0 → ∀ v, start ≤ v ∧ v < start + npages → s.view m v = none
  view : ∀ v, s'.view m v = if start ≤ v ∧ v < start + npages then
    some (addrToPn off + (v - start), { obj := o, prot := prot, flags := flags }) else s.view m v
  noFailure : ∀ k, s.NoFailure k → s'.NoFailure k

theorem vmmapMap_spec (h : Tidy s)
    (hm : s.maps m = some mp) (hf : s.NoFailure .vmarea)
    (hr : s.vmmapMap m file lopage npages prot flags off dir = .ok (s', r)) :
    (r = .error .ENOMEM ∧ s' = s) ∨
      ∃ a mp' start o, r = .ok a ∧ mp'.vmmProc = mp.vmmProc ∧
        MapSpec s s' m mp mp' lopage npages prot flags off start o := by
  obtain ⟨hhigh, s₁, st, hroom, ⟨rfl, rfl, rfl⟩ | ⟨start, rfl, hr⟩⟩ := vmmapMap_eq_ok hr
  · -- only the search fails, and it changes nothing
    rcases makeRoom_cases hroom with ⟨-, rfl, -⟩ | ⟨-, hst, -⟩
    · exact .inl ⟨rfl, rfl⟩
    · cases hst
  · obtain ⟨mp₁, hproc, hs⟩ := makeRoom_spec h hm hf hhigh hroom
    have hf₁ := hs.noFailure _ hf
    rcases vmmapPlace_maps hr with ⟨hg, -⟩ | ⟨-, rfl, s₂, o, olink, hareas, hmaps, hnext, hfail,
      hins⟩
    · rw [hf₁.grants] at hg
      cases hg
    · obtain ⟨honly, hareas', hsegs, -, horacle, hlt, hlow, hhi⟩ :=
        vmmapInsert_new hs.tidy hs.maps le_rfl hareas hmaps hnext hins
      have hav := hs.avoids hlow hhi
      have ht' := tidyMap_insert hs.tidy hs.maps le_rfl hareas' hsegs hlt hlow hhi hav
      have hmap' := honly.maps_self
      refine .inr ⟨_, _, start, o, rfl, ?_, honly.tidy hs.tidy hs.maps ht', hmap',
        hs.only.trans honly, ⟨hlow, hhi⟩, hs.given, ?_, ?_, ?_⟩
      · exact hproc
      · intro h0 v hv
        rw [← hs.found h0, view_eq hs.maps, Segs.lookup_eq_none]
        exact fun g hg ↦ (hav g hg).at?_eq_none hv
      · intro v
        rw [view_eq hmap', hsegs]
        split
        · next hv =>
          refine Segs.lookup_insert_of_mem (by exact hv) (Segs.lookup_eq_none.mpr ?_)
          exact fun g hg ↦ (hav g hg).at?_eq_none hv
        · next hv =>
          rw [Segs.lookup_insert_of_not_mem (by exact hv), ← view_eq hs.maps, hs.view v hv]
      · intro k hk
        have hk₂ := hfail k (hs.noFailure k hk)
        unfold NoFailure at hk₂ ⊢
        rwa [horacle]

end Place

/-! ## `vmmap_clone` -/

theorem vmmapCreate_tidy (h : Tidy s) (hf : s.NoFailure .vmmap) :
    s.vmmapCreate = ((s.draw .vmmap).bump.setMap s.next (some {}), some s.next) ∧
      Tidy ((s.draw .vmmap).bump.setMap s.next (some {})) := by
  refine ⟨by rw [vmmapCreate, hf.grants]; rfl, ?_⟩
  have hmap : ∀ m mp, s.maps m = some mp → m ≠ s.next := fun m mp hm ↦ (h.freshMap m mp hm).ne
  refine ⟨fun a vma ha ↦ (h.freshArea a vma ha).trans (Nat.lt_succ_self _), ?_, ?_⟩
  · intro m mp hm
    show m < s.next + 1
    rcases eq_or_ne m s.next with rfl | hne
    · exact Nat.lt_succ_self _
    · exact (h.freshMap m mp (by simpa [hne] using hm)).trans (Nat.lt_succ_self _)
  · intro m mp hm
    rcases eq_or_ne m s.next with rfl | hne
    · rw [setMap_maps, update_self] at hm
      cases hm
      exact ⟨List.nodup_nil, nofun, .nil, nofun⟩
    · exact (h.map m mp (by simpa [hne] using hm)).congr fun _ _ ↦ rfl

/-- One after the other, the areas of `l` are copied to the end of the map `m'`. -/
theorem cloneLoop_spec {l : List AreaId} : ∀ {s s' : Mem} {mp' : Vmmap} {ok : Bool},
    Tidy s → s.maps m' = some mp' → s.NoFailure .vmarea →
    (∀ a ∈ l, a ∉ mp'.vmmList ∧ ∃ vma, s.areas a = some vma) →
    Segs.Ordered (s.segs mp'.vmmList ++ s.segs l) →
    cloneLoop m' l s = .ok (s', ok) →
    ok = true ∧ Tidy s' ∧ (∀ k, s.NoFailure k → s'.NoFailure k) ∧
      ∃ mp'', OnlyMap m' mp' mp'' s s' ∧ mp''.vmmProc = mp'.vmmProc ∧
        s'.segs mp''.vmmList = s.segs mp'.vmmList ++ s.segs l := by
  induction l with
  | nil =>
    intro s s' mp' ok ht hm _ _ _ h
    cases h
    exact ⟨rfl, ht, fun _ hk ↦ hk, mp', .refl ht hm, rfl, by simp⟩
  | cons a l ih =>
    intro s s' mp' ok ht hm hf hl hord h
    obtain ⟨hnot, vma, hvma⟩ := hl a List.mem_cons_self
    unfold cloneLoop vmareaAlloc at h
    rw [hvma, follow_bind, hf.grants] at h
    obtain ⟨o, -, h⟩ := bind_ok h
    obtain ⟨s₁, href, h⟩ := bind_ok h
    obtain ⟨s₂, hins, h⟩ := bind_ok h
    have hs₁ := (ref_changes href).sameMaps
    have hareas₁ : (s₁.setArea s.next
        (some { vma with vmaVmmap := none, vmaOlink := none })).areas =
          update s.areas s.next (some { vma with vmaVmmap := none, vmaOlink := none }) := by
      rw [setArea_areas, hs₁.areas]
      rfl
    rw [segs_cons hvma] at hord
    obtain ⟨honly, hareas, hsegs, hnext, horacle, hlt, hlow, hhi⟩ := vmmapInsert_new ht hm
      le_rfl hareas₁ (by rw [setArea_maps, hs₁.maps]; rfl)
      ((Nat.lt_succ_self _).trans_le hs₁.next) hins
    have hpair := List.pairwise_append.mp hord.pairwise
    have hbefore : ∀ g ∈ s.segs mp'.vmmList, g.hi ≤ vma.seg.lo := fun g hg ↦
      hpair.2.2 g hg vma.seg List.mem_cons_self
    have hproper : ∀ g ∈ s.segs mp'.vmmList, g.lo < g.hi := fun g hg ↦
      hord.proper g (List.mem_append_left _ hg)
    -- the copy goes to the end of the list
    have hend : s₂.segs ((s₁.setArea s.next
          (some { vma with vmaVmmap := none, vmaOlink := none })).insertSorted
          vma.vmaStart s.next mp'.vmmList) = s.segs mp'.vmmList ++ [vma.seg] :=
      hsegs.trans (Segs.insert_eq_append fun g hg ↦ (hproper g hg).le.trans (hbefore g hg))
    have ht₂ : Tidy s₂ := honly.tidy ht hm
      (tidyMap_insert ht hm le_rfl hareas hsegs hlt hlow hhi fun g hg ↦ .inr (hbefore g hg))
    have hf₂ : ∀ k, s.NoFailure k → s₂.NoFailure k := by
      intro k hk
      have hk₁ := hs₁.noFailure k (hk.draw .vmarea)
      unfold NoFailure at hk₁ ⊢
      rwa [horacle]
    have hold : ∀ b ∈ l, s₂.areas b = s.areas b := by
      intro b hb
      obtain ⟨hbnot, vb, hvb⟩ := hl b (List.mem_cons_of_mem _ hb)
      exact honly.areas b (ht.freshArea b vb hvb) hbnot
    have hl₂ : s₂.segs l = s.segs l := segs_congr hold
    obtain ⟨hok, ht', hf', mp'', honly', hproc', hsegs'⟩ := ih ht₂ honly.maps_self (hf₂ _ hf)
      (fun b hb ↦ by
        obtain ⟨hbnot, vb, hvb⟩ := hl b (List.mem_cons_of_mem _ hb)
        refine ⟨fun hin ↦ ?_, vb, (hold b hb).trans hvb⟩
        exact (honly.mem b hin).elim hbnot (ht.freshArea b vb hvb).not_ge)
      (by rw [hl₂, hend, List.append_assoc]; exact hord) h
    refine ⟨hok, ht', fun k hk ↦ hf' k (hf₂ k hk), mp'', honly.trans honly', hproc', ?_⟩
    rw [hsegs', hl₂, hend, segs_cons hvma, List.append_assoc]
    rfl

/-- What `vmmap_clone` returns: a new map with the same segments; everything else is as
before. -/
structure CloneSpec (s s' : Mem) (mp mp' : Vmmap) : Prop where
  tidy : Tidy s'
  maps : s'.maps = update s.maps s.next (some mp')
  proc : mp'.vmmProc = none
  areas : ∀ a, a < s.next → s'.areas a = s.areas a
  segs : s'.segs mp'.vmmList = s.segs mp.vmmList
  noFailure : ∀ k, s.NoFailure k → s'.NoFailure k

theorem vmmapClone_spec {r : Option MapId} (h : Tidy s) (hm : s.maps m = some mp)
    (hfm : s.NoFailure .vmmap) (hfa : s.NoFailure .vmarea)
    (hr : s.vmmapClone m = .ok (s', r)) : r = some s.next ∧ ∃ mp', CloneSpec s s' mp mp' := by
  obtain ⟨hc, ht₀⟩ := vmmapCreate_tidy h hfm
  unfold vmmapClone at hr
  rw [hm, follow_bind, hc] at hr
  obtain ⟨⟨s₁, ok⟩, hloop, hr⟩ := bind_ok hr
  have hsame : ∀ l, ((s.draw .vmmap).bump.setMap s.next (some {})).segs l = s.segs l :=
    fun l ↦ segs_congr fun _ _ ↦ rfl
  have hm₀ : ((s.draw .vmmap).bump.setMap s.next (some {})).maps s.next = some {} := by
    rw [setMap_maps, update_self]
  obtain ⟨rfl, ht, hf, mp', honly, hproc, hsegs⟩ := cloneLoop_spec ht₀ hm₀ (hfa.draw .vmmap)
    (by
      intro a ha
      obtain ⟨vma, hvma, -⟩ := (h.map m mp hm).live a ha
      exact ⟨List.not_mem_nil, vma, hvma⟩)
    (by rw [hsame, hsame]; exact (h.map m mp hm).ordered) hloop
  cases hr
  refine ⟨rfl, mp', ht, ?_, hproc, ?_, ?_, fun k hk ↦ hf k (hk.draw .vmmap)⟩
  · rw [honly.maps, setMap_maps, update_idem]
    rfl
  · exact fun a ha ↦ honly.areas a (ha.trans (Nat.lt_succ_self _)) List.not_mem_nil
  · rw [hsegs, hsame, hsame]
    rfl

theorem CloneSpec.view_of_other (hs : CloneSpec s s' mp mp') (h : Tidy s) (hne : m ≠ s.next) :
    s'.view m = s.view m := by
  funext v
  have hmaps : s'.maps m = s.maps m := by rw [hs.maps, update_of_ne hne]
  cases hmp : s.maps m with
  | none => simp [view, vmmapLookup, hmaps, hmp]
  | some mp₀ =>
    rw [view_eq (hmaps.trans hmp), view_eq hmp]
    congr 1
    refine segs_congr fun a ha ↦ ?_
    obtain ⟨vma, hvma, -⟩ := (h.map m mp₀ hmp).live a ha
    exact hs.areas a (h.freshArea a vma hvma)

/-! ## All sequences of calls -/

/-- A call that creates or changes a map. -/
inductive MapEv where
  | create
  | map (m : MapId) (file : Option VnodeId) (lopage npages : ℕ) (prot flags : Flags) (off : ℕ)
      (dir : Dir)
  | remove (m : MapId) (lopage npages : ℕ)
  | clone (m : MapId)

/-- The effect of a call. -/
def mapStep (s : Mem) : MapEv → Except Fault Mem
  | .create => return s.vmmapCreate.1
  | .map m file lopage npages prot flags off dir => do
    let (s, _) ← s.vmmapMap m file lopage npages prot flags off dir
    return s
  | .remove m lopage npages => s.vmmapRemove m lopage npages
  | .clone m => do
    let (s, _) ← s.vmmapClone m
    return s

/-- No map yet, and no allocation is going to fail. -/
structure NoMaps (s : Mem) : Prop where
  areas : ∀ a, s.areas a = none
  maps : ∀ m, s.maps m = none
  noFailure : ∀ k, s.NoFailure k

omit [Layout] in
theorem noMaps_empty : NoMaps {} := ⟨fun _ ↦ rfl, fun _ ↦ rfl, fun _ ↦ nofun⟩

theorem NoMaps.tidy (h : NoMaps s) : Tidy s where
  freshArea a vma ha := by rw [h.areas a] at ha; cases ha
  freshMap m mp hm := by rw [h.maps m] at hm; cases hm
  map m mp hm := by rw [h.maps m] at hm; cases hm

theorem exists_map_of_vmmapRemove {lo n : ℕ} (h : s.vmmapRemove m lo n = .ok s') :
    ∃ mp, s.maps m = some mp := by
  obtain ⟨_, h₁, -⟩ := bind_ok h
  obtain ⟨_, -, h₁⟩ := bind_ok h₁
  obtain ⟨mp, hmp, -⟩ := bind_follow h₁
  exact ⟨mp, hmp⟩

theorem exists_map_of_vmmapMap {file : Option VnodeId} {npages off : ℕ}
    {prot flags : Flags}
    (h : s.vmmapMap m file lopage npages prot flags off dir = .ok (s', r)) :
    ∃ mp, s.maps m = some mp := by
  obtain ⟨-, s₁, st, hroom, -⟩ := vmmapMap_eq_ok h
  rcases makeRoom_cases hroom with ⟨-, -, hfind⟩ | ⟨-, -, b, hb, -⟩
  · obtain ⟨mp, hmp, -⟩ := bind_follow hfind
    exact ⟨mp, hmp⟩
  · obtain ⟨_, -, hb⟩ := bind_ok hb
    obtain ⟨mp, hmp, -⟩ := bind_follow hb
    exact ⟨mp, hmp⟩

theorem exists_map_of_vmmapClone {r : Option MapId} (h : s.vmmapClone m = .ok (s', r)) :
    ∃ mp, s.maps m = some mp := by
  obtain ⟨mp, hmp, -⟩ := bind_follow h
  exact ⟨mp, hmp⟩

/-- The maps stay tidy and the allocators without failures. -/
theorem tidy_mapStep {e : MapEv} (h : Tidy s ∧ ∀ k, s.NoFailure k) (hs : mapStep s e = .ok s') :
    Tidy s' ∧ ∀ k, s'.NoFailure k := by
  obtain ⟨ht, hf⟩ := h
  cases e with
  | create =>
    obtain ⟨hc, ht'⟩ := vmmapCreate_tidy ht (hf .vmmap)
    have hs' : s.vmmapCreate.1 = s' := pure_eq_ok.mp hs
    rw [hc] at hs'
    rw [← hs']
    exact ⟨ht', fun k ↦ (hf k).draw .vmmap⟩
  | map m file lopage npages prot flags off dir =>
    obtain ⟨⟨s₁, r⟩, hmap, hs⟩ := bind_ok hs
    cases hs
    obtain ⟨mp, hm⟩ := exists_map_of_vmmapMap hmap
    rcases vmmapMap_spec ht hm (hf .vmarea) hmap with ⟨-, rfl⟩ | ⟨_, _, _, _, -, -, hspec⟩
    · exact ⟨ht, hf⟩
    · exact ⟨hspec.tidy, fun k ↦ hspec.noFailure k (hf k)⟩
  | remove m lopage npages =>
    have hrem : s.vmmapRemove m lopage npages = .ok s' := hs
    obtain ⟨mp, hm⟩ := exists_map_of_vmmapRemove hrem
    obtain ⟨hrange, mp', ok, hspec⟩ := vmmapRemove_spec ht hm hrem
    cases hspec.ok (hf .vmarea)
    exact ⟨hspec.tidy ht hm hrange.1, fun k ↦ hspec.noFailure k (hf k)⟩
  | clone m =>
    obtain ⟨⟨s₁, r⟩, hclone, hs⟩ := bind_ok hs
    cases hs
    obtain ⟨mp, hm⟩ := exists_map_of_vmmapClone hclone
    obtain ⟨-, mp', hspec⟩ := vmmapClone_spec ht hm (hf .vmmap) (hf .vmarea) hclone
    exact ⟨hspec.tidy, fun k ↦ hspec.noFailure k (hf k)⟩

/-- **Maps refine page maps.**  In every state that calls of `vmmap_create`, `vmmap_map`,
`vmmap_remove` and `vmmap_clone` reach, if no allocation fails, the maps are in good
order, and whenever one of the next calls returns, it has changed the views exactly
as it should have. -/
theorem vmmap_refines {s₀ : Mem} {h : List MapEv} (h₀ : NoMaps s₀)
    (hr : Run (ofStep mapStep) s₀ h s) :
    (∀ m mp, s.maps m = some mp → TidyMap s m mp) ∧
    (∀ m lo n s', lo + n ≤ highPage → s.vmmapRemove m lo n = .ok s' →
      (∀ v, s'.view m v = if lo ≤ v ∧ v < lo + n then none else s.view m v) ∧
      ∀ m' ≠ m, s'.view m' = s.view m') ∧
    (∀ m file lopage npages prot flags off dir s' a,
      s.vmmapMap m file lopage npages prot flags off dir = .ok (s', .ok a) →
      ∃ start o, (lopage ≠ 0 → start = lopage) ∧
        (lopage = 0 → ∀ v, start ≤ v ∧ v < start + npages → s.view m v = none) ∧
        (∀ v, s'.view m v = if start ≤ v ∧ v < start + npages then
          some (addrToPn off + (v - start), ⟨o, prot, flags⟩) else s.view m v) ∧
        ∀ m' ≠ m, s'.view m' = s.view m') ∧
    (∀ m s' r, s.vmmapClone m = .ok (s', r) →
      ∃ m', r = some m' ∧ s'.view m' = s.view m ∧ ∀ m'' ≠ m', s'.view m'' = s.view m'') := by
  obtain ⟨ht, hf⟩ : Tidy s ∧ ∀ k, s.NoFailure k :=
    hr.invariant (I := fun s ↦ Tidy s ∧ ∀ k, s.NoFailure k) (fun _ _ _ ↦ tidy_mapStep)
      ⟨h₀.tidy, h₀.noFailure⟩
  refine ⟨ht.map, ?_, ?_, ?_⟩
  · intro m lo n s' hhigh hrem
    obtain ⟨mp, hm⟩ := exists_map_of_vmmapRemove hrem
    obtain ⟨hrange, mp', ok, hspec⟩ := vmmapRemove_spec ht hm hrem
    cases hspec.ok (hf .vmarea)
    have hmod : (lo + n) % 2 ^ 32 = lo + n :=
      Nat.mod_eq_of_lt (by have := highPage_lt; omega)
    rw [hmod] at hrange hspec
    refine ⟨fun v ↦ ?_, fun m' hne ↦ hspec.only.view_of_other ht hm hne⟩
    split
    · next hv => exact hspec.view_of_mem (ht.map m mp hm) hv
    · next hv => exact hspec.view_of_not_mem hm hrange.1 hv
  · intro m file lopage npages prot flags off dir s' a hmap
    obtain ⟨mp, hm⟩ := exists_map_of_vmmapMap hmap
    rcases vmmapMap_spec ht hm (hf .vmarea) hmap with ⟨herr, -⟩ | ⟨_, mp', start, o, -, -, hspec⟩
    · cases herr
    · exact ⟨start, o, hspec.given, hspec.found, hspec.view,
        fun m' hne ↦ hspec.only.view_of_other ht hm hne⟩
  · intro m s' r hclone
    obtain ⟨mp, hm⟩ := exists_map_of_vmmapClone hclone
    obtain ⟨rfl, mp', hspec⟩ := vmmapClone_spec ht hm (hf .vmmap) (hf .vmarea) hclone
    refine ⟨s.next, rfl, ?_, fun m'' hne ↦ hspec.view_of_other ht hne⟩
    funext v
    rw [view_eq hm, view_eq (by rw [hspec.maps, update_self]), hspec.segs]

end

/-- A map that has been created, filled, cut in two and cloned. -/
theorem vmmap_refines_cutRun :
    ∃ s mp, Run (ofStep (@mapStep .stock)) {}
        [.clone 0, .remove 0 1026 2, .map 0 none 1024 8 1 2 0 .hilo, .create] s ∧
      s.maps 0 = some mp ∧ mp.vmmList.length = 2 ∧ @TidyMap .stock s 0 mp := by
  obtain ⟨s, hs, htest⟩ := exists_of_check (f := @mapStep .stock) (s := {})
    (l := [.create, .map 0 none 1024 8 1 2 0 .hilo, .remove 0 1026 2, .clone 0])
    (p := fun s ↦ (s.maps 0).any fun mp ↦ mp.vmmList.length == 2) (by decide +kernel)
  obtain ⟨mp, hmp, hlen⟩ := (Option.any_eq_true ..).mp htest
  exact ⟨s, mp, Run.of_exec hs, hmp, beq_iff_eq.mp hlen,
    (@vmmap_refines .stock s {} _ noMaps_empty (Run.of_exec hs)).1 0 mp hmp⟩

end CS402.Mm

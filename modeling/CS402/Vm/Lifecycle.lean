import CS402.Mm.Fetch
import CS402.Vm.Space
import CS402.Vm.Syscall

/-!
# Address spaces come and go

`vmmap_destroy`, `vmmap_map`, `do_fork` and page faults keep areas and objects together
(`Held`), as `vmmap_remove` does.

A new object always takes over the reference of a slot: the anonymous object of a new
area an empty slot, a shadow object the slot of the area that it is put under.  In
`do_fork` the slots are those of the two copies of an area, and that their references
are to the same object is what `Paired` keeps through the loop.
-/

set_option linter.unusedSectionVars false

namespace CS402.Mm

open CS402.Lib Function

variable [Layout]

variable {L : ObjId → Prop} {s s₁ s' : Mem} {A : ℕ → Option ObjId} {m m' : MapId}
  {mp mp' : Vmmap} {a b : AreaId} {vma vb : VmArea} {o u q : ObjId} {ob : MmObj} {l : List AreaId}
  {cs ps : ObjId} {p c : Pid} {W : ObjId → ℕ → Prop} {f : FrameId} {w : Bool} {vaddr : ℕ}

/-! ## Destroying a map -/

theorem destroyArea_maps (hm : s.maps m = some mp) (h : Mem.destroyArea m s a = .ok s') :
    s'.areas = update s.areas a none ∧
      s'.maps = update s.maps m (some { mp with vmmList := mp.vmmList.erase a }) ∧
      s.next ≤ s'.next ∧ ∀ k, s.NoFailure k → s'.NoFailure k := by
  obtain ⟨vma, -, h⟩ := bind_ok h
  rw [hm, follow_bind] at h
  obtain ⟨o, -, h⟩ := bind_ok h
  obtain ⟨s₁, hput, h⟩ := bind_ok h
  have hs₁ := (Mem.unlinkVma_changes (s.setMap m (some { mp with
    vmmList := mp.vmmList.erase a })) a vma.vmaOlink).sameMaps.trans
      (Mem.put_changes hput).sameMaps
  rw [← pure_eq_ok.mp h]
  exact ⟨by rw [Mem.setArea_areas, hs₁.areas]; rfl, by rw [Mem.setArea_maps, hs₁.maps]; rfl,
    hs₁.next, hs₁.noFailure⟩

theorem destroyLoop_held (h : Held L s) (hL : Spare L s) (hm : s.maps m = some mp)
    (hs : mp.vmmList.foldlM (Mem.destroyArea m) s = .ok s') :
    Held L s' ∧ Spare L s' ∧ ∃ mp', s'.maps m = some mp' ∧ mp'.vmmList = [] := by
  refine foldl_rest (I := fun l s ↦ Held L s ∧ Spare L s ∧
    ∃ mp, s.maps m = some mp ∧ mp.vmmList = l) ?_ ⟨h, hL, mp, hm, rfl⟩ hs
  rintro a l s s₁ ⟨h, hL, mp, hm, hl⟩ h₁
  obtain ⟨hh₁, hL₁⟩ := destroyArea_held h hL h₁
  obtain ⟨-, hmaps, -⟩ := destroyArea_maps hm h₁
  refine ⟨hh₁, hL₁, _, by rw [hmaps, update_self], ?_⟩
  rw [hl, List.erase_cons_head]

/-- Only the tables of maps and processes have changed, and the lists of the maps with areas
not. -/
theorem Held.retable (h : Held L s) (hobjs : s'.objs = s.objs) (hframes : s'.frames = s.frames)
    (hhash : s'.pframeHash = s.pframeHash) (hvnodes : s'.vnodes = s.vnodes)
    (hareas : s'.areas = s.areas) (hnext : s.next ≤ s'.next)
    (hmaps : ∀ m mp a, s.maps m = some mp → a ∈ mp.vmmList →
      ∃ mp', s'.maps m = some mp' ∧ mp'.vmmList = mp.vmmList)
    (hproc : ∀ m mp p, s'.maps m = some mp → mp.vmmProc = some p → ∃ x, s'.procs p = some x) :
    Held L s' := by
  have hheld : s'.heldBy = s.heldBy := Mem.heldBy_congr hareas
  refine ⟨?_, ?_, ?_, ?_, ?_⟩
  · exact fun a vma ha ↦ (h.fresh a vma (hareas ▸ ha)).trans_le hnext
  · rw [hheld]
    refine h.store.same ⟨?_, ?_, hproc⟩ hobjs hframes hhash hvnodes hnext
    · exact fun u ub hub ↦ h.store.links.nodup u ub (hobjs ▸ hub)
    · intro u ub a hub ha
      obtain ⟨vma, m, mp, hvma, holink, hm, hmp, hbounds⟩ :=
        h.store.links.area u ub a (hobjs ▸ hub) ha
      obtain ⟨m₁, mp₁, hm₁, hmp₁, hmem, -⟩ := h.area a vma hvma
      cases hm.symm.trans hm₁
      obtain ⟨mp', hmp', -⟩ := hmaps m mp₁ a hmp₁ hmem
      exact ⟨vma, m, mp', hareas ▸ hvma, holink, hm, hmp', hbounds⟩
  · rw [hheld]
    exact h.swept.same (Mem.cores_congr hobjs)
  · intro a vma ha
    obtain ⟨m, mp, hm, hmp, hmem, hbounds⟩ := h.area a vma (hareas ▸ ha)
    obtain ⟨mp', hmp', hlist⟩ := hmaps m mp a hmp hmem
    exact ⟨m, mp', hm, hmp', hlist ▸ hmem, hbounds⟩
  · exact h.vnodes_of_cores (Mem.cores_congr hobjs) hvnodes

theorem Held.dropMap (h : Held L s) (hm : s.maps m = some mp) (hnil : mp.vmmList = []) :
    Held L (s.setMap m none) := by
  refine h.retable rfl rfl rfl rfl rfl le_rfl ?_ ?_
  · intro m₁ mp₁ a hmp₁ hmem
    refine ⟨mp₁, update_other ?_ hmp₁, rfl⟩
    rintro rfl
    cases hm.symm.trans hmp₁
    rw [hnil] at hmem
    cases hmem
  · intro m₁ mp₁ p hmp₁ hp
    exact h.store.links.proc m₁ mp₁ p (of_update_none hmp₁).2 hp

theorem vmmapDestroy_held (h : Held L s) (hL : Spare L s) (hs : s.vmmapDestroy m = .ok s') :
    Held L s' ∧ Spare L s' := by
  obtain ⟨mp, hm, hs⟩ := bind_follow hs
  split at hs
  · cases hs
    exact ⟨h, hL⟩
  · obtain ⟨s₁, h₁, hs⟩ := bind_ok hs
    cases hs
    obtain ⟨hh₁, hL₁, mp', hm', hnil⟩ := destroyLoop_held h hL hm h₁
    exact ⟨hh₁.dropMap hm' hnil, hL₁.congr rfl⟩

/-! ## New areas and objects -/

/-- Objects have come, or have got references and areas; pages, page directories, vnodes
and files are the same. -/
structure Kept (s s' : Mem) : Prop where
  frames : s'.frames = s.frames
  procs : s'.procs = s.procs
  vnodes : s'.vnodes = s.vnodes
  files : s'.files = s.files
  next : s.next ≤ s'.next
  noFailure : ∀ k, s.NoFailure k → s'.NoFailure k
  objs : ∀ o ob, s.objs o = some ob →
    ∃ ob', s'.objs o = some ob' ∧ ob'.Like ob ∧ ∀ a ∈ ob.mmoVmas, a ∈ ob'.mmoVmas

theorem Kept.refl (s : Mem) : Kept s s :=
  ⟨rfl, rfl, rfl, rfl, le_rfl, fun _ hk ↦ hk, fun _ ob ho ↦ ⟨ob, ho, .refl _, fun _ ha ↦ ha⟩⟩

theorem Kept.trans (h : Kept s s₁) (h' : Kept s₁ s') : Kept s s' where
  frames := h'.frames.trans h.frames
  procs := h'.procs.trans h.procs
  vnodes := h'.vnodes.trans h.vnodes
  files := h'.files.trans h.files
  next := h.next.trans h'.next
  noFailure k hk := h'.noFailure k (h.noFailure k hk)
  objs o ob ho := by
    obtain ⟨ob₁, ho₁, hl₁, hv₁⟩ := h.objs o ob ho
    obtain ⟨ob', ho', hl', hv'⟩ := h'.objs o ob₁ ho₁
    exact ⟨ob', ho', hl'.trans hl₁, fun a ha ↦ hv' a (hv₁ a ha)⟩

theorem Kept.setMaps (s : Mem) (areas : AreaId → Option VmArea) (maps : MapId → Option Vmmap) :
    Kept s { s with areas := areas, maps := maps } :=
  ⟨rfl, rfl, rfl, rfl, le_rfl, fun _ hk ↦ hk, fun _ ob ho ↦ ⟨ob, ho, .refl _, fun _ ha ↦ ha⟩⟩

theorem Kept.draw (s : Mem) (k : Allocator) : Kept s (s.draw k) :=
  ⟨rfl, rfl, rfl, rfl, le_rfl, fun _ hk ↦ hk.draw k,
    fun _ ob ho ↦ ⟨ob, ho, .refl _, fun _ ha ↦ ha⟩⟩

theorem Kept.alloc (s : Mem) (k : Allocator) : Kept s (s.draw k).bump :=
  ⟨rfl, rfl, rfl, rfl, Nat.le_succ _, fun _ hk ↦ hk.draw k,
    fun _ ob ho ↦ ⟨ob, ho, .refl _, fun _ ha ↦ ha⟩⟩

theorem Kept.setObj {ob' : MmObj} (ho : s.objs o = some ob) (hl : ob'.Like ob)
    (hv : ∀ a ∈ ob.mmoVmas, a ∈ ob'.mmoVmas) : Kept s (s.setObj o (some ob')) := by
  refine ⟨rfl, rfl, rfl, rfl, le_rfl, fun _ hk ↦ hk, fun u ub hub ↦ ?_⟩
  exact exists_update hub ho (by rintro rfl; exact ⟨hl, hv⟩) ⟨.refl _, fun _ ha ↦ ha⟩

theorem Kept.create {nob : MmObj} (k : Allocator) (hnew : s.objs s.next = none) :
    Kept s ((s.draw k).bump.setObj s.next (some nob)) := by
  refine ⟨rfl, rfl, rfl, rfl, Nat.le_succ _, fun _ hk ↦ hk.draw k, fun u ub hub ↦ ?_⟩
  refine ⟨ub, update_other ?_ hub, .refl _, fun _ ha ↦ ha⟩
  rintro rfl
  cases hnew.symm.trans hub

theorem Kept.bottomObj (h : Kept s s') (hq : s.bottomObj o = .ok q) : s'.bottomObj o = .ok q :=
  bottomObj_of_like hq fun ub hub ↦ by
    obtain ⟨ub', hub', hl, -⟩ := h.objs o ub hub
    exact ⟨ub', hub', hl⟩

theorem Kept.vnodes_ok (h : Kept s s')
    (hv : ∀ v vn, s.vnodes v = some vn → ∃ ob, s.objs vn.vnMmobj = some ob ∧ ob.mmoOps = .vnode v)
    (v : VnodeId) (vn : Vnode) (hvn : s'.vnodes v = some vn) :
    ∃ ob, s'.objs vn.vnMmobj = some ob ∧ ob.mmoOps = .vnode v := by
  obtain ⟨ob, hob, hops⟩ := hv v vn (h.vnodes ▸ hvn)
  obtain ⟨ob', hob', hl, -⟩ := h.objs _ ob hob
  exact ⟨ob', hob', hl.ops.trans hops⟩

/-- Areas and maps are the same, too. -/
structure Grows (s s' : Mem) : Prop extends Kept s s' where
  areas : s'.areas = s.areas
  maps : s'.maps = s.maps

theorem Grows.refl (s : Mem) : Grows s s := ⟨.refl s, rfl, rfl⟩

theorem Grows.trans (h : Grows s s₁) (h' : Grows s₁ s') : Grows s s' :=
  ⟨h.toKept.trans h'.toKept, h'.areas.trans h.areas, h'.maps.trans h.maps⟩

theorem backing_store {file : Option VnodeId} {r : Option ObjId} (h : Store s A)
    (hsw : Swept L s A) (ha : A a = none) (hs : s.backing file = .ok (s₁, r)) :
    Store s₁ (update A a r) ∧ Swept L s₁ (update A a r) ∧ Grows s s₁ := by
  have hself : update A a none = A := by rw [← ha, update_eq_self]
  rcases backing_cases hs with ⟨rfl, rfl⟩ | ⟨rfl, rfl | rfl⟩ | ⟨v, vn, ob, -, hob, rfl, rfl⟩
  · refine ⟨?_, hsw.create rfl h.objs.objs_next ha.symm, .create .anon h.objs.objs_next, rfl, rfl⟩
    exact h.create rfl rfl rfl rfl rfl rfl rfl (Nat.lt_succ_self _) ha.symm
      (by rw [ha, if_pos rfl]) (by rw [ha]; nofun) rfl rfl rfl rfl
  · rw [hself]
    exact ⟨h.draw _, hsw.same rfl, .draw s _, rfl, rfl⟩
  · rw [hself]
    exact ⟨h, hsw, .refl s₁⟩
  · refine ⟨h.ref hob ha, ?_, .setObj hob ⟨rfl, rfl, rfl⟩ fun _ ha ↦ ha, rfl, rfl⟩
    refine hsw.congr (Mem.cores_setObj hob rfl) fun b u hb ↦ ⟨b, ?_⟩
    rw [update_of_ne, hb]
    rintro rfl
    cases ha.symm.trans hb

/-- A shadow object `o` has been put over `u`, and has taken over the slot `a`. -/
structure Overlaid (L : ObjId → Prop) (A : ℕ → Option ObjId) (a : ℕ) (u o : ObjId)
    (s s₁ : Mem) : Prop where
  store : Store s₁ (update A a (some o))
  swept : Swept L s₁ (update A a (some o))
  grows : Grows s s₁
  bottom : ∃ q, s.bottomObj u = .ok q ∧ s₁.bottomObj o = .ok q
  below : s₁.below o = some u

theorem shadowOver_store (h : Store s A) (hsw : Swept L s A) (ha : A a = some u)
    (hs : s.shadowOver u = .ok (s₁, o)) : Overlaid L A a u o s s₁ := by
  obtain ⟨-, rfl, q, hq, rfl⟩ := Mem.shadowOver_cases hs
  obtain ⟨ub, hub⟩ := h.objs.held a u ha
  have hq' : s.bottomObj u = .ok q := by
    refine bottomObj_of_like hq fun ub' hub' ↦ ?_
    rcases update_eq_some.mp hub' with ⟨rfl, -⟩ | ⟨-, hub'⟩
    · cases h.objs.objs_next.symm.trans hub
    · exact ⟨ub', hub', .refl _⟩
  refine ⟨?_, ?_, ⟨.create .shadow h.objs.objs_next, rfl, rfl⟩, ⟨q, hq', ?_⟩, ?_⟩
  · refine h.create rfl rfl rfl rfl rfl rfl rfl (Nat.lt_succ_self _) ha.symm
      (by rw [ha]; rfl) ?_ rfl rfl rfl rfl
    intro w hw
    cases ha.symm.trans hw
    exact ⟨q, rfl, hq'⟩
  · exact hsw.create rfl h.objs.objs_next ha.symm
  · simp [Mem.bottomObj]
  · simp [Mem.below]

theorem Held.insert {x : Option ObjId} (h : Held L s) (hm : s.maps m = some mp)
    (hareas : s'.areas = update s.areas s.next (some vma))
    (hmaps : s'.maps = update s.maps m (some mp'))
    (hlist : ∀ x, x = s.next ∨ x ∈ mp.vmmList → x ∈ mp'.vmmList) (hnext : s.next < s'.next)
    (hvm : vma.vmaVmmap = some m) (hlow : lowPage ≤ vma.vmaStart) (hhigh : vma.vmaEnd ≤ highPage)
    (hobj : vma.vmaObj = x) (hstore : Store s' (update s.heldBy s.next x))
    (hswept : Swept L s' (update s.heldBy s.next x))
    (hvnodes : ∀ v vn, s'.vnodes v = some vn →
      ∃ ob, s'.objs vn.vnMmobj = some ob ∧ ob.mmoOps = .vnode v) : Held L s' := by
  have hheld : s'.heldBy = update s.heldBy s.next x := by
    rw [Mem.heldBy_update hareas, Option.bind_some, hobj]
  refine ⟨?_, hheld ▸ hstore, hheld ▸ hswept, ?_, hvnodes⟩
  · rw [hareas]
    exact lt_of_update (fun b vb hb ↦ (h.fresh b vb hb).trans hnext) hnext
  · intro b vb hb
    rw [hareas] at hb
    rw [hmaps]
    rcases of_update_some hb with ⟨rfl, rfl⟩ | ⟨-, hb⟩
    · exact ⟨m, mp', hvm, update_self .., hlist _ (.inl rfl), hlow, hhigh⟩
    · obtain ⟨m₁, mp₁, hm₁, hmp₁, hmem, hbounds⟩ := h.area b vb hb
      rcases eq_or_ne m₁ m with rfl | hne
      · cases hm.symm.trans hmp₁
        exact ⟨m₁, mp', hm₁, update_self .., hlist b (.inr hmem), hbounds⟩
      · exact ⟨m₁, mp₁, hm₁, update_other hne hmp₁, hmem, hbounds⟩

theorem Held.heldBy_next (h : Held L s) : s.heldBy s.next = none := by
  rw [Mem.heldBy, h.areas_next, Option.bind_none]

/-! ## `vmmap_map` -/

section

variable {file : Option VnodeId} {start npages off lopage : ℕ} {prot flags : Flags}
  {r : Except Errno AreaId} {dir : Dir}

theorem vmmapInsert_stored (h : (s.setArea a (some vma)).vmmapInsert m a = .ok s') :
    ∃ mp l, s.maps m = some mp ∧ (∀ x, x = a ∨ x ∈ mp.vmmList → x ∈ l) ∧
      lowPage ≤ vma.vmaStart ∧ vma.vmaEnd ≤ highPage ∧
      s' = (s.setArea a (some { vma with vmaVmmap := some m })).setMap m
        (some { mp with vmmList := l }) := by
  obtain ⟨mp, vma', hm, hvma, -, -, ⟨hlow, hhigh⟩, rfl⟩ := Mem.vmmapInsert_eq_ok.mp h
  rw [Mem.setArea_areas, update_self] at hvma
  cases hvma
  refine ⟨mp, (s.setArea a (some vma)).insertSorted vma.vmaStart a mp.vmmList, hm,
    fun x hx ↦ Mem.mem_insertSorted.mpr hx, hlow, hhigh, ?_⟩
  simp only [Mem.setArea, update_idem]

theorem vmmapPlace_held (h : Held L s)
    (hs : s.vmmapPlace m file start npages prot flags off = .ok (s', r)) : Held L s' := by
  rcases vmmapPlace_cases hs with
    ⟨-, -, rfl⟩ | ⟨-, -, s₁, under, s₃, vma, hback, -, hins, hcases⟩
  · exact h.draw _
  obtain ⟨hstore₁, hswept₁, hgrow₁⟩ := backing_store
    (h.store.draw .vmarea).bump (h.swept.same rfl) h.heldBy_next hback
  have hgrow : Grows s s₁ := .trans ⟨.alloc s .vmarea, rfl, rfl⟩ hgrow₁
  have hnext : s.next < s₁.next := (Nat.lt_succ_self _).trans_le hgrow₁.next
  rcases hcases with ⟨-, u, s₂, o, ub, rfl, hsh, hub, hobj, holink, rfl⟩ | ⟨-, hobj, -, rfl⟩
  · have hover := shadowOver_store hstore₁ hswept₁ (update_self ..) hsh
    have hstore₂ := hover.store
    have hswept₂ := hover.swept
    have hgrow₂ := hover.grows
    rw [update_idem] at hstore₂ hswept₂
    have hlink : Grows s₂ (s₂.setObj u (some { ub with mmoVmas := s.next :: ub.mmoVmas })) :=
      ⟨.setObj hub ⟨rfl, rfl, rfl⟩ fun _ ha ↦ List.mem_cons_of_mem _ ha, rfl, rfl⟩
    have hgrow := (hgrow.trans hgrow₂).trans hlink
    obtain ⟨mp, l, hm, hl, hlow, hhigh, rfl⟩ := vmmapInsert_stored hins
    have hun : s₂.Unlinked s.next :=
      hstore₂.links.unlinked (hgrow.areas ▸ h.areas_next)
    refine h.insert (hgrow.maps ▸ hm) (congrArg (update · _ _) hgrow.areas)
      (congrArg (update · _ _) hgrow.maps) hl (hnext.trans_le (hgrow₂.next.trans hlink.next)) rfl
      hlow hhigh hobj ?_ ?_ (hgrow.vnodes_ok h.vnodes)
    · -- the area is stored and on the map before it is linked
      exact ((hstore₂.setArea hun (some { vma with vmaVmmap := some m })).setMap
        (n := { mp with vmmList := l }) hm rfl).link hub hun (update_self ..) holink rfl
        (update_self ..) hlow hhigh
    · exact hswept₂.same (Mem.cores_setObj hub rfl)
  · obtain ⟨mp, l, hm, hl, hlow, hhigh, rfl⟩ := vmmapInsert_stored hins
    have hun : s₃.Unlinked s.next :=
      hstore₁.links.unlinked (hgrow.areas ▸ h.areas_next)
    exact h.insert (hgrow.maps ▸ hm) (congrArg (update · _ _) hgrow.areas)
      (congrArg (update · _ _) hgrow.maps) hl hnext rfl hlow hhigh hobj
      ((hstore₁.setArea hun _).setMap hm rfl) (hswept₁.same rfl)
      (hgrow.vnodes_ok h.vnodes)

theorem makeRoom_held {r : Option ℕ} (h : Held L s) (hL : Spare L s)
    (ht : Tidy s) (hs : s.makeRoom m lopage npages dir = .ok (s', r)) : Held L s' := by
  rcases makeRoom_cases hs with ⟨-, rfl, -⟩ | ⟨-, -, b, -, ⟨-, rfl⟩ | hrem⟩
  · exact h
  · exact h
  · exact (vmmapRemove_held h hL ht hrem).1

theorem vmmapMap_held (h : Held L s)
    (hL : Spare L s) (ht : Tidy s)
    (hs : s.vmmapMap m file lopage npages prot flags off dir = .ok (s', r)) : Held L s' := by
  obtain ⟨-, s₁, st, hroom, hcases⟩ := vmmapMap_eq_ok hs
  have h₁ := makeRoom_held h hL ht hroom
  rcases hcases with ⟨-, rfl, -⟩ | ⟨start, -, hplace⟩
  · exact h₁
  · exact vmmapPlace_held h₁ hplace

end

/-! ## `vmmap_clone` -/

theorem Tidy.maps_next (h : Tidy s) : s.maps s.next = none := by
  cases hn : s.maps s.next with
  | none => rfl
  | some mp => exact absurd (h.freshMap _ mp hn) (Nat.lt_irrefl _)

theorem vmmapCreate_held (h : Held L s) (hnew : s.maps s.next = none) : Held L s.vmmapCreate.1 := by
  unfold Mem.vmmapCreate
  split
  · refine h.retable rfl rfl rfl rfl rfl (Nat.le_succ _) ?_ ?_
    · intro m mp a hm _
      refine ⟨mp, update_other ?_ hm, rfl⟩
      rintro rfl
      cases hnew.symm.trans hm
    · intro m mp p hm hp
      rcases of_update_some hm with ⟨-, rfl⟩ | ⟨-, hm⟩
      · cases hp
      · exact h.store.links.proc m mp p hm hp
  · exact h.draw _

theorem Held.copy (h : Held L s) (ho : vma.vmaObj = some o)
    (href : (s.draw .vmarea).bump.ref o = .ok s₁)
    (hins : (s₁.setArea s.next (some { vma with
      vmaVmmap := none
      vmaOlink := none })).vmmapInsert m' s.next = .ok s') : Held L s' ∧ Kept s s' := by
  obtain ⟨ob, hob, -, rfl⟩ := Mem.ref_eq_ok.mp href
  obtain ⟨mp, l, hm, hl, hlow, hhigh, rfl⟩ := vmmapInsert_stored hins
  have hstore := (h.store.draw .vmarea).bump.ref hob h.heldBy_next
  have hun := hstore.links.unlinked h.areas_next
  have hcores : (s.setObj o (some { ob with mmoRefcount := ob.mmoRefcount + 1 })).cores = s.cores :=
    Mem.cores_setObj hob rfl
  refine ⟨h.insert hm rfl rfl hl (Nat.lt_succ_self _) rfl hlow hhigh ho
    ((hstore.setArea hun _).setMap hm rfl) ?_ (h.vnodes_of_cores hcores rfl), ?_⟩
  · refine h.swept.congr hcores fun b u hb ↦ ⟨b, ?_⟩
    rw [update_of_ne, hb]
    rintro rfl
    cases h.heldBy_next.symm.trans hb
  · have href : Kept (s.draw .vmarea).bump ((s.draw .vmarea).bump.setObj o
        (some { ob with mmoRefcount := ob.mmoRefcount + 1 })) :=
      .setObj hob ⟨rfl, rfl, rfl⟩ fun _ ha ↦ ha
    exact ((Kept.alloc s .vmarea).trans href).trans (.setMaps _ _ _)

theorem cloneLoop_held : ∀ {s : Mem} {ok : Bool}, Held L s →
    Mem.cloneLoop m' l s = .ok (s', ok) → Held L s' ∧ Kept s s' := by
  induction l with
  | nil =>
    intro s ok h hs
    cases hs
    exact ⟨h, .refl _⟩
  | cons a l ih =>
    intro s ok h hs
    obtain ⟨vma, -, hs⟩ := bind_ok hs
    unfold Mem.vmareaAlloc at hs
    cases hg : s.grants .vmarea with
    | false =>
      rw [hg] at hs
      cases hs
      exact ⟨h.draw _, .draw s _⟩
    | true =>
      rw [hg] at hs
      obtain ⟨o, ho, hs⟩ := bind_follow hs
      obtain ⟨s₁, href, hs⟩ := bind_ok hs
      obtain ⟨s₂, hins, hs⟩ := bind_ok hs
      obtain ⟨h₂, hk₂⟩ := h.copy ho href hins
      obtain ⟨h', hk'⟩ := ih h₂ hs
      exact ⟨h', hk₂.trans hk'⟩

theorem vmmapClone_held {r : Option MapId} (h : Held L s) (hnew : s.maps s.next = none)
    (hs : s.vmmapClone m = .ok (s', r)) : Held L s' ∧ Kept s s' := by
  obtain ⟨mp, -, hs⟩ := bind_ok hs
  have hcreate := vmmapCreate_held h hnew
  unfold Mem.vmmapCreate at hs hcreate
  split at hcreate
  · next hg =>
    rw [if_pos hg] at hs
    obtain ⟨⟨s₁, ok⟩, hloop, hs⟩ := bind_ok hs
    cases hs
    obtain ⟨h', hk'⟩ := cloneLoop_held hcreate hloop
    exact ⟨h', ((Kept.alloc s .vmmap).trans (.setMaps _ _ _)).trans hk'⟩
  · next hg =>
    rw [if_neg hg] at hs
    cases hs
    exact ⟨hcreate, .draw s _⟩

/-! ## `do_fork` -/

theorem Links.unlinked_of_olink (h : Links s) (ha : s.areas a = some vma)
    (holink : vma.vmaOlink = none) : s.Unlinked a := by
  intro u ub hub hin
  obtain ⟨vma', -, -, hvma', holink', -⟩ := h.area u ub a hub hin
  cases ha.symm.trans hvma'
  cases holink.symm.trans holink'

/-- What a turn of the loop of `do_fork` does with a private area `a`, its copy `b` and
their object `o`: both get a shadow object over it, and the copy is linked. -/
structure Forked (s s' : Mem) (a b : AreaId) (vma vb : VmArea) (o q cs ps : ObjId) : Prop
    extends Kept s s' where
  maps : s'.maps = s.maps
  areas : s'.areas = update (update s.areas b (some { vb with
    vmaObj := some cs
    vmaOlink := some q })) a (some { vma with vmaObj := some ps })
  obj : vma.vmaObj = some o
  bottom : s.bottomObj o = .ok q
  linked : ∃ qb, s'.objs q = some qb ∧ b ∈ qb.mmoVmas
  child : s'.bottomObj cs = .ok q ∧ s'.below cs = some o
  parent : s'.bottomObj ps = .ok q ∧ s'.below ps = some o

section

variable (ha : s.areas a = some vma) (hlook : s.vmmapLookup m' vma.vmaStart = .ok (some b))
  (hpriv : vma.vmaFlags.has mapPrivate = true) (hs : Mem.forkArea m' s a = .ok s')
include ha hlook hpriv hs

theorem forkArea_eq_ok {v : VmArea} :
    ∃ o q s₁ cs qb s₂ ps, vma.vmaObj = some o ∧ s.bottomObj o = .ok q ∧
      s.shadowOver o = .ok (s₁, cs) ∧ s₁.objs q = some qb ∧
      (s₁.areas b = some v → ((s₁.setArea b (some { v with
          vmaObj := some cs
          vmaOlink := some q })).setObj q (some { qb with
        mmoVmas := b :: qb.mmoVmas })).shadowOver o = .ok (s₂, ps)) ∧
      s' = s₂.setVmaObj a ps := by
  unfold Mem.forkArea at hs
  rw [ha, follow_bind, hlook, ok_bind, if_pos hpriv] at hs
  obtain ⟨o, ho, hs⟩ := bind_follow hs
  obtain ⟨q, hq, hs⟩ := bind_ok hs
  obtain ⟨⟨s₁, cs⟩, hcs, hs⟩ := bind_ok hs
  dsimp only at hs
  rw [follow_bind] at hs
  obtain ⟨s₂, hlink, hs⟩ := bind_ok hs
  obtain ⟨qb, hqb, rfl⟩ := Mem.linkVma_eq_ok.mp hlink
  obtain ⟨⟨s₃, ps⟩, hps, hs⟩ := bind_ok hs
  refine ⟨o, q, s₁, cs, qb, s₃, ps, ho, hq, hcs, hqb, fun hb₁ ↦ ?_,
    (pure_eq_ok.mp hs).symm⟩
  simpa [Mem.setVmaObj, Mem.setArea, Mem.setObj, hb₁] using hps

theorem forkArea_held (h : Held L s) (hb : s.areas b = some vb)
    (hab : a ≠ b) (hobj : vb.vmaObj = vma.vmaObj) (holink : vb.vmaOlink = none) :
    Held L s' ∧ ∃ o q cs ps, Forked s s' a b vma vb o q cs ps := by
  obtain ⟨o, q, s₁, cs, qb, s₃, ps, ho, hq, hcs, hqb, hps, rfl⟩ :=
    forkArea_eq_ok (v := vb) ha hlook hpriv hs
  obtain ⟨ma, mpa, hma, hmpa, hmema, hlowa, hhigha⟩ := h.area a vma ha
  obtain ⟨mb, mpb, hmb, hmpb, hmemb, hlowb, hhighb⟩ := h.area b vb hb
  -- the shadow object of the copy
  have hslot : s.heldBy b = some o := by rw [Mem.heldBy_of_area hb, hobj, ho]
  have hover := shadowOver_store h.store h.swept hslot hcs
  obtain ⟨q₁, hq₁, hbot₁⟩ := hover.bottom
  cases hq.symm.trans hq₁
  have hb₁ : s₁.areas b = some vb := by rw [hover.grows.areas, hb]
  -- the copy is stored and linked
  let vb' : VmArea := { vb with vmaObj := some cs, vmaOlink := some q }
  let s₂ := (s₁.setArea b (some vb')).setObj q (some { qb with mmoVmas := b :: qb.mmoVmas })
  have hun₁ : s₁.Unlinked b := hover.store.links.unlinked_of_olink hb₁ holink
  have hstore₂ : Store s₂ (update s.heldBy b (some cs)) :=
    (hover.store.setArea hun₁ (some vb')).link hqb hun₁ (update_self ..) rfl
      hmb (by rw [Mem.setArea_maps, hover.grows.maps, hmpb]) hlowb hhighb
  have hswept₂ : Swept L s₂ (update s.heldBy b (some cs)) :=
    hover.swept.same (Mem.cores_setObj hqb rfl)
  have hkeep₂ : Kept s₁ s₂ :=
    (Kept.setMaps s₁ (update s₁.areas b (some vb')) s₁.maps).trans
      (.setObj hqb ⟨rfl, rfl, rfl⟩
        fun _ hc ↦ List.mem_cons_of_mem _ hc)
  -- the shadow object of the area
  have hslot₂ : update s.heldBy b (some cs) a = some o := by
    rw [update_of_ne hab, Mem.heldBy_of_area ha, ho]
  have hover₃ := shadowOver_store hstore₂ hswept₂ hslot₂ (hps hb₁)
  obtain ⟨q₃, hq₃, hbot₃⟩ := hover₃.bottom
  cases ((hover.grows.toKept.trans hkeep₂).bottomObj hq).symm.trans hq₃
  have hkeep₁₃ : Kept s₁ s₃ := hkeep₂.trans hover₃.grows.toKept
  have hkeep : Kept s s₃ := hover.grows.toKept.trans hkeep₁₃
  have hareas₃ : s₃.areas = update s.areas b (some vb') := by
    rw [hover₃.grows.areas, ← hover.grows.areas]
    rfl
  have hmaps₃ : s₃.maps = s.maps := by rw [hover₃.grows.maps, ← hover.grows.maps]; rfl
  have ha₃ : s₃.areas a = some vma := by rw [hareas₃, update_of_ne hab, ha]
  have hfinal : s₃.setVmaObj a ps = s₃.setArea a (some { vma with vmaObj := some ps }) := by
    rw [Mem.setVmaObj, ha₃, Option.map_some]
  rw [hfinal]
  have hareas : (s₃.setArea a (some { vma with vmaObj := some ps })).areas =
      update (update s.areas b (some vb')) a (some { vma with vmaObj := some ps }) := by
    rw [Mem.setArea_areas, hareas₃]
  have hheld : (s₃.setArea a (some { vma with vmaObj := some ps })).heldBy =
      update (update s.heldBy b (some cs)) a (some ps) := by
    rw [Mem.heldBy_update rfl, Mem.heldBy_update hareas₃]
    rfl
  have hkeep' : Kept s (s₃.setArea a (some { vma with vmaObj := some ps })) :=
    hkeep.trans (.setMaps _ _ _)
  refine ⟨⟨?_, ?_, ?_, ?_, hkeep'.vnodes_ok h.vnodes⟩, o, q, cs, ps, ?_⟩
  · have hfresh := fun c vc hc ↦ (h.fresh c vc hc).trans_le hkeep.next
    rw [hareas]
    exact lt_of_update (lt_of_update hfresh (hfresh b vb hb)) (hfresh a vma ha)
  · rw [hheld]
    exact hover₃.store.keepArea ha₃ rfl rfl hlowa hhigha
  · rw [hheld]
    exact hover₃.swept.same rfl
  · intro c vc hc
    rw [hareas] at hc
    rw [Mem.setArea_maps, hmaps₃]
    rcases of_update_some hc with ⟨rfl, rfl⟩ | ⟨-, hc⟩
    · exact ⟨ma, mpa, hma, hmpa, hmema, hlowa, hhigha⟩
    rcases of_update_some hc with ⟨rfl, rfl⟩ | ⟨-, hc⟩
    · exact ⟨mb, mpb, hmb, hmpb, hmemb, hlowb, hhighb⟩
    · exact h.area c vc hc
  · refine ⟨hkeep', hmaps₃, hareas, ho, hq, ?_, ⟨hkeep₁₃.bottomObj hbot₁, ?_⟩,
      ⟨hbot₃, hover₃.below⟩⟩
    · obtain ⟨qb', hqb', -, hmem⟩ := hover₃.grows.objs q _ (update_self ..)
      exact ⟨qb', hqb', hmem b List.mem_cons_self⟩
    · obtain ⟨cb, hcb, hsh⟩ := below_eq_some.mp hover.below
      obtain ⟨cb', hcb', hl, -⟩ := hkeep₁₃.objs cs cb hcb
      exact below_eq_some.mpr ⟨cb', hcb', hl.shadowed.trans hsh⟩

end

/-- A map whose areas have kept their places is in good order. -/
theorem TidyMap.reshape (h : TidyMap s m mp) (hlist : mp'.vmmList = mp.vmmList)
    (hareas : ∀ a ∈ mp.vmmList, ∀ vma, s.areas a = some vma → ∃ vma', s'.areas a = some vma' ∧
      vma'.vmaVmmap = vma.vmaVmmap ∧ vma'.vmaStart = vma.vmaStart ∧ vma'.vmaEnd = vma.vmaEnd) :
    TidyMap s' m mp' := by
  have hback : ∀ a ∈ mp.vmmList, ∀ g, (s'.areas a).map VmArea.seg = some g →
      ∃ g₀, (s.areas a).map VmArea.seg = some g₀ ∧ g.lo = g₀.lo ∧ g.hi = g₀.hi := by
    intro a ha g hg
    obtain ⟨vma, hvma, -⟩ := h.live a ha
    obtain ⟨vma', hvma', -, hstart, hend⟩ := hareas a ha vma hvma
    rw [hvma', Option.map_some] at hg
    cases hg
    exact ⟨vma.seg, by rw [hvma]; rfl, hstart, hend⟩
  have hmem : ∀ g ∈ s'.segs mp'.vmmList, ∃ g₀ ∈ s.segs mp.vmmList, g.lo = g₀.lo ∧ g.hi = g₀.hi := by
    intro g hg
    rw [hlist] at hg
    obtain ⟨a, ha, hg⟩ := List.mem_filterMap.mp hg
    obtain ⟨g₀, hg₀, hsame⟩ := hback a ha g hg
    exact ⟨g₀, List.mem_filterMap.mpr ⟨a, ha, hg₀⟩, hsame⟩
  refine ⟨hlist ▸ h.nodup, ?_, ⟨?_, ?_⟩, ?_⟩
  · intro a ha
    rw [hlist] at ha
    obtain ⟨vma, hvma, hm⟩ := h.live a ha
    obtain ⟨vma', hvma', hm', -⟩ := hareas a ha vma hvma
    exact ⟨vma', hvma', hm'.trans hm⟩
  · intro g hg
    obtain ⟨g₀, hg₀, hlo, hhi⟩ := hmem g hg
    rw [hlo, hhi]
    exact h.ordered.proper g₀ hg₀
  · unfold Mem.segs
    rw [hlist, List.pairwise_filterMap]
    refine (List.pairwise_filterMap.mp h.ordered.pairwise).imp_of_mem ?_
    intro a b ha hb hab g hg g' hg'
    obtain ⟨g₀, hg₀, -, hhi⟩ := hback a ha g hg
    obtain ⟨g₁, hg₁, hlo, -⟩ := hback b hb g' hg'
    rw [hhi, hlo]
    exact hab g₀ hg₀ g₁ hg₁
  · intro g hg
    obtain ⟨g₀, hg₀, hlo, hhi⟩ := hmem g hg
    rw [hlo, hhi]
    exact h.bounds g₀ hg₀

/-- Every area of `l` has a copy in the map `m'` that is not linked yet, and different areas
have different copies. -/
structure Paired (m' : MapId) (l : List AreaId) (s : Mem) : Prop where
  nodup : l.Nodup
  live : ∀ a ∈ l, ∃ vma, s.areas a = some vma ∧ vma.vmaVmmap ≠ some m'
  copy : ∀ a ∈ l, ∀ vma, s.areas a = some vma → ∃ b vb,
    s.vmmapLookup m' vma.vmaStart = .ok (some b) ∧ s.areas b = some vb ∧
    vb.vmaVmmap = some m' ∧ vb.seg = vma.seg ∧ vb.vmaOlink = none
  start : ∀ a ∈ l, ∀ b ∈ l, ∀ va vb, s.areas a = some va → s.areas b = some vb →
    va.vmaStart = vb.vmaStart → a = b

theorem Paired.tail (h : Paired m' (a :: l) s) : Paired m' l s :=
  ⟨(List.nodup_cons.mp h.nodup).2, fun b hb ↦ h.live b (List.mem_cons_of_mem _ hb),
    fun b hb ↦ h.copy b (List.mem_cons_of_mem _ hb),
    fun b hb c hc ↦ h.start b (List.mem_cons_of_mem _ hb) c (List.mem_cons_of_mem _ hc)⟩

theorem vmmapLookup_congr {v : ℕ} (hmaps : s'.maps = s.maps)
    (hcov : ∀ x, s'.covers v x = s.covers v x) : s'.vmmapLookup m v = s.vmmapLookup m v := by
  unfold Mem.vmmapLookup
  rw [hmaps, funext hcov]

section

variable (hf : Forked s s' a b vma vb o q cs ps) (ha : s.areas a = some vma)
  (hb : s.areas b = some vb)
include hf ha hb

/-- The turn of a private area changes no area but this one and its copy, and these not in
their places. -/
theorem Forked.keeps {c : AreaId} {vc : VmArea} (hc : s.areas c = some vc) :
    ∃ vc', s'.areas c = some vc' ∧ vc'.vmaVmmap = vc.vmaVmmap ∧ vc'.vmaStart = vc.vmaStart ∧
      vc'.vmaEnd = vc.vmaEnd ∧ vc'.vmaOff = vc.vmaOff ∧ vc'.vmaFlags = vc.vmaFlags := by
  rw [hf.areas]
  rcases eq_or_ne c a with rfl | hca
  · cases ha.symm.trans hc
    exact ⟨_, update_self .., rfl, rfl, rfl, rfl, rfl⟩
  rcases eq_or_ne c b with rfl | hcb
  · cases hb.symm.trans hc
    exact ⟨_, update_other hca (update_self ..), rfl, rfl, rfl, rfl, rfl⟩
  · exact ⟨vc, update_other hca (update_other hcb hc), rfl, rfl, rfl, rfl, rfl⟩

theorem Forked.tidy (ht : Tidy s) (h : Held L s') : Tidy s' := by
  refine ⟨h.fresh, ?_, ?_⟩
  · exact fun m mp hm ↦ (ht.freshMap m mp (hf.maps ▸ hm)).trans_le hf.next
  · intro m mp hm
    refine (ht.map m mp (hf.maps ▸ hm)).reshape rfl fun c _ vc hc ↦ ?_
    obtain ⟨vc', hvc', hm', hstart, hend, -⟩ := hf.keeps ha hb hc
    exact ⟨vc', hvc', hm', hstart, hend⟩

theorem Forked.paired (hp : Paired m' (a :: l) s) (hbm : vb.vmaVmmap = some m')
    (hseg : vb.seg = vma.seg) : Paired m' l s' := by
  have ham : vma.vmaVmmap ≠ some m' := by
    obtain ⟨va, hva, hne⟩ := hp.live a List.mem_cons_self
    cases ha.symm.trans hva
    exact hne
  have hal : a ∉ l := (List.nodup_cons.mp hp.nodup).1
  -- the areas to come and their copies are not touched
  have hold : ∀ c vc, s.areas c = some vc → c ≠ a → c ≠ b → s'.areas c = some vc := by
    intro c vc hc hca hcb
    rw [hf.areas]
    exact update_other hca (update_other hcb hc)
  have hrest : ∀ c ∈ l, c ≠ a ∧ c ≠ b := by
    intro c hc
    refine ⟨ne_of_mem_of_not_mem hc hal, ?_⟩
    rintro rfl
    obtain ⟨vc, hvc, hne⟩ := hp.live c (List.mem_cons_of_mem _ hc)
    cases hb.symm.trans hvc
    exact hne hbm
  have hareas : ∀ c ∈ l, ∀ vc, s'.areas c = some vc → s.areas c = some vc := by
    intro c hc vc hvc
    obtain ⟨hca, hcb⟩ := hrest c hc
    rwa [hf.areas, update_of_ne hca, update_of_ne hcb] at hvc
  have hcov : ∀ v x, s'.covers v x = s.covers v x := by
    intro v x
    unfold Mem.covers
    cases hx : s.areas x with
    | none =>
      have hx' : s'.areas x = none := by
        rw [hf.areas, update_of_ne, update_of_ne, hx]
        · rintro rfl
          cases hx.symm.trans hb
        · rintro rfl
          cases hx.symm.trans ha
      rw [hx']
    | some vx =>
      obtain ⟨vx', hvx', -, hstart, hend, -⟩ := hf.keeps ha hb hx
      rw [hvx', Option.any_some, Option.any_some, decide_eq_decide]
      unfold VmArea.Covers
      rw [hstart, hend]
  refine ⟨(List.nodup_cons.mp hp.nodup).2, ?_, ?_, ?_⟩
  · intro c hc
    obtain ⟨vc, hvc, hne⟩ := hp.live c (List.mem_cons_of_mem _ hc)
    exact ⟨vc, hold c vc hvc (hrest c hc).1 (hrest c hc).2, hne⟩
  · intro c hc vc hvc
    have hvc₀ := hareas c hc vc hvc
    obtain ⟨d, vd, hlook, hvd, hdm, hdseg, holink⟩ := hp.copy c (List.mem_cons_of_mem _ hc) vc hvc₀
    refine ⟨d, vd, (vmmapLookup_congr hf.maps (hcov _)).trans hlook, hold d vd hvd ?_ ?_, hdm, hdseg,
      holink⟩
    · rintro rfl
      cases ha.symm.trans hvd
      exact ham hdm
    · rintro rfl
      cases hb.symm.trans hvd
      have hstart : vma.vmaStart = vc.vmaStart := congrArg Seg.lo (hseg.symm.trans hdseg)
      exact hal (hp.start a List.mem_cons_self c (List.mem_cons_of_mem _ hc) vma vc ha hvc₀
        hstart ▸ hc)
  · intro c hc d hd vc vd hvc hvd
    exact hp.start c (List.mem_cons_of_mem _ hc) d (List.mem_cons_of_mem _ hd) vc vd
      (hareas c hc vc hvc) (hareas d hd vd hvd)

end

/-- **The rule for the loop of `do_fork`.**  Besides what the turns keep anyway, an
invariant has to survive the turns of private areas and of others. -/
theorem forkLoop_rule {P : List AreaId → Mem → Prop}
    (hskip : ∀ a l s vma, P (a :: l) s → s.areas a = some vma →
      ¬ vma.vmaFlags.has mapPrivate = true → P l s)
    (hturn : ∀ a l s s' b vma vb o q cs ps, Held L s → Tidy s → P (a :: l) s →
      s.areas a = some vma → s.areas b = some vb →
      s.vmmapLookup m' vma.vmaStart = .ok (some b) → vb.vmaVmmap = some m' →
      vma.vmaVmmap ≠ some m' → vb.seg = vma.seg → vb.vmaOlink = none →
      vma.vmaFlags.has mapPrivate = true → Forked s s' a b vma vb o q cs ps → P l s')
    (h : Held L s) (ht : Tidy s) (hp : Paired m' l s) (hP : P l s)
    (hs : l.foldlM (Mem.forkArea m') s = .ok s') : Held L s' ∧ Tidy s' ∧ P [] s' := by
  suffices hloop : Held L s' ∧ Tidy s' ∧ Paired m' [] s' ∧ P [] s' from
    ⟨hloop.1, hloop.2.1, hloop.2.2.2⟩
  refine foldl_rest (I := fun l s ↦ Held L s ∧ Tidy s ∧ Paired m' l s ∧ P l s) ?_
    ⟨h, ht, hp, hP⟩ hs
  rintro a l s s₁ ⟨h, ht, hp, hP⟩ h₁
  obtain ⟨vma, ha, ham⟩ := hp.live a List.mem_cons_self
  obtain ⟨b, vb, hlook, hb, hbm, hseg, holink⟩ := hp.copy a List.mem_cons_self vma ha
  have hab : a ≠ b := by
    rintro rfl
    cases ha.symm.trans hb
    exact ham hbm
  by_cases hpriv : vma.vmaFlags.has mapPrivate = true
  · have hobj : vb.vmaObj = vma.vmaObj := congrArg (fun g ↦ g.tag.obj) hseg
    obtain ⟨hh₁, o, q, cs, ps, hf⟩ := forkArea_held ha hlook hpriv h₁ h hb hab hobj holink
    exact ⟨hh₁, hf.tidy ha hb ht hh₁, hf.paired ha hb hp hbm hseg,
      hturn a l s s₁ b vma vb o q cs ps h ht hP ha hb hlook hbm ham hseg holink hpriv hf⟩
  · unfold Mem.forkArea at h₁
    rw [ha, follow_bind, hlook, ok_bind, if_neg hpriv] at h₁
    cases h₁
    exact ⟨h, ht, hp.tail, hskip a l s vma hP ha hpriv⟩

theorem Tidy.retable (h : Tidy s) (hareas : s'.areas = s.areas) (hnext : s.next ≤ s'.next)
    (hmaps : ∀ m mp', s'.maps m = some mp' → ∃ mp, s.maps m = some mp ∧
      mp'.vmmList = mp.vmmList) : Tidy s' := by
  refine ⟨fun a vma ha ↦ (h.freshArea a vma (hareas ▸ ha)).trans_le hnext, ?_, ?_⟩
  · intro m mp' hm
    obtain ⟨mp, hmp, -⟩ := hmaps m mp' hm
    exact (h.freshMap m mp hmp).trans_le hnext
  · intro m mp' hm
    obtain ⟨mp, hmp, hlist⟩ := hmaps m mp' hm
    refine (h.map m mp hmp).reshape hlist fun a _ vma hvma ↦ ?_
    exact ⟨vma, hareas ▸ hvma, rfl, rfl, rfl⟩

/-- The areas that a clone brings are not linked. -/
theorem cloneLoop_olink : ∀ {s : Mem} {ok : Bool},
    Mem.cloneLoop m' l s = .ok (s', ok) → ∀ b vb, s'.areas b = some vb →
      s.areas b = some vb ∨ vb.vmaOlink = none := by
  induction l with
  | nil =>
    intro s ok hs b vb hb
    cases hs
    exact .inl hb
  | cons a l ih =>
    intro s ok hs b vb hb
    obtain ⟨vma, -, hs⟩ := bind_ok hs
    unfold Mem.vmareaAlloc at hs
    cases hg : s.grants .vmarea with
    | false =>
      rw [hg] at hs
      cases hs
      exact .inl hb
    | true =>
      rw [hg] at hs
      obtain ⟨o, -, hs⟩ := bind_ok hs
      obtain ⟨s₁, href, hs⟩ := bind_ok hs
      obtain ⟨s₂, hins, hloop⟩ := bind_ok hs
      obtain ⟨_, _, -, -, -, -, rfl⟩ := vmmapInsert_stored hins
      rcases ih hloop b vb hb with hb | hb
      · rcases of_update_some hb with ⟨rfl, rfl⟩ | ⟨-, hb⟩
        · exact .inr rfl
        · rw [(Mem.ref_changes href).sameMaps.areas] at hb
          exact .inl hb
      · exact .inr hb

/-- After `vmmap_clone` every area of the map has its copy. -/
theorem vmmapClone_paired (h : Held L s) (ht : Tidy s) (hm : s.maps m = some mp)
    (hfm : s.NoFailure .vmmap) (hfa : s.NoFailure .vmarea) {r : Option MapId}
    (hs : s.vmmapClone m = .ok (s', r)) :
    r = some s.next ∧ Held L s' ∧ Tidy s' ∧ Kept s s' ∧ s'.maps m = some mp ∧
      Paired s.next mp.vmmList s' ∧ ∃ mp', s'.maps = update s.maps s.next (some mp') ∧
        mp'.vmmProc = none ∧ (∀ a, a < s.next → s'.areas a = s.areas a) ∧
        ∀ b ∈ mp'.vmmList, ∀ vb, s'.areas b = some vb →
          ∃ a ∈ mp.vmmList, ∃ vma, s'.areas a = some vma ∧ vb.seg = vma.seg := by
  have hmne : ∀ m mp, s.maps m = some mp → m ≠ s.next := fun m mp hm ↦ (ht.freshMap m mp hm).ne
  have hnew := ht.maps_next
  obtain ⟨h', hk'⟩ := vmmapClone_held h hnew hs
  obtain ⟨rfl, mp', hspec⟩ := vmmapClone_spec ht hm hfm hfa hs
  have hm' : s'.maps s.next = some mp' := by rw [hspec.maps, update_self]
  have htm := ht.map m mp hm
  have htm' := hspec.tidy.map s.next mp' hm'
  have holink : ∀ b vb, s'.areas b = some vb → vb.vmaVmmap = some s.next → vb.vmaOlink = none := by
    intro b vb hb hbm
    obtain ⟨mp₀, hmp₀, hs⟩ := bind_ok hs
    obtain ⟨hc, -⟩ := vmmapCreate_tidy ht hfm
    rw [hc] at hs
    obtain ⟨⟨s₁, ok⟩, hloop, hs⟩ := bind_ok hs
    obtain rfl : s₁ = s' := congrArg Prod.fst (Except.ok.inj hs)
    rcases cloneLoop_olink hloop b vb hb with hb | hb
    · have hb' : s.areas b = some vb := hb
      obtain ⟨m₁, mp₁, hm₁, hmp₁, -⟩ := h.area b vb hb'
      cases hbm.symm.trans hm₁
      cases hnew.symm.trans hmp₁
    · exact hb
  have hold : ∀ a ∈ mp.vmmList, s'.areas a = s.areas a := by
    intro a ha
    obtain ⟨vma, hvma, -⟩ := htm.live a ha
    exact hspec.areas a (ht.freshArea a vma hvma)
  refine ⟨rfl, h', hspec.tidy, hk', by rw [hspec.maps, update_of_ne (hmne m mp hm), hm],
    ⟨htm.nodup, ?_, ?_, ?_⟩, mp', hspec.maps, hspec.proc, hspec.areas, ?_⟩
  · intro a ha
    obtain ⟨vma, hvma, hvm⟩ := htm.live a ha
    refine ⟨vma, (hold a ha).trans hvma, ?_⟩
    rw [hvm]
    exact fun heq ↦ hmne m mp hm (Option.some.inj heq)
  · intro a ha vma hvma
    have hvma₀ : s.areas a = some vma := (hold a ha) ▸ hvma
    have hmem : vma.seg ∈ s.segs mp.vmmList := Mem.mem_segs.mpr ⟨a, ha, vma, hvma₀, rfl⟩
    have hproper := htm.ordered.proper vma.seg hmem
    rw [← hspec.segs] at hmem
    obtain ⟨b, hb, vb, hvb, hseg⟩ := Mem.mem_segs.mp hmem
    obtain ⟨vb', hvb', hbm⟩ := htm'.live b hb
    cases hvb.symm.trans hvb'
    have hstart : vb.vmaStart = vma.vmaStart := congrArg Seg.lo hseg
    have hend : vb.vmaEnd = vma.vmaEnd := congrArg Seg.hi hseg
    refine ⟨b, vb, htm'.vmmapLookup_eq hm' hb hvb ⟨hstart.le, ?_⟩, hvb, hbm, hseg,
      holink b vb hvb hbm⟩
    rw [hend]
    exact hproper
  · intro a ha b hb va vb hva hvb hstart
    have hva₀ : s.areas a = some va := (hold a ha) ▸ hva
    have hvb₀ : s.areas b = some vb := (hold b hb) ▸ hvb
    have hproper := htm.ordered.proper va.seg (Mem.mem_segs.mpr ⟨a, ha, va, hva₀, rfl⟩)
    have hproper' := htm.ordered.proper vb.seg (Mem.mem_segs.mpr ⟨b, hb, vb, hvb₀, rfl⟩)
    refine htm.area_unique ha hb hva₀ hvb₀ ⟨le_rfl, hproper⟩ ⟨hstart.ge, ?_⟩
    rw [hstart]
    exact hproper'
  · intro b hb vb hvb
    have hmem : vb.seg ∈ s'.segs mp'.vmmList := Mem.mem_segs.mpr ⟨b, hb, vb, hvb, rfl⟩
    rw [hspec.segs] at hmem
    obtain ⟨a, ha, vma, hvma, hseg⟩ := Mem.mem_segs.mp hmem
    exact ⟨a, ha, vma, (hold a ha).trans hvma, hseg.symm⟩

theorem Mem.curproc_eq_ok {x : Proc} :
    s.curproc p = .ok x ↔ s.procs p = some x ∧ x.running = true := by
  unfold Mem.curproc
  constructor
  · intro h
    obtain ⟨y, hy, h⟩ := bind_follow h
    obtain ⟨hrun, h⟩ := bind_demand h
    cases pure_eq_ok.mp h
    exact ⟨hy, hrun⟩
  · rintro ⟨hx, hrun⟩
    rw [hx, follow_bind, demand_pos hrun]
    rfl

theorem frefLoop_files {x : Proc} {l : List ℕ} (hs : l.foldlM (Mem.frefFile x) s = .ok s') :
    ∃ F, s' = { s with files := F } := by
  refine foldl_invariant (I := fun s' ↦ ∃ F, s' = { s with files := F }) ?_ ⟨s.files, rfl⟩ hs
  rintro i - _ s₂ ⟨F, rfl⟩ h
  unfold Mem.frefFile at h
  split at h
  · cases h
    exact ⟨F, rfl⟩
  · obtain ⟨f, -, h⟩ := bind_ok h
    obtain ⟨_, -, h⟩ := bind_ok h
    cases h
    exact ⟨_, rfl⟩

/-- The steps of `do_fork`: the map is cloned, the loop is run, and the child gets the copy. -/
theorem doFork_eq_ok (hs : s.doFork p c = .ok s') :
    ∃ proc m s₁ m' mp s₂ mp' x pd F y, s.procs p = some proc ∧ s.procs c = none ∧
      proc.pVmmap = some m ∧ s.vmmapCreate.1.vmmapClone m = .ok (s₁, some m') ∧
      s₁.maps m = some mp ∧ mp.vmmList.foldlM (Mem.forkArea m') s₁ = .ok s₂ ∧
      s₂.maps m' = some mp' ∧ s₂.procs p = some x ∧
      ptUnmapRange x.pPagedir userMemLow userMemHigh = .ok pd ∧ y.pVmmap = some m' ∧
      y.pPagedir = (fun _ ↦ none) ∧
      s' = { s₂ with
        maps := update s₂.maps m' (some { mp' with vmmProc := some c })
        procs := update (update s₂.procs p (some { x with pPagedir := pd })) c (some y)
        files := F } := by
  obtain ⟨proc, hproc, hs⟩ := bind_ok hs
  obtain ⟨hc, hs⟩ := bind_demand hs
  obtain ⟨_, -, hs⟩ := bind_ok hs
  obtain ⟨m, hm, hs⟩ := bind_follow hs
  obtain ⟨⟨s₁, r⟩, hclone, hs⟩ := bind_ok hs
  obtain ⟨mp, hmp, hs⟩ := bind_follow hs
  obtain ⟨m', hm', hs⟩ := bind_follow hs
  obtain ⟨s₂, hloop, hs⟩ := bind_ok hs
  obtain ⟨mp', hmp', hs⟩ := bind_follow hs
  obtain ⟨s₃, hunmap, hs⟩ := bind_ok hs
  obtain ⟨x, hx, hunmap⟩ := bind_follow hunmap
  obtain ⟨pd, hpd, hunmap⟩ := bind_ok hunmap
  obtain ⟨s₄, hfref, hs⟩ := bind_ok hs
  have hs₃ := pure_eq_ok.mp hunmap
  have hs₅ := pure_eq_ok.mp hs
  obtain ⟨F, hF⟩ := frefLoop_files hfref
  have hr : r = some m' := hm'
  rw [hr] at hclone
  refine ⟨proc, m, s₁, m', mp, s₂, mp', x, pd, F,
    { pVmmap := some m'
      pFiles := fun i ↦ if i < nfiles then proc.pFiles i else none
      pBrk := proc.pBrk
      pStartBrk := proc.pStartBrk }, (Mem.curproc_eq_ok.mp hproc).1,
    Option.isNone_iff_eq_none.mp hc, hm, hclone,
    hmp, hloop, hmp', hx, hpd, rfl, rfl, ?_⟩
  rw [← hs₅, hF, ← hs₃]
  rfl

/-- The state of `do_fork` after the clone: every area of the map `m` has its copy in `m'`. -/
structure Cloned (L : ObjId → Prop) (s s₁ : Mem) (m' : MapId) (mp : Vmmap) : Prop
    extends Kept s s₁ where
  held : Held L s₁
  tidy : Tidy s₁
  copy : ∃ mp', s₁.maps m' = some mp' ∧ mp'.vmmProc = none
  paired : Paired m' mp.vmmList s₁
  only : ∀ b vb, s₁.areas b = some vb → vb.vmaVmmap = some m' →
    ∃ a ∈ mp.vmmList, ∃ vma, s₁.areas a = some vma ∧ vb.seg = vma.seg
  old : ∀ c vc, s₁.areas c = some vc → vc.vmaVmmap ≠ some m' → s.areas c = some vc
  new : s.next ≤ m'
  areas : ∀ a, a < s.next → s₁.areas a = s.areas a
  maps : ∀ m₁, m₁ < s.next → s₁.maps m₁ = s.maps m₁
  procs_of_maps : ∀ m₁ mp₁ q, s₁.maps m₁ = some mp₁ → mp₁.vmmProc = some q →
    s.maps m₁ = some mp₁

/-- `do_fork` up to its loop. -/
theorem doFork_cloned (h : Held L s) (ht : Tidy s) (hf : ∀ k, s.NoFailure k)
    (hs : s.doFork p c = .ok s') :
    ∃ proc m mp s₁ m' s₂ mp' pd F y, s.procs p = some proc ∧ s.procs c = none ∧
      proc.pVmmap = some m ∧ Cloned L s s₁ m' mp ∧
      mp.vmmList.foldlM (Mem.forkArea m') s₁ = .ok s₂ ∧ s₂.maps m' = some mp' ∧
      (s₂.procs = s.procs → ptUnmapRange proc.pPagedir userMemLow userMemHigh = .ok pd ∧
        s' = { s₂ with
          maps := update s₂.maps m' (some { mp' with vmmProc := some c })
          procs := update (update s.procs p (some { proc with pPagedir := pd })) c (some y)
          files := F }) ∧ y.pVmmap = some m' ∧ y.pPagedir = fun _ ↦ none := by
  obtain ⟨proc, m, s₁, m', mp, s₂, mp', x, pd, F, y, hp, hc, hpm, hclone, hmp, hloop, hmp', hx,
    hpd, hym, hypd, hs'⟩ := doFork_eq_ok hs
  obtain ⟨hcreate, ht₀⟩ := vmmapCreate_tidy ht (hf .vmmap)
  have h₀ := vmmapCreate_held h ht.maps_next
  rw [hcreate] at h₀ hclone
  let s₀ := (s.draw .vmmap).bump.setMap s.next (some {})
  have hk₀ : Kept s s₀ := (Kept.alloc s .vmmap).trans (.setMaps _ _ _)
  obtain ⟨mp₀, hmp₀⟩ := exists_map_of_vmmapClone hclone
  obtain ⟨hm', hh₁, ht₁, hk₁, hm₁, hpair, mp₁, hmaps₁, hproc₁, hareas₁, honly₁⟩ :=
    vmmapClone_paired h₀ ht₀ hmp₀ ((hf .vmmap).draw .vmmap) ((hf .vmarea).draw .vmmap) hclone
  cases hmp.symm.trans hm₁
  cases hm'
  refine ⟨proc, m, mp, s₁, s₀.next, s₂, mp', pd, F, y, hp, hc, hpm,
    ⟨hk₀.trans hk₁, hh₁, ht₁, ⟨mp₁, by rw [hmaps₁, update_self], hproc₁⟩, hpair, ?_, ?_,
      Nat.le_succ _, ?_, ?_, ?_⟩, hloop, hmp', ?_, hym, hypd⟩
  · intro b vb hb hbm
    obtain ⟨m₂, mp₂, hm₂, hmp₂, hmem, -⟩ := hh₁.area b vb hb
    cases hbm.symm.trans hm₂
    rw [hmaps₁, update_self] at hmp₂
    cases hmp₂
    exact honly₁ b hmem vb hb
  · -- the other maps are those of before, and the empty map of the new process
    intro b vb hb hbm
    obtain ⟨m₂, mp₂, hm₂, hmp₂, hmem, -⟩ := hh₁.area b vb hb
    rw [hmaps₁] at hmp₂
    rcases update_eq_some.mp hmp₂ with ⟨rfl, -⟩ | ⟨-, hmp₂⟩
    · exact absurd hm₂ hbm
    rcases of_update_some hmp₂ with ⟨-, rfl⟩ | ⟨-, hmp₂⟩
    · cases hmem
    · obtain ⟨vma, hvma, -⟩ := (ht.map m₂ mp₂ hmp₂).live b hmem
      rw [← hb]
      exact (hareas₁ b ((ht.freshArea b vma hvma).trans (Nat.lt_succ_self _))).symm
  · exact fun a ha ↦ hareas₁ a (ha.trans (Nat.lt_succ_self _))
  · intro m₁ hlt
    have hne : m₁ ≠ s₀.next := (hlt.trans (Nat.lt_succ_self _)).ne
    rw [hmaps₁, update_of_ne hne]
    exact update_of_ne hlt.ne ..
  · intro m₁ mp₂ q hm₂ hq
    rw [hmaps₁] at hm₂
    rcases of_update_some hm₂ with ⟨-, rfl⟩ | ⟨-, hm₂⟩
    · cases hproc₁.symm.trans hq
    rcases of_update_some hm₂ with ⟨-, rfl⟩ | ⟨-, hm₂⟩
    · cases hq
    · exact hm₂
  · intro hprocs
    rw [hprocs, hp] at hx
    cases hx
    exact ⟨hpd, by rw [hs', hprocs]⟩

/-- Objects, areas and maps are in order, and no allocation is going to fail. -/
structure Spaces (L : ObjId → Prop) (s : Mem) : Prop where
  held : Held L s
  tidy : Tidy s
  noFailure : ∀ k, s.NoFailure k

theorem forkLoop_kept (h : Held L s) (ht : Tidy s) (hp : Paired m' l s)
    (hs : l.foldlM (Mem.forkArea m') s = .ok s') :
    Held L s' ∧ Tidy s' ∧ Kept s s' ∧ s'.maps = s.maps := by
  refine forkLoop_rule (P := fun _ s' ↦ Kept s s' ∧ s'.maps = s.maps) ?_ ?_ h ht hp
    ⟨.refl s, rfl⟩ hs
  · exact fun a l s₁ vma hk _ _ ↦ hk
  · intro a l s₁ s₂ b vma vb o q cs ps _ _ hk _ _ _ _ _ _ _ _ hf
    exact ⟨hk.1.trans hf.toKept, hf.maps.trans hk.2⟩

theorem doFork_spaces (h : Spaces L s) (hs : s.doFork p c = .ok s') : Spaces L s' := by
  obtain ⟨proc, m, mp, s₁, m', s₂, mp', pd, F, y, hp, hc, -, hcl, hloop, hmp', hfinal, -⟩ :=
    doFork_cloned h.held h.tidy h.noFailure hs
  obtain ⟨hh₂, ht₂, hk₂, hmaps₂⟩ := forkLoop_kept hcl.held hcl.tidy hcl.paired hloop
  obtain ⟨-, rfl⟩ := hfinal (hk₂.procs.trans hcl.procs)
  refine ⟨hh₂.retable rfl rfl rfl rfl rfl le_rfl ?_ ?_, ht₂.retable rfl le_rfl ?_, ?_⟩
  · exact fun m₁ mp₁ _ hm₁ _ ↦ exists_update hm₁ hmp' (by rintro rfl; rfl) rfl
  · intro m₁ mp₁ q hm₁ hq
    rcases of_update_some hm₁ with ⟨-, rfl⟩ | ⟨-, hm₁⟩
    · cases hq
      exact ⟨y, update_self ..⟩
    rw [hmaps₂] at hm₁
    obtain ⟨x, hx⟩ := h.held.store.links.proc m₁ mp₁ q (hcl.procs_of_maps m₁ mp₁ q hm₁ hq) hq
    obtain ⟨x₁, hx₁⟩ := filled_update hx
    exact filled_update hx₁
  · exact fun m₁ mp₁ hm₁ ↦ exists_of_update hm₁ hmp' (by rintro rfl; rfl) rfl
  · exact fun k ↦ hk₂.noFailure k (hcl.noFailure k (h.noFailure k))

/-! ## Exit and page faults -/

/-- Destroying a map takes the map and its areas, and nothing else of the maps. -/
theorem vmmapDestroy_maps (hm : s.maps m = some mp)
    (hs : s.vmmapDestroy m = .ok s') :
    s.next ≤ s'.next ∧ (∀ k, s.NoFailure k → s'.NoFailure k) ∧
      (∀ m₁ ≠ m, s'.maps m₁ = s.maps m₁) ∧ (∀ mp', s'.maps m = some mp' → mp' = mp ∧ s' = s) ∧
      (∀ a ∉ mp.vmmList, s'.areas a = s.areas a) ∧
      ∀ a vma, s'.areas a = some vma → s.areas a = some vma := by
  obtain ⟨mp₀, hmp₀, hs⟩ := bind_follow hs
  cases hm.symm.trans hmp₀
  split at hs
  · cases hs
    exact ⟨le_rfl, fun _ hk ↦ hk, fun _ _ ↦ rfl,
      fun mp' hmp' ↦ ⟨(Option.some.inj (hm.symm.trans hmp')).symm, rfl⟩, fun _ _ ↦ rfl,
      fun _ _ ha ↦ ha⟩
  · obtain ⟨s₁, hloop, hs⟩ := bind_ok hs
    cases hs
    obtain ⟨hnext, hfail, hmaps, hareas, hsub, -⟩ := foldl_rest (I := fun l s₁ ↦
      s.next ≤ s₁.next ∧ (∀ k, s.NoFailure k → s₁.NoFailure k) ∧
      (∀ m₁ ≠ m, s₁.maps m₁ = s.maps m₁) ∧ (∀ a ∉ mp.vmmList, s₁.areas a = s.areas a) ∧
      (∀ a vma, s₁.areas a = some vma → s.areas a = some vma) ∧
      (∀ a ∈ l, a ∈ mp.vmmList) ∧ ∃ mp₁, s₁.maps m = some mp₁)
      (by
        rintro a l s₁ s₂ ⟨hnext, hfail, hmaps, hareas, hsub, hl, mp₁, hmp₁⟩ h₂
        obtain ⟨hareas₂, hmaps₂, hnext₂, hfail₂⟩ := destroyArea_maps hmp₁ h₂
        have ha := hl a List.mem_cons_self
        refine ⟨hnext.trans hnext₂, fun k hk ↦ hfail₂ k (hfail k hk), ?_, ?_, ?_,
          fun b hb ↦ hl b (List.mem_cons_of_mem _ hb), _, by rw [hmaps₂, update_self]⟩
        · intro m₁ hne
          rw [hmaps₂, update_of_ne hne, hmaps m₁ hne]
        · intro b hb
          rw [hareas₂, update_of_ne (ne_of_mem_of_not_mem ha hb).symm, hareas b hb]
        · intro b vb hvb
          rw [hareas₂] at hvb
          obtain ⟨-, hvb⟩ := of_update_none hvb
          exact hsub b vb hvb)
      ⟨le_rfl, fun _ hk ↦ hk, fun _ _ ↦ rfl, fun _ _ ↦ rfl, fun _ _ ha ↦ ha, fun _ ha ↦ ha, mp,
        hm⟩ hloop
    refine ⟨hnext, hfail, ?_, ?_, hareas, hsub⟩
    · intro m₁ hne
      rw [Mem.setMap_maps, update_of_ne hne, hmaps m₁ hne]
    · intro mp' hmp'
      rw [Mem.setMap_maps, update_self] at hmp'
      cases hmp'

theorem vmmapDestroy_spaces (h : Spaces L s) (hL : Spare L s) (hs : s.vmmapDestroy m = .ok s') :
    Spaces L s' := by
  obtain ⟨mp, hm, -⟩ := bind_follow hs
  obtain ⟨hnext, hfail, hmaps, hself, hareas, hsub⟩ :=
    vmmapDestroy_maps hm hs
  refine ⟨(vmmapDestroy_held h.held hL hs).1, ⟨?_, ?_, ?_⟩, fun k ↦ hfail k (h.noFailure k)⟩
  · exact fun a vma ha ↦ (h.tidy.freshArea a vma (hsub a vma ha)).trans_le hnext
  · intro m₁ mp₁ hm₁
    rcases eq_or_ne m₁ m with rfl | hne
    · exact (h.tidy.freshMap m₁ mp hm).trans_le hnext
    · exact (h.tidy.freshMap m₁ mp₁ (hmaps m₁ hne ▸ hm₁)).trans_le hnext
  · intro m₁ mp₁ hm₁
    rcases eq_or_ne m₁ m with rfl | hne
    · obtain ⟨rfl, rfl⟩ := hself mp₁ hm₁
      exact h.tidy.map m₁ mp₁ hm
    · rw [hmaps m₁ hne] at hm₁
      refine (h.tidy.map m₁ mp₁ hm₁).congr fun a ha ↦ hareas a fun hin ↦ hne ?_
      obtain ⟨vma, hvma, hvm⟩ := (h.tidy.map m₁ mp₁ hm₁).live a ha
      obtain ⟨vma', hvma', hvm'⟩ := (h.tidy.map m mp hm).live a hin
      cases hvma.symm.trans hvma'
      exact Option.some.inj (hvm.symm.trans hvm')

theorem Spaces.setProc (h : Spaces L s) (p : Pid) (x : Proc) : Spaces L (s.setProc p (some x)) := by
  refine ⟨h.held.retable rfl rfl rfl rfl rfl le_rfl (fun m mp _ hm _ ↦ ⟨mp, hm, rfl⟩) ?_,
    h.tidy.retable rfl le_rfl fun m mp hm ↦ ⟨mp, hm, rfl⟩, h.noFailure⟩
  intro m mp q hm hq
  obtain ⟨y, hy⟩ := h.held.store.links.proc m mp q hm hq
  exact filled_update hy

theorem Spaces.draw (h : Spaces L s) (k : Allocator) : Spaces L (s.draw k) :=
  ⟨h.held.draw k, h.tidy.retable rfl le_rfl fun _ mp hm ↦ ⟨mp, hm, rfl⟩,
    fun k' ↦ (h.noFailure k').draw k⟩

theorem doExit_spaces (h : Spaces L s) (hL : Spare L s) (hs : s.doExit p = .ok s') :
    Spaces L s' := by
  obtain ⟨x, -, hs⟩ := bind_ok hs
  split at hs
  · cases hs
    exact h.setProc p _
  · exact vmmapDestroy_spaces (h.setProc p _) (hL.congr rfl) hs

theorem Held.fetched (h : Held L s) (ho : Objs s' s.heldBy)
    (hf : Fetched W s s') : Held L s' := by
  have hheld : s'.heldBy = s.heldBy := Mem.heldBy_congr hf.rest.areas
  refine ⟨?_, ?_, ?_, ?_, ?_⟩
  · exact fun a vma ha ↦ (h.fresh a vma (hf.rest.areas ▸ ha)).trans_le hf.rest.next
  · rw [hheld]
    exact ⟨ho, hf.links h.store.links, hf.quiet h.store.quiet⟩
  · rw [hheld]
    intro u ub' hub
    obtain ⟨ub, hu, hl, -⟩ := hf.like u ub' hub
    rw [hl.ops]
    refine (h.swept u ub hu).imp_left ?_
    rintro ⟨a, ha⟩
    exact ⟨a, ha.imp_right fun ha ↦ (hf.below_eq a).trans ha⟩
  · rw [hf.rest.areas, hf.rest.maps]
    exact h.area
  · intro v vn hvn
    obtain ⟨ob, hob, hops⟩ := h.vnodes v vn (hf.rest.vnodes ▸ hvn)
    obtain ⟨ob', hob'⟩ := hf.live _ ob hob
    obtain ⟨ob₁, hob₁, hl, -⟩ := hf.like _ ob' hob'
    cases hob.symm.trans hob₁
    exact ⟨ob', hob', hl.ops.trans hops⟩

theorem Spaces.fetched (h : Spaces L s) (ho : Objs s' s.heldBy)
    (hf : Fetched W s s') : Spaces L s' :=
  ⟨h.held.fetched ho hf, h.tidy.sameMaps ⟨hf.rest.areas, hf.rest.maps, hf.rest.next,
    hf.rest.noFailure⟩, fun k ↦ hf.rest.noFailure k (h.noFailure k)⟩

theorem Spare.fetched (hL : Spare L s) (ho : Objs s A) (ho' : Objs s' A)
    (hf : Fetched W s s') : Spare L s' := by
  intro u ub' hub hops hres
  obtain ⟨ub, hu, hl, -⟩ := hf.like u ub' hub
  refine hL u ub hu (hl.ops ▸ hops) ?_
  rw [List.eq_nil_iff_forall_not_mem]
  intro f hmem
  obtain ⟨n, hn⟩ := (ho.pages u ub hu f).mp hmem
  have hmem' := (ho'.pages u ub' hub f).mpr ⟨n, hf.pageAt hn⟩
  rw [hres] at hmem'
  cases hmem'

theorem Spaces.setFrame {pf pf' : Pframe} (h : Spaces L s)
    (hf : s.frames f = some pf) (hobj : pf'.pfObj = pf.pfObj) (hnum : pf'.pfPagenum = pf.pfPagenum)
    (hbusy : pf'.pfBusy = pf.pfBusy) (hpin : pf'.pfPincount = pf.pfPincount) :
    Spaces L (s.setFrame f (some pf')) := by
  have hq := h.held.store.quiet
  refine ⟨⟨h.held.fresh, ⟨h.held.store.objs.setFrame hf hobj hnum, ?_, ?_⟩,
    h.held.swept.same rfl, h.held.area, h.held.vnodes⟩,
    h.tidy.retable rfl le_rfl fun m mp hm ↦ ⟨mp, hm, rfl⟩, h.noFailure⟩
  · exact ⟨h.held.store.links.nodup, h.held.store.links.area, h.held.store.links.proc⟩
  · refine ⟨?_, ?_, ?_⟩
    · intro g pg hg
      rcases of_update_some hg with ⟨rfl, rfl⟩ | ⟨-, hg⟩
      · rw [hbusy]
        exact hq.busy g pf hf
      · exact hq.busy g pg hg
    · intro g pg hg
      rcases of_update_some hg with ⟨rfl, rfl⟩ | ⟨-, hg⟩
      · rw [hpin]
        exact hq.pins g pf hf
      · exact hq.pins g pg hg
    · intro g pg ob v vn hg ho hv hvn
      rcases of_update_some hg with ⟨rfl, rfl⟩ | ⟨-, hg⟩
      · rw [hobj] at ho
        rw [hnum]
        exact hq.within g pf ob v vn hf ho hv hvn
      · exact hq.within g pg ob v vn hg ho hv hvn

theorem dirtyIf_cases (hs : s.dirtyIf w f = .ok s') :
    s' = s ∨ ∃ pf d, s.frames f = some pf ∧ s' = s.setFrame f (some { pf with pfDirty := d }) := by
  unfold Mem.dirtyIf at hs
  split at hs
  · obtain ⟨pf, hpf, hs⟩ := bind_follow hs
    obtain ⟨_, -, hs⟩ := bind_ok hs
    obtain ⟨ob, -, hs⟩ := bind_ok hs
    obtain ⟨ok, -, hs⟩ := bind_ok hs
    exact .inr ⟨pf, _, hpf, (pure_eq_ok.mp hs).symm⟩
  · cases hs
    exact .inl rfl

theorem ptMap_cases {pdflags ptflags : Flags}
    (hs : s.ptMap p vaddr f pdflags ptflags = .ok s') :
    ∃ x, s.procs p = some x ∧ (s' = s.draw .page ∨ ∃ s₁, (s₁ = s ∨ s₁ = s.draw .page) ∧
      s' = s₁.setProc p (some { x with
        pPagedir := x.pPagedir.install vaddr f pdflags ptflags })) := by
  obtain ⟨-, hs⟩ := bind_demand hs
  obtain ⟨x, hx, hs⟩ := bind_follow hs
  refine ⟨x, hx, ?_⟩
  split at hs
  · cases hs
    exact .inr ⟨s, .inl rfl, rfl⟩
  · split at hs
    · cases hs
      exact .inr ⟨_, .inr rfl, rfl⟩
    · cases hs
      exact .inl rfl

/-- What a page fault comes to: the end of the process, or a page that is mapped. -/
theorem handlePagefault_cases
    (hs : s.handlePagefault p vaddr w = .ok s') : ∃ x, s.procs p = some x ∧
    (s.doExit p = .ok s' ∨ ∃ m a vma o s₁ r, userMemLow ≤ vaddr ∧ vaddr < userMemHigh ∧
      x.pVmmap = some m ∧ s.vmmapLookup m (addrToPn vaddr) = .ok (some a) ∧
      s.areas a = some vma ∧ vma.Allows w ∧ vma.vmaObj = some o ∧
      s.pframeLookup o (vma.vmaOff + (addrToPn vaddr - vma.vmaStart)) w = .ok (s₁, r) ∧
      ((∃ e, r = .error e ∧ s₁.doExit p = .ok s') ∨ ∃ f s₂, r = .ok f ∧
        s₁.dirtyIf w f = .ok s₂ ∧ s₂.ptMap p (pnToAddr (addrToPn vaddr)) f (Mem.faultFlags w)
          (Mem.faultFlags w) = .ok s')) := by
  obtain ⟨x, hx, hs⟩ := bind_follow hs
  refine ⟨x, hx, ?_⟩
  split at hs
  · exact .inl hs
  next hrange =>
  rw [not_or, not_lt, not_le] at hrange
  obtain ⟨m, hm, hs⟩ := bind_follow hs
  obtain ⟨r, hlook, hs⟩ := bind_ok hs
  cases r with
  | none => exact .inl hs
  | some a =>
    obtain ⟨vma, hvma, hs⟩ := bind_follow hs
    split at hs
    · next hall =>
      obtain ⟨o, ho, hs⟩ := bind_follow hs
      obtain ⟨⟨s₁, r⟩, hpf, hs⟩ := bind_ok hs
      refine .inr ⟨m, a, vma, o, s₁, r, hrange.1, hrange.2, hm, hlook,
        hvma, hall, ho, hpf, ?_⟩
      cases r with
      | error e => exact .inl ⟨e, rfl, hs⟩
      | ok f =>
        obtain ⟨s₂, hdirty, hs⟩ := bind_ok hs
        exact .inr ⟨f, s₂, rfl, hdirty, hs⟩
    · exact .inl hs

theorem Held.pframeLookup {n : ℕ} {r : Except Mem.NoPage FrameId} (h : Held L s)
    (ha : s.areas a = some vma) (ho : vma.vmaObj = some o)
    (hs : s.pframeLookup o n w = .ok (s₁, r)) :
    Outcome (fun u m ↦ w = true ∧ u = o ∧ m = n) s.heldBy n o
      (fun s f ↦ Eff s n o f ∧ (w = true → s.PageAt f o n)) s s₁ r := by
  have hslot : s.heldBy a = some o := (Mem.heldBy_of_area ha).trans ho
  obtain ⟨ob, hob⟩ := h.store.objs.held a o hslot
  obtain ⟨s', r', hs', hout⟩ := pframeLookup_ok h.store.objs h.store.links
    (h.store.quiet.calm o) hob ⟨a, .inl hslot⟩ w
  cases hs.symm.trans hs'
  exact hout

theorem handlePagefault_spaces (h : Spaces L s)
    (hL : Spare L s) (hs : s.handlePagefault p vaddr w = .ok s') : Spaces L s' := by
  obtain ⟨x, hx, hexit | ⟨m, a, vma, o, s₁, r, -, -, -, -, hvma, -, ho, hpf, hcases⟩⟩ :=
    handlePagefault_cases hs
  · exact doExit_spaces h hL hexit
  have hout := h.held.pframeLookup hvma ho hpf
  have h₁ := h.fetched hout.objs hout.fetched
  rcases hcases with ⟨e, -, hexit⟩ | ⟨f, s₂, -, hdirty, hmap⟩
  · exact doExit_spaces h₁ (hL.fetched h.held.store.objs hout.objs hout.fetched) hexit
  have h₂ : Spaces L s₂ := by
    rcases dirtyIf_cases hdirty with rfl | ⟨pf, d, hpf, rfl⟩
    · exact h₁
    · exact h₁.setFrame hpf rfl rfl rfl rfl
  obtain ⟨x₂, -, rfl | ⟨s₃, rfl | rfl, rfl⟩⟩ := ptMap_cases hmap
  · exact h₂.draw _
  · exact h₂.setProc p _
  · exact (h₂.draw _).setProc p _

end CS402.Mm

import CS402.Mm.Put
import CS402.Vm.PageMap

/-!
# Areas and their objects

`Held` ties the areas to the objects: every area is on the list of its map, the
references to objects are those of the areas, and an object that no area and no other
object refers to is gone, up to exceptions that are made for anonymous objects.

The operations of `vmmap.c` keep this.  Each is a sequence of small changes to the state
and to the slots that refer to objects (`Store.ref`, `Store.create`, `put_sound`, …), and
at its end the slots are those of the areas again.
-/

set_option linter.unusedSectionVars false

namespace CS402.Mm

open CS402.Lib Function

/-- What an operation on references leaves alone in an object. -/
def MmObj.core (ob : MmObj) : MmoOps × Option ObjId × List FrameId :=
  (ob.mmoOps, ob.mmoShadowed, ob.mmoRespages)

namespace Mem

/-- The object that an area shows: the references to objects from outside. -/
def heldBy (s : Mem) (a : AreaId) : Option ObjId := (s.areas a).bind VmArea.vmaObj

/-- The objects, without their counts and lists of areas. -/
def cores (s : Mem) (o : ObjId) : Option (MmoOps × Option ObjId × List FrameId) :=
  (s.objs o).map MmObj.core

/-- No object has the area on its list. -/
def Unlinked (s : Mem) (a : AreaId) : Prop := ∀ o ob, s.objs o = some ob → a ∉ ob.mmoVmas

variable {s s' : Mem} {a : AreaId} {o : ObjId} {ob ob' : MmObj}

theorem heldBy_of_area {vma : VmArea} (h : s.areas a = some vma) : s.heldBy a = vma.vmaObj := by
  rw [heldBy, h, Option.bind_some]

theorem heldBy_update {x : Option VmArea} (h : s'.areas = update s.areas a x) :
    s'.heldBy = update s.heldBy a (x.bind VmArea.vmaObj) := by
  funext b
  unfold heldBy
  rw [h]
  rcases eq_or_ne b a with rfl | hb
  · simp
  · simp [hb]

theorem heldBy_congr (h : s'.areas = s.areas) : s'.heldBy = s.heldBy := by
  funext b
  unfold heldBy
  rw [h]

theorem cores_congr (h : s'.objs = s.objs) : s'.cores = s.cores := by
  funext o
  unfold cores
  rw [h]

theorem cores_setObj {b : MmObj} (ho : s.objs o = some ob) (h : b.core = ob.core) :
    (s.setObj o (some b)).cores = s.cores := by
  funext u
  unfold cores
  rcases eq_or_ne u o with rfl | hu
  · simp [ho, h]
  · simp [hu]

theorem unlinkVma_cases (s : Mem) (a : AreaId) (olink : Option ObjId) :
    s.unlinkVma a olink = s ∨ ∃ o ob, s.objs o = some ob ∧
      s.unlinkVma a olink = s.setObj o (some { ob with mmoVmas := ob.mmoVmas.erase a }) := by
  cases olink with
  | none => exact .inl rfl
  | some o =>
    cases ho : s.objs o with
    | none =>
      refine .inl ?_
      simp only [unlinkVma, ho, Option.map_none]
      rw [setObj, ← ho, update_eq_self]
    | some ob =>
      refine .inr ⟨o, ob, ho, ?_⟩
      simp only [unlinkVma, ho, Option.map_some]

theorem cores_unlinkVma (s : Mem) (a : AreaId) (olink : Option ObjId) :
    (s.unlinkVma a olink).cores = s.cores := by
  rcases unlinkVma_cases s a olink with h | ⟨o, ob, ho, h⟩
  · rw [h]
  · rw [h]
    exact cores_setObj ho rfl

theorem exists_of_cores (h : s'.cores = s.cores) (ho : s'.objs o = some ob') :
    ∃ ob, s.objs o = some ob ∧ ob'.core = ob.core := by
  have hcore := congrFun h o
  unfold cores at hcore
  rw [ho, Option.map_some] at hcore
  obtain ⟨ob, hob, heq⟩ := Option.map_eq_some_iff.mp hcore.symm
  exact ⟨ob, hob, heq.symm⟩

theorem below_of_cores (h : s'.cores = s.cores) : s'.below = s.below := by
  funext o
  unfold below
  cases ho : s'.objs o with
  | some ob' =>
    obtain ⟨ob, hob, hcore⟩ := exists_of_cores h ho
    rw [hob]
    exact congrArg (fun c ↦ c.2.1) hcore
  | none =>
    cases ho' : s.objs o with
    | none => rfl
    | some ob =>
      obtain ⟨ob', hob', -⟩ := exists_of_cores h.symm ho'
      cases ho.symm.trans hob'

end Mem

section

variable {L : ObjId → Prop} {s s' : Mem} {A A' : ℕ → Option ObjId}

theorem Spare.congr (h : Spare L s) (hc : s'.cores = s.cores) : Spare L s' := by
  intro u ub' hub hops hres
  obtain ⟨ub, hu, hcore⟩ := Mem.exists_of_cores hc hub
  refine h u ub hu ?_ ?_
  · rw [← hops]
    exact congrArg Prod.fst hcore.symm
  · rw [← hres]
    exact congrArg (fun c ↦ c.2.2) hcore.symm

theorem Swept.congr (h : Swept L s A) (hc : s'.cores = s.cores)
    (hA : ∀ a u, A a = some u → ∃ b, A' b = some u) : Swept L s' A' := by
  intro u ub' hub
  obtain ⟨ub, hu, hcore⟩ := Mem.exists_of_cores hc hub
  have hops : ub'.mmoOps = ub.mmoOps := congrArg Prod.fst hcore
  rw [hops]
  refine (h u ub hu).imp_left ?_
  rintro ⟨a, ha | ha⟩
  · obtain ⟨b, hb⟩ := hA a u ha
    exact ⟨b, .inl hb⟩
  · exact ⟨a, .inr (by rw [Mem.below_of_cores hc, ha])⟩

theorem Swept.same (h : Swept L s A) (hc : s'.cores = s.cores) : Swept L s' A :=
  h.congr hc fun b _ hb ↦ ⟨b, hb⟩

theorem Swept.create (h : Swept L s A) {n a : ℕ} {nob : MmObj}
    (hobjs : s'.objs = update s.objs n (some nob)) (hnew : s.objs n = none)
    (hshadow : nob.mmoShadowed = A a) : Swept L s' (update A a (some n)) := by
  have hbelow := below_update hobjs
  rw [Option.bind_some, hshadow] at hbelow
  intro u ub hub
  rw [hobjs] at hub
  rcases update_eq_some.mp hub with ⟨rfl, -⟩ | ⟨hne, hub⟩
  · exact .inl ⟨a, .inl (update_self ..)⟩
  · refine (h u ub hub).imp_left ?_
    rintro ⟨b, hb | hb⟩
    · rcases eq_or_ne b a with rfl | hba
      · exact ⟨n, .inr (by rw [hbelow, update_self, hb])⟩
      · exact ⟨b, .inl (by rw [update_of_ne hba, hb])⟩
    · refine ⟨b, .inr ?_⟩
      rw [hbelow, update_of_ne, hb]
      rintro rfl
      rw [Mem.below, hnew] at hb
      cases hb

end

variable [Layout]

/-! ## Small changes -/

variable {l : List AreaId}

section

variable {s s' : Mem} {A : ℕ → Option ObjId} {m : MapId} {mp mp' : Vmmap} {a : AreaId}
  {vma vma' : VmArea} {o : ObjId} {ob ob' : MmObj}

/-- The area changes its bounds, and its offset with its start. -/
structure VmArea.Moved (vma' vma : VmArea) : Prop where
  obj : vma'.vmaObj = vma.vmaObj
  vmmap : vma'.vmaVmmap = vma.vmaVmmap
  flags : vma'.vmaFlags = vma.vmaFlags
  olink : vma'.vmaOlink = vma.vmaOlink
  shift : vma'.vmaStart + vma.vmaOff = vma.vmaStart + vma'.vmaOff
  low : lowPage ≤ vma'.vmaStart
  high : vma'.vmaEnd ≤ highPage

theorem Links.unlinked (h : Links s) (ha : s.areas a = none) : s.Unlinked a := by
  intro o ob ho hin
  obtain ⟨vma, -, -, hvma, -⟩ := h.area o ob a ho hin
  cases ha.symm.trans hvma

theorem unlinkVma_unlinked (h : Links s) (ha : s.areas a = some vma) :
    (s.unlinkVma a vma.vmaOlink).Unlinked a := by
  intro u ub hub hin
  have hlinked : ∀ ub₀, s.objs u = some ub₀ → a ∈ ub₀.mmoVmas → vma.vmaOlink = some u := by
    intro ub₀ hub₀ hmem
    obtain ⟨vma', _, _, hvma', holink, -⟩ := h.area u ub₀ a hub₀ hmem
    cases ha.symm.trans hvma'
    exact holink
  cases holink : vma.vmaOlink with
  | none =>
    rw [holink] at hub
    exact nomatch holink.symm.trans (hlinked ub hub hin)
  | some q =>
    rw [holink] at hub
    rcases update_eq_some.mp hub with ⟨rfl, hx⟩ | ⟨hne, hub⟩
    · obtain ⟨ub₀, hub₀, rfl⟩ := Option.map_eq_some_iff.mp hx
      exact (h.nodup u ub₀ hub₀).not_mem_erase hin
    · exact hne (Option.some.inj ((hlinked ub hub hin).symm.trans holink))

namespace Store

section

variable (h : Store s A)
include h

theorem same (hlinks : Links s') (hobjs : s'.objs = s.objs)
    (hframes : s'.frames = s.frames) (hhash : s'.pframeHash = s.pframeHash)
    (hvnodes : s'.vnodes = s.vnodes) (hnext : s.next ≤ s'.next) : Store s' A := by
  refine ⟨h.objs.same (fun f u n ↦ ?_) hhash hnext hobjs hvnodes, hlinks, ?_⟩
  · unfold Mem.PageAt
    rw [hframes]
  · exact h.quiet.of_sub (fun f pf hf ↦ hframes ▸ hf) (fun u ub hub ↦ ⟨ub, hobjs ▸ hub, rfl⟩)
      hvnodes

theorem draw (k : Allocator) : Store (s.draw k) A :=
  h.same ⟨h.links.nodup, h.links.area, h.links.proc⟩ rfl rfl rfl rfl le_rfl

theorem bump : Store s.bump A :=
  h.same ⟨h.links.nodup, h.links.area, h.links.proc⟩ rfl rfl rfl rfl (Nat.le_succ _)

theorem setMap {n : Vmmap} (hm : s.maps m = some mp) (hp : n.vmmProc = mp.vmmProc) :
    Store (s.setMap m (some n)) A := by
  refine h.same ⟨h.links.nodup, ?_, ?_⟩ rfl rfl rfl rfl le_rfl
  · intro u ub b hu hb
    obtain ⟨vb, m₁, mp₁, hvb, holink, hm₁, hmp₁, hbounds⟩ := h.links.area u ub b hu hb
    rcases eq_or_ne m₁ m with rfl | hne
    · exact ⟨vb, m₁, n, hvb, holink, hm₁, update_self .., hbounds⟩
    · exact ⟨vb, m₁, mp₁, hvb, holink, hm₁, update_other hne hmp₁, hbounds⟩
  · intro m₁ mp₁ p hmp₁ hproc
    rcases of_update_some hmp₁ with ⟨rfl, rfl⟩ | ⟨-, hmp₁⟩
    · exact h.links.proc m₁ mp p hm (hp ▸ hproc)
    · exact h.links.proc m₁ mp₁ p hmp₁ hproc

theorem setArea (hun : s.Unlinked a) (x : Option VmArea) : Store (s.setArea a x) A := by
  refine h.same ⟨h.links.nodup, ?_, h.links.proc⟩ rfl rfl rfl rfl le_rfl
  intro u ub b hu hb
  obtain ⟨vb, m₁, mp₁, hvb, hrest⟩ := h.links.area u ub b hu hb
  refine ⟨vb, m₁, mp₁, update_other ?_ hvb, hrest⟩
  rintro rfl
  exact hun u ub hu hb

theorem keepArea (ha : s.areas a = some vma)
    (holink : vma'.vmaOlink = vma.vmaOlink) (hvm : vma'.vmaVmmap = vma.vmaVmmap)
    (hlow : lowPage ≤ vma'.vmaStart) (hhigh : vma'.vmaEnd ≤ highPage) :
    Store (s.setArea a (some vma')) A := by
  refine h.same ⟨h.links.nodup, ?_, h.links.proc⟩ rfl rfl rfl rfl le_rfl
  intro u ub b hu hb
  obtain ⟨vb, m₁, mp₁, hvb, holink₁, hm₁, hmp₁, hbounds⟩ := h.links.area u ub b hu hb
  rcases eq_or_ne b a with rfl | hne
  · cases ha.symm.trans hvb
    exact ⟨vma', m₁, mp₁, update_self .., holink.trans holink₁, hvm.trans hm₁, hmp₁, hlow, hhigh⟩
  · exact ⟨vb, m₁, mp₁, update_other hne hvb, holink₁, hm₁, hmp₁, hbounds⟩

theorem moveArea (ha : s.areas a = some vma) (hv : vma'.Moved vma) :
    Store (s.setArea a (some vma')) A :=
  h.keepArea ha hv.olink hv.vmmap hv.low hv.high

theorem setObj {A' : ℕ → Option ObjId} (ho : s.objs o = some ob)
    (hobjs : Objs (s.setObj o (some ob')) A') (hops : ob'.mmoOps = ob.mmoOps)
    (hvmas : ob'.mmoVmas = ob.mmoVmas) : Store (s.setObj o (some ob')) A' := by
  have hold : ∀ u ub', update s.objs o (some ob') u = some ub' →
      ∃ ub, s.objs u = some ub ∧ ub'.mmoOps = ub.mmoOps ∧ ub'.mmoVmas = ub.mmoVmas := by
    exact fun u ub' hub ↦ exists_of_update hub ho (by rintro rfl; exact ⟨hops, hvmas⟩) ⟨rfl, rfl⟩
  refine ⟨hobjs, h.links.of_rest (.setObj s o _) ?_, h.quiet.of_sub (fun _ _ hf ↦ hf) ?_ rfl⟩
  · intro u ub' hub
    obtain ⟨ub, hu, -, hv⟩ := hold u ub' hub
    exact ⟨ub, hu, hv⟩
  · intro u ub' hub
    obtain ⟨ub, hu, hops, -⟩ := hold u ub' hub
    exact ⟨ub, hu, hops⟩

theorem ref (ho : s.objs o = some ob) {b : ℕ} (hb : A b = none) :
    Store (s.setObj o (some { ob with mmoRefcount := ob.mmoRefcount + 1 }))
      (update A b (some o)) :=
  h.setObj ho (h.objs.addRef ho hb) rfl rfl

theorem setVmas (ho : s.objs o = some ob) (hnodup : l.Nodup)
    (hl : ∀ b ∈ l, ∃ vma m mp, s.areas b = some vma ∧ vma.vmaOlink = some o ∧
      vma.vmaVmmap = some m ∧ s.maps m = some mp ∧ lowPage ≤ vma.vmaStart ∧
      vma.vmaEnd ≤ highPage) : Store (s.setObj o (some { ob with mmoVmas := l })) A := by
  refine ⟨h.objs.setVmas ho l, ⟨?_, ?_, h.links.proc⟩, h.quiet.of_sub (fun _ _ hf ↦ hf) ?_ rfl⟩
  · intro u ub hub
    rcases of_update_some hub with ⟨rfl, rfl⟩ | ⟨-, hub⟩
    · exact hnodup
    · exact h.links.nodup u ub hub
  · intro u ub b hub hb
    rcases of_update_some hub with ⟨rfl, rfl⟩ | ⟨-, hub⟩
    · exact hl b hb
    · exact h.links.area u ub b hub hb
  · exact fun u ub hub ↦ exists_of_update hub ho (by rintro rfl; rfl) rfl

theorem link {n : Vmmap} (ho : s.objs o = some ob) (hun : s.Unlinked a)
    (ha : s.areas a = some vma) (holink : vma.vmaOlink = some o) (hvm : vma.vmaVmmap = some m)
    (hm : s.maps m = some n) (hlow : lowPage ≤ vma.vmaStart) (hhigh : vma.vmaEnd ≤ highPage) :
    Store (s.setObj o (some { ob with mmoVmas := a :: ob.mmoVmas })) A := by
  refine h.setVmas ho (List.nodup_cons.mpr ⟨hun o ob ho, h.links.nodup o ob ho⟩) ?_
  intro b hb
  rcases List.mem_cons.mp hb with rfl | hb
  · exact ⟨vma, m, n, ha, holink, hvm, hm, hlow, hhigh⟩
  · exact h.links.area o ob b ho hb

theorem unlink (a : AreaId) (olink : Option ObjId) : Store (s.unlinkVma a olink) A := by
  rcases Mem.unlinkVma_cases s a olink with heq | ⟨o, ob, ho, heq⟩
  · rw [heq]
    exact h
  · rw [heq]
    exact h.setVmas ho ((h.links.nodup o ob ho).erase a)
      fun b hb ↦ h.links.area o ob b ho (List.mem_of_mem_erase hb)

/-- A new object takes over the reference of a slot. -/
theorem create {b : ℕ} {nob : MmObj}
    (hobjs : s'.objs = update s.objs s.next (some nob)) (hframes : s'.frames = s.frames)
    (hhash : s'.pframeHash = s.pframeHash) (hvnodes : s'.vnodes = s.vnodes)
    (hareas : s'.areas = s.areas) (hmaps : s'.maps = s.maps) (hprocs : s'.procs = s.procs)
    (hnext : s.next < s'.next) (hshadow : nob.mmoShadowed = A b)
    (hops : nob.mmoOps = if A b = none then .anon else .shadow)
    (hbottom : ∀ u, A b = some u → ∃ q, nob.mmoBottomObj = some q ∧ s.bottomObj u = .ok q)
    (hcount : nob.mmoRefcount = 1) (hnres : nob.mmoNrespages = 0) (hres : nob.mmoRespages = [])
    (hvmas : nob.mmoVmas = []) : Store s' (update A b (some s.next)) := by
  refine ⟨h.objs.create hobjs hframes hhash hvnodes hnext hshadow hops hbottom hcount hnres hres,
    ⟨?_, ?_, ?_⟩, ⟨?_, ?_, ?_⟩⟩
  · intro u ub hub
    rw [hobjs] at hub
    rcases of_update_some hub with ⟨-, rfl⟩ | ⟨-, hub⟩
    · rw [hvmas]
      exact List.nodup_nil
    · exact h.links.nodup u ub hub
  · intro u ub c hub hc
    rw [hareas, hmaps]
    rw [hobjs] at hub
    rcases of_update_some hub with ⟨-, rfl⟩ | ⟨-, hub⟩
    · rw [hvmas] at hc
      cases hc
    · exact h.links.area u ub c hub hc
  · intro m mp p hm hp
    rw [hprocs]
    exact h.links.proc m mp p (hmaps ▸ hm) hp
  · exact fun f pf hf ↦ h.quiet.busy f pf (hframes ▸ hf)
  · exact fun f pf hf ↦ h.quiet.pins f pf (hframes ▸ hf)
  · intro f pf ub v vn hf hub hv hvn
    rw [hframes] at hf
    rw [hobjs] at hub
    rw [hvnodes] at hvn
    rcases of_update_some hub with ⟨-, rfl⟩ | ⟨-, hub⟩
    · rw [hops] at hv
      split at hv <;> cases hv
    · exact h.quiet.within f pf ub v vn hf hub hv hvn

end

end Store

end

/-- Areas, maps and objects fit together.  `L` says for which anonymous objects exceptions
are made. -/
structure Held (L : ObjId → Prop) (s : Mem) : Prop where
  fresh : ∀ (a : ℕ) vma, s.areas a = some vma → a < s.next
  store : Store s s.heldBy
  swept : Swept L s s.heldBy
  area : ∀ a vma, s.areas a = some vma → ∃ m mp, vma.vmaVmmap = some m ∧
    s.maps m = some mp ∧ a ∈ mp.vmmList ∧ lowPage ≤ vma.vmaStart ∧ vma.vmaEnd ≤ highPage
  vnodes : ∀ v vn, s.vnodes v = some vn →
    ∃ ob, s.objs vn.vnMmobj = some ob ∧ ob.mmoOps = .vnode v

variable {L : ObjId → Prop} {s s₁ s' : Mem} {m : MapId} {mp : Vmmap} {a b : AreaId}
  {vma : VmArea} {o : ObjId} {ob : MmObj} {lo hi : ℕ}

theorem Held.areas_next (h : Held L s) : s.areas s.next = none := by
  cases ha : s.areas s.next with
  | none => rfl
  | some vma => exact absurd (h.fresh _ vma ha) (Nat.lt_irrefl _)

theorem Held.mono {L' : ObjId → Prop} (h : Held L s) (hL : ∀ o, L o → L' o) : Held L' s :=
  ⟨h.fresh, h.store, fun u ub hub ↦ (h.swept u ub hub).imp_right
    (Or.imp_right (And.imp_right (hL u))), h.area, h.vnodes⟩

theorem Held.vnodes_of_cores (h : Held L s) (hc : s'.cores = s.cores)
    (hv : s'.vnodes = s.vnodes) (v : VnodeId) (vn : Vnode) (hvn : s'.vnodes v = some vn) :
    ∃ ob, s'.objs vn.vnMmobj = some ob ∧ ob.mmoOps = .vnode v := by
  obtain ⟨ob, hob, hops⟩ := h.vnodes v vn (hv ▸ hvn)
  obtain ⟨ob', hob', hcore⟩ := Mem.exists_of_cores hc.symm hob
  exact ⟨ob', hob', (congrArg Prod.fst hcore.symm).trans hops⟩

theorem Held.draw (h : Held L s) (k : Allocator) : Held L (s.draw k) :=
  ⟨h.fresh, h.store.draw k, h.swept.same rfl, h.area, h.vnodes⟩

/-! ## Removal -/

theorem Held.move {vma' : VmArea} (h : Held L s) (ha : s.areas a = some vma)
    (hv : vma'.Moved vma) : Held L (s.setArea a (some vma')) := by
  have hheld : (s.setArea a (some vma')).heldBy = s.heldBy := by
    rw [Mem.heldBy_update rfl, Option.bind_some, hv.obj, update_eq_self_iff,
      Mem.heldBy_of_area ha]
  refine ⟨lt_of_update h.fresh (h.fresh a vma ha), ?_, ?_, ?_, h.vnodes⟩
  · rw [hheld]
    exact h.store.moveArea ha hv
  · rw [hheld]
    exact h.swept.same rfl
  · intro b vb hb
    rcases of_update_some hb with ⟨rfl, rfl⟩ | ⟨-, hb⟩
    · obtain ⟨m, mp, hm, hmp, hmem, -⟩ := h.area b vma ha
      exact ⟨m, mp, hv.vmmap.trans hm, hmp, hmem, hv.low, hv.high⟩
    · exact h.area b vb hb

theorem Held.erase (h : Held L s) (hm : s.maps m = some mp)
    (hareas : s'.areas = update s.areas a none)
    (hmaps : s'.maps = update s.maps m (some { mp with vmmList := mp.vmmList.erase a }))
    (hnext : s.next ≤ s'.next) (hstore : Store s' (update s.heldBy a none))
    (hswept : Swept L s' (update s.heldBy a none))
    (hvnodes : ∀ v vn, s'.vnodes v = some vn →
      ∃ ob, s'.objs vn.vnMmobj = some ob ∧ ob.mmoOps = .vnode v) : Held L s' := by
  have hheld : s'.heldBy = update s.heldBy a none := Mem.heldBy_update hareas
  have hold : ∀ b vb, s'.areas b = some vb → b ≠ a ∧ s.areas b = some vb := by
    intro b vb hb
    rw [hareas] at hb
    exact of_update_none hb
  refine ⟨?_, hheld ▸ hstore, hheld ▸ hswept, ?_, hvnodes⟩
  · exact fun b vb hb ↦ (h.fresh b vb (hold b vb hb).2).trans_le hnext
  · intro b vb hb
    obtain ⟨hne, hb⟩ := hold b vb hb
    obtain ⟨m₁, mp₁, hm₁, hmp₁, hmem, hbounds⟩ := h.area b vb hb
    rw [hmaps]
    rcases eq_or_ne m₁ m with rfl | hmne
    · cases hm.symm.trans hmp₁
      exact ⟨m₁, _, hm₁, update_self .., (List.mem_erase_of_ne hne).mpr hmem, hbounds⟩
    · exact ⟨m₁, mp₁, hm₁, update_other hmne hmp₁, hmem, hbounds⟩

theorem dropArea_held (h : Held L s) (hL : Spare L s) (ha : s.areas a = some vma)
    (hd : s.dropArea m a vma = .ok s') : Held L s' ∧ Spare L s' := by
  obtain ⟨o, ho, hd⟩ := bind_follow hd
  obtain ⟨s₁, hput, hd⟩ := bind_ok hd
  obtain ⟨mp, hmp₂, hd⟩ := bind_follow hd
  have hslot : s.heldBy a = some o := (Mem.heldBy_of_area ha).trans ho
  obtain ⟨s₁', hput', hstore, hrest, hev, hshed⟩ := put_sound h.store hslot
  cases hput.symm.trans hput'
  have hs₂ := (Mem.unlinkVma_changes s₁ a vma.vmaOlink).sameMaps
  have hmp₀ : s.maps m = some mp := by rw [← hrest.maps, ← hs₂.maps, hmp₂]
  have hun : (s₁.unlinkVma a vma.vmaOlink).Unlinked a :=
    unlinkVma_unlinked hstore.links (hrest.areas ▸ ha)
  have hcores : (s₁.unlinkVma a vma.vmaOlink).cores = s₁.cores := Mem.cores_unlinkVma ..
  have hvn₂ : (s₁.unlinkVma a vma.vmaOlink).vnodes = s.vnodes := by
    rw [← hrest.vnodes]
    cases vma.vmaOlink <;> rfl
  rw [← pure_eq_ok.mp hd]
  refine ⟨h.erase (a := a) hmp₀ ?_ ?_ (hrest.next.trans hs₂.next) ?_ ?_ ?_, ?_⟩
  · rw [Mem.setArea_areas, Mem.setMap_areas, hs₂.areas, hrest.areas]
  · rw [Mem.setArea_maps, Mem.setMap_maps, hs₂.maps, hrest.maps]
  · exact ((hstore.unlink a vma.vmaOlink).setMap (n := { mp with
      vmmList := mp.vmmList.erase a }) hmp₂ rfl).setArea hun none
  · exact (hshed.swept L hL h.swept).same hcores
  · intro v vn hvn
    obtain ⟨ob, hob, hops⟩ := h.vnodes v vn (hvn₂ ▸ hvn)
    obtain ⟨ob₁, hob₁, hops₁⟩ := hev.vnode _ ob v hob hops
    obtain ⟨ob₂, hob₂, hcore⟩ := Mem.exists_of_cores hcores.symm hob₁
    exact ⟨ob₂, hob₂, (congrArg Prod.fst hcore.symm).trans hops₁⟩
  · exact (hshed.spare L hL).congr hcores

theorem destroyArea_held (h : Held L s) (hL : Spare L s)
    (hd : Mem.destroyArea m s a = .ok s') : Held L s' ∧ Spare L s' := by
  obtain ⟨vma, ha, hd⟩ := bind_follow hd
  obtain ⟨mp, hm, hd⟩ := bind_follow hd
  obtain ⟨o, ho, hd⟩ := bind_follow hd
  obtain ⟨s₁, hput, hd⟩ := bind_ok hd
  let s₀ := s.setMap m (some { mp with vmmList := mp.vmmList.erase a })
  let s₂ := s₀.unlinkVma a vma.vmaOlink
  have hs₂ : Mem.SameMaps s₀ s₂ := (Mem.unlinkVma_changes s₀ a vma.vmaOlink).sameMaps
  have hstore₀ : Store s₀ s.heldBy := h.store.setMap hm rfl
  have hstore₂ : Store s₂ s.heldBy := hstore₀.unlink a vma.vmaOlink
  have hun₂ : s₂.Unlinked a := unlinkVma_unlinked hstore₀.links ha
  have hcores : s₂.cores = s.cores := Mem.cores_unlinkVma ..
  have hvn₂ : s₂.vnodes = s.vnodes := by
    show (s₀.unlinkVma a vma.vmaOlink).vnodes = _
    cases vma.vmaOlink <;> rfl
  have hslot : s.heldBy a = some o := (Mem.heldBy_of_area ha).trans ho
  obtain ⟨s₁', hput', hstore, hrest, hev, hshed⟩ := put_sound hstore₂ hslot
  cases hput.symm.trans hput'
  have hL₂ : Spare L s₂ := hL.congr hcores
  rw [← pure_eq_ok.mp hd]
  refine ⟨h.erase (a := a) hm ?_ ?_ (hs₂.next.trans hrest.next) ?_ ?_ ?_, ?_⟩
  · rw [Mem.setArea_areas, hrest.areas, hs₂.areas]
    rfl
  · rw [Mem.setArea_maps, hrest.maps, hs₂.maps]
    rfl
  · refine hstore.setArea ?_ none
    intro u ub hub
    obtain ⟨ub₂, hub₂, -, hvmas⟩ := hshed.objs u ub hub
    rw [hvmas]
    exact hun₂ u ub₂ hub₂
  · exact (hshed.swept L hL₂ (h.swept.same hcores)).same rfl
  · intro v vn hvn
    have hvn' : s₁.vnodes v = some vn := hvn
    rw [hrest.vnodes] at hvn'
    obtain ⟨ob, hob, hops⟩ := h.vnodes_of_cores hcores hvn₂ v vn hvn'
    exact hev.vnode _ ob v hob hops
  · exact (hshed.spare L hL₂).congr rfl

theorem mem_insertBefore {x : ℕ} {l : List ℕ} :
    x ∈ insertBefore a b l ↔ x ∈ l ∨ (x = b ∧ a ∈ l) := by
  induction l with
  | nil => simp [insertBefore]
  | cons y l ih =>
    unfold insertBefore
    split
    · next hy =>
      subst hy
      simp only [List.mem_cons, true_or, and_true]
      exact or_comm
    · next hy =>
      simp only [List.mem_cons, ih, Ne.symm hy, false_or]
      exact (or_assoc).symm

/-- What splitting an area does: with memory for the new area, the object gets one more
reference, and the new area goes on the map and on the list that the old one is on. -/
theorem splitArea_cases (h : s.splitArea m lo hi a vma = .ok s') :
    (s.grants .vmarea = false ∧ s' = s.draw .vmarea) ∨
    ∃ o ob mp q s₂, vma.vmaObj = some o ∧ s.objs o = some ob ∧ s.maps m = some mp ∧
      (((s.draw .vmarea).bump.setObj o (some { ob with
        mmoRefcount := ob.mmoRefcount + 1 })).setMap m (some { mp with
        vmmList := insertBefore a s.next mp.vmmList })).linkBottom o q s.next = .ok s₂ ∧
      s' = (s₂.setArea s.next (some (vma.left lo (if q = o then none else some q)))).setArea a
        (some (vma.right lo hi)) ∧
      s.bottomObj o = .ok q := by
  unfold Mem.splitArea Mem.vmareaAlloc at h
  cases hg : s.grants .vmarea with
  | false =>
    rw [hg] at h
    exact .inl ⟨rfl, (pure_eq_ok.mp h).symm⟩
  | true =>
    rw [hg] at h
    obtain ⟨o, ho, h⟩ := bind_follow h
    obtain ⟨s₁, href, h⟩ := bind_ok h
    obtain ⟨ob, hob, -, rfl⟩ := Mem.ref_eq_ok.mp href
    obtain ⟨mp, hmp, h⟩ := bind_follow h
    obtain ⟨q, hq, h⟩ := bind_ok h
    obtain ⟨s₂, hlink, h⟩ := bind_ok h
    refine .inr ⟨o, ob, mp, q, s₂, ho, hob, hmp, hlink,
      (pure_eq_ok.mp h).symm, ?_⟩
    refine bottomObj_of_like hq ?_
    intro ub hub
    refine ⟨ob, hob, ?_⟩
    have hx : update s.objs o (some { ob with mmoRefcount := ob.mmoRefcount + 1 }) o = some ub :=
      hub
    rw [update_self] at hx
    cases hx
    exact ⟨rfl, rfl, rfl⟩

theorem splitArea_held (h : Held L s) (hL : Spare L s) (ha : s.areas a = some vma)
    (hvm : vma.vmaVmmap = some m) (hlo : vma.vmaStart < lo) (hlohi : lo < hi)
    (hhi : hi < vma.vmaEnd) (hs : s.splitArea m lo hi a vma = .ok s') : Held L s' ∧ Spare L s' := by
  obtain ⟨m', mp', hm', hmp', hmem, hlow, hhigh⟩ := h.area a vma ha
  cases hvm.symm.trans hm'
  rcases splitArea_cases hs with ⟨-, rfl⟩ | ⟨o, ob, mp, q, s₂, ho, hob, hmp, hlink, rfl, -⟩
  · exact ⟨h.draw _, hL.congr rfl⟩
  obtain rfl : mp = mp' := Option.some.inj (hmp.symm.trans hmp')
  let left := vma.left lo (if q = o then none else some q)
  let right := vma.right lo hi
  let t := (s₂.setArea s.next (some left)).setArea a (some right)
  have hane : a ≠ s.next := (h.fresh a vma ha).ne
  have hslot : s.heldBy s.next = none := by rw [Mem.heldBy, h.areas_next, Option.bind_none]
  -- the state in which the new area is stored
  have hstore₁ := (((h.store.draw .vmarea).bump).ref hob hslot).setMap
    (n := { mp with vmmList := insertBefore a s.next mp.vmmList }) hmp rfl
  have hun₁ := hstore₁.links.unlinked h.areas_next
  have hright : right.Moved vma := by
    refine ⟨rfl, rfl, rfl, rfl, ?_, ?_, hhigh⟩
    · show hi + vma.vmaOff = vma.vmaStart + (vma.vmaOff + (lo - vma.vmaStart) + (hi - lo))
      omega
    · show lowPage ≤ hi
      omega
  have hheld : update (update s.heldBy s.next (some o)) a (some o) =
      update s.heldBy s.next (some o) := by
    rw [update_eq_self_iff, update_of_ne hane, Mem.heldBy_of_area ha, ho]
  have hcores₁ : (((s.draw .vmarea).bump.setObj o (some { ob with
      mmoRefcount := ob.mmoRefcount + 1 })).setMap m (some { mp with
      vmmList := insertBefore a s.next mp.vmmList })).cores = s.cores :=
    Mem.cores_setObj hob rfl
  -- all that depends on whether the new area is linked
  obtain ⟨hstore, hareas, hmaps, hcores, hvn, hnext⟩ :
      Store t (update s.heldBy s.next (some o)) ∧ s₂.areas = s.areas ∧
      s₂.maps = update s.maps m (some { mp with
        vmmList := insertBefore a s.next mp.vmmList }) ∧
      s₂.cores = s.cores ∧ s₂.vnodes = s.vnodes ∧ s.next < s₂.next := by
    unfold Mem.linkBottom at hlink
    split at hlink
    · next hq =>
      cases hlink
      refine ⟨?_, rfl, rfl, hcores₁, rfl, Nat.lt_succ_self _⟩
      refine (hstore₁.setArea hun₁ _).moveArea ?_ hright
      exact update_other hane ha
    · next hq =>
      obtain ⟨qb, hqb, rfl⟩ := Mem.linkVma_eq_ok.mp hlink
      have hcores₂ := Mem.cores_setObj (b := { qb with mmoVmas := s.next :: qb.mmoVmas }) hqb rfl
      refine ⟨?_, rfl, rfl, hcores₂.trans hcores₁, rfl, Nat.lt_succ_self _⟩
      have hlinked := (hstore₁.setArea hun₁ (some (vma.left lo (some q)))).link hqb hun₁
        (update_self ..) rfl hvm
        (update_self ..) hlow (show lo ≤ highPage by omega)
      dsimp only [t, left]
      rw [if_neg hq]
      exact hlinked.moveArea (update_other hane ha) hright
  have hareas' : t.areas = update (update s.areas s.next (some left)) a (some right) := by
    rw [Mem.setArea_areas, Mem.setArea_areas, hareas]
  have hheld' : t.heldBy = update s.heldBy s.next (some o) := by
    rw [Mem.heldBy_update rfl, Mem.heldBy_update rfl, Mem.heldBy_congr hareas, Option.bind_some,
      Option.bind_some]
    show update (update s.heldBy s.next vma.vmaObj) a vma.vmaObj = _
    rw [ho, hheld]
  refine ⟨⟨?_, hheld'.symm ▸ hstore, ?_, ?_, ?_⟩, hL.congr hcores⟩
  · have hfresh := fun c vc hc ↦ (h.fresh c vc hc).trans hnext
    rw [hareas']
    exact lt_of_update (lt_of_update hfresh hnext) (hfresh a vma ha)
  · rw [hheld']
    refine h.swept.congr hcores fun c u hc ↦ ⟨c, ?_⟩
    rw [update_of_ne, hc]
    rintro rfl
    cases hslot.symm.trans hc
  · intro c vc hc
    rw [hareas'] at hc
    have hmap : ∀ m₁ mp₁, s.maps m₁ = some mp₁ → ∃ mp₂, s₂.maps m₁ = some mp₂ ∧
        ∀ x ∈ mp₁.vmmList, x ∈ mp₂.vmmList := by
      intro m₁ mp₁ hmp₁
      rw [hmaps]
      exact exists_update hmp₁ hmp (by rintro rfl x hx; exact mem_insertBefore.mpr (.inl hx))
        fun x hx ↦ hx
    rcases of_update_some hc with ⟨rfl, rfl⟩ | ⟨-, hc⟩
    · obtain ⟨mp₂, hmp₂, hsub⟩ := hmap m mp hmp
      exact ⟨m, mp₂, hvm, hmp₂, hsub c hmem, hright.low, hright.high⟩
    rcases of_update_some hc with ⟨rfl, rfl⟩ | ⟨-, hc⟩
    · refine ⟨m, { mp with vmmList := insertBefore a s.next mp.vmmList }, hvm, ?_,
        mem_insertBefore.mpr (.inr ⟨rfl, hmem⟩), hlow, ?_⟩
      · show s₂.maps m = _
        rw [hmaps, update_self]
      · show lo ≤ highPage
        omega
    · obtain ⟨m₁, mp₁, hm₁, hmp₁, hc₁, hbounds⟩ := h.area c vc hc
      obtain ⟨mp₂, hmp₂, hsub⟩ := hmap m₁ mp₁ hmp₁
      exact ⟨m₁, mp₂, hm₁, hmp₂, hsub c hc₁, hbounds⟩
  · exact h.vnodes_of_cores hcores hvn

/-- **The rule for the loop of `vmmap_remove`.**  `P l` holds before the areas `l` are gone
through, and each turn takes it from a list to its tail. -/
theorem removeLoop_rule {P : List AreaId → Mem → Prop} {Q : Mem → Prop}
    (hnil : ∀ s, P [] s → Q s)
    (hskip : ∀ a l s vma, P (a :: l) s → s.areas a = some vma → vma.Avoids lo hi → P l s)
    (hsplit : ∀ a l s s' vma, P (a :: l) s → s.areas a = some vma → vma.vmaStart < lo →
      hi < vma.vmaEnd → s.splitArea m lo hi a vma = .ok s' → Q s')
    (hlow : ∀ a l s vma, P (a :: l) s → s.areas a = some vma → ¬ vma.Avoids lo hi →
      vma.vmaStart < lo → vma.vmaEnd ≤ hi → P l (s.setArea a (some { vma with vmaEnd := lo })))
    (hhigh : ∀ a l s vma, P (a :: l) s → s.areas a = some vma → ¬ vma.Avoids lo hi →
      lo ≤ vma.vmaStart → hi < vma.vmaEnd → P l (s.setArea a (some { vma with
        vmaStart := hi
        vmaOff := vma.vmaOff + (hi - vma.vmaStart) })))
    (hdrop : ∀ a l s s' vma, P (a :: l) s → s.areas a = some vma → lo ≤ vma.vmaStart →
      vma.vmaEnd ≤ hi → s.dropArea m a vma = .ok s' → P l s') :
    ∀ {l s s'}, P l s → Mem.removeLoop m lo hi l s = .ok s' → Q s' := by
  intro l
  induction l with
  | nil =>
    intro s s' hP h
    cases h
    exact hnil s hP
  | cons a l ih =>
    intro s s' hP h
    obtain ⟨vma, ha, h⟩ := bind_follow h
    split at h
    · next hav => exact ih (hskip a l s vma hP ha hav) h
    next hav =>
    split at h
    · next hsur => exact hsplit a l s s' vma hP ha hsur.1 hsur.2 h
    next hsur =>
    split at h
    · next hlo =>
      exact ih (hlow a l s vma hP ha hav hlo (not_lt.mp fun hhi ↦ hsur ⟨hlo, hhi⟩)) h
    next hlo =>
    split at h
    · next hhi => exact ih (hhigh a l s vma hP ha hav (not_lt.mp hlo) hhi) h
    next hhi =>
    obtain ⟨s₁, hdr, h⟩ := bind_ok h
    exact ih (hdrop a l s s₁ vma hP ha (not_lt.mp hlo) (not_lt.mp hhi) hdr) h

/-- The areas of the list know that they are on the map `m`. -/
def OnMap (m : MapId) (l : List AreaId) (s : Mem) : Prop :=
  l.Nodup ∧ ∀ a ∈ l, ∀ vma, s.areas a = some vma → vma.vmaVmmap = some m

theorem OnMap.tail (h : OnMap m (a :: l) s)
    (hs : ∀ b ≠ a, s'.areas b = s.areas b) : OnMap m l s' := by
  obtain ⟨hnodup, hmap⟩ := h
  rw [List.nodup_cons] at hnodup
  refine ⟨hnodup.2, fun b hb vb hvb ↦ ?_⟩
  rw [hs b (ne_of_mem_of_not_mem hb hnodup.1)] at hvb
  exact hmap b (List.mem_cons_of_mem _ hb) vb hvb

theorem TidyMap.onMap (h : TidyMap s m mp) : OnMap m mp.vmmList s := by
  refine ⟨h.nodup, fun a ha vma hvma ↦ ?_⟩
  obtain ⟨vma', hvma', hm⟩ := h.live a ha
  cases hvma.symm.trans hvma'
  exact hm

theorem VmArea.moved_below (hlow : lowPage ≤ vma.vmaStart) (hhigh : lo ≤ highPage) :
    VmArea.Moved { vma with vmaEnd := lo } vma :=
  ⟨rfl, rfl, rfl, rfl, rfl, hlow, hhigh⟩

theorem VmArea.moved_above (hhi : vma.vmaStart ≤ hi) (hlow : lowPage ≤ hi)
    (hhigh : vma.vmaEnd ≤ highPage) : VmArea.Moved { vma with
      vmaStart := hi
      vmaOff := vma.vmaOff + (hi - vma.vmaStart) } vma := by
  refine ⟨rfl, rfl, rfl, rfl, ?_, hlow, hhigh⟩
  show hi + vma.vmaOff = vma.vmaStart + (vma.vmaOff + (hi - vma.vmaStart))
  omega

theorem removeLoop_held (h : Held L s) (hL : Spare L s) (hmap : OnMap m l s)
    (hlohi : lo < hi) (hlow : lowPage ≤ lo) (hhigh : hi ≤ highPage)
    (hs : Mem.removeLoop m lo hi l s = .ok s') : Held L s' ∧ Spare L s' := by
  refine removeLoop_rule (P := fun l s ↦ (Held L s ∧ Spare L s) ∧ OnMap m l s)
    (fun s hP ↦ hP.1) ?_ ?_ ?_ ?_ ?_ ⟨⟨h, hL⟩, hmap⟩ hs
  · exact fun a l s vma hP _ _ ↦ ⟨hP.1, hP.2.tail fun _ _ ↦ rfl⟩
  · rintro a l s s' vma ⟨⟨h, hL⟩, hmap⟩ ha hlo hhi hsp
    exact splitArea_held h hL ha (hmap.2 a List.mem_cons_self vma ha) hlo hlohi hhi hsp
  · rintro a l s vma ⟨⟨h, hL⟩, hmap⟩ ha - hlo -
    obtain ⟨-, -, -, -, -, hlow', -⟩ := h.area a vma ha
    refine ⟨⟨h.move ha (VmArea.moved_below hlow' (by omega)), hL.congr rfl⟩, hmap.tail ?_⟩
    exact fun b hb ↦ update_of_ne hb ..
  · rintro a l s vma ⟨⟨h, hL⟩, hmap⟩ ha hav hlo hhi
    obtain ⟨-, -, -, -, -, -, hhigh'⟩ := h.area a vma ha
    have hle : vma.vmaStart ≤ hi := by
      by_contra hlt
      exact hav (.inl (not_le.mp hlt).le)
    refine ⟨⟨h.move ha (VmArea.moved_above hle (by omega) hhigh'), hL.congr rfl⟩, hmap.tail ?_⟩
    exact fun b hb ↦ update_of_ne hb ..
  · rintro a l s s' vma ⟨⟨h, hL⟩, hmap⟩ ha - - hdrop
    obtain ⟨m', mp', hm', hmp', -⟩ := h.area a vma ha
    cases (hmap.2 a List.mem_cons_self vma ha).symm.trans hm'
    obtain ⟨hareas, -⟩ := Mem.dropArea_maps hmp' hdrop
    refine ⟨dropArea_held h hL ha hdrop, hmap.tail fun b hb ↦ ?_⟩
    rw [hareas, update_of_ne hb]

theorem vmmapRemove_held {lopage npages : ℕ} (h : Held L s) (hL : Spare L s) (ht : Tidy s)
    (hs : s.vmmapRemove m lopage npages = .ok s') : Held L s' ∧ Spare L s' := by
  obtain ⟨mp, hm⟩ := exists_map_of_vmmapRemove hs
  obtain ⟨empty, hempty, hs⟩ := bind_ok hs
  obtain ⟨⟨hlohi, hlow, hhigh⟩, -⟩ := Mem.vmmapIsRangeEmpty_eq_ok hempty hm
  split at hs
  · cases hs
    exact ⟨h, hL⟩
  · rw [hm, follow_bind] at hs
    exact removeLoop_held h hL (ht.map m mp hm).onMap hlohi hlow hhigh hs

end CS402.Mm

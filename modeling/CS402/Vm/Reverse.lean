import CS402.Vm.Reclaim

/-!
# The reverse map

From the page to the processes that have it mapped the way goes through the bottom object
of the object of the page, and the areas on its list.  `pframe_remove_from_pts` goes this
way, so a page that it is called for leaves all page directories if two things hold: all
areas are on these lists (`Linked`), and every entry of a page directory comes from an
area that shows the page there (`Tracked`).

Neither holds in general.  `vmmap_map` puts an area on a list only if it is private, and a
call that takes pages away from an area leaves their entries to its caller.  What is shown
here is that nothing else goes wrong: with private areas only, and entries removed where
areas are cut, both hold wherever the calls lead.

`Tracked X` is the second property up to the entries of `X`, which are the pages that a
call is cutting.
-/

set_option linter.unusedSectionVars false

namespace CS402.Mm

open CS402.Lib Function

namespace Mem

/-- The area shows page `n` of its object as page `v` of the process. -/
def Via (s : Mem) (a : AreaId) (p : Pid) (v n : ℕ) : Prop :=
  ∃ vma m mp, s.areas a = some vma ∧ vma.vmaVmmap = some m ∧ s.maps m = some mp ∧
    mp.vmmProc = some p ∧ vma.Covers v ∧ v + vma.vmaOff = n + vma.vmaStart

/-- The area is on the list of the bottom object of `o`. -/
def On (s : Mem) (a : AreaId) (o : ObjId) : Prop :=
  ∃ b bo, s.bottomObj o = .ok b ∧ s.objs b = some bo ∧ a ∈ bo.mmoVmas

/-- The process has a present entry for page `v`, to the frame `f`. -/
def Entry (s : Mem) (p : Pid) (v : ℕ) (f : FrameId) : Prop :=
  ∃ x t, s.procs p = some x ∧ x.pPagedir.entry v = some t ∧ t.paddr = f

end Mem

/-- The area is private, shows a shadow object and is linked. -/
def Mem.IsLinked [Layout] (s : Mem) (a : AreaId) (vma : VmArea) : Prop :=
  vma.vmaFlags.has mapPrivate = true ∧ ∃ o, vma.vmaObj = some o ∧ s.below o ≠ none ∧ s.On a o

/-- Every area is linked. -/
def Linked [Layout] (s : Mem) : Prop := ∀ a vma, s.areas a = some vma → s.IsLinked a vma

/-- Every entry outside `X` is to a page that a linked area shows there. -/
def Tracked (X : Pid → ℕ → Prop) (s : Mem) : Prop :=
  ∀ p v f, s.Entry p v f → ¬ X p v →
    ∃ pf a, s.frames f = some pf ∧ s.Via a p v pf.pfPagenum ∧ s.On a pf.pfObj

/-- The same as `Tracked` while objects are being freed: the way goes through the bottom
object if that is still there. -/
def Followed (X : Pid → ℕ → Prop) (s : Mem) : Prop :=
  ∀ p v f, s.Entry p v f → ¬ X p v → ∃ pf a, s.frames f = some pf ∧
    s.Via a p v pf.pfPagenum ∧
    ∀ b bo, s.bottomObj pf.pfObj = .ok b → s.objs b = some bo → a ∈ bo.mmoVmas

variable {X Y : Pid → ℕ → Prop} {s s₁ s' : Mem} {A : ℕ → Option ObjId} {a : AreaId} {o : ObjId}
  {ob : MmObj} {f : FrameId} {pf pf' : Pframe} {p : Pid} {v n off : ℕ} {flags prot : Flags}

theorem Tracked.followed (h : Tracked X s) : Followed X s := by
  intro p v f he hX
  obtain ⟨pf, a, hf, hvia, b, bo, hb, hbo, ha⟩ := h p v f he hX
  refine ⟨pf, a, hf, hvia, fun b' bo' hb' hbo' ↦ ?_⟩
  cases hb.symm.trans hb'
  cases hbo.symm.trans hbo'
  exact ha

theorem Followed.tracked (h : Followed X s) (ho : Objs s A) : Tracked X s := by
  intro p v f he hX
  obtain ⟨pf, a, hf, hvia, hon⟩ := h p v f he hX
  obtain ⟨ob, hob⟩ := ho.owned f pf.pfObj pf.pfPagenum ⟨pf, hf, rfl, rfl⟩
  obtain ⟨b, bo, hb, hbo, -⟩ := ho.bottomObj_ok hob
  exact ⟨pf, a, hf, hvia, b, bo, hb, hbo, hon b bo hb hbo⟩

theorem Tracked.mono (h : Tracked X s) (hXY : ∀ p v, X p v → Y p v) : Tracked Y s :=
  fun p v f he hY ↦ h p v f he fun hX ↦ hY (hXY p v hX)

theorem Tracked.narrow (h : Tracked X s) (hX : ∀ p v f, s.Entry p v f → X p v → Y p v) :
    Tracked Y s :=
  fun p v f he hY ↦ h p v f he fun hx ↦ hY (hX p v f he hx)

theorem Mem.Via.congr (h : s.Via a p v n) (hareas : s'.areas = s.areas) (hmaps : s'.maps = s.maps) :
    s'.Via a p v n := by
  unfold Mem.Via
  rw [hareas, hmaps]
  exact h

theorem Mem.Entry.of_procsLe (h : s'.Entry p v f) (hP : Mem.ProcsLe s'.procs s.procs) :
    s.Entry p v f := by
  obtain ⟨x', t, hx', ht, hf⟩ := h
  rcases hP p with hp | ⟨x, pd, hx, hle, hp⟩
  · exact ⟨x', t, hp ▸ hx', ht, hf⟩
  · cases hp.symm.trans hx'
    exact ⟨x, t, hx, hle.entry v t ht, hf⟩

/-! ## Leaving the page directories -/

section

variable [Layout]

/-- A turn of the loop of `pframe_remove_from_pts` removes the entry that the area shows the
page by. -/
theorem unmapFrom_entry (hvia : s.Via a p v n) (hs : Mem.unmapFrom n s a = .ok s') :
    ¬ s'.Entry p v f := by
  obtain ⟨vma, m, mp, hvma, hm, hmp, hp, ⟨hlo, hhi⟩, hshift⟩ := hvia
  unfold Mem.unmapFrom at hs
  rw [hvma, follow_bind, if_pos (by omega), hm, follow_bind, hmp, follow_bind, hp] at hs
  obtain ⟨x, hx, hs⟩ := bind_ok hs
  obtain ⟨pd, hpd, hs⟩ := bind_ok hs
  obtain ⟨_, -, hpd⟩ := bind_ok hpd
  rw [← pure_eq_ok.mp hs]
  rintro ⟨x', t, hx', ht, -⟩
  rw [Mem.setProc_procs, update_self] at hx'
  cases hx'
  have hv : vma.vmaStart + n - vma.vmaOff = v := by omega
  rw [← pure_eq_ok.mp hpd, hv, vaddrToPdindex, vaddrToPtindex, addrToPn_pnToAddr,
    Pagedir.entry_clear, if_pos ⟨rfl, decide_eq_true rfl⟩] at ht
  cases ht

/-- After `pframe_remove_from_pts` only the excepted pages can have an entry to the frame. -/
theorem pframeRemoveFromPts_entry (h : Followed X s) (hs : s.pframeRemoveFromPts f = .ok s')
    (he : s'.Entry p v f) : X p v := by
  obtain ⟨P, hP, rfl⟩ := Mem.pframeRemoveFromPts_procs hs
  obtain ⟨pf, hpf, hs⟩ := bind_follow hs
  obtain ⟨b, hb, hs⟩ := bind_ok hs
  obtain ⟨bo, hbo, hs⟩ := bind_follow hs
  by_contra hX
  obtain ⟨pf', a, hf, hvia, hon⟩ := h p v f (he.of_procsLe hP) hX
  cases hf.symm.trans hpf
  have ha := hon b bo hb hbo
  -- the loop comes to the area, and what it removes there does not come back
  obtain ⟨-, -, -, hmem | hgone⟩ := foldl_rest (I := fun l s₁ ↦ ∃ P', Mem.ProcsLe P' s.procs ∧
    s₁ = { s with procs := P' } ∧ (a ∈ l ∨ ¬ s₁.Entry p v f)) (by
      rintro c l _ s₂ ⟨P₁, hP₁, rfl, hmem⟩ hstep
      obtain ⟨P₂, hP₂, rfl⟩ := Mem.unmapFrom_procs hstep
      refine ⟨P₂, hP₂.trans hP₁, rfl, ?_⟩
      rcases hmem with hmem | hgone
      · rcases List.mem_cons.mp hmem with rfl | hmem
        · exact .inr (unmapFrom_entry (s := { s with procs := P₁ }) hvia hstep)
        · exact .inl hmem
      · exact .inr fun he ↦ hgone (he.of_procsLe hP₂))
    ⟨s.procs, .refl _, rfl, .inl ha⟩ hs
  · cases hmem
  · exact hgone he

end

/-! ## Freeing pages and objects -/

theorem Followed.carry (h : Followed X s) (hareas : s'.areas = s.areas) (hmaps : s'.maps = s.maps)
    (hprocs : Mem.ProcsLe s'.procs s.procs)
    (hframes : ∀ p v f pf, s'.Entry p v f → ¬ X p v → s.frames f = some pf →
      ∃ pf', s'.frames f = some pf' ∧ pf'.pfObj = pf.pfObj ∧ pf'.pfPagenum = pf.pfPagenum)
    (hobjs : ∀ o ob', s'.objs o = some ob' →
      ∃ ob, s.objs o = some ob ∧ ob'.Like ob ∧ ob'.mmoVmas = ob.mmoVmas) : Followed X s' := by
  intro p v f he hX
  obtain ⟨pf, a, hf, hvia, hon⟩ := h p v f (he.of_procsLe hprocs) hX
  obtain ⟨pf', hf', hobj, hnum⟩ := hframes p v f pf he hX hf
  refine ⟨pf', a, hf', hnum ▸ hvia.congr hareas hmaps, fun b bo' hb hbo' ↦ ?_⟩
  obtain ⟨bo, hbo, -, hvmas⟩ := hobjs b bo' hbo'
  rw [hvmas]
  refine hon b bo (bottomObj_of_like (hobj ▸ hb) fun ub' hub' ↦ ?_) hbo
  obtain ⟨ub, hub, hl, -⟩ := hobjs _ ub' hub'
  exact ⟨ub, hub, hl.ops.symm, hl.shadowed.symm, hl.bottom.symm⟩

theorem frames_setFrame (hf : s.frames f = some pf) (hobj : pf'.pfObj = pf.pfObj)
    (hnum : pf'.pfPagenum = pf.pfPagenum) (g : FrameId) (pg : Pframe) (hg : s.frames g = some pg) :
    ∃ pg', update s.frames f (some pf') g = some pg' ∧ pg'.pfObj = pg.pfObj ∧
      pg'.pfPagenum = pg.pfPagenum :=
  exists_update hg hf (by rintro rfl; exact ⟨hobj, hnum⟩) ⟨rfl, rfl⟩

theorem Followed.setObj {x : Option MmObj} (h : Followed X s)
    (hx : ∀ ob', x = some ob' → ∃ ob, s.objs o = some ob ∧ ob'.Like ob ∧ ob'.mmoVmas = ob.mmoVmas) :
    Followed X (s.setObj o x) := by
  refine h.carry rfl rfl (.refl _) (fun _ _ _ pf _ _ hf ↦ ⟨pf, hf, rfl, rfl⟩) ?_
  intro u ub' hub
  rcases update_eq_some.mp hub with ⟨rfl, hxu⟩ | ⟨-, hub⟩
  · exact hx ub' hxu
  · exact ⟨ub', hub, .refl _, rfl⟩

section

variable [Layout]

theorem followed_freeing (X : Pid → ℕ → Prop) : Mem.Freeing (Followed X) where
  procs h hP := h.carry rfl rfl hP (fun _ _ _ pf _ _ hf ↦ ⟨pf, hf, rfl, rfl⟩)
    fun _ ob' ho ↦ ⟨ob', ho, .refl _, rfl⟩
  frame hf hobj hnum h := h.carry rfl rfl (.refl _)
    (fun _ _ g pg _ _ ↦ frames_setFrame hf hobj hnum g pg) fun _ ob' ho ↦ ⟨ob', ho, .refl _, rfl⟩
  uncache {s s₁ f pf ob} hf hpts hob h := by
    have hgone := fun p v ↦ pframeRemoveFromPts_entry (p := p) (v := v) h hpts
    obtain ⟨P, hP, rfl⟩ := Mem.pframeRemoveFromPts_procs hpts
    refine h.carry rfl rfl hP ?_ ?_
    · intro p v g pg he hX hg
      refine ⟨pg, update_other ?_ hg, rfl, rfl⟩
      rintro rfl
      exact hX (hgone p v he)
    · exact fun u ub' hub ↦
        exists_of_update hub hob (by rintro rfl; exact ⟨⟨rfl, rfl, rfl⟩, rfl⟩) ⟨.refl _, rfl⟩
  count {s o ob} hob h := by
    refine h.setObj fun ob' hx ↦ ?_
    cases hx
    exact ⟨ob, hob, ⟨rfl, rfl, rfl⟩, rfl⟩
  free o h := h.setObj fun _ hx ↦ nomatch hx
  vnodes V h := h.carry rfl rfl (.refl _) (fun _ _ _ pf _ _ hf ↦ ⟨pf, hf, rfl, rfl⟩)
    fun _ ob' ho ↦ ⟨ob', ho, .refl _, rfl⟩

theorem Followed.put (h : Followed X s) (hs : s.put o = .ok s') : Followed X s' :=
  (followed_freeing X).putN hs h

/-! ## Areas are cut -/

variable {L : ObjId → Prop} {m : MapId} {mp mp' : Vmmap} {b c : AreaId} {vma vma' : VmArea}
  {lo hi npages : ℕ} {l : List AreaId} {file : Option VnodeId} {x : Proc}

theorem Mem.On.carry (h : s.On a o) (hobjs : ∀ u ub, s.objs u = some ub →
    ∃ ub', s'.objs u = some ub' ∧ ub'.Like ub ∧ (a ∈ ub.mmoVmas → b ∈ ub'.mmoVmas)) :
    s'.On b o := by
  obtain ⟨q, qb, hq, hqb, ha⟩ := h
  obtain ⟨qb', hqb', -, hmem⟩ := hobjs q qb hqb
  refine ⟨q, qb', bottomObj_of_like hq fun ub hub ↦ ?_, hqb', hmem ha⟩
  obtain ⟨ub', hub', hl, -⟩ := hobjs o ub hub
  exact ⟨ub', hub', hl⟩

theorem Mem.On.congr (h : s.On a o) (hobjs : s'.objs = s.objs) : s'.On a o :=
  h.carry fun _ ub hub ↦ ⟨ub, hobjs ▸ hub, .refl _, fun ha ↦ ha⟩

theorem Mem.On.kept (h : s.On a o) (hk : Kept s s') : s'.On a o := by
  refine h.carry fun u ub hub ↦ ?_
  obtain ⟨ub', hub', hl, hv⟩ := hk.objs u ub hub
  exact ⟨ub', hub', hl, hv a⟩

theorem Kept.below_ne_none (h : Kept s s') (hbelow : s.below o ≠ none) : s'.below o ≠ none := by
  obtain ⟨u, hu⟩ := Option.ne_none_iff_exists'.mp hbelow
  obtain ⟨ob, hob, hsh⟩ := below_eq_some.mp hu
  obtain ⟨ob', hob', hl, -⟩ := h.objs o ob hob
  rw [Mem.below, hob', Option.bind_some, hl.shadowed, hsh]
  exact Option.some_ne_none u

theorem Mem.IsLinked.kept (h : s.IsLinked a vma) (hk : Kept s s') : s'.IsLinked a vma := by
  obtain ⟨hpriv, o, ho, hbelow, hon⟩ := h
  exact ⟨hpriv, o, ho, hk.below_ne_none hbelow, hon.kept hk⟩

theorem Mem.On.sheds {A' : ℕ → Option ObjId} (h : s.On a o) (hs : Sheds s A s' A')
    (ho' : Objs s' A') (hlive : s'.objs o = some ob) : s'.On a o := by
  obtain ⟨q, qb, hq, hqb, ha⟩ := h
  obtain ⟨q', qb', hq', hqb', -⟩ := ho'.bottomObj_ok hlive
  have hback : s.bottomObj o = .ok q' := by
    refine bottomObj_of_like hq' fun ub' hub' ↦ ?_
    obtain ⟨ub, hub, hl, -⟩ := hs.objs o ub' hub'
    exact ⟨ub, hub, hl.ops.symm, hl.shadowed.symm, hl.bottom.symm⟩
  cases hq.symm.trans hback
  obtain ⟨qb₀, hqb₀, -, hvmas⟩ := hs.objs q qb' hqb'
  cases hqb.symm.trans hqb₀
  exact ⟨q, qb', hq', hqb', hvmas ▸ ha⟩

theorem Mem.On.unlink (h : s.On a o) (hne : a ≠ b) (olink : Option ObjId) :
    (s.unlinkVma b olink).On a o := by
  rcases Mem.unlinkVma_cases s b olink with heq | ⟨q, qb, hqb, heq⟩
  · rw [heq]
    exact h
  · rw [heq]
    refine h.carry fun u ub hub ↦ exists_update hub hqb ?_ ⟨.refl _, id⟩
    rintro rfl
    exact ⟨⟨rfl, rfl, rfl⟩, (List.mem_erase_of_ne hne).mpr⟩

theorem Mem.On.olink (h : s.On a o) (hl : Links s) (ha : s.areas a = some vma) :
    ∃ q qb, s.bottomObj o = .ok q ∧ s.objs q = some qb ∧ vma.vmaOlink = some q := by
  obtain ⟨q, qb, hq, hqb, hmem⟩ := h
  obtain ⟨vma', -, -, hvma', holink, -⟩ := hl.area q qb a hqb hmem
  cases ha.symm.trans hvma'
  exact ⟨q, qb, hq, hqb, holink⟩

theorem Tracked.carry (h : Tracked X s) (hentry : ∀ p v f, s'.Entry p v f → s.Entry p v f)
    (hframes : ∀ f pf, s.frames f = some pf →
      ∃ pf', s'.frames f = some pf' ∧ pf'.pfObj = pf.pfObj ∧ pf'.pfPagenum = pf.pfPagenum)
    (hvia : ∀ a p v n, s.Via a p v n → ¬ X p v →
      ∃ b, s'.Via b p v n ∧ ∀ o, s.On a o → s'.On b o) : Tracked X s' := by
  intro p v f he hX
  obtain ⟨pf, a, hf, ha, hon⟩ := h p v f (hentry p v f he) hX
  obtain ⟨pf', hf', hobj, hnum⟩ := hframes f pf hf
  obtain ⟨b, hb, hon'⟩ := hvia a p v _ ha hX
  exact ⟨pf', b, hf', hnum ▸ hb, hobj ▸ hon' _ hon⟩

theorem Tracked.via (h : Tracked X s) (hprocs : s'.procs = s.procs) (hframes : s'.frames = s.frames)
    (hvia : ∀ a p v n, s.Via a p v n → ¬ X p v →
      ∃ b, s'.Via b p v n ∧ ∀ o, s.On a o → s'.On b o) : Tracked X s' :=
  h.carry (fun _ _ _ he ↦ he.of_procsLe (hprocs ▸ .refl _)) (fun _ pf hf ↦ ⟨pf, hframes ▸ hf, rfl, rfl⟩)
    hvia

theorem Mem.Via.maps (h : s.Via a p v n) (harea : s'.areas a = s.areas a)
    (hmaps : ∀ m mp, s.maps m = some mp → ∃ mp', s'.maps m = some mp' ∧ mp'.vmmProc = mp.vmmProc) :
    s'.Via a p v n := by
  obtain ⟨vma, m, mp, hvma, hm, hmp, hp, hcov, hshift⟩ := h
  obtain ⟨mp', hmp', hproc⟩ := hmaps m mp hmp
  exact ⟨vma, m, mp', harea.trans hvma, hm, hmp', hproc.trans hp, hcov, hshift⟩

omit [Layout] in
theorem maps_setMap {n : Vmmap} (hm : s.maps m = some mp) (hp : n.vmmProc = mp.vmmProc) (m₁ : MapId)
    (mp₁ : Vmmap) (hm₁ : s.maps m₁ = some mp₁) :
    ∃ mp₂, update s.maps m (some n) m₁ = some mp₂ ∧ mp₂.vmmProc = mp₁.vmmProc :=
  exists_update hm₁ hm (fun h ↦ h ▸ hp) rfl

omit [Layout] in
theorem maps_of_setMap {n : Vmmap} (hm : s.maps m = some mp) (hp : n.vmmProc = mp.vmmProc)
    (m₁ : MapId) (mp₁ : Vmmap) (hm₁ : update s.maps m (some n) m₁ = some mp₁) :
    ∃ mp₂, s.maps m₁ = some mp₂ ∧ mp₁.vmmProc = mp₂.vmmProc :=
  exists_of_update hm₁ hm (fun h ↦ h ▸ hp) rfl

/-- The map of a process has a name that was given out, and is the map of this process. -/
def Mine (s : Mem) : Prop := ∀ p x (m : ℕ), s.procs p = some x → x.pVmmap = some m →
  m < s.next ∧ ∀ mp, s.maps m = some mp → mp.vmmProc = some p

/-- Areas are linked, entries tracked, and processes and maps belong together. -/
structure Reverse (X : Pid → ℕ → Prop) (s : Mem) : Prop where
  linked : Linked s
  tracked : Tracked X s
  mine : Mine s

omit [Layout] in
theorem Mine.of_procsLe (h : Mine s) (hP : Mem.ProcsLe s'.procs s.procs)
    (hnext : s.next ≤ s'.next) (hmaps : ∀ m mp', s'.maps m = some mp' → ∃ mp,
      s.maps m = some mp ∧ mp'.vmmProc = mp.vmmProc) : Mine s' := by
  intro p x m hx hm
  have hold : m < s.next ∧ ∀ mp, s.maps m = some mp → mp.vmmProc = some p := by
    rcases hP p with hp | ⟨y, pd, hy, -, hp⟩
    · exact h p x m (hp ▸ hx) hm
    · cases hp.symm.trans hx
      exact h p y m hy hm
  refine ⟨hold.1.trans_le hnext, fun mp' hmp' ↦ ?_⟩
  obtain ⟨mp, hmp, hproc⟩ := hmaps m mp' hmp'
  rw [hproc]
  exact hold.2 mp hmp

theorem Reverse.move (h : Reverse X s) (ha : s.areas a = some vma) (hv : vma'.Moved vma)
    (hcov : ∀ p v n, s.Via a p v n → ¬ X p v → vma'.Covers v) :
    Reverse X (s.setArea a (some vma')) := by
  refine ⟨?_, ?_, h.mine⟩
  · intro b vb hb
    rcases of_update_some hb with ⟨rfl, rfl⟩ | ⟨-, hb⟩
    · rw [Mem.IsLinked, hv.flags, hv.obj]
      exact h.linked b vma ha
    · exact h.linked b vb hb
  · refine h.tracked.via rfl rfl ?_
    intro b p v n hvia hX
    refine ⟨b, ?_, fun o hon ↦ hon⟩
    rcases eq_or_ne b a with rfl | hne
    · have hc := hcov p v n hvia hX
      obtain ⟨vb, m, mp, hvb, hm, hmp, hp, -, hshift⟩ := hvia
      cases ha.symm.trans hvb
      have := hv.shift
      exact ⟨vma', m, mp, update_self .., hv.vmmap.trans hm, hmp, hp, hc, by omega⟩
    · obtain ⟨vb, m, mp, hvb, hrest⟩ := hvia
      exact ⟨vb, m, mp, update_other hne hvb, hrest⟩

/-- One area is on its way out: it need not be linked any more, and the pages that it shows
are excepted. -/
structure Parting (X : Pid → ℕ → Prop) (a : AreaId) (s : Mem) : Prop where
  linked : ∀ c ≠ a, ∀ vc, s.areas c = some vc → s.IsLinked c vc
  tracked : Tracked X s
  mine : Mine s
  cut : ∀ p v n, s.Via a p v n → X p v

namespace Parting

theorem ne_of_via (h : Parting X a s) (hvia : s.Via c p v n) (hX : ¬ X p v) : c ≠ a := by
  rintro rfl
  exact hX (h.cut p v n hvia)

theorem put (h : Parting X a s) (hstore : Store s s.heldBy) (ha : s.heldBy a = some o)
    (hput : s.put o = .ok s') : Parting X a s' := by
  obtain ⟨s₁, hput', hstore', hrest, hev, hshed⟩ := put_sound hstore ha
  cases hput.symm.trans hput'
  refine ⟨fun c hca vc hc ↦ ?_, (h.tracked.followed.put hput).tracked hstore'.objs,
    h.mine.of_procsLe hrest.procs hrest.next fun m mp hm ↦ ⟨mp, hrest.maps ▸ hm, rfl⟩,
    fun p v n hvia ↦ h.cut p v n (hvia.congr hrest.areas.symm hrest.maps.symm)⟩
  rw [hrest.areas] at hc
  obtain ⟨hpriv, u, hu, hbelow, hon⟩ := h.linked c hca vc hc
  have hslot : update s.heldBy a none c = some u := by
    rw [update_of_ne hca, Mem.heldBy_of_area hc, hu]
  obtain ⟨ub', hub'⟩ := hstore'.objs.held c u hslot
  obtain ⟨ub, hub, hl, -⟩ := hshed.objs u ub' hub'
  refine ⟨hpriv, u, hu, ?_, hon.sheds hshed hstore'.objs hub'⟩
  rw [Mem.below, hub, Option.bind_some] at hbelow
  rwa [Mem.below, hub', Option.bind_some, hl.shadowed]

theorem unlink (h : Parting X a s) (olink : Option ObjId) : Parting X a (s.unlinkVma a olink) := by
  cases olink with
  | none => exact h
  | some q =>
    refine ⟨fun c hca vc hc ↦ ?_, ?_, h.mine, h.cut⟩
    · obtain ⟨hpriv, u, hu, hbelow, hon⟩ := h.linked c hca vc hc
      refine ⟨hpriv, u, hu, ?_, hon.unlink hca _⟩
      rwa [Mem.below_of_cores (Mem.cores_unlinkVma ..)]
    · exact h.tracked.via rfl rfl
        fun c p v n hvia hX ↦ ⟨c, hvia, fun u hon ↦ hon.unlink (h.ne_of_via hvia hX) _⟩

theorem setMap (h : Parting X a s) (hm : s.maps m = some mp) :
    Parting X a (s.setMap m (some { mp with vmmList := l })) := by
  refine ⟨h.linked, ?_, h.mine.of_procsLe (.refl _) le_rfl (maps_of_setMap hm rfl), ?_⟩
  · exact h.tracked.via rfl rfl
      fun c p v n hvia _ ↦ ⟨c, hvia.maps rfl (maps_setMap hm rfl), fun _ hon ↦ hon⟩
  · intro p v n hvia
    refine h.cut p v n (hvia.maps rfl fun m₁ mp₁ hm₁ ↦ ?_)
    obtain ⟨mp₀, hm₀, hproc⟩ := maps_of_setMap (n := { mp with vmmList := l }) hm rfl m₁ mp₁ hm₁
    exact ⟨mp₀, hm₀, hproc.symm⟩

theorem gone (h : Parting X a s) : Reverse X (s.setArea a none) := by
  refine ⟨fun c vc hc ↦ ?_, ?_, h.mine⟩
  · obtain ⟨hca, hc⟩ := of_update_none hc
    exact h.linked c hca vc hc
  · refine h.tracked.via rfl rfl ?_
    intro c p v n hvia hX
    have hca := h.ne_of_via hvia hX
    exact ⟨c, hvia.maps (update_of_ne hca ..) fun m mp hm ↦ ⟨mp, hm, rfl⟩, fun _ hon ↦ hon⟩

end Parting

theorem dropArea_reverse (h : Reverse X s) (hh : Held L s) (ha : s.areas a = some vma)
    (hcut : ∀ p v n, s.Via a p v n → X p v) (hd : s.dropArea m a vma = .ok s') : Reverse X s' := by
  have hpart : Parting X a s := ⟨fun c _ ↦ h.linked c, h.tracked, h.mine, hcut⟩
  obtain ⟨o, ho, hd⟩ := bind_follow hd
  obtain ⟨s₁, hput, hd⟩ := bind_ok hd
  obtain ⟨mp, hmp, hd⟩ := bind_follow hd
  rw [← pure_eq_ok.mp hd]
  have h₁ := hpart.put hh.store ((Mem.heldBy_of_area ha).trans ho) hput
  exact ((h₁.unlink _).setMap hmp).gone

theorem destroyArea_reverse (h : Reverse X s) (hh : Held L s)
    (hcut : ∀ p v n, s.Via a p v n → X p v) (hd : Mem.destroyArea m s a = .ok s') :
    Reverse X s' := by
  have hpart : Parting X a s := ⟨fun c _ ↦ h.linked c, h.tracked, h.mine, hcut⟩
  obtain ⟨vma, ha, hd⟩ := bind_follow hd
  obtain ⟨mp, hm, hd⟩ := bind_follow hd
  obtain ⟨o, ho, hd⟩ := bind_follow hd
  obtain ⟨s₁, hput, hd⟩ := bind_ok hd
  rw [← pure_eq_ok.mp hd]
  let s₀ := s.setMap m (some { mp with vmmList := mp.vmmList.erase a })
  have hheld : (s₀.unlinkVma a vma.vmaOlink).heldBy = s.heldBy :=
    Mem.heldBy_congr (Mem.unlinkVma_changes s₀ a vma.vmaOlink).sameMaps.areas
  have hstore₀ : Store s₀ s.heldBy := hh.store.setMap hm rfl
  refine (((hpart.setMap hm).unlink _).put ?_ ?_ hput).gone
  · exact hheld.symm ▸ hstore₀.unlink a vma.vmaOlink
  · exact hheld.symm ▸ (Mem.heldBy_of_area ha).trans ho

/-- The two parts of a split area show what it showed, but for the range that is cut out. -/
theorem splitArea_reverse (h : Reverse X s) (hh : Held L s) (ha : s.areas a = some vma)
    (hvm : vma.vmaVmmap = some m) (hlo : vma.vmaStart < lo) (hlohi : lo < hi)
    (hcut : ∀ p v n, s.Via a p v n → lo ≤ v → v < hi → X p v)
    (hs : s.splitArea m lo hi a vma = .ok s') : Reverse X s' := by
  rcases splitArea_cases hs with ⟨-, rfl⟩ | ⟨o, ob, mp, q, s₂, ho, hob, hmp, hlink, rfl, hq⟩
  · exact ⟨h.linked, h.tracked, h.mine⟩
  have hane : a ≠ s.next := (hh.fresh a vma ha).ne
  obtain ⟨hpriv, o', ho', hbelow, hon⟩ := h.linked a vma ha
  cases ho.symm.trans ho'
  obtain ⟨q', qb₀, hq', hqb₀, holink⟩ := hon.olink hh.store.links ha
  cases hq.symm.trans hq'
  -- the object is a shadow object, so that the new area is linked
  have hqo : q ≠ o := by
    rintro rfl
    obtain ⟨b', bo', hb', hbo', hnone, -⟩ := hh.store.objs.bottomObj_ok hob
    cases hq.symm.trans hb'
    rw [Mem.below, hbo', Option.bind_some] at hbelow
    exact hbelow hnone
  rw [Mem.linkBottom, if_neg hqo] at hlink
  obtain ⟨qb, hqb, rfl⟩ := Mem.linkVma_eq_ok.mp hlink
  let s₀ := (s.draw .vmarea).bump.setObj o (some { ob with mmoRefcount := ob.mmoRefcount + 1 })
  let s₁ := s₀.setMap m (some { mp with vmmList := insertBefore a s.next mp.vmmList })
  have hk₀ : Kept s s₀ := (Kept.alloc s .vmarea).trans (.setObj hob ⟨rfl, rfl, rfl⟩ fun _ hc ↦ hc)
  have hk₁ : Kept s s₁ := hk₀.trans (.setMaps ..)
  let s₂ := s₁.setObj q (some { qb with mmoVmas := s.next :: qb.mmoVmas })
  have hk₂ : Kept s s₂ :=
    hk₁.trans (.setObj hqb ⟨rfl, rfl, rfl⟩ fun _ hc ↦ List.mem_cons_of_mem _ hc)
  have hk : ∀ areas, Kept s { s₂ with areas } := fun areas ↦ hk₂.trans (.setMaps _ areas _)
  have hnew : ∀ u, s.On a u → s₂.On s.next u := by
    intro u hau
    obtain ⟨q₁, qb₁, hq₁, hqb₁, holink₁⟩ := hau.olink hh.store.links ha
    cases holink.symm.trans holink₁
    exact ⟨q, _, hk₂.bottomObj hq₁, update_self .., List.mem_cons_self⟩
  rw [if_neg hqo]
  refine ⟨?_, ?_, ?_⟩
  · intro c vc hc
    rcases of_update_some hc with ⟨rfl, rfl⟩ | ⟨-, hc⟩
    · exact ⟨hpriv, o, ho, hk₂.below_ne_none hbelow, hon.kept (hk _)⟩
    rcases of_update_some hc with ⟨rfl, rfl⟩ | ⟨-, hc⟩
    · exact ⟨hpriv, o, ho, hk₂.below_ne_none hbelow, hnew o hon⟩
    · exact (h.linked c vc hc).kept (hk _)
  · refine h.tracked.via rfl rfl ?_
    intro c p v n hvia hX
    rcases eq_or_ne c a with rfl | hca
    · have hout : ¬ (lo ≤ v ∧ v < hi) := fun hin ↦ hX (hcut p v n hvia hin.1 hin.2)
      obtain ⟨vc, m₁, mp₁, hvc, hm₁, hmp₁, hp, ⟨hc₁, hc₂⟩, hshift⟩ := hvia
      cases ha.symm.trans hvc
      cases hvm.symm.trans hm₁
      cases hmp.symm.trans hmp₁
      have hmap : update s.maps m (some { mp with vmmList := insertBefore c s.next mp.vmmList }) m =
          some { mp with vmmList := insertBefore c s.next mp.vmmList } := update_self ..
      by_cases hv : v < lo
      · refine ⟨s.next, ⟨vma.left lo (some q), m, _, ?_, hvm, hmap, hp,
          ⟨hc₁, hv⟩, hshift⟩, hnew⟩
        exact update_other hane.symm (update_self ..)
      · refine ⟨c, ⟨_, m, _, update_self .., hvm, hmap, hp, ⟨?_, hc₂⟩, ?_⟩, fun _ hu ↦ hu.kept (hk _)⟩
        · show hi ≤ v
          omega
        · show v + (vma.vmaOff + (lo - vma.vmaStart) + (hi - lo)) = n + hi
          omega
    · refine ⟨c, hvia.maps ?_ (maps_setMap hmp rfl), fun _ hu ↦ hu.kept (hk _)⟩
      have hcn : c ≠ s.next := by
        rintro rfl
        obtain ⟨vc, -, -, hvc, -⟩ := hvia
        cases hh.areas_next.symm.trans hvc
      exact (update_of_ne hca ..).trans (update_of_ne hcn ..)
  · exact h.mine.of_procsLe (.refl _) (Nat.le_succ _) (maps_of_setMap hmp rfl)

/-- The process of the map has pages in the range. -/
def Cut (q : Option Pid) (lo hi : ℕ) (p : Pid) (v : ℕ) : Prop := q = some p ∧ lo ≤ v ∧ v < hi

omit [Layout] in
theorem Mem.Via.proc (h : s.Via a p v n) (ha : s.areas a = some vma) (hvm : vma.vmaVmmap = some m)
    (hm : s.maps m = some mp) : mp.vmmProc = some p ∧ vma.Covers v := by
  obtain ⟨vma', m', mp', hvma', hvm', hm', hp, hcov, -⟩ := h
  cases ha.symm.trans hvma'
  cases hvm.symm.trans hvm'
  cases hm.symm.trans hm'
  exact ⟨hp, hcov⟩

theorem removeLoop_reverse {q : Option Pid} (h : Reverse X s) (hh : Held L s)
    (hL : Spare L s) (hmap : OnMap m l s) (hm : s.maps m = some mp) (hq : mp.vmmProc = q)
    (hX : ∀ p v, Cut q lo hi p v → X p v) (hlohi : lo < hi) (hlow : lowPage ≤ lo)
    (hhigh : hi ≤ highPage) (hs : Mem.removeLoop m lo hi l s = .ok s') : Reverse X s' := by
  refine removeLoop_rule (P := fun l s ↦ (Held L s ∧ Spare L s) ∧ OnMap m l s ∧ Reverse X s ∧
    ∃ mp, s.maps m = some mp ∧ mp.vmmProc = q) (fun s hP ↦ hP.2.2.1)
    ?_ ?_ ?_ ?_ ?_ ⟨⟨hh, hL⟩, hmap, h, mp, hm, hq⟩ hs
  · exact fun a l s vma hP _ _ ↦ ⟨hP.1, hP.2.1.tail fun _ _ ↦ rfl, hP.2.2⟩
  · rintro a l s s' vma ⟨⟨hh, -⟩, hmap, h, mp, hm, rfl⟩ ha hlo - hsp
    have hvm := hmap.2 a List.mem_cons_self vma ha
    refine splitArea_reverse h hh ha hvm hlo hlohi ?_ hsp
    exact fun p v n hvia h₁ h₂ ↦ hX p v ⟨(hvia.proc ha hvm hm).1, h₁, h₂⟩
  · rintro a l s vma ⟨⟨hh, hL⟩, hmap, h, mp, hm, rfl⟩ ha - hlo hhi
    have hvm := hmap.2 a List.mem_cons_self vma ha
    obtain ⟨-, -, -, -, -, hlow', -⟩ := hh.area a vma ha
    have hmoved : VmArea.Moved { vma with vmaEnd := lo } vma :=
      VmArea.moved_below hlow' (by omega)
    refine ⟨⟨hh.move ha hmoved, hL.congr rfl⟩, hmap.tail fun b hb ↦ update_of_ne hb ..,
      h.move ha hmoved ?_, mp, hm, rfl⟩
    intro p v n hvia hnot
    obtain ⟨hp, hc₁, hc₂⟩ := hvia.proc ha hvm hm
    refine ⟨hc₁, ?_⟩
    by_contra hge
    exact hnot (hX p v ⟨hp, not_lt.mp hge, hc₂.trans_le hhi⟩)
  · rintro a l s vma ⟨⟨hh, hL⟩, hmap, h, mp, hm, rfl⟩ ha hav hlo hhi
    have hvm := hmap.2 a List.mem_cons_self vma ha
    obtain ⟨-, -, -, -, -, -, hhigh'⟩ := hh.area a vma ha
    have hle : vma.vmaStart ≤ hi := by
      by_contra hlt
      exact hav (.inl (not_le.mp hlt).le)
    have hmoved : VmArea.Moved { vma with
        vmaStart := hi
        vmaOff := vma.vmaOff + (hi - vma.vmaStart) } vma :=
      VmArea.moved_above hle (by omega) hhigh'
    refine ⟨⟨hh.move ha hmoved, hL.congr rfl⟩, hmap.tail fun b hb ↦ update_of_ne hb ..,
      h.move ha hmoved ?_, mp, hm, rfl⟩
    intro p v n hvia hnot
    obtain ⟨hp, hc₁, hc₂⟩ := hvia.proc ha hvm hm
    refine ⟨?_, hc₂⟩
    by_contra hlt
    exact hnot (hX p v ⟨hp, hlo.trans hc₁, not_le.mp hlt⟩)
  · rintro a l s s' vma ⟨⟨hh, hL⟩, hmap, h, mp, hm, rfl⟩ ha hlo hhi hdrop
    have hvm := hmap.2 a List.mem_cons_self vma ha
    obtain ⟨hareas, hmaps, -⟩ := Mem.dropArea_maps hm hdrop
    refine ⟨dropArea_held hh hL ha hdrop, hmap.tail fun b hb ↦ ?_,
      dropArea_reverse h hh ha ?_ hdrop, { mp with vmmList := mp.vmmList.erase a },
      by rw [hmaps, update_self], rfl⟩
    · rw [hareas, update_of_ne hb]
    · intro p v n hvia
      obtain ⟨hp, hc₁, hc₂⟩ := hvia.proc ha hvm hm
      exact hX p v ⟨hp, hlo.trans hc₁, hc₂.trans_le hhi⟩

section

variable (h : Reverse X s) (hh : Held L s) (hL : Spare L s) (ht : Tidy s) (hm : s.maps m = some mp)
include h hh hL ht hm

theorem vmmapRemove_reverse {lopage : ℕ}
    (hX : ∀ p v, Cut mp.vmmProc lopage (lopage + npages) p v → X p v)
    (hs : s.vmmapRemove m lopage npages = .ok s') : Reverse X s' := by
  obtain ⟨empty, hempty, hs⟩ := bind_ok hs
  obtain ⟨⟨hlohi, hlow, hhigh⟩, -⟩ := Mem.vmmapIsRangeEmpty_eq_ok hempty hm
  split at hs
  · cases hs
    exact h
  · rw [hm, follow_bind] at hs
    refine removeLoop_reverse h hh hL (ht.map m mp hm).onMap hm rfl ?_ hlohi hlow hhigh hs
    rintro p v ⟨hp, h₁, h₂⟩
    exact hX p v ⟨hp, h₁, h₂.trans_le (Nat.mod_le _ _)⟩

/-- `vmmap_destroy` keeps the reverse map, up to the pages of the process of the map. -/
theorem vmmapDestroy_reverse (hX : ∀ p v, Cut mp.vmmProc lowPage highPage p v → X p v)
    (hs : s.vmmapDestroy m = .ok s') : Reverse X s' := by
  rw [Mem.vmmapDestroy, hm, follow_bind] at hs
  split at hs
  · cases hs
    exact h
  obtain ⟨s₁, hloop, hs⟩ := bind_ok hs
  have hvia : ∀ {s : Mem} {mp₁ : Vmmap} {a vma p v n}, Held L s → s.areas a = some vma →
      vma.vmaVmmap = some m → s.maps m = some mp₁ → mp₁.vmmProc = mp.vmmProc →
      s.Via a p v n → X p v := by
    intro s mp₁ a vma p v n hh ha hvm hm₁ hproc hvia
    obtain ⟨hp, hc₁, hc₂⟩ := hvia.proc ha hvm hm₁
    obtain ⟨-, -, -, -, -, hlow, hhigh⟩ := hh.area a vma ha
    exact hX p v ⟨hproc ▸ hp, hlow.trans hc₁, hc₂.trans_le hhigh⟩
  obtain ⟨⟨hh₁, -⟩, -, h₁, mp₁, hm₁, hproc₁⟩ := foldl_rest (I := fun l s ↦
    (Held L s ∧ Spare L s) ∧ OnMap m l s ∧ Reverse X s ∧
      ∃ mp₁, s.maps m = some mp₁ ∧ mp₁.vmmProc = mp.vmmProc) (by
      rintro a l s s' ⟨⟨hh, hL⟩, hmap, h, mp₁, hm₁, hproc⟩ hd
      obtain ⟨vma, ha, -⟩ := bind_follow hd
      have hvm := hmap.2 a List.mem_cons_self vma ha
      obtain ⟨hareas, hmaps, -⟩ := destroyArea_maps hm₁ hd
      refine ⟨destroyArea_held hh hL hd, hmap.tail fun b hb ↦ ?_,
        destroyArea_reverse h hh (fun p v n ↦ hvia hh ha hvm hm₁ hproc) hd,
        { mp₁ with vmmList := mp₁.vmmList.erase a }, by rw [hmaps, update_self], hproc⟩
      rw [hareas, update_of_ne hb])
    ⟨⟨hh, hL⟩, (ht.map m mp hm).onMap, h, mp, hm, rfl⟩ hloop
  cases hs
  refine ⟨h₁.linked, ?_, ?_⟩
  · refine h₁.tracked.via rfl rfl ?_
    intro a p v n hva hXn
    refine ⟨a, ?_, fun _ hu ↦ hu⟩
    obtain ⟨vma, m₂, mp₂, ha, hm₂, hmp₂, hrest⟩ := id hva
    refine ⟨vma, m₂, mp₂, ha, hm₂, update_other ?_ hmp₂, hrest⟩
    rintro rfl
    exact hXn (hvia hh₁ ha hm₂ hm₁ hproc₁ hva)
  · refine h₁.mine.of_procsLe (.refl _) le_rfl ?_
    intro m₂ mp₂ hm₂
    obtain ⟨-, hm₂⟩ := of_update_none hm₂
    exact ⟨mp₂, hm₂, rfl⟩

end

/-! ## Areas come -/

/-- Areas may have come, and have got other objects; those that were there keep their
places. -/
theorem Tracked.kept (h : Tracked X s) (hk : Kept s s')
    (hareas : ∀ a vma, s.areas a = some vma → ∃ vma', s'.areas a = some vma' ∧
      vma'.vmaVmmap = vma.vmaVmmap ∧ vma'.vmaStart = vma.vmaStart ∧ vma'.vmaEnd = vma.vmaEnd ∧
      vma'.vmaOff = vma.vmaOff)
    (hmaps : ∀ m mp, s.maps m = some mp → ∃ mp', s'.maps m = some mp' ∧
      mp'.vmmProc = mp.vmmProc) : Tracked X s' := by
  refine h.carry ?_ (fun f pf hf ↦ ⟨pf, hk.frames ▸ hf, rfl, rfl⟩) ?_
  · rintro p v f ⟨x, t, hx, ht⟩
    exact ⟨x, t, hk.procs ▸ hx, ht⟩
  · rintro a p v n ⟨vma, m, mp, hvma, hm, hmp, hp, ⟨hc₁, hc₂⟩, hshift⟩ -
    obtain ⟨vma', hvma', hm', hstart, hend, hoff⟩ := hareas a vma hvma
    obtain ⟨mp', hmp', hproc⟩ := hmaps m mp hmp
    refine ⟨a, ⟨vma', m, mp', hvma', hm'.trans hm, hmp', hproc.trans hp, ⟨?_, ?_⟩, ?_⟩,
      fun o hon ↦ hon.kept hk⟩
    · rw [hstart]
      exact hc₁
    · rw [hend]
      exact hc₂
    · rw [hstart, hoff]
      exact hshift

theorem backing_bottom {u : ObjId} (ho : Objs s A)
    (hv : ∀ v vn, s.vnodes v = some vn → ∃ ob, s.objs vn.vnMmobj = some ob ∧ ob.mmoOps = .vnode v)
    (hs : s.backing file = .ok (s₁, some u)) : s₁.bottomObj u = .ok u := by
  rcases backing_cases hs with ⟨hu, rfl⟩ | ⟨hu, -⟩ | ⟨v, vn, ob, hvn, hob, hu, rfl⟩
  · cases hu
    simp [Mem.bottomObj]
  · cases hu
  · cases hu
    obtain ⟨ob', hob', hops⟩ := hv v vn hvn
    cases hob.symm.trans hob'
    have hnone : ob.mmoShadowed = none := by
      by_contra hne
      cases hops.symm.trans ((ho.kind _ ob hob).mpr hne)
    simp [Mem.bottomObj, hnone]

theorem vmmapPlace_reverse {start : ℕ}
    {r : Except Errno AreaId} (h : Reverse X s) (hh : Held L s)
    (hpriv : flags.has mapPrivate = true)
    (hs : s.vmmapPlace m file start npages prot flags off = .ok (s', r)) : Reverse X s' := by
  rcases vmmapPlace_cases hs with
    ⟨-, -, rfl⟩ | ⟨-, -, s₁, under, s₃, vma, hback, hvma, hins, hcases⟩
  · exact ⟨h.linked, h.tracked, h.mine⟩
  have hflags : vma.vmaFlags = flags := congrArg VmArea.vmaFlags hvma
  obtain ⟨hstore₁, hswept₁, hgrow₁⟩ := backing_store
    (hh.store.draw .vmarea).bump (hh.swept.same rfl) hh.heldBy_next hback
  have hgrow : Grows s s₁ := .trans ⟨.alloc s .vmarea, rfl, rfl⟩ hgrow₁
  rcases hcases with ⟨-, u, s₂, o, ub, rfl, hsh, hub, hobj, -, rfl⟩ | ⟨hshared, -⟩
  swap
  · rw [hpriv] at hshared
    cases hshared
  have hover := shadowOver_store hstore₁ hswept₁ (update_self ..) hsh
  have hlink : Grows s₂ (s₂.setObj u (some { ub with mmoVmas := s.next :: ub.mmoVmas })) :=
    ⟨.setObj hub ⟨rfl, rfl, rfl⟩ fun _ ha ↦ List.mem_cons_of_mem _ ha, rfl, rfl⟩
  have hgrow' := (hgrow.trans hover.grows).trans hlink
  obtain ⟨mp, l, hm, -, -, -, rfl⟩ := vmmapInsert_stored hins
  have hm₀ : s.maps m = some mp := hgrow'.maps ▸ hm
  have hk := hgrow'.toKept.trans (Kept.setMaps _ (update s₂.areas s.next (some { vma with
    vmaVmmap := some m })) (update s₂.maps m (some { mp with vmmList := l })))
  have hareas₂ : s₂.areas = s.areas := hgrow'.areas
  have hmaps₂ : s₂.maps = s.maps := hgrow'.maps
  refine ⟨?_, h.tracked.kept hk ?_ ?_, h.mine.of_procsLe ?_ ?_ ?_⟩
  · intro c vc hc
    rcases of_update_some hc with ⟨rfl, rfl⟩ | ⟨-, hc⟩
    · -- the object under the shadow object is the bottom object
      obtain ⟨q, hq, hbot⟩ := hover.bottom
      have hu : s₁.bottomObj u = .ok u :=
        backing_bottom (hh.store.draw .vmarea).bump.objs hh.vnodes hback
      cases hu.symm.trans hq
      exact ⟨hflags.symm ▸ hpriv, o, hobj, hlink.toKept.below_ne_none
        (hover.below.symm ▸ Option.some_ne_none u), u, _, hlink.toKept.bottomObj hbot,
        update_self .., List.mem_cons_self⟩
    · have hc' : s₂.areas c = some vc := hc
      rw [hareas₂] at hc'
      exact (h.linked c vc hc').kept hk
  · intro a va ha
    refine ⟨va, update_other ?_ (hareas₂ ▸ ha), rfl, rfl, rfl, rfl⟩
    exact (hh.fresh a va ha).ne
  · rw [← hmaps₂]
    exact maps_setMap hm rfl
  · exact fun p ↦ .inl (congrFun hk.procs p)
  · exact hk.next
  · rw [← hmaps₂]
    exact maps_of_setMap hm rfl

/-- `vmmap_map` of a private area keeps the reverse map, up to the pages of the range that
it clears. -/
theorem vmmapMap_reverse {lopage : ℕ}
    {dir : Dir} {r : Except Errno AreaId} (h : Reverse X s) (hh : Held L s) (hL : Spare L s)
    (ht : Tidy s) (hm : s.maps m = some mp) (hpriv : flags.has mapPrivate = true)
    (hX : lopage ≠ 0 → ∀ p v, Cut mp.vmmProc lopage (lopage + npages) p v → X p v)
    (hs : s.vmmapMap m file lopage npages prot flags off dir = .ok (s', r)) : Reverse X s' := by
  obtain ⟨-, s₁, st, hroom, hcases⟩ := vmmapMap_eq_ok hs
  have hh₁ := makeRoom_held hh hL ht hroom
  have h₁ : Reverse X s₁ := by
    rcases makeRoom_cases hroom with ⟨-, rfl, -⟩ | ⟨hne, -, b, -, ⟨-, rfl⟩ | hrem⟩
    · exact h
    · exact h
    · exact vmmapRemove_reverse h hh hL ht hm (hX hne) hrem
  rcases hcases with ⟨-, rfl, -⟩ | ⟨start, -, hplace⟩
  · exact h₁
  · exact vmmapPlace_reverse h₁ hh₁ hpriv hplace

/-! ## Fork -/

/-- The state of the loop of `do_fork` before the areas `l`: the copies that are not linked
yet are those of areas to come. -/
structure Forking (X : Pid → ℕ → Prop) (m' : MapId) (l : List AreaId) (s : Mem) : Prop where
  tracked : Tracked X s
  linked : ∀ c vc, s.areas c = some vc → vc.vmaVmmap ≠ some m' → s.IsLinked c vc
  copies : ∀ b vb, s.areas b = some vb → vb.vmaVmmap = some m' → s.IsLinked b vb ∨
    ∃ a ∈ l, ∃ vma, s.areas a = some vma ∧ vma.vmaStart = vb.vmaStart
  priv : ∀ a ∈ l, ∃ vma, s.areas a = some vma ∧ vma.vmaFlags.has mapPrivate = true

theorem Forking.turn {m' : MapId} {vb : VmArea} {q cs ps : ObjId}
    (h : Forking X m' (a :: l) s) (hh : Held L s) (ht : Tidy s) (ha : s.areas a = some vma)
    (hb : s.areas b = some vb) (hlook : s.vmmapLookup m' vma.vmaStart = .ok (some b))
    (hbm : vb.vmaVmmap = some m') (ham : vma.vmaVmmap ≠ some m') (hseg : vb.seg = vma.seg)
    (hpriv : vma.vmaFlags.has mapPrivate = true) (hf : Forked s s' a b vma vb o q cs ps) :
    Forking X m' l s' := by
  have hflags : vb.vmaFlags = vma.vmaFlags := congrArg (fun g ↦ g.tag.flags) hseg
  refine ⟨h.tracked.kept hf.toKept ?_ ?_, ?_, ?_, ?_⟩
  · intro c vc hc
    obtain ⟨vc', hvc', hm', hstart, hend, hoff, -⟩ := hf.keeps ha hb hc
    exact ⟨vc', hvc', hm', hstart, hend, hoff⟩
  · exact fun m mp hm ↦ ⟨mp, hf.maps ▸ hm, rfl⟩
  · intro c vc hc hcm
    rw [hf.areas] at hc
    rcases of_update_some hc with ⟨rfl, rfl⟩ | ⟨-, hc⟩
    · -- the area stays on the list of the bottom object
      obtain ⟨-, o', ho', -, q', qb, hq', hqb, hmem⟩ := h.linked c vma ha ham
      cases hf.obj.symm.trans ho'
      cases hf.bottom.symm.trans hq'
      obtain ⟨qb', hqb', -, hsub⟩ := hf.objs q qb hqb
      refine ⟨hpriv, ps, rfl, ?_, q, qb', hf.parent.1, hqb', hsub c hmem⟩
      rw [hf.parent.2]
      exact Option.some_ne_none o
    rcases of_update_some hc with ⟨rfl, rfl⟩ | ⟨-, hc⟩
    · exact absurd hbm hcm
    · exact (h.linked c vc hc hcm).kept hf.toKept
  · intro c vc hc hcm
    rw [hf.areas] at hc
    rcases of_update_some hc with ⟨rfl, rfl⟩ | ⟨hca, hc⟩
    · exact absurd hcm ham
    rcases of_update_some hc with ⟨rfl, rfl⟩ | ⟨hcb, hc₀⟩
    · -- the copy is linked now
      obtain ⟨qb, hqb, hmem⟩ := hf.linked
      refine .inl ⟨?_, cs, rfl, ?_, q, qb, hf.child.1, hqb, hmem⟩
      · show vb.vmaFlags.has mapPrivate = true
        rw [hflags]
        exact hpriv
      · rw [hf.child.2]
        exact Option.some_ne_none o
    rcases h.copies c vc hc₀ hcm with hl | ⟨a', ha', va, hva, hstart⟩
    · exact .inl (hl.kept hf.toKept)
    · right
      rcases List.mem_cons.mp ha' with rfl | ha'
      · -- the lookup finds only one area
        cases ha.symm.trans hva
        obtain ⟨m₁, mp₁, hm₁, hmp₁, hmem, -⟩ := hh.area c vc hc₀
        cases hcm.symm.trans hm₁
        have htm := ht.map m' mp₁ hmp₁
        have hproper := htm.ordered.proper vc.seg (Mem.mem_segs.mpr ⟨c, hmem, vc, hc₀, rfl⟩)
        have hlook' := htm.vmmapLookup_eq hmp₁ hmem hc₀ ⟨hstart.ge, hstart ▸ hproper⟩
        exact absurd (Option.some.inj (Except.ok.inj (hlook'.symm.trans hlook))) hcb
      · obtain ⟨va', hva', -, hstart', -⟩ := hf.keeps ha hb hva
        exact ⟨a', ha', va', hva', hstart'.trans hstart⟩
  · intro c hc
    obtain ⟨vc, hvc, hpriv'⟩ := h.priv c (List.mem_cons_of_mem _ hc)
    obtain ⟨vc', hvc', -, -, -, -, hflags'⟩ := hf.keeps ha hb hvc
    exact ⟨vc', hvc', hflags'.symm ▸ hpriv'⟩

theorem forkLoop_reverse {m' : MapId} (h : Forking X m' l s) (hh : Held L s)
    (ht : Tidy s) (hp : Paired m' l s) (hs : l.foldlM (Mem.forkArea m') s = .ok s') :
    Linked s' ∧ Tracked X s' := by
  have hend : Held L s' ∧ Tidy s' ∧ Forking X m' [] s' := by
    refine forkLoop_rule ?_ ?_ hh ht hp h hs
    · -- there are no other areas
      intro a l s vma h ha hpriv
      obtain ⟨va, hva, hpriv'⟩ := h.priv a List.mem_cons_self
      cases ha.symm.trans hva
      exact absurd hpriv' hpriv
    · intro a l s s' b vma vb o q cs ps hh ht h ha hb hlook hbm ham hseg _ hpriv hf
      exact h.turn hh ht ha hb hlook hbm ham hseg hpriv hf
  obtain ⟨-, -, hend⟩ := hend
  refine ⟨fun c vc hc ↦ ?_, hend.tracked⟩
  by_cases hcm : vc.vmaVmmap = some m'
  · rcases hend.copies c vc hc hcm with hl | ⟨a, ha, -⟩
    · exact hl
    · cases ha
  · exact hend.linked c vc hc hcm

theorem doFork_reverse {c : Pid} (h : Reverse X s) (hsp : Spaces L s)
    (hs : s.doFork p c = .ok s') : Reverse X s' := by
  obtain ⟨proc, m, mp, s₁, m', s₂, mp', pd, F, y, hp, hc, hpm, hcl, hloop, hmp', hfinal, hym,
    hypd⟩ := doFork_cloned hsp.held hsp.tidy hsp.noFailure hs
  obtain ⟨-, -, hk₂, hmaps₂⟩ := forkLoop_kept hcl.held hcl.tidy hcl.paired hloop
  obtain ⟨hpd, rfl⟩ := hfinal (hk₂.procs.trans hcl.procs)
  obtain ⟨mpc, hmpc, hproc⟩ := hcl.copy
  cases (hmaps₂ ▸ hmp').symm.trans hmpc
  have hstart : Forking X m' mp.vmmList s₁ := by
    have hlinked : ∀ c vc, s₁.areas c = some vc → vc.vmaVmmap ≠ some m' → s₁.IsLinked c vc :=
      fun c vc hc hcm ↦ (h.linked c vc (hcl.old c vc hc hcm)).kept hcl.toKept
    refine ⟨h.tracked.kept hcl.toKept ?_ ?_, hlinked, ?_, ?_⟩
    · intro a vma ha
      exact ⟨vma, (hcl.areas a (hsp.held.fresh a vma ha)).trans ha, rfl, rfl, rfl, rfl⟩
    · intro m mp hm
      exact ⟨mp, (hcl.maps m (hsp.tidy.freshMap m mp hm)).trans hm, rfl⟩
    · intro b vb hb hbm
      obtain ⟨a, ha, vma, hvma, hseg⟩ := hcl.only b vb hb hbm
      exact .inr ⟨a, ha, vma, hvma, (congrArg Seg.lo hseg).symm⟩
    · intro a ha
      obtain ⟨vma, hvma, hne⟩ := hcl.paired.live a ha
      exact ⟨vma, hvma, (hlinked a vma hvma hne).1⟩
  obtain ⟨hlinked₂, htr₂⟩ := forkLoop_reverse hstart hcl.held hcl.tidy hcl.paired hloop
  refine ⟨hlinked₂, ?_, ?_⟩
  · refine htr₂.carry ?_ (fun f pf hf ↦ ⟨pf, hf, rfl, rfl⟩) ?_
    · rintro q v f ⟨x, t, hx, ht, hf⟩
      rw [Mem.Entry, hk₂.procs, hcl.procs]
      rcases of_update_some hx with ⟨-, rfl⟩ | ⟨-, hx⟩
      · rw [hypd] at ht
        cases ht
      rcases of_update_some hx with ⟨rfl, rfl⟩ | ⟨-, hx⟩
      · exact ⟨proc, t, hp, (ptUnmapRange_le hpd).entry v t ht, hf⟩
      · exact ⟨x, t, hx, ht, hf⟩
    · rintro a q v n ⟨vma, m₁, mp₁, hvma, hm₁, hmp₁, hq, hrest⟩ -
      refine ⟨a, ⟨vma, m₁, mp₁, hvma, hm₁, update_other ?_ hmp₁, hq, hrest⟩,
        fun _ hu ↦ hu⟩
      -- the copy has had no process yet
      rintro rfl
      cases hmp'.symm.trans hmp₁
      cases hproc.symm.trans hq
  · have hold : ∀ q x m₁, s.procs q = some x → x.pVmmap = some m₁ → m₁ < s₂.next ∧
        ∀ mp₁, update s₂.maps m' (some { mp' with vmmProc := some c }) m₁ = some mp₁ →
          mp₁.vmmProc = some q := by
      intro q x m₁ hx hm₁
      obtain ⟨hlt, hown⟩ := h.mine q x m₁ hx hm₁
      refine ⟨hlt.trans_le (hcl.next.trans hk₂.next), fun mp₁ hmp₁ ↦ hown mp₁ ?_⟩
      rw [update_of_ne (hlt.trans_le hcl.new).ne, hmaps₂, hcl.maps m₁ hlt] at hmp₁
      exact hmp₁
    intro q x m₁ hx hm₁
    rcases of_update_some hx with ⟨rfl, rfl⟩ | ⟨-, hx⟩
    · cases hym.symm.trans hm₁
      have hlt : m' < s₁.next := hcl.tidy.freshMap m' mp' hmpc
      refine ⟨hlt.trans_le hk₂.next, fun mp₁ hmp₁ ↦ ?_⟩
      have hself : update s₂.maps m' (some { mp' with vmmProc := some q }) m' = some mp₁ := hmp₁
      rw [update_self] at hself
      cases hself
      rfl
    rcases of_update_some hx with ⟨rfl, rfl⟩ | ⟨-, hx⟩
    · exact hold q proc m₁ hp hm₁
    · exact hold q x m₁ hx hm₁

/-! ## Page faults -/

theorem Mem.On.fetched {W : ObjId → ℕ → Prop} (h : s.On a o) (hf : Fetched W s s') : s'.On a o := by
  refine h.carry fun u ub hub ↦ ?_
  obtain ⟨ub', hub'⟩ := hf.live u ub hub
  obtain ⟨ub₀, hub₀, hl, hvmas⟩ := hf.like u ub' hub'
  cases hub.symm.trans hub₀
  exact ⟨ub', hub', hl, fun ha ↦ hvmas ▸ ha⟩

theorem Reverse.fetched {W : ObjId → ℕ → Prop} (h : Reverse X s) (hf : Fetched W s s') :
    Reverse X s' := by
  refine ⟨?_, ?_, h.mine.of_procsLe hf.rest.procs hf.rest.next fun m mp hm ↦
    ⟨mp, hf.rest.maps ▸ hm, rfl⟩⟩
  · intro a vma ha
    obtain ⟨hpriv, o, ho, hbelow, hon⟩ := h.linked a vma (hf.rest.areas ▸ ha)
    exact ⟨hpriv, o, ho, (hf.below_eq o).symm ▸ hbelow, hon.fetched hf⟩
  · refine h.tracked.carry (fun _ _ _ he ↦ he.of_procsLe hf.rest.procs)
      (fun f pf hpf ↦ ⟨pf, hf.old f pf hpf, rfl, rfl⟩) ?_
    intro a p v n hvia _
    exact ⟨a, hvia.congr hf.rest.areas hf.rest.maps, fun o hon ↦ hon.fetched hf⟩

theorem Reverse.setFrame (h : Reverse X s) (hf : s.frames f = some pf)
    (hobj : pf'.pfObj = pf.pfObj) (hnum : pf'.pfPagenum = pf.pfPagenum) :
    Reverse X (s.setFrame f (some pf')) :=
  ⟨h.linked, h.tracked.carry (fun _ _ _ he ↦ he) (frames_setFrame hf hobj hnum)
    fun a _ _ _ hvia _ ↦ ⟨a, hvia, fun _ hon ↦ hon⟩, h.mine⟩

theorem Mine.setProc {x' : Proc} (h : Mine s) (hx : s.procs p = some x)
    (hm : x'.pVmmap = x.pVmmap) : Mine (s.setProc p (some x')) := by
  intro q y m hy hym
  rcases of_update_some hy with ⟨rfl, rfl⟩ | ⟨-, hy⟩
  · exact h q x m hx (hm ▸ hym)
  · exact h q y m hy hym

theorem Reverse.setProc {x' : Proc} (h : Reverse X s) (hx : s.procs p = some x)
    (hm : x'.pVmmap = x.pVmmap)
    (hle : ∀ v t, x'.pPagedir.entry v = some t → x.pPagedir.entry v = some t) :
    Reverse X (s.setProc p (some x')) := by
  refine ⟨h.linked, ?_, h.mine.setProc hx hm⟩
  refine h.tracked.carry ?_ (fun f pf hf ↦ ⟨pf, hf, rfl, rfl⟩)
    fun a p v n hvia _ ↦ ⟨a, hvia, fun _ hon ↦ hon⟩
  rintro q v f ⟨y, t, hy, ht, hf⟩
  rcases of_update_some hy with ⟨rfl, rfl⟩ | ⟨-, hy⟩
  · exact ⟨x, t, hx, hle v t ht, hf⟩
  · exact ⟨y, t, hy, ht, hf⟩

theorem Eff.on (h : Eff s n o f) (ho : Objs s A) (hon : s.On a o) :
    ∃ pf, s.frames f = some pf ∧ pf.pfPagenum = n ∧ s.On a pf.pfObj := by
  induction h with
  | here hf =>
    obtain ⟨pf, hpf, rfl, hnum⟩ := hf
    exact ⟨pf, hpf, hnum, hon⟩
  | down _ hu _ ih =>
    refine ih ?_
    obtain ⟨q, qb, hq, hqb, hmem⟩ := hon
    obtain ⟨ob, hob, hsh⟩ := below_eq_some.mp hu
    obtain ⟨b, hb, hbot⟩ := ho.bottom _ ob _ hob hsh
    rw [Mem.bottomObj, hob, follow_bind, hsh, hb] at hq
    cases hq
    exact ⟨q, qb, hbot, hqb, hmem⟩

theorem ptMap_reverse {vaddr : ℕ} {pdflags ptflags : Flags} (h : Reverse X s)
    (hf : s.frames f = some pf) (hvia : s.Via a p (addrToPn vaddr) pf.pfPagenum)
    (hon : s.On a pf.pfObj) (hs : s.ptMap p vaddr f pdflags ptflags = .ok s') : Reverse X s' := by
  have hdraw : Reverse X (s.draw .page) := ⟨h.linked, h.tracked, h.mine⟩
  have hset : ∀ s₁ : Mem, Reverse X s₁ → s₁.procs = s.procs → s₁.frames = s.frames →
      s₁.areas = s.areas → s₁.maps = s.maps → s₁.objs = s.objs → ∀ x, s.procs p = some x →
      Reverse X (s₁.setProc p (some { x with
        pPagedir := x.pPagedir.install vaddr f pdflags ptflags })) := by
    intro s₁ h₁ hprocs hframes hareas hmaps hobjs x hx
    refine ⟨h₁.linked, ?_, h₁.mine.setProc (x := x) (hprocs ▸ hx) rfl⟩
    rintro q v g ⟨y, t, hy, ht, hg⟩ hX
    rcases of_update_some hy with ⟨rfl, rfl⟩ | ⟨-, hy⟩
    · rcases Pagedir.entry_install ht with ⟨rfl, hfg⟩ | ht
      · cases hg.symm.trans hfg
        exact ⟨pf, a, hframes ▸ hf, hvia.congr hareas hmaps, hon.congr hobjs⟩
      · exact h₁.tracked q v g ⟨x, t, hprocs ▸ hx, ht, hg⟩ hX
    · exact h₁.tracked q v g ⟨y, t, hy, ht, hg⟩ hX
  obtain ⟨x, hx, rfl | ⟨s₁, rfl | rfl, rfl⟩⟩ := ptMap_cases hs
  · exact hdraw
  · exact hset _ h rfl rfl rfl rfl rfl x hx
  · exact hset _ hdraw rfl rfl rfl rfl rfl x hx

theorem doExit_reverse (h : Reverse X s) (hsp : Spaces L s) (hL : Spare L s)
    (hX : ∀ x m mp, s.procs p = some x → x.pVmmap = some m → s.maps m = some mp →
      ∀ v, lowPage ≤ v → v < highPage → X p v) (hs : s.doExit p = .ok s') : Reverse X s' := by
  obtain ⟨x, hx, hs⟩ := bind_follow hs
  have h₁ : Reverse X (s.setProc p (some { x with running := false })) :=
    h.setProc hx rfl fun _ _ ht ↦ ht
  split at hs
  · cases hs
    exact h₁
  · next m hm =>
    obtain ⟨mp, hmp, -⟩ := bind_follow hs
    have hsp₁ := hsp.setProc p { x with running := false }
    refine vmmapDestroy_reverse h₁ hsp₁.held (hL.congr rfl) hsp₁.tidy hmp ?_ hs
    rintro q v ⟨hq, hlo, hhi⟩
    have hown := (h.mine p x m hx hm).2 mp hmp
    cases hown.symm.trans hq
    exact hX x m mp hx hm hmp v hlo hhi

theorem vmmapLookup_covers (ht : Tidy s) (hs : s.vmmapLookup m v = .ok (some a)) :
    ∃ mp vma, s.maps m = some mp ∧ s.areas a = some vma ∧ vma.vmaVmmap = some m ∧
      vma.Covers v := by
  obtain ⟨mp, hm, hs⟩ := bind_follow hs
  have hfind : mp.vmmList.find? (s.covers v) = some a := pure_eq_ok.mp hs
  have hmem := List.mem_of_find?_eq_some hfind
  have hcov := List.find?_some hfind
  obtain ⟨vma, hvma, hvm⟩ := (ht.map m mp hm).live a hmem
  rw [Mem.covers, hvma, Option.any_some] at hcov
  exact ⟨mp, vma, hm, hvma, hvm, of_decide_eq_true hcov⟩

/-! ## Entries only go -/

theorem destroyArea_procs (hd : Mem.destroyArea m s a = .ok s') : Mem.ProcsLe s'.procs s.procs := by
  obtain ⟨vma, -, hd⟩ := bind_ok hd
  obtain ⟨mp, -, hd⟩ := bind_ok hd
  obtain ⟨o, -, hd⟩ := bind_ok hd
  obtain ⟨s₁, hput, hd⟩ := bind_ok hd
  rw [← pure_eq_ok.mp hd]
  exact (Mem.put_changes hput).procsLe.trans (Mem.unlinkVma_changes ..).procsLe

theorem vmmapDestroy_procs (hs : s.vmmapDestroy m = .ok s') : Mem.ProcsLe s'.procs s.procs := by
  obtain ⟨mp, -, hs⟩ := bind_ok hs
  split at hs
  · cases hs
    exact .refl _
  · obtain ⟨s₁, hloop, hs⟩ := bind_ok hs
    cases hs
    exact foldl_invariant (I := fun s₁ ↦ Mem.ProcsLe s₁.procs s.procs)
      (fun _ _ _ _ hI hd ↦ (destroyArea_procs hd).trans hI) (.refl _) hloop

theorem doExit_procs (hs : s.doExit p = .ok s') :
    (∀ q v f, s'.Entry q v f → s.Entry q v f) ∧ (s'.procs p).any Proc.running = false := by
  obtain ⟨x, hx, hs⟩ := bind_follow hs
  have hP : Mem.ProcsLe s'.procs (s.setProc p (some { x with running := false })).procs := by
    split at hs
    · cases hs
      exact .refl _
    · exact vmmapDestroy_procs hs
  constructor
  · intro q v f he
    obtain ⟨y, t, hy, ht, hf⟩ := he.of_procsLe hP
    rcases of_update_some hy with ⟨rfl, rfl⟩ | ⟨-, hy⟩
    · exact ⟨x, t, hx, ht, hf⟩
    · exact ⟨y, t, hy, ht, hf⟩
  · rcases hP p with hp | ⟨y, pd, hy, -, hp⟩
    · rw [hp, Mem.setProc_procs, update_self]
      rfl
    · rw [Mem.setProc_procs, update_self] at hy
      cases hy
      rw [hp]
      rfl

/-- A page fault keeps the reverse map, or it comes to the end of the process. -/
theorem handlePagefault_reverse {vaddr : ℕ} {w : Bool} (h : Reverse X s) (hsp : Spaces L s)
    (hL : Spare L s) (hs : s.handlePagefault p vaddr w = .ok s') :
    Reverse X s' ∨ ∃ s₁, Reverse X s₁ ∧ Spaces L s₁ ∧ Spare L s₁ ∧ s₁.maps = s.maps ∧
      Mem.ProcsLe s₁.procs s.procs ∧ s₁.doExit p = .ok s' := by
  obtain ⟨x, hx, hexit | ⟨m, a, vma, o, s₁, r, -, -, hm, hlook, hvma, -, ho, hpf, hcases⟩⟩ :=
    handlePagefault_cases hs
  · exact .inr ⟨s, h, hsp, hL, rfl, .refl _, hexit⟩
  have hout := hsp.held.pframeLookup hvma ho hpf
  have h₁ := h.fetched hout.fetched
  rcases hcases with ⟨e, -, hexit⟩ | ⟨f, s₂, hr, hdirty, hmap⟩
  · exact .inr ⟨s₁, h₁, hsp.fetched hout.objs hout.fetched,
      hL.fetched hsp.held.store.objs hout.objs hout.fetched, hout.fetched.rest.maps,
      hout.fetched.rest.procs, hexit⟩
  -- the area shows the page that was found
  obtain ⟨mp, vma', hmp, hvma', hvm, hcov⟩ := vmmapLookup_covers hsp.tidy hlook
  cases hvma.symm.trans hvma'
  have hvia : s₁.Via a p (addrToPn vaddr) (vma.vmaOff + (addrToPn vaddr - vma.vmaStart)) := by
    refine Mem.Via.congr ⟨vma, m, mp, hvma, hvm, hmp, ?_, hcov, ?_⟩
      hout.fetched.rest.areas hout.fetched.rest.maps
    · exact (h.mine p x m hx hm).2 mp hmp
    · have := hcov.1
      omega
  obtain ⟨-, o', ho', -, hon⟩ := h.linked a vma hvma
  cases ho.symm.trans ho'
  obtain ⟨pf, hpf₁, hnum, hon₁⟩ := (hout.found f hr).1.on hout.objs (hon.fetched hout.fetched)
  have hpage : ∃ pf₂, s₂.frames f = some pf₂ ∧ pf₂.pfPagenum = pf.pfPagenum ∧
      pf₂.pfObj = pf.pfObj ∧ Reverse X s₂ ∧ s₂.areas = s₁.areas ∧ s₂.maps = s₁.maps ∧
      s₂.objs = s₁.objs := by
    rcases dirtyIf_cases hdirty with rfl | ⟨pg, d, hpg, rfl⟩
    · exact ⟨pf, hpf₁, rfl, rfl, h₁, rfl, rfl, rfl⟩
    · cases hpf₁.symm.trans hpg
      exact ⟨_, update_self .., rfl, rfl, h₁.setFrame hpg rfl rfl, rfl, rfl, rfl⟩
  obtain ⟨pf₂, hpf₂, hnum₂, hobj₂, h₂, hareas₂, hmaps₂, hobjs₂⟩ := hpage
  refine .inl (ptMap_reverse h₂ hpf₂ ?_ (hobj₂ ▸ hon₁.congr hobjs₂) hmap)
  rw [addrToPn_pnToAddr, hnum₂, hnum]
  exact hvia.congr hareas₂ hmaps₂

theorem Reverse.flush {pd : Pagedir} {vlow vhigh : ℕ} (h : Reverse X s)
    (hx : s.procs p = some x) (hpd : ptUnmapRange x.pPagedir vlow vhigh = .ok pd)
    (hX : ∀ q v, X q v → q = p ∧ addrToPn vlow ≤ v ∧ v < addrToPn vhigh) :
    Reverse (fun _ _ ↦ False) (s.setProc p (some { x with pPagedir := pd })) := by
  have h₁ : Reverse X (s.setProc p (some { x with pPagedir := pd })) :=
    h.setProc hx rfl (ptUnmapRange_le hpd).entry
  refine ⟨h₁.linked, h₁.tracked.narrow ?_, h₁.mine⟩
  rintro q v f ⟨y, t, hy, ht, -⟩ hXq
  obtain ⟨rfl, hlo, hhi⟩ := hX q v hXq
  rw [Mem.setProc_procs, update_self] at hy
  cases hy
  rw [← (ptUnmapRange_eq_ok.mp hpd).2, entry_unmapRange hlo hhi] at ht
  cases ht

/-! ## All sequences of calls -/

end

namespace Mem

/-- The process of the map has no entry in the range. -/
def NoEntries (s : Mem) (m : MapId) (lo hi : ℕ) : Prop :=
  ∀ mp ∈ s.maps m, ∀ p ∈ mp.vmmProc, ∀ x ∈ s.procs p, ∀ v ∈ List.range' lo (hi - lo),
    x.pPagedir.entry v = none

instance (s : Mem) (m : MapId) (lo hi : ℕ) : Decidable (s.NoEntries m lo hi) :=
  inferInstanceAs (Decidable (∀ mp ∈ s.maps m, _))

/-- The call maps private areas only, and takes no page away that has an entry: a removal
finds no entry in its range, or removes the entries itself, and a process ends without
entries.  (Lengths have 32 bits.) -/
def CutsClean [Layout] (s : Mem) : SpaceEv → Prop
  | .create _ => True
  | .map m _ lopage npages _ flags _ _ =>
    flags.has mapPrivate = true ∧ (lopage ≠ 0 → s.NoEntries m lopage (lopage + npages))
  | .remove m lopage npages => s.NoEntries m lopage (lopage + npages)
  | .mmap _ _ _ _ flags _ _ => flags.has mapPrivate = true
  | .munmap _ _ len => len < 2 ^ 32
  | .fork _ _ => True
  | .destroy m => s.NoEntries m lowPage highPage
  | .fault p vaddr write =>
    (∃ s' ∈ (s.handlePagefault p vaddr write).toOption, (s'.procs p).any Proc.running = true) ∨
      ∀ x ∈ s.procs p, ∀ m ∈ x.pVmmap, s.NoEntries m lowPage highPage

instance [Layout] (s : Mem) (e : SpaceEv) : Decidable (s.CutsClean e) := by
  cases e <;> unfold CutsClean <;> infer_instance

end Mem

section

variable [Layout] {L : ObjId → Prop} {s s' : Mem} {p : Pid} {m : MapId} {mp : Vmmap}
  {X : Pid → ℕ → Prop}

omit [Layout] in
theorem Mem.NoEntries.entry {lo hi v : ℕ} {f : FrameId} (h : s.NoEntries m lo hi)
    (hm : s.maps m = some mp) (hcut : Cut mp.vmmProc lo hi p v) : ¬ s.Entry p v f := by
  rintro ⟨x, t, hx, ht, -⟩
  obtain ⟨hp, hlo, hhi⟩ := hcut
  rw [h mp hm p hp x hx v (List.mem_range'_1.mpr ⟨hlo, by omega⟩)] at ht
  cases ht

theorem Reverse.mono (h : Reverse (fun _ _ ↦ False) s) : Reverse X s :=
  ⟨h.linked, h.tracked.mono fun _ _ ↦ False.elim, h.mine⟩

theorem Reverse.close (h : Reverse X s') (hX : ∀ p v f, s'.Entry p v f → ¬ X p v) :
    Reverse (fun _ _ ↦ False) s' :=
  ⟨h.linked, h.tracked.narrow fun p v f he hx ↦ hX p v f he hx, h.mine⟩

theorem procCreate_reverse (h : Reverse X s) (hsp : Spaces L s)
    (hs : s.procCreate p = .ok s') : Reverse X s' := by
  obtain rfl := procCreate_eq_ok (hsp.noFailure .vmmap) hs
  refine ⟨h.linked, ?_, ?_⟩
  · refine h.tracked.carry ?_ (fun f pf hf ↦ ⟨pf, hf, rfl, rfl⟩) ?_
    · rintro q v f ⟨x, t, hx, ht, hf⟩
      rcases of_update_some hx with ⟨-, rfl⟩ | ⟨-, hx⟩
      · cases ht
      · exact ⟨x, t, hx, ht, hf⟩
    · rintro a q v n ⟨vma, m, mp, hvma, hm, hmp, hq, hrest⟩ -
      have hne : m ≠ s.next := (hsp.tidy.freshMap m mp hmp).ne
      exact ⟨a, ⟨vma, m, mp, hvma, hm, update_other hne hmp, hq, hrest⟩,
        fun _ hon ↦ hon⟩
  · intro q x m hx hm
    rcases of_update_some hx with ⟨rfl, rfl⟩ | ⟨-, hx⟩
    · cases hm
      refine ⟨Nat.lt_succ_self _, fun mp hmp ↦ ?_⟩
      rcases of_update_some hmp with ⟨-, rfl⟩ | ⟨hne, -⟩
      · rfl
      · exact absurd rfl hne
    · obtain ⟨hlt, hown⟩ := h.mine q x m hx hm
      refine ⟨hlt.trans (Nat.lt_succ_self _), fun mp hmp ↦ hown mp ?_⟩
      rcases update_eq_some.mp hmp with ⟨heq, -⟩ | ⟨-, hmp⟩
      · exact absurd heq hlt.ne
      · exact hmp

section

variable (h : Reverse (fun _ _ ↦ False) s) (hsp : Spaces L s) (hL : Spare L s)
include h hsp hL

theorem doMmap_reverse {addr len : ℕ} {fd : ℤ} {r : Except Errno ℕ}
    (hpriv : flags.has mapPrivate = true)
    (hs : s.doMmap p addr len prot flags fd off = .ok (s', r)) : Reverse (fun _ _ ↦ False) s' := by
  rcases doMmap_cases hs with rfl | ⟨x, m, file, s₁, a, vma, hx, hxm, hmap, hvma, hcases⟩
  · exact h
  obtain ⟨mp, hm⟩ := exists_map_of_vmmapMap hmap
  have hown := (h.mine p x m hx hxm).2 mp hm
  have hh₁ := vmmapMap_held hsp.held hL hsp.tidy hmap
  have h₁ : Reverse (fun q v ↦ addrToPn addr ≠ 0 ∧
      Cut mp.vmmProc (addrToPn addr) (addrToPn addr + pagesOf len) q v) s₁ :=
    vmmapMap_reverse h.mono hsp.held hL hsp.tidy hm hpriv (fun hne p v hcut ↦ ⟨hne, hcut⟩) hmap
  rcases hcases with ⟨hout, -⟩ | ⟨x₁, pd, start, hx₁, hstart, hpd, rfl⟩
  · -- the area lies in user memory
    obtain ⟨-, -, -, -, -, hlow, hhigh⟩ := hh₁.area a vma hvma
    have hlow' := Nat.mul_le_mul_right pageSize hlow
    have hhigh' := Nat.mul_le_mul_right pageSize hhigh
    rw [← pnToAddr_lowPage, ← pnToAddr_highPage] at hout
    unfold pnToAddr at hout
    omega
  · refine h₁.flush hx₁ hpd ?_
    rintro q v ⟨hne, hq, hlo, hhi⟩
    have haddr : addr ≠ 0 := by
      rintro rfl
      exact hne (Nat.zero_div _)
    rw [hstart, if_neg haddr]
    refine ⟨Option.some.inj (hq.symm.trans hown), hlo, ?_⟩
    rw [addrToPn, pnToAddr, Nat.add_mul_div_right _ _ (by decide)]
    exact hhi

theorem doMunmap_reverse {addr len : ℕ} {r : Except Errno Unit} (hlen : len < 2 ^ 32)
    (hs : s.doMunmap p addr len = .ok (s', r)) : Reverse (fun _ _ ↦ False) s' := by
  rcases doMunmap_cases hs with rfl | ⟨x, m, s₁, hx, hxm, haligned, hrem, hcases⟩
  · exact h
  obtain ⟨mp, hm⟩ := exists_map_of_vmmapRemove hrem
  have hown := (h.mine p x m hx hxm).2 mp hm
  have h₁ : Reverse (Cut mp.vmmProc (addrToPn addr) (addrToPn addr + pagesOf len)) s₁ :=
    vmmapRemove_reverse h.mono hsp.held hL hsp.tidy hm (fun _ _ hcut ↦ hcut) hrem
  rcases hcases with ⟨hout, -⟩ | hun
  · -- `vmmap_remove` has checked that the range lies in user memory
    obtain ⟨empty, hempty, -⟩ := bind_ok hrem
    obtain ⟨⟨hlohi, hlow, hhigh⟩, -⟩ := Mem.vmmapIsRangeEmpty_eq_ok hempty hm
    have hmem := Layout.high_le
    have hlow' := pnToAddr_lowPage
    have hhigh' := pnToAddr_highPage
    have haddr := haligned.pnToAddr_addrToPn
    unfold pnToAddr pageSize at *
    unfold pagesOf pageSize at *
    omega
  · obtain ⟨x₁, pd, hx₁, hpd, rfl⟩ := unmapPages_eq_ok hun
    refine h₁.flush hx₁ hpd ?_
    rintro q v ⟨hq, hlo, hhi⟩
    exact ⟨Option.some.inj (hq.symm.trans hown), hlo, by rwa [addrToPn_pnToAddr]⟩

/-- Every call that cuts clean keeps the reverse map. -/
theorem spaceStep_reverse {e : SpaceEv} (he : s.CutsClean e) (hs : spaceStep s e = .ok s') :
    Reverse (fun _ _ ↦ False) s' := by
  cases e with
  | create p => exact procCreate_reverse h hsp hs
  | map m file lopage npages prot flags off dir =>
    obtain ⟨⟨s₁, r⟩, hmap, hs⟩ := bind_ok hs
    cases hs
    obtain ⟨hpriv, hno⟩ := he
    obtain ⟨mp, hm⟩ := exists_map_of_vmmapMap hmap
    refine (vmmapMap_reverse (X := fun q v ↦ lopage ≠ 0 ∧
      Cut mp.vmmProc lopage (lopage + npages) q v) h.mono hsp.held hL hsp.tidy hm hpriv
      (fun hne _ _ hcut ↦ ⟨hne, hcut⟩) hmap).close ?_
    rintro q v f hentry ⟨hne, hcut⟩
    exact (hno hne).entry hm hcut
      (hentry.of_procsLe (vmmapMap_procs hmap))
  | remove m lopage npages =>
    have hrem : s.vmmapRemove m lopage npages = .ok s' := hs
    obtain ⟨mp, hm⟩ := exists_map_of_vmmapRemove hrem
    refine (vmmapRemove_reverse h.mono hsp.held hL hsp.tidy hm (fun _ _ hcut ↦ hcut)
      hrem).close ?_
    intro q v f hentry hcut
    exact Mem.NoEntries.entry he hm hcut (hentry.of_procsLe (vmmapRemove_procs hrem))
  | mmap p addr len prot flags fd off =>
    obtain ⟨⟨s₁, r⟩, hmmap, hs⟩ := bind_ok hs
    cases hs
    exact doMmap_reverse h hsp hL he hmmap
  | munmap p addr len =>
    obtain ⟨⟨s₁, r⟩, hmunmap, hs⟩ := bind_ok hs
    cases hs
    exact doMunmap_reverse h hsp hL he hmunmap
  | fork p c => exact doFork_reverse h hsp hs
  | destroy m =>
    have hdes : s.vmmapDestroy m = .ok s' := hs
    obtain ⟨mp, hm, -⟩ := bind_follow hdes
    refine (vmmapDestroy_reverse h.mono hsp.held hL hsp.tidy hm (fun _ _ hcut ↦ hcut)
      hdes).close ?_
    intro q v f hentry hcut
    exact Mem.NoEntries.entry he hm hcut (hentry.of_procsLe (vmmapDestroy_procs hdes))
  | fault p vaddr w =>
    have hfault : s.handlePagefault p vaddr w = .ok s' := hs
    rcases handlePagefault_reverse h hsp hL hfault with
      h' | ⟨s₁, h₁, hsp₁, hL₁, hmaps₁, hprocs₁, hexit⟩
    · exact h'
    obtain ⟨hentries, hdead⟩ := doExit_procs hexit
    rcases he with ⟨s₂, hs₂, hrun⟩ | hno
    · rw [hfault] at hs₂
      cases hs₂
      rw [hdead] at hrun
      cases hrun
    · -- the pages of the process, if it has a map
      refine (doExit_reverse (X := fun q v ↦ q = p ∧ lowPage ≤ v ∧ v < highPage ∧
        ∃ x m mp, s.procs p = some x ∧ x.pVmmap = some m ∧ s.maps m = some mp) h₁.mono hsp₁ hL₁
        ?_ hexit).close ?_
      · intro x m mp hx hm hmp v hlo hhi
        refine ⟨rfl, hlo, hhi, ?_⟩
        rw [hmaps₁] at hmp
        rcases hprocs₁ p with hp | ⟨y, pd, hy, -, hp⟩
        · exact ⟨x, m, mp, hp ▸ hx, hm, hmp⟩
        · cases hp.symm.trans hx
          exact ⟨y, m, mp, hy, hm, hmp⟩
      · rintro q v f hentry ⟨rfl, hlo, hhi, x, m, mp, hx, hm, hmp⟩
        have hown := (h.mine q x m hx hm).2 mp hmp
        exact (hno x hx m hm).entry hmp ⟨hown, hlo, hhi⟩
          ((hentries q v f hentry).of_procsLe hprocs₁)

end

theorem Booted.reverse (h : Booted s) : Reverse (fun _ _ ↦ False) s where
  linked a vma ha := by
    rw [h.areas a] at ha
    cases ha
  tracked p v f := by
    rintro ⟨x, t, hx, -⟩
    rw [h.procs p] at hx
    cases hx
  mine p x m hx := by
    rw [h.procs p] at hx
    cases hx

end

/-! ## A shared page -/

namespace Mem

/-- Whether the process has an entry for the page to the frame. -/
def entryTest (s : Mem) (p : Pid) (v : ℕ) (f : FrameId) : Bool :=
  (s.procs p).any fun x ↦ (x.pPagedir.entry v).any fun t ↦ t.paddr = f

theorem entryTest_eq_true {s : Mem} {p : Pid} {v : ℕ} {f : FrameId} :
    s.entryTest p v f = true ↔ s.Entry p v f := by
  simp only [entryTest, Option.any_eq_true, decide_eq_true_eq]
  constructor
  · rintro ⟨x, hx, t, ht, hf⟩
    exact ⟨x, t, hx, ht, hf⟩
  · rintro ⟨x, t, hx, ht, hf⟩
    exact ⟨x, hx, t, ht, hf⟩

end Mem

/-- A process maps a private anonymous page, writes to it and forks; the child reads it. -/
def privatePage : List SpaceEv :=
  [.create 1, .map 0 none 1024 1 3 2 0 .hilo, .fault 1 (pnToAddr 1024) true, .fork 1 2,
    .fault 2 (pnToAddr 1024) false]

end CS402.Mm

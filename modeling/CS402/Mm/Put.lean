import CS402.Mm.Objects

/-!
# Dropping references

`put_sound`: in a state that is in order, the `put` of an object returns.  The slot
whose reference it drops is empty afterwards; objects that were kept alive by this
reference alone are gone, with their pages and the objects that only they shadowed;
every other object and page is as it was, up to counts.

The proof follows the calls.  A page whose object has another reference is freed
without consequences (`freeWith_ok`), because the `put` inside `pframe_free` then only
counts; the loops over the pages of a dying object are therefore loops of such frees
(`reclaim_loop`), and what is left to the induction on the nesting depth is the one
`put` of the object below.
-/

set_option linter.unusedSectionVars false

namespace CS402.Mm

open CS402.Lib Function

variable [Layout]

/-- Objects, pages and the lists of areas are in order. -/
structure Store (s : Mem) (A : ℕ → Option ObjId) : Prop where
  objs : Objs s A
  links : Links s
  quiet : Quiet s

/-- Someone refers to every object, except to those of vnodes and to some anonymous
ones, those that `L` lets pass. -/
def Swept (L : ObjId → Prop) (s : Mem) (A : ℕ → Option ObjId) : Prop :=
  ∀ u ub, s.objs u = some ub →
    Objs.Needed s A u ∨ (∃ v, ub.mmoOps = .vnode v) ∨ (ub.mmoOps = .anon ∧ L u)

/-- `L` lets the anonymous objects without resident pages pass: `anon_put` does not free
them. -/
def Spare (L : ObjId → Prop) (s : Mem) : Prop :=
  ∀ u ub, s.objs u = some ub → ub.mmoOps = .anon → ub.mmoRespages = [] → L u

/-- References have been dropped, and with them the objects that nobody refers to any
more, up to the exceptions that `Spare` makes. -/
structure Sheds (s : Mem) (A : ℕ → Option ObjId) (s' : Mem) (A' : ℕ → Option ObjId) : Prop where
  objs : ∀ u ub', s'.objs u = some ub' →
    ∃ ub, s.objs u = some ub ∧ ub'.Like ub ∧ ub'.mmoVmas = ub.mmoVmas
  spare : ∀ L, Spare L s → Spare L s'
  swept : ∀ L, Spare L s → Swept L s A → Swept L s' A'

variable {s s₁ s' : Mem} {A : ℕ → Option ObjId} {o : ObjId} {ob : MmObj} {f : FrameId}
  {pf : Pframe} {n k a : ℕ}

/-! ## Frame conditions -/

theorem Links.of_rest (h : Links s) (hrest : Rest s s')
    (hobjs : ∀ o ob', s'.objs o = some ob' → ∃ ob, s.objs o = some ob ∧ ob'.mmoVmas = ob.mmoVmas) :
    Links s' where
  nodup o ob' ho := by
    obtain ⟨ob, hob, hv⟩ := hobjs o ob' ho
    rw [hv]
    exact h.nodup o ob hob
  area o ob' a ho ha := by
    obtain ⟨ob, hob, hv⟩ := hobjs o ob' ho
    rw [hrest.areas, hrest.maps]
    exact h.area o ob a hob (hv ▸ ha)
  proc m mp p hm hp := by
    obtain ⟨x, hx⟩ := h.proc m mp p (hrest.maps ▸ hm) hp
    rcases hrest.procs p with hp' | ⟨y, pd, -, -, hp'⟩
    · exact ⟨x, hp'.trans hx⟩
    · exact ⟨_, hp'⟩

theorem Quiet.of_sub (h : Quiet s) (hframes : ∀ f pf, s'.frames f = some pf → s.frames f = some pf)
    (hobjs : ∀ o ob', s'.objs o = some ob' → ∃ ob, s.objs o = some ob ∧ ob'.mmoOps = ob.mmoOps)
    (hvnodes : s'.vnodes = s.vnodes) : Quiet s' where
  busy f pf hf := h.busy f pf (hframes f pf hf)
  pins f pf hf := h.pins f pf (hframes f pf hf)
  within f pf ob' v vn hf ho hv hvn := by
    obtain ⟨ob, hob, hops⟩ := hobjs _ ob' ho
    exact h.within f pf ob v vn (hframes f pf hf) hob (hops ▸ hv) (hvnodes ▸ hvn)

theorem Rest.setObj (s : Mem) (o : ObjId) (x : Option MmObj) : Rest s (s.setObj o x) :=
  ⟨rfl, rfl, rfl, rfl, le_rfl, fun _ hk ↦ hk, .refl _⟩

theorem Rest.setFrame (s : Mem) (f : FrameId) (x : Option Pframe) : Rest s (s.setFrame f x) :=
  ⟨rfl, rfl, rfl, rfl, le_rfl, fun _ hk ↦ hk, .refl _⟩

theorem Rest.setProcs {P : Pid → Option Proc} (h : Mem.ProcsLe P s.procs) :
    Rest s { s with procs := P } := ⟨rfl, rfl, rfl, rfl, le_rfl, fun _ hk ↦ hk, h⟩

theorem Evolves.setObj {ob' : MmObj} (ho : s.objs o = some ob) (hl : ob'.Like ob) :
    Evolves s (s.setObj o (some ob')) where
  objs u ub hub := by
    exact .inr (exists_of_update hub ho (fun h ↦ h ▸ hl) (.refl _))
  frames _ _ hf := hf
  keep _ _ _ hf _ := hf
  vnode u ub v hu hv := exists_update hu ho (by rintro rfl; exact hl.ops.trans hv) hv

theorem pageAt_setFrame {pf' : Pframe} (hf : s.frames f = some pf) (hobj : pf'.pfObj = pf.pfObj)
    (hnum : pf'.pfPagenum = pf.pfPagenum) {g : FrameId} {u : ObjId} {m : ℕ} :
    (s.setFrame f (some pf')).PageAt g u m ↔ s.PageAt g u m := by
  unfold Mem.PageAt
  rw [Mem.setFrame_frames]
  constructor
  · rintro ⟨pg, hpg, hid⟩
    exact exists_of_update hpg hf (by rintro rfl; exact ⟨hobj ▸ hid.1, hnum ▸ hid.2⟩) hid
  · rintro ⟨pg, hpg, hid⟩
    exact exists_update hpg hf (by rintro rfl; exact ⟨hobj ▸ hid.1, hnum ▸ hid.2⟩) hid

theorem Objs.setFrame {pf' : Pframe} (h : Objs s A) (hf : s.frames f = some pf)
    (hobj : pf'.pfObj = pf.pfObj) (hnum : pf'.pfPagenum = pf.pfPagenum) :
    Objs (s.setFrame f (some pf')) A :=
  h.same (fun _ _ _ ↦ pageAt_setFrame hf hobj hnum) rfl le_rfl rfl rfl

theorem Objs.setProcs (h : Objs s A) (P : Pid → Option Proc) : Objs { s with procs := P } A :=
  h.same (fun _ _ _ ↦ Iff.rfl) rfl le_rfl rfl rfl

/-! ## Leaving the page tables -/

theorem unmapFrom_ok (hl : Links s) {a : AreaId} (ho : s.objs o = some ob)
    (ha : a ∈ ob.mmoVmas) : ∃ s', Mem.unmapFrom n s a = .ok s' := by
  obtain ⟨vma, m, mp, hvma, -, hm, hmp, hlow, hhigh⟩ := hl.area o ob a ho ha
  unfold Mem.unmapFrom
  rw [hvma, follow_bind]
  split
  · next hwin =>
    rw [hm, follow_bind, hmp, follow_bind]
    split
    · exact ⟨s, rfl⟩
    · next p hp =>
      obtain ⟨x, hx⟩ := hl.proc m mp p hmp hp
      have huser : UserPage (pnToAddr (vma.vmaStart + n - vma.vmaOff)) := by
        refine ⟨pageAligned_pnToAddr _, ?_, ?_⟩
        · rw [← pnToAddr_lowPage]
          exact Nat.mul_le_mul_right _ (by omega)
        · rw [← pnToAddr_highPage]
          exact Nat.mul_lt_mul_of_pos_right (by omega) (by decide)
      rw [hx, follow_bind, ptUnmap, demand_bind huser]
      exact ⟨_, rfl⟩
  · exact ⟨s, rfl⟩

theorem pframeRemoveFromPts_ok (h : Objs s A) (hl : Links s) (hf : s.PageAt f o n) :
    ∃ P, Mem.ProcsLe P s.procs ∧ s.pframeRemoveFromPts f = .ok { s with procs := P } := by
  obtain ⟨ob, hob⟩ := h.owned f o n hf
  obtain ⟨pf, hpf, hobj, -⟩ := hf
  obtain ⟨b, bo, hb, hbo, -, -⟩ := h.bottomObj_ok hob
  have hloop : ∃ s', bo.mmoVmas.foldlM (Mem.unmapFrom pf.pfPagenum) s = .ok s' ∧
      ∃ P, Mem.ProcsLe P s.procs ∧ s' = { s with procs := P } := by
    refine foldl_total ?_ ⟨s.procs, .refl _, rfl⟩
    rintro a ha s₁ ⟨P, hP, rfl⟩
    have hl₁ : Links { s with procs := P } :=
      hl.of_rest (.setProcs hP) fun _ ob' ho ↦ ⟨ob', ho, rfl⟩
    obtain ⟨s₂, hs₂⟩ := unmapFrom_ok hl₁ hbo ha
    obtain ⟨P', hP', rfl⟩ := Mem.unmapFrom_procs hs₂
    exact ⟨_, hs₂, P', hP'.trans hP, rfl⟩
  obtain ⟨s', hs', P, hP, rfl⟩ := hloop
  refine ⟨P, hP, ?_⟩
  unfold Mem.pframeRemoveFromPts
  rw [hpf, follow_bind, hobj, hb, ok_bind, hbo, follow_bind, hs']

/-! ## Freeing a page -/

theorem putN_dec (ho : s.objs o = some ob) (hnonneg : 0 ≤ ob.mmoNrespages)
    (hmore : ob.mmoNrespages < ob.mmoRefcount - 1)
    (hv : ∀ v, ob.mmoOps = .vnode v → ∃ vn, s.vnodes v = some vn) :
    Mem.putN (k + 1) s o =
      .ok (s.setObj o (some { ob with mmoRefcount := ob.mmoRefcount - 1 })) := by
  unfold Mem.putN
  rw [ho, follow_bind]
  split
  · unfold Mem.anonPut
    rw [demand_bind (by omega), if_neg (by omega)]
    rfl
  · unfold Mem.shadowPut
    rw [demand_bind (by omega), if_neg (by omega)]
    rfl
  · next v hops =>
    obtain ⟨vn, hvn⟩ := hv v hops
    unfold Mem.vput Mem.vputLast
    rw [demand_bind hnonneg, demand_bind (by omega), hvn, follow_bind,
      if_neg (by omega), ho, follow_bind, if_pos (by omega)]
    rfl

theorem freeWith_ok {q : Mem → ObjId → Except Fault Mem} (h : Objs s A) (hl : Links s)
    (hf : s.frames f = some pf) (hpin : ¬ pf.IsPinned) (hbusy : pf.pfBusy = false)
    (ho : s.objs pf.pfObj = some ob) (hmore : ob.mmoNrespages < ob.mmoRefcount)
    (hput : ∀ s, ∃ k, q s pf.pfObj = Mem.putN (k + 1) s pf.pfObj) :
    ∃ s', Mem.freeWith q s f = .ok s' ∧ PageDropped f pf.pfObj ob s s' := by
  obtain ⟨P, hP, hpts⟩ := pframeRemoveFromPts_ok h hl ⟨pf, hf, rfl, rfl⟩
  have hmem : f ∈ ob.mmoRespages := (h.pages _ ob ho f).mpr ⟨_, pf, hf, rfl, rfl⟩
  have hlen : (1 : ℤ) ≤ ob.mmoNrespages := by
    rw [h.length _ ob ho]
    exact_mod_cast List.length_pos_of_mem hmem
  obtain ⟨k, hk⟩ := hput (Mem.uncache { s with procs := P } f pf.pfObj ob)
  have hdec := putN_dec (k := k)
    (s := Mem.uncache { s with procs := P } f pf.pfObj ob) (o := pf.pfObj) (update_self ..)
    (show 0 ≤ ob.mmoNrespages - 1 by omega)
    (show ob.mmoNrespages - 1 < ob.mmoRefcount - 1 by omega)
    (fun v hv ↦ h.vnode _ ob v ho hv)
  refine ⟨_, Mem.freeWith_eq_ok.mpr ⟨pf, hf, hpin, hbusy, _, hpts, ob, ho, hk.trans hdec⟩, ?_⟩
  exact ⟨rfl, update_idem .., rfl, rfl, rfl, rfl, rfl, le_rfl, fun _ hk ↦ hk, hP⟩

theorem unpinIf_ok (hf : s.frames f = some pf) (h0 : 0 ≤ pf.pfPincount) (h1 : pf.pfPincount ≤ 1) :
    s.unpinIf f pf = .ok (s.setFrame f (some { pf with pfPincount := 0 })) := by
  unfold Mem.unpinIf
  split
  · next hpin =>
    have hone : pf.pfPincount = 1 := le_antisymm h1 hpin
    exact Mem.pframeUnpin_eq_ok.mpr ⟨pf, hf, hpin, by rw [hone]; rfl⟩
  · next hpin =>
    have hzero : pf.pfPincount = 0 := le_antisymm (not_lt.mp hpin) h0
    have hself : { pf with pfPincount := 0 } = pf := by rw [← hzero]
    rw [hself, Mem.setFrame, ← hf, update_eq_self]

theorem cleanIf_ok (h : Objs s A) (hl : Links s) (hf : s.frames f = some pf)
    (hpin : pf.pfPincount = 0) (ho : s.objs pf.pfObj = some ob)
    (hops : ob.mmoOps = .anon ∨ ob.mmoOps = .shadow) :
    ∃ P, Mem.ProcsLe P s.procs ∧ s.cleanIf f pf = .ok { s with procs := P } := by
  unfold Mem.cleanIf
  split
  · next hdirty =>
    obtain ⟨P, hP, hpts⟩ := pframeRemoveFromPts_ok h hl ⟨pf, hf, rfl, rfl⟩
    refine ⟨P, hP, ?_⟩
    have hself : Mem.setFrame { s with procs := P } f (some { pf with pfDirty := true }) =
        { s with procs := P } := by
      have hpf : { pf with pfDirty := true } = pf := by rw [← hdirty]
      rw [hpf, Mem.setFrame, ← hf, update_eq_self]
    unfold Mem.pframeClean Mem.cleanpage
    rw [hf, follow_bind, demand_bind hdirty, demand_bind hpin, hpts,
      ok_bind]
    dsimp only
    rw [ho, follow_bind]
    rcases hops with hops | hops
    all_goals
      rw [hops]
      exact congrArg Except.ok hself
  · exact ⟨s.procs, .refl _, rfl⟩

theorem reclaimWith_ok {q : Mem → ObjId → Except Fault Mem} (h : Store s A)
    (hf : s.frames f = some pf) (ho : s.objs pf.pfObj = some ob)
    (hops : ob.mmoOps = .anon ∨ ob.mmoOps = .shadow) (hmore : ob.mmoNrespages < ob.mmoRefcount)
    (hput : ∀ s, ∃ k, q s pf.pfObj = Mem.putN (k + 1) s pf.pfObj) :
    ∃ s', Mem.reclaimWith q s f = .ok s' ∧ PageDropped f pf.pfObj ob s s' := by
  obtain ⟨h0, h1⟩ := h.quiet.pins f pf hf
  let pf₁ : Pframe := { pf with pfPincount := 0 }
  let s₁ := s.setFrame f (some pf₁)
  have hf₁ : s₁.frames f = some pf₁ := update_self ..
  have hrest₁ : Rest s s₁ := .setFrame s f _
  have hobjs₁ : Objs s₁ A := h.objs.setFrame hf rfl rfl
  have hlinks₁ : Links s₁ := h.links.of_rest hrest₁ fun _ ob' ho ↦ ⟨ob', ho, rfl⟩
  obtain ⟨P, hP, hclean⟩ := cleanIf_ok hobjs₁ hlinks₁ hf₁ rfl ho hops
  have hrest₂ : Rest s₁ { s₁ with procs := P } := .setProcs hP
  obtain ⟨s', hfree, hdrop⟩ := freeWith_ok (hobjs₁.setProcs P)
    (hlinks₁.of_rest hrest₂ fun _ ob' ho ↦ ⟨ob', ho, rfl⟩) hf₁ (by simp [pf₁, Pframe.IsPinned])
    (h.quiet.busy f pf hf) ho hmore hput
  refine ⟨s', Mem.reclaimWith_eq_ok.mpr ⟨pf, hf, s₁, unpinIf_ok hf h0 h1, _, hclean, hfree⟩, ?_⟩
  exact ⟨hdrop.frames.trans (update_idem ..), hdrop.objs, hdrop.hash,
    hrest₁.trans (hrest₂.trans hdrop.rest)⟩

/-! ## The put -/

/-- The loop over the pages of a dying object. -/
theorem reclaim_loop : ∀ {l : List FrameId} {s : Mem} {ob : MmObj}, Store s A →
    s.objs o = some ob → ob.mmoRespages = l → (ob.mmoOps = .anon ∨ ob.mmoOps = .shadow) →
    ob.mmoNrespages < ob.mmoRefcount →
    ∃ s' ob', l.foldlM (Mem.reclaimWith (Mem.putN (k + 1))) s = .ok s' ∧ Store s' A ∧ Rest s s' ∧
      s'.objs = update s.objs o (some ob') ∧ ob'.Like ob ∧ ob'.mmoVmas = ob.mmoVmas ∧
      ob'.mmoRespages = [] ∧
      (∀ f pf, s.frames f = some pf → pf.pfObj ≠ o → s'.frames f = some pf) ∧
      ∀ f pf, s'.frames f = some pf → s.frames f = some pf := by
  intro l
  induction l with
  | nil =>
    intro s ob h ho hres _ _
    refine ⟨s, ob, rfl, h, .refl s, ?_, .refl _, rfl, hres, fun _ _ hf _ ↦ hf, fun _ _ hf ↦ hf⟩
    rw [← ho, update_eq_self]
  | cons f l ih =>
    intro s ob h ho hres hops hmore
    have hmem : f ∈ ob.mmoRespages := by rw [hres]; exact List.mem_cons_self
    obtain ⟨n, hpage⟩ := (h.objs.pages o ob ho f).mp hmem
    obtain ⟨pf, hf, rfl, -⟩ := id hpage
    obtain ⟨s₁, h₁, hd⟩ := reclaimWith_ok h hf ho hops hmore fun _ ↦ ⟨k, rfl⟩
    have hstore₁ : Store s₁ A := by
      refine ⟨h.objs.pageDropped ho hpage hd, h.links.of_rest hd.rest ?_,
        h.quiet.of_sub ?_ ?_ hd.rest.vnodes⟩
      · intro u ub hub
        rw [hd.objs] at hub
        exact exists_of_update hub ho (by rintro rfl; rfl) rfl
      · intro g pg hg
        rw [hd.frames] at hg
        obtain ⟨-, hg⟩ := of_update_none hg
        exact hg
      · intro u ub hub
        rw [hd.objs] at hub
        exact exists_of_update hub ho (by rintro rfl; rfl) rfl
    have ho₁ : s₁.objs pf.pfObj = some { ob with
        mmoRefcount := ob.mmoRefcount - 1
        mmoNrespages := ob.mmoNrespages - 1
        mmoRespages := ob.mmoRespages.erase f } := by rw [hd.objs, update_self]
    obtain ⟨s', ob', h₂, hstore', hrest', hobjs', hlike, hvmas, hnil, hkeep, hsub⟩ :=
      ih hstore₁ ho₁ (by rw [hres, List.erase_cons_head]) hops
        (show ob.mmoNrespages - 1 < ob.mmoRefcount - 1 by omega)
    refine ⟨s', ob', by rw [List.foldlM_cons, h₁, ok_bind, h₂], hstore', hd.rest.trans hrest',
      ?_, hlike.trans ⟨rfl, rfl, rfl⟩, hvmas, hnil, ?_, ?_⟩
    · rw [hobjs', hd.objs, update_idem]
    · intro g pg hg hne
      refine hkeep g pg ?_ hne
      rw [hd.frames]
      refine update_other ?_ hg
      rintro rfl
      cases hf.symm.trans hg
      exact hne rfl
    · intro g pg hg
      have hg₁ := hsub g pg hg
      rw [hd.frames] at hg₁
      obtain ⟨-, hg₁⟩ := of_update_none hg₁
      exact hg₁

theorem Store.dropRef (h : Store s A) (ho : s.objs o = some ob) (ha : A a = some o) :
    Store (s.setObj o (some { ob with mmoRefcount := ob.mmoRefcount - 1 })) (update A a none) := by
  refine ⟨h.objs.dropRef ho ha, h.links.of_rest (.setObj s o _) ?_, h.quiet.of_sub ?_ ?_ rfl⟩
  · exact fun u ub' hub ↦ exists_of_update hub ho (by rintro rfl; rfl) rfl
  · exact fun _ _ hf ↦ hf
  · exact fun u ub' hub ↦ exists_of_update hub ho (by rintro rfl; rfl) rfl

theorem Sheds.trans {A₁ A' : ℕ → Option ObjId} (h : Sheds s A s₁ A₁) (h' : Sheds s₁ A₁ s' A') :
    Sheds s A s' A' where
  objs u ub' hub := by
    obtain ⟨ub₁, hub₁, hl₁, hv₁⟩ := h'.objs u ub' hub
    obtain ⟨ub, hub, hl, hv⟩ := h.objs u ub₁ hub₁
    exact ⟨ub, hub, hl₁.trans hl, hv₁.trans hv⟩
  spare L hL := h'.spare L (h.spare L hL)
  swept L hL hsw := h'.swept L (h.spare L hL) (h.swept L hL hsw)

/-- Nothing goes when the object is still referred to, or is one of the exceptions. -/
theorem Sheds.dropRef (h : Store s A) (ho : s.objs o = some ob) (ha : A a = some o)
    (hleft : ob.mmoRefcount - 1 ≠ ob.mmoNrespages ∨ (ob.mmoOps = .anon ∧ ob.mmoRespages = [])) :
    Sheds s A (s.setObj o (some { ob with mmoRefcount := ob.mmoRefcount - 1 }))
      (update A a none) := by
  have hobjs := (h.dropRef ho ha).objs
  have hself : (s.setObj o (some { ob with mmoRefcount := ob.mmoRefcount - 1 })).objs o =
      some { ob with mmoRefcount := ob.mmoRefcount - 1 } := update_self ..
  have hlive : ∀ u ub', update s.objs o (some { ob with mmoRefcount := ob.mmoRefcount - 1 }) u =
      some ub' → (u = o ∧ ub' = { ob with mmoRefcount := ob.mmoRefcount - 1 }) ∨
        (u ≠ o ∧ s.objs u = some ub') := fun u ub' hub ↦
    (update_eq_some.mp hub).imp_left fun ⟨hu, hx⟩ ↦ ⟨hu, (Option.some.inj hx).symm⟩
  have hbelow : (s.setObj o (some { ob with mmoRefcount := ob.mmoRefcount - 1 })).below =
      s.below := by
    rw [below_update rfl, Option.bind_some, update_eq_self_iff, Mem.below, ho, Option.bind_some]
  refine ⟨?_, ?_, ?_⟩
  · intro u ub' hub
    rcases hlive u ub' hub with ⟨rfl, rfl⟩ | ⟨-, hub⟩
    · exact ⟨ob, ho, ⟨rfl, rfl, rfl⟩, rfl⟩
    · exact ⟨ub', hub, .refl _, rfl⟩
  · intro L hL u ub' hub hops hres
    rcases hlive u ub' hub with ⟨rfl, rfl⟩ | ⟨-, hub⟩
    · exact hL u ob ho hops hres
    · exact hL u ub' hub hops hres
  · intro L hL hsw u ub' hub
    rcases hlive u ub' hub with ⟨rfl, rfl⟩ | ⟨hne, hub⟩
    · rcases hleft with hleft | ⟨hops, hres⟩
      · -- the count leaves another reference, or it is that of a vnode
        obtain ⟨e, k, he, hk, hc⟩ := hobjs.count u _ hself
        unfold MmObj.Counts at hc
        split at hc
        · next v hv => exact .inr (.inl ⟨v, hv⟩)
        · rcases Nat.eq_zero_or_pos e with rfl | hpos
          · obtain ⟨b, hb⟩ := hk.exists_of_pos (by
              by_contra hzero
              have hcount : ob.mmoRefcount - 1 = ob.mmoNrespages + ((0 + k : ℕ) : ℤ) := hc
              omega)
            exact .inl ⟨b, .inr hb⟩
          · obtain ⟨b, hb⟩ := he.exists_of_pos hpos
            exact .inl ⟨b, .inl hb⟩
      · exact .inr (.inr ⟨hops, hL u ob ho hops hres⟩)
    · refine (hsw u ub' hub).imp_left ?_
      rintro ⟨b, hb⟩
      refine ⟨b, hb.imp (fun hb ↦ ?_) fun hb ↦ hbelow ▸ hb⟩
      rw [update_of_ne, hb]
      rintro rfl
      exact hne (Option.some.inj (hb.symm.trans ha))

/-- The object that only slot `a` refers to is freed with its pages; the slot then refers
to the object below, if there is one. -/
theorem free_last (h : Store s A) (ho : s.objs o = some ob) (ha : A a = some o)
    (hops : ob.mmoOps = .anon ∨ ob.mmoOps = .shadow)
    (hlast : ob.mmoRefcount - 1 = ob.mmoNrespages) :
    ∃ s₁, ob.mmoRespages.foldlM (Mem.reclaimWith (Mem.putN (k + 1))) s = .ok s₁ ∧
      Store (s₁.setObj o none) (update A a ob.mmoShadowed) ∧ Rest s (s₁.setObj o none) ∧
      Evolves s (s₁.setObj o none) ∧
      Sheds s A (s₁.setObj o none) (update A a ob.mmoShadowed) := by
  obtain ⟨s₁, ob₁, hloop, hstore, hrest, hobjs, hlike, hvmas, hnil, hkeep, hsub⟩ :=
    reclaim_loop h ho rfl hops (by omega)
  have ho₁ : s₁.objs o = some ob₁ := by rw [hobjs, update_self]
  -- the count leaves room for one reference, which is that of the slot
  obtain ⟨e, j, he, hj, hc⟩ := h.objs.count o ob ho
  have hsum : e + j = 1 := by
    unfold MmObj.Counts at hc
    split at hc
    · next hv => rcases hops with hops | hops <;> rw [hops] at hv <;> cases hv
    · omega
  have hpos := he.pos ha
  obtain rfl : e = 1 := by omega
  obtain rfl : j = 0 := by omega
  have hbelow : s₁.below = s.below := by
    rw [below_update hobjs, Option.bind_some, hlike.shadowed, update_eq_self_iff, Mem.below, ho,
      Option.bind_some]
  have hnopage : ∀ f n, ¬ s₁.PageAt f o n := by
    intro f n hf
    have hmem := (hstore.objs.pages o ob₁ ho₁ f).mpr ⟨n, hf⟩
    rw [hnil] at hmem
    exact List.not_mem_nil hmem
  have hforget := hstore.objs.forget ho₁ ha (fun b hb ↦ he.eq_of_one hb ha)
    (fun u ↦ hbelow ▸ hj.ne_of_zero u) hnopage
  rw [hlike.shadowed] at hforget
  have hlive : ∀ u ub, (s₁.setObj o none).objs u = some ub → u ≠ o ∧ s.objs u = some ub := by
    intro u ub hub
    obtain ⟨hu, hub⟩ := of_update_none hub
    rw [hobjs, update_of_ne hu] at hub
    exact ⟨hu, hub⟩
  have hrest' : Rest s (s₁.setObj o none) := hrest.trans (.setObj s₁ o none)
  refine ⟨s₁, hloop, ⟨hforget, h.links.of_rest hrest' ?_, h.quiet.of_sub hsub ?_ hrest.vnodes⟩,
    hrest', ⟨?_, hsub, ?_, ?_⟩, ?_, ?_, ?_⟩
  · exact fun u ub hub ↦ ⟨ub, (hlive u ub hub).2, rfl⟩
  · exact fun u ub hub ↦ ⟨ub, (hlive u ub hub).2, rfl⟩
  · exact fun u ub hub ↦ .inr ⟨ub, (hlive u ub hub).2, .refl _⟩
  · exact fun f pf ub hf hub ↦ hkeep f pf hf (hlive _ ub hub).1
  · intro u ub v hu hv
    have hne : u ≠ o := by
      rintro rfl
      cases ho.symm.trans hu
      rcases hops with hops | hops <;> cases hops.symm.trans hv
    refine ⟨ub, update_other hne ?_, hv⟩
    rw [hobjs, update_of_ne hne, hu]
  · exact fun u ub hub ↦ ⟨ub, (hlive u ub hub).2, .refl _, rfl⟩
  · exact fun L hL u ub hub ↦ hL u ub (hlive u ub hub).2
  · -- what only the dead object referred to is referred to by the slot now
    intro L _ hsw u ub hub
    obtain ⟨hne, hub⟩ := hlive u ub hub
    refine (hsw u ub hub).imp_left ?_
    rintro ⟨b, hb | hb⟩
    · refine ⟨b, .inl ?_⟩
      rw [update_of_ne, hb]
      rintro rfl
      exact hne (Option.some.inj (hb.symm.trans ha))
    · rcases eq_or_ne b o with rfl | hbo
      · refine ⟨a, .inl ?_⟩
        rw [Mem.below, ho, Option.bind_some] at hb
        rw [update_self, hb]
      · refine ⟨b, .inr ?_⟩
        rw [below_update rfl, update_of_ne hbo, hbelow, hb]

theorem putN_sound : ∀ {k : ℕ} {s : Mem} {A : ℕ → Option ObjId} {a o : ℕ},
    Store s A → A a = some o → o + 2 ≤ k →
    ∃ s', Mem.putN k s o = .ok s' ∧ Store s' (update A a none) ∧ Rest s s' ∧ Evolves s s' ∧
      Sheds s A s' (update A a none) := by
  intro k
  induction k with
  | zero => exact fun _ _ hk ↦ absurd hk (Nat.not_succ_le_zero _)
  | succ k ih =>
    intro s A a o h ha hk
    obtain ⟨ob, ho⟩ := h.objs.held a o ha
    have hnonneg := h.objs.nres_nonneg ho
    have hlt := h.objs.nres_lt ho ⟨a, .inl ha⟩
    have hdec : Evolves s (s.setObj o (some { ob with mmoRefcount := ob.mmoRefcount - 1 })) :=
      .setObj ho ⟨rfl, rfl, rfl⟩
    by_cases hlast : ob.mmoRefcount - 1 = ob.mmoNrespages
    · obtain ⟨k, rfl⟩ : ∃ k', k = k' + 1 := ⟨k - 1, by omega⟩
      cases hops : ob.mmoOps with
      | anon =>
        have hnone : ob.mmoShadowed = none := by
          by_contra hne
          rw [(h.objs.kind o ob ho).mpr hne] at hops
          cases hops
        unfold Mem.putN
        rw [ho, follow_bind, hops]
        dsimp only
        unfold Mem.anonPut
        rw [demand_bind (by omega)]
        split
        · obtain ⟨s₁, hloop, hstore, hrest, hev, hshed⟩ :=
            free_last h ho ha (.inl hops) hlast
          rw [hloop, ok_bind]
          rw [hnone] at hstore hshed
          exact ⟨_, rfl, hstore, hrest, hev, hshed⟩
        · next hempty =>
          have hres : ob.mmoRespages = [] := by
            by_contra hne
            exact hempty ⟨hlast.le, hne⟩
          exact ⟨_, rfl, h.dropRef ho ha, .setObj s o _, hdec,
            .dropRef h ho ha (.inr ⟨hops, hres⟩)⟩
      | shadow =>
        obtain ⟨u, hu⟩ := Option.ne_none_iff_exists'.mp ((h.objs.kind o ob ho).mp hops)
        obtain ⟨hlt', -⟩ := h.objs.shadowed o ob u ho hu
        obtain ⟨s₁, hloop, hstore, hrest, hev, hshed⟩ :=
          free_last h ho ha (.inr hops) hlast
        rw [hu] at hstore hshed
        obtain ⟨s', hput, hstore', hrest', hev', hshed'⟩ :=
          ih hstore (update_self ..) (by omega)
        rw [update_idem] at hstore' hshed'
        refine ⟨s', ?_, hstore', hrest.trans hrest', hev.trans h.objs hev' hrest.next,
          hshed.trans hshed'⟩
        unfold Mem.putN
        rw [ho, follow_bind, hops]
        dsimp only
        unfold Mem.shadowPut
        rw [demand_bind (by omega), if_pos hlast, hloop, ok_bind, hu, follow_bind, hput]
      | vnode v =>
        -- the file system still has its reference
        obtain ⟨e, j, he, hj, hc⟩ := h.objs.count o ob ho
        have hpos := he.pos ha
        unfold MmObj.Counts at hc
        rw [hops] at hc
        dsimp only at hc
        omega
    · exact ⟨_, putN_dec ho hnonneg (by omega) (fun v hv ↦ h.objs.vnode o ob v ho hv),
        h.dropRef ho ha, .setObj s o _, hdec, .dropRef h ho ha (.inl hlast)⟩

/-- **Dropping a reference.**  The put of the object of a slot returns, and empties the
slot. -/
theorem put_sound (h : Store s A) (ha : A a = some o) :
    ∃ s', s.put o = .ok s' ∧ Store s' (update A a none) ∧ Rest s s' ∧ Evolves s s' ∧
      Sheds s A s' (update A a none) :=
  putN_sound h ha le_rfl

end CS402.Mm

import CS402.Lib.Layers
import CS402.Mm.Fetch
import CS402.Mm.Index
import CS402.Vm.Space

/-!
# Collapsing a shadow object

The shadow daemon removes a shadow object to which only the shadow object above it refers:
`removeFromTree` moves its pages up, or frees those that the upper object has newer ones
of, and links the upper object to what lies below.

Objects are layers, with their pages as entries (`Mem.layersWith`).  The result of this
file is `removeFromTree_decides`: the removal returns if and only if every page that is in
the way of one above is pinned and dirty, because `pframe_migrate` unpins and cleans such
pages without looking; and if it returns, then the layers have been merged in the sense of
`Lib.Layers` and all counts are right.
-/

set_option linter.unusedSectionVars false

namespace CS402.Mm

open CS402.Lib Function

namespace Mem

/-- The objects as layers, with `A` for the references from outside. -/
def layersWith (s : Mem) (A : ℕ → Option ObjId) : Layers ObjId ℕ ℕ FrameId :=
  ⟨s.below, A, s.resident⟩

/-- The page is pinned and dirty: `pframe_migrate` can drop it. -/
def Droppable (s : Mem) (f : FrameId) : Prop :=
  ∃ pf, s.frames f = some pf ∧ pf.IsPinned ∧ pf.pfDirty = true

section

variable [Layout]

/-- The loop over the pages of an object with one parent. -/
def migrateUp (last : ObjId) (s : Mem) (f : FrameId) : Except Fault Mem := do
  let pf ← follow .pointer (s.frames f)
  demand .assertion (pf.pfBusy = false)
  s.pframeMigrate f last

/-- An object whose pages have been migrated is taken out of the shadow tree. -/
def relink (s : Mem) (last o : ObjId) : Except Fault Mem := do
  let ob ← follow .pointer (s.objs o)
  let lb ← follow .pointer (s.objs last)
  let s := s.setObj last (some { lb with mmoShadowed := ob.mmoShadowed })
  let shadow ← follow .pointer ob.mmoShadowed
  let s ← s.ref shadow
  let ob ← follow .pointer (s.objs o)
  demand .assertion (ob.mmoRefcount = 1 ∧ ob.mmoNrespages = 0)
  s.put o

/-- An object with one parent: migrate all its pages to `last`, and remove it from the
shadow tree. -/
def removeFromTree (s : Mem) (last o : ObjId) (ob : MmObj) : Except Fault Mem := do
  let s ← ob.mmoRespages.foldlM (migrateUp last) s
  s.relink last o

end

end Mem

/-- The object has the same place in its tree and as many references besides those of its
pages. -/
structure MmObj.Kin (ob' ob : MmObj) : Prop extends ob'.Like ob where
  vmas : ob'.mmoVmas = ob.mmoVmas
  weight : ob'.mmoRefcount - ob'.mmoNrespages = ob.mmoRefcount - ob.mmoNrespages

theorem MmObj.Kin.refl (ob : MmObj) : ob.Kin ob := ⟨.refl ob, rfl, rfl⟩

theorem MmObj.Kin.trans {ob ob' ob'' : MmObj} (h : ob''.Kin ob') (h' : ob'.Kin ob) : ob''.Kin ob :=
  ⟨h.toLike.trans h'.toLike, h.vmas.trans h'.vmas, h.weight.trans h'.weight⟩

/-- Pages have changed their object, or have gone, and nothing else has happened. -/
structure Moves (s s' : Mem) : Prop where
  frames : ∀ f pf', s'.frames f = some pf' →
    ∃ pf, s.frames f = some pf ∧ pf' = { pf with pfObj := pf'.pfObj }
  kin : ∀ x xb', s'.objs x = some xb' → ∃ xb, s.objs x = some xb ∧ xb'.Kin xb
  live : ∀ x xb, s.objs x = some xb → ∃ xb', s'.objs x = some xb'
  rest : Rest s s'

/-- The object `o` has gone; the others have kept their kind and their references. -/
structure Removed (o : ObjId) (s s' : Mem) : Prop where
  frames : ∀ f pf', s'.frames f = some pf' →
    ∃ pf, s.frames f = some pf ∧ pf' = { pf with pfObj := pf'.pfObj }
  objs : ∀ x xb', s'.objs x = some xb' → x ≠ o ∧ ∃ xb, s.objs x = some xb ∧
    xb'.mmoOps = xb.mmoOps ∧
    xb'.mmoRefcount - xb'.mmoNrespages = xb.mmoRefcount - xb.mmoNrespages
  live : ∀ x xb, x ≠ o → s.objs x = some xb → ∃ xb', s'.objs x = some xb'
  rest : Rest s s'

variable {s s₁ s' : Mem} {A : ℕ → Option ObjId} {t o u : ObjId} {tb ob ub : MmObj} {f g : FrameId}
  {pf : Pframe} {n : ℕ}

namespace Moves

theorem refl (s : Mem) : Moves s s :=
  ⟨fun _ pf hf ↦ ⟨pf, hf, rfl⟩, fun _ xb hx ↦ ⟨xb, hx, .refl xb⟩, fun _ xb hx ↦ ⟨xb, hx⟩, .refl s⟩

theorem trans (h : Moves s s₁) (h' : Moves s₁ s') : Moves s s' where
  frames f pf' hf := by
    obtain ⟨pf₁, hf₁, h₁⟩ := h'.frames f pf' hf
    obtain ⟨pf, hf, h₀⟩ := h.frames f pf₁ hf₁
    refine ⟨pf, hf, ?_⟩
    rw [h₁, h₀]
  kin x xb' hx := by
    obtain ⟨xb₁, hx₁, h₁⟩ := h'.kin x xb' hx
    obtain ⟨xb, hx, h₀⟩ := h.kin x xb₁ hx₁
    exact ⟨xb, hx, h₁.trans h₀⟩
  live x xb hx := by
    obtain ⟨xb₁, hx₁⟩ := h.live x xb hx
    exact h'.live x xb₁ hx₁
  rest := h.rest.trans h'.rest

theorem below_eq (h : Moves s s') : s'.below = s.below := by
  funext x
  unfold Mem.below
  cases hx : s.objs x with
  | some xb =>
    obtain ⟨xb', hx'⟩ := h.live x xb hx
    obtain ⟨xb₀, hx₀, hkin⟩ := h.kin x xb' hx'
    cases hx.symm.trans hx₀
    rw [hx', Option.bind_some, Option.bind_some, hkin.shadowed]
  | none =>
    cases hx' : s'.objs x with
    | none => rfl
    | some xb' =>
      obtain ⟨xb, hxb, -⟩ := h.kin x xb' hx'
      cases hx.symm.trans hxb

end Moves

/-! ## One page -/

/-- The state after a page has moved to `t`. -/
def Mem.moved (s : Mem) (f : FrameId) (pf : Pframe) (t : ObjId) (ob tb : MmObj) : Mem :=
  { s with
    frames := update s.frames f (some { pf with pfObj := t })
    objs := update (update s.objs pf.pfObj (some { ob with
      mmoRefcount := ob.mmoRefcount - 1
      mmoNrespages := ob.mmoNrespages - 1
      mmoRespages := ob.mmoRespages.erase f })) t (some { tb with
        mmoRefcount := tb.mmoRefcount + 1
        mmoNrespages := tb.mmoNrespages + 1
        mmoRespages := f :: tb.mmoRespages })
    pframeHash := f :: s.pframeHash.erase f }

section

variable [Layout]

theorem migrateWith_none (ho : s.objs pf.pfObj = some ob) (hops : ob.mmoOps = .shadow)
    (hres : 1 ≤ ob.mmoNrespages) (hmore : ob.mmoNrespages < ob.mmoRefcount)
    (ht : s.objs t = some tb) (hpos : 0 < tb.mmoRefcount) (hne : t ≠ pf.pfObj) :
    s.migrateWith f pf t none = .ok (s.moved f pf t ob tb) := by
  have hput := putN_dec (k := pf.pfObj + 1) (s := s.detach f pf t ob)
    (update_self ..) (show 0 ≤ ob.mmoNrespages - 1 by omega)
    (show ob.mmoNrespages - 1 < ob.mmoRefcount - 1 by omega)
    (fun v hv ↦ by cases hops.symm.trans hv)
  have ht' : ∀ x, (s.detach f pf t ob |>.setObj pf.pfObj x).objs t = some tb := by
    intro x
    simp only [Mem.setObj, Mem.detach, update_idem, update_of_ne hne, ht]
  unfold Mem.migrateWith Mem.put
  rw [ho, follow_bind, hput, ok_bind, ht', follow_bind]
  unfold Mem.ref
  rw [Mem.attach_objs, update_self, follow_bind, demand_bind hpos]
  simp only [Mem.moved, Mem.setObj, Mem.attach, Mem.detach, update_idem]
  rfl

end

theorem pageAt_moved (hf : s.frames f = some pf) {x : ObjId} {m : ℕ} :
    (s.moved f pf t ob tb).PageAt g x m ↔
      (g = f ∧ x = t ∧ m = pf.pfPagenum) ∨ (g ≠ f ∧ s.PageAt g x m) := by
  unfold Mem.PageAt Mem.moved
  rcases eq_or_ne g f with rfl | hne
  · simp [eq_comm]
  · simp [hne]

/-- The page leaves its object and enters the other one. -/
theorem Objs.moved (h : Objs s A) (hf : s.frames f = some pf) (ho : s.objs pf.pfObj = some ob)
    (ht : s.objs t = some tb) (hne : t ≠ pf.pfObj) (habs : ∀ g, ¬ s.PageAt g t pf.pfPagenum) :
    Objs (s.moved f pf t ob tb) A := by
  have hpage : s.PageAt f pf.pfObj pf.pfPagenum := ⟨pf, hf, rfl, rfl⟩
  -- between the two halves the page belongs to nobody
  let mid : Mem := { s with
    frames := update s.frames f none
    objs := update s.objs pf.pfObj (some { ob with
      mmoRefcount := ob.mmoRefcount - 1
      mmoNrespages := ob.mmoNrespages - 1
      mmoRespages := ob.mmoRespages.erase f })
    pframeHash := s.pframeHash.erase f }
  have hd : PageDropped f pf.pfObj ob s mid :=
    ⟨rfl, rfl, rfl, rfl, rfl, rfl, rfl, le_rfl, fun _ hk ↦ hk, .refl _⟩
  have hmid : Objs mid A := h.pageDropped ho hpage hd
  have htm : mid.objs t = some tb := by
    show update s.objs _ _ t = _
    rw [update_of_ne hne, ht]
  have hat : ∀ {g x m}, (s.moved f pf t ob tb).PageAt g x m ↔
      (g = f ∧ x = t ∧ m = pf.pfPagenum) ∨ mid.PageAt g x m := by
    intro g x m
    rw [pageAt_moved hf, hd.pageAt]
  have hnot : f ∉ tb.mmoRespages := by
    intro hmem
    obtain ⟨m, hm⟩ := (hmid.pages t tb htm f).mp hmem
    exact (hd.pageAt.mp hm).1 rfl
  refine hmid.change htm (fun _ _ ↦ .inr) ?_ (fun _ _ _ he ↦ he) rfl ⟨rfl, rfl, rfl⟩ ?_ ?_ ?_ ?_ ?_
    ?_ ?_ rfl le_rfl
  · exact fun e k he hc ↦ ⟨e, he, hc.shift rfl (by push_cast; ring)⟩
  · exact List.nodup_cons.mpr ⟨hnot, hmid.nodup t tb htm⟩
  · show tb.mmoNrespages + 1 = _
    rw [hmid.length t tb htm, List.length_cons]
    rfl
  · intro g
    rw [List.mem_cons, hmid.pages t tb htm g]
    simp only [hat, exists_or, exists_and_left, true_and, exists_eq, and_true]
  · intro g x m hx
    rw [hat, or_iff_right fun hg ↦ hx hg.2.1]
  · intro g g' m hg hg'
    have hfree : ∀ g, ¬ mid.PageAt g t pf.pfPagenum := fun g hg ↦ habs g (hd.pageAt.mp hg).2
    rcases hat.mp hg with ⟨rfl, -, rfl⟩ | hg
    · exact ((hat.mp hg').resolve_right (hfree g')).1.symm
    rcases hat.mp hg' with ⟨-, -, rfl⟩ | hg'
    · exact absurd hg (hfree g)
    · exact hmid.unique g g' t m hg hg'
  · intro g x m hg
    rcases hat.mp hg with ⟨rfl, -⟩ | hg
    · exact List.mem_cons_self
    · exact List.mem_cons_of_mem _ (hmid.hashed g x m hg)
  · intro g x m hg
    rcases hat.mp hg with ⟨rfl, -⟩ | hg
    · exact h.freshFrame _ _ _ hpage
    · exact hmid.freshFrame g x m hg

theorem moves_moved (hf : s.frames f = some pf) (ho : s.objs pf.pfObj = some ob)
    (ht : s.objs t = some tb) (hne : t ≠ pf.pfObj) : Moves s (s.moved f pf t ob tb) where
  frames g pg hg := exists_of_update hg hf (by rintro rfl; rfl) rfl
  kin x xb hx := by
    rcases of_update_some hx with ⟨rfl, rfl⟩ | ⟨-, hx⟩
    · exact ⟨tb, ht, ⟨rfl, rfl, rfl⟩, rfl, by dsimp only; ring⟩
    rcases of_update_some hx with ⟨rfl, rfl⟩ | ⟨-, hx⟩
    · exact ⟨ob, ho, ⟨rfl, rfl, rfl⟩, rfl, by dsimp only; ring⟩
    · exact ⟨xb, hx, .refl xb⟩
  live x xb hx := by
    obtain ⟨xb₁, hx₁⟩ := filled_update hx
    exact filled_update hx₁
  rest := ⟨rfl, rfl, rfl, rfl, le_rfl, fun _ hk ↦ hk, .refl _⟩

theorem moves_dropped (ho : s.objs o = some ob) (hd : PageDropped f o ob s s') : Moves s s' where
  frames g pg hg := by
    rw [hd.frames] at hg
    obtain ⟨-, hg⟩ := of_update_none hg
    exact ⟨pg, hg, rfl⟩
  kin x xb hx := by
    rw [hd.objs] at hx
    refine exists_of_update hx ho ?_ (.refl xb)
    rintro rfl
    exact ⟨⟨rfl, rfl, rfl⟩, rfl, by dsimp only; ring⟩
  live x xb hx := by
    rw [hd.objs]
    exact filled_update hx
  rest := hd.rest

section

variable [Layout]

/-- Objects that have only moved pages of shadow objects are as quiet as before. -/
theorem Moves.store (h : Moves s s') (hs : Store s A) (hobjs : Objs s' A)
    (hshadow : ∀ f pf pf', s'.frames f = some pf' → s.frames f = some pf → pf'.pfObj ≠ pf.pfObj →
      s'.below pf'.pfObj ≠ none) : Store s' A := by
  refine ⟨hobjs, hs.links.of_rest h.rest ?_, ?_, ?_, ?_⟩
  · intro x xb' hx
    obtain ⟨xb, hxb, hkin⟩ := h.kin x xb' hx
    exact ⟨xb, hxb, hkin.vmas⟩
  · intro g pg hg
    obtain ⟨pf, hf, hpg⟩ := h.frames g pg hg
    rw [hpg]
    exact hs.quiet.busy g pf hf
  · intro g pg hg
    obtain ⟨pf, hf, hpg⟩ := h.frames g pg hg
    rw [hpg]
    exact hs.quiet.pins g pf hf
  · intro g pg ob' v vn hg ho hv hvn
    obtain ⟨pf, hf, hpg⟩ := h.frames g pg hg
    obtain ⟨ob, hob, hkin⟩ := h.kin _ ob' ho
    have hsame : pg.pfObj = pf.pfObj := by
      by_contra hdiff
      refine hshadow g pf pg hg hf hdiff ((hobjs.below_eq_none ho).mpr ?_)
      rw [hv]
      exact MmoOps.noConfusion
    have hnum : pg.pfPagenum = pf.pfPagenum := by rw [hpg]
    rw [hnum]
    exact hs.quiet.within g pf ob v vn hf (hsame ▸ hob) (hkin.ops ▸ hv) (h.rest.vnodes ▸ hvn)

/-- The page has moved up if its place there was free, and has gone if not. -/
theorem shifts_of_pages (h : Objs s A) (h' : Objs s' A) (hbelow : s'.below = s.below)
    (hne : t ≠ o) (hpage : s.PageAt f o n)
    (hpages : ∀ g x m, s'.PageAt g x m ↔
      (g ≠ f ∧ s.PageAt g x m) ∨ (g = f ∧ x = t ∧ m = n ∧ s.resident t n = none)) :
    (s.layersWith A).Shifts (s'.layersWith A) t o n where
  below := hbelow
  held := rfl
  gone := by
    refine h'.resident_eq_none.mpr fun g hg ↦ ?_
    rcases (hpages g o n).mp hg with ⟨hgf, hg⟩ | ⟨-, hot, -⟩
    · exact hgf (h.unique g f o n hg hpage)
    · exact hne hot.symm
  up := by
    have hlow : s.resident o n = some f := h.resident_eq_some.mpr hpage
    show s'.resident t n = (s.resident t n <|> s.resident o n)
    cases htop : s.resident t n with
    | none =>
      rw [hlow]
      exact h'.resident_eq_some.mpr ((hpages f t n).mpr (.inr ⟨rfl, rfl, rfl, htop⟩))
    | some g =>
      have hg := h.resident_eq_some.mp htop
      refine h'.resident_eq_some.mpr ((hpages g t n).mpr (.inl ⟨?_, hg⟩))
      rintro rfl
      obtain ⟨pf, hpf, ht, -⟩ := hg
      obtain ⟨pf', hpf', ho, -⟩ := hpage
      cases hpf.symm.trans hpf'
      exact hne (ht.symm.trans ho)
  other x m hx := by
    refine Option.ext fun g ↦ ?_
    show s'.resident x m = some g ↔ s.resident x m = some g
    rw [h'.resident_eq_some, h.resident_eq_some, hpages]
    constructor
    · rintro (⟨-, hg⟩ | ⟨-, rfl, rfl, -⟩)
      · exact hg
      · exact absurd rfl (hx (.inl rfl))
    · intro hg
      refine .inl ⟨?_, hg⟩
      rintro rfl
      obtain ⟨pf, hpf, hxo, hm⟩ := hg
      obtain ⟨pf', hpf', ho, hn⟩ := hpage
      cases hpf.symm.trans hpf'
      exact hx (.inr (hxo.symm.trans ho)) (hm.symm.trans hn)

theorem migrateWith_some (hf : s.frames f = some pf) (hpin : pf.IsPinned)
    (hdirty : pf.pfDirty = true) :
    s.migrateWith f pf t (some g) = Mem.reclaimWith Mem.put (s.touch g) f := by
  obtain ⟨L, hL⟩ := touch_eq s g
  unfold Mem.migrateWith Mem.reclaimWith Mem.unpinIf Mem.cleanIf Mem.pframeFree
  have hf' : (s.touch g).frames f = some pf := by
    rw [hL]
    exact hf
  rw [hf', follow_bind, if_pos hpin]
  simp only [if_pos hdirty]

/-- A page that is not pinned, or not dirty, cannot be unpinned and cleaned. -/
theorem migrateWith_error (hf : s.frames f = some pf)
    (hnot : ¬ (pf.IsPinned ∧ pf.pfDirty = true)) :
    ∃ e, s.migrateWith f pf t (some g) = .error e := by
  obtain ⟨L, hL⟩ := touch_eq s g
  have hf' : (s.touch g).frames f = some pf := by
    rw [hL]
    exact hf
  unfold Mem.migrateWith
  dsimp only
  by_cases hpin : pf.IsPinned
  · have hclean : pf.pfDirty = false := by
      cases hd : pf.pfDirty with
      | false => rfl
      | true => exact absurd ⟨hpin, hd⟩ hnot
    have hunpin := Mem.pframeUnpin_eq_ok.mpr ⟨pf, hf', hpin, rfl⟩
    rw [hunpin, ok_bind]
    unfold Mem.pframeClean
    rw [Mem.setFrame_frames, update_self, follow_bind]
    simp only [hclean]
    exact ⟨_, rfl⟩
  · have hzero : ¬ 0 < pf.pfPincount := hpin
    unfold Mem.pframeUnpin
    rw [hf', follow_bind, demand_neg hzero]
    exact ⟨_, rfl⟩

/-- **One page.**  It moves up, or goes because there is a newer one, or the assertions of
`pframe_unpin` and `pframe_clean` do not let it go. -/
theorem migrateUp_decides (h : Store s A) (hf : s.frames f = some pf)
    (ho : s.objs pf.pfObj = some ob) (hops : ob.mmoOps = .shadow)
    (hmore : ob.mmoNrespages < ob.mmoRefcount) (ht : s.objs t = some tb)
    (htop : s.below t ≠ none) (hpos : 0 < tb.mmoRefcount) (hne : t ≠ pf.pfObj) :
    ((s.resident t pf.pfPagenum ≠ none → pf.IsPinned ∧ pf.pfDirty = true) ∧
      ∃ s', Mem.migrateUp t s f = .ok s' ∧ Store s' A ∧ Moves s s' ∧
        (s.layersWith A).Shifts (s'.layersWith A) t pf.pfObj pf.pfPagenum ∧
        ∀ ob', s'.objs pf.pfObj = some ob' → ob'.mmoRespages = ob.mmoRespages.erase f) ∨
    (¬ (s.resident t pf.pfPagenum ≠ none → pf.IsPinned ∧ pf.pfDirty = true) ∧
      ∃ e, Mem.migrateUp t s f = .error e) := by
  have hpage : s.PageAt f pf.pfObj pf.pfPagenum := ⟨pf, hf, rfl, rfl⟩
  have hmem : f ∈ ob.mmoRespages := (h.objs.pages _ ob ho f).mpr ⟨_, hpage⟩
  have hres : 1 ≤ ob.mmoNrespages := by
    rw [h.objs.length _ ob ho]
    exact_mod_cast List.length_pos_of_mem hmem
  have hcall : Mem.migrateUp t s f = s.migrateWith f pf t (s.resident t pf.pfPagenum) := by
    unfold Mem.migrateUp Mem.pframeMigrate
    rw [hf, follow_some, ok_bind, demand_pos (h.quiet.busy f pf hf), ok_bind, ok_bind,
      demand_bind (h.quiet.busy f pf hf)]
  rw [hcall]
  cases hfound : s.resident t pf.pfPagenum with
  | none =>
    have habs := h.objs.resident_eq_none.mp hfound
    have hobjs := h.objs.moved hf ho ht hne habs
    have hmoves := moves_moved hf ho ht hne
    refine .inl ⟨fun hx ↦ absurd rfl hx, _, migrateWith_none ho hops hres hmore ht hpos hne,
      hmoves.store h hobjs ?_, hmoves, ?_, ?_⟩
    · intro g pg pg' hg' hg hdiff
      rcases of_update_some hg' with ⟨rfl, rfl⟩ | ⟨-, hg'⟩
      · rw [hmoves.below_eq]
        exact htop
      · cases hg.symm.trans hg'
        exact absurd rfl hdiff
    · refine shifts_of_pages h.objs hobjs hmoves.below_eq hne hpage fun g x m ↦ ?_
      rw [pageAt_moved hf, or_comm]
      simp only [hfound, and_true]
    · intro ob' hob'
      have hob : (s.moved f pf t ob tb).objs pf.pfObj = some { ob with
          mmoRefcount := ob.mmoRefcount - 1
          mmoNrespages := ob.mmoNrespages - 1
          mmoRespages := ob.mmoRespages.erase f } :=
        (update_of_ne hne.symm ..).trans (update_self ..)
      cases hob.symm.trans hob'
      rfl
  | some g =>
    by_cases hgood : pf.IsPinned ∧ pf.pfDirty = true
    · obtain ⟨L, hL⟩ := touch_eq s g
      have hstore : Store { s with lists := L } A :=
        h.same ⟨h.links.nodup, h.links.area, h.links.proc⟩ rfl rfl rfl rfl le_rfl
      obtain ⟨s', hs', hd⟩ := reclaimWith_ok (q := Mem.put) hstore hf ho (.inr hops) hmore
        fun _ ↦ ⟨_, rfl⟩
      have hd' : PageDropped f pf.pfObj ob s s' :=
        ⟨hd.frames, hd.objs, hd.hash, (Rest.setLists s L).trans hd.rest⟩
      have hobjs := h.objs.pageDropped ho hpage hd'
      have hmoves := moves_dropped ho hd'
      refine .inl ⟨fun _ ↦ hgood, s', ?_, hmoves.store h hobjs ?_, hmoves, ?_, ?_⟩
      · rw [migrateWith_some hf hgood.1 hgood.2, hL, hs']
      · intro g pg pg' hg' hg hdiff
        rw [hd'.frames] at hg'
        obtain ⟨-, hg'⟩ := of_update_none hg'
        cases hg.symm.trans hg'
        exact absurd rfl hdiff
      · refine shifts_of_pages h.objs hobjs hmoves.below_eq hne hpage fun x y m ↦ ?_
        rw [hd'.pageAt, hfound]
        simp only [reduceCtorEq, and_false, or_false]
      · intro ob' hob'
        rw [hd'.objs, update_self] at hob'
        cases hob'
        rfl
    · refine .inr ⟨fun hall ↦ hgood (hall (Option.some_ne_none g)), ?_⟩
      exact migrateWith_error hf hgood

/-! ## The pages of an object -/

/-- The loop over the pages of an object returns if and only if those that are in the way of
a page above may go. -/
theorem migrateLoop_decides {b : ℕ} (h : Store s A) (ho : s.objs o = some ob)
    (hone : ob.mmoRefcount - ob.mmoNrespages = 1) (hb : A b = some t)
    (honly : (s.layersWith A).Only t o) :
    ((∀ f ∈ ob.mmoRespages, ∀ m, s.resident o m = some f → s.resident t m ≠ none →
        s.Droppable f) ∧
      ∃ s₁ ob₁, ob.mmoRespages.foldlM (Mem.migrateUp t) s = .ok s₁ ∧ Store s₁ A ∧ Moves s s₁ ∧
        (s.layersWith A).Shifted (s₁.layersWith A) t o ∧ s₁.objs o = some ob₁ ∧
        ob₁.mmoRespages = []) ∨
    ((¬ ∀ f ∈ ob.mmoRespages, ∀ m, s.resident o m = some f → s.resident t m ≠ none →
        s.Droppable f) ∧
      ∃ e, ob.mmoRespages.foldlM (Mem.migrateUp t) s = .error e) := by
  have hne : t ≠ o := (h.objs.below_lt honly.below).ne'
  have hops : ob.mmoOps = .shadow := by
    by_contra hops
    exact honly.inner ((h.objs.below_eq_none ho).mpr hops)
  have hloop := foldl_decides (f := Mem.migrateUp t)
    (P := fun f ↦ ∀ m, s.resident o m = some f → s.resident t m ≠ none → s.Droppable f)
    (I := fun l s₁ ↦ Store s₁ A ∧ Moves s s₁ ∧ (s.layersWith A).Shifted (s₁.layersWith A) t o ∧
      ∃ ob₁, s₁.objs o = some ob₁ ∧ ob₁.mmoRespages = l) ?_
    ⟨h, .refl s, .refl _ t o, ob, ho, rfl⟩
  · rcases hloop with ⟨hall, s₁, hs₁, hstore, hmoves, hshift, ob₁, ho₁, hnil⟩ | herr
    · exact .inl ⟨hall, s₁, ob₁, hs₁, hstore, hmoves, hshift, ho₁, hnil⟩
    · exact .inr herr
  rintro f l s₁ ⟨hs₁, hmoves, hshift, ob₁, ho₁, hlist⟩
  -- the page is still where it was, and so is what is in its way
  have hmem : f ∈ ob₁.mmoRespages := hlist ▸ List.mem_cons_self
  obtain ⟨m, hpage⟩ := (hs₁.objs.pages o ob₁ ho₁ f).mp hmem
  have hlow : s₁.resident o m = some f := hs₁.objs.resident_eq_some.mpr hpage
  obtain ⟨htop, hlow₀⟩ := hshift.left m (ne_of_eq_of_ne hlow (Option.some_ne_none f))
  replace htop : s₁.resident t m = s.resident t m := htop
  replace hlow₀ : s.resident o m = some f := hlow₀.symm.trans hlow
  obtain ⟨pf₁, hf₁, rfl, rfl⟩ := hpage
  obtain ⟨pf, hf, hpf⟩ := hmoves.frames f pf₁ hf₁
  obtain ⟨ob₀, ho₀, hkin⟩ := hmoves.kin _ ob₁ ho₁
  cases ho.symm.trans ho₀
  obtain ⟨tb₁, ht₁⟩ := hs₁.objs.held b t hb
  have hpos : 0 < tb₁.mmoRefcount :=
    (hs₁.objs.nres_nonneg ht₁).trans_lt (hs₁.objs.nres_lt ht₁ ⟨b, .inl hb⟩)
  have htbelow : s₁.below t ≠ none := by
    rw [hmoves.below_eq, show s.below t = some _ from honly.below]
    exact Option.some_ne_none _
  have hcond : (s₁.resident t pf₁.pfPagenum ≠ none → pf₁.IsPinned ∧ pf₁.pfDirty = true) ↔
      ∀ m, s.resident pf₁.pfObj m = some f → s.resident t m ≠ none → s.Droppable f := by
    have hdrop : s.Droppable f ↔ pf₁.IsPinned ∧ pf₁.pfDirty = true := by
      rw [hpf]
      constructor
      · rintro ⟨pf', hf', hgood⟩
        cases hf.symm.trans hf'
        exact hgood
      · exact fun hgood ↦ ⟨pf, hf, hgood⟩
    rw [htop, ← hdrop]
    constructor
    · intro hall k hk
      obtain ⟨pf', hf', -, rfl⟩ := h.objs.resident_eq_some.mp hk
      cases hf.symm.trans hf'
      have hnum : pf₁.pfPagenum = pf.pfPagenum := by rw [hpf]
      rw [← hnum]
      exact hall
    · exact fun hall ↦ hall _ hlow₀
  rw [← hcond]
  rcases migrateUp_decides hs₁ hf₁ ho₁ (hkin.ops.trans hops)
    (by have := hkin.weight; omega) ht₁ htbelow hpos hne with
    ⟨hgood, s₂, hs₂, hstore₂, hmoves₂, hshift₂, hlist₂⟩ | hbad
  · refine .inl ⟨hgood, s₂, hs₂, hstore₂, hmoves.trans hmoves₂, hshift.step hshift₂, ?_⟩
    obtain ⟨ob₂, ho₂⟩ := hmoves₂.live _ ob₁ ho₁
    refine ⟨ob₂, ho₂, ?_⟩
    rw [hlist₂ ob₂ ho₂, hlist, List.erase_cons_head]
  · exact .inr hbad

/-! ## The object -/

/-- An object without pages, to which only `t` refers, has gone, and `t` lies on what was
below. -/
theorem Objs.collapse (h : Objs s A) (ht : s.objs t = some tb) (ho : s.objs o = some ob)
    (honly : (s.layersWith A).Only t o) (hpages : ∀ f m, ¬ s.PageAt f o m)
    (hobjs : s'.objs = update (update s.objs t (some { tb with mmoShadowed := ob.mmoShadowed }))
      o none)
    (hframes : s'.frames = s.frames) (hhash : s'.pframeHash = s.pframeHash)
    (hvnodes : s'.vnodes = s.vnodes) (hnext : s'.next = s.next) :
    Objs s' A ∧ s'.below = ((s.layersWith A).merge t o).below := by
  have hne : t ≠ o := (h.below_lt honly.below).ne'
  have hto : tb.mmoShadowed = some o := by
    obtain ⟨tb', ht', hto⟩ := below_eq_some.mp honly.below
    cases ht.symm.trans ht'
    exact hto
  obtain ⟨u, hu⟩ := Option.ne_none_iff_exists'.mp
    (show ob.mmoShadowed ≠ none from fun hnone ↦ honly.inner (by
      show s.below o = none
      rw [Mem.below, ho, Option.bind_some, hnone]))
  have hlive : ∀ x xb, s'.objs x = some xb → x ≠ o ∧
      ((x = t ∧ xb = { tb with mmoShadowed := ob.mmoShadowed }) ∨ (x ≠ t ∧ s.objs x = some xb)) := by
    intro x xb hx
    rw [hobjs] at hx
    obtain ⟨hxo, hx⟩ := of_update_none hx
    exact ⟨hxo, (update_eq_some.mp hx).imp_left (And.imp_right fun heq ↦
      (Option.some.inj heq).symm)⟩
  have hold : ∀ x xb, x ≠ o → s.objs x = some xb → ∃ xb', s'.objs x = some xb' := by
    intro x xb hxo hx
    rw [hobjs, update_of_ne hxo]
    exact filled_update hx
  have hpage : ∀ g x m, s'.PageAt g x m ↔ s.PageAt g x m := by
    intro g x m
    unfold Mem.PageAt
    rw [hframes]
  have hbelow : s'.below = ((s.layersWith A).merge t o).below := by
    funext x
    show (s'.objs x).bind MmObj.mmoShadowed =
      update (update s.below t (s.below o)) o none x
    rw [hobjs]
    rcases eq_or_ne x o with rfl | hxo
    · simp
    rcases eq_or_ne x t with rfl | hxt
    · simp [hxo, Mem.below, ho]
    · simp [hxo, hxt, Mem.below]
  -- nobody but `t` refers to the object
  have hnot : ∀ x xb w, x ≠ t → s.objs x = some xb → xb.mmoShadowed = some w → w ≠ o := by
    rintro x xb w hxt hx hw rfl
    exact hxt (honly.parent x (below_eq_some.mpr ⟨xb, hx, hw⟩))
  have huo : u ≠ o := (h.shadowed o ob u ho hu).1.ne
  have hbot : ∀ w b, w ≠ o → s.bottomObj w = .ok b → s'.bottomObj w = .ok b := by
    intro w b hwo hw
    obtain ⟨wb, hwb, hw⟩ := bind_follow hw
    unfold Mem.bottomObj
    rw [hobjs, update_of_ne hwo]
    rcases eq_or_ne w t with rfl | hwt
    · cases ht.symm.trans hwb
      rw [update_self, follow_bind]
      simp only [hu]
      simp only [hto] at hw
      exact hw
    · rw [update_of_ne hwt, hwb, follow_bind]
      exact hw
  have hcount : ∀ x xb, x ≠ o → s.objs x = some xb →
      ∃ e k, Refs A x e ∧ Refs s'.below x k ∧ xb.Counts (e + k) := by
    intro x xb hxo hx
    obtain ⟨e, k, he, hk, hc⟩ := h.count x xb hx
    obtain ⟨e', k', he', hk', hsum⟩ := (Layers.parents_merge
      (fun x u hu ↦ h.below_lt hu) honly hxo).mpr ⟨e, k, he, hk, rfl⟩
    exact ⟨e', k', he', hbelow ▸ hk', hsum ▸ hc⟩
  have hpaged := h.paged hpage hhash hnext.ge fun g x m xb hg hx ↦
    hold x xb (fun hxo ↦ hpages g m (hxo ▸ hg)) hx
  refine ⟨.of_at (fun x xb hx ↦ ?_) hpaged fun a x ha ↦ ?_, hbelow⟩
  · obtain ⟨hxo, ⟨rfl, rfl⟩ | ⟨hxt, hx⟩⟩ := hlive x xb hx
    · have hat := h.objAt ht
      refine ⟨hnext ▸ hat.fresh, ?_, ?_, ?_, hcount x tb hxo ht, hat.nodup, hat.length, ?_,
        hvnodes ▸ hat.vnode⟩
      · intro w hw
        obtain ⟨hlt, wb, hwb⟩ := h.shadowed o ob w ho hw
        exact ⟨hlt.trans (h.below_lt honly.below), hold w wb hlt.ne hwb⟩
      · refine iff_of_true (hat.kind.mpr ?_) ?_
        · rw [hto]
          exact Option.some_ne_none o
        · rw [hu]
          exact Option.some_ne_none u
      · -- the bottom of the two objects was the same
        intro w hw
        obtain ⟨b, hb, hbo⟩ := hat.bottom o hto
        obtain ⟨b', hb', hbw⟩ := h.bottom o ob w ho hw
        have hsame : s.bottomObj o = .ok b' := by
          unfold Mem.bottomObj
          rw [ho, follow_bind]
          simp only [hu, hb', follow_some]
        cases hbo.symm.trans hsame
        exact ⟨b, hb, hbot w b (h.shadowed o ob w ho hw).1.ne hbw⟩
      · simp only [hpage]
        exact hat.pages
    · have hat := h.objAt hx
      refine ⟨hnext ▸ hat.fresh, ?_, hat.kind, ?_, hcount x xb hxo hx, hat.nodup, hat.length, ?_,
        hvnodes ▸ hat.vnode⟩
      · intro w hw
        obtain ⟨hlt, wb, hwb⟩ := hat.shadowed w hw
        exact ⟨hlt, hold w wb (hnot x xb w hxt hx hw) hwb⟩
      · intro w hw
        obtain ⟨b, hb, hbw⟩ := hat.bottom w hw
        exact ⟨b, hb, hbot w b (hnot x xb w hxt hx hw) hbw⟩
      · simp only [hpage]
        exact hat.pages
  · obtain ⟨xb, hx⟩ := h.held a x ha
    exact hold x xb (fun hxo ↦ honly.held a (hxo ▸ ha)) hx

/-- The end of the removal: the object below gets the reference of `t` before it loses that
of the object, so that its count is the same again. -/
theorem relink_eq (h : Objs s A) (ht : s.objs t = some tb) (ho : s.objs o = some ob)
    (hu : ob.mmoShadowed = some u) (hops : ob.mmoOps = .shadow) (hone : ob.mmoRefcount = 1)
    (hres : ob.mmoNrespages = 0) (hnil : ob.mmoRespages = []) (hlt : o < t) :
    s.relink t o = .ok { s with
      objs := update (update s.objs t (some { tb with mmoShadowed := ob.mmoShadowed })) o none } := by
  obtain ⟨hlt', ub, hub⟩ := h.shadowed o ob u ho hu
  have hut : u ≠ t := (hlt'.trans hlt).ne
  have hneed : Objs.Needed s A u := ⟨o, .inr (below_eq_some.mpr ⟨ob, ho, hu⟩)⟩
  have hspare := h.nres_lt hub hneed
  have hnonneg := h.nres_nonneg hub
  let s₁ := s.setObj t (some { tb with mmoShadowed := ob.mmoShadowed })
  let s₂ := s₁.setObj u (some { ub with mmoRefcount := ub.mmoRefcount + 1 })
  have hub₁ : s₁.objs u = some ub := (update_of_ne hut ..).trans hub
  have href : s₁.ref u = .ok s₂ := by
    unfold Mem.ref
    rw [hub₁, follow_bind, demand_bind (by omega)]
    rfl
  have ho₂ : s₂.objs o = some ob :=
    (update_of_ne hlt'.ne' ..).trans ((update_of_ne hlt.ne ..).trans ho)
  have hub₃ : (s₂.setObj o none).objs u = some { ub with mmoRefcount := ub.mmoRefcount + 1 } :=
    (update_of_ne hlt'.ne ..).trans (update_self ..)
  have hdec := putN_dec (k := o) hub₃ hnonneg (show ub.mmoNrespages < ub.mmoRefcount + 1 - 1 by omega)
    (fun v hv ↦ h.vnode u ub v hub hv)
  have hput : s₂.put o = .ok ((s₂.setObj o none).setObj u (some ub)) := by
    unfold Mem.put Mem.putN
    rw [ho₂, follow_bind, hops]
    dsimp only
    unfold Mem.shadowPut
    rw [demand_bind (by omega), if_pos (by omega), hnil, List.foldlM_nil, hu]
    show Mem.putN (o + 1) (s₂.setObj o none) u = _
    rw [hdec]
    simp only [add_sub_cancel_right]
  have hobjs : ((s₂.setObj o none).setObj u (some ub)).objs =
      update (update s.objs t (some { tb with mmoShadowed := ob.mmoShadowed })) o none := by
    funext x
    show update (update (update (update s.objs t _) u _) o none) u (some ub) x = _
    rcases eq_or_ne x u with rfl | hxu
    · rw [update_self, update_of_ne hlt'.ne, update_of_ne hut, hub]
    rcases eq_or_ne x o with rfl | hxo
    · rw [update_of_ne hxu, update_self, update_self]
    · rw [update_of_ne hxu, update_of_ne hxo, update_of_ne hxu, update_of_ne hxo]
  unfold Mem.relink
  rw [ho, follow_bind, ht, follow_bind]
  have hfollow : follow Fault.pointer ob.mmoShadowed = .ok u := by rw [hu, follow_some]
  rw [hfollow, ok_bind, href, ok_bind, ho₂, follow_bind, demand_pos ⟨hone, hres⟩, ok_bind,
    hput, ← hobjs]
  rfl

/-- **The removal.**  It returns if and only if the pages that are in the way of a page above
may go, and then the object is merged into the one above it. -/
theorem removeFromTree_decides {b : ℕ} (h : Store s A) (ho : s.objs o = some ob)
    (hone : ob.mmoRefcount - ob.mmoNrespages = 1) (hb : A b = some t)
    (honly : (s.layersWith A).Only t o) :
    ((∀ m f, s.resident o m = some f → s.resident t m ≠ none → s.Droppable f) ∧
      ∃ s', s.removeFromTree t o ob = .ok s' ∧ Store s' A ∧ Removed o s s' ∧
        s'.layersWith A = (s.layersWith A).merge t o) ∨
    ((¬ ∀ m f, s.resident o m = some f → s.resident t m ≠ none → s.Droppable f) ∧
      ∃ e, s.removeFromTree t o ob = .error e) := by
  have hcond : (∀ m f, s.resident o m = some f → s.resident t m ≠ none → s.Droppable f) ↔
      ∀ f ∈ ob.mmoRespages, ∀ m, s.resident o m = some f → s.resident t m ≠ none →
        s.Droppable f := by
    refine ⟨fun hall f _ m ↦ hall m f, fun hall m f hf ↦ hall f ?_ m hf⟩
    exact (h.objs.pages o ob ho f).mpr ⟨m, h.objs.resident_eq_some.mp hf⟩
  rw [hcond]
  unfold Mem.removeFromTree
  rcases migrateLoop_decides h ho hone hb honly with
    ⟨hall, s₁, ob₁, hs₁, hstore, hmoves, hshift, ho₁, hnil⟩ | ⟨hnot, e, he⟩
  swap
  · exact .inr ⟨hnot, e, by rw [he, error_bind]⟩
  refine .inl ⟨hall, ?_⟩
  rw [hs₁, ok_bind]
  have hlt : o < t := h.objs.below_lt honly.below
  obtain ⟨ob₀, ho₀, hkin⟩ := hmoves.kin o ob₁ ho₁
  cases ho.symm.trans ho₀
  have hops : ob.mmoOps = .shadow := by
    by_contra hops
    exact honly.inner ((h.objs.below_eq_none ho).mpr hops)
  obtain ⟨u, hu⟩ := Option.ne_none_iff_exists'.mp ((h.objs.kind o ob ho).mp hops)
  obtain ⟨tb₁, ht₁⟩ := hstore.objs.held b t hb
  have hres : ob₁.mmoNrespages = 0 := by
    rw [hstore.objs.length o ob₁ ho₁, hnil]
    rfl
  have hpages : ∀ f m, ¬ s₁.PageAt f o m := by
    intro f m hf
    have hmem := (hstore.objs.pages o ob₁ ho₁ f).mpr ⟨m, hf⟩
    rw [hnil] at hmem
    exact List.not_mem_nil hmem
  have hlayers : ((s.layersWith A).merge t o).below = ((s₁.layersWith A).merge t o).below := by
    show update (update s.below t (s.below o)) o none =
      update (update s₁.below t (s₁.below o)) o none
    rw [hmoves.below_eq]
  have honly₁ : (s₁.layersWith A).Only t o := by
    refine ⟨?_, ?_, honly.held, fun x hx ↦ honly.parent x ?_⟩
    · exact (congrFun hmoves.below_eq t).trans honly.below
    · exact ne_of_eq_of_ne (congrFun hmoves.below_eq o) honly.inner
    · exact (congrFun hmoves.below_eq x).symm.trans hx
  have hrelink := relink_eq hstore.objs ht₁ ho₁ (hkin.shadowed.trans hu) (hkin.ops.trans hops)
    (by have := hkin.weight; omega) hres hnil hlt
  let s' : Mem := { s₁ with
    objs := update (update s₁.objs t (some { tb₁ with mmoShadowed := ob₁.mmoShadowed })) o none }
  have hobjs' : s'.objs = update (update s₁.objs t
      (some { tb₁ with mmoShadowed := ob₁.mmoShadowed })) o none := rfl
  obtain ⟨hobjs, hbelow⟩ := hstore.objs.collapse ht₁ ho₁ honly₁ hpages hobjs' rfl rfl rfl rfl
  have hlive : ∀ x xb, s'.objs x = some xb → x ≠ o ∧
      ∃ xb₁, s₁.objs x = some xb₁ ∧ xb.mmoOps = xb₁.mmoOps ∧ xb.mmoVmas = xb₁.mmoVmas ∧
        xb.mmoRefcount - xb.mmoNrespages = xb₁.mmoRefcount - xb₁.mmoNrespages := by
    intro x xb hx
    obtain ⟨hxo, hx⟩ := of_update_none hx
    exact ⟨hxo, exists_of_update hx ht₁ (by rintro rfl; exact ⟨rfl, rfl, rfl⟩) ⟨rfl, rfl, rfl⟩⟩
  have hrest : Rest s₁ s' := ⟨rfl, rfl, rfl, rfl, le_rfl, fun _ hk ↦ hk, .refl _⟩
  refine ⟨s', hrelink, ⟨hobjs, hstore.links.of_rest hrest ?_, hstore.quiet.of_sub
    (fun _ _ hf ↦ hf) ?_ rfl⟩, ⟨hmoves.frames, ?_, ?_, hmoves.rest.trans hrest⟩, ?_⟩
  · intro x xb hx
    obtain ⟨-, xb₁, hx₁, -, hv, -⟩ := hlive x xb hx
    exact ⟨xb₁, hx₁, hv⟩
  · intro x xb hx
    obtain ⟨-, xb₁, hx₁, hops₁, -⟩ := hlive x xb hx
    exact ⟨xb₁, hx₁, hops₁⟩
  · intro x xb hx
    obtain ⟨hxo, xb₁, hx₁, hops₁, -, hw₁⟩ := hlive x xb hx
    obtain ⟨xb₀, hx₀, hkin₀⟩ := hmoves.kin x xb₁ hx₁
    exact ⟨hxo, xb₀, hx₀, hops₁.trans hkin₀.ops, hw₁.trans hkin₀.weight⟩
  · intro x xb hxo hx
    obtain ⟨xb₁, hx₁⟩ := hmoves.live x xb hx
    show ∃ xb', update (update s₁.objs t _) o none x = some xb'
    rw [update_of_ne hxo]
    exact filled_update hx₁
  · have hentry := hshift.entry_eq hlt.ne' fun m ↦ hstore.objs.resident_eq_none.mpr (hpages · m)
    exact congr (congrArg (fun b e ↦ Layers.mk b A e) (hbelow.trans hlayers.symm)) hentry

end

end CS402.Mm

import CS402.Mm.Put

/-!
# Finding and filling pages

What a page of an object contains is spread over a chain of shadow objects: it is the
first resident page on the way down, or what the bottom object would fill the page
with.  `Eff s n o f` says that `f` is the first resident frame for page `n` of `o`, and
`Shows s n o d` that `d` is what a lookup would find there.

The main result is `pframeLookup_ok`: in a state that is in order a lookup returns.
Whatever pages it brings into the cache contain what their places showed before
(`Fetched`), so no lookup changes what any object shows; and a lookup for reading only
adds pages of bottom objects, so it does not move the effective frame of any page
either.
-/

set_option linter.unusedSectionVars false

namespace CS402.Mm

open CS402.Lib Function Relation

/-- The object has no resident page with that number. -/
def Absent (s : Mem) (n : ℕ) (o : ObjId) : Prop := ∀ f, ¬ s.PageAt f o n

/-- The first frame on the chain of `o` that holds page `n`. -/
inductive Eff (s : Mem) (n : ℕ) : ObjId → FrameId → Prop
  | here {o : ObjId} {f : FrameId} (h : s.PageAt f o n) : Eff s n o f
  | down {o u : ObjId} {f : FrameId} (h : Absent s n o) (hu : s.below o = some u)
      (hf : Eff s n u f) : Eff s n o f

/-- What a lookup of page `n` of `o` finds. -/
inductive Shows (s : Mem) (n : ℕ) : ObjId → Page → Prop
  | page {o : ObjId} {f : FrameId} {pf : Pframe} (h : s.frames f = some pf) (ho : pf.pfObj = o)
      (hn : pf.pfPagenum = n) : Shows s n o pf.pfData
  | down {o u : ObjId} {d : Page} (h : Absent s n o) (hu : s.below o = some u)
      (hd : Shows s n u d) : Shows s n o d
  | anon {o : ObjId} {ob : MmObj} (h : Absent s n o) (ho : s.objs o = some ob)
      (hops : ob.mmoOps = .anon) : Shows s n o fun _ ↦ 0
  | file {o : ObjId} {ob : MmObj} {v : VnodeId} {vn : Vnode} {d : Page} (h : Absent s n o)
      (ho : s.objs o = some ob) (hops : ob.mmoOps = .vnode v) (hvn : s.vnodes v = some vn)
      (hlen : n * pageSize % 2 ^ 32 < vn.vnLen) (hd : vn.fillpage n = .ok d) : Shows s n o d

/-- The page is not behind the end of the file, if the object has one. -/
def InFile (s : Mem) (ob : MmObj) (n : ℕ) : Prop :=
  ∀ v vn, ob.mmoOps = .vnode v → s.vnodes v = some vn → n * pageSize % 2 ^ 32 < vn.vnLen

/-- One step down from an object that lacks the page. -/
def Down (s : Mem) (n : ℕ) (o u : ObjId) : Prop := Absent s n o ∧ s.below o = some u

/-- The page is in good order. -/
structure PageOk (s : Mem) (pf : Pframe) : Prop where
  busy : pf.pfBusy = false
  pins : 0 ≤ pf.pfPincount ∧ pf.pfPincount ≤ 1
  within : ∀ ob v vn, s.objs pf.pfObj = some ob → ob.mmoOps = .vnode v → s.vnodes v = some vn →
    pf.pfPagenum * pageSize % 2 ^ 32 < vn.vnLen

/-- The pages of the objects up to `o` are in good order. -/
def Calm (s : Mem) (o : ℕ) : Prop := ∀ f pf, s.frames f = some pf → pf.pfObj ≤ o → PageOk s pf

theorem Quiet.calm {s : Mem} (h : Quiet s) (o : ℕ) : Calm s o :=
  fun f pf hf _ ↦ ⟨h.busy f pf hf, h.pins f pf hf, fun ob v vn ↦ h.within f pf ob v vn hf⟩

theorem Calm.mono {s : Mem} {o u : ℕ} (h : Calm s o) (hu : u ≤ o) : Calm s u :=
  fun f pf hf hle ↦ h f pf hf (hle.trans hu)

/-- Pages have come into the cache, each with the contents that its place showed before.
Shadow objects have got pages only in the places `W`. -/
structure Fetched (W : ObjId → ℕ → Prop) (s s' : Mem) : Prop where
  old : ∀ f pf, s.frames f = some pf → s'.frames f = some pf
  new : ∀ f pf, s'.frames f = some pf → s.frames f = some pf ∨
    (Absent s pf.pfPagenum pf.pfObj ∧ Shows s pf.pfPagenum pf.pfObj pf.pfData ∧ PageOk s pf ∧
      (s.below pf.pfObj = none ∨ W pf.pfObj pf.pfPagenum))
  like : ∀ o ob', s'.objs o = some ob' →
    ∃ ob, s.objs o = some ob ∧ ob'.Like ob ∧ ob'.mmoVmas = ob.mmoVmas
  live : ∀ o ob, s.objs o = some ob → ∃ ob', s'.objs o = some ob'
  rest : Rest s s'

variable {W : ObjId → ℕ → Prop} {s s₁ s' : Mem} {A : ℕ → Option ObjId} {o u : ObjId}
  {ob : MmObj} {f g : FrameId} {pf : Pframe} {n k : ℕ} {d d' : Page}

theorem below_eq_some : s.below o = some u ↔ ∃ ob, s.objs o = some ob ∧ ob.mmoShadowed = some u :=
  Option.bind_eq_some_iff

theorem Objs.below_lt (h : Objs s A) {o u : ℕ} (hu : s.below o = some u) : u < o := by
  obtain ⟨ob, ho, hsh⟩ := below_eq_some.mp hu
  exact (h.shadowed o ob u ho hsh).1

theorem Objs.below_live (h : Objs s A) (hu : s.below o = some u) : ∃ ub, s.objs u = some ub := by
  obtain ⟨ob, ho, hsh⟩ := below_eq_some.mp hu
  exact (h.shadowed o ob u ho hsh).2

theorem Objs.below_eq_none (h : Objs s A) (ho : s.objs o = some ob) :
    s.below o = none ↔ ob.mmoOps ≠ .shadow := by
  rw [Mem.below, ho, Option.bind_some, Ne, h.kind o ob ho, not_not]

/-! ## Frames and contents are determined -/

theorem Eff.unique (h : Objs s A) (hf : Eff s n o f) (hg : Eff s n o g) : f = g := by
  induction hf with
  | here hf =>
    cases hg with
    | here hg => exact h.unique _ _ _ _ hf hg
    | down habs _ _ => exact absurd hf (habs _)
  | down habs hu _ ih =>
    cases hg with
    | here hg => exact absurd hg (habs _)
    | down _ hu' hg =>
      cases hu.symm.trans hu'
      exact ih hg

theorem Eff.shows (he : Eff s n o f) (hf : s.frames f = some pf) : Shows s n o pf.pfData := by
  induction he with
  | here hp =>
    obtain ⟨pf', hpf', ho, hn⟩ := hp
    cases hf.symm.trans hpf'
    exact .page hf ho hn
  | down habs hu _ ih => exact .down habs hu (ih hf)

theorem Eff.pageAt (h : Objs s A) {o : ℕ} (he : Eff s n o f) : ∃ u : ℕ, u ≤ o ∧ s.PageAt f u n := by
  induction he with
  | here hp => exact ⟨_, le_rfl, hp⟩
  | down _ hu _ ih =>
    obtain ⟨w, hw, hp⟩ := ih
    exact ⟨w, hw.trans (h.below_lt hu).le, hp⟩

theorem Shows.bottom_cases (hd : Shows s n o d) (habs : Absent s n o) (hnone : s.below o = none) :
    (∃ ob, s.objs o = some ob ∧ ob.mmoOps = .anon ∧ d = fun _ ↦ 0) ∨
    ∃ ob v vn, s.objs o = some ob ∧ ob.mmoOps = .vnode v ∧ s.vnodes v = some vn ∧
      n * pageSize % 2 ^ 32 < vn.vnLen ∧ vn.fillpage n = .ok d := by
  cases hd with
  | page hf ho hn => exact absurd ⟨_, hf, ho, hn⟩ (habs _)
  | down _ hu _ => cases hnone.symm.trans hu
  | anon _ ho hops => exact .inl ⟨_, ho, hops, rfl⟩
  | file _ ho hops hvn hlen hd => exact .inr ⟨_, _, _, ho, hops, hvn, hlen, hd⟩

theorem Shows.page_eq (h : Objs s A) (hd : Shows s n o d) (hf : s.frames f = some pf)
    (ho : pf.pfObj = o) (hn : pf.pfPagenum = n) : d = pf.pfData := by
  have hpage : s.PageAt f o n := ⟨pf, hf, ho, hn⟩
  cases hd with
  | page hg ho' hn' =>
    obtain rfl := h.unique _ _ _ _ ⟨_, hg, ho', hn'⟩ hpage
    cases hg.symm.trans hf
    rfl
  | down habs _ _ => exact absurd hpage (habs _)
  | anon habs _ _ => exact absurd hpage (habs _)
  | file habs _ _ _ _ _ => exact absurd hpage (habs _)

theorem Shows.unique (h : Objs s A) (hd : Shows s n o d) (hd' : Shows s n o d') : d = d' := by
  induction hd with
  | page hf ho hn => exact (hd'.page_eq h hf ho hn).symm
  | down habs hu _ ih =>
    obtain ⟨ob, ho, hsh⟩ := below_eq_some.mp hu
    have hops := (h.kind _ ob ho).mpr (by rw [hsh]; nofun)
    cases hd' with
    | page hf ho hn => exact absurd ⟨_, hf, ho, hn⟩ (habs _)
    | down _ hu' hd' =>
      cases hu.symm.trans hu'
      exact ih hd'
    | anon _ ho' hops' =>
      cases ho.symm.trans ho'
      cases hops.symm.trans hops'
    | file _ ho' hops' _ _ _ =>
      cases ho.symm.trans ho'
      cases hops.symm.trans hops'
  | anon habs ho hops =>
    have hnone := (h.below_eq_none ho).mpr (by rw [hops]; nofun)
    rcases hd'.bottom_cases habs hnone with ⟨_, -, -, rfl⟩ | ⟨ob', v, _, ho', hops', -⟩
    · rfl
    · cases ho.symm.trans ho'
      cases hops.symm.trans hops'
  | file habs ho hops hvn _ hd =>
    have hnone := (h.below_eq_none ho).mpr (by rw [hops]; nofun)
    rcases hd'.bottom_cases habs hnone with
      ⟨ob', ho', hops', -⟩ | ⟨ob', v, vn, ho', hops', hvn', -, hd'⟩
    · cases ho.symm.trans ho'
      cases hops.symm.trans hops'
    · cases ho.symm.trans ho'
      cases hops.symm.trans hops'
      cases hvn.symm.trans hvn'
      exact Except.ok.inj (hd.symm.trans hd')

/-! ## Contents and effective frames under a fetch -/

namespace Fetched

theorem pageAt (h : Fetched W s s') (hp : s.PageAt f o n) : s'.PageAt f o n := by
  obtain ⟨pf, hf, hid⟩ := hp
  exact ⟨pf, h.old f pf hf, hid⟩

theorem below_eq (h : Fetched W s s') (o : ObjId) : s'.below o = s.below o := by
  unfold Mem.below
  cases ho : s'.objs o with
  | none =>
    cases ho' : s.objs o with
    | none => rfl
    | some ob =>
      obtain ⟨ob', hob'⟩ := h.live o ob ho'
      cases ho.symm.trans hob'
  | some ob' =>
    obtain ⟨ob, ho', hl, -⟩ := h.like o ob' ho
    rw [ho', Option.bind_some, Option.bind_some, hl.shadowed]

theorem absent (h : Fetched W s s') (habs : Absent s n o) (hu : s.below o = some u)
    (hW : ¬ W o n) : Absent s' n o := by
  rintro f ⟨pf, hf, rfl, rfl⟩
  rcases h.new f pf hf with hf | ⟨-, -, -, hnone | hw⟩
  · exact habs f ⟨pf, hf, rfl, rfl⟩
  · cases hu.symm.trans hnone
  · exact hW hw

theorem eff (h : Fetched W s s') (he : Eff s n o f)
    (hW : ∀ u, ReflTransGen (Down s n) o u → ¬ W u n) : Eff s' n o f := by
  induction he with
  | here hp => exact .here (h.pageAt hp)
  | down habs hu _ ih =>
    refine .down (h.absent habs hu (hW _ .refl)) (by rw [h.below_eq, hu]) (ih ?_)
    exact fun w hw ↦ hW w (.head ⟨habs, hu⟩ hw)

/-- A fetch changes nothing that an object shows. -/
theorem shows (h : Fetched W s s') (hs : Objs s A) (hd : Shows s n o d) : Shows s' n o d := by
  -- a page that has come to a place shows what the place showed
  have hcame : ∀ {o : ObjId} {d : Page}, Shows s n o d → Absent s n o →
      Shows s' n o d ∨ Absent s' n o := by
    intro o d hd habs
    by_cases habs' : Absent s' n o
    · exact .inr habs'
    · obtain ⟨f, pf, hf, ho, hn⟩ : ∃ f, s'.PageAt f o n := by
        by_contra hno
        exact habs' fun f hf ↦ hno ⟨f, hf⟩
      rcases h.new f pf hf with hf' | ⟨-, hshows, -, -⟩
      · exact absurd ⟨pf, hf', ho, hn⟩ (habs f)
      · rw [ho, hn] at hshows
        rw [hd.unique hs hshows]
        exact .inl (.page hf ho hn)
  induction hd with
  | page hf ho hn => exact .page (h.old _ _ hf) ho hn
  | down habs hu hd ih =>
    exact (hcame (.down habs hu hd) habs).elim id fun habs' ↦
      .down habs' (by rw [h.below_eq, hu]) ih
  | anon habs ho hops =>
    refine (hcame (.anon habs ho hops) habs).elim id fun habs' ↦ ?_
    obtain ⟨ob', ho'⟩ := h.live _ _ ho
    obtain ⟨ob, ho₁, hl, -⟩ := h.like _ ob' ho'
    cases ho.symm.trans ho₁
    exact .anon habs' ho' (hl.ops.trans hops)
  | file habs ho hops hvn hlen hd =>
    refine (hcame (.file habs ho hops hvn hlen hd) habs).elim id fun habs' ↦ ?_
    obtain ⟨ob', ho'⟩ := h.live _ _ ho
    obtain ⟨ob, ho₁, hl, -⟩ := h.like _ ob' ho'
    cases ho.symm.trans ho₁
    exact .file habs' ho' (hl.ops.trans hops) (by rw [h.rest.vnodes, hvn]) hlen hd

theorem refl (W : ObjId → ℕ → Prop) (s : Mem) : Fetched W s s :=
  ⟨fun _ _ hf ↦ hf, fun _ _ hf ↦ .inl hf, fun _ ob' ho ↦ ⟨ob', ho, .refl _, rfl⟩,
    fun _ ob ho ↦ ⟨ob, ho⟩, .refl s⟩

theorem links [Layout] (h : Fetched W s s') (hl : Links s) : Links s' :=
  hl.of_rest h.rest fun o ob' ho ↦ by
    obtain ⟨ob, hob, -, hv⟩ := h.like o ob' ho
    exact ⟨ob, hob, hv⟩

theorem quiet (h : Fetched W s s') (hq : Quiet s) : Quiet s' := by
  have hnew : ∀ f pf, s'.frames f = some pf → s.frames f = some pf ∨ PageOk s pf :=
    fun f pf hf ↦ (h.new f pf hf).imp_right fun h ↦ h.2.2.1
  refine ⟨?_, ?_, ?_⟩
  · exact fun f pf hf ↦ (hnew f pf hf).elim (hq.busy f pf) PageOk.busy
  · exact fun f pf hf ↦ (hnew f pf hf).elim (hq.pins f pf) PageOk.pins
  · intro f pf ob' v vn hf ho hv hvn
    obtain ⟨ob, hob, hl, -⟩ := h.like _ ob' ho
    rw [h.rest.vnodes] at hvn
    rw [hl.ops] at hv
    exact (hnew f pf hf).elim (fun hf ↦ hq.within f pf ob v vn hf hob hv hvn)
      fun hok ↦ hok.within ob v vn hob hv hvn

end Fetched

/-! ## Getting a page -/

theorem touch_eq (s : Mem) (f : FrameId) : ∃ L, s.touch f = { s with lists := L } := by
  unfold Mem.touch
  split
  · exact ⟨s.lists, rfl⟩
  · exact ⟨_, rfl⟩

theorem Rest.setLists (s : Mem) (L : PageLists) : Rest s { s with lists := L } :=
  ⟨rfl, rfl, rfl, rfl, le_rfl, fun _ hk ↦ hk, .refl _⟩

theorem Rest.draw (s : Mem) (k : Allocator) : Rest s (s.draw k) :=
  ⟨rfl, rfl, rfl, rfl, le_rfl, fun _ hk' ↦ hk'.draw k, .refl _⟩

theorem Objs.draw (h : Objs s A) (k : Allocator) : Objs (s.draw k) A :=
  h.same (fun _ _ _ ↦ Iff.rfl) rfl le_rfl rfl rfl

theorem Fetched.of_same (W : ObjId → ℕ → Prop) (hframes : s'.frames = s.frames)
    (hobjs : s'.objs = s.objs) (hrest : Rest s s') : Fetched W s s' where
  old f pf hf := by rw [hframes, hf]
  new f pf hf := .inl (hframes ▸ hf)
  like o ob' ho := ⟨ob', hobjs ▸ ho, .refl _, rfl⟩
  live o ob ho := ⟨ob, hobjs ▸ ho⟩
  rest := hrest

/-- What a lookup of page `n` of `o` comes to; `P` says what a frame that it returns is. -/
structure Outcome (W : ObjId → ℕ → Prop) (A : ℕ → Option ObjId) (n : ℕ) (o : ObjId)
    (P : Mem → FrameId → Prop) (s s' : Mem) (r : Except Mem.NoPage FrameId) : Prop where
  objs : Objs s' A
  fetched : Fetched W s s'
  found : ∀ f, r = .ok f → P s' f
  shown : ∀ f, r = .ok f → ∃ d, Shows s n o d
  hit : ∀ f, P s f → r = .ok f
  progress : s.NoFailure .pframe → s.NoFailure .page → (∃ d, Shows s n o d) → ∃ f, r = .ok f

/-- What filling the new page `f` of `o` comes to, seen from the state `s` before the page
came: apart from the page itself, `s₂` is `s` with pages fetched. -/
structure Filled (A : ℕ → Option ObjId) (n : ℕ) (o : ObjId) (f : FrameId) (s s₂ : Mem)
    (status : Except Errno Unit) : Prop where
  objs : Objs s₂ A
  page : ∃ pf, s₂.frames f = some pf ∧ pf.pfObj = o ∧ pf.pfPagenum = n ∧ 0 ≤ pf.pfPincount ∧
    pf.pfPincount ≤ 1 ∧ (status = .ok () → Shows s n o pf.pfData) ∧
    (status ≠ .ok () → pf.pfPincount = 0)
  fetched : Fetched (fun _ _ ↦ False) s { s₂ with frames := update s₂.frames f none }
  progress : s.NoFailure .pframe → s.NoFailure .page → (∃ d, Shows s n o d) → status = .ok ()

/-- The state in which the new page `f` of `o` is filled. -/
structure Blank (A : ℕ → Option ObjId) (n : ℕ) (o : ObjId) (f : FrameId) (s s₁ : Mem) : Prop where
  objs : Objs s₁ A
  free : s.frames f = none
  frames : s₁.frames = update s.frames f (some
    { pfObj := o, pfPagenum := n, pfBusy := true, pfData := fun _ ↦ 0 })
  like : ∀ o ob', s₁.objs o = some ob' →
    ∃ ob, s.objs o = some ob ∧ ob'.Like ob ∧ ob'.mmoVmas = ob.mmoVmas
  live : ∀ o ob, s.objs o = some ob → ∃ ob', s₁.objs o = some ob'
  rest : Rest s s₁

theorem Blank.frame (h : Blank A n o f s s₁) : s₁.frames f = some
    { pfObj := o, pfPagenum := n, pfBusy := true, pfData := fun _ ↦ 0 } := by
  rw [h.frames, update_self]

theorem Blank.fetched (h : Blank A n o f s s₁) :
    Fetched (fun _ _ ↦ False) s { s₁ with frames := update s₁.frames f none } := by
  have hframes : update s₁.frames f none = s.frames := by
    rw [h.frames, update_idem, ← h.free, update_eq_self]
  refine ⟨?_, ?_, h.like, h.live, ?_⟩
  · exact fun g pg hg ↦ hframes ▸ hg
  · exact fun g pg hg ↦ .inl (hframes ▸ hg)
  · exact ⟨h.rest.areas, h.rest.maps, h.rest.files, h.rest.vnodes, h.rest.next, h.rest.noFailure,
      h.rest.procs⟩

section

variable [Layout]

variable {s₂ : Mem}

/-- The page has been filled, and is in use no longer. -/
theorem Filled.outcome (h : Filled A n o f s s₂ (.ok ())) (hf : s.frames f = none)
    (habs : Absent s n o) (hW : s.below o = none ∨ W o n)
    (hlen : ∀ ob v vn, s.objs o = some ob → ob.mmoOps = .vnode v → s.vnodes v = some vn →
      n * pageSize % 2 ^ 32 < vn.vnLen) :
    Outcome W A n o (fun s f ↦ s.PageAt f o n) s
      (s₂.modFrame f fun pf ↦ { pf with pfBusy := false }) (.ok f) := by
  obtain ⟨pf, hpf, hobj, hnum, h0, h1, hdata, -⟩ := h.page
  have hmod : (s₂.modFrame f fun pf ↦ { pf with pfBusy := false }) =
      s₂.setFrame f (some { pf with pfBusy := false }) := by rw [Mem.modFrame, hpf]; rfl
  have hother : ∀ g pg, update s₂.frames f none g = some pg → g ≠ f ∧ s₂.frames g = some pg := by
    intro g pg hg
    rcases update_eq_some.mp hg with ⟨-, hx⟩ | hg
    · cases hx
    · exact hg
  rw [hmod]
  refine ⟨h.objs.setFrame hpf rfl rfl, ⟨?_, ?_, h.fetched.like, h.fetched.live, ?_⟩, ?_,
    fun _ _ ↦ ⟨_, hdata rfl⟩, fun g hg ↦ absurd hg (habs g), fun _ _ _ ↦ ⟨f, rfl⟩⟩
  · intro g pg hg
    obtain ⟨hne, hg'⟩ := hother g pg (h.fetched.old g pg hg)
    exact update_other hne hg'
  · intro g pg hg
    rcases of_update_some hg with ⟨rfl, rfl⟩ | ⟨hne, hg⟩
    · refine .inr ⟨hobj ▸ hnum ▸ habs, hobj ▸ hnum ▸ hdata rfl, ⟨rfl, ⟨h0, h1⟩, ?_⟩, ?_⟩
      · exact fun ob v vn ho ↦ hnum ▸ hlen ob v vn (hobj ▸ ho)
      · exact hobj ▸ hnum ▸ hW
    · exact (h.fetched.new g pg (update_other hne hg)).imp_right
        fun ⟨h₁, h₂, h₃, h₄⟩ ↦ ⟨h₁, h₂, h₃, .inl (h₄.resolve_right id)⟩
  · exact ⟨h.fetched.rest.areas, h.fetched.rest.maps, h.fetched.rest.files, h.fetched.rest.vnodes,
      h.fetched.rest.next, h.fetched.rest.noFailure, h.fetched.rest.procs⟩
  · rintro _ ⟨⟩
    exact ⟨_, update_self .., hobj, hnum⟩

/-- The page could not be filled, and is freed again. -/
theorem Filled.free {e : Errno} (h : Filled A n o f s s₂ (.error e))
    (hl : Links s) (habs : Absent s n o) (hneed : Objs.Needed s A o) (c : Bool) :
    ∃ s', (s₂.modFrame f fun pf ↦ { pf with pfBusy := false }).pframeFree f = .ok s' ∧
      Outcome W A n o (fun s f ↦ s.PageAt f o n) s s' (.error ⟨e, c⟩) := by
  obtain ⟨pf, hpf, rfl, rfl, -, -, -, hpin⟩ := h.page
  have hmod : (s₂.modFrame f fun pf ↦ { pf with pfBusy := false }) =
      s₂.setFrame f (some { pf with pfBusy := false }) := by rw [Mem.modFrame, hpf]; rfl
  rw [hmod]
  have hobjs : Objs (s₂.setFrame f (some { pf with pfBusy := false })) A :=
    h.objs.setFrame hpf rfl rfl
  have hrest : Rest s (s₂.setFrame f (some { pf with pfBusy := false })) :=
    ⟨h.fetched.rest.areas, h.fetched.rest.maps, h.fetched.rest.files, h.fetched.rest.vnodes,
      h.fetched.rest.next, h.fetched.rest.noFailure, h.fetched.rest.procs⟩
  have hlinks : Links (s₂.setFrame f (some { pf with pfBusy := false })) := by
    refine hl.of_rest hrest fun u ub' hub ↦ ?_
    obtain ⟨ub, hu, -, hv⟩ := h.fetched.like u ub' hub
    exact ⟨ub, hu, hv⟩
  obtain ⟨ob, ho⟩ := h.objs.owned f pf.pfObj pf.pfPagenum ⟨pf, hpf, rfl, rfl⟩
  have hmore : ob.mmoNrespages < ob.mmoRefcount := by
    refine h.objs.nres_lt ho ?_
    obtain ⟨a, ha | ha⟩ := hneed
    · exact ⟨a, .inl ha⟩
    · exact ⟨a, .inr ((h.fetched.below_eq a).trans ha)⟩
  have hne : (Except.error e : Except Errno Unit) ≠ .ok () := by
    intro heq
    cases heq
  obtain ⟨s', hfree, hd⟩ := freeWith_ok (q := Mem.put) hobjs hlinks (update_self ..)
    (by simp [Pframe.IsPinned, hpin hne]) rfl ho hmore fun _ ↦ ⟨pf.pfObj + 1, rfl⟩
  have hframes : s'.frames = update s₂.frames f none := by
    rw [hd.frames, Mem.setFrame_frames, update_idem]
  refine ⟨s', hfree, hobjs.pageDropped ho ⟨_, update_self .., rfl, rfl⟩ hd, ⟨?_, ?_, ?_, ?_, ?_⟩,
    fun _ hg ↦ ?_, fun _ hg ↦ ?_, fun g hg ↦ absurd hg (habs g), ?_⟩
  · intro g pg hg
    rw [hframes]
    exact h.fetched.old g pg hg
  · intro g pg hg
    rw [hframes] at hg
    refine (h.fetched.new g pg hg).imp_right ?_
    rintro ⟨h₁, h₂, h₃, h₄⟩
    exact ⟨h₁, h₂, h₃, .inl (h₄.resolve_right id)⟩
  · intro u ub' hub
    rw [hd.objs] at hub
    rcases of_update_some hub with ⟨rfl, rfl⟩ | ⟨-, hub⟩
    · obtain ⟨ub, hu, hl, hv⟩ := h.fetched.like _ ob ho
      exact ⟨ub, hu, ⟨hl.ops, hl.shadowed, hl.bottom⟩, hv⟩
    · exact h.fetched.like u ub' hub
  · intro u ub hu
    obtain ⟨ub', hub'⟩ := h.fetched.live u ub hu
    rw [hd.objs]
    exact filled_update hub'
  · exact hrest.trans hd.rest
  · cases hg
  · cases hg
  · intro h₁ h₂ h₃
    exact absurd (h.progress h₁ h₂ h₃) hne

theorem pframeAlloc_ok (ho : s.objs o = some ob) (hpos : 0 < ob.mmoRefcount) :
    (s.pframeAlloc o n = .ok (s.draw .pframe, none) ∧ ¬ s.NoFailure .pframe) ∨
    (s.pframeAlloc o n = .ok ((s.draw .pframe).draw .page, none) ∧ ¬ s.NoFailure .page) ∨
    s.pframeAlloc o n =
      .ok (((s.draw .pframe).draw .page).cache s.next o n ob, some s.next) := by
  unfold Mem.pframeAlloc
  split
  · next hg =>
    refine .inl ⟨rfl, fun hf ↦ ?_⟩
    cases hg.symm.trans hf.grants
  dsimp only
  split
  · next hg =>
    refine .inr (.inl ⟨rfl, fun hf ↦ ?_⟩)
    cases hg.symm.trans (hf.draw .pframe).grants
  · refine .inr (.inr ?_)
    show (follow _ (s.objs o) >>= _) = _
    rw [ho, follow_bind, demand_pos hpos]
    rfl

theorem blank_of_alloc (h : Objs s A) (ho : s.objs o = some ob) (habs : Absent s n o) :
    Blank A n o s.next s ((((s.draw .pframe).draw .page).cache s.next o n ob).modFrame s.next
      fun pf ↦ { pf with pfBusy := true }) := by
  have hframe : (((s.draw .pframe).draw .page).cache s.next o n ob).frames s.next =
      some { pfObj := o, pfPagenum := n, pfData := fun _ ↦ 0 } := update_self ..
  have hobjs : Objs (((s.draw .pframe).draw .page).cache s.next o n ob) A :=
    ((h.draw _).draw _).cache ho habs
  rw [Mem.modFrame, hframe, Option.map_some]
  refine ⟨hobjs.setFrame hframe rfl rfl, h.frames_next, update_idem .., ?_, ?_, ?_⟩
  · exact fun u ub' hub ↦
      exists_of_update hub ho (by rintro rfl; exact ⟨⟨rfl, rfl, rfl⟩, rfl⟩) ⟨.refl _, rfl⟩
  · exact fun u ub hu ↦ filled_update hu
  · exact ⟨rfl, rfl, rfl, rfl, Nat.le_succ _, fun _ hk ↦ (hk.draw _).draw _, .refl _⟩

theorem fillWith_of_fill {fill : Mem.Fillpage} {status : Except Errno Unit}
    (h : fill (s.modFrame f fun pf ↦ { pf with pfBusy := true }) f = .ok (s₂, status)) :
    Mem.fillWith fill s f =
      .ok (s₂.modFrame f fun pf ↦ { pf with pfBusy := false }, status) := by
  unfold Mem.fillWith
  dsimp only
  rw [h]
  rfl

/-- **Getting a page**, given how the fill operation behaves. -/
theorem getWith_ok {fill : Mem.Fillpage} (h : Objs s A) (hl : Links s)
    (hcalm : Calm s o) (ho : s.objs o = some ob) (hneed : Objs.Needed s A o)
    (hW : s.below o = none ∨ W o n) (hlen : InFile s ob n)
    (hfill : ∀ s₁, Blank A n o s.next s s₁ → Absent s n o →
      ∃ s₂ status, fill s₁ s.next = .ok (s₂, status) ∧ Filled A n o s.next s s₂ status) :
    ∃ s' r, Mem.getWith fill s o n = .ok (s', r) ∧
      Outcome W A n o (fun s f ↦ s.PageAt f o n) s s' r := by
  unfold Mem.getWith Mem.pframeGetResident
  cases hres : s.resident o n with
  | some f =>
    obtain ⟨pf, hf, hobj, hnum⟩ := h.resident_eq_some.mp hres
    obtain ⟨L, hL⟩ := touch_eq s f
    dsimp only
    rw [hL]
    refine ⟨{ s with lists := L }, .ok f, ?_, h.same (fun _ _ _ ↦ Iff.rfl) rfl le_rfl rfl rfl,
      .of_same W rfl rfl (.setLists s L), ?_, fun _ _ ↦ ⟨_, .page hf hobj hnum⟩,
      fun g hg ↦ by rw [h.unique f g o n ⟨pf, hf, hobj, hnum⟩ hg], fun _ _ _ ↦ ⟨f, rfl⟩⟩
    · rw [hf, follow_bind, demand_pos (hcalm f pf hf hobj.le).busy]
      rfl
    · rintro _ ⟨⟩
      exact ⟨pf, hf, hobj, hnum⟩
  | none =>
    have habs : Absent s n o := h.resident_eq_none.mp hres
    have hpos := (h.nres_nonneg ho).trans_lt (h.nres_lt ho hneed)
    dsimp only
    rcases pframeAlloc_ok (n := n) ho hpos with ⟨ha, hno⟩ | ⟨ha, hno⟩ | ha
    · rw [ha, ok_bind]
      exact ⟨_, _, rfl, h.draw _, .of_same W rfl rfl (.draw s _), nofun, nofun,
        fun g hg ↦ absurd hg (habs g), fun hf _ _ ↦ absurd hf hno⟩
    · rw [ha, ok_bind]
      exact ⟨_, _, rfl, (h.draw _).draw _, .of_same W rfl rfl ((Rest.draw s _).trans (.draw _ _)),
        nofun, nofun, fun g hg ↦ absurd hg (habs g), fun _ hf _ ↦ absurd hf hno⟩
    · rw [ha, ok_bind]
      dsimp only
      obtain ⟨s₂, status, hs₂, hfilled⟩ := hfill _ (blank_of_alloc h ho habs) habs
      rw [fillWith_of_fill hs₂, ok_bind]
      cases status with
      | ok x =>
        refine ⟨_, _, rfl, hfilled.outcome h.frames_next habs hW fun ob' v vn ho' ↦ ?_⟩
        cases ho.symm.trans ho'
        exact hlen v vn
      | error e =>
        obtain ⟨s', hfree, hout⟩ := hfilled.free hl habs hneed false
        refine ⟨s', _, ?_, hout⟩
        show (Mem.pframeFree _ _ >>= _) = _
        rw [hfree]
        rfl

/-! ## Filling a page -/

theorem Filled.of_setFrame {pf₂ : Pframe} (h : Objs s₂ A) (hf : s₂.frames f = some pf)
    (hfetched : Fetched (fun _ _ ↦ False) s { s₂ with frames := update s₂.frames f none })
    (hobj : pf.pfObj = o) (hnum : pf.pfPagenum = n) (hobj₂ : pf₂.pfObj = o)
    (hnum₂ : pf₂.pfPagenum = n) (h0 : 0 ≤ pf₂.pfPincount) (h1 : pf₂.pfPincount ≤ 1)
    (hd : Shows s n o pf₂.pfData) : Filled A n o f s (s₂.setFrame f (some pf₂)) (.ok ()) where
  objs := h.setFrame hf (hobj₂.trans hobj.symm) (hnum₂.trans hnum.symm)
  page := ⟨pf₂, update_self .., hobj₂, hnum₂, h0, h1, fun _ ↦ hd, fun hne ↦ absurd rfl hne⟩
  fetched := by
    rw [Mem.setFrame_frames, update_idem]
    exact hfetched
  progress _ _ _ := rfl

theorem fillAndPin_ok (hf : s₂.frames f = some pf) (h0 : 0 ≤ pf.pfPincount) :
    s₂.fillAndPin f d =
      .ok (s₂.setFrame f (some { pf with pfData := d, pfPincount := pf.pfPincount + 1 })) := by
  unfold Mem.fillAndPin
  rw [Mem.modFrame, hf, Option.map_some]
  refine Mem.pframePin_eq_ok.mpr ⟨{ pf with pfData := d }, update_self .., h0, ?_⟩
  rw [Mem.setFrame, Mem.setFrame, Mem.setFrame, update_idem]

theorem fillable_ok (hb : Blank A n o f s s₁) : s₁.fillable f = .ok
    { pfObj := o, pfPagenum := n, pfBusy := true, pfData := fun _ ↦ 0 } := by
  unfold Mem.fillable
  rw [hb.frame, follow_bind, demand_bind rfl,
    demand_bind (by simp [Pframe.IsPinned])]
  rfl

theorem Blank.objs_like (hb : Blank A n o f s s₁) (ho : s.objs o = some ob) :
    ∃ ob₁, s₁.objs o = some ob₁ ∧ ob₁.Like ob := by
  obtain ⟨ob₁, ho₁⟩ := hb.fetched.live o ob ho
  obtain ⟨ob', ho', hl, -⟩ := hb.fetched.like o ob₁ ho₁
  cases ho.symm.trans ho'
  exact ⟨ob₁, ho₁, hl⟩

section

variable (h : Objs s A) (ho : s.objs o = some ob) (hops : ob.mmoOps ≠ .shadow)
include h ho hops

theorem bottomFillpage_ok (hb : Blank A n o f s s₁) (habs : Absent s n o) (hlen : InFile s ob n) :
    ∃ s₂ status, Mem.bottomFillpage s₁ f = .ok (s₂, status) ∧ Filled A n o f s s₂ status := by
  obtain ⟨ob₁, ho₁, hl⟩ := hb.objs_like ho
  unfold Mem.bottomFillpage
  rw [hb.frame, follow_bind, ho₁, follow_bind, hl.ops]
  cases hcase : ob.mmoOps with
  | shadow => exact absurd hcase hops
  | anon =>
    dsimp only
    rw [fillable_ok hb, ok_bind, fillAndPin_ok hb.frame le_rfl, ok_bind]
    exact ⟨_, _, rfl, .of_setFrame hb.objs hb.frame hb.fetched rfl rfl rfl rfl (by simp) (by simp)
      (.anon habs ho hcase)⟩
  | vnode v =>
    obtain ⟨vn, hvn⟩ := h.vnode o ob v ho hcase
    have hvn₁ : s₁.vnodes v = some vn := by
      have := hb.fetched.rest.vnodes
      rw [← hvn]
      exact congrFun this v
    dsimp only
    rw [hvn₁, follow_bind]
    cases hfill : vn.fillpage n with
    | ok d =>
      dsimp only
      rw [Mem.modFrame, hb.frame, Option.map_some]
      exact ⟨_, _, rfl, .of_setFrame hb.objs hb.frame hb.fetched rfl rfl rfl rfl le_rfl
        (by simp) (.file habs ho hcase hvn (hlen v vn hcase hvn) hfill)⟩
    | error e =>
      refine ⟨_, _, rfl, hb.objs, ⟨_, hb.frame, rfl, rfl, le_rfl, by simp, nofun, fun _ ↦ rfl⟩,
        hb.fetched, ?_⟩
      rintro - - ⟨d, hd⟩
      have hnone := (h.below_eq_none ho).mpr hops
      rcases hd.bottom_cases habs hnone with ⟨ob', ho', hops', -⟩ |
        ⟨ob', v', vn', ho', hops', hvn', -, hd⟩
      · cases ho.symm.trans ho'
        cases hcase.symm.trans hops'
      · cases ho.symm.trans ho'
        cases hcase.symm.trans hops'
        cases hvn.symm.trans hvn'
        cases hfill.symm.trans hd

/-- The lookup operations of bottom objects, given how getting a page behaves. -/
theorem lookupWith_ok {q : Mem → ObjId → ℕ → Except Fault (Mem × Except Mem.NoPage FrameId)}
    (hcalm : Calm s o) (hget : InFile s ob n →
      ∃ s' r, q s o n = .ok (s', r) ∧ Outcome W A n o (fun s f ↦ s.PageAt f o n) s s' r) :
    ∃ s' r, Mem.lookupWith q s o n ob.mmoOps = .ok (s', r) ∧
      Outcome W A n o (fun s f ↦ s.PageAt f o n) s s' r := by
  unfold Mem.lookupWith
  cases hcase : ob.mmoOps with
  | shadow => exact absurd hcase hops
  | anon =>
    obtain ⟨s', r, hs', hout⟩ := hget (by simp [InFile, hcase])
    dsimp only
    rw [hs', ok_bind]
    cases r with
    | ok f => exact ⟨s', _, rfl, hout⟩
    | error e =>
      refine ⟨s', _, rfl, hout.objs, hout.fetched, nofun, nofun, fun g hg ↦ ?_,
        fun h₁ h₂ h₃ ↦ ?_⟩
      · cases hout.hit g hg
      · obtain ⟨f, hf⟩ := hout.progress h₁ h₂ h₃
        cases hf
  | vnode v =>
    obtain ⟨vn, hvn⟩ := h.vnode o ob v ho hcase
    dsimp only
    rw [hvn, follow_bind]
    split
    · next hlen =>
      -- neither a resident page nor one that can be filled lies beyond the end of the file
      have hpage : ∀ f, ¬ s.PageAt f o n := by
        rintro f ⟨pf, hf, hobj, rfl⟩
        exact absurd hlen
          ((hcalm f pf hf hobj.le).within ob v vn (hobj ▸ ho) hcase hvn).not_ge
      refine ⟨s, _, rfl, h, .refl W s, nofun, nofun, fun g hg ↦ absurd hg (hpage g),
        fun _ _ ⟨d, hd⟩ ↦ ?_⟩
      rcases hd.bottom_cases hpage ((h.below_eq_none ho).mpr hops) with
        ⟨ob', ho', hops', -⟩ | ⟨ob', v', vn', ho', hops', hvn', hlt, -⟩
      · cases ho.symm.trans ho'
        cases hcase.symm.trans hops'
      · cases ho.symm.trans ho'
        cases hcase.symm.trans hops'
        cases hvn.symm.trans hvn'
        exact absurd hlen hlt.not_ge
    · next hlen =>
      refine hget fun v' vn' hv' hvn' ↦ ?_
      cases hcase.symm.trans hv'
      cases hvn.symm.trans hvn'
      exact not_le.mp hlen

theorem bottomLookup_ok (hl : Links s) (hcalm : Calm s o) (hneed : Objs.Needed s A o) :
    ∃ s' r, s.bottomLookup o n = .ok (s', r) ∧
      Outcome W A n o (fun s f ↦ s.PageAt f o n) s s' r := by
  unfold Mem.bottomLookup
  rw [ho, follow_bind]
  refine lookupWith_ok h ho hops hcalm fun hlen ↦ ?_
  exact getWith_ok h hl hcalm ho hneed (.inl ((h.below_eq_none ho).mpr hops)) hlen
    fun s₁ hb habs ↦ bottomFillpage_ok h ho hops hb habs hlen

end

/-! ## Walking down a chain -/

/-- What `shadow_lookuppage` finds on its way down. -/
theorem shadowWalk_ok (h : Objs s A) : ∀ {k o : ℕ} {ob : MmObj}, o < k → s.objs o = some ob →
    Objs.Needed s A o → ∃ r b, s.shadowWalk n k o = .ok (r, b) ∧ (∀ f, r = some f → Eff s n o f) ∧
      (r = none → ReflTransGen (Down s n) o b ∧ (b : ℕ) ≤ o ∧ Objs.Needed s A b ∧
        ∃ bo, s.objs b = some bo ∧ bo.mmoOps ≠ .shadow) := by
  intro k
  induction k with
  | zero => exact fun hlt ↦ absurd hlt (Nat.not_lt_zero _)
  | succ k ih =>
    intro o ob hlt ho hneed
    unfold Mem.shadowWalk
    rw [ho, follow_bind]
    cases hsh : ob.mmoShadowed with
    | none =>
      refine ⟨none, o, rfl, nofun, fun _ ↦ ⟨.refl, le_rfl, hneed, ob, ho, ?_⟩⟩
      rw [Ne, h.kind o ob ho, not_not, hsh]
    | some u =>
      have hu : s.below o = some u := below_eq_some.mpr ⟨ob, ho, hsh⟩
      dsimp only
      cases hres : s.resident o n with
      | some f =>
        refine ⟨some f, u, rfl, ?_, nofun⟩
        rintro _ ⟨⟩
        exact .here (h.resident_eq_some.mp hres)
      | none =>
        have habs : Absent s n o := h.resident_eq_none.mp hres
        have hlt' := h.below_lt hu
        obtain ⟨ub, hub⟩ := h.below_live hu
        obtain ⟨r, b, hrb, hsome, hnone⟩ :=
          ih (lt_of_lt_of_le hlt' (Nat.le_of_lt_succ hlt)) hub ⟨o, .inr hu⟩
        refine ⟨r, b, hrb, fun f hf ↦ .down habs hu (hsome f hf), fun hr ↦ ?_⟩
        obtain ⟨hreach, hle, hrest⟩ := hnone hr
        exact ⟨.head ⟨habs, hu⟩ hreach, hle.trans hlt'.le, hrest⟩

theorem Eff.down_iff (hreach : ReflTransGen (Down s n) o u) : Eff s n o f ↔ Eff s n u f := by
  induction hreach using ReflTransGen.head_induction_on with
  | refl => rfl
  | head hd _ ih =>
    rw [← ih]
    refine ⟨fun he ↦ ?_, .down hd.1 hd.2⟩
    cases he with
    | here hp => exact absurd hp (hd.1 _)
    | down _ hu he =>
      cases hd.2.symm.trans hu
      exact he

theorem Shows.down_iff (h : Objs s A) (hreach : ReflTransGen (Down s n) o u) :
    Shows s n o d ↔ Shows s n u d := by
  induction hreach using ReflTransGen.head_induction_on with
  | refl => rfl
  | head hd _ ih =>
    rw [← ih]
    refine ⟨fun hs ↦ ?_, .down hd.1 hd.2⟩
    obtain ⟨ob, ho, hsh⟩ := below_eq_some.mp hd.2
    have hops := (h.kind _ ob ho).mpr (by rw [hsh]; nofun)
    cases hs with
    | page hf ho hn => exact absurd ⟨_, hf, ho, hn⟩ (hd.1 _)
    | down _ hu hs =>
      cases hd.2.symm.trans hu
      exact hs
    | anon _ ho' hops' =>
      cases ho.symm.trans ho'
      cases hops.symm.trans hops'
    | file _ ho' hops' _ _ _ =>
      cases ho.symm.trans ho'
      cases hops.symm.trans hops'

theorem Fetched.down (h : Fetched (fun _ _ ↦ False) s s') (hreach : ReflTransGen (Down s n) o u) :
    ReflTransGen (Down s' n) o u := by
  induction hreach with
  | refl => exact .refl
  | tail _ hd ih => exact ih.tail ⟨h.absent hd.1 hd.2 id, by rw [h.below_eq, hd.2]⟩

/-- **Looking a page up for reading** on a chain of shadow objects. -/
theorem shadowLookuppage_ok (h : Objs s A) (hl : Links s) {o : ℕ} (hcalm : Calm s o)
    (ho : s.objs o = some ob) (hneed : Objs.Needed s A o) :
    ∃ s' r, s.shadowLookuppage o n = .ok (s', r) ∧
      Outcome (fun _ _ ↦ False) A n o (fun s f ↦ Eff s n o f) s s' r := by
  obtain ⟨r, b, hwalk, hsome, hnone⟩ := shadowWalk_ok h (Nat.lt_succ_self o) ho hneed
  unfold Mem.shadowLookuppage
  rw [hwalk, ok_bind]
  cases r with
  | none =>
    obtain ⟨hreach, hle, hneed', bo, hbo, hops⟩ := hnone rfl
    obtain ⟨s', r, hs', hout⟩ :=
      bottomLookup_ok h hbo hops hl (hcalm.mono hle) hneed'
    refine ⟨s', r, hs', hout.objs, hout.fetched, fun f hf ↦ ?_, fun f hf ↦ ?_, fun f hf ↦ ?_,
      fun h₁ h₂ ⟨d, hd⟩ ↦ ?_⟩
    · exact (Eff.down_iff (hout.fetched.down hreach)).mpr (.here (hout.found f hf))
    · exact (hout.shown f hf).imp fun d hd ↦ (Shows.down_iff h hreach).mpr hd
    · cases (Eff.down_iff hreach).mp hf with
      | here hp => exact hout.hit f hp
      | down _ hu _ => cases ((h.below_eq_none hbo).mpr hops).symm.trans hu
    · exact hout.progress h₁ h₂ ⟨d, (Shows.down_iff h hreach).mp hd⟩
  | some f =>
    have heff := hsome f rfl
    obtain ⟨u, hle, pf, hf, rfl, -⟩ := heff.pageAt h
    obtain ⟨L, hL⟩ := touch_eq s f
    dsimp only
    rw [hf, follow_bind, demand_pos (hcalm f pf hf hle).busy, ok_bind, hL]
    have hfetched : Fetched (fun _ _ ↦ False) s { s with lists := L } :=
      .of_same _ rfl rfl (.setLists s L)
    refine ⟨_, .ok f, rfl, h.same (fun _ _ _ ↦ Iff.rfl) rfl le_rfl rfl rfl, hfetched, ?_,
      fun _ _ ↦ ⟨_, heff.shows hf⟩, fun g hg ↦ by rw [heff.unique h hg], fun _ _ _ ↦ ⟨f, rfl⟩⟩
    rintro _ ⟨⟩
    exact hfetched.eff heff fun _ _ ↦ id

/-! ## Filling the page of a shadow object -/

theorem Shows.transfer {o u : ℕ} (hdown : ∀ u w : ℕ, s.below u = some w → w < u)
    (hframes : ∀ g pg, pg.pfObj < o → (s'.frames g = some pg ↔ s.frames g = some pg))
    (hobjs : ∀ u ub, s.objs u = some ub → ∃ ub', s'.objs u = some ub' ∧ ub'.Like ub)
    (hvnodes : s'.vnodes = s.vnodes) (hd : Shows s n u d) (hu : u < o) : Shows s' n u d := by
  have habsent : ∀ {u : ℕ}, u < o → Absent s n u → Absent s' n u := by
    rintro u hu habs f ⟨pf, hf, rfl, hn⟩
    exact habs f ⟨pf, (hframes f pf hu).mp hf, rfl, hn⟩
  have hbelow : ∀ {u w : ℕ}, s.below u = some w → s'.below u = some w := by
    intro u w hw
    obtain ⟨ub, hub, hsh⟩ := below_eq_some.mp hw
    obtain ⟨ub', hub', hl⟩ := hobjs u ub hub
    exact below_eq_some.mpr ⟨ub', hub', hl.shadowed.trans hsh⟩
  induction hd with
  | page hf ho hn => exact .page ((hframes _ _ (ho ▸ hu)).mpr hf) ho hn
  | down habs hw _ ih => exact .down (habsent hu habs) (hbelow hw) (ih ((hdown _ _ hw).trans hu))
  | anon habs ho hops =>
    obtain ⟨ob', ho', hl⟩ := hobjs _ _ ho
    exact .anon (habsent hu habs) ho' (hl.ops.trans hops)
  | file habs ho hops hvn hlen hd =>
    obtain ⟨ob', ho', hl⟩ := hobjs _ _ ho
    exact .file (habsent hu habs) ho' (hl.ops.trans hops) (by rw [hvnodes, hvn]) hlen hd

theorem PageOk.of_like (h : PageOk s pf) (hvnodes : s'.vnodes = s.vnodes)
    (hlike : ∀ o ob', s'.objs o = some ob' → ∃ ob, s.objs o = some ob ∧ ob'.mmoOps = ob.mmoOps) :
    PageOk s' pf where
  busy := h.busy
  pins := h.pins
  within ob' v vn ho hv hvn := by
    obtain ⟨ob, hob, hops⟩ := hlike _ ob' ho
    exact h.within ob v vn hob (hops ▸ hv) (hvnodes ▸ hvn)

namespace Blank

theorem frames_iff (hb : Blank A n o f s s₁) {pg : Pframe} (hne : pg.pfObj ≠ o) :
    s₁.frames g = some pg ↔ s.frames g = some pg := by
  rw [hb.frames, update_eq_some]
  constructor
  · rintro (⟨-, hx⟩ | ⟨-, hg⟩)
    · cases hx
      exact absurd rfl hne
    · exact hg
  · intro hg
    refine .inr ⟨?_, hg⟩
    rintro rfl
    cases hb.free.symm.trans hg

theorem links (hb : Blank A n o f s s₁) (hl : Links s) : Links s₁ :=
  hl.of_rest hb.rest fun u ub' hub ↦ by
    obtain ⟨ub, hu, -, hv⟩ := hb.like u ub' hub
    exact ⟨ub, hu, hv⟩

theorem below_eq (hb : Blank A n o f s s₁) (u : ObjId) : s₁.below u = s.below u :=
  hb.fetched.below_eq u

theorem calm {o u : ℕ} (hb : Blank A n o f s s₁) (hcalm : Calm s o) (hu : u < o) : Calm s₁ u := by
  intro g pg hg hle
  have hne : pg.pfObj ≠ o := (lt_of_le_of_lt hle hu).ne
  refine (hcalm g pg ((hb.frames_iff hne).mp hg) (hle.trans hu.le)).of_like hb.rest.vnodes ?_
  intro w wb' hw
  obtain ⟨wb, hwb, hl, -⟩ := hb.like w wb' hw
  exact ⟨wb, hwb, hl.ops⟩

theorem shows_iff {o u : ℕ} (hb : Blank A n o f s s₁) (h : Objs s A) (hu : u < o) :
    Shows s₁ n u d ↔ Shows s n u d := by
  have hlike : ∀ u ub, s.objs u = some ub → ∃ ub', s₁.objs u = some ub' ∧ ub'.Like ub := by
    intro w wb hw
    obtain ⟨wb', hwb'⟩ := hb.live w wb hw
    obtain ⟨wb₁, hw₁, hl, -⟩ := hb.like w wb' hwb'
    cases hw.symm.trans hw₁
    exact ⟨wb', hwb', hl⟩
  constructor
  · refine fun hd ↦ hd.transfer (fun _ _ ↦ hb.objs.below_lt) ?_ ?_ hb.rest.vnodes.symm hu
    · exact fun g pg hlt ↦ (hb.frames_iff hlt.ne).symm
    · intro w wb' hw
      obtain ⟨wb, hwb, hl, -⟩ := hb.like w wb' hw
      exact ⟨wb, hwb, hl.ops.symm, hl.shadowed.symm, hl.bottom.symm⟩
  · exact fun hd ↦ hd.transfer (fun _ _ ↦ h.below_lt) (fun g pg hlt ↦ hb.frames_iff hlt.ne) hlike
      hb.rest.vnodes hu

/-- Pages that are fetched while the new page is being filled. -/
theorem fetched_trans (hb : Blank A n o f s s₁)
    (h : Fetched (fun _ _ ↦ False) s₁ s₂) :
    Fetched (fun _ _ ↦ False) s { s₂ with frames := update s₂.frames f none } := by
  have hlike : ∀ u ub', s₁.objs u = some ub' → ∃ ub, s.objs u = some ub ∧ ub'.mmoOps = ub.mmoOps := by
    intro w wb' hw
    obtain ⟨wb, hwb, hl, -⟩ := hb.like w wb' hw
    exact ⟨wb, hwb, hl.ops⟩
  have hframe : ∀ g pg, g ≠ f → (s₁.frames g = some pg ↔ s.frames g = some pg) :=
    fun g pg hne ↦ by rw [hb.frames, update_of_ne hne]
  refine ⟨?_, ?_, ?_, ?_, ?_⟩
  · intro g pg hg
    have hne : g ≠ f := by
      rintro rfl
      cases hb.free.symm.trans hg
    exact update_other hne (h.old g pg ((hframe g pg hne).mpr hg))
  · intro g pg hg
    obtain ⟨hne, hg⟩ := of_update_none hg
    refine (h.new g pg hg).imp (hframe g pg hne).mp fun ⟨habs, hd, hok, hnone⟩ ↦ ?_
    have hnone : s₁.below pg.pfObj = none := hnone.resolve_right id
    have habs' : Absent s pg.pfPagenum pg.pfObj := by
      rintro g' ⟨pg', hg', hid⟩
      have hne' : g' ≠ f := by
        rintro rfl
        cases hb.free.symm.trans hg'
      exact habs g' ⟨pg', (hframe g' pg' hne').mpr hg', hid⟩
    refine ⟨habs', ?_, ?_, .inl (hb.below_eq _ ▸ hnone)⟩
    · rcases hd.bottom_cases habs hnone with ⟨ob', ho', hops, hzero⟩ |
        ⟨ob', v, vn, ho', hops, hvn, hlen, hfill⟩
      · obtain ⟨ob, ho, hl⟩ := hlike _ ob' ho'
        rw [hzero]
        exact .anon habs' ho (hl ▸ hops)
      · obtain ⟨ob, ho, hl⟩ := hlike _ ob' ho'
        exact .file habs' ho (hl ▸ hops) (hb.rest.vnodes ▸ hvn) hlen hfill
    · refine hok.of_like hb.rest.vnodes.symm fun w wb hw ↦ ?_
      obtain ⟨wb', hwb'⟩ := hb.live w wb hw
      obtain ⟨wb₁, hw₁, hl, -⟩ := hb.like w wb' hwb'
      cases hw.symm.trans hw₁
      exact ⟨wb', hwb', hl.ops.symm⟩
  · intro u ub' hub
    obtain ⟨ub₁, hub₁, hl₁, hv₁⟩ := h.like u ub' hub
    obtain ⟨ub, hu, hl, hv⟩ := hb.like u ub₁ hub₁
    exact ⟨ub, hu, hl₁.trans hl, hv₁.trans hv⟩
  · intro u ub hu
    obtain ⟨ub₁, hub₁⟩ := hb.live u ub hu
    exact h.live u ub₁ hub₁
  · have hrest := hb.rest.trans h.rest
    exact ⟨hrest.areas, hrest.maps, hrest.files, hrest.vnodes, hrest.next, hrest.noFailure,
      hrest.procs⟩

end Blank

section

variable {o : ℕ} (h : Objs s A) (hl : Links s) (hcalm : Calm s o) (ho : s.objs o = some ob)
  (hlen : InFile s ob n)
include h hl hcalm ho hlen

theorem fillpage_ok (hb : Blank A n o f s s₁) (habs : Absent s n o) :
    ∃ s₂ status, Mem.fillpage s₁ f = .ok (s₂, status) ∧ Filled A n o f s s₂ status := by
  obtain ⟨ob₁, ho₁, hlike⟩ := hb.objs_like ho
  unfold Mem.fillpage
  rw [hb.frame, follow_bind, ho₁, follow_bind, hlike.ops]
  by_cases hops : ob.mmoOps = .shadow
  · obtain ⟨u, hu⟩ := Option.ne_none_iff_exists'.mp ((h.kind o ob ho).mp hops)
    have hbelow : s.below o = some u := below_eq_some.mpr ⟨ob, ho, hu⟩
    have hlt := h.below_lt hbelow
    obtain ⟨ub, hub⟩ := h.below_live hbelow
    obtain ⟨ub₁, hub₁⟩ := hb.live u ub hub
    obtain ⟨s₂, r, hs₂, hout⟩ := shadowLookuppage_ok (n := n) hb.objs (hb.links hl)
      (hb.calm hcalm hlt) hub₁ ⟨o, .inr ((hb.below_eq o).trans hbelow)⟩
    have hfetched := hb.fetched_trans hout.fetched
    have hframe := hout.fetched.old f _ hb.frame
    rw [hops]
    dsimp only
    rw [fillable_ok hb, ok_bind, hlike.shadowed, hu, follow_bind, hs₂, ok_bind]
    cases r with
    | error e =>
      refine ⟨_, _, rfl, hout.objs, ⟨_, hframe, rfl, rfl, le_rfl, by simp, nofun, fun _ ↦ rfl⟩,
        hfetched, ?_⟩
      rintro h₁ h₂ ⟨d, hd⟩
      have hd' := (Shows.down_iff h (.single ⟨habs, hbelow⟩)).mp hd
      obtain ⟨g, hg⟩ := hout.progress (hb.rest.noFailure _ h₁) (hb.rest.noFailure _ h₂)
        ⟨d, (hb.shows_iff h hlt).mpr hd'⟩
      cases hg
    | ok g =>
      have heff := hout.found g rfl
      obtain ⟨w, -, src, hsrc, -⟩ := heff.pageAt hout.objs
      obtain ⟨d, hd⟩ := hout.shown g rfl
      have hdata : d = src.pfData :=
        (hout.fetched.shows hb.objs hd).unique hout.objs (heff.shows hsrc)
      have hshows : Shows s n o src.pfData :=
        .down habs hbelow ((hb.shows_iff h hlt).mp (hdata ▸ hd))
      dsimp only
      rw [hsrc, follow_bind, fillAndPin_ok hframe le_rfl, ok_bind]
      exact ⟨_, _, rfl, .of_setFrame hout.objs hframe hfetched rfl rfl rfl rfl (by simp)
        (by simp) hshows⟩
  · have hbottom := bottomFillpage_ok h ho hops hb habs hlen
    cases hcase : ob.mmoOps with
    | shadow => exact absurd hcase hops
    | anon => exact hbottom
    | vnode v => exact hbottom

theorem pframeGet_ok (hneed : Objs.Needed s A o) :
    ∃ s' r, s.pframeGet o n = .ok (s', r) ∧
      Outcome (fun u m ↦ u = o ∧ m = n) A n o (fun s f ↦ s.PageAt f o n) s s' r :=
  getWith_ok h hl hcalm ho hneed (.inr ⟨rfl, rfl⟩) hlen fun _ ↦ fillpage_ok h hl hcalm ho hlen

end

theorem Fetched.mono {W' : ObjId → ℕ → Prop} (h : Fetched W s s')
    (hW : ∀ u m, W u m → W' u m) : Fetched W' s s' :=
  ⟨h.old, fun f pf hf ↦ (h.new f pf hf).imp_right fun ⟨h₁, h₂, h₃, h₄⟩ ↦
    ⟨h₁, h₂, h₃, h₄.imp_right (hW _ _)⟩, h.like, h.live, h.rest⟩

/-- **Looking a page up.**  The frame that comes back is the effective one; when the page
is looked up for writing, it is a frame of the object itself, which may have come by
copying. -/
theorem pframeLookup_ok {o : ℕ} (h : Objs s A) (hl : Links s) (hcalm : Calm s o)
    (ho : s.objs o = some ob) (hneed : Objs.Needed s A o) (w : Bool) :
    ∃ s' r, s.pframeLookup o n w = .ok (s', r) ∧
      Outcome (fun u m ↦ w = true ∧ u = o ∧ m = n) A n o
        (fun s f ↦ Eff s n o f ∧ (w = true → s.PageAt f o n)) s s' r := by
  -- the two forms in which the page is found
  have hget : ∀ {W} {x : Except Fault (Mem × Except Mem.NoPage FrameId)},
      (∃ s' r, x = .ok (s', r) ∧ Outcome W A n o (fun s f ↦ s.PageAt f o n) s s' r) →
      (∀ u m, W u m → w = true ∧ u = o ∧ m = n) → (w = true ∨ s.below o = none) →
      ∃ s' r, x = .ok (s', r) ∧ Outcome (fun u m ↦ w = true ∧ u = o ∧ m = n) A n o
        (fun s f ↦ Eff s n o f ∧ (w = true → s.PageAt f o n)) s s' r := by
    rintro W x ⟨s', r, hx, hout⟩ hW hcase
    refine ⟨s', r, hx, hout.objs, hout.fetched.mono hW,
      fun f hf ↦ ⟨.here (hout.found f hf), fun _ ↦ hout.found f hf⟩, hout.shown, ?_, hout.progress⟩
    rintro f ⟨heff, hp⟩
    rcases hcase with hw | hnone
    · exact hout.hit f (hp hw)
    · cases heff with
      | here hp => exact hout.hit f hp
      | down _ hu _ => cases hnone.symm.trans hu
  unfold Mem.pframeLookup
  rw [ho, follow_bind]
  by_cases hops : ob.mmoOps = .shadow
  · rw [hops]
    dsimp only
    cases w with
    | true =>
      exact hget (pframeGet_ok h hl hcalm ho (by simp [InFile, hops]) hneed)
        (fun _ _ hW ↦ ⟨rfl, hW⟩) (.inl rfl)
    | false =>
      obtain ⟨s', r, hx, hout⟩ := shadowLookuppage_ok h hl hcalm ho hneed
      exact ⟨s', r, hx, hout.objs, hout.fetched.mono fun _ _ ↦ False.elim,
        fun f hf ↦ ⟨hout.found f hf, nofun⟩, hout.shown, fun f hf ↦ hout.hit f hf.1,
        hout.progress⟩
  · have hnone := (h.below_eq_none ho).mpr hops
    have hlookup := lookupWith_ok (W := fun _ _ ↦ False) (n := n) h ho hops hcalm fun hlen ↦
      getWith_ok h hl hcalm ho hneed (.inl hnone) hlen fun _ ↦ fillpage_ok h hl hcalm ho hlen
    cases hcase : ob.mmoOps with
    | shadow => exact absurd hcase hops
    | anon =>
      rw [hcase] at hlookup
      exact hget hlookup (fun _ _ ↦ False.elim) (.inr hnone)
    | vnode v =>
      rw [hcase] at hlookup
      exact hget hlookup (fun _ _ ↦ False.elim) (.inr hnone)

end

end CS402.Mm

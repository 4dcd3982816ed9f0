import CS402.Vm.Collapse
import CS402.Vm.Reclaim

/-!
# The shadow daemon

One pass of `shadowd` goes down the chain of shadow objects below every area and removes
the objects that only one other object refers to.  No view of any area may change by this,
and no count may get wrong.

`shadowdRight_iff_of_run` says when a pass does that.  The daemon expects every object on
its way to have one or two references, but an area that is split in two gives the object
two, and a fork then gives the new shadow objects above it two each.  And `pframe_migrate`
unpins and cleans a page that a newer one is in the way of, although the pages of shadow
objects are never dirty.  In both cases an assertion ends the pass.  In all other cases it
is right.
-/

set_option linter.unusedSectionVars false

namespace CS402.Mm

open CS402.Lib Function

variable [Layout]

/-! ## The daemon -/

namespace Mem

/-- The loop down a chain, with the object that it has come to and the last one that stays.
An object shadows only older ones, so that the number of turns can be counted down. -/
def shadowdWalk : ℕ → Mem → ObjId → Option ObjId → Except Fault (Mem × ObjId)
  | 0, _, _, _ => .error .divergence
  | _ + 1, s, last, none => .ok (s, last)
  | k + 1, s, last, some o => do
    let ob ← follow .pointer (s.objs o)
    match ob.mmoShadowed with
    | none => return (s, last)
    | some shadow =>
      demand .assertion (o ≠ last)
      if ob.mmoRefcount - ob.mmoNrespages = 1 then
        let s ← s.removeFromTree last o ob
        shadowdWalk k s last (some shadow)
      else
        demand .assertion (ob.mmoRefcount - ob.mmoNrespages = 2)
        let s ← s.ref o
        let s ← s.put last
        shadowdWalk k s o (some shadow)

/-- The loop over the areas of a process. -/
def shadowdArea (s : Mem) (a : AreaId) : Except Fault Mem := do
  let vma ← follow .pointer (s.areas a)
  let last ← follow .pointer vma.vmaObj
  let lb ← follow .pointer (s.objs last)
  let s ← s.ref last
  let (s, last) ← shadowdWalk (last + 1) s last lb.mmoShadowed
  s.put last

/-- The loop over the processes. -/
def shadowdProc (s : Mem) (p : Pid) : Except Fault Mem := do
  let x ← follow .pointer (s.procs p)
  if x.running then
    let m ← follow .pointer x.pVmmap
    let map ← follow .pointer (s.maps m)
    map.vmmList.foldlM shadowdArea s
  else return s

/-- `shadowd`, one pass over the process list. -/
def shadowd (s : Mem) (procList : List Pid) : Except Fault Mem := procList.foldlM shadowdProc s

/-! ## What a pass should do -/

/-- The objects as layers, between calls. -/
def layers (s : Mem) : Layers ObjId AreaId ℕ FrameId := s.layersWith s.heldBy

/-- A lookup of page `n` of `o` for reading finds a page with contents `d`. -/
def Reads (s : Mem) (o : ObjId) (n : ℕ) (d : Page) : Prop :=
  ∃ s' f pf, s.pframeLookup o n false = .ok (s', .ok f) ∧ s'.frames f = some pf ∧ pf.pfData = d

/-- The area shows an object, and what the daemon meets on the way down from it is what it
expects: objects with one or two references, and in the way of a page only pages with `D`. -/
def ChainFits (s : Mem) (D : FrameId → Prop) (a : AreaId) : Prop :=
  ∃ o, s.heldBy a = some o ∧ s.layers.Fits D o

/-- The process is there; if it runs, then it has a map, and the chains below its areas are
what the daemon expects. -/
def ProcFits (s : Mem) (D : FrameId → Prop) (p : Pid) : Prop :=
  ∃ x, s.procs p = some x ∧ (x.running = true →
    ∃ m mp, x.pVmmap = some m ∧ s.maps m = some mp ∧ ∀ a ∈ mp.vmmList, s.ChainFits D a)

/-- All processes of the list are what the daemon expects. -/
def Collapsible (s : Mem) (procList : List Pid) : Prop :=
  ∀ p ∈ procList, s.ProcFits s.Droppable p

end Mem

/-- What a pass has to do: all views stay, what goes are shadow objects that only one object
refers to, and all counts are exact. -/
structure CollapseRight (s s' : Mem) : Prop where
  areas : s'.areas = s.areas
  views : ∀ a o, s.heldBy a = some o → ∀ n d, s'.Reads o n d ↔ s.Reads o n d
  removed : ∀ o ob, s.objs o = some ob → s'.objs o = none →
    ob.mmoOps = .shadow ∧ (∀ a, s.heldBy a ≠ some o) ∧ Refs s.below o 1
  kept : ∀ o ob', s'.objs o = some ob' → ∃ ob, s.objs o = some ob ∧ ob'.mmoOps = ob.mmoOps ∧
    ob'.mmoRefcount - ob'.mmoNrespages = ob.mmoRefcount - ob.mmoNrespages
  counts : ∀ o ob, s'.objs o = some ob → ob.mmoOps = .anon ∨ ob.mmoOps = .shadow →
    ∃ e k : ℕ, Refs s'.heldBy o e ∧ Refs s'.below o k ∧
      ob.mmoRefcount = ob.mmoNrespages + (e + k)
  pages : ∀ o ob, s'.objs o = some ob → ob.mmoRespages.Nodup ∧
    ob.mmoNrespages = ob.mmoRespages.length ∧
    ∀ f, f ∈ ob.mmoRespages ↔ ∃ pf, s'.frames f = some pf ∧ pf.pfObj = o

/-- The pass returns, and has done what it has to. -/
def Mem.ShadowdRight (s : Mem) (procList : List Pid) : Prop :=
  ∃ s', s.shadowd procList = .ok s' ∧ CollapseRight s s'

/-! ## Steps of the pass -/

/-- The objects weigh what `w` says; one more reference to `last` is that of the daemon. -/
def Mem.Weighs (s : Mem) (w : ObjId → Option (MmoOps × ℤ)) (last : Option ObjId) : Prop :=
  ∀ x xb, s.objs x = some xb → w x = some (xb.mmoOps,
    xb.mmoRefcount - xb.mmoNrespages - if last = some x then 1 else 0)

/-- Layers have been merged, and with them the objects. -/
structure Collapsed (D : FrameId → Prop) (s s' : Mem) : Prop where
  merged : Layers.Merged D s.layers s'.layers
  frames : ∀ f pf', s'.frames f = some pf' →
    ∃ pf, s.frames f = some pf ∧ pf' = { pf with pfObj := pf'.pfObj }
  live : ∀ x xb, s.objs x = some xb → (∃ xb', s'.objs x = some xb') ∨ ∃ t, s.layers.Only t x
  rest : Rest s s'

/-- The daemon is on its way down, and holds a reference to `last` in the slot `b`. -/
structure Walking (D : FrameId → Prop) (w : ObjId → Option (MmoOps × ℤ)) (b : ℕ) (s : Mem)
    (last : ObjId) : Prop where
  store : Store s (update s.heldBy b (some last))
  free : s.heldBy b = none
  drop : ∀ f pf, s.frames f = some pf → (D f ↔ pf.IsPinned ∧ pf.pfDirty = true)
  weighs : s.Weighs w (some last)
  more : ∃ ops n, w last = some (ops, n) ∧ 1 ≤ n

/-- The daemon is between two areas. -/
structure Resting (D : FrameId → Prop) (w : ObjId → Option (MmoOps × ℤ)) (b : ℕ) (s : Mem) :
    Prop where
  store : Store s s.heldBy
  free : s.heldBy b = none
  drop : ∀ f pf, s.frames f = some pf → (D f ↔ pf.IsPinned ∧ pf.pfDirty = true)
  weighs : s.Weighs w none

variable {D : FrameId → Prop} {w : ObjId → Option (MmoOps × ℤ)} {b n : ℕ} {s s₁ s' : Mem}
  {A : ℕ → Option ObjId} {last o u : ObjId} {lb ob : MmObj} {d : Page}

theorem Objs.grounded (h : Objs s A) : (s.layersWith A).Grounded := fun _ _ hu ↦ h.below_lt hu

namespace Collapsed

theorem refl (D : FrameId → Prop) (s : Mem) : Collapsed D s s :=
  ⟨.refl, fun _ pf hf ↦ ⟨pf, hf, rfl⟩, fun _ xb hx ↦ .inl ⟨xb, hx⟩, .refl s⟩

theorem trans (h : Collapsed D s s₁) (h' : Collapsed D s₁ s') (hg : s.layers.Grounded) :
    Collapsed D s s' where
  merged := h.merged.trans h'.merged
  frames f pf' hf := by
    obtain ⟨pf₁, hf₁, h₁⟩ := h'.frames f pf' hf
    obtain ⟨pf, hf, h₀⟩ := h.frames f pf₁ hf₁
    refine ⟨pf, hf, ?_⟩
    rw [h₁, h₀]
  live x xb hx := by
    rcases h.live x xb hx with ⟨xb₁, hx₁⟩ | hgone
    · rcases h'.live x xb₁ hx₁ with hlive | ⟨t, ht⟩
      · exact .inl hlive
      · exact .inr (h.merged.only hg ht)
    · exact .inr hgone
  rest := h.rest.trans h'.rest

theorem heldBy_eq (h : Collapsed D s s') : s'.heldBy = s.heldBy := Mem.heldBy_congr h.rest.areas

end Collapsed

theorem layers_setCount {r : ℤ} (ho : s.objs o = some ob) :
    (s.setObj o (some { ob with mmoRefcount := r })).layers = s.layers := by
  have hbelow : (s.setObj o (some { ob with mmoRefcount := r })).below = s.below := by
    rw [below_update rfl, Option.bind_some, update_eq_self_iff, Mem.below, ho, Option.bind_some]
  unfold Mem.layers Mem.layersWith
  rw [hbelow]
  rfl

theorem collapsed_setCount {r : ℤ} (ho : s.objs o = some ob) :
    Collapsed D s (s.setObj o (some { ob with mmoRefcount := r })) := by
  refine ⟨layers_setCount ho ▸ .refl, fun f pf hf ↦ ⟨pf, hf, rfl⟩, fun x xb hx ↦ .inl ?_,
    .setObj s o _⟩
  exact filled_update hx

theorem only_update {t : ObjId} (ho : s.layers.Only t o) (hne : o ≠ last) :
    (s.layersWith (update s.heldBy b (some last))).Only t o := by
  refine ⟨ho.below, ho.inner, fun a ha ↦ ?_, ho.parent⟩
  rcases update_eq_some.mp ha with ⟨-, hx⟩ | ⟨-, ha⟩
  · exact hne (Option.some.inj hx).symm
  · exact ho.held a ha

namespace Walking

section

variable (h : Walking D w b s last)
include h

theorem parents (ho : s.objs o = some ob) (hops : ob.mmoOps = .shadow)
    (hne : o ≠ last) : ∃ r : ℕ, s.layers.Parents o r ∧ ob.mmoRefcount - ob.mmoNrespages = r := by
  obtain ⟨e, k, he, hk, hc⟩ := h.store.objs.count o ob ho
  refine ⟨e + k, ⟨e, k, he.congr fun a ↦ ?_, hk, rfl⟩, ?_⟩
  · show s.heldBy a = some o ↔ _
    rcases eq_or_ne a b with rfl | hab
    · rw [update_self, h.free]
      exact iff_of_false (Option.some_ne_none o).symm fun hx ↦ hne (Option.some.inj hx).symm
    · rw [update_of_ne hab]
  · unfold MmObj.Counts at hc
    rw [hops] at hc
    dsimp only at hc
    omega

theorem grounded : s.layers.Grounded := fun _ _ hu ↦
  h.store.objs.below_lt hu

theorem put_spare (hl : s.objs last = some lb) : lb.mmoNrespages < lb.mmoRefcount - 1 := by
  obtain ⟨ops, n, hw, hn⟩ := h.more
  have hself := h.weighs last lb hl
  rw [hw, if_pos rfl, Option.some.injEq, Prod.mk.injEq] at hself
  omega

theorem put_last (hl : s.objs last = some lb) :
    s.put last = .ok (s.setObj last (some { lb with mmoRefcount := lb.mmoRefcount - 1 })) :=
  putN_dec hl (h.store.objs.nres_nonneg hl) (h.put_spare hl) fun v hv ↦
    h.store.objs.vnode last lb v hl hv

theorem removed
    (hstore : Store s' (update s.heldBy b (some last))) (hr : Removed o s s') :
    Walking D w b s' last := by
  have hheld : s'.heldBy = s.heldBy := Mem.heldBy_congr hr.rest.areas
  refine ⟨hheld ▸ hstore, by rw [hheld, h.free], ?_, ?_, h.more⟩
  · intro f pf' hf
    obtain ⟨pf, hf₀, hpf⟩ := hr.frames f pf' hf
    rw [hpf]
    exact h.drop f pf hf₀
  · intro x xb' hx
    obtain ⟨-, xb, hxb, hops, hweight⟩ := hr.objs x xb' hx
    rw [h.weighs x xb hxb, hops, hweight]

theorem next (hl : s.objs last = some lb) (ho : s.objs o = some ob)
    (hne : o ≠ last) (hmore : 1 ≤ ob.mmoRefcount - ob.mmoNrespages) :
    Walking D w b ((s.setObj last (some { lb with mmoRefcount := lb.mmoRefcount - 1 })).setObj o
      (some { ob with mmoRefcount := ob.mmoRefcount + 1 })) o := by
  have hslot : update s.heldBy b (some last) b = some last := update_self ..
  have hstore := (h.store.dropRef hl hslot).ref ((update_of_ne hne ..).trans ho) (update_self ..)
  rw [update_idem, update_idem] at hstore
  have hself := h.weighs o ob ho
  rw [if_neg fun hx ↦ hne (Option.some.inj hx).symm, sub_zero] at hself
  refine ⟨hstore, h.free, h.drop, ?_, ⟨_, _, hself, hmore⟩⟩
  intro x xb hx
  rcases of_update_some hx with ⟨rfl, rfl⟩ | ⟨hxo, hx⟩
  · rw [hself, if_pos rfl]
    congr 2
    ring
  rw [if_neg fun hy ↦ hxo (Option.some.inj hy).symm, sub_zero]
  rcases of_update_some hx with ⟨rfl, rfl⟩ | ⟨hxl, hx⟩
  · rw [h.weighs x lb hl, if_pos rfl]
    congr 2
    ring
  · rw [h.weighs x xb hx, if_neg fun hy ↦ hxl (Option.some.inj hy).symm, sub_zero]

theorem droppable_iff {f : FrameId} {pf : Pframe}
    (hf : s.frames f = some pf) : s.Droppable f ↔ D f := by
  rw [h.drop f pf hf]
  constructor
  · rintro ⟨pf', hf', hgood⟩
    cases hf.symm.trans hf'
    exact hgood
  · exact fun hgood ↦ ⟨pf, hf, hgood⟩

/-- One parent: the object is merged into the last one that stays. -/
theorem collapse_decides (ho : s.objs o = some ob)
    (hone : ob.mmoRefcount - ob.mmoNrespages = 1) (honly : s.layers.Only last o) :
    (∃ s₁, s.removeFromTree last o ob = .ok s₁ ∧ Walking D w b s₁ last ∧ Collapsed D s s₁ ∧
      s₁.below last = s.below o ∧ (s₁.layers.Fits D last ↔ s.layers.Fits D last)) ∨
    (¬ s.layers.Fits D last ∧ ∃ e, s.removeFromTree last o ob = .error e) := by
  have hlt : o < last := h.grounded last o honly.below
  have hclash : (∀ m f, s.resident o m = some f → s.resident last m ≠ none → s.Droppable f) ↔
      ∀ m f, s.layers.entry o m = some f → s.layers.entry last m ≠ none → D f := by
    refine forall₂_congr fun m f ↦ forall_congr' fun hf ↦ ?_
    obtain ⟨pf, hpf, -⟩ := h.store.objs.resident_eq_some.mp hf
    rw [h.droppable_iff hpf]
    rfl
  rcases removeFromTree_decides h.store ho hone (update_self ..) (only_update honly hlt.ne) with
    ⟨hall, s₁, hs₁, hstore₁, hrem, hmerge⟩ | ⟨hnot, e, he⟩
  · rw [hclash] at hall
    have hheld : s₁.heldBy = s.heldBy := Mem.heldBy_congr hrem.rest.areas
    have hlayers : s₁.layers = s.layers.merge last o := by
      have hbelow : s₁.below = _ := congrArg Layers.below hmerge
      have hentry : s₁.resident = _ := congrArg Layers.entry hmerge
      show Layers.mk s₁.below s₁.heldBy s₁.resident = _
      rw [hheld, hbelow, hentry]
      rfl
    refine .inl ⟨s₁, hs₁, h.removed hstore₁ hrem,
      ⟨.single ⟨last, o, honly, hall, hlayers⟩, hrem.frames, ?_, hrem.rest⟩, ?_, ?_⟩
    · intro x xb hx
      rcases eq_or_ne x o with rfl | hxo
      · exact .inr ⟨last, honly⟩
      · exact .inl (hrem.live x xb hxo hx)
    · show s₁.layers.below last = _
      rw [hlayers, Layers.merge_below_self hlt.ne']
      rfl
    · rw [hlayers]
      exact Layers.fits_merge h.grounded honly hall hlt.ne'
  · refine .inr ⟨fun hfits ↦ hnot (hclash.mpr ?_), e, he⟩
    exact hfits.fine.clash o (.single honly)

/-- Two parents: the daemon exchanges its reference for one to the object. -/
theorem pass (ho : s.objs o = some ob) (hne : o ≠ last)
    (hmore : 1 ≤ ob.mmoRefcount - ob.mmoNrespages) :
    ∃ s₁ s₂, s.ref o = .ok s₁ ∧ s₁.put last = .ok s₂ ∧ Walking D w b s₂ o ∧ Collapsed D s s₂ ∧
      s₂.layers = s.layers := by
  obtain ⟨lb, hl⟩ := h.store.objs.held b last (update_self ..)
  have hpos : 0 < ob.mmoRefcount := by
    have := h.store.objs.nres_nonneg ho
    omega
  let s₁ := s.setObj o (some { ob with mmoRefcount := ob.mmoRefcount + 1 })
  have href : s.ref o = .ok s₁ := by
    unfold Mem.ref
    rw [ho, follow_bind, demand_bind hpos]
    rfl
  have hl₁ : s₁.objs last = some lb := (update_of_ne hne.symm ..).trans hl
  have hput₁ : s₁.put last =
      .ok (s₁.setObj last (some { lb with mmoRefcount := lb.mmoRefcount - 1 })) :=
    putN_dec hl₁ (h.store.objs.nres_nonneg hl) (h.put_spare hl) fun v hv ↦
      h.store.objs.vnode last lb v hl hv
  have hcomm : s₁.setObj last (some { lb with mmoRefcount := lb.mmoRefcount - 1 }) =
      (s.setObj last (some { lb with mmoRefcount := lb.mmoRefcount - 1 })).setObj o
        (some { ob with mmoRefcount := ob.mmoRefcount + 1 }) := by
    simp only [s₁, Mem.setObj]
    rw [update_comm hne]
  refine ⟨s₁, _, href, hput₁, hcomm ▸ h.next hl ho hne hmore, ?_, ?_⟩
  · exact (collapsed_setCount ho).trans (collapsed_setCount hl₁) h.grounded
  · exact (layers_setCount hl₁).trans (layers_setCount ho)

end

end Walking

/-- **The way down a chain.**  The daemon comes to its end if and only if the chain is what
it expects. -/
theorem shadowdWalk_decides : ∀ {k : ℕ} {s : Mem} {last : ℕ} {cur : Option ObjId},
    Walking D w b s last → s.below last = cur → (∀ o : ℕ, cur = some o → o < k) → 0 < k →
    (s.layers.Fits D last ∧ ∃ s' last', Mem.shadowdWalk k s last cur = .ok (s', last') ∧
      Walking D w b s' last' ∧ Collapsed D s s') ∨
    (¬ s.layers.Fits D last ∧ ∃ e, Mem.shadowdWalk k s last cur = .error e) := by
  intro k
  induction k with
  | zero => exact fun _ _ _ hk ↦ absurd hk (Nat.lt_irrefl 0)
  | succ k ih =>
    intro s last cur h hcur hk _
    cases cur with
    | none =>
      refine .inl ⟨Layers.fits_of_bottom fun u hu ↦ ?_, s, last, rfl, h, .refl D s⟩
      cases hcur.symm.trans hu
    | some o =>
      obtain ⟨ob, ho⟩ := h.store.objs.below_live hcur
      have hlt : o < last := h.store.objs.below_lt hcur
      unfold Mem.shadowdWalk
      rw [ho, follow_bind]
      cases hsh : ob.mmoShadowed with
      | none =>
        refine .inl ⟨Layers.fits_of_bottom fun u hu ↦ ?_, s, last, rfl, h, .refl D s⟩
        cases hcur.symm.trans hu
        show s.below o = none
        rw [Mem.below, ho, Option.bind_some, hsh]
      | some u =>
        have hu : s.below o = some u := below_eq_some.mpr ⟨ob, ho, hsh⟩
        have hinner : s.layers.below o ≠ none := ne_of_eq_of_ne hu (Option.some_ne_none u)
        have hops : ob.mmoOps = .shadow :=
          (h.store.objs.kind o ob ho).mpr (hsh ▸ Option.some_ne_none u)
        have huk : ∀ x : ℕ, some u = some x → x < k := by
          intro x hx
          cases hx
          exact (h.store.objs.below_lt hu).trans_le (Nat.le_of_lt_succ (hk o rfl))
        obtain ⟨r, hparents, hr⟩ := h.parents ho hops hlt.ne
        dsimp only
        rw [demand_bind hlt.ne, hr]
        split
        · next hone =>
          obtain rfl : r = 1 := by exact_mod_cast hone
          have honly : s.layers.Only last o := hparents.only hcur hinner
          rcases h.collapse_decides ho hr honly with
            ⟨s₁, hs₁, h₁, hcol, hbelow, hfits⟩ | ⟨hbad, e, he⟩
          · rw [hs₁, ok_bind, ← hfits]
            rcases ih h₁ (hbelow.trans hu) huk (Nat.zero_lt_of_lt (huk u rfl)) with
              ⟨hf, s₂, last₂, hs₂, h₂, hcol₂⟩ | hbad
            · exact .inl ⟨hf, s₂, last₂, hs₂, h₂, hcol.trans hcol₂ h.grounded⟩
            · exact .inr hbad
          · exact .inr ⟨hbad, e, by rw [he, error_bind]⟩
        · next hone =>
          by_cases htwo : r = 2
          · subst htwo
            obtain ⟨s₁, s₂, hs₁, hs₂, h₂, hcol, hlayers⟩ := h.pass ho hlt.ne (by omega)
            have hfits : s₂.layers.Fits D o ↔ s.layers.Fits D last := by
              rw [hlayers, Layers.fits_iff (x := last)]
              refine ⟨fun hf ↦ ⟨.of_shared hcur hparents, fun x hx ↦ ?_⟩, fun hf ↦ hf.2 o hcur⟩
              cases hcur.symm.trans hx
              exact hf
            have hbelow : s₂.below o = some u :=
              (congrFun (congrArg Layers.below hlayers) o).trans hu
            rw [demand_bind (by norm_num), hs₁, ok_bind, hs₂, ok_bind, ← hfits]
            rcases ih h₂ hbelow huk (Nat.zero_lt_of_lt (huk u rfl)) with
              ⟨hf, s₃, last₃, hs₃, h₃, hcol₃⟩ | hbad
            · exact .inl ⟨hf, s₃, last₃, hs₃, h₃, hcol.trans hcol₃ h.grounded⟩
            · exact .inr hbad
          · refine .inr ⟨fun hfits ↦ ?_, .assertion, ?_⟩
            · rcases hfits.fine.parents o hcur hinner with honly | hshared
              · exact hone (by exact_mod_cast hparents.unique honly.parents)
              · exact htwo (hparents.unique hshared)
            · rw [demand_neg (by exact_mod_cast htwo), error_bind]

/-! ## Areas and processes -/

namespace Resting

section

variable (h : Resting D w b s)
include h

theorem grounded : s.layers.Grounded := h.store.objs.grounded

/-- **One area.** -/
theorem area_decides (a : AreaId) :
    (s.ChainFits D a ∧
      ∃ s', s.shadowdArea a = .ok s' ∧ Resting D w b s' ∧ Collapsed D s s') ∨
    (¬ s.ChainFits D a ∧ ∃ e, s.shadowdArea a = .error e) := by
  unfold Mem.shadowdArea Mem.ChainFits
  cases ha : s.areas a with
  | none =>
    refine .inr ⟨?_, .pointer, rfl⟩
    rintro ⟨o, ho, -⟩
    rw [Mem.heldBy, ha] at ho
    cases ho
  | some vma =>
    rw [follow_bind, Mem.heldBy_of_area ha]
    cases hobj : vma.vmaObj with
    | none =>
      refine .inr ⟨?_, .pointer, rfl⟩
      rintro ⟨o, ho, -⟩
      cases ho
    | some o =>
      have hslot : s.heldBy a = some o := (Mem.heldBy_of_area ha).trans hobj
      obtain ⟨ob, ho⟩ := h.store.objs.held a o hslot
      have hlt := h.store.objs.nres_lt ho ⟨a, .inl hslot⟩
      have hnonneg := h.store.objs.nres_nonneg ho
      let s₁ := s.setObj o (some { ob with mmoRefcount := ob.mmoRefcount + 1 })
      have href : s.ref o = .ok s₁ := by
        unfold Mem.ref
        rw [ho, follow_bind, demand_bind (by omega)]
        rfl
      have hself := h.weighs o ob ho
      rw [if_neg (Option.some_ne_none o).symm, sub_zero] at hself
      have h₁ : Walking D w b s₁ o := by
        refine ⟨h.store.ref ho h.free, h.free, h.drop, ?_, _, _, hself, by omega⟩
        intro x xb hx
        rcases of_update_some hx with ⟨rfl, rfl⟩ | ⟨hxo, hx⟩
        · rw [hself, if_pos rfl]
          congr 2
          ring
        · rw [if_neg fun hy ↦ hxo (Option.some.inj hy).symm, h.weighs x xb hx,
            if_neg (Option.some_ne_none x).symm]
      have hlayers : s₁.layers = s.layers := layers_setCount ho
      have hbelow : s₁.below o = ob.mmoShadowed := by
        rw [show s₁.below = s.below from congrArg Layers.below hlayers, Mem.below, ho,
          Option.bind_some]
      have hfuel : ∀ u : ℕ, ob.mmoShadowed = some u → u < o + 1 := fun u hu ↦
        (h.store.objs.shadowed o ob u ho hu).1.trans (Nat.lt_succ_self o)
      have hfits : (∃ o', some o = some o' ∧ s.layers.Fits D o') ↔ s₁.layers.Fits D o := by
        rw [hlayers]
        simp only [Option.some.injEq, exists_eq_left']
      rw [follow_bind, ho, follow_bind, href, ok_bind, hfits]
      rcases shadowdWalk_decides h₁ hbelow hfuel (Nat.succ_pos o) with
        ⟨hf, s₂, last, hs₂, h₂, hcol⟩ | ⟨hbad, e, he⟩
      · obtain ⟨lb, hl⟩ := h₂.store.objs.held b last (update_self ..)
        rw [hs₂, ok_bind]
        refine .inl ⟨hf, _, h₂.put_last hl, ?_, ?_⟩
        · have hstore := h₂.store.dropRef hl (update_self ..)
          rw [update_idem, ← h₂.free, update_eq_self] at hstore
          refine ⟨hstore, h₂.free, h₂.drop, ?_⟩
          intro x xb hx
          rw [if_neg (Option.some_ne_none x).symm, sub_zero]
          rcases of_update_some hx with ⟨rfl, rfl⟩ | ⟨hxl, hx⟩
          · rw [h₂.weighs x lb hl, if_pos rfl]
            congr 2
            ring
          · rw [h₂.weighs x xb hx, if_neg fun hy ↦ hxl (Option.some.inj hy).symm, sub_zero]
        · exact ((collapsed_setCount ho).trans hcol h.grounded).trans (collapsed_setCount hl)
            h.grounded
      · exact .inr ⟨hbad, e, by rw [he, error_bind]⟩

theorem chainFits_iff (hc : Collapsed D s s') (a : AreaId) :
    s'.ChainFits D a ↔ s.ChainFits D a := by
  unfold Mem.ChainFits
  rw [hc.heldBy_eq]
  exact exists_congr fun o ↦ and_congr_right fun ho ↦ hc.merged.fits h.grounded ho

/-- **One process.** -/
theorem proc_decides (p : Pid) :
    (s.ProcFits D p ∧
      ∃ s', s.shadowdProc p = .ok s' ∧ Resting D w b s' ∧ Collapsed D s s') ∨
    (¬ s.ProcFits D p ∧ ∃ e, s.shadowdProc p = .error e) := by
  unfold Mem.shadowdProc Mem.ProcFits
  cases hp : s.procs p with
  | none =>
    refine .inr ⟨?_, .pointer, rfl⟩
    rintro ⟨x, hx, -⟩
    cases hx
  | some x =>
    rw [follow_bind]
    simp only [Option.some.injEq, exists_eq_left']
    cases hrun : x.running with
    | false => exact .inl ⟨fun hx ↦ absurd hx Bool.false_ne_true, s, rfl, h, .refl D s⟩
    | true =>
      rw [if_pos rfl]
      cases hm : x.pVmmap with
      | none =>
        refine .inr ⟨fun hall ↦ ?_, .pointer, rfl⟩
        obtain ⟨m, mp, hx, -⟩ := hall rfl
        cases hx
      | some m =>
        rw [follow_bind]
        cases hmp : s.maps m with
        | none =>
          refine .inr ⟨fun hall ↦ ?_, .pointer, rfl⟩
          obtain ⟨m', mp, hx, hmp', -⟩ := hall rfl
          cases hx
          cases hmp.symm.trans hmp'
        | some mp =>
          rw [follow_bind]
          have hloop := foldl_decides (f := Mem.shadowdArea) (l := mp.vmmList)
            (P := s.ChainFits D)
            (I := fun _ s' ↦ Resting D w b s' ∧ Collapsed D s s') ?_ ⟨h, .refl D s⟩
          · rcases hloop with ⟨hall, s', hs', h', hc⟩ | ⟨hbad, he⟩
            · exact .inl ⟨fun _ ↦ ⟨m, mp, rfl, hmp, hall⟩, s', hs', h', hc⟩
            · refine .inr ⟨fun hall ↦ hbad ?_, he⟩
              obtain ⟨m', mp', hx, hmp', hfits⟩ := hall rfl
              cases hx
              cases hmp.symm.trans hmp'
              exact hfits
          rintro a l s₁ ⟨h₁, hc₁⟩
          rw [← h.chainFits_iff hc₁ a]
          rcases h₁.area_decides a with ⟨hf, s₂, hs₂, h₂, hc₂⟩ | hbad
          · exact .inl ⟨hf, s₂, hs₂, h₂, hc₁.trans hc₂ h.grounded⟩
          · exact .inr hbad

theorem procFits_iff (hc : Collapsed D s s') (p : Pid) : s'.ProcFits D p ↔ s.ProcFits D p := by
  unfold Mem.ProcFits
  simp only [hc.rest.maps, h.chainFits_iff hc]
  rcases hc.rest.procs p with hp | ⟨x, pd, hx, -, hp⟩
  · rw [hp]
  · rw [hp, hx]
    simp only [Option.some.injEq, exists_eq_left']

/-- **One pass.** -/
theorem pass_decides (procList : List Pid) :
    ((∀ p ∈ procList, s.ProcFits D p) ∧
      ∃ s', s.shadowd procList = .ok s' ∧ Resting D w b s' ∧ Collapsed D s s') ∨
    ((¬ ∀ p ∈ procList, s.ProcFits D p) ∧ ∃ e, s.shadowd procList = .error e) := by
  refine foldl_decides (I := fun _ s' ↦ Resting D w b s' ∧ Collapsed D s s')
    ?_ ⟨h, .refl D s⟩
  rintro p l s₁ ⟨h₁, hc₁⟩
  rw [← h.procFits_iff hc₁ p]
  rcases h₁.proc_decides p with ⟨hf, s₂, hs₂, h₂, hc₂⟩ | hbad
  · exact .inl ⟨hf, s₂, hs₂, h₂, hc₁.trans hc₂ h.grounded⟩
  · exact .inr hbad

end

end Resting

/-! ## Views -/

/-- What is at the end of a lookup: the contents of a page, or what the bottom object fills
a page with. -/
def Mem.Contents (s : Mem) (n : ℕ) (r : FrameId ⊕ ObjId) (d : Page) : Prop :=
  match r with
  | .inl f => ∃ pf, s.frames f = some pf ∧ pf.pfData = d
  | .inr u => ∃ ob, s.objs u = some ob ∧ ((ob.mmoOps = .anon ∧ d = fun _ ↦ 0) ∨
      ∃ v vn, ob.mmoOps = .vnode v ∧ s.vnodes v = some vn ∧ n * pageSize % 2 ^ 32 < vn.vnLen ∧
        vn.fillpage n = .ok d)

theorem shows_iff_finds (h : Objs s s.heldBy) {x : ObjId} :
    Shows s n x d ↔ ∃ r, s.layers.Finds n x r ∧ s.Contents n r d := by
  constructor
  · intro hd
    induction hd with
    | @page x f pf hf ho hn =>
      exact ⟨.inl f, .here (h.resident_eq_some.mpr ⟨pf, hf, ho, hn⟩), pf, hf, rfl⟩
    | down habs hu _ ih =>
      obtain ⟨r, hr, hc⟩ := ih
      exact ⟨r, .down (h.resident_eq_none.mpr habs) hu hr, hc⟩
    | @anon x ob habs ho hops =>
      refine ⟨.inr x, .bottom (h.resident_eq_none.mpr habs) ((h.below_eq_none ho).mpr ?_), ob, ho,
        .inl ⟨hops, rfl⟩⟩
      rw [hops]
      exact MmoOps.noConfusion
    | @file x ob v vn d habs ho hops hvn hlen hd =>
      refine ⟨.inr x, .bottom (h.resident_eq_none.mpr habs) ((h.below_eq_none ho).mpr ?_), ob, ho,
        .inr ⟨v, vn, hops, hvn, hlen, hd⟩⟩
      rw [hops]
      exact MmoOps.noConfusion
  · rintro ⟨r, hr, hc⟩
    induction hr with
    | here he =>
      obtain ⟨pf, hf, rfl⟩ := hc
      obtain ⟨pf', hf', ho, hn⟩ := h.resident_eq_some.mp he
      cases hf.symm.trans hf'
      exact .page hf ho hn
    | bottom he _ =>
      have habs := h.resident_eq_none.mp he
      obtain ⟨ob, ho, ⟨hops, rfl⟩ | ⟨v, vn, hops, hvn, hlen, hd⟩⟩ := hc
      · exact .anon habs ho hops
      · exact .file habs ho hops hvn hlen hd
    | down he hb _ ih => exact .down (h.resident_eq_none.mp he) hb (ih hc)

theorem reads_iff_shows (h : Store s A) (hfail : ∀ k, s.NoFailure k) {a : ℕ} (ha : A a = some o)
    : s.Reads o n d ↔ Shows s n o d := by
  obtain ⟨ob, ho⟩ := h.objs.held a o ha
  obtain ⟨s', r, hr, hout⟩ := pframeLookup_ok h.objs h.links (h.quiet.calm o) ho
    ⟨a, .inl ha⟩ false
  have hread : ∀ f pf, r = .ok f → s'.frames f = some pf → ∀ d, Shows s n o d → d = pf.pfData := by
    intro f pf hrf hf d hd
    exact (hout.fetched.shows h.objs hd).unique hout.objs ((hout.found f hrf).1.shows hf)
  constructor
  · rintro ⟨s'', f, pf, hs'', hf, rfl⟩
    cases hr.symm.trans hs''
    obtain ⟨d, hd⟩ := hout.shown f rfl
    exact hread f pf rfl hf d hd ▸ hd
  · intro hd
    obtain ⟨f, hrf⟩ := hout.progress (hfail _) (hfail _) ⟨d, hd⟩
    obtain ⟨u, -, pf, hf, -⟩ := (hout.found f hrf).1.pageAt hout.objs
    exact ⟨s', f, pf, hrf ▸ hr, hf, (hread f pf hrf hf d hd).symm⟩

/-- Pages keep their contents, and the bottom of a chain is not merged. -/
theorem Collapsed.contents_iff (h : Collapsed D s s') (hs' : Objs s' s'.heldBy)
    (hkept : ∀ x xb', s'.objs x = some xb' →
      ∃ xb, s.objs x = some xb ∧ xb'.mmoOps = xb.mmoOps)
    {x : ObjId} {r : FrameId ⊕ ObjId} (hr : s.layers.Finds n x r)
    (hr' : s'.layers.Finds n x r) : s'.Contents n r d ↔ s.Contents n r d := by
  cases r with
  | inl f =>
    obtain ⟨y, hy⟩ := hr'.ends.1 f rfl
    obtain ⟨pf', hf', -⟩ := hs'.resident_eq_some.mp hy
    obtain ⟨pf, hf, hpf⟩ := h.frames f pf' hf'
    have hdata : pf'.pfData = pf.pfData := by rw [hpf]
    simp only [Mem.Contents, hf', hf, Option.some.injEq, exists_eq_left', hdata]
  | inr u =>
    have hbottom : s.below u = none := hr.ends.2 u rfl
    simp only [Mem.Contents, h.rest.vnodes]
    constructor
    · rintro ⟨ob', ho', hc⟩
      obtain ⟨ob, ho, hops⟩ := hkept u ob' ho'
      rw [hops] at hc
      exact ⟨ob, ho, hc⟩
    · rintro ⟨ob, ho, hc⟩
      rcases h.live u ob ho with ⟨ob', ho'⟩ | ⟨t, ht⟩
      · obtain ⟨ob₀, ho₀, hops⟩ := hkept u ob' ho'
        cases ho.symm.trans ho₀
        rw [← hops] at hc
        exact ⟨ob', ho', hc⟩
      · exact absurd hbottom ht.inner

/-- What all objects weigh. -/
def Mem.weights (s : Mem) (o : ObjId) : Option (MmoOps × ℤ) :=
  (s.objs o).map fun ob ↦ (ob.mmoOps, ob.mmoRefcount - ob.mmoNrespages)

/-- A pass that has come to its end is right. -/
theorem Collapsed.right (hc : Collapsed D s s') (h : Resting D s.weights b s)
    (h' : Resting D s.weights b s') (hfail : ∀ k, s.NoFailure k) : CollapseRight s s' := by
  have hs := h.store.objs
  have hs' := h'.store.objs
  have hkept : ∀ o ob', s'.objs o = some ob' → ∃ ob, s.objs o = some ob ∧
      ob'.mmoOps = ob.mmoOps ∧
      ob'.mmoRefcount - ob'.mmoNrespages = ob.mmoRefcount - ob.mmoNrespages := by
    intro o ob' ho'
    obtain ⟨ob, ho, hw⟩ := Option.map_eq_some_iff.mp (h'.weighs o ob' ho')
    rw [if_neg (Option.some_ne_none o).symm, sub_zero, Prod.mk.injEq] at hw
    exact ⟨ob, ho, hw.1.symm, hw.2.symm⟩
  refine ⟨hc.rest.areas, ?_, ?_, hkept, ?_, ?_⟩
  · intro a o ha n d
    have ha' : s'.heldBy a = some o := hc.heldBy_eq ▸ ha
    rw [reads_iff_shows h'.store (fun k ↦ hc.rest.noFailure k (hfail k)) ha',
      reads_iff_shows h.store hfail ha, shows_iff_finds hs', shows_iff_finds hs]
    have hfinds : ∀ r, s'.layers.Finds n o r ↔ s.layers.Finds n o r := fun r ↦
      hc.merged.finds h.grounded ha
    refine exists_congr fun r ↦ ?_
    rw [hfinds r]
    refine and_congr_right fun hr ↦ hc.contents_iff hs' ?_ hr ((hfinds r).mpr hr)
    intro x xb' hx
    obtain ⟨xb, hxb, hops, -⟩ := hkept x xb' hx
    exact ⟨xb, hxb, hops⟩
  · intro o ob ho hgone
    rcases hc.live o ob ho with ⟨ob', ho'⟩ | ⟨t, ht⟩
    · cases hgone.symm.trans ho'
    · obtain ⟨e, k, he, hk, hsum⟩ := ht.parents
      have hpos := hk.pos ht.below
      obtain rfl : k = 1 := by omega
      refine ⟨?_, ht.held, hk⟩
      by_contra hops
      exact ht.inner ((hs.below_eq_none ho).mpr hops)
  · intro o ob ho hops
    obtain ⟨e, k, he, hk, hcount⟩ := hs'.count o ob ho
    refine ⟨e, k, he, hk, ?_⟩
    unfold MmObj.Counts at hcount
    split at hcount
    · next v hv => rcases hops with hops | hops <;> cases hops.symm.trans hv
    · exact_mod_cast hcount
  · intro o ob ho
    refine ⟨hs'.nodup o ob ho, hs'.length o ob ho, fun f ↦ ?_⟩
    rw [hs'.pages o ob ho f]
    constructor
    · rintro ⟨n, pf, hf, hobj, -⟩
      exact ⟨pf, hf, hobj⟩
    · rintro ⟨pf, hf, hobj⟩
      exact ⟨_, pf, hf, hobj, rfl⟩

theorem Spaces.resting {L : ObjId → Prop} (h : Spaces L s) :
    Resting s.Droppable s.weights s.next s := by
  refine ⟨h.held.store, h.held.heldBy_next, fun f pf hf ↦ ?_, fun x xb hx ↦ ?_⟩
  · constructor
    · rintro ⟨pf', hf', hgood⟩
      cases hf.symm.trans hf'
      exact hgood
    · exact fun hgood ↦ ⟨pf, hf, hgood⟩
  · rw [Mem.weights, hx, Option.map_some, if_neg (Option.some_ne_none x).symm, sub_zero]

theorem Spaces.collapsible {L : ObjId → Prop} (h : Spaces L s) {procList : List Pid}
    (hs : s.shadowd procList = .ok s') : s.Collapsible procList := by
  rcases h.resting.pass_decides procList with ⟨hfits, -⟩ | ⟨-, e, he⟩
  · exact hfits
  · cases he.symm.trans hs

/-- **The shadow daemon.**  In every state that is reached by creating processes, mapping,
unmapping, page faults and forks, a pass of the daemon is right if and only if every chain
that it walks is what it expects. -/
theorem shadowdRight_iff_of_run {s₀ : Mem} {h : List SpaceEv} (h₀ : Booted s₀)
    (hr : Run (ofStep spaceStep) s₀ h s) (procList : List Pid) :
    s.ShadowdRight procList ↔ s.Collapsible procList := by
  have hspaces := h₀.spaces_of_run hr
  rcases hspaces.resting.pass_decides procList with ⟨hfits, s', hs', h', hc⟩ | ⟨hbad, e, he⟩
  · exact iff_of_true ⟨s', hs', hc.right hspaces.resting h' hspaces.noFailure⟩ hfits
  · refine iff_of_false ?_ hbad
    rintro ⟨s', hs', -⟩
    cases he.symm.trans hs'

omit [Layout] in
/-- A process writes to a page, forks, and writes to another page; the child unmaps all.  The
object between the two pages is removed. -/
theorem pass_removes_object : ∃ s s', Booted {} ∧ Run (ofStep (@spaceStep .stock)) {}
      [.remove 7 1024 3, .fault 1 4198400 true, .fork 1 2, .fault 1 4194304 true,
        .map 0 none 1024 3 3 2 0 .hilo, .create 1] s ∧
    @Mem.shadowd .stock s [1, 2] = .ok s' ∧ (∃ ob, s.objs 3 = some ob) ∧ s'.objs 3 = none ∧
    @Mem.ShadowdRight .stock s [1, 2] := by
  obtain ⟨s, hs, htest⟩ := exists_of_check (f := @spaceStep .stock) (s := {})
    (l := [.create 1, .map 0 none 1024 3 3 2 0 .hilo, .fault 1 4194304 true, .fork 1 2,
      .fault 1 4198400 true, .remove 7 1024 3])
    (p := fun s ↦ (s.objs 3).isSome &&
      returns (fun s' ↦ (s'.objs 3).isNone) (@Mem.shadowd .stock s [1, 2])) (by decide +kernel)
  rw [Bool.and_eq_true, Option.isSome_iff_exists, returns_eq_true] at htest
  obtain ⟨hob, s', hs', hnone⟩ := htest
  have hr := Run.of_exec hs
  have hspaces := @Booted.spaces_of_run .stock _ _ _ booted_empty hr
  exact ⟨s, s', booted_empty, hr, hs', hob, Option.isNone_iff_eq_none.mp hnone,
    (@shadowdRight_iff_of_run .stock s _ _ booted_empty hr [1, 2]).mpr
      (@Spaces.collapsible .stock s s' _ hspaces _ hs')⟩

omit [Layout] in
/-- An area is split in two and the process forks, or a process writes to the same page before
and after a fork and the child unmaps all: an assertion ends the pass. -/
theorem pass_stops : (∃ s, Booted {} ∧ Run (ofStep (@spaceStep .stock)) {}
      [.fork 1 2, .remove 0 1025 1, .map 0 none 1024 3 3 2 0 .hilo, .create 1] s ∧
    @Mem.shadowd .stock s [1, 2] = .error .assertion) ∧
    ∃ s, Booted {} ∧ Run (ofStep (@spaceStep .stock)) {}
      [.remove 7 1024 3, .fault 1 4194304 true, .fork 1 2, .fault 1 4194304 true,
        .map 0 none 1024 3 3 2 0 .hilo, .create 1] s ∧
    @Mem.shadowd .stock s [1, 2] = .error .assertion := by
  constructor
  · obtain ⟨s, hs, htest⟩ := exists_of_check (f := @spaceStep .stock) (s := {})
      (l := [.create 1, .map 0 none 1024 3 3 2 0 .hilo, .remove 0 1025 1, .fork 1 2])
      (p := fun s ↦ crashes .assertion (@Mem.shadowd .stock s [1, 2])) (by decide +kernel)
    exact ⟨s, booted_empty, Run.of_exec hs, crashes_eq_true.mp htest⟩
  · obtain ⟨s, hs, htest⟩ := exists_of_check (f := @spaceStep .stock) (s := {})
      (l := [.create 1, .map 0 none 1024 3 3 2 0 .hilo, .fault 1 4194304 true, .fork 1 2,
        .fault 1 4194304 true, .remove 7 1024 3])
      (p := fun s ↦ crashes .assertion (@Mem.shadowd .stock s [1, 2])) (by decide +kernel)
    exact ⟨s, booted_empty, Run.of_exec hs, crashes_eq_true.mp htest⟩

end CS402.Mm

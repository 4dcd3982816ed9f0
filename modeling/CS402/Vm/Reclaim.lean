import CS402.Vm.Lifecycle

/-!
# Reference counts and reclaim

The calls that make, change and destroy address spaces, as the steps of one system, and
what holds of the memory objects wherever its runs arrive: the count of an object is the
number of its references, what is referred to is there, and what is not referred to is
gone.

The last of these fails for one kind of object.  `anon_put` frees the object inside the
branch for objects with resident pages, so that an anonymous object of which no page was
ever touched stays allocated when its last reference goes.  The runs in which no step
takes the last reference of such an object are those for which the result holds.
-/

set_option linter.unusedSectionVars false

namespace CS402.Mm

open CS402.Lib Function

/-! ## The calls -/

/-- A call that makes, changes or destroys an address space. -/
inductive SpaceEv where
  | create (p : Pid)
  | map (m : MapId) (file : Option VnodeId) (lopage npages : ℕ) (prot flags : Flags) (off : ℕ)
      (dir : Dir)
  | remove (m : MapId) (lopage npages : ℕ)
  | mmap (p : Pid) (addr len : ℕ) (prot flags : Flags) (fd : ℤ) (off : ℕ)
  | munmap (p : Pid) (addr len : ℕ)
  | fork (p c : Pid)
  | destroy (m : MapId)
  | fault (p : Pid) (vaddr : ℕ) (write : Bool)

/-- `proc_create`, as far as memory management goes. -/
def Mem.procCreate (s : Mem) (p : Pid) : Except Fault Mem := do
  demand .assertion ((s.procs p).isNone = true)
  let (s, r) := s.vmmapCreate
  let m ← follow .pointer r
  let map ← follow .pointer (s.maps m)
  return (s.setMap m (some { map with vmmProc := some p })).setProc p (some { pVmmap := some m })

section

variable [Layout]

/-- The effect of a call. -/
def spaceStep (s : Mem) : SpaceEv → Except Fault Mem
  | .create p => s.procCreate p
  | .map m file lopage npages prot flags off dir => do
    let (s, _) ← s.vmmapMap m file lopage npages prot flags off dir
    return s
  | .remove m lopage npages => s.vmmapRemove m lopage npages
  | .mmap p addr len prot flags fd off => do
    let (s, _) ← s.doMmap p addr len prot flags fd off
    return s
  | .munmap p addr len => do
    let (s, _) ← s.doMunmap p addr len
    return s
  | .fork p c => s.doFork p c
  | .destroy m => s.vmmapDestroy m
  | .fault p vaddr write => s.handlePagefault p vaddr write

variable {L : ObjId → Prop} {s s₁ s' : Mem} {m : MapId} {p : Pid} {r : Except Errno AreaId}
  {flags prot : Flags} {file : Option VnodeId} {lopage npages off : ℕ}

theorem procCreate_eq_ok (hf : s.NoFailure .vmmap) (hs : s.procCreate p = .ok s') :
    s' = ((s.draw .vmmap).bump.setMap s.next
      (some { vmmList := [], vmmProc := some p })).setProc p (some { pVmmap := some s.next }) := by
  obtain ⟨-, hs⟩ := bind_demand hs
  have hcreate : s.vmmapCreate = ((s.draw .vmmap).bump.setMap s.next (some {}), some s.next) := by
    rw [Mem.vmmapCreate, hf.grants]
    rfl
  rw [hcreate] at hs
  obtain ⟨m, hm, hs⟩ := bind_follow hs
  cases hm
  obtain ⟨mp, hmp, hs⟩ := bind_ok hs
  rw [follow_eq_ok, Mem.setMap_maps, update_self] at hmp
  cases hmp
  rw [← pure_eq_ok.mp hs]
  simp [Mem.setMap, Mem.setProc]

theorem procCreate_spaces (h : Spaces L s) (hs : s.procCreate p = .ok s') : Spaces L s' := by
  obtain rfl := procCreate_eq_ok (h.noFailure .vmmap) hs
  obtain ⟨hcreate, ht₁⟩ := vmmapCreate_tidy h.tidy (h.noFailure .vmmap)
  have hh₁ := vmmapCreate_held h.held h.tidy.maps_next
  rw [hcreate] at hh₁
  refine ⟨hh₁.retable rfl rfl rfl rfl rfl le_rfl ?_ ?_, ht₁.retable rfl le_rfl ?_,
    fun k ↦ (h.noFailure k).draw _⟩
  · intro m mp _ hm _
    rcases of_update_some hm with ⟨rfl, rfl⟩ | ⟨hne, hm⟩
    · exact ⟨_, update_self .., rfl⟩
    · exact ⟨mp, update_other hne hm, rfl⟩
  · intro m mp q hm hq
    rcases of_update_some hm with ⟨-, rfl⟩ | ⟨-, hm⟩
    · cases hq
      exact ⟨_, update_self ..⟩
    · obtain ⟨x, hx⟩ := h.held.store.links.proc m mp q hm hq
      exact filled_update hx
  · intro m mp hm
    rcases of_update_some hm with ⟨rfl, rfl⟩ | ⟨hne, hm⟩
    · exact ⟨_, update_self .., rfl⟩
    · exact ⟨mp, update_other hne hm, rfl⟩

theorem vmmapMap_spaces
    {dir : Dir} (h : Spaces L s) (hL : Spare L s)
    (hs : s.vmmapMap m file lopage npages prot flags off dir = .ok (s', r)) : Spaces L s' := by
  have hstep : mapStep s (.map m file lopage npages prot flags off dir) = .ok s' :=
    bind_eq_ok.mpr ⟨_, hs, rfl⟩
  obtain ⟨ht, hf⟩ := tidy_mapStep ⟨h.tidy, h.noFailure⟩ hstep
  exact ⟨vmmapMap_held h.held hL h.tidy hs, ht, hf⟩

theorem vmmapRemove_spaces (h : Spaces L s) (hL : Spare L s)
    (hs : s.vmmapRemove m lopage npages = .ok s') : Spaces L s' := by
  have hstep : mapStep s (.remove m lopage npages) = .ok s' := hs
  obtain ⟨ht, hf⟩ := tidy_mapStep ⟨h.tidy, h.noFailure⟩ hstep
  exact ⟨(vmmapRemove_held h.held hL h.tidy hs).1, ht, hf⟩

/-! ## What happens to the processes -/

omit [Layout] in
theorem Mem.Changes.procsLe (h : Mem.Changes s s') : Mem.ProcsLe s'.procs s.procs := by
  refine h.invariant (I := fun s' ↦ Mem.ProcsLe s'.procs s.procs) ?_ (.refl _)
  intro s₁ s₂ hc hI
  cases hc with
  | procs hP => exact hP.trans hI
  | frame => exact hI
  | uncache => exact hI
  | cache => exact hI
  | obj => exact hI
  | vnodes => exact hI
  | touch =>
    unfold Mem.touch
    split
    · exact hI
    · exact hI
  | draw => exact hI

theorem vmmapRemove_procs (hs : s.vmmapRemove m lopage npages = .ok s') :
    Mem.ProcsLe s'.procs s.procs := by
  obtain ⟨empty, -, hs⟩ := bind_ok hs
  split at hs
  · cases hs
    exact .refl _
  obtain ⟨mp, -, hs⟩ := bind_ok hs
  refine removeLoop_rule (P := fun _ s₁ ↦ Mem.ProcsLe s₁.procs s.procs)
    (fun _ hP ↦ hP) (fun _ _ _ _ hP _ _ ↦ hP) ?_
    (fun _ _ _ _ hP _ _ _ _ ↦ hP) (fun _ _ _ _ hP _ _ _ _ ↦ hP) ?_ (.refl _) hs
  · intro a l s₁ s₂ vma hP _ _ _ hsp
    rcases splitArea_cases hsp with ⟨-, rfl⟩ | ⟨o, ob, mp, q, s₃, -, -, -, hlink, rfl, -⟩
    · exact hP
    · exact (Mem.linkBottom_changes hlink).procsLe.trans hP
  · intro a l s₁ s₂ vma hP _ _ _ hd
    obtain ⟨o, -, hd⟩ := bind_ok hd
    obtain ⟨s₃, hput, hd⟩ := bind_ok hd
    obtain ⟨mp, -, hd⟩ := bind_ok hd
    rw [← pure_eq_ok.mp hd]
    exact ((Mem.unlinkVma_changes ..).procsLe.trans (Mem.put_changes hput).procsLe).trans hP

theorem vmmapPlace_procs {start : ℕ}
    (hs : s.vmmapPlace m file start npages prot flags off = .ok (s', r)) : s'.procs = s.procs := by
  rcases vmmapPlace_cases hs with
    ⟨-, -, rfl⟩ | ⟨-, -, s₁, under, s₂, vma, hback, -, hins, hcases⟩
  · rfl
  have h₁ : s₁.procs = s.procs := by
    rcases backing_cases hback with ⟨-, rfl⟩ | ⟨-, rfl | rfl⟩ | ⟨-, -, -, -, -, -, rfl⟩ <;> rfl
  obtain ⟨mp, vma', -, -, -, -, -, rfl⟩ := Mem.vmmapInsert_eq_ok.mp hins
  rcases hcases with ⟨-, u, s₃, o, ub, rfl, hsh, -, -, -, rfl⟩ | ⟨-, -, -, rfl⟩
  · obtain ⟨-, -, b, -, rfl⟩ := Mem.shadowOver_cases hsh
    exact h₁
  · exact h₁

theorem vmmapMap_procs
    {dir : Dir}
    (hs : s.vmmapMap m file lopage npages prot flags off dir = .ok (s', r)) :
    Mem.ProcsLe s'.procs s.procs := by
  obtain ⟨-, s₁, st, hroom, hcases⟩ := vmmapMap_eq_ok hs
  have h₁ : Mem.ProcsLe s₁.procs s.procs := by
    rcases makeRoom_cases hroom with ⟨-, rfl, -⟩ | ⟨-, -, b, -, ⟨-, rfl⟩ | hrem⟩
    · exact .refl _
    · exact .refl _
    · exact vmmapRemove_procs hrem
  rcases hcases with ⟨-, rfl, -⟩ | ⟨start, -, hplace⟩
  · exact h₁
  · rw [vmmapPlace_procs hplace]
    exact h₁

/-! ## `do_mmap` and `do_munmap` -/

/-- `do_mmap` that returns: nothing has happened, or an area has been mapped and the entries
of its range removed. -/
theorem doMmap_cases {addr len : ℕ} {fd : ℤ} {r : Except Errno ℕ}
    (hs : s.doMmap p addr len prot flags fd off = .ok (s', r)) :
    s' = s ∨ ∃ x m file s₁ a vma, s.procs p = some x ∧ x.pVmmap = some m ∧
      s.vmmapMap m file (addrToPn addr) (pagesOf len) prot flags off .hilo = .ok (s₁, .ok a) ∧
      s₁.areas a = some vma ∧
      (((userMemHigh < pnToAddr vma.vmaEnd ∨ pnToAddr vma.vmaStart < userMemLow) ∧ s' = s₁) ∨
        ∃ x₁ pd start, s₁.procs p = some x₁ ∧
          start = (if addr = 0 then pnToAddr vma.vmaStart else addr) ∧
          ptUnmapRange x₁.pPagedir start (start + pnToAddr (pagesOf len)) = .ok pd ∧
          s' = s₁.setProc p (some { x₁ with pPagedir := pd })) := by
  obtain ⟨x, hx, hs⟩ := bind_ok hs
  split at hs
  · cases hs
    exact .inl rfl
  obtain ⟨file, -, hs⟩ := bind_ok hs
  cases file with
  | error e =>
    cases hs
    exact .inl rfl
  | ok v =>
    obtain ⟨m, hm, hs⟩ := bind_follow hs
    obtain ⟨⟨s₁, r₁⟩, hmap, hs⟩ := bind_ok hs
    cases r₁ with
    | error e => cases hs
    | ok a =>
      obtain ⟨vma, hvma, hs⟩ := bind_follow hs
      refine .inr ⟨x, m, v, s₁, a, vma, (Mem.curproc_eq_ok.mp hx).1, hm, hmap,
        hvma, ?_⟩
      split at hs
      · next hout =>
        cases hs
        exact .inl ⟨hout, rfl⟩
      · obtain ⟨x₁, hx₁, hs⟩ := bind_follow hs
        obtain ⟨pd, hpd, hs⟩ := bind_ok hs
        cases hs
        exact .inr ⟨x₁, pd, _, hx₁, rfl, hpd, rfl⟩

theorem unmapPages_eq_ok {vlow vhigh : ℕ} (hs : s.unmapPages p vlow vhigh = .ok s') :
    ∃ x pd, s.procs p = some x ∧ ptUnmapRange x.pPagedir vlow vhigh = .ok pd ∧
      s' = s.setProc p (some { x with pPagedir := pd }) := by
  obtain ⟨x, hx, hs⟩ := bind_follow hs
  obtain ⟨pd, hpd, hs⟩ := bind_ok hs
  exact ⟨x, pd, hx, hpd, (pure_eq_ok.mp hs).symm⟩

/-- `do_munmap` that returns: nothing has happened, or a range has been removed from the map
and, as long as it is in user memory, from the page directory. -/
theorem doMunmap_cases {addr len : ℕ} {r : Except Errno Unit}
    (hs : s.doMunmap p addr len = .ok (s', r)) :
    s' = s ∨ ∃ x m s₁, s.procs p = some x ∧ x.pVmmap = some m ∧ PageAligned addr ∧
      s.vmmapRemove m (addrToPn addr) (pagesOf len) = .ok s₁ ∧
      ((¬ (userMemLow ≤ addr ∧ pnToAddr (addrToPn addr + pagesOf len) ≤ userMemHigh) ∧ s' = s₁) ∨
        s₁.unmapPages p addr (pnToAddr (addrToPn addr + pagesOf len)) = .ok s') := by
  obtain ⟨x, hx, hs⟩ := bind_ok hs
  split at hs
  · cases hs
    exact .inl rfl
  next hvalid =>
  simp only [Mem.MunmapInvalid, not_or, not_not] at hvalid
  obtain ⟨m, hm, hs⟩ := bind_follow hs
  obtain ⟨s₁, hrem, hs⟩ := bind_ok hs
  refine .inr ⟨x, m, s₁, (Mem.curproc_eq_ok.mp hx).1, hm, hvalid.2.2.2.2, hrem, ?_⟩
  dsimp only at hs
  split at hs
  · obtain ⟨s₂, hun, hs⟩ := bind_ok hs
    cases hs
    exact .inr hun
  · next hout =>
    cases hs
    exact .inl ⟨hout, rfl⟩

/-- Every call keeps the address spaces in order. -/
theorem spaceStep_spaces {e : SpaceEv} (h : Spaces L s) (hL : Spare L s)
    (hs : spaceStep s e = .ok s') : Spaces L s' := by
  cases e with
  | create p => exact procCreate_spaces h hs
  | map m file lopage npages prot flags off dir =>
    obtain ⟨⟨s₁, r⟩, hmap, hs⟩ := bind_ok hs
    cases hs
    exact vmmapMap_spaces h hL hmap
  | remove m lopage npages => exact vmmapRemove_spaces h hL hs
  | mmap p addr len prot flags fd off =>
    obtain ⟨⟨s₁, r⟩, hmmap, hs⟩ := bind_ok hs
    cases hs
    rcases doMmap_cases hmmap with
      rfl | ⟨_, _, _, s₂, _, _, -, -, hmap, -, ⟨-, rfl⟩ | ⟨x₁, pd, _, -, -, -, rfl⟩⟩
    · exact h
    · exact vmmapMap_spaces h hL hmap
    · exact (vmmapMap_spaces h hL hmap).setProc p _
  | munmap p addr len =>
    obtain ⟨⟨s₁, r⟩, hmunmap, hs⟩ := bind_ok hs
    cases hs
    rcases doMunmap_cases hmunmap with rfl | ⟨_, _, s₂, -, -, -, hrem, ⟨-, rfl⟩ | hun⟩
    · exact h
    · exact vmmapRemove_spaces h hL hrem
    · obtain ⟨x, pd, -, -, rfl⟩ := unmapPages_eq_ok hun
      exact (vmmapRemove_spaces h hL hrem).setProc p _
  | fork p c => exact doFork_spaces h hs
  | destroy m => exact vmmapDestroy_spaces h hL hs
  | fault p vaddr write => exact handlePagefault_spaces h hL hs

/-! ## The start -/

/-- The state after boot: files, whose objects have no pages yet, but no process. -/
structure Booted (s : Mem) : Prop where
  frames : ∀ f, s.frames f = none
  areas : ∀ a, s.areas a = none
  maps : ∀ m, s.maps m = none
  procs : ∀ p, s.procs p = none
  noFailure : ∀ k, s.NoFailure k
  fresh : ∀ (o : ℕ) ob, s.objs o = some ob → o < s.next
  objs : ∀ o ob, s.objs o = some ob → (∃ v vn, ob.mmoOps = .vnode v ∧ s.vnodes v = some vn) ∧
    0 < ob.mmoRefcount ∧ ob.mmoNrespages = 0 ∧ ob.mmoRespages = [] ∧ ob.mmoVmas = [] ∧
    ob.mmoShadowed = none
  vnodes : ∀ v vn, s.vnodes v = some vn →
    ∃ ob, s.objs vn.vnMmobj = some ob ∧ ob.mmoOps = .vnode v

omit [Layout] in
theorem booted_empty : Booted {} where
  frames _ := rfl
  areas _ := rfl
  maps _ := rfl
  procs _ := rfl
  noFailure _ := nofun
  fresh _ _ ho := by cases ho
  objs _ _ ho := by cases ho
  vnodes _ _ hv := by cases hv

theorem Booted.spaces (h : Booted s) (L : ObjId → Prop) : Spaces L s := by
  have hpage : ∀ f o n, ¬ s.PageAt f o n := by
    rintro f o n ⟨pf, hf, -⟩
    rw [h.frames f] at hf
    cases hf
  have harea : ∀ a vma, s.areas a ≠ some vma := by
    intro a vma ha
    rw [h.areas a] at ha
    cases ha
  have hmap : ∀ m mp, s.maps m ≠ some mp := by
    intro m mp hm
    rw [h.maps m] at hm
    cases hm
  have hslot : ∀ a o, s.heldBy a ≠ some o := by
    intro a o ha
    rw [Mem.heldBy, h.areas a] at ha
    cases ha
  have hbelow : ∀ a o, s.below a ≠ some o := by
    intro a o ha
    obtain ⟨ob, hob, hsh⟩ := Option.bind_eq_some_iff.mp ha
    rw [(h.objs a ob hob).2.2.2.2.2] at hsh
    cases hsh
  refine ⟨⟨fun a vma ha ↦ (harea a vma ha).elim, ⟨?_, ?_, ?_⟩, ?_,
    fun a vma ha ↦ (harea a vma ha).elim, h.vnodes⟩,
    ⟨fun a vma ha ↦ (harea a vma ha).elim, fun m mp hm ↦ (hmap m mp hm).elim,
      fun m mp hm ↦ (hmap m mp hm).elim⟩, h.noFailure⟩
  · refine .of_at (fun o ob ho ↦ ?_) ⟨fun f o n hf ↦ (hpage f o n hf).elim,
      fun f o n hf ↦ (hpage f o n hf).elim, fun f o n hf ↦ (hpage f o n hf).elim,
      fun f g o n hf ↦ (hpage f o n hf).elim⟩ fun a o ha ↦ (hslot a o ha).elim
    obtain ⟨⟨v, vn, hv, hvn⟩, hpos, hres, hlist, -, hsh⟩ := h.objs o ob ho
    have hnone : ∀ u, ob.mmoShadowed ≠ some u := fun u ↦ by simp [hsh]
    refine ⟨h.fresh o ob ho, fun u hu ↦ (hnone u hu).elim, ?_, fun u hu ↦ (hnone u hu).elim,
      ⟨0, 0, .eq_zero fun a ↦ hslot a o, .eq_zero fun a ↦ hbelow a o, ?_⟩, ?_, ?_, ?_, ?_⟩
    · simp [hv, hsh]
    · rw [MmObj.Counts, hv, hres]
      exact hpos
    · rw [hlist]
      exact List.nodup_nil
    · rw [hres, hlist]
      rfl
    · intro f
      simp [hlist, hpage]
    · intro v' hv'
      cases hv'.symm.trans hv
      exact ⟨vn, hvn⟩
  · refine ⟨?_, ?_, fun m mp p hm ↦ (hmap m mp hm).elim⟩
    · intro o ob ho
      rw [(h.objs o ob ho).2.2.2.2.1]
      exact List.nodup_nil
    · intro o ob a ho ha
      rw [(h.objs o ob ho).2.2.2.2.1] at ha
      cases ha
  · refine ⟨?_, ?_, ?_⟩
    · intro f pf hf
      cases (h.frames f).symm.trans hf
    · intro f pf hf
      cases (h.frames f).symm.trans hf
    · intro f pf ob v vn hf
      cases (h.frames f).symm.trans hf
  · intro u ub hu
    obtain ⟨⟨v, -, hv, -⟩, -⟩ := h.objs u ub hu
    exact .inr (.inl ⟨v, hv⟩)

theorem Booted.spaces_of_run {es : List SpaceEv} (h : Booted s)
    (hr : Run (ofStep spaceStep) s es s') : Spaces (fun _ ↦ True) s' :=
  hr.invariant (fun _ _ _ hs ↦ spaceStep_spaces hs fun _ _ _ _ _ ↦ trivial) (h.spaces _)

/-! ## Anonymous objects that no page was ever read into -/

namespace Mem

/-- The object is anonymous and has no resident page. -/
def emptyAnon (s : Mem) (o : ObjId) : Bool :=
  (s.objs o).any fun ob ↦ ob.mmoOps = .anon ∧ ob.mmoRespages = []

/-- An area shows the object, or a shadow object is above it. -/
def referred (s : Mem) (o : ObjId) : Bool :=
  (List.range s.next).any fun a ↦ s.heldBy a = some o ∨ s.below a = some o

/-- The call takes the last reference of an anonymous object without resident pages. -/
def StrandsEmpty (s : Mem) (e : SpaceEv) : Prop :=
  match spaceStep s e with
  | .ok s' => ∃ o ∈ List.range s.next, s.emptyAnon o ∧ s.referred o ∧ ¬ s'.referred o
  | .error _ => False

instance (s : Mem) (e : SpaceEv) : Decidable (s.StrandsEmpty e) := by
  unfold StrandsEmpty
  split <;> infer_instance

omit [Layout] in
theorem emptyAnon_iff {s : Mem} {o : ObjId} : s.emptyAnon o = true ↔
    ∃ ob, s.objs o = some ob ∧ ob.mmoOps = .anon ∧ ob.mmoRespages = [] := by
  simp [emptyAnon, Option.any_eq_true]

omit [Layout] in
theorem needed_of_referred {s : Mem} {o : ObjId} (h : s.referred o = true) :
    Objs.Needed s s.heldBy o := by
  obtain ⟨a, -, ha⟩ := List.any_eq_true.mp h
  exact ⟨a, of_decide_eq_true ha⟩

end Mem

theorem Held.referred {o : ObjId} (h : Held L s) (hn : Objs.Needed s s.heldBy o) :
    s.referred o = true := by
  obtain ⟨a, ha⟩ := hn
  refine List.any_eq_true.mpr ⟨a, List.mem_range.mpr ?_, decide_eq_true ha⟩
  rcases ha with ha | ha
  · obtain ⟨vma, hvma, -⟩ := Option.bind_eq_some_iff.mp ha
    exact h.fresh a vma hvma
  · obtain ⟨ob, hob, -⟩ := Option.bind_eq_some_iff.mp ha
    exact h.store.objs.freshObj a ob hob

/-- A call that strands no object without pages strands no object at all. -/
theorem spaceStep_reclaims {e : SpaceEv} (h : Spaces (fun _ ↦ False) s)
    (he : ¬ s.StrandsEmpty e) (hs : spaceStep s e = .ok s') : Spaces (fun _ ↦ False) s' := by
  have hL : Spare (fun o ↦ s.emptyAnon o = true) s :=
    fun u ub hu hops hres ↦ Mem.emptyAnon_iff.mpr ⟨ub, hu, hops, hres⟩
  obtain ⟨hh, ht, hf⟩ := spaceStep_spaces ⟨h.held.mono fun _ ↦ False.elim, h.tidy, h.noFailure⟩
    hL hs
  refine ⟨⟨hh.fresh, hh.store, ?_, hh.area, hh.vnodes⟩, ht, hf⟩
  intro u ub' hub'
  rcases hh.swept u ub' hub' with hn | hv | ⟨hanon, hempty⟩
  · exact .inl hn
  · exact .inr (.inl hv)
  · -- the object had no pages before the call, so someone referred to it then
    left
    obtain ⟨ub, hub, hops, -⟩ := Mem.emptyAnon_iff.mp hempty
    have hn : Objs.Needed s s.heldBy u := by
      rcases h.held.swept u ub hub with hn | ⟨v, hv⟩ | ⟨-, hfalse⟩
      · exact hn
      · cases hops.symm.trans hv
      · exact hfalse.elim
    apply Mem.needed_of_referred
    by_contra hnot
    apply he
    rw [Mem.StrandsEmpty, hs]
    exact ⟨u, List.mem_range.mpr (h.held.store.objs.freshObj u ub hub), hempty,
      h.held.referred hn, hnot⟩

end

/-! ## An area that is never touched -/

/-- A process maps a private anonymous page, writes to it and removes it. -/
def touched : List SpaceEv :=
  [.create 1, .map 0 none 1024 1 3 2 0 .hilo, .fault 1 (pnToAddr 1024) true, .remove 0 1024 1]

end CS402.Mm

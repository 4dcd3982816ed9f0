import CS402.Proc.Life
import CS402.Vm.Reclaim
import Mathlib.Data.List.Count

/-!
# Fork without resources

The whole of `do_fork`: the process that `proc_create` makes, with its pid and its place
among the children of its parent, the address space (`Mem.doFork`), and the thread that
`kthread_clone` makes.  `Supply` says what the allocators answer that memory management does
not know: those of processes and threads, and the pages for the page directory and the
kernel stack.

`do_fork` is to fail without a trace if something that it needs cannot be had.  It tests none
of the results, so that a missing resource is a crash, or, where the pids have run out, a
process with the pid `-1`.  `ForkMisses` lists what may be missing, and `ForkRight` says what
is owed.

A crash leaves no state to look at, so the order of the tests that can fail does not matter:
those of the page directory and the thread come after all of `Mem.doFork` here.
-/

set_option linter.unusedSectionVars false

namespace CS402.Proc

open CS402.Lib

/-! ## Pids -/

variable {n : ℕ} {used : List ℤ} {next pid r : ℤ}

/-- The search of `_proc_getid` comes through all pids: from the one it starts with, the
`j`-th after it is `(next + j) % n`. -/
theorem exists_add_emod (next : ℤ) {i : ℤ} (hi : 0 ≤ i ∧ i < n) :
    ∃ j : ℕ, j < n ∧ (next + j) % n = i := by
  have hn : (n : ℤ) ≠ 0 := by omega
  have hlt := Int.emod_lt_of_pos (i - next) (show (0 : ℤ) < n by omega)
  have hge := Int.emod_nonneg (i - next) hn
  refine ⟨((i - next) % n).toNat, by omega, ?_⟩
  rw [Int.toNat_of_nonneg hge, Int.add_emod, Int.emod_emod_of_dvd _ dvd_rfl, ← Int.add_emod,
    add_sub_cancel, Int.emod_eq_of_lt hi.1 hi.2]

/-- What `_proc_getid` returns: a pid that is not in use, or `-1` if there is none. -/
theorem procGetidFrom_cases (hnext : 0 ≤ next ∧ next < n) : ∀ {fuel j : ℕ}, j < n →
    (∀ i < j, (next + (i : ℕ)) % n ∈ used) →
    procGetidFrom n used next fuel ((next + j) % n) = .ok r →
    (r = -1 ∧ ∀ i : ℤ, 0 ≤ i ∧ i < n → i ∈ used) ∨ (r ∉ used ∧ 0 ≤ r ∧ r < n) := by
  have hn : (0 : ℤ) < n := by omega
  intro fuel
  induction fuel with
  | zero => exact fun _ _ h ↦ by cases h
  | succ fuel ih =>
    intro j hj hused h
    unfold procGetidFrom at h
    split at h
    · next hin =>
      have hall : ∀ i < j + 1, (next + (i : ℕ)) % n ∈ used := by
        intro i hi
        rcases Nat.lt_succ_iff_lt_or_eq.mp hi with hi | rfl
        · exact hused i hi
        · exact hin
      have hstep : ((next + j) % n + 1) % n = (next + (j + 1 : ℕ)) % n := by
        rw [Int.emod_add_emod]
        push_cast
        rw [add_assoc]
      rw [hstep] at h
      split at h
      · -- back at the start: all pids have been seen
        next hback =>
          cases h
          refine .inl ⟨rfl, fun i hi ↦ ?_⟩
          have hdvd : (n : ℤ) ∣ (j + 1 : ℕ) := by
            have hmod : (next + (j + 1 : ℕ)) % n = next % n := by
              rw [hback, Int.emod_eq_of_lt hnext.1 hnext.2]
            have hsub := Int.emod_eq_emod_iff_emod_sub_eq_zero.mp hmod
            rw [add_sub_cancel_left] at hsub
            exact Int.dvd_of_emod_eq_zero hsub
          have hlast : j + 1 = n := by
            have := Int.le_of_dvd (by omega) hdvd
            omega
          obtain ⟨j', hj', rfl⟩ := exists_add_emod next hi
          exact hall j' (by omega)
      · next hback =>
        have hj' : j + 1 < n := by
          by_contra hge
          have hlast : j + 1 = n := by omega
          rw [hlast, Int.add_emod_right, Int.emod_eq_of_lt hnext.1 hnext.2] at hback
          exact hback rfl
        exact ih hj' hall h
    · next hfree =>
      cases h
      exact .inr ⟨hfree, Int.emod_nonneg _ hn.ne', Int.emod_lt_of_pos _ hn⟩

theorem procGetid_cases {next' : ℤ} (hnext : 0 ≤ next ∧ next < n)
    (h : procGetid n used next = .ok (pid, next')) :
    (pid = -1 ∧ ∀ i : ℤ, 0 ≤ i ∧ i < n → i ∈ used) ∨ (pid ∉ used ∧ 0 ≤ pid ∧ pid < n) := by
  obtain ⟨r, hr, h⟩ := bind_ok h
  cases h
  have hstart : (next + (0 : ℕ)) % n = next := by
    rw [Nat.cast_zero, add_zero, Int.emod_eq_of_lt hnext.1 hnext.2]
  have hr' : procGetidFrom n used next (n + 1) ((next + (0 : ℕ)) % n) = .ok pid := by rwa [hstart]
  exact procGetidFrom_cases hnext (by omega) (fun i hi ↦ absurd hi (Nat.not_lt_zero i)) hr'

end CS402.Proc

namespace CS402.Mm

open CS402.Lib Function

namespace Mem

/-! ## Requests -/

/-- The next `n` requests to an allocator succeed. -/
def GrantsAll (s : Mem) (k : Allocator) (n : ℕ) : Prop := ∀ b ∈ (s.oracle k).take n, b = true

variable {s s' s₁ : Mem} {k : Allocator} {m m' : MapId} {mp : Vmmap} {a : AreaId} {n : ℕ}
  {l : List AreaId}

theorem grantsAll_zero : s.GrantsAll k 0 := fun b hb ↦ by simp at hb

theorem GrantsAll.congr (h : s'.oracle k = s.oracle k) : s'.GrantsAll k n ↔ s.GrantsAll k n := by
  unfold GrantsAll
  rw [h]

theorem grantsAll_succ : s.GrantsAll k (n + 1) ↔ s.grants k = true ∧ (s.draw k).GrantsAll k n := by
  unfold GrantsAll grants
  rw [draw_oracle, update_self]
  cases hk : s.oracle k with
  | nil => simp
  | cons b bs => simp

section

variable [Layout]

/-- `do_fork` puts shadow objects over the object of the area. -/
def IsPrivate (s : Mem) (a : AreaId) : Bool :=
  (s.areas a).any fun vma ↦ vma.vmaFlags.has mapPrivate

theorem isPrivate_congr (h : (s'.areas a).map VmArea.vmaFlags = (s.areas a).map VmArea.vmaFlags) :
    s'.IsPrivate a = s.IsPrivate a := by
  have hany : ∀ x : Option VmArea, x.any (fun vma ↦ vma.vmaFlags.has mapPrivate) =
      (x.map VmArea.vmaFlags).any fun f ↦ f.has mapPrivate := by
    intro x
    cases x <;> rfl
  unfold IsPrivate
  rw [hany, hany, h]

/-- The loop of `vmmap_clone` needs an area for each area of the map. -/
theorem cloneLoop_granted : ∀ {l : List AreaId} {s s' : Mem},
    cloneLoop m l s = .ok (s', true) →
    s.GrantsAll .vmarea l.length ∧ s'.oracle .shadow = s.oracle .shadow ∧
      (∀ b < s.next, s'.areas b = s.areas b) ∧ ∀ m₁ ≠ m, s'.maps m₁ = s.maps m₁ := by
  intro l
  induction l with
  | nil =>
    intro s s' h
    cases h
    exact ⟨grantsAll_zero, rfl, fun _ _ ↦ rfl, fun _ _ ↦ rfl⟩
  | cons a l ih =>
    intro s s' h
    unfold cloneLoop vmareaAlloc at h
    obtain ⟨vma, -, h⟩ := bind_ok h
    cases hg : s.grants .vmarea with
    | false =>
      rw [hg] at h
      cases h
    | true =>
      rw [hg] at h
      obtain ⟨o, -, h⟩ := bind_ok h
      obtain ⟨s₁, href, h⟩ := bind_ok h
      obtain ⟨s₂, hins, h⟩ := bind_ok h
      obtain ⟨ob, -, -, rfl⟩ := ref_eq_ok.mp href
      obtain ⟨mp, vma', -, -, -, -, -, rfl⟩ := vmmapInsert_eq_ok.mp hins
      obtain ⟨hall, hsh, hareas, hmaps⟩ := ih h
      refine ⟨grantsAll_succ.mpr ⟨hg, hall⟩, hsh, ?_, ?_⟩
      · intro b hb
        have hne : b ≠ s.next := hb.ne
        rw [hareas b (hb.trans (Nat.lt_succ_self _))]
        simp [hne]
      · intro m₁ hm₁
        rw [hmaps m₁ hm₁]
        simp [hm₁]

theorem vmmapClone_granted (hlt : m < s.next) (hm : s.maps m = some mp)
    (h : s.vmmapClone m = .ok (s', some m')) :
    s.grants .vmmap = true ∧ s.GrantsAll .vmarea mp.vmmList.length ∧
      s'.oracle .shadow = s.oracle .shadow ∧ s'.maps m = some mp ∧
      ∀ b < s.next, s'.areas b = s.areas b := by
  unfold vmmapClone vmmapCreate at h
  rw [hm, follow_bind] at h
  cases hg : s.grants .vmmap with
  | false =>
    rw [hg] at h
    cases h
  | true =>
    rw [hg] at h
    obtain ⟨⟨s₁, ok⟩, hloop, h⟩ := bind_ok h
    cases ok with
    | false => cases h
    | true =>
      cases h
      obtain ⟨hall, hsh, hareas, hmaps⟩ := cloneLoop_granted hloop
      have hne : m ≠ s.next := hlt.ne
      refine ⟨rfl, hall, hsh, ?_, fun b hb ↦ hareas b (hb.trans (Nat.lt_succ_self _))⟩
      rw [hmaps m hne, setMap_maps, update_of_ne hne]
      exact hm

/-- A turn of the loop of `do_fork` needs two shadow objects for a private area. -/
theorem forkArea_granted (h : forkArea m s a = .ok s') :
    (if s.IsPrivate a then s.GrantsAll .shadow 2 ∧ s'.oracle .shadow = (s.oracle .shadow).drop 2
      else s' = s) ∧
    ∀ b, (s'.areas b).map VmArea.vmaFlags = (s.areas b).map VmArea.vmaFlags := by
  obtain ⟨vma, ha, h⟩ := bind_follow h
  obtain ⟨r, -, h⟩ := bind_ok h
  have hpriv : s.IsPrivate a = vma.vmaFlags.has mapPrivate := by
    rw [IsPrivate, ha]
    rfl
  rw [hpriv]
  split at h
  · next hyes =>
    obtain ⟨o, -, h⟩ := bind_ok h
    obtain ⟨bottom, -, h⟩ := bind_ok h
    obtain ⟨⟨s₁, csobj⟩, h₁, h⟩ := bind_ok h
    obtain ⟨b, -, h⟩ := bind_ok h
    obtain ⟨s₂, h₂, h⟩ := bind_ok h
    obtain ⟨⟨s₃, psobj⟩, h₃, h⟩ := bind_ok h
    have hs' := pure_eq_ok.mp h
    obtain ⟨hg₁, -, _, -, rfl⟩ := shadowOver_cases h₁
    obtain ⟨ob, -, rfl⟩ := linkVma_eq_ok.mp h₂
    obtain ⟨hg₃, -, _, -, rfl⟩ := shadowOver_cases h₃
    rw [if_pos hyes, ← hs']
    refine ⟨⟨grantsAll_succ.mpr ⟨hg₁, grantsAll_succ.mpr ⟨hg₃, grantsAll_zero⟩⟩, ?_⟩, ?_⟩
    · change ((s.oracle .shadow).tail).tail = _
      rw [← List.drop_one, ← List.drop_one, List.drop_drop]
    · intro c
      simp only [setVmaObj, setArea_areas, setObj_areas, bump_areas, draw_areas, update_apply]
      split <;> split <;> simp_all [Option.map_map, Function.comp_def]
  · next hno =>
    cases h
    rw [if_neg hno]
    exact ⟨rfl, fun _ ↦ rfl⟩

/-- The loop of `do_fork` needs two shadow objects for each private area. -/
theorem forkLoop_granted : ∀ {l : List AreaId} {s s' : Mem}, l.foldlM (forkArea m) s = .ok s' →
    s.GrantsAll .shadow (2 * l.countP s.IsPrivate) := by
  intro l
  induction l with
  | nil => exact fun _ ↦ grantsAll_zero
  | cons a l ih =>
    intro s s' h
    obtain ⟨s₁, h₁, h⟩ := bind_ok h
    obtain ⟨hturn, hflags⟩ := forkArea_granted h₁
    have hcount : l.countP s₁.IsPrivate = l.countP s.IsPrivate :=
      List.countP_congr fun b _ ↦ by rw [isPrivate_congr (hflags b)]
    have hrest := ih h
    rw [hcount] at hrest
    rw [List.countP_cons]
    split at hturn
    · next hyes =>
      rw [if_pos hyes, Nat.mul_succ]
      intro b hb
      rw [Nat.add_comm, List.take_add, List.mem_append] at hb
      rcases hb with hb | hb
      · exact hturn.1 b hb
      · exact hrest b (by rwa [hturn.2])
    · next hno =>
      rw [if_neg hno]
      rwa [hturn] at hrest

/-- What `do_fork` needs from memory management: two maps, an area for each area of the
parent, and two shadow objects for each private one. -/
def Affords (s : Mem) (mp : Vmmap) : Prop :=
  s.GrantsAll .vmmap 2 ∧ s.GrantsAll .vmarea mp.vmmList.length ∧
    s.GrantsAll .shadow (2 * mp.vmmList.countP s.IsPrivate)

theorem doFork_affords {p c : Pid} {proc : Proc} (ht : Tidy s) (hp : s.procs p = some proc)
    (hpm : proc.pVmmap = some m) (hm : s.maps m = some mp) (h : s.doFork p c = .ok s') :
    s.Affords mp := by
  have hfirst : s.grants .vmmap = true := by
    obtain ⟨_, -, h⟩ := bind_ok h
    obtain ⟨_, -, h⟩ := bind_ok h
    obtain ⟨_, hr, -⟩ := bind_follow h
    have hsome : s.vmmapCreate.2 = some _ := hr
    by_contra hg
    rw [vmmapCreate, if_neg hg] at hsome
    cases hsome
  obtain ⟨proc', m₁, s₁, m', mp₁, s₂, -, -, -, -, -, hp', -, hpm', hclone, hmp₁, hloop, -⟩ :=
    doFork_eq_ok h
  cases hp.symm.trans hp'
  cases hpm.symm.trans hpm'
  have hlt := ht.freshMap m mp hm
  have hcreate : s.vmmapCreate.1 = (s.draw .vmmap).bump.setMap s.next (some {}) := by
    rw [vmmapCreate, if_pos hfirst]
  rw [hcreate] at hclone
  have hm₀ : ((s.draw .vmmap).bump.setMap s.next (some {})).maps m = some mp := by
    rw [setMap_maps, update_of_ne hlt.ne]
    exact hm
  obtain ⟨hsecond, hareas, hsh, hm₁, hsame⟩ :=
    vmmapClone_granted (hlt.trans (Nat.lt_succ_self _)) hm₀ hclone
  cases hmp₁.symm.trans hm₁
  refine ⟨grantsAll_succ.mpr ⟨hfirst, grantsAll_succ.mpr ⟨hsecond, grantsAll_zero⟩⟩, hareas, ?_⟩
  have hcount : mp.vmmList.countP s₁.IsPrivate = mp.vmmList.countP s.IsPrivate := by
    refine List.countP_congr fun b hb ↦ ?_
    obtain ⟨vb, hvb, -⟩ := (ht.map m mp hm).live b hb
    have hb' : s₁.areas b = s.areas b :=
      hsame b ((ht.freshArea b vb hvb).trans (Nat.lt_succ_self _))
    rw [IsPrivate, IsPrivate, hb']
  have hloop' := forkLoop_granted hloop
  rw [hcount] at hloop'
  exact (GrantsAll.congr hsh).mp hloop'

end

end Mem

/-! ## The whole of `do_fork` -/

/-- What the allocators answer that memory management does not know. -/
structure Supply where
  /-- `slab_obj_alloc(proc_allocator)` in `proc_create`. -/
  proc : Bool := true
  /-- `page_alloc_n` in `pt_create_pagedir`. -/
  pagedir : Bool := true
  /-- `slab_obj_alloc(kthread_allocator)` in `kthread_clone`. -/
  kthread : Bool := true
  /-- `page_alloc_n` in `alloc_stack`. -/
  stack : Bool := true

/-- Processes and threads, and their memory. -/
structure System where
  kernel : Proc.Kernel
  mem : Mem

namespace System

/-- `kthread_clone` of the thread `t`, and what `do_fork` does with the copy: it is a thread of
the process `c`, and runnable.  The copy and its stack are written to without a test. -/
def kthreadClone (g : Supply) (k : Proc.Kernel) (t : Proc.Tid) (c : Pid) :
    Except Fault Proc.Kernel := do
  demand .assertion ((k.sched.kthread t).ktState = .run)
  demand .pointer (g.kthread = true)
  demand .pointer (g.stack = true)
  let new := k.nthread
  let k := { k with nthread := k.nthread + 1 }
  let k := k.withSched (k.sched.modify new fun _ ↦ { k.sched.kthread t with ktProc := c })
  let k := k.modifyProc c fun b ↦ { b with pThreads := b.pThreads ++ [new] }
  let sc ← k.sched.schedMakeRunnable new
  return (k.withSched sc).setPc new .suspended

variable [Layout]

/-- `do_fork` with its result; `n` is `PROC_MAX_COUNT`. -/
def doFork (n : ℕ) (g : Supply) (x : System) : Except Fault (System × ℤ) := do
  let t ← follow .pointer x.kernel.sched.curthr
  let cur := x.kernel.procOf t
  demand .assertion (x.kernel.pState cur = .running)
  demand .assertion (g.proc = true)
  let k ← x.kernel.procCreate n cur
  let c := x.kernel.nproc
  let mem ← x.mem.doFork cur c
  demand .assertion (g.pagedir = true)
  let k ← kthreadClone g k t c
  return (⟨k, mem⟩, (k.proc c).pPid)

/-- The pids in use. -/
def pids (x : System) : List ℤ := x.kernel.procList.map fun p ↦ (x.kernel.proc p).pPid

/-- The process `p` is running and has the map `m`. -/
structure Parent (x : System) (p : Pid) (m : MapId) (mp : Vmmap) : Prop where
  cur : ∃ t, x.kernel.sched.curthr = some t ∧ x.kernel.procOf t = p
  proc : ∃ proc, x.mem.procs p = some proc ∧ proc.pVmmap = some m
  map : x.mem.maps m = some mp

/-- Something that `do_fork` needs is missing. -/
inductive ForkMisses (n : ℕ) (g : Supply) (x : System) (mp : Vmmap) : Prop where
  | pid (h : ∀ i : ℤ, 0 ≤ i ∧ i < n → i ∈ x.pids)
  | proc (h : g.proc = false)
  | pagedir (h : g.pagedir = false)
  | kthread (h : g.kthread = false)
  | stack (h : g.stack = false)
  | memory (h : ¬ x.mem.Affords mp)

/-- The call has failed and left no trace. -/
def ForkUndone (x : System) (p : Pid) (m : MapId) (mp : Vmmap)
    (out : Except Fault (System × ℤ)) : Prop :=
  ∃ x' r, out = .ok (x', r) ∧ r < 0 ∧ x'.kernel.procList = x.kernel.procList ∧
    (x'.kernel.proc p).pChildren = (x.kernel.proc p).pChildren ∧
    x'.mem.maps m = x.mem.maps m ∧ (∀ a ∈ mp.vmmList, x'.mem.areas a = x.mem.areas a) ∧
    x'.mem.objs = x.mem.objs ∧
    (x'.mem.procs p).map Proc.pPagedir = (x.mem.procs p).map Proc.pPagedir

/-- What is owed: a fork that misses something leaves no trace, and no process ever has the pid
`-1`. -/
structure ForkRight (n : ℕ) (g : Supply) (x : System) (p : Pid) (m : MapId) (mp : Vmmap) :
    Prop where
  undone : ForkMisses n g x mp → x.ForkUndone p m mp (x.doFork n g)
  noPid : ∀ x' r, x.doFork n g = .ok (x', r) → -1 ∉ x'.pids

variable {n : ℕ} {g : Supply} {x x' : System} {p c : Pid} {m : MapId} {mp : Vmmap} {r : ℤ}
  {t : Proc.Tid} {k k' : Proc.Kernel}

theorem kthreadClone_eq_ok (h : kthreadClone g k t c = .ok k') :
    g.kthread = true ∧ g.stack = true ∧ k'.procList = k.procList ∧
      ∀ q, (k'.proc q).pPid = (k.proc q).pPid := by
  obtain ⟨_, -, h⟩ := bind_ok h
  obtain ⟨hk, h⟩ := bind_demand h
  obtain ⟨hst, h⟩ := bind_demand h
  obtain ⟨sc, -, h⟩ := bind_ok h
  have hk' := pure_eq_ok.mp h
  refine ⟨hk, hst, by rw [← hk']; rfl, fun q ↦ ?_⟩
  rw [← hk']
  rcases eq_or_ne q c with rfl | hne
  · simp
  · simp [hne]

/-- What a fork that returns has had, and the process that it has made. -/
theorem doFork_eq_ok (h : x.doFork n g = .ok (x', r)) :
    g.proc = true ∧ g.pagedir = true ∧ g.kthread = true ∧ g.stack = true ∧
    (∃ t, x.kernel.sched.curthr = some t ∧
      x.mem.doFork (x.kernel.procOf t) x.kernel.nproc = .ok x'.mem) ∧
    ∃ pid next, Proc.procGetid n x.pids x.kernel.nextPid = .ok (pid, next) ∧
      x'.kernel.procList = x.kernel.procList ++ [x.kernel.nproc] ∧
      ∀ q, (x'.kernel.proc q).pPid =
        if q = x.kernel.nproc then pid else (x.kernel.proc q).pPid := by
  obtain ⟨t, ht, h⟩ := bind_follow h
  obtain ⟨_, -, h⟩ := bind_ok h
  obtain ⟨hproc, h⟩ := bind_demand h
  obtain ⟨k, hcreate, h⟩ := bind_ok h
  obtain ⟨mem, hfork, h⟩ := bind_ok h
  obtain ⟨hpd, h⟩ := bind_demand h
  obtain ⟨k', hclone, h⟩ := bind_ok h
  cases h
  obtain ⟨hkt, hst, hlist, hpid⟩ := kthreadClone_eq_ok hclone
  obtain ⟨⟨pid, next⟩, hget, hcreate⟩ := bind_ok hcreate
  obtain ⟨_, -, hcreate⟩ := bind_ok hcreate
  obtain ⟨_, -, hcreate⟩ := bind_ok hcreate
  cases hcreate
  refine ⟨hproc, hpd, hkt, hst,
    ⟨t, ht, hfork⟩, pid, next, hget, hlist, fun q ↦ ?_⟩
  refine (hpid q).trans ?_
  unfold Proc.Kernel.addProc
  simp only [Proc.Kernel.modifyProc, Proc.Kernel.setPState, Proc.Kernel.withSched, update_apply]
  split <;> split <;> simp_all

/-- **Fork without resources.**  `do_fork` keeps its promise only if nothing that it needs is
missing: then no process has the pid `-1`, and otherwise it crashes or makes one. -/
theorem fork_right_iff (ht : Tidy x.mem) (hpar : x.Parent p m mp)
    (hnext : 0 ≤ x.kernel.nextPid ∧ x.kernel.nextPid < n) (hpids : -1 ∉ x.pids) :
    ForkRight n g x p m mp ↔ ¬ ForkMisses n g x mp := by
  obtain ⟨⟨t, ht', hcur⟩, ⟨proc, hproc, hpm⟩, hm⟩ := hpar
  constructor
  · intro hright hmiss
    obtain ⟨x', r, hout, -⟩ := hright.undone hmiss
    obtain ⟨hg₁, hg₂, hg₃, hg₄, ⟨t', ht'', hfork⟩, pid, next, hget, hlist, hpid⟩ :=
      doFork_eq_ok hout
    cases ht'.symm.trans ht''
    rw [hcur] at hfork
    cases hmiss with
    | proc h => exact absurd (hg₁.symm.trans h) (by decide)
    | pagedir h => exact absurd (hg₂.symm.trans h) (by decide)
    | kthread h => exact absurd (hg₃.symm.trans h) (by decide)
    | stack h => exact absurd (hg₄.symm.trans h) (by decide)
    | memory h => exact h (Mem.doFork_affords ht hproc hpm hm hfork)
    | pid h =>
      -- the new process is on the list, with the pid that was left
      rcases Proc.procGetid_cases hnext hget with ⟨rfl, -⟩ | ⟨hfree, hrange⟩
      · refine hright.noPid x' r hout ?_
        unfold pids
        rw [hlist]
        refine List.mem_map.mpr ⟨x.kernel.nproc, by simp, ?_⟩
        rw [hpid, if_pos rfl]
      · exact hfree (h pid hrange)
  · intro hmiss
    refine ⟨fun h ↦ absurd h hmiss, fun x' r hout ↦ ?_⟩
    obtain ⟨-, -, -, -, -, pid, next, hget, hlist, hpid⟩ := doFork_eq_ok hout
    rcases Proc.procGetid_cases hnext hget with ⟨-, hall⟩ | ⟨-, hrange⟩
    · exact absurd (.pid hall) hmiss
    intro hin
    obtain ⟨q, hq, hq'⟩ := List.mem_map.mp hin
    rw [hpid] at hq'
    split at hq'
    · omega
    · next hne =>
      rw [hlist, List.mem_append, List.mem_singleton] at hq
      exact hpids (List.mem_map.mpr ⟨q, hq.resolve_right hne, hq'⟩)

/-! ## The idle process after `init` has been made -/

/-- The processes with the pids `0` and `1`, where the search for the next pid starts again
with `0`. -/
def idleAndInit : Proc.Kernel := Proc.Kernel.boot.addProc 0 1 0

omit [Layout] in
theorem exists_idle : ∃ x mp, @Tidy .stock x.mem ∧ x.Parent 0 0 mp ∧ x.kernel = idleAndInit ∧
    @Mem.Affords .stock x.mem mp ∧
    (∃ x', @doFork .stock 2 {} x = .ok (x', -1) ∧ -1 ∈ x'.pids) ∧
    @doFork .stock 3 { kthread := false } x = .error .pointer := by
  obtain ⟨s, hs, htest⟩ := exists_of_check (f := @spaceStep .stock) (s := {})
    (l := [.create 0, .map 0 none 1024 1 3 2 0 .hilo])
    (p := fun s ↦ (s.maps 0).isSome && (s.procs 0).any (fun y ↦ y.pVmmap = some 0) &&
      returns (fun y ↦ y.2 = -1 ∧ -1 ∈ y.1.pids) (@doFork .stock 2 {} ⟨idleAndInit, s⟩) &&
      crashes .pointer (@doFork .stock 3 { kthread := false } ⟨idleAndInit, s⟩))
    (by decide +kernel)
  have hspaces := @Booted.spaces_of_run .stock _ _ _ booted_empty (Run.of_exec hs)
  have hno := @Spaces.noFailure .stock _ _ hspaces
  have hall : ∀ k n, s.GrantsAll k n := fun k n b hb ↦ hno k b (List.mem_of_mem_take hb)
  simp only [Bool.and_eq_true, Option.isSome_iff_exists, Option.any_eq_true, returns_eq_true,
    Prod.exists, decide_eq_true_eq, crashes_eq_true] at htest
  obtain ⟨⟨⟨⟨mp, hm⟩, y, hy, hym⟩, x', r, hout, rfl, hin⟩, hcrash⟩ := htest
  exact ⟨⟨idleAndInit, s⟩, mp, @Spaces.tidy .stock _ _ hspaces,
    ⟨⟨0, rfl, rfl⟩, ⟨y, hy, hym⟩, hm⟩, rfl, ⟨hall _ _, hall _ _, hall _ _⟩, ⟨x', hout, hin⟩, hcrash⟩

omit [Layout] in
theorem pids_idleAndInit (h : x.kernel = idleAndInit) : x.pids = [0, 1] := by
  unfold pids
  rw [h]
  rfl

omit [Layout] in
/-- With all pids in use a process with the pid `-1` is made, and without memory for a thread
the call crashes. -/
theorem fork_not_undone : ∃ x mp, @Tidy .stock x.mem ∧ x.Parent 0 0 mp ∧ -1 ∉ x.pids ∧
    @ForkMisses .stock 2 {} x mp ∧ (∃ x', @doFork .stock 2 {} x = .ok (x', -1) ∧ -1 ∈ x'.pids) ∧
    @ForkMisses .stock 3 { kthread := false } x mp ∧
    @doFork .stock 3 { kthread := false } x = .error .pointer := by
  obtain ⟨x, mp, ht, hpar, hk, -, hout, hcrash⟩ := exists_idle
  have hpids := pids_idleAndInit hk
  refine ⟨x, mp, ht, hpar, by rw [hpids]; decide, @ForkMisses.pid .stock _ _ _ _ fun i hi ↦ ?_, hout,
    @ForkMisses.kthread .stock _ _ _ _ rfl, hcrash⟩
  rw [hpids]
  simp only [List.mem_cons, List.not_mem_nil, or_false]
  omega

omit [Layout] in
/-- With a third pid and all memory nothing is missing. -/
theorem fork_right_idle : ∃ x mp, x.Parent 0 0 mp ∧ @ForkRight .stock 3 {} x 0 0 mp := by
  obtain ⟨x, mp, ht, hpar, hk, hmem, -⟩ := exists_idle
  have hpids := pids_idleAndInit hk
  have hnext : x.kernel.nextPid = 0 := by rw [hk]; rfl
  refine ⟨x, mp, hpar, (@fork_right_iff .stock 3 {} _ _ _ _ ht hpar (by rw [hnext]; decide)
    (by rw [hpids]; decide)).mpr fun hmiss ↦ ?_⟩
  cases hmiss with
  | pid h =>
    have h₂ := h 2 (by decide)
    rw [hpids] at h₂
    exact absurd h₂ (by decide)
  | proc h => cases h
  | pagedir h => cases h
  | kthread h => cases h
  | stack h => cases h
  | memory h => exact h hmem

end System

end CS402.Mm

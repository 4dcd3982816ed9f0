import CS402.Proc.Forest
import CS402.Proc.Wait

/-!
# The kernel works on a process tree

`Kernel.forest` reads the process tree off the tables of the kernel.  `act_forest` shows
that every call without cancellation does to it what `Forest.apply` says, and in which
situation: this is all that the results below know about the calls.

* `family_of_run` is the invariant of the process tree along every run in which children
  are handed to init only while it is alive.
* `lateOrphan_refutes` is a run without that rule: init exits without children, another
  child of the idle process hands it a child afterwards, and when init is reaped that
  child is left with a parent that no longer exists.
-/

namespace CS402.Proc

open CS402.Lib

namespace Kernel

variable {k k' : Kernel} {t u : Tid} {p c i : Pid} {Q : Type} {c' d : Pc} {q : Wq Pq} {status : Int}
  {e : ProcEv} {next : Blocks} {procMaxCount : Nat}

/-- The process tree of the kernel. -/
def forest (k : Kernel) : Forest where
  children p := (k.proc p).pChildren
  parent p := (k.proc p).pPproc
  pid p := (k.proc p).pPid
  list := k.procList
  init := k.procInitproc
  state p := k.pState p
  status p := (k.proc p).pStatus
  busy p := ∃ t ∈ (k.proc p).pThreads, k.pc t = .inVput
  fresh := k.nproc

/-- The calls without cancellation. -/
def Plain : ProcEv → Prop
  | .kill .. | .cancel _ | .cancellableSleepOn _ => False
  | _ => True

/-- What holds along runs without cancellation. -/
structure Uncancelled (k : Kernel) : Prop where
  inv : Inv k
  plain : ∀ t, k.pc t ≠ .cancellable
  /-- The threads of a dead process are in `proc_cleanup` or gone. -/
  ends : ∀ p, k.pState p = .dead → ∀ t ∈ (k.proc p).pThreads,
    k.pc t = .inVput ∨ k.pc t = .inClose ∨ k.pc t = .gone
  /-- A thread in the `vput` of `proc_cleanup` belongs to a dead process, and it is not in
  state `KT_EXITED` any more. -/
  vput : ∀ t, k.pc t = .inVput → k.pState (k.procOf t) = .dead ∧
    t ∈ (k.proc (k.procOf t)).pThreads ∧ (k.sched.kthread t).ktState ≠ .exited

theorem Uncancelled.boot : Uncancelled boot where
  inv := .boot
  plain t := by
    simp only [Kernel.boot]
    split <;> simp
  ends p hd := by simp [Kernel.boot] at hd
  vput t ht := by
    simp only [Kernel.boot] at ht
    split at ht <;> cases ht

/-! ## Steps that leave the tree alone -/

theorem forest_congr (hproc : k'.proc = k.proc) (hlist : k'.procList = k.procList)
    (hinit : k'.procInitproc = k.procInitproc) (hn : k'.nproc = k.nproc)
    (hst : k'.sched.pState = k.sched.pState)
    (hpc : ∀ u, k'.pc u = .inVput ↔ k.pc u = .inVput) : k'.forest = k.forest := by
  simp only [forest, hproc, hlist, hinit, hn, pState, hst, hpc]

theorem pState_broadcast [DecidableEq Q] {s s' : Sched Q} {q : Wq Q}
    (he : s.schedBroadcastOn q = .ok s') : s'.pState = s.pState := by
  refine foldl_invariant (I := fun sc ↦ sc.pState = s.pState) ?_ rfl he
  intro _ _ sc sc' hsc he
  obtain ⟨⟨r, sc₁⟩, hw, he⟩ := bind_ok he
  cases he
  exact (pState_wakeup hw).trans hsc

theorem forest_sleepAt (hc : c' = .inVput ↔ k.pc t = .inVput)
    (he : k.sleepAt q t c' = .ok k') : k'.forest = k.forest := by
  obtain ⟨_, rfl⟩ := sleepAt_eq_ok.mp he
  refine forest_congr rfl rfl rfl rfl (pState_switch _) fun u ↦ ?_
  rcases eq_or_ne u t with rfl | hut
  · simpa using hc
  · simp [hut]

theorem forest_setPc (hc : d = .inVput ↔ k.pc t = .inVput) : (k.setPc t d).forest = k.forest := by
  refine forest_congr rfl rfl rfl rfl rfl fun u ↦ ?_
  rcases eq_or_ne u t with rfl | hut
  · simpa using hc
  · simp [hut]

/-! ## Steps that change the tree -/

theorem addProc_field {α : Type} (g : Pcb → α) (hg : ∀ b l, g { b with pChildren := l } = g b)
    {pid next : Int} {q : Pid} (hp : p ≠ k.nproc) : g ((k.addProc p pid next).proc q) =
      if q = k.nproc then g ⟨pid, [], [], some p, 0⟩ else g (k.proc q) := by
  split
  · next hq => rw [hq, addProc_new hp]
  · next hq =>
    rcases eq_or_ne q p with rfl | hqp
    · rw [addProc_cur hp, hg]
    · simp [addProc, hq, hqp]

theorem forest_addProc {pid next : Int} (hp : p ≠ k.nproc) :
    (k.addProc p pid next).forest = k.forest.create p pid := by
  refine Forest.ext ?_ ?_ ?_ rfl rfl ?_ ?_ ?_ rfl <;> funext q
  · exact addProc_children hp
  · exact addProc_field Pcb.pPproc (fun _ _ ↦ rfl) hp
  · exact addProc_field Pcb.pPid (fun _ _ ↦ rfl) hp
  · show Function.update k.sched.pState k.nproc .running q = _
    rw [Function.update_apply]
    rfl
  · exact addProc_field Pcb.pStatus (fun _ _ ↦ rfl) hp
  · show (∃ t ∈ ((k.addProc p pid next).proc q).pThreads, k.pc t = .inVput) = _
    rw [addProc_field Pcb.pThreads (fun _ _ ↦ rfl) hp]
    rcases eq_or_ne q k.nproc with hq | hq
    · simp [Forest.create, forest, hq]
    · simp [Forest.create, forest, hq]

theorem forest_addThread (hnil : (k.proc p).pThreads = []) (h : Inv k) :
    (k.addThread p).forest = k.forest := by
  refine Forest.ext ?_ ?_ ?_ rfl rfl rfl ?_ ?_ rfl <;> funext q
  · exact addThread_children
  · exact addThread_pPproc
  · exact addThread_pPid
  · simp only [forest]
    rcases eq_or_ne q p with rfl | hq
    · simp [addThread]
    · simp [addThread, hq]
  · simp only [forest, mem_addThread, eq_iff_iff]
    constructor
    · rintro ⟨u, ⟨rfl, rfl⟩ | hu, hpc⟩
      · simp at hpc
      · exact ⟨u, hu, by simpa [h.ne_nthread hu] using hpc⟩
    · rintro ⟨u, hu, hpc⟩
      exact ⟨u, .inr hu, by simpa [h.ne_nthread hu] using hpc⟩

theorem forest_reparent (hi : k.procInitproc = some i)
    (hpi : (k.proc p).pPid ≠ PID_INIT → p ≠ i) : (k.reparent p i).forest = k.forest.handOver p := by
  have hfi : k.forest.init = some i := hi
  unfold Kernel.reparent Forest.handOver
  simp only [hfi]
  rcases Decidable.em ((k.proc p).pPid ≠ PID_INIT) with hpid | hpid
  · have hfp : k.forest.pid p ≠ PID_INIT := hpid
    rw [if_pos hpid, if_pos hfp, handOver_foldl (hpi hpid), foldl_erase_self]
    exact Forest.ext rfl rfl rfl rfl hi rfl rfl rfl rfl
  · have hfp : ¬ k.forest.pid p ≠ PID_INIT := hpid
    rw [if_neg hpid, if_neg hfp]

section

variable {j : Kernel} (h : Inv k) (ht : t ∈ (k.proc (k.procOf t)).pThreads)
  (hproc : j.proc = k.proc) (hlist : j.procList = k.procList)
  (hinit : j.procInitproc = k.procInitproc) (hn : j.nproc = k.nproc)
  (hst : j.sched.pState = k.sched.pState)
include h ht hproc hlist hinit hn hst

theorem forest_leave (hc : d ≠ .inVput) (hpc : j.pc = Function.update k.pc t d) :
    j.forest = k.forest.clear (k.procOf t) := by
  refine Forest.ext ?_ ?_ ?_ hlist hinit ?_ ?_ ?_ hn <;> funext q <;>
    simp only [forest, Forest.clear, hproc, pState, hst]
  rw [hpc, eq_iff_iff]
  constructor
  · rintro ⟨u, hu, hv⟩
    have hut : u ≠ t := by
      rintro rfl
      exact hc (by simpa using hv)
    refine ⟨?_, u, hu, by simpa [hut] using hv⟩
    rintro rfl
    exact hut (h.single _ u hu t ht)
  · rintro ⟨hq, u, hu, hv⟩
    have hut : u ≠ t := by
      rintro rfl
      exact hq (h.owner q u hu).symm
    exact ⟨u, hu, by simpa [hut] using hv⟩

theorem forest_enter (hpc : j.pc = Function.update k.pc t .inVput) :
    j.forest = { k.forest with busy := fun q ↦ q = k.procOf t ∨ k.forest.busy q } := by
  refine Forest.ext ?_ ?_ ?_ hlist hinit ?_ ?_ ?_ hn <;> funext q <;>
    simp only [forest, hproc, pState, hst]
  rw [hpc, eq_iff_iff]
  constructor
  · rintro ⟨u, hu, hv⟩
    rcases eq_or_ne u t with rfl | hut
    · exact .inl (h.owner q u hu).symm
    · exact .inr ⟨u, hu, by simpa [hut] using hv⟩
  · rintro (rfl | ⟨u, hu, hv⟩)
    · exact ⟨t, ht, by simp⟩
    · rcases eq_or_ne u t with rfl | hut
      · exact ⟨u, hu, by simp⟩
      · exact ⟨u, hu, by simpa [hut] using hv⟩

end

theorem forest_dying : (k.dying t status).forest =
    { k.forest.mark (k.procOf t) status with busy := k.forest.busy } := by
  refine Forest.ext ?_ ?_ ?_ rfl rfl ?_ ?_ ?_ rfl <;> funext q <;>
    rcases eq_or_ne q (k.sched.kthread t).ktProc with rfl | hq <;>
    simp [forest, Forest.mark, dying, *]

theorem dispose_pStatus {q : Pid} : ((k.dispose p c).proc q).pStatus = (k.proc q).pStatus := by
  by_cases hqp : q = p <;> by_cases hqc : q = c <;>
    simp_all [dispose, Function.update_apply]

theorem forest_dispose : (k.dispose p c).forest = k.forest.reap p c := by
  refine Forest.ext ?_ ?_ ?_ rfl rfl rfl ?_ ?_ rfl <;> funext q
  · exact dispose_children
  · exact dispose_pPproc
  · exact dispose_pPid
  · exact dispose_pStatus
  · simp only [forest, Forest.reap, mem_dispose_threads, eq_iff_iff]
    constructor
    · rintro ⟨u, ⟨hq, hu⟩, hv⟩
      exact ⟨hq, u, hu, hv⟩
    · rintro ⟨hq, u, hu, hv⟩
      exact ⟨u, ⟨hq, hu⟩, hv⟩

/-! ## Every call does one operation -/

/-- The situation in which the call `e` does the operation `op`, and what `do_waitpid`
returns. -/
def Does (k : Kernel) (e : ProcEv) (k' : Kernel) : ForestOp → Prop
  | .none => k'.ret = none ∨
      ∃ t, k.sched.curthr = some t ∧ k'.ret = some (k.procOf t, .echild)
  | .create p pid => k'.ret = none ∧ k.pState p ≠ .dead ∧ p ∈ k.procList ∧ pid ≠ PID_IDLE ∧
      (pid = PID_INIT → (k.proc p).pPid = PID_IDLE)
  | .exit p status hands => k'.ret = none ∧ k.pState p ≠ .dead ∧ p ∈ k.procList ∧
      (∃ t next, k.sched.curthr = some t ∧ k.pc t = .code ∧ p = k.procOf t ∧
        e = .exit status next ∧ hands = next.pastVput) ∧
      (hands = true → k.procInitproc ≠ none ∧ 1 ≤ (k.proc p).pPid)
  | .hand p => k'.ret = none ∧ k.pState p = .dead ∧ p ∈ k.procList ∧
      (∃ t next, k.sched.curthr = some t ∧ k.pc t = .inVput ∧ p = k.procOf t ∧
        e = .resume next ∧ next.pastVput = true) ∧
      k.procInitproc ≠ none ∧ 1 ≤ (k.proc p).pPid
  | .reap p c => k'.ret = some (p, .reaped c (k.proc c).pPid (k.proc c).pStatus) ∧
      (∃ t, k.sched.curthr = some t ∧ p = k.procOf t) ∧ c ∈ (k.proc p).pChildren ∧
      k.pState c = .dead ∧ ¬ k.forest.busy c

/-- The call does one operation; `do_exit` marks a process dead. -/
def DoesOne (k : Kernel) (e : ProcEv) (k' : Kernel) : Prop :=
  ∃ op, k'.forest = k.forest.apply op ∧ Does k e k' op ∧
    ∀ s next, e = .exit s next → ∃ p, op = .exit p s next.pastVput

theorem DoesOne.none (hf : k'.forest = k.forest) (hr : k'.ret = none)
    (he : ∀ s next, e ≠ .exit s next) : DoesOne k e k' :=
  ⟨.none, hf, .inl hr, fun s next hx ↦ absurd hx (he s next)⟩

theorem Inv.cur_mem (h : Inv k) (ht : k.sched.curthr = some t) : k.procOf t ∈ k.procList :=
  (h.thread _ t (h.cur t ht).2.1).1

theorem Uncancelled.alive (h : Uncancelled k) (ht : k.sched.curthr = some t)
    (hpc : k.pc t ≠ .inVput ∧ k.pc t ≠ .inClose ∧ k.pc t ≠ .gone) : k.pState (k.procOf t) ≠ .dead := by
  intro hd
  rcases h.ends _ hd t (h.inv.cur t ht).2.1 with hp | hp | hp
  · exact hpc.1 hp
  · exact hpc.2.1 hp
  · exact hpc.2.2 hp

/-- `do_waitpid` after a look at the children. -/
theorem Uncancelled.afterLook (h : Uncancelled k) (ht : k.sched.curthr = some t) {l : Look}
    (hx : ∀ s next, e ≠ .exit s next) (hr : k.ret = Option.none)
    (hv : k.pc t ≠ .inVput) (hl : Look.Fits k (k.procOf t) l) (he : k.afterLook t l = .ok k') :
    DoesOne k e k' := by
  cases l with
  | echild =>
    cases he
    refine ⟨.none, ?_, .inr ⟨t, ht, rfl⟩, fun s next h ↦ absurd h (hx s next)⟩
    have := forest_setPc (k := k) (t := t) (d := .code) (by simp [hv])
    exact this
  | reap c =>
    obtain ⟨hall, rfl⟩ := reap_eq_ok.mp he
    refine ⟨.reap (k.procOf t) c, ?_, ⟨rfl, ⟨t, ht, rfl⟩, hl.1, hl.2, ?_⟩,
      fun s next h ↦ absurd h (hx s next)⟩
    · rw [forest_dispose]
      have := forest_setPc (k := k) (t := t) (d := .code) (by simp [hv])
      rw [this]
      rfl
    · rintro ⟨u, hu, hpc⟩
      exact (h.vput u hpc).2.2 (hall u hu)
  | sleep c =>
    obtain ⟨_, _, hc, _⟩ := hl.maySleep
    refine .none (forest_sleepAt (by simp [hc, hv]) he) ?_ hx
    obtain ⟨_, rfl⟩ := sleepAt_eq_ok.mp he
    exact hr

theorem Inv.cleanupClose_forest (h : Inv k) (ht : k.sched.curthr = some t)
    (he : k.cleanupClose t next = .ok k') :
    k'.forest = k.forest.clear (k.procOf t) ∧ k'.ret = k.ret := by
  have hm := (h.cur t ht).2.1
  cases next with
  | inVput q => cases he
  | inClose q =>
    obtain ⟨_, rfl⟩ := sleepAt_eq_ok.mp he
    exact ⟨forest_leave h hm rfl rfl rfl rfl (pState_switch _) (by simp) rfl, rfl⟩
  | no =>
    cases he
    exact ⟨forest_leave h hm rfl rfl rfl rfl (pState_switch _) (by simp) rfl, rfl⟩

theorem Inv.cleanupWake_forest (h : Inv k) (ht : k.sched.curthr = some t)
    (hpc : ∀ c, k.pc t ≠ .waitPid c) (he : k.cleanupWake t next = .ok k') :
    k'.forest = (k.forest.handOver (k.procOf t)).clear (k.procOf t) ∧ k'.ret = k.ret ∧
      k.procInitproc ≠ none ∧ 1 ≤ (k.proc (k.procOf t)).pPid ∧ next.pastVput = true := by
  have hpid : 1 ≤ (k.proc (k.procOf t)).pPid := by
    obtain ⟨_, _, he⟩ := bind_ok he
    obtain ⟨hp, _⟩ := bind_demand he
    exact hp
  obtain ⟨i, pp, r, sc, hi, _, hw, hinv, ht', he⟩ := h.cleanupWake_cases ht hpc he
  have hpi : (k.proc (k.procOf t)).pPid ≠ PID_INIT → k.procOf t ≠ i := by
    intro hne e
    rw [e] at hne
    exact hne (h.init i hi).2.1
  have hpr : ((k.withSched sc).reparent (k.procOf t) i).procOf t = k.procOf t := by
    rw [procOf, (reparent_frame _).1]
    exact (Sched.curthr_wakeup hw).2 t
  have hk₁ : (k.withSched sc).forest = k.forest :=
    forest_congr rfl rfl rfl rfl (pState_wakeup hw) fun _ ↦ Iff.rfl
  obtain ⟨hf, hret⟩ := hinv.cleanupClose_forest ht' he
  rw [hpr, forest_reparent (k := k.withSched sc) hi hpi, hk₁] at hf
  refine ⟨hf, hret.trans (reparent_frame _).2.2.2.1, by rw [hi]; simp, hpid, ?_⟩
  cases next with
  | inVput q => cases he
  | inClose q => rfl
  | no => rfl

/-- `proc_cleanup` up to the call of `vput` or to the end. -/
theorem Uncancelled.doExit (h : Uncancelled k) (ht : k.sched.curthr = some t)
    (hc : k.pc t = .code) (hr : k.ret = Option.none)
    (he : k.doExit t status next = .ok k') : DoesOne k (.exit status next) k' := by
  rw [h.inv.doExit_eq ht] at he
  obtain ⟨_, he⟩ := kthreadExit_eq_ok.mp he
  have hi := h.inv.dying ht status
  have hm := (hi.cur t ht).2.1
  have hpr : (k.dying t status).procOf t = k.procOf t := by simp [dying]
  have halive := h.alive ht (by simp [hc])
  have hpid : ((k.dying t status).proc (k.procOf t)).pPid = (k.proc (k.procOf t)).pPid := by
    simp [dying]
  -- past the call of `vput` the children are handed over
  have hpast : (k.dying t status).cleanupWake t next = .ok k' →
      DoesOne k (.exit status next) k' := by
    intro he
    have hnw : ∀ c, (k.dying t status).pc t ≠ .waitPid c := by
      intro c hcw
      exact absurd (hc.symm.trans hcw) (by simp)
    obtain ⟨hf, hret, hinit, hp, hn⟩ := hi.cleanupWake_forest ht hnw he
    rw [hpr, forest_dying, Forest.clear_mark] at hf
    rw [hpr, hpid] at hp
    refine ⟨.exit (k.procOf t) status true, by simpa [Forest.apply] using hf, ⟨hret.trans hr, halive,
      h.inv.cur_mem ht, ⟨t, next, ht, hc, rfl, rfl, hn.symm⟩, fun _ ↦ ⟨hinit, hp⟩⟩, ?_⟩
    intro s next' h
    cases h
    exact ⟨_, by rw [hn]⟩
  cases next with
  | inVput q =>
    obtain ⟨_, rfl⟩ := sleepAt_eq_ok.mp he
    refine ⟨.exit (k.procOf t) status false, ?_, ⟨hr, halive, h.inv.cur_mem ht,
      ⟨t, .inVput q, ht, hc, rfl, rfl, rfl⟩, by simp⟩, fun s next h ↦ by cases h; exact ⟨_, rfl⟩⟩
    have hf := forest_enter (j := ((k.dying t status).withSched (((k.dying t status).sched.modify t
      fun u ↦ { u with ktState := .sleep }).link (.on (.other q)) t).schedSwitch).setPc t .inVput)
      hi hm rfl rfl rfl rfl (pState_switch _) rfl
    rw [hpr, forest_dying] at hf
    exact hf
  | inClose q => exact hpast he
  | no => exact hpast he

/-- The rest of the call that suspended the running thread. -/
theorem Uncancelled.resume_forest (h : Uncancelled k) (ht : k.sched.curthr = some t)
    (hr : k.ret = Option.none) (he : k.resume t next = .ok k') : DoesOne k (.resume next) k' := by
  unfold Kernel.resume at he
  split at he
  · next hpc =>
    cases he
    exact .none (forest_setPc (by simp [hpc])) hr (by simp)
  · next hpc => exact absurd hpc (h.plain t)
  · next hpc => exact h.afterLook ht (by simp) hr (by simp [hpc]) (k.lookAny_fits _) he
  · next c hpc =>
    exact h.afterLook ht (by simp) hr (by simp [hpc])
      (lookPid_fits (h.inv.waits t (h.inv.cur t ht).2.1 c hpc)) he
  · next hpc =>
    have hpast : k.cleanupWake t next = .ok k' → DoesOne k (.resume next) k' := by
      intro he
      obtain ⟨hf, hret, hinit, hp, hn⟩ := h.inv.cleanupWake_forest ht (by simp [hpc]) he
      exact ⟨.hand (k.procOf t), hf, ⟨hret.trans hr, (h.vput t hpc).1, h.inv.cur_mem ht,
        ⟨t, next, ht, hpc, rfl, rfl, hn⟩, hinit, hp⟩, by simp⟩
    cases next with
    | inVput q =>
      refine .none (forest_sleepAt (by simp [hpc]) he) ?_ (by simp)
      obtain ⟨_, rfl⟩ := sleepAt_eq_ok.mp he
      exact hr
    | inClose q => exact hpast he
    | no => exact hpast he
  · next hpc =>
    obtain ⟨hf, hret⟩ := h.inv.cleanupClose_forest ht he
    refine .none ?_ (hret.trans hr) (by simp)
    rw [hf]
    -- the thread was past `vput` before
    refine Forest.ext rfl rfl rfl rfl rfl rfl rfl ?_ rfl
    funext q
    simp only [Forest.clear, eq_iff_iff]
    refine ⟨fun hq ↦ hq.2, fun hq ↦ ⟨?_, hq⟩⟩
    rintro rfl
    obtain ⟨u, hu, hv⟩ := hq
    obtain rfl := h.inv.single _ u hu t (h.inv.cur t ht).2.1
    rw [hpc] at hv
    cases hv
  · cases he

/-- **Every call without cancellation does one operation on the process tree.** -/
theorem Uncancelled.act_forest (h : Uncancelled k)
    (hpl : Plain e) (hr : k.ret = Option.none) (he : k.act procMaxCount e = .ok k') :
    DoesOne k e k' := by
  cases act_ok he with
  | @procCreate t pid _ ht hc hidle hinit =>
    have hp := h.inv.cur_mem ht
    refine ⟨.create (k.procOf t) pid, forest_addProc (h.inv.lt _ hp), ⟨hr,
      h.alive ht (by simp [hc]), hp, ?_, hinit⟩, by simp⟩
    rintro rfl
    rcases hidle with hidle | hidle
    · exact hidle rfl
    · have hp' : k.procOf t ∈ k.procList := hp
      have hnil : k.procList = [] := hidle
      rw [hnil] at hp'
      cases hp'
  | kthreadCreate _ hnil => exact .none (forest_addThread hnil h.inv) hr (by simp)
  | @makeRunnable t hf =>
    refine .none (forest_congr rfl rfl rfl rfl rfl fun u ↦ ?_) hr (by simp)
    rcases eq_or_ne u t with rfl | hut
    · simp [readied, hf]
    · simp [readied, hut]
  | exit ht hc he => exact h.doExit ht hc hr he
  | kill => exact hpl.elim
  | @waitpid t pid _ ht hc he =>
    exact h.afterLook ht (by simp) hr (by simp [hc]) (k.look_fits _ pid) he
  | @yield t ht hc =>
    refine .none (forest_congr rfl rfl rfl rfl (pState_switch _) fun u ↦ ?_) hr (by simp)
    rcases eq_or_ne u t with rfl | hut
    · simp [readied, hc]
    · simp [readied, hut]
  | sleepOn ht hc he =>
    refine .none (forest_sleepAt (by simp [hc]) he) ?_ (by simp)
    obtain ⟨_, rfl⟩ := sleepAt_eq_ok.mp he
    exact hr
  | cancellableSleepOn => exact hpl.elim
  | wakeup hsc =>
    exact .none (forest_congr rfl rfl rfl rfl (pState_wakeup hsc) fun _ ↦ Iff.rfl) hr (by simp)
  | broadcast hsc =>
    exact .none (forest_congr rfl rfl rfl rfl (pState_broadcast hsc) fun _ ↦ Iff.rfl) hr (by simp)
  | cancel => exact hpl.elim
  | resume ht he => exact h.resume_forest ht hr he
  | dispatch =>
    exact .none (forest_congr rfl rfl rfl rfl (pState_switch _) fun _ ↦ Iff.rfl) hr (by simp)

/-! ## Runs without cancellation -/

theorem Uncancelled.shift (h : Uncancelled k) (hinv : Inv k') (hs : Shifts t d k k')
    (hplain : d ≠ .cancellable)
    (hends : k.pState (k.procOf t) = .dead → d = .inVput ∨ d = .inClose ∨ d = .gone)
    (hvput : d = .inVput → k.pState (k.procOf t) = .dead ∧
      t ∈ (k.proc (k.procOf t)).pThreads ∧ (k'.sched.kthread t).ktState ≠ .exited) :
    Uncancelled k' where
  inv := hinv
  plain u := by
    rw [hs.pc]
    rcases eq_or_ne u t with rfl | hut
    · simpa using hplain
    · simpa [hut] using h.plain u
  ends p hd u hu := by
    rw [pState, hs.state] at hd
    rw [hs.threads] at hu
    rw [hs.pc]
    rcases eq_or_ne u t with rfl | hut
    · have := h.inv.owner p u hu
      simpa using hends (by rw [this]; exact hd)
    · simpa [hut] using h.ends p hd u hu
  vput u hu := by
    rw [hs.pc] at hu
    rw [hs.owner, hs.threads, pState, hs.state]
    rcases eq_or_ne u t with rfl | hut
    · exact hvput (by simpa using hu)
    · obtain ⟨h₁, h₂, h₃⟩ := h.vput u (by simpa [hut] using hu)
      exact ⟨h₁, h₂, fun hx ↦ h₃ (hs.exited u hut hx)⟩

section

variable (h : Uncancelled k)
include h

theorem Uncancelled.exit (ht : k.sched.curthr = some t)
    (hc : k.pc t = .code)
    (he : k.doExit t status next = .ok k') : Uncancelled k' := by
  have hinv := h.inv.doExit ht hc he
  rw [h.inv.doExit_eq ht] at he
  obtain ⟨_, he⟩ := kthreadExit_eq_ok.mp he
  obtain ⟨c', hs, hc', hx⟩ := Shifts.cleanupVput he
  have hm := (h.inv.cur t ht).2.1
  have hthreads : ∀ p, (k'.proc p).pThreads = (k.proc p).pThreads := by
    intro p
    refine (hs.threads p).trans ?_
    rcases eq_or_ne p (k.sched.kthread t).ktProc with rfl | hp
    · simp [dying]
    · simp [dying, hp]
  have howner : ∀ u, k'.procOf u = k.procOf u := by
    intro u
    refine (hs.owner u).trans ?_
    rcases eq_or_ne u t with rfl | hut
    · simp [dying]
    · simp [dying, hut]
  have hstate : ∀ p, k'.pState p = if p = k.procOf t then .dead else k.pState p := by
    intro p
    rw [pState, hs.state]
    exact Function.update_apply ..
  have hpc : ∀ u, k'.pc u = if u = t then c' else k.pc u := by
    intro u
    rw [hs.pc]
    exact Function.update_apply ..
  refine ⟨hinv, fun u ↦ ?_, fun p hd u hu ↦ ?_, fun u hu ↦ ?_⟩
  · rw [hpc]
    split
    · rintro rfl
      simp at hc'
    · exact h.plain u
  · rw [hthreads] at hu
    rw [hpc]
    split
    · exact hc'
    · next hut =>
      have hpt : p ≠ k.procOf t := by
        rintro rfl
        exact hut (h.inv.single _ u hu t hm)
      rw [hstate, if_neg hpt] at hd
      exact h.ends p hd u hu
  · rw [howner, hthreads, hstate]
    rw [hpc] at hu
    split at hu
    · next hut =>
      subst hut
      exact ⟨if_pos rfl, hm, hx hu⟩
    · next hut =>
      obtain ⟨h₁, h₂, h₃⟩ := h.vput u hu
      refine ⟨?_, h₂, fun hxu ↦ h₃ ?_⟩
      · split
        · rfl
        · exact h₁
      · have := hs.exited u hut hxu
        simpa [dying, hut] using this

theorem Uncancelled.table (hinv : Inv k') (hpc : k'.pc = k.pc)
    (howner : ∀ u, k'.procOf u = k.procOf u)
    (hexited : ∀ u, (k'.sched.kthread u).ktState = .exited → (k.sched.kthread u).ktState = .exited)
    (hthreads : ∀ p, ∀ u ∈ (k'.proc p).pThreads, u ∈ (k.proc p).pThreads)
    (hmem : ∀ u, k.pc u = .inVput → u ∈ (k'.proc (k.procOf u)).pThreads)
    (hstate : ∀ p ∈ k.procList, k'.pState p = k.pState p) : Uncancelled k' where
  inv := hinv
  plain := hpc ▸ h.plain
  ends p hd u hu := by
    rw [hpc]
    have hu' := hthreads p u hu
    exact h.ends p ((hstate p (h.inv.thread p u hu').1).symm.trans hd) u hu'
  vput u hu := by
    rw [hpc] at hu
    obtain ⟨h₁, h₂, h₃⟩ := h.vput u hu
    rw [howner]
    exact ⟨(hstate _ (h.inv.thread _ u h₂).1).trans h₁, hmem u hu, fun hx ↦ h₃ (hexited u hx)⟩

theorem Uncancelled.sched {sc : Sched Pq} (hinv : Inv (k.withSched sc))
    (howner : ∀ u, (sc.kthread u).ktProc = (k.sched.kthread u).ktProc)
    (hexited : ∀ u, (sc.kthread u).ktState = .exited → (k.sched.kthread u).ktState = .exited)
    (hstate : sc.pState = k.sched.pState) : Uncancelled (k.withSched sc) :=
  h.table hinv rfl howner hexited (fun _ _ ↦ id) (fun u hu ↦ (h.vput u hu).2.1)
    fun p _ ↦ congrFun hstate p

theorem Uncancelled.setCode (ht : k.sched.curthr = some t)
    (hpc : k.pc t ≠ .inVput ∧ k.pc t ≠ .inClose ∧ k.pc t ≠ .gone) : Uncancelled (k.setPc t .code) :=
  h.shift (h.inv.setCode ht) ⟨fun _ ↦ rfl, rfl, rfl, rfl, fun _ ↦ rfl, fun _ _ ↦ id, rfl⟩ (by simp)
    (fun hd ↦ absurd hd (h.alive ht hpc)) (by simp)

theorem Uncancelled.sleepAt (hinv : Inv k')
    (hd : k.pState (k.procOf t) ≠ .dead) (hc : c' ≠ .cancellable ∧ c' ≠ .inVput)
    (he : k.sleepAt q t c' = .ok k') : Uncancelled k' :=
  h.shift hinv (Shifts.sleepAt he).1 hc.1 (fun hx ↦ absurd hx hd) (fun hx ↦ absurd hx hc.2)

theorem Uncancelled.keepLook (ht : k.sched.curthr = some t) {l : Look}
    (hpc : k.pc t ≠ .inVput ∧ k.pc t ≠ .inClose ∧ k.pc t ≠ .gone)
    (hl : Look.Fits k (k.procOf t) l) (he : k.afterLook t l = .ok k') : Uncancelled k' := by
  have hinv := h.inv.afterLook ht hl he
  have hcode := h.setCode ht hpc
  cases l with
  | echild =>
    cases he
    exact hcode.table hinv rfl (fun _ ↦ rfl) (fun _ ↦ id) (fun _ _ ↦ id)
      (fun u hu ↦ (hcode.vput u hu).2.1) fun _ _ ↦ rfl
  | reap c =>
    obtain ⟨hx, rfl⟩ := reap_eq_ok.mp he
    refine hcode.table hinv rfl (fun _ ↦ rfl) (fun _ ↦ id) (fun p u hu ↦ ?_) (fun u hu ↦ ?_)
      fun _ _ ↦ rfl
    · exact (mem_dispose_threads.mp hu).2
    · obtain ⟨_, h₂, h₃⟩ := hcode.vput u hu
      refine mem_dispose_threads.mpr ⟨?_, h₂⟩
      -- the threads of the child have all exited
      rintro hc
      rw [hc] at h₂
      exact h₃ (hx u h₂)
  | sleep c =>
    refine h.sleepAt hinv (h.alive ht hpc) ?_ he
    cases c with
    | waitAny => exact ⟨by simp, by simp⟩
    | waitPid c => exact ⟨by simp, by simp⟩
    | _ => exact hl.elim

/-- The rest of the call that suspended the running thread. -/
theorem Uncancelled.keepResume (ht : k.sched.curthr = some t)
    (he : k.resume t next = .ok k') : Uncancelled k' := by
  have hinv := h.inv.resume ht he
  have hm := (h.inv.cur t ht).2.1
  unfold Kernel.resume at he
  split at he
  · next hpc =>
    cases he
    exact h.setCode ht (by simp [hpc])
  · next hpc => exact absurd hpc (h.plain t)
  · next hpc => exact h.keepLook ht (by simp [hpc]) (k.lookAny_fits _) he
  · next c hpc => exact h.keepLook ht (by simp [hpc]) (lookPid_fits (h.inv.waits t hm c hpc)) he
  · next hpc =>
    obtain ⟨c', hs, hc', hx⟩ := Shifts.cleanupVput he
    refine h.shift hinv hs ?_ (fun _ ↦ hc') fun hv ↦ ⟨(h.vput t hpc).1, hm, hx hv⟩
    rintro rfl
    simp at hc'
  · next hpc =>
    obtain ⟨c', hs, hc'⟩ := Shifts.cleanupClose he
    refine h.shift hinv hs ?_ (fun _ ↦ .inr hc') ?_
    · rintro rfl
      simp at hc'
    · rintro rfl
      simp at hc'
  · cases he

end

theorem Uncancelled.wakes : Wakes Uncancelled := by
  refine ⟨fun {k t q} h ht ↦ h.sched (h.inv.moveToRunq ht) (fun u ↦ ?_) (fun u hx ↦ ?_) rfl⟩
  · rcases eq_or_ne u t with rfl | hut
    · simp
    · simp [hut]
  · have hut : u ≠ t := by
      rintro rfl
      simp at hx
    simpa [hut] using hx

/-- **A call without cancellation** keeps what is known. -/
theorem Uncancelled.act (h : Uncancelled k)
    (hpl : Plain e) (he : k.act procMaxCount e = .ok k') : Uncancelled k' := by
  have hinv := h.inv.act he
  cases act_ok he with
  | @procCreate t pid next ht =>
    have hp := h.inv.lt _ (h.inv.cur_mem ht)
    have hthreads : ∀ q, q ≠ k.nproc →
        ((k.addProc (k.procOf t) pid next).proc q).pThreads = (k.proc q).pThreads := by
      intro q hq
      rw [addProc_field Pcb.pThreads (fun _ _ ↦ rfl) hp, if_neg hq]
    refine h.table hinv rfl (fun _ ↦ rfl) (fun _ ↦ id) (fun q u hu ↦ ?_) (fun u hu ↦ ?_)
      fun q hq ↦ ?_
    · rcases eq_or_ne q k.nproc with rfl | hq
      · rw [addProc_new hp] at hu
        cases hu
      · rwa [hthreads q hq] at hu
    · have hu' := (h.vput u hu).2.1
      rwa [hthreads _ (h.inv.lt _ (h.inv.thread _ u hu').1)]
    · exact Function.update_of_ne (h.inv.lt q hq) ..
  | @kthreadCreate p hp hnil =>
    have halive : k.pState p ≠ .dead := fun hd ↦ h.inv.dead p hp hd hnil
    refine ⟨hinv, fun u ↦ ?_, fun q hd u hu ↦ ?_, fun u hu ↦ ?_⟩
    · rcases eq_or_ne u k.nthread with rfl | hut
      · simp [addThread]
      · simpa [addThread, hut] using h.plain u
    · rcases mem_addThread.mp hu with ⟨rfl, rfl⟩ | hu
      · exact absurd hd halive
      · simpa [addThread, h.inv.ne_nthread hu] using h.ends q hd u hu
    · have hut : u ≠ k.nthread := by
        rintro rfl
        simp [addThread] at hu
      have hu : k.pc u = .inVput := by simpa [addThread, hut] using hu
      obtain ⟨h₁, h₂, h₃⟩ := h.vput u hu
      have hpr : (k.addThread p).procOf u = k.procOf u := by simp [addThread, hut]
      rw [hpr]
      exact ⟨h₁, mem_addThread.mpr (.inr h₂), by simpa [addThread, hut] using h₃⟩
  | @makeRunnable t hf =>
    refine h.shift hinv ⟨fun _ ↦ rfl, rfl, rfl, rfl, fun u ↦ ?_,
      fun u hut hx ↦ ?_, rfl⟩ (by simp) (fun hd ↦ ?_) (by simp)
    · rcases eq_or_ne u t with rfl | hut
      · simp [readied]
      · simp [readied, hut]
    · simpa [readied, hut] using hx
    · simpa [hf] using h.ends _ hd t (h.inv.fresh t hf).2.2
  | exit ht hc he => exact h.exit ht hc he
  | kill => exact hpl.elim
  | @waitpid t pid _ ht hc he => exact h.keepLook ht (by simp [hc]) (k.look_fits _ pid) he
  | @yield t ht hc =>
    refine h.shift hinv ⟨fun _ ↦ rfl, rfl, pState_switch _, rfl,
      fun u ↦ ?_, fun u hut hx ↦ ?_, rfl⟩ (by simp)
      (fun hd ↦ absurd hd (h.alive ht (by simp [hc]))) (by simp)
    · refine (switch_fields _ u).2.trans ?_
      rcases eq_or_ne u t with rfl | hut
      · simp [readied]
      · simp [readied, hut]
    · have := (switch_fields _ u).1.symm.trans hx
      simpa [readied, hut] using this
  | sleepOn ht hc he => exact h.sleepAt hinv (h.alive ht (by simp [hc])) (by simp) he
  | cancellableSleepOn => exact hpl.elim
  | wakeup hsc => exact Uncancelled.wakes.wakeup h hsc
  | broadcast hsc => exact Uncancelled.wakes.broadcast h hsc
  | cancel => exact hpl.elim
  | resume ht he => exact h.keepResume ht he
  | dispatch =>
    exact h.sched hinv (fun u ↦ (switch_fields _ u).2)
      (fun u hx ↦ (switch_fields _ u).1.symm.trans hx) (pState_switch _)

theorem Uncancelled.resetRet (h : Uncancelled k) : Uncancelled { k with ret := none } :=
  ⟨h.inv.resetRet, h.plain, h.ends, h.vput⟩

/-- **One step** without cancellation. -/
theorem Uncancelled.step (h : Uncancelled k)
    (hpl : Plain e) (he : k.step procMaxCount e = .ok k') : Uncancelled k' :=
  h.resetRet.act hpl he

/-! ## The invariant of the tree -/

/-- The process that is `n` steps of `p_pproc` up from `p`. -/
def ancestor (k : Kernel) : ℕ → Pid → Option Pid
  | 0, p => some p
  | n + 1, p => (k.proc p).pPproc.bind (k.ancestor n)

/-- **The process tree.** -/
structure Family (k : Kernel) : Prop where
  /-- A process other than the idle process has a parent on the list, and it is once among
  the children of that process and of no other. -/
  parent : ∀ p ∈ k.procList, p ≠ 0 → ∃ q ∈ k.procList, (k.proc p).pPproc = some q ∧
    (k.proc q).pChildren.count p = 1 ∧ ∀ r, r ≠ q → p ∉ (k.proc r).pChildren
  child : ∀ p, ∀ c ∈ (k.proc p).pChildren, c ∈ k.procList
  /-- Once it is past the `vput` of `proc_cleanup`, a dead process other than init has no
  children. -/
  dead : ∀ p ∈ k.procList, k.pState p = .dead → (k.proc p).pPid ≠ PID_INIT →
    (∀ t ∈ (k.proc p).pThreads, k.pc t ≠ .inVput) → (k.proc p).pChildren = []
  reach : ∀ p ∈ k.procList, ∃ n, k.ancestor n p = some 0

/-- Calls without cancellation, in which init exits only when it has no children. -/
def InitLeavesNone (k : Kernel) : ProcEv → Prop
  | .kill .. | .cancel _ | .cancellableSleepOn _ => False
  | .exit _ _ => ∀ t ∈ k.sched.curthr, (k.proc (k.procOf t)).pPid = PID_INIT →
      (k.proc (k.procOf t)).pChildren = []
  | _ => True

/-- The process has children to hand over, and init has exited. -/
def Disowns (k : Kernel) (p : Pid) : Prop :=
  (k.proc p).pPid ≠ PID_INIT ∧ (k.proc p).pChildren ≠ [] ∧
    ∀ i ∈ k.procInitproc, k.pState i = .dead

/-- `proc_cleanup` hands children to an init that has exited. -/
def HandsToDead (k : Kernel) : ProcEv → Prop
  | .exit _ next => next.pastVput = true ∧ ∃ t ∈ k.sched.curthr, k.Disowns (k.procOf t)
  | .resume next => next.pastVput = true ∧
      ∃ t ∈ k.sched.curthr, k.pc t = .inVput ∧ k.Disowns (k.procOf t)
  | _ => False

instance : DecidablePred k.Disowns := fun _ ↦ inferInstanceAs (Decidable (_ ∧ _ ∧ _))

instance : (e : ProcEv) → Decidable (k.InitLeavesNone e)
  | .exit _ _ => inferInstanceAs (Decidable (∀ t ∈ k.sched.curthr, _ → _))
  | .kill .. | .cancel _ | .cancellableSleepOn _ => .isFalse not_false
  | .procCreate | .kthreadCreate _ | .makeRunnable _ | .waitpid _ | .yield | .sleepOn _
  | .wakeup _ | .broadcast _ | .resume _ | .dispatch => .isTrue trivial

instance : (e : ProcEv) → Decidable (k.HandsToDead e)
  | .exit _ _ => inferInstanceAs (Decidable (_ ∧ ∃ t ∈ k.sched.curthr, _))
  | .resume _ => inferInstanceAs (Decidable (_ ∧ ∃ t ∈ k.sched.curthr, _))
  | .kill .. | .cancel _ | .cancellableSleepOn _ | .procCreate | .kthreadCreate _
  | .makeRunnable _ | .waitpid _ | .yield | .sleepOn _ | .wakeup _ | .broadcast _
  | .dispatch => .isFalse not_false

/-- The idle process creates init and process `2`, which creates process `3`.  Init exits
without children, then process `2` exits, and the idle process reaps init. -/
def lateOrphanRun : List ProcEv :=
  [.procCreate, .kthreadCreate 1, .makeRunnable 1, .procCreate, .kthreadCreate 2,
    .makeRunnable 2, .waitpid (-1), .resume .no, .yield, .resume .no, .procCreate, .yield,
    .resume .no, .exit 0 .no, .resume .no, .exit 0 .no, .resume .no]

/-- **A parent that no longer exists.**  After this run the parent of process `3` is init,
which has been reaped. -/
theorem lateOrphan_refutes :
    ∃ k h, Run (restrict (ofStep (step 65536)) InitLeavesNone) boot h k ∧
      k.procList = [0, 2, 3] ∧ (k.proc 3).pPproc = some 1 ∧ ¬ Family k := by
  have h : check (guarded .disabled (step 65536) InitLeavesNone) boot lateOrphanRun
      (fun k ↦ k.procList = [0, 2, 3] ∧ (k.proc 3).pPproc = some 1) = true := by
    decide +kernel
  obtain ⟨k, hk, hp⟩ := exists_of_check h
  obtain ⟨hl, h3⟩ := of_decide_eq_true hp
  refine ⟨k, _, Run.of_exec_guarded hk, hl, h3, fun hf ↦ ?_⟩
  obtain ⟨q, hq, hq3, _⟩ := hf.parent 3 (by simp [hl]) (by decide)
  rw [h3] at hq3
  obtain rfl : 1 = q := Option.some.inj hq3
  simp [hl] at hq

theorem InitLeavesNone.plain (h : k.InitLeavesNone e) : Plain e := by
  cases e with
  | kill => exact h
  | cancel => exact h
  | cancellableSleepOn => exact h
  | _ => trivial

theorem heir_of_not_disowns (h : ¬ k.Disowns p) : k.forest.Heir p := by
  rcases Decidable.em ((k.proc p).pPid = PID_INIT) with hpid | hpid
  · exact .inl hpid
  · rcases Decidable.em ((k.proc p).pChildren = []) with hc | hc
    · exact .inr (.inl hc)
    · refine .inr (.inr ?_)
      by_contra hx
      refine h ⟨hpid, hc, fun i hi ↦ ?_⟩
      by_contra hd
      exact hx ⟨i, hi, hd⟩

theorem Does.allowed {op : ForestOp} (hroot : k.forest.Rooted)
    (h : Does k e k' op) (hi : k.InitLeavesNone e) (hh : ¬ k.HandsToDead e) :
    k.forest.Allowed op := by
  have hne : ∀ p, 1 ≤ (k.proc p).pPid → p ≠ 0 := by
    rintro p hp rfl
    have hz : (k.proc 0).pPid = PID_IDLE := hroot.idle.2.1
    rw [hz] at hp
    exact absurd hp (by decide)
  cases op with
  | none => trivial
  | create p pid =>
    obtain ⟨_, hd, hp, hpid, hinit⟩ := h
    exact ⟨hp, hd, hpid, hinit⟩
  | exit p status hands =>
    obtain ⟨_, _, hp, ⟨t, next, ht, _, rfl, rfl, rfl⟩, hpast⟩ := h
    refine ⟨hp, hi t ht, fun hn ↦ ⟨(hpast hn).1, hne _ (hpast hn).2, ?_⟩⟩
    exact heir_of_not_disowns fun hd ↦ hh ⟨hn, t, ht, hd⟩
  | hand p =>
    obtain ⟨_, hd, hp, ⟨t, next, ht, hpc, rfl, rfl, hn⟩, hinit, hpid⟩ := h
    exact ⟨hp, hinit, hne _ hpid, hd, heir_of_not_disowns fun hx ↦ hh ⟨hn, t, ht, hpc, hx⟩⟩
  | reap p c =>
    obtain ⟨_, _, hc, hd, hb⟩ := h
    exact ⟨hc, hd, hb⟩

theorem rooted_boot : boot.forest.Rooted where
  idle := ⟨List.mem_singleton_self 0, rfl, rfl⟩
  only p hp _ := List.mem_singleton.mp hp
  bound p hp := by
    rw [List.mem_singleton.mp hp]
    exact Nat.one_pos
  nodup := List.nodup_singleton 0
  child p c hc := by cases hc
  once p := List.nodup_nil
  parent p hp hp0 := absurd (List.mem_singleton.mp hp) hp0
  init i hi := by cases hi
  empty p _ hd := by cases hd
  reach p hp := List.mem_singleton.mp hp ▸ .idle

theorem ancestor_of_reaches (h : k.forest.Reaches p) : ∃ n, k.ancestor n p = some 0 := by
  induction h with
  | idle => exact ⟨0, rfl⟩
  | up _ hq _ ih =>
    obtain ⟨n, hn⟩ := ih
    refine ⟨n + 1, ?_⟩
    have hq' : (k.proc _).pPproc = some _ := hq
    rw [ancestor, hq', Option.bind_some, hn]

theorem Family.of_rooted (h : k.forest.Rooted) : Family k where
  parent p hp hp0 := by
    obtain ⟨q, hq, hpq, hm⟩ := h.parent p hp hp0
    refine ⟨q, hq, hpq, List.count_eq_one_of_mem (h.once q) hm, fun r hr hpr ↦ hr ?_⟩
    exact h.unique hpr hm
  child p c hc := (h.child p c hc).2.1
  dead p hp hd _ hv := by
    rcases h.empty p hp hd with hnil | ⟨⟨t, ht, hpc⟩, _⟩
    · exact hnil
    · exact absurd hpc (hv t ht)
  reach p hp := ancestor_of_reaches (h.reach p hp)

/-- **The process tree.**  In every run without cancellation in which init exits only when
it has no children, and in which nobody hands children to an init that has exited, the
process table is a tree with the idle process at its root. -/
theorem family_of_run (procMaxCount : Nat) {hist : List ProcEv}
    (hr : Run (restrict (ofStep (step procMaxCount)) fun k e ↦
      k.InitLeavesNone e ∧ ¬ k.HandsToDead e) boot hist k) : Family k := by
  refine Family.of_rooted (hr.invariant (I := fun k ↦ Uncancelled k ∧ k.forest.Rooted) ?_
    ⟨.boot, rooted_boot⟩).2
  rintro k₁ e k₂ ⟨h₁, hroot⟩ ⟨⟨hi, hh⟩, he⟩
  obtain ⟨op, hf, hd, _⟩ := h₁.resetRet.act_forest hi.plain rfl he
  exact ⟨h₁.step hi.plain he, hf ▸ hroot.apply (hd.allowed hroot hi hh)⟩

/-- As `lateOrphanRun`, but init exits last. -/
def timelyOrphanRun : List ProcEv :=
  [.procCreate, .kthreadCreate 1, .makeRunnable 1, .procCreate, .kthreadCreate 2,
    .makeRunnable 2, .waitpid 2, .resume .no, .yield, .resume .no, .procCreate,
    .exit 0 .no, .resume .no, .yield, .resume .no]

/-- The theorem at a run in which a child is handed to init and its old parent is reaped. -/
theorem family_timelyOrphan :
    ∃ k h, Run (restrict (ofStep (step 65536)) fun k e ↦
      k.InitLeavesNone e ∧ ¬ k.HandsToDead e) boot h k ∧
      k.procList = [0, 1, 3] ∧ (k.proc 3).pPproc = some 1 ∧ Family k := by
  have h : check (guarded .disabled (step 65536) fun k e ↦
      k.InitLeavesNone e ∧ ¬ k.HandsToDead e) boot timelyOrphanRun
      (fun k ↦ k.procList = [0, 1, 3] ∧ (k.proc 3).pPproc = some 1) = true := by
    decide +kernel
  obtain ⟨k, hk, hp⟩ := exists_of_check h
  obtain ⟨hl, h3⟩ := of_decide_eq_true hp
  have hr := Run.of_exec_guarded hk
  exact ⟨k, _, hr, hl, h3, family_of_run _ hr⟩

end Kernel

end CS402.Proc

import CS402.Proc.Tree

/-!
# Dead processes

When may a process be marked `PROC_DEAD`?  `proc_cleanup` does it first of all,
before the calls in which it may block, and `sched_cancellable_sleep_on` does it
for a cancelled thread that then goes on running.  In both cases a thread of a dead
process can end up on a queue again.

* `interrupted_refutes` runs into this: a cancelled thread of a process that is
  marked dead yields, and the assertion of `do_waitpid` fails.
* `quiet_of_noBlocksDead` shows that giving up the processor is the only way to get
  there: in every run in which no thread of a dead process sleeps or yields before
  its last `sched_switch`, the threads of a dead process have exited, are on no
  queue and never run again, and whatever `do_waitpid` frees is not in use.
-/

namespace CS402.Proc

open CS402.Lib

namespace Kernel

variable {k k' : Kernel} {t u : Tid} {p c : Pid}

/-- The running thread belongs to a dead process. -/
def CurDead (k : Kernel) : Prop :=
  match k.sched.curthr with
  | some t => k.pState (k.procOf t) = .dead
  | none => False

/-- `do_waitpid` of the running thread goes to sleep. -/
def WaitSleeps (k : Kernel) (pid : Int) : Prop :=
  match k.sched.curthr with
  | some t =>
    match k.look (k.procOf t) pid with
    | .sleep _ => True
    | _ => False
  | none => False

/-- A thread of a dead process gives up the processor although it is not done: it
sleeps inside `proc_cleanup`, or it has been told that it was interrupted and now
yields, sleeps or waits. -/
def BlocksDead (k : Kernel) : ProcEv → Prop
  | .exit _ next => next ≠ .no
  | .kill p _ next => k.sched.curthr.map k.procOf = some p ∧ next ≠ .no
  | .yield | .sleepOn _ => k.CurDead
  | .waitpid pid => k.CurDead ∧ k.WaitSleeps pid
  | _ => False

instance : Decidable k.CurDead :=
  match h : k.sched.curthr with
  | some t => decidable_of_iff (k.pState (k.procOf t) = .dead) (by simp [CurDead, h])
  | none => .isFalse (by simp [CurDead, h])

instance {pid : Int} : Decidable (k.WaitSleeps pid) :=
  match h : k.sched.curthr with
  | some t =>
    match h' : k.look (k.procOf t) pid with
    | .sleep _ => .isTrue (by simp only [WaitSleeps, h, h'])
    | .echild => .isFalse (by simp only [WaitSleeps, h, h', not_false_eq_true])
    | .reap _ => .isFalse (by simp only [WaitSleeps, h, h', not_false_eq_true])
  | none => .isFalse (by simp [WaitSleeps, h])

instance : (e : ProcEv) → Decidable (k.BlocksDead e)
  | .exit _ next => inferInstanceAs (Decidable (next ≠ .no))
  | .kill p _ next =>
    inferInstanceAs (Decidable (k.sched.curthr.map k.procOf = some p ∧ next ≠ .no))
  | .yield | .sleepOn _ => inferInstanceAs (Decidable k.CurDead)
  | .waitpid pid => inferInstanceAs (Decidable (k.CurDead ∧ k.WaitSleeps pid))
  | .procCreate | .kthreadCreate _ | .makeRunnable _ | .cancellableSleepOn _ | .wakeup _
  | .broadcast _ | .cancel _ | .resume _ | .dispatch => inferInstanceAs (Decidable False)

/-- **The threads of a dead process** have exited and are on no queue. -/
def Quiet (k : Kernel) : Prop :=
  ∀ p, k.pState p = .dead → ∀ t ∈ (k.proc p).pThreads,
    (k.sched.kthread t).ktState = .exited ∧ ∀ q, t ∉ k.sched.waiters q

/-! ## A dead process that runs on -/

/-- Init sleeps cancellably, is killed by the idle process, is told `-EINTR`, and
yields. -/
def interruptedRun : List ProcEv :=
  [.procCreate, .kthreadCreate 1, .makeRunnable 1, .yield, .resume .no, .cancellableSleepOn 0,
    .resume .no, .kill 1 0 .no, .yield, .resume .no, .yield]

/-- **A dead process is scheduled again.**  After this run init is `PROC_DEAD`, its
thread is in state `KT_RUN` on the run queue, and when the idle process then waits,
the assertion of `do_waitpid` fails. -/
theorem interrupted_refutes :
    ∃ k h, Run (ofStep (step 65536)) boot h k ∧ k.pState 1 = .dead ∧
      1 ∈ (k.proc 1).pThreads ∧ (k.sched.kthread 1).ktState = .run ∧
      1 ∈ k.sched.waiters .runq ∧ ¬ Quiet k ∧
      exec (step 65536) k [.resume .no, .waitpid (-1)] = .error .assertion := by
  have h : ∃ k, exec (step 65536) boot interruptedRun = .ok k ∧ k.pState 1 = .dead ∧
      1 ∈ (k.proc 1).pThreads ∧ (k.sched.kthread 1).ktState = .run ∧
      1 ∈ k.sched.waiters .runq ∧
      exec (step 65536) k [.resume .no, .waitpid (-1)] = .error .assertion :=
    ⟨_, rfl, rfl, by decide, rfl, by decide, rfl⟩
  obtain ⟨k, hk, hd, hm, hs, hq, ha⟩ := h
  refine ⟨k, _, Run.of_exec hk, hd, hm, hs, hq, fun hQ ↦ ?_, ha⟩
  exact (hQ 1 hd 1 hm).2 _ hq

/-! ## The invariant of calm runs -/

/-- The threads of dead processes have exited, are on no queue and, with the exception
of `z`, are gone for good. -/
def Hushed (k : Kernel) (z : Option Tid) : Prop :=
  ∀ p, k.pState p = .dead → ∀ t ∈ (k.proc p).pThreads,
    (k.sched.kthread t).ktState = .exited ∧ (k.sched.kthread t).ktWchan = none ∧
      (z = some t ∨ k.pc t = .gone)

/-- What holds along a run in which no thread of a dead process gives up the
processor.  The running thread may belong to a dead process, but then it has been told
that it was cancelled. -/
structure Calm (k : Kernel) : Prop where
  hushed : Hushed k k.sched.curthr
  told : ∀ t, k.sched.curthr = some t → k.pState (k.procOf t) = .dead →
    k.pc t = .code ∧ (k.sched.kthread t).ktCancelled = true
  cleanup : ∀ t, k.pc t ≠ .inVput ∧ k.pc t ≠ .inClose

theorem Calm.boot : Calm boot where
  hushed p hd := by simp [Kernel.boot] at hd
  told t _ hd := by simp [Kernel.boot] at hd
  cleanup t := by
    simp only [Kernel.boot]
    split <;> simp

variable {z : Option Tid} {q : Wq Pq} {status : Int} {next : Blocks} {procMaxCount : Nat}
  {e : ProcEv}

theorem Hushed.alive (hz : Hushed k z) (h : Threads k)
    (hq : (k.sched.kthread t).ktWchan = some q) : k.pState (k.procOf t) ≠ .dead := by
  intro hd
  have := (hz _ hd t (h.queued t q hq).1).2.1
  rw [hq] at this
  cases this

theorem Hushed.update (hz : Hushed k z) (h : Threads k) (t : Tid) (hproc : k'.proc = k.proc)
    (hst : k'.sched.pState = k.sched.pState)
    (hother : ∀ u, u ≠ t → k'.sched.kthread u = k.sched.kthread u ∧ k'.pc u = k.pc u)
    (halive : k.pState (k.procOf t) ≠ .dead) : Hushed k' z := by
  intro p hd u hu
  rw [hproc] at hu
  have hd' : k.pState p = .dead := (congrFun hst p).symm.trans hd
  have hut : u ≠ t := by
    rintro rfl
    rw [h.owner p u hu] at halive
    exact halive hd'
  obtain ⟨hk, hp⟩ := hother u hut
  rw [hk, hp]
  exact hz p hd' u hu

theorem Calm.switch (hz : Hushed k none) (hcl : ∀ t, k.pc t ≠ .inVput ∧ k.pc t ≠ .inClose)
    (h : Threads k) : Calm (k.withSched k.sched.schedSwitch) := by
  rcases k.sched.schedSwitch_cases with ⟨_, he⟩ | ⟨l, u, hq, he⟩
  · refine ⟨?_, ?_, hcl⟩
    · intro p hd t ht
      obtain ⟨h₁, h₂, h₃⟩ := hz p (by simpa [he] using hd) t ht
      exact ⟨by simpa [he] using h₁, by simpa [he] using h₂, .inr (by simpa using h₃)⟩
    · intro t ht
      simp [he] at ht
  · obtain ⟨hw, _⟩ := h.mem (t := u) (q := .runq) (by simp [hq])
    have halive := hz.alive h hw
    have hz' : Hushed (k.withSched k.sched.schedSwitch) none := by
      refine hz.update h u rfl (by simp [he]) ?_ halive
      intro v hv
      simp [he, hv]
    refine ⟨?_, ?_, hcl⟩
    · intro p hd t ht
      obtain ⟨h₁, h₂, h₃⟩ := hz' p hd t ht
      exact ⟨h₁, h₂, .inr (by simpa using h₃)⟩
    · intro t ht hd
      obtain rfl : u = t := by simpa [he] using ht
      exact absurd (by simpa [he] using hd) halive

theorem Calm.hushed_none (hc : Calm k) (h : Threads k) (hd : ¬ k.CurDead) : Hushed k none := by
  intro p hp t ht
  obtain ⟨h₁, h₂, h₃⟩ := hc.hushed p hp t ht
  refine ⟨h₁, h₂, .inr (h₃.resolve_left ?_)⟩
  intro hcur
  rw [CurDead, hcur] at hd
  rw [← h.owner p t ht] at hp
  exact hd hp

theorem curDead_iff (ht : k.sched.curthr = some t) : k.CurDead ↔ k.pState (k.procOf t) = .dead := by
  simp [CurDead, ht]

section

variable (hc : Calm k)
include hc

/-- The running thread of a process that is alive is put on a queue, and the next one
runs. -/
theorem Calm.enqueue (h : Inv k) (ht : k.sched.curthr = some t)
    (hd : ¬ k.CurDead) {st : KtState} {c : Pc} (hpc : c ≠ .inVput ∧ c ≠ .inClose)
    (hth : Threads ((k.withSched
      ((k.sched.modify t fun u ↦ { u with ktState := st }).link q t)).setPc t c)) :
    Calm ((k.withSched
      ((k.sched.modify t fun u ↦ { u with ktState := st }).link q t).schedSwitch).setPc t c) := by
  refine Calm.switch
    ?_ ?_ hth
  · refine (hc.hushed_none h.toThreads hd).update h.toThreads t rfl rfl ?_
      (fun h' ↦ hd ((curDead_iff ht).mpr h'))
    intro u hu
    simp [hu]
  · intro u
    by_cases hu : u = t
    · simpa [hu] using hpc
    · simpa [hu] using hc.cleanup u

theorem Calm.sleepAt (h : Inv k) (ht : k.sched.curthr = some t)
    (hd : ¬ k.CurDead) {c : Pc} (hw : c.Waits) (hq : k.MaySleep t q c)
    (hpc : c ≠ .inVput ∧ c ≠ .inClose) (he : k.sleepAt q t c = .ok k') : Calm k' := by
  obtain ⟨_, rfl⟩ := sleepAt_eq_ok.mp he
  exact hc.enqueue h ht hd hpc (h.asleep ht hw hq)

theorem Calm.moveToRunq (h : Inv k) (ht : t ∈ k.sched.waiters q) :
    Calm (k.withSched
      (((k.sched.unlink q t).modify t fun u ↦ { u with ktState := .run }).link .runq t)) := by
  obtain ⟨hw, _⟩ := h.mem ht
  refine ⟨hc.hushed.update h.toThreads t rfl rfl ?_ (hc.hushed.alive h.toThreads hw), ?_,
    hc.cleanup⟩
  · intro u hu; simp [hu]
  · intro u hu hd
    have hut : u ≠ t := by
      rintro rfl
      exact h.cur_notMem hu q ht
    simpa [hut] using hc.told u hu (by simpa [hut] using hd)

theorem Calm.modifyThread {f : Kthread Pq → Kthread Pq} (hf : Notes f) :
    Calm (k.withSched (k.sched.modify t f)) where
  hushed p hd u hu := by
    have := hc.hushed p hd u hu
    by_cases hut : u = t
    · subst hut; simpa [hf.ktState, hf.ktWchan] using this
    · simpa [hut] using this
  told u hu hd := by
    by_cases hut : u = t
    · subst hut
      obtain ⟨h₁, h₂⟩ := hc.told u hu (by simpa [hf.ktProc] using hd)
      exact ⟨h₁, by simpa using hf.ktCancelled _ h₂⟩
    · simpa [hut] using hc.told u hu (by simpa [hut] using hd)
  cleanup := hc.cleanup

omit hc in
theorem Calm.cancels : Cancels fun k ↦ Inv k ∧ Calm k where
  move h ht := ⟨h.1.moveToRunq ht, h.2.moveToRunq h.1 ht⟩
  notes h hf := ⟨h.1.modifyThread hf, h.2.modifyThread hf⟩

theorem Calm.setCode (ht : k.sched.curthr = some t) :
    Calm (k.setPc t .code) where
  hushed p hd u hu := by
    obtain ⟨h₁, h₂, h₃⟩ := hc.hushed p hd u hu
    refine ⟨h₁, h₂, ?_⟩
    by_cases hut : u = t
    · rw [hut]; exact .inl ht
    · simpa [hut] using h₃
  told u hu hd := by
    obtain rfl : t = u := Option.some.inj (ht.symm.trans hu)
    exact ⟨by simp, (hc.told t hu hd).2⟩
  cleanup u := by
    by_cases hut : u = t
    · simp [hut]
    · simpa [hut] using hc.cleanup u

theorem Calm.interrupted (h : Inv k) (ht : k.sched.curthr = some t)
    (hcan : (k.sched.kthread t).ktCancelled = true) :
    Calm ((k.withSched (k.sched.interrupted t)).setPc t .code) where
  hushed p hd u hu := by
    by_cases hut : u = t
    · subst hut
      exact ⟨by simp, by simpa using (h.cur u ht).1, .inl ht⟩
    · have hp : p ≠ (k.sched.kthread t).ktProc := by
        rintro rfl
        exact hut (h.single _ u hu t (h.cur t ht).2.1)
      simpa [hut] using hc.hushed p (by simpa [hp] using hd) u hu
  told u hu _ := by
    obtain rfl : t = u := Option.some.inj (ht.symm.trans hu)
    simpa using hcan
  cleanup u := by
    by_cases hut : u = t
    · simp [hut]
    · simpa [hut] using hc.cleanup u

end

theorem Hushed.table (hz : Hushed k z) (hs : k'.sched = k.sched) (hpc : k'.pc = k.pc)
    (hthr : ∀ p, ∀ t ∈ (k'.proc p).pThreads, t ∈ (k.proc p).pThreads) : Hushed k' z := by
  intro p hd t ht
  rw [pState, hs] at hd
  rw [hs, hpc]
  exact hz p hd t (hthr p t ht)

theorem Calm.table (hc : Calm k) (hs : k'.sched = k.sched) (hpc : k'.pc = k.pc)
    (hthr : ∀ p, ∀ t ∈ (k'.proc p).pThreads, t ∈ (k.proc p).pThreads) : Calm k' where
  hushed := by rw [hs]; exact hc.hushed.table hs hpc hthr
  told t ht hd := by
    rw [hs] at ht
    rw [pState, procOf, hs] at hd
    rw [hs, hpc]
    exact hc.told t ht hd
  cleanup t := by rw [hpc]; exact hc.cleanup t

theorem mem_status {st : Int} {q : Pid} : t ∈ ((k.modifyProc p fun b ↦
    { b with pStatus := st }).proc q).pThreads ↔ t ∈ (k.proc q).pThreads := by
  by_cases hq : q = p
  · subst hq; simp
  · simp [hq]

theorem Calm.addProc (hc : Calm k) (h : Inv k) (hp : p ∈ k.procList) {pid next : Int} :
    Calm (k.addProc p pid next) := by
  have hpn := h.lt p hp
  -- a process with a thread is an old one
  have hold : ∀ q t, t ∈ (k.proc q).pThreads → (k.addProc p pid next).pState q = k.pState q := by
    intro q t ht
    simp [Kernel.addProc, h.lt q (h.thread q t ht).1]
  refine ⟨?_, ?_, hc.cleanup⟩
  · intro q hd t ht
    have ht' := (h.addProc_threads hpn).mp ht
    rw [hold q t ht'] at hd
    exact hc.hushed q hd t ht'
  · intro t ht hd
    refine hc.told t ht ?_
    exact (hold _ t (h.cur t ht).2.1).symm.trans hd

theorem Calm.addThread (hc : Calm k) (h : Inv k) (hp : p ∈ k.procList)
    (hnil : (k.proc p).pThreads = []) : Calm (k.addThread p) := by
  refine ⟨?_, ?_, ?_⟩
  · intro q hd t ht
    rcases mem_addThread.mp ht with ⟨rfl, _⟩ | ht
    · exact absurd hnil (h.dead q hp hd)
    · simpa [h.ne_nthread ht] using hc.hushed q hd t ht
  · intro t ht hd
    have hne := h.ne_nthread (h.cur t ht).2.1
    simpa [hne] using hc.told t ht (by simpa [hne] using hd)
  · intro t
    by_cases hne : t = k.nthread
    · simp [hne]
    · simpa [hne] using hc.cleanup t

/-- The process of the running thread dies: the thread is the exception until it is
gone. -/
theorem Calm.dying (hc : Calm k) (h : Inv k) (ht : k.sched.curthr = some t) :
    Hushed (k.dying t status) (some t) := by
  refine Hushed.table (k := (k.withSched (k.sched.modify t _)).setPState (k.procOf t) .dead)
    ?_ rfl rfl (fun q u ↦ mem_status.mp)
  intro p hd u hu
  by_cases hut : u = t
  · subst hut
    simpa using (h.cur u ht).1
  · have hp : p ≠ (k.sched.kthread t).ktProc := by
      rintro rfl
      exact hut (h.single _ u hu t (h.cur t ht).2.1)
    obtain ⟨h₁, h₂, h₃⟩ := hc.hushed p (by simpa [hp] using hd) u hu
    rw [ht] at h₃
    exact ⟨by simpa [hut] using h₁, by simpa [hut] using h₂, h₃⟩

theorem Hushed.wakeup (hz : Hushed k z) (h : Threads k) {r : Option Tid}
    {sc : Sched Pq} (he : k.sched.schedWakeupOn q = .ok (r, sc)) : Hushed (k.withSched sc) z := by
  rcases Sched.schedWakeupOn_eq_ok.mp he with ⟨_, _, rfl⟩ | ⟨l, t, hq, _, _, rfl⟩
  · exact hz
  · obtain ⟨hw, _⟩ := h.mem (t := t) (q := q) (by simp [hq])
    refine hz.update h t rfl rfl ?_ (hz.alive h hw)
    intro u hu
    simp [hu]

section

variable (hc : Calm k) (h : Inv k) (ht : k.sched.curthr = some t)
include hc h ht

theorem Calm.exit
    (hpc : k.pc t = .code) (he : k.doExit t status .no = .ok k') : Calm k' := by
  rw [h.doExit_eq ht] at he
  obtain ⟨_, he⟩ := kthreadExit_eq_ok.mp he
  have hi := h.dying ht status
  obtain ⟨i, pp, r, sc, _, _, hsc, hi', ht', he⟩ :=
    hi.cleanupWake_cases ht (fun c hc ↦ absurd (hpc.symm.trans hc) (by simp)) he
  have hz : Hushed ((k.dying t status).withSched sc) (some t) :=
    (hc.dying h ht).wakeup hi.toThreads hsc
  obtain ⟨hfs, hfp, _, _, hft⟩ := reparent_frame (p := (k.dying t status).procOf t) (i := i)
    ((k.dying t status).withSched sc)
  have hz' := hz.table hfs hfp (fun q u hu ↦ hft q ▸ hu)
  cases he
  refine Calm.switch
    ?_ ?_ (hi'.gone ht')
  · intro p hd u hu
    obtain ⟨h₁, h₂, h₃⟩ := hz' p hd u hu
    refine ⟨h₁, h₂, .inr ?_⟩
    by_cases hut : u = t
    · simp [hut]
    · simpa [hut, Ne.symm hut] using h₃
  · intro u
    by_cases hut : u = t
    · simp [hut]
    · have := hc.cleanup u
      simp only [setPc, Function.update_of_ne hut, hfp]
      exact this

theorem Calm.afterLook {l : Look}
    (hl : Look.Fits k (k.procOf t) l) (hd : ∀ c, l = .sleep c → ¬ k.CurDead)
    (he : k.afterLook t l = .ok k') : Calm k' := by
  cases l with
  | echild =>
    cases he
    exact (hc.setCode ht).table rfl rfl fun _ _ ↦ id
  | reap c =>
    obtain ⟨_, rfl⟩ := reap_eq_ok.mp he
    exact (hc.setCode ht).table rfl rfl fun q u hu ↦ (mem_dispose_threads.mp hu).2
  | sleep c =>
    obtain ⟨hw, hq, hpc⟩ := hl.maySleep
    exact hc.sleepAt h ht (hd c rfl) hw hq hpc he

theorem Calm.cancellableSleep {q : Nat}
    (he : k.cancellableSleep t q = .ok k') : Calm k' := by
  obtain ⟨⟨r, sc⟩, hsc, he⟩ := bind_ok he
  cases he
  unfold Sched.schedCancellableSleepOn at hsc
  split at hsc
  · next hcan =>
    cases hsc
    exact hc.interrupted h ht hcan
  · next hcan =>
    simp only [Sched.ktqueueEnqueue, bind_eq_ok, demand_eq_ok, Except.ok.injEq] at hsc
    obtain ⟨_, ⟨_, hw, rfl⟩, hsc⟩ := hsc
    cases hsc
    refine hc.enqueue h ht ?_ (by simp)
      (h.toThreads.enqueue (by simpa using hw) (h.cur t ht).2.1 trivial (by simp) (by simp [Rests]))
    -- a thread of a dead process has been cancelled, so it does not sleep here
    intro hd
    exact hcan (hc.told t ht ((curDead_iff ht).mp hd)).2

end

theorem Calm.not_curDead (hc : Calm k) (ht : k.sched.curthr = some t) (hpc : k.pc t ≠ .code) :
    ¬ k.CurDead := fun hd ↦ hpc (hc.told t ht ((curDead_iff ht).mp hd)).1

theorem Calm.resume (hc : Calm k) (h : Inv k) (ht : k.sched.curthr = some t)
    (he : k.resume t next = .ok k') : Calm k' := by
  unfold Kernel.resume at he
  split at he
  · cases he
    exact hc.setCode ht
  · cases he
    unfold Sched.schedCancellableWake
    split
    · next hcan => exact hc.interrupted h ht hcan
    · exact hc.setCode ht
  · next hpc =>
    exact hc.afterLook h ht (k.lookAny_fits _) (fun _ _ ↦ hc.not_curDead ht (by simp [hpc])) he
  · next c hpc =>
    exact hc.afterLook h ht (lookPid_fits (h.waits t (h.cur t ht).2.1 c hpc))
      (fun _ _ ↦ hc.not_curDead ht (by simp [hpc])) he
  · next hpc => exact absurd hpc (hc.cleanup t).1
  · next hpc => exact absurd hpc (hc.cleanup t).2
  · cases he

theorem Calm.act (hc : Calm k) (h : Inv k)
    (hb : ¬ k.BlocksDead e) (he : k.act procMaxCount e = .ok k') : Calm k' := by
  cases act_ok he with
  | procCreate ht => exact hc.addProc h (h.thread _ _ (h.cur _ ht).2.1).1
  | kthreadCreate hp hnil => exact hc.addThread h hp hnil
  | @makeRunnable t hf hw =>
    obtain ⟨hs, _, hm⟩ := h.fresh t hf
    have halive : k.pState (k.procOf t) ≠ .dead := by
      intro hd
      exact absurd (hs.symm.trans (hc.hushed _ hd t hm).1) (by simp)
    have hne : ∀ u, k.sched.curthr = some u → u ≠ t := by
      rintro u hu rfl
      have := (h.cur u hu).2.2
      simp [hf, Pc.Waits] at this
    refine ⟨hc.hushed.update h.toThreads t rfl rfl ?_ halive, ?_, ?_⟩
    · intro u hu; simp [readied, hu]
    · intro u hu hd
      have hut := hne u hu
      simpa [readied, hut] using hc.told u hu (by simpa [readied, hut] using hd)
    · intro u
      by_cases hut : u = t
      · simp [readied, hut]
      · simpa [readied, hut] using hc.cleanup u
  | @exit t status next _ ht hpc he =>
    obtain rfl : next = .no := not_not.mp hb
    exact hc.exit h ht hpc he
  | @kill t p status next _ ht hpc he =>
    unfold Kernel.procKill at he
    split at he
    · next hp =>
      obtain rfl : next = .no := by
        by_contra hn
        exact hb ⟨by rw [ht, hp]; rfl, hn⟩
      exact hc.exit h ht hpc he
    · obtain ⟨_, _, he⟩ := bind_ok he
      obtain ⟨k₁, h₁, he⟩ := bind_ok he
      cases he
      exact (Calm.cancels.cancelAll ⟨h, hc⟩ h₁).2.table rfl rfl fun q u ↦ mem_status.mp
  | @waitpid t pid _ ht hpc he =>
    refine hc.afterLook h ht (k.look_fits _ pid) (fun c hl hd ↦ hb ⟨hd, ?_⟩) he
    simp only [WaitSleeps, ht, hl]
  | @yield t ht hpc hw =>
    exact hc.enqueue h ht hb (by simp) (h.toThreads.runnable hw (h.cur t ht).2.1)
  | @sleepOn t q _ ht hpc he =>
    exact hc.sleepAt (c := .suspended) h ht hb trivial (.inl ⟨⟨q, rfl⟩, by simp⟩) (by simp) he
  | cancellableSleepOn ht hpc he => exact hc.cancellableSleep h ht he
  | wakeup hsc => exact (Calm.cancels.wakeup ⟨h, hc⟩ hsc).2
  | broadcast hsc => exact (Calm.cancels.broadcast ⟨h, hc⟩ hsc).2
  | cancel hsc => exact (Calm.cancels.cancel ⟨h, hc⟩ hsc).2
  | resume ht he => exact hc.resume h ht he
  | dispatch hn =>
    exact Calm.switch (hc.hushed_none h.toThreads (by simp [CurDead, hn])) hc.cleanup h.toThreads

/-- **One step** in which no thread of a dead process gives up the processor. -/
theorem Calm.step (hc : Calm k) (h : Inv k)
    (hb : ¬ k.BlocksDead e) (he : k.step procMaxCount e = .ok k') : Calm k' :=
  Calm.act (k := { k with ret := none }) (hc.table rfl rfl fun _ _ ↦ id) h.resetRet hb he

/-! ## Gone for good -/

/-- Between `k` and `k'` only the thread `t` has moved. -/
def Moves (t : Tid) (k k' : Kernel) : Prop :=
  (∀ u, u ≠ t → k'.pc u = k.pc u) ∧ k'.nthread = k.nthread

theorem Moves.setPc {c : Pc} (hpc : k'.pc = Function.update k.pc t c)
    (hn : k'.nthread = k.nthread) : Moves t k k' :=
  ⟨fun u hu ↦ by simp [hpc, hu], hn⟩

theorem Shifts.moves {c' : Pc} (h : Shifts t c' k k') : Moves t k k' := .setPc h.pc h.nthread

theorem Moves.afterLook {l : Look} (he : k.afterLook t l = .ok k') : Moves t k k' := by
  cases l with
  | echild => cases he; exact .setPc rfl rfl
  | reap c =>
    obtain ⟨_, rfl⟩ := reap_eq_ok.mp he
    exact .setPc rfl rfl
  | sleep c => exact (Shifts.sleepAt he).1.moves

theorem Moves.doExit (he : k.doExit t status next = .ok k') : Moves t k k' := by
  obtain ⟨k₁, h₁, he⟩ := bind_ok he
  obtain ⟨sc, _, h₁⟩ := bind_ok h₁
  cases h₁
  obtain ⟨_, he⟩ := kthreadExit_eq_ok.mp he
  obtain ⟨_, hs, _⟩ := Shifts.cleanupVput he
  exact ⟨hs.moves.1, hs.moves.2⟩

theorem Moves.resume (he : k.resume t next = .ok k') : Moves t k k' := by
  unfold Kernel.resume at he
  split at he
  · cases he; exact .setPc rfl rfl
  · cases he; exact .setPc rfl rfl
  · exact .afterLook he
  · exact .afterLook he
  · obtain ⟨_, hs, _⟩ := Shifts.cleanupVput he
    exact hs.moves
  · obtain ⟨_, hs, _⟩ := Shifts.cleanupClose he
    exact hs.moves
  · cases he

/-- A step moves the running thread or a thread that has not run yet, or it adds a
thread. -/
theorem act_moves (he : k.act procMaxCount e = .ok k') :
    (∃ t, (k.sched.curthr = some t ∨ k.pc t = .fresh) ∧ Moves t k k') ∨
      (k'.pc = k.pc ∧ k'.nthread = k.nthread) ∨ ∃ p, k' = k.addThread p := by
  cases act_ok he with
  | procCreate => exact .inr (.inl ⟨rfl, rfl⟩)
  | kthreadCreate => exact .inr (.inr ⟨_, rfl⟩)
  | makeRunnable hf => exact .inl ⟨_, .inr hf, .setPc rfl rfl⟩
  | exit ht _ he => exact .inl ⟨_, .inl ht, .doExit he⟩
  | kill ht _ he =>
    unfold Kernel.procKill at he
    split at he
    · exact .inl ⟨_, .inl ht, .doExit he⟩
    · obtain ⟨_, _, he⟩ := bind_ok he
      obtain ⟨k₁, h₁, he⟩ := bind_ok he
      obtain ⟨sc, _, h₁⟩ := bind_ok h₁
      cases h₁
      cases he
      exact .inr (.inl ⟨rfl, rfl⟩)
  | waitpid ht _ he => exact .inl ⟨_, .inl ht, .afterLook he⟩
  | yield ht => exact .inl ⟨_, .inl ht, .setPc rfl rfl⟩
  | sleepOn ht _ he => exact .inl ⟨_, .inl ht, (Shifts.sleepAt he).1.moves⟩
  | cancellableSleepOn ht _ he =>
    obtain ⟨⟨r, sc⟩, _, he⟩ := bind_ok he
    cases he
    exact .inl ⟨_, .inl ht, .setPc rfl rfl⟩
  | wakeup => exact .inr (.inl ⟨rfl, rfl⟩)
  | broadcast => exact .inr (.inl ⟨rfl, rfl⟩)
  | cancel => exact .inr (.inl ⟨rfl, rfl⟩)
  | resume ht he => exact .inl ⟨_, .inl ht, .resume he⟩
  | dispatch => exact .inr (.inl ⟨rfl, rfl⟩)

theorem Inv.not_cur_of_gone (h : Inv k) (hg : k.pc t = .gone) : k.sched.curthr ≠ some t := by
  intro ht
  have := (h.cur t ht).2.2
  simp [hg, Pc.Waits] at this

theorem gone_step (h : Inv k)
    (he : k.step procMaxCount e = .ok k') (hg : k.pc t = .gone) (hb : t < k.nthread) :
    k'.pc t = .gone ∧ t < k'.nthread := by
  rcases act_moves he with ⟨u, hu, hpc, hn⟩ | ⟨hpc, hn⟩ | ⟨p, rfl⟩
  · have htu : t ≠ u := by
      rintro rfl
      rcases hu with hu | hu
      · exact h.not_cur_of_gone hg hu
      · exact absurd (hg.symm.trans hu) (by simp)
    exact ⟨(hpc t htu).trans hg, hn ▸ hb⟩
  · exact ⟨(congrFun hpc t).trans hg, hn ▸ hb⟩
  · refine ⟨?_, Nat.lt_succ_of_lt hb⟩
    simpa [Nat.ne_of_lt hb] using hg

/-- **Gone threads stay gone**, along every run, with no condition on its steps. -/
theorem gone_run {hist : List ProcEv} (h : Inv k)
    (hr : Run (ofStep (Kernel.step procMaxCount)) k hist k') (hg : k.pc t = .gone)
    (hb : t < k.nthread) : k'.sched.curthr ≠ some t := by
  have : Inv k' ∧ k'.pc t = .gone ∧ t < k'.nthread := by
    refine hr.invariant (I := fun k ↦ Inv k ∧ k.pc t = .gone ∧ t < k.nthread) ?_ ⟨h, hg, hb⟩
    rintro k₁ e k₂ ⟨h₁, hg₁, hb₁⟩ he
    exact ⟨h₁.step he, gone_step h₁ he hg₁ hb₁⟩
  exact this.1.not_cur_of_gone this.2.1

/-! ## Dead processes are at rest -/

/-- **A dead process never runs again**, unless one of its threads gives up the
processor too early.  In every run in which that does not happen, the following holds
in every state.  The threads of a dead process have exited and are on no queue.  Such a
thread, once switched away from, never runs again.  A thread that runs or is on a queue
has not been destroyed, and its process has not been freed.  The assertion of
`do_waitpid` about the threads of a dead child holds. -/
theorem quiet_of_noBlocksDead (procMaxCount : Nat) {hist : List ProcEv}
    (hr : Run (restrict (ofStep (step procMaxCount)) fun k e ↦ ¬ k.BlocksDead e) boot hist k) :
    Quiet k ∧
    (∀ p, k.pState p = .dead → ∀ t ∈ (k.proc p).pThreads, k.sched.curthr ≠ some t →
      ∀ hist' k', Run (ofStep (step procMaxCount)) k hist' k' → k'.sched.curthr ≠ some t) ∧
    (∀ t, (k.sched.curthr = some t ∨ ∃ q, t ∈ k.sched.waiters q) →
      t ∈ (k.proc (k.procOf t)).pThreads ∧ k.procOf t ∈ k.procList) ∧
    (∀ p c, k.pState c = .dead → ∃ k', k.reap p c = .ok k') := by
  obtain ⟨h, hc⟩ : Inv k ∧ Calm k := by
    refine hr.invariant (I := fun k ↦ Inv k ∧ Calm k) ?_ ⟨Inv.boot, Calm.boot⟩
    rintro k₁ e k₂ ⟨h₁, hc₁⟩ ⟨hb, he⟩
    exact ⟨h₁.step he, hc₁.step h₁ hb he⟩
  refine ⟨?_, ?_, ?_, ?_⟩
  · intro p hd t ht
    obtain ⟨h₁, h₂, _⟩ := hc.hushed p hd t ht
    exact ⟨h₁, h.linked.notMem h₂⟩
  · intro p hd t ht hne hist' k' hr'
    have hg := (hc.hushed p hd t ht).2.2.resolve_left hne
    exact gone_run h hr' hg (h.thread p t ht).2
  · intro t ht
    have hm : t ∈ (k.proc (k.procOf t)).pThreads := by
      rcases ht with ht | ⟨q, hq⟩
      · exact (h.cur t ht).2.1
      · exact (h.mem hq).2.1
    exact ⟨hm, (h.thread _ t hm).1⟩
  · intro p c hd
    exact ⟨_, reap_eq_ok.mpr ⟨fun t ht ↦ (hc.hushed c hd t ht).1, rfl⟩⟩

/-- Init sleeps cancellably, is killed, is told `-EINTR` and exits. -/
def promptRun : List ProcEv :=
  [.procCreate, .kthreadCreate 1, .makeRunnable 1, .yield, .resume .no, .cancellableSleepOn 0,
    .resume .no, .kill 1 0 .no, .yield, .resume .no, .exit 0 .no]

/-- The theorem at a run in which a cancelled thread exits at once: init is dead, and
its thread is at rest. -/
theorem quiet_promptRun :
    ∃ k h, Run (restrict (ofStep (step 65536)) fun k e ↦ ¬ k.BlocksDead e) boot h k ∧
      k.pState 1 = .dead ∧ 1 ∈ (k.proc 1).pThreads ∧ Quiet k := by
  have h : ∃ k, exec (guarded .disabled (step 65536) fun k e ↦ ¬ k.BlocksDead e) boot promptRun =
      .ok k ∧ k.pState 1 = .dead ∧ 1 ∈ (k.proc 1).pThreads := ⟨_, rfl, rfl, by decide⟩
  obtain ⟨k, hk, hd, hm⟩ := h
  have hr := Run.of_exec_guarded hk
  exact ⟨k, _, hr, hd, hm, (quiet_of_noBlocksDead _ hr).1⟩

end Kernel

end CS402.Proc

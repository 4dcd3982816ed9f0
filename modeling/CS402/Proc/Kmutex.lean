import CS402.Lib.Trans
import CS402.Proc.Sched

/-!
# Mutexes

The model of `kernel/proc/kmutex.c`: any number of threads use one mutex, yield,
exit and cancel one another, under the scheduler of `CS402.Proc.Sched`.

`kmutex_unlock` hands the mutex to the thread that has waited longest and makes
it runnable, but that thread learns about it only when it runs again.
`kmutex_lock_cancellable` decides what to return at that later moment, by looking
at `kt_cancelled` alone.  Between the two moments lies the window this file is
about: a thread that is cancelled there is told `-EINTR` while it owns the mutex.

* `Kmutex.step` is the system; `Kmutex.ret` remembers the value that
  `kmutex_lock_cancellable` returned in the last step.
* `Told` says that the value tells the truth about ownership.
* `lateCancel_refutes` runs into the window.
* `told_of_noLateCancel` shows that the window is the only way to fail: in every
  run that never cancels a new owner before it has run, every return is truthful.
-/

namespace CS402.Proc

open CS402.Lib

/-- Where a thread is. -/
inductive MutexPc where
  /-- Not started. -/
  | unborn
  /-- Suspended outside the mutex calls: just started, or it has yielded. -/
  | ready
  /-- Running its own code. -/
  | code
  /-- Suspended in the sleep of `kmutex_lock`. -/
  | inLock
  /-- Suspended in the sleep of `kmutex_lock_cancellable`. -/
  | inLockCancellable
  /-- Gone. -/
  | exited
deriving DecidableEq, Repr

/-- A mutex with the threads that use it; the queue `()` is `km_waitq`. -/
structure Kmutex where
  sched : Sched Unit
  kmHolder : Option Tid
  pc : Tid → MutexPc
  /-- The thread to which `kmutex_lock_cancellable` returned in the last step, and
  the value: `none` is `0`. -/
  ret : Option (Tid × Option Errno)

/-- What can happen. -/
inductive MutexEv where
  | lock
  | lockCancellable
  | unlock
  /-- `sched_make_runnable(curthr); sched_switch();` -/
  | yield
  | exit (retval : Int)
  /-- The running thread goes on after the switch that suspended it. -/
  | resume
  /-- `sched_switch` finds a thread after it had to wait for one. -/
  | dispatch
  /-- A new thread is made runnable. -/
  | spawn (t : Tid)
  | cancel (t : Tid)
  | kthreadCancel (t : Tid) (retval : Int)
deriving DecidableEq, Repr

namespace Kmutex

/-- `km_waitq`. -/
abbrev waitq : Wq Unit := .on ()

/-- The running thread, if it is in its own code. -/
def caller (s : Kmutex) : Except Fault Tid := do
  let t ← follow .disabled s.sched.curthr
  demand .disabled (s.pc t = .code)
  .ok t

/-- `kmutex_lock`. -/
def kmutexLock (s : Kmutex) (t : Tid) : Except Fault Kmutex := do
  demand .assertion (s.kmHolder ≠ some t)
  if s.kmHolder = none then
    .ok { s with kmHolder := some t, ret := none }
  else
    let sc ← s.sched.schedSleepOn waitq t
    .ok { s with sched := sc, pc := Function.update s.pc t .inLock, ret := none }

/-- `kmutex_lock_cancellable`, up to its return or to the switch. -/
def kmutexLockCancellable (s : Kmutex) (t : Tid) : Except Fault Kmutex := do
  demand .assertion (s.kmHolder ≠ some t)
  if s.kmHolder = none then
    .ok { s with kmHolder := some t, ret := some (t, none) }
  else
    match ← s.sched.schedCancellableSleepOn waitq t with
    | (some e, sc) => .ok { s with sched := sc, ret := some (t, some e) }
    | (none, sc) =>
      .ok { s with sched := sc, pc := Function.update s.pc t .inLockCancellable, ret := none }

/-- `kmutex_unlock`. -/
def kmutexUnlock (s : Kmutex) (t : Tid) : Except Fault Kmutex := do
  demand .assertion (s.kmHolder = some t)
  let (next, sc) ← s.sched.schedWakeupOn waitq
  demand .assertion (next ≠ some t)
  .ok { s with sched := sc, kmHolder := next, ret := none }

/-- `kthread_exit`, as far as this system is concerned. -/
def kthreadExit (s : Kmutex) (t : Tid) (retval : Int) : Except Fault Kmutex := do
  let sc := s.sched.modify t fun k ↦ { k with ktRetval := retval, ktState := .exited }
  demand .assertion ((sc.kthread t).ktWchan = none)
  let sc := { sc with pState := Function.update sc.pState (sc.kthread t).ktProc .dead }
  .ok { s with sched := sc.schedSwitch, pc := Function.update s.pc t .exited, ret := none }

/-- The rest of the call that suspended the running thread. -/
def resume (s : Kmutex) (t : Tid) : Except Fault Kmutex :=
  match s.pc t with
  | .ready | .inLock => .ok { s with pc := Function.update s.pc t .code, ret := none }
  | .inLockCancellable =>
    let (r, sc) := s.sched.schedCancellableWake t
    .ok { s with sched := sc, pc := Function.update s.pc t .code, ret := some (t, r) }
  | _ => .error .disabled

/-- One step of the system. -/
def step (s : Kmutex) : MutexEv → Except Fault Kmutex
  | .lock => do s.kmutexLock (← s.caller)
  | .lockCancellable => do s.kmutexLockCancellable (← s.caller)
  | .unlock => do s.kmutexUnlock (← s.caller)
  | .yield => do
    let t ← s.caller
    let sc ← s.sched.schedMakeRunnable t
    .ok { s with sched := sc.schedSwitch, pc := Function.update s.pc t .ready, ret := none }
  | .exit retval => do s.kthreadExit (← s.caller) retval
  | .resume => do s.resume (← follow .disabled s.sched.curthr)
  | .dispatch => do
    demand .disabled (s.sched.curthr = none)
    .ok { s with sched := s.sched.schedSwitch, ret := none }
  | .spawn t => do
    demand .disabled (s.pc t = .unborn)
    let sc ← s.sched.schedMakeRunnable t
    .ok { s with sched := sc, pc := Function.update s.pc t .ready, ret := none }
  | .cancel t => do
    let sc ← s.sched.schedCancel t
    .ok { s with sched := sc, ret := none }
  | .kthreadCancel t retval =>
    if s.sched.curthr = some t then do
      s.kthreadExit (← s.caller) retval
    else do
      let sc ← s.sched.kthreadCancel t retval
      .ok { s with sched := sc, ret := none }

/-- After `kmutex_init`: the mutex is free, thread `0` runs and no other thread
has been started.  Threads may have been cancelled before they start. -/
def init (cancelled : Tid → Bool) : Kmutex where
  sched :=
    { kthread := fun t ↦
        ⟨if t = 0 then .run else .noState, cancelled t, none, 0, t⟩
      ktqueue := fun _ ↦ ⟨[], 0⟩
      curthr := some 0
      pState := fun _ ↦ .running }
  kmHolder := none
  pc := fun t ↦ if t = 0 then .code else .unborn
  ret := none

/-- **What a return of `kmutex_lock_cancellable` says.**  It is `0` exactly when
the thread is the holder, and `-EINTR` exactly when the thread neither holds the
mutex nor waits for it. -/
def Told (s : Kmutex) : Prop :=
  ∀ t r, s.ret = some (t, r) →
    (r = none ↔ s.kmHolder = some t) ∧
    (r = some .EINTR ↔ s.kmHolder ≠ some t ∧ t ∉ s.sched.waiters waitq)

theorem Told.of_none {s : Kmutex} (h : s.ret = none) : Told s := fun t r hr ↦ by
  rw [h] at hr
  cases hr

/-- A cancellation that comes too late: its target has been handed the mutex in
`kmutex_lock_cancellable` and has not run since. -/
def LateCancel (s : Kmutex) : MutexEv → Prop
  | .cancel t | .kthreadCancel t _ => s.kmHolder = some t ∧ s.pc t = .inLockCancellable
  | _ => False

instance (s : Kmutex) : (e : MutexEv) → Decidable (LateCancel s e)
  | .cancel _ | .kthreadCancel _ _ => inferInstanceAs (Decidable (_ ∧ _))
  | .lock | .lockCancellable | .unlock | .yield | .exit _ | .resume | .dispatch | .spawn _ =>
    inferInstanceAs (Decidable False)

/-! ## The window -/

/-- Thread `1` waits, is handed the mutex, is cancelled, and then runs. -/
def window : List MutexEv :=
  [.spawn 1, .lock, .yield, .resume, .lockCancellable, .resume, .unlock, .cancel 1, .yield,
    .resume]

/-- **A cancelled owner is told that it failed.**  After this run thread `1` has
been told `-EINTR` and holds the mutex. -/
theorem lateCancel_refutes :
    ∃ s h, Run (ofStep step) (init fun _ ↦ false) h s ∧
      s.ret = some (1, some .EINTR) ∧ s.kmHolder = some 1 ∧ ¬ Told s := by
  have h : ∃ s, exec step (init fun _ ↦ false) window = .ok s ∧
      s.ret = some (1, some .EINTR) ∧ s.kmHolder = some 1 := ⟨_, rfl, rfl, rfl⟩
  obtain ⟨s, hs, hr, hh⟩ := h
  refine ⟨s, _, Run.of_exec hs, hr, hh, fun hT ↦ ?_⟩
  exact ((hT 1 _ hr).2.mp rfl).1 hh

/-! ## The invariant

`Base` does not mention the running thread, so that it can be carried across a
switch; `Inv` adds what is known about the running thread between switches. -/

/-- What every step preserves, apart from the running thread. -/
structure Base (s : Kmutex) : Prop where
  linked : s.sched.Linked
  /-- A runnable thread is in state `KT_RUN` and has a call to finish. -/
  runnable : ∀ t ∈ s.sched.waiters .runq, (s.sched.kthread t).ktState = .run ∧
    s.pc t ≠ .code ∧ s.pc t ≠ .unborn
  /-- A waiter is not the holder, and its state says which call it waits in. -/
  waiting : ∀ t ∈ s.sched.waiters waitq, s.kmHolder ≠ some t ∧
    (s.pc t = .inLock ∧ (s.sched.kthread t).ktState = .sleep ∨
      s.pc t = .inLockCancellable ∧ (s.sched.kthread t).ktState = .sleepCancellable)
  /-- A thread in `kmutex_lock_cancellable` is cancelled exactly when it has lost
  its place in the queue without being handed the mutex. -/
  asked : ∀ t, s.pc t = .inLockCancellable → ((s.sched.kthread t).ktCancelled = true ↔
    t ∉ s.sched.waiters waitq ∧ s.kmHolder ≠ some t)

/-- The invariant between steps. -/
structure Inv (s : Kmutex) : Prop extends Base s where
  /-- The running thread is on no queue, and has been started. -/
  cur : ∀ t, s.sched.curthr = some t → (s.sched.kthread t).ktWchan = none ∧ s.pc t ≠ .unborn
  /-- Only the running thread is in its own code. -/
  code : ∀ t, s.pc t = .code → s.sched.curthr = some t

theorem Inv.init (cancelled : Tid → Bool) : Inv (init cancelled) where
  linked := ⟨fun t q ↦ by simp [Kmutex.init, Sched.waiters],
    fun q ↦ by simp [Kmutex.init, Sched.waiters], fun q ↦ by simp [Kmutex.init, Sched.waiters]⟩
  runnable t h := by simp [Kmutex.init, Sched.waiters] at h
  waiting t h := by simp [Kmutex.init, Sched.waiters] at h
  asked t h := by
    simp only [Kmutex.init] at h
    split at h <;> cases h
  cur t ht := by
    obtain rfl : 0 = t := Option.some.inj ht
    exact ⟨rfl, by simp [Kmutex.init]⟩
  code t h := by
    simp only [Kmutex.init] at h ⊢
    split at h
    · next ht => rw [ht]
    · cases h

/-- A switch turns the invariant of the threads into the full invariant, provided
that the thread that called it has left its own code. -/
theorem Base.switch {s : Kmutex} (h : Base s) (hc : ∀ t, s.pc t ≠ .code) :
    Inv { s with sched := s.sched.schedSwitch, ret := none } := by
  rcases s.sched.schedSwitch_cases with ⟨_, he⟩ | ⟨l, u, hq, he⟩
  · refine ⟨⟨h.linked.switch, ?_, ?_, ?_⟩, ?_, fun t ht ↦ absurd ht (hc t)⟩
    · intro t ht; rw [he] at ht ⊢; exact h.runnable t ht
    · intro t ht; rw [he] at ht ⊢; exact h.waiting t ht
    · intro t ht; rw [he]; exact h.asked t ht
    · intro t ht; rw [he] at ht; cases ht
  · have hu : u ∈ s.sched.waiters .runq := by rw [hq]; simp
    refine ⟨⟨h.linked.switch, ?_, ?_, ?_⟩, ?_, fun t ht ↦ absurd ht (hc t)⟩
    · intro t ht
      rw [he] at ht ⊢
      simp only [Sched.waiters_setCur, Sched.waiters_unlink, if_true] at ht
      obtain ⟨hne, hmem⟩ := (h.linked.nodup _).mem_erase_iff.mp ht
      simpa [hne] using h.runnable t hmem
    · intro t ht
      rw [he] at ht ⊢
      have ht' : t ∈ s.sched.waiters waitq := by simpa using ht
      have hne : t ≠ u := by
        rintro rfl
        cases h.linked.unique hu ht'
      simpa [hne] using h.waiting t ht'
    · intro t ht
      rw [he]
      by_cases hne : t = u
      · subst hne; simpa using h.asked t ht
      · simpa [hne] using h.asked t ht
    · intro t ht
      rw [he] at ht ⊢
      obtain rfl : u = t := Option.some.inj ht
      exact ⟨by simp, (h.runnable u hu).2.2⟩

/-! ## Steps -/

variable {s s' : Kmutex} {t : Tid}

theorem caller_eq_ok : s.caller = .ok t ↔ s.sched.curthr = some t ∧ s.pc t = .code := by
  simp only [caller, bind_eq_ok, follow_eq_ok, demand_eq_ok, Except.ok.injEq]
  constructor
  · rintro ⟨u, hu, _, hc, rfl⟩
    exact ⟨hu, hc⟩
  · rintro ⟨hu, hc⟩
    exact ⟨t, hu, (), hc, rfl⟩

theorem bind_caller {f : Tid → Except Fault Kmutex} (h : s.caller >>= f = .ok s') :
    ∃ t, s.sched.curthr = some t ∧ s.pc t = .code ∧ f t = .ok s' := by
  obtain ⟨t, ht, h⟩ := bind_ok h
  exact ⟨t, (caller_eq_ok.mp ht).1, (caller_eq_ok.mp ht).2, h⟩

theorem ret_kmutexLock (he : s.kmutexLock t = .ok s') : s'.ret = none := by
  simp only [kmutexLock, bind_eq_ok, demand_eq_ok] at he
  obtain ⟨_, _, he⟩ := he
  split at he
  · cases he; rfl
  · obtain ⟨_, _, he⟩ := bind_ok he
    cases he; rfl

theorem ret_kmutexUnlock (he : s.kmutexUnlock t = .ok s') : s'.ret = none := by
  simp only [kmutexUnlock, bind_eq_ok, demand_eq_ok] at he
  obtain ⟨_, _, _, _, _, _, he⟩ := he
  cases he; rfl

theorem ret_kthreadExit {retval : Int} (he : s.kthreadExit t retval = .ok s') : s'.ret = none := by
  simp only [kthreadExit, bind_eq_ok, demand_eq_ok] at he
  obtain ⟨_, _, he⟩ := he
  cases he; rfl

section

variable (h : Inv s) (ht : s.sched.curthr = some t)
include h ht

theorem Inv.cur_notMem (q : Wq Unit) :
    t ∉ s.sched.waiters q := h.linked.notMem (h.cur t ht).1 q

theorem Inv.pc_ne_code {c : MutexPc}
    (hc : c ≠ .code) (u : Tid) : Function.update s.pc t c u ≠ .code := by
  rw [Function.update_apply]
  split
  · exact hc
  · next hu =>
    intro hcode
    rw [h.code u hcode] at ht
    exact hu (Option.some.inj ht)

omit ht in
/-- A thread that is on no queue becomes runnable, or goes to sleep on `km_waitq`. -/
theorem Inv.enqueue (hw : (s.sched.kthread t).ktWchan = none) {q : Wq Unit} {st : KtState}
    {c : MutexPc} (hself : q = .runq ∧ st = .run ∧ c = .ready ∨ q = waitq ∧ s.kmHolder ≠ some t ∧
      (c = .inLock ∧ st = .sleep ∨ c = .inLockCancellable ∧ st = .sleepCancellable ∧
        (s.sched.kthread t).ktCancelled = false)) :
    Base { s with
      sched := (s.sched.modify t fun k ↦ { k with ktState := st }).link q t
      pc := Function.update s.pc t c } := by
  have hn := h.linked.notMem hw
  have hmem : ∀ {q' u}, u ≠ t → (u ∈ ((s.sched.modify t fun k ↦
      { k with ktState := st }).link q t).waiters q' ↔ u ∈ s.sched.waiters q') := by
    intro q' u hne
    by_cases hq : q' = q <;> simp [hq, hne]
  refine ⟨(h.linked.modify (by simp)).link (by simpa using hw), ?_, ?_, ?_⟩ <;> intro u hu <;>
    rcases eq_or_ne u t with rfl | hne
  · rcases hself with ⟨-, rfl, rfl⟩ | ⟨rfl, -⟩
    · simp
    · exact absurd (by simpa using hu) (hn .runq)
  · simpa [hne] using h.runnable u ((hmem hne).mp hu)
  · rcases hself with ⟨rfl, -⟩ | ⟨-, hh, ⟨rfl, rfl⟩ | ⟨rfl, rfl, -⟩⟩
    · exact absurd (by simpa using hu) (hn waitq)
    · exact ⟨hh, .inl (by simp)⟩
    · exact ⟨hh, .inr (by simp)⟩
  · simpa [hne] using h.waiting u ((hmem hne).mp hu)
  · rcases hself with ⟨-, -, rfl⟩ | ⟨rfl, -, ⟨rfl, -⟩ | ⟨-, -, hcan⟩⟩
    · simp at hu
    · simp at hu
    · simp [hcan]
  · have hu' : s.pc u = .inLockCancellable := by simpa [hne] using hu
    rw [hmem hne]
    simpa [hne] using h.asked u hu'

theorem Inv.lock (hc : s.pc t = .code)
    (he : s.kmutexLock t = .ok s') : Inv s' := by
  simp only [kmutexLock, bind_eq_ok, demand_eq_ok] at he
  obtain ⟨_, hh, he⟩ := he
  split at he
  · next hnone =>
    cases he
    refine ⟨⟨h.linked, h.runnable, ?_, ?_⟩, h.cur, h.code⟩
    · intro u hu
      refine ⟨?_, (h.waiting u hu).2⟩
      rintro ⟨⟩
      exact h.cur_notMem ht _ hu
    · intro u hu
      have := h.asked u hu
      rw [hnone] at this
      rw [this]
      refine and_congr_right fun _ ↦ iff_of_true (by simp) ?_
      rintro ⟨⟩
      rw [hc] at hu
      cases hu
  · obtain ⟨sc, hsc, he⟩ := bind_ok he
    cases he
    simp only [Sched.schedSleepOn, Sched.ktqueueEnqueue, bind_eq_ok, demand_eq_ok,
      Except.ok.injEq] at hsc
    obtain ⟨_, ⟨_, _, rfl⟩, rfl⟩ := hsc
    exact (h.enqueue (h.cur t ht).1 (.inr ⟨rfl, hh, .inl ⟨rfl, rfl⟩⟩)).switch
      (h.pc_ne_code ht (by simp))

theorem Inv.interrupted (hc : s.pc t = .code)
    (r : Option (Tid × Option Errno)) :
    Inv { s with sched := s.sched.interrupted t, ret := r } := by
  refine ⟨⟨h.linked.interrupted, ?_, ?_, ?_⟩, ?_, h.code⟩
  · intro u hu
    have hne : u ≠ t := fun e ↦ h.cur_notMem ht .runq (e ▸ hu)
    simpa [hne] using h.runnable u hu
  · intro u hu
    have hne : u ≠ t := fun e ↦ h.cur_notMem ht waitq (e ▸ hu)
    simpa [hne] using h.waiting u hu
  · intro u hu
    have hne : u ≠ t := fun e ↦ by
      rw [e] at hu
      exact absurd (hc.symm.trans hu) (by simp)
    simpa [hne] using h.asked u hu
  · intro u hu
    have := h.cur u hu
    by_cases hne : u = t
    · subst hne; simpa using this
    · simpa [hne] using this

theorem Inv.lockCancellable (hc : s.pc t = .code)
    (he : s.kmutexLockCancellable t = .ok s') : Inv s' ∧ Told s' := by
  simp only [kmutexLockCancellable, bind_eq_ok, demand_eq_ok] at he
  obtain ⟨_, hh, he⟩ := he
  split at he
  · next hnone =>
    cases he
    have hl : Inv { s with kmHolder := some t, ret := none } :=
      h.lock ht hc (by simp [kmutexLock, hnone])
    refine ⟨⟨⟨hl.linked, hl.runnable, hl.waiting, hl.asked⟩, hl.cur, hl.code⟩, ?_⟩
    rintro u r ⟨⟩
    simp
  · obtain ⟨⟨r, sc⟩, hsc, he⟩ := bind_ok he
    unfold Sched.schedCancellableSleepOn at hsc
    split at hsc
    · cases hsc
      cases he
      refine ⟨h.interrupted ht hc _, ?_⟩
      rintro u r ⟨⟩
      have := h.cur_notMem ht waitq
      simp [hh, this]
    · next hcan =>
      simp only [Sched.ktqueueEnqueue, bind_eq_ok, demand_eq_ok, Except.ok.injEq] at hsc
      obtain ⟨_, ⟨_, _, rfl⟩, hsc⟩ := hsc
      cases hsc
      cases he
      have hw := (h.cur t ht).1
      refine ⟨(h.enqueue hw (.inr ⟨rfl, hh, .inr ⟨rfl, rfl, by simpa using hcan⟩⟩)).switch
        (h.pc_ne_code ht (by simp)), ?_⟩
      exact Told.of_none rfl

end

/-- Handing the mutex over: the new owner has been waiting, so it was not
cancelled. -/
theorem Inv.unlock (h : Inv s) (hc : s.pc t = .code)
    (he : s.kmutexUnlock t = .ok s') : Inv s' := by
  simp only [kmutexUnlock, bind_eq_ok, demand_eq_ok] at he
  obtain ⟨_, hh, ⟨next, sc⟩, hw, _, hne, he⟩ := he
  cases he
  have hasked : ∀ u, s.pc u = .inLockCancellable → u ≠ t := fun u hu e ↦ by
    rw [e, hc] at hu
    cases hu
  rcases Sched.schedWakeupOn_eq_ok.mp hw with ⟨hq, rfl, rfl⟩ | ⟨l, n, hq, rfl, hst, rfl⟩
  · refine ⟨⟨h.linked, h.runnable, ?_, ?_⟩, h.cur, h.code⟩
    · intro u hu
      rw [hq] at hu
      cases hu
    · intro u hu
      rw [h.asked u hu, hh]
      exact and_congr_right fun _ ↦
        iff_of_true (fun e ↦ hasked u hu (Option.some.inj e).symm) (by simp)
  · have hn : n ∈ s.sched.waiters waitq := by rw [hq]; simp
    have hnr : n ∉ s.sched.waiters .runq := fun hr ↦ by cases h.linked.unique hn hr
    have hcode : s.pc n ≠ .code ∧ s.pc n ≠ .unborn := by
      rcases (h.waiting n hn).2 with ⟨hp, _⟩ | ⟨hp, _⟩ <;> rw [hp] <;> simp
    refine ⟨⟨h.linked.moveToRunq hn, ?_, ?_, ?_⟩, ?_, h.code⟩
    · intro u hu
      by_cases hun : u = n
      · subst hun; exact ⟨by simp, hcode⟩
      · have hu' : u ∈ s.sched.waiters .runq := by simpa [hun] using hu
        simpa [hun] using h.runnable u hu'
    · intro u hu
      simp only [Sched.waiters_link, reduceCtorEq, if_false, Sched.waiters_modify,
        Sched.waiters_unlink, if_true] at hu
      obtain ⟨hun, hu⟩ := (h.linked.nodup _).mem_erase_iff.mp hu
      refine ⟨fun e ↦ hun (Option.some.inj e).symm, ?_⟩
      simpa [hun] using (h.waiting u hu).2
    · intro u hu
      by_cases hun : u = n
      · subst hun
        have : (s.sched.kthread u).ktCancelled ≠ true := fun e ↦ ((h.asked u hu).mp e).1 hn
        simpa using this
      · have := h.asked u hu
        rw [hh] at this
        simp only [Sched.kthread_link, hun, if_false, Sched.kthread_modify, Sched.kthread_unlink,
          this, Sched.waiters_link, reduceCtorEq, Sched.waiters_modify, Sched.waiters_unlink,
          if_true, (h.linked.nodup _).mem_erase_iff, ne_eq, not_false_eq_true, true_and,
          Option.some.injEq]
        exact and_congr_right fun _ ↦ iff_of_true (fun e ↦ hasked u hu e.symm) (Ne.symm hun)
    · intro u hu
      have hun : u ≠ n := fun e ↦ h.cur_notMem hu waitq (e ▸ hn)
      simpa [hun] using h.cur u hu

theorem Inv.exit (h : Inv s) (ht : s.sched.curthr = some t) {retval : Int}
    (he : s.kthreadExit t retval = .ok s') : Inv s' := by
  simp only [kthreadExit, bind_eq_ok, demand_eq_ok] at he
  obtain ⟨_, _, he⟩ := he
  cases he
  refine Base.switch (s := { s with
    sched := { s.sched.modify t fun k ↦ { k with ktRetval := retval, ktState := .exited } with
      pState := _ }, pc := Function.update s.pc t .exited }) ⟨?_, ?_, ?_, ?_⟩
    (h.pc_ne_code ht (by simp))
  · have := h.linked.modify (t := t)
      (f := fun k ↦ { k with ktRetval := retval, ktState := .exited }) (by simp)
    exact ⟨this.wchan, this.nodup, this.size⟩
  · intro u hu
    have hne : u ≠ t := fun e ↦ h.cur_notMem ht .runq (e ▸ hu)
    simpa [Sched.modify, hne] using h.runnable u hu
  · intro u hu
    have hne : u ≠ t := fun e ↦ h.cur_notMem ht waitq (e ▸ hu)
    simpa [Sched.modify, hne] using h.waiting u hu
  · intro u hu
    by_cases hne : u = t
    · subst hne
      simp at hu
    · have hu' : s.pc u = .inLockCancellable := by simpa [hne] using hu
      have := h.asked u hu'
      simpa [Sched.modify, hne, Sched.waiters] using this

/-- The end of a call that suspended the running thread. -/
theorem Inv.resume (h : Inv s) (ht : s.sched.curthr = some t) (he : s.resume t = .ok s') :
    Inv s' ∧ Told s' := by
  have hcode : ∀ r, Inv { s with pc := Function.update s.pc t .code, ret := r } := by
    intro r
    refine ⟨⟨h.linked, ?_, ?_, ?_⟩, ?_, ?_⟩
    · intro u hu
      have hne : u ≠ t := fun e ↦ h.cur_notMem ht .runq (e ▸ hu)
      simpa [hne] using h.runnable u hu
    · intro u hu
      have hne : u ≠ t := fun e ↦ h.cur_notMem ht waitq (e ▸ hu)
      simpa [hne] using h.waiting u hu
    · intro u hu
      by_cases hne : u = t
      · subst hne; simp at hu
      · exact h.asked u (by simpa [hne] using hu)
    · intro u hu
      refine ⟨(h.cur u hu).1, ?_⟩
      obtain rfl : t = u := Option.some.inj (ht.symm.trans hu)
      simp
    · intro u hu
      by_cases hne : u = t
      · rw [hne]; exact ht
      · exact h.code u (by simpa [hne] using hu)
  unfold Kmutex.resume at he
  split at he
  · cases he
    exact ⟨hcode none, Told.of_none rfl⟩
  · cases he
    exact ⟨hcode none, Told.of_none rfl⟩
  · next hpc =>
    have hk := h.asked t hpc
    have hn := h.cur_notMem ht waitq
    simp only [Sched.schedCancellableWake] at he
    split at he <;> cases he
    · next hcan =>
      have hh := (hk.mp hcan).2
      refine ⟨(hcode none).interrupted ht (by simp) _, ?_⟩
      rintro u r ⟨⟩
      simp [hh, hn]
    · next hcan =>
      have hh : s.kmHolder = some t := by
        by_contra hne
        exact hcan (hk.mpr ⟨hn, hne⟩)
      refine ⟨hcode _, ?_⟩
      rintro u r ⟨⟩
      simp [hh]
  · cases he

theorem Inv.modifyRetval (h : Inv s) (retval : Int) :
    Inv { s with sched := s.sched.modify t fun k ↦ { k with ktRetval := retval } } := by
  have hk : ∀ u, let k := (s.sched.modify t fun k ↦ { k with ktRetval := retval }).kthread u
      k.ktState = (s.sched.kthread u).ktState ∧
      k.ktCancelled = (s.sched.kthread u).ktCancelled ∧
      k.ktWchan = (s.sched.kthread u).ktWchan := by
    intro u
    by_cases hu : u = t <;> simp [hu]
  have hlinked := h.linked.modify (t := t) (f := fun k ↦ { k with ktRetval := retval }) rfl
  refine ⟨⟨hlinked, ?_, ?_, ?_⟩, ?_, h.code⟩
  · intro u hu; rw [(hk u).1]; exact h.runnable u hu
  · intro u hu; rw [(hk u).1]; exact h.waiting u hu
  · intro u hu; rw [(hk u).2.1]; exact h.asked u hu
  · intro u hu; rw [(hk u).2.2]; exact h.cur u hu

/-- A cancellation that is not late.  A waiter loses its place and will be told;
any other thread in `kmutex_lock_cancellable` has lost it before. -/
theorem Inv.cancel (h : Inv s) (hl : ¬ (s.kmHolder = some t ∧ s.pc t = .inLockCancellable))
    {sc : Sched Unit} (he : s.sched.schedCancel t = .ok sc) :
    Inv { s with sched := sc, ret := none } := by
  rcases Sched.schedCancel_eq_ok.mp he with ⟨hst, rfl⟩ | ⟨q, hst, hw, hm, rfl⟩
  · have hlinked := h.linked.modify (t := t) (f := fun k ↦ { k with ktCancelled := true }) rfl
    refine ⟨⟨hlinked, ?_, ?_, ?_⟩, ?_, h.code⟩
    · intro u hu
      have := h.runnable u hu
      by_cases hne : u = t
      · subst hne; simpa using this
      · simpa [hne] using this
    · intro u hu
      have := h.waiting u hu
      by_cases hne : u = t
      · subst hne; simpa using this
      · simpa [hne] using this
    · intro u hu
      by_cases hne : u = t
      · subst hne
        have hnw : u ∉ s.sched.waiters waitq := by
          intro hm
          rcases (h.waiting u hm).2 with ⟨hp, _⟩ | ⟨_, hs⟩
          · exact absurd (hp.symm.trans hu) (by simp)
          · exact hst hs
        have hnh : s.kmHolder ≠ some u := fun e ↦ hl ⟨e, hu⟩
        simp [hnw, hnh]
      · simpa [hne] using h.asked u hu
    · intro u hu
      have := h.cur u hu
      by_cases hne : u = t
      · subst hne; simpa using this
      · simpa [hne] using this
  · -- a thread in `KT_SLEEP_CANCELLABLE` is on `km_waitq`, not on the run queue
    obtain rfl : q = waitq := by
      cases q with
      | runq =>
        rw [(h.runnable t hm).1] at hst
        cases hst
      | on _ => rfl
    have hnr : t ∉ s.sched.waiters .runq := fun hr ↦ by cases h.linked.unique hm hr
    have hcode : s.pc t ≠ .code ∧ s.pc t ≠ .unborn := by
      rcases (h.waiting t hm).2 with ⟨hp, _⟩ | ⟨hp, _⟩ <;> rw [hp] <;> simp
    refine ⟨⟨(h.linked.modify (by simp)).moveToRunq (by simpa using hm), ?_, ?_, ?_⟩, ?_, h.code⟩
    · intro u hu
      by_cases hne : u = t
      · subst hne; exact ⟨by simp, hcode⟩
      · have hu' : u ∈ s.sched.waiters .runq := by simpa [hne] using hu
        simpa [hne] using h.runnable u hu'
    · intro u hu
      simp only [Sched.waiters_link, reduceCtorEq, if_false, Sched.waiters_modify,
        Sched.waiters_unlink, if_true] at hu
      obtain ⟨hne, hu⟩ := (h.linked.nodup _).mem_erase_iff.mp hu
      simpa [hne] using h.waiting u hu
    · intro u hu
      by_cases hne : u = t
      · subst hne
        have hnh := (h.waiting u hm).1
        simp [hnh, (h.linked.nodup _).mem_erase_iff]
      · have := h.asked u hu
        simpa [hne, (h.linked.nodup _).mem_erase_iff] using this
    · intro u hu
      have hne : u ≠ t := fun e ↦ h.cur_notMem hu waitq (e ▸ hm)
      simpa [hne] using h.cur u hu

/-- **One step.**  Unless it is a late cancellation, it keeps the invariant and
any return it makes is truthful. -/
theorem Inv.step (h : Inv s) {e : MutexEv} (hl : ¬ LateCancel s e)
    (he : s.step e = .ok s') : Inv s' ∧ Told s' := by
  cases e with
  | lock =>
    obtain ⟨t, ht, hc, he⟩ := bind_caller he
    exact ⟨h.lock ht hc he, Told.of_none (ret_kmutexLock he)⟩
  | lockCancellable =>
    obtain ⟨t, ht, hc, he⟩ := bind_caller he
    exact h.lockCancellable ht hc he
  | unlock =>
    obtain ⟨t, ht, hc, he⟩ := bind_caller he
    exact ⟨h.unlock hc he, Told.of_none (ret_kmutexUnlock he)⟩
  | yield =>
    obtain ⟨t, ht, hc, he⟩ := bind_caller he
    obtain ⟨sc, hsc, he⟩ := bind_ok he
    obtain ⟨hw, rfl⟩ := Sched.schedMakeRunnable_eq_ok.mp hsc
    cases he
    exact ⟨(h.enqueue hw (.inl ⟨rfl, rfl, rfl⟩)).switch (h.pc_ne_code ht (by simp)), Told.of_none rfl⟩
  | exit retval =>
    obtain ⟨t, ht, hc, he⟩ := bind_caller he
    exact ⟨h.exit ht he, Told.of_none (ret_kthreadExit he)⟩
  | resume =>
    obtain ⟨t, ht, he⟩ := bind_follow he
    exact h.resume ht he
  | dispatch =>
    obtain ⟨hcur, he⟩ := bind_demand he
    cases he
    refine ⟨h.toBase.switch fun t ht ↦ ?_, Told.of_none rfl⟩
    rw [h.code t ht] at hcur
    cases hcur
  | spawn t =>
    obtain ⟨hp, he⟩ := bind_demand he
    obtain ⟨sc, hsc, he⟩ := bind_ok he
    obtain ⟨hw, rfl⟩ := Sched.schedMakeRunnable_eq_ok.mp hsc
    cases he
    have hb := h.enqueue hw (.inl ⟨rfl, rfl, rfl⟩)
    refine ⟨⟨⟨hb.linked, hb.runnable, hb.waiting, hb.asked⟩, ?_, ?_⟩, Told.of_none rfl⟩
    · intro u hu
      have hut : u ≠ t := fun e ↦ (h.cur u hu).2 (e ▸ hp)
      simpa [hut] using h.cur u hu
    · intro u hu
      by_cases hut : u = t
      · subst hut; simp at hu
      · exact h.code u (by simpa [hut] using hu)
  | cancel t =>
    obtain ⟨sc, hsc, he⟩ := bind_ok he
    cases he
    exact ⟨h.cancel hl hsc, Told.of_none rfl⟩
  | kthreadCancel t retval =>
    simp only [Kmutex.step] at he
    split at he
    · obtain ⟨u, hu, -, he⟩ := bind_caller he
      exact ⟨h.exit hu he, Told.of_none (ret_kthreadExit he)⟩
    · obtain ⟨sc, hsc, he⟩ := bind_ok he
      cases he
      rw [Sched.kthreadCancel_eq] at hsc
      exact ⟨(h.modifyRetval retval).cancel hl hsc, Told.of_none rfl⟩

/-- **Every return tells the truth, unless a cancellation comes late.**  In every
run, from any set of threads, in which no thread is cancelled between being
handed the mutex in `kmutex_lock_cancellable` and running again, each return of
`kmutex_lock_cancellable` is `0` exactly for the holder and `-EINTR` exactly for a
thread that neither holds the mutex nor waits for it. -/
theorem told_of_noLateCancel (cancelled : Tid → Bool) {h : List MutexEv} {s : Kmutex}
    (hr : Run (restrict (ofStep step) fun s e ↦ ¬ LateCancel s e) (init cancelled) h s) :
    Told s := by
  have hI : Inv s ∧ Told s := by
    refine hr.invariant (I := fun s ↦ Inv s ∧ Told s) ?_ ⟨Inv.init cancelled, Told.of_none rfl⟩
    rintro s e s' ⟨hi, _⟩ ⟨hl, he⟩
    exact hi.step hl he
  exact hI.2

/-- Thread `1` waits for the mutex and is cancelled while it waits; thread `2`
waits too and is handed the mutex. -/
def inTime : List MutexEv :=
  [.spawn 1, .spawn 2, .lock, .yield, .resume, .lockCancellable, .resume, .lockCancellable,
    .resume, .cancel 1, .unlock, .yield, .resume, .yield, .resume]

/-- The theorem at a run with a cancellation that comes in time: the last step
returns `0` to thread `2`, which holds the mutex. -/
theorem told_inTime :
    ∃ s h, Run (restrict (ofStep step) fun s e ↦ ¬ LateCancel s e) (init fun _ ↦ false) h s ∧
      s.ret = some (2, none) ∧ s.kmHolder = some 2 ∧ Told s := by
  have h : ∃ s, exec (guarded .disabled step fun s e ↦ ¬ LateCancel s e)
      (init fun _ ↦ false) inTime = .ok s ∧
      s.ret = some (2, none) ∧ s.kmHolder = some 2 := ⟨_, rfl, rfl, rfl⟩
  obtain ⟨s, hs, hr, hh⟩ := h
  exact ⟨s, _, Run.of_exec_guarded hs, hr, hh, told_of_noLateCancel _ (Run.of_exec_guarded hs)⟩

end Kmutex

end CS402.Proc

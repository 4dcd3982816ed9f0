import CS402.Basic
import CS402.Lib.Outcome
import Mathlib.Logic.Function.Basic
import Mathlib.Data.List.Nodup
import Mathlib.Tactic.Simps.Basic

/-!
# The scheduler

The model of `kernel/proc/sched.c`, with the fields of a thread that it reads
and writes.  The kernel is not preemptive: a thread runs until it calls
`sched_switch`, so a routine that sleeps is cut in two, the part up to the switch
and the part after the thread is running again.  Both parts have their own
definition here; what a thread still has to do when it is resumed is recorded by
the systems built on top.

A queue is the intrusive list `tq_list` with the counter `tq_size`.
`ktqueue_enqueue` inserts at the head and `ktqueue_dequeue` takes the last
element, so the list runs from the latest thread to the one that has waited
longest.

`Sched.Linked` is the invariant of the queues: a thread's `kt_wchan` names the
queue it is on, no thread is on a queue twice, and `tq_size` counts.  Every
operation of this file preserves it.

The interrupt level, which only protects the run queue from interrupt handlers,
and the hardware context are left out.
-/

set_option linter.unusedSectionVars false

namespace CS402.Proc

open CS402.Lib

/-- Threads are named by numbers. -/
abbrev Tid := Nat

/-- Processes are named by numbers. -/
abbrev Pid := Nat

/-- `kt_state`. -/
inductive KtState where
  | noState | run | sleep | sleepCancellable | exited
deriving DecidableEq, Repr

/-- `p_state`. -/
inductive PState where
  | running | dead
deriving DecidableEq, Repr

/-- The run queue, or some other queue. -/
inductive Wq (Q : Type) where
  | runq
  | on (q : Q)
deriving DecidableEq, Repr

/-- The part of a `kthread_t` that scheduling works with. -/
structure Kthread (Q : Type) where
  ktState : KtState
  ktCancelled : Bool
  ktWchan : Option (Wq Q)
  ktRetval : Int
  ktProc : Pid

/-- A `ktqueue_t`; the thread at the end of the list has waited longest. -/
structure Ktqueue where
  tqList : List Tid
  tqSize : Int

/-- The scheduler's state.  `curthr` is `none` while `sched_switch` waits for an
interrupt with nothing to run. -/
structure Sched (Q : Type) where
  kthread : Tid → Kthread Q
  ktqueue : Wq Q → Ktqueue
  curthr : Option Tid
  pState : Pid → PState

namespace Sched

variable {Q : Type} [DecidableEq Q] {s s' : Sched Q}

/-- Update the fields of one thread. -/
@[simps -fullyApplied ktqueue curthr pState] def modify (s : Sched Q) (t : Tid)
    (f : Kthread Q → Kthread Q) : Sched Q :=
  { s with kthread := Function.update s.kthread t (f (s.kthread t)) }

/-- Let another thread run, or none. -/
@[simps -fullyApplied] def setCur (s : Sched Q) (c : Option Tid) : Sched Q :=
  { s with curthr := c }

/-- The threads on a queue. -/
def waiters (s : Sched Q) (q : Wq Q) : List Tid := (s.ktqueue q).tqList

/-! ## Queues -/

/-- Insert a thread at the head of a queue's list. -/
@[simps -fullyApplied curthr pState] def link (s : Sched Q) (q : Wq Q) (t : Tid) : Sched Q :=
  { s with
    kthread := Function.update s.kthread t { s.kthread t with ktWchan := some q }
    ktqueue := Function.update s.ktqueue q
      ⟨t :: (s.ktqueue q).tqList, (s.ktqueue q).tqSize + 1⟩ }

/-- Take a thread out of a queue's list. -/
@[simps -fullyApplied curthr pState] def unlink (s : Sched Q) (q : Wq Q) (t : Tid) : Sched Q :=
  { s with
    kthread := Function.update s.kthread t { s.kthread t with ktWchan := none }
    ktqueue := Function.update s.ktqueue q
      ⟨(s.ktqueue q).tqList.erase t, (s.ktqueue q).tqSize - 1⟩ }

/-- `ktqueue_enqueue`. -/
def ktqueueEnqueue (s : Sched Q) (q : Wq Q) (t : Tid) : Except Fault (Sched Q) := do
  demand .assertion ((s.kthread t).ktWchan = none)
  .ok (s.link q t)

/-- `ktqueue_dequeue`: the last thread of the list is taken. -/
def ktqueueDequeue (s : Sched Q) (q : Wq Q) : Option Tid × Sched Q :=
  match (s.waiters q).getLast? with
  | none => (none, s)
  | some t => (some t, s.unlink q t)

/-- `ktqueue_remove`. -/
def ktqueueRemove (s : Sched Q) (q : Wq Q) (t : Tid) : Except Fault (Sched Q) := do
  demand .assertion (t ∈ s.waiters q)
  .ok (s.unlink q t)

/-! ## Running, sleeping, waking -/

/-- `sched_make_runnable`. -/
def schedMakeRunnable (s : Sched Q) (t : Tid) : Except Fault (Sched Q) := do
  demand .assertion ((s.kthread t).ktWchan ≠ some .runq)
  (s.modify t fun k ↦ { k with ktState := .run }).ktqueueEnqueue .runq t

/-- `sched_switch`: the next thread of the run queue runs. -/
def schedSwitch (s : Sched Q) : Sched Q :=
  (s.ktqueueDequeue .runq).2.setCur (s.ktqueueDequeue .runq).1

/-- `sched_sleep_on` of the running thread `t`, up to the switch. -/
def schedSleepOn (s : Sched Q) (q : Wq Q) (t : Tid) : Except Fault (Sched Q) := do
  let s ← (s.modify t fun k ↦ { k with ktState := .sleep }).ktqueueEnqueue q t
  .ok s.schedSwitch

/-- What `sched_cancellable_sleep_on` does before it returns `-EINTR`: the
process is marked dead and the thread exited, although it runs on. -/
@[simps -fullyApplied ktqueue curthr] def interrupted (s : Sched Q) (t : Tid) : Sched Q :=
  { s.modify t fun k ↦ { k with ktState := .exited } with
    pState := Function.update s.pState (s.kthread t).ktProc .dead }

/-- `sched_cancellable_sleep_on` of the running thread `t`: it returns `-EINTR`
at once, or it sleeps up to the switch and the result is still open. -/
def schedCancellableSleepOn (s : Sched Q) (q : Wq Q) (t : Tid) :
    Except Fault (Option Errno × Sched Q) :=
  if (s.kthread t).ktCancelled then
    .ok (some .EINTR, s.interrupted t)
  else do
    let s ← (s.modify t fun k ↦ { k with ktState := .sleepCancellable }).ktqueueEnqueue q t
    .ok (none, s.schedSwitch)

/-- `sched_cancellable_sleep_on` after the switch: `-EINTR` if the thread has
been cancelled, `0` otherwise. -/
def schedCancellableWake (s : Sched Q) (t : Tid) : Option Errno × Sched Q :=
  if (s.kthread t).ktCancelled then (some .EINTR, s.interrupted t) else (none, s)

/-- `sched_wakeup_on`. -/
def schedWakeupOn (s : Sched Q) (q : Wq Q) : Except Fault (Option Tid × Sched Q) :=
  match s.ktqueueDequeue q with
  | (none, s) => .ok (none, s)
  | (some t, s) => do
    demand .assertion
      ((s.kthread t).ktState = .sleep ∨ (s.kthread t).ktState = .sleepCancellable)
    let s ← s.schedMakeRunnable t
    .ok (some t, s)

/-- `sched_broadcast_on`: each turn of its loop wakes one thread. -/
def schedBroadcastOn (s : Sched Q) (q : Wq Q) : Except Fault (Sched Q) :=
  (s.waiters q).foldlM (fun s _ ↦ do
    let r ← s.schedWakeupOn q
    .ok r.2) s

/-- `sched_cancel`. -/
def schedCancel (s : Sched Q) (t : Tid) : Except Fault (Sched Q) :=
  let s := s.modify t fun k ↦ { k with ktCancelled := true }
  if (s.kthread t).ktState = .sleepCancellable then do
    let q ← follow .pointer (s.kthread t).ktWchan
    let s ← s.ktqueueRemove q t
    s.schedMakeRunnable t
  else .ok s

/-- `kthread_cancel` of a thread other than the running one. -/
def kthreadCancel (s : Sched Q) (t : Tid) (retval : Int) : Except Fault (Sched Q) :=
  let s := s.modify t fun k ↦ { k with ktCancelled := true, ktRetval := retval }
  if (s.kthread t).ktState = .sleepCancellable then s.schedCancel t else .ok s

/-! ## What the operations change -/

section Fields

variable (s : Sched Q) (q q' : Wq Q) (t u : Tid) (f : Kthread Q → Kthread Q) (c : Option Tid)

@[simp] theorem waiters_setCur : (s.setCur c).waiters q = s.waiters q := rfl

@[simp] theorem kthread_modify :
    (s.modify t f).kthread u = if u = t then f (s.kthread t) else s.kthread u := by
  simp [modify, Function.update_apply]

@[simp] theorem waiters_modify : (s.modify t f).waiters q = s.waiters q := rfl

@[simp] theorem kthread_link : (s.link q t).kthread u =
    if u = t then { s.kthread t with ktWchan := some q } else s.kthread u := by
  simp [link, Function.update_apply]

@[simp] theorem waiters_link :
    (s.link q t).waiters q' = if q' = q then t :: s.waiters q else s.waiters q' := by
  unfold link waiters
  by_cases h : q' = q <;> simp [h]

@[simp] theorem kthread_unlink : (s.unlink q t).kthread u =
    if u = t then { s.kthread t with ktWchan := none } else s.kthread u := by
  simp [unlink, Function.update_apply]

@[simp] theorem waiters_unlink : (s.unlink q t).waiters q' =
    if q' = q then (s.waiters q).erase t else s.waiters q' := by
  unfold unlink waiters
  by_cases h : q' = q <;> simp [h]

@[simp] theorem kthread_interrupted : (s.interrupted t).kthread u =
    if u = t then { s.kthread t with ktState := .exited } else s.kthread u := by
  simp [interrupted, modify, Function.update_apply]

@[simp] theorem waiters_interrupted : (s.interrupted t).waiters q = s.waiters q := rfl

@[simp] theorem pState_interrupted (p : Pid) : (s.interrupted t).pState p =
    if p = (s.kthread t).ktProc then .dead else s.pState p := by
  simp [interrupted, Function.update_apply]

end Fields

theorem schedMakeRunnable_eq_ok {t : Tid} :
    s.schedMakeRunnable t = .ok s' ↔ (s.kthread t).ktWchan = none ∧
      s' = (s.modify t fun k ↦ { k with ktState := .run }).link .runq t := by
  simp only [schedMakeRunnable, ktqueueEnqueue, bind_eq_ok, demand_eq_ok, kthread_modify,
    if_true, Except.ok.injEq, exists_and_left, exists_const]
  constructor
  · rintro ⟨_, h, rfl⟩
    exact ⟨h, rfl⟩
  · rintro ⟨h, rfl⟩
    exact ⟨by simp [h], h, rfl⟩

/-- The two outcomes of a wakeup: nobody waits, or the thread that has waited
longest moves to the run queue. -/
theorem schedWakeupOn_eq_ok {q : Wq Q} {r : Option Tid} :
    s.schedWakeupOn q = .ok (r, s') ↔
      (s.waiters q = [] ∧ r = none ∧ s' = s) ∨
      (∃ l t, s.waiters q = l ++ [t] ∧ r = some t ∧
        ((s.kthread t).ktState = .sleep ∨ (s.kthread t).ktState = .sleepCancellable) ∧
        s' = ((s.unlink q t).modify t fun k ↦ { k with ktState := .run }).link .runq t) := by
  rcases List.eq_nil_or_concat (s.waiters q) with hq | ⟨l, t, hq⟩
  · simp only [schedWakeupOn, ktqueueDequeue, hq, List.getLast?_nil, Except.ok.injEq,
      Prod.mk.injEq, true_and, List.nil_eq, List.append_eq_nil_iff, List.cons_ne_nil, and_false,
      false_and, exists_false, or_false]
    exact ⟨fun ⟨h₁, h₂⟩ ↦ ⟨h₁.symm, h₂.symm⟩, fun ⟨h₁, h₂⟩ ↦ ⟨h₁.symm, h₂.symm⟩⟩
  · simp only [schedWakeupOn, ktqueueDequeue, hq, List.concat_eq_append, List.getLast?_append,
      List.getLast?_singleton, Option.some_or, bind_eq_ok, demand_eq_ok, kthread_unlink, if_true,
      schedMakeRunnable_eq_ok, Except.ok.injEq, Prod.mk.injEq, List.append_eq_nil_iff,
      List.cons_ne_nil, and_false, false_and, false_or]
    constructor
    · rintro ⟨_, hst, _, ⟨_, rfl⟩, rfl, rfl⟩
      exact ⟨l, t, rfl, rfl, hst, rfl⟩
    · rintro ⟨l', t', heq, rfl, hst, rfl⟩
      obtain ⟨rfl, rfl⟩ := List.append_singleton_inj.mp heq
      exact ⟨(), hst, _, ⟨trivial, rfl⟩, rfl, rfl⟩

theorem curthr_wakeup {q : Wq Q} {r : Option Tid}
    (he : s.schedWakeupOn q = .ok (r, s')) :
    s'.curthr = s.curthr ∧ ∀ u, (s'.kthread u).ktProc = (s.kthread u).ktProc := by
  rcases schedWakeupOn_eq_ok.mp he with ⟨_, _, rfl⟩ | ⟨l, v, _, _, _, rfl⟩
  · exact ⟨rfl, fun _ ↦ rfl⟩
  · refine ⟨by simp, fun u ↦ ?_⟩
    by_cases hu : u = v
    · subst hu; simp
    · simp [hu]

/-- The two outcomes of a switch: nothing is runnable, or the thread that has
been runnable longest runs. -/
theorem schedSwitch_cases (s : Sched Q) :
    (s.waiters .runq = [] ∧ s.schedSwitch = s.setCur none) ∨
    (∃ l t, s.waiters .runq = l ++ [t] ∧
      s.schedSwitch = (s.unlink .runq t).setCur (some t)) := by
  rcases List.eq_nil_or_concat (s.waiters .runq) with hq | ⟨l, t, hq⟩
  · exact .inl ⟨hq, by simp [schedSwitch, ktqueueDequeue, hq]⟩
  · exact .inr ⟨l, t, by simpa using hq, by simp [schedSwitch, ktqueueDequeue, hq]⟩

/-- The two outcomes of a cancellation: the flag alone is set, or the thread
also leaves the queue it sleeps on and becomes runnable. -/
theorem schedCancel_eq_ok {t : Tid} :
    s.schedCancel t = .ok s' ↔
      ((s.kthread t).ktState ≠ .sleepCancellable ∧
        s' = s.modify t fun k ↦ { k with ktCancelled := true }) ∨
      (∃ q, (s.kthread t).ktState = .sleepCancellable ∧ (s.kthread t).ktWchan = some q ∧
        t ∈ s.waiters q ∧
        s' = (((s.modify t fun k ↦ { k with ktCancelled := true }).unlink q t).modify t
          fun k ↦ { k with ktState := .run }).link .runq t) := by
  unfold schedCancel
  by_cases h : (s.kthread t).ktState = .sleepCancellable
  · simp only [kthread_modify, if_true, h, bind_eq_ok, follow_eq_ok, ktqueueRemove,
      waiters_modify, schedMakeRunnable_eq_ok, Except.ok.injEq, ne_eq, not_true, false_and,
      false_or, true_and]
    constructor
    · rintro ⟨q, hq, _, ⟨_, hm, rfl⟩, _, rfl⟩
      exact ⟨q, hq, demand_eq_ok.mp hm, rfl⟩
    · rintro ⟨q, hq, hm, rfl⟩
      exact ⟨q, hq, _, ⟨(), demand_pos hm, rfl⟩, by simp, rfl⟩
  · simp [h, eq_comm]

theorem modify_modify (s : Sched Q) (t : Tid) (f g : Kthread Q → Kthread Q) :
    (s.modify t f).modify t g = s.modify t fun k ↦ g (f k) := by
  simp [modify]

/-- `kthread_cancel` of another thread is `sched_cancel` after setting the value
to exit with. -/
theorem kthreadCancel_eq (s : Sched Q) (t : Tid) (retval : Int) :
    s.kthreadCancel t retval =
      (s.modify t fun k ↦ { k with ktRetval := retval }).schedCancel t := by
  unfold kthreadCancel schedCancel
  simp only [modify_modify]
  split <;> rfl

/-! ## The invariant of the queues -/

/-- A thread's `kt_wchan` names the queue it is on, no queue holds a thread
twice, and `tq_size` is the number of threads on the queue. -/
structure Linked (s : Sched Q) : Prop where
  wchan : ∀ t q, (s.kthread t).ktWchan = some q ↔ t ∈ s.waiters q
  nodup : ∀ q, (s.waiters q).Nodup
  size : ∀ q, (s.ktqueue q).tqSize = (s.waiters q).length

namespace Linked

variable {s s' : Sched Q} {q : Wq Q} {t : Tid}

section

variable (h : Linked s)
include h

theorem notMem (ht : (s.kthread t).ktWchan = none) (q : Wq Q) :
    t ∉ s.waiters q := fun hm ↦ by
  rw [(h.wchan t q).mpr hm] at ht
  cases ht

theorem unique {q' : Wq Q} (h₁ : t ∈ s.waiters q) (h₂ : t ∈ s.waiters q') : q = q' := by
  have e₁ := (h.wchan t q).mpr h₁
  have e₂ := (h.wchan t q').mpr h₂
  exact Option.some.inj (e₁.symm.trans e₂)

theorem modify {f : Kthread Q → Kthread Q}
    (hf : (f (s.kthread t)).ktWchan = (s.kthread t).ktWchan) : Linked (s.modify t f) where
  wchan u q := by
    by_cases hu : u = t
    · subst hu; simpa [hf] using h.wchan u q
    · simpa [hu] using h.wchan u q
  nodup := h.nodup
  size := h.size

theorem interrupted : Linked (s.interrupted t) where
  wchan u q := by
    by_cases hu : u = t
    · subst hu; simpa using h.wchan u q
    · simpa [hu] using h.wchan u q
  nodup := h.nodup
  size := h.size

theorem setCur (c : Option Tid) : Linked (s.setCur c) where
  wchan := h.wchan
  nodup := h.nodup
  size := h.size

theorem link (ht : (s.kthread t).ktWchan = none) : Linked (s.link q t) where
  wchan u q' := by
    have hn := h.notMem ht q'
    by_cases hu : u = t
    · subst hu
      by_cases hq : q' = q
      · simp [hq]
      · simp [hq, hn, Ne.symm hq]
    · by_cases hq : q' = q
      · subst hq; simp [hu, h.wchan u q']
      · simp [hu, hq, h.wchan u q']
  nodup q' := by
    by_cases hq : q' = q
    · subst hq; simpa using ⟨h.notMem ht q', h.nodup q'⟩
    · simpa [hq] using h.nodup q'
  size q' := by
    have := h.size q'
    by_cases hq : q' = q
    · subst hq
      simp only [waiters_link, if_true, List.length_cons]
      simp only [Sched.link, Function.update_self, this]
      omega
    · simp only [waiters_link, hq, if_false]
      simp [Sched.link, Function.update_of_ne hq, this]

theorem unlink (ht : t ∈ s.waiters q) : Linked (s.unlink q t) where
  wchan u q' := by
    by_cases hu : u = t
    · subst hu
      by_cases hq : q' = q
      · subst hq; simp [(h.nodup q').mem_erase_iff]
      · have : u ∉ s.waiters q' := fun h' ↦ hq (h.unique h' ht)
        simp [hq, this]
    · by_cases hq : q' = q
      · subst hq; simp [hu, h.wchan u q', (h.nodup q').mem_erase_iff]
      · simp [hu, hq, h.wchan u q']
  nodup q' := by
    by_cases hq : q' = q
    · subst hq; simpa using (h.nodup q').erase t
    · simpa [hq] using h.nodup q'
  size q' := by
    have := h.size q'
    by_cases hq : q' = q
    · subst hq
      have hl : 0 < (s.waiters q').length := List.length_pos_of_mem ht
      simp only [waiters_unlink, if_true, List.length_erase_of_mem ht]
      simp only [Sched.unlink, Function.update_self, this]
      omega
    · simp only [waiters_unlink, hq, if_false]
      simp [Sched.unlink, Function.update_of_ne hq, this]

theorem moveToRunq (ht : t ∈ s.waiters q) :
    Linked (((s.unlink q t).modify t fun k ↦ { k with ktState := .run }).link .runq t) :=
  ((h.unlink ht).modify (by simp)).link (by simp)

theorem switch : Linked s.schedSwitch := by
  rcases s.schedSwitch_cases with ⟨_, he⟩ | ⟨l, t, hq, he⟩ <;> rw [he]
  · exact h.setCur none
  · exact (h.unlink (by simp [hq])).setCur (some t)

end

end Linked

end Sched

end CS402.Proc

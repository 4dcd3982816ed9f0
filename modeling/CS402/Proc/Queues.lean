import CS402.Lib.Trans
import CS402.Proc.Sched

/-!
# The queues of the scheduler

Any number of threads sleep, wake and cancel one another on any number of queues,
through the calls of `kernel/proc/sched.c` alone.  The system of this file makes no
assumption about who calls what, apart from the two that the routines themselves
state: `sched_make_runnable` is for a thread that is on no queue, and `sched_switch`
is called by a thread that has put itself on a queue or has exited.

* `Queued` lists what holds of threads and queues between the calls.
* `fifo` computes from the calls alone who sleeps on a queue, in the order in which
  they went to sleep, without those that have been woken or cancelled.
* `queued_of_run` shows that `Queued` always holds and that `sched_wakeup_on` returns
  the first thread of `fifo`.
* `selfQueued_refutes` shows why one more rule is needed for that: a cancelled thread
  that puts itself on the run queue and then, instead of switching, calls
  `sched_cancellable_sleep_on` is marked `KT_EXITED` on the run queue.
-/

set_option linter.unusedSectionVars false

namespace CS402.Proc

open CS402.Lib

variable {Q : Type} [DecidableEq Q] {k : Kthread Q} {st : KtState} {q' : Q}

/-- The scheduler with the threads that use it. -/
structure Sleepers (Q : Type) where
  sched : Sched Q
  /-- The thread is suspended in `sched_cancellable_sleep_on`. -/
  inside : Tid → Bool

/-- A call, with the thread that makes it or is its target and what it returns. -/
inductive SchedEv (Q : Type) where
  /-- The running thread `t` sleeps. -/
  | sleepOn (t : Tid) (q : Q)
  /-- The running thread `t` returns with `-EINTR` at once, or it sleeps. -/
  | cancellableSleepOn (t : Tid) (q : Q) (r : Option Errno)
  /-- The thread goes on in `sched_cancellable_sleep_on` after the switch. -/
  | resume (t : Tid)
  | wakeupOn (q : Q) (r : Option Tid)
  | broadcastOn (q : Q)
  | cancel (t : Tid)
  | makeRunnable (t : Tid)
  /-- The running thread `t` calls `sched_switch`. -/
  | switch (t : Tid)
  /-- `sched_switch` finds a thread after it had to wait for one. -/
  | dispatch
deriving DecidableEq, Repr

namespace Sleepers

/-- `t` is running its own code. -/
def Runs (s : Sleepers Q) (t : Tid) : Prop := s.sched.curthr = some t ∧ s.inside t = false

instance (s : Sleepers Q) (t : Tid) : Decidable (s.Runs t) := inferInstanceAs (Decidable (_ ∧ _))

/-- `t` has put itself on a queue or has exited. -/
def MaySwitch (s : Sleepers Q) (t : Tid) : Prop :=
  (s.sched.kthread t).ktWchan ≠ none ∨ (s.sched.kthread t).ktState = .exited

instance (s : Sleepers Q) (t : Tid) : Decidable (s.MaySwitch t) :=
  inferInstanceAs (Decidable (_ ∨ _))

/-- One call. -/
def step (s : Sleepers Q) : SchedEv Q → Except Fault (Sleepers Q)
  | .sleepOn t q => do
    demand .disabled (s.Runs t)
    let sc ← s.sched.schedSleepOn (.on q) t
    .ok { s with sched := sc }
  | .cancellableSleepOn t q r => do
    demand .disabled (s.Runs t)
    let (r', sc) ← s.sched.schedCancellableSleepOn (.on q) t
    demand .disabled (r = r')
    .ok { s with sched := sc, inside := Function.update s.inside t (decide (r = none)) }
  | .resume t => do
    demand .disabled (s.sched.curthr = some t ∧ s.inside t = true)
    .ok { s with sched := (s.sched.schedCancellableWake t).2
                 inside := Function.update s.inside t false }
  | .wakeupOn q r => do
    let (r', sc) ← s.sched.schedWakeupOn (.on q)
    demand .disabled (r = r')
    .ok { s with sched := sc }
  | .broadcastOn q => do
    let sc ← s.sched.schedBroadcastOn (.on q)
    .ok { s with sched := sc }
  | .cancel t => do
    let sc ← s.sched.schedCancel t
    .ok { s with sched := sc }
  | .makeRunnable t => do
    let sc ← s.sched.schedMakeRunnable t
    .ok { s with sched := sc }
  | .switch t => do
    demand .disabled (s.Runs t ∧ s.MaySwitch t)
    .ok { s with sched := s.sched.schedSwitch }
  | .dispatch => do
    demand .disabled (s.sched.curthr = none)
    .ok { s with sched := s.sched.schedSwitch }

/-- At the start the thread `t₀` runs, in state `KT_NO_STATE` or `KT_RUN`, and no other
thread has been made runnable.  Threads may have been cancelled. -/
def start (t₀ : Tid) (born : Bool) (cancelled : Tid → Bool) : Sleepers Q where
  sched :=
    { kthread := fun t ↦
        ⟨if t = t₀ ∧ born = true then .run else .noState, cancelled t, none, 0, t⟩
      ktqueue := fun _ ↦ ⟨[], 0⟩
      curthr := some t₀
      pState := fun _ ↦ .running }
  inside := fun _ ↦ false

/-- `sched_cancellable_sleep_on` is not executed by a thread that is on a queue: one that
runs and has been put on the run queue calls `sched_switch`. -/
def Proper (s : Sleepers Q) : SchedEv Q → Prop
  | .cancellableSleepOn t _ _ | .resume t => (s.sched.kthread t).ktWchan = none
  | _ => True

instance (s : Sleepers Q) : (e : SchedEv Q) → Decidable (s.Proper e)
  | .cancellableSleepOn t _ _ | .resume t =>
    inferInstanceAs (Decidable ((s.sched.kthread t).ktWchan = none))
  | .sleepOn .. | .wakeupOn .. | .broadcastOn _ | .cancel _ | .makeRunnable _ | .switch _
  | .dispatch => inferInstanceAs (Decidable True)

/-! ## What is to be shown -/

/-- The thread has been made runnable, or it ran at the start. -/
def Started (t₀ : Tid) (h : List (SchedEv Q)) (t : Tid) : Prop :=
  t = t₀ ∨ .makeRunnable t ∈ h

/-- **Threads and queues**, after the calls `h`. -/
structure Queued (t₀ : Tid) (h : List (SchedEv Q)) (s : Sleepers Q) : Prop where
  /-- A thread occurs on one queue at most. -/
  single : ∀ t q q', t ∈ s.sched.waiters q → t ∈ s.sched.waiters q' → q = q'
  /-- It occurs there once. -/
  once : ∀ t q, (s.sched.waiters q).count t ≤ 1
  wchan : ∀ t q, (s.sched.kthread t).ktWchan = some q ↔ t ∈ s.sched.waiters q
  size : ∀ q, (s.sched.ktqueue q).tqSize = (s.sched.waiters q).length
  asleep : ∀ t, (s.sched.kthread t).ktState = .sleep ∨
    (s.sched.kthread t).ktState = .sleepCancellable → ∃ q, t ∈ s.sched.waiters (.on q)
  runnable : ∀ t ∈ s.sched.waiters .runq, (s.sched.kthread t).ktState = .run
  /-- Nobody is forgotten. -/
  placed : ∀ t, Started t₀ h t → (s.sched.kthread t).ktState ≠ .exited →
    s.sched.curthr ≠ some t → ∃ q, t ∈ s.sched.waiters q

/-- What a call does to the line of those that sleep on `q`; each thread is listed with
whether its sleep can be cancelled. -/
def fifoStep (q : Q) (l : List (Tid × Bool)) : SchedEv Q → List (Tid × Bool)
  | .sleepOn t q' => if q' = q then l ++ [(t, false)] else l
  | .cancellableSleepOn t q' none => if q' = q then l ++ [(t, true)] else l
  | .wakeupOn q' _ => if q' = q then l.tail else l
  | .broadcastOn q' => if q' = q then [] else l
  | .cancel t => l.filter (· ≠ (t, true))
  | _ => l

/-- The threads that went to sleep on `q` and have been neither woken nor cancelled since,
the one that has slept longest first. -/
def fifo (q : Q) : List (SchedEv Q) → List (Tid × Bool)
  | [] => []
  | e :: h => fifoStep q (fifo q h) e

/-! ## A thread that is marked on the run queue -/

/-- Thread `0` is cancelled, puts itself on the run queue and then wants to sleep. -/
def selfQueued : List (SchedEv Unit) :=
  [.cancel 0, .makeRunnable 0, .cancellableSleepOn 0 () (some .EINTR)]

/-- **An exited thread on the run queue.**  The calls of this run are ones that `step`
allows, and after them thread `0` is in state `KT_EXITED` on the run queue. -/
theorem selfQueued_refutes :
    ∃ (s : Sleepers Unit) (h : List (SchedEv Unit)),
      Run (ofStep step) (start 0 true fun _ ↦ false) h s ∧ 0 ∈ s.sched.waiters .runq ∧
      (s.sched.kthread 0).ktState = .exited ∧ ¬ Queued 0 h s := by
  have h : ∃ s : Sleepers Unit, exec step (start 0 true fun _ ↦ false) selfQueued = .ok s ∧
      0 ∈ s.sched.waiters .runq ∧ (s.sched.kthread 0).ktState = .exited :=
    ⟨_, rfl, by decide, rfl⟩
  obtain ⟨s, hs, hq, hst⟩ := h
  refine ⟨s, _, Run.of_exec hs, hq, hst, fun hQ ↦ ?_⟩
  have := hQ.runnable 0 hq
  rw [hst] at this
  cases this

end Sleepers

/-! ## The invariant

Each thread fits its place on its own: what is known about it depends on its fields and
on whether it is the running thread. -/

/-- The state of a thread fits the queue it is on.  A thread on no queue has not been
started, has exited, or is running. -/
def Kthread.Fits (k : Kthread Q) (cur : Prop) : Prop :=
  match k.ktWchan with
  | some .runq => k.ktState = .run
  | some (.on _) => k.ktState = .sleep ∨ k.ktState = .sleepCancellable
  | none => k.ktState = .noState ∨ k.ktState = .exited ∨ cur ∧ k.ktState = .run

theorem Kthread.Fits.mono {c c' : Prop} (h : k.Fits c)
    (hc : k.ktWchan = none → c → c') : k.Fits c' := by
  unfold Fits at h ⊢
  split
  · next hw => simpa only [hw] using h
  · next hw => simpa only [hw] using h
  · next hw =>
    simp only [hw] at h
    exact h.imp_right (.imp_right (.imp_left (hc hw)))

theorem Kthread.Fits.congr {k' : Kthread Q} {c : Prop} (h : k.Fits c)
    (hs : k'.ktState = k.ktState) (hw : k'.ktWchan = k.ktWchan) : k'.Fits c := by
  unfold Fits at h ⊢
  rw [hs, hw]
  exact h

theorem Kthread.Fits.asleep {c : Prop} (h : k.Fits c)
    (hs : k.ktState = .sleep ∨ k.ktState = .sleepCancellable) : ∃ q, k.ktWchan = some (.on q) := by
  unfold Fits at h
  split at h
  · rw [h] at hs
    simp at hs
  · next q hw => exact ⟨q, hw⟩
  · rcases h with h | h | ⟨_, h⟩ <;> rw [h] at hs <;> simp at hs

namespace Sched

variable {s s' : Sched Q} {c r : Option Tid} {t : Tid} {q : Q}

/-- The queues are linked and every thread fits its place; `c` is the running thread. -/
structure Fitting (s : Sched Q) (c : Option Tid) : Prop where
  linked : s.Linked
  fits : ∀ t, (s.kthread t).Fits (c = some t)

namespace Fitting

/-- **Changing one thread.** -/
theorem update {c' : Option Tid} (h : s.Fitting c) (hl : s'.Linked)
    (hother : ∀ u, u ≠ t → s'.kthread u = s.kthread u) (hc : ∀ u, u ≠ t → c = some u → c' = some u)
    (ht : (s'.kthread t).Fits (c' = some t)) : s'.Fitting c' := by
  refine ⟨hl, fun u ↦ ?_⟩
  rcases eq_or_ne u t with rfl | hu
  · exact ht
  · rw [hother u hu]
    exact (h.fits u).mono fun _ ↦ hc u hu

theorem enqueue {c' : Option Tid} {w : Wq Q} (h : s.Fitting c)
    (hw : (s.kthread t).ktWchan = none) (hc : ∀ u, u ≠ t → c = some u → c' = some u)
    (hst : Kthread.Fits ⟨st, false, some w, 0, 0⟩ False) :
    ((s.modify t fun k ↦ { k with ktState := st }).link w t).Fitting c' := by
  refine h.update ((h.linked.modify rfl).link (by simpa using hw)) ?_ hc ?_
  · intro u hu
    simp [hu]
  · exact (hst.congr (by simp) (by simp)).mono fun _ ↦ False.elim

theorem switch (h : s.Fitting none) : s.schedSwitch.Fitting s.schedSwitch.curthr := by
  rcases s.schedSwitch_cases with ⟨_, he⟩ | ⟨l, u, hq, he⟩
  · rw [he]
    exact ⟨h.linked.setCur none, h.fits⟩
  · have hu : u ∈ s.waiters .runq := by simp [hq]
    have hrun := h.fits u
    simp only [Kthread.Fits, (h.linked.wchan u .runq).mpr hu] at hrun
    rw [he]
    refine h.update (t := u) ((h.linked.unlink hu).setCur (some u)) ?_ (by simp) ?_
    · intro v hv
      simp [hv]
    · simp [Kthread.Fits, hrun]

theorem moveToRunq (h : s.Fitting c) (ht : t ∈ s.waiters (.on q)) :
    (((s.unlink (.on q) t).modify t fun k ↦ { k with ktState := .run }).link .runq t).Fitting c := by
  refine h.update (t := t) (h.linked.moveToRunq ht) ?_ (fun _ _ ↦ id) ?_
  · intro u hu
    simp [hu]
  · simp [Kthread.Fits]

theorem wakeup (h : s.Fitting c) (he : s.schedWakeupOn (.on q) = .ok (r, s')) : s'.Fitting c := by
  rcases schedWakeupOn_eq_ok.mp he with ⟨_, _, rfl⟩ | ⟨l, t, hq, _, _, rfl⟩
  · exact h
  · exact h.moveToRunq (by simp [hq])

theorem flag (h : s.Fitting c) : (s.modify t fun k ↦ { k with ktCancelled := true }).Fitting c := by
  refine h.update (t := t) (h.linked.modify rfl) ?_ (fun _ _ ↦ id) ?_
  · intro u hu
    simp [hu]
  · exact (h.fits t).congr (by simp) (by simp)

theorem wchan_of_cancellable (h : s.Fitting c) (hs : (s.kthread t).ktState = .sleepCancellable) :
    ∃ q, (s.kthread t).ktWchan = some (.on q) :=
  (h.fits t).asleep (.inr hs)

theorem cancel (h : s.Fitting c) (he : s.schedCancel t = .ok s') : s'.Fitting c := by
  rcases schedCancel_eq_ok.mp he with ⟨_, rfl⟩ | ⟨w, hs, hw, hm, rfl⟩
  · exact h.flag
  · obtain ⟨q, hq⟩ := h.wchan_of_cancellable hs
    obtain rfl : w = .on q := Option.some.inj (hw.symm.trans hq)
    exact h.flag.moveToRunq (by simpa using hm)

theorem interrupted (h : s.Fitting c) (hw : (s.kthread t).ktWchan = none) :
    (s.interrupted t).Fitting c := by
  refine h.update (t := t) h.linked.interrupted ?_ (fun _ _ ↦ id) ?_
  · intro u hu
    simp [hu]
  · simp [Kthread.Fits, hw]

theorem leave (h : s.Fitting (some t))
    (ht : (s.kthread t).ktWchan ≠ none ∨ (s.kthread t).ktState = .exited) : s.Fitting none := by
  refine h.update (t := t) h.linked (fun _ _ ↦ rfl) ?_ ?_
  · rintro u hu ⟨⟩
    exact absurd rfl hu
  · have := h.fits t
    unfold Kthread.Fits at this ⊢
    split
    · next hw => simpa only [hw] using this
    · next hw => simpa only [hw] using this
    · next hw => exact .inr (.inl (ht.resolve_left (fun hn ↦ hn hw)))

end Fitting

/-! ## The line of those that sleep on a queue -/

/-- The threads on a queue, the one that has slept longest first, each with whether its
sleep can be cancelled. -/
def line (s : Sched Q) (q : Q) : List (Tid × Bool) :=
  (s.waiters (.on q)).reverse.map fun t ↦
    (t, decide ((s.kthread t).ktState = .sleepCancellable))

theorem line_congr (hw : s'.waiters (.on q) = s.waiters (.on q))
    (hs : ∀ t ∈ s.waiters (.on q), (s'.kthread t).ktState = (s.kthread t).ktState) :
    s'.line q = s.line q := by
  unfold line
  rw [hw]
  refine List.map_congr_left fun t ht ↦ ?_
  rw [hs t (List.mem_reverse.mp ht)]

theorem line_modify (h : s.Linked) (ht : (s.kthread t).ktWchan = none)
    {f : Kthread Q → Kthread Q} : (s.modify t f).line q = s.line q := by
  refine line_congr rfl fun u hu ↦ ?_
  have hut : u ≠ t := fun e ↦ h.notMem ht _ (e ▸ hu)
  simp [hut]

theorem line_sleep (h : s.Linked) (ht : (s.kthread t).ktWchan = none) :
    ((s.modify t fun k ↦ { k with ktState := st }).link (.on q') t).line q =
      if q' = q then s.line q ++ [(t, decide (st = .sleepCancellable))] else s.line q := by
  have hm := line_modify (q := q) (f := fun k ↦ { k with ktState := st }) h ht
  split
  · next hq =>
    subst hq
    have hu : ∀ u, (((s.modify t fun k ↦ { k with ktState := st }).link (.on q') t).kthread
        u).ktState = ((s.modify t fun k ↦ { k with ktState := st }).kthread u).ktState := by
      intro u
      rcases eq_or_ne u t with rfl | hut
      · simp
      · simp [hut]
    rw [← hm]
    simp only [line, hu, waiters_link, if_true, List.reverse_cons, List.map_append]
    simp
  · next hq =>
    rw [← hm]
    refine line_congr (by simp [Ne.symm hq]) fun u _ ↦ ?_
    rcases eq_or_ne u t with rfl | hut
    · simp
    · simp [hut]

theorem line_runq {f : Kthread Q → Kthread Q} (h : s.Linked) (ht : (s.kthread t).ktWchan = none) :
    ((s.modify t f).link .runq t).line q = s.line q := by
  rw [← line_modify (f := f) h ht]
  refine line_congr (by simp) fun u _ ↦ ?_
  rcases eq_or_ne u t with rfl | hut
  · simp
  · simp [hut]

theorem line_switch (s : Sched Q) (q : Q) : s.schedSwitch.line q = s.line q := by
  rcases s.schedSwitch_cases with ⟨_, he⟩ | ⟨l, u, _, he⟩ <;> rw [he]
  · rfl
  · refine line_congr (by simp) fun v _ ↦ ?_
    rcases eq_or_ne v u with rfl | hvu
    · simp
    · simp [hvu]

theorem mem_line {x : Tid × Bool} : x ∈ s.line q ↔ x.1 ∈ s.waiters (.on q) ∧
    x.2 = decide ((s.kthread x.1).ktState = .sleepCancellable) := by
  simp only [line, List.mem_map, List.mem_reverse]
  constructor
  · rintro ⟨t, ht, rfl⟩
    exact ⟨ht, rfl⟩
  · rintro ⟨ht, hx⟩
    exact ⟨x.1, ht, Prod.ext rfl hx.symm⟩

theorem line_moveToRunq (h : s.Linked) (ht : t ∈ s.waiters (.on q')) :
    (((s.unlink (.on q') t).modify t fun k ↦ { k with ktState := .run }).link .runq t).line q =
      (s.line q).filter (·.1 ≠ t) := by
  rw [line_runq (h.unlink ht) (by simp)]
  have hstate : ∀ u, ((s.unlink (.on q') t).kthread u).ktState = (s.kthread u).ktState := by
    intro u
    rcases eq_or_ne u t with rfl | hut
    · simp
    · simp [hut]
  rcases eq_or_ne q' q with rfl | hq
  · simp only [line, hstate, waiters_unlink, if_true, (h.nodup _).erase_eq_filter t,
      List.filter_map, ← List.filter_reverse]
    refine congrArg _ (List.filter_congr fun u _ ↦ ?_)
    simp [bne, beq_eq_decide]
  · rw [line_congr (by simp [Ne.symm hq]) fun u _ ↦ hstate u]
    refine (List.filter_eq_self.mpr fun x hx ↦ ?_).symm
    have hxt : x.1 ≠ t := by
      intro e
      have := h.unique (e ▸ (mem_line.mp hx).1) ht
      cases this
      exact hq rfl
    simpa using hxt

/-- `sched_wakeup_on` returns the first thread of the line and takes it out. -/
theorem line_wakeup (h : s.Linked)
    (he : s.schedWakeupOn (.on q') = .ok (r, s')) :
    r = (s.line q').head?.map Prod.fst ∧
      s'.line q = if q' = q then (s.line q).tail else s.line q := by
  rcases schedWakeupOn_eq_ok.mp he with ⟨hq, rfl, rfl⟩ | ⟨l, t, hq, rfl, _, rfl⟩
  · have hnil : s'.line q' = [] := by simp [line, hq]
    refine ⟨by simp [hnil], ?_⟩
    split
    · next e => rw [← e, hnil, List.tail_nil]
    · rfl
  · have ht : t ∈ s.waiters (.on q') := by simp [hq]
    have hline : s.line q' = (t, decide ((s.kthread t).ktState = .sleepCancellable)) ::
        l.reverse.map fun t ↦ (t, decide ((s.kthread t).ktState = .sleepCancellable)) := by
      simp [line, hq]
    refine ⟨by simp [hline], ?_⟩
    rw [line_moveToRunq h ht]
    split
    · next e =>
      subst e
      have hnd := h.nodup (.on q')
      rw [hq] at hnd
      have htl : ∀ u ∈ l, u ≠ t := fun u hu e ↦
        (List.disjoint_of_nodup_append hnd) hu (e ▸ List.mem_singleton_self t)
      rw [hline, List.filter_cons_of_neg (by simp), List.tail_cons]
      refine List.filter_eq_self.mpr fun x hx ↦ ?_
      obtain ⟨u, hu, rfl⟩ := List.mem_map.mp hx
      simpa using htl u (List.mem_reverse.mp hu)
    · next e =>
      refine List.filter_eq_self.mpr fun x hx ↦ ?_
      have hxt : x.1 ≠ t := by
        intro e'
        cases h.unique (e' ▸ (mem_line.mp hx).1) ht
        exact e rfl
      simpa using hxt

/-- `sched_cancel` takes out a thread whose sleep can be cancelled, and nobody else. -/
theorem line_cancel (h : s.Fitting c) (he : s.schedCancel t = .ok s') :
    s'.line q = (s.line q).filter (· ≠ (t, true)) := by
  have hflag : (s.modify t fun k ↦ { k with ktCancelled := true }).line q = s.line q := by
    refine line_congr rfl fun u _ ↦ ?_
    rcases eq_or_ne u t with rfl | hut
    · simp
    · simp [hut]
  rcases schedCancel_eq_ok.mp he with ⟨hs, rfl⟩ | ⟨w, hs, hw, hm, rfl⟩
  · rw [hflag]
    refine (List.filter_eq_self.mpr fun x hx ↦ ?_).symm
    have hxt : x ≠ (t, true) := by
      rintro rfl
      exact hs (of_decide_eq_true (mem_line.mp hx).2.symm)
    simpa using hxt
  · obtain ⟨q', hq'⟩ := h.wchan_of_cancellable hs
    obtain rfl : w = .on q' := Option.some.inj (hw.symm.trans hq')
    rw [line_moveToRunq h.flag.linked (by simpa using hm), hflag]
    refine List.filter_congr fun x hx ↦ ?_
    have hx2 := (mem_line.mp hx).2
    have hiff : x.1 = t ↔ x = (t, true) := by
      constructor
      · rintro rfl
        exact Prod.ext rfl (by rw [hx2, hs]; rfl)
      · rintro rfl
        rfl
    simp [hiff]

/-- No thread goes back to `KT_NO_STATE`, and one that is in that state and runs does not
give up the processor. -/
def Keeps (s s' : Sched Q) : Prop :=
  ∀ t, (s'.kthread t).ktState = .noState →
    (s.kthread t).ktState = .noState ∧ (s.curthr = some t → s'.curthr = some t)

theorem Keeps.refl (s : Sched Q) : Keeps s s := fun _ ht ↦ ⟨ht, id⟩

theorem Keeps.trans {s₁ : Sched Q} (h : Keeps s s₁) (h' : Keeps s₁ s') : Keeps s s' := fun t ht ↦
  ⟨(h t (h' t ht).1).1, fun hc ↦ (h' t ht).2 ((h t (h' t ht).1).2 hc)⟩

theorem Keeps.update (hcur : s'.curthr = s.curthr) (ht : (s'.kthread t).ktState ≠ .noState)
    (hother : ∀ u, u ≠ t → (s'.kthread u).ktState = (s.kthread u).ktState) : Keeps s s' := by
  intro u hu
  rcases eq_or_ne u t with rfl | hut
  · exact absurd hu ht
  · exact ⟨hother u hut ▸ hu, fun hc ↦ hcur.trans hc⟩

theorem Keeps.switch (h : Keeps s s') (ht : s.curthr = some t)
    (hst : (s'.kthread t).ktState ≠ .noState) : Keeps s s'.schedSwitch := by
  intro u hu
  have hu' : (s'.kthread u).ktState = .noState := by
    rcases s'.schedSwitch_cases with ⟨_, he⟩ | ⟨l, v, _, he⟩ <;> rw [he] at hu
    · exact hu
    · rcases eq_or_ne u v with rfl | huv
      · simpa using hu
      · simpa [huv] using hu
  refine ⟨(h u hu').1, fun hc ↦ ?_⟩
  obtain rfl : t = u := Option.some.inj (ht.symm.trans hc)
  exact absurd hu' hst

theorem Keeps.wakeup {w : Wq Q} (he : s.schedWakeupOn w = .ok (r, s')) : Keeps s s' := by
  rcases schedWakeupOn_eq_ok.mp he with ⟨_, _, rfl⟩ | ⟨l, t, _, _, _, rfl⟩
  · exact .refl _
  · refine .update (t := t) rfl (by simp) fun u hu ↦ ?_
    simp [hu]

/-- `sched_broadcast_on` wakes everybody on the queue. -/
theorem broadcast_ok (h : s.Fitting c) (he : s.schedBroadcastOn (.on q') = .ok s') :
    s'.Fitting c ∧ s'.curthr = s.curthr ∧ Keeps s s' ∧
      ∀ q, s'.line q = if q' = q then [] else s.line q := by
  -- after as many turns as there are elements in `l`, as many threads have left the line
  have hloop : ∀ (l : List Tid) {s s' : Sched Q}, s.Fitting c →
      l.foldlM (fun s _ ↦ do
        let r ← s.schedWakeupOn (.on q')
        .ok r.2) s = .ok s' →
      s'.Fitting c ∧ s'.curthr = s.curthr ∧ Keeps s s' ∧
        ∀ q, s'.line q = if q' = q then (s.line q).drop l.length else s.line q := by
    intro l
    induction l with
    | nil =>
      intro s s' h he
      rw [List.foldlM_nil, pure_eq_ok] at he
      exact he ▸ ⟨h, rfl, .refl _, fun q ↦ by simp⟩
    | cons u l ih =>
      intro s s' h he
      rw [List.foldlM_cons] at he
      obtain ⟨s₁, h₁, h₂⟩ := bind_ok he
      obtain ⟨⟨r, s₂⟩, hw, h₁⟩ := bind_ok h₁
      cases h₁
      obtain ⟨hf, hc, hk, hl⟩ := ih (h.wakeup hw) h₂
      refine ⟨hf, hc.trans (curthr_wakeup hw).1, (Keeps.wakeup hw).trans hk, fun q ↦ ?_⟩
      rw [hl q, (line_wakeup h.linked hw).2]
      split
      · rw [List.length_cons, List.drop_tail]
      · rfl
  obtain ⟨hf, hc, hk, hl⟩ := hloop _ h he
  refine ⟨hf, hc, hk, fun q ↦ ?_⟩
  rw [hl q]
  split
  · next e =>
    subst e
    refine List.drop_eq_nil_of_le ?_
    simp [line]
  · rfl

end Sched

namespace Sleepers

variable {s s' : Sleepers Q} {t₀ t : Tid} {h : List (SchedEv Q)} {e : SchedEv Q}

/-- What holds after the calls `h`. -/
structure Inv (t₀ : Tid) (h : List (SchedEv Q)) (s : Sleepers Q) : Prop where
  fitting : s.sched.Fitting s.sched.curthr
  begun : ∀ t, Started t₀ h t → (s.sched.kthread t).ktState = .noState → s.sched.curthr = some t
  line : ∀ q, fifo q h = s.sched.line q

theorem Inv.start (t₀ : Tid) (born : Bool) (cancelled : Tid → Bool) :
    Inv t₀ [] (start t₀ born cancelled : Sleepers Q) where
  fitting := by
    refine ⟨⟨fun t q ↦ by simp [Sleepers.start, Sched.waiters], fun q ↦ by
      simp [Sleepers.start, Sched.waiters], fun q ↦ by simp [Sleepers.start, Sched.waiters]⟩, ?_⟩
    intro t
    by_cases ht : t = t₀ ∧ born = true
    · simp [Kthread.Fits, Sleepers.start, ht]
    · simp [Kthread.Fits, Sleepers.start, ht]
  begun t ht _ := by
    rcases ht with rfl | ht
    · rfl
    · cases ht
  line q := by simp [fifo, Sched.line, Sleepers.start, Sched.waiters]

theorem Inv.next (hi : Inv t₀ h s) (hf : s'.sched.Fitting s'.sched.curthr)
    (hk : s.sched.Keeps s'.sched)
    (hrun : ∀ t, e = .makeRunnable t → (s'.sched.kthread t).ktState ≠ .noState)
    (hl : ∀ q, s'.sched.line q = fifoStep q (s.sched.line q) e) : Inv t₀ (e :: h) s' where
  fitting := hf
  begun t ht hst := by
    obtain ⟨hst₀, hc⟩ := hk t hst
    have ht' : Started t₀ h t := by
      rcases ht with ht | ht
      · exact .inl ht
      · rcases List.mem_cons.mp ht with ht | ht
        · exact absurd hst (hrun t ht.symm)
        · exact .inr ht
    exact hc (hi.begun t ht' hst₀)
  line q := by rw [hl q, fifo, hi.line q]

theorem Inv.sleep (hi : Inv t₀ h s) (ht : s.sched.curthr = some t)
    (hst : st = .sleep ∨ st = .sleepCancellable) (hw : (s.sched.kthread t).ktWchan = none)
    {i : Tid → Bool} (he : ∀ t, e ≠ .makeRunnable t)
    (hl : ∀ q l, fifoStep q l e =
      if q' = q then l ++ [(t, decide (st = .sleepCancellable))] else l) :
    Inv t₀ (e :: h) ⟨((s.sched.modify t fun k ↦ { k with ktState := st }).link
      (.on q') t).schedSwitch, i⟩ := by
  have hne : st ≠ .noState := by rcases hst with rfl | rfl <;> simp
  refine hi.next (Sched.Fitting.switch (hi.fitting.enqueue hw ?_ hst)) ?_
    (fun u hu ↦ absurd hu (he u)) ?_
  · intro u hu hc
    exact absurd (Option.some.inj (ht.symm.trans hc)).symm hu
  · refine Sched.Keeps.switch (.update (t := t) rfl (by simpa using hne) fun u hu ↦ ?_) ht
      (by simpa using hne)
    simp [hu]
  · intro q
    rw [Sched.line_switch, Sched.line_sleep hi.fitting.linked hw, hl]

theorem Inv.interrupted (hi : Inv t₀ h s) (hw : (s.sched.kthread t).ktWchan = none)
    {i : Tid → Bool} (he : ∀ t, e ≠ .makeRunnable t)
    (hl : ∀ q l, fifoStep q l e = l) : Inv t₀ (e :: h) ⟨s.sched.interrupted t, i⟩ := by
  refine hi.next (hi.fitting.interrupted hw) (.update (t := t) rfl (by simp) fun u hu ↦ ?_)
    (fun u hu ↦ absurd hu (he u)) fun q ↦ ?_
  · simp [hu]
  · rw [hl]
    exact Sched.line_modify (f := fun k ↦ { k with ktState := .exited }) hi.fitting.linked hw

/-- **One call.** -/
theorem Inv.step (hi : Inv t₀ h s) (hp : s.Proper e) (he : s.step e = .ok s') :
    Inv t₀ (e :: h) s' := by
  cases e with
  | sleepOn t q =>
    obtain ⟨ht, he⟩ := bind_demand he
    obtain ⟨sc, hsc, he⟩ := bind_ok he
    cases he
    simp only [Sched.schedSleepOn, Sched.ktqueueEnqueue, bind_eq_ok, demand_eq_ok,
      Except.ok.injEq] at hsc
    obtain ⟨_, ⟨_, hw, rfl⟩, rfl⟩ := hsc
    exact hi.sleep ht.1 (.inl rfl) (by simpa using hw) (by simp)
      fun q l ↦ by simp [fifoStep]
  | cancellableSleepOn t q r =>
    obtain ⟨ht, he⟩ := bind_demand he
    obtain ⟨⟨r', sc⟩, hsc, he⟩ := bind_ok he
    obtain ⟨hr, he⟩ := bind_demand he
    cases he
    obtain rfl : r = r' := hr
    unfold Sched.schedCancellableSleepOn at hsc
    split at hsc
    · cases hsc
      exact hi.interrupted hp (by simp) fun q l ↦ rfl
    · simp only [Sched.ktqueueEnqueue, bind_eq_ok, demand_eq_ok, Except.ok.injEq] at hsc
      obtain ⟨_, ⟨_, hw, rfl⟩, hsc⟩ := hsc
      cases hsc
      exact hi.sleep ht.1 (.inr rfl) (by simpa using hw) (by simp)
        fun q l ↦ by simp [fifoStep]
  | resume t =>
    obtain ⟨_, ht, he⟩ := bind_ok he
    cases he
    unfold Sched.schedCancellableWake
    split
    · exact hi.interrupted hp (by simp) fun q l ↦ rfl
    · exact hi.next hi.fitting (.refl _) (by simp) fun q ↦ rfl
  | wakeupOn q r =>
    obtain ⟨⟨r', sc⟩, hsc, he⟩ := bind_ok he
    obtain ⟨_, hr, he⟩ := bind_ok he
    cases he
    refine hi.next ?_ (.wakeup hsc) (by simp) fun q ↦ (Sched.line_wakeup hi.fitting.linked hsc).2
    rw [(Sched.curthr_wakeup hsc).1]
    exact hi.fitting.wakeup hsc
  | broadcastOn q =>
    obtain ⟨sc, hsc, he⟩ := bind_ok he
    cases he
    obtain ⟨hf, hc, hk, hl⟩ := Sched.broadcast_ok hi.fitting hsc
    exact hi.next (by rw [hc]; exact hf) hk (by simp) hl
  | cancel t =>
    obtain ⟨sc, hsc, he⟩ := bind_ok he
    cases he
    have hf := hi.fitting.cancel hsc
    have hl := fun q ↦ Sched.line_cancel (q := q) hi.fitting hsc
    rcases Sched.schedCancel_eq_ok.mp hsc with ⟨_, rfl⟩ | ⟨w, _, _, _, rfl⟩
    · refine hi.next hf (fun u hu ↦ ⟨?_, id⟩) (by simp) hl
      rcases eq_or_ne u t with rfl | hut
      · simpa using hu
      · simpa [hut] using hu
    · refine hi.next hf (.update (t := t) rfl (by simp) fun u hu ↦ ?_) (by simp) hl
      simp [hu]
  | makeRunnable t =>
    obtain ⟨sc, hsc, he⟩ := bind_ok he
    cases he
    obtain ⟨hw, rfl⟩ := Sched.schedMakeRunnable_eq_ok.mp hsc
    refine hi.next (hi.fitting.enqueue hw (fun _ _ ↦ id) rfl)
      (.update (t := t) rfl (by simp) fun u hu ↦ ?_) ?_
      fun q ↦ Sched.line_runq hi.fitting.linked hw
    · simp [hu]
    · rintro u ⟨⟩
      simp
  | switch t =>
    obtain ⟨ht, he⟩ := bind_demand he
    cases he
    obtain ⟨⟨ht, _⟩, hm⟩ := ht
    have hf : s.sched.Fitting none := by
      refine Sched.Fitting.leave ?_ hm
      rw [← ht]
      exact hi.fitting
    refine hi.next hf.switch (.switch (.refl _) ht ?_) (by simp)
      fun q ↦ Sched.line_switch _ _
    intro hno
    have := hf.fits t
    unfold Kthread.Fits at this
    rcases hm with hm | hm
    · split at this
      · rw [hno] at this; cases this
      · rw [hno] at this; simp at this
      · next hw => exact hm hw
    · rw [hno] at hm; cases hm
  | dispatch =>
    obtain ⟨ht, he⟩ := bind_demand he
    cases he
    have hf : s.sched.Fitting none := ht ▸ hi.fitting
    refine hi.next hf.switch ?_ (by simp) fun q ↦ Sched.line_switch _ _
    intro u hu
    rcases s.sched.schedSwitch_cases with ⟨_, he⟩ | ⟨l, v, _, he⟩ <;> rw [he] at hu
    · exact ⟨hu, fun hc ↦ by rw [ht] at hc; cases hc⟩
    · refine ⟨?_, fun hc ↦ by rw [ht] at hc; cases hc⟩
      rcases eq_or_ne u v with rfl | huv
      · simpa using hu
      · simpa [huv] using hu

theorem Inv.queued (hi : Inv t₀ h s) : Queued t₀ h s where
  single t q q' := hi.fitting.linked.unique
  once t q := List.nodup_iff_count_le_one.mp (hi.fitting.linked.nodup q) t
  wchan := hi.fitting.linked.wchan
  size := hi.fitting.linked.size
  asleep t ht := by
    obtain ⟨q, hq⟩ := (hi.fitting.fits t).asleep ht
    exact ⟨q, (hi.fitting.linked.wchan t _).mp hq⟩
  runnable t ht := by
    have := hi.fitting.fits t
    simpa only [Kthread.Fits, (hi.fitting.linked.wchan t .runq).mpr ht] using this
  placed t ht hx hc := by
    have hfit := hi.fitting.fits t
    by_contra hq
    have hw : (s.sched.kthread t).ktWchan = none := by
      by_contra hw
      obtain ⟨q, hw⟩ := Option.ne_none_iff_exists'.mp hw
      exact hq ⟨q, (hi.fitting.linked.wchan t q).mp hw⟩
    simp only [Kthread.Fits, hw] at hfit
    rcases hfit with hno | hex | ⟨hcur, _⟩
    · exact hc (hi.begun t ht hno)
    · exact hx hex
    · exact hc hcur

/-- **The queues of the scheduler.**  After every sequence of calls in which no thread
executes `sched_cancellable_sleep_on` while it is on a queue, threads and queues fit
together, and a call of `sched_wakeup_on` returned the thread that had slept longest, of
those that went to sleep on the queue and had been neither woken nor cancelled. -/
theorem queued_of_run (t₀ : Tid) (born : Bool) (cancelled : Tid → Bool)
    (hr : Run (restrict (ofStep step) Proper) (start t₀ born cancelled) h s) :
    Queued t₀ h s ∧
      ∀ q r h', h = .wakeupOn q r :: h' → r = (fifo q h').head?.map Prod.fst := by
  have hI : ∀ {h : List (SchedEv Q)} {s : Sleepers Q},
      Run (restrict (ofStep step) Proper) (start t₀ born cancelled) h s → Inv t₀ h s := by
    intro h s hr
    refine hr.history ?_ (Inv.start t₀ born cancelled)
    rintro h s e s' hi ⟨hp, he⟩
    exact hi.step hp he
  refine ⟨(hI hr).queued, ?_⟩
  rintro q r h' rfl
  cases hr with
  | step hr he =>
    obtain ⟨_, he⟩ := he
    have hi := hI hr
    obtain ⟨⟨r', sc⟩, hsc, he⟩ := bind_ok he
    obtain ⟨hr', _⟩ := bind_demand he
    obtain rfl : r = r' := hr'
    rw [hi.line q]
    exact (Sched.line_wakeup (q := q) hi.fitting.linked hsc).1

/-- Three threads go to sleep, the second of them is cancelled, and two are woken. -/
def threeSleepers : List (SchedEv Unit) :=
  [.makeRunnable 1, .makeRunnable 2, .makeRunnable 3, .makeRunnable 0, .switch 0,
    .sleepOn 1 (), .cancellableSleepOn 2 () none, .cancellableSleepOn 3 () none, .cancel 2,
    .wakeupOn () (some 1), .wakeupOn () (some 3)]

/-- The theorem at that run: the second wakeup returns thread `3`. -/
theorem queued_threeSleepers :
    ∃ (s : Sleepers Unit) (h : List (SchedEv Unit)),
      Run (restrict (ofStep step) Proper) (start 0 false fun _ ↦ false)
        (.wakeupOn () (some 3) :: h) s ∧
      Queued 0 (.wakeupOn () (some 3) :: h) s ∧
      some 3 = (fifo () h).head?.map Prod.fst := by
  have hx : ∃ s : Sleepers Unit, exec (guarded .disabled step Proper)
      (start 0 false fun _ ↦ false) threeSleepers = .ok s := ⟨_, rfl⟩
  obtain ⟨s, hs⟩ := hx
  have hr := Run.of_exec_guarded hs
  obtain ⟨hq, hf⟩ := queued_of_run 0 false (fun _ ↦ false) hr
  exact ⟨s, _, hr, hq, hf () (some 3) _ rfl⟩

end Sleepers

end CS402.Proc

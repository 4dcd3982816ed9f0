import CS402.Proc.Kmutex

/-!
# Mutual exclusion

The threads of `CS402.Proc.Kmutex`, now with `kmutex_lock` and `kmutex_unlock` only.
`kmutex_unlock` writes `km_holder` on behalf of a thread that sleeps, and the code of
`kmutex_lock` behind the sleep writes nothing.  So that a thread which comes back from
`kmutex_lock` owns the mutex is a matter of the holder, the wait queue and the run queue
fitting together, over every schedule.

`Handoff` adds to the system what the specification speaks about: who is between the
return of `kmutex_lock` and `kmutex_unlock`, and since when a thread has been waiting.
`safe_of_run` is the result.
-/

namespace CS402.Proc

open CS402.Lib

/-- The system with a record of the critical sections. -/
structure Handoff where
  km : Kmutex
  /-- `kmutex_lock` has returned to the thread, and it has not called `kmutex_unlock`. -/
  inside : Tid → Bool
  /-- When the thread went to sleep in its last `kmutex_lock`. -/
  since : Tid → ℕ
  /-- The number of steps so far. -/
  now : ℕ

namespace Handoff

open Kmutex (waitq)

/-- The thread to which `kmutex_lock` returns in the step from `s` to `s'`. -/
def locks (s s' : Kmutex) : MutexEv → Option Tid
  | .lock => s.sched.curthr.filter fun t ↦ s'.pc t = .code
  | .resume => s.sched.curthr.filter fun t ↦ s.pc t = .inLock
  | _ => none

/-- The thread that calls `kmutex_unlock`. -/
def unlocks (s : Kmutex) : MutexEv → Option Tid
  | .unlock => s.sched.curthr
  | _ => none

/-- The thread that goes to sleep in `kmutex_lock`. -/
def sleeps (s s' : Kmutex) : MutexEv → Option Tid
  | .lock => s.sched.curthr.filter fun t ↦ s'.pc t = .inLock
  | _ => none

/-- One step.  `kmutex_lock_cancellable` is not used. -/
def step (g : Handoff) (e : MutexEv) : Except Fault Handoff := do
  demand .disabled (e ≠ .lockCancellable)
  let s ← g.km.step e
  .ok
    { km := s
      inside := fun t ↦ if locks g.km s e = some t then true
        else if unlocks g.km e = some t then false else g.inside t
      since := fun t ↦ if sleeps g.km s e = some t then g.now else g.since t
      now := g.now + 1 }

/-- After `kmutex_init`: nobody has used the mutex. -/
def init (cancelled : Tid → Bool) : Handoff := ⟨.init cancelled, fun _ ↦ false, fun _ ↦ 0, 0⟩

/-- The thread that has waited longest, of those on `km_waitq`. -/
def Longest (g : Handoff) (n : Tid) : Prop :=
  n ∈ g.km.sched.waiters waitq ∧ ∀ u ∈ g.km.sched.waiters waitq, u ≠ n → g.since n < g.since u

/-- **What a mutex is for.** -/
structure Safe (g : Handoff) : Prop where
  /-- At most one thread is in its critical section. -/
  exclusive : ∀ t u, g.inside t = true → g.inside u = true → t = u
  /-- That thread is the holder. -/
  holder : ∀ t, g.inside t = true → g.km.kmHolder = some t
  /-- Threads wait for a holder only. -/
  waits : g.km.sched.waiters waitq ≠ [] → g.km.kmHolder ≠ none
  /-- A thread that is still in `kmutex_lock` waits, or it is the new holder and is
  runnable. -/
  placed : ∀ t, g.km.pc t = .inLock → t ∈ g.km.sched.waiters waitq ∨
    g.km.kmHolder = some t ∧ (t ∈ g.km.sched.waiters .runq ∨ g.km.sched.curthr = some t)
  /-- `kmutex_lock` of a thread that is not the holder fails no assertion. -/
  lock : ∀ t, g.km.caller = .ok t → g.km.kmHolder ≠ some t → ∃ s, g.km.kmutexLock t = .ok s
  /-- `kmutex_unlock` of the holder fails no assertion and does not block, and the mutex
  goes to the thread that has waited longest. -/
  unlock : ∀ t, g.km.caller = .ok t → g.km.kmHolder = some t →
    ∃ s, g.km.kmutexUnlock t = .ok s ∧ s.sched.curthr = some t ∧ s.pc t = .code ∧
      (s.kmHolder = none ∧ g.km.sched.waiters waitq = [] ∨
        ∃ n, s.kmHolder = some n ∧ g.Longest n ∧ n ∈ s.sched.waiters .runq)

/-! ## The invariant -/

/-- What every step keeps. -/
structure Inv (g : Handoff) : Prop where
  base : Kmutex.Inv g.km
  plain : ∀ t, g.km.pc t ≠ .inLockCancellable
  holder : ∀ t, g.inside t = true → g.km.kmHolder = some t
  free : g.km.kmHolder = none → g.km.sched.waiters waitq = []
  placed : ∀ t, g.km.pc t = .inLock → t ∈ g.km.sched.waiters waitq ∨
    g.km.kmHolder = some t ∧ (t ∈ g.km.sched.waiters .runq ∨ g.km.sched.curthr = some t)
  order : (g.km.sched.waiters waitq).Pairwise fun u v ↦ g.since v < g.since u
  past : ∀ t ∈ g.km.sched.waiters waitq, g.since t < g.now

theorem Inv.init (cancelled : Tid → Bool) : Inv (init cancelled) where
  base := .init cancelled
  plain t := by
    simp only [Handoff.init, Kmutex.init]
    split <;> simp
  holder t ht := by simp [Handoff.init] at ht
  free _ := rfl
  placed t ht := by
    simp only [Handoff.init, Kmutex.init] at ht
    split at ht <;> cases ht
  order := .nil
  past t ht := by simp [Handoff.init, Kmutex.init, Sched.waiters] at ht

variable {g g' : Handoff} {s' : Kmutex} {t : Tid} {e : MutexEv}

/-- The invariant gives what was to be shown. -/
theorem Inv.safe (h : Inv g) : Safe g where
  exclusive t u ht hu := Option.some.inj ((h.holder t ht).symm.trans (h.holder u hu))
  holder := h.holder
  waits hq hn := hq (h.free hn)
  placed := h.placed
  lock t ht hne := by
    obtain ⟨ht, -⟩ := Kmutex.caller_eq_ok.mp ht
    have hw := (h.base.cur t ht).1
    simp only [Kmutex.kmutexLock, demand_bind hne]
    split
    · exact ⟨_, rfl⟩
    · simp [Sched.schedSleepOn, Sched.ktqueueEnqueue, hw]
  unlock t ht hh := by
    obtain ⟨ht, hc⟩ := Kmutex.caller_eq_ok.mp ht
    simp only [Kmutex.kmutexUnlock, demand_bind hh]
    rcases List.eq_nil_or_concat (g.km.sched.waiters waitq) with hq | ⟨l, n, hq⟩
    · have hw : g.km.sched.schedWakeupOn waitq = .ok (none, g.km.sched) :=
        Sched.schedWakeupOn_eq_ok.mpr (.inl ⟨hq, rfl, rfl⟩)
      rw [hw]
      exact ⟨_, rfl, ht, hc, .inl ⟨rfl, hq⟩⟩
    · rw [List.concat_eq_append] at hq
      have hn : n ∈ g.km.sched.waiters waitq := by simp [hq]
      have hnt : n ≠ t := fun e ↦ h.base.cur_notMem ht waitq (e ▸ hn)
      have hst : (g.km.sched.kthread n).ktState = .sleep ∨
          (g.km.sched.kthread n).ktState = .sleepCancellable :=
        (h.base.waiting n hn).2.imp (·.2) (·.2)
      have hd : (some n : Option Tid) ≠ some t := by simpa using hnt
      rw [Sched.schedWakeupOn_eq_ok.mpr (.inr ⟨l, n, hq, rfl, hst, rfl⟩)]
      simp only [ok_bind, demand_pos hd]
      refine ⟨_, rfl, ht, hc, .inr ⟨n, rfl, ⟨hn, fun u hu hun ↦ ?_⟩, by simp⟩⟩
      -- the list runs from the latest thread to the one that has waited longest
      have hord := h.order
      rw [hq] at hu hord
      rcases List.mem_append.mp hu with hu | hu
      · exact (List.pairwise_append.mp hord).2.2 u hu n (List.mem_singleton_self n)
      · exact absurd (List.mem_singleton.mp hu) hun

/-! ## Steps -/

theorem waitq_switch {Q : Type} [DecidableEq Q] (s : Sched Q) (q : Q) :
    s.schedSwitch.waiters (.on q) = s.waiters (.on q) := by
  rcases s.schedSwitch_cases with ⟨_, he⟩ | ⟨l, u, _, he⟩ <;> rw [he]
  · rfl
  · simp

theorem runq_switch {Q : Type} [DecidableEq Q] {s : Sched Q} (h : s.Linked)
    (ht : t ∈ s.waiters .runq) :
    t ∈ s.schedSwitch.waiters .runq ∨ s.schedSwitch.curthr = some t := by
  rcases s.schedSwitch_cases with ⟨hq, he⟩ | ⟨l, u, _, he⟩ <;> rw [he]
  · rw [hq] at ht
    cases ht
  · rcases eq_or_ne t u with rfl | htu
    · exact .inr rfl
    · exact .inl (by simpa [(h.nodup _).mem_erase_iff] using ⟨htu, ht⟩)

/-- A step that neither changes the holder nor lets a thread leave or enter `km_waitq`:
it is enough to look at the threads in `kmutex_lock`. -/
theorem Inv.keep (h : Inv g) (hbase : Kmutex.Inv s')
    (hpc : ∀ u, s'.pc u = g.km.pc u ∨ s'.pc u = .code ∨ s'.pc u = .ready ∨ s'.pc u = .exited)
    (hh : s'.kmHolder = g.km.kmHolder)
    (hq : s'.sched.waiters waitq = g.km.sched.waiters waitq)
    (hrun : ∀ u, s'.pc u = .inLock →
      u ∈ g.km.sched.waiters .runq ∨ g.km.sched.curthr = some u →
      u ∈ s'.sched.waiters .runq ∨ s'.sched.curthr = some u)
    (hlock : ∀ u, locks g.km s' e = some u → g.km.kmHolder = some u)
    (hsleep : sleeps g.km s' e = none) :
    Inv
      { km := s'
        inside := fun t ↦ if locks g.km s' e = some t then true
          else if unlocks g.km e = some t then false else g.inside t
        since := fun t ↦ if sleeps g.km s' e = some t then g.now else g.since t
        now := g.now + 1 } where
  base := hbase
  plain u hu := by
    rcases hpc u with hp | hp | hp | hp
    · exact h.plain u (hp ▸ hu)
    all_goals rw [hp] at hu; cases hu
  holder u hu := by
    simp only at hu
    rw [hh]
    split at hu
    · next hl => exact hlock u hl
    · split at hu
      · cases hu
      · exact h.holder u hu
  free hn := by
    rw [hq]
    exact h.free (hh ▸ hn)
  placed u hu := by
    have hu' : g.km.pc u = .inLock := by
      rcases hpc u with hp | hp | hp | hp
      · exact hp ▸ hu
      all_goals rw [hp] at hu; cases hu
    rw [hq, hh]
    exact (h.placed u hu').imp_right fun ⟨h₁, h₂⟩ ↦ ⟨h₁, hrun u hu h₂⟩
  order := by
    simp only [hsleep, hq, reduceCtorEq, if_false]
    exact h.order
  past u hu := by
    simp only [hsleep, hq, reduceCtorEq, if_false] at hu ⊢
    exact Nat.lt_succ_of_lt (h.past u hu)

/-- `kmutex_lock`. -/
theorem Inv.lock (h : Inv g) (ht : g.km.sched.curthr = some t) (hc : g.km.pc t = .code)
    (hbase : Kmutex.Inv s') (he : g.km.kmutexLock t = .ok s') :
    Inv
      { km := s'
        inside := fun u ↦ if locks g.km s' .lock = some u then true else g.inside u
        since := fun u ↦ if sleeps g.km s' .lock = some u then g.now else g.since u
        now := g.now + 1 } := by
  simp only [Kmutex.kmutexLock, bind_eq_ok, demand_eq_ok] at he
  obtain ⟨_, hh, he⟩ := he
  split at he
  · next hnone =>
    cases he
    have hlocks : ∀ u, locks g.km { g.km with kmHolder := some t, ret := none } .lock = some u →
        t = u := by
      simp [locks, ht, hc]
    refine ⟨hbase, h.plain, ?_, by simp, ?_, ?_, ?_⟩
    · intro u hu
      simp only at hu
      split at hu
      · next hl => rw [hlocks u hl]
      · have := h.holder u hu
        rw [hnone] at this
        cases this
    · intro u hu
      rcases h.placed u hu with hq | ⟨hq, _⟩
      · exact .inl hq
      · rw [hnone] at hq
        cases hq
    all_goals simp [h.free hnone]
  · next hsome =>
    obtain ⟨sc, hsc, he⟩ := bind_ok he
    cases he
    simp only [Sched.schedSleepOn, Sched.ktqueueEnqueue, bind_eq_ok, demand_eq_ok,
      Except.ok.injEq] at hsc
    obtain ⟨_, ⟨_, _, rfl⟩, rfl⟩ := hsc
    have hn := h.base.cur_notMem ht waitq
    have hl := h.base.enqueue (h.base.cur t ht).1 (.inr ⟨rfl, hh, .inl ⟨rfl, rfl⟩⟩)
    have hlocks : locks g.km ⟨((g.km.sched.modify t fun k ↦ { k with ktState := .sleep }).link
        waitq t).schedSwitch, g.km.kmHolder, Function.update g.km.pc t .inLock, none⟩ .lock =
        none := by
      simp [locks, ht]
    have hsleeps : sleeps g.km ⟨((g.km.sched.modify t fun k ↦ { k with ktState := .sleep }).link
        waitq t).schedSwitch, g.km.kmHolder, Function.update g.km.pc t .inLock, none⟩ .lock =
        some t := by
      simp [sleeps, ht]
    have hwaitq : (((g.km.sched.modify t fun k ↦ { k with ktState := .sleep }).link
        waitq t).schedSwitch).waiters waitq = t :: g.km.sched.waiters waitq := by
      rw [waitq_switch]
      simp
    refine ⟨hbase, ?_, ?_, fun hn ↦ absurd hn hsome, ?_, ?_, ?_⟩
    · intro u
      rcases eq_or_ne u t with rfl | hut
      · simp
      · simpa [hut] using h.plain u
    · intro u hu
      simp only [hlocks, reduceCtorEq, if_false] at hu
      exact h.holder u hu
    · intro u hu
      simp only [hwaitq]
      rcases eq_or_ne u t with rfl | hut
      · exact .inl List.mem_cons_self
      · rcases h.placed u (by simpa [hut] using hu) with hq | ⟨hq, hr | hr⟩
        · exact .inl (List.mem_cons_of_mem _ hq)
        · exact .inr ⟨hq, runq_switch hl.linked (by simpa using hr)⟩
        · exact absurd (Option.some.inj (hr.symm.trans ht)) hut
    · simp only [hwaitq, hsleeps, List.pairwise_cons]
      have hne : ∀ u ∈ g.km.sched.waiters waitq, t ≠ u := fun u hu e ↦ hn (e ▸ hu)
      constructor
      · intro u hu
        simpa [hne u hu] using h.past u hu
      · refine h.order.imp_of_mem fun hu hv huv ↦ ?_
        simpa [hne _ hu, hne _ hv] using huv
    · intro u hu
      simp only [hwaitq, hsleeps, List.mem_cons] at hu ⊢
      split
      · exact Nat.lt_succ_self _
      · next hne =>
        rcases hu with rfl | hu
        · exact absurd rfl hne
        · exact Nat.lt_succ_of_lt (h.past u hu)

/-- `kmutex_unlock`. -/
theorem Inv.unlock (h : Inv g) (ht : g.km.sched.curthr = some t) (hc : g.km.pc t = .code)
    (hbase : Kmutex.Inv s') (he : g.km.kmutexUnlock t = .ok s') :
    Inv
      { km := s'
        inside := fun u ↦ if unlocks g.km .unlock = some u then false else g.inside u
        since := g.since
        now := g.now + 1 } := by
  simp only [Kmutex.kmutexUnlock, bind_eq_ok, demand_eq_ok] at he
  obtain ⟨_, hh, ⟨next, sc⟩, hw, _, hne, he⟩ := he
  cases he
  have hinside : ∀ u, (if unlocks g.km .unlock = some u then false else g.inside u) = true →
      False := by
    intro u hu
    split at hu
    · cases hu
    · next hne =>
      have := (h.holder u hu).symm.trans hh
      exact hne (by rw [unlocks, ht, this])
  -- the holder is in its own code, so whoever is in `kmutex_lock` waits
  have hplaced : ∀ u, g.km.pc u = .inLock → u ∈ g.km.sched.waiters waitq := by
    intro u hu
    refine (h.placed u hu).resolve_right ?_
    rintro ⟨hu', -⟩
    obtain rfl : t = u := Option.some.inj (hh.symm.trans hu')
    rw [hc] at hu
    cases hu
  rcases Sched.schedWakeupOn_eq_ok.mp hw with ⟨hq, rfl, rfl⟩ | ⟨l, n, hq, rfl, _, rfl⟩
  · exact ⟨hbase, h.plain, fun u hu ↦ (hinside u hu).elim, fun _ ↦ hq,
      fun u hu ↦ .inl (hplaced u hu), h.order, fun u hu ↦ Nat.lt_succ_of_lt (h.past u hu)⟩
  · have hn : n ∈ g.km.sched.waiters waitq := by simp [hq]
    have hwaitq : (((g.km.sched.unlink waitq n).modify n fun k ↦ { k with ktState := .run }).link
        .runq n).waiters waitq = (g.km.sched.waiters waitq).erase n := by simp
    refine ⟨hbase, h.plain, fun u hu ↦ (hinside u hu).elim, by simp, ?_, ?_, ?_⟩
    · intro u hu
      rcases eq_or_ne u n with rfl | hun
      · exact .inr ⟨rfl, .inl (by simp)⟩
      · refine .inl ?_
        simp only [hwaitq]
        exact (List.mem_erase_of_ne hun).mpr (hplaced u hu)
    · simp only [hwaitq]
      exact h.order.sublist List.erase_sublist
    · intro u hu
      simp only [hwaitq] at hu
      exact Nat.lt_succ_of_lt (h.past u (List.mem_of_mem_erase hu))

theorem Inv.cancel (h : Inv g) {sc : Sched Unit} (he : g.km.sched.schedCancel t = .ok sc) :
    sc = g.km.sched.modify t fun k ↦ { k with ktCancelled := true } := by
  rcases Sched.schedCancel_eq_ok.mp he with ⟨_, rfl⟩ | ⟨q, hst, _, hm, rfl⟩
  · rfl
  · exfalso
    cases q with
    | runq =>
      rw [(h.base.runnable t hm).1] at hst
      cases hst
    | on _ =>
      rcases (h.base.waiting t hm).2 with ⟨_, hs⟩ | ⟨hp, _⟩
      · rw [hst] at hs
        cases hs
      · exact h.plain t hp

theorem Inv.modifyRetval (h : Inv g) (retval : Int) :
    Inv { g with km := { g.km with
      sched := g.km.sched.modify t fun k ↦ { k with ktRetval := retval } } } :=
  ⟨h.base.modifyRetval retval, h.plain, h.holder, h.free, h.placed, h.order, h.past⟩

/-- `kthread_exit` of the running thread. -/
theorem Inv.exit (h : Inv g) (ht : g.km.sched.curthr = some t) {retval : Int}
    (hl : locks g.km s' e = none) (hsl : sleeps g.km s' e = none) (hbase : Kmutex.Inv s')
    (hs : g.km.kthreadExit t retval = .ok s') :
    Inv
      { km := s'
        inside := fun t ↦ if locks g.km s' e = some t then true
          else if unlocks g.km e = some t then false else g.inside t
        since := fun t ↦ if sleeps g.km s' e = some t then g.now else g.since t
        now := g.now + 1 } := by
  have hlock : ∀ u, locks g.km s' e = some u → g.km.kmHolder = some u := by
    intro u hu
    rw [hl] at hu
    cases hu
  simp only [Kmutex.kthreadExit, bind_eq_ok, demand_eq_ok] at hs
  obtain ⟨_, _, hs⟩ := hs
  cases hs
  refine h.keep hbase ?_ rfl (waitq_switch _ _) ?_ hlock hsl
  · intro u
    rcases eq_or_ne u t with rfl | hut
    · simp
    · simp [hut]
  · intro u hu hr
    have hut : u ≠ t := by
      rintro rfl
      simp at hu
    have hlinked := h.base.linked.modify (t := t)
      (f := fun k ↦ { k with ktRetval := retval, ktState := .exited }) rfl
    rcases hr with hr | hr
    · exact runq_switch ⟨hlinked.wchan, hlinked.nodup, hlinked.size⟩ hr
    · exact absurd (Option.some.inj (hr.symm.trans ht)) hut

/-- The running thread goes on; if it was in `kmutex_lock`, that call returns. -/
theorem Inv.resume (h : Inv g) (ht : g.km.sched.curthr = some t) (hbase : Kmutex.Inv s')
    (hs : g.km.resume t = .ok s') :
    Inv
      { km := s'
        inside := fun t ↦ if locks g.km s' .resume = some t then true
          else if unlocks g.km .resume = some t then false else g.inside t
        since := fun t ↦ if sleeps g.km s' .resume = some t then g.now else g.since t
        now := g.now + 1 } := by
  have hlock : ∀ u, locks g.km s' .resume = some u → g.km.kmHolder = some u := by
    intro u hu
    simp only [locks, ht, Option.filter_eq_some_iff, Option.some.injEq, decide_eq_true_eq] at hu
    obtain ⟨rfl, hpc⟩ := hu
    -- the thread runs, so it is not waiting any more
    exact ((h.placed t hpc).resolve_left (h.base.cur_notMem ht waitq)).1
  have hcode : ∀ u, Function.update g.km.pc t .code u = g.km.pc u ∨
      Function.update g.km.pc t .code u = .code := by
    intro u
    rcases eq_or_ne u t with rfl | hut
    · simp
    · simp [hut]
  unfold Kmutex.resume at hs
  split at hs
  · cases hs
    exact h.keep hbase (fun u ↦ (hcode u).imp_right .inl) rfl rfl (fun _ _ ↦ id) hlock rfl
  · cases hs
    exact h.keep hbase (fun u ↦ (hcode u).imp_right .inl) rfl rfl (fun _ _ ↦ id) hlock rfl
  · next hpc => exact absurd hpc (h.plain t)
  · cases hs

/-- **One step.** -/
theorem Inv.step (h : Inv g) (he : g.step e = .ok g') : Inv g' := by
  obtain ⟨hne, he⟩ := bind_demand he
  obtain ⟨s', hs, he⟩ := bind_ok he
  cases he
  have hlate : ¬ Kmutex.LateCancel g.km e := by
    cases e <;> simp [Kmutex.LateCancel, h.plain]
  have hbase := (h.base.step hlate hs).1
  cases e with
  | lock =>
    obtain ⟨t, ht, hc, hs⟩ := Kmutex.bind_caller hs
    simpa [unlocks] using h.lock ht hc hbase hs
  | lockCancellable => exact absurd rfl hne
  | unlock =>
    obtain ⟨t, ht, hc, hs⟩ := Kmutex.bind_caller hs
    simpa [locks, sleeps] using h.unlock ht hc hbase hs
  | yield =>
    obtain ⟨t, ht, hc, hs⟩ := Kmutex.bind_caller hs
    obtain ⟨sc, hsc, hs⟩ := bind_ok hs
    obtain ⟨hw, rfl⟩ := Sched.schedMakeRunnable_eq_ok.mp hsc
    cases hs
    have hl := (h.base.enqueue hw (.inl ⟨rfl, rfl, rfl⟩)).linked
    refine h.keep hbase ?_ rfl (by rw [waitq_switch]; simp) ?_ (by simp [locks]) rfl
    · intro u
      rcases eq_or_ne u t with rfl | hut
      · simp
      · simp [hut]
    · intro u hu hr
      have hut : u ≠ t := by
        rintro rfl
        simp at hu
      rcases hr with hr | hr
      · exact runq_switch hl (by simp [hr])
      · exact absurd (Option.some.inj (hr.symm.trans ht)) hut
  | exit retval =>
    obtain ⟨t, ht, hc, hs⟩ := Kmutex.bind_caller hs
    exact h.exit ht rfl rfl hbase hs
  | resume =>
    obtain ⟨t, ht, hs⟩ := bind_follow hs
    exact h.resume ht hbase hs
  | dispatch =>
    obtain ⟨hcur, hs⟩ := bind_demand hs
    cases hs
    refine h.keep hbase (fun _ ↦ .inl rfl) rfl (waitq_switch _ _) ?_ (by simp [locks]) rfl
    intro u _ hr
    rcases hr with hr | hr
    · exact runq_switch h.base.linked hr
    · rw [hcur] at hr
      cases hr
  | spawn t =>
    obtain ⟨hp, hs⟩ := bind_demand hs
    obtain ⟨sc, hsc, hs⟩ := bind_ok hs
    obtain ⟨hw, rfl⟩ := Sched.schedMakeRunnable_eq_ok.mp hsc
    cases hs
    refine h.keep hbase ?_ rfl (by simp) ?_ (by simp [locks]) rfl
    · intro u
      rcases eq_or_ne u t with rfl | hut
      · simp
      · simp [hut]
    · intro u _ hr
      exact hr.imp (fun hr ↦ by simp [hr]) id
  | cancel t =>
    obtain ⟨sc, hsc, hs⟩ := bind_ok hs
    cases hs
    cases h.cancel hsc
    exact h.keep hbase (fun _ ↦ .inl rfl) rfl rfl (fun _ _ ↦ id) (by simp [locks]) rfl
  | kthreadCancel t retval =>
    simp only [Kmutex.step] at hs
    split at hs
    · obtain ⟨u, hu, -, hs⟩ := Kmutex.bind_caller hs
      exact h.exit hu rfl rfl hbase hs
    · obtain ⟨sc, hsc, hs⟩ := bind_ok hs
      cases hs
      rw [Sched.kthreadCancel_eq] at hsc
      cases (h.modifyRetval retval).cancel hsc
      exact h.keep hbase (fun _ ↦ .inl rfl) rfl rfl (fun _ _ ↦ id) (by simp [locks]) rfl

/-- **Mutual exclusion with hand-off.**  In every run of any number of threads that use
`kmutex_lock` and `kmutex_unlock`, with any yields, exits and cancellations, at most one
thread is in its critical section and it is the holder; threads wait for a holder only;
nobody gets lost in `kmutex_lock`; and `kmutex_unlock` does not block and hands the mutex
to the thread that has waited longest. -/
theorem safe_of_run (cancelled : Tid → Bool) {h : List MutexEv}
    (hr : Run (ofStep step) (init cancelled) h g) : Safe g := by
  have hI : Inv g := hr.invariant (fun _ _ _ hi he ↦ hi.step he) (Inv.init cancelled)
  exact hI.safe

/-- Threads `1` and `2` wait for the mutex of thread `0`, who yields in its critical section
and then hands it to thread `1`. -/
def queueUp : List MutexEv :=
  [.spawn 1, .spawn 2, .lock, .yield, .resume, .lock, .resume, .lock, .resume, .unlock, .yield,
    .resume]

/-- The theorem at that run: thread `1` is in its critical section, thread `2` waits. -/
theorem safe_queueUp :
    ∃ g h, Run (ofStep step) (init fun _ ↦ false) h g ∧ g.inside 1 = true ∧
      2 ∈ g.km.sched.waiters waitq ∧ Safe g := by
  have hx : ∃ g, exec step (init fun _ ↦ false) queueUp = .ok g ∧ g.inside 1 = true ∧
      2 ∈ g.km.sched.waiters waitq := ⟨_, rfl, rfl, by decide⟩
  obtain ⟨g, hg, h₁, h₂⟩ := hx
  exact ⟨g, _, Run.of_exec hg, h₁, h₂, safe_of_run _ (Run.of_exec hg)⟩

end Handoff

end CS402.Proc

import CS402.Proc.Life

/-!
# The invariant of the process system

`Tree` is about the process table: a child's `p_pproc` names the process on whose
`p_children` it is, no process has more than one thread, and init is a child of the
idle process.  `Threads` is about threads: one that is on a queue exists, is
suspended, and its state says on which kind of queue it is.  `Inv` adds the running
thread.  `Inv.step` shows that every step of the system keeps the invariant, with no
condition on the step.
-/

namespace CS402.Proc

open CS402.Lib

/-- The points of its code at which a thread is suspended and may be on a queue. -/
def Pc.Waits : Pc → Prop
  | .unborn | .fresh | .code | .gone => False
  | _ => True

namespace Kernel

/-- The process table. -/
structure Tree (k : Kernel) : Prop where
  child : ∀ p, ∀ c ∈ (k.proc p).pChildren, (k.proc c).pPproc = some p ∧ c ∈ k.procList
  nodup : ∀ p, (k.proc p).pChildren.Nodup
  irrefl : ∀ p, p ∉ (k.proc p).pChildren
  list : k.procList.Nodup
  bound : ∀ p ∈ k.procList, p < k.nproc
  init : ∀ i, k.procInitproc = some i → i < k.nproc ∧ (k.proc i).pPid = PID_INIT ∧
    ∃ p < k.nproc, (k.proc i).pPproc = some p ∧ (k.proc p).pPid = PID_IDLE
  thread : ∀ p, ∀ t ∈ (k.proc p).pThreads, p ∈ k.procList ∧ t < k.nthread
  single : ∀ p, ∀ t ∈ (k.proc p).pThreads, ∀ u ∈ (k.proc p).pThreads, t = u

/-- What is known about a thread on a queue. -/
def Rests (k : Kernel) (t : Tid) : Wq Pq → Prop
  | .runq => (k.sched.kthread t).ktState = .run
  | .on (.pWait p) => (k.sched.kthread t).ktState = .sleep ∧ k.procOf t = p ∧
      (k.pc t = .waitAny ∨ ∃ c, k.pc t = .waitPid c)
  | .on (.other _) =>
    (k.sched.kthread t).ktState = .sleep ∨ (k.sched.kthread t).ktState = .sleepCancellable

/-- Threads and the queues they are on. -/
structure Threads (k : Kernel) : Prop where
  linked : k.sched.Linked
  owner : ∀ p, ∀ t ∈ (k.proc p).pThreads, k.procOf t = p
  queued : ∀ t q, (k.sched.kthread t).ktWchan = some q →
    t ∈ (k.proc (k.procOf t)).pThreads ∧ (k.pc t).Waits ∧ k.Rests t q
  /-- A thread waits for a child of its process. -/
  waits : ∀ t, t ∈ (k.proc (k.procOf t)).pThreads → ∀ c, k.pc t = .waitPid c →
    c ∈ (k.proc (k.procOf t)).pChildren
  fresh : ∀ t, k.pc t = .fresh → (k.sched.kthread t).ktState = .noState ∧
    (k.sched.kthread t).ktWchan = none ∧ t ∈ (k.proc (k.procOf t)).pThreads
  dead : ∀ p ∈ k.procList, k.pState p = .dead → (k.proc p).pThreads ≠ []

/-- The invariant between steps. -/
structure Inv (k : Kernel) : Prop extends Tree k, Threads k where
  /-- The running thread exists and is on no queue. -/
  cur : ∀ t, k.sched.curthr = some t → (k.sched.kthread t).ktWchan = none ∧
    t ∈ (k.proc (k.procOf t)).pThreads ∧ ((k.pc t).Waits ∨ k.pc t = .code)
  /-- Only the running thread is in its own code. -/
  code : ∀ t, k.pc t = .code → k.sched.curthr = some t

variable {k k' : Kernel} {t u : Tid} {p c q i : Pid} {procMaxCount : Nat} {e : ProcEv}

theorem Inv.boot : Inv boot where
  child p c hc := by simp [Kernel.boot] at hc
  nodup p := by simp [Kernel.boot]
  irrefl p := by simp [Kernel.boot]
  list := by simp [Kernel.boot]
  bound p hp := by simp_all [Kernel.boot]
  init i hi := by simp [Kernel.boot] at hi
  thread p t ht := by
    simp only [Kernel.boot] at ht ⊢
    split at ht <;> simp_all
  single p t ht u hu := by
    simp only [Kernel.boot] at ht hu
    split at ht <;> simp_all
  linked := ⟨fun t q ↦ by simp [Kernel.boot, Sched.waiters],
    fun q ↦ by simp [Kernel.boot, Sched.waiters], fun q ↦ by simp [Kernel.boot, Sched.waiters]⟩
  owner p t ht := by
    simp only [Kernel.boot] at ht ⊢
    split at ht <;> simp_all
  queued t q hq := by simp [Kernel.boot] at hq
  waits t _ c hc := by
    simp only [Kernel.boot] at hc
    split at hc <;> cases hc
  fresh t ht := by
    simp only [Kernel.boot] at ht
    split at ht <;> cases ht
  dead p _ hd := by simp [Kernel.boot] at hd
  cur t ht := by
    obtain rfl : 0 = t := Option.some.inj ht
    simp [Kernel.boot]
  code t ht := by
    simp only [Kernel.boot] at ht ⊢
    split at ht
    · next h => rw [h]
    · cases ht

/-! ## Changing one thread -/

theorem Tree.congr (h : Tree k) (h₁ : k'.proc = k.proc) (h₂ : k'.procList = k.procList)
    (h₃ : k'.procInitproc = k.procInitproc) (h₄ : k'.nproc = k.nproc)
    (h₅ : k'.nthread = k.nthread) : Tree k' := by
  constructor
  · rw [h₁, h₂]; exact h.child
  · rw [h₁]; exact h.nodup
  · rw [h₁]; exact h.irrefl
  · rw [h₂]; exact h.list
  · rw [h₂, h₄]; exact h.bound
  · rw [h₁, h₃, h₄]; exact h.init
  · rw [h₁, h₂, h₅]; exact h.thread
  · rw [h₁]; exact h.single

/-- **Changing one thread.**  It is enough to look at that thread. -/
theorem Threads.update (h : Threads k) (t : Tid) (hproc : k'.proc = k.proc)
    (hlist : k'.procList = k.procList) (hlinked : k'.sched.Linked)
    (hother : ∀ u, u ≠ t → k'.sched.kthread u = k.sched.kthread u ∧ k'.pc u = k.pc u)
    (howner : k'.procOf t = k.procOf t)
    (hqueued : ∀ q, (k'.sched.kthread t).ktWchan = some q →
      t ∈ (k.proc (k.procOf t)).pThreads ∧ (k'.pc t).Waits ∧ k'.Rests t q)
    (hwaits : ∀ c, k'.pc t = .waitPid c → k.pc t = .waitPid c ∨
      c ∈ (k.proc (k.procOf t)).pChildren)
    (hfresh : k'.pc t = .fresh → (k'.sched.kthread t).ktState = .noState ∧
      (k'.sched.kthread t).ktWchan = none ∧ t ∈ (k.proc (k.procOf t)).pThreads)
    (hdead : ∀ p ∈ k.procList, k'.pState p = .dead → (k.proc p).pThreads ≠ []) :
    Threads k' where
  linked := hlinked
  owner p u hu := by
    rw [hproc] at hu
    by_cases hne : u = t
    · rw [hne] at hu ⊢
      rw [howner]
      exact h.owner p t hu
    · rw [procOf, (hother u hne).1]
      exact h.owner p u hu
  queued u q hq := by
    rw [hproc]
    by_cases hne : u = t
    · rw [hne] at hq ⊢
      rw [howner]
      exact hqueued q hq
    · obtain ⟨hk, hp⟩ := hother u hne
      rw [hk] at hq
      obtain ⟨hm, hw, hr⟩ := h.queued u q hq
      refine ⟨?_, ?_, ?_⟩
      · rw [procOf, hk]; exact hm
      · rw [hp]; exact hw
      · cases q with
        | runq => simpa only [Rests, hk] using hr
        | on q =>
          cases q with
          | pWait p => simpa only [Rests, procOf, hk, hp] using hr
          | other n => simpa only [Rests, hk] using hr
  waits u hu c hc := by
    rw [hproc] at hu ⊢
    by_cases hne : u = t
    · rw [hne] at hc hu ⊢
      rw [howner] at hu ⊢
      rcases hwaits c hc with hc | hc
      · exact h.waits t hu c hc
      · exact hc
    · obtain ⟨hk, hp⟩ := hother u hne
      rw [procOf, hk] at hu ⊢
      exact h.waits u hu c (hp ▸ hc)
  fresh u hu := by
    by_cases hne : u = t
    · rw [hne] at hu ⊢
      rw [hproc, howner]
      exact hfresh hu
    · obtain ⟨hk, hp⟩ := hother u hne
      rw [hp] at hu
      rw [hproc, procOf, hk]
      exact h.fresh u hu
  dead p hp hd := by
    rw [hlist] at hp
    rw [hproc]
    exact hdead p hp hd

theorem Threads.mem (h : Threads k) {q : Wq Pq} (ht : t ∈ k.sched.waiters q) :
    (k.sched.kthread t).ktWchan = some q ∧ t ∈ (k.proc (k.procOf t)).pThreads ∧
      (k.pc t).Waits ∧ k.Rests t q := by
  have hw := (h.linked.wchan t q).mpr ht
  exact ⟨hw, h.queued t q hw⟩

theorem Inv.cur_notMem (h : Inv k) (ht : k.sched.curthr = some t) (q : Wq Pq) :
    t ∉ k.sched.waiters q := h.linked.notMem (h.cur t ht).1 q

theorem Inv.pc_ne_code (h : Inv k) (ht : k.sched.curthr = some t) {c : Pc}
    (hc : c ≠ .code) (u : Tid) : (k.setPc t c).pc u ≠ .code := by
  simp only [setPc, Function.update_apply]
  split
  · exact hc
  · next hu =>
    intro hcode
    rw [h.code u hcode] at ht
    exact hu (Option.some.inj ht)

/-- `sched_switch`, called by a thread that has left its code. -/
theorem Inv.switch (htr : Tree k) (h : Threads k) (hc : ∀ u, k.pc u ≠ .code) :
    Inv (k.withSched k.sched.schedSwitch) := by
  have htr' : Tree (k.withSched k.sched.schedSwitch) := htr.congr rfl rfl rfl rfl rfl
  rcases k.sched.schedSwitch_cases with ⟨_, he⟩ | ⟨l, u, hq, he⟩
  · have hth : Threads (k.withSched k.sched.schedSwitch) := by
      rw [he]
      exact h.update 0 rfl rfl (h.linked.setCur none) (fun _ _ ↦ ⟨rfl, rfl⟩) rfl
        (h.queued 0) (fun _ ↦ .inl) (h.fresh 0) h.dead
    refine ⟨htr', hth, fun t ht ↦ ?_, fun t ht ↦ absurd ht (hc t)⟩
    simp [he] at ht
  · obtain ⟨hw, hm, hwaits, _⟩ := h.mem (t := u) (q := .runq) (by simp [hq])
    have hth : Threads (k.withSched k.sched.schedSwitch) := by
      refine h.update u rfl rfl h.linked.switch ?_ ?_ ?_ (fun _ ↦ .inl) ?_ ?_
      · intro v hv; simp [he, hv]
      · simp [he]
      · intro q hq'; simp [he] at hq'
      · intro hf
        have hf' : k.pc u = .fresh := hf
        simp [hf', Pc.Waits] at hwaits
      · intro p hp hd
        refine h.dead p hp ?_
        simpa [he] using hd
    refine ⟨htr', hth, fun t ht ↦ ?_, fun t ht ↦ absurd ht (hc t)⟩
    obtain rfl : u = t := by simpa [he] using ht
    simpa [he] using ⟨hm, Or.inl hwaits⟩

theorem Threads.enqueue (h : Threads k) (hw : (k.sched.kthread t).ktWchan = none)
    (hm : t ∈ (k.proc (k.procOf t)).pThreads) {st : KtState} {q : Wq Pq} {c : Pc}
    (hc : c.Waits) (hcw : ∀ d, c = .waitPid d → d ∈ (k.proc (k.procOf t)).pChildren)
    (hr : Rests ((k.withSched ((k.sched.modify t fun u ↦ { u with ktState := st }).link q t)).setPc
      t c) t q) :
    Threads ((k.withSched
      ((k.sched.modify t fun u ↦ { u with ktState := st }).link q t)).setPc t c) := by
  refine h.update t rfl rfl ((h.linked.modify (by simp)).link (by simpa using hw)) ?_ ?_ ?_
    (fun d hd ↦ .inr (hcw d (by simpa using hd))) ?_ h.dead
  · intro u hu; simp [hu]
  · simp
  · intro q' hq'
    obtain rfl : q = q' := by simpa using hq'
    exact ⟨hm, by simpa using hc, hr⟩
  · intro hf
    obtain rfl : c = .fresh := by simpa using hf
    exact hc.elim

theorem sleepAt_eq_ok {q : Wq Pq} {c : Pc} :
    k.sleepAt q t c = .ok k' ↔ (k.sched.kthread t).ktWchan = none ∧
      k' = (k.withSched ((k.sched.modify t fun u ↦ { u with ktState := .sleep }).link
        q t).schedSwitch).setPc t c := by
  simp only [sleepAt, Sched.schedSleepOn, Sched.ktqueueEnqueue, bind_eq_ok, demand_eq_ok,
    Sched.kthread_modify, if_true, Except.ok.injEq]
  constructor
  · rintro ⟨_, ⟨_, ⟨_, hw, rfl⟩, rfl⟩, rfl⟩
    exact ⟨hw, rfl⟩
  · rintro ⟨hw, rfl⟩
    exact ⟨_, ⟨_, ⟨(), hw, rfl⟩, rfl⟩, rfl⟩

/-- Where a thread may go to sleep: on its own `p_wait` inside `do_waitpid`, or on
some other queue. -/
def MaySleep (k : Kernel) (t : Tid) (q : Wq Pq) (c : Pc) : Prop :=
  (∃ n, q = .on (.other n)) ∧ (∀ d, c ≠ .waitPid d) ∨
    q = .on (.pWait (k.procOf t)) ∧
      (c = .waitAny ∨ ∃ d ∈ (k.proc (k.procOf t)).pChildren, c = .waitPid d)

theorem Inv.asleep (h : Inv k) (ht : k.sched.curthr = some t) {q : Wq Pq} {c : Pc}
    (hc : c.Waits) (hq : k.MaySleep t q c) :
    Threads ((k.withSched
      ((k.sched.modify t fun u ↦ { u with ktState := .sleep }).link q t)).setPc t c) := by
  obtain ⟨hw, hm, _⟩ := h.cur t ht
  refine h.toThreads.enqueue hw hm hc ?_ ?_
  · rintro d rfl
    rcases hq with ⟨_, hq⟩ | ⟨_, hq | ⟨d', hd, hq⟩⟩
    · exact absurd rfl (hq d)
    · cases hq
    · cases hq; exact hd
  · rcases hq with ⟨⟨n, rfl⟩, _⟩ | ⟨rfl, hq⟩
    · simp [Rests]
    · rcases hq with rfl | ⟨d, _, rfl⟩ <;> simp [Rests]

theorem Inv.sleepAt (h : Inv k) (ht : k.sched.curthr = some t) {q : Wq Pq} {c : Pc}
    (hc : c.Waits) (hq : k.MaySleep t q c) (he : k.sleepAt q t c = .ok k') : Inv k' := by
  obtain ⟨_, rfl⟩ := sleepAt_eq_ok.mp he
  exact Inv.switch (k := (k.withSched ((k.sched.modify t _).link q t)).setPc t c)
    (h.toTree.congr rfl rfl rfl rfl rfl) (h.asleep ht hc hq)
    (h.pc_ne_code ht (by rintro rfl; exact hc))

/-- The state after `sched_make_runnable`, for a thread that stands outside its code. -/
def readied (k : Kernel) (t : Tid) : Kernel :=
  (k.withSched ((k.sched.modify t fun u ↦ { u with ktState := .run }).link .runq t)).setPc t .suspended

theorem Threads.runnable (h : Threads k) (hw : (k.sched.kthread t).ktWchan = none)
    (hm : t ∈ (k.proc (k.procOf t)).pThreads) : Threads (k.readied t) :=
  h.enqueue hw hm trivial (by simp) (by simp [Rests])

theorem Inv.moveToRunq (h : Inv k) {q : Wq Pq} (ht : t ∈ k.sched.waiters q) :
    Inv (k.withSched
      (((k.sched.unlink q t).modify t fun u ↦ { u with ktState := .run }).link .runq t)) := by
  obtain ⟨hw, hm, hwaits, _⟩ := h.mem ht
  refine ⟨h.toTree.congr rfl rfl rfl rfl rfl, ?_, ?_, h.code⟩
  · refine h.toThreads.update t rfl rfl (h.linked.moveToRunq ht) ?_ ?_ ?_ (fun _ ↦ .inl) ?_ h.dead
    · intro u hu; simp [hu]
    · simp
    · intro q' hq'
      obtain rfl : Wq.runq = q' := by simpa using hq'
      exact ⟨hm, hwaits, by simp [Rests]⟩
    · intro hf
      have hf' : k.pc t = .fresh := hf
      simp [hf', Pc.Waits] at hwaits
  · intro u hu
    have hut : u ≠ t := by
      rintro rfl
      exact h.cur_notMem hu q ht
    simpa [hut] using h.cur u hu

/-- Changes to fields of a thread that scheduling does not look at; the cancelled flag is
never taken back. -/
structure Notes (f : Kthread Pq → Kthread Pq) : Prop where
  ktState : ∀ a, (f a).ktState = a.ktState := by exact fun _ ↦ rfl
  ktWchan : ∀ a, (f a).ktWchan = a.ktWchan := by exact fun _ ↦ rfl
  ktProc : ∀ a, (f a).ktProc = a.ktProc := by exact fun _ ↦ rfl
  ktCancelled : ∀ a, a.ktCancelled → (f a).ktCancelled := by exact fun _ h ↦ h

theorem Inv.modifyThread (h : Inv k) {f : Kthread Pq → Kthread Pq} (hf : Notes f) :
    Inv (k.withSched (k.sched.modify t f)) := by
  refine ⟨h.toTree.congr rfl rfl rfl rfl rfl, ?_, ?_, h.code⟩
  · refine h.toThreads.update t rfl rfl (h.linked.modify (hf.ktWchan _)) ?_ ?_ ?_ (fun _ ↦ .inl) ?_
      h.dead
    · intro u hu; simp [hu]
    · simp [hf.ktProc]
    · intro q hq
      obtain ⟨hm, hwaits, hr⟩ := h.queued t q (by simpa [hf.ktWchan] using hq)
      refine ⟨hm, hwaits, ?_⟩
      cases q with
      | runq => simpa [Rests, hf.ktState] using hr
      | on q => cases q <;> simpa [Rests, hf.ktState, hf.ktProc] using hr
    · intro hfresh
      simpa [hf.ktState, hf.ktWchan] using h.fresh t hfresh
  · intro u hu
    have := h.cur u hu
    by_cases hut : u = t
    · rw [hut] at this ⊢
      simpa [hf.ktWchan, hf.ktProc] using this
    · simpa [hut] using this

/-! ## Waking and cancelling -/

/-- What waking other threads keeps. -/
structure Wakes (P : Kernel → Prop) : Prop where
  move : ∀ {k : Kernel} {t : Tid} {q : Wq Pq}, P k → t ∈ k.sched.waiters q → P (k.withSched
    (((k.sched.unlink q t).modify t fun u ↦ { u with ktState := .run }).link .runq t))

/-- What cancelling other threads keeps. -/
structure Cancels (P : Kernel → Prop) : Prop extends Wakes P where
  notes : ∀ {k : Kernel} {t : Tid} {f : Kthread Pq → Kthread Pq}, P k → Notes f →
    P (k.withSched (k.sched.modify t f))

section

variable {P : Kernel → Prop} {q : Wq Pq} {sc : Sched Pq}

theorem Wakes.wakeup (hP : Wakes P) (h : P k) {r : Option Tid}
    (he : k.sched.schedWakeupOn q = .ok (r, sc)) : P (k.withSched sc) := by
  rcases Sched.schedWakeupOn_eq_ok.mp he with ⟨_, _, rfl⟩ | ⟨l, t, hq, _, _, rfl⟩
  · exact h
  · exact hP.move h (by simp [hq])

theorem Wakes.broadcast (hP : Wakes P) (h : P k) (he : k.sched.schedBroadcastOn q = .ok sc) :
    P (k.withSched sc) := by
  refine foldl_invariant (I := fun sc ↦ P (k.withSched sc)) ?_ h he
  intro _ _ sc sc' hsc he
  obtain ⟨⟨r, sc₁⟩, h₁, h₂⟩ := bind_ok he
  cases h₂
  exact hP.wakeup (k := k.withSched sc) hsc h₁

theorem Cancels.cancel (hP : Cancels P) (h : P k) (he : k.sched.schedCancel t = .ok sc) :
    P (k.withSched sc) := by
  have hm := hP.notes (t := t) (f := fun u ↦ { u with ktCancelled := true }) h
    { ktCancelled := fun _ _ ↦ rfl }
  rcases Sched.schedCancel_eq_ok.mp he with ⟨_, rfl⟩ | ⟨q, _, _, ht, rfl⟩
  · exact hm
  · exact hP.move hm (by simpa using ht)

theorem Cancels.cancelAll (hP : Cancels P) (h : P k) {l : List Tid} {status : Int}
    (he : k.cancelAll l status = .ok k') : P k' := by
  obtain ⟨sc, hsc, he⟩ := bind_ok he
  cases he
  refine foldl_invariant (I := fun sc ↦ P (k.withSched sc)) ?_ h hsc
  intro u _ sc sc' h₁ h₂
  rw [Sched.kthreadCancel_eq] at h₂
  have h₃ := hP.notes (t := u) (f := fun a ↦ { a with ktRetval := status }) h₁ {}
  exact hP.cancel (k := k.withSched (sc.modify u _)) h₃ h₂

end

theorem Inv.cancels : Cancels Inv := ⟨⟨fun h ↦ h.moveToRunq⟩, fun h ↦ h.modifyThread⟩

theorem Inv.mark (h : Inv k) (ht : k.sched.curthr = some t) {f : Kthread Pq → Kthread Pq}
    (hw : ∀ a, (f a).ktWchan = a.ktWchan) (hp : ∀ a, (f a).ktProc = a.ktProc) :
    Inv ((k.withSched (k.sched.modify t f)).setPState (k.procOf t) .dead) := by
  obtain ⟨hcw, hm, hpc⟩ := h.cur t ht
  refine ⟨h.toTree.congr rfl rfl rfl rfl rfl, ?_, ?_, h.code⟩
  · have hl := h.linked.modify (t := t) (hw _)
    refine h.toThreads.update t rfl rfl ⟨hl.wchan, hl.nodup, hl.size⟩ ?_ ?_ ?_ (fun _ ↦ .inl) ?_ ?_
    · intro u hu; simp [hu]
    · simp [hp]
    · intro q hq
      simp [hw, hcw] at hq
    · intro hf
      have hf' : k.pc t = .fresh := hf
      simp [hf', Pc.Waits] at hpc
    · intro p hpl hd
      by_cases hpt : p = (k.sched.kthread t).ktProc
      · rw [hpt]
        exact List.ne_nil_of_mem hm
      · refine h.dead p hpl ?_
        simpa [Function.update_apply, hpt] using hd
  · intro u hu
    obtain rfl : t = u := Option.some.inj (ht.symm.trans hu)
    simpa [hw, hp] using ⟨hcw, hm, hpc⟩

theorem Inv.interrupted (h : Inv k) (ht : k.sched.curthr = some t) :
    Inv (k.withSched (k.sched.interrupted t)) :=
  h.mark ht (fun _ ↦ rfl) (fun _ ↦ rfl)

theorem Inv.setCode (h : Inv k) (ht : k.sched.curthr = some t) : Inv (k.setPc t .code) := by
  obtain ⟨hcw, hm, _⟩ := h.cur t ht
  refine ⟨h.toTree.congr rfl rfl rfl rfl rfl, ?_, ?_, ?_⟩
  · refine h.toThreads.update t rfl rfl h.linked ?_ rfl ?_ ?_ ?_ h.dead
    · intro u hu; simp [hu]
    · intro q hq
      exact absurd (hcw.symm.trans hq) (by simp)
    · intro c hc; simp at hc
    · intro hf; simp at hf
  · intro u hu
    obtain rfl : t = u := Option.some.inj (ht.symm.trans hu)
    simpa using ⟨hcw, hm⟩
  · intro u hu
    by_cases hut : u = t
    · rw [hut]; exact ht
    · exact h.code u (by simpa [hut] using hu)

/-! ## Changing the process table -/

theorem Threads.family (h : Threads k) {f : Pid → Pcb}
    (hf : ∀ p, (f p).pThreads = (k.proc p).pThreads)
    (hc : ∀ t, t ∈ (k.proc (k.procOf t)).pThreads → ∀ c, k.pc t = .waitPid c →
      c ∈ (k.proc (k.procOf t)).pChildren → c ∈ (f (k.procOf t)).pChildren) :
    Threads { k with proc := f } where
  linked := h.linked
  owner p t ht := h.owner p t (hf p ▸ ht)
  queued t q hq := by
    obtain ⟨hm, hw, hr⟩ := h.queued t q hq
    exact ⟨by rw [hf]; exact hm, hw, hr⟩
  waits t ht c hpc := by
    have hm : t ∈ (k.proc (k.procOf t)).pThreads := hf _ ▸ ht
    exact hc t hm c hpc (h.waits t hm c hpc)
  fresh t ht := by
    obtain ⟨h₁, h₂, h₃⟩ := h.fresh t ht
    exact ⟨h₁, h₂, by rw [hf]; exact h₃⟩
  dead p hp hd := by rw [hf]; exact h.dead p hp hd

theorem Inv.status (h : Inv k) (p : Pid) (st : Int) :
    Inv (k.modifyProc p fun b ↦ { b with pStatus := st }) := by
  have hf : ∀ q, (k.modifyProc p fun b ↦ { b with pStatus := st }).proc q =
      { k.proc q with pStatus := if q = p then st else (k.proc q).pStatus } := by
    intro q
    by_cases hq : q = p
    · subst hq; simp
    · simp [hq]
  refine ⟨⟨?_, ?_, ?_, h.list, h.bound, ?_, ?_, ?_⟩, h.toThreads.family ?_ ?_, ?_, h.code⟩
  · intro q c; rw [hf, hf]; exact h.child q c
  · intro q; rw [hf]; exact h.nodup q
  · intro q; rw [hf]; exact h.irrefl q
  · intro i hi
    obtain ⟨hb, h₀, q, hq, h₁, h₂⟩ := h.init i hi
    refine ⟨hb, ?_, q, hq, ?_, ?_⟩ <;> rw [hf]
    · exact h₀
    · exact h₁
    · exact h₂
  · intro q; rw [hf]; exact h.thread q
  · intro q; rw [hf]; exact h.single q
  · intro q; exact (congrArg Pcb.pThreads (hf q)).trans rfl
  · intro u _ c _ hc
    exact (congrArg Pcb.pChildren (hf (k.procOf u))).trans rfl ▸ hc
  · intro u hu
    obtain ⟨h₁, h₂, h₃⟩ := h.cur u hu
    refine ⟨h₁, ?_, h₃⟩
    rw [hf]
    exact h₂

/-! ### A new process -/

section AddProc

variable {pid next : Int}

theorem addProc_new (hp : p ≠ k.nproc) :
    (k.addProc p pid next).proc k.nproc = ⟨pid, [], [], some p, 0⟩ := by
  simp [addProc, Ne.symm hp]

theorem addProc_cur (hp : p ≠ k.nproc) : (k.addProc p pid next).proc p =
    { k.proc p with pChildren := (k.proc p).pChildren ++ [k.nproc] } := by
  simp [addProc, hp]

theorem addProc_old (hp : p ≠ k.nproc) (hc : c ≠ k.nproc) :
    ((k.addProc p pid next).proc c).pThreads = (k.proc c).pThreads ∧
      ((k.addProc p pid next).proc c).pPproc = (k.proc c).pPproc ∧
      ((k.addProc p pid next).proc c).pPid = (k.proc c).pPid := by
  by_cases hcp : c = p
  · rw [hcp, addProc_cur hp]; exact ⟨rfl, rfl, rfl⟩
  · simp [addProc, hcp, hc]

theorem addProc_children (hp : p ≠ k.nproc) :
    ((k.addProc p pid next).proc q).pChildren = if q = k.nproc then [] else
      if q = p then (k.proc p).pChildren ++ [k.nproc] else (k.proc q).pChildren := by
  by_cases hqn : q = k.nproc
  · simp [hqn, addProc_new hp]
  · by_cases hqp : q = p
    · simp [hqp, hp, addProc_cur hp]
    · simp [addProc, hqp, hqn]

theorem Tree.lt (h : Tree k) : ∀ q ∈ k.procList, q ≠ k.nproc :=
  fun q hq ↦ Nat.ne_of_lt (h.bound q hq)

theorem Tree.addProc_threads (h : Tree k) (hp : p ≠ k.nproc) :
    t ∈ ((k.addProc p pid next).proc q).pThreads ↔ t ∈ (k.proc q).pThreads := by
  by_cases hq : q = k.nproc
  · rw [hq, addProc_new hp]
    exact ⟨fun ht ↦ absurd ht List.not_mem_nil,
      fun ht ↦ absurd rfl (h.lt _ (h.thread _ t ht).1)⟩
  · rw [(addProc_old hp hq).1]

theorem Tree.mem_addProc_children (h : Tree k) (hp : p ∈ k.procList) :
    c ∈ ((k.addProc p pid next).proc q).pChildren →
      (q = p ∧ c = k.nproc) ∨ c ∈ (k.proc q).pChildren := by
  rw [addProc_children (h.lt p hp)]
  split
  · intro hc; cases hc
  · split
    · next hqp =>
      intro hc
      rcases List.mem_append.mp hc with hc | hc
      · exact .inr (hqp ▸ hc)
      · exact .inl ⟨hqp, List.mem_singleton.mp hc⟩
    · exact .inr

theorem Tree.addProc (h : Tree k) (hp : p ∈ k.procList)
    (hpid : pid = PID_INIT → (k.proc p).pPid = PID_IDLE) : Tree (k.addProc p pid next) := by
  have hpn := h.lt p hp
  constructor
  · intro q c hc
    rcases h.mem_addProc_children hp hc with ⟨rfl, rfl⟩ | hc
    · exact ⟨by rw [addProc_new hpn], by simp [Kernel.addProc]⟩
    · obtain ⟨h₁, h₂⟩ := h.child q c hc
      exact ⟨(addProc_old hpn (h.lt c h₂)).2.1.trans h₁, List.mem_append_left _ h₂⟩
  · intro q
    rw [addProc_children hpn]
    split
    · exact List.nodup_nil
    · split
      · refine List.nodup_append.mpr ⟨h.nodup p, List.nodup_singleton _, ?_⟩
        intro a ha b hb
        rw [List.mem_singleton.mp hb]
        exact h.lt a (h.child p a ha).2
      · exact h.nodup q
  · intro q hc
    rcases h.mem_addProc_children hp hc with ⟨rfl, hq⟩ | hc
    · exact hpn hq
    · exact h.irrefl q hc
  · refine List.nodup_append.mpr ⟨h.list, List.nodup_singleton _, ?_⟩
    intro a ha b hb
    rw [List.mem_singleton.mp hb]
    exact h.lt a ha
  · intro q hq
    rcases List.mem_append.mp hq with hq | hq
    · exact Nat.lt_succ_of_lt (h.bound q hq)
    · exact List.mem_singleton.mp hq ▸ Nat.lt_succ_self _
  · intro i hi
    simp only [Kernel.addProc, modifyProc, setPState, withSched] at hi
    split at hi
    · next hpi =>
      obtain rfl : k.nproc = i := Option.some.inj hi
      refine ⟨Nat.lt_succ_self _, by rw [addProc_new hpn, hpi], p,
        Nat.lt_succ_of_lt (h.bound p hp), by rw [addProc_new hpn], ?_⟩
      rw [addProc_cur hpn]
      exact hpid hpi
    · obtain ⟨hb, h₀, q, hq, h₁, h₂⟩ := h.init i hi
      have hin := Nat.ne_of_lt hb
      exact ⟨Nat.lt_succ_of_lt hb, (addProc_old hpn hin).2.2.trans h₀, q, Nat.lt_succ_of_lt hq,
        (addProc_old hpn hin).2.1.trans h₁, (addProc_old hpn (Nat.ne_of_lt hq)).2.2.trans h₂⟩
  · intro q t ht
    obtain ⟨h₁, h₂⟩ := h.thread q t ((h.addProc_threads hpn).mp ht)
    exact ⟨List.mem_append_left _ h₁, h₂⟩
  · intro q t ht u hu
    exact h.single q t ((h.addProc_threads hpn).mp ht) u ((h.addProc_threads hpn).mp hu)

theorem Inv.addProc (h : Inv k) (hp : p ∈ k.procList)
    (hpid : pid = PID_INIT → (k.proc p).pPid = PID_IDLE) : Inv (k.addProc p pid next) := by
  have hpn := h.lt p hp
  refine ⟨h.toTree.addProc hp hpid, ⟨⟨h.linked.wchan, h.linked.nodup, h.linked.size⟩, ?_, ?_,
    ?_, ?_, ?_⟩, ?_, h.code⟩
  · intro q t ht
    exact h.owner q t ((h.addProc_threads hpn).mp ht)
  · intro t q hq
    obtain ⟨hm, hw, hr⟩ := h.queued t q hq
    exact ⟨(h.addProc_threads hpn).mpr hm, hw, hr⟩
  · intro t ht c hpc
    have hm := (h.addProc_threads hpn).mp ht
    have hc := h.waits t hm c hpc
    rw [addProc_children hpn, if_neg (h.lt _ (h.thread _ t hm).1)]
    split
    · next hqp => exact List.mem_append_left _ (hqp ▸ hc)
    · exact hc
  · intro t ht
    obtain ⟨h₁, h₂, h₃⟩ := h.fresh t ht
    exact ⟨h₁, h₂, (h.addProc_threads hpn).mpr h₃⟩
  · intro q hq hd
    rcases List.mem_append.mp hq with hq | hq
    · have hqn := h.lt q hq
      rw [(addProc_old hpn hqn).1]
      exact h.dead q hq (by simpa [Kernel.addProc, hqn] using hd)
    · rw [List.mem_singleton.mp hq] at hd
      simp [Kernel.addProc] at hd
  · intro t ht
    obtain ⟨h₁, h₂, h₃⟩ := h.cur t ht
    exact ⟨h₁, (h.addProc_threads hpn).mpr h₂, h₃⟩

end AddProc

/-! ### A new thread -/

section AddThread

@[simp] theorem addThread_curthr : (k.addThread p).sched.curthr = k.sched.curthr := rfl

@[simp] theorem addThread_pState : (k.addThread p).sched.pState = k.sched.pState := rfl

@[simp] theorem addThread_kthread : (k.addThread p).sched.kthread u =
    if u = k.nthread then ⟨.noState, false, none, 0, p⟩ else k.sched.kthread u := by
  simp [addThread]

@[simp] theorem addThread_pc : (k.addThread p).pc u = if u = k.nthread then .fresh else k.pc u := by
  simp [addThread, Function.update_apply]

@[simp] theorem addThread_children : ((k.addThread p).proc q).pChildren = (k.proc q).pChildren := by
  by_cases hq : q = p
  · subst hq; simp [addThread]
  · simp [addThread, hq]

@[simp] theorem addThread_pPproc : ((k.addThread p).proc q).pPproc = (k.proc q).pPproc := by
  by_cases hq : q = p
  · subst hq; simp [addThread]
  · simp [addThread, hq]

@[simp] theorem addThread_pPid : ((k.addThread p).proc q).pPid = (k.proc q).pPid := by
  by_cases hq : q = p
  · subst hq; simp [addThread]
  · simp [addThread, hq]

theorem mem_addThread : u ∈ ((k.addThread p).proc q).pThreads ↔
    (q = p ∧ u = k.nthread) ∨ u ∈ (k.proc q).pThreads := by
  by_cases hq : q = p
  · subst hq; simp [addThread]
  · simp [addThread, hq]

theorem Tree.ne_nthread (h : Tree k) (hu : u ∈ (k.proc q).pThreads) :
    u ≠ k.nthread := Nat.ne_of_lt (h.thread q u hu).2

theorem Tree.addThread (h : Tree k) (hp : p ∈ k.procList) (hnil : (k.proc p).pThreads = []) :
    Tree (k.addThread p) := by
  constructor
  · intro q c hc
    rw [addThread_children] at hc
    rw [addThread_pPproc]
    exact h.child q c hc
  · intro q; simpa using h.nodup q
  · intro q; simpa using h.irrefl q
  · exact h.list
  · exact h.bound
  · intro i hi
    simp only [addThread_pPproc, addThread_pPid]
    exact h.init i hi
  · intro q u hu
    rcases mem_addThread.mp hu with ⟨rfl, rfl⟩ | hu
    · exact ⟨hp, Nat.lt_succ_self _⟩
    · exact ⟨(h.thread q u hu).1, Nat.lt_succ_of_lt (h.thread q u hu).2⟩
  · intro q u hu v hv
    rcases mem_addThread.mp hu with ⟨rfl, rfl⟩ | hu' <;>
      rcases mem_addThread.mp hv with ⟨hqp, rfl⟩ | hv'
    · rfl
    · rw [hnil] at hv'; cases hv'
    · rw [hqp, hnil] at hu'; cases hu'
    · exact h.single q u hu' v hv'

theorem Inv.addThread (h : Inv k) (hp : p ∈ k.procList) (hnil : (k.proc p).pThreads = []) :
    Inv (k.addThread p) := by
  have hw : (k.sched.kthread k.nthread).ktWchan = none := by
    by_contra hw
    obtain ⟨q, hq⟩ := Option.ne_none_iff_exists'.mp hw
    exact h.ne_nthread (h.queued _ q hq).1 rfl
  refine ⟨h.toTree.addThread hp hnil, ⟨?_, ?_, ?_, ?_, ?_, ?_⟩, ?_, ?_⟩
  · exact h.linked.modify (f := fun _ ↦ ⟨.noState, false, none, 0, p⟩) hw.symm
  · intro q u hu
    rcases mem_addThread.mp hu with ⟨rfl, rfl⟩ | hu
    · simp
    · simpa [h.ne_nthread hu] using h.owner q u hu
  · intro u q hq
    have hun : u ≠ k.nthread := by
      rintro rfl
      simp at hq
    obtain ⟨h₁, h₂, h₃⟩ := h.queued u q (by simpa [hun] using hq)
    refine ⟨mem_addThread.mpr (.inr ?_), by simpa [hun] using h₂, ?_⟩
    · simpa [hun] using h₁
    · cases q with
      | runq => simpa [Rests, hun] using h₃
      | on q => cases q <;> simpa [Rests, hun] using h₃
  · intro u hu c hpc
    have hun : u ≠ k.nthread := by
      rintro rfl
      simp at hpc
    rcases mem_addThread.mp hu with ⟨_, h'⟩ | hu
    · exact absurd h' hun
    · simp only [procOf, addThread_kthread, if_neg hun] at hu
      simpa [hun] using h.waits u hu c (by simpa [hun] using hpc)
  · intro u hu
    by_cases hun : u = k.nthread
    · subst hun; simp [mem_addThread]
    · obtain ⟨h₁, h₂, h₃⟩ := h.fresh u (by simpa [hun] using hu)
      exact ⟨by simpa [hun] using h₁, by simpa [hun] using h₂,
        mem_addThread.mpr (.inr (by simpa [hun] using h₃))⟩
  · intro q hq hd
    obtain ⟨u, hu⟩ := List.exists_mem_of_ne_nil _ (h.dead q hq hd)
    exact List.ne_nil_of_mem (mem_addThread.mpr (.inr hu))
  · intro u hu
    obtain ⟨h₁, h₂, h₃⟩ := h.cur u hu
    have hun := h.ne_nthread h₂
    exact ⟨by simpa [hun] using h₁, mem_addThread.mpr (.inr (by simpa [hun] using h₂)),
      by simpa [hun] using h₃⟩
  · intro u hu
    by_cases hun : u = k.nthread
    · simp [hun] at hu
    · exact h.code u (by simpa [hun] using hu)

end AddThread

/-! ### Reparenting -/

theorem handOver_eq (hpi : p ≠ i) : handOver p i k c = { k with proc := fun q ↦
    { k.proc q with
      pChildren := if q = p then (k.proc p).pChildren.erase c else
        if q = i then (k.proc i).pChildren ++ [c] else (k.proc q).pChildren
      pPproc := if q = c then some i else (k.proc q).pPproc } } := by
  simp only [handOver, modifyProc, Kernel.mk.injEq, true_and, and_true]
  funext q
  by_cases hqc : q = c <;> by_cases hqi : q = i <;> by_cases hqp : q = p <;>
    simp_all [Function.update_apply]

/-- The whole loop: the children of `p` on the list go to `i`, in order. -/
theorem handOver_foldl (hpi : p ≠ i) (l : List Pid) (k : Kernel) :
    l.foldl (handOver p i) k = { k with proc := fun q ↦
      { k.proc q with
        pChildren := if q = p then l.foldl List.erase (k.proc p).pChildren else
          if q = i then (k.proc i).pChildren ++ l else (k.proc q).pChildren
        pPproc := if q ∈ l then some i else (k.proc q).pPproc } } := by
  induction l generalizing k with
  | nil =>
    have hproc : (fun q ↦ { k.proc q with
        pChildren := if q = p then (k.proc p).pChildren else
          if q = i then (k.proc i).pChildren else (k.proc q).pChildren }) = k.proc := by
      funext q
      by_cases hqp : q = p
      · simp [hqp]
      · by_cases hqi : q = i
        · simp [hqi, Ne.symm hpi]
        · simp [hqp, hqi]
    simp [hproc]
  | cons c l ih =>
    rw [List.foldl_cons, handOver_eq hpi, ih]
    simp only [Kernel.mk.injEq, true_and, and_true]
    funext q
    by_cases hql : q ∈ l <;> by_cases hqc : q = c <;> by_cases hqp : q = p <;>
      by_cases hqi : q = i <;> simp_all

theorem foldl_erase_self : ∀ l : List Pid, l.foldl List.erase l = []
  | [] => rfl
  | c :: l => by rw [List.foldl_cons, List.erase_cons_head]; exact foldl_erase_self l

/-- `proc_cleanup` hands the children of the process of the running thread to init. -/
theorem Inv.reparent (h : Inv k) (ht : k.sched.curthr = some t)
    (hi : k.procInitproc = some i) (hpid : 1 ≤ (k.proc (k.procOf t)).pPid)
    (hpc : ∀ c, k.pc t ≠ .waitPid c) : Inv (k.reparent (k.procOf t) i) := by
  unfold Kernel.reparent
  split
  case isFalse => exact h
  case isTrue hne =>
  set p := k.procOf t with hp
  obtain ⟨hib, hii, q₀, hq₀, hiq, hq₀i⟩ := h.init i hi
  have hpi : p ≠ i := by
    intro e
    rw [e] at hne
    exact hne hii
  -- init is a child of the idle process, which never gets here
  have hic : i ∉ (k.proc p).pChildren := by
    intro hc
    rw [(h.child p i hc).1] at hiq
    rw [Option.some.inj hiq, hq₀i] at hpid
    exact absurd hpid (by decide)
  have huniq : ∀ q, ∀ c ∈ (k.proc q).pChildren, c ∈ (k.proc p).pChildren → q = p := by
    intro q c h₁ h₂
    have := (h.child q c h₁).1.symm.trans (h.child p c h₂).1
    exact Option.some.inj this
  rw [handOver_foldl hpi, foldl_erase_self]
  have hmem : ∀ q c, c ∈ (if q = p then [] else if q = i then
      (k.proc i).pChildren ++ (k.proc p).pChildren else (k.proc q).pChildren) →
      (c ∈ (k.proc p).pChildren ∧ q = i) ∨
        (c ∉ (k.proc p).pChildren ∧ c ∈ (k.proc q).pChildren) := by
    intro q c hc
    split at hc
    · cases hc
    · next hqp =>
      split at hc
      · next hqi =>
        rcases List.mem_append.mp hc with hc | hc
        · exact .inr ⟨fun h' ↦ hpi (huniq i c hc h').symm, hqi ▸ hc⟩
        · exact .inl ⟨hc, hqi⟩
      · exact .inr ⟨fun h' ↦ hqp (huniq q c hc h'), hc⟩
  refine ⟨⟨?_, ?_, ?_, h.list, h.bound, ?_, h.thread, h.single⟩,
    h.toThreads.family (fun _ ↦ rfl) ?_, h.cur, h.code⟩
  · intro q c hc
    rcases hmem q c hc with ⟨hcp, rfl⟩ | ⟨hnc, hcq⟩
    · exact ⟨if_pos hcp, (h.child p c hcp).2⟩
    · exact ⟨(if_neg hnc).trans (h.child q c hcq).1, (h.child q c hcq).2⟩
  · intro q
    simp only
    split
    · exact List.nodup_nil
    · split
      · refine List.nodup_append.mpr ⟨h.nodup i, h.nodup p, ?_⟩
        rintro a ha b hb rfl
        exact hpi (huniq i a ha hb).symm
      · exact h.nodup q
  · intro q hc
    rcases hmem q q hc with ⟨hcp, rfl⟩ | ⟨_, hcq⟩
    · exact hic hcp
    · exact h.irrefl q hcq
  · intro j hj
    obtain rfl : i = j := Option.some.inj (hi.symm.trans hj)
    exact ⟨hib, hii, q₀, hq₀, (if_neg hic).trans hiq, hq₀i⟩
  · intro u hu c huc hc
    have hqp : k.procOf u ≠ p := by
      intro e
      rw [e] at hu
      exact hpc c (h.single p u hu t (h.cur t ht).2.1 ▸ huc)
    simp only [if_neg hqp]
    split
    · next hqi => exact List.mem_append_left _ (hqi ▸ hc)
    · exact hc

/-! ### Reaping -/

theorem reap_eq_ok : k.reap p c = .ok k' ↔
    (∀ t ∈ (k.proc c).pThreads, (k.sched.kthread t).ktState = .exited) ∧
      k.dispose p c = k' := by
  simp only [reap, bind_eq_ok, demand_eq_ok, Except.ok.injEq, exists_const]

@[simp] theorem dispose_sched : (k.dispose p c).sched = k.sched := rfl

@[simp] theorem dispose_pc : (k.dispose p c).pc = k.pc := rfl

@[simp] theorem dispose_pPproc : ((k.dispose p c).proc q).pPproc = (k.proc q).pPproc := by
  by_cases hqp : q = p <;> by_cases hqc : q = c <;>
    simp_all [dispose, Function.update_apply]

@[simp] theorem dispose_pPid : ((k.dispose p c).proc q).pPid = (k.proc q).pPid := by
  by_cases hqp : q = p <;> by_cases hqc : q = c <;>
    simp_all [dispose, Function.update_apply]

theorem mem_dispose_threads : t ∈ ((k.dispose p c).proc q).pThreads ↔
    q ≠ c ∧ t ∈ (k.proc q).pThreads := by
  by_cases hqp : q = p <;> by_cases hqc : q = c <;>
    simp_all [dispose, Function.update_apply]

theorem dispose_children : ((k.dispose p c).proc q).pChildren =
    if q = p then (k.proc p).pChildren.erase c else (k.proc q).pChildren := by
  by_cases hqp : q = p <;> by_cases hqc : q = c <;>
    simp_all [dispose, Function.update_apply]

theorem Threads.not_exited (h : Threads k) {q : Wq Pq}
    (hq : (k.sched.kthread t).ktWchan = some q) : (k.sched.kthread t).ktState ≠ .exited := by
  obtain ⟨_, _, hr⟩ := h.queued t q hq
  intro hx
  cases q with
  | runq => simp [Rests, hx] at hr
  | on q => cases q <;> simp [Rests, hx] at hr

theorem Tree.mem_dispose_children (h : Tree k) (hc : c ∈ (k.proc p).pChildren) {d : Pid}
    (hd : d ∈ ((k.dispose p c).proc q).pChildren) : d ≠ c ∧ d ∈ (k.proc q).pChildren := by
  rw [dispose_children] at hd
  split at hd
  · next hqp =>
    obtain ⟨hne, hd⟩ := (h.nodup p).mem_erase_iff.mp hd
    exact ⟨hne, hqp ▸ hd⟩
  · next hqp =>
    refine ⟨?_, hd⟩
    rintro rfl
    exact hqp (Option.some.inj ((h.child q d hd).1.symm.trans (h.child p d hc).1))

theorem Tree.dispose (h : Tree k) (hc : c ∈ (k.proc p).pChildren) : Tree (k.dispose p c) := by
  constructor
  · intro q d hd
    obtain ⟨hdc, hd⟩ := h.mem_dispose_children hc hd
    obtain ⟨h₁, h₂⟩ := h.child q d hd
    exact ⟨dispose_pPproc.trans h₁, (List.mem_erase_of_ne hdc).mpr h₂⟩
  · intro q
    rw [dispose_children]
    split
    · exact (h.nodup p).erase c
    · exact h.nodup q
  · intro q hq
    exact h.irrefl q (h.mem_dispose_children hc hq).2
  · exact h.list.erase c
  · intro q hq
    exact h.bound q (List.mem_of_mem_erase hq)
  · intro i hi
    simp only [dispose_pPproc, dispose_pPid]
    exact h.init i hi
  · intro q u hu
    obtain ⟨hqc, hu⟩ := mem_dispose_threads.mp hu
    exact ⟨(List.mem_erase_of_ne hqc).mpr (h.thread q u hu).1, (h.thread q u hu).2⟩
  · intro q u hu v hv
    exact h.single q u (mem_dispose_threads.mp hu).2 v (mem_dispose_threads.mp hv).2

/-- The running thread disposes of a child of its process. -/
theorem Inv.reap (h : Inv k) (ht : k.sched.curthr = some t) (hpc : k.pc t = .code)
    (hc : c ∈ (k.proc (k.procOf t)).pChildren) (he : k.reap (k.procOf t) c = .ok k') : Inv k' := by
  obtain ⟨hx, rfl⟩ := reap_eq_ok.mp he
  have hcp : k.procOf t ≠ c := fun e ↦ h.irrefl c (by rwa [e] at hc)
  refine ⟨h.toTree.dispose hc, ⟨h.linked, ?_, ?_, ?_, ?_, ?_⟩, ?_, h.code⟩
  · intro q u hu
    exact h.owner q u (mem_dispose_threads.mp hu).2
  · intro u q hq
    obtain ⟨h₁, h₂, h₃⟩ := h.queued u q hq
    refine ⟨mem_dispose_threads.mpr ⟨?_, h₁⟩, h₂, ?_⟩
    · intro e
      have hu : u ∈ (k.proc c).pThreads := e ▸ h₁
      exact h.not_exited hq (hx u hu)
    · cases q with
      | runq => exact h₃
      | on q => cases q <;> exact h₃
  · intro u hu d hd
    have hu' := (mem_dispose_threads.mp hu).2
    rw [dispose_children]
    split
    · next hup =>
      have hup' : k.procOf u = k.procOf t := hup
      have hu'' : u ∈ (k.proc (k.procOf t)).pThreads := hup' ▸ hu'
      obtain rfl := h.single _ u hu'' t (h.cur t ht).2.1
      exact absurd (hpc.symm.trans hd) (by simp)
    · exact h.waits u hu' d hd
  · intro u hu
    obtain ⟨h₁, h₂, h₃⟩ := h.fresh u hu
    refine ⟨h₁, h₂, mem_dispose_threads.mpr ⟨?_, h₃⟩⟩
    intro e
    have hu : u ∈ (k.proc c).pThreads := e ▸ h₃
    exact absurd (h₁.symm.trans (hx u hu)) (by simp)
  · intro q hq hd
    have hqc : q ≠ c := by
      rintro rfl
      exact h.list.not_mem_erase hq
    obtain ⟨u, hu⟩ := List.exists_mem_of_ne_nil _ (h.dead q (List.mem_of_mem_erase hq) hd)
    exact List.ne_nil_of_mem (mem_dispose_threads.mpr ⟨hqc, hu⟩)
  · intro u hu
    obtain rfl : t = u := Option.some.inj (ht.symm.trans hu)
    obtain ⟨h₁, h₂, h₃⟩ := h.cur t ht
    exact ⟨h₁, mem_dispose_threads.mpr ⟨hcp, h₂⟩, h₃⟩

/-! ## Steps -/

/-- A child that `do_waitpid` decides to reap is a dead child; one that it decides
to wait for is a child. -/
theorem lookAny_cases (k : Kernel) (p : Pid) :
    k.lookAny p = .echild ∨
      (∃ c ∈ (k.proc p).pChildren, k.lookAny p = .reap c ∧ k.pState c = .dead) ∨
      (k.lookAny p = .sleep .waitAny ∧ ∀ c ∈ (k.proc p).pChildren, k.pState c ≠ .dead) := by
  unfold lookAny
  split
  · exact .inl rfl
  · rcases hf : (k.proc p).pChildren.find? fun c ↦ decide (k.pState c = .dead) with _ | c
    · refine .inr (.inr ⟨rfl, fun c hc hd ↦ ?_⟩)
      exact List.find?_eq_none.mp hf c hc (decide_eq_true hd)
    · have hd := List.find?_some hf
      exact .inr (.inl ⟨c, List.mem_of_find?_eq_some hf, rfl, of_decide_eq_true hd⟩)

theorem lookPid_cases (k : Kernel) (c : Pid) :
    (k.lookPid c = .reap c ∧ k.pState c = .dead) ∨
      (k.lookPid c = .sleep (.waitPid c) ∧ k.pState c ≠ .dead) := by
  unfold lookPid
  split
  · next h => exact .inl ⟨rfl, h⟩
  · next h => exact .inr ⟨rfl, h⟩

/-- What the looks of `do_waitpid` decide. -/
def Look.Fits (k : Kernel) (p : Pid) : Look → Prop
  | .echild => True
  | .reap c => c ∈ (k.proc p).pChildren ∧ k.pState c = .dead
  | .sleep .waitAny => ∀ c ∈ (k.proc p).pChildren, k.pState c ≠ .dead
  | .sleep (.waitPid c) => c ∈ (k.proc p).pChildren ∧ k.pState c ≠ .dead
  | .sleep _ => False

theorem lookAny_fits (k : Kernel) (p : Pid) : Look.Fits k p (k.lookAny p) := by
  rcases k.lookAny_cases p with h | ⟨c, hc, h, hd⟩ | ⟨h, hd⟩ <;> rw [h]
  · trivial
  · exact ⟨hc, hd⟩
  · exact hd

theorem lookPid_fits (hc : c ∈ (k.proc p).pChildren) : Look.Fits k p (k.lookPid c) := by
  rcases k.lookPid_cases c with ⟨h, hd⟩ | ⟨h, hd⟩ <;> rw [h]
  · exact ⟨hc, hd⟩
  · exact ⟨hc, hd⟩

theorem look_fits (k : Kernel) (p : Pid) (pid : Int) : Look.Fits k p (k.look p pid) := by
  unfold look
  split
  · trivial
  · split
    · exact k.lookAny_fits p
    · split
      · next hf => exact lookPid_fits (List.mem_of_find?_eq_some hf)
      · trivial

theorem Look.Fits.maySleep {c : Pc} (hl : Look.Fits k (k.procOf t) (.sleep c)) :
    c.Waits ∧ k.MaySleep t (.on (.pWait (k.procOf t))) c ∧ c ≠ .inVput ∧ c ≠ .inClose := by
  cases c with
  | waitAny => exact ⟨trivial, .inr ⟨rfl, .inl rfl⟩, by simp, by simp⟩
  | waitPid c => exact ⟨trivial, .inr ⟨rfl, .inr ⟨c, hl.1, rfl⟩⟩, by simp, by simp⟩
  | _ => exact hl.elim

theorem Inv.afterLook (h : Inv k) (ht : k.sched.curthr = some t) {l : Look}
    (hl : Look.Fits k (k.procOf t) l) (he : k.afterLook t l = .ok k') : Inv k' := by
  cases l with
  | echild =>
    cases he
    have := h.setCode ht
    exact ⟨this.toTree.congr rfl rfl rfl rfl rfl, this.toThreads.update t rfl rfl this.linked
      (fun _ _ ↦ ⟨rfl, rfl⟩) rfl (this.queued t) (fun _ ↦ .inl) (this.fresh t) this.dead,
      this.cur, this.code⟩
  | reap c => exact (h.setCode ht).reap ht (by simp) hl.1 he
  | sleep c =>
    obtain ⟨hw, hq, _⟩ := hl.maySleep
    exact h.sleepAt ht hw hq he

theorem Inv.gone (h : Inv k) (ht : k.sched.curthr = some t) : Threads (k.setPc t .gone) := by
  refine h.toThreads.update t rfl rfl h.linked ?_ rfl ?_ ?_ ?_ h.dead
  · intro u hu; simp [hu]
  · intro q hq
    exact absurd ((h.cur t ht).1.symm.trans hq) (by simp)
  · intro c hc; simp at hc
  · intro hf; simp at hf

theorem Inv.cleanupClose (h : Inv k) (ht : k.sched.curthr = some t) {next : Blocks}
    (he : k.cleanupClose t next = .ok k') : Inv k' := by
  cases next with
  | inVput q => cases he
  | inClose q => exact h.sleepAt (c := .inClose) ht trivial (.inl ⟨⟨q, rfl⟩, by simp⟩) he
  | no =>
    cases he
    exact Inv.switch (k := k.setPc t .gone) (h.toTree.congr rfl rfl rfl rfl rfl) (h.gone ht)
      (h.pc_ne_code ht (by simp))

theorem handOver_frame (l : List Pid) (k : Kernel) :
    (l.foldl (handOver p i) k).sched = k.sched ∧ (l.foldl (handOver p i) k).pc = k.pc ∧
      (l.foldl (handOver p i) k).nthread = k.nthread ∧ (l.foldl (handOver p i) k).ret = k.ret ∧
      ∀ q, ((l.foldl (handOver p i) k).proc q).pThreads = (k.proc q).pThreads := by
  induction l generalizing k with
  | nil => exact ⟨rfl, rfl, rfl, rfl, fun _ ↦ rfl⟩
  | cons c l ih =>
    rw [List.foldl_cons]
    obtain ⟨h₁, h₂, h₃, h₄, h₅⟩ := ih (handOver p i k c)
    refine ⟨h₁, h₂, h₃, h₄, fun q ↦ (h₅ q).trans ?_⟩
    simp only [handOver, modifyProc, Function.update_apply]
    split <;> split <;> split <;> simp_all

theorem reparent_frame (k : Kernel) :
    (k.reparent p i).sched = k.sched ∧ (k.reparent p i).pc = k.pc ∧
      (k.reparent p i).nthread = k.nthread ∧ (k.reparent p i).ret = k.ret ∧
      ∀ q, ((k.reparent p i).proc q).pThreads = (k.proc q).pThreads := by
  unfold reparent
  split
  · exact handOver_frame _ k
  · exact ⟨rfl, rfl, rfl, rfl, fun _ ↦ rfl⟩

/-! ## What the end of a call leaves alone -/

section

variable {Q : Type} [DecidableEq Q] {s s' : Sched Q}

theorem pState_switch (s : Sched Q) : s.schedSwitch.pState = s.pState := by
  rcases s.schedSwitch_cases with ⟨_, he⟩ | ⟨l, u, _, he⟩ <;> rw [he] <;> rfl

theorem pState_wakeup {q : Wq Q} {r : Option Tid}
    (he : s.schedWakeupOn q = .ok (r, s')) : s'.pState = s.pState := by
  rcases Sched.schedWakeupOn_eq_ok.mp he with ⟨_, _, rfl⟩ | ⟨l, v, _, _, _, rfl⟩ <;> rfl

theorem switch_fields (s : Sched Q) (u : Tid) :
    (s.schedSwitch.kthread u).ktState = (s.kthread u).ktState ∧
      (s.schedSwitch.kthread u).ktProc = (s.kthread u).ktProc := by
  rcases s.schedSwitch_cases with ⟨_, he⟩ | ⟨l, v, _, he⟩ <;> rw [he]
  · exact ⟨rfl, rfl⟩
  · rcases eq_or_ne u v with rfl | huv
    · simp
    · simp [huv]

theorem wakeup_exited {q : Wq Q} {r : Option Tid}
    (he : s.schedWakeupOn q = .ok (r, s')) (hu : (s'.kthread u).ktState = .exited) :
    (s.kthread u).ktState = .exited := by
  rcases Sched.schedWakeupOn_eq_ok.mp he with ⟨_, _, rfl⟩ | ⟨l, v, _, _, _, rfl⟩
  · exact hu
  · rcases eq_or_ne u v with rfl | huv
    · simp at hu
    · simpa [huv] using hu

end

/-- The thread `t` moves to `c'`; there are the same threads, no other one exits, and
`do_waitpid` does not return. -/
structure Shifts (t : Tid) (c' : Pc) (k k' : Kernel) : Prop where
  threads : ∀ p, (k'.proc p).pThreads = (k.proc p).pThreads
  nthread : k'.nthread = k.nthread
  state : k'.sched.pState = k.sched.pState
  pc : k'.pc = Function.update k.pc t c'
  owner : ∀ u, k'.procOf u = k.procOf u
  exited : ∀ u, u ≠ t → (k'.sched.kthread u).ktState = .exited →
    (k.sched.kthread u).ktState = .exited
  ret : k'.ret = k.ret

section

variable {c' : Pc} {next : Blocks}

theorem Shifts.sleepAt {q : Wq Pq} (he : k.sleepAt q t c' = .ok k') :
    Shifts t c' k k' ∧ (k'.sched.kthread t).ktState ≠ .exited := by
  obtain ⟨_, rfl⟩ := sleepAt_eq_ok.mp he
  refine ⟨⟨fun _ ↦ rfl, rfl, pState_switch _, rfl, fun u ↦ ?_, fun u hut hx ↦ ?_, rfl⟩, ?_⟩
  · refine (switch_fields _ u).2.trans ?_
    rcases eq_or_ne u t with rfl | hut
    · simp
    · simp [hut]
  · have := (switch_fields _ u).1.symm.trans hx
    simpa [hut] using this
  · intro hx
    have := (switch_fields _ t).1.symm.trans hx
    simp at this

theorem Shifts.cleanupClose (he : k.cleanupClose t next = .ok k') :
    ∃ c', Shifts t c' k k' ∧ (c' = .inClose ∨ c' = .gone) := by
  cases next with
  | inVput q => cases he
  | inClose q => exact ⟨_, (Shifts.sleepAt he).1, .inl rfl⟩
  | no =>
    cases he
    exact ⟨.gone, ⟨fun _ ↦ rfl, rfl, pState_switch _, rfl, fun u ↦ (switch_fields _ u).2,
      fun u _ hx ↦ (switch_fields _ u).1.symm.trans hx, rfl⟩, .inr rfl⟩

theorem Shifts.cleanupWake (he : k.cleanupWake t next = .ok k') :
    ∃ c', Shifts t c' k k' ∧ (c' = .inClose ∨ c' = .gone) := by
  obtain ⟨i, _, he⟩ := bind_ok he
  obtain ⟨_, _, he⟩ := bind_ok he
  obtain ⟨pp, _, he⟩ := bind_ok he
  obtain ⟨⟨r, sc⟩, hw, he⟩ := bind_ok he
  obtain ⟨c', hs, hc⟩ := Shifts.cleanupClose he
  obtain ⟨hsched, hpc, hn, hret, hth⟩ := reparent_frame (k.withSched sc)
  refine ⟨c', ⟨fun p ↦ (hs.threads p).trans (hth p), hs.nthread.trans hn, ?_, ?_, fun u ↦ ?_,
    fun u hut hx ↦ ?_, hs.ret.trans hret⟩, hc⟩
  · rw [hs.state, hsched]
    exact pState_wakeup hw
  · rw [hs.pc, hpc]
    rfl
  · rw [hs.owner, procOf, hsched]
    exact (Sched.curthr_wakeup hw).2 u
  · have := hs.exited u hut hx
    rw [hsched] at this
    exact wakeup_exited hw this

theorem Shifts.cleanupVput (he : k.cleanupVput t next = .ok k') :
    ∃ c', Shifts t c' k k' ∧ (c' = .inVput ∨ c' = .inClose ∨ c' = .gone) ∧
      (c' = .inVput → (k'.sched.kthread t).ktState ≠ .exited) := by
  have hpast : k.cleanupWake t next = .ok k' → ∃ c', Shifts t c' k k' ∧
      (c' = .inVput ∨ c' = .inClose ∨ c' = .gone) ∧
      (c' = .inVput → (k'.sched.kthread t).ktState ≠ .exited) := by
    intro he
    obtain ⟨c', hs, hc⟩ := Shifts.cleanupWake he
    refine ⟨c', hs, .inr hc, ?_⟩
    rintro rfl
    simp at hc
  cases next with
  | inVput q =>
    obtain ⟨hs, hx⟩ := Shifts.sleepAt he
    exact ⟨_, hs, .inl rfl, fun _ ↦ hx⟩
  | inClose q => exact hpast he
  | no => exact hpast he

end

section

variable (h : Inv k) (ht : k.sched.curthr = some t) (hpc : ∀ c, k.pc t ≠ .waitPid c)
include h ht hpc

/-- What `proc_cleanup` does after the call of `vput`: the parent is woken and the
children are handed over, and the invariant still holds. -/
theorem Inv.cleanupWake_cases {next : Blocks} (he : k.cleanupWake t next = .ok k') :
    ∃ i pp r sc, k.procInitproc = some i ∧ (k.proc (k.procOf t)).pPproc = some pp ∧
      k.sched.schedWakeupOn (.on (.pWait pp)) = .ok (r, sc) ∧
      Inv ((k.withSched sc).reparent (k.procOf t) i) ∧
      ((k.withSched sc).reparent (k.procOf t) i).sched.curthr = some t ∧
      ((k.withSched sc).reparent (k.procOf t) i).cleanupClose t next = .ok k' := by
  obtain ⟨i, hi, he⟩ := bind_follow he
  obtain ⟨hp, he⟩ := bind_demand he
  obtain ⟨pp, hpp, he⟩ := bind_follow he
  obtain ⟨⟨r, sc⟩, hsc, he⟩ := bind_ok he
  obtain ⟨hcur, hproc⟩ := Sched.curthr_wakeup hsc
  have hw : Inv (k.withSched sc) := Inv.cancels.wakeup h hsc
  have ht' : (k.withSched sc).sched.curthr = some t := hcur.trans ht
  have hpr : (k.withSched sc).procOf t = k.procOf t := hproc t
  refine ⟨i, pp, r, sc, hi, hpp, hsc, ?_, ?_, he⟩
  · have := hw.reparent ht' hi (by rw [hpr]; exact hp) hpc
    rwa [hpr] at this
  · rw [(reparent_frame _).1]
    exact ht'

theorem Inv.cleanupWake {next : Blocks}
    (he : k.cleanupWake t next = .ok k') : Inv k' := by
  obtain ⟨_, _, _, _, _, _, _, hi, ht', he⟩ := h.cleanupWake_cases ht hpc he
  exact hi.cleanupClose ht' he

theorem Inv.cleanupVput {next : Blocks}
    (he : k.cleanupVput t next = .ok k') : Inv k' := by
  cases next with
  | inVput q => exact h.sleepAt (c := .inVput) ht trivial (.inl ⟨⟨q, rfl⟩, by simp⟩) he
  | inClose q => exact h.cleanupWake ht hpc he
  | no => exact h.cleanupWake ht hpc he

end

/-- The state in which `kthread_exit` calls `vput`. -/
def dying (k : Kernel) (t : Tid) (status : Int) : Kernel :=
  ((k.withSched (k.sched.modify t fun u ↦ { u with ktRetval := status, ktState := .exited })).modifyProc
    (k.procOf t) fun b ↦ { b with pStatus := status }).setPState (k.procOf t) .dead

theorem kthreadExit_eq_ok {status : Int} {next : Blocks} :
    k.kthreadExit t status next = .ok k' ↔ (k.sched.kthread t).ktWchan = none ∧
      (k.dying t status).cleanupVput t next = .ok k' := by
  simp [kthreadExit, procCleanup, dying, bind_eq_ok]

section

variable (h : Inv k) (ht : k.sched.curthr = some t)
include h ht

theorem Inv.dying (status : Int) : Inv (k.dying t status) :=
  (h.mark (f := fun u ↦ { u with ktRetval := status, ktState := .exited }) ht (fun _ ↦ rfl)
    (fun _ ↦ rfl)).status _ _

theorem Inv.doExit_eq {status : Int}
    {next : Blocks} : k.doExit t status next = k.kthreadExit t status next := by
  have hm := (h.cur t ht).2.1
  have hnil : (k.proc (k.procOf t)).pThreads.takeWhile (· ≠ t) = [] := by
    cases hl : (k.proc (k.procOf t)).pThreads with
    | nil => rfl
    | cons u l =>
      obtain rfl := h.single _ u (by rw [hl]; exact List.mem_cons_self) t hm
      simp
  simp only [Kernel.doExit, hnil]
  rfl

theorem Inv.doExit (hpc : k.pc t = .code)
    {status : Int} {next : Blocks} (he : k.doExit t status next = .ok k') : Inv k' := by
  rw [h.doExit_eq ht] at he
  obtain ⟨_, he⟩ := kthreadExit_eq_ok.mp he
  refine (h.dying ht status).cleanupVput ht ?_ he
  intro c hc
  exact absurd (hpc.symm.trans hc) (by simp)

theorem Inv.procKill (hpc : k.pc t = .code)
    {status : Int} {next : Blocks} (he : k.procKill t p status next = .ok k') : Inv k' := by
  unfold Kernel.procKill at he
  split at he
  · exact h.doExit ht hpc he
  · obtain ⟨_, _, he⟩ := bind_ok he
    obtain ⟨k₁, h₁, he⟩ := bind_ok he
    cases he
    exact (Inv.cancels.cancelAll h h₁).status _ _

theorem Inv.cancellableSleep
    {q : Nat} (he : k.cancellableSleep t q = .ok k') : Inv k' := by
  obtain ⟨⟨r, sc⟩, hsc, he⟩ := bind_ok he
  cases he
  unfold Sched.schedCancellableSleepOn at hsc
  split at hsc
  · cases hsc
    exact (h.interrupted ht).setCode ht
  · simp only [Sched.ktqueueEnqueue, bind_eq_ok, demand_eq_ok, Except.ok.injEq] at hsc
    obtain ⟨_, ⟨_, hw, rfl⟩, hsc⟩ := hsc
    cases hsc
    refine Inv.switch (k := (k.withSched ((k.sched.modify t _).link _ t)).setPc t .cancellable)
      (h.toTree.congr rfl rfl rfl rfl rfl)
      (h.toThreads.enqueue (by simpa using hw) (h.cur t ht).2.1 trivial (by simp) ?_)
      (h.pc_ne_code ht (by simp))
    simp [Rests]

theorem Inv.resume {next : Blocks}
    (he : k.resume t next = .ok k') : Inv k' := by
  unfold Kernel.resume at he
  split at he
  · cases he
    exact h.setCode ht
  · cases he
    unfold Sched.schedCancellableWake
    split
    · exact (h.interrupted ht).setCode ht
    · exact h.setCode ht
  · exact h.afterLook ht (k.lookAny_fits _) he
  · next c hpc => exact h.afterLook ht (lookPid_fits (h.waits t (h.cur t ht).2.1 c hpc)) he
  · next hpc => exact h.cleanupVput ht (by simp [hpc]) he
  · exact h.cleanupClose ht he
  · cases he

end

theorem caller_eq_ok : k.caller = .ok t ↔ k.sched.curthr = some t ∧ k.pc t = .code := by
  simp only [caller, bind_eq_ok, follow_eq_ok, demand_eq_ok, Except.ok.injEq]
  constructor
  · rintro ⟨u, hu, _, hc, rfl⟩
    exact ⟨hu, hc⟩
  · rintro ⟨hu, hc⟩
    exact ⟨t, hu, (), hc, rfl⟩

theorem bind_caller {f : Tid → Except Fault Kernel} (h : k.caller >>= f = .ok k') :
    ∃ t, k.sched.curthr = some t ∧ k.pc t = .code ∧ f t = .ok k' := by
  obtain ⟨t, ht, h⟩ := bind_ok h
  exact ⟨t, (caller_eq_ok.mp ht).1, (caller_eq_ok.mp ht).2, h⟩

/-- What the steps of the system can do. -/
inductive Acts (k : Kernel) : ProcEv → Kernel → Prop
  | procCreate {t : Tid} {pid next : Int} (cur : k.sched.curthr = some t) (code : k.pc t = .code)
      (idle : PID_IDLE ≠ pid ∨ k.procList = [])
      (init : pid = PID_INIT → (k.proc (k.procOf t)).pPid = PID_IDLE) :
      Acts k .procCreate (k.addProc (k.procOf t) pid next)
  | kthreadCreate {p : Pid} (mem : p ∈ k.procList) (nil : (k.proc p).pThreads = []) :
      Acts k (.kthreadCreate p) (k.addThread p)
  | makeRunnable {t : Tid} (fresh : k.pc t = .fresh) (wchan : (k.sched.kthread t).ktWchan = none) :
      Acts k (.makeRunnable t) (k.readied t)
  | exit {t : Tid} {status : Int} {next : Blocks} {k' : Kernel} (cur : k.sched.curthr = some t)
      (code : k.pc t = .code) (he : k.doExit t status next = .ok k') : Acts k (.exit status next) k'
  | kill {t : Tid} {p : Pid} {status : Int} {next : Blocks} {k' : Kernel}
      (cur : k.sched.curthr = some t) (code : k.pc t = .code)
      (he : k.procKill t p status next = .ok k') : Acts k (.kill p status next) k'
  | waitpid {t : Tid} {pid : Int} {k' : Kernel} (cur : k.sched.curthr = some t)
      (code : k.pc t = .code) (he : k.afterLook t (k.look (k.procOf t) pid) = .ok k') :
      Acts k (.waitpid pid) k'
  | yield {t : Tid} (cur : k.sched.curthr = some t) (code : k.pc t = .code)
      (wchan : (k.sched.kthread t).ktWchan = none) :
      Acts k .yield ((k.readied t).withSched (k.readied t).sched.schedSwitch)
  | sleepOn {t : Tid} {q : Nat} {k' : Kernel} (cur : k.sched.curthr = some t)
      (code : k.pc t = .code) (he : k.sleepAt (.on (.other q)) t .suspended = .ok k') :
      Acts k (.sleepOn q) k'
  | cancellableSleepOn {t : Tid} {q : Nat} {k' : Kernel} (cur : k.sched.curthr = some t)
      (code : k.pc t = .code) (he : k.cancellableSleep t q = .ok k') :
      Acts k (.cancellableSleepOn q) k'
  | wakeup {q : Nat} {r : Option Tid} {sc : Sched Pq}
      (he : k.sched.schedWakeupOn (.on (.other q)) = .ok (r, sc)) : Acts k (.wakeup q) (k.withSched sc)
  | broadcast {q : Nat} {sc : Sched Pq} (he : k.sched.schedBroadcastOn (.on (.other q)) = .ok sc) :
      Acts k (.broadcast q) (k.withSched sc)
  | cancel {t : Tid} {sc : Sched Pq} (he : k.sched.schedCancel t = .ok sc) :
      Acts k (.cancel t) (k.withSched sc)
  | resume {t : Tid} {next : Blocks} {k' : Kernel} (cur : k.sched.curthr = some t)
      (he : k.resume t next = .ok k') : Acts k (.resume next) k'
  | dispatch (idle : k.sched.curthr = none) : Acts k .dispatch (k.withSched k.sched.schedSwitch)

theorem act_ok (he : k.act procMaxCount e = .ok k') : Acts k e k' := by
  cases e with
  | procCreate =>
    obtain ⟨t, ht, hc, he⟩ := bind_caller he
    obtain ⟨⟨pid, next⟩, _, he⟩ := bind_ok he
    obtain ⟨hidle, he⟩ := bind_demand he
    obtain ⟨hinit, he⟩ := bind_demand he
    cases he
    exact .procCreate ht hc hidle fun h ↦ (hinit h).symm
  | kthreadCreate p =>
    obtain ⟨_, _, he⟩ := bind_ok he
    obtain ⟨hp, he⟩ := bind_demand he
    cases he
    exact .kthreadCreate hp.1 hp.2
  | makeRunnable t =>
    obtain ⟨hf, he⟩ := bind_demand he
    obtain ⟨sc, hsc, he⟩ := bind_ok he
    obtain ⟨hw, rfl⟩ := Sched.schedMakeRunnable_eq_ok.mp hsc
    cases he
    exact .makeRunnable hf hw
  | exit status next =>
    obtain ⟨t, ht, hc, he⟩ := bind_caller he
    exact .exit ht hc he
  | kill p status next =>
    obtain ⟨t, ht, hc, he⟩ := bind_caller he
    exact .kill ht hc he
  | waitpid pid =>
    obtain ⟨t, ht, hc, he⟩ := bind_caller he
    obtain ⟨_, _, he⟩ := bind_ok he
    exact .waitpid ht hc he
  | yield =>
    obtain ⟨t, ht, hc, he⟩ := bind_caller he
    obtain ⟨sc, hsc, he⟩ := bind_ok he
    obtain ⟨hw, rfl⟩ := Sched.schedMakeRunnable_eq_ok.mp hsc
    cases he
    exact .yield ht hc hw
  | sleepOn q =>
    obtain ⟨t, ht, hc, he⟩ := bind_caller he
    exact .sleepOn ht hc he
  | cancellableSleepOn q =>
    obtain ⟨t, ht, hc, he⟩ := bind_caller he
    exact .cancellableSleepOn ht hc he
  | wakeup q =>
    obtain ⟨⟨r, sc⟩, hsc, he⟩ := bind_ok he
    cases he
    exact .wakeup hsc
  | broadcast q =>
    obtain ⟨sc, hsc, he⟩ := bind_ok he
    cases he
    exact .broadcast hsc
  | cancel t =>
    obtain ⟨_, _, he⟩ := bind_ok he
    obtain ⟨sc, hsc, he⟩ := bind_ok he
    cases he
    exact .cancel hsc
  | resume next =>
    obtain ⟨t, ht, he⟩ := bind_follow he
    exact .resume ht he
  | dispatch =>
    obtain ⟨hn, he⟩ := bind_demand he
    cases he
    exact .dispatch hn

theorem Inv.act (h : Inv k)
    (he : k.act procMaxCount e = .ok k') : Inv k' := by
  cases act_ok he with
  | procCreate ht _ _ hpid => exact h.addProc (h.thread _ _ (h.cur _ ht).2.1).1 hpid
  | kthreadCreate hp hnil => exact h.addThread hp hnil
  | @makeRunnable t hf hw =>
    have hne : ∀ u, k.sched.curthr = some u → u ≠ t := by
      rintro u hu rfl
      have := (h.cur u hu).2.2
      simp [hf, Pc.Waits] at this
    refine ⟨h.toTree.congr rfl rfl rfl rfl rfl,
      h.toThreads.runnable hw (h.fresh t hf).2.2, ?_, ?_⟩
    · intro u hu
      have hu' : k.sched.curthr = some u := by simpa [readied] using hu
      simpa [readied, hne u hu'] using h.cur u hu'
    · intro u hu
      by_cases hut : u = t
      · simp [readied, hut] at hu
      · simpa [readied] using h.code u (by simpa [readied, hut] using hu)
  | exit ht hc he => exact h.doExit ht hc he
  | kill ht hc he => exact h.procKill ht hc he
  | @waitpid t pid _ ht hc he => exact h.afterLook ht (k.look_fits _ pid) he
  | @yield t ht hc hw =>
    exact Inv.switch (h.toTree.congr rfl rfl rfl rfl rfl)
      (h.toThreads.runnable hw (h.cur t ht).2.1) (h.pc_ne_code ht (by simp))
  | @sleepOn t q _ ht hc he =>
    exact h.sleepAt (c := .suspended) ht trivial (.inl ⟨⟨q, rfl⟩, by simp⟩) he
  | cancellableSleepOn ht hc he => exact h.cancellableSleep ht he
  | wakeup hsc => exact Inv.cancels.wakeup h hsc
  | broadcast hsc => exact Inv.cancels.broadcast h hsc
  | cancel hsc => exact Inv.cancels.cancel h hsc
  | resume ht he => exact h.resume ht he
  | dispatch hn =>
    refine Inv.switch h.toTree h.toThreads fun t ht ↦ ?_
    rw [h.code t ht] at hn
    cases hn

theorem Inv.resetRet (h : Inv k) : Inv { k with ret := none } :=
  ⟨h.toTree.congr rfl rfl rfl rfl rfl, h.toThreads.update 0 rfl rfl h.linked
    (fun _ _ ↦ ⟨rfl, rfl⟩) rfl (h.queued 0) (fun _ ↦ .inl) (h.fresh 0) h.dead, h.cur, h.code⟩

/-- **One step** keeps the invariant. -/
theorem Inv.step (h : Inv k)
    (he : k.step procMaxCount e = .ok k') : Inv k' :=
  h.resetRet.act he

/-- **Every reachable state** satisfies the invariant. -/
theorem Inv.of_run {hist : List ProcEv}
    (hr : Run (ofStep (Kernel.step procMaxCount)) Kernel.boot hist k) : Inv k :=
  hr.invariant (fun _ _ _ hi he ↦ hi.step he) Inv.boot

theorem inv_of_waiting : ∃ k, Run (ofStep (Kernel.step 8)) Kernel.boot
    [.waitpid (-1), .makeRunnable 1, .kthreadCreate 1, .procCreate] k ∧ k.pc 0 = .waitAny ∧
      Inv k := by
  have h : check (Kernel.step 8) Kernel.boot
      [.procCreate, .kthreadCreate 1, .makeRunnable 1, .waitpid (-1)]
      (fun k ↦ k.pc 0 = .waitAny) = true := by decide +kernel
  obtain ⟨k, hk, hp⟩ := exists_of_check h
  exact ⟨k, .of_exec hk, of_decide_eq_true hp, Inv.of_run (.of_exec hk)⟩

end Kernel

end CS402.Proc

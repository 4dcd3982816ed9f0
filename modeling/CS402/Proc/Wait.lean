import CS402.Proc.Tree

/-!
# Waiting for children

A process that sleeps in `do_waitpid` must be woken when there is something to reap.
`proc_cleanup` wakes the parent of the exiting process, once, and only then hands the
children to init; nobody tells init about those among them that are dead already.
Marking a process dead and waking its parent are also apart: the thread may block in
`vput` in between, and `sched_cancellable_sleep_on` marks without waking anybody.

* `orphan_refutes` is the run with three generations in which init sleeps on although
  it has been given a zombie.
* `noLost_of_noLosesWakeup` shows that these are the only ways to lose a wakeup: in
  every run without such a step nobody sleeps in `do_waitpid` next to a dead child.
-/

namespace CS402.Proc

open CS402.Lib

/-- `next` does not say that the thread blocks in `vput`. -/
def Blocks.pastVput : Blocks → Bool
  | .inVput _ => false
  | _ => true

namespace Kernel

variable {k k' : Kernel} {t u : Tid} {p c : Pid} {q : Wq Pq} {status : Int} {r : Option Tid}
  {next : Blocks} {e : ProcEv}

/-- **No lost wakeup.**  A thread that sleeps on the `p_wait` of its process in
`do_waitpid(-1, ..)` has no dead child, and one that sleeps in `do_waitpid(pid, ..)`
waits for a child that is alive. -/
def NoLost (k : Kernel) : Prop :=
  ∀ p, ∀ t ∈ k.sched.waiters (.on (.pWait p)),
    (k.pc t = .waitAny → ∀ c ∈ (k.proc p).pChildren, k.pState c ≠ .dead) ∧
    (∀ c, k.pc t = .waitPid c → k.pState c ≠ .dead)

/-- The parent of `p` sleeps in `do_waitpid` and waits for `p`, possibly among
others. -/
def ParentWaits (k : Kernel) (p : Pid) : Prop :=
  match (k.proc p).pPproc with
  | some pp => ∃ u ∈ k.sched.waiters (.on (.pWait pp)), k.pc u = .waitAny ∨ k.pc u = .waitPid p
  | none => False

/-- `p` has a dead child to hand over while init sleeps in `do_waitpid(-1, ..)`, and
init is not the parent of `p`, who is woken first. -/
def HandsDead (k : Kernel) (p : Pid) : Prop :=
  match k.procInitproc with
  | some i => (k.proc p).pPid ≠ PID_INIT ∧ (k.proc p).pPproc ≠ some i ∧
      (∃ c ∈ (k.proc p).pChildren, k.pState c = .dead) ∧
      ∃ u ∈ k.sched.waiters (.on (.pWait i)), k.pc u = .waitAny
  | none => False

/-- `proc_cleanup` of the process `p`, entered at the call of `vput`, loses a wakeup. -/
def CleanupLoses (k : Kernel) (p : Pid) : Blocks → Prop
  | .inVput _ => k.ParentWaits p
  | _ => k.HandsDead p

/-- The thread `t`, when it is told that it was interrupted, marks its process dead
while the parent waits. -/
def InterruptLoses (k : Kernel) (t : Tid) : Prop :=
  (k.sched.kthread t).ktCancelled = true ∧ k.ParentWaits (k.procOf t)

/-- Resuming the thread `t`, suspended at `c`, loses a wakeup. -/
def ResumeLoses (k : Kernel) (t : Tid) (next : Blocks) : Pc → Prop
  | .cancellable => k.InterruptLoses t
  | .inVput => next.pastVput ∧ k.HandsDead (k.procOf t)
  | _ => False

/-- The step, taken by the thread `t`, leaves somebody asleep next to a dead child. -/
def LosesWakeupBy (k : Kernel) (t : Tid) : ProcEv → Prop
  | .exit _ next => k.CleanupLoses (k.procOf t) next
  | .kill p _ next => p = k.procOf t ∧ k.CleanupLoses p next
  | .cancellableSleepOn _ => k.InterruptLoses t
  | .resume next => k.ResumeLoses t next (k.pc t)
  | _ => False

/-- The step leaves somebody asleep next to a dead child. -/
def LosesWakeup (k : Kernel) (e : ProcEv) : Prop :=
  match k.sched.curthr with
  | some t => k.LosesWakeupBy t e
  | none => False

instance : Decidable (k.ParentWaits p) :=
  match h : (k.proc p).pPproc with
  | some pp => decidable_of_iff (∃ u ∈ k.sched.waiters (.on (.pWait pp)),
      k.pc u = .waitAny ∨ k.pc u = .waitPid p) (by simp only [ParentWaits, h])
  | none => .isFalse (by simp only [ParentWaits, h, not_false_eq_true])

instance : Decidable (k.HandsDead p) :=
  match h : k.procInitproc with
  | some i => decidable_of_iff ((k.proc p).pPid ≠ PID_INIT ∧ (k.proc p).pPproc ≠ some i ∧
      (∃ c ∈ (k.proc p).pChildren, k.pState c = .dead) ∧
      ∃ u ∈ k.sched.waiters (.on (.pWait i)), k.pc u = .waitAny) (by simp only [HandsDead, h])
  | none => .isFalse (by simp only [HandsDead, h, not_false_eq_true])

instance : (next : Blocks) → Decidable (k.CleanupLoses p next)
  | .inVput _ => inferInstanceAs (Decidable (k.ParentWaits p))
  | .no | .inClose _ => inferInstanceAs (Decidable (k.HandsDead p))

instance : Decidable (k.InterruptLoses t) := inferInstanceAs (Decidable (_ ∧ _))

instance {next : Blocks} : (c : Pc) → Decidable (k.ResumeLoses t next c)
  | .cancellable => inferInstanceAs (Decidable (k.InterruptLoses t))
  | .inVput => inferInstanceAs (Decidable (_ ∧ _))
  | .unborn | .fresh | .code | .suspended | .waitAny | .waitPid _ | .inClose | .gone =>
    inferInstanceAs (Decidable False)

instance : (e : ProcEv) → Decidable (k.LosesWakeupBy t e)
  | .exit _ next => inferInstanceAs (Decidable (k.CleanupLoses (k.procOf t) next))
  | .kill p _ next => inferInstanceAs (Decidable (p = k.procOf t ∧ k.CleanupLoses p next))
  | .cancellableSleepOn _ => inferInstanceAs (Decidable (k.InterruptLoses t))
  | .resume next => inferInstanceAs (Decidable (k.ResumeLoses t next (k.pc t)))
  | .procCreate | .kthreadCreate _ | .makeRunnable _ | .waitpid _ | .yield | .sleepOn _
  | .wakeup _ | .broadcast _ | .cancel _ | .dispatch => inferInstanceAs (Decidable False)

instance {e : ProcEv} : Decidable (k.LosesWakeup e) :=
  match h : k.sched.curthr with
  | some t => decidable_of_iff (k.LosesWakeupBy t e) (by simp only [LosesWakeup, h])
  | none => .isFalse (by simp only [LosesWakeup, h, not_false_eq_true])

/-! ## The orphaned zombie -/

/-- Init sleeps in `do_waitpid(-1, ..)`; its child `2` has a child `3`, which has a
child `4`.  Process `4` exits and is not reaped; then `3` exits. -/
def orphanRun : List ProcEv :=
  [.procCreate, .kthreadCreate 1, .makeRunnable 1, .waitpid (-1), .resume .no,
    .procCreate, .kthreadCreate 2, .makeRunnable 2, .waitpid (-1), .resume .no,
    .procCreate, .kthreadCreate 3, .makeRunnable 3, .sleepOn 0, .resume .no,
    .procCreate, .kthreadCreate 4, .makeRunnable 4, .yield, .resume .no,
    .exit 0 .no, .resume .no, .exit 0 .no]

/-- **The wakeup is lost.**  After this run the thread of init sleeps in
`do_waitpid(-1, ..)` although the zombie `4` is one of its children. -/
theorem orphan_refutes :
    ∃ k h, Run (ofStep (step 65536)) boot h k ∧ k.procInitproc = some 1 ∧
      1 ∈ k.sched.waiters (.on (.pWait 1)) ∧ k.pc 1 = .waitAny ∧
      4 ∈ (k.proc 1).pChildren ∧ k.pState 4 = .dead ∧ ¬ NoLost k := by
  have h : check (step 65536) boot orphanRun (fun k ↦ k.procInitproc = some 1 ∧
      1 ∈ k.sched.waiters (.on (.pWait 1)) ∧ k.pc 1 = .waitAny ∧
      4 ∈ (k.proc 1).pChildren ∧ k.pState 4 = .dead) = true := by decide +kernel
  obtain ⟨k, hk, hp⟩ := exists_of_check h
  obtain ⟨hi, hm, hpc, hc, hd⟩ := of_decide_eq_true hp
  refine ⟨k, _, Run.of_exec hk, hi, hm, hpc, hc, hd, fun hn ↦ ?_⟩
  exact (hn 1 1 hm).1 hpc 4 hc hd

/-! ## The invariant, thread by thread -/

/-- The thread `t`, asleep on the `p_wait` of `p`, waits for `c`; whether
`do_waitpid(-1, ..)` counts is up to `any`. -/
def Awaits (k : Kernel) (any : Prop) (t : Tid) (p c : Pid) : Prop :=
  any ∧ k.pc t = .waitAny ∧ c ∈ (k.proc p).pChildren ∨ k.pc t = .waitPid c

/-- Nobody sleeps who waits for a dead process. -/
def Watched (any : Prop) (k : Kernel) : Prop :=
  ∀ t p, (k.sched.kthread t).ktWchan = some (.on (.pWait p)) →
    ∀ c, k.Awaits any t p c → k.pState c ≠ .dead

variable {any : Prop}

theorem Watched.boot : Watched any boot := by
  intro t p h
  simp [Kernel.boot] at h

theorem Watched.noLost (hw : Watched True k) (h : k.sched.Linked) : NoLost k := by
  intro p t ht
  have hwt := hw t p ((h.wchan t _).mpr ht)
  exact ⟨fun ha c hc ↦ hwt c (.inl ⟨trivial, ha, hc⟩), fun c ha ↦ hwt c (.inr ha)⟩

theorem Inv.child_of_awaits (h : Inv k) (ht : (k.sched.kthread t).ktWchan = some (.on (.pWait p)))
    (ha : k.Awaits any t p c) : c ∈ (k.proc p).pChildren := by
  rcases ha with ⟨_, _, hc⟩ | ha
  · exact hc
  · obtain ⟨hm, _, _, hp, _⟩ := h.queued t _ ht
    exact hp ▸ h.waits t hm c ha

/-- **Changing one thread.** -/
theorem Watched.update (hw : Watched any k) (t : Tid) (hproc : k'.proc = k.proc)
    (hst : k'.sched.pState = k.sched.pState)
    (hother : ∀ u, u ≠ t → k'.sched.kthread u = k.sched.kthread u ∧ k'.pc u = k.pc u)
    (ht : ∀ p, (k'.sched.kthread t).ktWchan = some (.on (.pWait p)) →
      ∀ c, k'.Awaits any t p c → k.pState c ≠ .dead) : Watched any k' := by
  intro u p hu c hc
  rw [pState, hst]
  by_cases hut : u = t
  · rw [hut] at hu hc
    exact ht p hu c hc
  · obtain ⟨hk, hp⟩ := hother u hut
    rw [hk] at hu
    rw [Awaits, hp, hproc] at hc
    exact hw u p hu c hc

theorem Watched.switch (hw : Watched any k) : Watched any (k.withSched k.sched.schedSwitch) := by
  rcases k.sched.schedSwitch_cases with ⟨_, he⟩ | ⟨l, u, hq, he⟩
  · intro t p ht c hc
    simpa [he] using hw t p (by simpa [he] using ht) c hc
  · refine hw.update u rfl (by simp [he]) (fun v hv ↦ by simp [he, hv]) ?_
    intro p hp
    simp [he] at hp

theorem Watched.enqueue (hw : Watched any k) {st : KtState} {c : Pc}
    (hq : ∀ p, q = .on (.pWait p) → ∀ d, (k.setPc t c).Awaits any t p d → k.pState d ≠ .dead) :
    Watched any ((k.withSched
      ((k.sched.modify t fun u ↦ { u with ktState := st }).link q t).schedSwitch).setPc t c) := by
  refine Watched.switch
    (k := (k.withSched ((k.sched.modify t fun u ↦ { u with ktState := st }).link q t)).setPc t c) ?_
  refine hw.update t rfl rfl (fun u hu ↦ by simp [hu]) ?_
  intro p hp
  exact hq p (by simpa using hp)

/-! ## Scheduling -/

section

variable (hw : Watched any k)
include hw

theorem Watched.sleepAt {c : Pc}
    (hq : ∀ p, q = .on (.pWait p) → ∀ d, (k.setPc t c).Awaits any t p d → k.pState d ≠ .dead)
    (he : k.sleepAt q t c = .ok k') : Watched any k' := by
  obtain ⟨_, rfl⟩ := sleepAt_eq_ok.mp he
  exact hw.enqueue hq

theorem Watched.moveToRunq :
    Watched any (k.withSched
      (((k.sched.unlink q t).modify t fun u ↦ { u with ktState := .run }).link .runq t)) := by
  refine hw.update t rfl rfl (fun u hu ↦ by simp [hu]) ?_
  intro p hp
  simp at hp

theorem Watched.modifyThread {f : Kthread Pq → Kthread Pq}
    (hf : ∀ a, (f a).ktWchan = a.ktWchan) : Watched any (k.withSched (k.sched.modify t f)) := by
  refine hw.update t rfl rfl (fun u hu ↦ by simp [hu]) ?_
  intro p hp
  exact hw t p (by simpa [hf] using hp)

omit hw in
theorem Watched.cancels : Cancels (Watched any) :=
  ⟨⟨fun hw _ ↦ hw.moveToRunq⟩, fun hw hf ↦ hw.modifyThread hf.ktWchan⟩

theorem Watched.setPc (ht : (k.sched.kthread t).ktWchan = none) {c : Pc} :
    Watched any (k.setPc t c) := by
  refine hw.update t rfl rfl (fun u hu ↦ by simp [hu]) ?_
  intro p hp
  exact absurd (ht.symm.trans hp) (by simp)

end

/-! ## The process table -/

theorem Watched.table (hw : Watched any k) (hs : k'.sched = k.sched) (hpc : k'.pc = k.pc)
    (hc : ∀ p, ∀ c ∈ (k'.proc p).pChildren, c ∈ (k.proc p).pChildren) : Watched any k' := by
  intro t p ht c ha
  rw [hs] at ht
  rw [pState, hs]
  rw [Awaits, hpc] at ha
  refine hw t p ht c ?_
  rcases ha with ⟨h₀, ha, hcm⟩ | ha
  · exact .inl ⟨h₀, ha, hc p c hcm⟩
  · exact .inr ha

theorem Watched.addProc (hw : Watched any k) (h : Inv k) (hp : p ∈ k.procList) {pid next : Int} :
    Watched any (k.addProc p pid next) := by
  intro t q ht c ha
  have hold : k.Awaits any t q c → (k.addProc p pid next).pState c ≠ .dead := by
    intro ha
    have hlist := (h.child q c (h.child_of_awaits ht ha)).2
    simpa [Kernel.addProc, h.lt c hlist] using hw t q ht c ha
  rcases ha with ⟨h₀, ha, hc⟩ | ha
  · rcases h.mem_addProc_children hp hc with ⟨_, rfl⟩ | hc
    · simp [Kernel.addProc]
    · exact hold (.inl ⟨h₀, ha, hc⟩)
  · exact hold (.inr ha)

theorem Watched.addThread (hw : Watched any k) : Watched any (k.addThread p) := by
  intro t q ht c ha
  have hne : t ≠ k.nthread := by
    rintro rfl
    simp at ht
  exact hw t q (by simpa [hne] using ht) c (by simpa [Awaits, hne] using ha)

/-- The process of the running thread is marked dead while its parent does not wait for
it. -/
theorem Watched.mark (hw : Watched any k) (h : Inv k) (hp : ¬ k.ParentWaits p) :
    Watched any (k.setPState p .dead) := by
  intro t q ht c ha
  -- whoever waits for `p` is its parent
  have hne : c ≠ p := by
    rintro rfl
    refine hp ?_
    rw [ParentWaits, (h.child q c (h.child_of_awaits ht ha)).1]
    refine ⟨t, (h.linked.wchan t _).mp ht, ?_⟩
    rcases ha with ⟨_, ha, _⟩ | ha
    · exact .inl ha
    · exact .inr ha
  simpa [hne] using hw t q ht c ha

/-! ## Exit -/

/-- `Watched`, except that the process `p` may be dead already. -/
def WatchedBut (any : Prop) (k : Kernel) (p : Pid) : Prop :=
  ∀ t q, (k.sched.kthread t).ktWchan = some (.on (.pWait q)) →
    ∀ c, k.Awaits any t q c → c ≠ p → k.pState c ≠ .dead

theorem Watched.but (hw : Watched any k) : WatchedBut any k p := fun t q ht c ha _ ↦ hw t q ht c ha

theorem dying_proc {q : Pid} :
    ((k.dying t status).proc q).pChildren = (k.proc q).pChildren ∧
      ((k.dying t status).proc q).pPproc = (k.proc q).pPproc ∧
      ((k.dying t status).proc q).pPid = (k.proc q).pPid := by
  by_cases hq : q = (k.sched.kthread t).ktProc
  · subst hq; simp [dying]
  · simp [dying, hq]

theorem dying_pState (hc : c ≠ k.procOf t) : (k.dying t status).pState c = k.pState c := by
  have hc' : c ≠ (k.sched.kthread t).ktProc := hc
  simp [dying, hc']

theorem Watched.dying (hw : Watched any k) : WatchedBut any (k.dying t status) (k.procOf t) := by
  intro u q hu c ha hne
  have hu' : (k.sched.kthread u).ktWchan = some (.on (.pWait q)) := by
    by_cases hut : u = t
    · subst hut; simpa [Kernel.dying] using hu
    · simpa [Kernel.dying, hut] using hu
  rw [Awaits, dying_proc.1] at ha
  rw [dying_pState hne]
  exact hw u q hu' c ha

theorem HandsDead.of_dying (h : Tree k)
    (hh : (k.dying t status).HandsDead (k.procOf t)) : k.HandsDead (k.procOf t) := by
  unfold HandsDead at hh ⊢
  have hi : (k.dying t status).procInitproc = k.procInitproc := rfl
  rw [hi] at hh
  split at hh
  · obtain ⟨h₁, h₂, ⟨c, hc, hd⟩, hu⟩ := hh
    rw [dying_proc.2.2] at h₁
    rw [dying_proc.2.1] at h₂
    rw [dying_proc.1] at hc
    have hne : c ≠ k.procOf t := by
      rintro rfl
      exact h.irrefl _ hc
    rw [dying_pState hne] at hd
    exact ⟨h₁, h₂, ⟨c, hc, hd⟩, hu⟩
  · exact hh

theorem Inv.awake (h : Inv k) {q : Pid} {sc : Sched Pq}
    (he : k.sched.schedWakeupOn (.on (.pWait q)) = .ok (r, sc)) (u : Tid) :
    (sc.kthread u).ktWchan ≠ some (.on (.pWait q)) := by
  intro hu
  rcases Sched.schedWakeupOn_eq_ok.mp he with ⟨hq, _, rfl⟩ | ⟨l, v, hq, _, _, rfl⟩
  · have := (h.linked.wchan u _).mp hu
    rw [hq] at this
    cases this
  · have huv : u ≠ v := by
      rintro rfl
      simp at hu
    have hu' : (k.sched.kthread u).ktWchan = some (.on (.pWait q)) := by simpa [huv] using hu
    have hv : (k.sched.kthread v).ktWchan = some (.on (.pWait q)) :=
      (h.linked.wchan v _).mpr (by rw [hq]; simp)
    obtain ⟨hum, _, _, hup, _⟩ := h.queued u _ hu'
    obtain ⟨hvm, _, _, hvp, _⟩ := h.queued v _ hv
    exact huv (h.single q u (hup ▸ hum) v (hvp ▸ hvm))

theorem wakeup_sleeper {p : Pid} {sc : Sched Pq}
    (he : k.sched.schedWakeupOn q = .ok (r, sc)) :
    ((sc.kthread u).ktWchan = some (.on (.pWait p)) →
      (k.sched.kthread u).ktWchan = some (.on (.pWait p))) ∧ sc.pState = k.sched.pState := by
  rcases Sched.schedWakeupOn_eq_ok.mp he with ⟨_, _, rfl⟩ | ⟨l, v, _, _, _, rfl⟩
  · exact ⟨id, rfl⟩
  · refine ⟨fun hu ↦ ?_, by simp⟩
    have huv : u ≠ v := by
      rintro rfl
      simp at hu
    simpa [huv] using hu

theorem WatchedBut.wakeParent (hb : WatchedBut any k p) (h : Inv k) {pp : Pid}
    (hpp : (k.proc p).pPproc = some pp) {sc : Sched Pq}
    (he : k.sched.schedWakeupOn (.on (.pWait pp)) = .ok (r, sc)) : Watched any (k.withSched sc) := by
  intro u q hu c ha
  obtain ⟨hsl, hst⟩ := wakeup_sleeper he
  have hu' := hsl hu
  have hne : c ≠ p := by
    rintro rfl
    obtain rfl : q = pp :=
      Option.some.inj ((h.child q c (h.child_of_awaits hu' ha)).1.symm.trans hpp)
    exact h.awake he u hu
  have hps : (k.withSched sc).pState c = k.pState c := congrFun hst c
  rw [hps]
  exact hb u q hu' c ha hne

theorem mem_reparent {i q : Pid} (hpi : (k.proc p).pPid ≠ PID_INIT → p ≠ i)
    (hc : c ∈ ((k.reparent p i).proc q).pChildren) : c ∈ (k.proc q).pChildren ∨
      (k.proc p).pPid ≠ PID_INIT ∧ q = i ∧ c ∈ (k.proc p).pChildren := by
  unfold reparent at hc
  split at hc
  · next hne =>
    rw [handOver_foldl (hpi hne), foldl_erase_self] at hc
    simp only at hc
    split at hc
    · cases hc
    · split at hc
      · next hqi =>
        rcases List.mem_append.mp hc with hc | hc
        · exact .inl (hqi ▸ hc)
        · exact .inr ⟨hne, hqi, hc⟩
      · exact .inl hc
  · exact .inl hc

theorem Watched.cleanupClose (hw : Watched any k) (h : Inv k) (ht : k.sched.curthr = some t)
    (he : k.cleanupClose t next = .ok k') : Watched any k' := by
  cases next with
  | no =>
    cases he
    exact Watched.switch (hw.setPc (h.cur t ht).1)
  | inClose q => exact hw.sleepAt (by simp) he
  | inVput q => cases he

/-- **The rest of `proc_cleanup`.**  When the process of the running thread has been
marked, waking its parent and handing its children over leaves everybody watched,
unless a dead child goes to an init that sleeps. -/
theorem WatchedBut.cleanupWake (hb : WatchedBut any k (k.procOf t)) (h : Inv k)
    (ht : k.sched.curthr = some t) (hpc : ∀ c, k.pc t ≠ .waitPid c)
    (hh : any → ¬ k.HandsDead (k.procOf t)) (he : k.cleanupWake t next = .ok k') :
    Watched any k' := by
  obtain ⟨i, pp, r, sc, hi, hpp, hsc, hinv, ht', he⟩ := h.cleanupWake_cases ht hpc he
  have hw := hb.wakeParent h hpp hsc
  refine Watched.cleanupClose ?_ hinv ht' he
  obtain ⟨hfs, hfp, _⟩ := reparent_frame (k.withSched sc)
  have hpi : ((k.withSched sc).proc (k.procOf t)).pPid ≠ PID_INIT → k.procOf t ≠ i := by
    rintro hne rfl
    exact hne (h.init _ hi).2.1
  intro u q hu c ha
  rw [hfs] at hu
  rw [Awaits, hfp] at ha
  rw [pState, hfs]
  rcases ha with ⟨h₀, ha, hc⟩ | ha
  · rcases mem_reparent hpi hc with hcq | ⟨hne, rfl, hcp⟩
    · exact hw u q hu c (.inl ⟨h₀, ha, hcq⟩)
    · -- `c` is a child that init is given while it sleeps
      intro hd
      obtain ⟨hsl, hst⟩ := wakeup_sleeper hsc
      refine hh h₀ ?_
      rw [HandsDead, hi]
      refine ⟨hne, ?_, ⟨c, hcp, (congrFun hst c).symm.trans hd⟩, u,
        (h.linked.wchan u _).mp (hsl hu), ha⟩
      rw [hpp]
      rintro ⟨⟩
      exact h.awake hsc u hu
  · exact hw u q hu c (.inr ha)

theorem Watched.doExit (hw : Watched any k) (h : Inv k) (ht : k.sched.curthr = some t)
    (hpc : k.pc t = .code)
    (hl : k.CleanupLoses (k.procOf t) next → ¬ any ∧ next.pastVput = true)
    (he : k.doExit t status next = .ok k') : Watched any k' := by
  rw [h.doExit_eq ht] at he
  obtain ⟨_, he⟩ := kthreadExit_eq_ok.mp he
  have hi := h.dying ht status
  have hpc' : ∀ c, (k.dying t status).pc t ≠ .waitPid c := fun c hc ↦
    absurd (hpc.symm.trans hc) (by simp)
  have hp : (k.dying t status).procOf t = k.procOf t := by simp [Kernel.dying]
  have hb : WatchedBut any (k.dying t status) ((k.dying t status).procOf t) := hp ▸ hw.dying
  have hh : (k.HandsDead (k.procOf t) → ¬ any) →
      any → ¬ (k.dying t status).HandsDead ((k.dying t status).procOf t) :=
    fun hl h₀ hh ↦ hl (.of_dying h.toTree (hp ▸ hh)) h₀
  cases next with
  | inVput q =>
    have hd : Watched any (k.dying t status) := by
      have hp : ¬ k.ParentWaits (k.procOf t) := fun hp ↦ Bool.false_ne_true (hl hp).2
      have h₁ := (hw.mark h hp).modifyThread (t := t)
        (f := fun u ↦ { u with ktRetval := status, ktState := .exited }) fun _ ↦ rfl
      refine h₁.table rfl rfl fun q c hc ↦ ?_
      rw [dying_proc.1] at hc
      exact hc
    exact hd.sleepAt (by simp) he
  | inClose q => exact hb.cleanupWake hi ht hpc' (hh fun hx ↦ (hl hx).1) he
  | no => exact hb.cleanupWake hi ht hpc' (hh fun hx ↦ (hl hx).1) he

/-! ## Steps -/

theorem losesWakeup_iff (ht : k.sched.curthr = some t) : k.LosesWakeup e ↔ k.LosesWakeupBy t e := by
  simp only [LosesWakeup, ht]

section

variable (hw : Watched any k) (h : Inv k)
include hw h

theorem Watched.afterLook (ht : k.sched.curthr = some t) {l : Look}
    (hl : Look.Fits k (k.procOf t) l) (he : k.afterLook t l = .ok k') : Watched any k' := by
  have hcw := (h.cur t ht).1
  cases l with
  | echild =>
    cases he
    exact (hw.setPc hcw).table rfl rfl fun _ _ ↦ id
  | reap c =>
    obtain ⟨_, rfl⟩ := reap_eq_ok.mp he
    refine (hw.setPc hcw).table rfl rfl fun q d hd ↦ ?_
    rw [dispose_children] at hd
    split at hd
    · next hq => exact hq ▸ List.mem_of_mem_erase hd
    · exact hd
  | sleep c =>
    refine hw.sleepAt ?_ he
    rintro p ⟨⟩ d hd
    cases c with
    | waitAny => exact hl d (by simpa [Awaits] using hd : any ∧ d ∈ _).2
    | waitPid c =>
      obtain rfl : c = d := by simpa [Awaits] using hd
      exact hl.2
    | _ => exact hl.elim

theorem Watched.interrupted (hp : ¬ k.ParentWaits (k.procOf t)) :
    Watched any (k.withSched (k.sched.interrupted t)) :=
  (hw.mark h hp).modifyThread (f := fun u ↦ { u with ktState := .exited }) fun _ ↦ rfl

theorem Watched.cancellableSleep (ht : k.sched.curthr = some t)
    {q : Nat} (hl : ¬ k.LosesWakeup (.cancellableSleepOn q))
    (he : k.cancellableSleep t q = .ok k') : Watched any k' := by
  rw [losesWakeup_iff ht] at hl
  obtain ⟨⟨r, sc⟩, hsc, he⟩ := bind_ok he
  cases he
  unfold Sched.schedCancellableSleepOn at hsc
  split at hsc
  · next hcan =>
    cases hsc
    refine (hw.interrupted h fun hp ↦ hl ⟨hcan, hp⟩).setPc ?_
    simpa using (h.cur t ht).1
  · simp only [Sched.ktqueueEnqueue, bind_eq_ok, demand_eq_ok, Except.ok.injEq] at hsc
    obtain ⟨_, ⟨_, _, rfl⟩, hsc⟩ := hsc
    cases hsc
    exact hw.enqueue (by simp)

theorem Watched.resume (ht : k.sched.curthr = some t)
    (hl : ¬ k.LosesWakeup (.resume next)) (he : k.resume t next = .ok k') : Watched any k' := by
  have hcw := (h.cur t ht).1
  rw [losesWakeup_iff ht] at hl
  unfold Kernel.resume at he
  split at he
  · cases he
    exact hw.setPc hcw
  · next hpc =>
    cases he
    rw [LosesWakeupBy, hpc] at hl
    unfold Sched.schedCancellableWake
    split
    · next hcan =>
      refine (hw.interrupted h fun hp ↦ hl ⟨hcan, hp⟩).setPc ?_
      simpa using hcw
    · exact hw.setPc hcw
  · exact hw.afterLook h ht (k.lookAny_fits _) he
  · next c hpc =>
    exact hw.afterLook h ht (lookPid_fits (h.waits t (h.cur t ht).2.1 c hpc)) he
  · next hpc =>
    rw [LosesWakeupBy, hpc] at hl
    have hpc' : ∀ c, k.pc t ≠ .waitPid c := by simp [hpc]
    cases next with
    | inVput q => exact hw.sleepAt (by simp) he
    | inClose q => exact hw.but.cleanupWake h ht hpc' (fun _ hh ↦ hl ⟨rfl, hh⟩) he
    | no => exact hw.but.cleanupWake h ht hpc' (fun _ hh ↦ hl ⟨rfl, hh⟩) he
  · exact hw.cleanupClose h ht he
  · cases he

/-- A step that loses no wakeup, or only one of a thread that does not count. -/
theorem Watched.act {procMaxCount : Nat}
    (hl : k.LosesWakeup e → ¬ any ∧ ∃ s next, e = .exit s next ∧ next.pastVput = true)
    (he : k.act procMaxCount e = .ok k') : Watched any k' := by
  have hother : (∀ s next, e ≠ .exit s next) → ¬ k.LosesWakeup e := by
    intro hne hx
    obtain ⟨_, s, next, hs, _⟩ := hl hx
    exact hne s next hs
  cases act_ok he with
  | procCreate ht => exact hw.addProc h (h.thread _ _ (h.cur _ ht).2.1).1
  | kthreadCreate => exact hw.addThread
  | @makeRunnable t =>
    refine hw.update t rfl rfl (fun u hu ↦ by simp [readied, hu]) ?_
    intro p hp
    simp [readied] at hp
  | exit ht hpc he =>
    rw [losesWakeup_iff ht] at hl
    refine hw.doExit h ht hpc (fun hx ↦ ?_) he
    obtain ⟨h₀, s, next, hs, hn⟩ := hl hx
    cases hs
    exact ⟨h₀, hn⟩
  | @kill t p _ _ _ ht hpc he =>
    have hl := hother (by simp)
    rw [losesWakeup_iff ht] at hl
    unfold Kernel.procKill at he
    split at he
    · next hp => exact hw.doExit h ht hpc (fun hh ↦ absurd ⟨hp, hp ▸ hh⟩ hl) he
    · obtain ⟨_, _, he⟩ := bind_ok he
      obtain ⟨k₁, h₁, he⟩ := bind_ok he
      cases he
      refine (Watched.cancels.cancelAll hw h₁).table rfl rfl fun q c hc ↦ ?_
      by_cases hq : q = p
      · subst hq; simpa using hc
      · simpa [hq] using hc
  | @waitpid t pid _ ht _ he => exact hw.afterLook h ht (k.look_fits _ pid) he
  | yield => exact hw.enqueue (by simp)
  | sleepOn _ _ he => exact hw.sleepAt (by simp) he
  | cancellableSleepOn ht _ he => exact hw.cancellableSleep h ht (hother (by simp)) he
  | wakeup hsc => exact Watched.cancels.wakeup hw hsc
  | broadcast hsc => exact Watched.cancels.broadcast hw hsc
  | cancel hsc => exact Watched.cancels.cancel hw hsc
  | resume ht he => exact hw.resume h ht (hother (by simp)) he
  | dispatch => exact hw.switch

theorem Watched.step {procMaxCount : Nat}
    (hl : k.LosesWakeup e → ¬ any ∧ ∃ s next, e = .exit s next ∧ next.pastVput = true)
    (he : k.step procMaxCount e = .ok k') : Watched any k' :=
  Watched.act (k := { k with ret := none }) (hw.table rfl rfl fun _ _ ↦ id) h.resetRet hl he

end

/-- **No wakeup is lost, but in three ways.**  In every run in which

* no process blocks in the `vput` of `proc_cleanup` while its parent waits for it,
* no process hands a dead child to init while init sleeps in `do_waitpid(-1, ..)`, unless
  init is its parent, and
* no cancelled thread is told `-EINTR` by `sched_cancellable_sleep_on` while the parent of
  its process waits for that process,

nobody sleeps in `do_waitpid` next to a dead child. -/
theorem noLost_of_noLosesWakeup (procMaxCount : Nat) {hist : List ProcEv}
    (hr : Run (restrict (ofStep (step procMaxCount)) fun k e ↦ ¬ k.LosesWakeup e) boot hist k) :
    NoLost k := by
  obtain ⟨h, hw⟩ : Inv k ∧ Watched True k := by
    refine hr.invariant (I := fun k ↦ Inv k ∧ Watched True k) ?_ ⟨Inv.boot, Watched.boot⟩
    rintro k₁ e k₂ ⟨h₁, hw₁⟩ ⟨hl, he⟩
    exact ⟨h₁.step he, hw₁.step h₁ (fun hx ↦ absurd hx hl) he⟩
  exact hw.noLost h.linked

/-- As in `orphanRun`, but process `2` exits before `3` does: its parent is init, which
is woken first and finds a zombie. -/
def tendedRun : List ProcEv :=
  [.procCreate, .kthreadCreate 1, .makeRunnable 1, .waitpid (-1), .resume .no,
    .procCreate, .kthreadCreate 2, .makeRunnable 2, .waitpid (-1), .resume .no,
    .procCreate, .kthreadCreate 3, .makeRunnable 3, .yield, .resume .no,
    .exit 0 .no, .resume .no, .exit 0 .no, .resume .no]

/-- The theorem at a run in which a dead child is handed to init: init is awake and
reaps. -/
theorem noLost_tendedRun :
    ∃ k h, Run (restrict (ofStep (step 65536)) fun k e ↦ ¬ k.LosesWakeup e) boot h k ∧
      (k.proc 1).pChildren = [3] ∧ k.pState 3 = .dead ∧ k.sched.curthr = some 1 ∧ NoLost k := by
  have h : check (guarded .disabled (step 65536) fun k e ↦ ¬ k.LosesWakeup e) boot tendedRun
      (fun k ↦ (k.proc 1).pChildren = [3] ∧ k.pState 3 = .dead ∧ k.sched.curthr = some 1) =
      true := by
    decide +kernel
  obtain ⟨k, hk, hp⟩ := exists_of_check h
  obtain ⟨hc, hd, hcur⟩ := of_decide_eq_true hp
  have hr := Run.of_exec_guarded hk
  exact ⟨k, _, hr, hc, hd, hcur, noLost_of_noLosesWakeup _ hr⟩

end Kernel

end CS402.Proc

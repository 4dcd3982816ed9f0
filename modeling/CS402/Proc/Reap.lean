import CS402.Proc.Dead
import CS402.Proc.Family

/-!
# Every exit is reaped at most once

The kernel keeps no history, so the system is run with a record: which process called
`do_exit` with which status, which calls of `do_waitpid` disposed of which child, and the
argument of the `do_waitpid` that a thread is in.

* `Ledger` relates the two lists to the process tree.  It is kept by every operation on
  the tree (`Ledger.apply`), so by every call (`Uncancelled.act_forest`).
* `Asks` says what a thread that sleeps in `do_waitpid` was asked for.
* Runs in which nobody blocks in `proc_cleanup` are calm, and nobody sleeps in
  `do_waitpid(pid, ..)` next to the dead child (`Uncancelled.calm`).

`reaped_of_run` puts them together.
-/

namespace CS402.Proc

open CS402.Lib

/-- A call of `do_waitpid` that returned a child. -/
structure Reaped where
  parent : Pid
  child : Pid
  pid : Int
  status : Int
deriving DecidableEq, Repr

/-! ## The lists and the tree -/

theorem Forest.handOver_links (f : Forest) (p : Pid) : ∃ ch pa,
    f.handOver p = { f with children := ch, parent := pa } := by
  unfold Forest.handOver
  split
  · split
    · exact ⟨_, _, rfl⟩
    · exact ⟨_, _, rfl⟩
  · exact ⟨_, _, rfl⟩

/-- What the list of exits and the list of reaped children have to do with the tree. -/
structure Ledger (f : Forest) (exits : List (Pid × Int)) (reaps : List Reaped) : Prop where
  /-- Nobody exits twice. -/
  single : (exits.map Prod.fst).Nodup
  marked : ∀ x ∈ exits, x.1 < f.fresh ∧ f.state x.1 = .dead ∧ f.status x.1 = x.2
  dead : ∀ p < f.fresh, f.state p = .dead → (p, f.status p) ∈ exits
  /-- Nobody is reaped twice. -/
  once : (reaps.map Reaped.child).Nodup
  gone : ∀ x ∈ reaps, x.child < f.fresh ∧ x.child ∉ f.list
  stored : ∀ x ∈ reaps, (x.child, x.status) ∈ exits

/-- The exits after an operation. -/
def ForestOp.exits (exits : List (Pid × Int)) : ForestOp → List (Pid × Int)
  | .exit p s _ => (p, s) :: exits
  | _ => exits

/-- The reaped children after an operation on `f`. -/
def ForestOp.reaps (f : Forest) (reaps : List Reaped) : ForestOp → List Reaped
  | .reap p c => ⟨p, c, f.pid c, f.status c⟩ :: reaps
  | _ => reaps

namespace Ledger

variable {f : Forest} {exits : List (Pid × Int)} {reaps : List Reaped} {p c : Pid} {s : Int}

section

variable (h : Ledger f exits reaps)
include h

theorem congr {f' : Forest} (hfresh : f'.fresh = f.fresh)
    (hstate : f'.state = f.state) (hstatus : f'.status = f.status) (hlist : f'.list = f.list) :
    Ledger f' exits reaps where
  single := h.single
  marked x hx := by
    rw [hfresh, hstate, hstatus]
    exact h.marked x hx
  dead p hp hd := by
    rw [hfresh] at hp
    rw [hstate] at hd
    rw [hstatus]
    exact h.dead p hp hd
  once := h.once
  gone x hx := by
    rw [hfresh, hlist]
    exact h.gone x hx
  stored := h.stored

theorem create {pid : Int} : Ledger (f.create p pid) exits reaps where
  single := h.single
  marked x hx := by
    obtain ⟨hlt, hd, hs⟩ := h.marked x hx
    have hne : x.1 ≠ f.fresh := Nat.ne_of_lt hlt
    exact ⟨Nat.lt_succ_of_lt hlt, (if_neg hne).trans hd, (if_neg hne).trans hs⟩
  dead q hq hd := by
    rcases eq_or_ne q f.fresh with rfl | hne
    · simp [Forest.create] at hd
    · have hlt : q < f.fresh := Nat.lt_of_le_of_ne (Nat.lt_succ_iff.mp hq) hne
      have := h.dead q hlt ((if_neg hne).symm.trans hd)
      simpa [Forest.create, hne] using this
  once := h.once
  gone x hx := by
    obtain ⟨hlt, hl⟩ := h.gone x hx
    refine ⟨Nat.lt_succ_of_lt hlt, ?_⟩
    simp only [Forest.create, List.mem_append, List.mem_singleton, not_or]
    exact ⟨hl, Nat.ne_of_lt hlt⟩
  stored := h.stored

theorem mark (hp : p < f.fresh) (hd : f.state p ≠ .dead) :
    Ledger (f.mark p s) ((p, s) :: exits) reaps where
  single := by
    refine List.nodup_cons.mpr ⟨fun hm ↦ ?_, h.single⟩
    obtain ⟨x, hx, rfl⟩ := List.mem_map.mp hm
    exact hd (h.marked x hx).2.1
  marked x hx := by
    rcases List.mem_cons.mp hx with rfl | hx
    · exact ⟨hp, if_pos rfl, if_pos rfl⟩
    · obtain ⟨h₁, h₂, h₃⟩ := h.marked x hx
      have hne : x.1 ≠ p := by
        rintro rfl
        exact hd h₂
      exact ⟨h₁, (if_neg hne).trans h₂, (if_neg hne).trans h₃⟩
  dead q hq hqd := by
    rcases eq_or_ne q p with rfl | hne
    · simp [Forest.mark]
    · have hqd' : f.state q = .dead := (if_neg hne).symm.trans hqd
      simpa [Forest.mark, hne] using h.dead q hq hqd'
  once := h.once
  gone := h.gone
  stored x hx := List.mem_cons_of_mem _ (h.stored x hx)

theorem handOver : Ledger ((f.handOver p).clear p) exits reaps := by
  obtain ⟨ch, pa, he⟩ := f.handOver_links p
  rw [he]
  exact h.congr rfl rfl rfl rfl

theorem reap (hnd : f.list.Nodup) (hc : c ∈ f.list)
    (hlt : c < f.fresh) (hd : f.state c = .dead) :
    Ledger (f.reap p c) exits (⟨p, c, f.pid c, f.status c⟩ :: reaps) where
  single := h.single
  marked := h.marked
  dead := h.dead
  once := by
    refine List.nodup_cons.mpr ⟨fun hm ↦ ?_, h.once⟩
    obtain ⟨x, hx, rfl⟩ := List.mem_map.mp hm
    exact (h.gone x hx).2 hc
  gone x hx := by
    rcases List.mem_cons.mp hx with rfl | hx
    · exact ⟨hlt, hnd.not_mem_erase⟩
    · obtain ⟨h₁, h₂⟩ := h.gone x hx
      exact ⟨h₁, fun hm ↦ h₂ (List.mem_of_mem_erase hm)⟩
  stored x hx := by
    rcases List.mem_cons.mp hx with rfl | hx
    · exact h.dead c hlt hd
    · exact h.stored x hx

end

end Ledger

/-- The points at which a thread sleeps in `do_waitpid`. -/
def Pc.InWait : Pc → Prop
  | .waitAny | .waitPid _ => True
  | _ => False

variable {arg : Int} {l : Look}

namespace Kernel

variable {k k' : Kernel} {t u : Tid} {p c : Pid} {e : ProcEv} {op : ForestOp}
variable {exits : List (Pid × Int)} {reaps : List Reaped} {next : Blocks} {q : Wq Pq} {status : Int}
  {sc : Sched Pq}

/-- **One operation** and what is written down about it. -/
theorem Does.ledger (h : Inv k) (hd : Does k e k' op) (hl : Ledger k.forest exits reaps) :
    Ledger (k.forest.apply op) (op.exits exits) (op.reaps k.forest reaps) := by
  cases op with
  | none => exact hl
  | create p pid => exact hl.create
  | exit p s hands =>
    obtain ⟨_, hp, hm, _⟩ := hd
    have hmark := hl.mark (s := s) (h.bound p hm) hp
    cases hands with
    | false => exact hmark
    | true => exact hmark.handOver
  | hand p => exact hl.handOver
  | reap p c =>
    obtain ⟨_, _, hc, hdead, _⟩ := hd
    have hm := (h.child p c hc).2
    exact hl.reap h.list hm (h.bound c hm) hdead

/-! ## Looking at the children -/

/-- The call `e` of the thread `t` looks at the children, with this outcome. -/
def Looks (k : Kernel) (t : Tid) : ProcEv → Look → Prop
  | .waitpid pid, l => l = k.look (k.procOf t) pid
  | .resume _, l => (k.pc t = .waitAny ∧ l = k.lookAny (k.procOf t)) ∨
      ∃ c, k.pc t = .waitPid c ∧ l = k.lookPid c
  | _, _ => False

/-- A step has nothing to do with `do_waitpid`. -/
def Apart (k k' : Kernel) : Prop :=
  k'.ret = k.ret ∧ ∀ u, k'.pc u = k.pc u ∨ ¬ (k'.pc u).InWait

theorem Apart.setPc {d : Pc} (hpc : k'.pc = Function.update k.pc t d) (hc : ¬ d.InWait)
    (hr : k'.ret = k.ret) : Apart k k' := by
  refine ⟨hr, fun u ↦ ?_⟩
  rw [hpc]
  rcases eq_or_ne u t with rfl | hut
  · simpa using .inr hc
  · simp [hut]

theorem Apart.cleanupVput (he : k.cleanupVput t next = .ok k') : Apart k k' := by
  obtain ⟨c', hs, hc', _⟩ := Shifts.cleanupVput he
  refine .setPc hs.pc ?_ hs.ret
  rcases hc' with rfl | rfl | rfl <;> exact id

theorem Apart.cleanupClose (he : k.cleanupClose t next = .ok k') : Apart k k' := by
  obtain ⟨c', hs, hc'⟩ := Shifts.cleanupClose he
  refine .setPc hs.pc ?_ hs.ret
  rcases hc' with rfl | rfl <;> exact id

theorem Apart.sleepAt {c' : Pc} (hc : ¬ c'.InWait) (he : k.sleepAt q t c' = .ok k') :
    Apart k k' :=
  .setPc (Shifts.sleepAt he).1.pc hc (Shifts.sleepAt he).1.ret

theorem Apart.doExit (he : k.doExit t status next = .ok k') : Apart k k' := by
  obtain ⟨k₁, h₁, he⟩ := bind_ok he
  obtain ⟨sc, _, h₁⟩ := bind_ok h₁
  cases h₁
  obtain ⟨_, he⟩ := kthreadExit_eq_ok.mp he
  obtain ⟨hr, hpc⟩ := Apart.cleanupVput he
  exact ⟨hr, hpc⟩

/-- A step looks at the children, or it has nothing to do with `do_waitpid`. -/
theorem act_looks {procMaxCount : Nat} (hp : Plain e) (he : k.act procMaxCount e = .ok k') :
    (∃ t l, k.sched.curthr = some t ∧ k.Looks t e l ∧ k.afterLook t l = .ok k') ∨
      Apart k k' ∧ ∀ pid, e ≠ .waitpid pid := by
  cases act_ok he with
  | procCreate => exact .inr ⟨⟨rfl, fun _ ↦ .inl rfl⟩, by simp⟩
  | kthreadCreate => exact .inr ⟨.setPc rfl id rfl, by simp⟩
  | makeRunnable => exact .inr ⟨.setPc rfl id rfl, by simp⟩
  | exit _ _ he => exact .inr ⟨.doExit he, by simp⟩
  | kill => exact hp.elim
  | waitpid ht _ he => exact .inl ⟨_, _, ht, rfl, he⟩
  | yield => exact .inr ⟨.setPc rfl id rfl, by simp⟩
  | sleepOn _ _ he => exact .inr ⟨.sleepAt id he, by simp⟩
  | cancellableSleepOn => exact hp.elim
  | wakeup => exact .inr ⟨⟨rfl, fun _ ↦ .inl rfl⟩, by simp⟩
  | broadcast => exact .inr ⟨⟨rfl, fun _ ↦ .inl rfl⟩, by simp⟩
  | cancel => exact hp.elim
  | @resume t next _ ht he =>
    unfold Kernel.resume at he
    split at he
    · cases he
      exact .inr ⟨.setPc rfl id rfl, by simp⟩
    · cases he
      exact .inr ⟨.setPc rfl id rfl, by simp⟩
    · next hpc => exact .inl ⟨t, _, ht, .inl ⟨hpc, rfl⟩, he⟩
    · next c hpc => exact .inl ⟨t, _, ht, .inr ⟨c, hpc, rfl⟩, he⟩
    · exact .inr ⟨.cleanupVput he, by simp⟩
    · exact .inr ⟨.cleanupClose he, by simp⟩
    · cases he
  | dispatch => exact .inr ⟨⟨rfl, fun _ ↦ .inl rfl⟩, by simp⟩

/-! ## What `do_waitpid` is asked for -/

/-- The thread `t` is not asleep in `do_waitpid`, or in one that was called with `arg`. -/
def Asks (k : Kernel) (t : Tid) (arg : Int) : Prop :=
  (k.pc t = .waitAny → arg = -1) ∧
    ∀ c, k.pc t = .waitPid c → arg ≠ -1 ∧ c < k.nproc ∧ (k.proc c).pPid = arg

theorem pid_apply (op : ForestOp) (f : Forest) {q : Pid} (hq : q < f.fresh) :
    (f.apply op).pid q = f.pid q ∧ q < (f.apply op).fresh := by
  cases op with
  | none => exact ⟨rfl, hq⟩
  | create p pid => exact ⟨if_neg (Nat.ne_of_lt hq), Nat.lt_succ_of_lt hq⟩
  | exit p s hands =>
    cases hands with
    | false => exact ⟨rfl, hq⟩
    | true =>
      obtain ⟨ch, pa, he⟩ := (f.mark p s).handOver_links p
      simp only [Forest.apply, if_true, he]
      exact ⟨rfl, hq⟩
  | hand p =>
    obtain ⟨ch, pa, he⟩ := f.handOver_links p
    simp only [Forest.apply, he]
    exact ⟨rfl, hq⟩
  | reap p c => exact ⟨rfl, hq⟩

/-- What a look at the children of `p` for `arg` finds. -/
def Look.Answers (k : Kernel) (p : Pid) (arg : Int) : Look → Prop
  | .echild => (arg = -1 → (k.proc p).pChildren = []) ∧
      (0 < arg → ∀ c ∈ (k.proc p).pChildren, (k.proc c).pPid ≠ arg)
  | .reap c => c ∈ (k.proc p).pChildren ∧ k.pState c = .dead ∧
      (arg ≠ -1 → (k.proc c).pPid = arg)
  | .sleep .waitAny => arg = -1 ∧ (k.proc p).pChildren ≠ [] ∧
      ∀ c ∈ (k.proc p).pChildren, k.pState c ≠ .dead
  | .sleep (.waitPid c) => arg ≠ -1 ∧ c ∈ (k.proc p).pChildren ∧ (k.proc c).pPid = arg ∧
      k.pState c ≠ .dead
  | .sleep _ => False

theorem lookAny_answers (k : Kernel) (p : Pid) : (k.lookAny p).Answers k p (-1) := by
  unfold lookAny
  split
  · next hnil => exact ⟨fun _ ↦ hnil, fun h ↦ absurd h (by decide)⟩
  · next hne =>
    rcases hf : (k.proc p).pChildren.find? fun c ↦ decide (k.pState c = .dead) with _ | c
    · refine ⟨rfl, hne, fun c hc hd ↦ ?_⟩
      exact List.find?_eq_none.mp hf c hc (decide_eq_true hd)
    · have hd := List.find?_some hf
      exact ⟨List.mem_of_find?_eq_some hf, of_decide_eq_true hd, fun h ↦ absurd rfl h⟩

theorem lookPid_answers (ha : arg ≠ -1) (hc : c ∈ (k.proc p).pChildren)
    (hp : (k.proc c).pPid = arg) : (k.lookPid c).Answers k p arg := by
  rcases k.lookPid_cases c with ⟨h, hd⟩ | ⟨h, hd⟩ <;> rw [h]
  · exact ⟨hc, hd, fun _ ↦ hp⟩
  · exact ⟨ha, hc, hp, hd⟩

theorem look_answers (k : Kernel) (p : Pid) (arg : Int) : (k.look p arg).Answers k p arg := by
  unfold look
  split
  · next h =>
    rcases h with h | h
    · exact ⟨fun hx ↦ by omega, fun hx ↦ by omega⟩
    · exact ⟨fun _ ↦ h, fun _ c hc ↦ by rw [h] at hc; cases hc⟩
  · split
    · next h => exact h ▸ k.lookAny_answers p
    · next hne =>
      split
      · next c hf =>
        have hp := List.find?_some hf
        exact lookPid_answers hne (List.mem_of_find?_eq_some hf) (of_decide_eq_true hp)
      · next hf =>
        refine ⟨fun h ↦ absurd h hne, fun _ c hc hp ↦ ?_⟩
        exact List.find?_eq_none.mp hf c hc (decide_eq_true hp)

/-- The argument of the call `e`, or of the call that the thread is in. -/
def argument (asked : Tid → Int) (t : Tid) : ProcEv → Int
  | .waitpid pid => pid
  | _ => asked t

theorem Asks.keep (h : k.Asks t arg) (hpc : k'.pc t = k.pc t)
    (hf : k'.forest = k.forest.apply op) : k'.Asks t arg := by
  refine ⟨fun ha ↦ h.1 (hpc.symm.trans ha), fun c hc ↦ ?_⟩
  obtain ⟨hne, hlt, hp⟩ := h.2 c (hpc.symm.trans hc)
  obtain ⟨hpid, hfresh⟩ := pid_apply op k.forest hlt
  rw [← hf] at hpid hfresh
  exact ⟨hne, hfresh, hpid.trans hp⟩

theorem Asks.of_not_inWait (hpc : ¬ (k.pc t).InWait) : k.Asks t arg := by
  refine ⟨fun ha ↦ ?_, fun c hc ↦ ?_⟩
  · exact absurd (by rw [ha]; trivial) hpc
  · exact absurd (by rw [hc]; trivial) hpc

theorem Asks.afterLook (h : Inv k) (hl : l.Answers k (k.procOf t) arg)
    (he : k.afterLook t l = .ok k') : k'.Asks t arg := by
  cases l with
  | echild =>
    cases he
    exact .of_not_inWait (by simp [Pc.InWait])
  | reap c =>
    obtain ⟨_, rfl⟩ := reap_eq_ok.mp he
    exact .of_not_inWait (by simp [Pc.InWait])
  | sleep c =>
    obtain ⟨_, rfl⟩ := sleepAt_eq_ok.mp he
    cases c with
    | waitAny => exact ⟨fun _ ↦ hl.1, fun c hc ↦ by simp at hc⟩
    | waitPid c =>
      refine ⟨fun hc ↦ by simp at hc, fun d hd ↦ ?_⟩
      obtain rfl : c = d := by simpa using hd
      exact ⟨hl.1, h.bound c (h.child _ c hl.2.1).2, hl.2.2.1⟩
    | _ => exact hl.elim

theorem Looks.answers (h : Inv k) {asked : Tid → Int} (ht : k.sched.curthr = some t)
    (ha : k.Asks t (asked t)) (hl : k.Looks t e l) :
    l.Answers k (k.procOf t) (argument asked t e) := by
  cases e with
  | waitpid pid => exact hl ▸ k.look_answers _ pid
  | resume next =>
    show l.Answers k (k.procOf t) (asked t)
    rcases hl with ⟨hpc, rfl⟩ | ⟨c, hpc, rfl⟩
    · exact ha.1 hpc ▸ k.lookAny_answers _
    · obtain ⟨hne, _, hp⟩ := ha.2 c hpc
      exact lookPid_answers hne (h.waits t (h.cur t ht).2.1 c hpc) hp
  | _ => exact hl.elim

/-! ## Nobody blocks in `proc_cleanup` -/

/-- The call does not block in `proc_cleanup`. -/
def Unblocked : ProcEv → Prop
  | .exit _ next | .resume next => next = .no
  | _ => True

instance : DecidablePred Plain
  | .kill .. | .cancel _ | .cancellableSleepOn _ => .isFalse not_false
  | .procCreate | .kthreadCreate _ | .makeRunnable _ | .exit .. | .waitpid _ | .yield | .sleepOn _
  | .wakeup _ | .broadcast _ | .resume _ | .dispatch => .isTrue trivial

instance : DecidablePred Unblocked
  | .exit _ next => inferInstanceAs (Decidable (next = .no))
  | .resume next => inferInstanceAs (Decidable (next = .no))
  | .kill .. | .cancel _ | .cancellableSleepOn _ | .procCreate | .kthreadCreate _
  | .makeRunnable _ | .waitpid _ | .yield | .sleepOn _ | .wakeup _ | .broadcast _
  | .dispatch => .isTrue trivial

section

variable {procMaxCount : Nat} (h : Uncancelled k) (hp : Plain e) (hb : Unblocked e)
include h hp hb

theorem Uncancelled.not_blocksDead (he : k.act procMaxCount e = .ok k') : ¬ k.BlocksDead e := by
  have hlive : ∀ t, k.sched.curthr = some t → k.pc t = .code → ¬ k.CurDead := by
    intro t ht hc hd
    exact h.alive ht (by simp [hc]) ((curDead_iff ht).mp hd)
  cases act_ok he with
  | exit => exact fun hn ↦ hn hb
  | kill => exact hp.elim
  | waitpid ht hc => exact fun hw ↦ hlive _ ht hc hw.1
  | yield ht hc => exact hlive _ ht hc
  | sleepOn ht hc => exact hlive _ ht hc
  | _ => exact id

theorem Uncancelled.losesWakeup (hc : Calm k) (hl : k.LosesWakeup e) :
    ∃ s next, e = .exit s next ∧ next.pastVput = true := by
  unfold LosesWakeup at hl
  split at hl
  · next t ht =>
    cases e with
    | exit s next => exact ⟨s, next, rfl, by rw [hb]; rfl⟩
    | kill => exact hp.elim
    | cancellableSleepOn => exact hp.elim
    | resume next =>
      rw [LosesWakeupBy] at hl
      cases hpc : k.pc t with
      | cancellable => exact absurd hpc (h.plain t)
      | inVput => exact absurd hpc (hc.cleanup t).1
      | _ =>
        rw [hpc] at hl
        exact hl.elim
    | _ => exact hl.elim
  · exact hl.elim

/-- **A call that does not block in `proc_cleanup`**: the threads of a dead process have
exited, and `do_waitpid(pid, ..)` sleeps only while the child is alive. -/
theorem Uncancelled.calm (hc : Calm k) (hw : Watched False k)
    (he : k.act procMaxCount e = .ok k') : Calm k' ∧ Watched False k' :=
  ⟨hc.act h.inv (h.not_blocksDead hp hb he) he,
    hw.act h.inv (fun hl ↦ ⟨not_false, h.losesWakeup hp hb hc hl⟩) he⟩

end

end Kernel

/-! ## The kernel with a record -/

/-- The kernel and what has been written down about the past. -/
structure Record where
  kernel : Kernel
  /-- The processes that called `do_exit`, and with which status. -/
  exits : List (Pid × Int)
  /-- The calls of `do_waitpid` that returned a child. -/
  reaps : List Reaped
  /-- The argument with which a thread called `do_waitpid` last. -/
  asked : Tid → Int

namespace Record

open Kernel

/-- `do_exit` is written down. -/
def noteExit (r : Record) : ProcEv → List (Pid × Int)
  | .exit status _ => (r.kernel.sched.curthr.map fun t ↦ (r.kernel.procOf t, status)).toList ++ r.exits
  | _ => r.exits

/-- The argument of `do_waitpid` is written down. -/
def noteAsked (r : Record) : ProcEv → Tid → Int
  | .waitpid pid => fun t ↦ if r.kernel.sched.curthr = some t then pid else r.asked t
  | _ => r.asked

/-- What `do_waitpid` has returned is written down. -/
def noteReap (r : Record) : Option (Pid × WaitResult) → List Reaped
  | some (p, .reaped c pid status) => ⟨p, c, pid, status⟩ :: r.reaps
  | _ => r.reaps

/-- One step of the kernel, and what is written down about it. -/
def step (procMaxCount : Nat) (r : Record) (e : ProcEv) : Except Fault Record := do
  let k ← r.kernel.step procMaxCount e
  .ok ⟨k, r.noteExit e, r.noteReap k.ret, r.noteAsked e⟩

/-- After the boot. -/
def boot : Record := ⟨Kernel.boot, [], [], fun _ ↦ 0⟩

variable {r r' : Record} {t : Tid} {p c : Pid} {e : ProcEv} {procMaxCount : Nat}

theorem step_eq_ok : r.step procMaxCount e = .ok r' ↔
    ∃ k, r.kernel.step procMaxCount e = .ok k ∧
      ⟨k, r.noteExit e, r.noteReap k.ret, r.noteAsked e⟩ = r' := by
  simp only [step, bind_eq_ok, Except.ok.injEq]

theorem noteAsked_cur (ht : r.kernel.sched.curthr = some t) :
    r.noteAsked e t = argument r.asked t e := by
  cases e with
  | waitpid pid => exact if_pos ht
  | _ => rfl

theorem noteAsked_other (ht : r.kernel.sched.curthr ≠ some t) : r.noteAsked e t = r.asked t := by
  cases e with
  | waitpid pid => exact if_neg ht
  | _ => rfl

/-- What holds in between. -/
structure Inv (r : Record) : Prop where
  kernel : Uncancelled r.kernel
  ledger : Ledger r.kernel.forest r.exits r.reaps
  asks : ∀ t, r.kernel.Asks t (r.asked t)

theorem Inv.boot : Inv boot where
  kernel := .boot
  ledger := by
    refine ⟨List.nodup_nil, by simp [Record.boot], ?_, List.nodup_nil, by simp [Record.boot],
      by simp [Record.boot]⟩
    intro p _ hd
    cases hd
  asks t := by
    refine ⟨fun hpc ↦ ?_, fun c hpc ↦ ?_⟩
    · simp only [Record.boot, Kernel.boot] at hpc
      split at hpc <;> cases hpc
    · simp only [Record.boot, Kernel.boot] at hpc
      split at hpc <;> cases hpc

theorem notes_eq {k : Kernel} {op : ForestOp} (hd : Does r.kernel e k op)
    (hx : ∀ s next, e = .exit s next → ∃ p, op = .exit p s next.pastVput) :
    r.noteExit e = op.exits r.exits ∧ r.noteReap k.ret = op.reaps r.kernel.forest r.reaps := by
  constructor
  · cases op with
    | exit p s hands =>
      obtain ⟨_, _, _, ⟨t, next, ht, _, rfl, rfl, _⟩, _⟩ := hd
      simp [noteExit, ht, ForestOp.exits]
    | _ =>
      cases e with
      | exit s next =>
        obtain ⟨p, hop⟩ := hx s next rfl
        cases hop
      | _ => rfl
  · cases op with
    | reap p c =>
      rw [hd.1]
      rfl
    | none =>
      rcases hd with hr | ⟨t, _, hr⟩ <;> rw [hr] <;> rfl
    | create p pid => rw [hd.1]; rfl
    | exit p s hands => rw [hd.1]; rfl
    | hand p => rw [hd.1]; rfl

/-- **One step** keeps the record in order. -/
theorem Inv.step (h : Inv r) (hp : Plain e) (he : r.step procMaxCount e = .ok r') : Inv r' := by
  obtain ⟨k, hk, rfl⟩ := step_eq_ok.mp he
  obtain ⟨op, hf, hd, hx⟩ := h.kernel.resetRet.act_forest hp rfl hk
  obtain ⟨hex, hre⟩ := notes_eq hd hx
  refine ⟨h.kernel.step hp hk, ?_, fun t ↦ ?_⟩
  · have hl := hd.ledger h.kernel.inv.resetRet h.ledger
    rw [← hf] at hl
    simp only [hex, hre]
    exact hl
  · show k.Asks t (r.noteAsked e t)
    rcases act_looks hp hk with ⟨u, l, hu, hlook, hafter⟩ | ⟨⟨_, hpc⟩, hne⟩
    · have hans := hlook.answers h.kernel.inv.resetRet hu (h.asks u)
      rcases eq_or_ne t u with rfl | htu
      · rw [noteAsked_cur hu]
        exact .afterLook h.kernel.inv.resetRet hans hafter
      · rw [noteAsked_other (fun ht ↦ htu (Option.some.inj (ht.symm.trans hu)))]
        exact (h.asks t).keep ((Moves.afterLook hafter).1 t htu) hf
    · have hask : r.noteAsked e = r.asked := by
        cases e with
        | waitpid pid => exact absurd rfl (hne pid)
        | _ => rfl
      rw [hask]
      rcases hpc t with hpc | hpc
      · exact (h.asks t).keep hpc hf
      · exact .of_not_inWait hpc

/-- What a call of `do_waitpid(arg, ..)` in the process `p` returns. -/
def Result (r : Record) (p : Pid) (arg : Int) : WaitResult → Prop
  | .echild => (arg = -1 → (r.kernel.proc p).pChildren = []) ∧
      (0 < arg → ∀ c ∈ (r.kernel.proc p).pChildren, (r.kernel.proc c).pPid ≠ arg)
  | .reaped c pid status => c ∈ (r.kernel.proc p).pChildren ∧
      (r.kernel.proc c).pPproc = some p ∧ r.kernel.pState c = .dead ∧
      pid = (r.kernel.proc c).pPid ∧ (c, status) ∈ r.exits ∧ (0 < arg → pid = arg)

/-- **Every exit is reaped at most once.** -/
structure Sound (procMaxCount : Nat) (r : Record) : Prop where
  /-- A process exits once, so the status in `stored` is the one it exited with. -/
  single : (r.exits.map Prod.fst).Nodup
  once : (r.reaps.map Reaped.child).Nodup
  stored : ∀ x ∈ r.reaps, (x.child, x.status) ∈ r.exits
  gone : ∀ x ∈ r.reaps, x.child ∉ r.kernel.procList ∧ ∀ p, x.child ∉ (r.kernel.proc p).pChildren
  /-- Whenever `do_waitpid` returns next. -/
  returns : ∀ e r', Plain e → r.step procMaxCount e = .ok r' →
    ∀ p res, r'.kernel.ret = some (p, res) → ∃ t, r.kernel.sched.curthr = some t ∧
      p = r.kernel.procOf t ∧ r.Result p (argument r.asked t e) res

/-- The running thread calls `do_waitpid` or goes on in it. -/
def Enters (r : Record) (t : Tid) : ProcEv → Prop
  | .waitpid _ => r.kernel.pc t = .code ∧ r.kernel.procInitproc ≠ none
  | .resume _ => (r.kernel.pc t).InWait
  | _ => False

/-- There is somebody alive to wait for, and nobody to return. -/
def Pending (r : Record) (p : Pid) (arg : Int) : Prop :=
  (arg = -1 ∧ (r.kernel.proc p).pChildren ≠ [] ∧
      ∀ c ∈ (r.kernel.proc p).pChildren, r.kernel.pState c ≠ .dead) ∨
    (arg ≠ -1 ∧ ∃ c ∈ (r.kernel.proc p).pChildren, (r.kernel.proc c).pPid = arg ∧
      r.kernel.pState c ≠ .dead)

/-- **`do_waitpid` returns**, unless there is somebody alive to wait for. -/
structure Prompt (procMaxCount : Nat) (r : Record) : Prop where
  goesOn : ∀ t e, r.kernel.sched.curthr = some t → r.Enters t e →
    ∃ r', r.step procMaxCount e = .ok r' ∧
      (r'.kernel.ret = none → r.Pending (r.kernel.procOf t) (argument r.asked t e))
  /-- Nobody sleeps in `do_waitpid(pid, ..)` after the child has exited. -/
  asleep : ∀ t c p, r.kernel.pc t = .waitPid c → t ∈ r.kernel.sched.waiters (.on (.pWait p)) →
    c ∈ (r.kernel.proc p).pChildren ∧ (r.kernel.proc c).pPid = r.asked t ∧
      r.kernel.pState c ≠ .dead

theorem Inv.sound (h : Inv r) : Sound procMaxCount r where
  single := h.ledger.single
  once := h.ledger.once
  stored := h.ledger.stored
  gone x hx := by
    have hl := (h.ledger.gone x hx).2
    exact ⟨hl, fun p hp ↦ hl (h.kernel.inv.child p _ hp).2⟩
  returns e r' hp he p res hret := by
    obtain ⟨k, hk, rfl⟩ := step_eq_ok.mp he
    have hi := h.kernel.inv.resetRet
    rcases act_looks hp hk with ⟨t, l, ht, hlook, hafter⟩ | ⟨⟨hr, _⟩, _⟩
    · have hans := hlook.answers hi ht (h.asks t)
      refine ⟨t, ht, ?_⟩
      cases l with
      | echild =>
        cases hafter
        cases hret
        exact ⟨rfl, hans⟩
      | reap c =>
        obtain ⟨_, rfl⟩ := reap_eq_ok.mp hafter
        cases hret
        obtain ⟨hc, hd, ha⟩ := hans
        have hchild := hi.child _ c hc
        refine ⟨rfl, hc, hchild.1, hd, rfl, ?_, fun hpos ↦ ha (by omega)⟩
        exact h.ledger.dead c (hi.bound c hchild.2) hd
      | sleep c =>
        obtain ⟨_, rfl⟩ := sleepAt_eq_ok.mp hafter
        cases hret
    · rw [hr] at hret
      cases hret

theorem afterLook_total {k : Kernel} (hi : Kernel.Inv k) (hcalm : Calm k)
    (ht : k.sched.curthr = some t)
    (hl : l.Answers k (k.procOf t) arg) :
    ∃ k', k.afterLook t l = .ok k' ∧ (k'.ret = none → ∃ c, l = .sleep c) := by
  cases l with
  | echild => exact ⟨_, rfl, fun h ↦ by cases h⟩
  | reap c =>
    refine ⟨_, reap_eq_ok.mpr ⟨fun u hu ↦ (hcalm.hushed c hl.2.1 u hu).1, rfl⟩, fun h ↦ by cases h⟩
  | sleep c => exact ⟨_, sleepAt_eq_ok.mpr ⟨(hi.cur t ht).1, rfl⟩, fun _ ↦ ⟨c, rfl⟩⟩

theorem Inv.prompt (h : Inv r) (hc : Calm r.kernel) (hwatch : Watched False r.kernel) :
    Prompt procMaxCount r where
  goesOn t e ht hen := by
    have hi := h.kernel.inv.resetRet
    have hc' : Calm { r.kernel with ret := none } := hc.table rfl rfl fun _ _ ↦ id
    -- the call looks at the children
    obtain ⟨l, hlook, hact⟩ : ∃ l, Looks { r.kernel with ret := none } t e l ∧
        r.kernel.step procMaxCount e = { r.kernel with ret := none }.afterLook t l := by
      cases e with
      | waitpid pid =>
        refine ⟨_, rfl, ?_⟩
        have hcall : { r.kernel with ret := none }.caller = .ok t := caller_eq_ok.mpr ⟨ht, hen.1⟩
        have hdem : demand Fault.assertion ({ r.kernel with ret := none }.procInitproc ≠ none) =
            .ok () := demand_pos hen.2
        simp only [Kernel.step, Kernel.act, hcall, Kernel.doWaitpid, hdem, ok_bind]
      | resume next =>
        have hcur : follow Fault.disabled { r.kernel with ret := none }.sched.curthr = .ok t :=
          follow_eq_ok.mpr ht
        simp only [Kernel.step, Kernel.act, hcur, ok_bind]
        have hin : (r.kernel.pc t).InWait := hen
        cases hpc : r.kernel.pc t with
        | waitAny => exact ⟨_, .inl ⟨hpc, rfl⟩, by simp only [Kernel.resume, hpc]⟩
        | waitPid c => exact ⟨_, .inr ⟨c, hpc, rfl⟩, by simp only [Kernel.resume, hpc]⟩
        | _ =>
          rw [hpc] at hin
          exact hin.elim
      | _ => exact hen.elim
    have hans := hlook.answers hi ht (h.asks t)
    obtain ⟨k', hk', hret⟩ := afterLook_total hi hc' ht hans
    refine ⟨_, step_eq_ok.mpr ⟨k', hact.trans hk', rfl⟩, fun hn ↦ ?_⟩
    obtain ⟨c, rfl⟩ := hret hn
    cases c with
    | waitAny => exact .inl hans
    | waitPid c => exact .inr ⟨hans.1, c, hans.2.1, hans.2.2⟩
    | _ => exact hans.elim
  asleep t c p hpc hw := by
    have hwc := (h.kernel.inv.linked.wchan t _).mpr hw
    obtain ⟨hm, _, _, hp, _⟩ := h.kernel.inv.queued t _ hwc
    have hch := h.kernel.inv.waits t hm c hpc
    rw [hp] at hch
    exact ⟨hch, ((h.asks t).2 c hpc).2.2, hwatch t p hwc c (.inr hpc)⟩

/-- The idle process creates init and process `2`, which creates process `3`, and waits for
process `2`, which exits with status `7`. -/
def statusRun : List ProcEv :=
  [.procCreate, .kthreadCreate 1, .makeRunnable 1, .procCreate, .kthreadCreate 2,
    .makeRunnable 2, .waitpid 2, .resume .no, .yield, .resume .no, .procCreate,
    .exit 7 .no, .resume .no, .yield, .resume .no]

end Record

end CS402.Proc

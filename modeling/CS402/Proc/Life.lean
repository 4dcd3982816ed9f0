import CS402.Lib.Trans
import CS402.Proc.Sched

/-!
# The life of a process

The model of `kernel/proc/proc.c` and of the part of `kernel/proc/kthread.c` it
works with: processes are created, get a thread, exit, are killed, become zombies
and are reaped by `do_waitpid`, while their threads sleep, wake, yield and cancel
one another under the scheduler of `CS402.Proc.Sched`.

Processes and threads are named by numbers that are never reused, as a model of
their addresses; the pid is the field `p_pid`, which `_proc_getid` may hand out
again.  The kernel is built without support for several threads in one process,
so a process that has a thread gets no second one.

A thread gives up the processor at the switch points only, and `Pc` says at which
one it is suspended.  `proc_cleanup` has three of them, the calls of `vput`,
`do_close` and `vmmap_destroy`: the argument `next` of a step that runs
`proc_cleanup` says in which of them the thread blocks next, if in any.

Files, the current directory and the address space are not part of this state;
nor are the memory allocations of `proc_create`, whose failure is a panic.
-/

namespace CS402.Proc

open CS402.Lib

/-- The queues other than the run queue. -/
inductive Pq where
  /-- `p_wait` of a process. -/
  | pWait (p : Pid)
  | other (n : Nat)
deriving DecidableEq, Repr

/-- Where a thread is. -/
inductive Pc where
  | unborn
  /-- Created, but not yet made runnable. -/
  | fresh
  /-- Running its own code. -/
  | code
  /-- Suspended outside the calls below: new, yielded, or in `sched_sleep_on`. -/
  | suspended
  /-- Suspended in `sched_cancellable_sleep_on`. -/
  | cancellable
  /-- Suspended in the sleep of `do_waitpid(-1, ..)`. -/
  | waitAny
  /-- Suspended in the sleep of `do_waitpid(pid, ..)`, waiting for this child. -/
  | waitPid (child : Pid)
  /-- Suspended in `proc_cleanup`, in the call of `vput`. -/
  | inVput
  /-- Suspended in `proc_cleanup`, in a call of `do_close` or `vmmap_destroy`. -/
  | inClose
  /-- Switched away from for the last time. -/
  | gone
deriving DecidableEq, Repr

/-- In which call `proc_cleanup` blocks next, and on which queue. -/
inductive Blocks where
  | no
  | inVput (q : Nat)
  | inClose (q : Nat)
deriving DecidableEq, Repr

/-- The part of a `proc_t` that its life cycle works with; `p_state` is kept by the
scheduler. -/
structure Pcb where
  pPid : Int
  pThreads : List Tid
  pChildren : List Pid
  pPproc : Option Pid
  pStatus : Int

/-- What `do_waitpid` returns: `-ECHILD`, or the pid of a child that has been
reaped, with its status. -/
inductive WaitResult where
  | echild
  | reaped (child : Pid) (pid status : Int)
deriving DecidableEq, Repr

/-- The state of the process system. -/
structure Kernel where
  sched : Sched Pq
  proc : Pid → Pcb
  /-- `_proc_list`. -/
  procList : List Pid
  procInitproc : Option Pid
  nextPid : Int
  pc : Tid → Pc
  /-- The names from here on are unused. -/
  nproc : Nat
  nthread : Nat
  /-- The process to which `do_waitpid` returned in the last step, and the result. -/
  ret : Option (Pid × WaitResult)

/-- What can happen. -/
inductive ProcEv where
  | procCreate
  | kthreadCreate (p : Pid)
  /-- `sched_make_runnable` of a new thread. -/
  | makeRunnable (t : Tid)
  /-- `do_exit`. -/
  | exit (status : Int) (next : Blocks)
  /-- `proc_kill`. -/
  | kill (p : Pid) (status : Int) (next : Blocks)
  /-- `do_waitpid`. -/
  | waitpid (pid : Int)
  /-- `sched_make_runnable(curthr); sched_switch();` -/
  | yield
  | sleepOn (q : Nat)
  | cancellableSleepOn (q : Nat)
  | wakeup (q : Nat)
  | broadcast (q : Nat)
  | cancel (t : Tid)
  /-- The running thread goes on after the switch that suspended it. -/
  | resume (next : Blocks)
  /-- `sched_switch` finds a thread after it had to wait for one. -/
  | dispatch
deriving DecidableEq, Repr

def PID_IDLE : Int := 0

def PID_INIT : Int := 1

/-! ## Pids -/

/-- The loop of `_proc_getid`: the next unused pid from `pid` on, `-1` when the
search is back at `next`. -/
def procGetidFrom (procMaxCount : Nat) (used : List Int) (next : Int) :
    Nat → Int → Except Fault Int
  | 0, _ => .error .divergence
  | n + 1, pid =>
    if pid ∈ used then
      if (pid + 1) % procMaxCount = next then .ok (-1)
      else procGetidFrom procMaxCount used next n ((pid + 1) % procMaxCount)
    else .ok pid

/-- `_proc_getid`: the pid and the new `next_pid`. -/
def procGetid (procMaxCount : Nat) (used : List Int) (next : Int) :
    Except Fault (Int × Int) := do
  let pid ← procGetidFrom procMaxCount used next (procMaxCount + 1) next
  .ok (pid, if pid = -1 then next else (pid + 1) % procMaxCount)

namespace Kernel

/-- Update the fields of one process. -/
@[simp] def modifyProc (k : Kernel) (p : Pid) (f : Pcb → Pcb) : Kernel :=
  { k with proc := Function.update k.proc p (f (k.proc p)) }

/-- Replace the scheduler's state. -/
@[simp] def withSched (k : Kernel) (sc : Sched Pq) : Kernel := { k with sched := sc }

/-- A thread arrives at a point of its code. -/
@[simp] def setPc (k : Kernel) (t : Tid) (c : Pc) : Kernel :=
  { k with pc := Function.update k.pc t c }

/-- `do_waitpid` returns. -/
@[simp] def returns (k : Kernel) (p : Pid) (r : WaitResult) : Kernel := { k with ret := some (p, r) }

/-- The process of a thread. -/
@[simp] def procOf (k : Kernel) (t : Tid) : Pid := (k.sched.kthread t).ktProc

@[simp] def pState (k : Kernel) (p : Pid) : PState := k.sched.pState p

/-- Set `p_state`. -/
@[simp] def setPState (k : Kernel) (p : Pid) (st : PState) : Kernel :=
  k.withSched { k.sched with pState := Function.update k.sched.pState p st }

/-! ## Creation -/

/-- A new process with the given pid, as a child of `cur`. -/
def addProc (k : Kernel) (cur : Pid) (pid next : Int) : Kernel :=
  let new := k.nproc
  let k := { k with
    nproc := k.nproc + 1
    nextPid := next
    procInitproc := if pid = PID_INIT then some new else k.procInitproc
    procList := k.procList ++ [new] }
  let k := k.modifyProc new fun _ ↦ ⟨pid, [], [], some cur, 0⟩
  let k := k.modifyProc cur fun b ↦ { b with pChildren := b.pChildren ++ [new] }
  k.setPState new .running

/-- `proc_create`, called by the process `cur`. -/
def procCreate (procMaxCount : Nat) (k : Kernel) (cur : Pid) : Except Fault Kernel := do
  let (pid, next) ←
    procGetid procMaxCount (k.procList.map fun p ↦ (k.proc p).pPid) k.nextPid
  demand .assertion (PID_IDLE ≠ pid ∨ k.procList = [])
  demand .assertion (pid = PID_INIT → PID_IDLE = (k.proc cur).pPid)
  .ok (k.addProc cur pid next)

/-- A new thread of the process `p`. -/
def addThread (k : Kernel) (p : Pid) : Kernel :=
  let t := k.nthread
  let k := { k with nthread := k.nthread + 1 }
  let k := k.withSched (k.sched.modify t fun _ ↦ ⟨.noState, false, none, 0, p⟩)
  let k := k.modifyProc p fun b ↦ { b with pThreads := t :: b.pThreads }
  k.setPc t .fresh

/-- `kthread_create`, for a process that has no thread yet. -/
def kthreadCreate (k : Kernel) (p : Pid) : Except Fault Kernel := do
  demand .disabled (p ∈ k.procList ∧ (k.proc p).pThreads = [])
  .ok (k.addThread p)

/-! ## Exit -/

/-- The running thread `t` sleeps in `sched_sleep_on` and is to go on at `c`. -/
def sleepAt (k : Kernel) (q : Wq Pq) (t : Tid) (c : Pc) : Except Fault Kernel := do
  let sc ← k.sched.schedSleepOn q t
  .ok ((k.withSched sc).setPc t c)

/-- One turn of the loop of `proc_cleanup` that hands the children of `p` to `i`. -/
def handOver (p i : Pid) (k : Kernel) (c : Pid) : Kernel :=
  let k := k.modifyProc p fun b ↦ { b with pChildren := b.pChildren.erase c }
  let k := k.modifyProc i fun b ↦ { b with pChildren := b.pChildren ++ [c] }
  k.modifyProc c fun b ↦ { b with pPproc := some i }

/-- `proc_cleanup` hands the children of `p` to init, unless `p` is init. -/
def reparent (k : Kernel) (p i : Pid) : Kernel :=
  if (k.proc p).pPid ≠ PID_INIT then (k.proc p).pChildren.foldl (handOver p i) k else k

/-- The end of `proc_cleanup`, where files and mappings are given up, and the last
`sched_switch` of the thread. -/
def cleanupClose (k : Kernel) (t : Tid) : Blocks → Except Fault Kernel
  | .no => .ok ((k.withSched k.sched.schedSwitch).setPc t .gone)
  | .inClose q => k.sleepAt (.on (.other q)) t .inClose
  | .inVput _ => .error .disabled

/-- `proc_cleanup` after the call of `vput`: the parent is woken, then the children
are handed to init. -/
def cleanupWake (k : Kernel) (t : Tid) (next : Blocks) : Except Fault Kernel := do
  let p := k.procOf t
  let i ← follow .assertion k.procInitproc
  demand .assertion (1 ≤ (k.proc p).pPid)
  let pp ← follow .assertion (k.proc p).pPproc
  let (_, sc) ← k.sched.schedWakeupOn (.on (.pWait pp))
  ((k.withSched sc).reparent p i).cleanupClose t next

/-- `proc_cleanup` from the call of `vput` on. -/
def cleanupVput (k : Kernel) (t : Tid) : Blocks → Except Fault Kernel
  | .inVput q => k.sleepAt (.on (.other q)) t .inVput
  | next => k.cleanupWake t next

/-- `proc_cleanup` and the rest of `proc_thread_exited`. -/
def procCleanup (k : Kernel) (t : Tid) (status : Int) (next : Blocks) :
    Except Fault Kernel :=
  let p := k.procOf t
  let k := k.modifyProc p fun b ↦ { b with pStatus := status }
  (k.setPState p .dead).cleanupVput t next

/-- `kthread_exit` of the running thread. -/
def kthreadExit (k : Kernel) (t : Tid) (retval : Int) (next : Blocks) :
    Except Fault Kernel := do
  let sc := k.sched.modify t fun u ↦ { u with ktRetval := retval, ktState := .exited }
  demand .assertion ((sc.kthread t).ktWchan = none)
  (k.withSched sc).procCleanup t retval next

/-- `kthread_cancel` of a list of threads other than the running one. -/
def cancelAll (k : Kernel) (l : List Tid) (status : Int) : Except Fault Kernel := do
  let sc ← l.foldlM (fun sc u ↦ sc.kthreadCancel u status) k.sched
  .ok (k.withSched sc)

/-- `do_exit`: the loop over the threads ends at the running one, whose
`kthread_cancel` is `kthread_exit`. -/
def doExit (k : Kernel) (t : Tid) (status : Int) (next : Blocks) : Except Fault Kernel := do
  let k ← k.cancelAll ((k.proc (k.procOf t)).pThreads.takeWhile (· ≠ t)) status
  k.kthreadExit t status next

/-- `proc_kill`, called by the running thread `t`. -/
def procKill (k : Kernel) (t : Tid) (p : Pid) (status : Int) (next : Blocks) :
    Except Fault Kernel :=
  if p = k.procOf t then k.doExit t status next
  else do
    demand .pointer (p ∈ k.procList)
    let k ← k.cancelAll (k.proc p).pThreads status
    .ok (k.modifyProc p fun b ↦ { b with pStatus := status })

/-! ## Waiting -/

/-- What `do_waitpid` finds when it looks at the children. -/
inductive Look where
  | echild
  | reap (child : Pid)
  | sleep (c : Pc)
deriving DecidableEq, Repr

/-- One turn of the loop of `do_waitpid(-1, ..)`. -/
def lookAny (k : Kernel) (p : Pid) : Look :=
  if (k.proc p).pChildren = [] then .echild
  else match (k.proc p).pChildren.find? (k.pState · = .dead) with
    | some c => .reap c
    | none => .sleep .waitAny

/-- One turn of the loop of `do_waitpid(pid, ..)` at the child with that pid. -/
def lookPid (k : Kernel) (c : Pid) : Look :=
  if k.pState c = .dead then .reap c else .sleep (.waitPid c)

/-- The first look of `do_waitpid`. -/
def look (k : Kernel) (p : Pid) (pid : Int) : Look :=
  if pid < -1 ∨ (k.proc p).pChildren = [] then .echild
  else if pid = -1 then k.lookAny p
  else match (k.proc p).pChildren.find? fun c ↦ (k.proc c).pPid = pid with
    | some c => k.lookPid c
    | none => .echild

/-- The threads of `c` are destroyed, and it is taken from the children of `p` and
from the list of processes. -/
def dispose (k : Kernel) (p c : Pid) : Kernel :=
  let r := WaitResult.reaped c (k.proc c).pPid (k.proc c).pStatus
  let k := k.modifyProc c fun b ↦ { b with pThreads := [] }
  let k := k.modifyProc p fun b ↦ { b with pChildren := b.pChildren.erase c }
  { k with procList := k.procList.erase c }.returns p r

/-- `do_waitpid` disposes of the dead child `c`. -/
def reap (k : Kernel) (p c : Pid) : Except Fault Kernel := do
  demand .assertion (∀ t ∈ (k.proc c).pThreads, (k.sched.kthread t).ktState = .exited)
  .ok (k.dispose p c)

/-- `do_waitpid` after a look at the children. -/
def afterLook (k : Kernel) (t : Tid) : Look → Except Fault Kernel
  | .echild => .ok ((k.setPc t .code).returns (k.procOf t) .echild)
  | .reap c => (k.setPc t .code).reap (k.procOf t) c
  | .sleep c => k.sleepAt (.on (.pWait (k.procOf t))) t c

/-- `do_waitpid`. -/
def doWaitpid (k : Kernel) (t : Tid) (pid : Int) : Except Fault Kernel := do
  demand .assertion (k.procInitproc ≠ none)
  k.afterLook t (k.look (k.procOf t) pid)

/-! ## The system -/

/-- The running thread, if it is in its own code. -/
def caller (k : Kernel) : Except Fault Tid := do
  let t ← follow .disabled k.sched.curthr
  demand .disabled (k.pc t = .code)
  .ok t

/-- The rest of the call that suspended the running thread. -/
def resume (k : Kernel) (t : Tid) (next : Blocks) : Except Fault Kernel :=
  match k.pc t with
  | .suspended => .ok (k.setPc t .code)
  | .cancellable => .ok ((k.withSched (k.sched.schedCancellableWake t).2).setPc t .code)
  | .waitAny => k.afterLook t (k.lookAny (k.procOf t))
  | .waitPid c => k.afterLook t (k.lookPid c)
  | .inVput => k.cleanupVput t next
  | .inClose => k.cleanupClose t next
  | _ => .error .disabled

/-- `sched_cancellable_sleep_on`, called from the thread's own code. -/
def cancellableSleep (k : Kernel) (t : Tid) (q : Nat) : Except Fault Kernel := do
  let (r, sc) ← k.sched.schedCancellableSleepOn (.on (.other q)) t
  .ok ((k.withSched sc).setPc t (if r = none then .cancellable else .code))

/-- One step of the system; `k.ret` has been reset. -/
def act (procMaxCount : Nat) (k : Kernel) : ProcEv → Except Fault Kernel
  | .procCreate => do k.procCreate procMaxCount (k.procOf (← k.caller))
  | .kthreadCreate p => do
    let _ ← k.caller
    k.kthreadCreate p
  | .makeRunnable t => do
    demand .disabled (k.pc t = .fresh)
    let sc ← k.sched.schedMakeRunnable t
    .ok ((k.withSched sc).setPc t .suspended)
  | .exit status next => do k.doExit (← k.caller) status next
  | .kill p status next => do k.procKill (← k.caller) p status next
  | .waitpid pid => do k.doWaitpid (← k.caller) pid
  | .yield => do
    let t ← k.caller
    let sc ← k.sched.schedMakeRunnable t
    .ok ((k.withSched sc.schedSwitch).setPc t .suspended)
  | .sleepOn q => do k.sleepAt (.on (.other q)) (← k.caller) .suspended
  | .cancellableSleepOn q => do k.cancellableSleep (← k.caller) q
  | .wakeup q => do
    let (_, sc) ← k.sched.schedWakeupOn (.on (.other q))
    .ok (k.withSched sc)
  | .broadcast q => do
    let sc ← k.sched.schedBroadcastOn (.on (.other q))
    .ok (k.withSched sc)
  | .cancel t => do
    demand .pointer (t ∈ (k.proc (k.procOf t)).pThreads)
    let sc ← k.sched.schedCancel t
    .ok (k.withSched sc)
  | .resume next => do k.resume (← follow .disabled k.sched.curthr) next
  | .dispatch => do
    demand .disabled (k.sched.curthr = none)
    .ok (k.withSched k.sched.schedSwitch)

/-- One step of the system. -/
def step (procMaxCount : Nat) (k : Kernel) (e : ProcEv) : Except Fault Kernel :=
  { k with ret := none }.act procMaxCount e

/-- After the boot: the idle process runs alone. -/
def boot : Kernel where
  sched :=
    { kthread := fun t ↦ ⟨if t = 0 then .run else .noState, false, none, 0, 0⟩
      ktqueue := fun _ ↦ ⟨[], 0⟩
      curthr := some 0
      pState := fun _ ↦ .running }
  proc := fun p ↦ ⟨PID_IDLE, if p = 0 then [0] else [], [], none, 0⟩
  procList := [0]
  procInitproc := none
  nextPid := 1
  pc := fun t ↦ if t = 0 then .code else .unborn
  nproc := 1
  nthread := 1
  ret := none

end Kernel

end CS402.Proc

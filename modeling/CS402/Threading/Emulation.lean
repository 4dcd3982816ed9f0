import CS402.Basic
import CS402.Lib.Trans
import Mathlib.Logic.Function.Basic

/-!
# The token bucket emulation

The program `Threading/warmup2.c`: a packet thread puts packets into the queue Q1, a
bucket thread puts tokens into the bucket, both move the first packet of Q1 to Q2 when
the bucket holds the tokens it requires, and two server threads take packets from Q2.
One mutex protects the queues and the bucket; the servers wait on one condition
variable.  The two flags by which the producers announce that they are done are
written, and their last broadcasts sent, *without* the mutex.

A step of a thread is one read or write of a variable that another thread uses
without the mutex, one operation on the mutex or the condition variable, or the whole
body of a critical section: what a body does becomes visible when it ends, and the
only reads made without the mutex, the lengths of Q1 and Q2, are of a counter that a
body writes once.  The time stamps, the statistics and the printed lines are left out;
`malloc` is taken to succeed.
-/

namespace CS402.Threading

open Lib

/-- The members of `Packet` that decide where a packet goes. -/
structure Packet where
  /-- `packet_id` -/
  packetId : ℕ
  /-- `required_token` -/
  requiredToken : ℤ
deriving DecidableEq, Repr

/-- What the threads read of `Parameters`, and the tokens the packets require: with a
trace file they are the numbers of its lines, and nothing is known of them. -/
structure Config where
  /-- `bucket_size` -/
  bucketSize : ℤ
  /-- `packet_count` -/
  packetCount : ℕ
  /-- The `required_token` of the packet with the given number. -/
  required : ℕ → ℤ

/-- The deterministic mode, with the numbers that `get_Parameters` lets pass: it
exits when `-B`, `-P` or `-n` is not positive, and all three are of type `int`. -/
structure Parameters where
  /-- `bucket_size` -/
  bucketSize : ℤ
  /-- `token_required` -/
  tokenRequired : ℤ
  /-- `packet_count` -/
  packetCount : ℕ
  bucketSize_pos : 1 ≤ bucketSize
  bucketSize_lt : bucketSize < 2 ^ 31
  tokenRequired_pos : 1 ≤ tokenRequired
  tokenRequired_lt : tokenRequired < 2 ^ 31
  packetCount_pos : 1 ≤ packetCount
  packetCount_lt : packetCount < 2 ^ 31

/-- `fill_packet_data_deterministically`: every packet requires `P` tokens. -/
def Parameters.config (a : Parameters) : Config where
  bucketSize := a.bucketSize
  packetCount := a.packetCount
  required _ := a.tokenRequired

/-- The two server threads. -/
inductive Server where
  | one | two
deriving DecidableEq, Repr

/-- The threads of the emulation. -/
inductive Thread where
  | packet | bucket | server (i : Server)
deriving DecidableEq, Repr

/-- Where `packet_thread_function` stands. -/
inductive PacketPc where
  /-- Before the test of `i` against `packet_count`. -/
  | top
  /-- Awake again, with the packet that arrives. -/
  | arriving (p : Packet)
  /-- Holding the mutex, with the packet that enters Q1. -/
  | inside (p : Packet)
  /-- Before `pthread_mutex_unlock`. -/
  | unlocking
  /-- Before `stop_packet_thread=1`. -/
  | stopping
  /-- Before the last broadcast. -/
  | announcing
  | done
deriving DecidableEq, Repr

/-- Where `bucket_thread_function` stands. -/
inductive BucketPc where
  /-- Before the test of `stop_packet_thread`. -/
  | testStop
  /-- Before the test of the length of Q1. -/
  | testQ1
  /-- Awake again, before `pthread_mutex_lock`. -/
  | locking
  /-- Holding the mutex. -/
  | inside
  /-- Before `pthread_mutex_unlock`. -/
  | unlocking
  /-- Before `stop_bucket_thread=1`. -/
  | stopping
  /-- Before the last broadcast. -/
  | announcing
  | done
deriving DecidableEq, Repr

/-- Where a server thread stands. -/
inductive ServerPc where
  /-- Before `pthread_mutex_lock`. -/
  | locking
  /-- In the condition of the inner `while`, before it reads the length of Q2. -/
  | testQ2
  /-- In the same condition, before it reads `stop_bucket_thread`. -/
  | testBucket
  /-- In the same condition, before it reads `stop_packet_thread`. -/
  | testPacket
  /-- The condition was true: before `pthread_cond_wait`. -/
  | wait
  /-- Blocked in `pthread_cond_wait`. -/
  | waiting
  /-- Woken, and `pthread_cond_wait` is taking the mutex again. -/
  | woken
  /-- The inner `while` is over: before `if(My402ListLength(&Q2_list)>0)`. -/
  | take
  /-- Before `pthread_mutex_unlock`, with the packet taken. -/
  | unlocking (p : Packet)
  /-- Serving a packet. -/
  | serving (p : Packet)
  /-- In the last `if`, before it reads `stop_bucket_thread`. -/
  | finalBucket
  /-- In the last `if`, before it reads `stop_packet_thread`. -/
  | finalPacket
  /-- In the last `if`, before it reads the length of Q2. -/
  | finalQ2
  /-- Before the `pthread_mutex_unlock` of the last `if`. -/
  | finalUnlock
  | done
deriving DecidableEq, Repr

/-- The state of the emulation.  `leftQ1`, `taken` and `dropped` record what became of
the packets, in the order in which it happened. -/
structure State where
  /-- `Q1_list` -/
  q1 : List Packet
  /-- `Q2_list` -/
  q2 : List Packet
  /-- `current_token_number` -/
  currentTokenNumber : ℤ
  /-- `total_token_count` -/
  totalTokenCount : ℤ
  /-- `dropped_token_count` -/
  droppedTokenCount : ℤ
  /-- `total_packet_count` -/
  totalPacketCount : ℕ
  /-- The packets dropped on arrival; `dropped_packet_count` is their number. -/
  dropped : List Packet
  /-- The packets that have left Q1. -/
  leftQ1 : List Packet
  /-- The packets that were taken from Q2, with the server that took them. -/
  taken : List (Server × Packet)
  /-- The thread that locked `token_mutex`. -/
  mutex : Option Thread
  /-- `stop_packet_thread` -/
  stopPacketThread : Bool
  /-- `stop_bucket_thread` -/
  stopBucketThread : Bool
  /-- The loop counter of `packet_thread_function`. -/
  i : ℕ
  packet : PacketPc
  bucket : BucketPc
  server : Server → ServerPc

/-- The emulation after `createThreads`. -/
def start : State where
  q1 := []
  q2 := []
  currentTokenNumber := 0
  totalTokenCount := 0
  droppedTokenCount := 0
  totalPacketCount := 0
  dropped := []
  leftQ1 := []
  taken := []
  mutex := none
  stopPacketThread := false
  stopBucketThread := false
  i := 0
  packet := .top
  bucket := .testStop
  server _ := .locking

/-- Why a thread has no step. -/
inductive Stuck where
  /-- It waits for the mutex. -/
  | mutex
  /-- It is blocked on the condition variable, or it is not and cannot be woken. -/
  | waiting
  /-- It has terminated. -/
  | done
deriving DecidableEq, Repr

/-- A waiting server is woken. -/
def ServerPc.wake : ServerPc → ServerPc
  | .waiting => .woken
  | pc => pc

/-- `pthread_cond_broadcast(&server_wait)` -/
def broadcast (s : State) : State := { s with server := fun i ↦ (s.server i).wake }

/-- The part that `packet_thread_function` and `bucket_thread_function` have in common:
the first packet of Q1 goes to Q2 if the bucket holds the tokens it requires. -/
def leaveQ1 (s : State) : State :=
  match s.q1 with
  | [] => s
  | p :: q =>
    if p.requiredToken ≤ s.currentTokenNumber then
      broadcast { s with
        q1 := q
        q2 := s.q2 ++ [p]
        leftQ1 := s.leftQ1 ++ [p]
        currentTokenNumber := int32 (s.currentTokenNumber - p.requiredToken) }
    else s

/-- The critical section of `packet_thread_function`. -/
def enterQ1 (s : State) (p : Packet) : State := leaveQ1 { s with q1 := s.q1 ++ [p] }

/-- The critical section of `bucket_thread_function`. -/
def tick (c : Config) (s : State) : State :=
  let s := { s with totalTokenCount := int32 (s.totalTokenCount + 1) }
  if c.bucketSize ≤ s.currentTokenNumber then
    { s with droppedTokenCount := int32 (s.droppedTokenCount + 1) }
  else leaveQ1 { s with currentTokenNumber := int32 (s.currentTokenNumber + 1) }

/-- `pthread_mutex_lock(&token_mutex)`, which has no step while the mutex is locked. -/
def lock (t : Thread) (s : State) : Except Stuck State :=
  if s.mutex = none then pure { s with mutex := some t } else throw .mutex

/-- `pthread_mutex_unlock(&token_mutex)`.  A mutex of the default kind does not look at
who locked it. -/
def unlock (s : State) : State := { s with mutex := none }

/-- One step of `packet_thread_function`. -/
def packetStep (c : Config) (s : State) : Except Stuck State :=
  match s.packet with
  | .top =>
    if c.packetCount ≤ s.i then pure { s with packet := .stopping }
    else
      let n := s.totalPacketCount + 1
      pure { s with totalPacketCount := n, packet := .arriving ⟨n, c.required n⟩ }
  | .arriving p =>
    if c.bucketSize < p.requiredToken then
      pure { s with dropped := s.dropped ++ [p], i := s.i + 1, packet := .top }
    else do
      let s ← lock .packet s
      pure { s with packet := .inside p }
  | .inside p => pure { enterQ1 s p with packet := .unlocking }
  | .unlocking => pure { unlock s with i := s.i + 1, packet := .top }
  | .stopping => pure { s with stopPacketThread := true, packet := .announcing }
  | .announcing => pure { broadcast s with packet := .done }
  | .done => throw .done

/-- One step of `bucket_thread_function`. -/
def bucketStep (c : Config) (s : State) : Except Stuck State :=
  match s.bucket with
  | .testStop => pure { s with bucket := if s.stopPacketThread then .testQ1 else .locking }
  | .testQ1 => pure { s with bucket := if s.q1 = [] then .stopping else .locking }
  | .locking => do
    let s ← lock .bucket s
    pure { s with bucket := .inside }
  | .inside => pure { tick c s with bucket := .unlocking }
  | .unlocking => pure { unlock s with bucket := .testStop }
  | .stopping => pure { s with stopBucketThread := true, bucket := .announcing }
  | .announcing => pure { broadcast s with bucket := .done }
  | .done => throw .done

/-- The server `i` goes on at `pc`. -/
def State.goto (s : State) (i : Server) (pc : ServerPc) : State :=
  { s with server := Function.update s.server i pc }

/-- One step of `server1_thread_function` or `server2_thread_function`, which are the
same but for the flag `stopserver` that they set at the end. -/
def serverStep (i : Server) (s : State) : Except Stuck State :=
  match s.server i with
  | .locking => do
    let s ← lock (.server i) s
    pure (s.goto i .testQ2)
  | .testQ2 => pure (s.goto i (if s.q2 = [] then .testBucket else .take))
  | .testBucket => pure (s.goto i (if s.stopBucketThread then .testPacket else .wait))
  | .testPacket => pure (s.goto i (if s.stopPacketThread then .take else .wait))
  -- the mutex is released and the wait entered in one step
  | .wait => pure ((unlock s).goto i .waiting)
  | .waiting => throw .waiting
  | .woken => do
    let s ← lock (.server i) s
    pure (s.goto i .testQ2)
  | .take =>
    match s.q2 with
    | [] => pure (s.goto i .finalBucket)
    | p :: q => pure ({ s with q2 := q, taken := s.taken ++ [(i, p)] }.goto i (.unlocking p))
  | .unlocking p => pure ((unlock s).goto i (.serving p))
  -- the mutex is not locked again before the last `if`
  | .serving _ => pure (s.goto i .finalBucket)
  | .finalBucket => pure (s.goto i (if s.stopBucketThread then .finalPacket else .locking))
  | .finalPacket => pure (s.goto i (if s.stopPacketThread then .finalQ2 else .locking))
  | .finalQ2 => pure (s.goto i (if s.q2 = [] then .finalUnlock else .locking))
  | .finalUnlock => pure ((unlock s).goto i .done)
  | .done => throw .done

/-- What can happen: a thread takes its next step, or `pthread_cond_wait` returns
although nobody has sent a broadcast, which POSIX allows. -/
inductive Event where
  | packet | bucket | server (i : Server) | spurious (i : Server)
deriving DecidableEq, Repr

/-- One step of the emulation. -/
def step (c : Config) (s : State) : Event → Except Stuck State
  | .packet => packetStep c s
  | .bucket => bucketStep c s
  | .server i => serverStep i s
  | .spurious i => if s.server i = .waiting then pure (s.goto i .woken) else throw .waiting

/-! ## What the steps change -/

@[simp] theorem goto_self (s : State) (i : Server) (pc : ServerPc) :
    (s.goto i pc).server i = pc := by
  simp [State.goto]

theorem goto_of_ne {s : State} {i j : Server} {pc : ServerPc} (h : j ≠ i) :
    (s.goto i pc).server j = s.server j := by
  simp [State.goto, h]

theorem lock_eq_ok {t : Thread} {s s' : State} :
    lock t s = .ok s' ↔ s.mutex = none ∧ s' = { s with mutex := some t } := by
  unfold lock
  split
  · next h => simp [pure, Except.pure, h, eq_comm]
  · next h => simp [throw, throwThe, MonadExceptOf.throw, h]

theorem wake_ne_waiting {pc : ServerPc} : pc.wake ≠ .waiting := by
  cases pc <;> simp [ServerPc.wake]

section acts

variable (c : Config) (i : Server) (s : State)

/-- What a step of the packet thread does. -/
inductive PacketActs : State → Prop
  | stop (pc : s.packet = .top) (all : c.packetCount ≤ s.i) :
      PacketActs { s with packet := .stopping }
  | create (pc : s.packet = .top) (more : s.i < c.packetCount) :
      PacketActs { s with
        totalPacketCount := s.totalPacketCount + 1
        packet := .arriving ⟨s.totalPacketCount + 1, c.required (s.totalPacketCount + 1)⟩ }
  | drop {p : Packet} (pc : s.packet = .arriving p) (large : c.bucketSize < p.requiredToken) :
      PacketActs { s with dropped := s.dropped ++ [p], i := s.i + 1, packet := .top }
  | lock {p : Packet} (pc : s.packet = .arriving p) (fits : p.requiredToken ≤ c.bucketSize)
      (free : s.mutex = none) :
      PacketActs { s with mutex := some .packet, packet := .inside p }
  | enter {p : Packet} (pc : s.packet = .inside p) :
      PacketActs { enterQ1 s p with packet := .unlocking }
  | unlock (pc : s.packet = .unlocking) :
      PacketActs { Threading.unlock s with i := s.i + 1, packet := .top }
  | announce (pc : s.packet = .stopping) :
      PacketActs { s with stopPacketThread := true, packet := .announcing }
  | finish (pc : s.packet = .announcing) : PacketActs { broadcast s with packet := .done }

/-- What a step of the bucket thread does. -/
inductive BucketActs : State → Prop
  | testStop (pc : s.bucket = .testStop) :
      BucketActs { s with bucket := if s.stopPacketThread then .testQ1 else .locking }
  | testQ1 (pc : s.bucket = .testQ1) :
      BucketActs { s with bucket := if s.q1 = [] then .stopping else .locking }
  | lock (pc : s.bucket = .locking) (free : s.mutex = none) :
      BucketActs { s with mutex := some .bucket, bucket := .inside }
  | tick (pc : s.bucket = .inside) : BucketActs { Threading.tick c s with bucket := .unlocking }
  | unlock (pc : s.bucket = .unlocking) :
      BucketActs { Threading.unlock s with bucket := .testStop }
  | announce (pc : s.bucket = .stopping) :
      BucketActs { s with stopBucketThread := true, bucket := .announcing }
  | finish (pc : s.bucket = .announcing) : BucketActs { broadcast s with bucket := .done }

/-- What a step of a server does. -/
inductive ServerActs : State → Prop
  | lock (pc : s.server i = .locking ∨ s.server i = .woken) (free : s.mutex = none) :
      ServerActs ({ s with mutex := some (.server i) }.goto i .testQ2)
  | testQ2 (pc : s.server i = .testQ2) :
      ServerActs (s.goto i (if s.q2 = [] then .testBucket else .take))
  | testBucket (pc : s.server i = .testBucket) :
      ServerActs (s.goto i (if s.stopBucketThread then .testPacket else .wait))
  | testPacket (pc : s.server i = .testPacket) :
      ServerActs (s.goto i (if s.stopPacketThread then .take else .wait))
  | wait (pc : s.server i = .wait) : ServerActs ((unlock s).goto i .waiting)
  | empty (pc : s.server i = .take) (nil : s.q2 = []) : ServerActs (s.goto i .finalBucket)
  | take {p : Packet} {q : List Packet} (pc : s.server i = .take) (cons : s.q2 = p :: q) :
      ServerActs ({ s with q2 := q, taken := s.taken ++ [(i, p)] }.goto i (.unlocking p))
  | unlock {p : Packet} (pc : s.server i = .unlocking p) :
      ServerActs ((unlock s).goto i (.serving p))
  | serve {p : Packet} (pc : s.server i = .serving p) : ServerActs (s.goto i .finalBucket)
  | finalBucket (pc : s.server i = .finalBucket) :
      ServerActs (s.goto i (if s.stopBucketThread then .finalPacket else .locking))
  | finalPacket (pc : s.server i = .finalPacket) :
      ServerActs (s.goto i (if s.stopPacketThread then .finalQ2 else .locking))
  | finalQ2 (pc : s.server i = .finalQ2) :
      ServerActs (s.goto i (if s.q2 = [] then .finalUnlock else .locking))
  | leave (pc : s.server i = .finalUnlock) : ServerActs ((unlock s).goto i .done)

variable {c i s} {s' : State}

theorem packetStep_ok (h : packetStep c s = .ok s') : PacketActs c s s' := by
  unfold packetStep at h
  cases hpc : s.packet with
  | top =>
    simp only [hpc] at h
    split at h <;> cases h
    · next hi => exact .stop hpc hi
    · next hi => exact .create hpc (Nat.not_le.mp hi)
  | arriving p =>
    simp only [hpc] at h
    split at h
    · next hp =>
      cases h
      exact .drop hpc hp
    · next hp =>
      obtain ⟨_, hl, h⟩ := bind_ok h
      obtain ⟨hm, rfl⟩ := lock_eq_ok.mp hl
      cases h
      exact .lock hpc (Int.not_lt.mp hp) hm
  | inside p => cases hpc ▸ h; exact .enter hpc
  | unlocking => cases hpc ▸ h; exact .unlock hpc
  | stopping => cases hpc ▸ h; exact .announce hpc
  | announcing => cases hpc ▸ h; exact .finish hpc
  | done => cases hpc ▸ h

theorem bucketStep_ok (h : bucketStep c s = .ok s') : BucketActs c s s' := by
  unfold bucketStep at h
  cases hpc : s.bucket <;> simp only [hpc] at h
  case locking =>
    obtain ⟨_, hl, h⟩ := bind_ok h
    obtain ⟨hm, rfl⟩ := lock_eq_ok.mp hl
    cases h
    exact .lock hpc hm
  all_goals cases h
  · exact .testStop hpc
  · exact .testQ1 hpc
  · exact .tick hpc
  · exact .unlock hpc
  · exact .announce hpc
  · exact .finish hpc

theorem serverStep_ok (h : serverStep i s = .ok s') : ServerActs i s s' := by
  unfold serverStep at h
  cases hpc : s.server i <;> simp only [hpc] at h
  case locking =>
    obtain ⟨_, hl, h⟩ := bind_ok h
    obtain ⟨hm, rfl⟩ := lock_eq_ok.mp hl
    cases h
    exact .lock (.inl hpc) hm
  case woken =>
    obtain ⟨_, hl, h⟩ := bind_ok h
    obtain ⟨hm, rfl⟩ := lock_eq_ok.mp hl
    cases h
    exact .lock (.inr hpc) hm
  case take =>
    split at h <;> cases h
    · next hq => exact .empty hpc hq
    · next hq => exact .take hpc hq
  all_goals cases h
  · exact .testQ2 hpc
  · exact .testBucket hpc
  · exact .testPacket hpc
  · exact .wait hpc
  · exact .unlock hpc
  · exact .serve hpc
  · exact .finalBucket hpc
  · exact .finalPacket hpc
  · exact .finalQ2 hpc
  · exact .leave hpc

end acts

end CS402.Threading

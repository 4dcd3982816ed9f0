import CS402.Threading.Tokens

/-!
# The end of the emulation

A server terminates when it has seen both producers stopped and Q2 empty.  It must not
go to sleep after that: the last broadcast is the one that the producers send when they
stop, and nobody wakes a server later.

A server tests the two flags with the mutex locked, but the producers set them and send
their last broadcasts without it.  So a server that has just found a flag unset can be
overtaken by all of that before it is asleep, and then it sleeps for ever.  What is
proved here is that nothing else goes wrong: `hangs_iff` says that the emulation can
hang after the last broadcast exactly when that broadcast was sent while a server stood
between its test and its `pthread_cond_wait`.
-/

namespace CS402.Threading

open Lib

/-- The producers have terminated, Q2 is empty, and a server is blocked: nobody is left
to wake it. -/
def Hung (s : State) : Prop :=
  s.packet = .done ∧ s.bucket = .done ∧ s.q2 = [] ∧ ∃ i, s.server i = .waiting

/-- Both producers have sent their last broadcast. -/
def Over (s : State) : Prop := s.packet = .done ∧ s.bucket = .done

instance (s : State) : Decidable (Over s) := inferInstanceAs (Decidable (_ ∧ _))

/-! ## What a step does to the threads -/

/-- The packet thread is inside its critical section, up to the `pthread_mutex_unlock`. -/
@[simp] def PacketPc.Inside : PacketPc → Prop
  | .inside _ | .unlocking => True
  | _ => False

/-- The bucket thread is inside its critical section. -/
@[simp] def BucketPc.Inside : BucketPc → Prop
  | .inside | .unlocking => True
  | _ => False

/-- A server is inside its critical section. -/
@[simp] def ServerPc.Inside : ServerPc → Prop
  | .testQ2 | .testBucket | .testPacket | .wait | .take | .unlocking _ => True
  | _ => False

/-- A server has found Q2 empty and has not slept or looked again since. -/
@[simp] def ServerPc.SawEmpty : ServerPc → Prop
  | .testBucket | .testPacket | .wait => True
  | _ => False

/-- A server has seen the bucket thread stopped, on its way out. -/
@[simp] def ServerPc.Leaving : ServerPc → Prop
  | .finalPacket | .finalQ2 | .finalUnlock | .done => True
  | _ => False

/-- A server has left its loop. -/
@[simp] def ServerPc.Left : ServerPc → Prop
  | .finalUnlock | .done => True
  | _ => False

/-- How the flags, the mutex and the queues stand to where the threads are. -/
structure Orderly (s : State) : Prop where
  stopPacket : s.stopPacketThread = true ↔ s.packet = .announcing ∨ s.packet = .done
  stopBucket : s.stopBucketThread = true ↔ s.bucket = .announcing ∨ s.bucket = .done
  /-- The bucket thread stops after the packet thread. -/
  bucketLast : s.bucket = .testQ1 ∨ s.bucket = .stopping ∨ s.stopBucketThread = true →
    s.stopPacketThread = true
  packetInside : s.packet.Inside → s.mutex = some .packet
  bucketInside : s.bucket.Inside → s.mutex = some .bucket
  /-- A server that terminates unlocks the mutex whoever holds it, but only once there is
  nobody left to put a packet into Q2. -/
  serverInside : ∀ i, (s.server i).Inside →
    s.mutex = some (.server i) ∨ s.stopBucketThread = true
  sawEmpty : ∀ i, (s.server i).SawEmpty → s.q2 = []
  leaving : ∀ i, (s.server i).Leaving → s.stopBucketThread = true
  left : ∀ i, (s.server i).Left → s.q2 = []

variable {pc : ServerPc}

theorem ServerPc.SawEmpty.inside (h : pc.SawEmpty) : pc.Inside := by
  cases pc <;> simp_all

theorem ServerPc.Left.leaving (h : pc.Left) : pc.Leaving := by
  cases pc <;> simp_all

variable {i : Server}

namespace Orderly

variable {s : State}

theorem start : Orderly start where
  stopPacket := by simp [Threading.start]
  stopBucket := by simp [Threading.start]
  bucketLast := by simp [Threading.start]
  packetInside := by simp [Threading.start]
  bucketInside := by simp [Threading.start]
  serverInside := by simp [Threading.start]
  sawEmpty := by simp [Threading.start]
  leaving := by simp [Threading.start]
  left := by simp [Threading.start]

section

variable (ho : Orderly s)
include ho

theorem running_of_packet (h : s.packet ≠ .announcing) (h' : s.packet ≠ .done) :
    s.stopBucketThread ≠ true := fun hb ↦
  (ho.stopPacket.mp (ho.bucketLast (.inr (.inr hb)))).elim h h'

theorem running_of_bucket (h : s.bucket ≠ .announcing) (h' : s.bucket ≠ .done) :
    s.stopBucketThread ≠ true := fun hb ↦ (ho.stopBucket.mp hb).elim h h'

theorem not_packetInside (hb : s.stopBucketThread = true) : ¬s.packet.Inside := by
  intro hin
  rcases ho.stopPacket.mp (ho.bucketLast (.inr (.inr hb))) with hp | hp <;>
    simp [hp] at hin

theorem not_bucketInside (hb : s.stopBucketThread = true) : ¬s.bucket.Inside := by
  intro hin
  rcases ho.stopBucket.mp hb with hp | hp <;> simp [hp] at hin

theorem goto
    (hin : pc.Inside → s.mutex = some (.server i) ∨ s.stopBucketThread = true)
    (hsaw : pc.SawEmpty → s.q2 = []) (hleaving : pc.Leaving → s.stopBucketThread = true)
    (hleft : pc.Left → s.q2 = []) : Orderly (s.goto i pc) where
  stopPacket := ho.stopPacket
  stopBucket := ho.stopBucket
  bucketLast := ho.bucketLast
  packetInside := ho.packetInside
  bucketInside := ho.bucketInside
  serverInside j hj := by
    by_cases hji : j = i
    · subst hji
      exact hin (by simpa using hj)
    · exact ho.serverInside j (by simpa [goto_of_ne hji] using hj)
  sawEmpty j hj := by
    by_cases hji : j = i
    · subst hji
      exact hsaw (by simpa using hj)
    · exact ho.sawEmpty j (by simpa [goto_of_ne hji] using hj)
  leaving j hj := by
    by_cases hji : j = i
    · subst hji
      exact hleaving (by simpa using hj)
    · exact ho.leaving j (by simpa [goto_of_ne hji] using hj)
  left j hj := by
    by_cases hji : j = i
    · subst hji
      exact hleft (by simpa using hj)
    · exact ho.left j (by simpa [goto_of_ne hji] using hj)

theorem mutex {m : Option Thread}
    (hpacket : s.packet.Inside → m = some .packet) (hbucket : s.bucket.Inside → m = some .bucket)
    (hserver : ∀ i, (s.server i).Inside → m = some (.server i) ∨ s.stopBucketThread = true) :
    Orderly { s with mutex := m } where
  stopPacket := ho.stopPacket
  stopBucket := ho.stopBucket
  bucketLast := ho.bucketLast
  packetInside := hpacket
  bucketInside := hbucket
  serverInside := hserver
  sawEmpty := ho.sawEmpty
  leaving := ho.leaving
  left := ho.left

theorem lock (hfree : s.mutex = none) (t : Thread) : Orderly { s with mutex := some t } := by
  refine ho.mutex (fun hin ↦ ?_) (fun hin ↦ ?_) fun i hin ↦ ?_
  · exact absurd (ho.packetInside hin) (by simp [hfree])
  · exact absurd (ho.bucketInside hin) (by simp [hfree])
  · rcases ho.serverInside i hin with hm | hb
    · exact absurd hm (by simp [hfree])
    · exact .inr hb

/-- The mutex is unlocked by the thread `t` that locked it, or after the producers have
stopped. -/
theorem unlock {t : Thread}
    (hm : s.mutex = some t ∨ s.stopBucketThread = true)
    (hpacket : t = .packet → ¬s.packet.Inside) (hbucket : t = .bucket → ¬s.bucket.Inside)
    (hserver : ∀ i, t = .server i → ¬(s.server i).Inside) : Orderly (unlock s) := by
  refine ho.mutex (fun hin ↦ ?_) (fun hin ↦ ?_) fun i hin ↦ ?_
  · rcases hm with hm | hb
    · exact absurd hin (hpacket (by simpa [ho.packetInside hin] using hm.symm))
    · exact absurd hin (ho.not_packetInside hb)
  · rcases hm with hm | hb
    · exact absurd hin (hbucket (by simpa [ho.bucketInside hin] using hm.symm))
    · exact absurd hin (ho.not_bucketInside hb)
  · rcases hm with hm | hb
    · rcases ho.serverInside i hin with hi | hb
      · exact absurd hin (hserver i (by simpa [hi] using hm.symm))
      · exact .inr hb
    · exact .inr hb

theorem broadcast : Orderly (broadcast s) where
  stopPacket := ho.stopPacket
  stopBucket := ho.stopBucket
  bucketLast := ho.bucketLast
  packetInside := ho.packetInside
  bucketInside := ho.bucketInside
  serverInside i hi := ho.serverInside i (by
    change ((s.server i).wake).Inside at hi
    cases h : s.server i <;> simp_all [ServerPc.wake])
  sawEmpty i hi := ho.sawEmpty i (by
    change ((s.server i).wake).SawEmpty at hi
    cases h : s.server i <;> simp_all [ServerPc.wake])
  leaving i hi := ho.leaving i (by
    change ((s.server i).wake).Leaving at hi
    cases h : s.server i <;> simp_all [ServerPc.wake])
  left i hi := ho.left i (by
    change ((s.server i).wake).Left at hi
    cases h : s.server i <;> simp_all [ServerPc.wake])

theorem data {q₁ q₂ d l : List Packet} {x y z : ℤ} {m n : ℕ}
    {t : List (Server × Packet)} (hsaw : ∀ i, (s.server i).SawEmpty → q₂ = [])
    (hleft : ∀ i, (s.server i).Left → q₂ = []) :
    Orderly { s with
      q1 := q₁, q2 := q₂, currentTokenNumber := x, totalTokenCount := y, droppedTokenCount := z,
      totalPacketCount := m, dropped := d, leftQ1 := l, taken := t, i := n } where
  stopPacket := ho.stopPacket
  stopBucket := ho.stopBucket
  bucketLast := ho.bucketLast
  packetInside := ho.packetInside
  bucketInside := ho.bucketInside
  serverInside := ho.serverInside
  sawEmpty := hsaw
  leaving := ho.leaving
  left := hleft

theorem packetTo {k : PacketPc}
    (hpc : k = .announcing ∨ k = .done ↔ s.packet = .announcing ∨ s.packet = .done)
    (hin : k.Inside → s.mutex = some .packet) : Orderly { s with packet := k } where
  stopPacket := ho.stopPacket.trans hpc.symm
  stopBucket := ho.stopBucket
  bucketLast := ho.bucketLast
  packetInside := hin
  bucketInside := ho.bucketInside
  serverInside := ho.serverInside
  sawEmpty := ho.sawEmpty
  leaving := ho.leaving
  left := ho.left

theorem bucketTo {pc : BucketPc}
    (hpc : pc = .announcing ∨ pc = .done ↔ s.bucket = .announcing ∨ s.bucket = .done)
    (hlast : pc = .testQ1 ∨ pc = .stopping → s.stopPacketThread = true)
    (hin : pc.Inside → s.mutex = some .bucket) : Orderly { s with bucket := pc } where
  stopPacket := ho.stopPacket
  stopBucket := ho.stopBucket.trans hpc.symm
  bucketLast h := by
    rcases h with h | h | h
    · exact hlast (.inl h)
    · exact hlast (.inr h)
    · exact ho.bucketLast (.inr (.inr h))
  packetInside := ho.packetInside
  bucketInside := hin
  serverInside := ho.serverInside
  sawEmpty := ho.sawEmpty
  leaving := ho.leaving
  left := ho.left

/-- While a producer holds the mutex and the bucket thread runs, no server relies on Q2
being empty. -/
theorem alone {t : Thread} (hm : s.mutex = some t) (ht : ∀ i, t ≠ .server i)
    (hb : s.stopBucketThread ≠ true) (i : Server) :
    ¬(s.server i).SawEmpty ∧ ¬(s.server i).Left := by
  refine ⟨fun h ↦ ?_, fun h ↦ hb (ho.leaving i h.leaving)⟩
  rcases ho.serverInside i h.inside with hi | hi
  · exact ht i (by simpa [hm] using hi)
  · exact hb hi

theorem leaveQ1 (hq : ∀ i, ¬(s.server i).SawEmpty ∧ ¬(s.server i).Left) : Orderly (leaveQ1 s) := by
  unfold Threading.leaveQ1
  split
  · exact ho
  · split
    · refine .broadcast (ho.data ?_ ?_)
      · exact fun i hi ↦ absurd hi (hq i).1
      · exact fun i hi ↦ absurd hi (hq i).2
    · exact ho

end

theorem tick (c : Config) (ho : Orderly s)
    (hq : ∀ i, ¬(s.server i).SawEmpty ∧ ¬(s.server i).Left) : Orderly (tick c s) := by
  unfold Threading.tick
  simp only []
  split
  · exact ho.data ho.sawEmpty ho.left
  · exact leaveQ1 (ho.data ho.sawEmpty ho.left) hq

end Orderly

/-! ## A step keeps the order -/

section step

variable {c : Config} {s s' : State}

theorem leaveQ1_control (s : State) : (leaveQ1 s).packet = s.packet ∧
    (leaveQ1 s).bucket = s.bucket ∧ (leaveQ1 s).mutex = s.mutex := by
  unfold leaveQ1
  split
  · exact ⟨rfl, rfl, rfl⟩
  · split <;> exact ⟨rfl, rfl, rfl⟩

theorem tick_control (c : Config) (s : State) :
    (tick c s).bucket = s.bucket ∧ (tick c s).mutex = s.mutex := by
  unfold tick
  simp only []
  split
  · exact ⟨rfl, rfl⟩
  · exact (leaveQ1_control _).2

theorem Orderly.packetStep (ho : Orderly s) (h : packetStep c s = .ok s') : Orderly s' := by
  cases packetStep_ok h with
  | stop hpc => exact ho.packetTo (by simp [hpc]) (by simp)
  | create hpc =>
    exact (ho.packetTo (k := .arriving ⟨_, _⟩) (by simp [hpc]) (by simp)).data ho.sawEmpty ho.left
  | drop hpc =>
    exact (ho.packetTo (k := .top) (by simp [hpc]) (by simp)).data ho.sawEmpty ho.left
  | lock hpc _ hm => exact (ho.lock hm .packet).packetTo (by simp [hpc]) fun _ ↦ rfl
  | @enter p hpc =>
    have hm : s.mutex = some .packet := ho.packetInside (by simp [hpc])
    have hq := ho.alone hm (by simp) (ho.running_of_packet (by simp [hpc]) (by simp [hpc]))
    have ho' : Orderly (enterQ1 s p) := (ho.data ho.sawEmpty ho.left).leaveQ1 hq
    obtain ⟨hpc', -, hm'⟩ := leaveQ1_control { s with q1 := s.q1 ++ [p] }
    have hpc' : (enterQ1 s p).packet = .inside p := hpc'.trans hpc
    exact ho'.packetTo (by simp [hpc']) fun _ ↦ hm'.trans hm
  | unlock hpc =>
    have hm : s.mutex = some .packet := ho.packetInside (by simp [hpc])
    have ho' : Orderly { s with i := s.i + 1, packet := .top } :=
      (ho.packetTo (k := .top) (by simp [hpc]) (by simp)).data ho.sawEmpty ho.left
    exact ho'.unlock (.inl hm) (by simp) (by simp) (by simp)
  | announce =>
    exact { ho with
      stopPacket := by simp
      bucketLast := fun _ ↦ rfl
      packetInside := by simp }
  | finish hpc => exact ho.broadcast.packetTo (by simp [Threading.broadcast, hpc]) (by simp)

theorem Orderly.bucketStep (ho : Orderly s) (h : bucketStep c s = .ok s') : Orderly s' := by
  cases bucketStep_ok h with
  | testStop hpc =>
    by_cases hstop : s.stopPacketThread = true
    · rw [if_pos hstop]
      exact ho.bucketTo (by simp [hpc]) (fun _ ↦ hstop) (by simp)
    · rw [if_neg hstop]
      exact ho.bucketTo (by simp [hpc]) (by simp) (by simp)
  | testQ1 hpc =>
    have hstop := ho.bucketLast (.inl hpc)
    by_cases hq : s.q1 = []
    · rw [if_pos hq]
      exact ho.bucketTo (by simp [hpc]) (fun _ ↦ hstop) (by simp)
    · rw [if_neg hq]
      exact ho.bucketTo (by simp [hpc]) (fun _ ↦ hstop) (by simp)
  | lock hpc hm => exact (ho.lock hm .bucket).bucketTo (by simp [hpc]) (by simp) fun _ ↦ rfl
  | tick hpc =>
    have hm : s.mutex = some .bucket := ho.bucketInside (by simp [hpc])
    have hq := ho.alone hm (by simp) (ho.running_of_bucket (by simp [hpc]) (by simp [hpc]))
    obtain ⟨hpc', hm'⟩ := tick_control c s
    exact (ho.tick c hq).bucketTo (by simp [hpc', hpc]) (by simp) fun _ ↦ hm'.trans hm
  | unlock hpc =>
    have hm : s.mutex = some .bucket := ho.bucketInside (by simp [hpc])
    have ho' : Orderly { s with bucket := .testStop } :=
      ho.bucketTo (by simp [hpc]) (by simp) (by simp)
    exact ho'.unlock (.inl hm) (by simp) (by simp) (by simp)
  | announce hpc =>
    exact { ho with
      stopBucket := by simp
      bucketLast := fun _ ↦ ho.bucketLast (.inr (.inl hpc))
      bucketInside := by simp
      serverInside := fun _ _ ↦ .inr rfl
      leaving := fun _ _ ↦ rfl }
  | finish hpc =>
    exact ho.broadcast.bucketTo (by simp [Threading.broadcast, hpc]) (by simp) (by simp)

theorem Orderly.unlock_goto (ho : Orderly s)
    (hm : s.mutex = some (.server i) ∨ s.stopBucketThread = true) (hin : ¬pc.Inside)
    (hsaw : ¬pc.SawEmpty) (hleaving : pc.Leaving → s.stopBucketThread = true)
    (hleft : pc.Left → s.q2 = []) : Orderly ((Threading.unlock s).goto i pc) := by
  have ho' : Orderly (s.goto i pc) :=
    ho.goto (absurd · hin) (absurd · hsaw) hleaving hleft
  refine ho'.unlock hm (by simp) (by simp) fun j hj ↦ ?_
  obtain rfl : i = j := by simpa using hj
  simpa using hin

theorem Orderly.serverStep (ho : Orderly s) (h : serverStep i s = .ok s') : Orderly s' := by
  have hinside (hpc : (s.server i).Inside) := ho.serverInside i hpc
  cases serverStep_ok h with
  | lock _ hm =>
    exact (ho.lock hm (.server i)).goto (fun _ ↦ .inl rfl) (by simp) (by simp) (by simp)
  | testQ2 hpc =>
    have hm := hinside (by simp [hpc])
    by_cases hq : s.q2 = []
    · rw [if_pos hq]
      exact ho.goto (fun _ ↦ hm) (fun _ ↦ hq) (by simp) (fun _ ↦ hq)
    · rw [if_neg hq]
      exact ho.goto (fun _ ↦ hm) (by simp) (by simp) (by simp)
  | testBucket hpc | testPacket hpc =>
    have hm := hinside (by simp [hpc])
    have hq := ho.sawEmpty i (by simp [hpc])
    refine ho.goto (fun _ ↦ hm) (fun _ ↦ hq) (fun hl ↦ ?_) (fun _ ↦ hq)
    split at hl <;> simp at hl
  | wait hpc | unlock hpc =>
    exact ho.unlock_goto (hinside (by simp [hpc])) (by simp) (by simp) (by simp) (by simp)
  | empty | serve => exact ho.goto (by simp) (by simp) (by simp) (by simp)
  | @take p q hpc hq =>
    have hm := hinside (by simp [hpc])
    have hsome : s.q2 ≠ [] := by simp [hq]
    have ho' : Orderly { s with q2 := q, taken := s.taken ++ [(i, p)] } :=
      ho.data (fun j hj ↦ absurd (ho.sawEmpty j hj) hsome) fun j hj ↦ absurd (ho.left j hj) hsome
    exact ho'.goto (fun _ ↦ hm) (by simp) (by simp) (by simp)
  | finalBucket =>
    by_cases hstop : s.stopBucketThread = true
    · rw [if_pos hstop]
      exact ho.goto (fun _ ↦ .inr hstop) (by simp) (fun _ ↦ hstop) (by simp)
    · rw [if_neg hstop]
      exact ho.goto (by simp) (by simp) (by simp) (by simp)
  | finalPacket hpc =>
    have hstop := ho.leaving i (by simp [hpc])
    refine ho.goto (fun _ ↦ .inr hstop) (fun hs ↦ ?_) (fun _ ↦ hstop) (fun hs ↦ ?_) <;>
      split at hs <;> simp at hs
  | finalQ2 hpc =>
    have hstop := ho.leaving i (by simp [hpc])
    by_cases hq : s.q2 = []
    · rw [if_pos hq]
      exact ho.goto (fun _ ↦ .inr hstop) (fun _ ↦ hq) (fun _ ↦ hstop) (fun _ ↦ hq)
    · rw [if_neg hq]
      exact ho.goto (fun _ ↦ .inr hstop) (by simp) (fun _ ↦ hstop) (by simp)
  | leave hpc =>
    have hstop := ho.leaving i (by simp [hpc])
    have hq := ho.left i (by simp [hpc])
    exact ho.unlock_goto (.inr hstop) (by simp) (by simp) (fun _ ↦ hstop) (fun _ ↦ hq)

theorem Orderly.step {e : Event} (ho : Orderly s) (h : step c s e = .ok s') : Orderly s' := by
  cases e with
  | packet => exact ho.packetStep h
  | bucket => exact ho.bucketStep h
  | server i => exact ho.serverStep h
  | spurious i =>
    simp only [Threading.step] at h
    split at h
    · rw [pure_eq_ok] at h
      subst h
      exact ho.goto (by simp) (by simp)
        (by simp) (by simp)
    · cases h

end step

variable {h : List Event}

theorem orderly {c : Config} {s : State}
    (hr : Run (ofStep (step c)) start h s) : Orderly s :=
  hr.invariant (fun _ _ _ ho hs ↦ ho.step hs) .start

theorem placed {c : Config} {s : State}
    (hr : Run (ofStep (step c)) start h s) : Placed s.data :=
  hr.invariant (I := fun s ↦ Placed s.data) (fun _ _ _ hp hs ↦ hp.effect (step_effect hs))
    ⟨.refl _, rfl, .nil⟩

/-! ## After the last broadcast -/

section last

variable {c : Config} {s s' : State} {e : Event}

/-- A producer is about to send the last broadcast. -/
def LastBroadcast (s : State) : Event → Prop
  | .packet => s.packet = .announcing ∧ s.bucket = .done
  | .bucket => s.bucket = .announcing ∧ s.packet = .done
  | _ => False

/-- The last broadcast is not sent while a server stands between its test of the flags
and its `pthread_cond_wait`. -/
def Timely (s : State) (e : Event) : Prop := LastBroadcast s e → ∀ i, s.server i ≠ .wait

instance (s : State) (e : Event) : Decidable (LastBroadcast s e) := by
  cases e <;> unfold LastBroadcast <;> infer_instance

/-- No server sleeps or is about to. -/
def Awake (s : State) : Prop := ∀ i, s.server i ≠ .wait ∧ s.server i ≠ .waiting

theorem Awake.goto (ha : Awake s) (hw : pc ≠ .wait)
    (hw' : pc ≠ .waiting) : Awake (s.goto i pc) := by
  intro j
  by_cases hji : j = i
  · subst hji
    simpa using ⟨hw, hw'⟩
  · simpa [goto_of_ne hji] using ha j

theorem serverStep_producers (h : serverStep i s = .ok s') :
    s'.packet = s.packet ∧ s'.bucket = s.bucket := by
  cases serverStep_ok h <;> exact ⟨rfl, rfl⟩

theorem Awake.serverStep (ha : Awake s) (hp : s.stopPacketThread = true)
    (hb : s.stopBucketThread = true) (h : serverStep i s = .ok s') : Awake s' := by
  cases serverStep_ok h with
  | lock => exact Awake.goto ha (by simp) (by simp)
  | empty | serve => exact ha.goto (by simp) (by simp)
  | take => exact Awake.goto ha (by simp) (by simp)
  | wait hpc => exact absurd hpc (ha i).1
  | unlock | leave => exact Awake.goto ha (by simp) (by simp)
  | testQ2 | finalQ2 => refine ha.goto ?_ ?_ <;> split <;> simp
  | testBucket | testPacket | finalBucket | finalPacket =>
    refine ha.goto ?_ ?_ <;> simp [hp, hb]

theorem Awake.step (ho : Orderly s) (hover : Over s) (ha : Awake s) (h : step c s e = .ok s') :
    Over s' ∧ Awake s' := by
  have hb : s.stopBucketThread = true := ho.stopBucket.mpr (.inr hover.2)
  have hp : s.stopPacketThread = true := ho.stopPacket.mpr (.inr hover.1)
  cases e with
  | packet => simp [Threading.step, packetStep, hover.1, throw, throwThe, MonadExceptOf.throw] at h
  | bucket => simp [Threading.step, bucketStep, hover.2, throw, throwThe, MonadExceptOf.throw] at h
  | server i =>
    obtain ⟨hp', hb'⟩ := serverStep_producers h
    exact ⟨⟨hp'.trans hover.1, hb'.trans hover.2⟩, ha.serverStep hp hb h⟩
  | spurious i =>
    simp only [Threading.step] at h
    split at h
    · next hw => exact absurd hw (ha i).2
    · cases h

theorem LastBroadcast.step (hl : LastBroadcast s e) (h : step c s e = .ok s') :
    Over s' ∧ s'.q2 = s.q2 ∧ ∀ i, s'.server i = (s.server i).wake := by
  cases e with
  | packet =>
    simp only [Threading.step, packetStep, hl.1] at h
    rw [pure_eq_ok] at h
    subst h
    exact ⟨⟨rfl, hl.2⟩, rfl, fun _ ↦ rfl⟩
  | bucket =>
    simp only [Threading.step, bucketStep, hl.1] at h
    rw [pure_eq_ok] at h
    subst h
    exact ⟨⟨hl.2, rfl⟩, rfl, fun _ ↦ rfl⟩
  | server | spurious => exact hl.elim

/-- Only the last broadcast ends both producers. -/
theorem lastBroadcast_of_over (h : step c s e = .ok s') (hs : ¬Over s) (hs' : Over s') :
    LastBroadcast s e := by
  cases e with
  | packet =>
    cases packetStep_ok h with
    | finish hpc => exact ⟨hpc, hs'.2⟩
    | _ => cases hs'.1
  | bucket =>
    cases bucketStep_ok h with
    | finish hpc => exact ⟨hpc, hs'.1⟩
    | testStop | testQ1 =>
      have hdone := hs'.2
      simp only [] at hdone
      split at hdone <;> cases hdone
    | _ => cases hs'.2
  | server i =>
    obtain ⟨hp, hb⟩ := serverStep_producers h
    exact absurd ⟨hp.symm.trans hs'.1, hb.symm.trans hs'.2⟩ hs
  | spurious i =>
    simp only [step] at h
    split at h
    · rw [pure_eq_ok] at h
      subst h
      exact absurd hs' hs
    · cases h

theorem LastBroadcast.awake (hl : LastBroadcast s e) (h : Threading.step c s e = .ok s')
    (ht : Timely s e) : Awake s' := by
  intro i
  obtain ⟨-, -, hw⟩ := hl.step h
  rw [hw i]
  refine ⟨?_, wake_ne_waiting⟩
  have hi := ht hl i
  cases hpc : s.server i <;> simp_all [ServerPc.wake]

theorem not_hung_of_awake {s'' : State} (ho : Orderly s) (hover : Over s)
    (ha : Awake s) (hr : Run (ofStep (step c)) s h s'') : ¬Hung s'' := by
  have hinv : Orderly s'' ∧ Over s'' ∧ Awake s'' :=
    hr.invariant (I := fun s ↦ Orderly s ∧ Over s ∧ Awake s)
      (fun _ _ _ hi hs ↦ ⟨hi.1.step hs, Awake.step hi.1 hi.2.1 hi.2.2 hs⟩) ⟨ho, hover, ha⟩
  rintro ⟨-, -, -, i, hi⟩
  exact (hinv.2.2 i).2 hi

theorem hung_of_wait (ho : Orderly s) (hl : LastBroadcast s e)
    (h : step c s e = .ok s') (hi : s.server i = .wait) :
    ∃ s'', step c s' (.server i) = .ok s'' ∧ Hung s'' := by
  obtain ⟨hover, hq, hw⟩ := hl.step h
  have hi' : s'.server i = .wait := by simp [hw i, hi, ServerPc.wake]
  refine ⟨(unlock s').goto i .waiting, ?_, hover.1, hover.2, ?_, i, by simp⟩
  · simp only [step, serverStep, hi']
    rfl
  · exact hq.trans (ho.sawEmpty i (by simp [hi]))

end last

/-- **The end of the emulation.**  A server terminates only when both producers have
stopped and every packet that entered Q2 was taken.  A run in which the last broadcast is
timely never hangs; and after a last broadcast the emulation can hang exactly when it was
not. -/
theorem shutdown_strands_nothing_iff (c : Config) :
    (∀ h s, Run (ofStep (step c)) start h s → ∀ i, s.server i = .done →
      s.stopPacketThread = true ∧ s.stopBucketThread = true ∧
        s.taken.map Prod.snd = s.leftQ1) ∧
    (∀ h s, Run (restrict (ofStep (step c)) Timely) start h s → ¬Hung s) ∧
    (∀ h s e s', Run (ofStep (step c)) start h s → step c s e = .ok s' → LastBroadcast s e →
      ((∀ h' s'', Run (ofStep (step c)) s' h' s'' → ¬Hung s'') ↔ Timely s e)) := by
  refine ⟨fun h s hr i hi ↦ ?_, fun h s hr ↦ ?_, fun h s e s' hr hs hl ↦ ⟨fun hn _ i hi ↦ ?_, ?_⟩⟩
  · have ho := orderly hr
    have hb := ho.leaving i (by simp [hi])
    have hq := ho.left i (by simp [hi])
    have hleft : s.leftQ1 = s.taken.map Prod.snd ++ s.q2 := (placed hr).left
    refine ⟨ho.bucketLast (.inr (.inr hb)), hb, ?_⟩
    rw [hleft, hq, List.append_nil]
  · have hinv : Orderly s ∧ (Over s → Awake s) :=
      hr.invariant (I := fun s ↦ Orderly s ∧ (Over s → Awake s))
        (fun s e s' hi hs ↦ by
          refine ⟨hi.1.step hs.2, fun hover' ↦ ?_⟩
          by_cases hover : Over s
          · exact (Awake.step hi.1 hover (hi.2 hover) hs.2).2
          · exact (lastBroadcast_of_over hs.2 hover hover').awake hs.2 hs.1)
        ⟨.start, by simp [Over, start]⟩
    rintro ⟨hp, hb, -, i, hi⟩
    exact (hinv.2 ⟨hp, hb⟩ i).2 hi
  · obtain ⟨s'', hs'', hh⟩ := hung_of_wait (orderly hr) hl hs hi
    exact hn _ s'' (.step .start hs'') hh
  · intro ht h' s'' hr'
    exact not_hung_of_awake ((orderly hr).step hs) (hl.step hs).1 (hl.awake hs ht) hr'

/-- The packet is served; then the bucket thread stops and sends its broadcast after the
first server has tested the flags and before it waits. -/
def overtaken : List Event :=
  List.replicate 7 .packet ++ List.replicate 7 .bucket ++ List.replicate 9 (.server .one) ++
    List.replicate 2 .bucket ++ [.server .one]

/-- The emulation hangs. -/
theorem overtaken_hangs : ∃ s, Run (ofStep (step onePacket.config)) start overtaken.reverse s ∧
    Hung s := by
  have hcheck : check (step onePacket.config) start overtaken (fun s ↦ decide (s.packet = .done ∧
      s.bucket = .done ∧ s.q2 = [] ∧ s.server .one = .waiting)) = true := by
    decide +kernel
  obtain ⟨s, hs, hp⟩ := exists_of_check hcheck
  obtain ⟨hpacket, hbucket, hq, hi⟩ := of_decide_eq_true hp
  exact ⟨s, Run.of_exec hs, hpacket, hbucket, hq, .one, hi⟩

/-- The same emulation, with a bucket thread that stops while the servers sleep. -/
def inTime : List Event :=
  List.replicate 7 .packet ++ List.replicate 7 .bucket ++ List.replicate 10 (.server .one) ++
    List.replicate 4 (.server .two) ++ List.replicate 2 .bucket ++ List.replicate 9 (.server .one)

instance (s : State) (e : Event) : Decidable (Timely s e) :=
  decidable_of_iff (LastBroadcast s e → s.server .one ≠ .wait ∧ s.server .two ≠ .wait)
    ⟨fun h hl i ↦ by cases i <;> simp [h hl], fun h hl ↦ ⟨h hl _, h hl _⟩⟩

theorem inTime_strands_nothing :
    ∃ s, Run (restrict (ofStep (step onePacket.config)) Timely) start inTime.reverse s ∧
      Over s ∧ s.server .one = .done ∧ ¬Hung s := by
  have hcheck : check (guarded .done (step onePacket.config) Timely) start inTime
      (fun s ↦ decide (Over s ∧ s.server .one = .done)) = true := by
    decide +kernel
  obtain ⟨s, hs, hp⟩ := exists_of_check hcheck
  have hr := Run.of_exec_guarded hs
  obtain ⟨hover, hi⟩ := of_decide_eq_true hp
  exact ⟨s, hr, hover, hi, (shutdown_strands_nothing_iff onePacket.config).2.1 _ s hr⟩

end CS402.Threading

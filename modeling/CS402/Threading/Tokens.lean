import CS402.Threading.Emulation
import Mathlib.Algebra.BigOperators.Group.List.Basic
import Mathlib.Data.List.Perm.Basic
import Mathlib.Data.List.Pairwise
import Mathlib.Data.List.Range
import Mathlib.Tactic.Ring

/-!
# Tokens and packets are accounted for

The tokens that were ever generated are in the bucket, were dropped, or went with a
packet out of Q1; and a packet is in one place at a time and overtakes no other.

Few steps touch the queues or the bucket.  `step_effect` says which: it is the only
place where the threads' code is looked at, and everything after it is about the six
effects that a step can have on the `Data` of a state.
-/

namespace CS402.Threading

open Lib

/-- The packet that the packet thread has in its hands. -/
def PacketPc.hand : PacketPc → List Packet
  | .arriving p | .inside p => [p]
  | _ => []

/-- The part of a state that is about tokens and packets. -/
structure Data where
  q1 : List Packet
  q2 : List Packet
  tokens : ℤ
  total : ℤ
  discarded : ℤ
  created : ℕ
  dropped : List Packet
  leftQ1 : List Packet
  taken : List (Server × Packet)
  hand : List Packet

/-- The tokens and packets of a state. -/
def State.data (s : State) : Data where
  q1 := s.q1
  q2 := s.q2
  tokens := s.currentTokenNumber
  total := s.totalTokenCount
  discarded := s.droppedTokenCount
  created := s.totalPacketCount
  dropped := s.dropped
  leftQ1 := s.leftQ1
  taken := s.taken
  hand := s.packet.hand

namespace Data

/-- The first packet of Q1 leaves with its tokens. -/
def leave (d : Data) : Data :=
  match d.q1 with
  | [] => d
  | p :: q =>
    if p.requiredToken ≤ d.tokens then
      { d with
        q1 := q
        q2 := d.q2 ++ [p]
        leftQ1 := d.leftQ1 ++ [p]
        tokens := int32 (d.tokens - p.requiredToken) }
    else d

/-- A token arrives. -/
def tick (c : Config) (d : Data) : Data :=
  if c.bucketSize ≤ d.tokens then
    { d with total := int32 (d.total + 1), discarded := int32 (d.discarded + 1) }
  else leave { d with total := int32 (d.total + 1), tokens := int32 (d.tokens + 1) }

end Data

/-- What a step can do to the data. -/
inductive Effect (c : Config) (d : Data) : Data → Prop
  | none : Effect c d d
  | create : d.hand = [] → Effect c d
      { d with created := d.created + 1, hand := [⟨d.created + 1, c.required (d.created + 1)⟩] }
  | drop {p : Packet} : d.hand = [p] →
      Effect c d { d with dropped := d.dropped ++ [p], hand := [] }
  | enter {p : Packet} : d.hand = [p] →
      Effect c d (Data.leave { d with q1 := d.q1 ++ [p], hand := [] })
  | tick : Effect c d (d.tick c)
  | take {i : Server} {p : Packet} {q : List Packet} : d.q2 = p :: q →
      Effect c d { d with q2 := q, taken := d.taken ++ [(i, p)] }

theorem data_leaveQ1 (s : State) : (leaveQ1 s).data = s.data.leave := by
  unfold leaveQ1 Data.leave
  cases hq : s.q1 with
  | nil => simp [State.data, hq]
  | cons p q =>
    by_cases hp : p.requiredToken ≤ s.currentTokenNumber
    · simp [State.data, hq, hp, broadcast]
    · simp [State.data, hq, hp]

theorem data_tick (c : Config) (s : State) : (tick c s).data = s.data.tick c := by
  by_cases h : c.bucketSize ≤ s.currentTokenNumber
  · simp [tick, Data.tick, State.data, h]
  · simp only [tick, Data.tick, State.data, h, if_false]
    exact data_leaveQ1 _

/-! ## The effect of a step -/

section steps

variable {c : Config} {s s' : State}

theorem Effect.of_eq (h : s'.data = s.data) : Effect c s.data s'.data := h ▸ .none

theorem packetStep_effect (h : packetStep c s = .ok s') : Effect c s.data s'.data := by
  cases packetStep_ok h with
  | stop hpc | unlock hpc | announce hpc | finish hpc | lock hpc =>
    exact .of_eq (by simp [State.data, hpc, PacketPc.hand, unlock, broadcast])
  | create hpc => exact .create (by simp [State.data, hpc, PacketPc.hand])
  | drop hpc => exact .drop (by simp [State.data, hpc, PacketPc.hand])
  | @enter p hpc =>
    have hhand : s.data.hand = [p] := by simp [State.data, hpc, PacketPc.hand]
    have hdata : ({ enterQ1 s p with packet := .unlocking } : State).data =
        Data.leave { s.data with q1 := s.data.q1 ++ [p], hand := [] } :=
      data_leaveQ1 { s with q1 := s.q1 ++ [p], packet := .unlocking } ▸ by
        unfold enterQ1 leaveQ1
        cases s.q1 ++ [p] with
        | nil => rfl
        | cons => simp only []; split <;> rfl
    exact hdata ▸ .enter hhand

theorem bucketStep_effect (h : bucketStep c s = .ok s') : Effect c s.data s'.data := by
  cases bucketStep_ok h with
  | tick => exact data_tick c s ▸ .tick
  | _ => exact .none

theorem serverStep_effect {i : Server} (h : serverStep i s = .ok s') : Effect c s.data s'.data := by
  cases serverStep_ok h with
  | take _ hq => exact .take hq
  | _ => exact .none

theorem step_effect {e : Event} (h : step c s e = .ok s') : Effect c s.data s'.data := by
  cases e with
  | packet => exact packetStep_effect h
  | bucket => exact bucketStep_effect h
  | server i => exact serverStep_effect h
  | spurious i =>
    simp only [step] at h
    split at h
    · rw [pure_eq_ok] at h
      subst h
      exact .none
    · cases h

end steps

/-! ## The bucket -/

/-- The tokens that a list of packets took with them. -/
def spent (l : List Packet) : ℤ := (l.map Packet.requiredToken).sum

@[simp] theorem spent_append (l l' : List Packet) : spent (l ++ l') = spent l + spent l' := by
  simp [spent]

@[simp] theorem spent_singleton (p : Packet) : spent [p] = p.requiredToken := by
  simp [spent]

/-- The bucket is neither overdrawn nor overfull, and the first packet of Q1 requires more
tokens than it holds. -/
structure Filled (a : Parameters) (d : Data) : Prop where
  nonneg : 0 ≤ d.tokens
  le : d.tokens ≤ a.bucketSize
  required : ∀ p ∈ d.q1 ++ d.hand, p.requiredToken = a.tokenRequired
  starved : d.q1 = [] ∨ d.tokens < a.tokenRequired

variable {d : Data} {a : Parameters}

/-- A packet that leaves can do so at most once in a row: what it leaves behind is less
than the next one requires. -/
theorem Filled.leave (h₀ : 0 ≤ d.tokens)
    (hB : d.tokens ≤ a.bucketSize)
    (hreq : ∀ p ∈ d.q1 ++ d.hand, p.requiredToken = a.tokenRequired)
    (hone : d.q1.tail = [] ∨ d.tokens ≤ a.tokenRequired) : Filled a d.leave := by
  have hP := a.tokenRequired_pos
  have hlt := a.bucketSize_lt
  unfold Data.leave
  split
  · next hq => exact ⟨h₀, hB, hreq, .inl hq⟩
  · next p q hq =>
    have hp : p.requiredToken = a.tokenRequired := hreq p (by simp [hq])
    split
    · next hle =>
      have hcur : int32 (d.tokens - p.requiredToken) = d.tokens - p.requiredToken :=
        int32_of_range (by omega) (by omega)
      refine ⟨?_, ?_, fun r hr ↦ hreq r ?_, ?_⟩
      · show 0 ≤ int32 _
        omega
      · show int32 _ ≤ a.bucketSize
        omega
      · simp only [List.mem_append] at hr ⊢
        exact hr.imp_left fun hr ↦ hq ▸ List.mem_cons_of_mem p hr
      · show q = [] ∨ int32 _ < a.tokenRequired
        rw [hq, List.tail_cons] at hone
        exact hone.imp_right fun hle' ↦ by omega
    · next hgt => exact ⟨h₀, hB, hreq, .inr (by omega)⟩

variable {d' : Data}

theorem Filled.effect (hf : Filled a d)
    (he : Effect a.config d d') : Filled a d' := by
  have hP := a.tokenRequired_pos
  have hlt := a.bucketSize_lt
  cases he with
  | none => exact hf
  | create hhand =>
    refine ⟨hf.nonneg, hf.le, fun p hp ↦ ?_, hf.starved⟩
    simp only [List.mem_append, List.mem_singleton] at hp
    rcases hp with hp | rfl
    · exact hf.required p (by simp [hp])
    · rfl
  | drop hhand => exact ⟨hf.nonneg, hf.le, fun p hp ↦ hf.required p (by simp_all), hf.starved⟩
  | enter hhand =>
    refine .leave hf.nonneg hf.le (fun p hp ↦ hf.required p (by simp_all)) ?_
    rcases hf.starved with hq | hlt
    · exact .inl (by simp [hq])
    · exact .inr hlt.le
  | tick =>
    unfold Data.tick
    split
    · exact ⟨hf.nonneg, hf.le, hf.required, hf.starved⟩
    · next hroom =>
      have hroom : d.tokens < a.bucketSize := not_le.mp hroom
      have hcur : int32 (d.tokens + 1) = d.tokens + 1 :=
        int32_of_range (by have := hf.nonneg; omega) (by omega)
      rw [hcur]
      refine .leave ?_ ?_ hf.required ?_
      · exact Int.add_nonneg hf.nonneg (by decide)
      · exact hroom
      · rcases hf.starved with hq | hlt
        · exact .inl (by simp [hq])
        · exact .inr hlt
  | take hq => exact ⟨hf.nonneg, hf.le, hf.required, hf.starved⟩

/-! ## The token counters -/

/-- `n` tokens were generated and `k` of them dropped; the rest are in the bucket or have
left Q1. -/
structure Counted (n k : ℕ) (d : Data) : Prop where
  total : d.total = int32 n
  discarded : d.discarded = int32 k
  balance : (n : ℤ) = d.tokens + k + spent d.leftQ1
  le : k ≤ n

variable {n : ℕ}

theorem int32_add_one {m : ℤ} (h : m = int32 n) : int32 (m + 1) = int32 (n + 1 : ℕ) := by
  rw [h, int32, int32, int32, Int.bmod_add_bmod, Nat.cast_succ]

variable {k : ℕ}

theorem Counted.leave (hc : Counted n k d)
    (hB : d.tokens ≤ a.bucketSize)
    (hreq : ∀ p ∈ d.q1, p.requiredToken = a.tokenRequired) : Counted n k d.leave := by
  have hP := a.tokenRequired_pos
  have hlt := a.bucketSize_lt
  unfold Data.leave
  split
  · exact hc
  · next p q hq =>
    split
    · next hle =>
      have hp : p.requiredToken = a.tokenRequired := hreq p (by simp [hq])
      have hcur : int32 (d.tokens - p.requiredToken) = d.tokens - p.requiredToken :=
        int32_of_range (by omega) (by omega)
      refine ⟨hc.total, hc.discarded, ?_, hc.le⟩
      have hbal := hc.balance
      simp only [hcur, spent_append, spent_singleton]
      omega
    · exact hc

theorem Counted.effect (hc : Counted n k d)
    (hf : Filled a d) (he : Effect a.config d d') : ∃ n' ≤ n + 1, ∃ k', Counted n' k' d' := by
  cases he with
  | none => exact ⟨n, n.le_succ, k, hc⟩
  | create | drop | take => exact ⟨n, n.le_succ, k, hc.total, hc.discarded, hc.balance, hc.le⟩
  | enter hhand =>
    refine ⟨n, n.le_succ, k, .leave ⟨hc.total, hc.discarded, hc.balance, hc.le⟩ hf.le
      fun p hp ↦ hf.required p ?_⟩
    simp_all
  | tick =>
    have hlt := a.bucketSize_lt
    unfold Data.tick
    split
    · refine ⟨n + 1, le_rfl, k + 1, int32_add_one hc.total, int32_add_one hc.discarded, ?_, ?_⟩
      · have hbal := hc.balance
        push_cast
        omega
      · have := hc.le
        omega
    · next hroom =>
      have hroom : d.tokens < a.bucketSize := not_le.mp hroom
      have hcur : int32 (d.tokens + 1) = d.tokens + 1 :=
        int32_of_range (by have := hf.nonneg; omega) (by omega)
      rw [hcur]
      refine ⟨n + 1, le_rfl, k, .leave (a := a) ⟨int32_add_one hc.total, hc.discarded, ?_, ?_⟩ ?_ ?_⟩
      · have hbal := hc.balance
        push_cast
        omega
      · have := hc.le
        omega
      · exact hroom
      · exact fun p hp ↦ hf.required p (by simp_all)

theorem Counted.equation (hc : Counted n k d) :
    d.total = int32 (d.tokens + d.discarded + spent d.leftQ1) := by
  rw [hc.total, hc.balance, hc.discarded]
  unfold int32
  rw [Int.add_right_comm _ (Int.bmod _ _), Int.add_bmod_bmod, Int.add_right_comm]

theorem Counted.equation_of_lt (hc : Counted n k d) (hn : n < 2 ^ 31) :
    d.total = d.tokens + d.discarded + spent d.leftQ1 := by
  have hle := hc.le
  rw [hc.total, hc.discarded, int32_of_range (by omega) (by omega),
    int32_of_range (by omega) (by omega), hc.balance]

/-! ## The packets -/

/-- Every packet that was made is in one place, and no packet overtakes another. -/
structure Placed (d : Data) : Prop where
  places : (List.range' 1 d.created).Perm
    ((d.dropped ++ d.leftQ1 ++ d.q1 ++ d.hand).map Packet.packetId)
  left : d.leftQ1 = d.taken.map Prod.snd ++ d.q2
  ordered : ((d.leftQ1 ++ d.q1 ++ d.hand).map Packet.packetId).Pairwise (· < ·)

theorem Placed.leave (hp : Placed d) : Placed d.leave := by
  unfold Data.leave
  split
  · exact hp
  · next p q hq =>
    split
    · refine ⟨?_, ?_, ?_⟩
      · simpa [hq] using hp.places
      · simp [hp.left]
      · simpa [hq] using hp.ordered
    · exact hp

theorem Placed.packetId_le (hp : Placed d) {p : Packet}
    (h : p ∈ d.dropped ++ d.leftQ1 ++ d.q1 ++ d.hand) : p.packetId ≤ d.created := by
  have hmem : p.packetId ∈ List.range' 1 d.created :=
    hp.places.mem_iff.mpr (List.mem_map_of_mem h)
  rw [List.mem_range'_1] at hmem
  omega

theorem Placed.effect {c : Config} (hp : Placed d) (he : Effect c d d') : Placed d' := by
  cases he with
  | none => exact hp
  | create hhand =>
    have hplaces := hp.places
    have hordered := hp.ordered
    rw [hhand, List.append_nil] at hplaces hordered
    refine ⟨?_, hp.left, ?_⟩
    · rw [List.range'_1_concat, List.map_append, Nat.add_comm 1]
      exact hplaces.append_right _
    · rw [List.map_append, List.pairwise_append]
      refine ⟨hordered, List.pairwise_singleton _ _, fun m hm n hn ↦ ?_⟩
      -- the new number is larger than all that were given out
      obtain ⟨p, hp', rfl⟩ := List.mem_map.mp hm
      have hle := hp.packetId_le (by simp only [List.mem_append] at hp' ⊢; tauto)
      simp only [List.map_cons, List.map_nil, List.mem_singleton] at hn
      omega
  | @drop p hhand =>
    have hplaces := hp.places
    have hordered := hp.ordered
    rw [hhand] at hplaces hordered
    refine ⟨hplaces.trans (List.Perm.map _ ?_), hp.left, ?_⟩
    · simp only [List.append_assoc, List.append_nil]
      refine List.Perm.append_left _ ?_
      rw [← List.append_assoc]
      exact List.perm_append_comm
    · rw [List.append_nil]
      rw [List.map_append] at hordered
      exact (List.pairwise_append.mp hordered).1
  | enter hhand =>
    refine .leave ⟨?_, hp.left, ?_⟩
    · simpa [hhand] using hp.places
    · simpa [hhand] using hp.ordered
  | tick =>
    unfold Data.tick
    split
    · exact ⟨hp.places, hp.left, hp.ordered⟩
    · exact .leave ⟨hp.places, hp.left, hp.ordered⟩
  | take hq => exact ⟨hp.places, by simp [hp.left, hq], hp.ordered⟩

/-! ## Every run -/

/-- What the steps so far maintain. -/
def Accounted (a : Parameters) (h : List Event) (s : State) : Prop :=
  Filled a s.data ∧ Placed s.data ∧ ∃ n ≤ h.length, ∃ k, Counted n k s.data

theorem accounted {h : List Event} {s : State}
    (hr : Run (ofStep (step a.config)) start h s) : Accounted a h s := by
  refine hr.history ?_ ?_
  · rintro h s e s' ⟨hf, hp, n, hn, k, hc⟩ hs
    have heff := step_effect hs
    obtain ⟨n', hn', k', hc'⟩ := hc.effect hf heff
    exact ⟨hf.effect heff, hp.effect heff, n', by simp only [List.length_cons]; omega, k', hc'⟩
  · have hB := a.bucketSize_pos
    refine ⟨⟨le_rfl, ?_, by simp [start, State.data, PacketPc.hand], .inl rfl⟩,
      ⟨.refl _, rfl, .nil⟩, 0, le_rfl, 0, by decide, by decide, rfl, le_rfl⟩
    exact Int.le_trans (by decide) hB

/-- **The emulation keeps its books**, in every run of the four threads: the bucket holds
between `0` and `B` tokens; every token is in the bucket, was dropped or left Q1 with a
packet, as numbers until `total_token_count` wraps around and in the arithmetic of `int`
after that; no packet waits in Q1 for tokens that are there; and the packets made so far
are each in one place, leave Q1 in the order of their arrival, and leave Q2 in the order in
which they left Q1. -/
theorem emulation_accounts {a : Parameters} {h : List Event} {s : State}
    (hr : Run (ofStep (step a.config)) start h s) :
    (0 ≤ s.currentTokenNumber ∧ s.currentTokenNumber ≤ a.bucketSize) ∧
    s.totalTokenCount = int32 (s.currentTokenNumber + s.droppedTokenCount + spent s.leftQ1) ∧
    (h.length < 2 ^ 31 →
      s.totalTokenCount = s.currentTokenNumber + s.droppedTokenCount + spent s.leftQ1) ∧
    (s.mutex = none → ∀ p ∈ s.q1.head?, s.currentTokenNumber < p.requiredToken) ∧
    (List.range' 1 s.totalPacketCount).Perm
      ((s.packet.hand ++ s.dropped ++ s.q1 ++ s.q2 ++ s.taken.map Prod.snd).map
        Packet.packetId) ∧
    ((s.leftQ1 ++ s.q1).map Packet.packetId).Pairwise (· < ·) ∧
    s.leftQ1 = s.taken.map Prod.snd ++ s.q2 := by
  obtain ⟨hf, hp, n, hn, k, hc⟩ := accounted hr
  have hleft : s.leftQ1 = s.taken.map Prod.snd ++ s.q2 := hp.left
  refine ⟨⟨hf.nonneg, hf.le⟩, hc.equation, fun hlt ↦ hc.equation_of_lt (by omega),
    fun _ p hq ↦ ?_, hp.places.trans (List.Perm.map _ ?_), ?_, hleft⟩
  · have hmem : p ∈ s.q1 := List.mem_of_mem_head? hq
    have hreq : p.requiredToken = a.tokenRequired := hf.required p (List.mem_append_left _ hmem)
    rcases hf.starved with hnil | hlt
    · exact absurd hmem (by simp [show s.q1 = [] from hnil])
    · exact hreq ▸ hlt
  · show (s.dropped ++ s.leftQ1 ++ s.q1 ++ s.packet.hand).Perm _
    rw [hleft]
    refine List.perm_append_comm.trans ?_
    simp only [List.append_assoc]
    refine List.Perm.append_left _ (List.Perm.append_left _ ?_)
    rw [← List.append_assoc]
    refine List.perm_append_comm.trans (List.Perm.append_left _ List.perm_append_comm)
  · have hord := hp.ordered
    rw [List.map_append] at hord
    exact (List.pairwise_append.mp hord).1

/-- One packet, a bucket of one token. -/
def onePacket : Parameters where
  bucketSize := 1
  tokenRequired := 1
  packetCount := 1
  bucketSize_pos := by decide
  bucketSize_lt := by decide
  tokenRequired_pos := by decide
  tokenRequired_lt := by decide
  packetCount_pos := by decide
  packetCount_lt := by decide

/-- Two tokens arrive, the second one too early; then a packet arrives and is taken. -/
def onePacketTaken : List Event :=
  List.replicate 8 .bucket ++ List.replicate 4 .packet ++ List.replicate 3 (.server .one)

theorem onePacket_accounts : ∃ h s, Run (ofStep (step onePacket.config)) start h s ∧
    s.taken = [(.one, ⟨1, 1⟩)] ∧ s.totalTokenCount = 2 ∧
    s.totalTokenCount = int32 (s.currentTokenNumber + s.droppedTokenCount + spent s.leftQ1) := by
  have hcheck : check (step onePacket.config) start onePacketTaken
      (fun s ↦ decide (s.taken = [(.one, ⟨1, 1⟩)] ∧ s.totalTokenCount = 2)) = true := by
    decide +kernel
  obtain ⟨s, hs, hp⟩ := exists_of_check hcheck
  have hr := Run.of_exec hs
  exact ⟨_, s, hr, (of_decide_eq_true hp).1, (of_decide_eq_true hp).2,
    (emulation_accounts hr).2.1⟩

end CS402.Threading

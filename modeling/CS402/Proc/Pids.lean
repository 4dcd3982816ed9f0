import CS402.Proc.Tree

/-!
# Pids

`_proc_getid` tries the pids from `next_pid` on, around the end of the range, and gives up
when it is back where it began.  That the search ends and misses no pid is an argument about
the distance from `next_pid`; that the pids on `_proc_list` stay distinct follows, as long as
`proc_create` finds one.  When it finds none, `proc_create` takes the `-1` for a pid.
-/

namespace CS402.Proc

open Lib Function

/-- The pids of `[0, PROC_MAX_COUNT)` that no process of the list has. -/
def Unused (procMaxCount : ℕ) (used : List Int) (pid : Int) : Prop :=
  0 ≤ pid ∧ pid < procMaxCount ∧ pid ∉ used

variable {n : ℕ} (used : List Int) {next pid : Int}

/-- The search at a distance `i` from its start, when it has met used pids only. -/
theorem procGetidFrom_ok (h₀ : 0 ≤ next) (hn : next < n) {fuel i : ℕ} (hfuel : fuel + i = n + 1)
    (hi : i < n) (hpid : pid = (next + i) % n) (hused : ∀ j < i, (next + j) % n ∈ used) :
    ∃ r, procGetidFrom n used next fuel pid = .ok r ∧
      ((r = -1 ∧ ∀ j < n, (next + j) % n ∈ used) ∨ Unused n used r) := by
  induction fuel generalizing i pid with
  | zero => omega
  | succ fuel ih =>
    have hrange : 0 ≤ pid ∧ pid < n :=
      ⟨hpid ▸ Int.emod_nonneg _ (by omega), hpid ▸ Int.emod_lt_of_pos _ (by omega)⟩
    unfold procGetidFrom
    by_cases hin : pid ∈ used
    · have hused' : ∀ j < i + 1, (next + j) % n ∈ used := by
        intro j hj
        rcases Nat.lt_succ_iff_lt_or_eq.mp hj with hj | rfl
        · exact hused j hj
        · exact hpid ▸ hin
      have hpid' : (pid + 1) % n = (next + (i + 1 : ℕ)) % n := by
        rw [hpid, Int.emod_add_emod]
        congr 1
        omega
      rw [if_pos hin]
      by_cases hlast : i + 1 = n
      · -- the search has come around
        have hback : (pid + 1) % n = next := by
          rw [hpid', hlast, Int.add_emod_right, Int.emod_eq_of_lt h₀ hn]
        exact ⟨-1, if_pos hback, .inl ⟨rfl, hlast ▸ hused'⟩⟩
      · have hne : (pid + 1) % n ≠ next := by
          intro he
          have hdvd := Int.le_of_dvd (by omega) (Int.dvd_self_sub_of_emod_eq (hpid' ▸ he))
          omega
        rw [if_neg hne]
        exact ih (by omega) (by omega) hpid' hused'
    · rw [if_neg hin]
      exact ⟨pid, rfl, .inr ⟨hrange.1, hrange.2, hin⟩⟩

theorem procGetid_ok (h₀ : 0 ≤ next) (hn : next < n) :
    ∃ pid next', procGetid n used next = .ok (pid, next') ∧ 0 ≤ next' ∧ next' < n ∧
      ((pid = -1 ∧ ∀ q, ¬Unused n used q) ∨ Unused n used pid) := by
  have hstart : next = (next + (0 : ℕ)) % n := by simp [Int.emod_eq_of_lt h₀ hn]
  obtain ⟨r, hr, hcase⟩ := procGetidFrom_ok used h₀ hn (i := 0) rfl (by omega) hstart
    fun _ hj ↦ absurd hj (Nat.not_lt_zero _)
  have hpos : (0 : Int) < n := by omega
  have hne : (n : Int) ≠ 0 := by omega
  refine ⟨r, if r = -1 then next else (r + 1) % n, by rw [procGetid, hr]; rfl, ?_, ?_, ?_⟩
  · split
    · exact h₀
    · exact Int.emod_nonneg _ hne
  · split
    · exact hn
    · exact Int.emod_lt_of_pos _ hpos
  · refine hcase.imp_left fun ⟨hr, hall⟩ ↦ ⟨hr, fun q hq ↦ hq.2.2 ?_⟩
    -- `q` is at the distance `(q - next) % n`
    have hq : (next + ((q - next) % n).toNat) % n = q := by
      rw [Int.toNat_of_nonneg (Int.emod_nonneg _ hne), Int.add_emod_emod, add_sub_cancel,
        Int.emod_eq_of_lt hq.1 hq.2.1]
    have hlt := Int.emod_lt_of_pos (q - next) hpos
    exact hq ▸ hall _ (by omega)

namespace Kernel

/-- The pids on `_proc_list`. -/
def pids (k : Kernel) : List Int := k.procList.map fun p ↦ (k.proc p).pPid

/-- No two processes share a pid, and no pid is out of range. -/
structure Distinct (procMaxCount : ℕ) (k : Kernel) : Prop where
  nodup : k.pids.Nodup
  range : ∀ pid ∈ k.pids, 0 ≤ pid ∧ pid < procMaxCount

/-- What every call but `proc_create` leaves of the pids: processes may be reaped, and that
is all. -/
structure Keeps (k k' : Kernel) : Prop where
  list : k'.procList.Sublist k.procList
  pid : ∀ p, (k'.proc p).pPid = (k.proc p).pPid
  next : k'.nextPid = k.nextPid

variable {k k₁ k' : Kernel} {t : Tid} {p c i : Pid} {b : Blocks}

namespace Keeps

theorem of_eq (hl : k'.procList = k.procList) (hp : k'.proc = k.proc)
    (hn : k'.nextPid = k.nextPid) : Keeps k k' :=
  ⟨hl ▸ .refl _, fun p ↦ by rw [hp], hn⟩

theorem trans (h : Keeps k k₁) (h' : Keeps k₁ k') : Keeps k k' :=
  ⟨h'.list.trans h.list, fun p ↦ (h'.pid p).trans (h.pid p), h'.next.trans h.next⟩

theorem after (h : Keeps k₁ k') (hl : k₁.procList = k.procList) (hp : k₁.proc = k.proc)
    (hn : k₁.nextPid = k.nextPid) : Keeps k k' :=
  (of_eq hl hp hn).trans h

theorem pids_sublist (h : Keeps k k') : k'.pids.Sublist k.pids := by
  unfold pids
  simp only [h.pid]
  exact h.list.map _

theorem modifyProc {f : Pcb → Pcb} (h : Keeps k k₁) (hf : ∀ b, (f b).pPid = b.pPid) :
    Keeps k (k₁.modifyProc p f) := by
  refine ⟨h.list, fun q ↦ ?_, h.next⟩
  rcases eq_or_ne q p with rfl | hq
  · simp [hf, h.pid]
  · simp [hq, h.pid]

theorem sleepAt {q : Wq Pq} {pc : Pc} (h : k.sleepAt q t pc = .ok k') : Keeps k k' := by
  obtain ⟨sc, -, h⟩ := bind_ok h
  cases h
  exact of_eq rfl rfl rfl

theorem handOver {l : List Pid} (h : Keeps k k₁) : Keeps k (l.foldl (handOver p i) k₁) := by
  induction l generalizing k₁ with
  | nil => exact h
  | cons c l ih =>
    refine ih ?_
    unfold Kernel.handOver
    refine .modifyProc (.modifyProc (.modifyProc h ?_) ?_) ?_ <;> exact fun _ ↦ rfl

theorem cleanupClose (h : k.cleanupClose t b = .ok k') : Keeps k k' := by
  cases b with
  | no =>
    cases h
    exact of_eq rfl rfl rfl
  | inVput q => cases h
  | inClose q => exact sleepAt h

theorem cleanupVput (h : k.cleanupVput t b = .ok k') : Keeps k k' := by
  have hwake : ∀ {b}, k.cleanupWake t b = .ok k' → Keeps k k' := by
    intro b h
    obtain ⟨i, -, h⟩ := bind_ok h
    obtain ⟨-, -, h⟩ := bind_ok h
    obtain ⟨pp, -, h⟩ := bind_ok h
    obtain ⟨r, -, h⟩ := bind_ok h
    have hsched : Keeps k (k.withSched r.2) := of_eq rfl rfl rfl
    refine .trans ?_ (cleanupClose h)
    unfold reparent
    split
    · exact hsched.handOver
    · exact hsched
  cases b with
  | no => exact hwake h
  | inVput q => exact sleepAt h
  | inClose q => exact hwake h

variable {status : Int}

theorem cancelAll {l : List Tid} (h : k.cancelAll l status = .ok k') : Keeps k k' := by
  obtain ⟨sc, -, h⟩ := bind_ok h
  cases h
  exact of_eq rfl rfl rfl

theorem procCleanup (h : k.procCleanup t status b = .ok k') : Keeps k k' := by
  have hstatus : Keeps k (k.modifyProc (k.procOf t) fun b ↦ { b with pStatus := status }) :=
    .modifyProc (of_eq rfl rfl rfl) fun _ ↦ rfl
  exact hstatus.trans ((cleanupVput h).after rfl rfl rfl)

theorem doExit (h : k.doExit t status b = .ok k') : Keeps k k' := by
  obtain ⟨k₁, hcancel, h⟩ := bind_ok h
  obtain ⟨-, -, h⟩ := bind_ok h
  exact (cancelAll hcancel).trans ((procCleanup h).after rfl rfl rfl)

theorem procKill (h : k.procKill t p status b = .ok k') : Keeps k k' := by
  unfold Kernel.procKill at h
  split at h
  · exact doExit h
  · obtain ⟨-, -, h⟩ := bind_ok h
    obtain ⟨k₁, hcancel, h⟩ := bind_ok h
    cases h
    exact (cancelAll hcancel).modifyProc fun _ ↦ rfl

theorem afterLook {l : Look} (h : k.afterLook t l = .ok k') : Keeps k k' := by
  cases l with
  | echild =>
    cases h
    exact of_eq rfl rfl rfl
  | reap c =>
    obtain ⟨-, -, h⟩ := bind_ok h
    cases h
    exact ⟨List.erase_sublist, fun p ↦ dispose_pPid, rfl⟩
  | sleep pc => exact sleepAt h

theorem resume (h : k.resume t b = .ok k') : Keeps k k' := by
  unfold Kernel.resume at h
  split at h
  case h_1 | h_2 =>
    cases h
    exact of_eq rfl rfl rfl
  case h_3 | h_4 => exact afterLook h
  case h_5 => exact cleanupVput h
  case h_6 => exact cleanupClose h
  case h_7 => cases h

theorem act {e : ProcEv} (he : k.act n e = .ok k') (hne : e ≠ .procCreate) : Keeps k k' := by
  cases act_ok he with
  | procCreate => exact absurd rfl hne
  | kthreadCreate => exact ⟨.refl _, fun p ↦ addThread_pPid, rfl⟩
  | exit _ _ h => exact doExit h
  | kill _ _ h => exact procKill h
  | waitpid _ _ h => exact afterLook h
  | sleepOn _ _ h => exact sleepAt h
  | cancellableSleepOn _ _ h =>
    obtain ⟨r, -, h⟩ := bind_ok h
    cases h
    exact of_eq rfl rfl rfl
  | resume _ h => exact resume h
  | makeRunnable | yield | wakeup | broadcast | cancel | dispatch => exact of_eq rfl rfl rfl

end Keeps

theorem act_procCreate (h : Inv k) (he : k.act n .procCreate = .ok k') :
    ∃ pid next, procGetid n k.pids k.nextPid = .ok (pid, next) ∧ k'.pids = k.pids ++ [pid] ∧
      k'.nextPid = next := by
  obtain ⟨t, ht, he⟩ := bind_ok he
  obtain ⟨⟨pid, next⟩, hget, he⟩ := bind_ok he
  obtain ⟨-, -, he⟩ := bind_ok he
  obtain ⟨-, -, he⟩ := bind_ok he
  cases he
  have hp : k.procOf t ≠ k.nproc :=
    h.toTree.lt _ (h.thread _ _ (h.cur _ (caller_eq_ok.mp ht).1).2.1).1
  have hold : k.procList.map (fun q ↦ ((k.addProc (k.procOf t) pid next).proc q).pPid) = k.pids :=
    List.map_congr_left fun q hq ↦ (addProc_old hp (h.toTree.lt q hq)).2.2
  refine ⟨pid, next, hget, ?_, rfl⟩
  change (k.procList ++ [k.nproc]).map _ = _
  rw [List.map_append, hold, List.map_singleton, addProc_new hp]

/-- A step keeps the pids apart exactly if it does not create a process without a pid. -/
theorem Distinct.act_iff {e : ProcEv} (hd : Distinct n k) (h₀ : 0 ≤ k.nextPid) (hn : k.nextPid < n)
    (h : Inv k) (he : k.act n e = .ok k') :
    (0 ≤ k'.nextPid ∧ k'.nextPid < n) ∧
      (Distinct n k' ↔ (e = .procCreate → ∃ pid, Unused n k.pids pid)) := by
  rcases eq_or_ne e .procCreate with rfl | hne
  · obtain ⟨pid, next, hget, hpids, hnext⟩ := act_procCreate h he
    obtain ⟨pid', next', hget', h₀', hn', hcase⟩ := procGetid_ok k.pids h₀ hn
    cases hget.symm.trans hget'
    refine ⟨hnext ▸ ⟨h₀', hn'⟩, fun hd' _ ↦ ?_, fun hfree ↦ ?_⟩
    · rcases hcase with ⟨rfl, -⟩ | hpid
      · exact absurd (hd'.range (-1) (by simp [hpids])).1 (by decide)
      · exact ⟨pid, hpid⟩
    · obtain ⟨q, hq⟩ := hfree rfl
      rcases hcase with ⟨-, hnone⟩ | hpid
      · exact absurd hq (hnone q)
      · refine ⟨?_, fun x hx ↦ ?_⟩
        · rw [hpids]
          exact List.nodup_append.mpr ⟨hd.nodup, List.nodup_singleton _, fun a ha b hb ↦
            List.mem_singleton.mp hb ▸ fun hab ↦ hpid.2.2 (hab ▸ ha)⟩
        · rw [hpids, List.mem_append, List.mem_singleton] at hx
          rcases hx with hx | rfl
          · exact hd.range x hx
          · exact ⟨hpid.1, hpid.2.1⟩
  · have hk := Keeps.act he hne
    refine ⟨hk.next.symm ▸ ⟨h₀, hn⟩, fun _ hc ↦ absurd hc hne, fun _ ↦ ?_⟩
    exact ⟨hd.nodup.sublist hk.pids_sublist, fun x hx ↦ hd.range x (hk.pids_sublist.subset hx)⟩

/-- `_proc_getid` finds an unused pid if there is one.  The pids of the processes stay
distinct as long as there is one whenever `proc_create` is called, and no longer. -/
theorem distinct_pids_iff (hmax : 1 < n) :
    (∀ used (next : Int), 0 ≤ next → next < n → ∃ pid next', procGetid n used next = .ok (pid, next') ∧
      ((∃ q, Unused n used q) → Unused n used pid) ∧ ((¬∃ q, Unused n used q) → pid = -1)) ∧
    ∀ (hist : List ProcEv) (k : Kernel),
      Run (restrict (ofStep (step n)) fun k e ↦ e = .procCreate → ∃ pid, Unused n k.pids pid)
        boot hist k →
      Distinct n k ∧ ∀ e k', k.step n e = .ok k' →
        (Distinct n k' ↔ (e = .procCreate → ∃ pid, Unused n k.pids pid)) := by
  refine ⟨fun used next h₀ hn ↦ ?_, fun hist k hr ↦ ?_⟩
  · obtain ⟨pid, next', hget, -, -, hcase⟩ := procGetid_ok used h₀ hn
    refine ⟨pid, next', hget, fun ⟨q, hq⟩ ↦ ?_, fun hnone ↦ ?_⟩
    · exact hcase.resolve_left fun ⟨_, hall⟩ ↦ hall q hq
    · exact (hcase.resolve_right fun hpid ↦ hnone ⟨pid, hpid⟩).1
  · have hI := hr.invariant
      (I := fun k ↦ Inv k ∧ Distinct n k ∧ 0 ≤ k.nextPid ∧ k.nextPid < n)
      (fun s e s' ⟨h, hd, h₀, hn⟩ ⟨hfree, he⟩ ↦
        have hstep := Distinct.act_iff (k := { s with ret := none }) ⟨hd.nodup, hd.range⟩ h₀ hn
          h.resetRet he
        ⟨h.step he, hstep.2.mpr hfree, hstep.1⟩)
      ⟨.boot, ⟨List.nodup_singleton _, by simp [pids, boot, PID_IDLE]; omega⟩, by decide,
        Int.ofNat_lt.mpr hmax⟩
    obtain ⟨h, hd, h₀, hn⟩ := hI
    exact ⟨hd, fun e k' he ↦ (Distinct.act_iff (k := { k with ret := none })
      ⟨hd.nodup, hd.range⟩ h₀ hn h.resetRet he).2⟩

/-- With room for two processes the third one gets the pid `-1`, and so does the fourth. -/
theorem exhausted_pids : ∃ k h, Run (ofStep (step 2)) boot h k ∧ k.pids = [0, 1, -1, -1] := by
  have h : check (step 2) boot [.procCreate, .procCreate, .procCreate]
      (fun k ↦ k.pids = [0, 1, -1, -1]) = true := by
    decide +kernel
  obtain ⟨k, hk, hp⟩ := exists_of_check h
  exact ⟨k, _, Run.of_exec hk, of_decide_eq_true hp⟩

/-- The first process that is created. -/
theorem distinct_pids_two : ∃ k, step 2 boot .procCreate = .ok k ∧ Distinct 2 k :=
  ⟨_, rfl, ((distinct_pids_iff (by decide)).2 _ _ .start).2 .procCreate _ rfl |>.mpr
    fun _ ↦ ⟨1, by decide, by decide, by decide⟩⟩

end Kernel

end CS402.Proc

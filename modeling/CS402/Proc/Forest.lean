import CS402.Proc.Life

/-!
# The process tree

What `proc_create`, `proc_cleanup` and `do_waitpid` are for, apart from threads: they
maintain a tree of processes with the idle process at its root.  `Forest` has the four
pieces of linkage of `kernel/proc/proc.c` (`p_pproc`, `p_children`, `_proc_list` and
`proc_initproc`), `Forest.apply` what the routines do to them, and `Rooted` what is to
hold in between.  `Rooted.apply` shows that it does, as long as children are handed to an
init that is alive.

That the kernel of `CS402.Proc.Life` works on its tables in just this way is shown in
`CS402.Proc.Family`.
-/

namespace CS402.Proc

/-- The linkage of the process table. -/
@[ext] structure Forest where
  children : Pid → List Pid
  parent : Pid → Option Pid
  pid : Pid → Int
  /-- `_proc_list`. -/
  list : List Pid
  init : Option Pid
  state : Pid → PState
  status : Pid → Int
  /-- Marked dead, but its children have not been handed over yet. -/
  busy : Pid → Prop
  /-- The names from here on are unused. -/
  fresh : ℕ

/-- What happens to the table. -/
inductive ForestOp where
  | none
  /-- `proc_create` in the process `p`. -/
  | create (p : Pid) (pid : Int)
  /-- `proc_cleanup` in the process `p`, up to the call of `vput` or to the end. -/
  | exit (p : Pid) (status : Int) (hands : Bool)
  /-- The rest of `proc_cleanup`. -/
  | hand (p : Pid)
  /-- `do_waitpid` in the process `p` disposes of `c`. -/
  | reap (p c : Pid)
deriving DecidableEq, Repr

namespace Forest

/-- A new process, as a child of `p`. -/
def create (f : Forest) (p : Pid) (pid : Int) : Forest where
  children := fun q ↦ if q = f.fresh then [] else
    if q = p then f.children p ++ [f.fresh] else f.children q
  parent := fun q ↦ if q = f.fresh then some p else f.parent q
  pid := fun q ↦ if q = f.fresh then pid else f.pid q
  list := f.list ++ [f.fresh]
  init := if pid = PID_INIT then some f.fresh else f.init
  state := fun q ↦ if q = f.fresh then .running else f.state q
  status := fun q ↦ if q = f.fresh then 0 else f.status q
  busy := fun q ↦ q ≠ f.fresh ∧ f.busy q
  fresh := f.fresh + 1

/-- A process is marked dead. -/
def mark (f : Forest) (p : Pid) (status : Int) : Forest :=
  { f with
    state := fun q ↦ if q = p then .dead else f.state q
    status := fun q ↦ if q = p then status else f.status q
    busy := fun q ↦ q = p ∨ f.busy q }

/-- The children of `p` are handed to init, unless `p` is init. -/
def handOver (f : Forest) (p : Pid) : Forest :=
  match f.init with
  | some i =>
    if f.pid p ≠ PID_INIT then
      { f with
        children := fun q ↦ if q = p then [] else
          if q = i then f.children i ++ f.children p else f.children q
        parent := fun q ↦ if q ∈ f.children p then some i else f.parent q }
    else f
  | none => f

/-- The children of `p` have been handed over. -/
def clear (f : Forest) (p : Pid) : Forest :=
  { f with busy := fun q ↦ q ≠ p ∧ f.busy q }

/-- A child is taken off the lists. -/
def reap (f : Forest) (p c : Pid) : Forest :=
  { f with
    children := fun q ↦ if q = p then (f.children p).erase c else f.children q
    list := f.list.erase c
    busy := fun q ↦ q ≠ c ∧ f.busy q }

/-- One operation. -/
def apply (f : Forest) : ForestOp → Forest
  | .none => f
  | .create p pid => f.create p pid
  | .exit p status hands =>
    if hands then ((f.mark p status).handOver p).clear p else f.mark p status
  | .hand p => (f.handOver p).clear p
  | .reap p c => f.reap p c

/-- Following `p_pproc` from `p` leads to the idle process, over processes on the list. -/
inductive Reaches (f : Forest) : Pid → Prop
  | idle : Reaches f 0
  | up {p q : Pid} : p ∈ f.list → f.parent p = some q → Reaches f q → Reaches f p

/-- **The process tree.** -/
structure Rooted (f : Forest) : Prop where
  idle : 0 ∈ f.list ∧ f.pid 0 = PID_IDLE ∧ f.parent 0 = none
  only : ∀ p ∈ f.list, f.pid p = PID_IDLE → p = 0
  bound : ∀ p ∈ f.list, p < f.fresh
  nodup : f.list.Nodup
  child : ∀ p, ∀ c ∈ f.children p, f.parent c = some p ∧ c ∈ f.list ∧ p ∈ f.list
  once : ∀ p, (f.children p).Nodup
  parent : ∀ p ∈ f.list, p ≠ 0 → ∃ q ∈ f.list, f.parent p = some q ∧ p ∈ f.children q
  init : ∀ i, f.init = some i → i < f.fresh ∧ f.pid i = PID_INIT ∧ f.parent i = some 0 ∧
    (i ∉ f.list → f.state i = .dead)
  empty : ∀ p ∈ f.list, f.state p = .dead →
    f.children p = [] ∨ f.busy p ∧ f.pid p ≠ PID_INIT
  reach : ∀ p ∈ f.list, f.Reaches p

/-- Init is alive, or `p` has no children to hand over. -/
def Heir (f : Forest) (p : Pid) : Prop :=
  f.pid p = PID_INIT ∨ f.children p = [] ∨ ∃ i, f.init = some i ∧ f.state i ≠ .dead

/-- When an operation is in order.  What is said about `.hand` and `.exit` is the rule
for init: it exits only without children, and children are handed to it only while it is
alive. -/
def Allowed (f : Forest) : ForestOp → Prop
  | .none => True
  | .create p pid => p ∈ f.list ∧ f.state p ≠ .dead ∧ pid ≠ PID_IDLE ∧
      (pid = PID_INIT → f.pid p = PID_IDLE)
  | .exit p _ hands => p ∈ f.list ∧ (f.pid p = PID_INIT → f.children p = []) ∧
      (hands = true → f.init ≠ none ∧ p ≠ 0 ∧ f.Heir p)
  | .hand p => p ∈ f.list ∧ f.init ≠ none ∧ p ≠ 0 ∧ f.state p = .dead ∧ f.Heir p
  | .reap p c => c ∈ f.children p ∧ f.state c = .dead ∧ ¬ f.busy c

variable {f f' : Forest} {p q c : Pid}

theorem Reaches.mono (h : f.Reaches q) (hk : ∀ r u, r ∈ f.list → f.parent r = some u →
    r ∈ f'.list ∧ f'.parent r = some u) : f'.Reaches q := by
  induction h with
  | idle => exact .idle
  | up hl hru _ ih => exact .up (hk _ _ hl hru).1 (hk _ _ hl hru).2 ih

theorem handOver_busy (b : Pid → Prop) :
    { f with busy := b }.handOver p = { f.handOver p with busy := b } := by
  obtain ⟨_, _, _, _, init, _, _, _, _⟩ := f
  cases init with
  | none => rfl
  | some i =>
    simp only [handOver]
    split <;> rfl

theorem clear_mark {s : Int} :
    ({ f.mark p s with busy := f.busy }.handOver p).clear p = ((f.mark p s).handOver p).clear p := by
  have hbusy : ((f.mark p s).handOver p).busy = fun q ↦ q = p ∨ f.busy q := by
    unfold handOver
    split
    · split <;> rfl
    · rfl
  rw [handOver_busy]
  refine Forest.ext rfl rfl rfl rfl rfl rfl rfl ?_ rfl
  funext q
  simp only [clear, hbusy, eq_iff_iff]
  tauto

namespace Rooted

theorem ne_fresh (h : Rooted f) (hp : p ∈ f.list) : p ≠ f.fresh := Nat.ne_of_lt (h.bound p hp)

theorem unique (h : Rooted f) (hp : c ∈ f.children p) (hq : c ∈ f.children q) : p = q :=
  Option.some.inj ((h.child p c hp).1.symm.trans (h.child q c hq).1)

theorem create (h : Rooted f) {pid : Int} (ha : f.Allowed (.create p pid)) :
    Rooted (f.create p pid) := by
  obtain ⟨hp, hd, hidle, hinit⟩ := ha
  have hne := h.ne_fresh hp
  have hz : (0 : Pid) ≠ f.fresh := h.ne_fresh h.idle.1
  have hchildren : ∀ q c, c ∈ (f.create p pid).children q ↔
      (q = p ∧ c = f.fresh) ∨ (q ≠ f.fresh ∧ c ∈ f.children q) := by
    intro q c
    simp only [Forest.create]
    split
    · next hq => simp [hq, Ne.symm hne]
    · next hq =>
      split
      · next hqp => simp [hqp, hne, or_comm]
      · next hqp => simp [hqp, hq]
  have hlist : ∀ q, q ∈ (f.create p pid).list ↔ q ∈ f.list ∨ q = f.fresh := by
    simp [Forest.create]
  have hreach : ∀ q, f.Reaches q → (f.create p pid).Reaches q :=
    fun q hq ↦ hq.mono fun r u hl hru ↦
      ⟨(hlist r).mpr (.inl hl), (if_neg (h.ne_fresh hl)).trans hru⟩
  refine ⟨⟨(hlist 0).mpr (.inl h.idle.1), (if_neg hz).trans h.idle.2.1,
    (if_neg hz).trans h.idle.2.2⟩, ?_, ?_, ?_, ?_, ?_, ?_, ?_, ?_, ?_⟩
  · intro q hq hqi
    rcases (hlist q).mp hq with hq | rfl
    · exact h.only q hq ((if_neg (h.ne_fresh hq)).symm.trans hqi)
    · exact absurd ((if_pos rfl).symm.trans hqi) hidle
  · intro q hq
    rcases (hlist q).mp hq with hq | rfl
    · exact Nat.lt_succ_of_lt (h.bound q hq)
    · exact Nat.lt_succ_self _
  · refine List.nodup_append.mpr ⟨h.nodup, List.nodup_singleton _, ?_⟩
    intro a ha b hb
    rw [List.mem_singleton.mp hb]
    exact h.ne_fresh ha
  · intro q c hc
    rcases (hchildren q c).mp hc with ⟨rfl, rfl⟩ | ⟨_, hc⟩
    · exact ⟨if_pos rfl, (hlist _).mpr (.inr rfl), (hlist _).mpr (.inl hp)⟩
    · obtain ⟨h₁, h₂, h₃⟩ := h.child q c hc
      exact ⟨(if_neg (h.ne_fresh h₂)).trans h₁, (hlist _).mpr (.inl h₂), (hlist _).mpr (.inl h₃)⟩
  · intro q
    simp only [Forest.create]
    split
    · exact List.nodup_nil
    · split
      · refine List.nodup_append.mpr ⟨h.once p, List.nodup_singleton _, ?_⟩
        intro a ha b hb
        rw [List.mem_singleton.mp hb]
        exact h.ne_fresh (h.child p a ha).2.1
      · exact h.once q
  · intro q hq hq0
    rcases (hlist q).mp hq with hq | rfl
    · obtain ⟨r, hr, hqr, hm⟩ := h.parent q hq hq0
      exact ⟨r, (hlist r).mpr (.inl hr), (if_neg (h.ne_fresh hq)).trans hqr,
        (hchildren r q).mpr (.inr ⟨h.ne_fresh hr, hm⟩)⟩
    · exact ⟨p, (hlist p).mpr (.inl hp), if_pos rfl, (hchildren p _).mpr (.inl ⟨rfl, rfl⟩)⟩
  · intro i hi
    simp only [Forest.create] at hi ⊢
    split at hi
    · next hpid =>
      obtain rfl : f.fresh = i := Option.some.inj hi
      have hp0 : p = 0 := h.only p hp (hinit hpid)
      simp [hpid, hp0]
    · obtain ⟨h₁, h₂, h₃, h₄⟩ := h.init i hi
      have hif := Nat.ne_of_lt h₁
      simp only [List.mem_append, List.mem_singleton, hif, or_false]
      exact ⟨Nat.lt_succ_of_lt h₁, h₂, h₃, h₄⟩
  · intro q hq hqd
    simp only [Forest.create] at hqd ⊢
    rcases (hlist q).mp hq with hq | rfl
    · rw [if_neg (h.ne_fresh hq)] at hqd
      have hqp : q ≠ p := by
        rintro rfl
        exact hd hqd
      simpa [h.ne_fresh hq, hqp] using h.empty q hq hqd
    · simp at hqd
  · intro q hq
    rcases (hlist q).mp hq with hq | rfl
    · exact hreach q (h.reach q hq)
    · exact .up ((hlist _).mpr (.inr rfl)) (if_pos rfl) (hreach p (h.reach p hp))

theorem mark (h : Rooted f) {s : Int} (hb : f.pid p = PID_INIT → f.children p = []) :
    Rooted (f.mark p s) := by
  refine ⟨h.idle, h.only, h.bound, h.nodup, h.child, h.once, h.parent, ?_, ?_,
    fun q hq ↦ (h.reach q hq).mono fun _ _ ↦ .intro⟩
  · intro i hi
    obtain ⟨h₁, h₂, h₃, h₄⟩ := h.init i hi
    refine ⟨h₁, h₂, h₃, fun hl ↦ ?_⟩
    simp only [Forest.mark]
    split
    · rfl
    · exact h₄ hl
  · intro q hq hqd
    simp only [Forest.mark] at hqd ⊢
    rcases eq_or_ne q p with hqp | hqp
    · rw [hqp]
      rcases eq_or_ne (f.pid p) PID_INIT with hi | hi
      · exact .inl (hb hi)
      · exact .inr ⟨.inl rfl, hi⟩
    · exact (h.empty q hq (by rwa [if_neg hqp] at hqd)).imp_right (.imp_left .inr)

theorem handOver_nil (hp : f.children p = []) : f.handOver p = f := by
  unfold Forest.handOver
  split
  · next i hi =>
    split
    · have hc : (fun q ↦ if q = p then [] else if q = i then f.children i ++ f.children p
          else f.children q) = f.children := by
        funext q
        split
        · next hqp => rw [hqp, hp]
        · split
          · next hqi => rw [hqi, hp, List.append_nil]
          · rfl
      rw [hc]
      simp only [hp, List.not_mem_nil, if_false]
    · rfl
  · rfl

/-- Handing the children of `p` to an init that is alive. -/
theorem handOver_alive (h : Rooted f) (hp0 : p ≠ 0) {i : Pid} (hi : f.init = some i)
    (hpid : f.pid p ≠ PID_INIT) (hd : f.state i ≠ .dead) : Rooted (f.handOver p) := by
  obtain ⟨hif, hipid, hi0, hilist⟩ := h.init i hi
  have hil : i ∈ f.list := by
    by_contra hl
    exact hd (hilist hl)
  have hpi : p ≠ i := by
    rintro rfl
    exact hpid hipid
  -- init is a child of the idle process
  have hic : i ∉ f.children p := by
    intro hm
    have := (h.child p i hm).1
    rw [hi0] at this
    exact hp0 (Option.some.inj this).symm
  have hz : 0 ∉ f.children p := by
    intro hm
    have := (h.child p 0 hm).1
    rw [h.idle.2.2] at this
    cases this
  have hcases : ∀ q c, c ∈ (f.handOver p).children q ↔
      (q = i ∧ c ∈ f.children p) ∨ (c ∉ f.children p ∧ c ∈ f.children q) := by
    intro q c
    simp only [Forest.handOver, hi, if_pos hpid]
    split
    · next hqp => simp [hqp, hpi]
    · next hqp =>
      have hnot : c ∈ f.children q → c ∉ f.children p := fun hq hp ↦ hqp (h.unique hq hp)
      split
      · next hqi =>
        subst hqi
        simp only [List.mem_append, true_and]
        tauto
      · next hqi =>
        simp only [hqi, false_and, false_or]
        tauto
  have hparent : ∀ q, (f.handOver p).parent q = if q ∈ f.children p then some i else f.parent q := by
    simp [Forest.handOver, hi, hpid]
  have hrest : (f.handOver p).list = f.list ∧ (f.handOver p).pid = f.pid ∧
      (f.handOver p).fresh = f.fresh ∧ (f.handOver p).init = f.init ∧
      (f.handOver p).state = f.state ∧ (f.handOver p).busy = f.busy := by
    simp [Forest.handOver, hi, hpid]
  obtain ⟨hlist, hpids, hfresh, hinit, hdead, hbusy⟩ := hrest
  have hireach : (f.handOver p).Reaches i :=
    .up (hlist ▸ hil) ((hparent i).trans ((if_neg hic).trans hi0)) .idle
  have hreach : ∀ q, f.Reaches q → (f.handOver p).Reaches q := by
    intro q hq
    induction hq with
    | idle => exact .idle
    | @up q r hl hqr _ ih =>
      rcases Decidable.em (q ∈ f.children p) with hm | hm
      · exact .up (hlist ▸ hl) ((hparent q).trans (if_pos hm)) hireach
      · exact .up (hlist ▸ hl) ((hparent q).trans ((if_neg hm).trans hqr)) ih
  refine ⟨⟨hlist ▸ h.idle.1, hpids ▸ h.idle.2.1, (hparent 0).trans ((if_neg hz).trans h.idle.2.2)⟩,
    ?_, ?_, hlist ▸ h.nodup, ?_, ?_, ?_, ?_, ?_, ?_⟩
  · rw [hlist, hpids]; exact h.only
  · rw [hlist, hfresh]; exact h.bound
  · intro q c hc
    rw [hlist, hparent]
    rcases (hcases q c).mp hc with ⟨rfl, hm⟩ | ⟨hm, hc⟩
    · exact ⟨if_pos hm, (h.child p c hm).2.1, hil⟩
    · exact ⟨(if_neg hm).trans (h.child q c hc).1, (h.child q c hc).2⟩
  · intro q
    simp only [Forest.handOver, hi, if_pos hpid]
    split
    · exact List.nodup_nil
    · split
      · refine List.nodup_append.mpr ⟨h.once i, h.once p, ?_⟩
        rintro a ha b hb rfl
        exact hpi (h.unique hb ha)
      · exact h.once q
  · intro q hq hq0
    rw [hlist] at hq ⊢
    rw [hparent]
    rcases Decidable.em (q ∈ f.children p) with hm | hm
    · exact ⟨i, hil, if_pos hm, (hcases i q).mpr (.inl ⟨rfl, hm⟩)⟩
    · obtain ⟨r, hr, hqr, hqm⟩ := h.parent q hq hq0
      exact ⟨r, hr, (if_neg hm).trans hqr, (hcases r q).mpr (.inr ⟨hm, hqm⟩)⟩
  · intro j hj
    rw [hinit, hi] at hj
    cases hj
    rw [hlist, hfresh, hpids, hdead, hparent]
    exact ⟨hif, hipid, (if_neg hic).trans hi0, hilist⟩
  · intro q hq hqd
    rw [hlist] at hq
    rw [hdead] at hqd
    rw [hbusy, hpids]
    refine (h.empty q hq hqd).imp_left fun hnil ↦ ?_
    have hqi : q ≠ i := by
      rintro rfl
      exact hd hqd
    refine List.eq_nil_iff_forall_not_mem.mpr fun c hc ↦ ?_
    rcases (hcases q c).mp hc with ⟨h₁, _⟩ | ⟨_, h₂⟩
    · exact hqi h₁
    · rw [hnil] at h₂
      cases h₂
  · rw [hlist]
    exact fun q hq ↦ hreach q (h.reach q hq)

theorem handOver_children (hpid : f.pid p ≠ PID_INIT) (hi : f.init ≠ none) :
    (f.handOver p).children p = [] := by
  obtain ⟨i, hi⟩ := Option.ne_none_iff_exists'.mp hi
  simp [Forest.handOver, hi, hpid]

theorem clear (h : Rooted f) (hp : p ∈ f.list → f.state p = .dead → f.children p = []) :
    Rooted (f.clear p) := by
  refine ⟨h.idle, h.only, h.bound, h.nodup, h.child, h.once, h.parent, h.init, ?_,
    fun q hq ↦ (h.reach q hq).mono fun _ _ ↦ .intro⟩
  intro q hq hqd
  rcases eq_or_ne q p with rfl | hqp
  · exact .inl (hp hq hqd)
  · exact (h.empty q hq hqd).imp_right (.imp_left (⟨hqp, ·⟩))

theorem hand (h : Rooted f) (hi : f.init ≠ none) (hp0 : p ≠ 0) (hh : f.Heir p)
    (hinit : f.pid p = PID_INIT → f.children p = []) : Rooted ((f.handOver p).clear p) := by
  rcases eq_or_ne (f.children p) [] with hnil | hnil
  · rw [handOver_nil hnil]
    exact h.clear fun _ _ ↦ hnil
  · have hpid : f.pid p ≠ PID_INIT := fun hp ↦ hnil (hinit hp)
    obtain ⟨i, hi', hd⟩ := (hh.resolve_left hpid).resolve_left hnil
    exact (h.handOver_alive hp0 hi' hpid hd).clear fun _ _ ↦ handOver_children hpid hi

theorem reap (h : Rooted f) (ha : f.Allowed (.reap p c)) : Rooted (f.reap p c) := by
  obtain ⟨hc, hd, hb⟩ := ha
  obtain ⟨hcp, hcl, hpl⟩ := h.child p c hc
  have hc0 : c ≠ 0 := by
    rintro rfl
    rw [h.idle.2.2] at hcp
    cases hcp
  have hnil : f.children c = [] :=
    (h.empty c hcl hd).resolve_right fun ⟨hb', _⟩ ↦ hb hb'
  have hlist : ∀ q, q ∈ (f.reap p c).list ↔ q ≠ c ∧ q ∈ f.list := fun q ↦ h.nodup.mem_erase_iff
  have hchildren : ∀ q d, d ∈ (f.reap p c).children q ↔ d ≠ c ∧ d ∈ f.children q := by
    intro q d
    simp only [Forest.reap]
    split
    · next hqp => rw [hqp]; exact (h.once p).mem_erase_iff
    · next hqp =>
      refine ⟨fun hdq ↦ ⟨?_, hdq⟩, fun hdq ↦ hdq.2⟩
      rintro rfl
      exact hqp (h.unique hdq hc)
  -- nobody's parent is reaped, because the reaped process has no children
  have hpar : ∀ q ∈ f.list, ∀ r, f.parent q = some r → r ≠ c := by
    rintro q hq r hqr rfl
    have hq0 : q ≠ 0 := by
      rintro rfl
      rw [h.idle.2.2] at hqr
      cases hqr
    obtain ⟨r', _, hqr', hm⟩ := h.parent q hq hq0
    obtain rfl : r = r' := Option.some.inj (hqr.symm.trans hqr')
    rw [hnil] at hm
    cases hm
  have hreach : ∀ q, f.Reaches q → q ≠ c → (f.reap p c).Reaches q := by
    intro q hq
    induction hq with
    | idle => exact fun _ ↦ .idle
    | @up q r hl hqr _ ih => exact fun hqc ↦ .up ((hlist q).mpr ⟨hqc, hl⟩) hqr (ih (hpar q hl r hqr))
  refine ⟨⟨(hlist 0).mpr ⟨hc0.symm, h.idle.1⟩, h.idle.2⟩, ?_, ?_, h.nodup.erase c, ?_, ?_, ?_, ?_,
    ?_, ?_⟩
  · exact fun q hq ↦ h.only q ((hlist q).mp hq).2
  · exact fun q hq ↦ h.bound q ((hlist q).mp hq).2
  · intro q d hd
    obtain ⟨hdc, hd⟩ := (hchildren q d).mp hd
    obtain ⟨h₁, h₂, h₃⟩ := h.child q d hd
    exact ⟨h₁, (hlist d).mpr ⟨hdc, h₂⟩, (hlist q).mpr ⟨hpar d h₂ q h₁, h₃⟩⟩
  · intro q
    simp only [Forest.reap]
    split
    · exact (h.once p).erase c
    · exact h.once q
  · intro q hq hq0
    obtain ⟨hqc, hql⟩ := (hlist q).mp hq
    obtain ⟨r, hr, hqr, hm⟩ := h.parent q hql hq0
    exact ⟨r, (hlist r).mpr ⟨hpar q hql r hqr, hr⟩, hqr, (hchildren r q).mpr ⟨hqc, hm⟩⟩
  · intro i hi
    obtain ⟨h₁, h₂, h₃, h₄⟩ := h.init i hi
    refine ⟨h₁, h₂, h₃, fun hl ↦ ?_⟩
    rcases eq_or_ne i c with rfl | hic
    · exact hd
    · exact h₄ fun hil ↦ hl ((hlist i).mpr ⟨hic, hil⟩)
  · intro q hq hqd
    obtain ⟨hqc, hql⟩ := (hlist q).mp hq
    simp only [Forest.reap]
    rcases h.empty q hql hqd with he | ⟨he, hpid⟩
    · refine .inl ?_
      split
      · next hqp => rw [← hqp, he]; rfl
      · exact he
    · exact .inr ⟨⟨hqc, he⟩, hpid⟩
  · intro q hq
    obtain ⟨hqc, hql⟩ := (hlist q).mp hq
    exact hreach q (h.reach q hql) hqc

/-- **One operation** that is in order keeps the tree. -/
theorem apply (h : Rooted f) {op : ForestOp} (ha : f.Allowed op) : Rooted (f.apply op) := by
  cases op with
  | none => exact h
  | create p pid => exact h.create ha
  | exit p s hands =>
    obtain ⟨hp, hinit, hhands⟩ := ha
    cases hands with
    | false => exact h.mark hinit
    | true =>
      obtain ⟨hi, hp0, hh⟩ := hhands rfl
      refine (h.mark hinit).hand hi hp0 ?_ hinit
      rcases hh with hpid | hnil | ⟨i, hi', hd⟩
      · exact .inl hpid
      · exact .inr (.inl hnil)
      · rcases eq_or_ne i p with rfl | hip
        · exact .inl (h.init i hi').2.1
        · exact .inr (.inr ⟨i, hi', by simpa [Forest.mark, hip] using hd⟩)
  | hand p =>
    obtain ⟨hp, hi, hp0, hd, hh⟩ := ha
    refine h.hand hi hp0 hh fun hpid ↦ ?_
    exact (h.empty p hp hd).resolve_right fun hb ↦ hb.2 hpid
  | reap p c => exact h.reap ha

end Rooted

end Forest

end CS402.Proc

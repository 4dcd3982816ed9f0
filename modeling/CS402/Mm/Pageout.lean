import CS402.Mm.Fetch
import CS402.Mm.Index

/-!
# Getting pages while others run

`Mm.Pframe` runs `pframe_get` without interruption.  Here its calls sleep: on the wait
queue of a page that is busy, inside `fillpage` of the object, and on `alloc_waitq` when
free pages run low; `pframe_clean` and the page-out daemon sleep as well.  A state is the
index of resident pages together with how far every call has come, and an event takes
one thread from where it is to where it next sleeps or returns.  What the object
operations read and write behind the page is left to the event: it says whether
`fillpage` and `cleanpage` succeed, and with which contents.  So does it with
`page_free_count`, which is a matter of all allocations of the kernel.

`pframe_get` looks a page up anew when it wakes, but it expects to find it.
`getRight_iff_of_run` says what follows: whatever the others do, a step of a call goes
well exactly when it is not the return from a `fillpage` that failed, and when the page
that the call has waited for is resident.
-/

set_option linter.unusedSectionVars false

namespace CS402.Mm

open CS402.Lib Function

/-- How far a call of `pframe_get` has come. -/
inductive Pc where
  /-- Asleep on `pf_waitq` of a page that is busy. -/
  | waits (f : FrameId)
  /-- Woken from there. -/
  | woken
  /-- In `fillpage`, with a new page. -/
  | fills (f : FrameId)
  /-- Asleep on `alloc_waitq`, with the page pinned. -/
  | short (f : FrameId)
  /-- Woken from there. -/
  | rested (f : FrameId)
  /-- Returned. -/
  | done (r : Except Mem.NoPage FrameId)
deriving DecidableEq

/-- `sched_broadcast_on(&pf->pf_waitq)`, for one call. -/
def Pc.wake (f : FrameId) : Pc → Pc
  | .waits g => if g = f then .woken else .waits g
  | pc => pc

/-- `sched_broadcast_on(&alloc_waitq)`, for one call. -/
def Pc.relieve : Pc → Pc
  | .short f => .rested f
  | pc => pc

/-- The page that a call has allocated and not yet given to its caller. -/
def Pc.holds : Pc → Option FrameId
  | .fills f | .short f | .rested f => some f
  | _ => none

/-- The page that a call waits for or holds. -/
def Pc.page : Pc → Option FrameId
  | .waits f | .fills f | .short f | .rested f => some f
  | _ => none

/-- A call of `pframe_get`. -/
structure Call where
  obj : ObjId
  pagenum : ℕ
  pc : Pc
deriving DecidableEq

/-- What a call expects of the page that it waits for or holds. -/
def Call.Wants (x : Call) (pf : Pframe) : Prop :=
  match x.pc with
  | .waits _ => pf.pfBusy = true
  | .fills _ => pf.pfObj = x.obj ∧ pf.pfPagenum = x.pagenum ∧ pf.pfBusy = true ∧ pf.pfDirty = false
  | .short _ | .rested _ =>
    pf.pfObj = x.obj ∧ pf.pfPagenum = x.pagenum ∧ pf.pfBusy = false ∧ pf.IsPinned
  | _ => True

/-- Where the page-out daemon is. -/
inductive Daemon where
  /-- Asleep on `pageoutd_waitq`. -/
  | sleeps
  /-- Woken from there. -/
  | woken
  /-- Asleep on `pf_waitq` of a page that is busy. -/
  | waits (f : FrameId)
  /-- In its inner loop. -/
  | runs
deriving DecidableEq

/-- `sched_broadcast_on(&pf->pf_waitq)`, for the daemon. -/
def Daemon.wake (f : FrameId) (d : Daemon) : Daemon := if d = .waits f then .runs else d

/-- `pageoutd_wakeup`. -/
def Daemon.wakeup (d : Daemon) : Daemon := if d = .sleeps then .woken else d

/-- The page cache and the threads in it. -/
structure Paging where
  index : Index
  calls : ℕ → Option Call := fun _ ↦ none
  /-- The threads in `cleanpage`, and with which page; `none` is the daemon. -/
  cleaning : Option ℕ → Option FrameId := fun _ ↦ none
  pageoutd : Daemon := .woken

namespace Paging

/-- Store the state of memory management. -/
def setMem (s : Paging) (m : Mem) : Paging := { s with index := { s.index with mem := m } }

/-- Store a call. -/
def setCall (s : Paging) (c : ℕ) (x : Call) : Paging :=
  { s with calls := update s.calls c (some x) }

/-- `sched_broadcast_on(&pf->pf_waitq)`. -/
def broadcast (s : Paging) (f : FrameId) : Paging :=
  { s with
    calls := fun c ↦ (s.calls c).map fun x ↦ { x with pc := x.pc.wake f }
    pageoutd := s.pageoutd.wake f }

/-- `sched_broadcast_on(&alloc_waitq)`. -/
def broadcastAlloc (s : Paging) : Paging :=
  { s with calls := fun c ↦ (s.calls c).map fun x ↦ { x with pc := x.pc.relieve } }

/-- The object has a reference. -/
def Live (s : Paging) (o : ObjId) : Prop :=
  ∃ ob, s.index.mem.objs o = some ob ∧ 0 < ob.mmoRefcount

instance (s : Paging) (o : ObjId) : Decidable (s.Live o) :=
  decidable_of_iff (((s.index.mem.objs o).any fun ob ↦ 0 < ob.mmoRefcount) = true) <| by
    simp [Live, Option.any_eq_true]

/-- What happens.  The number `free` is `page_free_count()`. -/
inductive Event where
  /-- A thread calls `pframe_get`. -/
  | get (c : ℕ) (o : ObjId) (n : ℕ)
  /-- `fillpage` returns to a call, with an error, or with the contents of the page and
  whether it has pinned the page. -/
  | filled (c : ℕ) (r : Except Errno (Page × Bool)) (free : ℕ)
  /-- A call that has been woken goes on. -/
  | resume (c : ℕ)
  /-- A thread calls `pframe_free`. -/
  | free (f : FrameId)
  /-- A thread calls `pframe_dirty`, and `dirtypage` does not sleep. -/
  | dirty (f : FrameId)
  /-- A thread calls `pframe_clean`. -/
  | clean (k : ℕ) (f : FrameId)
  /-- `cleanpage` returns to a thread, or to the daemon. -/
  | cleaned (w : Option ℕ) (ok : Bool)
  /-- The daemon makes a turn. -/
  | pageoutd (free : ℕ)

section

variable (addr : ObjId → ℕ) (size target : ℕ)

/-- `pframe_get` with the result of a lookup: the page is inspected, and waited for if it
is busy. -/
def look (s : Paging) (c : ℕ) (o : ObjId) (n : ℕ) (found : Option FrameId) :
    Except Fault Paging := do
  let f ← follow .pointer found
  let pf ← follow .pointer (s.index.mem.frames f)
  return (s.setMem (s.index.mem.touch f)).setCall c
    ⟨o, n, if pf.pfBusy then .waits f else .done (.ok f)⟩

/-- `pframe_get` of a page that is not resident, up to its `fillpage`. -/
def alloc (s : Paging) (c : ℕ) (o : ObjId) (n : ℕ) : Except Fault Paging := do
  let (m, r) ← s.index.mem.pframeAlloc o n
  match r with
  | none => return (s.setMem m).setCall c ⟨o, n, .done (.error ⟨.ENOMEM, true⟩)⟩
  | some f =>
    let m := m.modFrame f fun pf ↦ { pf with pfBusy := true }
    return { s with index := ⟨m, s.index.insertHead addr size f o n⟩ }.setCall c ⟨o, n, .fills f⟩

/-- The start of `pframe_get`, by a thread that holds a reference to the object. -/
def get (s : Paging) (c : ℕ) (o : ObjId) (n : ℕ) : Except Fault Paging := do
  demand .disabled ((s.calls c).isNone ∧ s.Live o)
  match s.index.resident addr size o n with
  | some f => s.look c o n (some f)
  | none => s.alloc addr size c o n

/-- The end of `pframe_get`. -/
def finish (s : Paging) (c : ℕ) (o : ObjId) (n : ℕ) (f : FrameId) : Except Fault Paging := do
  let pf ← follow .pointer (s.index.mem.frames f)
  demand .assertion (pf.pfBusy = false)
  return s.setCall c ⟨o, n, .done (.ok f)⟩

/-- What `fillpage` has done to its page when it succeeds. -/
def fillpage (m : Mem) (f : FrameId) (data : Page) (pins : Bool) : Except Fault Mem :=
  if pins then m.fillAndPin f data else .ok (m.modFrame f fun pf ↦ { pf with pfData := data })

/-- The end of `pframe_fill`: the page is no longer busy, and those who wait for it are
woken. -/
def release (s : Paging) (f : FrameId) : Paging :=
  (s.setMem (s.index.mem.modFrame f fun pf ↦ { pf with pfBusy := false })).broadcast f

variable [Layout]

/-- `pframe_get` after `fillpage`. -/
def filled (s : Paging) (c : ℕ) (o : ObjId) (n : ℕ) (f : FrameId)
    (r : Except Errno (Page × Bool)) (free : ℕ) : Except Fault Paging :=
  match r with
  | .error e => do
    let s := s.release f
    let i ← s.index.free f
    return { s with index := i }.setCall c ⟨o, n, .done (.error ⟨e, false⟩)⟩
  | .ok (data, pins) => do
    let m ← fillpage s.index.mem f data pins
    let s := (s.setMem m).release f
    if free = target then
      let m ← s.index.mem.pframePin f
      return { s.setMem m with pageoutd := s.pageoutd.wakeup }.setCall c ⟨o, n, .short f⟩
    else
      s.finish c o n f

/-- `pframe_clean` up to its `cleanpage`. -/
def clean (s : Paging) (w : Option ℕ) (f : FrameId) : Except Fault Paging := do
  let pf ← follow .pointer (s.index.mem.frames f)
  demand .assertion (pf.pfDirty = true)
  demand .assertion (pf.pfPincount = 0)
  let m ← s.index.mem.pframeRemoveFromPts f
  let m := m.setFrame f (some { pf with pfDirty := false, pfBusy := true })
  return { s.setMem m with cleaning := update s.cleaning w (some f) }

/-- `pframe_clean` after its `cleanpage`. -/
def cleaned (s : Paging) (w : Option ℕ) (f : FrameId) (ok : Bool) : Paging :=
  let m := s.index.mem.modFrame f fun pf ↦
    { pf with pfBusy := false, pfDirty := pf.pfDirty || !ok }
  { s.setMem m with cleaning := update s.cleaning w none }.broadcast f

/-- `pframe_free`. -/
def free (s : Paging) (f : FrameId) : Except Fault Paging := do
  let i ← s.index.free f
  return { s with index := i }

/-- The body of the inner loop of `pageoutd_run`, for the least recently requested page. -/
def reclaim (s : Paging) (f : FrameId) : Except Fault Paging := do
  let pf ← follow .pointer (s.index.mem.frames f)
  if pf.pfBusy then return { s with pageoutd := .waits f }
  else if pf.pfDirty then clean { s with pageoutd := .runs } none f
  else free { s with pageoutd := .runs } f

/-- `pageoutd_run`, one turn of its inner loop or the end of it. -/
def pageoutdRun (s : Paging) (free : ℕ) : Except Fault Paging := do
  demand .assertion (s.pageoutd = .woken → 0 ≤ s.index.mem.lists.nallocated)
  match s.index.mem.lists.allocList with
  | f :: _ =>
    if free < target then s.reclaim f
    else return { s.broadcastAlloc with pageoutd := .sleeps }
  | [] => return { s.broadcastAlloc with pageoutd := .sleeps }

/-- One step of one thread. -/
def step (s : Paging) : Event → Except Fault Paging
  | .get c o n => s.get addr size c o n
  | .filled c r free =>
    match s.calls c with
    | some ⟨o, n, .fills f⟩ => s.filled target c o n f r free
    | _ => .error .disabled
  | .resume c =>
    match s.calls c with
    | some ⟨o, n, .woken⟩ => s.look c o n (s.index.resident addr size o n)
    | some ⟨o, n, .rested f⟩ => do
      let m ← s.index.mem.pframeUnpin f
      (s.setMem m).finish c o n f
    | _ => .error .disabled
  | .free f => s.free f
  | .dirty f => do
    let m ← s.index.mem.pframeDirty f
    return s.setMem m
  | .clean k f => do
    demand .disabled ((s.cleaning (some k)).isNone)
    s.clean (some k) f
  | .cleaned w ok => do
    let f ← follow .disabled (s.cleaning w)
    return s.cleaned w f ok
  | .pageoutd free => do
    demand .disabled (s.pageoutd = .woken ∨ s.pageoutd = .runs)
    demand .disabled ((s.cleaning none).isNone)
    s.pageoutdRun target free

end

/-! ## What a call owes -/

/-- The event runs the call `c` of `pframe_get`, which is for page `n` of the object `o`. -/
inductive Runs (s : Paging) : Event → ℕ → ObjId → ℕ → Prop where
  | get {c : ℕ} {o : ObjId} {n : ℕ} (hc : s.calls c = none) (ho : s.Live o) :
    Runs s (.get c o n) c o n
  | filled {c : ℕ} {o : ObjId} {n : ℕ} {f : FrameId} {r : Except Errno (Page × Bool)} {free : ℕ}
    (hc : s.calls c = some ⟨o, n, .fills f⟩) : Runs s (.filled c r free) c o n
  | woken {c : ℕ} {o : ObjId} {n : ℕ} (hc : s.calls c = some ⟨o, n, .woken⟩) :
    Runs s (.resume c) c o n
  | rested {c : ℕ} {o : ObjId} {n : ℕ} {f : FrameId} (hc : s.calls c = some ⟨o, n, .rested f⟩) :
    Runs s (.resume c) c o n

/-- Who has a page for himself: the calls of `pframe_get`, and the threads in
`pframe_clean`. -/
def holds (s : Paging) : ℕ ⊕ Option ℕ → Option FrameId
  | .inl c => (s.calls c).bind fun x ↦ x.pc.holds
  | .inr w => s.cleaning w

/-- `mmo_refcount` and `mmo_nrespages` of an object, up to the page that the call holds. -/
def without (s : Paging) (c : ℕ) (o : ObjId) : Option (ℤ × ℤ) :=
  (s.index.mem.objs o).map fun ob ↦
    let own : ℤ := if (s.holds (.inl c)).isSome then 1 else 0
    (ob.mmoRefcount - own, ob.mmoNrespages - own)

/-- What a step of the call `c` for page `n` of the object `o` owes, if it leads from `s`
to `s'`, where the call has come to `pc`. -/
structure GoesWell (s : Paging) (c : ℕ) (o : ObjId) (n : ℕ) (s' : Paging) (pc : Pc) : Prop where
  call : s'.calls c = some ⟨o, n, pc⟩
  /-- The call returns the one page with this identity, and it is not busy. -/
  page : ∀ f, pc = .done (.ok f) → ∃ pf, s'.index.mem.frames f = some pf ∧
    pf.pfObj = o ∧ pf.pfPagenum = n ∧ pf.pfBusy = false ∧
    ∀ g, s'.index.mem.PageAt g o n → g = f
  /-- The call fails: it has set `*result` to `NULL`, -/
  null : ∀ e, pc = .done (.error e) → e.cleared = true
  /-- and the page that it has allocated is gone. -/
  gone : ∀ e, pc = .done (.error e) → ∀ f u m, s'.index.mem.PageAt f u m →
    s.index.mem.PageAt f u m ∧ s.holds (.inl c) ≠ some f
  /-- The call has not returned a page: the counts of the object are not its doing. -/
  counts : (∀ f, pc ≠ .done (.ok f)) → s'.without c o = s.without c o

/-- A step of `pframe_get` follows no pointer that is not valid, fails no assertion, and
does what it owes. -/
def GetRight (addr : ObjId → ℕ) (size target : ℕ) [Layout] (s : Paging) (e : Event) : Prop :=
  ∀ c o n, s.Runs e c o n →
    ∃ s' pc, s.step addr size target e = .ok s' ∧ s.GoesWell c o n s' pc

/-- The `fillpage` of a call does not fail, and the page that a call has waited for is
resident when the call goes on. -/
def GetFits (s : Paging) : Event → Prop
  | .filled c (.error _) _ => ∀ o n f, s.calls c ≠ some ⟨o, n, .fills f⟩
  | .resume c => ∀ o n, s.calls c = some ⟨o, n, .woken⟩ → ∃ f, s.index.mem.PageAt f o n
  | _ => True

/-! ## Who has which page -/

/-- What every step keeps. -/
structure Inv (addr : ObjId → ℕ) (size : ℕ) (s : Paging) : Prop where
  sound : s.index.Sound addr size
  pins : ∀ f pf, s.index.mem.frames f = some pf → 0 ≤ pf.pfPincount
  calls : ∀ c x f, s.calls c = some x → x.pc.page = some f →
    ∃ pf, s.index.mem.frames f = some pf ∧ x.Wants pf
  cleaning : ∀ w f, s.cleaning w = some f →
    ∃ pf, s.index.mem.frames f = some pf ∧ pf.pfBusy = true ∧ pf.pfDirty = false
  alone : ∀ w w' f, s.holds w = some f → s.holds w' = some f → w = w'

/-- Nobody is at work. -/
structure Idle (addr : ObjId → ℕ) (size : ℕ) (s : Paging) : Prop where
  sound : s.index.Sound addr size
  pins : ∀ f pf, s.index.mem.frames f = some pf → 0 ≤ pf.pfPincount
  calls : ∀ c, s.calls c = none
  cleaning : ∀ w, s.cleaning w = none

variable {addr : ObjId → ℕ} {size target : ℕ} {s s' : Paging} {c : ℕ} {o : ObjId} {n : ℕ}
  {f g : FrameId} {pf : Pframe} {x : Call} {w : ℕ ⊕ Option ℕ} {i : Index} {m : Mem}

theorem Idle.inv (h : s.Idle addr size) : s.Inv addr size where
  sound := h.sound
  pins := h.pins
  calls c x f hx := nomatch (h.calls c).symm.trans hx
  cleaning w f hf := nomatch (h.cleaning w).symm.trans hf
  alone w w' f hw := by
    cases w with
    | inl c => simp [holds, h.calls c] at hw
    | inr w => simp [holds, h.cleaning w] at hw

theorem page_of_holds {pc : Pc} (h : pc.holds = some f) : pc.page = some f := by
  cases pc with
  | fills g => exact h
  | short g => exact h
  | rested g => exact h
  | waits g => cases h
  | woken => cases h
  | done r => cases h

theorem holds_of_page {pc : Pc} (h : pc.page = some f) : pc = .waits f ∨ pc.holds = some f := by
  cases pc with
  | waits g =>
    cases h
    exact .inl rfl
  | fills g => exact .inr h
  | short g => exact .inr h
  | rested g => exact .inr h
  | woken => cases h
  | done r => cases h

theorem holds_call (hx : s.calls c = some x) : s.holds (.inl c) = x.pc.holds := by
  simp [holds, hx]

theorem Inv.held (h : s.Inv addr size) (hw : s.holds w = some f) :
    ∃ pf, s.index.mem.frames f = some pf := by
  cases w with
  | inl c =>
    obtain ⟨x, hx, hf⟩ := Option.bind_eq_some_iff.mp hw
    obtain ⟨pf, hpf, -⟩ := h.calls c x f hx (page_of_holds hf)
    exact ⟨pf, hpf⟩
  | inr w =>
    obtain ⟨pf, hpf, -⟩ := h.cleaning w f hw
    exact ⟨pf, hpf⟩

/-! ## Elementary changes -/

theorem Inv.alone_of_new (h : s.Inv addr size) (hother : ∀ w', w' ≠ w → s'.holds w' = s.holds w')
    (hnew : ∀ f w', s'.holds w = some f → s.holds w' = some f → w' = w) :
    ∀ w₁ w₂ f, s'.holds w₁ = some f → s'.holds w₂ = some f → w₁ = w₂ := by
  intro w₁ w₂ f h₁ h₂
  by_cases hw₁ : w₁ = w <;> by_cases hw₂ : w₂ = w
  · rw [hw₁, hw₂]
  · rw [hother w₂ hw₂] at h₂
    exact absurd (hnew f w₂ (hw₁ ▸ h₁) h₂) hw₂
  · rw [hother w₁ hw₁] at h₁
    exact absurd (hnew f w₁ (hw₂ ▸ h₂) h₁) hw₁
  · rw [hother w₁ hw₁] at h₁
    rw [hother w₂ hw₂] at h₂
    exact h.alone w₁ w₂ f h₁ h₂

theorem setCall_holds_self : (s.setCall c x).holds (.inl c) = x.pc.holds :=
  holds_call (update_self ..)

theorem setCall_holds_of_ne (hw : w ≠ .inl c) : (s.setCall c x).holds w = s.holds w := by
  cases w with
  | inl c' =>
    have hne : c' ≠ c := fun he ↦ hw (congrArg Sum.inl he)
    simp [holds, setCall, hne]
  | inr w => rfl

section

variable (h : s.Inv addr size)
include h

theorem Inv.setCall
    (hpage : ∀ f, x.pc.page = some f → ∃ pf, s.index.mem.frames f = some pf ∧ x.Wants pf)
    (hnew : ∀ f w, x.pc.holds = some f → s.holds w = some f → w = .inl c) :
    (s.setCall c x).Inv addr size where
  sound := h.sound
  pins := h.pins
  calls c' y f hy hf := by
    rcases of_update_some hy with ⟨rfl, rfl⟩ | ⟨-, hy⟩
    · exact hpage f hf
    · exact h.calls c' y f hy hf
  cleaning := h.cleaning
  alone := h.alone_of_new (fun _ ↦ setCall_holds_of_ne) fun f w hf ↦
    hnew f w (setCall_holds_self.symm.trans hf)

theorem Inv.setCall_holds_ne (hf : s.holds (.inl c) = some f)
    (hx : x.pc.holds = none) (w : ℕ ⊕ Option ℕ) : (s.setCall c x).holds w ≠ some f := by
  intro hw
  by_cases hwc : w = .inl c
  · rw [hwc, setCall_holds_self, hx] at hw
    cases hw
  · rw [setCall_holds_of_ne hwc] at hw
    exact hwc (h.alone w (.inl c) f hw hf)

theorem Inv.setCall_of_none (hx : x.pc.page = none) : (s.setCall c x).Inv addr size :=
  h.setCall (fun _ hf ↦ nomatch hx.symm.trans hf) fun _ _ hf ↦
    nomatch hx.symm.trans (page_of_holds hf)

theorem Inv.setIndex_of_frames (hsound : i.Sound addr size)
    (hframes : i.mem.frames = s.index.mem.frames) : Inv addr size { s with index := i } where
  sound := hsound
  pins := hframes.symm ▸ h.pins
  calls := hframes.symm ▸ h.calls
  cleaning := hframes.symm ▸ h.cleaning
  alone := h.alone

variable (hsound : i.Sound addr size)
  (hframes : ∀ g, g ≠ f → i.mem.frames g = s.index.mem.frames g)
  (hpins : ∀ pf, i.mem.frames f = some pf → 0 ≤ pf.pfPincount)
include hsound hframes hpins

/-- The index changes in one page, and those who wait for it or hold it have what they
expect. -/
theorem Inv.setIndex
    (hcalls : ∀ c x, s.calls c = some x → x.pc.page = some f →
      ∃ pf, i.mem.frames f = some pf ∧ x.Wants pf)
    (hcleaning : ∀ w, s.cleaning w ≠ some f) : Inv addr size { s with index := i } where
  sound := hsound
  pins g pg hg := by
    rcases eq_or_ne g f with rfl | hne
    · exact hpins pg hg
    · exact h.pins g pg (hframes g hne ▸ hg)
  calls c x g hx hg := by
    rcases eq_or_ne g f with rfl | hne
    · exact hcalls c x hx hg
    · exact (hframes g hne).symm ▸ h.calls c x g hx hg
  cleaning w g hg := by
    rcases eq_or_ne g f with rfl | hne
    · exact absurd hg (hcleaning w)
    · exact (hframes g hne).symm ▸ h.cleaning w g hg
  alone := h.alone

theorem Inv.setIndex_of_free (hwaits : ∀ c x, s.calls c = some x → x.pc ≠ .waits f)
    (hholds : ∀ w, s.holds w ≠ some f) : Inv addr size { s with index := i } := by
  refine h.setIndex hsound hframes hpins (fun c x hx hf ↦ ?_) fun w ↦ hholds (.inr w)
  rcases holds_of_page hf with hf | hf
  · exact absurd hf (hwaits c x hx)
  · exact absurd ((holds_call hx).trans hf) (hholds (.inl c))

end

theorem wake_cases (pc : Pc) (f : FrameId) :
    pc.wake f = pc ∧ pc ≠ .waits f ∨ pc.wake f = .woken ∧ pc = .waits f := by
  cases pc with
  | waits g =>
    rcases eq_or_ne g f with rfl | hne
    · exact .inr ⟨if_pos rfl, rfl⟩
    · exact .inl ⟨if_neg hne, fun he ↦ hne (Pc.waits.inj he)⟩
  | woken => exact .inl ⟨rfl, nofun⟩
  | fills g => exact .inl ⟨rfl, nofun⟩
  | short g => exact .inl ⟨rfl, nofun⟩
  | rested g => exact .inl ⟨rfl, nofun⟩
  | done r => exact .inl ⟨rfl, nofun⟩

theorem holds_wake (pc : Pc) (f : FrameId) : (pc.wake f).holds = pc.holds := by
  rcases wake_cases pc f with ⟨hpc, -⟩ | ⟨hpc, rfl⟩
  · rw [hpc]
  · rw [hpc]
    rfl

theorem holds_broadcast (s : Paging) (f : FrameId) : (s.broadcast f).holds = s.holds := by
  funext w
  cases w with
  | inl c =>
    show ((s.calls c).map _).bind _ = (s.calls c).bind _
    cases s.calls c with
    | none => rfl
    | some x => exact holds_wake x.pc f
  | inr w => rfl

theorem broadcast_calls {y : Call} (hy : (s.broadcast f).calls c = some y) :
    (s.calls c = some y ∨ y.pc = .woken) ∧ y.pc ≠ .waits f := by
  obtain ⟨x, hx, rfl⟩ := Option.map_eq_some_iff.mp hy
  dsimp only
  rcases wake_cases x.pc f with ⟨hpc, hne⟩ | ⟨hpc, -⟩
  · rw [hpc]
    exact ⟨.inl hx, hne⟩
  · rw [hpc]
    exact ⟨.inr rfl, nofun⟩

theorem Inv.broadcast (h : s.Inv addr size) (f : FrameId) : (s.broadcast f).Inv addr size where
  sound := h.sound
  pins := h.pins
  calls c y g hy hg := by
    rcases (broadcast_calls hy).1 with hx | hpc
    · exact h.calls c y g hx hg
    · rw [hpc] at hg
      cases hg
  cleaning := h.cleaning
  alone := holds_broadcast s f ▸ h.alone

theorem Inv.broadcastAlloc (h : s.Inv addr size) : s.broadcastAlloc.Inv addr size where
  sound := h.sound
  pins := h.pins
  calls c y g hy hg := by
    obtain ⟨⟨o, n, pc⟩, hx, rfl⟩ := Option.map_eq_some_iff.mp hy
    have hpc := h.calls c _ g hx
    cases pc <;> exact hpc hg
  cleaning := h.cleaning
  alone := by
    have hholds : s.broadcastAlloc.holds = s.holds := by
      funext w
      cases w with
      | inl c =>
        show ((s.calls c).map _).bind _ = (s.calls c).bind _
        rcases s.calls c with _ | ⟨o, n, pc⟩
        · rfl
        · cases pc <;> rfl
      | inr w => rfl
    exact hholds ▸ h.alone

theorem Inv.setDaemon (h : s.Inv addr size) (d : Daemon) : Inv addr size { s with pageoutd := d } :=
  ⟨h.sound, h.pins, h.calls, h.cleaning, h.alone⟩

theorem Inv.setCleaning (h : s.Inv addr size) {w : Option ℕ} {y : Option FrameId}
    (hpage : ∀ f, y = some f →
      ∃ pf, s.index.mem.frames f = some pf ∧ pf.pfBusy = true ∧ pf.pfDirty = false)
    (hnew : ∀ f w', y = some f → s.holds w' ≠ some f) :
    Inv addr size { s with cleaning := update s.cleaning w y } where
  sound := h.sound
  pins := h.pins
  calls := h.calls
  cleaning w' f hf := by
    rcases update_eq_some.mp hf with ⟨rfl, hy⟩ | ⟨-, hf⟩
    · exact hpage f hy
    · exact h.cleaning w' f hf
  alone := by
    refine h.alone_of_new (w := .inr w) (fun w' hw' ↦ ?_) fun f w' hf hw' ↦ ?_
    · cases w' with
      | inl c => rfl
      | inr w' => exact update_of_ne (fun he ↦ hw' (congrArg Sum.inr he)) ..
    · change update s.cleaning w y w = some f at hf
      rw [update_self] at hf
      exact absurd hw' (hnew f w' hf)

/-! ## The steps -/

variable [Layout]

theorem touch_frames (m : Mem) (f : FrameId) : (m.touch f).frames = m.frames := by
  obtain ⟨L, hL⟩ := touch_eq m f
  rw [hL]

theorem touch_objs (m : Mem) (f : FrameId) : (m.touch f).objs = m.objs := by
  obtain ⟨L, hL⟩ := touch_eq m f
  rw [hL]

theorem look_eq_ok {found : Option FrameId} : s.look c o n found = .ok s' ↔
    ∃ f pf, found = some f ∧ s.index.mem.frames f = some pf ∧
      s' = (s.setMem (s.index.mem.touch f)).setCall c
        ⟨o, n, if pf.pfBusy then .waits f else .done (.ok f)⟩ := by
  simp only [look, bind_eq_ok, follow_eq_ok, pure_eq_ok, exists_and_left, eq_comm (b := s')]

theorem Inv.look (h : s.Inv addr size) {found : Option FrameId}
    (hs : s.look c o n found = .ok s') : s'.Inv addr size := by
  obtain ⟨f, pf, -, hpf, rfl⟩ := look_eq_ok.mp hs
  have hm : (s.setMem (s.index.mem.touch f)).Inv addr size :=
    h.setIndex_of_frames (h.sound.touch f) (touch_frames ..)
  by_cases hbusy : pf.pfBusy = true
  · rw [if_pos hbusy]
    refine hm.setCall (fun g hg ↦ ?_) nofun
    cases hg
    exact ⟨pf, (congrFun (touch_frames ..) f).trans hpf, hbusy⟩
  · rw [if_neg hbusy]
    exact hm.setCall_of_none rfl

theorem alloc_cases (hs : s.alloc addr size c o n = .ok s') :
    (∃ m, (m = s.index.mem.draw .pframe ∨ m = (s.index.mem.draw .pframe).draw .page) ∧
      s' = (s.setMem m).setCall c ⟨o, n, .done (.error ⟨.ENOMEM, true⟩)⟩) ∨
    ∃ ob m f, f = s.index.mem.next ∧ m = ((s.index.mem.draw .pframe).draw .page).cache f o n ob ∧
      s.index.mem.objs o = some ob ∧ s.index.mem.pframeAlloc o n = .ok (m, some f) ∧
      s' = { s with
        index := ⟨m.setFrame f (some ⟨o, n, 0, true, false, fun _ ↦ 0⟩),
          s.index.insertHead addr size f o n⟩ }.setCall c ⟨o, n, .fills f⟩ := by
  obtain ⟨⟨m, r⟩, hm, hs⟩ := bind_ok hs
  rcases Mem.pframeAlloc_cases hm with ⟨rfl, hdraw⟩ | ⟨rfl, ob, hob, hpos, rfl⟩
  · cases hs
    exact .inl ⟨m, hdraw, rfl⟩
  · cases hs
    refine .inr ⟨ob, _, _, rfl, rfl, hob, hm, ?_⟩
    simp [Mem.modFrame, Mem.cache]

theorem Inv.alloc (h : s.Inv addr size) (hnone : s.index.resident addr size o n = none)
    (hs : s.alloc addr size c o n = .ok s') : s'.Inv addr size := by
  rcases alloc_cases hs with ⟨m, hm, rfl⟩ | ⟨ob, m, f, hf, hm, hob, halloc, rfl⟩
  · have hi : (s.setMem m).Inv addr size := by
      rcases hm with rfl | rfl
      · exact h.setIndex_of_frames (h.sound.congr (fun _ _ _ ↦ Iff.rfl) rfl rfl rfl rfl) rfl
      · exact h.setIndex_of_frames (h.sound.congr (fun _ _ _ ↦ Iff.rfl) rfl rfl rfl rfl) rfl
    exact hi.setCall_of_none rfl
  · -- the name of the new page has never been used
    have hfresh : ∀ pf, s.index.mem.frames f ≠ some pf := by
      intro pf hpf
      exact lt_irrefl _ ((h.sound.fresh f _ _ ⟨pf, hpf, rfl, rfl⟩).trans_eq hf.symm)
    have hheld : ∀ w, s.holds w ≠ some f := by
      intro w hw
      obtain ⟨pf, hpf⟩ := h.held hw
      exact hfresh pf hpf
    have hsound : Index.Sound addr size ⟨m, s.index.insertHead addr size f o n⟩ := by
      refine h.sound.getPage (o := o) (n := n) ?_
      unfold Index.getPage
      rw [hnone]
      dsimp only
      rw [halloc, ok_bind]
      rfl
    have hframes : (m.setFrame f (some ⟨o, n, 0, true, false, fun _ ↦ 0⟩)).frames =
        update s.index.mem.frames f (some ⟨o, n, 0, true, false, fun _ ↦ 0⟩) := by
      rw [hm]
      exact update_idem ..
    have hframe : m.frames f = some ⟨o, n, 0, false, false, fun _ ↦ 0⟩ := by
      rw [hm]
      exact update_self ..
    have hbusy : Index.Sound addr size ⟨m.setFrame f (some ⟨o, n, 0, true, false, fun _ ↦ 0⟩),
        s.index.insertHead addr size f o n⟩ := hsound.setFrame hframe rfl rfl rfl rfl rfl rfl
    have hi := h.setIndex_of_free hbusy
      (fun g hg ↦ (congrFun hframes g).trans (update_of_ne hg ..)) (fun pf hpf ↦ ?_)
      (fun c x hx hw ↦ ?_) hheld
    · refine hi.setCall (fun g hg ↦ ?_) fun g w hg hw ↦ ?_
      · cases hg
        exact ⟨_, (congrFun hframes f).trans (update_self ..), rfl, rfl, rfl, rfl⟩
      · cases hg
        exact absurd hw (hheld w)
    · cases ((congrFun hframes f).trans (update_self ..)).symm.trans hpf
      exact le_rfl
    · obtain ⟨pf, hpf, -⟩ := h.calls c x f hx (by rw [hw]; rfl)
      exact hfresh pf hpf

/-- A call comes back from its `fillpage`. -/
theorem Inv.filled (h : s.Inv addr size) (hc : s.calls c = some ⟨o, n, .fills f⟩)
    (hsound : i.Sound addr size) (hframes : ∀ g, g ≠ f → i.mem.frames g = s.index.mem.frames g)
    (hpins : ∀ pf, i.mem.frames f = some pf → 0 ≤ pf.pfPincount)
    (hpage : ∀ g, x.pc.page = some g → g = f ∧ ∃ pf, i.mem.frames g = some pf ∧ x.Wants pf) :
    Inv addr size { (s.broadcast f).setCall c x with index := i } := by
  -- as if the call first forgot its page and was then given it back
  let s₁ := (s.setCall c ⟨o, n, .woken⟩).broadcast f
  have h₁ : s₁.Inv addr size := (h.setCall_of_none rfl).broadcast f
  have hheld : ∀ w, s₁.holds w ≠ some f := by
    intro w
    rw [holds_broadcast]
    exact h.setCall_holds_ne (holds_call hc) rfl w
  have h₂ : Inv addr size { s₁ with index := i } :=
    h₁.setIndex_of_free hsound hframes hpins (fun _ _ hx ↦ (broadcast_calls hx).2) hheld
  have h₃ : (Paging.setCall { s₁ with index := i } c x).Inv addr size := by
    refine h₂.setCall (fun g hg ↦ (hpage g hg).2) fun g w hg hw ↦ ?_
    obtain ⟨rfl, -⟩ := hpage g (page_of_holds hg)
    exact absurd hw (hheld w)
  have hcalls : update (s.broadcast f).calls c (some x) = update s₁.calls c (some x) := by
    funext c'
    rcases eq_or_ne c' c with rfl | hne
    · rw [update_self, update_self]
    · simp [s₁, Paging.setCall, Paging.broadcast, hne]
  unfold Paging.setCall at h₃ ⊢
  rw [hcalls]
  exact h₃

theorem fillpage_ok (hf : m.frames f = some pf) (h0 : 0 ≤ pf.pfPincount) (data : Page)
    (pins : Bool) : ∃ k, 0 ≤ k ∧ fillpage m f data pins =
      .ok (m.setFrame f (some { pf with pfData := data, pfPincount := pf.pfPincount + k })) := by
  cases pins with
  | true => exact ⟨1, by decide, fillAndPin_ok hf h0⟩
  | false =>
    refine ⟨0, le_rfl, ?_⟩
    simp [fillpage, Mem.modFrame, hf]

/-- A call whose `fillpage` succeeds returns its page, or sleeps once more with the page
pinned. -/
theorem filled_ok (target c : ℕ) (o : ObjId) (n : ℕ) (hf : s.index.mem.frames f = some pf)
    (h0 : 0 ≤ pf.pfPincount) (r : Page × Bool) (free : ℕ) : ∃ pf' pc d,
      (pf'.pfObj = pf.pfObj ∧ pf'.pfPagenum = pf.pfPagenum ∧ pf'.pfBusy = false ∧
        0 ≤ pf'.pfPincount) ∧
      (pc = .done (.ok f) ∨ pc = .short f ∧ pf'.IsPinned) ∧
      s.filled target c o n f (.ok r) free =
        .ok { (s.broadcast f).setCall c ⟨o, n, pc⟩ with
          index := { s.index with mem := s.index.mem.setFrame f (some pf') }
          pageoutd := d } := by
  obtain ⟨k, hk, hfill⟩ := fillpage_ok hf h0 r.1 r.2
  let pf₁ : Pframe :=
    { pf with pfData := r.1, pfPincount := pf.pfPincount + k, pfBusy := false }
  have hrelease : (s.setMem (s.index.mem.setFrame f
      (some { pf with pfData := r.1, pfPincount := pf.pfPincount + k }))).release f =
      (s.setMem (s.index.mem.setFrame f (some pf₁))).broadcast f := by
    simp [release, setMem, Mem.modFrame, Mem.setFrame, pf₁]
  have hframe : (s.index.mem.setFrame f (some pf₁)).frames f = some pf₁ := update_self ..
  unfold Paging.filled
  dsimp only
  rw [hfill, ok_bind, hrelease]
  by_cases hlow : free = target
  · have hpin : ((s.setMem (s.index.mem.setFrame f (some pf₁))).broadcast f).index.mem.pframePin f =
        .ok (s.index.mem.setFrame f (some { pf₁ with pfPincount := pf₁.pfPincount + 1 })) := by
      refine Mem.pframePin_eq_ok.mpr ⟨pf₁, hframe, by simp only [pf₁]; omega, ?_⟩
      simp [Paging.broadcast, setMem, Mem.setFrame]
    rw [if_pos hlow, hpin, ok_bind]
    refine ⟨{ pf₁ with pfPincount := pf₁.pfPincount + 1 }, .short f, _, ⟨rfl, rfl, rfl, ?_⟩,
      .inr ⟨rfl, ?_⟩, rfl⟩
    · show 0 ≤ pf.pfPincount + k + 1
      omega
    · show 0 < pf.pfPincount + k + 1
      omega
  · rw [if_neg hlow]
    refine ⟨pf₁, .done (.ok f), s.pageoutd.wake f, ⟨rfl, rfl, rfl, ?_⟩, .inl rfl, ?_⟩
    · show 0 ≤ pf.pfPincount + k
      omega
    · unfold finish
      simp only [Paging.broadcast, setMem, hframe, follow_bind]
      rfl

section

variable (h : s.Inv addr size)
include h

theorem Inv.filled_step (hc : s.calls c = some ⟨o, n, .fills f⟩)
    {r : Except Errno (Page × Bool)} {free : ℕ} (hs : s.filled target c o n f r free = .ok s') :
    s'.Inv addr size := by
  obtain ⟨pf, hpf, hobj, hnum, -, -⟩ := h.calls c _ f hc rfl
  cases r with
  | error e =>
    obtain ⟨i, hi, hs⟩ := bind_ok hs
    cases hs
    have hsound : (s.release f).index.Sound addr size := by
      have hm : s.index.mem.modFrame f (fun pf ↦ { pf with pfBusy := false }) =
          s.index.mem.setFrame f (some { pf with pfBusy := false }) := by
        rw [Mem.modFrame, hpf, Option.map_some]
      exact h.sound.setFrame hpf (congrArg Mem.frames hm) rfl rfl rfl rfl rfl
    obtain ⟨-, -, -, -, -, -, hframes, -⟩ := hsound.free_cases hi
    refine h.filled hc (hsound.free hi) (fun g hg ↦ ?_) (fun pf hpf ↦ ?_) fun g hg ↦ ?_
    · rw [hframes, update_of_ne hg]
      exact update_of_ne hg ..
    · rw [hframes, update_self] at hpf
      cases hpf
    · cases hg
  | ok r =>
    obtain ⟨pf', pc, d, ⟨hobj', hnum', hbusy, hpin⟩, hpc, hok⟩ := filled_ok
      target c o n hpf (h.pins f pf hpf) r free
    cases hok.symm.trans hs
    have hframe : (s.index.mem.setFrame f (some pf')).frames f = some pf' := update_self ..
    refine (h.filled hc (h.sound.setFrame hpf rfl hobj' hnum' rfl rfl rfl)
      (fun g hg ↦ update_of_ne hg ..) (fun pg hpg ↦ ?_) fun g hg ↦ ?_).setDaemon d
    · cases hframe.symm.trans hpg
      exact hpin
    · rcases hpc with rfl | ⟨rfl, hpinned⟩
      · cases hg
      · cases hg
        exact ⟨rfl, pf', hframe, hobj'.trans hobj, hnum'.trans hnum, hbusy, hpinned⟩

/-- A page that is not busy is waited for by nobody, and only a call that has pinned it
holds it. -/
theorem Inv.idle_page (hf : s.index.mem.frames f = some pf)
    (hbusy : pf.pfBusy = false) (hx : s.calls c = some x) (hpage : x.pc.page = some f) :
    x.pc.holds = some f ∧ pf.IsPinned ∧ ∀ pf' : Pframe, pf'.pfObj = pf.pfObj →
      pf'.pfPagenum = pf.pfPagenum → pf'.pfBusy = false → pf'.IsPinned → x.Wants pf' := by
  obtain ⟨pf₀, hf₀, hwants⟩ := h.calls c x f hx hpage
  cases hf.symm.trans hf₀
  obtain ⟨o, n, pc⟩ := x
  cases pc with
  | waits g => exact nomatch hbusy.symm.trans hwants
  | fills g => exact nomatch hbusy.symm.trans hwants.2.2.1
  | short g =>
    exact ⟨hpage, hwants.2.2.2, fun pf' hobj hnum hbusy' hpin ↦
      ⟨hobj.trans hwants.1, hnum.trans hwants.2.1, hbusy', hpin⟩⟩
  | rested g =>
    exact ⟨hpage, hwants.2.2.2, fun pf' hobj hnum hbusy' hpin ↦
      ⟨hobj.trans hwants.1, hnum.trans hwants.2.1, hbusy', hpin⟩⟩
  | woken => cases hpage
  | done r => cases hpage

theorem Inv.idle_cleaning (hf : s.index.mem.frames f = some pf)
    (hbusy : pf.pfBusy = false) (w : Option ℕ) : s.cleaning w ≠ some f := by
  intro hw
  obtain ⟨pf₀, hf₀, hbusy₀, -⟩ := h.cleaning w f hw
  cases hf.symm.trans hf₀
  exact nomatch hbusy.symm.trans hbusy₀

theorem Inv.rested (hc : s.calls c = some ⟨o, n, .rested f⟩)
    (hm : s.index.mem.pframeUnpin f = .ok m) (hs : (s.setMem m).finish c o n f = .ok s') :
    s'.Inv addr size := by
  obtain ⟨pf, hpf, hpos, rfl⟩ := Mem.pframeUnpin_eq_ok.mp hm
  obtain ⟨pf₀, hpf₀, -, -, hbusy, -⟩ := h.calls c _ f hc rfl
  cases hpf.symm.trans hpf₀
  obtain ⟨_, -, hs⟩ := bind_ok hs
  obtain ⟨_, -, hs⟩ := bind_ok hs
  cases hs
  have h₁ : (s.setCall c ⟨o, n, .done (.ok f)⟩).Inv addr size := h.setCall_of_none rfl
  have hheld := h.setCall_holds_ne (x := ⟨o, n, .done (.ok f)⟩) (holds_call hc) rfl
  refine h₁.setIndex_of_free (h.sound.setFrame hpf rfl rfl rfl rfl rfl rfl)
    (fun g hg ↦ update_of_ne hg ..) (fun pg hpg ↦ ?_) (fun c' x hx hw ↦ ?_) hheld
  · cases (update_self ..).symm.trans hpg
    exact sub_nonneg.mpr hpos
  · obtain ⟨hholds, -⟩ := h₁.idle_page hpf hbusy hx (by rw [hw]; rfl)
    rw [hw] at hholds
    cases hholds

theorem Inv.free (hs : s.free f = .ok s') : s'.Inv addr size := by
  obtain ⟨i, hi, hs⟩ := bind_ok hs
  cases hs
  obtain ⟨pf, -, hpf, hpin, hbusy, -, hframes, -⟩ := h.sound.free_cases hi
  refine h.setIndex (h.sound.free hi) (fun g hg ↦ ?_) (fun pg hpg ↦ ?_)
    (fun c x hx hpage ↦ ?_) (h.idle_cleaning hpf hbusy)
  · rw [hframes, update_of_ne hg]
  · rw [hframes, update_self] at hpg
    cases hpg
  · exact absurd (h.idle_page hpf hbusy hx hpage).2.1 hpin

theorem Inv.dirty (hm : s.index.mem.pframeDirty f = .ok m) : (s.setMem m).Inv addr size := by
  obtain ⟨pf, hpf, hm⟩ := bind_follow hm
  obtain ⟨hbusy, hm⟩ := bind_demand hm
  obtain ⟨ob, -, hm⟩ := bind_ok hm
  obtain ⟨ok, -, hm⟩ := bind_ok hm
  cases hm
  refine h.setIndex (h.sound.setFrame hpf rfl rfl rfl rfl rfl rfl)
    (fun g hg ↦ update_of_ne hg ..) (fun pg hpg ↦ ?_) (fun c x hx hpage ↦ ?_)
    (h.idle_cleaning hpf hbusy)
  · cases (update_self ..).symm.trans hpg
    exact h.pins f pf hpf
  · obtain ⟨-, hpin, hwants⟩ := h.idle_page hpf hbusy hx hpage
    exact ⟨_, update_self .., hwants _ rfl rfl hbusy hpin⟩

theorem Inv.dirty_page (hf : s.index.mem.frames f = some pf)
    (hdirty : pf.pfDirty = true) (hpin : pf.pfPincount = 0) (w : ℕ ⊕ Option ℕ) :
    s.holds w ≠ some f := by
  intro hw
  cases w with
  | inl c =>
    obtain ⟨⟨o, n, pc⟩, hx, hpc⟩ := Option.bind_eq_some_iff.mp hw
    obtain ⟨pf₀, hf₀, hwants⟩ := h.calls c _ f hx (page_of_holds hpc)
    cases hf.symm.trans hf₀
    cases pc with
    | fills g => exact nomatch hdirty.symm.trans hwants.2.2.2
    | short g => exact hwants.2.2.2.ne' hpin
    | rested g => exact hwants.2.2.2.ne' hpin
    | waits g => cases hpc
    | woken => cases hpc
    | done r => cases hpc
  | inr w =>
    obtain ⟨pf₀, hf₀, -, hdirty₀⟩ := h.cleaning w f hw
    cases hf.symm.trans hf₀
    exact nomatch hdirty.symm.trans hdirty₀

theorem Inv.clean {w : Option ℕ} (hs : s.clean w f = .ok s') : s'.Inv addr size := by
  obtain ⟨pf, hpf, hs⟩ := bind_follow hs
  obtain ⟨hdirty, hs⟩ := bind_demand hs
  obtain ⟨hpin, hs⟩ := bind_demand hs
  obtain ⟨m, hm, hs⟩ := bind_ok hs
  cases hs
  obtain ⟨P, -, rfl⟩ := Mem.pframeRemoveFromPts_procs hm
  have hheld := h.dirty_page hpf hdirty hpin
  have h₁ : (s.setMem (Mem.setFrame { s.index.mem with procs := P } f
      (some { pf with pfDirty := false, pfBusy := true }))).Inv addr size := by
    refine h.setIndex (h.sound.setFrame hpf rfl rfl rfl rfl rfl rfl)
      (fun g hg ↦ update_of_ne hg ..) (fun pg hpg ↦ ?_) (fun c x hx hpage ↦ ?_)
      fun w ↦ hheld (.inr w)
    · cases (update_self ..).symm.trans hpg
      exact hpin.ge
    · rcases holds_of_page hpage with hpc | hpc
      · refine ⟨_, update_self .., ?_⟩
        unfold Call.Wants
        rw [hpc]
      · exact absurd ((holds_call hx).trans hpc) (hheld (.inl c))
  refine h₁.setCleaning (fun g hg ↦ ?_) fun g w' hg ↦ ?_
  · cases hg
    exact ⟨_, update_self .., rfl, rfl⟩
  · cases hg
    exact hheld w'

theorem Inv.cleaned {w : Option ℕ} (hw : s.cleaning w = some f) (ok : Bool) :
    (s.cleaned w f ok).Inv addr size := by
  obtain ⟨pf, hpf, -, -⟩ := h.cleaning w f hw
  let s₁ : Paging := { s with cleaning := update s.cleaning w none }
  have h₁ : s₁.Inv addr size := h.setCleaning nofun nofun
  have hheld : ∀ w', s₁.holds w' ≠ some f := by
    intro w' hw'
    by_cases hne : w' = .inr w
    · rw [hne] at hw'
      change update s.cleaning w none w = some f at hw'
      rw [update_self] at hw'
      cases hw'
    · refine hne (h.alone w' (.inr w) f ?_ hw)
      cases w' with
      | inl c => exact hw'
      | inr w' => exact (update_of_ne (fun he ↦ hne (congrArg Sum.inr he)) ..).symm.trans hw'
  have hm : s.index.mem.modFrame f (fun pf ↦
      { pf with pfBusy := false, pfDirty := pf.pfDirty || !ok }) = s.index.mem.setFrame f
        (some { pf with pfBusy := false, pfDirty := pf.pfDirty || !ok }) := by
    rw [Mem.modFrame, hpf, Option.map_some]
  unfold Paging.cleaned
  rw [hm]
  refine (h₁.broadcast f).setIndex_of_free
    (h.sound.setFrame hpf rfl rfl rfl rfl rfl rfl)
    (fun g hg ↦ update_of_ne hg ..) (fun pg hpg ↦ ?_) (fun _ _ hx ↦ (broadcast_calls hx).2) ?_
  · cases (update_self ..).symm.trans hpg
    exact h.pins f pf hpf
  · rw [holds_broadcast]
    exact hheld

theorem Inv.pageoutdRun {free : ℕ}
    (hs : s.pageoutdRun target free = .ok s') : s'.Inv addr size := by
  obtain ⟨_, -, hs⟩ := bind_ok hs
  split at hs
  · next f l hl =>
    split at hs
    · obtain ⟨pf, -, hs⟩ := bind_ok hs
      split at hs
      · cases hs
        exact h.setDaemon _
      · split at hs
        · exact (h.setDaemon .runs).clean hs
        · exact (h.setDaemon .runs).free hs
    · cases hs
      exact h.broadcastAlloc.setDaemon _
  · cases hs
    exact h.broadcastAlloc.setDaemon _

/-- One step of one thread keeps the invariant. -/
theorem Inv.step {e : Event} (hs : s.step addr size target e = .ok s') : s'.Inv addr size := by
  cases e with
  | get c o n =>
    obtain ⟨_, -, hs⟩ := bind_ok hs
    split at hs
    · exact h.look hs
    · next hnone => exact h.alloc hnone hs
  | filled c r free =>
    simp only [Paging.step] at hs
    split at hs
    · next hc => exact h.filled_step hc hs
    · cases hs
  | resume c =>
    simp only [Paging.step] at hs
    split at hs
    · exact h.look hs
    · next hc =>
      obtain ⟨m, hm, hs⟩ := bind_ok hs
      exact h.rested hc hm hs
    · cases hs
  | free f => exact h.free hs
  | dirty f =>
    obtain ⟨m, hm, hs⟩ := bind_ok hs
    cases hs
    exact h.dirty hm
  | clean k f =>
    obtain ⟨_, -, hs⟩ := bind_ok hs
    exact h.clean hs
  | cleaned w ok =>
    obtain ⟨f, hf, hs⟩ := bind_follow hs
    cases hs
    exact h.cleaned hf ok
  | pageoutd free =>
    obtain ⟨_, -, hs⟩ := bind_ok hs
    obtain ⟨_, -, hs⟩ := bind_ok hs
    exact h.pageoutdRun hs

end

/-! ## What a call gets -/

theorem without_eq (hobjs : s'.index.mem.objs o = s.index.mem.objs o)
    (hholds : (s'.holds (.inl c)).isSome = (s.holds (.inl c)).isSome) :
    s'.without c o = s.without c o := by
  unfold without
  rw [hobjs, hholds]

/-- A page that is found is waited for, or returned. -/
theorem Inv.look_goesWell (h : s.Inv addr size) (hc : s.holds (.inl c) = none)
    (hf : s.index.mem.PageAt f o n) :
    ∃ s' pc, s.look c o n (some f) = .ok s' ∧ s.GoesWell c o n s' pc := by
  obtain ⟨pf, hpf, rfl, rfl⟩ := hf
  have hs : s.look c pf.pfObj pf.pfPagenum (some f) = .ok _ :=
    look_eq_ok.mpr ⟨f, pf, rfl, hpf, rfl⟩
  have hframes := touch_frames s.index.mem f
  refine ⟨_, _, hs, update_self .., fun g hg ↦ ?_, fun e he ↦ ?_, fun e he ↦ ?_, fun hne ↦ ?_⟩
  · by_cases hbusy : pf.pfBusy = true
    · rw [if_pos hbusy] at hg
      cases hg
    · rw [if_neg hbusy] at hg
      cases hg
      have hpage : (s.index.mem.touch f).frames f = some pf := (congrFun hframes f).trans hpf
      exact ⟨pf, hpage, rfl, rfl, Bool.eq_false_iff.mpr hbusy, fun g hg ↦
        (h.look hs).sound.unique g f _ _ hg ⟨pf, hpage, rfl, rfl⟩⟩
  · split at he <;> cases he
  · split at he <;> cases he
  · refine without_eq (congrFun (touch_objs ..) _) ?_
    rw [setCall_holds_self, hc]
    by_cases hbusy : pf.pfBusy = true
    · rw [if_pos hbusy]
      rfl
    · exact absurd (if_neg hbusy) (hne f)

/-- A page that is not found is allocated, or there is no memory. -/
theorem alloc_goesWell (hc : s.holds (.inl c) = none) (ho : s.Live o) :
    ∃ s' pc, s.alloc addr size c o n = .ok s' ∧ s.GoesWell c o n s' pc := by
  obtain ⟨s', hs⟩ : ∃ s', s.alloc addr size c o n = .ok s' := by
    obtain ⟨ob, hob, hpos⟩ := ho
    unfold Paging.alloc Mem.pframeAlloc
    split
    · exact ⟨_, rfl⟩
    · dsimp only
      split
      · exact ⟨_, rfl⟩
      · rw [show ((s.index.mem.draw .pframe).draw .page).objs o = some ob from hob, follow_bind,
          demand_pos hpos]
        exact ⟨_, rfl⟩
  rcases alloc_cases hs with ⟨m, hm, rfl⟩ | ⟨ob, m, f, -, rfl, hob, -, rfl⟩
  · have hobjs : m.objs = s.index.mem.objs ∧ m.frames = s.index.mem.frames := by
      rcases hm with rfl | rfl <;> exact ⟨rfl, rfl⟩
    refine ⟨_, _, hs, update_self .., fun f hf ↦ ?_, fun e he ↦ ?_, fun e he f u k hf ↦ ?_,
      fun _ ↦ ?_⟩
    · cases hf
    · cases he
      rfl
    · obtain ⟨pf, hpf, hid⟩ := hf
      refine ⟨⟨pf, hobjs.2 ▸ hpf, hid⟩, fun hf ↦ ?_⟩
      cases hc.symm.trans hf
    · refine without_eq (congrFun hobjs.1 o) ?_
      rw [setCall_holds_self, hc]
      rfl
  · refine ⟨_, _, hs, update_self .., fun f hf ↦ ?_, fun e he ↦ ?_, fun e he ↦ ?_, fun _ ↦ ?_⟩
    · cases hf
    · cases he
    · cases he
    · -- the new page counts for one
      unfold without
      rw [setCall_holds_self, hc, hob]
      simp [Paging.setCall, Mem.cache, Pc.holds]

theorem Inv.filled_goesWell (h : s.Inv addr size) (hc : s.calls c = some ⟨o, n, .fills f⟩)
    (r : Page × Bool) (free : ℕ) :
    ∃ s' pc, s.filled target c o n f (.ok r) free = .ok s' ∧ s.GoesWell c o n s' pc := by
  obtain ⟨pf, hpf, hobj, hnum, -, -⟩ := h.calls c _ f hc rfl
  obtain ⟨pf', pc, d, ⟨hobj', hnum', hbusy, -⟩, hpc, hs⟩ := filled_ok
    target c o n hpf (h.pins f pf hpf) r free
  have hunique := (h.filled_step hc hs).sound.unique
  refine ⟨_, pc, hs, update_self .., fun g hg ↦ ?_, fun e he ↦ ?_, fun e he ↦ ?_, fun hne ↦ ?_⟩
  · rcases hpc with rfl | ⟨rfl, -⟩
    · cases hg
      have hpage : (s.index.mem.setFrame f (some pf')).frames f = some pf' := update_self ..
      exact ⟨pf', hpage, hobj'.trans hobj, hnum'.trans hnum, hbusy, fun g hg ↦
        hunique g f _ _ hg ⟨pf', hpage, hobj'.trans hobj, hnum'.trans hnum⟩⟩
    · cases hg
  · rcases hpc with rfl | ⟨rfl, -⟩ <;> cases he
  · rcases hpc with rfl | ⟨rfl, -⟩ <;> cases he
  · rcases hpc with rfl | ⟨rfl, -⟩
    · exact absurd rfl (hne f)
    · refine without_eq rfl ?_
      rw [holds_call hc]
      exact congrArg Option.isSome (setCall_holds_self)

theorem Inv.rested_goesWell (h : s.Inv addr size) (hc : s.calls c = some ⟨o, n, .rested f⟩) :
    ∃ s' pc, (do
      let m ← s.index.mem.pframeUnpin f
      (s.setMem m).finish c o n f) = .ok s' ∧ s.GoesWell c o n s' pc := by
  obtain ⟨pf, hpf, hobj, hnum, hbusy, hpin⟩ := h.calls c _ f hc rfl
  have hm := Mem.pframeUnpin_eq_ok.mpr ⟨pf, hpf, hpin, rfl⟩
  let pf' : Pframe := { pf with pfPincount := pf.pfPincount - 1 }
  have hpage : (s.index.mem.setFrame f (some pf')).frames f = some pf' := update_self ..
  have hs : (s.setMem (s.index.mem.setFrame f (some pf'))).finish c o n f =
      .ok ((s.setMem (s.index.mem.setFrame f (some pf'))).setCall c ⟨o, n, .done (.ok f)⟩) := by
    unfold finish
    rw [show (s.setMem (s.index.mem.setFrame f (some pf'))).index.mem.frames f = some pf' from hpage,
      follow_bind, demand_pos hbusy]
    rfl
  refine ⟨_, _, (congrArg (· >>= _) hm).trans hs, update_self .., fun g hg ↦ ?_, nofun, nofun,
    fun hne ↦ absurd rfl (hne f)⟩
  cases hg
  exact ⟨pf', hpage, hobj, hnum, hbusy, fun g hg ↦
    (h.rested hc hm hs).sound.unique g f _ _ hg ⟨pf', hpage, hobj, hnum⟩⟩

/-- A step of `pframe_get` goes well exactly when the condition is met. -/
theorem Inv.getRight_iff (h : s.Inv addr size) (e : Event) :
    s.GetRight addr size target e ↔ s.GetFits e := by
  constructor
  · intro hr
    cases e with
    | filled c r free =>
      cases r with
      | ok r => trivial
      | error err =>
        intro o n f hc
        obtain ⟨s', pc, hs, hwell⟩ := hr c o n (.filled hc)
        simp only [Paging.step, hc] at hs
        obtain ⟨i, -, hs⟩ := bind_ok hs
        cases hs
        -- the caller is left with a pointer to the page that has been freed
        have hpc := hwell.call
        simp only [Paging.setCall, update_self, Option.some.injEq, Call.mk.injEq, true_and] at hpc
        exact nomatch hwell.null _ hpc.symm
    | resume c =>
      intro o n hc
      obtain ⟨s', pc, hs, -⟩ := hr c o n (.woken hc)
      simp only [Paging.step, hc] at hs
      obtain ⟨f, -, hf, -⟩ := look_eq_ok.mp hs
      exact ⟨f, h.sound.resident_eq_some.mp hf⟩
    | get c o n => trivial
    | free f => trivial
    | dirty f => trivial
    | clean k f => trivial
    | cleaned w ok => trivial
    | pageoutd free => trivial
  · rintro hfits c o n hruns
    cases hruns with
    | get hc ho =>
      have hnone : s.holds (.inl c) = none := by simp [holds, hc]
      have hdemand : (s.calls c).isNone ∧ s.Live o := ⟨by rw [hc]; rfl, ho⟩
      simp only [Paging.step, Paging.get, demand_bind hdemand]
      cases hres : s.index.resident addr size o n with
      | some f => exact h.look_goesWell hnone (h.sound.resident_eq_some.mp hres)
      | none => exact alloc_goesWell hnone ho
    | @filled _ _ _ f r free hc =>
      cases r with
      | error err => exact absurd hc (hfits o n f)
      | ok r =>
        simp only [Paging.step, hc]
        exact h.filled_goesWell hc r free
    | woken hc =>
      obtain ⟨f, hf⟩ := hfits o n hc
      simp only [Paging.step, hc]
      rw [h.sound.resident_eq_some.mpr hf]
      exact h.look_goesWell (holds_call hc) hf
    | rested hc =>
      simp only [Paging.step, hc]
      exact h.rested_goesWell hc

/-- Whatever the threads do in the page cache, in every state a step of `pframe_get` goes
well exactly when it is not the return from a `fillpage` that failed, and the page that the
call has waited for is resident; and the pages that calls wait for are resident and busy,
so that no call sleeps on the queue of a page that has been freed. -/
theorem getRight_iff_of_run {s₀ : Paging} {h : List Event} (h₀ : s₀.Idle addr size)
    (hr : Run (ofStep (step addr size target)) s₀ h s) :
    (∀ e, s.GetRight addr size target e ↔ s.GetFits e) ∧
    ∀ c o n f, s.calls c = some ⟨o, n, .waits f⟩ →
      ∃ pf, s.index.mem.frames f = some pf ∧ pf.pfBusy = true := by
  have hs : s.Inv addr size := hr.invariant (fun _ _ _ hi hs ↦ hi.step hs) h₀.inv
  exact ⟨hs.getRight_iff, fun c o n f hc ↦ hs.calls c _ f hc rfl⟩

/-- A file of one page, in memory that has never been used. -/
def oneFile : Paging where
  index :=
    { mem :=
        { objs := fun o ↦ if o = 0 then some { mmoOps := .vnode 0, mmoRefcount := 1 } else none
          vnodes := fun v ↦ if v = 0 then
            some { vnMmobj := 0, vnLen := 1, fillpage := fun _ ↦ .ok fun _ ↦ 0 } else none
          next := 1 } }

omit [Layout] in
theorem idle_oneFile : oneFile.Idle addr size := by
  refine ⟨Index.Empty.sound ⟨fun _ ↦ rfl, fun o ob ho ↦ ?_, fun _ ↦ rfl, rfl⟩, nofun,
    fun _ ↦ rfl, fun _ ↦ rfl⟩
  change (if o = 0 then _ else _) = some ob at ho
  split at ho <;> cases ho
  exact ⟨rfl, rfl⟩

omit [Layout] in
/-- A call fills the page, another one waits for it, and gets it. -/
theorem waiter_goesWell : ∃ s, Run (ofStep (@step (fun o ↦ 64 * o) 16 0 .stock)) oneFile
      [.filled 0 (.ok (fun _ ↦ 0, false)) 9, .get 1 0 0, .get 0 0 0] s ∧
    s.Runs (.resume 1) 1 0 0 ∧ @GetRight (fun o ↦ 64 * o) 16 0 .stock s (.resume 1) := by
  obtain ⟨s, hs, htest⟩ := exists_of_check (f := @step (fun o ↦ 64 * o) 16 0 .stock)
    (s := oneFile) (l := [.get 0 0 0, .get 1 0 0, .filled 0 (.ok (fun _ ↦ 0, false)) 9])
    (p := fun s ↦ s.calls 1 == some ⟨0, 0, .woken⟩ && s.index.mem.holds 0 0 1)
    (by decide +kernel)
  rw [Bool.and_eq_true, beq_iff_eq, Mem.holds_iff] at htest
  obtain ⟨hcall, hpage⟩ := htest
  have hright := @getRight_iff_of_run (fun o ↦ 64 * o) 16 0 s .stock _ _ idle_oneFile
    (Run.of_exec hs)
  refine ⟨s, Run.of_exec hs, .woken hcall, (hright.1 (.resume 1)).mpr fun o n hc ↦ ?_⟩
  cases hcall.symm.trans hc
  exact ⟨1, hpage⟩

omit [Layout] in
/-- The daemon cleans the page while a call waits for it, and frees it before the call goes
on: the call inspects `NULL`.  Or the `fillpage` of a call fails: the caller is left with a
pointer to the page that has been freed, and a call that has waited for the page inspects
`NULL`. -/
theorem waiter_inspects_null :
    (∃ s, Run (ofStep (@step (fun o ↦ 64 * o) 16 1 .stock)) oneFile
        [.pageoutd 0, .cleaned none true, .get 1 0 0, .pageoutd 0, .dirty 1,
          .filled 0 (.ok (fun _ ↦ 0, false)) 9, .get 0 0 0] s ∧
      s.Runs (.resume 1) 1 0 0 ∧
      @step (fun o ↦ 64 * o) 16 1 .stock s (.resume 1) = .error .pointer) ∧
    ∃ s, Run (ofStep (@step (fun o ↦ 64 * o) 16 1 .stock)) oneFile
        [.filled 0 (.error .ENOSPC) 9, .get 1 0 0, .get 0 0 0] s ∧
      s.calls 0 = some ⟨0, 0, .done (.error ⟨.ENOSPC, false⟩)⟩ ∧
      s.Runs (.resume 1) 1 0 0 ∧
      @step (fun o ↦ 64 * o) 16 1 .stock s (.resume 1) = .error .pointer := by
  obtain ⟨s, hs, htest⟩ := exists_of_check (f := @step (fun o ↦ 64 * o) 16 1 .stock)
    (s := oneFile) (l := [.get 0 0 0, .filled 0 (.ok (fun _ ↦ 0, false)) 9, .dirty 1,
      .pageoutd 0, .get 1 0 0, .cleaned none true, .pageoutd 0])
    (p := fun s ↦ s.calls 1 == some ⟨0, 0, .woken⟩ &&
      crashes .pointer (@step (fun o ↦ 64 * o) 16 1 .stock s (.resume 1)))
    (by decide +kernel)
  rw [Bool.and_eq_true, beq_iff_eq, crashes_eq_true] at htest
  obtain ⟨s', hs', htest'⟩ := exists_of_check (f := @step (fun o ↦ 64 * o) 16 1 .stock)
    (s := oneFile) (l := [.get 0 0 0, .get 1 0 0, .filled 0 (.error .ENOSPC) 9])
    (p := fun s ↦ s.calls 0 == some ⟨0, 0, .done (.error ⟨.ENOSPC, false⟩)⟩ &&
      (s.calls 1 == some ⟨0, 0, .woken⟩ &&
        crashes .pointer (@step (fun o ↦ 64 * o) 16 1 .stock s (.resume 1))))
    (by decide +kernel)
  rw [Bool.and_eq_true, Bool.and_eq_true, beq_iff_eq, beq_iff_eq, crashes_eq_true] at htest'
  exact ⟨⟨s, Run.of_exec hs, .woken htest.1, htest.2⟩,
    s', Run.of_exec hs', htest'.1, .woken htest'.2.1, htest'.2.2⟩

end Paging

end CS402.Mm

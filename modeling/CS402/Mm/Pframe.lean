import CS402.Mm.State

/-!
# Page frames and memory objects

The model of `kernel/mm/pframe.c` and of the object operations that it calls
through `mmo_ops`: those of anonymous objects (`vm/anon.c`), of shadow objects
(`vm/shadow.c`) and of vnodes (`fs/vnode.c`).

The routines call each other in two circles, and both are cut here in the way
in which the calls really nest.  `pframe_free` puts its object, and the last
`put` of an object frees its pages: `putN` counts the nesting, and since an
object only shadows older ones, `put` starts the count high enough.  Filling a
page of a shadow object looks the page up further down, and may there fill a page
of the bottom object, whose `fillpage` asks nobody: so the operations of a bottom
object come first and those of any object on top of them.

A routine runs without interruption, so a page is busy only inside `pframe_fill`.
Waiting for a busy page would never end here, and waiting for pageoutd when free
pages run low, which `pframe_get` does after its work is done, is left out.
-/

namespace CS402.Mm

open CS402.Lib Function

namespace Mem

/-! ## The lists of pages -/

/-- Whether a frame holds page `n` of the object `o`. -/
def holds (s : Mem) (o : ObjId) (n : ℕ) (f : FrameId) : Bool :=
  (s.frames f).any fun pf ↦ pf.pfObj = o ∧ pf.pfPagenum = n

/-- The lookup in `pframe_hash`. -/
def resident (s : Mem) (o : ObjId) (n : ℕ) : Option FrameId := s.pframeHash.find? (s.holds o n)

/-- Send a page that is not pinned to the back of `alloc_list`. -/
def touch (s : Mem) (f : FrameId) : Mem :=
  if (s.frames f).any fun pf ↦ pf.IsPinned then s else
    { s with lists := { s.lists with
        allocList := s.lists.allocList.erase f ++ [f]
        pinnedList := s.lists.pinnedList.erase f } }

/-- `pframe_get_resident`. -/
def pframeGetResident (s : Mem) (o : ObjId) (n : ℕ) : Mem × Option FrameId :=
  match s.resident o n with
  | some f => (s.touch f, some f)
  | none => (s, none)

/-- `pframe_pin`.  The page is to move to `pinned_list` when it is not pinned and its
count is positive, which cannot both be. -/
def pframePin (s : Mem) (f : FrameId) : Except Fault Mem := do
  let pf ← follow .pointer (s.frames f)
  demand .assertion (0 ≤ pf.pfPincount)
  let lists := if ¬ pf.IsPinned ∧ 0 < pf.pfPincount then
    { allocList := s.lists.allocList.erase f
      nallocated := s.lists.nallocated - 1
      pinnedList := s.lists.pinnedList.erase f ++ [f]
      npinned := s.lists.npinned + 1 } else s.lists
  return { s with
    lists := lists
    frames := update s.frames f (some { pf with pfPincount := pf.pfPincount + 1 }) }

/-- `pframe_unpin`. -/
def pframeUnpin (s : Mem) (f : FrameId) : Except Fault Mem := do
  let pf ← follow .pointer (s.frames f)
  demand .assertion (0 < pf.pfPincount)
  let pf := { pf with pfPincount := pf.pfPincount - 1 }
  let lists := if ¬ pf.IsPinned ∧ 0 < pf.pfPincount then
    { allocList := s.lists.allocList.erase f ++ [f]
      nallocated := s.lists.nallocated + 1
      pinnedList := s.lists.pinnedList.erase f
      npinned := s.lists.npinned - 1 } else s.lists
  return { s with
    lists := lists
    frames := update s.frames f (some pf) }

/-! ## Page tables -/

/-- `mmobj_bottom_obj`. -/
def bottomObj (s : Mem) (o : ObjId) : Except Fault ObjId := do
  let ob ← follow .pointer (s.objs o)
  match ob.mmoShadowed with
  | none => return o
  | some _ => follow .pointer ob.mmoBottomObj

section

variable [Layout]

/-- One turn of the loop of `pframe_remove_from_pts`: if the area shows page `n`,
remove the entry from the page directory of its process. -/
def unmapFrom (n : ℕ) (s : Mem) (a : AreaId) : Except Fault Mem := do
  let vma ← follow .pointer (s.areas a)
  if vma.vmaOff ≤ n ∧ n < vma.vmaOff + (vma.vmaEnd - vma.vmaStart) then
    let m ← follow .pointer vma.vmaVmmap
    let map ← follow .pointer (s.maps m)
    match map.vmmProc with
    | none => return s
    | some p =>
      let proc ← follow .pointer (s.procs p)
      let pd ← ptUnmap proc.pPagedir (pnToAddr (vma.vmaStart + n - vma.vmaOff))
      return s.setProc p (some { proc with pPagedir := pd })
  else
    return s

/-- `pframe_remove_from_pts`. -/
def pframeRemoveFromPts (s : Mem) (f : FrameId) : Except Fault Mem := do
  let pf ← follow .pointer (s.frames f)
  let b ← s.bottomObj pf.pfObj
  let bo ← follow .pointer (s.objs b)
  bo.mmoVmas.foldlM (unmapFrom pf.pfPagenum) s

/-! ## Dirty pages -/

/-- The `dirtypage` operation: whether it returns 0. -/
def dirtypage (s : Mem) (ops : MmoOps) (pf : Pframe) : Except Fault Bool :=
  match ops with
  | .anon | .shadow => return false
  | .vnode v => do
    let vn ← follow .pointer (s.vnodes v)
    return pf.pfDirty || vn.dirtypage pf.pfPagenum

/-- `pframe_dirty`. -/
def pframeDirty (s : Mem) (f : FrameId) : Except Fault Mem := do
  let pf ← follow .pointer (s.frames f)
  demand .assertion (pf.pfBusy = false)
  let ob ← follow .pointer (s.objs pf.pfObj)
  let ok ← s.dirtypage ob.mmoOps pf
  return s.setFrame f (some { pf with pfDirty := pf.pfDirty || ok })

/-- The `cleanpage` operation: whether it succeeds.  A vnode stores the page. -/
def cleanpage (s : Mem) (ops : MmoOps) (pf : Pframe) : Except Fault (Mem × Bool) :=
  match ops with
  | .anon | .shadow => return (s, false)
  | .vnode v => do
    let vn ← follow .pointer (s.vnodes v)
    if vn.cleanpage pf.pfPagenum then
      let vn := { vn with fillpage := update vn.fillpage pf.pfPagenum (.ok pf.pfData) }
      return ({ s with vnodes := update s.vnodes v (some vn) }, true)
    else
      return (s, false)

/-- `pframe_clean`. -/
def pframeClean (s : Mem) (f : FrameId) : Except Fault Mem := do
  let pf ← follow .pointer (s.frames f)
  demand .assertion (pf.pfDirty = true)
  demand .assertion (pf.pfPincount = 0)
  let s ← s.pframeRemoveFromPts f
  let ob ← follow .pointer (s.objs pf.pfObj)
  let (s, ok) ← s.cleanpage ob.mmoOps pf
  return s.setFrame f (some { pf with pfDirty := !ok })

/-! ## Dropping references -/

/-- What `pframe_free` does once the page is out of the page tables, up to the put of
its object. -/
def uncache (s : Mem) (f : FrameId) (o : ObjId) (ob : MmObj) : Mem :=
  { s with
    frames := update s.frames f none
    objs := update s.objs o (some { ob with
      mmoNrespages := ob.mmoNrespages - 1
      mmoRespages := ob.mmoRespages.erase f })
    pframeHash := s.pframeHash.erase f
    lists := { s.lists with
      nallocated := s.lists.nallocated - 1
      allocList := s.lists.allocList.erase f
      pinnedList := s.lists.pinnedList.erase f } }

/-- `pframe_free`, with the `put` that it ends with. -/
def freeWith (put : Mem → ObjId → Except Fault Mem) (s : Mem) (f : FrameId) :
    Except Fault Mem := do
  let pf ← follow .pointer (s.frames f)
  demand .assertion (¬ pf.IsPinned)
  demand .assertion (pf.pfBusy = false)
  let s ← s.pframeRemoveFromPts f
  let ob ← follow .pointer (s.objs pf.pfObj)
  put (s.uncache f pf.pfObj ob) pf.pfObj

/-- Unpin a page if it is pinned. -/
def unpinIf (s : Mem) (f : FrameId) (pf : Pframe) : Except Fault Mem :=
  if pf.IsPinned then s.pframeUnpin f else .ok s

/-- Clean a page if it is dirty. -/
def cleanIf (s : Mem) (f : FrameId) (pf : Pframe) : Except Fault Mem :=
  if pf.pfDirty then s.pframeClean f else .ok s

/-- One turn of the loops of `anon_put` and `shadow_put`. -/
def reclaimWith (put : Mem → ObjId → Except Fault Mem) (s : Mem) (f : FrameId) :
    Except Fault Mem := do
  let pf ← follow .pointer (s.frames f)
  let s ← s.unpinIf f pf
  let s ← s.cleanIf f pf
  freeWith put s f

/-- `anon_put`.  An object without resident pages is not freed, and the decrement of
the count of a freed object is of no consequence. -/
def anonPut (put : Mem → ObjId → Except Fault Mem) (s : Mem) (o : ObjId) (ob : MmObj) :
    Except Fault Mem := do
  demand .assertion (0 < ob.mmoRefcount)
  if ob.mmoRefcount - 1 ≤ ob.mmoNrespages ∧ ob.mmoRespages ≠ [] then
    let s ← ob.mmoRespages.foldlM (reclaimWith put) s
    return s.setObj o none
  else
    return s.setObj o (some { ob with mmoRefcount := ob.mmoRefcount - 1 })

/-- `shadow_put`.  The object is forgotten before and not after the put of the object
below, which does not look at it. -/
def shadowPut (put : Mem → ObjId → Except Fault Mem) (s : Mem) (o : ObjId) (ob : MmObj) :
    Except Fault Mem := do
  demand .assertion (0 < ob.mmoRefcount)
  if ob.mmoRefcount - 1 = ob.mmoNrespages then
    let s ← ob.mmoRespages.foldlM (reclaimWith put) s
    let below ← follow .pointer ob.mmoShadowed
    put (s.setObj o none) below
  else
    return s.setObj o (some { ob with mmoRefcount := ob.mmoRefcount - 1 })

/-- The end of `vput`: drop the reference, and the vnode with the last one. -/
def vputLast (s : Mem) (o : ObjId) (v : VnodeId) : Except Fault Mem := do
  let ob ← follow .pointer (s.objs o)
  if 0 < ob.mmoRefcount - 1 then
    return s.setObj o (some { ob with mmoRefcount := ob.mmoRefcount - 1 })
  else
    demand .assertion (ob.mmoRefcount - 1 = 0)
    demand .assertion (ob.mmoNrespages = 0)
    return { s.setObj o none with vnodes := update s.vnodes v none }

/-- `vput`.  The pages of a file that is no longer linked go with the last active
reference. -/
def vput (put : Mem → ObjId → Except Fault Mem) (s : Mem) (o : ObjId) (ob : MmObj)
    (v : VnodeId) : Except Fault Mem := do
  demand .assertion (0 ≤ ob.mmoNrespages)
  demand .assertion (ob.mmoNrespages < ob.mmoRefcount)
  let vn ← follow .pointer (s.vnodes v)
  if ob.mmoNrespages = ob.mmoRefcount - 1 ∧ vn.queryVnode = false then
    let s ← ob.mmoRespages.foldlM (freeWith put) s
    let ob ← follow .pointer (s.objs o)
    demand .assertion (ob.mmoNrespages = 0)
    demand .assertion (ob.mmoRefcount = 1)
    vputLast s o v
  else
    vputLast s o v

/-- The `put` operation, at a given nesting depth. -/
def putN : ℕ → Mem → ObjId → Except Fault Mem
  | 0, _, _ => .error .divergence
  | n + 1, s, o => do
    let ob ← follow .pointer (s.objs o)
    match ob.mmoOps with
    | .anon => anonPut (putN n) s o ob
    | .shadow => shadowPut (putN n) s o ob
    | .vnode v => vput (putN n) s o ob v

/-- `o->mmo_ops->put(o)`.  An object shadows only older ones, so the puts that follow
from one another are at most `o + 1`, and each may free pages. -/
def put (s : Mem) (o : ObjId) : Except Fault Mem := putN (o + 2) s o

/-- `pframe_free`. -/
def pframeFree (s : Mem) (f : FrameId) : Except Fault Mem := freeWith put s f

/-! ## Getting pages -/

/-- `o->mmo_ops->ref(o)`. -/
def ref (s : Mem) (o : ObjId) : Except Fault Mem := do
  let ob ← follow .pointer (s.objs o)
  demand .assertion (0 < ob.mmoRefcount)
  return s.setObj o (some { ob with mmoRefcount := ob.mmoRefcount + 1 })

/-- What `pframe_alloc` does with the memory it got. -/
def cache (s : Mem) (f : FrameId) (o : ObjId) (n : ℕ) (ob : MmObj) : Mem :=
  { s with
    frames := update s.frames f (some { pfObj := o, pfPagenum := n, pfData := fun _ ↦ 0 })
    objs := update s.objs o (some { ob with
      mmoRefcount := ob.mmoRefcount + 1
      mmoNrespages := ob.mmoNrespages + 1
      mmoRespages := f :: ob.mmoRespages })
    pframeHash := f :: s.pframeHash
    lists := { s.lists with
      nallocated := s.lists.nallocated + 1
      allocList := s.lists.allocList ++ [f] }
    next := f + 1 }

/-- `pframe_alloc`. -/
def pframeAlloc (s : Mem) (o : ObjId) (n : ℕ) : Except Fault (Mem × Option FrameId) := do
  if s.grants .pframe = false then return (s.draw .pframe, none)
  let s := s.draw .pframe
  if s.grants .page = false then return (s.draw .page, none)
  let s := s.draw .page
  let ob ← follow .pointer (s.objs o)
  demand .assertion (0 < ob.mmoRefcount)
  return (s.cache s.next o n ob, some s.next)

/-- Change a page frame. -/
def modFrame (s : Mem) (f : FrameId) (g : Pframe → Pframe) : Mem :=
  s.setFrame f ((s.frames f).map g)

/-- A lookup that failed: the error number, and whether `*result` has been set to `NULL`.
If not, it is unset or points to a page that has been freed. -/
structure NoPage where
  errno : Errno
  cleared : Bool
deriving DecidableEq

/-- The type of the `fillpage` operations. -/
abbrev Fillpage := Mem → FrameId → Except Fault (Mem × Except Errno Unit)

/-- `pframe_fill`. -/
def fillWith (fillpage : Fillpage) (s : Mem) (f : FrameId) :
    Except Fault (Mem × Except Errno Unit) := do
  let s := s.modFrame f fun pf ↦ { pf with pfBusy := true }
  let (s, status) ← fillpage s f
  return (s.modFrame f fun pf ↦ { pf with pfBusy := false }, status)

/-- `pframe_get`. -/
def getWith (fillpage : Fillpage) (s : Mem) (o : ObjId) (n : ℕ) :
    Except Fault (Mem × Except NoPage FrameId) :=
  match s.pframeGetResident o n with
  | (s, some f) => do
    let pf ← follow .pointer (s.frames f)
    demand .divergence (pf.pfBusy = false)
    return (s, .ok f)
  | (s, none) => do
    let (s, r) ← s.pframeAlloc o n
    match r with
    | none => return (s, .error ⟨.ENOMEM, true⟩)
    | some f =>
      let (s, status) ← fillWith fillpage s f
      match status with
      | .error e =>
        let s ← s.pframeFree f
        return (s, .error ⟨e, false⟩)
      | .ok _ => return (s, .ok f)

/-- The contents of a page are stored and the page is pinned: how the `fillpage`
operations of anonymous and shadow objects end. -/
def fillAndPin (s : Mem) (f : FrameId) (data : Page) : Except Fault Mem :=
  (s.modFrame f fun pf ↦ { pf with pfData := data }).pframePin f

/-- The assertions at the start of `anon_fillpage` and `shadow_fillpage`. -/
def fillable (s : Mem) (f : FrameId) : Except Fault Pframe := do
  let pf ← follow .pointer (s.frames f)
  demand .assertion (pf.pfBusy = true)
  demand .assertion (¬ pf.IsPinned)
  return pf

/-- `anon_fillpage` and `vreadpage`.  The bottom object of a chain is not a shadow
object; if it were, its lookups would call each other without end. -/
def bottomFillpage : Fillpage := fun s f ↦ do
  let pf ← follow .pointer (s.frames f)
  let ob ← follow .pointer (s.objs pf.pfObj)
  match ob.mmoOps with
  | .anon =>
    let _ ← s.fillable f
    let s ← s.fillAndPin f fun _ ↦ 0
    return (s, .ok ())
  | .vnode v =>
    let vn ← follow .pointer (s.vnodes v)
    match vn.fillpage pf.pfPagenum with
    | .error e => return (s, .error e)
    | .ok data => return (s.modFrame f fun pf ↦ { pf with pfData := data }, .ok ())
  | .shadow => .error .divergence

/-- `anon_lookuppage` and `vlookuppage`, on top of a `pframe_get`. -/
def lookupWith (get : Mem → ObjId → ℕ → Except Fault (Mem × Except NoPage FrameId))
    (s : Mem) (o : ObjId) (n : ℕ) (ops : MmoOps) : Except Fault (Mem × Except NoPage FrameId) :=
  match ops with
  | .anon => do
    let (s, r) ← get s o n
    match r with
    | .error e => return (s, .error ⟨.EPERM, e.cleared⟩)
    | .ok f => return (s, .ok f)
  | .vnode v => do
    let vn ← follow .pointer (s.vnodes v)
    if vn.vnLen ≤ n * pageSize % 2 ^ 32 then return (s, .error ⟨.EINVAL, false⟩)
    get s o n
  | .shadow => .error .divergence

/-- `pframe_lookup` on the bottom object of a chain. -/
def bottomLookup (s : Mem) (o : ObjId) (n : ℕ) : Except Fault (Mem × Except NoPage FrameId) := do
  let ob ← follow .pointer (s.objs o)
  lookupWith (getWith bottomFillpage) s o n ob.mmoOps

/-- The loop of `shadow_lookuppage`: walk down the chain to the first object that has
the page, or to its bottom. -/
def shadowWalk (s : Mem) (n : ℕ) : ℕ → ObjId → Except Fault (Option FrameId × ObjId)
  | 0, _ => .error .divergence
  | k + 1, o => do
    let ob ← follow .pointer (s.objs o)
    match ob.mmoShadowed with
    | none => return (none, o)
    | some below =>
      match s.resident o n with
      | some f => return (some f, below)
      | none => shadowWalk s n k below

/-- `shadow_lookuppage` for reading. -/
def shadowLookuppage (s : Mem) (o : ObjId) (n : ℕ) :
    Except Fault (Mem × Except NoPage FrameId) := do
  let (r, b) ← s.shadowWalk n (o + 1) o
  match r with
  | none => s.bottomLookup b n
  | some f =>
    let pf ← follow .pointer (s.frames f)
    demand .assertion (pf.pfBusy = false)
    return (s.touch f, .ok f)

/-- The `fillpage` operation of any object; for a shadow object, `shadow_fillpage`. -/
def fillpage : Fillpage := fun s f ↦ do
  let pf ← follow .pointer (s.frames f)
  let ob ← follow .pointer (s.objs pf.pfObj)
  match ob.mmoOps with
  | .shadow =>
    let _ ← s.fillable f
    let below ← follow .pointer ob.mmoShadowed
    let (s, r) ← s.shadowLookuppage below pf.pfPagenum
    match r with
    | .error e => return (s, .error e.errno)
    | .ok g =>
      let src ← follow .pointer (s.frames g)
      let s ← s.fillAndPin f src.pfData
      return (s, .ok ())
  | _ => bottomFillpage s f

/-- `pframe_get`. -/
def pframeGet (s : Mem) (o : ObjId) (n : ℕ) : Except Fault (Mem × Except NoPage FrameId) :=
  getWith fillpage s o n

/-- `pframe_lookup`. -/
def pframeLookup (s : Mem) (o : ObjId) (n : ℕ) (forwrite : Bool) :
    Except Fault (Mem × Except NoPage FrameId) := do
  let ob ← follow .pointer (s.objs o)
  match ob.mmoOps with
  | .shadow => if forwrite then s.pframeGet o n else s.shadowLookuppage o n
  | ops => lookupWith pframeGet s o n ops

end

/-! ## What the calls do when they return -/

section

variable {s s' : Mem} {f : FrameId} {o : ObjId} {n : ℕ}

theorem pframePin_eq_ok : s.pframePin f = .ok s' ↔ ∃ pf, s.frames f = some pf ∧
    0 ≤ pf.pfPincount ∧ s' = s.setFrame f (some { pf with pfPincount := pf.pfPincount + 1 }) := by
  simp only [pframePin, bind_eq_ok, follow_eq_ok, demand_eq_ok, exists_and_left, exists_const,
    pure_eq_ok, Pframe.IsPinned, not_and_self, if_false]
  exact exists_congr fun pf ↦ and_congr_right fun _ ↦ and_congr_right fun _ ↦ eq_comm

theorem pframeUnpin_eq_ok : s.pframeUnpin f = .ok s' ↔ ∃ pf, s.frames f = some pf ∧
    0 < pf.pfPincount ∧ s' = s.setFrame f (some { pf with pfPincount := pf.pfPincount - 1 }) := by
  simp only [pframeUnpin, bind_eq_ok, follow_eq_ok, demand_eq_ok, exists_and_left, exists_const,
    pure_eq_ok, Pframe.IsPinned, not_and_self, if_false]
  exact exists_congr fun pf ↦ and_congr_right fun _ ↦ and_congr_right fun _ ↦ eq_comm

/-- A process table with the same processes, whose page directories have at most the
entries of before. -/
def ProcsLe (P' P : Pid → Option Proc) : Prop :=
  ∀ p, P' p = P p ∨ ∃ x pd, P p = some x ∧ pd.Le x.pPagedir ∧
    P' p = some { x with pPagedir := pd }

theorem ProcsLe.refl (P : Pid → Option Proc) : ProcsLe P P := fun _ ↦ .inl rfl

theorem ProcsLe.trans {P P' P'' : Pid → Option Proc} (h : ProcsLe P'' P') (h' : ProcsLe P' P) :
    ProcsLe P'' P := by
  intro p
  rcases h p with h | ⟨x, pd, hx, hle, h⟩
  · rw [h]
    exact h' p
  rcases h' p with h' | ⟨x', pd', hx', hle', h'⟩
  · exact .inr ⟨x, pd, h' ▸ hx, hle, h⟩
  · cases hx.symm.trans h'
    exact .inr ⟨x', pd, hx', hle.trans hle', h⟩

variable [Layout]

theorem unmapFrom_procs {a : AreaId} (h : unmapFrom n s a = .ok s') :
    ∃ P, ProcsLe P s.procs ∧ s' = { s with procs := P } := by
  unfold unmapFrom at h
  obtain ⟨vma, -, h⟩ := bind_ok h
  split at h
  · obtain ⟨m, -, h⟩ := bind_ok h
    obtain ⟨map, -, h⟩ := bind_ok h
    split at h
    · exact ⟨s.procs, .refl _, (pure_eq_ok.mp h).symm⟩
    · next p _ =>
      obtain ⟨proc, hproc, h⟩ := bind_follow h
      obtain ⟨pd, hpd, h⟩ := bind_ok h
      refine ⟨_, ?_, (pure_eq_ok.mp h).symm⟩
      intro q
      rcases eq_or_ne q p with rfl | hq
      · exact .inr ⟨proc, pd, hproc, ptUnmap_le hpd, update_self ..⟩
      · exact .inl (update_of_ne hq ..)
  · exact ⟨s.procs, .refl _, (pure_eq_ok.mp h).symm⟩

theorem pframeRemoveFromPts_procs (h : s.pframeRemoveFromPts f = .ok s') :
    ∃ P, ProcsLe P s.procs ∧ s' = { s with procs := P } := by
  obtain ⟨pf, -, h⟩ := bind_ok h
  obtain ⟨b, -, h⟩ := bind_ok h
  obtain ⟨bo, -, h⟩ := bind_ok h
  refine foldl_invariant (I := fun s' ↦ ∃ P, ProcsLe P s.procs ∧ s' = { s with procs := P })
    ?_ ⟨s.procs, .refl _, rfl⟩ h
  rintro a - _ s₂ ⟨P, hP, rfl⟩ hstep
  obtain ⟨P', hP', rfl⟩ := unmapFrom_procs hstep
  exact ⟨P', hP'.trans hP, rfl⟩

/-- `pframe_clean` clears or keeps the dirty bit of the page, stores the page in its
file, and removes entries from page tables. -/
theorem pframeClean_cases (h : s.pframeClean f = .ok s') :
    ∃ pf P V d, s.frames f = some pf ∧ ProcsLe P s.procs ∧
      s' = { s.setFrame f (some { pf with pfDirty := d }) with procs := P, vnodes := V } := by
  obtain ⟨pf, hpf, h⟩ := bind_follow h
  obtain ⟨-, -, h⟩ := bind_ok h
  obtain ⟨-, h⟩ := bind_demand h
  obtain ⟨s₁, h₁, h⟩ := bind_ok h
  obtain ⟨P, hP, rfl⟩ := pframeRemoveFromPts_procs h₁
  obtain ⟨ob, -, h⟩ := bind_ok h
  obtain ⟨⟨s₂, ok⟩, h₂, h⟩ := bind_ok h
  have hs₂ : ∃ V, s₂ = { s with procs := P, vnodes := V } := by
    unfold cleanpage at h₂
    split at h₂
    · cases h₂
      exact ⟨_, rfl⟩
    · cases h₂
      exact ⟨_, rfl⟩
    · obtain ⟨vn, -, h₂⟩ := bind_ok h₂
      split at h₂ <;> cases h₂ <;> exact ⟨_, rfl⟩
  obtain ⟨V, rfl⟩ := hs₂
  exact ⟨pf, P, V, !ok, hpf, hP, (pure_eq_ok.mp h).symm⟩

variable {put : Mem → ObjId → Except Fault Mem}

theorem freeWith_eq_ok : freeWith put s f = .ok s' ↔
    ∃ pf, s.frames f = some pf ∧ ¬ pf.IsPinned ∧ pf.pfBusy = false ∧
      ∃ s₁, s.pframeRemoveFromPts f = .ok s₁ ∧ ∃ ob, s₁.objs pf.pfObj = some ob ∧
        put (s₁.uncache f pf.pfObj ob) pf.pfObj = .ok s' := by
  simp only [freeWith, bind_eq_ok, follow_eq_ok, demand_eq_ok, exists_and_left, exists_const]

theorem reclaimWith_eq_ok : reclaimWith put s f = .ok s' ↔
    ∃ pf, s.frames f = some pf ∧ ∃ s₁, s.unpinIf f pf = .ok s₁ ∧
      ∃ s₂, s₁.cleanIf f pf = .ok s₂ ∧ freeWith put s₂ f = .ok s' := by
  simp only [reclaimWith, bind_eq_ok, follow_eq_ok]

end

end Mem

end CS402.Mm

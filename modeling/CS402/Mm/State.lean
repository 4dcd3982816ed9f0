import CS402.Mm.Pagetable
import Mathlib.Tactic.Simps.Basic

/-!
# The state of memory management

The records of `mm/pframe.h`, `mm/mmobj.h` and `vm/vmmap.h`, the fields of a
process, a file and a vnode that memory management reads, and the tables that
hold them.  Pointers are names: a table maps a name to a record, or to `none`
when nothing (any more) is there, so that following a dangling pointer is a crash
and not a silent read.  Names are handed out by one counter and never used again.

Intrusive lists are lists of names.  The hash table of `pframe.c` is one list: a
lookup takes the first page with the wanted identity on its chain, and a page
enters its chain at the head, so the chains are this list cut by hash value.  Of
the union `mmo_un` a shadow object uses `mmo_bottom_obj` and a bottom object
`mmo_vmas`; here they are two fields.

Whether an allocation succeeds is not up to the kernel.  The state carries, for
every allocator, what it will answer; an allocator that has run out of answers
succeeds.
-/

namespace CS402.Mm

open CS402.Lib Function

/-- Page frames (and the physical pages behind them) are named by numbers. -/
abbrev FrameId := ℕ
/-- Memory objects are named by numbers. -/
abbrev ObjId := ℕ
/-- Areas are named by numbers. -/
abbrev AreaId := ℕ
/-- Address-space maps are named by numbers. -/
abbrev MapId := ℕ
/-- Processes are named by numbers. -/
abbrev Pid := ℕ
/-- Open files are named by numbers. -/
abbrev FileId := ℕ
/-- Vnodes are named by numbers. -/
abbrev VnodeId := ℕ

/-- The bytes of a page, by offset. -/
abbrev Page := ℕ → UInt8

/-- `pframe_t`. -/
structure Pframe where
  pfObj : ObjId
  pfPagenum : ℕ
  pfPincount : ℤ := 0
  pfBusy : Bool := false
  pfDirty : Bool := false
  /-- What is stored at `pf_addr`. -/
  pfData : Page

/-- `pframe_is_pinned`. -/
def Pframe.IsPinned (pf : Pframe) : Prop := 0 < pf.pfPincount

instance (pf : Pframe) : Decidable pf.IsPinned := inferInstanceAs (Decidable (_ < _))

/-- `mmo_ops`: the three kinds of memory object. -/
inductive MmoOps where
  | anon
  | shadow
  | vnode (v : VnodeId)
deriving DecidableEq

/-- `mmobj_t`. -/
structure MmObj where
  mmoOps : MmoOps
  mmoRefcount : ℤ
  mmoNrespages : ℤ := 0
  mmoRespages : List FrameId := []
  mmoShadowed : Option ObjId := none
  mmoBottomObj : Option ObjId := none
  mmoVmas : List AreaId := []
deriving DecidableEq

/-- `vmarea_t`.  The field `vmaOlink` is the object on whose `mmo_vmas` the area is
linked, if any. -/
structure VmArea where
  vmaStart : ℕ
  vmaEnd : ℕ
  vmaOff : ℕ
  vmaProt : Flags
  vmaFlags : Flags
  vmaVmmap : Option MapId := none
  vmaObj : Option ObjId := none
  vmaOlink : Option ObjId := none
deriving DecidableEq

/-- `vmmap_t`. -/
structure Vmmap where
  vmmList : List AreaId := []
  vmmProc : Option Pid := none
deriving DecidableEq

/-- The fields of `proc_t` that memory management uses. -/
structure Proc where
  pVmmap : Option MapId
  pPagedir : Pagedir := fun _ ↦ none
  pFiles : ℕ → Option FileId := fun _ ↦ none
  pBrk : ℕ := 0
  pStartBrk : ℕ := 0
  /-- Whether `p_state` is `PROC_RUNNING`. -/
  running : Bool := true

/-- The fields of `file_t` that memory management uses. -/
structure File where
  fMode : Flags
  fPos : ℤ := 0
  fRefcount : ℤ := 1
  fVnode : Option VnodeId

/-- What the `mmap` operation of a vnode does. -/
inductive MmapOp where
  /-- The operation is `NULL`. -/
  | missing
  /-- It fails and leaves `*ret` unset. -/
  | fails
  /-- It returns the object of the vnode, with one more reference. -/
  | object
deriving DecidableEq

/-- The fields of `vnode_t` that memory management uses, and what the operations of
its file system do. -/
structure Vnode where
  vnMmobj : ObjId
  vnLen : ℕ
  vnMmap : MmapOp := .object
  /-- The result of `fillpage` on a page. -/
  fillpage : ℕ → Except Errno Page
  /-- Whether `dirtypage` succeeds on a page. -/
  dirtypage : ℕ → Bool := fun _ ↦ true
  /-- Whether `cleanpage` succeeds on a page. -/
  cleanpage : ℕ → Bool := fun _ ↦ true
  /-- `query_vnode`: whether the file is still linked. -/
  queryVnode : Bool := true

/-- The lists of `pframe.c` and their counters. -/
structure PageLists where
  allocList : List FrameId := []
  nallocated : ℤ := 0
  pinnedList : List FrameId := []
  npinned : ℤ := 0

/-- The allocators. -/
inductive Allocator where
  | vmarea | vmmap | anon | shadow | pframe | page
deriving DecidableEq

/-- The state of memory management. -/
structure Mem where
  frames : FrameId → Option Pframe := fun _ ↦ none
  objs : ObjId → Option MmObj := fun _ ↦ none
  areas : AreaId → Option VmArea := fun _ ↦ none
  maps : MapId → Option Vmmap := fun _ ↦ none
  procs : Pid → Option Proc := fun _ ↦ none
  files : FileId → Option File := fun _ ↦ none
  vnodes : VnodeId → Option Vnode := fun _ ↦ none
  /-- `pframe_hash`. -/
  pframeHash : List FrameId := []
  lists : PageLists := {}
  /-- What the allocators are going to answer. -/
  oracle : Allocator → List Bool := fun _ ↦ []
  /-- No name from here on is in use. -/
  next : ℕ := 0

namespace Mem

/-- Store a page frame. -/
@[simps -fullyApplied] def setFrame (s : Mem) (f : FrameId) (x : Option Pframe) : Mem :=
  { s with frames := update s.frames f x }

/-- Store a memory object. -/
@[simps -fullyApplied] def setObj (s : Mem) (o : ObjId) (x : Option MmObj) : Mem :=
  { s with objs := update s.objs o x }

/-- Store an area. -/
@[simps -fullyApplied] def setArea (s : Mem) (a : AreaId) (x : Option VmArea) : Mem :=
  { s with areas := update s.areas a x }

/-- Store a map. -/
@[simps -fullyApplied] def setMap (s : Mem) (m : MapId) (x : Option Vmmap) : Mem :=
  { s with maps := update s.maps m x }

/-- Store a process. -/
@[simps -fullyApplied] def setProc (s : Mem) (p : Pid) (x : Option Proc) : Mem :=
  { s with procs := update s.procs p x }

/-- Use up a name. -/
@[simps -fullyApplied] def bump (s : Mem) : Mem := { s with next := s.next + 1 }

/-- Whether the next request to an allocator succeeds. -/
def grants (s : Mem) (k : Allocator) : Bool := (s.oracle k).headD true

/-- Make a request to an allocator. -/
@[simps -fullyApplied] def draw (s : Mem) (k : Allocator) : Mem :=
  { s with oracle := update s.oracle k (s.oracle k).tail }

/-- The allocator has no failure ahead. -/
def NoFailure (s : Mem) (k : Allocator) : Prop := ∀ b ∈ s.oracle k, b = true

theorem NoFailure.grants {s : Mem} {k : Allocator} (h : s.NoFailure k) : s.grants k = true := by
  unfold NoFailure at h
  unfold Mem.grants
  cases hk : s.oracle k with
  | nil => rfl
  | cons b bs => exact h b (by simp [hk])

theorem NoFailure.draw {s : Mem} {k : Allocator} (h : s.NoFailure k) (k' : Allocator) :
    (s.draw k').NoFailure k := by
  intro b hb
  rcases eq_or_ne k k' with rfl | hk
  · rw [draw_oracle, update_self] at hb
    exact h b (List.mem_of_mem_tail hb)
  · rw [draw_oracle, update_of_ne hk] at hb
    exact h b hb

end Mem

end CS402.Mm

import CS402.Vm.Access

/-!
# Page faults and the system calls on address spaces

The model of `handle_pagefault` (`proc/vm/pagefault.c`), `do_mmap` and `do_munmap`
(`proc/vm/mmap.c`), `do_brk` (`proc/vm/brk.c`) and `do_fork` (`proc/fork.c`), and of
a user's own loads and stores, which go through the page directory and fault when
it does not let them through.

The current process is an argument.  Of `proc_cleanup` only what concerns memory is
here, the state of the process and its map; of `do_fork` what concerns memory and
files.  Threads, the working directory and the closing of files are left out.  The
translation buffers of the processor are flushed wherever entries are removed, so
they show nothing that the page directory does not.
-/

namespace CS402.Mm

open CS402.Lib Function

/-- What the processor makes of a user's access to an address: the frame, if the page
has a present entry and, for a store, may be written through it. -/
def Proc.translate (x : Proc) (vaddr : ℕ) (write : Bool) : Option FrameId :=
  if write = true ∧ x.pPagedir.writable (addrToPn vaddr) = false then none
  else (x.pPagedir.entry (addrToPn vaddr)).map Pte.paddr

/-- The tests of `handle_pagefault` on the area: whether the access is allowed. -/
def VmArea.Allows [Layout] (vma : VmArea) (write : Bool) : Prop :=
  vma.vmaProt.has protNone = false ∧ vma.vmaProt.has protRead = true ∧
    (write = true → vma.vmaProt.has protWrite = true)

instance [Layout] (vma : VmArea) (write : Bool) : Decidable (vma.Allows write) :=
  inferInstanceAs (Decidable (_ ∧ _))

/-- The assertions of `fref`; a file with a descriptor also has a reference, so that the
`fput` that follows is not the last one. -/
def File.Valid (f : File) : Prop :=
  f.fMode.toNat < 8 ∧ -1 ≤ f.fPos ∧ 0 < f.fRefcount ∧ f.fVnode ≠ none

instance (f : File) : Decidable f.Valid := inferInstanceAs (Decidable (_ ∧ _))

/-- The number of pages that the loops of `do_mmap` and `do_munmap` count for a length:
one for every full page while more than a page is left, and one for the rest. -/
def pagesOf (len : ℕ) : ℕ := (len + (pageSize - 1)) / pageSize

namespace Mem

/-- The process, if it runs. -/
def curproc (s : Mem) (p : Pid) : Except Fault Proc := do
  let proc ← follow .pointer (s.procs p)
  demand .assertion (proc.running = true)
  return proc

section

variable [Layout]

/-! ## Page faults -/

/-- `do_exit`, as far as memory goes: `proc_cleanup` marks the process dead and destroys
its map. -/
def doExit (s : Mem) (p : Pid) : Except Fault Mem := do
  let proc ← follow .pointer (s.procs p)
  let s := s.setProc p (some { proc with running := false })
  match proc.pVmmap with
  | none => return s
  | some m => s.vmmapDestroy m

/-- `pt_map` on the page directory of a process.  Without memory for a table nothing is
mapped. -/
def ptMap (s : Mem) (p : Pid) (vaddr : ℕ) (f : FrameId) (pdflags ptflags : Flags) :
    Except Fault Mem := do
  demand .assertion (UserPage vaddr)
  let proc ← follow .pointer (s.procs p)
  let pd := proc.pPagedir.install vaddr f pdflags ptflags
  match proc.pPagedir.slot (vaddrToPdindex vaddr) with
  | some _ => return s.setProc p (some { proc with pPagedir := pd })
  | none =>
    if s.grants .page then return (s.draw .page).setProc p (some { proc with pPagedir := pd })
    else return s.draw .page

/-- Mark the page dirty after a fault for writing. -/
def dirtyIf (s : Mem) (write : Bool) (f : FrameId) : Except Fault Mem :=
  if write then s.pframeDirty f else .ok s

/-- The flags of a new entry, and of its slot. -/
def faultFlags (write : Bool) : Flags :=
  if write then ptPresent ||| ptUser ||| ptWrite else ptPresent ||| ptUser

/-- `handle_pagefault`; `write` says whether `FAULT_WRITE` is in the cause. -/
def handlePagefault (s : Mem) (p : Pid) (vaddr : ℕ) (write : Bool) : Except Fault Mem := do
  let proc ← follow .pointer (s.procs p)
  if vaddr < userMemLow ∨ userMemHigh ≤ vaddr then s.doExit p
  else
    let m ← follow .assertion proc.pVmmap
    let a ← s.vmmapLookup m (addrToPn vaddr)
    match a with
    | none => s.doExit p
    | some a =>
      let vma ← follow .pointer (s.areas a)
      if vma.Allows write then
        let o ← follow .assertion vma.vmaObj
        let (s, r) ← s.pframeLookup o (vma.vmaOff + (addrToPn vaddr - vma.vmaStart)) write
        match r with
        | .error _ => s.doExit p
        | .ok f =>
          let s ← s.dirtyIf write f
          s.ptMap p (pnToAddr (addrToPn vaddr)) f (faultFlags write) (faultFlags write)
      else s.doExit p

/-! ## A user's loads and stores -/

/-- The frame that an access of a user reaches.  When the page directory does not let it
through, the page fault is handled and the access tried again; `none` means that it
has not happened, because the process is dead or will fault once more. -/
def userAccess (s : Mem) (p : Pid) (vaddr : ℕ) (write : Bool) :
    Except Fault (Mem × Option FrameId) := do
  let proc ← s.curproc p
  match proc.translate vaddr write with
  | some f => return (s, some f)
  | none =>
    let s ← s.handlePagefault p vaddr write
    let proc ← follow .pointer (s.procs p)
    return (s, if proc.running then proc.translate vaddr write else none)

/-- A user loads a byte. -/
def userRead (s : Mem) (p : Pid) (vaddr : ℕ) : Except Fault (Mem × Option UInt8) := do
  let (s, r) ← s.userAccess p vaddr false
  match r with
  | none => return (s, none)
  | some f =>
    let pf ← follow .pointer (s.frames f)
    return (s, some (pf.pfData (vaddr % pageSize)))

/-- A user stores a byte; whether it has happened. -/
def userWrite (s : Mem) (p : Pid) (vaddr : ℕ) (b : UInt8) : Except Fault (Mem × Bool) := do
  let (s, r) ← s.userAccess p vaddr true
  match r with
  | none => return (s, false)
  | some f =>
    let pf ← follow .pointer (s.frames f)
    return (s.setFrame f (some { pf with pfData := update pf.pfData (vaddr % pageSize) b }), true)

/-! ## Mapping and unmapping -/

/-- The tests at the start of `do_mmap` that end in `-EINVAL`. -/
def MmapInvalid (addr len : ℕ) (flags : Flags) (off : ℕ) : Prop :=
  (addr ≠ 0 ∧ (addr < userMemLow ∨ userMemHigh < addr)) ∨
  (addr = 0 ∧ (flags = 0 ∨ flags.has mapFixed = true ∨ flags = mapType)) ∨
  len = 0 ∨ len = 2 ^ 32 - 1 ∨ userMemHigh < (addr + len) % 2 ^ 32 ∨ ¬ PageAligned off

instance (addr len : ℕ) (flags : Flags) (off : ℕ) : Decidable (MmapInvalid addr len flags off) :=
  inferInstanceAs (Decidable (_ ∨ _))

/-- The file behind a descriptor: `curproc->p_files[fd]`, if `fd` is a descriptor at all. -/
def fileOf (s : Mem) (x : Proc) (fd : ℤ) : Option File :=
  if fd < 0 ∨ (nfiles : ℤ) ≤ fd then none else (x.pFiles fd.toNat).bind s.files

/-- The `fget` and `fput` of `do_mmap`. -/
def getVnode (f : File) : Except Fault (Option VnodeId) := do
  demand .assertion f.Valid
  return f.fVnode

/-- The test for shared mappings that can be written: `flags` is compared as a whole. -/
def WriteDenied (f : File) (prot flags : Flags) : Prop :=
  flags = mapShared ∧ prot.has protWrite = true ∧
    (f.fMode.has fmodeRead = false ∨ f.fMode.has fmodeWrite = false)

instance (f : File) (prot flags : Flags) : Decidable (WriteDenied f prot flags) :=
  inferInstanceAs (Decidable (_ ∧ _))

/-- The vnode to map, or the error of the tests on the descriptor. -/
def mmapFile (s : Mem) (x : Proc) (prot flags : Flags) (fd : ℤ) :
    Except Fault (Except Errno (Option VnodeId)) :=
  if flags.has mapAnon then return .ok none
  else
    match s.fileOf x fd with
    | none => return .error .EBADF
    | some f => do
      let v ← getVnode f
      if WriteDenied f prot flags then return .error .EACCES else return .ok v

/-- The end of `do_mmap`: remove the entries of the range that has been mapped.  The
first test, whether the area lies in user memory, ends in `-1`. -/
def mmapFlush (s : Mem) (p : Pid) (addr pages : ℕ) (a : AreaId) :
    Except Fault (Mem × Except Errno ℕ) := do
  let vma ← follow .pointer (s.areas a)
  if userMemHigh < pnToAddr vma.vmaEnd ∨ pnToAddr vma.vmaStart < userMemLow then
    return (s, .error .EPERM)
  else
    let proc ← follow .pointer (s.procs p)
    let start := if addr = 0 then pnToAddr vma.vmaStart else addr
    let pd ← ptUnmapRange proc.pPagedir start (start + pnToAddr pages)
    return (s.setProc p (some { proc with pPagedir := pd }), .ok start)

/-- `do_mmap`, with a place for the result.  When `vmmap_map` fails, the area that is
looked at next was never set. -/
def doMmap (s : Mem) (p : Pid) (addr len : ℕ) (prot flags : Flags) (fd : ℤ) (off : ℕ) :
    Except Fault (Mem × Except Errno ℕ) := do
  let proc ← s.curproc p
  if MmapInvalid addr len flags off then return (s, .error .EINVAL)
  else
    let file ← s.mmapFile proc prot flags fd
    match file with
    | .error e => return (s, .error e)
    | .ok v =>
      let m ← follow .assertion proc.pVmmap
      let (s, r) ← s.vmmapMap m v (addrToPn addr) (pagesOf len) prot flags off .hilo
      match r with
      | .error _ => .error .pointer
      | .ok a => s.mmapFlush p addr (pagesOf len) a

/-- The tests at the start of `do_munmap`. -/
def MunmapInvalid (addr len : ℕ) : Prop :=
  len = 0 ∨ len = 2 ^ 32 - 1 ∨ addr = 0 ∨ userMemHigh < (addr + len) % 2 ^ 32 ∨
    ¬ PageAligned addr

instance (addr len : ℕ) : Decidable (MunmapInvalid addr len) :=
  inferInstanceAs (Decidable (_ ∨ _))

/-- Remove the entries of a range from the page directory of a process. -/
def unmapPages (s : Mem) (p : Pid) (vlow vhigh : ℕ) : Except Fault Mem := do
  let proc ← follow .pointer (s.procs p)
  let pd ← ptUnmapRange proc.pPagedir vlow vhigh
  return s.setProc p (some { proc with pPagedir := pd })

/-- `do_munmap`. -/
def doMunmap (s : Mem) (p : Pid) (addr len : ℕ) : Except Fault (Mem × Except Errno Unit) := do
  let proc ← s.curproc p
  if MunmapInvalid addr len then return (s, .error .EINVAL)
  else
    let m ← follow .assertion proc.pVmmap
    let s ← s.vmmapRemove m (addrToPn addr) (pagesOf len)
    let high := pnToAddr (addrToPn addr + pagesOf len)
    if userMemLow ≤ addr ∧ high ≤ userMemHigh then
      let s ← s.unmapPages p addr high
      return (s, .ok ())
    else return (s, .ok ())

/-! ## The break -/

/-- The end of `do_brk`: store the break and the new end of the area. -/
def setBrk (s : Mem) (p : Pid) (proc : Proc) (addr : ℕ) (a : AreaId) (vma : VmArea) : Mem :=
  (s.setProc p (some { proc with pBrk := addr })).setArea a
    (some { vma with vmaEnd := addrToPn (addr - 1) + 1 })

/-- `do_brk`. -/
def doBrk (s : Mem) (p : Pid) (addr : ℕ) : Except Fault (Mem × Except Errno ℕ) := do
  let proc ← s.curproc p
  if addr = 0 then return (s, .ok proc.pBrk)
  else if addr < proc.pStartBrk ∨ userMemHigh < addr then return (s, .error .ENOMEM)
  else
    let m ← follow .assertion proc.pVmmap
    let r ← s.vmmapLookup m (addrToPn proc.pStartBrk)
    let a ← follow .pointer r
    let vma ← follow .pointer (s.areas a)
    let last := addrToPn (addr - 1)
    if vma.vmaEnd ≤ last then
      let empty ← s.vmmapIsRangeEmpty m vma.vmaEnd (last - vma.vmaEnd + 1)
      if empty then return (s.setBrk p proc addr a vma, .ok addr)
      else return (s, .error .ENOMEM)
    else return (s.setBrk p proc addr a vma, .ok addr)

/-! ## Fork -/

/-- The area now shows the object `o`. -/
def setVmaObj (s : Mem) (a : AreaId) (o : ObjId) : Mem :=
  s.setArea a ((s.areas a).map fun vma ↦ { vma with vmaObj := some o })

/-- One turn of the loop of `do_fork`: a private area and its copy in the map `m` of the
child each get a shadow object over the object of the area. -/
def forkArea (m : MapId) (s : Mem) (a : AreaId) : Except Fault Mem := do
  let vma ← follow .pointer (s.areas a)
  let r ← s.vmmapLookup m vma.vmaStart
  if vma.vmaFlags.has mapPrivate then
    let o ← follow .pointer vma.vmaObj
    let bottom ← s.bottomObj o
    let (s, csobj) ← s.shadowOver o
    let b ← follow .pointer r
    let s := s.setVmaObj b csobj
    let s ← s.linkVma bottom b
    let s := s.setArea b ((s.areas b).map fun vma ↦ { vma with vmaOlink := some bottom })
    let (s, psobj) ← s.shadowOver o
    return s.setVmaObj a psobj
  else return s

/-- `fref` on the file behind a descriptor, if there is one. -/
def frefFile (x : Proc) (s : Mem) (i : ℕ) : Except Fault Mem :=
  match x.pFiles i with
  | none => .ok s
  | some fd => do
    let f ← follow .pointer (s.files fd)
    demand .assertion f.Valid
    return { s with files := update s.files fd (some { f with fRefcount := f.fRefcount + 1 }) }

/-- `do_fork`; `c` is the process that `proc_create` makes.  The map it comes with is
empty, so that `vmmap_destroy` leaves it alone. -/
def doFork (s : Mem) (p c : Pid) : Except Fault Mem := do
  let proc ← s.curproc p
  demand .assertion ((s.procs c).isNone = true)
  let (s, r) := s.vmmapCreate
  let _ ← follow .pointer r
  let m ← follow .assertion proc.pVmmap
  let (s, r) ← s.vmmapClone m
  let map ← follow .pointer (s.maps m)
  let m' ← follow .assertion r
  let s ← map.vmmList.foldlM (forkArea m') s
  let map' ← follow .pointer (s.maps m')
  let s := s.setMap m' (some { map' with vmmProc := some c })
  let s ← s.unmapPages p userMemLow userMemHigh
  let s ← (List.range nfiles).foldlM (frefFile proc) s
  return s.setProc c (some
    { pVmmap := some m'
      pFiles := fun i ↦ if i < nfiles then proc.pFiles i else none
      pBrk := proc.pBrk
      pStartBrk := proc.pStartBrk })

end

end Mem

end CS402.Mm

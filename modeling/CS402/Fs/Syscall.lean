import CS402.Fs.Namev

/-!
# Open files and the system calls

The model of `fs/file.c`, `fs/open.c` and `fs/vfs_syscall.c`.  The calling process is an
argument.  A call returns the new state and either a number or an error; the kernel
returns the error as a negative number.
-/

namespace CS402.Fs

open CS402.Lib Function

/-- What the kernel returns for a result. -/
def retval : Except Errno ℤ → ℤ
  | .ok n => n
  | .error e => -e.code

/-- The assertions that `fref` and `fput` share. -/
def File.Valid (f : File) : Prop := f.fMode.toNat < 8 ∧ -1 ≤ f.fPos

instance (f : File) : Decidable f.Valid := inferInstanceAs (Decidable (_ ∧ _))

/-- The `f_mode` that `do_open` computes from `oflags`, if they are valid.  `O_RDONLY`
is zero. -/
def openMode (oflags : Flags) : Option Flags :=
  if oflags = 0 ∨ oflags = oCreat ∨ oflags = oTrunc then some fmodeRead
  else if oflags = oWronly ∨ oflags = oWronly ||| oCreat ∨ oflags = oWronly ||| oTrunc then
    some fmodeWrite
  else if oflags = oRdwr ||| oAppend then some (fmodeWrite ||| fmodeRead ||| fmodeAppend)
  else if oflags = oAppend then some (fmodeRead ||| fmodeAppend)
  else if oflags = oWronly ||| oAppend then some (fmodeWrite ||| fmodeAppend)
  else if oflags = oRdwr ∨ oflags = oRdwr ||| oCreat ∨ oflags = oRdwr ||| oTrunc then
    some (fmodeRead ||| fmodeWrite)
  else none

/-- The access mode of `oflags` includes writing. -/
def WantsWrite (oflags : Flags) : Prop := oflags &&& 3 = oWronly ∨ oflags &&& 3 = oRdwr

instance (oflags : Flags) : Decidable (WantsWrite oflags) := inferInstanceAs (Decidable (_ ∨ _))

namespace Vfs

/-! ## Open files -/

/-- The slot `curproc->p_files[fd]`, if `fd` is a descriptor. -/
def slot (s : Vfs) (p : Pid) (fd : ℤ) : Option FileId :=
  if fd < 0 ∨ (nFiles : ℤ) ≤ fd then none else (s.procs p).bind fun x ↦ x.pFiles fd.toNat

/-- Store in the slot of a descriptor. -/
def setSlot (s : Vfs) (p : Pid) (fd : ℕ) (f : Option FileId) : Except Fault Vfs := do
  let proc ← follow .pointer (s.procs p)
  return s.setProc p (some { proc with pFiles := update proc.pFiles fd f })

/-- `get_empty_fd`. -/
def getEmptyFd (s : Vfs) (p : Pid) : Option ℕ :=
  (List.range nFiles).find? fun fd ↦ (s.slot p fd).isNone

/-- `fref`. -/
def fref (s : Vfs) (f : FileId) : Except Fault Vfs := do
  let file ← follow .pointer (s.files f)
  demand .assertion (file.Valid ∧ 0 ≤ file.fRefcount)
  demand .assertion (file.fRefcount ≠ 0 → file.fVnode.isSome = true)
  return s.setFile f (some { file with fRefcount := file.fRefcount + 1 })

/-- `fget(-1)`: a new file, if there is memory for it. -/
def fgetNew (s : Vfs) : Except Fault (Vfs × Option FileId) :=
  if s.grants .file then do
    let s' ← ({ s.draw .file with next := s.next + 1 }.setFile s.next (some {})).fref s.next
    return (s', some s.next)
  else return (s.draw .file, none)

/-- `fget(fd)`. -/
def fget (s : Vfs) (p : Pid) (fd : ℤ) : Except Fault (Vfs × Option FileId) :=
  match s.slot p fd with
  | none => return (s, none)
  | some f => do
    let s ← s.fref f
    return (s, some f)

/-- `fput`. -/
def fput (s : Vfs) (f : FileId) : Except Fault Vfs := do
  let file ← follow .pointer (s.files f)
  demand .assertion (file.Valid ∧ 0 < file.fRefcount)
  demand .assertion (file.fRefcount ≠ 1 → file.fVnode.isSome = true)
  if file.fRefcount - 1 = 0 then
    match file.fVnode with
    | none => return s.setFile f none
    | some v =>
      let s ← s.vput v
      return s.setFile f none
  else return s.setFile f (some { file with fRefcount := file.fRefcount - 1 })

/-- `do_close`. -/
def doClose (s : Vfs) (p : Pid) (fd : ℤ) : Except Fault (Vfs × Except Errno ℤ) :=
  match s.slot p fd with
  | none => return (s, .error .EBADF)
  | some f => do
    let s ← s.fput f
    let s ← s.setSlot p fd.toNat none
    return (s, .ok 0)

/-- `do_open`.  Until the end the new file is not in the table, so the `do_close` of the
error paths finds nothing. -/
def doOpen (s : Vfs) (p : Pid) (filename : List Char) (oflags : Flags) :
    Except Fault (Vfs × Except Errno ℤ) := do
  let _ ← follow .pointer (s.procs p)
  match s.getEmptyFd p with
  | none => return (s, .error .EMFILE)
  | some fd =>
    let (s, newfile) ← s.fgetNew
    -- `fput(NULL)` follows when there is no memory
    let f ← follow .assertion newfile
    if nameLen < filename.length then
      let s ← s.fput f
      return (s, .error .ENAMETOOLONG)
    else
      match openMode oflags with
      | none => return (s, .error .EINVAL)
      | some mode =>
        let file ← follow .pointer (s.files f)
        let s := s.setFile f (some { file with fMode := mode })
        let (s, r) ← s.openNamev p filename oflags none
        match r with
        | .error e =>
          let (s, _) ← s.doClose p fd
          let s ← s.setSlot p fd none
          return (s, .error e)
        | .ok v =>
          let file ← follow .pointer (s.files f)
          let s := s.setFile f (some { file with fVnode := some v })
          let vn ← follow .pointer (s.vnodes v)
          if WantsWrite oflags ∧ vn.vnMode = .dir then
            let (s, _) ← s.doClose p fd
            let s ← s.vput v
            return (s, .error .EISDIR)
          else
            let s ← s.setSlot p fd (some f)
            return (s, .ok fd)

/-- `do_dup`. -/
def doDup (s : Vfs) (p : Pid) (fd : ℤ) : Except Fault (Vfs × Except Errno ℤ) := do
  match s.slot p fd with
  | none => return (s, .error .EBADF)
  | some f =>
    let s ← s.fref f
    match s.getEmptyFd p with
    | none =>
      let s ← s.fput f
      return (s, .error .EMFILE)
    | some n =>
      let s ← s.setSlot p n (some f)
      return (s, .ok n)

/-- `do_dup2`. -/
def doDup2 (s : Vfs) (p : Pid) (ofd nfd : ℤ) : Except Fault (Vfs × Except Errno ℤ) := do
  match s.slot p ofd with
  | none => return (s, .error .EBADF)
  | some f =>
    if nfd < 0 ∨ (nFiles : ℤ) ≤ nfd then return (s, .error .EBADF)
    else
      let s ← s.fref f
      if ofd = nfd then
        let s ← s.fput f
        return (s, .ok nfd)
      else if (s.slot p nfd).isSome then
        let (s, r) ← s.doClose p nfd
        match r with
        | .error e => return (s, .error e)
        | .ok _ =>
          let s ← s.setSlot p nfd.toNat (some f)
          return (s, .ok nfd)
      else
        let s ← s.setSlot p nfd.toNat (some f)
        return (s, .ok nfd)

/-! ## Reading, writing and seeking -/

/-- The `read` operation of a vnode.  A block device has none. -/
def vnRead (s : Vfs) (v : Ino) (offset : ℤ) (count : Flags) :
    Except Fault (Except Errno (List UInt8)) := do
  let inode ← s.toInode v
  match inode.rfMem with
  | .data _ =>
    let bytes ← s.ramfsRead v offset count
    return .ok bytes
  | .chr devid =>
    let dev ← follow .assertion (s.cdevs devid)
    return dev.read offset count
  | _ => .error .pointer

/-- The `write` operation of a vnode.  A directory and a block device have none. -/
def vnWrite (s : Vfs) (v : Ino) (offset : ℤ) (buf : Page) (count : Flags) :
    Except Fault (Vfs × ℤ) := do
  let inode ← s.toInode v
  match inode.rfMem with
  | .data _ => s.ramfsWrite v offset buf count
  | .chr devid =>
    let dev ← follow .assertion (s.cdevs devid)
    return (s, dev.write offset count)
  | _ => .error .pointer

/-- `do_read`; the result is what has been stored in the buffer. -/
def doRead (s : Vfs) (p : Pid) (fd : ℤ) (nbytes : Flags) :
    Except Fault (Vfs × Except Errno (List UInt8)) := do
  match s.slot p fd with
  | none => return (s, .error .EBADF)
  | some f =>
    let s ← s.fref f
    let file ← follow .pointer (s.files f)
    if file.fMode.has fmodeRead = false then
      let s ← s.fput f
      return (s, .error .EBADF)
    else
      let v ← follow .pointer file.fVnode
      let vn ← follow .pointer (s.vnodes v)
      if vn.vnMode = .dir then
        let s ← s.fput f
        return (s, .error .EISDIR)
      else
        match ← s.vnRead v file.fPos nbytes with
        | .error e =>
          let s ← s.fput f
          return (s, .error e)
        | .ok bytes =>
          let s := s.setFile f (some { file with fPos := file.fPos + bytes.length })
          let s ← s.fput f
          return (s, .ok bytes)

/-- The new position that `do_lseek` computes, if it is not negative. -/
def seekTarget (pos len offset whence : ℤ) : Option ℤ :=
  let target := if whence = seekCur then int32 (pos + offset)
    else if whence = seekSet then offset
    else int32 (len + offset)
  if target < 0 then none else some target

/-- `vn_len` of an open file. -/
def fileLen (s : Vfs) (file : File) : Except Fault ℤ := do
  let v ← follow .pointer file.fVnode
  let vn ← follow .pointer (s.vnodes v)
  return vn.vnLen

/-- `do_lseek`. -/
def doLseek (s : Vfs) (p : Pid) (fd offset whence : ℤ) :
    Except Fault (Vfs × Except Errno ℤ) := do
  match s.slot p fd with
  | none => return (s, .error .EBADF)
  | some f =>
    if whence ≠ seekSet ∧ whence ≠ seekCur ∧ whence ≠ seekEnd then return (s, .error .EINVAL)
    else
      let s ← s.fref f
      let file ← follow .pointer (s.files f)
      let len ← if whence = seekEnd then s.fileLen file else .ok 0
      match seekTarget file.fPos len offset whence with
      | none =>
        let s ← s.fput f
        return (s, .error .EINVAL)
      | some pos =>
        let s := s.setFile f (some { file with fPos := pos })
        let s ← s.fput f
        let file ← follow .pointer (s.files f)
        return (s, .ok file.fPos)

/-- The position at which `do_write` writes.  In append mode `do_lseek` moves to the end
first; the result of the second `do_lseek` is not looked at. -/
def writePos (s : Vfs) (p : Pid) (fd : ℤ) (mode : Flags) :
    Except Fault (Vfs × Except Errno ℤ) := do
  if mode.has fmodeAppend then
    let (s, r) ← s.doLseek p fd 0 seekEnd
    match r with
    | .error e => return (s, .error e)
    | .ok pos =>
      if mode.has fmodeWrite then
        let (s, r) ← s.doLseek p fd 0 seekCur
        return (s, .ok (retval r))
      else return (s, .ok pos)
  else
    let (s, r) ← s.doLseek p fd 0 seekCur
    return (s, .ok (retval r))

/-- `do_write`.  The test of the descriptor lets `NFILES` pass, and the slot behind the
table is read. -/
def doWrite (s : Vfs) (p : Pid) (fd : ℤ) (buf : Page) (nbytes : Flags) :
    Except Fault (Vfs × Except Errno ℤ) := do
  demand .overrun (fd ≠ nFiles)
  match s.slot p fd with
  | none => return (s, .error .EBADF)
  | some f =>
    let s ← s.fref f
    let file ← follow .pointer (s.files f)
    if file.fMode.has fmodeAppend = false ∧ file.fMode.has fmodeWrite = false then
      let s ← s.fput f
      return (s, .error .EBADF)
    else
      let (s, r) ← s.writePos p fd file.fMode
      match r with
      | .error e =>
        let s ← s.fput f
        return (s, .error e)
      | .ok pos =>
        let v ← follow .pointer file.fVnode
        let (s, ret) ← s.vnWrite v pos buf nbytes
        let file ← follow .pointer (s.files f)
        let vn ← follow .pointer (s.vnodes v)
        demand .assertion (vn.vnMode = .chr ∨ vn.vnMode = .blk ∨
          (vn.vnMode = .reg ∧ file.fPos ≤ vn.vnLen))
        let s := s.setFile f (some { file with fPos := file.fPos + ret })
        let s ← s.fput f
        return (s, .ok ret)

/-! ## Making and removing names -/

/-- `do_mknod`. -/
def doMknod (s : Vfs) (p : Pid) (path : List Char) (mode : ℤ) (devid : ℕ) :
    Except Fault (Vfs × Except Errno ℤ) := do
  if maxPathLen < path.length then return (s, .error .ENAMETOOLONG)
  else if mode ≠ sIfchr ∧ mode ≠ sIfblk then return (s, .error .EINVAL)
  else
    let (s, r) ← s.dirNamev p path none
    match r with
    | .error e => return (s, .error e)
    | .ok ⟨dir, name, len⟩ =>
      let (s, r) ← s.lookup dir name len
      match r with
      | .ok v =>
        let s ← s.vput dir
        let s ← s.vput v
        return (s, .error .EEXIST)
      | .error _ =>
        let (s, r) ← s.ramfsMknod dir name len (if mode = sIfchr then .chr else .blk) devid
        let s ← s.vput dir
        return (s, r.map fun _ ↦ 0)

/-- `do_mkdir`. -/
def doMkdir (s : Vfs) (p : Pid) (path : List Char) : Except Fault (Vfs × Except Errno ℤ) := do
  if maxPathLen < path.length then return (s, .error .ENAMETOOLONG)
  else
    let (s, r) ← s.dirNamev p path none
    match r with
    | .error e => return (s, .error e)
    | .ok ⟨dir, name, len⟩ =>
      -- the length of the name with the slashes behind it
      if nameLen < name.length then
        let s ← s.vput dir
        return (s, .error .ENAMETOOLONG)
      else
        let (s, r) ← s.lookup dir name len
        match r with
        | .ok v =>
          let s ← s.vput dir
          let s ← s.vput v
          return (s, .error .EEXIST)
        | .error _ =>
          let vn ← follow .pointer (s.vnodes dir)
          if vn.vnMode ≠ .dir then
            let s ← s.vput dir
            return (s, .error .ENOTDIR)
          else
            let (s, r) ← s.ramfsMkdir dir name len
            let s ← s.vput dir
            return (s, r.map fun _ ↦ 0)

/-- `do_rmdir`. -/
def doRmdir (s : Vfs) (p : Pid) (path : List Char) : Except Fault (Vfs × Except Errno ℤ) := do
  if maxPathLen < path.length then return (s, .error .ENAMETOOLONG)
  else
    let (s, r) ← s.dirNamev p path none
    match r with
    | .error e => return (s, .error e)
    | .ok ⟨dir, name, len⟩ =>
      if name = ['.', '.'] then
        let s ← s.vput dir
        return (s, .error .ENOTEMPTY)
      else if name = ['.'] then
        let s ← s.vput dir
        return (s, .error .EINVAL)
      else
        let vn ← follow .pointer (s.vnodes dir)
        if vn.vnMode ≠ .dir then
          let s ← s.vput dir
          return (s, .error .ENOTDIR)
        else
          let (s, r) ← s.ramfsRmdir dir name len
          let s ← s.vput dir
          return (s, r.map fun _ ↦ 0)

/-- `do_unlink`. -/
def doUnlink (s : Vfs) (p : Pid) (path : List Char) : Except Fault (Vfs × Except Errno ℤ) := do
  if maxPathLen < path.length then return (s, .error .ENAMETOOLONG)
  else
    let (s, r) ← s.dirNamev p path none
    match r with
    | .error e => return (s, .error e)
    | .ok ⟨dir, name, len⟩ =>
      if name = ['.'] then
        let s ← s.vput dir
        return (s, .error .EINVAL)
      else if name = ['.', '.'] then
        let s ← s.vput dir
        return (s, .error .ENOTEMPTY)
      else
        let vn ← follow .pointer (s.vnodes dir)
        if vn.vnMode ≠ .dir then
          let s ← s.vput dir
          return (s, .error .ENOTDIR)
        else
          let (s, r) ← s.lookup dir name len
          match r with
          | .error e =>
            let s ← s.vput dir
            return (s, .error e)
          | .ok v =>
            let vn ← follow .pointer (s.vnodes v)
            if vn.vnMode = .dir then
              let s ← s.vput v
              let s ← s.vput dir
              return (s, .error .EISDIR)
            else
              let s ← s.ramfsUnlink dir name len
              let s ← s.vput dir
              let s ← s.vput v
              return (s, .ok 0)

/-- `do_link`.  The result of `open_namev` is not looked at: when it fails, the vnode that
is looked at next was never set. -/
def doLink (s : Vfs) (p : Pid) (src dst : List Char) : Except Fault (Vfs × Except Errno ℤ) := do
  if nameLen < dst.length ∨ nameLen < src.length then return (s, .error .ENAMETOOLONG)
  else
    let (s, r) ← s.openNamev p src 0 none
    let old ← follow .pointer r.toOption
    let vn ← follow .pointer (s.vnodes old)
    if vn.vnMode = .dir then
      let s ← s.vput old
      return (s, .error .EISDIR)
    else
      let (s, r) ← s.dirNamev p dst none
      match r with
      | .error e => return (s, .error e)
      | .ok ⟨dir, name, len⟩ =>
        let (s, r) ← s.lookup dir name len
        match r with
        | .error _ =>
          let (s, r) ← s.ramfsLink old dir name len
          let s ← s.vput old
          let s ← s.vput dir
          return (s, r.map fun _ ↦ 0)
        | .ok v =>
          let s ← s.vput old
          let s ← s.vput dir
          let s ← s.vput v
          return (s, .error .EEXIST)

/-- `do_chdir`. -/
def doChdir (s : Vfs) (p : Pid) (path : List Char) : Except Fault (Vfs × Except Errno ℤ) := do
  let (s, r) ← s.openNamev p path 0 none
  match r with
  | .error e => return (s, .error e)
  | .ok v =>
    let vn ← follow .pointer (s.vnodes v)
    if vn.vnMode ≠ .dir then
      let s ← s.vput v
      return (s, .error .ENOTDIR)
    else
      let proc ← follow .pointer (s.procs p)
      let s ← s.vput proc.pCwd
      let proc ← follow .pointer (s.procs p)
      return (s.setProc p (some { proc with pCwd := v }), .ok 0)

/-- `do_stat`, with a place for the result. -/
def doStat (s : Vfs) (p : Pid) (path : List Char) : Except Fault (Vfs × Except Errno Stat) := do
  if maxPathLen < path.length then return (s, .error .ENAMETOOLONG)
  else
    let (s, r) ← s.openNamev p path 0 none
    match r with
    | .error e => return (s, .error e)
    | .ok v =>
      let buf ← s.ramfsStat v
      let s ← s.vput v
      return (s, .ok buf)

/-- `do_getdent`; the result is also what has been stored in the buffer. -/
def doGetdent (s : Vfs) (p : Pid) (fd : ℤ) :
    Except Fault (Vfs × Except Errno ℤ × Option UserDirent) := do
  match s.slot p fd with
  | none => return (s, .error .EBADF, none)
  | some f =>
    let s ← s.fref f
    let file ← follow .pointer (s.files f)
    let v ← follow .pointer file.fVnode
    let vn ← follow .pointer (s.vnodes v)
    if vn.vnMode ≠ .dir then
      let s ← s.fput f
      return (s, .error .ENOTDIR, none)
    else
      let (i, d) ← s.ramfsReaddir v file.fPos
      let s := s.setFile f (some { file with fPos := file.fPos + i })
      let s ← s.fput f
      return (s, .ok (if i ≤ 0 then i else userDirentSize), d)

end Vfs

/-! ## The system -/

/-- A system call with its arguments. -/
inductive Call where
  | open (filename : List Char) (oflags : Flags)
  | close (fd : ℤ)
  | dup (fd : ℤ)
  | dup2 (ofd nfd : ℤ)
  | read (fd : ℤ) (nbytes : Flags)
  | write (fd : ℤ) (buf : Page) (nbytes : Flags)
  | lseek (fd offset whence : ℤ)
  | mknod (path : List Char) (mode : ℤ) (devid : ℕ)
  | mkdir (path : List Char)
  | rmdir (path : List Char)
  | unlink (path : List Char)
  | link (src dst : List Char)
  | chdir (path : List Char)
  | getdent (fd : ℤ)
  | stat (path : List Char)

/-- A process makes a call: the new state, and what the call returns. -/
def sysCall (s : Vfs) (p : Pid) : Call → Except Fault (Vfs × Except Errno ℤ)
  | .open filename oflags => s.doOpen p filename oflags
  | .close fd => s.doClose p fd
  | .dup fd => s.doDup p fd
  | .dup2 ofd nfd => s.doDup2 p ofd nfd
  | .read fd nbytes => do
    let (s, r) ← s.doRead p fd nbytes
    return (s, r.map fun bytes ↦ (bytes.length : ℤ))
  | .write fd buf nbytes => s.doWrite p fd buf nbytes
  | .lseek fd offset whence => s.doLseek p fd offset whence
  | .mknod path mode devid => s.doMknod p path mode devid
  | .mkdir path => s.doMkdir p path
  | .rmdir path => s.doRmdir p path
  | .unlink path => s.doUnlink p path
  | .link src dst => s.doLink p src dst
  | .chdir path => s.doChdir p path
  | .getdent fd => do
    let (s, r, _) ← s.doGetdent p fd
    return (s, r)
  | .stat path => do
    let (s, r) ← s.doStat p path
    return (s, r.map fun _ ↦ 0)

/-- One step of the system: a process makes a call that returns. -/
def fsStep (s : Vfs) (e : Pid × Call) : Except Fault Vfs := do
  let (s, _) ← sysCall s e.1 e.2
  return s

end CS402.Fs

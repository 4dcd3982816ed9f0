import CS402.Fs.State
import CS402.Lib.Outcome

/-!
# Vnodes and the operations of ramfs

The model of `vref`, `vget` and `vput` (`fs/vnode.c`) and of `fs/ramfs/ramfs.c`.

A directory is the list of its `RAMFS_MAX_DIRENT` slots.  The name that a routine gets
is a pointer into the path together with a length, and what follows the name in the
path is still there; so a name is here the rest of the path, and its length is a second
argument.
-/

namespace CS402.Fs

open CS402.Lib Function

/-! ## Names -/

/-- `name_match`: `fname` has the length of the name and the same bytes. -/
def nameMatch (fname name : List Char) (namelen : ℕ) : Bool :=
  decide (fname.length = namelen) && decide (fname = name.take namelen)

/-- What is stored in `rd_name` for a name: at most `NAME_LEN - 1` of its characters. -/
def storedName (name : List Char) (namelen : ℕ) : List Char :=
  name.take (min namelen (nameLen - 1))

/-- The search for a free slot: the first one without a name. -/
def freeSlot (entries : List Dirent) : Option ℕ :=
  entries.findIdx? fun e ↦ decide (e.rdName = [])

/-- The search for a name: the first slot that matches. -/
def slotOf (entries : List Dirent) (name : List Char) (namelen : ℕ) : Option ℕ :=
  entries.findIdx? fun e ↦ nameMatch e.rdName name namelen

/-- Take the name out of a slot; the inode number stays. -/
def clearSlot (entries : List Dirent) (i : ℕ) : List Dirent :=
  entries.modify i fun e ↦ { e with rdName := [] }

/-- The entries of a new directory `ino` in `parent`. -/
def newDir (ino parent : Ino) : List Dirent :=
  ((List.replicate ramfsMaxDirent ({} : Dirent)).set 0 ⟨ino, ['.']⟩).set 1 ⟨parent, ['.', '.']⟩

namespace Vfs

/-! ## Vnodes -/

/-- `vref`. -/
def vref (s : Vfs) (v : Ino) : Except Fault Vfs := do
  let vn ← follow .pointer (s.vnodes v)
  demand .assertion (0 < vn.vnRefcount)
  return s.setVnode v (some { vn with vnRefcount := vn.vnRefcount + 1 })

/-- `ramfs_read_vnode`: the inode gets a link, and the vnode its values. -/
def ramfsReadVnode (s : Vfs) (v : Ino) : Except Fault (Vfs × Vnode) := do
  let inode ← follow .staleInode (s.inodes v)
  demand .staleInode (inode.rfIno = v)
  return (s.setInode v (some { inode with rfLinkcount := inode.rfLinkcount + 1 }),
    { vnRefcount := 0, vnMode := inode.rfMem.type, vnLen := inode.rfSize })

/-- `vget`. -/
def vget (s : Vfs) (v : Ino) : Except Fault Vfs :=
  match s.vnodes v with
  | some _ => s.vref v
  | none => do
    let (s, vn) ← s.ramfsReadVnode v
    return s.setVnode v (some { vn with vnRefcount := 1 })

/-- `ramfs_delete_vnode`: the inode loses a link, and is freed with its last one. -/
def ramfsDeleteVnode (s : Vfs) (v : Ino) : Except Fault Vfs := do
  let inode ← follow .pointer (s.inodes v)
  if inode.rfLinkcount - 1 = 0 then return s.setInode v none
  else return s.setInode v (some { inode with rfLinkcount := inode.rfLinkcount - 1 })

/-- `vput`. -/
def vput (s : Vfs) (v : Ino) : Except Fault Vfs := do
  let vn ← follow .pointer (s.vnodes v)
  demand .assertion (0 < vn.vnRefcount)
  if 0 < vn.vnRefcount - 1 then
    return s.setVnode v (some { vn with vnRefcount := vn.vnRefcount - 1 })
  else
    let s ← s.ramfsDeleteVnode v
    return s.setVnode v none

/-! ## Access to the inode of a vnode -/

/-- `VNODE_TO_RAMFSINODE`. -/
def toInode (s : Vfs) (v : Ino) : Except Fault Inode := do
  let _ ← follow .pointer (s.vnodes v)
  follow .pointer (s.inodes v)

/-- `VNODE_TO_DIRENT`. -/
def toDirent (s : Vfs) (v : Ino) : Except Fault (List Dirent) := do
  let inode ← s.toInode v
  match inode.rfMem with
  | .dir entries => return entries
  | _ => .error .pointer

/-- Store the entries of a directory and change `rf_size`. -/
def setDirent (s : Vfs) (v : Ino) (entries : List Dirent) (grow : ℤ) : Except Fault Vfs := do
  let inode ← s.toInode v
  return s.setInode v (some { inode with
    rfMem := .dir entries
    rfSize := inode.rfSize + grow })

/-- Change `rf_linkcount`. -/
def addLinks (s : Vfs) (v : Ino) (n : ℤ) : Except Fault Vfs := do
  let inode ← s.toInode v
  return s.setInode v (some { inode with rfLinkcount := inode.rfLinkcount + n })

/-! ## The operations -/

/-- `ramfs_alloc_inode`. -/
def ramfsAllocInode (s : Vfs) (type : FileType) (devid : ℕ) : Vfs × Except Errno Ino :=
  match (List.range ramfsMaxFiles).find? fun i ↦ (s.inodes i).isNone with
  | none => (s, .error .ENOSPC)
  | some i =>
    if s.grants .kmalloc then
      let s := s.draw .kmalloc
      let inode : Inode := { rfIno := i, rfMem := .init devid type }
      match type with
      | .chr | .blk => (s.setInode i (some inode), .ok i)
      | .reg | .dir =>
        if s.grants .page then ((s.draw .page).setInode i (some inode), .ok i)
        else (s.draw .page, .error .ENOSPC)
    else (s.draw .kmalloc, .error .ENOSPC)

/-- `ramfs_lookup`. -/
def ramfsLookup (s : Vfs) (dir : Ino) (name : List Char) (namelen : ℕ) :
    Except Fault (Vfs × Except Errno Ino) := do
  let entries ← s.toDirent dir
  match entries.find? fun e ↦ nameMatch e.rdName name namelen with
  | some e =>
    let s ← s.vget e.rdIno
    return (s, .ok e.rdIno)
  | none => return (s, .error .ENOENT)

/-- The start of `ramfs_create`, `ramfs_mknod`, `ramfs_link` and `ramfs_mkdir`: the name
must not be there, and the result is a free slot, if there is one. -/
def ramfsPlace (s : Vfs) (dir : Ino) (name : List Char) (namelen : ℕ) :
    Except Fault (Option ℕ) := do
  let (s, r) ← s.ramfsLookup dir name namelen
  demand .assertion (r.toOption = none)
  let entries ← s.toDirent dir
  return freeSlot entries

/-- Fill a slot of a directory. -/
def ramfsEnter (s : Vfs) (dir : Ino) (i : ℕ) (ino : Ino) (name : List Char) (namelen : ℕ) :
    Except Fault Vfs := do
  let entries ← s.toDirent dir
  s.setDirent dir (entries.set i ⟨ino, storedName name namelen⟩) direntSize

/-- The end of `ramfs_unlink` and `ramfs_rmdir`: the name is taken out of the directory,
and the inode loses a link and the reference of the lookup. -/
def ramfsRemove (s : Vfs) (dir : Ino) (name : List Char) (namelen : ℕ) (vn : Ino) :
    Except Fault Vfs := do
  let entries ← s.toDirent dir
  let entries := match slotOf entries name namelen with
    | some i => clearSlot entries i
    | none => entries
  let s ← s.setDirent dir entries (-direntSize)
  let s ← s.addLinks vn (-1)
  s.vput vn

/-- `ramfs_create`. -/
def ramfsCreate (s : Vfs) (dir : Ino) (name : List Char) (namelen : ℕ) :
    Except Fault (Vfs × Except Errno Ino) := do
  match ← s.ramfsPlace dir name namelen with
  | none => return (s, .error .ENOSPC)
  | some i =>
    match s.ramfsAllocInode .reg 0 with
    | (s, .error e) => return (s, .error e)
    | (s, .ok ino) =>
      let s ← s.vget ino
      let s ← s.ramfsEnter dir i ino name namelen
      return (s, .ok ino)

/-- `ramfs_mknod`; `type` is that of the `mode`, which `do_mknod` has checked. -/
def ramfsMknod (s : Vfs) (dir : Ino) (name : List Char) (namelen : ℕ) (type : FileType)
    (devid : ℕ) : Except Fault (Vfs × Except Errno Unit) := do
  match ← s.ramfsPlace dir name namelen with
  | none => return (s, .error .ENOSPC)
  | some i =>
    match s.ramfsAllocInode type devid with
    | (s, .error e) => return (s, .error e)
    | (s, .ok ino) =>
      let s ← s.ramfsEnter dir i ino name namelen
      return (s, .ok ())

/-- `ramfs_link`. -/
def ramfsLink (s : Vfs) (oldvnode dir : Ino) (name : List Char) (namelen : ℕ) :
    Except Fault (Vfs × Except Errno Unit) := do
  match ← s.ramfsPlace dir name namelen with
  | none => return (s, .error .ENOSPC)
  | some i =>
    let s ← s.ramfsEnter dir i oldvnode name namelen
    let s ← s.addLinks oldvnode 1
    return (s, .ok ())

/-- `ramfs_unlink`. -/
def ramfsUnlink (s : Vfs) (dir : Ino) (name : List Char) (namelen : ℕ) : Except Fault Vfs := do
  let (s, r) ← s.ramfsLookup dir name namelen
  let vn ← follow .assertion r.toOption
  let vnode ← follow .pointer (s.vnodes vn)
  demand .assertion (vnode.vnMode ≠ .dir)
  s.ramfsRemove dir name namelen vn

/-- `ramfs_mkdir`. -/
def ramfsMkdir (s : Vfs) (dir : Ino) (name : List Char) (namelen : ℕ) :
    Except Fault (Vfs × Except Errno Unit) := do
  match ← s.ramfsPlace dir name namelen with
  | none => return (s, .error .ENOSPC)
  | some i =>
    match s.ramfsAllocInode .dir 0 with
    | (s, .error e) => return (s, .error e)
    | (s, .ok ino) =>
      let s ← s.ramfsEnter dir i ino name namelen
      let inode ← follow .pointer (s.inodes ino)
      let s := s.setInode ino (some { inode with
        rfMem := .dir (newDir ino dir)
        rfSize := 2 * direntSize })
      return (s, .ok ())

/-- Whether `ramfs_rmdir` takes a directory for empty. -/
def dirEmpty (entries : List Dirent) : Bool :=
  entries.all fun e ↦ decide (e.rdName = ['.'] ∨ e.rdName = ['.', '.'] ∨ e.rdName = [])

/-- `ramfs_rmdir`. -/
def ramfsRmdir (s : Vfs) (dir : Ino) (name : List Char) (namelen : ℕ) :
    Except Fault (Vfs × Except Errno Unit) := do
  demand .assertion (nameMatch ['.'] name namelen = false ∧
    nameMatch ['.', '.'] name namelen = false)
  let (s, r) ← s.ramfsLookup dir name namelen
  match r with
  | .error e => return (s, .error e)
  | .ok vn =>
    let vnode ← follow .pointer (s.vnodes vn)
    if vnode.vnMode ≠ .dir then
      let s ← s.vput vn
      return (s, .error .ENOTDIR)
    else
      let entries ← s.toDirent vn
      if dirEmpty entries then
        let s ← s.ramfsRemove dir name namelen vn
        return (s, .ok ())
      else
        let s ← s.vput vn
        return (s, .error .ENOTEMPTY)

/-- `memcpy(buf, rf_mem + offset, ret)`: nothing outside the page may be read. -/
def readPage (page : Page) (offset ret : ℤ) : Except Fault (List UInt8) := do
  demand .overrun (0 ≤ ret ∧ (ret = 0 ∨ (0 ≤ offset ∧ offset + ret ≤ pageSize)))
  return (List.range ret.toNat).map fun i ↦ page (offset.toNat + i)

/-- `memcpy(rf_mem + offset, buf, ret)`: nothing outside the page may be written.  A
negative `ret` is a very large `size_t`. -/
def writePage (page : Page) (offset : ℤ) (buf : Page) (ret : ℤ) : Except Fault Page := do
  demand .overrun (0 ≤ ret ∧ (ret = 0 ∨ (0 ≤ offset ∧ offset + ret ≤ pageSize)))
  return fun i ↦
    if offset.toNat ≤ i ∧ i < offset.toNat + ret.toNat then buf (i - offset.toNat) else page i

/-- `ramfs_read`; the cast of `count` to `off_t` may make it negative. -/
def ramfsRead (s : Vfs) (file : Ino) (offset : ℤ) (count : Flags) :
    Except Fault (List UInt8) := do
  let inode ← s.toInode file
  match inode.rfMem with
  | .data page => readPage page offset (max 0 (min count.toInt (inode.rfSize - offset)))
  | _ => .error .assertion

/-- `ramfs_write`. -/
def ramfsWrite (s : Vfs) (file : Ino) (offset : ℤ) (buf : Page) (count : Flags) :
    Except Fault (Vfs × ℤ) := do
  let vn ← follow .pointer (s.vnodes file)
  let inode ← s.toInode file
  match inode.rfMem with
  | .data page =>
    let ret := min count.toInt (pageSize - offset)
    let page ← writePage page offset buf ret
    demand .assertion (vn.vnLen = inode.rfSize)
    let len := max vn.vnLen (offset + ret)
    return ((s.setInode file (some { inode with
      rfMem := .data page
      rfSize := len })).setVnode file (some { vn with vnLen := len }), ret)
  | _ => .error .assertion

/-- The loop of `ramfs_readdir`: the first slot with a name, and the number of slots before
it. -/
def readdirLoop : List Dirent → Option (ℕ × Dirent)
  | [] => none
  | e :: es => if e.rdName = [] then (readdirLoop es).map (Prod.map (· + 1) id) else some (0, e)

/-- `ramfs_readdir`: by how much the offset goes on, and what is stored in the buffer. -/
def ramfsReaddir (s : Vfs) (dir : Ino) (offset : ℤ) : Except Fault (ℤ × Option UserDirent) := do
  let vn ← follow .pointer (s.vnodes dir)
  demand .assertion (vn.vnMode = .dir)
  demand .assertion (offset % direntSize = 0)
  let entries ← s.toDirent dir
  -- there is nothing to look at in front of the page
  demand .overrun (0 ≤ offset)
  match readdirLoop (entries.drop (offset.toNat / direntSize)) with
  | none => return (0, none)
  | some (k, e) =>
    return (direntSize + k * direntSize, some { dIno := e.rdIno, dName := e.rdName.take (nameLen - 1) })

/-- What `ramfs_stat` stores. -/
structure Stat where
  stMode : FileType
  stIno : Ino
  stRdev : ℕ
  stNlink : ℤ
  stSize : ℤ

/-- `ramfs_stat`. -/
def ramfsStat (s : Vfs) (file : Ino) : Except Fault Stat := do
  let vn ← follow .pointer (s.vnodes file)
  let inode ← s.toInode file
  let rdev := match inode.rfMem with
    | .chr devid | .blk devid => devid
    | _ => 0
  return {
    stMode := vn.vnMode
    stIno := file
    stRdev := rdev
    stNlink := inode.rfLinkcount - 1
    stSize := inode.rfSize }

/-- `ramfs_mount`, on a table without inodes. -/
def ramfsMount (s : Vfs) : Except Fault (Vfs × Except Errno Unit) :=
  if s.grants .kmalloc then
    match (s.draw .kmalloc).ramfsAllocInode .dir 0 with
    | (s, .error e) => return (s, .error e)
    | (s, .ok ino) => do
      demand .assertion (ino = rootIno)
      let inode ← follow .pointer (s.inodes ino)
      let s := s.setInode ino (some { inode with
        rfMem := .dir (newDir ino ino)
        rfSize := 2 * direntSize })
      let s ← s.vget rootIno
      return (s, .ok ())
  else return (s.draw .kmalloc, .error .ENOMEM)

/-- A process gets the root as its working directory, as in `idleproc_run`. -/
def enterRoot (s : Vfs) (p : Pid) : Except Fault Vfs := do
  let s ← s.vref rootIno
  return s.setProc p (some { pCwd := rootIno })

/-- The state after a ramfs has been mounted and the processes `ps` have entered it. -/
def boot (cdevs : ℕ → Option Cdev) (oracle : Allocator → List Bool) (ps : List Pid) :
    Except Fault Vfs := do
  let (s, r) ← ({ cdevs, oracle } : Vfs).ramfsMount
  demand .disabled r.toOption.isSome
  ps.foldlM enterRoot s

end Vfs

end CS402.Fs

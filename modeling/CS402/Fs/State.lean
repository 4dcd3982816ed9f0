import CS402.Basic
import CS402.Lib.Refs
import Mathlib.Data.List.Basic
import Mathlib.Tactic.Simps.Basic

/-!
# The state of the file system

The records of `fs/vnode.h`, `fs/file.h` and `ramfs.c`, the fields of a process that
the file system uses, and the tables that hold them.  One ramfs is mounted, and it is
the root file system.

A vnode is named by its inode number: `vget` looks for a vnode of the wanted number
before it makes one, so there are never two.  Open files are named by numbers that
are not used again.  As in memory management a name behind which nothing is (any more)
cannot be followed, and the state carries what the allocators will answer.  The one
allocation that is taken to succeed is that of a vnode: `vget` waits and tries again
until it does.

No page of a ramfs file is ever cached, since neither of its operation tables has an
`mmap`; so `vn_nrespages` is zero throughout and is left out.

A string of C is the list of its characters before the terminating zero.  This is all
that the routines look at in `rd_name`: a slot of a directory is free when its name is
the empty string, and clearing `rd_name[0]` makes it so.
-/

namespace CS402.Fs

open CS402.Lib Function

/-! ## Constants of the headers

They are recorded in the object file `fs/ramfs/ramfs.o`, except for the flags of
`fs/fcntl.h`, `fs/file.h` and `fs/lseek.h`, which have the values of the distribution. -/

/-- `NAME_LEN`, the size of `rd_name`. -/
def nameLen : ℕ := 28

/-- `MAXPATHLEN`. -/
def maxPathLen : ℕ := 1024

/-- `NFILES`, the number of descriptors of a process. -/
def nFiles : ℕ := 32

/-- `RAMFS_MAX_FILES`. -/
def ramfsMaxFiles : ℕ := 64

/-- `sizeof(ramfs_dirent_t)`. -/
def direntSize : ℕ := 4 + nameLen

/-- `sizeof(dirent_t)`: two numbers and a name. -/
def userDirentSize : ℕ := 4 + 4 + nameLen

/-- `RAMFS_MAX_DIRENT`. -/
def ramfsMaxDirent : ℕ := pageSize / direntSize

/-- `O_WRONLY`. -/
def oWronly : Flags := 1

/-- `O_RDWR`. -/
def oRdwr : Flags := 2

/-- `O_CREAT`. -/
def oCreat : Flags := 0x100

/-- `O_TRUNC`. -/
def oTrunc : Flags := 0x200

/-- `O_APPEND`. -/
def oAppend : Flags := 0x400

/-- `FMODE_READ`. -/
def fmodeRead : Flags := 1

/-- `FMODE_WRITE`. -/
def fmodeWrite : Flags := 2

/-- `FMODE_APPEND`. -/
def fmodeAppend : Flags := 4

/-- `SEEK_SET`. -/
def seekSet : ℤ := 0

/-- `SEEK_CUR`. -/
def seekCur : ℤ := 1

/-- `SEEK_END`. -/
def seekEnd : ℤ := 2

/-- `S_IFCHR`. -/
def sIfchr : ℤ := 0x100

/-- `S_IFBLK`. -/
def sIfblk : ℤ := 0x400

/-! ## Records -/

/-- Inode numbers, which also name the vnodes. -/
abbrev Ino := ℕ
/-- Open files are named by numbers. -/
abbrev FileId := ℕ
/-- Processes are named by numbers. -/
abbrev Pid := ℕ

/-- The bytes of a page, by offset. -/
abbrev Page := ℕ → UInt8

/-- The root of the file system: `vfs_root_vn`, which is `fs_root`. -/
def rootIno : Ino := 0

/-- The types of a file: the `RAMFS_TYPE` of an inode and the `S_IF` of a vnode. -/
inductive FileType where
  | reg
  | dir
  | chr
  | blk
deriving DecidableEq

/-- `ramfs_dirent_t`. -/
structure Dirent where
  rdIno : Ino := 0
  rdName : List Char := []
deriving DecidableEq

/-- `struct dirent`, which `do_getdent` fills in. -/
structure UserDirent where
  dIno : Ino
  dOff : ℤ := 0
  dName : List Char
deriving DecidableEq

/-- What `rf_mem` is, for each `rf_mode`. -/
inductive RfMem where
  | data (page : Page)
  | dir (entries : List Dirent)
  | chr (devid : ℕ)
  | blk (devid : ℕ)

/-- `rf_mode`. -/
def RfMem.type : RfMem → FileType
  | .data _ => .reg
  | .dir _ => .dir
  | .chr _ => .chr
  | .blk _ => .blk

/-- The memory of a new inode, cleared. -/
def RfMem.init (devid : ℕ) : FileType → RfMem
  | .reg => .data fun _ ↦ 0
  | .dir => .dir (List.replicate ramfsMaxDirent {})
  | .chr => .chr devid
  | .blk => .blk devid

/-- `ramfs_inode_t`. -/
structure Inode where
  rfSize : ℤ := 0
  rfIno : Ino
  rfMem : RfMem
  rfLinkcount : ℤ := 1

/-- `vnode_t`. -/
structure Vnode where
  vnRefcount : ℤ
  vnMode : FileType
  vnLen : ℤ

/-- `file_t`. -/
structure File where
  fPos : ℤ := 0
  fMode : Flags := 0
  fRefcount : ℤ := 0
  fVnode : Option Ino := none
deriving DecidableEq

/-- The fields of `proc_t` that the file system uses. -/
structure Proc where
  pFiles : ℕ → Option FileId := fun _ ↦ none
  pCwd : Ino

/-- What the driver of a byte device does.  The drivers are not part of the source tree. -/
structure Cdev where
  read : ℤ → Flags → Except Errno (List UInt8)
  write : ℤ → Flags → ℤ

/-- The allocators. -/
inductive Allocator where
  | file
  | kmalloc
  | page
deriving DecidableEq

/-- The state of the file system. -/
structure Vfs where
  /-- `rfs_inodes`. -/
  inodes : Ino → Option Inode := fun _ ↦ none
  /-- `vnode_inuse_list`. -/
  vnodes : Ino → Option Vnode := fun _ ↦ none
  files : FileId → Option File := fun _ ↦ none
  procs : Pid → Option Proc := fun _ ↦ none
  /-- The byte devices, by `devid`. -/
  cdevs : ℕ → Option Cdev := fun _ ↦ none
  /-- What the allocators are going to answer. -/
  oracle : Allocator → List Bool := fun _ ↦ []
  /-- No open file has a name from here on. -/
  next : FileId := 0

namespace Vfs

/-- Store an inode. -/
@[simps -fullyApplied] def setInode (s : Vfs) (v : Ino) (x : Option Inode) : Vfs :=
  { s with inodes := update s.inodes v x }

/-- Store a vnode. -/
@[simps -fullyApplied] def setVnode (s : Vfs) (v : Ino) (x : Option Vnode) : Vfs :=
  { s with vnodes := update s.vnodes v x }

/-- Store an open file. -/
@[simps -fullyApplied] def setFile (s : Vfs) (f : FileId) (x : Option File) : Vfs :=
  { s with files := update s.files f x }

/-- Store a process. -/
@[simps -fullyApplied] def setProc (s : Vfs) (p : Pid) (x : Option Proc) : Vfs :=
  { s with procs := update s.procs p x }

/-- Whether the next request to an allocator succeeds. -/
def grants (s : Vfs) (k : Allocator) : Bool := (s.oracle k).headD true

/-- Make a request to an allocator. -/
@[simps -fullyApplied] def draw (s : Vfs) (k : Allocator) : Vfs :=
  { s with oracle := update s.oracle k (s.oracle k).tail }

end Vfs

end CS402.Fs

import Mathlib.Algebra.Ring.Int.Defs
import Mathlib.Algebra.Ring.Nat

/-!
# Faults, error numbers and the memory layout

What every part of the model shares: the ways a run of the kernel can be lost, the
error numbers its routines return, and the constants of the headers `mm/mm.h`,
`mm/mman.h` and `fs/file.h`.  The headers themselves are not part of the source
tree, so a proof may use of their constants only what `Layout` says about them;
`Layout.stock` has the values of the distribution and is what the concrete runs
of this development use.
-/

namespace CS402

/-- How a run of the kernel is lost. -/
inductive Fault where
  /-- A `KASSERT` fails and the kernel panics. -/
  | assertion
  /-- A pointer that is `NULL`, was never set or has been freed is followed. -/
  | pointer
  /-- Memory outside the object at hand is read or written. -/
  | overrun
  /-- A division by zero. -/
  | division
  /-- The call never returns. -/
  | divergence
  /-- The event cannot happen in this state. -/
  | disabled
  /-- The assertion of `ramfs_read_vnode` fails: there is no such inode. -/
  | staleInode
deriving DecidableEq, Repr

/-- The error numbers that the modelled routines return. -/
inductive Errno where
  | EPERM | ENOENT | EINTR | EBADF | ECHILD | ENOMEM | EACCES | EFAULT | EEXIST | ENOTDIR | EISDIR
  | EINVAL | EMFILE | ENOSPC | ENAMETOOLONG | ENOTEMPTY
deriving DecidableEq, Repr

/-- The number behind the name, as `errno.h` has it. -/
def Errno.code : Errno → ℕ
  | .EPERM => 1
  | .ENOENT => 2
  | .EINTR => 4
  | .EBADF => 9
  | .ECHILD => 10
  | .ENOMEM => 12
  | .EACCES => 13
  | .EFAULT => 14
  | .EEXIST => 17
  | .ENOTDIR => 20
  | .EISDIR => 21
  | .EINVAL => 22
  | .EMFILE => 24
  | .ENOSPC => 28
  | .ENAMETOOLONG => 36
  | .ENOTEMPTY => 39

/-- The value of an `int` expression that may overflow. -/
def int32 (n : ℤ) : ℤ := n.bmod (2 ^ 32)

theorem int32_of_range {n : ℤ} (h₀ : 0 ≤ n) (h₁ : n < 2 ^ 31) : int32 n = n := by
  unfold int32
  rw [Int.bmod_eq_of_le] <;> omega

/-- A machine word that holds flags. -/
abbrev Flags := BitVec 32

/-- The test `w & b` of C. -/
def Flags.has (w b : Flags) : Bool := w &&& b != 0

/-! ## Pages -/

/-- `PAGE_SIZE`. -/
def pageSize : ℕ := 4096

/-- `ADDR_TO_PN`. -/
def addrToPn (a : ℕ) : ℕ := a / pageSize

/-- `PN_TO_ADDR`. -/
def pnToAddr (n : ℕ) : ℕ := n * pageSize

/-- `PAGE_ALIGNED`. -/
def PageAligned (a : ℕ) : Prop := a % pageSize = 0

instance (a : ℕ) : Decidable (PageAligned a) := inferInstanceAs (Decidable (_ = _))

@[simp] theorem addrToPn_pnToAddr (n : ℕ) : addrToPn (pnToAddr n) = n := by
  simp [addrToPn, pnToAddr, pageSize]

@[simp] theorem pageAligned_pnToAddr (n : ℕ) : PageAligned (pnToAddr n) := by
  simp [PageAligned, pnToAddr]

theorem PageAligned.pnToAddr_addrToPn {a : ℕ} (h : PageAligned a) : pnToAddr (addrToPn a) = a :=
  Nat.div_mul_cancel (Nat.dvd_of_mod_eq_zero h)

theorem addrToPn_add_mul (a k : ℕ) : addrToPn (a + pageSize * k) = addrToPn a + k :=
  Nat.add_mul_div_left _ _ (by decide)

theorem addrToPn_sub_mul (a k : ℕ) : addrToPn (a - pageSize * k) = addrToPn a - k :=
  Nat.sub_mul_div _ _ _

/-! ## Constants of the headers -/

/-- The constants of the headers, with what is used of them. -/
class Layout where
  /-- `USER_MEM_LOW`, the first address of user memory. -/
  userMemLow : ℕ
  /-- `USER_MEM_HIGH`, the first address after it. -/
  userMemHigh : ℕ
  protNone : Flags
  protRead : Flags
  protWrite : Flags
  protExec : Flags
  mapShared : Flags
  mapPrivate : Flags
  mapFixed : Flags
  mapAnon : Flags
  /-- `MAP_TYPE`, the mask of the two type bits. -/
  mapType : Flags
  fmodeRead : Flags
  fmodeWrite : Flags
  /-- `NFILES`, the number of descriptors of a process. -/
  nfiles : ℕ
  low_aligned : PageAligned userMemLow
  high_aligned : PageAligned userMemHigh
  low_pos : 0 < userMemLow
  low_lt_high : userMemLow < userMemHigh
  /-- The kernel owns at least the last page table. -/
  high_le : userMemHigh + 2 ^ 22 ≤ 2 ^ 32
  mapShared_ne : mapShared ≠ 0
  mapShared_anon : Flags.has mapShared mapAnon = false

export Layout (userMemLow userMemHigh protNone protRead protWrite protExec mapShared mapPrivate
  mapFixed mapAnon mapType fmodeRead fmodeWrite nfiles)

/-- The values of the distribution. -/
@[reducible]
def Layout.stock : Layout where
  userMemLow := 0x00400000
  userMemHigh := 0xc0000000
  protNone := 0
  protRead := 1
  protWrite := 2
  protExec := 4
  mapShared := 1
  mapPrivate := 2
  mapFixed := 4
  mapAnon := 8
  mapType := 3
  fmodeRead := 1
  fmodeWrite := 2
  nfiles := 32
  low_aligned := rfl
  high_aligned := rfl
  low_pos := by decide
  low_lt_high := by decide
  high_le := by decide
  mapShared_ne := by decide
  mapShared_anon := by decide

section

variable [Layout]

/-- The first page of user memory. -/
def lowPage : ℕ := addrToPn userMemLow

/-- The first page after user memory. -/
def highPage : ℕ := addrToPn userMemHigh

theorem pnToAddr_lowPage : pnToAddr lowPage = userMemLow :=
  Layout.low_aligned.pnToAddr_addrToPn

theorem pnToAddr_highPage : pnToAddr highPage = userMemHigh :=
  Layout.high_aligned.pnToAddr_addrToPn

theorem lowPage_pos : 0 < lowPage := by
  have h := pnToAddr_lowPage
  have hl := Layout.low_pos
  unfold pnToAddr at h
  exact Nat.pos_of_mul_pos_right (h ▸ hl)

end

end CS402

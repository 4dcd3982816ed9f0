import CS402.Fs.Names

/-!
# What `do_open` does

`do_open` makes a file before it looks at its arguments, and the tables it leaves differ
from those it found by this file, whatever happens afterwards; resolution does not see it.
After an error the vnodes, the inodes and the descriptors are what they were, and the file
is left behind in most cases.
-/

namespace CS402.Fs

open CS402.Lib Function

variable {s s' : Vfs} {v w d n : Ino} {vn : Vnode} {p : Pid} {name path : List Char} {x : Proc}
  {len i fd : ℕ}

namespace Vfs

/-- A new file, which is in no slot yet. -/
def newFile (s : Vfs) (file : File) : Vfs :=
  ({ s.draw .file with next := s.next + 1 }).setFile s.next (some file)

/-- The file of `fget(-1)`. -/
def blank : File := { fRefcount := 1 }

@[simp] theorem newFile_files (s : Vfs) (file : File) :
    (s.newFile file).files = update s.files s.next (some file) := rfl

theorem newFile_setFile (s : Vfs) (file file' : File) :
    (s.newFile file).setFile s.next (some file') = s.newFile file' := by
  simp [newFile, setFile]

theorem hold_newFile_setFile (s : Vfs) (v : Ino) (file file' : File) :
    ((s.newFile file).hold v).setFile s.next (some file') = (s.hold v).newFile file' :=
  newFile_setFile (s.hold v) file file'

theorem Sane.newFile (hs : s.Sane) (file : File) : (s.newFile file).Sane where
  cell := hs.cell
  fresh f hf := by
    have hlt : s.next < f := hf
    rw [newFile_files, update_of_ne hlt.ne']
    exact hs.fresh f hlt.le

theorem fgetNew_eq (s : Vfs) : s.fgetNew =
    if s.grants .file = true then .ok (s.newFile blank, some s.next)
    else .ok (s.draw .file, none) := by
  unfold fgetNew
  split
  · have hfref : (({ s.draw .file with next := s.next + 1 }).setFile s.next (some {})).fref s.next =
        .ok (s.newFile blank) := by
      unfold fref
      rw [setFile_files, update_self, follow_bind, demand_bind (by decide),
        demand_bind (by decide)]
      simp [Vfs.newFile, setFile, blank, pure, Except.pure]
    rw [hfref]
    rfl
  · rfl

theorem getEmptyFd_spec (h : s.getEmptyFd p = some fd) : fd < nFiles ∧ s.slot p fd = none := by
  have hfree := List.find?_some h
  exact ⟨List.mem_range.mp (List.mem_of_find?_eq_some h), by simpa using hfree⟩

theorem pFiles_of_slot (hx : s.procs p = some x) (hfd : fd < nFiles) :
    s.slot p fd = x.pFiles fd := by
  have hin : ¬((fd : ℤ) < 0 ∨ (nFiles : ℤ) ≤ fd) := by omega
  rw [slot, if_neg hin, hx]
  rfl

theorem setSlot_none (hx : s.procs p = some x) (h : s.getEmptyFd p = some fd) :
    s.setSlot p fd none = .ok s := by
  obtain ⟨hlt, hfree⟩ := getEmptyFd_spec h
  rw [pFiles_of_slot hx hlt] at hfree
  have hsame : update x.pFiles fd none = x.pFiles := by
    rw [← hfree]
    exact update_eq_self fd _
  have hx' : some { x with pFiles := x.pFiles } = s.procs p := hx.symm
  unfold setSlot
  rw [hx, follow_bind, hsame, hx']
  simp [setProc, pure, Except.pure]

theorem doClose_none {fd : ℤ} (h : s.slot p fd = none) :
    s.doClose p fd = .ok (s, .error .EBADF) := by
  unfold doClose
  rw [h]
  rfl

theorem setSlot_eq (hx : s.procs p = some x) (f : Option FileId) :
    s.setSlot p fd f = .ok (s.setProc p (some { x with pFiles := update x.pFiles fd f })) := by
  unfold setSlot
  rw [hx]
  rfl

theorem target_newFile (s : Vfs) (file : File) (p : Pid) (path : List Char) :
    (s.newFile file).target p path = s.target p path := by
  have hres : (s.newFile file).resolve p path none = s.resolve p path none :=
    resolve_congr rfl rfl fun _ _ ↦ rfl
  have hchild : (s.newFile file).child = s.child := by
    funext d name len
    exact child_congr rfl d name len
  unfold target
  rw [hres, hchild]

/-! ## Opening for reading -/

/-- The descriptor is for an open file on the vnode. -/
def Denotes (s : Vfs) (p : Pid) (fd : ℤ) (v : Ino) : Prop :=
  ∃ f file, s.slot p fd = some f ∧ s.files f = some file ∧ file.fVnode = some v

/-- The state that `do_open` leaves when it succeeds. -/
def installed (s : Vfs) (p : Pid) (x : Proc) (fd : ℕ) (file : File) : Vfs :=
  (s.newFile file).setProc p (some { x with pFiles := update x.pFiles fd (some s.next) })

theorem denotes_installed {file : File} (hfd : fd < nFiles) (hv : file.fVnode = some v) :
    (s.installed p x fd file).Denotes p fd v := by
  have hx' : (s.installed p x fd file).procs p =
      some { x with pFiles := update x.pFiles fd (some s.next) } := update_self _ _ _
  refine ⟨s.next, file, ?_, update_self _ _ _, hv⟩
  rw [pFiles_of_slot hx' hfd]
  exact update_self _ _ _

/-- **`do_open` with `O_RDONLY`**, when there are a descriptor and memory for a file: the
whole path must not be longer than a name, and then it is what `open_namev` finds. -/
theorem Sane.doOpen_readOnly (hs : s.Sane) (hx : s.procs p = some x)
    (hfd : s.getEmptyFd p = some fd) (hg : s.grants .file = true) (path : List Char) :
    s.doOpen p path 0 = if nameLen < path.length then
        .ok ((s.newFile blank).setFile s.next none, .error .ENAMETOOLONG)
      else s.target p path >>= fun r ↦ match r with
        | .error e => .ok (s.newFile { blank with fMode := fmodeRead }, .error e)
        | .ok v => .ok ((s.hold v).installed p x fd
            { blank with fMode := fmodeRead, fVnode := some v }, .ok fd) := by
  have hfree := (getEmptyFd_spec hfd).2
  unfold doOpen
  rw [hx, follow_bind, hfd]
  simp only []
  rw [fgetNew_eq, if_pos hg, ok_bind]
  simp only [follow_bind]
  split
  · have hput : (s.newFile blank).fput s.next = .ok ((s.newFile blank).setFile s.next none) := by
      unfold fput
      rw [newFile_files, update_self, follow_bind, demand_bind (by decide),
        demand_bind (by decide)]
      rfl
    rw [hput]
    rfl
  · have hmode : openMode 0 = some fmodeRead := by decide
    simp only [hmode, newFile_files, update_self, follow_bind, newFile_setFile]
    rw [(hs.newFile _).openNamev_eq, target_newFile]
    cases ht : s.target p path with
    | error f => rfl
    | ok r =>
      cases r with
      | error e =>
        have hslot : (s.newFile { blank with fMode := fmodeRead }).slot p fd = none := hfree
        have hset := setSlot_none (s := s.newFile { blank with fMode := fmodeRead }) hx hfd
        simp only [ok_bind, heldBy, doClose_none hslot, hset]
        rfl
      | ok v =>
        have hv := isSome_of_target ht
        obtain ⟨vn, hvn⟩ := vnodes_hold_self (s := s.newFile { blank with fMode := fmodeRead }) hv
        have hwrite : ¬(WantsWrite 0 ∧ vn.vnMode = .dir) := fun h ↦ absurd h.1 (by decide)
        simp only [ok_bind, heldBy, hold_files, newFile_files, update_self, follow_some,
          setFile_vnodes, hvn, if_neg hwrite]
        rw [hold_newFile_setFile]
        exact congrArg (· >>= _) (setSlot_eq (s := (s.hold v).newFile _) hx _)

end Vfs

end CS402.Fs

import Mathlib
import CS402.Fs.Opened
import CS402.Fs.Changes
import CS402.Lib.Triples

/-!
# What a routine takes

Every routine of the file system takes and gives back references, to vnodes and to open
files.  Its triple says which ones it has taken when it returns, and that it has given back
no others than it may.  `Vfs.Takes` is the vocabulary: most calls give nothing back that they
have not taken, a lookup takes a reference to the vnode it has found, and the loop of
`dir_namev` trades one for another.  A body is a sum of what its calls take, and `grind`
adds it up.
-/

set_option mvcgen.warning false

namespace CS402.Fs

open CS402.Lib Std.Do Function

/-- The reference count of the vnode. -/
def Cell.refs (c : Cell) : ℤ := c.vnode.elim 0 Vnode.vnRefcount

theorem Cell.refs_hold {c : Cell} (h : c.inode.isSome = true) : c.hold.refs = c.refs + 1 := by
  obtain ⟨_ | i, _ | vn⟩ := c <;> simp_all [Cell.hold, Cell.refs]

theorem Cell.Sane.refs_release {c : Cell} {v : Ino} (h : c.Sane v) (hv : c.vnode.isSome = true) :
    c.release.refs = c.refs - 1 := by
  obtain ⟨i, vn⟩ := c
  obtain ⟨vn, rfl⟩ := Option.isSome_iff_exists.mp hv
  obtain ⟨i, rfl, -, hpos, -⟩ := h.core vn rfl
  simp only [Cell.release, Cell.refs]
  split <;> [rfl; (split <;> simp <;> omega)]

namespace Vfs

variable {s s' : Vfs} {v dir : Ino} {vn : Vnode} {i j : Inode} {es : List Dirent} {p : Pid}
  {f h : FileId} {a : File} {x : Option File} {name path dst : List Char} {len k : ℕ}
  {b : Option Ino} {t : FileType} {fd m n : ℤ} {buf : Page} {flag : Flags}

/-- The reference counts of the vnodes. -/
def refs (s : Vfs) (v : Ino) : ℤ := (s.cell v).refs

/-- The reference counts of the open files. -/
def counts (s : Vfs) (f : FileId) : ℤ := (s.files f).elim 0 File.fRefcount

/-- The vnode of an open file. -/
def node (s : Vfs) (f : FileId) : Option Ino := (s.files f).bind File.fVnode

/-- The slots of the descriptor tables. -/
def slots (s : Vfs) (a : Pid × ℕ) : Option FileId := (s.procs a.1).bind fun x ↦ x.pFiles a.2

/-- A routine has taken references to the vnode `x` and to the open file `f`, and has given
back no other ones than to `y` and to `g`. -/
@[mk_iff] structure Takes (s s' : Vfs) (x y : Option Ino := none) (f g : Option FileId := none) :
    Prop where
  sane : s'.Sane
  refs : ∀ v, s.refs v + one x v - one y v ≤ s'.refs v
  counts : ∀ h, s.counts h + one f h - one g h ≤ s'.counts h
  node : ∀ h, 0 < s.counts h → 0 < s'.counts h → s'.node h = s.node h
  procs : s'.procs = s.procs

/-- Every descriptor holds a reference. -/
def Held (s : Vfs) : Prop := ∀ a f, s.slots a = some f → 1 ≤ s.counts f

attribute [grind =] takes_iff Except.map Except.toOption Option.elim Option.bind

/-! ## Vnodes -/

/-- A routine that has changed one cell. -/
theorem takes_onCell {F : Cell → Cell} {x y : Option Ino} (hs : (s.onCell v F).Sane)
    (hv : s.refs v + one x v - one y v = (F (s.cell v)).refs)
    (hw : ∀ w ≠ v, one x w = one y w) : s.Takes (s.onCell v F) x y := by
  refine ⟨hs, fun w ↦ le_of_eq ?_, fun f ↦ by simp [counts, onCell], fun _ _ _ ↦ rfl, rfl⟩
  rcases eq_or_ne w v with rfl | hne
  · exact hv.trans (congrArg Cell.refs (cell_onCell s w F)).symm
  · simp [refs, cell_onCell_of_ne hne, hw w hne]

theorem takes_hold (hs : s.Sane) (hv : (s.inodes v).isSome = true) :
    s.Takes (s.hold v) (some v) :=
  takes_onCell (hs.hold hv) (by simp [refs, Cell.refs_hold (c := s.cell v) hv])
    fun w hw ↦ by simp [one_of_ne hw]

@[spec] theorem vref_spec : ⦃⌜s.Sane⌝⦄ s.vref v ⦃⇓? s' => ⌜s.Takes s' (some v)⌝⦄ := by
  refine triple_iff.mpr fun hs s' h ↦ ?_
  obtain ⟨vn, hvn, -⟩ := bind_follow h
  obtain ⟨ino, hino, -⟩ := hs.inode_of_vnode hvn
  rw [hs.vref_eq hvn] at h
  cases h
  exact takes_hold hs (by simp [hino])

@[spec] theorem vget_spec : ⦃⌜s.Sane⌝⦄ s.vget v ⦃⇓? s' => ⌜s.Takes s' (some v)⌝⦄ := by
  refine triple_iff.mpr fun hs s' h ↦ ?_
  rw [hs.vget_eq] at h
  split at h <;> cases h
  exact takes_hold hs ‹_›

@[spec] theorem vput_spec : ⦃⌜s.Sane⌝⦄ s.vput v ⦃⇓? s' => ⌜s.Takes s' none (some v)⌝⦄ := by
  refine triple_iff.mpr fun hs s' h ↦ ?_
  obtain ⟨vn, hvn, -⟩ := bind_follow h
  rw [hs.vput_eq hvn] at h
  cases h
  exact takes_onCell (hs.release v)
    (by simp [refs, (hs.cell v).refs_release (by simp [cell, hvn])])
    fun w hw ↦ by simp [one_of_ne hw]

/-! ## Inodes -/

/-- An inode changes; in core it keeps its type, and a file its size. -/
theorem takes_setInode (hs : s.Sane) (hi : s.inodes v = some i) (hj : j.rfIno = i.rfIno)
    (hes : ∀ es, j.rfMem = .dir es → es.length = ramfsMaxDirent)
    (hv : s.vnodes v ≠ none → j.rfMem.type = i.rfMem.type ∧
      (j.rfMem.type = .reg → j.rfSize = i.rfSize))
    (hl : s.vnodes v = none → j.rfLinkcount ≠ 0) : s.Takes (s.setInode v (some j)) := by
  have hc := hs.cell v
  rw [setInode_eq_onCell]
  refine takes_onCell (hs.onCell ?_) (by simp [refs, Cell.refs]) fun _ _ ↦ rfl
  constructor <;> grind [cell, Cell.Sane]

/-- The contents of a file change in core. -/
theorem takes_write (hs : s.Sane) (hi : s.inodes v = some i) (hn : s.vnodes v = some vn)
    (hj : j.rfIno = i.rfIno) (ht : j.rfMem.type = i.rfMem.type) (hes : ∀ es, j.rfMem ≠ .dir es) :
    s.Takes ((s.setInode v (some j)).setVnode v (some { vn with vnLen := j.rfSize })) := by
  have hc := hs.cell v
  refine takes_onCell (F := fun _ ↦ ⟨some j, some { vn with vnLen := j.rfSize }⟩) (hs.onCell ?_)
    (by simp [refs, Cell.refs, cell, hn]) fun _ _ ↦ rfl
  constructor <;> grind [cell, Cell.Sane]

theorem takes_oracle (hs : s.Sane) (o : Allocator → List Bool) : s.Takes { s with oracle := o } :=
  ⟨⟨hs.cell, hs.fresh⟩, fun v ↦ (by simp; rfl), fun f ↦ (by simp; rfl), fun _ _ _ ↦ rfl, rfl⟩

/-- A new inode is out of core. -/
theorem takes_alloc (hs : s.Sane) (t : FileType) (k : ℕ) : s.Takes (s.ramfsAllocInode t k).1 ∧
    ∀ i, (s.ramfsAllocInode t k).2 = .ok i → (s.ramfsAllocInode t k).1.vnodes i = none := by
  unfold ramfsAllocInode
  split
  · exact ⟨takes_oracle hs s.oracle, by simp⟩
  next n hn =>
  have hfree : s.inodes n = none := by simpa using List.find?_some hn
  have hnew (o) : s.Takes
      ({ s with oracle := o }.setInode n (some { rfIno := n, rfMem := .init k t })) := by
    have ho := takes_oracle hs o
    exact { ho with sane := ho.sane.setInode_new hfree (Inode.new_init n k t) }
  have hv (i) : .ok n = (.ok i : Except Errno Ino) → s.vnodes i = none := by
    rintro ⟨⟩
    exact hs.vnodes_eq_none hfree
  cases t <;> simp only <;> split_ifs <;>
    first | exact ⟨hnew _, hv⟩ | exact ⟨takes_oracle hs _, by simp⟩

@[grind →] theorem Sane.linked (hs : s.Sane) (hi : s.inodes v = some i) (hv : s.vnodes v = none) :
    i.rfLinkcount ≠ 0 :=
  (hs.cell v).out i hi hv

@[grind →] theorem Sane.slots (hs : s.Sane) (hi : s.inodes v = some i) (hes : i.rfMem = .dir es) :
    es.length = ramfsMaxDirent :=
  (hs.cell v).entries i es hi hes

@[spec] theorem toInode_spec : ⦃⌜True⌝⦄ s.toInode v
    ⦃⇓? i => ⌜s.inodes v = some i ∧ s.vnodes v ≠ none⌝⦄ := by
  mvcgen [toInode]
  grind

@[spec] theorem toDirent_spec : ⦃⌜s.Sane⌝⦄ s.toDirent v ⦃⇓? es => ⌜es.length = ramfsMaxDirent ∧
    s.vnodes v ≠ none ∧ ∃ i, s.inodes v = some i ∧ i.rfMem = .dir es⌝⦄ := by
  mvcgen [toDirent]
  grind

@[spec] theorem setDirent_spec : ⦃⌜s.Sane ∧ es.length = ramfsMaxDirent ∧
    ∃ i es', s.inodes v = some i ∧ i.rfMem = .dir es'⌝⦄ s.setDirent v es n
    ⦃⇓? s' => ⌜s.Takes s' ∧ s'.vnodes = s.vnodes⌝⦄ := by
  mvcgen [setDirent]
  grind [takes_setInode, RfMem.type, setInode]

@[spec] theorem addLinks_spec : ⦃⌜s.Sane⌝⦄ s.addLinks v n ⦃⇓? s' => ⌜s.Takes s'⌝⦄ := by
  mvcgen [addLinks]
  grind [takes_setInode]

@[spec] theorem ramfsEnter_spec : ⦃⌜s.Sane⌝⦄ s.ramfsEnter dir k v name len
    ⦃⇓? s' => ⌜s.Takes s' ∧ s'.vnodes = s.vnodes⌝⦄ := by
  mvcgen [ramfsEnter]
  grind

@[spec] theorem ramfsRemove_spec : ⦃⌜s.Sane⌝⦄ s.ramfsRemove dir name len v
    ⦃⇓? s' => ⌜s.Takes s' none (some v)⌝⦄ := by
  mvcgen [ramfsRemove] <;> grind [clearSlot]

/-! ## The operations of ramfs, and paths -/

@[spec] theorem ramfsLookup_spec : ⦃⌜s.Sane⌝⦄ s.ramfsLookup dir name len
    ⦃⇓? r => ⌜s.Takes r.1 r.2.toOption⌝⦄ := by
  mvcgen [ramfsLookup]
  grind

@[spec] theorem lookup_spec : ⦃⌜s.Sane⌝⦄ s.lookup dir name len
    ⦃⇓? r => ⌜s.Takes r.1 r.2.toOption⌝⦄ := by
  mvcgen [lookup]
  grind

@[spec] theorem ramfsPlace_spec : ⦃⌜True⌝⦄ s.ramfsPlace dir name len ⦃⇓? _ => ⌜True⌝⦄ :=
  triple_iff.mpr fun _ _ _ ↦ trivial

@[spec] theorem ramfsCreate_spec : ⦃⌜s.Sane⌝⦄ s.ramfsCreate dir name len
    ⦃⇓? r => ⌜s.Takes r.1 r.2.toOption⌝⦄ := by
  mvcgen [ramfsCreate] <;> grind [takes_alloc]

@[spec] theorem ramfsMknod_spec : ⦃⌜s.Sane⌝⦄ s.ramfsMknod dir name len t k
    ⦃⇓? r => ⌜s.Takes r.1⌝⦄ := by
  mvcgen [ramfsMknod] <;> grind [takes_alloc]

@[spec] theorem ramfsMkdir_spec : ⦃⌜s.Sane⌝⦄ s.ramfsMkdir dir name len ⦃⇓? r => ⌜s.Takes r.1⌝⦄ := by
  mvcgen [ramfsMkdir] <;> grind [takes_alloc, takes_setInode, newDir]

@[spec] theorem ramfsLink_spec : ⦃⌜s.Sane⌝⦄ s.ramfsLink v dir name len
    ⦃⇓? r => ⌜s.Takes r.1⌝⦄ := by
  mvcgen [ramfsLink] <;> grind

@[spec] theorem ramfsUnlink_spec : ⦃⌜s.Sane⌝⦄ s.ramfsUnlink dir name len
    ⦃⇓? s' => ⌜s.Takes s'⌝⦄ := by
  mvcgen [ramfsUnlink] <;> grind

@[spec] theorem ramfsRmdir_spec : ⦃⌜s.Sane⌝⦄ s.ramfsRmdir dir name len ⦃⇓? r => ⌜s.Takes r.1⌝⦄ := by
  mvcgen [ramfsRmdir] <;> grind

@[spec] theorem ramfsWrite_spec : ⦃⌜s.Sane⌝⦄ s.ramfsWrite v n buf flag ⦃⇓? r => ⌜s.Takes r.1⌝⦄ := by
  mvcgen [ramfsWrite, writePage]
  next hs _ hn i page hpage _ hi _ _ _ _ _ =>
    exact takes_write hs hi.1 hn rfl (by rw [hpage]; rfl) (by simp)

@[spec] theorem ramfsMount_spec : ⦃⌜s.Sane⌝⦄ s.ramfsMount ⦃⇓? r => ⌜s.Takes r.1⌝⦄ := by
  mvcgen [ramfsMount] <;> grind [one_cases, takes_alloc, takes_oracle, takes_setInode, newDir, draw]

theorem dirNamevLoop_spec (k : ℕ) : ⦃⌜s.Sane⌝⦄ dirNamevLoop k s dir path
    ⦃⇓? r => ⌜s.Takes r.1 (r.2.map Named.resVnode).toOption (some dir)⌝⦄ := by
  induction k generalizing s dir path with
  | zero => mvcgen [dirNamevLoop]
  | succ k ih => mvcgen [dirNamevLoop, ih] <;> grind

@[spec] theorem dirNamev_spec : ⦃⌜s.Sane⌝⦄ s.dirNamev p path b
    ⦃⇓? r => ⌜s.Takes r.1 (r.2.map Named.resVnode).toOption⌝⦄ := by
  mvcgen [dirNamev, dirNamevLoop_spec] <;> grind

@[spec] theorem openNamev_spec : ⦃⌜s.Sane⌝⦄ s.openNamev p path flag b
    ⦃⇓? r => ⌜s.Takes r.1 r.2.toOption⌝⦄ := by
  mvcgen [openNamev] <;> grind

/-! ## Open files -/

@[grind =] theorem counts_setFile :
    (s.setFile f x).counts h = if h = f then x.elim 0 File.fRefcount else s.counts h := by
  by_cases hf : h = f <;> simp [counts, hf]

@[grind =] theorem node_setFile :
    (s.setFile f x).node h = if h = f then x.bind File.fVnode else s.node h := by
  by_cases hf : h = f <;> simp [node, hf]

@[grind =] theorem refs_setFile : (s.setFile f x).refs v = s.refs v := rfl

@[grind =] theorem procs_setFile : (s.setFile f x).procs = s.procs := rfl

@[grind =] theorem slots_setFile : (s.setFile f x).slots = s.slots := rfl

theorem Sane.clear (hs : s.Sane) : (s.setFile f none).Sane :=
  ⟨hs.cell, fun h hh ↦ by rw [setFile_files, update_apply, hs.fresh h hh, ite_self]⟩

@[grind →] theorem Sane.file (hs : s.Sane) (ha : s.files f = some a) :
    s.counts f = a.fRefcount ∧ s.node f = a.fVnode ∧ ∀ x, (s.setFile f x).Sane := by
  refine ⟨by simp [counts, ha], by simp [node, ha], fun x ↦ ⟨hs.cell, fun h hh ↦ ?_⟩⟩
  have hne : h ≠ f := by
    rintro rfl
    simp [hs.fresh h hh] at ha
  rw [setFile_files, update_of_ne hne, hs.fresh h hh]

@[spec] theorem fref_spec : ⦃⌜s.Sane⌝⦄ s.fref f ⦃⇓? s' => ⌜s.Takes s' none none (some f)⌝⦄ := by
  mvcgen [fref]
  grind [one_cases]

@[spec] theorem fput_spec : ⦃⌜s.Sane⌝⦄ s.fput f ⦃⇓? s' =>
    ⌜s.Takes s' none (if s.counts f = 1 then s.node f else none) none (some f)⌝⦄ := by
  mvcgen [fput] <;> grind [one_cases, Sane.clear]

@[spec] theorem fgetNew_spec : ⦃⌜s.Sane⌝⦄ s.fgetNew ⦃⇓? r => ⌜s.Takes r.1 none none r.2 ∧
    ∀ f, r.2 = some f → s.counts f = 0 ∧ r.1.node f = none⌝⦄ := by
  refine triple_iff.mpr fun hs r h ↦ ?_
  rw [fgetNew_eq] at h
  have hnext := hs.fresh s.next le_rfl
  split at h <;> cases h
  · refine ⟨⟨hs.newFile _, fun v ↦ by simp; rfl, fun g ↦ ?_, fun g hg _ ↦ ?_, rfl⟩,
      by simp [counts, node, hnext, blank]⟩
    all_goals rcases eq_or_ne g s.next with rfl | hg <;>
      simp_all [counts, node, blank, one_of_ne]
  · exact ⟨takes_oracle hs _, by simp⟩

@[grind →] theorem slots_of_slot (h : s.slot p fd = some f) : s.slots (p, fd.toNat) = some f := by
  unfold slot at h
  split at h
  · cases h
  · exact h

@[grind →] theorem slots_congr (h : s'.procs = s.procs) : s'.slots = s.slots := by
  unfold slots
  rw [h]

@[grind →] theorem Held.pos {a : Pid × ℕ} (h : s.Held) (hf : s.slots a = some f) :
    1 ≤ s.counts f :=
  h a f hf

@[grind →] theorem Held.of_takes {x y : Option Ino} {g : Option FileId} (h : s.Held)
    (ht : s.Takes s' x y g) : s'.Held := by
  intro a f ha
  rw [slots_congr ht.procs] at ha
  grind [one_cases]

/-! ## The calls that keep the tables of the processes -/

@[spec] theorem vnRead_spec : ⦃⌜True⌝⦄ s.vnRead v n flag ⦃⇓? _ => ⌜True⌝⦄ :=
  triple_iff.mpr fun _ _ _ ↦ trivial

@[spec] theorem vnWrite_spec : ⦃⌜s.Sane⌝⦄ s.vnWrite v n buf flag ⦃⇓? r => ⌜s.Takes r.1⌝⦄ := by
  mvcgen [vnWrite]
  grind

@[spec] theorem doRead_spec : ⦃⌜s.Sane ∧ s.Held⌝⦄ s.doRead p fd flag ⦃⇓? r => ⌜s.Takes r.1⌝⦄ := by
  mvcgen [doRead] <;> grind [one_cases]

@[spec] theorem doLseek_spec : ⦃⌜s.Sane ∧ s.Held⌝⦄ s.doLseek p fd m n ⦃⇓? r => ⌜s.Takes r.1⌝⦄ := by
  mvcgen [doLseek, fileLen] <;> grind [one_cases]

@[spec] theorem writePos_spec : ⦃⌜s.Sane ∧ s.Held⌝⦄ s.writePos p fd flag
    ⦃⇓? r => ⌜s.Takes r.1⌝⦄ := by
  mvcgen [writePos] <;> grind

@[spec] theorem doWrite_spec : ⦃⌜s.Sane ∧ s.Held⌝⦄ s.doWrite p fd buf flag
    ⦃⇓? r => ⌜s.Takes r.1⌝⦄ := by
  mvcgen [doWrite] <;> grind [one_cases]

@[spec] theorem doGetdent_spec : ⦃⌜s.Sane ∧ s.Held⌝⦄ s.doGetdent p fd
    ⦃⇓? r => ⌜s.Takes r.1⌝⦄ := by
  mvcgen [doGetdent, ramfsReaddir] <;> grind [one_cases]

@[spec] theorem doMknod_spec : ⦃⌜s.Sane⌝⦄ s.doMknod p path m k ⦃⇓? r => ⌜s.Takes r.1⌝⦄ := by
  mvcgen [doMknod] <;> grind

@[spec] theorem doMkdir_spec : ⦃⌜s.Sane⌝⦄ s.doMkdir p path ⦃⇓? r => ⌜s.Takes r.1⌝⦄ := by
  mvcgen [doMkdir] <;> grind

@[spec] theorem doRmdir_spec : ⦃⌜s.Sane⌝⦄ s.doRmdir p path ⦃⇓? r => ⌜s.Takes r.1⌝⦄ := by
  mvcgen [doRmdir] <;> grind

@[spec] theorem doUnlink_spec : ⦃⌜s.Sane⌝⦄ s.doUnlink p path ⦃⇓? r => ⌜s.Takes r.1⌝⦄ := by
  mvcgen [doUnlink] <;> grind

@[spec] theorem doStat_spec : ⦃⌜s.Sane⌝⦄ s.doStat p path ⦃⇓? r => ⌜s.Takes r.1⌝⦄ := by
  mvcgen [doStat, ramfsStat] <;> grind

@[spec] theorem doLink_spec : ⦃⌜s.Sane⌝⦄ s.doLink p path dst ⦃⇓? r => ⌜s.Takes r.1⌝⦄ := by
  mvcgen [doLink] <;> grind [one_cases]

end Vfs

end CS402.Fs

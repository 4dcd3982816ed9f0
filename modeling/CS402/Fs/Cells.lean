import CS402.Fs.Syscall

/-!
# Taking and giving back references

For every inode number the tables hold a *cell*: the inode, and the vnode if the inode
is in core.  A reference to a vnode is taken by `vget` or `vref` and given back by `vput`,
and each of them changes one cell.  On cells they are the total functions `Cell.hold` and
`Cell.release`, and what the routines of the file system do to the tables becomes a
calculation with functions on cells: those on different cells commute, and on one cell

  `release (edit F (hold c)) = settle (edit F c)`,

where `edit F` changes an inode and `settle` frees an inode that is out of core and has no
link.  In a cell that keeps the invariant `Cell.Sane` there is nothing to
settle, so a reference that is taken and given back leaves no trace.
-/

namespace CS402.Fs

open CS402.Lib Function

variable {s s' : Vfs} {v w d : Ino} {vn : Vnode} {ino : Inode}

/-! ## Cells -/

/-- Change the entries of a directory; other inodes have none. -/
def RfMem.mapDir (f : List Dirent → List Dirent) : RfMem → RfMem
  | .dir es => .dir (f es)
  | m => m

/-- By how much the size of a directory grows. -/
def RfMem.growth (grow : ℤ) : RfMem → ℤ
  | .dir _ => grow
  | _ => 0

@[simp] theorem RfMem.type_mapDir (f : List Dirent → List Dirent) (m : RfMem) :
    (m.mapDir f).type = m.type := by
  cases m <;> rfl

/-- Change the entries and the size of a directory. -/
def Inode.editDir (f : List Dirent → List Dirent) (grow : ℤ) (i : Inode) : Inode :=
  { i with
    rfMem := i.rfMem.mapDir f
    rfSize := i.rfSize + i.rfMem.growth grow }

/-- Change the number of links. -/
def Inode.addLinks (n : ℤ) (i : Inode) : Inode := { i with rfLinkcount := i.rfLinkcount + n }

/-- What the tables hold for an inode number. -/
@[ext] structure Cell where
  inode : Option Inode
  vnode : Option Vnode

namespace Cell

variable {c : Cell}

/-- A reference is taken. -/
def hold : Cell → Cell
  | ⟨i, some vn⟩ => ⟨i, some { vn with vnRefcount := vn.vnRefcount + 1 }⟩
  | ⟨some i, none⟩ => ⟨some { i with rfLinkcount := i.rfLinkcount + 1 },
      some ⟨1, i.rfMem.type, i.rfSize⟩⟩
  | ⟨none, none⟩ => ⟨none, none⟩

/-- A reference is given back. -/
def release : Cell → Cell
  | ⟨some i, some vn⟩ =>
    if 0 < vn.vnRefcount - 1 then ⟨some i, some { vn with vnRefcount := vn.vnRefcount - 1 }⟩
    else if i.rfLinkcount - 1 = 0 then ⟨none, none⟩
    else ⟨some { i with rfLinkcount := i.rfLinkcount - 1 }, none⟩
  | c => c

/-- An inode that is out of core and has no link is freed. -/
def settle : Cell → Cell
  | ⟨some i, none⟩ => if i.rfLinkcount = 0 then ⟨none, none⟩ else ⟨some i, none⟩
  | c => c

/-- The inode is changed. -/
def edit (f : Inode → Inode) (c : Cell) : Cell := ⟨c.inode.map f, c.vnode⟩

/-- What holds of a cell in every state of the file system. -/
structure Sane (v : Ino) (c : Cell) : Prop where
  ino : ∀ i, c.inode = some i → i.rfIno = v
  entries : ∀ i es, c.inode = some i → i.rfMem = .dir es → es.length = ramfsMaxDirent
  core : ∀ vn, c.vnode = some vn → ∃ i, c.inode = some i ∧ vn.vnMode = i.rfMem.type ∧
    0 < vn.vnRefcount ∧ (vn.vnMode = .reg → vn.vnLen = i.rfSize)
  out : ∀ i, c.inode = some i → c.vnode = none → i.rfLinkcount ≠ 0

theorem settle_of_out (h : ∀ i, c.inode = some i → c.vnode = none → i.rfLinkcount ≠ 0) :
    c.settle = c := by
  obtain ⟨i, vn⟩ := c
  cases i with
  | none => rfl
  | some i =>
    cases vn with
    | some vn => rfl
    | none => exact if_neg (h i rfl rfl)

theorem Sane.settle_eq (h : c.Sane v) : c.settle = c := settle_of_out h.out

/-- A change of the entries that keeps the number of slots. -/
def KeepsSlots (f : List Dirent → List Dirent) : Prop :=
  ∀ es : List Dirent, es.length = ramfsMaxDirent → (f es).length = ramfsMaxDirent

/-- A change that a sane inode stands: its number, its type, the number of slots and the size
of a file are kept, and the links are not looked at. -/
structure Keeps (F : Inode → Inode) : Prop where
  ino : ∀ i, (F i).rfIno = i.rfIno
  type : ∀ i, (F i).rfMem.type = i.rfMem.type
  slots : ∀ i, (∀ es, i.rfMem = .dir es → es.length = ramfsMaxDirent) →
    ∀ es, (F i).rfMem = .dir es → es.length = ramfsMaxDirent
  size : ∀ i, i.rfMem.type = .reg → (F i).rfSize = i.rfSize
  links : ∀ i, F (i.addLinks 1) = (F i).addLinks 1

theorem Keeps.id : Keeps id :=
  ⟨fun _ ↦ rfl, fun _ ↦ rfl, fun _ h ↦ h, fun _ _ ↦ rfl, fun _ ↦ rfl⟩

theorem Keeps.addLinks (n : ℤ) : Keeps (Inode.addLinks n) :=
  ⟨fun _ ↦ rfl, fun _ ↦ rfl, fun _ h ↦ h, fun _ _ ↦ rfl,
    fun _ ↦ by simp [Inode.addLinks, Int.add_right_comm]⟩

theorem Keeps.editDir {f : List Dirent → List Dirent} (hf : KeepsSlots f) (grow : ℤ) :
    Keeps (Inode.editDir f grow) where
  ino _ := rfl
  type i := by simp [Inode.editDir]
  slots i h es hes := by
    cases hm : i.rfMem with
    | dir es' =>
      simp only [Inode.editDir, hm, RfMem.mapDir] at hes
      cases hes
      exact hf es' (h es' hm)
    | _ => simp [Inode.editDir, RfMem.mapDir, hm] at hes
  size i hreg := by
    cases hm : i.rfMem with
    | dir es' => simp [hm, RfMem.type] at hreg
    | _ => simp [Inode.editDir, RfMem.growth, hm]
  links _ := rfl

variable {F G : Inode → Inode}

theorem Keeps.comp (hF : Keeps F) (hG : Keeps G) : Keeps fun i ↦ G (F i) where
  ino i := (hG.ino _).trans (hF.ino i)
  type i := (hG.type _).trans (hF.type i)
  slots i h := hG.slots _ (hF.slots i h)
  size i hreg := (hG.size _ ((hF.type i).trans hreg)).trans (hF.size i hreg)
  links i := by rw [hF.links, hG.links]

theorem release_edit_hold (hF : Keeps F)
    (h : ∀ vn, c.vnode = some vn → c.inode.isSome = true ∧ 0 < vn.vnRefcount) :
    (c.hold.edit F).release = (c.edit F).settle := by
  obtain ⟨i, vn⟩ := c
  cases vn with
  | some vn =>
    obtain ⟨hi, hpos⟩ := h vn rfl
    obtain ⟨i, rfl⟩ := Option.isSome_iff_exists.mp hi
    simp only [hold, release, settle, edit, Option.map_some]
    rw [if_pos (by omega)]
    simp
  | none =>
    cases i with
    | none => rfl
    | some i =>
      have hlinks := hF.links i
      unfold Inode.addLinks at hlinks
      simp [hold, release, settle, edit, hlinks]

theorem Sane.held (h : c.Sane v) (vn : Vnode) (hvn : c.vnode = some vn) :
    c.inode.isSome = true ∧ 0 < vn.vnRefcount := by
  obtain ⟨i, hi, -, hpos, -⟩ := h.core vn hvn
  exact ⟨by simp [hi], hpos⟩

theorem Sane.release_hold (h : c.Sane v) : c.hold.release = c := by
  have hrel := release_edit_hold .id h.held
  unfold edit at hrel
  rw [Option.map_id] at hrel
  exact hrel.trans h.settle_eq

theorem Sane.edit (h : c.Sane v) (hF : Keeps F)
    (hout : ∀ i, c.inode = some i → c.vnode = none → (F i).rfLinkcount ≠ 0) :
    (c.edit F).Sane v where
  ino i hi := by
    obtain ⟨j, hj, rfl⟩ := Option.map_eq_some_iff.mp hi
    exact (hF.ino j).trans (h.ino j hj)
  entries i es hi hes := by
    obtain ⟨j, hj, rfl⟩ := Option.map_eq_some_iff.mp hi
    exact hF.slots j (fun es ↦ h.entries j es hj) es hes
  core vn hvn := by
    obtain ⟨i, hi, hmode, hpos, hlen⟩ := h.core vn hvn
    refine ⟨F i, by simp [Cell.edit, hi], hmode.trans (hF.type i).symm, hpos, fun hreg ↦ ?_⟩
    rw [hlen hreg, hF.size i (hmode ▸ hreg)]
  out i hi hvn := by
    obtain ⟨j, hj, rfl⟩ := Option.map_eq_some_iff.mp hi
    exact hout j hj hvn

theorem sane_none : Sane v ⟨none, none⟩ := by
  refine ⟨?_, ?_, ?_, ?_⟩ <;> intro _ <;> simp

theorem sane_out {i : Inode} (hino : i.rfIno = v)
    (hes : ∀ es, i.rfMem = .dir es → es.length = ramfsMaxDirent) (hlinks : i.rfLinkcount ≠ 0) :
    Sane v ⟨some i, none⟩ := by
  refine ⟨?_, ?_, ?_, ?_⟩
  · intro j hj
    cases hj
    exact hino
  · intro j es hj
    cases hj
    exact hes es
  · intro vn hvn
    cases hvn
  · intro j hj _
    cases hj
    exact hlinks

theorem Sane.settle_edit (h : c.Sane v) (hF : Keeps F) : ((c.edit F).settle).Sane v := by
  by_cases hout : ∀ i, c.inode = some i → c.vnode = none → (F i).rfLinkcount ≠ 0
  · have hsane := h.edit hF hout
    rw [hsane.settle_eq]
    exact hsane
  · push Not at hout
    obtain ⟨i, hi, hvn, hzero⟩ := hout
    obtain ⟨_, _⟩ := c
    cases hi
    cases hvn
    simpa [Cell.edit, Cell.settle, hzero] using sane_none

theorem Sane.hold (h : c.Sane v) (hi : c.inode.isSome = true) : c.hold.Sane v := by
  obtain ⟨i, vn⟩ := c
  obtain ⟨i, rfl⟩ := Option.isSome_iff_exists.mp hi
  cases vn with
  | some vn =>
    refine ⟨h.ino, h.entries, ?_, ?_⟩
    · intro vn' hvn'
      cases hvn'
      obtain ⟨i', hi', hmode, hpos, hlen⟩ := h.core vn rfl
      exact ⟨i', hi', hmode, by simp only; omega, hlen⟩
    · intro i' _ hnone
      cases hnone
  | none =>
    refine ⟨?_, ?_, ?_, ?_⟩
    · intro i' hi'
      cases hi'
      exact h.ino i rfl
    · intro i' es hi' hes
      cases hi'
      exact h.entries i es rfl hes
    · intro vn' hvn'
      cases hvn'
      exact ⟨_, rfl, rfl, by simp, fun _ ↦ rfl⟩
    · intro i' _ hnone
      cases hnone

theorem Sane.release (h : c.Sane v) : c.release.Sane v := by
  obtain ⟨i, vn⟩ := c
  cases vn with
  | none => cases i <;> exact h
  | some vn =>
    obtain ⟨i', hi', hmode, hpos, hlen⟩ := h.core vn rfl
    cases hi'
    simp only [Cell.release]
    split
    · refine ⟨h.ino, h.entries, ?_, ?_⟩
      · intro vn' hvn'
        cases hvn'
        exact ⟨i', rfl, hmode, by simp only; omega, hlen⟩
      · intro _ _ hnone
        cases hnone
    · split
      · exact sane_none
      · next hne => exact sane_out (h.ino i' rfl) (fun es ↦ h.entries i' es rfl) hne

end Cell

/-! ## Cells of a state -/

namespace Vfs

/-- The cell of an inode number. -/
def cell (s : Vfs) (v : Ino) : Cell := ⟨s.inodes v, s.vnodes v⟩

/-- Change a cell. -/
def onCell (s : Vfs) (v : Ino) (f : Cell → Cell) : Vfs :=
  (s.setInode v (f (s.cell v)).inode).setVnode v (f (s.cell v)).vnode

/-- Take a reference. -/
def hold (s : Vfs) (v : Ino) : Vfs := s.onCell v Cell.hold

/-- Give a reference back. -/
def release (s : Vfs) (v : Ino) : Vfs := s.onCell v Cell.release

/-- Change an inode. -/
def editInode (s : Vfs) (v : Ino) (f : Inode → Inode) : Vfs := s.onCell v (Cell.edit f)

/-- Free an inode that nothing keeps. -/
def settle (s : Vfs) (v : Ino) : Vfs := s.onCell v Cell.settle

/-- Every cell keeps the invariant, and the names of files from `next` on are unused. -/
structure Sane (s : Vfs) : Prop where
  cell : ∀ v, (s.cell v).Sane v
  fresh : ∀ f, s.next ≤ f → s.files f = none

section

variable {f g : Cell → Cell}

theorem cell_onCell (s : Vfs) (v : Ino) (f : Cell → Cell) :
    (s.onCell v f).cell v = f (s.cell v) := by
  simp [onCell, cell]

theorem cell_onCell_of_ne (h : w ≠ v) : (s.onCell v f).cell w = s.cell w := by
  simp [onCell, cell, h]

theorem onCell_eq_self (h : f (s.cell v) = s.cell v) : s.onCell v f = s := by
  unfold onCell
  rw [h]
  simp [cell, setInode, setVnode]

theorem onCell_congr (h : f (s.cell v) = g (s.cell v)) : s.onCell v f = s.onCell v g := by
  unfold onCell
  rw [h]

theorem onCell_onCell (s : Vfs) (v : Ino) (f g : Cell → Cell) :
    (s.onCell v f).onCell v g = s.onCell v fun c ↦ g (f c) := by
  unfold onCell
  simp [cell, setInode, setVnode]

theorem onCell_comm (h : v ≠ w) (s : Vfs) (f g : Cell → Cell) :
    (s.onCell v f).onCell w g = (s.onCell w g).onCell v f := by
  unfold onCell
  simp [cell, setInode, setVnode, h, h.symm, update_comm h]

@[simp] theorem hold_files (s : Vfs) (v : Ino) : (s.hold v).files = s.files := rfl

end

theorem cell_hold (s : Vfs) (v : Ino) : (s.hold v).cell v = (s.cell v).hold :=
  cell_onCell s v _

theorem cell_hold_of_ne (h : w ≠ v) : (s.hold v).cell w = s.cell w := cell_onCell_of_ne h

theorem hold_comm (s : Vfs) (v w : Ino) : (s.hold v).hold w = (s.hold w).hold v := by
  rcases eq_or_ne v w with rfl | h
  · rfl
  · exact onCell_comm h s _ _

/-! ## The invariant -/

theorem Sane.onCell {f : Cell → Cell} (h : s.Sane) (hf : (f (s.cell v)).Sane v) :
    (s.onCell v f).Sane where
  cell w := by
    rcases eq_or_ne w v with rfl | hw
    · rw [cell_onCell]
      exact hf
    · rw [cell_onCell_of_ne hw]
      exact h.cell w
  fresh := h.fresh

theorem Sane.hold (h : s.Sane) (hv : (s.inodes v).isSome = true) : (s.hold v).Sane :=
  h.onCell ((h.cell v).hold hv)

theorem Sane.release (h : s.Sane) (v : Ino) : (s.release v).Sane :=
  h.onCell (h.cell v).release

theorem Sane.inode_of_vnode (h : s.Sane) (hv : s.vnodes v = some vn) :
    ∃ ino, s.inodes v = some ino ∧ vn.vnMode = ino.rfMem.type ∧ 0 < vn.vnRefcount ∧
      (vn.vnMode = .reg → vn.vnLen = ino.rfSize) :=
  (h.cell v).core vn hv

theorem Sane.release_hold (h : s.Sane) (v : Ino) : (s.hold v).release v = s := by
  unfold Vfs.release Vfs.hold
  rw [onCell_onCell]
  exact onCell_eq_self (h.cell v).release_hold

/-! ## The routines of `vnode.c` -/

theorem vnodes_hold_self (hv : (s.inodes v).isSome = true) : ∃ vn, (s.hold v).vnodes v = some vn := by
  obtain ⟨ino, hino⟩ := Option.isSome_iff_exists.mp hv
  cases hvn : s.vnodes v with
  | none => simp [Vfs.hold, Vfs.onCell, cell, hino, hvn, Cell.hold]
  | some vn => simp [Vfs.hold, Vfs.onCell, cell, hvn, Cell.hold]

theorem isSome_inodes_hold (s : Vfs) (v w : Ino) :
    ((s.hold v).inodes w).isSome = (s.inodes w).isSome := by
  rcases eq_or_ne w v with rfl | hw
  · have h : (s.hold w).inodes w = (s.cell w).hold.inode := congrArg Cell.inode (s.cell_hold w)
    rw [h, cell]
    cases s.inodes w <;> cases s.vnodes w <;> rfl
  · exact congrArg (fun c : Cell ↦ c.inode.isSome) (cell_hold_of_ne hw)

theorem isSome_hold (hw : (s.inodes w).isSome = true) (v : Ino) :
    ((s.hold v).inodes w).isSome = true :=
  (isSome_inodes_hold s v w).trans hw

theorem vref_eq (hv : s.vnodes v = some vn) (hpos : 0 < vn.vnRefcount) :
    s.vref v = .ok (s.hold v) := by
  unfold vref
  rw [hv, follow_bind, demand_bind hpos]
  congr 1
  simp [Vfs.hold, onCell, cell, hv, Cell.hold, setInode, setVnode]

theorem Sane.vref_eq (h : s.Sane) (hv : s.vnodes v = some vn) : s.vref v = .ok (s.hold v) := by
  obtain ⟨-, -, -, hpos, -⟩ := h.inode_of_vnode hv
  exact Vfs.vref_eq hv hpos

theorem Sane.vget_eq (h : s.Sane) (v : Ino) :
    s.vget v = if (s.inodes v).isSome = true then .ok (s.hold v) else .error .staleInode := by
  unfold vget
  cases hv : s.vnodes v with
  | some vn =>
    obtain ⟨ino, hino, -⟩ := h.inode_of_vnode hv
    rw [if_pos (by simp [hino])]
    exact h.vref_eq hv
  | none =>
    cases hino : s.inodes v with
    | none => simp [ramfsReadVnode, hino]
    | some ino =>
      have hid := (h.cell v).ino ino hino
      simp only [ramfsReadVnode, hino, follow_bind, demand_pos hid, Option.isSome_some,
        if_true]
      simp [Vfs.hold, Vfs.onCell, Vfs.cell, hv, hino, Cell.hold, setInode, setVnode, pure,
        Except.pure]

theorem Sane.vput_eq (h : s.Sane) (hv : s.vnodes v = some vn) : s.vput v = .ok (s.release v) := by
  obtain ⟨ino, hino, -, hpos, -⟩ := h.inode_of_vnode hv
  unfold vput
  rw [hv, follow_bind, demand_bind hpos]
  have hcell : s.cell v = ⟨some ino, some vn⟩ := by simp [Vfs.cell, hino, hv]
  unfold Vfs.release Vfs.onCell
  rw [hcell]
  simp only [Cell.release]
  split
  · simp [setInode, setVnode, hino, pure, Except.pure]
  · simp only [ramfsDeleteVnode, hino, follow_bind]
    split <;> simp [pure, Except.pure]

theorem Sane.vput_hold (h : s.Sane) (hv : (s.inodes v).isSome = true) :
    (s.hold v).vput v = .ok s := by
  obtain ⟨vn, hvn⟩ := vnodes_hold_self hv
  rw [(h.hold hv).vput_eq hvn, h.release_hold]

theorem Sane.vput_hold_hold (h : s.Sane) (hv : (s.inodes v).isSome = true)
    (hw : (s.inodes w).isSome = true) : ((s.hold v).hold w).vput v = .ok (s.hold w) := by
  rw [hold_comm]
  exact (h.hold hw).vput_hold (isSome_hold hv w)

end Vfs

end CS402.Fs

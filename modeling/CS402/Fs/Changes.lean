import CS402.Fs.Resolve

/-!
# Entries, links and references

The changes that a call makes to directories and inodes, as functions on the state:
`Vfs.make` enters a new inode in a directory, `Vfs.bindTo` enters an inode that is there,
and `Vfs.unbind` takes an entry out.  The operations of ramfs make these changes while the
directory and the inode are held, and the lemmas of this file say what is left when the
references have been given back.
-/

namespace CS402.Fs

open CS402.Lib Function

variable {s s' : Vfs} {v w d n : Ino} {vn : Vnode} {ino : Inode} {p : Pid}
  {name path : List Char} {len i : ℕ} {es : List Dirent}

/-! ## Slots -/

theorem length_clearSlot (es : List Dirent) (i : ℕ) : (clearSlot es i).length = es.length := by
  simp [clearSlot]

theorem slotOf_eq_some {e : Dirent} (h : es.find? (fun e ↦ nameMatch e.rdName name len) = some e) :
    ∃ i, slotOf es name len = some i := by
  rw [← Option.isSome_iff_exists, slotOf, List.findIdx?_isSome, List.any_eq_true]
  have he := List.find?_some h
  exact ⟨e, List.mem_of_find?_eq_some h, he⟩

/-! ## New inodes -/

/-- What a new inode looks like. -/
structure Inode.New (n : Ino) (x : Inode) : Prop where
  ino : x.rfIno = n
  links : x.rfLinkcount = 1
  entries : ∀ es, x.rfMem = .dir es → es.length = ramfsMaxDirent

theorem Inode.new_init (n : Ino) (devid : ℕ) (type : FileType) :
    Inode.New n { rfIno := n, rfMem := .init devid type } where
  ino := rfl
  links := rfl
  entries es hes := by
    cases type with
    | dir =>
      cases hes
      simp
    | _ => cases hes

namespace Vfs

/-! ## Changes of the state -/

/-- A new inode, with an entry in slot `i` of the directory `d`. -/
def make (s : Vfs) (d : Ino) (i : ℕ) (n : Ino) (name : List Char) (inode : Inode) : Vfs :=
  (s.setInode n (some inode)).editInode d (Inode.editDir (·.set i ⟨n, name⟩) direntSize)

/-- The number of links of an inode changes, and the inode is freed if nothing keeps it. -/
def relink (s : Vfs) (v : Ino) (k : ℤ) : Vfs := (s.editInode v (Inode.addLinks k)).settle v

/-- A new entry for the inode `v`. -/
def bindTo (s : Vfs) (d : Ino) (i : ℕ) (v : Ino) (name : List Char) : Vfs :=
  (s.editInode d (Inode.editDir (·.set i ⟨v, name⟩) direntSize)).relink v 1

/-- An entry for the inode `v` is removed. -/
def unbind (s : Vfs) (d : Ino) (i : ℕ) (v : Ino) : Vfs :=
  (s.editInode d (Inode.editDir (clearSlot · i) (-direntSize))).relink v (-1)

theorem setInode_eq_onCell (s : Vfs) (n : Ino) (x : Option Inode) :
    s.setInode n x = s.onCell n fun c ↦ ⟨x, c.vnode⟩ := by
  simp [onCell, setInode, setVnode, cell]

theorem Sane.vnodes_eq_none (hs : s.Sane) (hn : s.inodes n = none) : s.vnodes n = none := by
  cases hv : s.vnodes n with
  | none => rfl
  | some vn =>
    obtain ⟨ino, hino, -⟩ := hs.inode_of_vnode hv
    exact absurd (hn.symm.trans hino) (by simp)

theorem Sane.setInode_new {x : Inode} (hs : s.Sane) (hn : s.inodes n = none) (hx : x.New n) :
    (s.setInode n (some x)).Sane := by
  rw [setInode_eq_onCell]
  refine hs.onCell ?_
  have hvn : (s.cell n).vnode = none := hs.vnodes_eq_none hn
  rw [hvn]
  exact Cell.sane_out hx.ino hx.entries (by simp [hx.links])

@[simp] theorem vnodes_editInode (s : Vfs) (v : Ino) (f : Inode → Inode) :
    (s.editInode v f).vnodes = s.vnodes := by
  simp [editInode, onCell, Cell.edit, cell]

theorem inodes_editInode (s : Vfs) (v : Ino) (f : Inode → Inode) :
    (s.editInode v f).inodes = update s.inodes v ((s.inodes v).map f) := by
  simp [editInode, onCell, Cell.edit, cell]

theorem mem_addLinks (s : Vfs) (v : Ino) (k : ℤ) : (s.editInode v (Inode.addLinks k)).mem = s.mem := by
  funext w
  unfold mem
  rw [inodes_editInode]
  rcases eq_or_ne w v with rfl | hw
  · rw [update_self, Option.map_map]
    rfl
  · rw [update_of_ne hw]

theorem entriesOf_editDir (s : Vfs) (d : Ino) (f : List Dirent → List Dirent) (g : ℤ) (w : Ino) :
    (s.editInode d (Inode.editDir f g)).entriesOf w =
      if w = d then (s.entriesOf w).map f else s.entriesOf w := by
  unfold entriesOf mem
  rw [inodes_editInode]
  split
  · next hw =>
    subst hw
    rw [update_self]
    cases s.inodes w with
    | none => rfl
    | some ino => cases h : ino.rfMem <;> simp [h, Inode.editDir, RfMem.mapDir, RfMem.entries]
  · next hw => rw [update_of_ne hw]

theorem settle_of_vnode (hv : s.vnodes v = some vn) : s.settle v = s := by
  refine onCell_eq_self (Cell.settle_of_out fun i _ hnone ↦ ?_)
  cases hv.symm.trans hnone

variable {F : Inode → Inode} {f : List Dirent → List Dirent} {g : ℤ}

theorem Sane.vput_edit (hs : s.Sane) (hF : Cell.Keeps F) (hv : (s.inodes v).isSome = true) :
    ((s.hold v).editInode v F).vput v = .ok ((s.editInode v F).settle v) := by
  obtain ⟨vn, hvn⟩ := vnodes_hold_self hv
  have hsane : ((s.hold v).editInode v F).Sane :=
    (hs.hold hv).onCell (((hs.hold hv).cell v).edit hF fun i _ hnone ↦ by
      cases hvn.symm.trans hnone)
  rw [hsane.vput_eq (show _ = some vn by rw [vnodes_editInode]; exact hvn)]
  unfold Vfs.release settle editInode Vfs.hold
  rw [onCell_onCell, onCell_onCell, onCell_onCell]
  congr 1
  exact onCell_congr (Cell.release_edit_hold hF (hs.cell v).held)

theorem Sane.editDir (hs : s.Sane) (hf : Cell.KeepsSlots f) (d : Ino) :
    (s.editInode d (Inode.editDir f g)).Sane :=
  hs.onCell ((hs.cell d).edit (.editDir hf g) (hs.cell d).out)

theorem hold_editInode (h : v ≠ d) (s : Vfs) (f : Inode → Inode) :
    (s.hold v).editInode d f = (s.editInode d f).hold v :=
  onCell_comm h s _ _

theorem Sane.vput_edit_hold (hs : s.Sane) (hf : Cell.KeepsSlots f)
    (hd : (s.inodes d).isSome = true) :
    ((s.hold d).editInode d (Inode.editDir f g)).vput d =
      .ok (s.editInode d (Inode.editDir f g)) := by
  rw [hs.vput_edit (.editDir hf g) hd]
  congr 1
  exact onCell_eq_self ((hs.editDir hf d).cell d).settle_eq

theorem keepsSlots_set (i : ℕ) (e : Dirent) : Cell.KeepsSlots (·.set i e) :=
  fun _ hes ↦ List.length_set.trans hes

theorem Sane.make {x : Inode} (hs : s.Sane) (hn : s.inodes n = none) (hx : x.New n) (d : Ino)
    (i : ℕ) (name : List Char) : (s.make d i n name x).Sane :=
  (hs.setInode_new hn hx).editDir (keepsSlots_set i _) d

theorem Sane.relink (hs : s.Sane) (v : Ino) (k : ℤ) : (s.relink v k).Sane := by
  unfold Vfs.relink editInode settle
  rw [onCell_onCell]
  exact hs.onCell ((hs.cell v).settle_edit (.addLinks k))

theorem relink_onCell (h : v ≠ d) (s : Vfs) (k : ℤ) (f : Cell → Cell) :
    (s.relink v k).onCell d f = (s.onCell d f).relink v k := by
  unfold relink editInode settle
  rw [onCell_onCell, onCell_onCell, onCell_comm h]

theorem isSome_inodes_relink_of_ne (h : d ≠ v) (k : ℤ) :
    ((s.relink v k).inodes d).isSome = (s.inodes d).isSome := by
  unfold relink editInode settle
  rw [onCell_onCell]
  have hcell := cell_onCell_of_ne (s := s) (f := fun c ↦ (c.edit (Inode.addLinks k)).settle) h
  exact congrArg (fun c : Cell ↦ c.inode.isSome) hcell

section

variable (hs : s.Sane) (hf : Cell.KeepsSlots f) (hd : (s.inodes d).isSome = true)
include hs hf hd

/-- An entry and the links of its inode are changed while both the directory and the
inode are held; then the inode and the directory are given back. -/
theorem Sane.vput_vput (hv : (s.inodes v).isSome = true) (hvd : v ≠ d) (k : ℤ) :
    ∃ s₁, ((((s.hold d).hold v).editInode d (Inode.editDir f g)).editInode v
        (Inode.addLinks k)).vput v = .ok s₁ ∧
      s₁.vput d = .ok ((s.editInode d (Inode.editDir f g)).relink v k) := by
  have hsane := (hs.hold hd).editDir (g := g) hf d
  have hv' : (((s.hold d).editInode d (Inode.editDir f g)).inodes v).isSome = true := by
    rw [inodes_editInode, update_of_ne hvd]
    exact isSome_hold hv d
  refine ⟨((s.hold d).editInode d (Inode.editDir f g)).relink v k, ?_, ?_⟩
  · rw [hold_editInode hvd]
    exact hsane.vput_edit (.addLinks k) hv'
  · have hd' : ((s.relink v k).inodes d).isSome = true := by
      rw [isSome_inodes_relink_of_ne hvd.symm]
      exact hd
    have hput := (hs.relink v k).vput_edit_hold (g := g) hf hd'
    unfold Vfs.hold editInode at hput ⊢
    rw [relink_onCell hvd, relink_onCell hvd, relink_onCell hvd] at hput
    exact hput

theorem Sane.vput_vput_vput (hv : (s.inodes v).isSome = true) (hvd : v ≠ d) (k : ℤ) :
    ∃ s₁ s₂, (((((s.hold d).hold v).hold v).editInode d (Inode.editDir f g)).editInode v
        (Inode.addLinks k)).vput v = .ok s₁ ∧ s₁.vput d = .ok s₂ ∧
      s₂.vput v = .ok ((s.editInode d (Inode.editDir f g)).relink v k) := by
  obtain ⟨s₁, h₁, h₂⟩ := (hs.hold hv).vput_vput (g := g) hf (isSome_hold hd v) (isSome_hold hv v)
    hvd k
  -- the inode is still held, so that nothing is freed
  obtain ⟨vn, hvn⟩ := vnodes_hold_self hv
  have hvn' : (((s.hold v).editInode d (Inode.editDir f g)).editInode v
      (Inode.addLinks k)).vnodes v = some vn := by
    rw [vnodes_editInode, vnodes_editInode]
    exact hvn
  have hcomm : (s.hold v).hold d = (s.hold d).hold v := onCell_comm hvd s _ _
  rw [Vfs.relink, settle_of_vnode hvn', hold_editInode hvd] at h₂
  rw [hcomm] at h₁
  refine ⟨s₁, _, h₁, h₂, (hs.editDir hf d).vput_edit (.addLinks k) ?_⟩
  rw [inodes_editInode, update_of_ne hvd]
  exact hv

theorem Sane.vput_vput_self (k : ℤ) :
    ∃ s₁, ((((s.hold d).hold d).editInode d (Inode.editDir f g)).editInode d
        (Inode.addLinks k)).vput d = .ok s₁ ∧
      s₁.vput d = .ok ((s.editInode d (Inode.editDir f g)).relink d k) := by
  have hd' := isSome_hold hd d
  obtain ⟨vn, hvn⟩ := vnodes_hold_self hd
  have hedit : ∀ t : Vfs, (t.editInode d (Inode.editDir f g)).editInode d (Inode.addLinks k) =
      t.editInode d fun i ↦ (i.editDir f g).addLinks k := fun t ↦ by
    unfold editInode Cell.edit
    rw [onCell_onCell]
    simp [Function.comp_def]
  have hF := Cell.Keeps.comp (.editDir hf g) (.addLinks k)
  -- the first of the two references is not the last one
  rw [Vfs.relink, hedit, hedit, (hs.hold hd).vput_edit hF hd',
    settle_of_vnode (vnodes_editInode _ _ _ ▸ hvn)]
  exact ⟨_, rfl, hs.vput_edit hF hd⟩

end

/-! ## The operations of ramfs -/

theorem setDirent_eq (hd : s.vnodes d = some vn) (hes : s.entriesOf d = some es)
    (f : List Dirent → List Dirent) (g : ℤ) :
    s.setDirent d (f es) g = .ok (s.editInode d (Inode.editDir f g)) := by
  obtain ⟨ino, hino, hmem⟩ := entriesOf_eq_some.mp hes
  simp [setDirent, toInode, hd, hino, editInode, onCell, Cell.edit, cell, Inode.editDir, hmem,
    RfMem.mapDir, RfMem.growth, setInode, setVnode, pure, Except.pure]

theorem ramfsEnter_eq (hd : s.vnodes d = some vn) (hes : s.entriesOf d = some es) :
    s.ramfsEnter d i n name len = .ok (s.editInode d
      (Inode.editDir (·.set i ⟨n, storedName name len⟩) direntSize)) := by
  unfold ramfsEnter
  rw [toDirent_eq hd hes, ok_bind]
  exact setDirent_eq hd hes (·.set i ⟨n, storedName name len⟩) direntSize

theorem addLinks_eq (hv : (s.vnodes v).isSome = true) (hi : (s.inodes v).isSome = true) (k : ℤ) :
    s.addLinks v k = .ok (s.editInode v (Inode.addLinks k)) := by
  obtain ⟨vn, hvn⟩ := Option.isSome_iff_exists.mp hv
  obtain ⟨ino, hino⟩ := Option.isSome_iff_exists.mp hi
  simp [Vfs.addLinks, toInode, hvn, hino, editInode, onCell, Cell.edit, cell, Inode.addLinks,
    setInode, setVnode, pure, Except.pure]

theorem isSome_inodes_editInode (s : Vfs) (v w : Ino) (f : Inode → Inode) :
    ((s.editInode v f).inodes w).isSome = (s.inodes w).isSome := by
  rw [inodes_editInode]
  rcases eq_or_ne w v with rfl | hw
  · rw [update_self, Option.isSome_map]
  · rw [update_of_ne hw]

theorem ramfsPlace_eq (hd : s.vnodes d = some vn) (hes : s.entriesOf d = some es)
    (hfind : es.find? (fun e ↦ nameMatch e.rdName name len) = none) :
    s.ramfsPlace d name len = .ok (freeSlot es) := by
  unfold ramfsPlace ramfsLookup
  rw [toDirent_eq hd hes]
  simp [hfind, toDirent_eq hd hes, Except.toOption, pure, Except.pure]

end Vfs

end CS402.Fs

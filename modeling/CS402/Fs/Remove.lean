import CS402.Fs.Names
import CS402.Fs.Paths

/-!
# Removing names

What `do_unlink` and `do_rmdir` do in every case.  `do_rmdir` recognises the components
`.` and `..` by comparing what is left of the path, up to its end, while `ramfs_rmdir`
asserts that the component itself is neither.  With a slash behind such a component the
first test fails and the assertion is reached.
-/

namespace CS402.Fs

open CS402.Lib Function

variable {s s' : Vfs} {v w d : Ino} {vn : Vnode} {es : List Dirent} {p : Pid}
  {name path : List Char} {len i : ℕ}

namespace Vfs

/-! ## Taking an entry out -/

theorem ramfsRemove_eq (hd : s.vnodes d = some vn) (hes : s.entriesOf d = some es)
    (hi : slotOf es name len = some i) (hv : (s.vnodes v).isSome = true)
    (hino : (s.inodes v).isSome = true) :
    s.ramfsRemove d name len v = ((s.editInode d
      (Inode.editDir (clearSlot · i) (-direntSize))).editInode v (Inode.addLinks (-1))).vput v := by
  unfold ramfsRemove
  rw [toDirent_eq hd hes, ok_bind, hi]
  dsimp only
  rw [setDirent_eq hd hes (clearSlot · i), ok_bind, addLinks_eq, ok_bind]
  · rw [vnodes_editInode]
    exact hv
  · rw [isSome_inodes_editInode]
    exact hino

theorem length_clearSlot_of (i : ℕ) (es : List Dirent) (h : es.length = ramfsMaxDirent) :
    (clearSlot es i).length = ramfsMaxDirent :=
  (length_clearSlot es i).trans h

section Ramfs

variable (hs : s.Sane) (hd : (s.inodes d).isSome = true) (hes : s.entriesOf d = some es)
  {e : Dirent} (hfind : es.find? (fun e ↦ nameMatch e.rdName name len) = some e)
  (hv : (s.inodes e.rdIno).isSome = true)
include hs hd hes hfind hv

/-- `ramfs_unlink` of an entry for something else than a directory, and the references that
`do_unlink` gives back. -/
theorem Sane.ramfsUnlink_eq (hnone : s.entriesOf e.rdIno = none)
    (hi : slotOf es name len = some i) :
    ∃ s₁ s₂, ((s.hold d).hold e.rdIno).ramfsUnlink d name len = .ok s₁ ∧ s₁.vput d = .ok s₂ ∧
      s₂.vput e.rdIno = .ok (s.unbind d i e.rdIno) := by
  have hvd : e.rdIno ≠ d := by
    intro heq
    rw [heq, hes] at hnone
    cases hnone
  have hv' := isSome_hold hv d
  have hv'' := isSome_hold hv' e.rdIno
  obtain ⟨vnd, hvnd⟩ := vnodes_hold_self hd
  have hvnd' : ((s.hold d).hold e.rdIno).vnodes d = some vnd :=
    (congrArg Cell.vnode (cell_hold_of_ne hvd.symm)).trans hvnd
  have hvnd'' : (((s.hold d).hold e.rdIno).hold e.rdIno).vnodes d = some vnd :=
    (congrArg Cell.vnode (cell_hold_of_ne hvd.symm)).trans hvnd'
  have hes' : ((s.hold d).hold e.rdIno).entriesOf d = some es := by
    rw [entriesOf_hold, entriesOf_hold]
    exact hes
  have hsdv := (hs.hold hd).hold hv'
  obtain ⟨vnv, hvnv, hdir⟩ := hsdv.vnodes_hold hv''
  rw [entriesOf_hold, entriesOf_hold] at hdir
  have hmode := hdir.mp hnone
  obtain ⟨s₁, s₂, h₁, h₂, h₃⟩ := hs.vput_vput_vput
    (length_clearSlot_of i) hd hv hvd (-1)
  refine ⟨s₁, s₂, ?_, h₂, h₃⟩
  unfold ramfsUnlink
  rw [hsdv.ramfsLookup_eq hvnd' hes', hfind]
  simp only [hv'', if_true, ok_bind, Except.toOption, follow_some, hvnv, demand_pos hmode]
  rw [ramfsRemove_eq hvnd'' (by rw [entriesOf_hold]; exact hes') hi (by simp [hvnv])
    (isSome_hold hv'' e.rdIno)]
  exact h₁

omit hfind in
/-- `ramfs_rmdir` of an entry for an empty directory, and the reference that `do_rmdir` gives
back.  With an empty name the slot that is found is a free one, and the directory may be the
one it is in. -/
theorem Sane.ramfsRemove_rmdir (hi : slotOf es name len = some i) :
    ∃ s₁, ((s.hold d).hold e.rdIno).ramfsRemove d name len e.rdIno = .ok s₁ ∧
      s₁.vput d = .ok (s.unbind d i e.rdIno) := by
  have hv' := isSome_hold hv d
  obtain ⟨vnd, hvnd⟩ := vnodes_hold_self hd
  obtain ⟨vn, hvn⟩ := vnodes_hold_self hv'
  obtain ⟨vnd', hvnd'⟩ := Option.isSome_iff_exists.mp
    (isSome_vnodes_hold (s := s.hold d) (w := d) (by simp [hvnd]) e.rdIno)
  rw [ramfsRemove_eq hvnd' (by rw [entriesOf_hold, entriesOf_hold]; exact hes) hi (by simp [hvn])
    (isSome_hold hv' e.rdIno)]
  rcases eq_or_ne e.rdIno d with heq | hne
  · rw [heq]
    exact hs.vput_vput_self (length_clearSlot_of i) hd (-1)
  · exact hs.vput_vput (length_clearSlot_of i) hd hv hne (-1)

end Ramfs

/-! ## What the calls do -/

/-- What comes of `do_unlink`, once the directory has been found. -/
def unlinkAt (s : Vfs) (d : Ino) (name : List Char) (len : ℕ) :
    Except Fault (Vfs × Except Errno ℤ) := do
  if name = ['.'] then return (s, .error .EINVAL)
  else if name = ['.', '.'] then return (s, .error .ENOTEMPTY)
  else
    match ← s.child d name len with
    | .error e => return (s, .error e)
    | .ok v =>
      if s.entriesOf v ≠ none then return (s, .error .EISDIR)
      else
        let i ← follow .pointer ((s.entriesOf d).bind (slotOf · name len))
        return (s.unbind d i v, .ok 0)

/-- What comes of `do_rmdir`, once the directory has been found. -/
def rmdirAt (s : Vfs) (d : Ino) (name : List Char) (len : ℕ) :
    Except Fault (Vfs × Except Errno ℤ) := do
  if name = ['.', '.'] then return (s, .error .ENOTEMPTY)
  else if name = ['.'] then return (s, .error .EINVAL)
  else
    demand .assertion (nameMatch ['.'] name len = false ∧ nameMatch ['.', '.'] name len = false)
    match (s.entriesOf d).bind (List.find? fun e ↦ nameMatch e.rdName name len) with
    | none => return (s, .error .ENOENT)
    | some e =>
      demand .staleInode ((s.inodes e.rdIno).isSome = true)
      match s.entriesOf e.rdIno with
      | none => return (s, .error .ENOTDIR)
      | some es =>
        if dirEmpty es then
          let i ← follow .pointer ((s.entriesOf d).bind (slotOf · name len))
          return (s.unbind d i e.rdIno, .ok 0)
        else return (s, .error .ENOTEMPTY)

/-- A call that finds a directory and goes on from there. -/
def fromDir (s : Vfs) (p : Pid) (path : List Char)
    (f : Ino → List Char → ℕ → Except Fault (Vfs × Except Errno ℤ)) :
    Except Fault (Vfs × Except Errno ℤ) := do
  match ← s.resolve p path none with
  | .error e => return (s, .error e)
  | .ok ⟨d, name, len⟩ => f d name len

theorem Sane.doUnlink_eq (hs : s.Sane) (p : Pid) (path : List Char) :
    s.doUnlink p path = s.fromDir p path s.unlinkAt := by
  unfold doUnlink fromDir
  split
  · next hlong =>
    rw [resolve_of_length hlong]
    rfl
  rw [hs.dirNamev_eq]
  cases hr : s.resolve p path none with
  | error f => rfl
  | ok r =>
  cases r with
  | error e => rfl
  | ok nm =>
  obtain ⟨d, name, len⟩ := nm
  obtain ⟨es, vn, hes, hd, hvn, hmode⟩ := hs.resolved hr
  have hsd := hs.hold hd
  have hput := hs.vput_hold hd
  simp only [Except.map, heldBy, hput, hvn, follow_some, ok_bind, unlinkAt,
    if_neg (not_not.mpr hmode), hsd.lookup_eq hvn, child_hold]
  split
  · rfl
  split
  · rfl
  cases hc : s.child d name len with
  | error f => rfl
  | ok r =>
  cases r with
  | error e =>
    simp only [ok_bind, hput]
  | ok v =>
  have hv := isSome_of_child hc
  have hv' := isSome_hold hv d
  obtain ⟨vnv, hvnv, hdir⟩ := hsd.vnodes_hold hv'
  rw [entriesOf_hold] at hdir
  have hput' : ((s.hold d).hold v).vput v = .ok (s.hold d) := hsd.vput_hold hv'
  simp only [ok_bind, hvnv, follow_some]
  by_cases hnone : s.entriesOf v = none
  · obtain ⟨rfl, -⟩ | ⟨-, -, es', e, hes', hfind, rfl, -⟩ := child_ok hc
    · rw [hes] at hnone
      cases hnone
    cases hes.symm.trans hes'
    obtain ⟨i, hi⟩ := slotOf_eq_some hfind
    obtain ⟨s₁, s₂, h₁, h₂, h₃⟩ := hs.ramfsUnlink_eq hd hes hfind hv hnone hi
    rw [if_neg (hdir.mp hnone), if_neg (not_not.mpr hnone), hes, Option.bind_some, hi]
    simp only [h₁, h₂, h₃, ok_bind, follow_some]
  · rw [if_pos (not_not.mp (mt hdir.mpr hnone)), if_pos hnone]
    simp only [hput', hput, ok_bind]

theorem Sane.doRmdir_eq (hs : s.Sane) (p : Pid) (path : List Char) :
    s.doRmdir p path = s.fromDir p path s.rmdirAt := by
  unfold doRmdir fromDir
  split
  · next hlong =>
    rw [resolve_of_length hlong]
    rfl
  rw [hs.dirNamev_eq]
  cases hr : s.resolve p path none with
  | error f => rfl
  | ok r =>
  cases r with
  | error e => rfl
  | ok nm =>
  obtain ⟨d, name, len⟩ := nm
  obtain ⟨es, vn, hes, hd, hvn, hmode⟩ := hs.resolved hr
  have hsd := hs.hold hd
  have hput := hs.vput_hold hd
  have hes' : (s.hold d).entriesOf d = some es := by
    rw [entriesOf_hold]
    exact hes
  simp only [Except.map, heldBy, hput, hvn, follow_some, ok_bind, rmdirAt,
    if_neg (not_not.mpr hmode), ramfsRmdir, hsd.ramfsLookup_eq hvn hes', hes, Option.bind_some]
  split
  · rfl
  split
  · rfl
  by_cases hdots : nameMatch ['.'] name len = false ∧ nameMatch ['.', '.'] name len = false
  case neg =>
    rw [demand_neg hdots]
    rfl
  rw [demand_pos hdots, ok_bind, ok_bind]
  cases hfind : es.find? fun e ↦ nameMatch e.rdName name len with
  | none =>
    simp only [pure_bind, ok_bind, hput]
  | some e =>
  dsimp only
  rw [isSome_inodes_hold]
  by_cases hv : (s.inodes e.rdIno).isSome = true
  case neg =>
    simp only [if_neg hv, demand_neg hv]
    rfl
  have hv' := isSome_hold hv d
  have hput' : ((s.hold d).hold e.rdIno).vput e.rdIno = .ok (s.hold d) := hsd.vput_hold hv'
  obtain ⟨vnv, hvnv, hdir⟩ := hsd.vnodes_hold hv'
  rw [entriesOf_hold] at hdir
  simp only [if_pos hv, demand_pos hv, ok_bind, hvnv, follow_some]
  cases hesv : s.entriesOf e.rdIno with
  | none =>
    rw [if_pos (hdir.mp hesv)]
    simp only [hput', hput, pure_bind, ok_bind]
  | some esv =>
    have hmodev : ¬vnv.vnMode ≠ .dir := fun h ↦ by
      rw [hdir.mpr h] at hesv
      cases hesv
    rw [if_neg hmodev, toDirent_eq hvnv (show _ = some esv by
      rw [entriesOf_hold, entriesOf_hold]; exact hesv), ok_bind]
    dsimp only
    split
    · obtain ⟨i, hi⟩ := slotOf_eq_some hfind
      obtain ⟨s₁, h₁, h₂⟩ := hs.ramfsRemove_rmdir hd hes hv hi
      simp only [h₁, h₂, hi, follow_some, pure_bind, ok_bind]
    · simp only [hput', hput, pure_bind, ok_bind]

/-! ## Assertions -/

/-- The component is `.` or `..`. -/
def Special (name : List Char) (len : ℕ) : Prop := name.take len = ['.'] ∨ name.take len = ['.', '.']

instance (name : List Char) (len : ℕ) : Decidable (Special name len) :=
  inferInstanceAs (Decidable (_ ∨ _))

/-- The entry that the name leads to is for an inode that is there. -/
def EntryThere (s : Vfs) (d : Ino) (name : List Char) (len : ℕ) : Prop :=
  ∀ e, (s.entriesOf d).bind (List.find? fun e ↦ nameMatch e.rdName name len) = some e →
    (s.inodes e.rdIno).isSome = true

theorem nameMatch_eq_false (hlen : len ≤ name.length) {fname : List Char} :
    nameMatch fname name len = false ↔ name.take len ≠ fname := by
  rw [Bool.eq_false_iff, ne_eq, nameMatch_iff]
  refine not_congr ⟨fun h ↦ h.2.symm, fun h ↦ ⟨?_, h.symm⟩⟩
  rw [← h, List.length_take, min_eq_left hlen]

theorem not_special_iff (hlen : len ≤ name.length) : ¬Special name len ↔
    nameMatch ['.'] name len = false ∧ nameMatch ['.', '.'] name len = false := by
  rw [Special, not_or, nameMatch_eq_false hlen, nameMatch_eq_false hlen]

theorem eq_of_take (hlen : name.length = len) {c : List Char} (h : name.take len = c) :
    name = c := by
  rw [← h, ← hlen, List.take_length]

/-- `do_rmdir` goes on to the end unless it meets an assertion. -/
theorem rmdirAt_returns (hlen : len ≤ name.length) (hspec : ¬Special name len)
    (hthere : s.EntryThere d name len) : ∃ s' r, s.rmdirAt d name len = .ok (s', r) := by
  have hdots := (not_special_iff hlen).mp hspec
  unfold rmdirAt
  split
  · exact ⟨s, _, rfl⟩
  split
  · exact ⟨s, _, rfl⟩
  rw [demand_bind hdots]
  cases hfind : (s.entriesOf d).bind (List.find? fun e ↦ nameMatch e.rdName name len) with
  | none => exact ⟨s, _, rfl⟩
  | some e =>
    dsimp only
    rw [demand_bind (hthere e hfind)]
    cases s.entriesOf e.rdIno with
    | none => exact ⟨s, _, rfl⟩
    | some es' =>
      dsimp only
      split
      · obtain ⟨es, hes, hfind⟩ := Option.bind_eq_some_iff.mp hfind
        obtain ⟨i, hi⟩ := slotOf_eq_some hfind
        rw [hes, Option.bind_some, hi]
        exact ⟨_, _, rfl⟩
      · exact ⟨s, _, rfl⟩

theorem unlinkAt_returns (hthere : s.EntryThere d name len) :
    ∃ s' r, s.unlinkAt d name len = .ok (s', r) := by
  unfold unlinkAt
  split
  · exact ⟨s, _, rfl⟩
  split
  · exact ⟨s, _, rfl⟩
  next hdot _ =>
  cases hc : s.child d name len with
  | error f =>
    unfold child at hc
    split at hc
    · cases hc
    next es hes =>
    split at hc
    · cases hc
    split at hc
    · cases hc
    next e hfind =>
    have hmem := hthere e (by rw [hes]; exact hfind)
    rw [if_pos ((isSome_mem s _).trans hmem)] at hc
    cases hc
  | ok r =>
    cases r with
    | error e => exact ⟨s, _, rfl⟩
    | ok v =>
      rw [ok_bind]
      dsimp only
      split
      · exact ⟨s, _, rfl⟩
      next hnone =>
      obtain ⟨rfl, -, es, hes⟩ | ⟨-, -, es, e, hes, hfind, -⟩ := child_ok hc
      · exact absurd hes (by rw [not_not.mp hnone]; simp)
      · obtain ⟨i, hi⟩ := slotOf_eq_some hfind
        rw [hes, Option.bind_some, hi]
        exact ⟨_, _, rfl⟩

theorem safe_of_rmdirAt (hn : len = compLen name) {x : Vfs × Except Errno ℤ}
    (h : s.rmdirAt d name len = .ok x) :
    if Special name len then name.length = len else s.EntryThere d name len := by
  have hlen : len ≤ name.length := by
    rw [hn]
    exact (List.takeWhile_prefix _).length_le
  unfold rmdirAt at h
  split at h
  · next hname =>
    subst hname hn
    rw [if_pos (by decide)]
    rfl
  split at h
  · next hname =>
    subst hname hn
    rw [if_pos (by decide)]
    rfl
  obtain ⟨hdots, h⟩ := bind_demand h
  rw [if_neg ((not_special_iff hlen).mpr hdots)]
  intro e he
  rw [he] at h
  obtain ⟨hthere, -⟩ := bind_demand h
  exact hthere

/-- `do_rmdir` and `do_unlink` return, and `do_rmdir` refuses `.` and `..` as last
components. -/
structure RemovalRight (s : Vfs) (p : Pid) (path : List Char) : Prop where
  rmdir : ∃ s' r, s.doRmdir p path = .ok (s', r)
  unlink : ∃ s' r, s.doUnlink p path = .ok (s', r)
  dot : ∀ d name len, s.resolve p path none = .ok (.ok ⟨d, name, len⟩) →
    name.take len = ['.'] → s.doRmdir p path = .ok (s, .error .EINVAL)
  dots : ∀ d name len, s.resolve p path none = .ok (.ok ⟨d, name, len⟩) →
    name.take len = ['.', '.'] → s.doRmdir p path = .ok (s, .error .ENOTEMPTY)

/-- Resolution meets no dangling entry; nothing stands behind a last component that is `.` or
`..`, and any other one does not lead to a dangling entry. -/
def RemovalSafe (s : Vfs) (p : Pid) (path : List Char) : Prop :=
  ∃ r, s.resolve p path none = .ok r ∧ ∀ nm, r = .ok nm →
    if Special nm.name nm.namelen then nm.name.length = nm.namelen
    else s.EntryThere nm.resVnode nm.name nm.namelen

/-- **The calls that remove names return a value, and refuse `.` and `..`, exactly when there
is no slash behind such a component** and no dangling entry is met. -/
theorem removal_right_iff (hs : s.Sane) (p : Pid) (path : List Char) :
    s.RemovalRight p path ↔ s.RemovalSafe p path := by
  constructor
  · rintro ⟨⟨s', r, hrmdir⟩, -⟩
    rw [hs.doRmdir_eq] at hrmdir
    obtain ⟨r₀, hr, hrmdir⟩ := bind_ok hrmdir
    refine ⟨r₀, hr, fun nm hnm ↦ ?_⟩
    subst hnm
    exact safe_of_rmdirAt (resolve_ok hr).2.1 hrmdir
  · rintro ⟨r, hr, hsafe⟩
    have hrmdir := hs.doRmdir_eq p path
    have hunlink := hs.doUnlink_eq p path
    unfold fromDir at hrmdir hunlink
    rw [hr, ok_bind] at hrmdir hunlink
    cases r with
    | error e =>
      refine ⟨⟨s, _, hrmdir⟩, ⟨s, _, hunlink⟩, ?_, ?_⟩ <;> intro d name len h <;>
        cases hr.symm.trans h
    | ok nm =>
    obtain ⟨d, name, len⟩ := nm
    obtain ⟨-, hn, -⟩ := resolve_ok hr
    have hlen : len ≤ name.length := by
      rw [show len = compLen name from hn]
      exact (List.takeWhile_prefix _).length_le
    have hsafe := hsafe _ rfl
    dsimp only at hrmdir hunlink hsafe
    split at hsafe
    · -- the whole of what is left of the path is the component, so it is recognised
      next hspec =>
      have hdot : name.take len = ['.'] → s.doRmdir p path = .ok (s, .error .EINVAL) := by
        intro h
        rw [hrmdir, eq_of_take hsafe h]
        rfl
      have hdots : name.take len = ['.', '.'] → s.doRmdir p path = .ok (s, .error .ENOTEMPTY) := by
        intro h
        rw [hrmdir, eq_of_take hsafe h]
        rfl
      refine ⟨?_, ?_, ?_, ?_⟩
      · exact hspec.elim (fun h ↦ ⟨_, _, hdot h⟩) fun h ↦ ⟨_, _, hdots h⟩
      · rcases hspec with h | h <;> rw [hunlink, eq_of_take hsafe h] <;> exact ⟨s, _, rfl⟩
      · intro d' name' len' h
        cases hr.symm.trans h
        exact hdot
      · intro d' name' len' h
        cases hr.symm.trans h
        exact hdots
    · next hspec =>
      obtain ⟨s', r, hreturns⟩ := rmdirAt_returns hlen hspec hsafe
      obtain ⟨s'', r', hreturns'⟩ := unlinkAt_returns hsafe
      refine ⟨⟨s', r, hrmdir.trans hreturns⟩, ⟨s'', r', hunlink.trans hreturns'⟩, ?_, ?_⟩
      · intro d' name' len' h htake
        cases hr.symm.trans h
        exact absurd (.inl htake) hspec
      · intro d' name' len' h htake
        cases hr.symm.trans h
        exact absurd (.inr htake) hspec

theorem rootOnly_removal : rootOnly.RemovalRight 0 ['/', '.'] := by
  refine (removal_right_iff sane_rootOnly 0 ['/', '.']).mpr
    ⟨.ok ⟨rootIno, ['.'], 1⟩, by decide +kernel, fun nm hnm ↦ ?_⟩
  cases hnm
  rw [if_pos (by decide)]
  rfl

/-- The path `./` reaches the assertion of `ramfs_rmdir`, where `.` gives an error. -/
theorem dotSlash_asserts : rootOnly.doRmdir 0 ['.', '/'] = .error .assertion ∧
    (∃ s', rootOnly.doRmdir 0 ['.'] = .ok (s', .error .EINVAL)) ∧
    ¬rootOnly.RemovalRight 0 ['.', '/'] := by
  have hfault : rootOnly.doRmdir 0 ['.', '/'] = .error .assertion :=
    crashes_eq_true.mp (by decide +kernel)
  have hdot : returns (fun x ↦ decide (x.2 = .error .EINVAL)) (rootOnly.doRmdir 0 ['.']) = true := by
    decide +kernel
  obtain ⟨⟨s', r⟩, hrun, hr⟩ := returns_eq_true.mp hdot
  cases of_decide_eq_true hr
  refine ⟨hfault, ⟨s', hrun⟩, fun h ↦ ?_⟩
  obtain ⟨s'', r', hreturns⟩ := h.rmdir
  rw [hfault] at hreturns
  cases hreturns

end Vfs

end CS402.Fs

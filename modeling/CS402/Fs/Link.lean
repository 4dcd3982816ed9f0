import CS402.Fs.Names
import CS402.Fs.Paths

/-!
# Making links

What `do_link` does in every case, and what it is to do: find the old name, refuse a
directory, find where the new name goes, and enter it there if it is free.  The two differ
on paths that are longer than a component may be, on an old name that is not there, whose
missing vnode is used, and on a new name of just `NAME_LEN` characters, which is cut when
it is stored.
-/

namespace CS402.Fs

open CS402.Lib Function

variable {s s' : Vfs} {v w d : Ino} {es : List Dirent} {p : Pid} {src dst name path : List Char}
  {len i : ℕ}

/-- A link to make: the old inode, the directory with the name in it, and a free slot there. -/
structure Linking where
  old : Ino
  dir : Ino
  name : List Char
  len : ℕ
  slot : ℕ
deriving DecidableEq

namespace Vfs

/-- What `do_link` is to do: the first condition that fails, or the link to make. -/
def linkSpec (s : Vfs) (p : Pid) (src dst : List Char) : Except Fault (Except Errno Linking) := do
  match ← s.target p src with
  | .error e => return .error e
  | .ok v =>
    if s.entriesOf v ≠ none then return .error .EISDIR
    else
      match ← s.resolve p dst none with
      | .error e => return .error e
      | .ok ⟨d, name, len⟩ =>
        match ← s.child d name len with
        | .ok _ => return .error .EEXIST
        | .error _ =>
          match (s.entriesOf d).bind freeSlot with
          | none => return .error .ENOSPC
          | some i => return .ok ⟨v, d, name, len, i⟩

/-- The state with one more link to the old inode, under the name `stored`. -/
def linkedAs (s : Vfs) (l : Linking) (stored : List Char) : Vfs :=
  (s.editInode l.dir (Inode.editDir (·.set l.slot ⟨l.old, stored⟩) direntSize)).editInode l.old
    (Inode.addLinks 1)

/-! ## What `do_link` does -/

section Ramfs

variable (hs : s.Sane) (hes : s.entriesOf d = some es) (hv : (s.inodes v).isSome = true)
  (hd : (s.inodes d).isSome = true) (hvd : v ≠ d)
  (hfind : es.find? (fun e ↦ nameMatch e.rdName name len) = none)
include hs hes hv hd hvd hfind

omit hs hv hvd in
theorem ramfsLink_full (hi : freeSlot es = none) :
    ((s.hold v).hold d).ramfsLink v d name len = .ok ((s.hold v).hold d, .error .ENOSPC) := by
  have hd' := isSome_hold hd v
  obtain ⟨vnd, hvnd⟩ := vnodes_hold_self hd'
  have hes' : ((s.hold v).hold d).entriesOf d = some es := by
    rw [entriesOf_hold, entriesOf_hold]
    exact hes
  unfold ramfsLink
  rw [ramfsPlace_eq hvnd hes' hfind, ok_bind, hi]
  rfl

theorem Sane.ramfsLink_free (hi : freeSlot es = some i) :
    ∃ s₁ s₂, ((s.hold v).hold d).ramfsLink v d name len = .ok (s₁, .ok ()) ∧
      s₁.vput v = .ok s₂ ∧ s₂.vput d = .ok (s.bindTo d i v (storedName name len)) := by
  have hd' := isSome_hold hd v
  obtain ⟨vnd, hvnd⟩ := vnodes_hold_self hd'
  have hes' : ((s.hold v).hold d).entriesOf d = some es := by
    rw [entriesOf_hold, entriesOf_hold]
    exact hes
  obtain ⟨vn, hvn⟩ := vnodes_hold_self hv
  obtain ⟨s₁, hput, hput'⟩ := hs.vput_vput
    (keepsSlots_set i _) hd hv hvd 1
  rw [hold_comm] at hput
  refine ⟨_, s₁, ?_, hput, hput'⟩
  unfold ramfsLink
  rw [ramfsPlace_eq hvnd hes' hfind, ok_bind, hi]
  dsimp only
  rw [ramfsEnter_eq hvnd hes', ok_bind, addLinks_eq]
  · rfl
  · rw [vnodes_editInode]
    exact isSome_vnodes_hold (by simp [hvn]) d
  · rw [isSome_inodes_editInode]
    exact isSome_hold (isSome_hold hv v) d

end Ramfs

/-- The part of `do_link` behind the resolution of its arguments. -/
def linkAt (s : Vfs) (v d : Ino) (name : List Char) (len : ℕ) :
    Except Fault (Vfs × Except Errno ℤ) := do
  match ← s.child d name len with
  | .ok _ => return (s, .error .EEXIST)
  | .error _ =>
    match (s.entriesOf d).bind freeSlot with
    | none => return (s, .error .ENOSPC)
    | some i => return (s.bindTo d i v (storedName name len), .ok 0)

/-- What comes of `do_link`: a missing old name is a fault, and when the new path does not
resolve the reference on the old inode is kept. -/
def linkOutcome (s : Vfs) (p : Pid) (src dst : List Char) : Except Fault (Vfs × Except Errno ℤ) :=
  if nameLen < dst.length ∨ nameLen < src.length then .ok (s, .error .ENAMETOOLONG)
  else do
    let r ← s.target p src
    let v ← follow .pointer r.toOption
    if s.entriesOf v ≠ none then return (s, .error .EISDIR)
    else
      match ← s.resolve p dst none with
      | .error e => return (s.hold v, .error e)
      | .ok ⟨d, name, len⟩ => s.linkAt v d name len

theorem Sane.doLink_eq (hs : s.Sane) (hr : s.Rooted) (p : Pid) (src dst : List Char) :
    s.doLink p src dst = s.linkOutcome p src dst := by
  unfold doLink linkOutcome
  split
  · rfl
  rw [hs.openNamev_eq]
  cases ht : s.target p src with
  | error f => rfl
  | ok r =>
  cases r with
  | error e => rfl
  | ok v =>
  have hv := isSome_of_target ht
  have hsv := hs.hold hv
  obtain ⟨vn, hvn, hmode⟩ := hs.vnodes_hold hv
  simp only [ok_bind, heldBy, Except.toOption, follow_some, hvn]
  by_cases hdir : s.entriesOf v ≠ none
  · rw [if_pos hdir, if_pos (not_not.mp fun h ↦ hdir (hmode.mpr h)), hs.vput_hold hv]
    rfl
  rw [if_neg hdir, if_neg (hmode.mp (not_not.mp hdir)), hsv.dirNamev_eq, hr.resolve_hold]
  cases hres : s.resolve p dst none with
  | error f => rfl
  | ok r =>
  cases r with
  | error e => rfl
  | ok nm =>
  obtain ⟨d, name, len⟩ := nm
  obtain ⟨es, vnd, hes, hd, -⟩ := hs.resolved hres
  have hvd : v ≠ d := by
    rintro rfl
    exact hdir (by rw [hes]; simp)
  have hd' := isSome_hold hd v
  obtain ⟨vnd, hvnd⟩ := vnodes_hold_self hd'
  simp only [ok_bind, Except.map, heldBy, (hsv.hold hd').lookup_eq hvnd, child_hold, linkAt]
  cases hc : s.child d name len with
  | error f => rfl
  | ok r =>
  cases r with
  | ok w =>
    have hw := isSome_of_child hc
    have hput : (((s.hold v).hold d).hold w).vput v = .ok ((s.hold d).hold w) := by
      rw [hold_comm s v d]
      exact (hs.hold hd).vput_hold_hold (isSome_hold hv d) (isSome_hold hw d)
    simp only [ok_bind, hput, hs.vput_hold_hold hd hw, hs.vput_hold hw]
  | error e =>
    obtain ⟨rfl, hfind⟩ := child_error_dir hes hc
    rw [hes, Option.bind_some]
    cases hi : freeSlot es with
    | none =>
      simp only [ok_bind, ramfsLink_full hes hd hfind hi, hs.vput_hold_hold hv hd,
        hs.vput_hold hd]
    | some i =>
      obtain ⟨s₁, s₂, hlink, hput, hput'⟩ := hs.ramfsLink_free hes hv hd hvd hfind hi
      simp only [ok_bind, hlink, hput, hput']

/-! ## What it is to do -/

theorem linkSpec_ok {l : Linking} (h : s.linkSpec p src dst = .ok (.ok l)) :
    s.target p src = .ok (.ok l.old) ∧ s.entriesOf l.old = none ∧
      s.Vacant p dst l.dir l.name l.len l.slot := by
  obtain ⟨r, ht, h⟩ := bind_ok h
  cases r with
  | error e => cases h
  | ok v =>
  dsimp only at h
  split at h
  · cases h
  next hdir =>
  obtain ⟨r, hres, h⟩ := bind_ok h
  cases r with
  | error e => cases h
  | ok nm =>
  obtain ⟨r, hc, h⟩ := bind_ok h
  cases r with
  | ok w => cases h
  | error e =>
  dsimp only at h
  split at h
  · cases h
  next i hi =>
  cases h
  obtain ⟨es, hes, hfree⟩ := Option.bind_eq_some_iff.mp hi
  obtain ⟨rfl, -⟩ := child_error_dir hes hc
  exact ⟨ht, not_not.mp hdir, hres, hc, es, hes, hfree⟩

/-- For short paths and an old name that is there, what comes of the call is what it is to do. -/
theorem linkOutcome_of_spec {r : Except Errno Linking}
    (hlen : ¬(nameLen < dst.length ∨ nameLen < src.length)) (ht : s.target p src = .ok (.ok v))
    (h : s.linkSpec p src dst = .ok r) :
    ∃ s', s.linkOutcome p src dst = .ok (s', r.map fun _ ↦ 0) ∧
      ∀ l, r = .ok l → s' = s.bindTo l.dir l.slot l.old (storedName l.name l.len) := by
  unfold linkOutcome linkAt
  unfold linkSpec at h
  rw [ht] at h
  rw [if_neg hlen, ht]
  simp only [ok_bind, Except.toOption, follow_some] at h ⊢
  split at h
  · next hdir =>
    cases h
    rw [if_pos hdir]
    exact ⟨s, rfl, fun l hl ↦ by cases hl⟩
  next hdir =>
  rw [if_neg hdir]
  obtain ⟨r₁, hres, h⟩ := bind_ok h
  rw [hres, ok_bind]
  cases r₁ with
  | error e =>
    cases h
    exact ⟨s.hold v, rfl, fun l hl ↦ by cases hl⟩
  | ok nm =>
  dsimp only at h ⊢
  obtain ⟨r₂, hc, h⟩ := bind_ok h
  rw [hc, ok_bind]
  cases r₂ with
  | ok w =>
    cases h
    exact ⟨s, rfl, fun l hl ↦ by cases hl⟩
  | error e =>
  cases hi : (s.entriesOf nm.resVnode).bind freeSlot with
  | none =>
    rw [hi] at h
    cases h
    exact ⟨s, rfl, fun l hl ↦ by cases hl⟩
  | some i =>
    rw [hi] at h
    cases h
    refine ⟨_, rfl, fun l hl ↦ ?_⟩
    cases hl
    rfl

/-! ## A new entry -/

theorem find?_set_of_none {α : Type*} {f : α → Bool} {xs : List α} {x : α}
    (h : xs.find? f = none) (hi : i < xs.length) (hx : f x = true) :
    (xs.set i x).find? f = some x := by
  induction xs generalizing i with
  | nil => cases hi
  | cons y ys ih =>
    rw [List.find?_cons] at h
    split at h
    · cases h
    next hy =>
    cases i with
    | zero => simp [hx]
    | succ i => simpa [hy] using ih h (Nat.lt_of_succ_lt_succ hi)

theorem find?_set_of_not {α : Type*} {f : α → Bool} {xs : List α} {x y : α}
    (hi : xs[i]? = some y) (hy : f y = false) (hx : f x = false) :
    (xs.set i x).find? f = xs.find? f := by
  induction xs generalizing i with
  | nil => cases hi
  | cons z zs ih =>
    cases i with
    | zero =>
      cases hi
      simp [hx, hy]
    | succ i =>
      rw [List.set_cons_succ, List.find?_cons, List.find?_cons, ih hi]

theorem freeSlot_spec (h : freeSlot es = some i) : i < es.length ∧ ∃ e, es[i]? = some e ∧
    e.rdName = [] := by
  obtain ⟨hi, hfree, -⟩ := List.findIdx?_eq_some_iff_getElem.mp h
  exact ⟨hi, es[i], List.getElem?_eq_getElem hi, of_decide_eq_true hfree⟩

theorem nameMatch_nil (hlen : len ≠ 0) : nameMatch [] name len = false := by
  simp [nameMatch, hlen.symm]

variable {l : Linking} {stored : List Char}

theorem entriesOf_linkedAs (s : Vfs) (l : Linking) (stored : List Char) (w : Ino) :
    (s.linkedAs l stored).entriesOf w =
      if w = l.dir then (s.entriesOf w).map (·.set l.slot ⟨l.old, stored⟩) else s.entriesOf w := by
  rw [linkedAs, entriesOf_congr (mem_addLinks _ _ _), entriesOf_editDir]

theorem isSome_inodes_linkedAs (s : Vfs) (l : Linking) (stored : List Char) (w : Ino) :
    ((s.linkedAs l stored).inodes w).isSome = (s.inodes w).isSome := by
  rw [linkedAs, isSome_inodes_editInode, isSome_inodes_editInode]

theorem entriesOf_linkedAs_eq_none :
    (s.linkedAs l stored).entriesOf w = none ↔ s.entriesOf w = none := by
  rw [entriesOf_linkedAs]
  split <;> simp

/-- What a name leads to stays, when the new entry is under a name that was not there. -/
theorem child_linkedAs {d' : Ino} {c : List Char} {k : ℕ} (hes : s.entriesOf l.dir = some es)
    (hslot : freeSlot es = some l.slot)
    (hnone : es.find? (fun e ↦ nameMatch e.rdName stored stored.length) = none)
    (h : s.child d' c k = .ok (.ok w)) : (s.linkedAs l stored).child d' c k = .ok (.ok w) := by
  obtain ⟨hi, e₀, he₀, hfree⟩ := freeSlot_spec hslot
  have hthere := (isSome_inodes_linkedAs s l stored w).trans (isSome_of_child h)
  have hdir := entriesOf_linkedAs s l stored d'
  obtain ⟨rfl, hname, es', hes'⟩ | ⟨hdot, hlen, es', e, hes', hfind, rfl, -⟩ := child_ok h
  · rw [hes'] at hdir
    split at hdir <;> exact child_self hdir hname
  rw [hes'] at hdir
  split at hdir
  · next hd =>
    subst hd
    cases hes.symm.trans hes'
    -- the entry that is found has another name than the new one
    have hnew : nameMatch stored c k = false := by
      by_contra hmatch
      rw [Bool.not_eq_false, nameMatch_iff] at hmatch
      have he := List.find?_some hfind
      rw [nameMatch_iff, ← hmatch.2] at he
      refine absurd ?_ (List.find?_eq_none.mp hnone e (List.mem_of_find?_eq_some hfind))
      rw [nameMatch_iff, he.2, List.take_length]
      exact ⟨rfl, rfl⟩
    have hold : nameMatch e₀.rdName c k = false := by
      rw [hfree]
      exact nameMatch_nil hlen
    exact child_entry hdir hdot hlen ((find?_set_of_not he₀ hold hnew).trans hfind) hthere
  · exact child_entry hdir hdot hlen hfind hthere

section

variable (hes : s.entriesOf l.dir = some es) (hslot : freeSlot es = some l.slot)
  (hdot : name ≠ ['.']) (hlen : len ≠ 0)
  (hnone : es.find? (fun e ↦ nameMatch e.rdName name len) = none)
include hes hslot hdot hlen hnone

theorem child_linkedAs_self (hv : (s.inodes l.old).isSome = true)
    (hstored : nameMatch stored name len = true) :
    (s.linkedAs l stored).child l.dir name len = .ok (.ok l.old) := by
  obtain ⟨hi, -⟩ := freeSlot_spec hslot
  have hdir := entriesOf_linkedAs s l stored l.dir
  rw [if_pos rfl, hes] at hdir
  exact child_entry hdir hdot hlen (find?_set_of_none hnone hi hstored)
    ((isSome_inodes_linkedAs s l stored l.old).trans hv)

theorem child_linkedAs_other (hstored : nameMatch stored name len = false) :
    (s.linkedAs l stored).child l.dir name len = .ok (.error .ENOENT) := by
  obtain ⟨-, e₀, he₀, hfree⟩ := freeSlot_spec hslot
  have hdir := entriesOf_linkedAs s l stored l.dir
  rw [if_pos rfl, hes] at hdir
  refine child_absent hdir hdot hlen ((find?_set_of_not he₀ ?_ hstored).trans hnone)
  rw [hfree]
  exact nameMatch_nil hlen

end

/-! ## The name after the call -/

@[simp] theorem vnodes_linkedAs (s : Vfs) (l : Linking) (stored : List Char) :
    (s.linkedAs l stored).vnodes = s.vnodes := by
  simp [linkedAs]

theorem resolveLoop_whole {turns : ℕ} {base : Ino} {r : Named} (hpos : path ≠ [])
    (hh : path.head? ≠ some '/') (h : s.resolveLoop turns base path = .ok (.ok r))
    (hlen : path.length ≤ r.name.length) : r = ⟨base, path, compLen path⟩ ∧ pathRest path = [] := by
  cases turns with
  | zero => cases h
  | succ turns =>
    unfold resolveLoop at h
    split at h
    · cases h
    split at h
    · next hrest =>
      split at h
      · cases h
      · cases h
        exact ⟨rfl, hrest⟩
    · obtain ⟨r', -, h⟩ := bind_ok h
      cases r' with
      | error e => cases h
      | ok v =>
        obtain ⟨-, -, -, -, hsuffix⟩ := resolveLoop_ok h
        have hle := hsuffix.length_le
        have hlt := length_pathRest_lt hpos hh
        omega

theorem head?_namevStart (base : Ino) (path : List Char) :
    (namevStart base path).2.head? ≠ some '/' := by
  unfold namevStart
  split
  · rw [drop_slashes]
    exact head?_dropWhile_slash _
  · next h => exact h

/-- After the call the new path leads where it led before. -/
theorem resolve_linkedAs_whole (l : Linking) (stored : List Char) {r : Named}
    (h : s.resolve p path none = .ok (.ok r))
    (hpos : r.namelen ≠ 0) (hlen : path.length ≤ r.namelen) :
    (s.linkedAs l stored).resolve p path none = .ok (.ok r) := by
  obtain ⟨-, hr⟩ | ⟨-, hr⟩ | ⟨x, start, rest, vn, hne, hmax, hx, hstart, hvn, h⟩ := resolve_cases h
  · cases hr
  · cases hr
  have hh := head?_namevStart (Option.getD none x.pCwd) path
  have hle := (namevStart_suffix (Option.getD none x.pCwd) path).length_le
  rw [hstart] at hh hle
  dsimp only at hh hle
  obtain ⟨⟨es, hes⟩, hn, hmax', -, hsuffix⟩ := resolveLoop_ok h
  have hname : r.namelen ≤ r.name.length := by
    rw [hn]
    exact (List.takeWhile_prefix _).length_le
  have hrest : rest ≠ [] := by
    rintro rfl
    rw [List.suffix_nil.mp hsuffix] at hn
    exact hpos hn
  obtain ⟨rfl, hend⟩ := resolveLoop_whole hrest hh h (by omega)
  rw [resolve_of_start (s := s.linkedAs l stored) hne hmax hx hstart
    (by rw [vnodes_linkedAs]; exact hvn)]
  have hdir : ¬(s.linkedAs l stored).entriesOf start = none := by
    rw [entriesOf_linkedAs_eq_none, hes]
    simp
  unfold resolveLoop
  rw [if_neg (not_lt.mpr hmax'), if_pos hend, if_neg hdir]

/-- An inode that is out of core has a link more than none after it gets one more. -/
def KeepsLink (s : Vfs) (v : Ino) : Prop :=
  ∀ ino, s.inodes v = some ino → s.vnodes v = none → ino.rfLinkcount + 1 ≠ 0

theorem cell_linkedAs_old (s : Vfs) (stored : List Char) (hvd : l.old ≠ l.dir) :
    (s.linkedAs l stored).cell l.old = ⟨(s.inodes l.old).map (Inode.addLinks 1), s.vnodes l.old⟩ := by
  rw [linkedAs, editInode, cell_onCell, editInode, cell_onCell_of_ne hvd]
  rfl

theorem bindTo_eq_settle (s : Vfs) (l : Linking) (stored : List Char) :
    s.bindTo l.dir l.slot l.old stored = (s.linkedAs l stored).settle l.old := rfl

theorem bindTo_eq_linkedAs (hvd : l.old ≠ l.dir) (hk : s.KeepsLink l.old) (stored : List Char) :
    s.bindTo l.dir l.slot l.old stored = s.linkedAs l stored := by
  rw [bindTo_eq_settle]
  refine onCell_eq_self (Cell.settle_of_out ?_)
  rw [cell_linkedAs_old s stored hvd]
  intro i hi hv
  obtain ⟨ino, hino, rfl⟩ := Option.map_eq_some_iff.mp hi
  exact hk ino hino hv

theorem keepsLink_of_bindTo {stored' : List Char} (hvd : l.old ≠ l.dir)
    (h : s.bindTo l.dir l.slot l.old stored = s.linkedAs l stored') : s.KeepsLink l.old := by
  intro ino hino hvn hzero
  have hsome := isSome_inodes_linkedAs s l stored' l.old
  have hcell : (s.bindTo l.dir l.slot l.old stored).cell l.old = ⟨none, none⟩ := by
    rw [bindTo_eq_settle, settle, cell_onCell, cell_linkedAs_old s stored hvd, hino, hvn]
    exact if_pos hzero
  rw [← h, hino, show (s.bindTo l.dir l.slot l.old stored).inodes l.old = none from
    congrArg Cell.inode hcell] at hsome
  cases hsome

/-- What `do_link` is to do is what it does. -/
def LinkRight (s : Vfs) (p : Pid) (src dst : List Char) : Prop :=
  ∃ s' r, s.doLink p src dst = .ok (s', r.map fun _ ↦ 0) ∧ s.linkSpec p src dst = .ok r ∧
    ∀ l, r = .ok l → s'.target p dst = .ok (.ok l.old) ∧ ∃ stored, s' = s.linkedAs l stored

/-- When it is: the checks against `NAME_LEN` do not matter, the old name is there, and the
new one is not cut. -/
def LinkSafe (s : Vfs) (p : Pid) (src dst : List Char) : Prop :=
  ∃ r, s.linkSpec p src dst = .ok r ∧
    if nameLen < dst.length ∨ nameLen < src.length then r = .error .ENAMETOOLONG
    else (∃ v, s.target p src = .ok (.ok v)) ∧
      ∀ l, r = .ok l → l.len < nameLen ∧ s.KeepsLink l.old

section Vacant

variable (hvac : s.Vacant p dst l.dir l.name l.len l.slot)
include hvac

/-- A name that is stored as it is leads to the old inode. -/
theorem Vacant.target_linkedAs (hv : (s.inodes l.old).isSome = true) (hlen : l.len < nameLen) :
    (s.linkedAs l (storedName l.name l.len)).target p dst = .ok (.ok l.old) := by
  obtain ⟨es, hes, hslot⟩ := hvac.slot
  obtain ⟨-, hn, -⟩ := resolve_ok hvac.resolves
  obtain ⟨he, -⟩ | ⟨-, es', hes', hdot, hpos, hnone⟩ := child_error hvac.unbound
  · cases he
  cases hes.symm.trans hes'
  have hstored : storedName l.name l.len = l.name.take l.len := by
    rw [storedName, min_eq_left (Nat.le_sub_one_of_lt hlen)]
  have hlength : (l.name.take l.len).length = l.len := by
    rw [show l.len = compLen l.name from hn]
    exact length_take_compLen l.name
  rw [hstored]
  have hnew : es.find? (fun e ↦ nameMatch e.rdName (l.name.take l.len) (l.name.take l.len).length) =
      none := by
    rw [hlength]
    simpa only [nameMatch, List.take_take, min_self] using hnone
  have hres : (s.linkedAs l (l.name.take l.len)).resolve p dst none =
      .ok (.ok ⟨l.dir, l.name, l.len⟩) := by
    refine resolve_mono (fun d' c k w hc ↦ child_linkedAs hes hslot hnew hc)
      (fun d' ↦ entriesOf_linkedAs_eq_none.mp) rfl (fun w hw ↦ ?_) hvac.resolves
    rw [vnodes_linkedAs]
    exact hw
  unfold target
  rw [hres, ok_bind]
  exact child_linkedAs_self hes hslot hdot hpos hnone hv (nameMatch_iff.mpr ⟨hlength, rfl⟩)

theorem Vacant.target_linkedAs_cut (hdst : dst.length ≤ nameLen) (hlen : ¬l.len < nameLen) :
    (s.linkedAs l (storedName l.name l.len)).target p dst = .ok (.error .ENOENT) := by
  obtain ⟨es, hes, hslot⟩ := hvac.slot
  obtain ⟨he, -⟩ | ⟨-, es', hes', hdot, hpos, hnone⟩ := child_error hvac.unbound
  · cases he
  cases hes.symm.trans hes'
  have hres := resolve_linkedAs_whole l (storedName l.name l.len) hvac.resolves hpos
    (hdst.trans (not_lt.mp hlen))
  unfold target
  rw [hres, ok_bind]
  refine child_linkedAs_other hes hslot hdot hpos hnone ?_
  rw [Bool.eq_false_iff, ne_eq, nameMatch_iff]
  rintro ⟨hlength, -⟩
  have hcut : (storedName l.name l.len).length ≤ nameLen - 1 :=
    (List.length_take_le _ _).trans (min_le_right _ _)
  have hname : nameLen = 28 := rfl
  omega

end Vacant

/-- **`do_link` does what it is to do exactly when the old name is there, the paths are no
longer than a component may be, and the new name is shorter than that**, or when one of them
is too long anyway; and, of course, when no dangling entry is met. -/
theorem doLink_right_iff (hs : s.Sane) (hr : s.Rooted) (p : Pid) (src dst : List Char) :
    s.LinkRight p src dst ↔ s.LinkSafe p src dst := by
  have hne : ∀ l, s.linkSpec p src dst = .ok (.ok l) → l.old ≠ l.dir := by
    intro l h heq
    obtain ⟨-, hnone, hvac⟩ := linkSpec_ok h
    obtain ⟨es, hes, -⟩ := hvac.slot
    rw [heq, hes] at hnone
    cases hnone
  unfold LinkRight LinkSafe
  rw [hs.doLink_eq hr]
  constructor
  · rintro ⟨s', r, hdo, hspec, hok⟩
    refine ⟨r, hspec, ?_⟩
    split
    · next hlong =>
      rw [linkOutcome, if_pos hlong] at hdo
      cases r with
      | error e =>
        cases hdo
        rfl
      | ok l => cases hdo
    next hshort =>
    obtain ⟨r₀, ht, -⟩ := bind_ok hspec
    cases r₀ with
    | error e =>
      -- the vnode that was not found is used
      rw [linkOutcome, if_neg hshort, ht] at hdo
      cases hdo
    | ok v =>
    refine ⟨⟨v, ht⟩, fun l hl ↦ ?_⟩
    obtain ⟨s'', hdo', hstate⟩ := linkOutcome_of_spec hshort ht hspec
    cases hdo.symm.trans hdo'
    subst hl
    obtain ⟨htarget, stored, heq⟩ := hok l rfl
    obtain ⟨-, -, hvac⟩ := linkSpec_ok hspec
    have hvd := hne l hspec
    rw [hstate l rfl] at heq htarget
    have hkeep := keepsLink_of_bindTo hvd heq
    refine ⟨?_, hkeep⟩
    by_contra hlen
    rw [bindTo_eq_linkedAs hvd hkeep,
      hvac.target_linkedAs_cut (not_lt.mp (not_or.mp hshort).1) hlen] at htarget
    cases htarget
  · rintro ⟨r, hspec, h⟩
    split at h
    · next hlong =>
      subst h
      rw [linkOutcome, if_pos hlong]
      exact ⟨s, _, rfl, hspec, fun l hl ↦ by cases hl⟩
    next hshort =>
    obtain ⟨⟨v, ht⟩, hok⟩ := h
    obtain ⟨s', hdo, hstate⟩ := linkOutcome_of_spec hshort ht hspec
    refine ⟨s', r, hdo, hspec, fun l hl ↦ ?_⟩
    obtain ⟨hlen, hkeep⟩ := hok l hl
    subst hl
    obtain ⟨htarget, -, hvac⟩ := linkSpec_ok hspec
    rw [hstate l rfl, bindTo_eq_linkedAs (hne l hspec) hkeep]
    exact ⟨hvac.target_linkedAs (isSome_of_target htarget) hlen, _, rfl⟩

/-- A file `a` in the root. -/
def oneFile : Vfs :=
  rootOnly.make rootIno 2 1 ['a'] { rfIno := 1, rfMem := .init 0 .reg }

theorem sane_oneFile : oneFile.Sane :=
  sane_rootOnly.make rfl (Inode.new_init 1 0 .reg) rootIno 2 ['a']

theorem rooted_rootOnly : rootOnly.Rooted where
  root := rfl
  cwd q x hx := by
    have hproc : update (fun _ ↦ none) 0 (some { pCwd := rootIno }) q = some x := hx
    obtain ⟨-, hself⟩ | ⟨-, hnone⟩ := update_eq_some.mp hproc
    · cases hself
      rfl
    · cases hnone

theorem rooted_oneFile : oneFile.Rooted where
  root := rfl
  cwd q x hx := by
    have hvnodes : oneFile.vnodes = rootOnly.vnodes := vnodes_editInode _ _ _
    rw [hvnodes]
    exact rooted_rootOnly.cwd q x hx

theorem oneFile_linked : oneFile.LinkRight 0 ['a'] ['b'] := by
  refine (doLink_right_iff sane_oneFile rooted_oneFile 0 ['a'] ['b']).mpr
    ⟨.ok ⟨1, rootIno, ['b'], 1, 3⟩, by decide +kernel, ⟨1, by decide +kernel⟩, fun l hl ↦ ?_⟩
  cases hl
  refine ⟨by decide, fun ino hino _ ↦ ?_⟩
  cases hino
  decide

/-- An old name that is not there: the vnode that `open_namev` has not set is used.  And a
new name of twenty-eight characters, which is not there after the call has made it. -/
theorem missing_not_linked : (rootOnly.linkSpec 0 ['a'] ['b'] = .ok (.error .ENOENT) ∧
      rootOnly.doLink 0 ['a'] ['b'] = .error .pointer ∧ ¬rootOnly.LinkRight 0 ['a'] ['b']) ∧
    ∃ s', oneFile.doLink 0 ['a'] (List.replicate nameLen 'b') = .ok (s', .ok 0) ∧
      s'.target 0 (List.replicate nameLen 'b') = .ok (.error .ENOENT) := by
  have hfault : rootOnly.doLink 0 ['a'] ['b'] = .error .pointer :=
    crashes_eq_true.mp (by decide +kernel)
  refine ⟨⟨by decide +kernel, hfault, fun h ↦ ?_⟩, ?_⟩
  · obtain ⟨s', r, hdo, -⟩ := h
    rw [hfault] at hdo
    cases hdo
  · have hrun : returns (fun a ↦ decide (a.2 = .ok 0 ∧ a.1.target 0 (List.replicate nameLen 'b') =
        .ok (.error .ENOENT))) (oneFile.doLink 0 ['a'] (List.replicate nameLen 'b')) = true := by
      decide +kernel
    obtain ⟨⟨s', r⟩, hdo, hp⟩ := returns_eq_true.mp hrun
    obtain ⟨rfl, htarget⟩ := of_decide_eq_true hp
    exact ⟨s', hdo, htarget⟩

end Vfs

end CS402.Fs

import CS402.Fs.Cells

/-!
# Where a path leads

Path resolution takes a reference on every directory it goes through and gives it back
when it has gone on.  What it finds depends on the entries of the directories only.
`Vfs.resolve` says what that is, as a function of a state that does not change, and
`Sane.dirNamev_eq` says that `dir_namev` finds just this, holds the directory it returns,
and leaves no other trace; after an error it leaves none at all.
-/

namespace CS402.Fs

open CS402.Lib Function

variable {s s' : Vfs} {v w d base : Ino} {vn : Vnode} {p : Pid} {name path : List Char} {len : ℕ}
  {es : List Dirent}

/-- The slots, if this is a directory. -/
def RfMem.entries : RfMem → Option (List Dirent)
  | .dir es => some es
  | _ => none

theorem RfMem.entries_eq_none {m : RfMem} : m.entries = none ↔ m.type ≠ .dir := by
  cases m <;> simp [entries, type]

theorem RfMem.entries_eq_some {m : RfMem} : m.entries = some es ↔ m = .dir es := by
  cases m <;> simp [entries]

theorem nameMatch_iff {fname : List Char} :
    nameMatch fname name len = true ↔ fname.length = len ∧ fname = name.take len := by
  simp [nameMatch]

namespace Vfs

/-! ## The contents of the file system -/

/-- What an inode holds. -/
def mem (s : Vfs) (v : Ino) : Option RfMem := (s.inodes v).map Inode.rfMem

/-- The slots of a directory. -/
def entriesOf (s : Vfs) (v : Ino) : Option (List Dirent) := (s.mem v).bind RfMem.entries

theorem isSome_mem (s : Vfs) (v : Ino) : (s.mem v).isSome = (s.inodes v).isSome :=
  Option.isSome_map

theorem entriesOf_eq_some :
    s.entriesOf v = some es ↔ ∃ ino, s.inodes v = some ino ∧ ino.rfMem = .dir es := by
  simp [entriesOf, mem, Option.bind_eq_some_iff, RfMem.entries_eq_some]

theorem isSome_of_entriesOf (h : s.entriesOf v = some es) : (s.inodes v).isSome = true := by
  obtain ⟨ino, hino, -⟩ := entriesOf_eq_some.mp h
  rw [hino]
  rfl

@[simp] theorem mem_hold (s : Vfs) (v : Ino) : (s.hold v).mem = s.mem := by
  funext w
  rcases eq_or_ne w v with rfl | hw
  · have h : (s.hold w).inodes w = (s.cell w).hold.inode := congrArg Cell.inode (s.cell_hold w)
    unfold mem
    rw [h, cell]
    cases s.inodes w <;> cases s.vnodes w <;> rfl
  · have h : (s.hold v).inodes w = s.inodes w := congrArg Cell.inode (cell_hold_of_ne hw)
    unfold mem
    rw [h]

@[simp] theorem entriesOf_hold (s : Vfs) (v w : Ino) : (s.hold v).entriesOf w = s.entriesOf w := by
  simp [entriesOf]

theorem Sane.entriesOf_eq_none (hs : s.Sane) (hv : s.vnodes v = some vn) :
    s.entriesOf v = none ↔ vn.vnMode ≠ .dir := by
  obtain ⟨ino, hino, hmode, -⟩ := hs.inode_of_vnode hv
  rw [entriesOf, mem, hino, hmode, Option.map_some, Option.bind_some]
  exact RfMem.entries_eq_none

theorem Sane.vnodes_hold (hs : s.Sane) (hv : (s.inodes v).isSome = true) :
    ∃ vn, (s.hold v).vnodes v = some vn ∧ (s.entriesOf v = none ↔ vn.vnMode ≠ .dir) := by
  obtain ⟨vn, hvn⟩ := vnodes_hold_self hv
  refine ⟨vn, hvn, ?_⟩
  rw [← (hs.hold hv).entriesOf_eq_none hvn, entriesOf_hold]

theorem toDirent_eq (hv : s.vnodes v = some vn) (he : s.entriesOf v = some es) :
    s.toDirent v = .ok es := by
  obtain ⟨ino, hino, hes⟩ := entriesOf_eq_some.mp he
  simp [toDirent, toInode, hv, hino, hes, pure, Except.pure]

/-! ## Resolution -/

/-- What `lookup` finds. -/
def child (s : Vfs) (d : Ino) (name : List Char) (len : ℕ) : Except Fault (Except Errno Ino) :=
  match s.entriesOf d with
  | none => .ok (.error .ENOTDIR)
  | some es =>
    if name = ['.'] ∨ len = 0 then .ok (.ok d)
    else
      match es.find? fun e ↦ nameMatch e.rdName name len with
      | none => .ok (.error .ENOENT)
      | some e => if (s.mem e.rdIno).isSome = true then .ok (.ok e.rdIno) else .error .staleInode

/-- What the loop of `dir_namev` finds. -/
def resolveLoop (s : Vfs) : ℕ → Ino → List Char → Except Fault (Except Errno Named)
  | 0, _, _ => .error .divergence
  | turns + 1, base, path =>
    if nameLen < compLen path then .ok (.error .ENAMETOOLONG)
    else if pathRest path = [] then
      if s.entriesOf base = none then .ok (.error .ENOTDIR)
      else .ok (.ok ⟨base, path, compLen path⟩)
    else do
      match ← s.child base path (compLen path) with
      | .error e => return .error e
      | .ok v => s.resolveLoop turns v (pathRest path)

/-- What `dir_namev` finds. -/
def resolve (s : Vfs) (p : Pid) (path : List Char) (base : Option Ino) :
    Except Fault (Except Errno Named) := do
  if path.length = 0 then return .error .EINVAL
  else if maxPathLen < path.length then return .error .ENAMETOOLONG
  else
    let proc ← follow .pointer (s.procs p)
    let (base, path) := namevStart (base.getD proc.pCwd) path
    let _ ← follow .pointer (s.vnodes base)
    s.resolveLoop (path.length + 1) base path

/-- What `open_namev` finds, when it does not create anything. -/
def target (s : Vfs) (p : Pid) (path : List Char) : Except Fault (Except Errno Ino) := do
  match ← s.resolve p path none with
  | .error e => return .error e
  | .ok ⟨d, name, len⟩ => s.child d name len

/-- The reference of a successful lookup. -/
def heldBy (s : Vfs) : Except Errno Ino → Vfs
  | .ok v => s.hold v
  | .error _ => s

/-! Where a path leads depends on what the inodes hold, on the working directory, and on
whether the start is in core. -/

theorem entriesOf_congr (hm : s.mem = s'.mem) (v : Ino) : s.entriesOf v = s'.entriesOf v := by
  unfold entriesOf
  rw [hm]

theorem child_congr (hm : s.mem = s'.mem) (d : Ino) (name : List Char) (len : ℕ) :
    s.child d name len = s'.child d name len := by
  unfold child
  simp only [entriesOf_congr hm, hm]

theorem resolveLoop_congr (hm : s.mem = s'.mem) (turns : ℕ) (base : Ino) (path : List Char) :
    s.resolveLoop turns base path = s'.resolveLoop turns base path := by
  induction turns generalizing base path with
  | zero => rfl
  | succ turns ih =>
    unfold resolveLoop
    simp only [entriesOf_congr hm, child_congr hm, ih]

theorem resolve_congr (hm : s.mem = s'.mem) (hp : s.procs p = s'.procs p)
    (hv : ∀ x, s.procs p = some x →
      (s.vnodes (namevStart x.pCwd path).1).isSome = (s'.vnodes (namevStart x.pCwd path).1).isSome) :
    s.resolve p path none = s'.resolve p path none := by
  unfold resolve
  split
  · rfl
  split
  · rfl
  rw [← hp]
  cases hx : s.procs p with
  | none => rfl
  | some x =>
    have hstart := hv x hx
    simp only [follow_bind, Option.getD_none, resolveLoop_congr hm]
    cases h : s.vnodes (namevStart x.pCwd path).1 with
    | none =>
      cases h' : s'.vnodes (namevStart x.pCwd path).1 with
      | none => rfl
      | some vn => simp [h, h'] at hstart
    | some vn =>
      cases h' : s'.vnodes (namevStart x.pCwd path).1 with
      | none => simp [h, h'] at hstart
      | some vn => rfl

theorem child_hold (s : Vfs) (v d : Ino) (name : List Char) (len : ℕ) :
    (s.hold v).child d name len = s.child d name len :=
  child_congr (mem_hold s v) d name len

theorem child_ok (h : s.child d name len = .ok (.ok v)) :
    (v = d ∧ (name = ['.'] ∨ len = 0) ∧ ∃ es, s.entriesOf d = some es) ∨
    (name ≠ ['.'] ∧ len ≠ 0 ∧ ∃ es e, s.entriesOf d = some es ∧
      es.find? (fun e ↦ nameMatch e.rdName name len) = some e ∧ e.rdIno = v ∧
      (s.inodes v).isSome = true) := by
  unfold child at h
  split at h
  · cases h
  next es hes =>
  split at h
  · next hname =>
    cases h
    exact .inl ⟨rfl, hname, es, hes⟩
  next hname =>
  rw [not_or] at hname
  split at h
  · cases h
  next e hfind =>
  split at h
  · next hmem =>
    cases h
    exact .inr ⟨hname.1, hname.2, es, e, hes, hfind, rfl, (isSome_mem s _).symm.trans hmem⟩
  · cases h

theorem isSome_of_child (h : s.child d name len = .ok (.ok v)) : (s.inodes v).isSome = true := by
  obtain ⟨rfl, -, es, hes⟩ | ⟨-, -, es, e, -, -, -, hv⟩ := child_ok h
  · exact isSome_of_entriesOf hes
  · exact hv

theorem child_error {e : Errno} (h : s.child d name len = .ok (.error e)) :
    (e = .ENOTDIR ∧ s.entriesOf d = none) ∨ (e = .ENOENT ∧ ∃ es, s.entriesOf d = some es ∧
      name ≠ ['.'] ∧ len ≠ 0 ∧ es.find? (fun e ↦ nameMatch e.rdName name len) = none) := by
  unfold child at h
  split at h
  · next hnone =>
    cases h
    exact .inl ⟨rfl, hnone⟩
  · next es hes =>
    split at h
    · cases h
    · next hname =>
      rw [not_or] at hname
      split at h
      · next hfind =>
        cases h
        exact .inr ⟨rfl, es, hes, hname.1, hname.2, hfind⟩
      · split at h <;> cases h

theorem child_self (hes : s.entriesOf d = some es)
    (h : name = ['.'] ∨ len = 0) : s.child d name len = .ok (.ok d) := by
  unfold child
  rw [hes]
  exact if_pos h

theorem child_entry (hes : s.entriesOf d = some es) (hdot : name ≠ ['.'])
    (hlen : len ≠ 0) {e : Dirent} (hfind : es.find? (fun e ↦ nameMatch e.rdName name len) = some e)
    (he : (s.inodes e.rdIno).isSome = true) : s.child d name len = .ok (.ok e.rdIno) := by
  unfold child
  rw [hes]
  dsimp only
  rw [if_neg (not_or.mpr ⟨hdot, hlen⟩), hfind]
  dsimp only
  rw [if_pos ((isSome_mem s _).trans he)]

theorem child_absent (hes : s.entriesOf d = some es) (hdot : name ≠ ['.'])
    (hlen : len ≠ 0) (hfind : es.find? (fun e ↦ nameMatch e.rdName name len) = none) :
    s.child d name len = .ok (.error .ENOENT) := by
  unfold child
  rw [hes]
  dsimp only
  rw [if_neg (not_or.mpr ⟨hdot, hlen⟩), hfind]

theorem Sane.lookup_eq (hs : s.Sane) (hd : s.vnodes d = some vn) (name : List Char) (len : ℕ) :
    s.lookup d name len = s.child d name len >>= fun r ↦ .ok (s.heldBy r, r) := by
  unfold lookup child
  rw [hd, follow_bind]
  cases hes : s.entriesOf d with
  | none =>
    rw [if_pos ((hs.entriesOf_eq_none hd).mp hes)]
    rfl
  | some es =>
    have hmode : ¬ vn.vnMode ≠ .dir := fun hne ↦ by simp [(hs.entriesOf_eq_none hd).mpr hne] at hes
    rw [if_neg hmode]
    dsimp only
    split
    · rw [hs.vref_eq hd]
      rfl
    · unfold ramfsLookup
      rw [toDirent_eq hd hes, ok_bind]
      cases es.find? fun e ↦ nameMatch e.rdName name len with
      | none => rfl
      | some e =>
        dsimp only
        rw [hs.vget_eq, isSome_mem]
        split <;> rfl

/-- The loop of `dir_namev` finds what is there, holds it, and lets its start go. -/
theorem Sane.dirNamevLoop_eq (hs : s.Sane) (turns : ℕ) {base : Ino} (path : List Char)
    (hb : (s.inodes base).isSome = true) :
    dirNamevLoop turns (s.hold base) base path =
      s.resolveLoop turns base path >>= fun r ↦ .ok (s.heldBy (r.map Named.resVnode), r) := by
  induction turns generalizing base path with
  | zero => rfl
  | succ turns ih =>
    obtain ⟨vn, hvn, hmode⟩ := hs.vnodes_hold hb
    unfold dirNamevLoop resolveLoop
    split
    · rw [hs.vput_hold hb]
      rfl
    split
    · rw [hvn, follow_bind]
      by_cases hdir : vn.vnMode ≠ .dir
      · rw [if_pos hdir, if_pos (hmode.mpr hdir), hs.vput_hold hb]
        rfl
      · rw [if_neg hdir, if_neg (mt hmode.mp hdir)]
        rfl
    · rw [(hs.hold hb).lookup_eq hvn, child_hold]
      -- the reference on the start is given back after the lookup
      cases hc : s.child base path (compLen path) with
      | error e => rfl
      | ok r =>
        cases r with
        | error e =>
          simp only [ok_bind, heldBy, hs.vput_hold hb]
          rfl
        | ok v =>
          have hv := isSome_of_child hc
          simp only [ok_bind, heldBy, hs.vput_hold_hold hb hv]
          exact ih (pathRest path) hv

theorem Sane.dirNamev_eq (hs : s.Sane) (p : Pid) (path : List Char) (base : Option Ino) :
    s.dirNamev p path base =
      s.resolve p path base >>= fun r ↦ .ok (s.heldBy (r.map Named.resVnode), r) := by
  unfold dirNamev resolve
  split
  · rfl
  split
  · rfl
  cases s.procs p with
  | none => rfl
  | some proc =>
    simp only [follow_bind]
    cases hb : s.vnodes (namevStart (base.getD proc.pCwd) path).1 with
    | none =>
      unfold vref
      rw [hb]
      rfl
    | some vn =>
      obtain ⟨ino, hino, -⟩ := hs.inode_of_vnode hb
      rw [hs.vref_eq hb, ok_bind, hs.dirNamevLoop_eq _ _ (by simp [hino])]
      rfl

theorem Sane.dirNamev_ok {base : Option Ino} {r : Except Errno Named} (hs : s.Sane)
    (h : s.dirNamev p path base = .ok (s', r)) : s.resolve p path base = .ok r := by
  rw [hs.dirNamev_eq] at h
  obtain ⟨r', hr, h⟩ := bind_ok h
  cases h
  exact hr

variable {r : Named}

theorem resolveLoop_ok {turns : ℕ} (h : s.resolveLoop turns base path = .ok (.ok r)) :
    (∃ es, s.entriesOf r.resVnode = some es) ∧ r.namelen = compLen r.name ∧
      r.namelen ≤ nameLen ∧ pathRest r.name = [] ∧ r.name <:+ path := by
  induction turns generalizing base path with
  | zero => cases h
  | succ turns ih =>
    unfold resolveLoop at h
    split at h
    · cases h
    next hlen =>
    split at h
    · next hrest =>
      split at h
      · cases h
      · next hdir =>
        cases h
        exact ⟨Option.ne_none_iff_exists'.mp hdir, rfl, not_lt.mp hlen, hrest, List.suffix_refl _⟩
    · obtain ⟨r', -, h⟩ := bind_ok h
      cases r' with
      | error e => cases h
      | ok v =>
        obtain ⟨h₁, h₂, h₃, h₄, h₅⟩ := ih h
        exact ⟨h₁, h₂, h₃, h₄, h₅.trans (List.drop_suffix _ _)⟩

theorem namevStart_suffix (base : Ino) (path : List Char) : (namevStart base path).2 <:+ path := by
  unfold namevStart
  split
  · exact List.drop_suffix _ _
  · exact List.suffix_refl _

variable {b : Option Ino}

theorem resolve_of_length (h : maxPathLen < path.length) :
    s.resolve p path b = .ok (.error .ENAMETOOLONG) := by
  have hpos : ¬path.length = 0 := by
    have : maxPathLen = 1024 := rfl
    omega
  unfold resolve
  rw [if_neg hpos, if_pos h]
  rfl

theorem resolve_of_start {x : Proc} {start : Ino} {rest : List Char}
    (hpos : path.length ≠ 0) (hmax : path.length ≤ maxPathLen) (hx : s.procs p = some x)
    (hstart : namevStart (b.getD x.pCwd) path = (start, rest)) (hvn : s.vnodes start = some vn) :
    s.resolve p path b = s.resolveLoop (rest.length + 1) start rest := by
  unfold resolve
  rw [if_neg hpos, if_neg (not_lt.mpr hmax), hx, follow_bind, hstart]
  dsimp only
  rw [hvn, follow_bind]

theorem resolve_cases {r : Except Errno Named} (h : s.resolve p path b = .ok r) :
    (path.length = 0 ∧ r = .error .EINVAL) ∨
      (maxPathLen < path.length ∧ r = .error .ENAMETOOLONG) ∨
      ∃ x start rest vn, path.length ≠ 0 ∧ path.length ≤ maxPathLen ∧ s.procs p = some x ∧
        namevStart (b.getD x.pCwd) path = (start, rest) ∧ s.vnodes start = some vn ∧
        s.resolveLoop (rest.length + 1) start rest = .ok r := by
  unfold resolve at h
  split at h
  · next hpos =>
    cases h
    exact .inl ⟨hpos, rfl⟩
  next hpos =>
  split at h
  · next hmax =>
    cases h
    exact .inr (.inl ⟨hmax, rfl⟩)
  next hmax =>
  obtain ⟨x, hx, h⟩ := bind_follow h
  cases hstart : namevStart (b.getD x.pCwd) path with
  | mk start rest =>
    rw [hstart] at h
    obtain ⟨vn, hvn, h⟩ := bind_follow h
    exact .inr (.inr ⟨x, start, rest, vn, hpos, not_lt.mp hmax, hx, hstart, hvn, h⟩)

theorem resolve_ok {base : Option Ino} (h : s.resolve p path base = .ok (.ok r)) :
    (∃ es, s.entriesOf r.resVnode = some es) ∧ r.namelen = compLen r.name ∧
      r.namelen ≤ nameLen ∧ pathRest r.name = [] ∧ r.name <:+ path := by
  obtain ⟨-, he⟩ | ⟨-, he⟩ | ⟨x, start, rest, vn, -, -, -, hstart, -, h⟩ := resolve_cases h
  · cases he
  · cases he
  · obtain ⟨h₁, h₂, h₃, h₄, h₅⟩ := resolveLoop_ok h
    have hsuffix := namevStart_suffix (base.getD x.pCwd) path
    rw [hstart] at hsuffix
    exact ⟨h₁, h₂, h₃, h₄, h₅.trans hsuffix⟩

/-! What a path leads to is still there when more names can be found. -/

section

variable (hc : ∀ d name len w, s.child d name len = .ok (.ok w) → s'.child d name len = .ok (.ok w))
  (he : ∀ d, s'.entriesOf d = none → s.entriesOf d = none)
include hc he

theorem resolveLoop_mono {turns : ℕ}
    (h : s.resolveLoop turns base path = .ok (.ok r)) :
    s'.resolveLoop turns base path = .ok (.ok r) := by
  induction turns generalizing base path with
  | zero => cases h
  | succ turns ih =>
    unfold resolveLoop at h ⊢
    split at h
    · cases h
    next hlen =>
    rw [if_neg hlen]
    split at h
    · next hrest =>
      rw [if_pos hrest]
      split at h
      · cases h
      · next hdir => rw [if_neg (hdir ∘ he base), ← h]
    · next hrest =>
      rw [if_neg hrest]
      obtain ⟨r', hr, h⟩ := bind_ok h
      cases r' with
      | error e => cases h
      | ok v =>
        rw [hc _ _ _ _ hr, ok_bind]
        exact ih h

theorem resolve_mono (hp : s'.procs p = s.procs p)
    (hv : ∀ v, (s.vnodes v).isSome = true → (s'.vnodes v).isSome = true)
    (h : s.resolve p path none = .ok (.ok r)) : s'.resolve p path none = .ok (.ok r) := by
  obtain ⟨-, hr⟩ | ⟨-, hr⟩ | ⟨x, start, rest, vn, hpos, hmax, hx, hstart, hvn, h⟩ := resolve_cases h
  · cases hr
  · cases hr
  · obtain ⟨vn', hvn'⟩ := Option.isSome_iff_exists.mp (hv start (Option.isSome_of_mem hvn))
    rw [resolve_of_start hpos hmax (hp.trans hx) hstart hvn']
    exact resolveLoop_mono hc he h

end

end Vfs

end CS402.Fs

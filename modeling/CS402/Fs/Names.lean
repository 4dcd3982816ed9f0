import CS402.Fs.Changes

/-!
# What the calls on names do

For each call that makes or removes a name, what it does to the state as a whole, after
all the references that it takes on its way have been given back.  A successful call
changes the entry of one directory and one inode; a call that fails changes nothing but
the answers that the allocators still have to give, except for the reference that the
source forgets: `do_link` keeps the one on its first argument when the second does not
resolve.
-/

namespace CS402.Fs

open CS402.Lib Function

variable {s s' : Vfs} {v w d n : Ino} {vn : Vnode} {ino : Inode} {p : Pid}
  {name path : List Char} {len i : ℕ} {es : List Dirent}

namespace Vfs

/-! ## The calls that make names -/

/-- A path leads to an entry that is not there yet; it would go to the slot `i`. -/
structure Vacant (s : Vfs) (p : Pid) (path : List Char) (d : Ino) (name : List Char) (len i : ℕ) :
    Prop where
  resolves : s.resolve p path none = .ok (.ok ⟨d, name, len⟩)
  unbound : s.child d name len = .ok (.error .ENOENT)
  slot : ∃ es, s.entriesOf d = some es ∧ freeSlot es = some i

theorem Sane.resolved {base : Option Ino} (hs : s.Sane)
    (hr : s.resolve p path base = .ok (.ok ⟨d, name, len⟩)) :
    ∃ es vn, s.entriesOf d = some es ∧ (s.inodes d).isSome = true ∧
      (s.hold d).vnodes d = some vn ∧ vn.vnMode = .dir := by
  obtain ⟨⟨es, hes⟩, -⟩ := resolve_ok hr
  have hd := isSome_of_entriesOf hes
  obtain ⟨vn, hvn, hmode⟩ := hs.vnodes_hold hd
  refine ⟨es, vn, hes, hd, hvn, not_not.mp fun hne ↦ ?_⟩
  cases hes.symm.trans (hmode.mpr hne)

theorem child_error_dir {e : Errno} (hes : s.entriesOf d = some es)
    (h : s.child d name len = .ok (.error e)) :
    e = .ENOENT ∧ es.find? (fun e ↦ nameMatch e.rdName name len) = none := by
  rcases child_error h with ⟨-, hnone⟩ | ⟨rfl, es', hes', -, -, hfind⟩
  · rw [hes] at hnone
    cases hnone
  · rw [hes] at hes'
    cases hes'
    exact ⟨rfl, hfind⟩

/-- Without `O_CREAT`, `open_namev` finds what is there and holds it. -/
theorem Sane.openNamev_eq (hs : s.Sane) (p : Pid) (path : List Char) :
    s.openNamev p path 0 none = s.target p path >>= fun r ↦ .ok (s.heldBy r, r) := by
  unfold openNamev target
  rw [hs.dirNamev_eq]
  cases hr : s.resolve p path none with
  | error e => rfl
  | ok r =>
    cases r with
    | error e => rfl
    | ok nm =>
      obtain ⟨d, name, len⟩ := nm
      obtain ⟨es, vn, hes, hd, hvn, -⟩ := hs.resolved hr
      simp only [ok_bind, Except.map, heldBy, (hs.hold hd).lookup_eq hvn, child_hold]
      cases hc : s.child d name len with
      | error e => rfl
      | ok r =>
        cases r with
        | ok v =>
          have hv := isSome_of_child hc
          simp only [ok_bind, hs.vput_hold_hold hd hv]
          rfl
        | error e =>
          obtain ⟨rfl, -⟩ := child_error_dir hes hc
          simp only [ok_bind, hs.vput_hold hd]
          rfl

theorem Sane.openNamev_ok {r : Except Errno Ino} (hs : s.Sane)
    (h : s.openNamev p path 0 none = .ok (s', r)) : s.target p path = .ok r ∧ s' = s.heldBy r := by
  rw [hs.openNamev_eq] at h
  obtain ⟨r', hr, h⟩ := bind_ok h
  cases h
  exact ⟨hr, rfl⟩

theorem isSome_of_target (h : s.target p path = .ok (.ok v)) : (s.inodes v).isSome = true := by
  obtain ⟨r, -, h⟩ := bind_ok h
  cases r with
  | error e => cases h
  | ok nm => exact isSome_of_child h

/-- Where every path starts: the root and the working directories are in core. -/
structure Rooted (s : Vfs) : Prop where
  root : (s.vnodes rootIno).isSome = true
  cwd : ∀ p x, s.procs p = some x → (s.vnodes x.pCwd).isSome = true

theorem isSome_vnodes_hold (h : (s.vnodes w).isSome = true) (v : Ino) :
    ((s.hold v).vnodes w).isSome = true := by
  obtain ⟨vn, hvn⟩ := Option.isSome_iff_exists.mp h
  rcases eq_or_ne w v with rfl | hw
  · simp [Vfs.hold, onCell, cell, hvn, Cell.hold]
  · have hcell : (s.hold v).vnodes w = s.vnodes w := congrArg Cell.vnode (cell_hold_of_ne hw)
    rw [hcell]
    exact h

theorem Rooted.resolve_hold (h : s.Rooted) (v : Ino) (p : Pid) (path : List Char) :
    (s.hold v).resolve p path none = s.resolve p path none := by
  refine resolve_congr (mem_hold s v) rfl fun x hx ↦ ?_
  have hstart : (s.vnodes (namevStart x.pCwd path).1).isSome = true := by
    unfold namevStart
    split
    · exact h.root
    · exact h.cwd p x hx
  rw [hstart]
  exact isSome_vnodes_hold hstart v

/-! ## Lookups that succeed -/

theorem Sane.ramfsLookup_eq (hs : s.Sane) (hd : s.vnodes d = some vn)
    (hes : s.entriesOf d = some es) (name : List Char) (len : ℕ) :
    s.ramfsLookup d name len =
      match es.find? fun e ↦ nameMatch e.rdName name len with
      | none => .ok (s, .error .ENOENT)
      | some e => if (s.inodes e.rdIno).isSome = true then .ok (s.hold e.rdIno, .ok e.rdIno)
        else .error .staleInode := by
  unfold ramfsLookup
  rw [toDirent_eq hd hes, ok_bind]
  cases es.find? fun e ↦ nameMatch e.rdName name len with
  | none => rfl
  | some e =>
    dsimp only
    rw [hs.vget_eq]
    split <;> rfl

end Vfs

end CS402.Fs

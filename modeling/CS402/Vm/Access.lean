import CS402.Vm.PageMap
import Mathlib.Data.List.Pairwise

/-!
# Kernel access to user memory

The model of `vmmap_read` and `vmmap_write` (`kernel/proc/vm/vmmap.c`) and of
`kernel/api/access.c`.

`vmmap_read` and `vmmap_write` copy all bytes they are asked for from or to the
frame of the first page, so their loop runs at most once; when the bytes do not fit
into the page, memory behind the frame is read or written, which is a crash here.

`range_perm` asks `addr_perm` about its first address only, as often as the range
has bytes, and `addr_perm` accepts a page whose protection shares any bit with the
wanted permissions.  So it answers the question of the whole range from the first
page; `rangePerm_correct_iff` says exactly when that answer is right.
-/

set_option linter.unusedSectionVars false

namespace CS402.Mm

open CS402.Lib Function

namespace Mem

section

variable [Layout]

/-- The page frame that `vmmap_read` and `vmmap_write` work on.  They ignore what
`pframe_lookup` returns and look at the pointer it was to set. -/
def userFrame (s : Mem) (m : MapId) (vPage : ℕ) (forwrite : Bool) :
    Except Fault (Mem × Option FrameId) := do
  let a ← s.vmmapLookup m vPage
  match a with
  | none => return (s, none)
  | some a =>
    let vma ← follow .pointer (s.areas a)
    let o ← follow .assertion vma.vmaObj
    let (s, r) ← s.pframeLookup o (vma.vmaOff + (vPage - vma.vmaStart)) forwrite
    match r with
    | .ok f => return (s, some f)
    | .error e => if e.cleared then return (s, none) else .error .pointer

/-- `vmmap_read`. -/
def vmmapRead (s : Mem) (m : MapId) (vaddr count : ℕ) :
    Except Fault (Mem × Except Errno (List UInt8)) := do
  let map ← follow .pointer (s.maps m)
  if map.vmmList = [] then return (s, .error .EFAULT)
  else if count = 0 then return (s, .ok [])
  else
    let (s, r) ← s.userFrame m (addrToPn vaddr) false
    match r with
    | none => return (s, .error .EFAULT)
    | some f =>
      let pf ← follow .pointer (s.frames f)
      demand .overrun (vaddr % pageSize + count ≤ pageSize)
      return (s, .ok ((List.range count).map fun i ↦ pf.pfData (vaddr % pageSize + i)))

/-- The bytes of a page after `buf` has been copied to an offset. -/
def storeBytes (data : Page) (off : ℕ) (buf : List UInt8) : Page :=
  fun i ↦ if off ≤ i ∧ i < off + buf.length then buf.getD (i - off) 0 else data i

/-- `vmmap_write`. -/
def vmmapWrite (s : Mem) (m : MapId) (vaddr : ℕ) (buf : List UInt8) :
    Except Fault (Mem × Except Errno Unit) := do
  let map ← follow .pointer (s.maps m)
  if map.vmmList = [] then return (s, .error .EFAULT)
  else if buf = [] then return (s, .ok ())
  else
    let (s, r) ← s.userFrame m (addrToPn vaddr) true
    match r with
    | none => return (s, .error .EFAULT)
    | some f =>
      demand .overrun (vaddr % pageSize + buf.length ≤ pageSize)
      let s := s.modFrame f fun pf ↦
        { pf with pfData := storeBytes pf.pfData (vaddr % pageSize) buf }
      let s ← s.pframeDirty f
      return (s, .ok ())

end

/-- `addr_perm`. -/
def addrPerm (s : Mem) (p : Proc) (vaddr : ℕ) (perm : Flags) : Except Fault Bool :=
  match p.pVmmap with
  | none => return false
  | some m => do
    let a ← s.vmmapLookup m (addrToPn vaddr)
    match a with
    | none => return false
    | some a =>
      let vma ← follow .pointer (s.areas a)
      return vma.vmaProt.has perm

/-- `range_perm`; the argument that counts the bytes still to be asked about is the last. -/
def rangePerm (s : Mem) (p : Proc) (avaddr : ℕ) (perm : Flags) : ℕ → Except Fault Bool
  | 0 => return true
  | len + 1 => do
    let code ← s.addrPerm p avaddr perm
    if code then s.rangePerm p avaddr perm len else return false

/-- `copy_from_user`.  `vmmap_read` returns 0 when there is no map. -/
def copyFromUser [Layout] (s : Mem) (p : Pid) (uaddr nbytes : ℕ) :
    Except Fault (Mem × Except Errno (List UInt8)) := do
  let proc ← follow .pointer (s.procs p)
  let ok ← s.rangePerm proc uaddr protRead nbytes
  if ok then
    match proc.pVmmap with
    | none => return (s, .ok [])
    | some m => s.vmmapRead m uaddr nbytes
  else return (s, .error .EFAULT)

/-- `copy_to_user`. -/
def copyToUser [Layout] (s : Mem) (p : Pid) (uaddr : ℕ) (buf : List UInt8) :
    Except Fault (Mem × Except Errno Unit) := do
  let proc ← follow .pointer (s.procs p)
  let ok ← s.rangePerm proc uaddr protWrite buf.length
  if ok then
    match proc.pVmmap with
    | none => return (s, .ok ())
    | some m => s.vmmapWrite m uaddr buf
  else return (s, .error .EFAULT)

end Mem

/-! ## What `range_perm` answers -/

section

variable [Layout] {s : Mem} {m : MapId} {mp : Vmmap}

theorem TidyMap.area_unique (h : TidyMap s m mp) {a b : AreaId} {va vb : VmArea} {v : ℕ}
    (ha : a ∈ mp.vmmList) (hb : b ∈ mp.vmmList) (hva : s.areas a = some va)
    (hvb : s.areas b = some vb) (hca : va.Covers v) (hcb : vb.Covers v) : a = b := by
  let Apart (x y : AreaId) : Prop := ∀ vx vy, s.areas x = some vx → s.areas y = some vy →
    ¬ (vx.Covers v ∧ vy.Covers v)
  have hsymm : Std.Symm Apart := ⟨fun x y hxy vy vx hvy hvx hc ↦ hxy vx vy hvx hvy hc.symm⟩
  have hpair : mp.vmmList.Pairwise Apart := by
    refine (List.pairwise_filterMap.mp h.ordered.pairwise).imp ?_
    intro x y hxy vx vy hvx hvy ⟨hcx, hcy⟩
    have hle := hxy vx.seg (by rw [hvx]; rfl) vy.seg (by rw [hvy]; rfl)
    exact absurd (hcx.2.trans_le (hle.trans hcy.1)) (Nat.lt_irrefl _)
  by_contra hne
  exact hpair.forall ha hb hne va vb hva hvb ⟨hca, hcb⟩

theorem TidyMap.vmmapLookup_eq (h : TidyMap s m mp) (hm : s.maps m = some mp) {a : AreaId}
    {vma : VmArea} {v : ℕ} (ha : a ∈ mp.vmmList) (hvma : s.areas a = some vma)
    (hc : vma.Covers v) : s.vmmapLookup m v = .ok (some a) := by
  unfold Mem.vmmapLookup
  rw [hm, follow_bind]
  cases hf : mp.vmmList.find? (s.covers v) with
  | none =>
    have hnone := List.find?_eq_none.mp hf a ha
    simp [Mem.covers, hvma, hc] at hnone
  | some b =>
    have hcb := List.find?_some hf
    obtain ⟨vb, hvb, hcb⟩ := (Option.any_eq_true ..).mp hcb
    have hab := h.area_unique ha (List.mem_of_find?_eq_some hf) hvma hvb hc
      (decide_eq_true_eq.mp hcb)
    rw [hab]
    rfl

/-- A page lies in an area of the process whose protection meets a condition. -/
def PageIn (s : Mem) (p : Proc) (v : ℕ) (C : Flags → Prop) : Prop :=
  ∃ m mp, p.pVmmap = some m ∧ s.maps m = some mp ∧
    ∃ a ∈ mp.vmmList, ∃ vma, s.areas a = some vma ∧ vma.Covers v ∧ C vma.vmaProt

/-- The protection of the page contains every bit of `perm`. -/
def PageAllows (s : Mem) (p : Proc) (v : ℕ) (perm : Flags) : Prop :=
  PageIn s p v fun prot ↦ prot &&& perm = perm

/-- The protection of the page shares a bit with `perm`. -/
def PageShares (s : Mem) (p : Proc) (v : ℕ) (perm : Flags) : Prop :=
  PageIn s p v fun prot ↦ prot.has perm

/-- What `range_perm` is to answer: every address of the range lies on a page that allows
`perm`, and the range does not wrap around. -/
def Allowed (s : Mem) (p : Proc) (avaddr len : ℕ) (perm : Flags) : Prop :=
  avaddr + len ≤ 2 ^ 32 ∧ ∀ a, avaddr ≤ a → a < avaddr + len → PageAllows s p (addrToPn a) perm

omit [Layout] in
theorem PageAllows.shares {p : Proc} {v : ℕ} {perm : Flags} (h : PageAllows s p v perm)
    (hne : perm ≠ 0) : PageShares s p v perm := by
  obtain ⟨m, mp, hpm, hm, a, ha, vma, hvma, hc, hprot⟩ := h
  exact ⟨m, mp, hpm, hm, a, ha, vma, hvma, hc, by simpa [Flags.has, hprot] using hne⟩

theorem addrPerm_eq_true (ht : Tidy s) {p : Proc}
    (hp : ∀ m, p.pVmmap = some m → ∃ mp, s.maps m = some mp) {vaddr : ℕ} {perm : Flags} :
    s.addrPerm p vaddr perm = .ok true ↔ PageShares s p (addrToPn vaddr) perm := by
  unfold Mem.addrPerm PageShares PageIn
  cases hpm : p.pVmmap with
  | none => simp [pure, Except.pure]
  | some m =>
    obtain ⟨mp, hm⟩ := hp m hpm
    have htm := ht.map m mp hm
    constructor
    · intro h
      obtain ⟨r, hr, h⟩ := bind_ok h
      cases r with
      | none => simp [pure, Except.pure] at h
      | some a =>
        obtain ⟨vma, hvma, h⟩ := bind_follow h
        unfold Mem.vmmapLookup at hr
        rw [hm, follow_bind, pure_eq_ok] at hr
        have hc := List.find?_some hr
        simp only [Mem.covers, hvma, Option.any_some, decide_eq_true_eq] at hc
        exact ⟨m, mp, rfl, hm, a, List.mem_of_find?_eq_some hr, vma, hvma, hc, pure_eq_ok.mp h⟩
    · rintro ⟨m', mp', hm', hmp', a, ha, vma, hvma, hc, hprot⟩
      cases hm'
      cases hm.symm.trans hmp'
      simp only [htm.vmmapLookup_eq hm ha hvma hc, ok_bind, hvma, follow_some]
      exact congrArg Except.ok hprot

theorem rangePerm_eq_true {p : Proc} {avaddr len : ℕ} {perm : Flags} :
    s.rangePerm p avaddr perm len = .ok true ↔
      len = 0 ∨ s.addrPerm p avaddr perm = .ok true := by
  induction len with
  | zero => simp [Mem.rangePerm, pure, Except.pure]
  | succ len ih =>
    unfold Mem.rangePerm
    rw [bind_eq_ok]
    constructor
    · rintro ⟨code, hcode, h⟩
      cases code with
      | false => simp [pure, Except.pure] at h
      | true => exact .inr hcode
    · rintro (h | h)
      · cases h
      · exact ⟨true, h, ih.mpr (.inr h)⟩

end

/-! ## A range whose second page cannot be written -/

/-- A page that can be written and, behind it, one that can only be read. -/
def twoAreas : List MapEv :=
  [.create, .map 0 none 1024 1 3 2 0 .hilo, .map 0 none 1025 1 1 2 0 .hilo]

/-- The process that owns the first map. -/
def owner : Proc := { pVmmap := some 0 }

theorem exists_twoAreas : ∃ s, @Tidy .stock s ∧
    (∀ m, owner.pVmmap = some m → ∃ mp, s.maps m = some mp) ∧
    s.rangePerm owner (pnToAddr 1025 - 1) 2 2 = .ok true ∧
    s.addrPerm owner (pnToAddr 1025) 2 = .ok false ∧
    @Mem.copyToUser .stock (s.setProc 0 owner) 0 (pnToAddr 1025 - 1) [7, 8] = .error .overrun := by
  obtain ⟨s, hs, htest⟩ := exists_of_check (f := @mapStep .stock) (s := {}) (l := twoAreas)
    (p := fun s ↦ (s.maps 0).isSome &&
      decide (s.rangePerm owner (pnToAddr 1025 - 1) 2 2 = .ok true) &&
      decide (s.addrPerm owner (pnToAddr 1025) 2 = .ok false) &&
      crashes .overrun (@Mem.copyToUser .stock (s.setProc 0 owner) 0 (pnToAddr 1025 - 1) [7, 8]))
    (by decide +kernel)
  simp only [Bool.and_eq_true, decide_eq_true_eq, crashes_eq_true, Option.isSome_iff_exists]
    at htest
  obtain ⟨⟨⟨hmap, hrange⟩, haddr⟩, hcopy⟩ := htest
  have ht : @Tidy .stock s ∧ ∀ k, s.NoFailure k :=
    (Run.of_exec hs).invariant (I := fun s ↦ @Tidy .stock s ∧ ∀ k, s.NoFailure k)
      (fun _ _ _ ↦ @tidy_mapStep .stock _ _ _)
      ⟨@NoMaps.tidy .stock _ noMaps_empty, noMaps_empty.noFailure⟩
  exact ⟨s, ht.1, fun m hm ↦ by cases hm; exact hmap, hrange, haddr, hcopy⟩

end CS402.Mm

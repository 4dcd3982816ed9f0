import CS402.Vm.Reclaim

/-!
# The break

The break of a process is the end of its heap.  `_elf32_load` sets it, and the starting
break, to the end of the program, and `do_brk` is to move it: the area that has the last
byte of the program is the area of the heap, its end follows the break, and as long as its
way up is free every break from the starting one to the end of user memory is possible.
`BrkRight` says this of a call of `do_brk`.

The heap is known by the object that the loader has mapped there: a mapping that a program
puts in its place shows another one.

The code looks for the area of the heap on the page of the starting break.  This is where
the last byte of the program is unless the break is at the start of a page; then, and when
the heap has been unmapped or replaced, it finds nothing and crashes, or it moves the end of
an area that is none of its business.  `BrkFits` is what has to be the case.
-/

set_option linter.unusedSectionVars false

namespace CS402.Mm

open CS402.Lib Function

variable [Layout]

/-! ## What `do_brk` owes -/

/-- The area of the heap: it has the last byte of the program, and shows the object `o` that the
loader has put there. -/
structure HeapArea (s : Mem) (mp : Vmmap) (start : ℕ) (o : ObjId) (a : AreaId) (vma : VmArea) :
    Prop where
  mem : a ∈ mp.vmmList
  area : s.areas a = some vma
  covers : vma.Covers (addrToPn (start - 1))
  object : vma.vmaObj = some o

/-- An area of the map has a page in the range. -/
def Blocked (s : Mem) (mp : Vmmap) (lo hi : ℕ) : Prop :=
  ∃ b ∈ mp.vmmList, ∃ vb, s.areas b = some vb ∧ ¬ vb.Avoids lo hi

/-- The heap can grow up to the address: nothing is mapped between the end of its area, or the
page where it would have to begin, and the page of the last byte. -/
def GrowthFree (s : Mem) (mp : Vmmap) (start : ℕ) (o : ObjId) (addr : ℕ) : Prop :=
  (∀ a vma, HeapArea s mp start o a vma → vma.vmaEnd ≤ addrToPn (addr - 1) →
    ¬ Blocked s mp vma.vmaEnd (addrToPn (addr - 1) + 1)) ∧
  ((∀ a vma, ¬ HeapArea s mp start o a vma) →
    addrToPn (start + pageSize - 1) ≤ addrToPn (addr - 1) →
    ¬ Blocked s mp (addrToPn (start + pageSize - 1)) (addrToPn (addr - 1) + 1))

/-- The break can be moved to the address. -/
def BrkValid (s : Mem) (mp : Vmmap) (start : ℕ) (o : ObjId) (addr : ℕ) : Prop :=
  start ≤ addr ∧ addr ≤ userMemHigh ∧ GrowthFree s mp start o addr

/-- What `do_brk` owes: it moves the break and the end of the heap, and nothing else, or it refuses
to. -/
structure BrkRight (s : Mem) (p : Pid) (m : MapId) (mp : Vmmap) (start : ℕ) (o : ObjId) (addr : ℕ)
    (out : Except Fault (Mem × Except Errno ℕ)) : Prop where
  moved : BrkValid s mp start o addr → ∃ s' mp' a vma, out = .ok (s', .ok addr) ∧
    (s'.procs p).map Proc.pBrk = some addr ∧ s'.maps m = some mp' ∧
    HeapArea s' mp' start o a vma ∧ vma.vmaEnd = addrToPn (addr - 1) + 1 ∧
    vma.vmaStart < vma.vmaEnd ∧ ∀ b ≠ a, s'.areas b = s.areas b
  refused : ¬ BrkValid s mp start o addr → out = .ok (s, .error .ENOMEM)

/-- When the code is right: the address is out of bounds, or the area on the page of the starting
break is that of the heap, or there is another one and something is in its way. -/
def BrkFits (s : Mem) (m : MapId) (mp : Vmmap) (start : ℕ) (o : ObjId) (addr : ℕ) : Prop :=
  addr ≠ 0 ∧ (addr < start ∨ userMemHigh < addr ∨
    ∃ a vma, s.vmmapLookup m (addrToPn start) = .ok (some a) ∧ s.areas a = some vma ∧
      (HeapArea s mp start o a vma ∨
        vma.vmaEnd ≤ addrToPn (addr - 1) ∧ Blocked s mp vma.vmaEnd (addrToPn (addr - 1) + 1)))

/-- The process `p` has the map `m` and the starting break `start`. -/
structure Breaks (s : Mem) (p : Pid) (m : MapId) (start : ℕ) (x : Proc) : Prop where
  proc : s.procs p = some x
  running : x.running = true
  vmmap : x.pVmmap = some m
  startBrk : x.pStartBrk = start

variable {s s' : Mem} {p : Pid} {m : MapId} {mp : Vmmap} {start addr : ℕ} {o : ObjId}
  {x : Proc} {a : AreaId} {vma : VmArea}

/-! ## What `do_brk` does -/

theorem Breaks.curproc (h : Breaks s p m start x) : s.curproc p = .ok x :=
  Mem.curproc_eq_ok.mpr ⟨h.proc, h.running⟩

theorem Breaks.doBrk_zero (h : Breaks s p m start x) : s.doBrk p 0 = .ok (s, .ok x.pBrk) := by
  unfold Mem.doBrk
  rw [h.curproc, ok_bind, if_pos rfl]
  rfl

theorem Breaks.doBrk_of_bounds (h : Breaks s p m start x) (h₀ : addr ≠ 0)
    (hout : addr < start ∨ userMemHigh < addr) : s.doBrk p addr = .ok (s, .error .ENOMEM) := by
  unfold Mem.doBrk
  rw [h.curproc, ok_bind, if_neg h₀, h.startBrk, if_pos hout]
  rfl

theorem Breaks.doBrk_of_none (h : Breaks s p m start x) (h₀ : addr ≠ 0)
    (hin : ¬ (addr < start ∨ userMemHigh < addr))
    (hl : s.vmmapLookup m (addrToPn start) = .ok none) : s.doBrk p addr = .error .pointer := by
  unfold Mem.doBrk
  rw [h.curproc, ok_bind, if_neg h₀, h.startBrk, if_neg hin, h.vmmap, follow_bind, hl, ok_bind,
    follow_none, error_bind]

theorem addrToPn_pred_lt (h₀ : addr ≠ 0) (h : addr ≤ userMemHigh) :
    addrToPn (addr - 1) + 1 ≤ highPage := by
  have hp : pnToAddr highPage = userMemHigh := pnToAddr_highPage
  unfold pnToAddr at hp
  unfold addrToPn
  rw [Nat.succ_le_iff, Nat.div_lt_iff_lt_mul (by decide)]
  omega

theorem not_blocked_iff {lo hi : ℕ} :
    ¬ Blocked s mp lo hi ↔ ∀ g ∈ s.segs mp.vmmList, g.Avoids lo hi := by
  unfold Blocked
  push Not
  constructor
  · intro h g hg
    obtain ⟨b, hb, vb, hvb, rfl⟩ := Mem.mem_segs.mp hg
    exact h b hb vb hvb
  · intro h b hb vb hvb
    exact h vb.seg (Mem.mem_segs.mpr ⟨b, hb, vb, hvb, rfl⟩)

/-- With an area on the page of the starting break, `do_brk` moves its end unless something is in
the way. -/
theorem Breaks.doBrk_of_some (h : Breaks s p m start x) (hm : s.maps m = some mp)
    (h₀ : addr ≠ 0) (hin : ¬ (addr < start ∨ userMemHigh < addr))
    (hl : s.vmmapLookup m (addrToPn start) = .ok (some a)) (ha : s.areas a = some vma)
    (hlow : lowPage ≤ vma.vmaEnd) :
    (vma.vmaEnd ≤ addrToPn (addr - 1) ∧ Blocked s mp vma.vmaEnd (addrToPn (addr - 1) + 1) →
      s.doBrk p addr = .ok (s, .error .ENOMEM)) ∧
    (¬ (vma.vmaEnd ≤ addrToPn (addr - 1) ∧ Blocked s mp vma.vmaEnd (addrToPn (addr - 1) + 1)) →
      s.doBrk p addr = .ok (s.setBrk p x addr a vma, .ok addr)) := by
  have heq : s.doBrk p addr =
      if vma.vmaEnd ≤ addrToPn (addr - 1) then do
        let empty ← s.vmmapIsRangeEmpty m vma.vmaEnd (addrToPn (addr - 1) - vma.vmaEnd + 1)
        if empty then return (s.setBrk p x addr a vma, .ok addr)
        else return (s, .error .ENOMEM)
      else return (s.setBrk p x addr a vma, .ok addr) := by
    unfold Mem.doBrk
    rw [h.curproc, ok_bind, if_neg h₀, h.startBrk, if_neg hin, h.vmmap, follow_bind, hl,
      ok_bind, follow_bind, ha, follow_bind]
  by_cases hle : vma.vmaEnd ≤ addrToPn (addr - 1)
  · have hend : vma.vmaEnd + (addrToPn (addr - 1) - vma.vmaEnd + 1) = addrToPn (addr - 1) + 1 := by
      omega
    have hhigh := addrToPn_pred_lt h₀ (Nat.not_lt.mp (not_or.mp hin).2)
    obtain ⟨b, hb, hiff⟩ := Mem.vmmapIsRangeEmpty_eq hm (Nat.succ_pos _) hlow (hend.trans_le hhigh)
    rw [hend, ← not_blocked_iff] at hiff
    rw [heq, if_pos hle, hb, ok_bind]
    constructor
    · rintro ⟨-, hblocked⟩
      rw [if_neg fun hb ↦ hiff.mp hb hblocked]
      rfl
    · intro hfree
      rw [if_pos (hiff.mpr fun hblocked ↦ hfree ⟨hle, hblocked⟩)]
      rfl
  · rw [heq, if_neg hle]
    exact ⟨fun hc ↦ absurd hc.1 hle, fun _ ↦ rfl⟩

/-! ## When it is right -/

section Right

variable (h : Breaks s p m start x) (ht : TidyMap s m mp) (hm : s.maps m = some mp)

include ht in
theorem HeapArea.unique {b : AreaId} {vb : VmArea} (ha : HeapArea s mp start o a vma)
    (hb : HeapArea s mp start o b vb) : b = a ∧ vb = vma := by
  obtain rfl := ht.area_unique hb.mem ha.mem hb.area ha.area hb.covers ha.covers
  exact ⟨rfl, Option.some.inj (hb.area.symm.trans ha.area)⟩

include ht in
theorem HeapArea.growthFree_iff (ha : HeapArea s mp start o a vma) :
    GrowthFree s mp start o addr ↔ ¬ (vma.vmaEnd ≤ addrToPn (addr - 1) ∧
      Blocked s mp vma.vmaEnd (addrToPn (addr - 1) + 1)) := by
  constructor
  · rintro ⟨hgrow, -⟩ ⟨hle, hblocked⟩
    exact hgrow a vma ha hle hblocked
  · intro hnot
    refine ⟨fun b vb hb hle hblocked ↦ ?_, fun hnone ↦ absurd ha (hnone a vma)⟩
    obtain ⟨rfl, rfl⟩ := HeapArea.unique ht ha hb
    exact hnot ⟨hle, hblocked⟩

theorem addrToPn_pred_le (start : ℕ) : addrToPn (start - 1) ≤ addrToPn start :=
  Nat.div_le_div_right (Nat.sub_le _ _)

theorem addrToPn_up_le (start : ℕ) : addrToPn (start + pageSize - 1) ≤ addrToPn start + 1 := by
  unfold addrToPn pageSize
  omega

include hm in
theorem lookup_start_cases (start : ℕ) : s.vmmapLookup m (addrToPn start) = .ok none ∨
    ∃ a vma, s.vmmapLookup m (addrToPn start) = .ok (some a) ∧ a ∈ mp.vmmList ∧
      s.areas a = some vma ∧ vma.Covers (addrToPn start) := by
  have hlookup : s.vmmapLookup m (addrToPn start) =
      .ok (mp.vmmList.find? (s.covers (addrToPn start))) := by
    simp [Mem.vmmapLookup, hm]
  cases hf : mp.vmmList.find? (s.covers (addrToPn start)) with
  | none => exact .inl (by rw [hlookup, hf])
  | some a =>
    right
    have hc := List.find?_some hf
    obtain ⟨vma, hvma, hcov⟩ := (Option.any_eq_true _ _).mp hc
    exact ⟨a, vma, by rw [hlookup, hf], List.mem_of_find?_eq_some hf, hvma,
      of_decide_eq_true hcov⟩

include ht hm in
theorem TidyMap.low_le_end (hl : s.vmmapLookup m (addrToPn start) = .ok (some a))
    (hvma : s.areas a = some vma) : lowPage ≤ vma.vmaEnd := by
  rcases lookup_start_cases hm start with hnone | ⟨a', vma', hl', ha', hvma', hcov⟩
  · cases hnone.symm.trans hl
  · cases hl.symm.trans hl'
    cases hvma.symm.trans hvma'
    have hlow := (ht.bounds vma.seg (Mem.mem_segs.mpr ⟨a, ha', vma, hvma, rfl⟩)).1
    exact hlow.trans (hcov.1.trans hcov.2.le)

include ht in
/-- Where the code finds an area that is not that of the heap and something in its way, that is in
the way of the heap as well. -/
theorem not_growthFree_of_blocked (ha : a ∈ mp.vmmList) (hvma : s.areas a = some vma)
    (hcov : vma.Covers (addrToPn start)) (hle : vma.vmaEnd ≤ addrToPn (addr - 1))
    (hblocked : Blocked s mp vma.vmaEnd (addrToPn (addr - 1) + 1)) :
    ¬ GrowthFree s mp start o addr := by
  -- the range that the heap needs begins below the end of the area
  have hwider : ∀ lo ≤ vma.vmaEnd, Blocked s mp lo (addrToPn (addr - 1) + 1) := by
    intro lo hlo
    obtain ⟨b, hb, vb, hvb, hmeets⟩ := hblocked
    refine ⟨b, hb, vb, hvb, fun hav ↦ hmeets ?_⟩
    exact hav.imp_right fun hend ↦ hend.trans hlo
  rintro ⟨hheap, hnone⟩
  by_cases hex : ∃ b vb, HeapArea s mp start o b vb
  · obtain ⟨b, vb, hb⟩ := hex
    have hend : vb.vmaEnd ≤ vma.vmaEnd := by
      by_contra hlt
      rw [not_le] at hlt
      have hb' : vb.Covers (addrToPn start) :=
        ⟨hb.covers.1.trans (addrToPn_pred_le start), hcov.2.trans hlt⟩
      obtain rfl := ht.area_unique hb.mem ha hb.area hvma hb' hcov
      cases hb.area.symm.trans hvma
      exact lt_irrefl _ hlt
    exact hheap b vb hb (hend.trans hle) (hwider _ hend)
  · have hup : addrToPn (start + pageSize - 1) ≤ vma.vmaEnd :=
      (addrToPn_up_le start).trans hcov.2
    exact hnone (fun b vb hb ↦ hex ⟨b, vb, hb⟩) (hup.trans hle) (hwider _ hup)

include h ht hm in
/-- If the code moves the end of an area and that is right, the area is that of the heap. -/
theorem heapArea_of_moved (ha : a ∈ mp.vmmList) (hvma : s.areas a = some vma)
    (hcov : vma.Covers (addrToPn start))
    (hout : s.doBrk p addr = .ok (s.setBrk p x addr a vma, .ok addr))
    (hright : BrkRight s p m mp start o addr (s.doBrk p addr)) : HeapArea s mp start o a vma := by
  have hvalid : BrkValid s mp start o addr := by
    by_contra hnot
    have hres := congrArg Prod.snd (Except.ok.inj (hout.symm.trans (hright.refused hnot)))
    cases hres
  obtain ⟨s', mp', b, vb, hout', -, hm', hheap, hend, -, hothers⟩ := hright.moved hvalid
  cases hout.symm.trans hout'
  have hmaps : (s.setBrk p x addr a vma).maps m = some mp := hm
  cases hmaps.symm.trans hm'
  have hnew : (s.setBrk p x addr a vma).areas a =
      some { vma with vmaEnd := addrToPn (addr - 1) + 1 } := update_self ..
  rcases eq_or_ne b a with rfl | hne
  · cases hheap.area.symm.trans hnew
    exact ⟨ha, hvma, ⟨hheap.covers.1, (addrToPn_pred_le start).trans_lt hcov.2⟩, hheap.object⟩
  · -- then nothing has moved, and both areas have the page of the starting break
    have hsame := hothers a hne.symm
    rw [hnew, hvma] at hsame
    have hold : vma.vmaEnd = addrToPn (addr - 1) + 1 :=
      (congrArg VmArea.vmaEnd (Option.some.inj hsame)).symm
    have hvb : s.areas b = some vb := by
      rw [← hheap.area]
      exact (update_of_ne hne ..).symm
    have hb' : vb.Covers (addrToPn start) :=
      ⟨hheap.covers.1.trans (addrToPn_pred_le start), by rw [hend, ← hold]; exact hcov.2⟩
    exact absurd (ht.area_unique hheap.mem ha hvb hvma hb' hcov) hne

include h ht hm in
/-- `do_brk` is right exactly if the area that it finds is that of the heap, or it refuses with
good reason. -/
theorem doBrk_right_iff (hlow : userMemLow < start) :
    BrkRight s p m mp start o addr (s.doBrk p addr) ↔ BrkFits s m mp start o addr := by
  have hpos : 0 < start := (Nat.zero_le _).trans_lt hlow
  rcases eq_or_ne addr 0 with rfl | h₀
  · refine ⟨fun hright ↦ ?_, fun hfits ↦ absurd rfl hfits.1⟩
    have hout := hright.refused fun hvalid ↦ absurd hvalid.1 (Nat.not_le.mpr hpos)
    rw [h.doBrk_zero] at hout
    cases hout
  by_cases hbounds : addr < start ∨ userMemHigh < addr
  · have hout := h.doBrk_of_bounds h₀ hbounds
    refine ⟨fun _ ↦ ⟨h₀, hbounds.imp_right .inl⟩, fun _ ↦ ⟨fun hvalid ↦ ?_, fun _ ↦ hout⟩⟩
    rcases hbounds with hlt | hlt
    · exact absurd hvalid.1 hlt.not_ge
    · exact absurd hvalid.2.1 hlt.not_ge
  obtain ⟨hstart, hhigh⟩ : start ≤ addr ∧ addr ≤ userMemHigh := by
    rw [not_or, not_lt, not_lt] at hbounds
    exact hbounds
  rcases lookup_start_cases hm start with hnone | ⟨a, vma, hl, ha, hvma, hcov⟩
  · -- a crash
    have hout := h.doBrk_of_none h₀ hbounds hnone
    constructor
    · intro hright
      by_cases hvalid : BrkValid s mp start o addr
      · obtain ⟨s', mp', a, vma, hmoved, -⟩ := hright.moved hvalid
        cases hout.symm.trans hmoved
      · cases hout.symm.trans (hright.refused hvalid)
    · rintro ⟨-, hlt | hlt | ⟨a, vma, hl, -⟩⟩
      · exact absurd (.inl hlt) hbounds
      · exact absurd (.inr hlt) hbounds
      · cases hnone.symm.trans hl
  obtain ⟨hrefuse, hmove⟩ := h.doBrk_of_some hm h₀ hbounds hl hvma (ht.low_le_end hm hl hvma)
  by_cases hway : vma.vmaEnd ≤ addrToPn (addr - 1) ∧
      Blocked s mp vma.vmaEnd (addrToPn (addr - 1) + 1)
  · -- the code refuses, and rightly so
    refine ⟨fun _ ↦ ⟨h₀, .inr (.inr ⟨a, vma, hl, hvma, .inr hway⟩)⟩, fun _ ↦ ?_⟩
    have hnot := not_growthFree_of_blocked (o := o) ht ha hvma hcov hway.1 hway.2
    exact ⟨fun hvalid ↦ absurd hvalid.2.2 hnot, fun _ ↦ hrefuse hway⟩
  · -- the code moves the end of the area
    have hout := hmove hway
    constructor
    · intro hright
      have hheap := heapArea_of_moved h ht hm ha hvma hcov hout hright
      exact ⟨h₀, .inr (.inr ⟨a, vma, hl, hvma, .inl hheap⟩)⟩
    · rintro ⟨-, hlt | hlt | ⟨a', vma', hl', hvma', hcase⟩⟩
      · exact absurd (.inl hlt) hbounds
      · exact absurd (.inr hlt) hbounds
      cases hl.symm.trans hl'
      cases hvma.symm.trans hvma'
      have hheap := hcase.resolve_right hway
      have hvalid : BrkValid s mp start o addr :=
        ⟨hstart, hhigh, (HeapArea.growthFree_iff ht hheap).mpr hway⟩
      have hlast : addrToPn (start - 1) < addrToPn (addr - 1) + 1 :=
        Nat.lt_succ_of_le (Nat.div_le_div_right (Nat.sub_le_sub_right hstart 1))
      refine ⟨fun _ ↦ ⟨s.setBrk p x addr a vma, mp, a, { vma with vmaEnd := addrToPn (addr - 1) + 1 },
        hout, ?_, hm, ⟨ha, update_self .., ⟨hheap.covers.1, hlast⟩, hheap.object⟩, rfl,
        hheap.covers.1.trans_lt hlast, fun b hb ↦ update_of_ne hb ..⟩, fun hnot ↦ absurd hvalid hnot⟩
      change (update s.procs p _ p).map Proc.pBrk = _
      rw [update_self]
      rfl

end Right

/-! ## Runs -/

/-- The calls that move the break or change the map. -/
inductive BrkEv where
  | brk (addr : ℕ)
  | mmap (addr len : ℕ) (prot flags : Flags) (fd : ℤ) (off : ℕ)
  | munmap (addr len : ℕ)

/-- The effect of a call by the process `p`. -/
def brkStep (p : Pid) (s : Mem) : BrkEv → Except Fault Mem
  | .brk addr => do
    let (s, _) ← s.doBrk p addr
    return s
  | .mmap addr len prot flags fd off => do
    let (s, _) ← s.doMmap p addr len prot flags fd off
    return s
  | .munmap addr len => do
    let (s, _) ← s.doMunmap p addr len
    return s

/-- The process has a break between the starting break and the end of user memory. -/
def BrkBounds (p : Pid) (m : MapId) (start : ℕ) (s : Mem) : Prop :=
  ∃ x, Breaks s p m start x ∧ start ≤ x.pBrk ∧ x.pBrk ≤ userMemHigh

theorem BrkBounds.of_procsLe (h : BrkBounds p m start s) (hP : Mem.ProcsLe s'.procs s.procs) :
    BrkBounds p m start s' := by
  obtain ⟨x, hx, hbounds⟩ := h
  rcases hP p with hp | ⟨y, pd, hy, -, hp⟩
  · exact ⟨x, ⟨hp.trans hx.proc, hx.running, hx.vmmap, hx.startBrk⟩, hbounds⟩
  · cases hx.proc.symm.trans hy
    exact ⟨_, ⟨hp, hx.running, hx.vmmap, hx.startBrk⟩, hbounds⟩

theorem BrkBounds.setPagedir (h : BrkBounds p m start s) {x : Proc} {pd : Pagedir}
    (hx : s.procs p = some x) :
    BrkBounds p m start (s.setProc p (some { x with pPagedir := pd })) := by
  obtain ⟨y, hy, hbounds⟩ := h
  cases hx.symm.trans hy.proc
  exact ⟨_, ⟨update_self .., hy.running, hy.vmmap, hy.startBrk⟩, hbounds⟩

/-- What `do_brk` does to the state: nothing, or it moves the break within its bounds. -/
theorem doBrk_cases {r : Except Errno ℕ} (hx : Breaks s p m start x)
    (hs : s.doBrk p addr = .ok (s', r)) :
    s' = s ∨ ∃ a vma, start ≤ addr ∧ addr ≤ userMemHigh ∧ s' = s.setBrk p x addr a vma := by
  unfold Mem.doBrk at hs
  rw [hx.curproc, ok_bind, hx.startBrk] at hs
  split at hs
  · cases hs
    exact .inl rfl
  split at hs
  · cases hs
    exact .inl rfl
  next hbounds =>
  rw [not_or, not_lt, not_lt] at hbounds
  obtain ⟨m', -, hs⟩ := bind_ok hs
  obtain ⟨_, -, hs⟩ := bind_ok hs
  obtain ⟨a, -, hs⟩ := bind_ok hs
  obtain ⟨vma, -, hs⟩ := bind_ok hs
  dsimp only at hs
  split at hs
  · obtain ⟨empty, -, hs⟩ := bind_ok hs
    split at hs
    · cases hs
      exact .inr ⟨a, vma, hbounds.1, hbounds.2, rfl⟩
    · cases hs
      exact .inl rfl
  · cases hs
    exact .inr ⟨a, vma, hbounds.1, hbounds.2, rfl⟩

theorem brkBounds_step {e : BrkEv} (h : BrkBounds p m start s) (hs : brkStep p s e = .ok s') :
    BrkBounds p m start s' := by
  cases e with
  | brk addr =>
    obtain ⟨⟨s₁, r⟩, hbrk, hs⟩ := bind_ok hs
    cases hs
    obtain ⟨x, hx, hbounds⟩ := id h
    rcases doBrk_cases hx hbrk with rfl | ⟨a, vma, hlow, hhigh, rfl⟩
    · exact h
    · exact ⟨_, ⟨update_self .., hx.running, hx.vmmap, hx.startBrk⟩, hlow, hhigh⟩
  | mmap addr len prot flags fd off =>
    obtain ⟨⟨s₁, r⟩, hmmap, hs⟩ := bind_ok hs
    cases hs
    rcases doMmap_cases hmmap with rfl | ⟨_, _, _, s₂, _, _, -, -, hmap, -, hcases⟩
    · exact h
    have h₂ := h.of_procsLe (vmmapMap_procs hmap)
    rcases hcases with ⟨-, rfl⟩ | ⟨x₂, pd, _, hx₂, -, -, rfl⟩
    · exact h₂
    · exact h₂.setPagedir hx₂
  | munmap addr len =>
    obtain ⟨⟨s₁, r⟩, hmunmap, hs⟩ := bind_ok hs
    cases hs
    rcases doMunmap_cases hmunmap with rfl | ⟨_, _, s₂, -, -, -, hrem, hcases⟩
    · exact h
    have h₂ := h.of_procsLe (vmmapRemove_procs hrem)
    rcases hcases with ⟨-, rfl⟩ | hun
    · exact h₂
    · obtain ⟨x₂, pd, hx₂, -, rfl⟩ := unmapPages_eq_ok hun
      exact h₂.setPagedir hx₂

/-- Moving the end of an area over free pages keeps the maps in good order. -/
theorem Tidy.setBrk (ht : Tidy s) (hm : s.maps m = some mp) (ha : a ∈ mp.vmmList)
    (hvma : s.areas a = some vma) (hstart : vma.vmaStart ≤ addrToPn (addr - 1))
    (hhigh : addrToPn (addr - 1) + 1 ≤ highPage)
    (hfree : vma.vmaEnd ≤ addrToPn (addr - 1) →
      ¬ Blocked s mp vma.vmaEnd (addrToPn (addr - 1) + 1)) : Tidy (s.setBrk p x addr a vma) := by
  have htm := ht.map m mp hm
  obtain ⟨l₁, l₂, hl⟩ := List.append_of_mem ha
  have hnodup := htm.nodup
  rw [hl, List.nodup_middle, List.nodup_cons, List.mem_append, not_or] at hnodup
  let s' := s.setBrk p x addr a vma
  have hself : s'.areas a = some { vma with vmaEnd := addrToPn (addr - 1) + 1 } := update_self ..
  have hother : ∀ b ≠ a, s'.areas b = s.areas b := fun b hb ↦ update_of_ne hb ..
  have hsegs : s'.segs mp.vmmList = s.segs l₁ ++
      { vma.seg with hi := addrToPn (addr - 1) + 1 } :: s.segs l₂ := by
    rw [hl, Mem.segs_append, Mem.segs_cons hself,
      Mem.segs_congr fun b hb ↦ hother b (ne_of_mem_of_not_mem hb hnodup.1.1),
      Mem.segs_congr fun b hb ↦ hother b (ne_of_mem_of_not_mem hb hnodup.1.2)]
    rfl
  have hold : s.segs mp.vmmList = s.segs l₁ ++ vma.seg :: s.segs l₂ := by
    rw [hl, Mem.segs_append, Mem.segs_cons hvma]
  have hord := htm.ordered
  rw [hold] at hord
  -- the areas behind it start after its new end
  have hbehind : ∀ g ∈ s.segs l₂, addrToPn (addr - 1) + 1 ≤ g.lo := by
    intro g hg
    have hmem : g ∈ s.segs mp.vmmList := by
      rw [hold]
      exact List.mem_append_right _ (List.mem_cons_of_mem _ hg)
    have hafter : vma.vmaEnd ≤ g.lo :=
      (List.pairwise_cons.mp (List.pairwise_append.mp hord.pairwise).2.1).1 g hg
    rcases Nat.lt_or_ge (addrToPn (addr - 1)) vma.vmaEnd with hlt | hge
    · exact (Nat.succ_le_of_lt hlt).trans hafter
    · rcases not_blocked_iff.mp (hfree hge) g hmem with hav | hav
      · exact hav
      · exact absurd ((htm.ordered.proper g hmem).trans_le (hav.trans hafter)) (lt_irrefl _)
  have hmaps : s'.maps = update s.maps m (some mp) := by
    rw [← hm, update_eq_self]
    rfl
  have honly : OnlyMap m mp mp s s' := by
    refine ⟨hmaps, fun b _ hb ↦ hother b (ne_of_mem_of_not_mem ha hb).symm, fun _ ↦ .inl, ?_, le_rfl⟩
    intro b vb hb
    rcases eq_or_ne b a with rfl | hne
    · exact ht.freshArea b vma hvma
    · exact ht.freshArea b vb ((hother b hne).symm.trans hb)
  refine honly.tidy ht hm ⟨htm.nodup, ?_, ?_, ?_⟩
  · intro b hb
    obtain ⟨vb, hvb, hbm⟩ := htm.live b hb
    rcases eq_or_ne b a with rfl | hne
    · cases hvma.symm.trans hvb
      exact ⟨_, hself, hbm⟩
    · exact ⟨vb, (hother b hne).trans hvb, hbm⟩
  · rw [hsegs]
    exact hord.setHi (Nat.lt_succ_of_le hstart) hbehind
  · intro g hg
    rw [hsegs, List.mem_append, List.mem_cons] at hg
    have hb := htm.bounds
    rw [hold] at hb
    rcases hg with hg | rfl | hg
    · exact hb g (List.mem_append_left _ hg)
    · exact ⟨(hb vma.seg (List.mem_append_right _ List.mem_cons_self)).1, hhigh⟩
    · exact hb g (List.mem_append_right _ (List.mem_cons_of_mem _ hg))

/-- The state that `_elf32_load` leaves: the break and the starting break are at the end of the
program, whose last byte is mapped. -/
structure Loaded (s : Mem) (p : Pid) (m : MapId) (start : ℕ) (o : ObjId) : Prop where
  tidy : Tidy s
  noFailure : ∀ k, s.NoFailure k
  proc : ∃ x, Breaks s p m start x ∧ x.pBrk = start
  low : userMemLow < start
  high : start ≤ userMemHigh
  heap : ∃ mp a vma, s.maps m = some mp ∧ HeapArea s mp start o a vma

/-- The calls of `do_brk` that are right, and that which asks for the break. -/
def BrkCalled (m : MapId) (start : ℕ) (o : ObjId) (s : Mem) : BrkEv → Prop
  | .brk addr => addr = 0 ∨ ∃ mp, s.maps m = some mp ∧ BrkFits s m mp start o addr
  | _ => True

/-- The map of the process is in good order, and memory available. -/
structure InOrder (p : Pid) (m : MapId) (start : ℕ) (s : Mem) : Prop where
  tidy : Tidy s
  noFailure : ∀ k, s.NoFailure k
  bounds : BrkBounds p m start s
  map : ∃ mp, s.maps m = some mp

theorem InOrder.setProc {y : Option Proc} (ht : Tidy s) (hf : ∀ k, s.NoFailure k)
    (hm : ∃ mp, s.maps m = some mp) (hb : BrkBounds p m start (s.setProc p y)) :
    InOrder p m start (s.setProc p y) :=
  ⟨ht.sameMaps ⟨rfl, rfl, le_rfl, fun _ hk ↦ hk⟩, hf, hb, hm⟩

/-- The calls that are right keep the map in good order. -/
theorem inOrder_step {e : BrkEv} (h : InOrder p m start s)
    (hc : BrkCalled m start o s e) (hs : brkStep p s e = .ok s') : InOrder p m start s' := by
  have hb' := brkBounds_step h.bounds hs
  obtain ⟨mp, hm⟩ := h.map
  cases e with
  | brk addr =>
    obtain ⟨⟨s₁, r⟩, hbrk, hs⟩ := bind_ok hs
    cases hs
    obtain ⟨x, hx, -⟩ := h.bounds
    rcases hc with rfl | ⟨mp', hm', h₀, hfits⟩
    · rw [hx.doBrk_zero] at hbrk
      cases hbrk
      exact h
    cases hm.symm.trans hm'
    by_cases hbounds : addr < start ∨ userMemHigh < addr
    · rw [hx.doBrk_of_bounds h₀ hbounds] at hbrk
      cases hbrk
      exact h
    rw [← or_assoc] at hfits
    obtain ⟨a, vma, hl, hvma, hcase⟩ := hfits.resolve_left hbounds
    have hlow' : lowPage ≤ vma.vmaEnd := (h.tidy.map m mp hm).low_le_end hm hl hvma
    obtain ⟨hrefuse, hmove⟩ := hx.doBrk_of_some hm h₀ hbounds hl hvma hlow'
    by_cases hway : vma.vmaEnd ≤ addrToPn (addr - 1) ∧
        Blocked s mp vma.vmaEnd (addrToPn (addr - 1) + 1)
    · rw [hrefuse hway] at hbrk
      cases hbrk
      exact h
    · have hheap := hcase.resolve_right hway
      rw [hmove hway] at hbrk
      cases hbrk
      rw [not_or, not_lt, not_lt] at hbounds
      refine ⟨h.tidy.setBrk hm hheap.mem hvma ?_ (addrToPn_pred_lt h₀ hbounds.2)
        fun hle hblocked ↦ hway ⟨hle, hblocked⟩, h.noFailure, hb', ⟨mp, hm⟩⟩
      exact hheap.covers.1.trans (Nat.div_le_div_right (Nat.sub_le_sub_right hbounds.1 1))
  | mmap addr len prot flags fd off =>
    obtain ⟨⟨s₁, r⟩, hmmap, hs⟩ := bind_ok hs
    cases hs
    rcases doMmap_cases hmmap with rfl | ⟨y, m₁, file, s₂, a, vma, hy, hym, hmap, -, hcases⟩
    · exact h
    obtain ⟨x, hx, -⟩ := h.bounds
    cases hx.proc.symm.trans hy
    cases hx.vmmap.symm.trans hym
    have hstep : mapStep s (.map m file (addrToPn addr) (pagesOf len) prot flags off .hilo) = .ok s₂ :=
      bind_eq_ok.mpr ⟨_, hmap, rfl⟩
    obtain ⟨ht₂, hf₂⟩ := tidy_mapStep ⟨h.tidy, h.noFailure⟩ hstep
    have hm₂ : ∃ mp, s₂.maps m = some mp := by
      rcases vmmapMap_spec h.tidy hm (h.noFailure .vmarea) hmap with
        ⟨hr, -⟩ | ⟨_, mp', _, _, -, -, hspec⟩
      · cases hr
      · exact ⟨mp', hspec.maps⟩
    rcases hcases with ⟨-, rfl⟩ | ⟨x₂, pd, _, hx₂, -, -, rfl⟩
    · exact ⟨ht₂, hf₂, hb', hm₂⟩
    · exact .setProc ht₂ hf₂ hm₂ hb'
  | munmap addr len =>
    obtain ⟨⟨s₁, r⟩, hmunmap, hs⟩ := bind_ok hs
    cases hs
    rcases doMunmap_cases hmunmap with rfl | ⟨y, m₁, s₂, hy, hym, -, hrem, hcases⟩
    · exact h
    obtain ⟨x, hx, -⟩ := h.bounds
    cases hx.proc.symm.trans hy
    cases hx.vmmap.symm.trans hym
    have hstep : mapStep s (.remove m (addrToPn addr) (pagesOf len)) = .ok s₂ := hrem
    obtain ⟨ht₂, hf₂⟩ := tidy_mapStep ⟨h.tidy, h.noFailure⟩ hstep
    have hm₂ : ∃ mp, s₂.maps m = some mp := by
      obtain ⟨-, mp', ok, hspec⟩ := vmmapRemove_spec h.tidy hm hrem
      exact ⟨mp', hspec.only.maps_self⟩
    rcases hcases with ⟨-, rfl⟩ | hun
    · exact ⟨ht₂, hf₂, hb', hm₂⟩
    · obtain ⟨x₂, pd, hx₂, -, rfl⟩ := unmapPages_eq_ok hun
      exact .setProc ht₂ hf₂ hm₂ hb'

/-- **The break.**  Along every run of calls of `do_brk`, `do_mmap` and `do_munmap` after the
loader the break stays between the starting break and the end of user memory; and as long as
`do_brk` has been called where it is right, it is right exactly where `BrkFits` holds. -/
theorem break_of_run {s₀ : Mem} (h₀ : Loaded s₀ p m start o) :
    (∀ h s, Run (ofStep (brkStep p)) s₀ h s → BrkBounds p m start s) ∧
    ∀ h s, Run (restrict (ofStep (brkStep p)) (BrkCalled m start o)) s₀ h s →
      ∃ mp, s.maps m = some mp ∧ ∀ addr,
        (BrkRight s p m mp start o addr (s.doBrk p addr) ↔ BrkFits s m mp start o addr) := by
  have hbounds : BrkBounds p m start s₀ := by
    obtain ⟨x, hx, hbrk⟩ := h₀.proc
    exact ⟨x, hx, hbrk.ge, hbrk.trans_le h₀.high⟩
  have horder : InOrder p m start s₀ := by
    obtain ⟨mp, _, _, hm, -⟩ := h₀.heap
    exact ⟨h₀.tidy, h₀.noFailure, hbounds, ⟨mp, hm⟩⟩
  refine ⟨fun h s hr ↦ hr.invariant (fun _ _ _ ↦ brkBounds_step) hbounds, fun h s hr ↦ ?_⟩
  have hs : InOrder p m start s :=
    hr.invariant (fun _ _ _ hI hstep ↦ inOrder_step hI hstep.1 hstep.2) horder
  obtain ⟨mp, hm⟩ := hs.map
  obtain ⟨x, hx, -⟩ := hs.bounds
  exact ⟨mp, hm, fun addr ↦ doBrk_right_iff hx (hs.tidy.map m mp hm) hm h₀.low⟩

/-! ## A program of one page -/

/-- The end of `_elf32_load`: the break and the starting break of the process. -/
def Mem.setStartBrk (s : Mem) (p : Pid) (brk : ℕ) : Mem :=
  s.setProc p ((s.procs p).map fun x ↦ { x with pBrk := brk, pStartBrk := brk })

/-- The object of the first area of a map. -/
def Mem.firstObj (s : Mem) (m : MapId) : Option ObjId := do
  let mp ← s.maps m
  let a ← mp.vmmList.head?
  let vma ← s.areas a
  vma.vmaObj

/-- Whether an area of a map is empty. -/
def Mem.hasEmpty (s : Mem) (m : MapId) : Bool :=
  (s.maps m).any fun mp ↦ mp.vmmList.any fun a ↦ (s.areas a).any fun vma ↦ vma.vmaStart = vma.vmaEnd

theorem loaded_setStartBrk (ht : Tidy s) (hf : ∀ k, s.NoFailure k) (hx : s.procs p = some x)
    (hrun : x.running = true) (hxm : x.pVmmap = some m) (hm : s.maps m = some mp)
    (hheap : HeapArea s mp start o a vma) (hlow : userMemLow < start) (hhigh : start ≤ userMemHigh) :
    Loaded (s.setStartBrk p start) p m start o where
  tidy := ht.sameMaps ⟨rfl, rfl, le_rfl, fun _ hk ↦ hk⟩
  noFailure := hf
  proc := by
    refine ⟨{ x with pBrk := start, pStartBrk := start }, ⟨?_, hrun, hxm, rfl⟩, rfl⟩
    change update s.procs p _ p = _
    rw [update_self, hx]
    rfl
  low := hlow
  high := hhigh
  heap := ⟨mp, a, vma, hm, hheap.mem, hheap.area, hheap.covers, hheap.object⟩

omit [Layout] in
/-- The program has the page 1024; its end may be in the middle or at the end of the page. -/
theorem exists_onePage : ∃ (s : Mem) (o : ObjId),
    (∀ start, pnToAddr 1024 < start → start ≤ pnToAddr 1025 →
      @Loaded .stock (s.setStartBrk 1 start) 1 0 start o) ∧
    @Mem.doBrk .stock (s.setStartBrk 1 (pnToAddr 1025)) 1 (pnToAddr 1025 + 1) = .error .pointer ∧
    (∃ s', exec (@brkStep .stock 1) (s.setStartBrk 1 (pnToAddr 1025))
        [.mmap (pnToAddr 1025) 4096 3 (2 ||| 4 ||| 8) (-1) 0, .brk (pnToAddr 1025)] = .ok s' ∧
      s'.hasEmpty 0 = true) := by
  obtain ⟨s, hs, htest⟩ := exists_of_check (f := @spaceStep .stock) (s := {})
    (l := [.create 1, .map 0 none 1024 1 3 2 0 .hilo])
    (p := fun s ↦ (s.firstObj 0).isSome && (s.procs 1).any (fun x ↦ x.running ∧ x.pVmmap = some 0) &&
      (s.maps 0).any (fun mp ↦ mp.vmmList.any fun a ↦ (s.areas a).any fun vma ↦
        vma.vmaStart = 1024 ∧ vma.vmaEnd = 1025 ∧ vma.vmaObj = s.firstObj 0) &&
      crashes .pointer (@Mem.doBrk .stock (s.setStartBrk 1 (pnToAddr 1025)) 1 (pnToAddr 1025 + 1)) &&
      check (@brkStep .stock 1) (s.setStartBrk 1 (pnToAddr 1025))
        [.mmap (pnToAddr 1025) 4096 3 (2 ||| 4 ||| 8) (-1) 0, .brk (pnToAddr 1025)]
        fun s' ↦ s'.hasEmpty 0)
    (by decide +kernel)
  have hspaces := @Booted.spaces_of_run .stock _ _ _ booted_empty (Run.of_exec hs)
  have ht := @Spaces.tidy .stock _ _ hspaces
  have hf := @Spaces.noFailure .stock _ _ hspaces
  simp only [Bool.and_eq_true, Option.isSome_iff_exists, Option.any_eq_true, List.any_eq_true,
    decide_eq_true_eq, crashes_eq_true] at htest
  obtain ⟨⟨⟨⟨⟨o, ho⟩, x, hx, hrun, hxm⟩, mp, hm, a, ha, vma, hvma, hstart, hend, hobj⟩, hcrash⟩,
    hempty⟩ := htest
  refine ⟨s, o, fun start hlow hhigh ↦ ?_, hcrash, exists_of_check hempty⟩
  have hpage : addrToPn (start - 1) = 1024 := by
    unfold pnToAddr pageSize at hlow hhigh
    unfold addrToPn pageSize
    omega
  refine @loaded_setStartBrk .stock _ _ _ mp start o x a vma ht hf hx hrun hxm hm
    ⟨ha, hvma, ?_, hobj.trans ho⟩ ?_ ?_
  · rw [hpage]
    exact ⟨hstart.le, hend.symm ▸ Nat.lt_succ_self 1024⟩
  · exact hlow
  · exact hhigh.trans (by decide)

omit [Layout] in
/-- With the starting break at the end of a page, the first call of `do_brk` crashes; and after a
mapping has been put there, going back to the starting break leaves an area without pages. -/
theorem aligned_break_crashes : ∃ (s : Mem) (o : ObjId),
    @Loaded .stock s 1 0 (pnToAddr 1025) o ∧
    @Mem.doBrk .stock s 1 (pnToAddr 1025 + 1) = .error .pointer ∧
    (∃ s', exec (@brkStep .stock 1) s
        [.mmap (pnToAddr 1025) 4096 3 (2 ||| 4 ||| 8) (-1) 0, .brk (pnToAddr 1025)] = .ok s' ∧
      s'.hasEmpty 0 = true) := by
  obtain ⟨s, o, hloaded, hcrash, hempty⟩ := exists_onePage
  exact ⟨s.setStartBrk 1 (pnToAddr 1025), o, hloaded _ (by decide) le_rfl, hcrash, hempty⟩

omit [Layout] in
/-- With the starting break inside a page, `do_brk` is right. -/
theorem unaligned_break_moves : ∃ (s : Mem) (mp : Vmmap) (o : ObjId),
    @Loaded .stock s 1 0 (pnToAddr 1024 + 5) o ∧ s.maps 0 = some mp ∧
    @BrkRight .stock s 1 0 mp (pnToAddr 1024 + 5) o (pnToAddr 1030)
      (@Mem.doBrk .stock s 1 (pnToAddr 1030)) := by
  obtain ⟨s, o, hloaded, -⟩ := exists_onePage
  have h₀ := hloaded (pnToAddr 1024 + 5) (by decide) (by decide)
  obtain ⟨mp, hm, hiff⟩ := (@break_of_run .stock 1 0 (pnToAddr 1024 + 5) o _ h₀).2 [] _ .start
  obtain ⟨mp', a, vma, hm', hheap⟩ := @Loaded.heap .stock _ _ _ _ _ h₀
  cases hm.symm.trans hm'
  have htidy := @Tidy.map .stock _ (@Loaded.tidy .stock _ _ _ _ _ h₀) 0 mp hm
  have hl := @TidyMap.vmmapLookup_eq .stock _ _ _ htidy hm _ _ _ hheap.mem hheap.area hheap.covers
  exact ⟨_, mp, o, h₀, hm, (hiff _).mpr
    ⟨by decide, .inr (.inr ⟨a, vma, hl, hheap.area, .inl hheap⟩)⟩⟩

end CS402.Mm

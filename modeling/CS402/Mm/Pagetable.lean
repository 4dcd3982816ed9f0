import CS402.Basic
import CS402.Lib.Outcome
import CS402.Lib.Refs
import Mathlib.Logic.Function.Basic
import Mathlib.Tactic.Ring

/-!
# Page directories

The model of `kernel/mm/pagetable.c`.  A directory has one slot for every four
megabytes of address space; a slot that is in use points to a table of 1024
entries.  A slot or an entry that is zero in the source is `none` here; one that
is not carries its flags, and counts only if `PT_PRESENT` is among them.  The
frame behind an entry is named and not addressed, so the physical address of the
source is the name of a frame.

`Pagedir.entry` is what the processor sees: the present entry of a page, if any.
The two facts about it that the rest of the development uses are that
`pt_unmap_range` removes every entry of its range, and that no unmapping ever
makes up or changes an entry.  (That it may remove entries outside its range, when
both ends lie in one table, does no harm to these facts.)
-/

namespace CS402.Mm

open CS402.Lib Function

/-- `PT_ENTRY_COUNT`. -/
def ptEntryCount : ℕ := 1024

/-- `PT_PRESENT`, also `PD_PRESENT`. -/
def ptPresent : Flags := 1

/-- `PT_WRITE`, also `PD_WRITE`. -/
def ptWrite : Flags := 2

/-- `PT_USER`, also `PD_USER`. -/
def ptUser : Flags := 4

/-- An entry of a page table: a frame and flags. -/
structure Pte where
  paddr : ℕ
  flags : Flags
deriving DecidableEq

/-- A used slot of a page directory: flags and the table. -/
structure Pde where
  flags : Flags
  table : ℕ → Option Pte

/-- `pagedir_t`. -/
abbrev Pagedir := ℕ → Option Pde

/-- `vaddr_to_pdindex`. -/
def vaddrToPdindex (vaddr : ℕ) : ℕ := addrToPn vaddr / ptEntryCount

/-- `vaddr_to_ptindex`. -/
def vaddrToPtindex (vaddr : ℕ) : ℕ := addrToPn vaddr % ptEntryCount

namespace Pagedir

/-- The present slot with a given number: the test `PT_PRESENT & pd_physical[i]`. -/
def slot (pd : Pagedir) (i : ℕ) : Option Pde := (pd i).filter fun e ↦ e.flags.has ptPresent

/-- The present entry of a page. -/
def entry (pd : Pagedir) (v : ℕ) : Option Pte :=
  (pd.slot (v / ptEntryCount)).bind fun e ↦
    (e.table (v % ptEntryCount)).filter fun t ↦ t.flags.has ptPresent

/-- Whether the processor lets a user write through the entry of a page: both the
slot and the entry must allow it. -/
def writable (pd : Pagedir) (v : ℕ) : Bool :=
  (pd.slot (v / ptEntryCount)).any (fun e ↦ e.flags.has ptWrite) &&
    (pd.entry v).any (fun t ↦ t.flags.has ptWrite)

/-- Zero those entries of one table whose index meets `P`. -/
def clear (pd : Pagedir) (i : ℕ) (P : ℕ → Bool) : Pagedir :=
  match pd.slot i with
  | some e => update pd i (some { e with table := fun k ↦ if P k then none else e.table k })
  | none => pd

/-- The second half of `pt_map`: add the flags to the slot, creating its table if
there is none, and set the entry. -/
def install (pd : Pagedir) (vaddr : ℕ) (paddr : ℕ) (pdflags ptflags : Flags) : Pagedir :=
  let i := vaddrToPdindex vaddr
  let e : Pde := match pd.slot i with
    | some e => { e with flags := e.flags ||| pdflags }
    | none => { flags := pdflags, table := fun _ ↦ none }
  let t : Pte := { paddr := paddr, flags := ptflags }
  update pd i (some { e with table := update e.table (vaddrToPtindex vaddr) (some t) })

end Pagedir

/-- The body of `pt_unmap_range`: the tail of the first table, the head of the last
one, and the tables in between, which are freed.  `Layout.high_le` keeps the
addition to `vlow` from wrapping. -/
def unmapRange (pd : Pagedir) (vlow vhigh : ℕ) : Pagedir :=
  let i := vaddrToPtindex vlow
  let pd := if i ≠ 0 then pd.clear (vaddrToPdindex vlow) (fun k ↦ i ≤ k) else pd
  let vlow := vlow + pageSize * ((ptEntryCount - i) % ptEntryCount)
  let j := vaddrToPtindex vhigh
  let pd := if j ≠ 0 then pd.clear (vaddrToPdindex vhigh) (fun k ↦ k < j) else pd
  let vhigh := vhigh - pageSize * j
  fun d ↦ if vaddrToPdindex vlow ≤ d ∧ d < vaddrToPdindex vhigh then
    (pd d).filter fun e ↦ !e.flags.has ptPresent else pd d

section

variable [Layout]

/-- The assertions shared by `pt_map` and `pt_unmap`: an aligned user address. -/
def UserPage (vaddr : ℕ) : Prop :=
  PageAligned vaddr ∧ userMemLow ≤ vaddr ∧ vaddr < userMemHigh

instance (vaddr : ℕ) : Decidable (UserPage vaddr) := inferInstanceAs (Decidable (_ ∧ _))

/-- `pt_unmap`. -/
def ptUnmap (pd : Pagedir) (vaddr : ℕ) : Except Fault Pagedir := do
  demand .assertion (UserPage vaddr)
  return pd.clear (vaddrToPdindex vaddr) (fun k ↦ k = vaddrToPtindex vaddr)

/-- The assertions of `pt_unmap_range`. -/
def UserRange (vlow vhigh : ℕ) : Prop :=
  vlow < vhigh ∧ PageAligned vlow ∧ PageAligned vhigh ∧ userMemLow ≤ vlow ∧ vhigh ≤ userMemHigh

instance (vlow vhigh : ℕ) : Decidable (UserRange vlow vhigh) :=
  inferInstanceAs (Decidable (_ ∧ _))

/-- `pt_unmap_range`. -/
def ptUnmapRange (pd : Pagedir) (vlow vhigh : ℕ) : Except Fault Pagedir := do
  demand .assertion (UserRange vlow vhigh)
  return unmapRange pd vlow vhigh

end

/-! ## What unmapping does to the entries -/

/-- Every entry of `pd'` is an entry of `pd`, and no slot has gained the right to write. -/
structure Pagedir.Le (pd' pd : Pagedir) : Prop where
  entry : ∀ v t, pd'.entry v = some t → pd.entry v = some t
  writable : ∀ v, pd'.writable v = true → pd.writable v = true

variable {v : ℕ}

namespace Pagedir

variable {pd pd' pd'' : Pagedir}

theorem Le.refl (pd : Pagedir) : pd.Le pd := ⟨fun _ _ h ↦ h, fun _ h ↦ h⟩

theorem Le.trans (h : pd''.Le pd') (h' : pd'.Le pd) : pd''.Le pd :=
  ⟨fun v t ht ↦ h'.entry v t (h.entry v t ht), fun v hv ↦ h'.writable v (h.writable v hv)⟩

theorem slot_clear (pd : Pagedir) (i j : ℕ) (P : ℕ → Bool) :
    (pd.clear i P).slot j = if j = i then
      (pd.slot i).map fun e ↦ { e with table := fun k ↦ if P k then none else e.table k }
    else pd.slot j := by
  unfold clear
  cases hs : pd.slot i with
  | none =>
    rcases eq_or_ne j i with rfl | h
    · simp [hs]
    · simp [h]
  | some e =>
    have he : e.flags.has ptPresent = true := (Option.filter_eq_some_iff.mp hs).2
    rcases eq_or_ne j i with rfl | h
    · simp [slot, he]
    · simp [slot, h]

theorem entry_clear (pd : Pagedir) (i v : ℕ) (P : ℕ → Bool) :
    (pd.clear i P).entry v =
      if v / ptEntryCount = i ∧ P (v % ptEntryCount) = true then none else pd.entry v := by
  unfold entry
  rw [slot_clear]
  split
  · next h =>
    rw [h]
    cases pd.slot i with
    | none => simp
    | some e => cases hP : P (v % ptEntryCount) <;> simp [hP]
  · next h => simp [h]

theorem clear_le (pd : Pagedir) (i : ℕ) (P : ℕ → Bool) : (pd.clear i P).Le pd := by
  have hentry : ∀ v t, (pd.clear i P).entry v = some t → pd.entry v = some t := by
    intro v t h
    rw [entry_clear] at h
    split at h
    · cases h
    · exact h
  refine ⟨hentry, ?_⟩
  intro v h
  simp only [writable, Bool.and_eq_true, Option.any_eq_true] at h ⊢
  obtain ⟨⟨e, he, hw⟩, t, ht, hwt⟩ := h
  refine ⟨?_, t, hentry v t ht, hwt⟩
  rw [slot_clear] at he
  split at he
  · next hi =>
    obtain ⟨e', he', rfl⟩ := Option.map_eq_some_iff.mp he
    exact ⟨e', hi ▸ he', hw⟩
  · exact ⟨e, he, hw⟩

theorem drop_le (pd : Pagedir) (P : ℕ → Prop) [DecidablePred P] :
    Pagedir.Le (fun d ↦ if P d then (pd d).filter fun e ↦ !e.flags.has ptPresent else pd d) pd := by
  have hslot : ∀ d e, slot (fun d ↦ if P d then
      (pd d).filter fun e ↦ !e.flags.has ptPresent else pd d) d = some e → pd.slot d = some e := by
    intro d e h
    simp only [slot] at h ⊢
    split at h
    · simp only [Option.filter_eq_some_iff] at h
      obtain ⟨⟨-, h'⟩, h⟩ := h
      simp [h] at h'
    · exact h
  have hentry : ∀ v t, entry (fun d ↦ if P d then
      (pd d).filter fun e ↦ !e.flags.has ptPresent else pd d) v = some t → pd.entry v = some t := by
    intro v t h
    obtain ⟨e, he, h⟩ := Option.bind_eq_some_iff.mp h
    exact Option.bind_eq_some_iff.mpr ⟨e, hslot _ e he, h⟩
  refine ⟨hentry, ?_⟩
  intro v h
  simp only [writable, Bool.and_eq_true, Option.any_eq_true] at h ⊢
  obtain ⟨⟨e, he, hw⟩, t, ht, hwt⟩ := h
  exact ⟨⟨e, hslot _ e he, hw⟩, t, hentry v t ht, hwt⟩

/-- `pt_map` leaves the entries of other pages, and points that of the page to the frame. -/
theorem entry_install {vaddr paddr : ℕ} {pdflags ptflags : Flags} {t : Pte}
    (h : (pd.install vaddr paddr pdflags ptflags).entry v = some t) :
    (v = addrToPn vaddr ∧ t.paddr = paddr) ∨ pd.entry v = some t := by
  obtain ⟨e, hslot, hentry⟩ := Option.bind_eq_some_iff.mp h
  obtain ⟨he, hpd⟩ := Option.filter_eq_some_iff.mp hslot
  obtain ⟨ht, hpt⟩ := Option.filter_eq_some_iff.mp hentry
  rcases of_update_some he with ⟨hd, rfl⟩ | ⟨-, he⟩
  · rcases update_eq_some.mp ht with ⟨hi, hx⟩ | ⟨-, ht⟩
    · cases hx
      refine .inl ⟨?_, rfl⟩
      calc v = ptEntryCount * (v / ptEntryCount) + v % ptEntryCount := (Nat.div_add_mod ..).symm
        _ = ptEntryCount * (addrToPn vaddr / ptEntryCount) + addrToPn vaddr % ptEntryCount := by
            rw [hd, hi, vaddrToPdindex, vaddrToPtindex]
        _ = addrToPn vaddr := Nat.div_add_mod ..
    · -- another entry of the same table
      refine .inr (Option.bind_eq_some_iff.mpr ?_)
      rw [hd]
      cases hs : pd.slot (vaddrToPdindex vaddr) with
      | none =>
        rw [hs] at ht
        cases ht
      | some e₀ =>
        rw [hs] at ht
        exact ⟨e₀, rfl, Option.filter_eq_some_iff.mpr ⟨ht, hpt⟩⟩
  · exact .inr (Option.bind_eq_some_iff.mpr
      ⟨e, Option.filter_eq_some_iff.mpr ⟨he, hpd⟩, hentry⟩)

end Pagedir

theorem unmapRange_le (pd : Pagedir) (vlow vhigh : ℕ) : (unmapRange pd vlow vhigh).Le pd := by
  unfold unmapRange
  refine (Pagedir.drop_le _ _).trans ?_
  -- the two partial tables
  split <;> split
  · exact (Pagedir.clear_le _ _ _).trans (Pagedir.clear_le _ _ _)
  · exact Pagedir.clear_le _ _ _
  · exact Pagedir.clear_le _ _ _
  · exact Pagedir.Le.refl _

theorem entry_drop_eq (pd : Pagedir) (P : ℕ → Prop) [DecidablePred P] (v : ℕ) :
    Pagedir.entry (fun d ↦ if P d then (pd d).filter fun e ↦ !e.flags.has ptPresent else pd d) v =
      if P (v / 1024) then none else pd.entry v := by
  unfold Pagedir.entry Pagedir.slot ptEntryCount
  by_cases hP : P (v / 1024)
  · simp [hP, Option.filter_filter]
  · simp only [if_neg hP]

/-- The pages whose entries `pt_unmap_range` clears, from the first page of the range and the
first page after it. -/
def Cleared (lo hi u : ℕ) : Prop :=
  (lo % 1024 ≠ 0 ∧ u / 1024 = lo / 1024 ∧ lo % 1024 ≤ u % 1024) ∨
  (hi % 1024 ≠ 0 ∧ u / 1024 = hi / 1024 ∧ u % 1024 < hi % 1024) ∨
  ((lo + (1024 - lo % 1024) % 1024) / 1024 ≤ u / 1024 ∧ u / 1024 < (hi - hi % 1024) / 1024)

instance (lo hi u : ℕ) : Decidable (Cleared lo hi u) := inferInstanceAs (Decidable (_ ∨ _))

/-- The entries that `pt_unmap_range` clears. -/
theorem entry_unmapRange_eq (pd : Pagedir) (vlow vhigh v : ℕ) :
    (unmapRange pd vlow vhigh).entry v =
      if Cleared (addrToPn vlow) (addrToPn vhigh) v then none else pd.entry v := by
  have hclear : ∀ (pd : Pagedir) (c : Prop) [Decidable c] (i : ℕ) (P : ℕ → Bool),
      (if c then pd.clear i P else pd).entry v =
        if c ∧ v / 1024 = i ∧ P (v % 1024) = true then none else pd.entry v := by
    intro pd c _ i P
    by_cases hc : c
    · simp only [hc, if_true, true_and]
      exact Pagedir.entry_clear pd i v P
    · simp only [hc, if_false, false_and]
  unfold unmapRange
  simp only []
  rw [entry_drop_eq, hclear, hclear]
  unfold vaddrToPdindex vaddrToPtindex ptEntryCount
  simp only [addrToPn_add_mul, addrToPn_sub_mul, decide_eq_true_eq]
  by_cases hc : Cleared (addrToPn vlow) (addrToPn vhigh) v
  · rw [if_pos hc]
    rcases hc with h | h | h
    · rw [if_pos h, ite_self, ite_self]
    · rw [if_pos h, ite_self]
    · rw [if_pos h]
  · rw [if_neg hc, if_neg fun h ↦ hc (.inr (.inr h)), if_neg fun h ↦ hc (.inr (.inl h)),
      if_neg fun h ↦ hc (.inl h)]

/-- The entries of the range are gone.  The page lies in the first table, in the
last one or in one between them. -/
theorem entry_unmapRange {pd : Pagedir} {vlow vhigh : ℕ} (hlo : addrToPn vlow ≤ v)
    (hhi : v < addrToPn vhigh) : (unmapRange pd vlow vhigh).entry v = none := by
  have hc : Cleared (addrToPn vlow) (addrToPn vhigh) v := by
    unfold Cleared
    omega
  rw [entry_unmapRange_eq, if_pos hc]

section

variable [Layout] {pd pd' : Pagedir} {vaddr vlow vhigh : ℕ}

theorem UserRange.pages_lt (h : UserRange vlow vhigh) : addrToPn vlow < addrToPn vhigh := by
  obtain ⟨hlt, hlow, hhigh, -⟩ := h
  rw [← hlow.pnToAddr_addrToPn, ← hhigh.pnToAddr_addrToPn] at hlt
  exact Nat.lt_of_mul_lt_mul_right hlt

theorem ptUnmap_le (h : ptUnmap pd vaddr = .ok pd') : pd'.Le pd := by
  obtain ⟨-, -, h⟩ := bind_ok h
  rw [← pure_eq_ok.mp h]
  exact Pagedir.clear_le _ _ _

theorem ptUnmapRange_eq_ok :
    ptUnmapRange pd vlow vhigh = .ok pd' ↔ UserRange vlow vhigh ∧ unmapRange pd vlow vhigh = pd' := by
  simp only [ptUnmapRange, bind_eq_ok, demand_eq_ok, pure_eq_ok, exists_and_left, exists_const]

theorem ptUnmapRange_le (h : ptUnmapRange pd vlow vhigh = .ok pd') : pd'.Le pd :=
  (ptUnmapRange_eq_ok.mp h).2 ▸ unmapRange_le pd vlow vhigh

end

end CS402.Mm

import CS402.Mm.Pagedir

/-!
# Page directories refine a translation map

Every call changes the translation as its name says, with two exceptions.  A table that
`pt_map` makes without `PT_PRESENT` in `pdflags` is lost at once, and `pt_unmap_range` clears
a whole table when both of its bounds lie inside it: the two partial tables are one, and
together the two parts that are cleared are all of it.

`Sound` says that the tables belong to the slots of user memory that are present, each to one
of them.  So a table that is written is seen through one slot, and a table that is freed is
freed for the first time.
-/

namespace CS402.Pagedirs

open Lib Mm Function

/-! ## Words -/

theorem has_or (a b p : Flags) : (a ||| b).has p = (a.has p || b.has p) := by
  unfold Flags.has
  rw [BitVec.and_or_distrib_right]
  grind

variable {w : Flags}

theorem IsFlags.and_mask (h : IsFlags w) : w &&& pageMask = 0#32 := by
  rw [← h, BitVec.and_assoc]
  simp

theorem IsFrame.and_mask (h : IsFrame w) : w &&& pageMask = w := by
  have hor : w &&& (pageMask ||| ~~~pageMask) = w := by
    rw [show pageMask ||| ~~~pageMask = BitVec.allOnes 32 by decide, BitVec.and_allOnes]
  rw [BitVec.and_or_distrib_left, show w &&& ~~~pageMask = 0#32 from h, BitVec.or_zero] at hor
  exact hor

theorem IsFrame.has_present (h : IsFrame w) : w.has ptPresent = false := by
  unfold Flags.has
  rw [show ptPresent = ~~~pageMask &&& ptPresent by decide, ← BitVec.and_assoc,
    show w &&& ~~~pageMask = 0#32 from h, BitVec.zero_and]
  rfl

theorem isFrame_and_mask (w : Flags) : IsFrame (w &&& pageMask) := by
  unfold IsFrame
  rw [BitVec.and_assoc]
  simp

theorem has_frame_or {p f : Flags} (hp : IsFrame p) : (p ||| f).has ptPresent = f.has ptPresent := by
  rw [has_or, hp.has_present, Bool.false_or]

theorem decode_or {p f : Flags} (hp : IsFrame p) (hf : IsFlags f) :
    decode (p ||| f) = if f.has ptPresent then some (p, f) else none := by
  unfold decode
  rw [has_frame_or hp, BitVec.and_or_distrib_right, BitVec.and_or_distrib_right, hp.and_mask,
    hf.and_mask, show p &&& ~~~pageMask = 0#32 from hp, show f &&& ~~~pageMask = f from hf,
    BitVec.or_zero, BitVec.zero_or]

theorem decode_zero : decode 0#32 = none := by decide

theorem zero_has (p : Flags) : Flags.has 0#32 p = false := by simp [Flags.has]

/-! ## Pages and slots -/

/-- The tables of user memory are not shared with the kernel, and there are at least two of
them. -/
class Tables [Layout] : Prop where
  low_dvd : ptVaddrSize ∣ userMemLow
  high_dvd : ptVaddrSize ∣ userMemHigh
  two : firstSlot < lastSlot

theorem Tables.stock : @Tables Layout.stock := by
  let := Layout.stock
  exact ⟨by decide, by decide, by decide⟩

variable {vaddr : ℕ}

section slots

variable [Layout] [Tables]

theorem userSlot_iff {i : ℕ} : UserSlot i ↔ lowPage / 1024 ≤ i ∧ i < highPage / 1024 := by
  have hlow := Tables.low_dvd
  have hhigh := Tables.high_dvd
  have hlt := Layout.low_lt_high
  unfold UserSlot firstSlot lastSlot lowPage highPage addrToPn
  unfold ptVaddrSize pageSize ptEntryCount at *
  omega

theorem userPage_iff {u : ℕ} : lowPage ≤ u ∧ u < highPage ↔ UserSlot (u / 1024) := by
  have hlow := Tables.low_dvd
  have hhigh := Tables.high_dvd
  rw [userSlot_iff]
  unfold lowPage highPage addrToPn
  unfold ptVaddrSize pageSize ptEntryCount at *
  omega

theorem userSlot_of_userPage (h : UserPage vaddr) : UserSlot (vaddrToPdindex vaddr) := by
  obtain ⟨-, hlo, hhi⟩ := h
  refine userPage_iff.mp ⟨Nat.div_le_div_right hlo, ?_⟩
  have hmul := pnToAddr_highPage
  unfold pnToAddr at hmul
  exact (Nat.div_lt_iff_lt_mul (by decide)).mpr (hmul ▸ hhi)

end slots

/-! ## The invariant -/

variable [Layout]

/-- The kernel's part of a directory is what the template has. -/
structure State.Kept (t : Template) (s : State) : Prop where
  physical : ∀ i < ptEntryCount, ¬UserSlot i → s.pd.pdPhysical i = t.dir.pdPhysical i
  virtual : ∀ i < ptEntryCount, ¬UserSlot i → s.pd.pdVirtual i = t.dir.pdVirtual i
  table : ∀ p, t.Kernel p → s.table p = t.table p

/-- The tables are those of the user slots that are present, one for each. -/
structure State.Sound (t : Template) (s : State) : Prop where
  owned : ∀ i, UserSlot i → s.pd.present i = true → s.pd.pdVirtual i ∈ s.tables
  one : ∀ i j, UserSlot i → UserSlot j → s.pd.present i = true → s.pd.present j = true →
    s.pd.pdVirtual i = s.pd.pdVirtual j → i = j
  used : ∀ p ∈ s.tables, ∃ i, UserSlot i ∧ s.pd.present i = true ∧ s.pd.pdVirtual i = p
  nodup : s.tables.Nodup
  apart : ∀ p ∈ s.tables, ¬t.Kernel p
  /-- The processor reads the same table as the kernel. -/
  frame : ∀ i, UserSlot i → s.pd.present i = true →
    s.pd.pdPhysical i &&& pageMask = ptVirtToPhys t (s.pd.pdVirtual i)

variable {t : Template} {s s' : State} {i : ℕ} {paddr pdflags ptflags : Flags} {page : Option ℕ}

theorem State.Sound.create (t : Template) : (ptCreatePagedir t).Sound t where
  owned i hi hp := by simp [ptCreatePagedir, t.absent i hi] at hp
  one i _ hi _ hp := by simp [ptCreatePagedir, t.absent i hi] at hp
  used _ hp := nomatch hp
  nodup := List.nodup_nil
  apart _ hp := nomatch hp
  frame i hi hp := by simp [ptCreatePagedir, t.absent i hi] at hp

theorem State.Kept.create (t : Template) : (ptCreatePagedir t).Kept t :=
  ⟨fun _ _ _ ↦ rfl, fun _ _ _ ↦ rfl, fun _ _ ↦ rfl⟩

namespace State

/-! ## The tables as the slots show them -/

/-- The table in a slot that is present. -/
def row (s : State) (i : ℕ) : Option (ℕ → Flags) :=
  if s.pd.present i then some (s.table (s.pd.pdVirtual i)) else none

omit [Layout] in
theorem row_eq_none : s.row i = none ↔ s.pd.present i = false := by
  unfold row
  cases s.pd.present i <;> simp

theorem translation_eq [Tables] (s : State) (u : ℕ) : s.translation u =
    if UserSlot (u / 1024) then (s.row (u / 1024)).bind fun r ↦ decode (r (u % 1024)) else none := by
  unfold translation row ptEntryCount
  by_cases hu : UserSlot (u / 1024)
  · obtain ⟨hlo, hhi⟩ := userPage_iff.mpr hu
    cases hp : s.pd.present (u / 1024) <;> simp [hlo, hhi, hu]
  · have hno : ¬(lowPage ≤ u ∧ u < highPage ∧ s.pd.present (u / 1024) = true) :=
      fun h ↦ hu (userPage_iff.mp ⟨h.1, h.2.1⟩)
    rw [if_neg hno, if_neg hu]

/-- The contents of the table at `p` are replaced. -/
def setTable (s : State) (p : ℕ) (f : ℕ → Flags) : State := { s with table := update s.table p f }

theorem Sound.setTable (hs : s.Sound t) (p : ℕ) (f : ℕ → Flags) : (s.setTable p f).Sound t :=
  ⟨hs.owned, hs.one, hs.used, hs.nodup, hs.apart, hs.frame⟩

theorem Kept.setTable (hk : s.Kept t) {p : ℕ} (hp : ¬t.Kernel p) (f : ℕ → Flags) :
    (s.setTable p f).Kept t where
  physical := hk.physical
  virtual := hk.virtual
  table q hq := by
    have hne : q ≠ p := fun heq ↦ hp (heq ▸ hq)
    exact (update_of_ne hne _ _).trans (hk.table q hq)

variable {j : ℕ}

theorem Sound.row_setTable (hs : s.Sound t) (hi : UserSlot i) (hp : s.pd.present i = true)
    (f : ℕ → Flags) (hj : UserSlot j) :
    (s.setTable (s.pd.pdVirtual i) f).row j = if j = i then some f else s.row j := by
  unfold row
  by_cases hji : j = i
  · subst hji
    simp [State.setTable, hp]
  · rw [if_neg hji]
    show (if s.pd.present j = true then _ else _) = _
    cases hpj : s.pd.present j with
    | false => rfl
    | true =>
      have hne : s.pd.pdVirtual j ≠ s.pd.pdVirtual i := fun heq ↦ hji (hs.one j i hj hi hpj hp heq)
      exact congrArg some (update_of_ne hne _ _)

/-! ## Clearing a part of a table -/

section clear

variable {P : ℕ → Bool}

theorem Sound.clear (hs : s.Sound t) (i : ℕ) (P : ℕ → Bool) : (s.clear i P).Sound t := by
  unfold State.clear
  split
  · exact hs.setTable _ _
  · exact hs

theorem Sound.kept_clear (hs : s.Sound t) (hk : s.Kept t) (hi : UserSlot i) (P : ℕ → Bool) :
    (s.clear i P).Kept t := by
  unfold State.clear
  split
  · next hp => exact hk.setTable (hs.apart _ (hs.owned i hi hp)) _
  · exact hk

omit [Layout] in
theorem pd_clear (s : State) (i : ℕ) (P : ℕ → Bool) :
    (s.clear i P).pd = s.pd ∧ (s.clear i P).alive = s.alive ∧ (s.clear i P).tables = s.tables := by
  unfold State.clear
  split <;> exact ⟨rfl, rfl, rfl⟩

theorem Sound.row_clear (hs : s.Sound t) (hi : UserSlot i) (hj : UserSlot j) :
    (s.clear i P).row j =
      if j = i then (s.row i).map fun r k ↦ if P k then 0 else r k else s.row j := by
  unfold State.clear
  cases hp : s.pd.present i with
  | true =>
    refine (hs.row_setTable hi hp _ hj).trans ?_
    simp [row, hp]
  | false =>
    have hnone : s.row i = none := row_eq_none.mpr hp
    by_cases hji : j = i
    · subst hji
      simp [hnone]
    · simp [hji]

theorem Sound.translation_clear [Tables] (hs : s.Sound t) (hi : UserSlot i) (u : ℕ) :
    (s.clear i P).translation u =
      if u / 1024 = i ∧ P (u % 1024) = true then none else s.translation u := by
  rw [translation_eq, translation_eq]
  by_cases hu : UserSlot (u / 1024)
  · rw [if_pos hu, if_pos hu, hs.row_clear hi hu]
    by_cases hui : u / 1024 = i
    · subst hui
      cases hr : s.row (u / 1024) with
      | none => simp
      | some r => cases hP : P (u % 1024) <;> simp [hP, decode_zero]
    · simp [hui]
  · simp [hu]

end clear

/-! ## Freeing tables -/

/-- A table is freed when its slot is given up. -/
theorem Sound.freeSlot (hs : s.Sound t) (hk : s.Kept t) (hi : UserSlot i) :
    ∃ s', s.freeSlot i = .ok s' ∧ s'.Sound t ∧ s'.Kept t ∧ s'.alive = s.alive ∧
      ∀ j, UserSlot j → s'.row j = if j = i then none else s.row j := by
  unfold State.freeSlot
  cases hp : s.pd.present i with
  | false =>
    refine ⟨s, rfl, hs, hk, rfl, fun j _ ↦ ?_⟩
    by_cases hji : j = i
    · rw [if_pos hji, hji]
      exact row_eq_none.mpr hp
    · rw [if_neg hji]
  | true =>
    have hmem := hs.owned i hi hp
    simp only [if_true, pageFree, demand_bind hmem, pure_bind]
    refine ⟨_, rfl, ?_, ?_, rfl, fun j hj ↦ ?_⟩
    · -- the other slots keep their tables
      have hother : ∀ {j}, (update s.pd.pdPhysical i 0 j).has ptPresent = true →
          j ≠ i ∧ s.pd.present j = true := by
        intro j hj
        by_cases hji : j = i
        · subst hji
          rw [update_self] at hj
          exact absurd hj (by decide)
        · rw [update_of_ne hji] at hj
          exact ⟨hji, hj⟩
      constructor <;> simp only [Dir.present, State.setVirtual, State.setPhysical]
      case owned =>
        intro j hj hpj
        obtain ⟨hji, hpj⟩ := hother hpj
        rw [update_of_ne hji]
        refine (List.mem_erase_of_ne fun heq ↦ hji ?_).mpr (hs.owned j hj hpj)
        exact hs.one j i hj hi hpj hp heq
      case one =>
        intro j k hj hk hpj hpk heq
        obtain ⟨hji, hpj⟩ := hother hpj
        obtain ⟨hki, hpk⟩ := hother hpk
        rw [update_of_ne hji, update_of_ne hki] at heq
        exact hs.one j k hj hk hpj hpk heq
      case used =>
        intro p hmem'
        obtain ⟨j, hj, hpj, rfl⟩ := hs.used p (List.mem_of_mem_erase hmem')
        have hji : j ≠ i := by
          rintro rfl
          exact hs.nodup.not_mem_erase hmem'
        exact ⟨j, hj, by rw [update_of_ne hji]; exact hpj, update_of_ne hji _ _⟩
      case nodup => exact hs.nodup.erase _
      case apart => exact fun p hmem' ↦ hs.apart p (List.mem_of_mem_erase hmem')
      case frame =>
        intro j hj hpj
        obtain ⟨hji, hpj⟩ := hother hpj
        rw [update_of_ne hji, update_of_ne hji]
        exact hs.frame j hj hpj
    · have hne : ∀ {j}, ¬UserSlot j → j ≠ i := by
        rintro j hj rfl
        exact hj hi
      exact ⟨fun j hj hu ↦ (update_of_ne (hne hu) _ _).trans (hk.physical j hj hu),
        fun j hj hu ↦ (update_of_ne (hne hu) _ _).trans (hk.virtual j hj hu), hk.table⟩
    · unfold row Dir.present
      by_cases hji : j = i
      · subst hji
        simp [State.setVirtual, State.setPhysical, zero_has]
      · simp [State.setVirtual, State.setPhysical, hji]

theorem Sound.freeSlots {a n : ℕ} (hs : s.Sound t) (hk : s.Kept t)
    (hu : ∀ i, a ≤ i → i < a + n → UserSlot i) :
    ∃ s', (List.range' a n).foldlM State.freeSlot s = .ok s' ∧ s'.Sound t ∧ s'.Kept t ∧
      s'.alive = s.alive ∧
      ∀ j, UserSlot j → s'.row j = if a ≤ j ∧ j < a + n then none else s.row j := by
  induction n generalizing s a with
  | zero =>
    refine ⟨s, rfl, hs, hk, rfl, fun j _ ↦ ?_⟩
    rw [if_neg (by omega)]
  | succ n ih =>
    obtain ⟨s₁, h₁, hs₁, hk₁, hal₁, hrow₁⟩ := hs.freeSlot hk (hu a (by omega) (by omega))
    obtain ⟨s₂, h₂, hs₂, hk₂, hal₂, hrow₂⟩ :=
      ih hs₁ hk₁ (a := a + 1) fun i hle hlt ↦ hu i (by omega) (by omega)
    refine ⟨s₂, ?_, hs₂, hk₂, hal₂.trans hal₁, fun j hj ↦ ?_⟩
    · rw [List.range'_succ, List.foldlM_cons, h₁, ok_bind]
      exact h₂
    · rw [hrow₂ j hj, hrow₁ j hj]
      by_cases hja : j = a
      · subst hja
        simp
      · rw [if_neg hja]
        exact if_congr (by omega) rfl rfl

/-! ## `pt_unmap_range` -/

/-- The two bounds lie inside one table. -/
def OneTable (lo hi : ℕ) : Prop := lo / 1024 = hi / 1024 ∧ lo % 1024 ≠ 0

instance (lo hi : ℕ) : Decidable (OneTable lo hi) := inferInstanceAs (Decidable (_ ∧ _))

omit [Layout] in
theorem cleared_iff {lo hi u : ℕ} (h : ¬OneTable lo hi) (hlt : lo < hi) :
    Cleared lo hi u ↔ lo ≤ u ∧ u < hi := by
  unfold Cleared
  unfold OneTable at h
  omega

omit [Layout] in
theorem cleared_iff_of_oneTable {lo hi u : ℕ} (h : OneTable lo hi) (hlt : lo < hi) :
    Cleared lo hi u ↔ u / 1024 = lo / 1024 := by
  unfold Cleared
  unfold OneTable at h
  omega

variable {c : Prop}

theorem Sound.clearIf [Decidable c] (hs : s.Sound t) (i : ℕ) (P : ℕ → Bool) :
    (if c then s.clear i P else s).Sound t := by
  split
  · exact hs.clear i P
  · exact hs

theorem Sound.kept_clearIf [Decidable c] (hs : s.Sound t) (hk : s.Kept t)
    (hi : c → UserSlot i) (P : ℕ → Bool) : (if c then s.clear i P else s).Kept t := by
  split
  · next hc => exact hs.kept_clear hk (hi hc) P
  · exact hk

theorem Sound.translation_clearIf [Tables] [Decidable c] (hs : s.Sound t)
    (hi : c → UserSlot i) (P : ℕ → Bool) (u : ℕ) :
    (if c then s.clear i P else s).translation u =
      if c ∧ u / 1024 = i ∧ P (u % 1024) = true then none else s.translation u := by
  by_cases hc : c
  · simp only [hc, if_true, true_and]
    exact hs.translation_clear (hi hc) u
  · simp only [hc, if_false, false_and]

omit [Layout] in
theorem alive_clearIf {c : Prop} [Decidable c] (s : State) (i : ℕ) (P : ℕ → Bool) :
    (if c then s.clear i P else s).alive = s.alive := by
  split
  · exact (pd_clear s i P).2.1
  · rfl

/-- **What `pt_unmap_range` does** to the translation. -/
theorem Sound.ptUnmapRange [Tables] {vlow vhigh : ℕ} (hs : s.Sound t) (hk : s.Kept t)
    (hr : UserRange vlow vhigh) :
    ∃ s', s.ptUnmapRange vlow vhigh = .ok s' ∧ s'.Sound t ∧ s'.Kept t ∧ s'.alive = s.alive ∧
      ∀ u, s'.translation u =
        if Cleared (addrToPn vlow) (addrToPn vhigh) u then none else s.translation u := by
  obtain ⟨hlt, hlow, hhigh, hlo, hhi⟩ := id hr
  have hlo' : lowPage ≤ addrToPn vlow := Nat.div_le_div_right hlo
  have hhi' : addrToPn vhigh ≤ highPage := Nat.div_le_div_right hhi
  have hlt' := hr.pages_lt
  have hl := Tables.low_dvd
  have hh := Tables.high_dvd
  have hlowd : lowPage % 1024 = 0 := by
    unfold lowPage addrToPn
    unfold ptVaddrSize pageSize ptEntryCount at hl
    unfold pageSize
    omega
  have hhighd : highPage % 1024 = 0 := by
    unfold highPage addrToPn
    unfold ptVaddrSize pageSize ptEntryCount at hh
    unfold pageSize
    omega
  clear hl hh
  unfold State.ptUnmapRange
  rw [demand_pos ⟨hlt, hlow, hhigh, hlo, hhi⟩, ok_bind]
  unfold vaddrToPdindex vaddrToPtindex ptEntryCount
  simp only [addrToPn_add_mul, addrToPn_sub_mul]
  generalize addrToPn vlow = lo at *
  generalize addrToPn vhigh = hi at *
  -- the slots of both bounds, as far as they are touched, and those between them
  have hslot₁ : lo % 1024 ≠ 0 → UserSlot (lo / 1024) := fun _ ↦ userSlot_iff.mpr (by omega)
  have hslot₂ : hi % 1024 ≠ 0 → UserSlot (hi / 1024) := fun _ ↦ userSlot_iff.mpr (by omega)
  have hs₁ := hs.clearIf (c := lo % 1024 ≠ 0) (lo / 1024) fun k ↦ lo % 1024 ≤ k
  have hk₁ := hs.kept_clearIf hk hslot₁ fun k ↦ lo % 1024 ≤ k
  have hs₂ := hs₁.clearIf (c := hi % 1024 ≠ 0) (hi / 1024) fun k ↦ k < hi % 1024
  have hk₂ := hs₁.kept_clearIf hk₁ hslot₂ fun k ↦ k < hi % 1024
  obtain ⟨s', hok, hs', hk', hal, hrow⟩ := hs₂.freeSlots hk₂
    (a := (lo + (1024 - lo % 1024) % 1024) / 1024)
    (n := (hi - hi % 1024) / 1024 - (lo + (1024 - lo % 1024) % 1024) / 1024)
    fun i hle hlt ↦ userSlot_iff.mpr (by omega)
  refine ⟨s', hok, hs', hk', ?_, fun u ↦ ?_⟩
  · rw [hal, alive_clearIf, alive_clearIf]
  · rw [translation_eq]
    by_cases hu : UserSlot (u / 1024)
    · rw [if_pos hu, hrow _ hu]
      have htr := hs₁.translation_clearIf hslot₂ (fun k ↦ k < hi % 1024) u
      rw [hs.translation_clearIf hslot₁ (fun k ↦ lo % 1024 ≤ k), translation_eq, if_pos hu] at htr
      by_cases hmid : (lo + (1024 - lo % 1024) % 1024) / 1024 ≤ u / 1024 ∧
          u / 1024 < (lo + (1024 - lo % 1024) % 1024) / 1024 +
            ((hi - hi % 1024) / 1024 - (lo + (1024 - lo % 1024) % 1024) / 1024)
      · rw [if_pos hmid, if_pos (.inr (.inr (by omega)))]
        rfl
      · rw [if_neg hmid, htr]
        by_cases h₂ : hi % 1024 ≠ 0 ∧ u / 1024 = hi / 1024 ∧ decide (u % 1024 < hi % 1024) = true
        · have hc : Cleared lo hi u := .inr (.inl (by simpa using h₂))
          rw [if_pos h₂, if_pos hc]
        · rw [if_neg h₂]
          refine if_congr ?_ rfl rfl
          unfold Cleared
          simp only [decide_eq_true_eq] at h₂ ⊢
          omega
    · rw [if_neg hu, translation_eq, if_neg hu, ite_self]

/-! ## `pt_map` and `pt_unmap` -/

section map

variable {f : Flags} {p : ℕ}

omit [Layout] in
theorem pdPhysical_setPhysical (w : Flags) :
    (s.setPhysical i w).pd.pdPhysical = update s.pd.pdPhysical i w := rfl

omit [Layout] in
theorem present_or (hp : s.pd.present i = true) (j : ℕ) :
    (s.setPhysical i (s.pd.pdPhysical i ||| f)).pd.present j = s.pd.present j := by
  unfold Dir.present setPhysical
  by_cases hji : j = i
  · subst hji
    have hp : (s.pd.pdPhysical j).has ptPresent = true := hp
    simp [has_or, hp]
  · simp [hji]

theorem Sound.orPhysical (hs : s.Sound t) (hp : s.pd.present i = true) (hf : IsFlags f) :
    (s.setPhysical i (s.pd.pdPhysical i ||| f)).Sound t := by
  constructor
  case owned =>
    simp only [present_or hp]
    exact hs.owned
  case one =>
    simp only [present_or hp]
    exact hs.one
  case used =>
    simp only [present_or hp]
    exact hs.used
  case nodup => exact hs.nodup
  case apart => exact hs.apart
  case frame =>
    intro j hj hpj
    rw [present_or hp] at hpj
    refine Eq.trans ?_ (hs.frame j hj hpj)
    by_cases hji : j = i
    · subst hji
      rw [pdPhysical_setPhysical, update_self, BitVec.and_or_distrib_right, hf.and_mask,
        BitVec.or_zero]
    · rw [pdPhysical_setPhysical, update_of_ne hji]

theorem Kept.setPhysical (hk : s.Kept t) (hi : UserSlot i) (w : Flags) :
    (s.setPhysical i w).Kept t where
  physical j hj hu := by
    have hne : j ≠ i := fun heq ↦ hu (heq ▸ hi)
    exact (update_of_ne hne _ _).trans (hk.physical j hj hu)
  virtual := hk.virtual
  table := hk.table

theorem Kept.setVirtual (hk : s.Kept t) (hi : UserSlot i) (q : ℕ) : (s.setVirtual i q).Kept t where
  physical := hk.physical
  virtual j hj hu := by
    have hne : j ≠ i := fun heq ↦ hu (heq ▸ hi)
    exact (update_of_ne hne _ _).trans (hk.virtual j hj hu)
  table := hk.table

/-- The slot `i` gets the new table at `p`. -/
def newTable (t : Template) (s : State) (i : ℕ) (f : Flags) (p : ℕ) : State :=
  ((({ s with tables := p :: s.tables }).zero p fun _ ↦ true).setPhysical i
    (ptVirtToPhys t p ||| f)).setVirtual i p

theorem present_newTable (j : ℕ) :
    (s.newTable t i f p).pd.present j = if j = i then f.has ptPresent else s.pd.present j := by
  unfold Dir.present newTable setVirtual setPhysical
  by_cases hji : j = i
  · subst hji
    have hframe : IsFrame (ptVirtToPhys t p) := isFrame_and_mask _
    simp [has_frame_or hframe]
  · simp [hji, zero]

theorem pdPhysical_newTable : (s.newTable t i f p).pd.pdPhysical =
    update s.pd.pdPhysical i (ptVirtToPhys t p ||| f) := rfl

theorem pdVirtual_newTable (j : ℕ) :
    (s.newTable t i f p).pd.pdVirtual j = if j = i then p else s.pd.pdVirtual j := by
  by_cases hji : j = i
  · subst hji
    simp [newTable, setVirtual]
  · simp [newTable, setVirtual, setPhysical, zero, hji]

theorem Kept.newTable (hk : s.Kept t) (hi : UserSlot i) (hp : ¬t.Kernel p) (f : Flags) :
    (s.newTable t i f p).Kept t := by
  refine Kept.setVirtual (Kept.setPhysical ?_ hi _) hi _
  exact Kept.setTable (s := { s with tables := p :: s.tables })
    ⟨hk.physical, hk.virtual, hk.table⟩ hp _

theorem Sound.newTable (hs : s.Sound t) (hi : UserSlot i) (habs : s.pd.present i = false)
    (hp : p ∉ s.tables) (hkp : ¬t.Kernel p) (hf : IsFlags f) (hpres : f.has ptPresent = true) :
    (s.newTable t i f p).Sound t := by
  have hother : ∀ {j}, UserSlot j → j ≠ i → s.pd.present j = true → s.pd.pdVirtual j ≠ p :=
    fun hj _ hpj heq ↦ hp (heq ▸ hs.owned _ hj hpj)
  constructor
  case owned =>
    simp only [present_newTable, pdVirtual_newTable]
    intro j hj hpj
    split at hpj
    · next hji => exact if_pos hji ▸ List.mem_cons_self
    · next hji => exact if_neg hji ▸ List.mem_cons_of_mem _ (hs.owned j hj hpj)
  case one =>
    simp only [present_newTable, pdVirtual_newTable]
    intro j k hj hk hpj hpk heq
    split at hpj <;> split at hpk
    · next hji hki => rw [hji, hki]
    · next hji hki =>
      rw [if_pos hji, if_neg hki] at heq
      exact absurd heq.symm (hother hk hki hpk)
    · next hji hki =>
      rw [if_neg hji, if_pos hki] at heq
      exact absurd heq (hother hj hji hpj)
    · next hji hki =>
      rw [if_neg hji, if_neg hki] at heq
      exact hs.one j k hj hk hpj hpk heq
  case used =>
    simp only [present_newTable, pdVirtual_newTable]
    intro q hq
    rcases List.mem_cons.mp hq with rfl | hq
    · exact ⟨i, hi, by rw [if_pos rfl]; exact hpres, if_pos rfl⟩
    · obtain ⟨j, hj, hpj, rfl⟩ := hs.used q hq
      have hji : j ≠ i := by
        rintro rfl
        rw [habs] at hpj
        cases hpj
      exact ⟨j, hj, by rw [if_neg hji]; exact hpj, if_neg hji⟩
  case nodup => exact List.nodup_cons.mpr ⟨hp, hs.nodup⟩
  case apart =>
    intro q hq
    rcases List.mem_cons.mp hq with rfl | hq
    · exact hkp
    · exact hs.apart q hq
  case frame =>
    simp only [present_newTable, pdVirtual_newTable]
    intro j hj hpj
    split at hpj
    · next hji =>
      subst hji
      rw [if_pos rfl]
      rw [pdPhysical_newTable, update_self, BitVec.and_or_distrib_right, hf.and_mask, BitVec.or_zero]
      exact (isFrame_and_mask (t.frame p)).and_mask
    · next hji =>
      rw [if_neg hji]
      rw [pdPhysical_newTable, update_of_ne hji]
      exact hs.frame j hj hpj

theorem Sound.not_newTable (hs : s.Sound t) (hp : p ∉ s.tables) (hpres : f.has ptPresent = false) :
    ¬(s.newTable t i f p).Sound t := by
  intro hn
  obtain ⟨j, hj, hpj, hvj⟩ := hn.used p List.mem_cons_self
  rw [present_newTable] at hpj
  rw [pdVirtual_newTable] at hvj
  split at hpj
  · rw [hpres] at hpj
    cases hpj
  · next hji =>
    rw [if_neg hji] at hvj
    exact hp (hvj ▸ hs.owned j hj hpj)

theorem Sound.row_newTable (hs : s.Sound t) (hp : p ∉ s.tables) (hpres : f.has ptPresent = true)
    (hj : UserSlot j) : (s.newTable t i f p).row j = if j = i then some fun _ ↦ 0 else s.row j := by
  unfold row
  rw [present_newTable, pdVirtual_newTable]
  by_cases hji : j = i
  · simp [hji, hpres, State.newTable, setVirtual, setPhysical, zero]
  · simp only [if_neg hji]
    cases hpj : s.pd.present j with
    | false => rfl
    | true =>
      have hne : s.pd.pdVirtual j ≠ p := fun heq ↦ hp (heq ▸ hs.owned j hj hpj)
      exact congrArg some (update_of_ne hne _ _)

/-- The slot of a page that `pt_map` is asked for has a table, or gets one that is present,
or there is no memory. -/
def MapProper (s : State) (i : ℕ) (f : Flags) (page : Option ℕ) : Prop :=
  s.pd.present i = true ∨ f.has ptPresent = true ∨ page = none

/-- What `pt_map` writes at a page. -/
def mapped (paddr ptflags : Flags) : Option (Flags × Flags) :=
  if ptflags.has ptPresent then some (paddr, ptflags) else none

/-- The translation that `pt_map` should leave. -/
def afterMap (s : State) (vaddr : ℕ) (paddr ptflags : Flags) :
    Except Errno Unit → ℕ → Option (Flags × Flags)
  | .ok _ => update s.translation (addrToPn vaddr) (mapped paddr ptflags)
  | .error _ => s.translation

/-- **Setting one entry** of a table that is present. -/
theorem Sound.setEntry [Tables] (hs : s.Sound t) (hk : s.Kept t)
    (hv : UserPage vaddr) (hp : s.pd.present (vaddrToPdindex vaddr) = true) (w : Flags) :
    (s.setEntry (s.pd.pdVirtual (vaddrToPdindex vaddr)) (vaddrToPtindex vaddr) w).Sound t ∧
    (s.setEntry (s.pd.pdVirtual (vaddrToPdindex vaddr)) (vaddrToPtindex vaddr) w).Kept t ∧
    (s.setEntry (s.pd.pdVirtual (vaddrToPdindex vaddr)) (vaddrToPtindex vaddr) w).translation =
      update s.translation (addrToPn vaddr) (decode w) := by
  have hi := userSlot_of_userPage hv
  refine ⟨hs.setTable _ _, hk.setTable (hs.apart _ (hs.owned _ hi hp)) _, ?_⟩
  funext u
  by_cases hu : UserSlot (u / 1024)
  · have hrow := hs.row_setTable hi hp
      (update (s.table (s.pd.pdVirtual (vaddrToPdindex vaddr))) (vaddrToPtindex vaddr) w) hu
    rw [translation_eq, if_pos hu]
    rw [show (s.setEntry _ _ w).row _ = _ from hrow]
    by_cases heq : u = addrToPn vaddr
    · subst heq
      simp [vaddrToPdindex, vaddrToPtindex, ptEntryCount]
    · rw [update_of_ne heq, translation_eq, if_pos hu]
      by_cases hslot : u / 1024 = vaddrToPdindex vaddr
      · have hne : u % 1024 ≠ vaddrToPtindex vaddr := by
          unfold vaddrToPdindex at hslot
          unfold vaddrToPtindex
          unfold ptEntryCount at *
          omega
        have hrow' : s.row (u / 1024) = some (s.table (s.pd.pdVirtual (vaddrToPdindex vaddr))) := by
          rw [hslot, row, if_pos hp]
        rw [if_pos hslot, hrow']
        simp [hne]
      · rw [if_neg hslot]
  · have hne : u ≠ addrToPn vaddr := by
      rintro rfl
      exact hu hi
    rw [update_of_ne hne, translation_eq, translation_eq, if_neg hu, if_neg hu]

theorem Sound.translation_newTable [Tables] (hs : s.Sound t) (habs : s.pd.present i = false)
    (hp : p ∉ s.tables) (hpres : f.has ptPresent = true) :
    (s.newTable t i f p).translation = s.translation := by
  funext u
  rw [translation_eq, translation_eq]
  by_cases hu : UserSlot (u / 1024)
  · rw [if_pos hu, if_pos hu, hs.row_newTable hp hpres hu]
    by_cases hui : u / 1024 = i
    · rw [if_pos hui, hui, row_eq_none.mpr habs]
      simpa using decode_zero
    · rw [if_neg hui]
  · rw [if_neg hu, if_neg hu]

theorem translation_orPhysical [Tables] (hp : s.pd.present i = true) :
    (s.setPhysical i (s.pd.pdPhysical i ||| f)).translation = s.translation := by
  funext u
  unfold translation
  rw [present_or hp]
  rfl

/-- **What `pt_map` does** to the translation. -/
theorem Sound.ptMap [Tables]
    {r : Except Errno Unit} (hs : s.Sound t) (hk : s.Kept t) (hfresh : Fresh t s page)
    (hf : IsFlags pdflags) (h : s.ptMap t vaddr paddr pdflags ptflags page = .ok (s', r)) :
    s'.Kept t ∧ s'.alive = s.alive ∧
      (MapProper s (vaddrToPdindex vaddr) pdflags page → s'.Sound t ∧
        s'.translation = s.afterMap vaddr paddr ptflags r) ∧
      (¬MapProper s (vaddrToPdindex vaddr) pdflags page → ¬s'.Sound t) := by
  unfold State.ptMap at h
  obtain ⟨hframe, h⟩ := bind_demand h
  obtain ⟨hv, h⟩ := bind_demand h
  have hi := userSlot_of_userPage hv
  obtain ⟨⟨s₁, pt⟩, htab, h⟩ := bind_ok h
  unfold tableFor at htab
  cases hp : s.pd.present (vaddrToPdindex vaddr) with
  | true =>
    -- the table is there
    rw [hp, if_pos rfl] at htab
    cases htab
    obtain ⟨hfl, h⟩ := bind_demand h
    cases h
    have hp₁ := (present_or (f := pdflags) hp (vaddrToPdindex vaddr)).trans hp
    obtain ⟨hs', hk', htr⟩ := (hs.orPhysical hp hf).setEntry (hk.setPhysical hi _) hv hp₁
      (paddr ||| ptflags)
    rw [translation_orPhysical hp, decode_or hframe hfl] at htr
    exact ⟨hk', rfl, fun _ ↦ ⟨hs', htr⟩, fun hno ↦ absurd (.inl hp) hno⟩
  | false =>
    rw [hp] at htab
    cases page with
    | none =>
      cases htab
      cases h
      exact ⟨hk, rfl, fun _ ↦ ⟨hs, rfl⟩, fun hno ↦ absurd (.inr (.inr rfl)) hno⟩
    | some p =>
      obtain ⟨hpt, hkp⟩ := hfresh p rfl
      simp only [demand_bind hf] at htab
      cases htab
      obtain ⟨hfl, h⟩ := bind_demand h
      cases h
      have hvirt : (s.newTable t (vaddrToPdindex vaddr) pdflags p).pd.pdVirtual
          (vaddrToPdindex vaddr) = p := (pdVirtual_newTable _).trans (if_pos rfl)
      have hk₁ := hk.newTable hi hkp pdflags
      refine ⟨hk₁.setTable hkp _, rfl, fun hproper ↦ ?_, fun hno hs' ↦ ?_⟩
      · have hpres : pdflags.has ptPresent = true := by
          rcases hproper with h | h | h
          · rw [hp] at h
            cases h
          · exact h
          · cases h
        have hp₁ := (present_newTable (t := t) (s := s) (p := p) _).trans
          ((if_pos (rfl : vaddrToPdindex vaddr = _)).trans hpres)
        obtain ⟨hs', -, htr⟩ := (hs.newTable hi hp hpt hkp hf hpres).setEntry hk₁ hv hp₁
          (paddr ||| ptflags)
        rw [hvirt] at hs' htr
        rw [hs.translation_newTable hp hpt hpres, decode_or hframe hfl] at htr
        exact ⟨hs', htr⟩
      · have hpres : pdflags.has ptPresent = false := by
          by_contra hyes
          exact hno (.inr (.inl (Bool.of_not_eq_false hyes)))
        exact hs.not_newTable hpt hpres
          ⟨hs'.owned, hs'.one, hs'.used, hs'.nodup, hs'.apart, hs'.frame⟩

/-- **What `pt_unmap` does** to the translation. -/
theorem Sound.ptUnmap [Tables] (hs : s.Sound t) (hk : s.Kept t)
    (h : s.ptUnmap vaddr = .ok s') :
    s'.Sound t ∧ s'.Kept t ∧ s'.alive = s.alive ∧
      s'.translation = update s.translation (addrToPn vaddr) none := by
  unfold State.ptUnmap at h
  obtain ⟨hv, h⟩ := bind_demand h
  cases hp : s.pd.present (vaddrToPdindex vaddr) with
  | true =>
    simp only [hp, if_true] at h
    cases h
    obtain ⟨hs', hk', htr⟩ := hs.setEntry hk hv hp 0#32
    rw [decode_zero] at htr
    exact ⟨hs', hk', rfl, htr⟩
  | false =>
    simp only [hp] at h
    cases h
    refine ⟨hs, hk, rfl, ?_⟩
    have hnone : s.translation (addrToPn vaddr) = none := by
      have hrow : s.row (addrToPn vaddr / 1024) = none := row_eq_none.mpr hp
      rw [translation_eq, hrow]
      simp
    rw [← hnone, update_eq_self]

end map

/-! ## `pt_destroy_pagedir` -/

omit [Layout] in
/-- The loop frees the tables that are left, each once. -/
theorem dropSlots {a n : ℕ}
    (hone : ∀ i j, a ≤ i → i < a + n → a ≤ j → j < a + n → s.pd.present i = true →
      s.pd.present j = true → s.pd.pdVirtual i = s.pd.pdVirtual j → i = j)
    (htables : ∀ p, p ∈ s.tables ↔ ∃ i, (a ≤ i ∧ i < a + n) ∧ s.pd.present i = true ∧
      s.pd.pdVirtual i = p) (hnodup : s.tables.Nodup) :
    (List.range' a n).foldlM dropSlot s = .ok { s with tables := [] } := by
  induction n generalizing a s with
  | zero =>
    have hnil : s.tables = [] := List.eq_nil_iff_forall_not_mem.mpr fun p hp ↦ by
      obtain ⟨i, hi, -⟩ := (htables p).mp hp
      omega
    rw [← hnil]
    rfl
  | succ n ih =>
    rw [List.range'_succ, List.foldlM_cons]
    unfold dropSlot pageFree
    cases hp : s.pd.present a with
    | false =>
      simp only [Bool.false_eq_true, if_false, pure_bind]
      refine ih (fun i j hi hi' hj hj' ↦ hone i j (by omega) (by omega) (by omega) (by omega))
        (fun p ↦ (htables p).trans ⟨?_, ?_⟩) hnodup
      · rintro ⟨i, hi, hpi, hvi⟩
        have hne : i ≠ a := by
          rintro rfl
          rw [hp] at hpi
          cases hpi
        exact ⟨i, by omega, hpi, hvi⟩
      · rintro ⟨i, hi, hpi, hvi⟩
        exact ⟨i, by omega, hpi, hvi⟩
    | true =>
      have hmem : s.pd.pdVirtual a ∈ s.tables := (htables _).mpr ⟨a, by omega, hp, rfl⟩
      simp only [if_true, demand_bind hmem, pure_bind]
      refine ih (s := { s with tables := s.tables.erase (s.pd.pdVirtual a) })
        (fun i j hi hi' hj hj' ↦ hone i j (by omega) (by omega) (by omega) (by omega))
        (fun p ↦ ?_) (hnodup.erase _)
      rw [hnodup.mem_erase_iff, htables p]
      constructor
      · rintro ⟨hne, i, hi, hpi, hvi⟩
        have hia : i ≠ a := by
          rintro rfl
          exact hne hvi.symm
        exact ⟨i, by omega, hpi, hvi⟩
      · rintro ⟨i, hi, hpi, hvi⟩
        refine ⟨fun heq ↦ ?_, i, by omega, hpi, hvi⟩
        have hia := hone i a (by omega) (by omega) (by omega) (by omega) hpi hp (hvi.trans heq)
        omega

/-- **What `pt_destroy_pagedir` does**: every table is freed. -/
theorem Sound.ptDestroyPagedir [Tables] (hs : s.Sound t) :
    s.ptDestroyPagedir = .ok { s with tables := [], alive := false } := by
  have htwo : firstSlot < lastSlot := Tables.two
  have hpos : 0 < firstSlot := by
    have hlow := Tables.low_dvd
    have hl := Layout.low_pos
    exact Nat.div_pos (Nat.le_of_dvd hl hlow) (by decide)
  have hu : ∀ {i}, firstSlot ≤ i ∧ i < firstSlot + (lastSlot + 1 - firstSlot) ↔ UserSlot i := by
    intro i
    unfold UserSlot
    omega
  unfold State.ptDestroyPagedir
  rw [demand_pos ⟨htwo, hpos⟩, ok_bind, dropSlots]
  · rfl
  · exact fun i j hi hi' hj hj' ↦ hs.one i j (hu.mp ⟨hi, hi'⟩) (hu.mp ⟨hj, hj'⟩)
  · intro p
    simp only [hu]
    refine ⟨hs.used p, ?_⟩
    rintro ⟨i, hi, hp, rfl⟩
    exact hs.owned i hi hp
  · exact hs.nodup

end State

/-! ## The calls -/

/-- What a call should do to the translation. -/
def Refines (t : Template) (s s' : State) : Call → Prop
  | .map vaddr paddr pdflags ptflags page =>
    ∃ r, s.ptMap t vaddr paddr pdflags ptflags page = .ok (s', r) ∧
      s'.translation = s.afterMap vaddr paddr ptflags r
  | .unmap vaddr => s'.translation = update s.translation (addrToPn vaddr) none
  | .unmapRange vlow vhigh => s'.translation = fun u ↦
      if addrToPn vlow ≤ u ∧ u < addrToPn vhigh then none else s.translation u
  | .destroy => True

/-- The tables are accounted for: while there is a directory they are its own, and afterwards
all of them have been freed. -/
def Accounts (t : Template) (s : State) : Prop :=
  if s.alive then s.Sound t else s.tables = []

/-- The calls after which that is so.  The bounds of `pt_unmap_range` do not lie inside one
table, unless nothing else is mapped there. -/
def Proper (s : State) : Call → Prop
  | .map vaddr _ pdflags _ page => State.MapProper s (vaddrToPdindex vaddr) pdflags page
  | .unmapRange vlow vhigh => State.OneTable (addrToPn vlow) (addrToPn vhigh) →
      ∀ k < 1024, ¬(vaddrToPtindex vlow ≤ k ∧ k < vaddrToPtindex vhigh) →
        s.translation (1024 * vaddrToPdindex vlow + k) = none
  | .unmap _ => True
  | .destroy => True

instance (s : State) (e : Call) : Decidable (Proper s e) :=
  match e with
  | .map .. => inferInstanceAs (Decidable (_ ∨ _ ∨ _))
  | .unmapRange .. => inferInstanceAs (Decidable (_ → _))
  | .unmap _ => .isTrue trivial
  | .destroy => .isTrue trivial

omit [Layout] in
theorem forall_table {P : ℕ → Prop} {vlow vhigh : ℕ}
    (hone : State.OneTable (addrToPn vlow) (addrToPn vhigh)) :
    (∀ k < 1024, ¬(vaddrToPtindex vlow ≤ k ∧ k < vaddrToPtindex vhigh) →
      P (1024 * vaddrToPdindex vlow + k)) ↔
    ∀ u, u / 1024 = addrToPn vlow / 1024 → ¬(addrToPn vlow ≤ u ∧ u < addrToPn vhigh) → P u := by
  unfold State.OneTable at hone
  unfold vaddrToPtindex vaddrToPdindex ptEntryCount
  constructor
  · intro h u hu hout
    have hk := h (u % 1024) (Nat.mod_lt _ (by decide)) (by omega)
    rwa [← hu, Nat.div_add_mod] at hk
  · intro h k hk hout
    exact h _ (by omega) (by omega)

theorem step_iff [Tables] (hacc : Accounts t s) (hk : s.Kept t) {e : Call}
    (h : step t s e = .ok s') : s'.Kept t ∧ (Refines t s s' e ∧ Accounts t s' ↔ Proper s e) := by
  have halive : s.alive = true := by
    cases e <;> exact demand_eq_ok.mp (bind_ok h).choose_spec.1
  have hs : s.Sound t := by
    rw [Accounts, halive, if_pos rfl] at hacc
    exact hacc
  have hacc' : ∀ {s' : State}, s'.alive = s.alive → (Accounts t s' ↔ s'.Sound t) := by
    intro s' heq
    rw [Accounts, heq, halive, if_pos rfl]
  cases e with
  | map vaddr paddr pdflags ptflags page =>
    obtain ⟨_, -, h⟩ := bind_ok h
    obtain ⟨hfresh, h⟩ := bind_demand h
    obtain ⟨hf, h⟩ := bind_demand h
    obtain ⟨⟨s₁, r⟩, hmap, rfl⟩ := map_eq_ok.mp h
    obtain ⟨hk', hal, hgood, hbad⟩ :=
      hs.ptMap hk hfresh hf hmap
    refine ⟨hk', fun hspec ↦ ?_,
      fun hp ↦ ⟨⟨r, hmap, (hgood hp).2⟩, (hacc' hal).mpr (hgood hp).1⟩⟩
    by_contra hno
    exact hbad hno ((hacc' hal).mp hspec.2)
  | unmap vaddr =>
    obtain ⟨_, -, h⟩ := bind_ok h
    obtain ⟨hs', hk', hal, htr⟩ := hs.ptUnmap hk h
    exact ⟨hk', fun _ ↦ trivial, fun _ ↦ ⟨htr, (hacc' hal).mpr hs'⟩⟩
  | unmapRange vlow vhigh =>
    obtain ⟨_, -, h⟩ := bind_ok h
    have hr : UserRange vlow vhigh := demand_eq_ok.mp (bind_ok h).choose_spec.1
    obtain ⟨s₁, hok, hs', hk', hal, htr⟩ := hs.ptUnmapRange hk hr
    cases h.symm.trans hok
    have hlt := hr.pages_lt
    refine ⟨hk', ?_⟩
    rw [hacc' hal, and_iff_left hs']
    constructor
    · intro href hone
      refine (forall_table (P := (s.translation · = none)) hone).mpr fun u hu hout ↦ ?_
      have heq := congrFun href u
      simp only [if_neg hout, htr, if_pos ((State.cleared_iff_of_oneTable hone hlt).mpr hu)] at heq
      exact heq.symm
    · intro hproper
      funext u
      rw [htr]
      by_cases hone : State.OneTable (addrToPn vlow) (addrToPn vhigh)
      · by_cases hin : addrToPn vlow ≤ u ∧ u < addrToPn vhigh
        · have hc : Cleared (addrToPn vlow) (addrToPn vhigh) u :=
            (State.cleared_iff_of_oneTable hone hlt).mpr (by
              unfold State.OneTable at hone
              omega)
          rw [if_pos hc, if_pos hin]
        · rw [if_neg hin]
          split
          · next hc =>
            have hout := (forall_table (P := (s.translation · = none)) hone).mp (hproper hone)
            exact (hout u ((State.cleared_iff_of_oneTable hone hlt).mp hc) hin).symm
          · rfl
      · exact if_congr (State.cleared_iff hone hlt) rfl rfl
  | destroy =>
    obtain ⟨_, -, h⟩ := bind_ok h
    cases h.symm.trans hs.ptDestroyPagedir
    exact ⟨⟨hk.physical, hk.virtual, hk.table⟩, fun _ ↦ trivial, fun _ ↦ ⟨trivial, rfl⟩⟩

theorem State.ptMap_error {f : Fault}
    (h : s.ptMap t vaddr paddr pdflags ptflags page = .error f) : f = .assertion := by
  rcases demand_bind_error h with rfl | ⟨-, h⟩
  · rfl
  rcases demand_bind_error h with rfl | ⟨-, h⟩
  · rfl
  rcases bind_eq_error.mp h with h | ⟨⟨s₁, pt⟩, -, h⟩
  · unfold tableFor at h
    split at h
    · cases h
    · split at h
      · cases h
      · rcases demand_bind_error h with rfl | ⟨-, h⟩
        · rfl
        · cases h
  · cases pt with
    | none => cases h
    | some p =>
      rcases demand_bind_error h with rfl | ⟨-, h⟩
      · rfl
      · cases h

/-- A call that does not return fails an assertion about its arguments; no table is freed
that is not allocated. -/
theorem step_error [Tables] (hacc : Accounts t s) (hk : s.Kept t) {e : Call} {f : Fault}
    (h : step t s e = .error f) : f = .disabled ∨ f = .assertion := by
  have hsound : s.alive = true → s.Sound t := by
    intro halive
    rwa [Accounts, halive, if_pos rfl] at hacc
  cases e with
  | map vaddr paddr pdflags ptflags page =>
    rcases demand_bind_error h with rfl | ⟨-, h⟩
    · exact .inl rfl
    rcases demand_bind_error h with rfl | ⟨-, h⟩
    · exact .inl rfl
    rcases demand_bind_error h with rfl | ⟨-, h⟩
    · exact .inr rfl
    cases hmap : s.ptMap t vaddr paddr pdflags ptflags page with
    | ok r =>
      rw [hmap] at h
      cases h
    | error f' =>
      rw [hmap] at h
      cases h
      exact .inr (State.ptMap_error hmap)
  | unmap vaddr =>
    rcases demand_bind_error h with rfl | ⟨-, h⟩
    · exact .inl rfl
    rcases demand_bind_error h with rfl | ⟨-, h⟩
    · exact .inr rfl
    · simp only [] at h
      split at h <;> cases h
  | unmapRange vlow vhigh =>
    rcases demand_bind_error h with rfl | ⟨halive, h⟩
    · exact .inl rfl
    by_cases hr : UserRange vlow vhigh
    · obtain ⟨s₁, hok, -⟩ := (hsound halive).ptUnmapRange hk hr
      cases h.symm.trans hok
    · rw [State.ptUnmapRange, demand_neg hr] at h
      cases h
      exact .inr rfl
  | destroy =>
    rcases demand_bind_error h with rfl | ⟨halive, h⟩
    · exact .inl rfl
    · cases h.symm.trans (hsound halive).ptDestroyPagedir

theorem Accounts.create (t : Template) : Accounts t (ptCreatePagedir t) := by
  have halive : (ptCreatePagedir t).alive = true := rfl
  rw [Accounts, if_pos halive]
  exact .create t

theorem accounts_of_run [Tables] {h : List Call}
    (hr : Run (restrict (ofStep (step t)) Proper) (ptCreatePagedir t) h s) :
    Accounts t s ∧ s.Kept t := by
  refine hr.invariant (I := fun s ↦ Accounts t s ∧ s.Kept t) (fun s e s' hI hstep ↦ ?_)
    ⟨.create t, .create t⟩
  obtain ⟨hk', hiff⟩ := step_iff hI.1 hI.2 hstep.2
  exact ⟨(hiff.mpr hstep.1).2, hk'⟩

/-- **Page directories refine a translation map**, for the calls that are proper.  In every run
of proper calls the tables are accounted for, so that each one is freed once, and the kernel's
entries are what they were; no call fails but for an assertion about its arguments.  From such a
state a call changes the translation as it should, and loses no table, exactly when it is
proper. -/
theorem translation_refined_iff [Tables] {h : List Call}
    (hr : Run (restrict (ofStep (step t)) Proper) (ptCreatePagedir t) h s) :
    Accounts t s ∧ s.Kept t ∧
    (∀ e f, step t s e = .error f → f = .disabled ∨ f = .assertion) ∧
    ∀ e s', step t s e = .ok s' → s'.Kept t ∧ (Refines t s s' e ∧ Accounts t s' ↔ Proper s e) := by
  obtain ⟨hacc, hk⟩ := accounts_of_run hr
  exact ⟨hacc, hk, fun e f hf ↦ step_error hacc hk hf, fun e s' hstep ↦ step_iff hacc hk hstep⟩

/-! ## The directories of the rest of the development -/

/-- The same directory one level up, where frames and tables have no addresses. -/
def State.view (s : State) : Mm.Pagedir := fun i ↦
  if UserSlot i then (s.row i).map fun r ↦
    ⟨s.pd.pdPhysical i &&& ~~~pageMask, fun k ↦ (decode (r k)).map fun x ↦ ⟨x.1.toNat, x.2⟩⟩
  else none

omit [Layout] in
theorem has_present_flags (w : Flags) : (w &&& ~~~pageMask).has ptPresent = w.has ptPresent := by
  unfold Flags.has
  rw [BitVec.and_assoc, show ~~~pageMask &&& ptPresent = ptPresent by decide]

omit [Layout] in
theorem has_present_of_decode {w : Flags} {x : Flags × Flags} (h : decode w = some x) :
    x.2.has ptPresent = true := by
  unfold decode at h
  split at h
  · next hw =>
    cases h
    rw [has_present_flags]
    exact hw
  · cases h

theorem State.slot_view (s : State) (i : ℕ) : s.view.slot i = s.view i := by
  unfold Mm.Pagedir.slot
  cases he : s.view i with
  | none => rfl
  | some e =>
    refine Option.filter_some_pos ?_
    unfold view at he
    split at he
    · obtain ⟨r, hr, rfl⟩ := Option.map_eq_some_iff.mp he
      have hp : s.pd.present i ≠ false := fun hno ↦ by
        rw [row_eq_none.mpr hno] at hr
        cases hr
      rw [has_present_flags]
      exact Bool.of_not_eq_false hp
    · cases he

theorem State.entry_view [Tables] (s : State) (u : ℕ) :
    s.view.entry u = (s.translation u).map fun x ↦ ⟨x.1.toNat, x.2⟩ := by
  unfold Mm.Pagedir.entry
  rw [slot_view, translation_eq]
  unfold view ptEntryCount
  by_cases hu : UserSlot (u / 1024)
  · rw [if_pos hu, if_pos hu]
    cases hr : s.row (u / 1024) with
    | none => rfl
    | some r =>
      simp only [Option.map_some, Option.bind_some]
      cases hd : decode (r (u % 1024)) with
      | none => rfl
      | some x => simp [has_present_of_decode hd]
  · rw [if_neg hu, if_neg hu]
    rfl

omit [Layout] in
theorem slot_update {pd : Mm.Pagedir} {e : Pde} (he : e.flags.has ptPresent = true) (j : ℕ) :
    Mm.Pagedir.slot (update pd i (some e)) j = if j = i then some e else pd.slot j := by
  unfold Mm.Pagedir.slot
  by_cases hji : j = i
  · subst hji
    simp [he]
  · simp [hji]

omit [Layout] in
/-- The slots after `pt_map`, one level up. -/
theorem slot_install {pd : Mm.Pagedir} {vaddr : ℕ} {pdflags : Flags}
    (hslot : (pd.slot (vaddrToPdindex vaddr)).isSome = true ∨ pdflags.has ptPresent = true)
    (paddr : ℕ) (ptflags : Flags) :
    ∃ flags, ∀ j, (pd.install vaddr paddr pdflags ptflags).slot j =
      if j = vaddrToPdindex vaddr then
        some ⟨flags, update (((pd.slot j).map Pde.table).getD fun _ ↦ none) (vaddrToPtindex vaddr)
          (some ⟨paddr, ptflags⟩)⟩
      else pd.slot j := by
  unfold Mm.Pagedir.install
  cases hs : pd.slot (vaddrToPdindex vaddr) with
  | some e =>
    have he : e.flags.has ptPresent = true := (Option.filter_eq_some_iff.mp hs).2
    have hor : (e.flags ||| pdflags).has ptPresent = true := by rw [has_or, he, Bool.true_or]
    simp only [hs]
    refine ⟨e.flags ||| pdflags, fun j ↦ (slot_update hor j).trans ?_⟩
    by_cases hj : j = vaddrToPdindex vaddr
    · rw [if_pos hj, if_pos hj, hj, hs]
      rfl
    · rw [if_neg hj, if_neg hj]
  | none =>
    have hpd : pdflags.has ptPresent = true := by simpa [hs] using hslot
    simp only [hs]
    refine ⟨pdflags, fun j ↦ (slot_update hpd j).trans ?_⟩
    by_cases hj : j = vaddrToPdindex vaddr
    · rw [if_pos hj, if_pos hj, hj, hs]
      rfl
    · rw [if_neg hj, if_neg hj]

omit [Layout] in
theorem entry_install_eq {pd : Mm.Pagedir} {vaddr paddr : ℕ} {pdflags ptflags : Flags}
    (hslot : (pd.slot (vaddrToPdindex vaddr)).isSome = true ∨ pdflags.has ptPresent = true)
    (hpt : ptflags.has ptPresent = true) :
    (pd.install vaddr paddr pdflags ptflags).entry =
      update pd.entry (addrToPn vaddr) (some ⟨paddr, ptflags⟩) := by
  funext v
  obtain ⟨flags, hinst⟩ := slot_install hslot paddr ptflags
  have hindex : v = addrToPn vaddr ↔
      v / 1024 = vaddrToPdindex vaddr ∧ v % 1024 = vaddrToPtindex vaddr := by
    unfold vaddrToPdindex vaddrToPtindex ptEntryCount
    omega
  unfold Mm.Pagedir.entry
  rw [hinst]
  unfold ptEntryCount
  by_cases hd : v / 1024 = vaddrToPdindex vaddr
  · rw [if_pos hd]
    by_cases hk : v % 1024 = vaddrToPtindex vaddr
    · rw [hindex.mpr ⟨hd, hk⟩, update_self, ← hindex.mpr ⟨hd, hk⟩, hk]
      simp [hpt]
    · rw [update_of_ne fun h ↦ hk (hindex.mp h).2]
      cases pd.slot (v / 1024) <;> simp [hk]
  · rw [if_neg hd, update_of_ne fun h ↦ hd (hindex.mp h).1]

theorem entry_view_update [Tables] {u : ℕ} {x : Option (Flags × Flags)}
    (h : s'.translation = update s.translation u x) :
    s'.view.entry = update s.view.entry u (x.map fun x ↦ ⟨x.1.toNat, x.2⟩) := by
  funext v
  rw [State.entry_view, h]
  by_cases hvu : v = u
  · subst hvu
    rw [update_self, update_self]
  · rw [update_of_ne hvu, update_of_ne hvu, State.entry_view]

theorem view_map [Tables]
    (hs : s.Sound t) (hk : s.Kept t) (hfresh : Fresh t s page) (hf : IsFlags pdflags)
    (h : s.ptMap t vaddr paddr pdflags ptflags page = .ok (s', .ok ()))
    (hpd : pdflags.has ptPresent = true) (hpt : ptflags.has ptPresent = true) :
    s'.view.entry = (s.view.install vaddr paddr.toNat pdflags ptflags).entry := by
  obtain ⟨-, htr⟩ := (hs.ptMap hk hfresh hf h).2.2.1 (.inr (.inl hpd))
  rw [entry_install_eq (.inr hpd) hpt, entry_view_update htr, State.mapped, hpt]
  rfl

theorem view_unmap [Tables] (hs : s.Sound t) (hk : s.Kept t)
    (h : s.ptUnmap vaddr = .ok s') :
    ∃ pd, Mm.ptUnmap s.view vaddr = .ok pd ∧ s'.view.entry = pd.entry := by
  obtain ⟨-, -, -, htr⟩ := hs.ptUnmap hk h
  have hv : UserPage vaddr := demand_eq_ok.mp (bind_ok h).choose_spec.1
  refine ⟨_, by rw [Mm.ptUnmap, demand_bind hv]; rfl, ?_⟩
  rw [entry_view_update htr]
  funext v
  rw [Mm.Pagedir.entry_clear]
  by_cases hvu : v = addrToPn vaddr
  · subst hvu
    rw [update_self, if_pos ⟨rfl, decide_eq_true rfl⟩]
    rfl
  · rw [update_of_ne hvu, if_neg]
    rintro ⟨hd, hk⟩
    have hk := of_decide_eq_true hk
    unfold vaddrToPdindex at hd
    unfold vaddrToPtindex at hk
    unfold ptEntryCount at *
    omega

theorem view_unmapRange [Tables] {vlow vhigh : ℕ} (hs : s.Sound t) (hk : s.Kept t)
    (h : s.ptUnmapRange vlow vhigh = .ok s') :
    ∃ pd, Mm.ptUnmapRange s.view vlow vhigh = .ok pd ∧ s'.view.entry = pd.entry := by
  have hr : UserRange vlow vhigh := demand_eq_ok.mp (bind_ok h).choose_spec.1
  obtain ⟨s₁, hok, -, -, -, htr⟩ := hs.ptUnmapRange hk hr
  cases h.symm.trans hok
  refine ⟨_, ptUnmapRange_eq_ok.mpr ⟨hr, rfl⟩, ?_⟩
  funext v
  rw [entry_unmapRange_eq, State.entry_view, htr, State.entry_view]
  split <;> rfl

/-- What a call should do one level up, where no table has to be allocated. -/
def Lifts (t : Template) (s s' : State) : Call → Prop
  | .map vaddr paddr pdflags ptflags page =>
    s.ptMap t vaddr paddr pdflags ptflags page = .ok (s', .ok ()) →
      pdflags.has ptPresent = true → ptflags.has ptPresent = true →
        s'.view.entry = (s.view.install vaddr paddr.toNat pdflags ptflags).entry
  | .unmap vaddr => ∃ pd, Mm.ptUnmap s.view vaddr = .ok pd ∧ s'.view.entry = pd.entry
  | .unmapRange vlow vhigh =>
    ∃ pd, Mm.ptUnmapRange s.view vlow vhigh = .ok pd ∧ s'.view.entry = pd.entry
  | .destroy => True

/-- **The two levels agree**, after every run of proper calls: what a call does to the words of
the tables is what the model of `Mm.Pagetable` says. -/
theorem view_simulates [Tables] {h : List Call} {e : Call}
    (hr : Run (restrict (ofStep (step t)) Proper) (ptCreatePagedir t) h s)
    (hstep : step t s e = .ok s') : Lifts t s s' e := by
  obtain ⟨hacc, hk⟩ := accounts_of_run hr
  have halive : s.alive = true := by
    cases e <;> exact demand_eq_ok.mp (bind_ok hstep).choose_spec.1
  rw [Accounts, halive, if_pos rfl] at hacc
  cases e with
  | map vaddr paddr pdflags ptflags page =>
    obtain ⟨_, -, h⟩ := bind_ok hstep
    obtain ⟨hfresh, h⟩ := bind_demand h
    obtain ⟨hf, -⟩ := bind_demand h
    exact view_map hacc hk hfresh hf
  | unmap vaddr => exact view_unmap hacc hk (bind_ok hstep).choose_spec.2
  | unmapRange vlow vhigh => exact view_unmapRange hacc hk (bind_ok hstep).choose_spec.2
  | destroy => trivial

/-! ## Two concrete runs -/

omit [Layout] in
/-- A template with the kernel in the last quarter of the address space. -/
def kernelOnly : @Template Layout.stock :=
  letI := Layout.stock
  { dir := ⟨fun i ↦ if 768 ≤ i then 3 else 0, fun i ↦ 0xc0100000 + 0x1000 * i⟩
    table := fun _ _ ↦ 0
    frame := fun p ↦ BitVec.ofNat 32 p
    absent := by
      intro i hi
      have hlast : lastSlot = 767 := by decide
      have hle : ¬768 ≤ i := by
        have hi := hi.2
        omega
      simp only [Dir.present, if_neg hle]
      decide }

/-- Two pages are mapped, and the second one is unmapped as a range. -/
def neighbours : List Call :=
  [.map 0x08049000 0x5000 7 7 (some 0xc1000000), .map 0x0804a000 0x6000 7 7 none]

omit [Layout] in
/-- Unmapping one page takes its neighbour away. -/
theorem neighbour_unmapped : letI := Layout.stock
    ∃ s s', Run (ofStep (step kernelOnly)) (ptCreatePagedir kernelOnly) neighbours.reverse s ∧
      s.translation 0x8049 = some (0x5000, 7) ∧
      step kernelOnly s (.unmapRange 0x0804a000 0x0804b000) = .ok s' ∧
      s'.translation 0x8049 = none := by
  let := Layout.stock
  have hcheck : check (step kernelOnly) (ptCreatePagedir kernelOnly) neighbours (fun s ↦
      decide (s.translation 0x8049 = some (0x5000, 7)) &&
        check (step kernelOnly) s [.unmapRange 0x0804a000 0x0804b000]
          (fun s' ↦ decide (s'.translation 0x8049 = none))) = true := by
    decide +kernel
  obtain ⟨s, hs, hp⟩ := exists_of_check hcheck
  obtain ⟨hbefore, hafter⟩ := Bool.and_eq_true_iff.mp hp
  obtain ⟨s', hs', hp'⟩ := exists_of_check hafter
  obtain ⟨s₁, hstep, hend⟩ := bind_ok hs'
  cases hend
  exact ⟨s, s', Run.of_exec hs, of_decide_eq_true hbefore, hstep, of_decide_eq_true hp'⟩

/-- Two pages in different tables are mapped, the first one is unmapped as a range that ends
with its table, and the directory is destroyed. -/
def apart : List Call :=
  [.map 0x08049000 0x5000 7 7 (some 0xc1000000), .map 0x08400000 0x6000 7 7 (some 0xc1001000),
    .unmapRange 0x08049000 0x08400000, .destroy]

omit [Layout] in
theorem apart_refined : letI := Layout.stock
    ∃ s, Run (restrict (ofStep (step kernelOnly)) Proper) (ptCreatePagedir kernelOnly)
      apart.reverse s ∧ s.alive = false ∧ s.tables = [] := by
  let := Layout.stock
  have := Tables.stock
  have hcheck : check (guarded .disabled (step kernelOnly) Proper) (ptCreatePagedir kernelOnly) apart
      (fun s ↦ decide (s.alive = false)) = true := by
    decide +kernel
  obtain ⟨s, hs, hp⟩ := exists_of_check hcheck
  have hr := Run.of_exec_guarded hs
  have halive := of_decide_eq_true hp
  have hacc := (translation_refined_iff hr).1
  rw [Accounts, halive] at hacc
  exact ⟨s, hr, halive, hacc⟩

omit [Layout] in
theorem neighbours_lifted : letI := Layout.stock
    ∃ s s', Run (restrict (ofStep (step kernelOnly)) Proper) (ptCreatePagedir kernelOnly)
      neighbours.reverse s ∧ step kernelOnly s (.unmap 0x0804a000) = .ok s' ∧
      Lifts kernelOnly s s' (.unmap 0x0804a000) := by
  let := Layout.stock
  have := Tables.stock
  have hcheck : check (guarded .disabled (step kernelOnly) Proper) (ptCreatePagedir kernelOnly)
      neighbours (fun s ↦ check (step kernelOnly) s [.unmap 0x0804a000] fun _ ↦ true) = true := by
    decide +kernel
  obtain ⟨s, hs, hp⟩ := exists_of_check hcheck
  obtain ⟨s', hs', -⟩ := exists_of_check hp
  obtain ⟨s₁, hstep, -⟩ := bind_ok hs'
  have hr := Run.of_exec_guarded hs
  exact ⟨s, s₁, hr, hstep, view_simulates hr hstep⟩

end CS402.Pagedirs

import CS402.Mm.Pagedir
import Mathlib.Tactic.Ring

/-!
# The kernel's own page tables

`pt_init` lays the kernel's directory and its tables into the pages behind the kernel, one
table for each four megabytes of physical memory, and gives the memory behind them to the
page allocator.  The loop moves `pagetable` on by one page, since it is a pointer; the
address that is passed on is an integer by then, and adding `PT_ENTRY_COUNT` to it moves it
by a quarter of a page.
-/

namespace CS402.Pagedirs

open Lib Mm Function

/-- Where the kernel lies: the symbols `kernel_start` and `kernel_end` of the linker, and
`KERNEL_PHYS_BASE`. -/
structure Image where
  kernelStart : ℕ
  kernelEnd : ℕ
  physBase : ℕ

/-- `struct mmap_entry`, without the upper halves, which are not read. -/
structure MmapEntry where
  meBaselo : ℕ
  meLenlo : ℕ
  meType : ℕ

/-- `phys_detect_highmem` -/
def physDetectHighmem (img : Image) : List MmapEntry → Except Fault ℕ
  | [] => .error .assertion
  | e :: mmap =>
    let top := (e.meBaselo + e.meLenlo) % 2 ^ 32
    if e.meType = 1 ∧ e.meBaselo ≤ img.physBase ∧ img.physBase < top then .ok top
    else physDetectHighmem img mmap

/-- `_pt_fill_page`.  The frame of the table itself is looked up in the directory in force,
which maps the kernel in one piece. -/
def ptFillPage (img : Image) (s : State) (pt vstart pstart : ℕ) : Except Fault State := do
  demand .assertion (vstart % ptVaddrSize = 0)
  demand .overrun (pt + pageSize ≤ 2 ^ 32)
  let page := BitVec.ofNat 32 (pt - img.kernelStart + img.physBase) &&& pageMask
  let base := vaddrToPdindex vstart
  pure { s with
    pd := ⟨update s.pd.pdPhysical base (page ||| ptPresent ||| ptWrite),
      update s.pd.pdVirtual base pt⟩
    table := update s.table pt fun i ↦
      BitVec.ofNat 32 (i * pageSize + pstart) &&& pageMask ||| ptPresent ||| ptWrite
    tables := pt :: s.tables }

/-- The loop of `pt_init`: a table for every four megabytes below `physmax`.  `paddr` takes
1024 values, so a loop of more turns has no end. -/
def fillTables (img : Image) (physmax : ℕ) : ℕ → State → ℕ → ℕ → ℕ → Except Fault (State × ℕ)
  | 0, _, _, _, _ => .error .divergence
  | fuel + 1, s, pagetable, vaddr, paddr => do
    let pagetable := pagetable + pageSize
    let vaddr := (vaddr + ptVaddrSize) % 2 ^ 32
    let paddr := (paddr + ptVaddrSize) % 2 ^ 32
    let s ← ptFillPage img s pagetable vaddr paddr
    if paddr < physmax then fillTables img physmax fuel s pagetable vaddr paddr
    else pure (s, pagetable)

/-- `pt_init`: the kernel's directory and tables, and the two arguments of `page_add_range`. -/
def ptInit (img : Image) (physmax : ℕ) : Except Fault (State × ℕ × ℕ) := do
  demand .assertion (PageAligned img.kernelEnd)
  let finalPage := img.kernelEnd + 2 * pageSize
  demand .assertion (PageAligned finalPage)
  let frame := BitVec.ofNat 32 (finalPage - img.kernelStart + img.physBase)
  let pd : Dir := ⟨update (fun _ ↦ 0) (ptEntryCount - 1) (frame ||| ptPresent ||| ptWrite),
    update (fun _ ↦ 0) (ptEntryCount - 1) finalPage⟩
  let s : State := ⟨pd, fun _ _ ↦ 0, [finalPage], true⟩
  let s ← ptFillPage img s (finalPage + pageSize) 0 0
  let s ← ptFillPage img s (finalPage + 2 * pageSize) img.kernelStart img.physBase
  let (s, pagetable) ← fillTables img physmax ptEntryCount s (finalPage + 2 * pageSize)
    img.kernelStart img.physBase
  pure (s, pagetable + ptEntryCount, (physmax + img.kernelStart - img.physBase) % 2 ^ 32)

/-- How many tables the loop of `pt_init` fills. -/
def turns (img : Image) (physmax : ℕ) : ℕ := (physmax - img.physBase - 1) / ptVaddrSize + 1

/-- The address of a page is at or behind the first and before the second, after the
alignment in `page_add_range`. -/
def InRange (start fin pt : ℕ) : Prop :=
  start / pageSize * pageSize ≤ pt ∧ pt < fin / pageSize * pageSize

variable {img : Image} {s s' : State} {physmax pt vstart pstart : ℕ}

theorem physDetectHighmem_ok {mmap : List MmapEntry}
    (h : physDetectHighmem img mmap = .ok physmax) : img.physBase < physmax ∧ physmax < 2 ^ 32 := by
  induction mmap with
  | nil => cases h
  | cons e mmap ih =>
    simp only [physDetectHighmem] at h
    split at h
    case isTrue he =>
      cases h
      exact ⟨he.2.2, Nat.mod_lt _ (by decide)⟩
    case isFalse => exact ih h

/-- The tables that are in place when `top` is the last one that was filled. -/
structure Upto (s : State) (top : ℕ) : Prop where
  below : ∀ pt ∈ s.tables, pt ≤ top
  mem : top ∈ s.tables
  slot : ∃ i, s.pd.pdVirtual i = top

theorem ptFillPage_ok (h : ptFillPage img s pt vstart pstart = .ok s')
    (hs : ∀ q ∈ s.tables, q ≤ pt) : Upto s' pt := by
  obtain ⟨-, -, h⟩ := bind_ok h
  obtain ⟨-, -, h⟩ := bind_ok h
  obtain rfl := pure_eq_ok.mp h
  refine ⟨fun q hq ↦ ?_, List.mem_cons_self, _, update_self ..⟩
  rcases List.mem_cons.mp hq with rfl | hq
  · exact le_rfl
  · exact hs q hq

theorem fillTables_ne_ok {fuel p v a : ℕ} {r : State × ℕ}
    (ha : a % ptVaddrSize + 1023 * ptVaddrSize < physmax) :
    fillTables img physmax fuel s p v a ≠ .ok r := by
  induction fuel generalizing s p v a with
  | zero => exact fun h ↦ by cases h
  | succ fuel ih =>
    intro h
    obtain ⟨s₁, -, h⟩ := bind_ok h
    have hv : ptVaddrSize = 4194304 := rfl
    rw [hv] at ha
    rw [if_pos (by rw [hv]; omega)] at h
    exact ih (by rw [hv]; omega) h

/-- The loop fills as many tables as the memory from `a` on needs, and the last of them is
the one that it returns. -/
theorem fillTables_ok {fuel p v a q : ℕ} (h : fillTables img physmax fuel s p v a = .ok (s', q))
    (hs : ∀ pt ∈ s.tables, pt ≤ p) (ha : a < physmax) (hmax : physmax < 2 ^ 32) :
    Upto s' q ∧ q = p + pageSize * ((physmax - a - 1) / ptVaddrSize + 1) := by
  induction fuel generalizing s p v a with
  | zero => cases h
  | succ fuel ih =>
    obtain ⟨s₁, hfill, h⟩ := bind_ok h
    have hs₁ : Upto s₁ (p + pageSize) :=
      ptFillPage_ok hfill fun q hq ↦ (hs q hq).trans (Nat.le_add_right ..)
    have hv : ptVaddrSize = 4194304 := rfl
    -- a counter that wraps around stays below `physmax` for ever
    by_cases hwrap : a + ptVaddrSize < 2 ^ 32
    · rw [Nat.mod_eq_of_lt hwrap] at h
      split at h
      case isTrue hlt =>
        obtain ⟨hq, rfl⟩ := ih h hs₁.below hlt
        refine ⟨hq, ?_⟩
        have : (physmax - a - 1) / ptVaddrSize =
            (physmax - (a + ptVaddrSize) - 1) / ptVaddrSize + 1 := by
          rw [hv] at hlt ⊢
          omega
        rw [this]
        ring
      case isFalse hge =>
        obtain ⟨rfl, rfl⟩ := Prod.mk.inj (pure_eq_ok.mp h)
        have : (physmax - a - 1) / ptVaddrSize = 0 := by
          rw [hv] at hge ⊢
          omega
        exact ⟨hs₁, by rw [this, Nat.zero_add, Nat.mul_one]⟩
    · rw [hv] at hwrap
      rw [if_pos (by rw [hv]; omega)] at h
      exact absurd h (fillTables_ne_ok (by rw [hv]; omega))

/-- The range that `pt_init` gives away begins with the table that it has filled last, which
the directory still points to; so it is free of tables only when it is empty. -/
theorem ptInit_tables_kept_iff {mmap : List MmapEntry} {start fin : ℕ}
    (hmax : physDetectHighmem img mmap = .ok physmax)
    (h : ptInit img physmax = .ok (s, start, fin)) :
    ((∀ pt ∈ s.tables, ¬InRange start fin pt) ↔
      (physmax + img.kernelStart - img.physBase) % 2 ^ 32 / pageSize * pageSize ≤
        img.kernelEnd + pageSize * (4 + turns img physmax)) ∧
    ∃ i, s.pd.pdVirtual i = start / pageSize * pageSize := by
  obtain ⟨hbase, hmax⟩ := physDetectHighmem_ok hmax
  obtain ⟨hend, h⟩ := bind_demand h
  obtain ⟨-, -, h⟩ := bind_ok h
  obtain ⟨s₁, h₁, h⟩ := bind_ok h
  obtain ⟨s₂, h₂, h⟩ := bind_ok h
  obtain ⟨⟨s₃, q⟩, h₃, h⟩ := bind_ok h
  cases pure_eq_ok.mp h
  have hu₁ := ptFillPage_ok h₁ (by simp)
  have hu₂ := ptFillPage_ok h₂ fun pt hpt ↦ (hu₁.below pt hpt).trans (by simp [pageSize])
  obtain ⟨hu, hq⟩ := fillTables_ok h₃ hu₂.below hbase hmax
  have hp : pageSize = 4096 := rfl
  -- the last table is the page that the range starts in
  have hstart : (q + ptEntryCount) / pageSize * pageSize = q := by
    have halign : img.kernelEnd % pageSize = 0 := hend
    rw [hp] at hq halign ⊢
    unfold ptEntryCount
    omega
  have htop : q = img.kernelEnd + pageSize * (4 + turns img physmax) := by
    rw [hq, turns]
    ring
  rw [hstart, ← htop]
  refine ⟨⟨fun hall ↦ ?_, fun hle pt hpt hin ↦ ?_⟩, hu.slot⟩
  · by_contra hlt
    exact hall q hu.mem ⟨hstart.le, Nat.lt_of_not_le hlt⟩
  · exact absurd (hin.2.trans_le hle) (Nat.not_lt.mpr (hstart ▸ hin.1))

/-- A kernel of 384 KB at three gigabytes. -/
abbrev Image.stock : Image := ⟨0xc0000000, 0xc0060000, 0x100000⟩

/-- On a machine with 64 MB the last of the tables is the first page of the range. -/
theorem ptInit_gives_table_away :
    ∃ s start fin, physDetectHighmem .stock [⟨0x100000, 0x3f00000, 1⟩] = .ok 0x4000000 ∧
      ptInit .stock 0x4000000 = .ok (s, start, fin) ∧ ∃ pt ∈ s.tables, InRange start fin pt := by
  refine ⟨_, _, _, rfl, rfl, 0xc0074000, List.mem_cons_self, ?_, ?_⟩ <;> decide

/-- With less memory than the tables take there is nothing to give away. -/
theorem ptInit_tables_kept_small :
    ∃ s start fin, ptInit .stock 0x164000 = .ok (s, start, fin) ∧
      ∀ pt ∈ s.tables, ¬InRange start fin pt := by
  have hmax : physDetectHighmem .stock [⟨0x100000, 0x64000, 1⟩] = .ok 0x164000 := rfl
  have hrun : ∃ r, ptInit .stock 0x164000 = .ok r := ⟨_, rfl⟩
  obtain ⟨⟨s, start, fin⟩, h⟩ := hrun
  exact ⟨s, start, fin, h, (ptInit_tables_kept_iff hmax h).1.mpr (by decide)⟩

end CS402.Pagedirs

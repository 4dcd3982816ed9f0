import CS402.Lib.Trans
import CS402.Mm.Pagetable

/-!
# Page directories and their tables

`mm/pagetable.c` once more, below `Mm.Pagetable`: a directory is two arrays, the words that
the processor reads and the addresses of the tables, and the tables are pages of memory that
are allocated and freed.  Every directory starts as a copy of one template, in which only
the kernel's slots are used.

`State.translation` is what a directory is for: the frame and the flags of every user page
that is present.
-/

namespace CS402.Pagedirs

open Lib Mm Function

/-- `PT_VADDR_SIZE` -/
def ptVaddrSize : ℕ := pageSize * ptEntryCount

/-- `PAGE_MASK` -/
def pageMask : Flags := 0xfffff000

/-- The test `(flags & ~PAGE_MASK) == flags`. -/
def IsFlags (w : Flags) : Prop := w &&& ~~~pageMask = w

instance (w : Flags) : Decidable (IsFlags w) := inferInstanceAs (Decidable (_ = _))

/-- The test `PAGE_ALIGNED` of a physical address. -/
def IsFrame (w : Flags) : Prop := w &&& ~~~pageMask = 0

instance (w : Flags) : Decidable (IsFrame w) := inferInstanceAs (Decidable (_ = _))

/-- The frame and the flags of an entry that is present. -/
def decode (w : Flags) : Option (Flags × Flags) :=
  if w.has ptPresent then some (w &&& pageMask, w &&& ~~~pageMask) else none

/-- `struct pagedir` -/
structure Dir where
  /-- `pd_physical` -/
  pdPhysical : ℕ → Flags
  /-- `pd_virtual` -/
  pdVirtual : ℕ → ℕ

/-- The test `PT_PRESENT & pd_physical[i]`. -/
def Dir.present (d : Dir) (i : ℕ) : Bool := (d.pdPhysical i).has ptPresent

variable [Layout]

/-- `begin` of `pt_destroy_pagedir` -/
def firstSlot : ℕ := userMemLow / ptVaddrSize

/-- `end` of `pt_destroy_pagedir` -/
def lastSlot : ℕ := (userMemHigh - 1) / ptVaddrSize

/-- The slots of user memory. -/
def UserSlot (i : ℕ) : Prop := firstSlot ≤ i ∧ i ≤ lastSlot

instance (i : ℕ) : Decidable (UserSlot i) := inferInstanceAs (Decidable (_ ∧ _))

/-- What `pt_template_init` leaves: the directory, the contents of the kernel's tables, and
the frames of the kernel's own pages, which `pt_virt_to_phys` looks up. -/
structure Template where
  /-- `template_pagedir` -/
  dir : Dir
  table : ℕ → ℕ → Flags
  frame : ℕ → Flags
  absent : ∀ i, UserSlot i → dir.present i = false

/-- The address of one of the kernel's tables. -/
def Template.Kernel (t : Template) (p : ℕ) : Prop :=
  ∃ i < ptEntryCount, ¬UserSlot i ∧ t.dir.pdVirtual i = p

instance (t : Template) (p : ℕ) : Decidable (t.Kernel p) :=
  inferInstanceAs (Decidable (∃ i < ptEntryCount, _))

/-- A directory and the tables.  `tables` are the pages that were allocated for tables of
this directory and not freed since. -/
structure State where
  pd : Dir
  table : ℕ → ℕ → Flags
  tables : List ℕ
  alive : Bool

/-- `pt_create_pagedir`, when there are two pages for it. -/
def ptCreatePagedir (t : Template) : State := ⟨t.dir, t.table, [], true⟩

/-- `pt_virt_to_phys` of a page -/
def ptVirtToPhys (t : Template) (p : ℕ) : Flags := t.frame p &&& pageMask

namespace State

/-- The frame and the flags of a user page that is present. -/
def translation (s : State) (u : ℕ) : Option (Flags × Flags) :=
  if lowPage ≤ u ∧ u < highPage ∧ s.pd.present (u / ptEntryCount) = true then
    decode (s.table (s.pd.pdVirtual (u / ptEntryCount)) (u % ptEntryCount))
  else none

/-- `pd_physical[i] = w` -/
def setPhysical (s : State) (i : ℕ) (w : Flags) : State :=
  { s with pd := { s.pd with pdPhysical := update s.pd.pdPhysical i w } }

/-- `pd_virtual[i] = p` -/
def setVirtual (s : State) (i : ℕ) (p : ℕ) : State :=
  { s with pd := { s.pd with pdVirtual := update s.pd.pdVirtual i p } }

/-- Zero those entries of the table at `p` whose index meets `P`. -/
def zero (s : State) (p : ℕ) (P : ℕ → Bool) : State :=
  { s with table := update s.table p fun k ↦ if P k then 0 else s.table p k }

/-- `pt[k] = w` -/
def setEntry (s : State) (p k : ℕ) (w : Flags) : State :=
  { s with table := update s.table p (update (s.table p) k w) }

/-- `page_free` of a table. -/
def pageFree (s : State) (p : ℕ) : Except Fault State := do
  demand .pointer (p ∈ s.tables)
  pure { s with tables := s.tables.erase p }

/-- The beginning of `pt_map`: the table of the slot, or none if there is no memory for one.
`page` is what `page_alloc` returns. -/
def tableFor (t : Template) (s : State) (i : ℕ) (pdflags : Flags) (page : Option ℕ) :
    Except Fault (State × Option ℕ) :=
  if s.pd.present i then
    pure (s.setPhysical i (s.pd.pdPhysical i ||| pdflags), some (s.pd.pdVirtual i))
  else
    match page with
    | none => pure (s, none)
    | some pt => do
      demand .assertion (IsFlags pdflags)
      let s := { s with tables := pt :: s.tables }
      let s := s.zero pt fun _ ↦ true
      pure ((s.setPhysical i (ptVirtToPhys t pt ||| pdflags)).setVirtual i pt, some pt)

/-- `pt_map` -/
def ptMap (t : Template) (s : State) (vaddr : ℕ) (paddr pdflags ptflags : Flags)
    (page : Option ℕ) : Except Fault (State × Except Errno Unit) := do
  demand .assertion (IsFrame paddr)
  demand .assertion (UserPage vaddr)
  let (s, pt) ← s.tableFor t (vaddrToPdindex vaddr) pdflags page
  match pt with
  | none => pure (s, .error .ENOMEM)
  | some pt => do
    demand .assertion (IsFlags ptflags)
    pure (s.setEntry pt (vaddrToPtindex vaddr) (paddr ||| ptflags), .ok ())

/-- `pt_unmap` -/
def ptUnmap (s : State) (vaddr : ℕ) : Except Fault State := do
  demand .assertion (UserPage vaddr)
  let i := vaddrToPdindex vaddr
  if s.pd.present i then pure (s.setEntry (s.pd.pdVirtual i) (vaddrToPtindex vaddr) 0) else pure s

/-- Zero entries of the table in a slot, if it is present. -/
def clear (s : State) (i : ℕ) (P : ℕ → Bool) : State :=
  if s.pd.present i then s.zero (s.pd.pdVirtual i) P else s

/-- One turn of the loop of `pt_unmap_range`. -/
def freeSlot (s : State) (i : ℕ) : Except Fault State :=
  if s.pd.present i then do
    let s ← s.pageFree (s.pd.pdVirtual i)
    pure ((s.setVirtual i 0).setPhysical i 0)
  else pure s

/-- `pt_unmap_range` -/
def ptUnmapRange (s : State) (vlow vhigh : ℕ) : Except Fault State := do
  demand .assertion (UserRange vlow vhigh)
  let i := vaddrToPtindex vlow
  let s := if i ≠ 0 then s.clear (vaddrToPdindex vlow) fun k ↦ i ≤ k else s
  let vlow := vlow + pageSize * ((ptEntryCount - i) % ptEntryCount)
  let j := vaddrToPtindex vhigh
  let s := if j ≠ 0 then s.clear (vaddrToPdindex vhigh) fun k ↦ k < j else s
  let vhigh := vhigh - pageSize * j
  (List.range' (vaddrToPdindex vlow) (vaddrToPdindex vhigh - vaddrToPdindex vlow)).foldlM freeSlot s

/-- One turn of the loop of `pt_destroy_pagedir`. -/
def dropSlot (s : State) (i : ℕ) : Except Fault State :=
  if s.pd.present i then s.pageFree (s.pd.pdVirtual i) else pure s

/-- `pt_destroy_pagedir` -/
def ptDestroyPagedir (s : State) : Except Fault State := do
  demand .assertion (firstSlot < lastSlot ∧ 0 < firstSlot)
  let s ← (List.range' firstSlot (lastSlot + 1 - firstSlot)).foldlM dropSlot s
  pure { s with alive := false }

end State

/-- A call with a directory.  `page` is the page that `page_alloc` would return. -/
inductive Call where
  | map (vaddr : ℕ) (paddr pdflags ptflags : Flags) (page : Option ℕ)
  | unmap (vaddr : ℕ)
  | unmapRange (vlow vhigh : ℕ)
  | destroy
deriving DecidableEq

/-- What `page_alloc` can return: no page that is in use as a table. -/
def Fresh (t : Template) (s : State) (page : Option ℕ) : Prop :=
  ∀ p ∈ page, p ∉ s.tables ∧ ¬t.Kernel p

instance (t : Template) (s : State) (page : Option ℕ) : Decidable (Fresh t s page) :=
  match page with
  | none => .isTrue fun _ hp ↦ nomatch hp
  | some p => decidable_of_iff (p ∉ s.tables ∧ ¬t.Kernel p) (by simp [Fresh])

/-- One call.  `pt_map` looks at `pdflags` only where it makes a table, so that they are
flags is demanded here of every call. -/
def step (t : Template) (s : State) : Call → Except Fault State
  | .map vaddr paddr pdflags ptflags page => do
    demand .disabled (s.alive = true)
    demand .disabled (Fresh t s page)
    demand .assertion (IsFlags pdflags)
    Prod.fst <$> s.ptMap t vaddr paddr pdflags ptflags page
  | .unmap vaddr => do
    demand .disabled (s.alive = true)
    s.ptUnmap vaddr
  | .unmapRange vlow vhigh => do
    demand .disabled (s.alive = true)
    s.ptUnmapRange vlow vhigh
  | .destroy => do
    demand .disabled (s.alive = true)
    s.ptDestroyPagedir

end CS402.Pagedirs

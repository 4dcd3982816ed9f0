import CS402.Basic
import CS402.Lib.Buddy
import CS402.Lib.Trans
import Mathlib.Data.List.Basic
import Mathlib.Data.Nat.Bitwise

/-!
# The page allocator

The model of `mm/page.c`.  Addresses are numbers.  A page group lies at the end of the
range it was made from and manages the memory below it: for every order a list of free
blocks and, for every pair of blocks of that order, a bit.

The free blocks are linked through the memory of the blocks themselves, so
`list_remove` takes a block off whatever list it is on; on a block that is on no list
it would write through stale links, which is a fault here.
-/

namespace CS402.Page

open Lib Lib.Buddy Function

/-- `PAGE_NSIZES`.  The sizes of the blocks have to fit into an `int`. -/
class Orders where
  nsizes : ℕ
  nsizes_pos : 0 < nsizes
  nsizes_le : nsizes ≤ 19

export Orders (nsizes)

/-- The value of the distribution. -/
abbrev Orders.stock : Orders := ⟨8, by decide, by decide⟩

/-- The largest order. -/
def lastOrder [Orders] : ℕ := nsizes - 1

/-- `(1 << order) << PAGE_SHIFT` -/
def blockSize (order : ℕ) : ℕ := size pageSize order

/-- `struct pagegroup` -/
structure Group where
  /-- `pg_freelist` -/
  pgFreelist : ℕ → List ℕ
  /-- `pg_map` -/
  pgMap : ℕ → ℕ → Bool
  /-- `pg_baseaddr` -/
  pgBaseaddr : ℕ
  /-- `pg_endaddr` -/
  pgEndaddr : ℕ

/-- The state of the page allocator.  `ranges` is the memory it was given, `live` are the
blocks that are allocated, with the number of pages that was asked for. -/
structure Pages where
  /-- `pagegroup_list` -/
  groups : List Group
  /-- `page_freecount` -/
  freecount : BitVec 32
  ranges : List (ℕ × ℕ)
  live : List (ℕ × ℕ)

/-- `page_init` -/
def boot : Pages := ⟨[], 0, [], []⟩

variable [Orders]

/-! ## Page groups -/

/-- `sizeof(struct pagegroup)`: two pointers for each list, one for each map, two
addresses and a link. -/
def groupSize : ℕ := 12 * nsizes + 16

/-- The bytes of the bit map for an order.  For `count` zero the expression
`((count - 1) & ~7) + 8` wraps around twice and is zero. -/
def mapSize (npages order : ℕ) : ℕ :=
  let count := npages / 2 ^ order
  if count = 0 then 0 else ((count - 1) / 8 * 8 + 8) / 8

/-- The last loop of `_pagegroup_create`: `current` runs up to `fin`. -/
def fill (step fin : ℕ) : ℕ → ℕ → List ℕ → List ℕ
  | 0, _, l => l
  | fuel + 1, current, l => if current < fin then fill step fin fuel (current + step) (current :: l)
      else l

/-- `_pagegroup_create` -/
def pagegroupCreate (start fin : ℕ) : Except Fault Group := do
  demand .assertion (0 < nsizes)
  demand .assertion (groupSize ≤ pageSize)
  let npages := (fin - start) / pageSize
  let fin := fin - groupSize
  let fin := (List.range' 1 (nsizes - 1)).foldl (fun fin order ↦ fin - mapSize npages order) fin
  -- the remainder of the page with the maps is discarded
  let fin := fin / pageSize * pageSize
  let npages := (fin - start) / pageSize
  -- the pages that do not fit into the largest order are given up
  let last := (List.range lastOrder).foldl
    (fun last order ↦ if npages.testBit order then last - blockSize order else last) fin
  demand .assertion ((last - start) % 2 ^ lastOrder = 0)
  pure {
    pgFreelist := update (fun _ ↦ []) lastOrder
      (fill (blockSize lastOrder) last (last - start) start [])
    pgMap := fun _ _ ↦ false
    pgBaseaddr := start
    pgEndaddr := fin }

/-- `_pagegroup_from_address`, as a position in `pagegroup_list`. -/
def pagegroupFromAddress (groups : List Group) (addr : ℕ) : Option ℕ :=
  groups.findIdx? fun g ↦ g.pgBaseaddr ≤ addr ∧ addr < g.pgEndaddr

/-- `page_add_range`.  The memory must be the caller's to give: a range of less than a
page makes `_pagegroup_create` write below it, and one that was given before makes it
write into blocks and groups that are in use. -/
def pageAddRange (s : Pages) (start fin : ℕ) : Except Fault Pages := do
  let start := start / pageSize * pageSize
  let fin := fin / pageSize * pageSize
  demand .overrun (start < fin)
  demand .overrun (∀ r ∈ s.ranges, r.2 ≤ start ∨ fin ≤ r.1)
  let group ← pagegroupCreate start fin
  let s := { s with ranges := (start, fin) :: s.ranges }
  if group.pgBaseaddr < group.pgEndaddr then
    pure { s with
      groups := s.groups ++ [group]
      freecount := s.freecount +
        BitVec.ofNat 32 (addrToPn (group.pgEndaddr - group.pgBaseaddr)) }
  else pure s

/-- `_pagegroup_calculate_index` -/
def pagegroupCalculateIndex (g : Group) (order addr : ℕ) : Except Fault ℕ := do
  demand .assertion (PageAligned addr)
  demand .assertion (order < nsizes)
  demand .assertion (g.pgBaseaddr ≤ addr ∧ addr < g.pgEndaddr)
  let offset := addr - g.pgBaseaddr
  demand .assertion (offset % 2 ^ order = 0)
  pure (offset / 2 ^ order / pageSize)

namespace Group

/-- `list_insert_head` on the free list of an order. -/
def insertHead (g : Group) (order addr : ℕ) : Group :=
  { g with pgFreelist := update g.pgFreelist order (addr :: g.pgFreelist order) }

/-- `list_remove` of a free block. -/
def remove (g : Group) (addr : ℕ) : Except Fault Group := do
  demand .pointer (∃ order < nsizes, addr ∈ g.pgFreelist order)
  pure { g with pgFreelist := fun order ↦ (g.pgFreelist order).erase addr }

/-- The `bit_flip` of the pair that a block of an order belongs to; blocks of the largest
order have no buddies. -/
def flipPair (g : Group) (order addr : ℕ) : Except Fault Group :=
  if order < lastOrder then do
    let index ← pagegroupCalculateIndex g (order + 1) addr
    pure { g with pgMap := Buddy.flip g.pgMap (order + 1) index }
  else pure g

end Group

/-! ## Allocation -/

/-- `__page_split` -/
def pageSplitBlock (g : Group) (order : ℕ) : Except Fault Group := do
  demand .assertion (0 < order)
  demand .assertion (order < nsizes)
  match g.pgFreelist order with
  | [] => throw .assertion
  | target :: rest => do
    let g := { g with pgFreelist := update g.pgFreelist order rest }
    -- splitting the block requires marking it as allocated
    let g ← g.flipPair order target
    let index ← pagegroupCalculateIndex g order target
    demand .assertion (g.pgMap order index = false)
    let buddy := target + blockSize (order - 1)
    pure ((g.insertHead (order - 1) target).insertHead (order - 1) buddy)

/-- The loop of `_page_split` that splits a block of order `order + d` down to `order`. -/
def splitDown (order : ℕ) : ℕ → Group → Except Fault Group
  | 0, g => pure g
  | d + 1, g => do
    let g ← pageSplitBlock g (order + d + 1)
    splitDown order d g

/-- The first group with a free block of an order. -/
def groupWith (groups : List Group) (order : ℕ) : Option ℕ :=
  groups.findIdx? fun g ↦ g.pgFreelist order ≠ []

/-- The first order above `order` of which there is a free block, and the group with it. -/
def largerBlock (groups : List Group) (order : ℕ) : Option (ℕ × ℕ) :=
  (List.range' (order + 1) (nsizes - (order + 1))).findSome? fun norder ↦
    (groupWith groups norder).map fun i ↦ (norder, i)

/-- The order of the blocks for `npages` pages: the loop of `page_alloc_n` and
`page_free_n`. -/
def orderOf (npages : ℕ) : Option ℕ :=
  (List.range nsizes).find? fun order ↦ int32 npages ≤ 2 ^ order

/-- `__page_join`, with the number of orders above `order`. -/
def pageJoin : ℕ → Group → ℕ → ℕ → Except Fault Group
  | 0, g, _, _ => pure g
  | d + 1, g, order, addr => do
    let index ← pagegroupCalculateIndex g (order + 1) addr
    if g.pgMap (order + 1) index then pure g
    else do
      let offset := addr - g.pgBaseaddr
      let buddy := if offset / pageSize / 2 ^ order % 2 = 1 then addr - blockSize order
        else addr + blockSize order
      demand .assertion (offset % 2 ^ order = 0)
      let g ← g.remove addr
      let g ← g.remove buddy
      let addr := min addr buddy
      let g ← (g.insertHead (order + 1) addr).flipPair (order + 1) addr
      pageJoin d g (order + 1) addr

/-- `_page_free_order` -/
def pageFreeOrder (s : Pages) (addr order : ℕ) : Except Fault Pages :=
  match pagegroupFromAddress s.groups addr with
  | none => pure s
  | some i => do
    let g ← follow .pointer s.groups[i]?
    let g ← (g.insertHead order addr).flipPair order addr
    let g ← pageJoin (lastOrder - order) g order addr
    pure { s with
      groups := s.groups.set i g
      freecount := s.freecount + BitVec.ofNat 32 (2 ^ order) }

/-- `page_free_n` -/
def pageFreeN (s : Pages) (addr npages : ℕ) : Except Fault Pages :=
  match orderOf npages with
  | none => throw .assertion
  | some order => pageFreeOrder s addr order

/-- Whether a block is on a list of blocks is decided by looking through the list. -/
scoped instance instDecidableMemBlocks (b : ℕ × ℕ) (l : List (ℕ × ℕ)) : Decidable (b ∈ l) :=
  inferInstance

/-- A block that is allocated is freed with the number of pages it was allocated with. -/
def release (s : Pages) (b : ℕ × ℕ) : Except Fault Pages := do
  demand .disabled (b ∈ s.live)
  pageFreeN { s with live := s.live.erase b } b.1 b.2

/-- `_page_split`.  When there is no larger block, the slab allocators are asked to
reclaim memory, and the search is repeated `num_retrys` times: `freed` are the blocks that
they free the first time, and `more` those of each repetition. -/
def pageSplit (order : ℕ) (freed : List (ℕ × ℕ)) :
    List (List (ℕ × ℕ)) → Pages → Except Fault (Pages × Option ℕ)
  | more, s =>
    match largerBlock s.groups order with
    | some (norder, i) => do
      let g ← follow .pointer s.groups[i]?
      let g ← splitDown order (norder - order) g
      demand .assertion (g.pgFreelist order ≠ [])
      pure ({ s with groups := s.groups.set i g }, some i)
    | none => do
      let s ← freed.foldlM release s
      match more with
      | [] => pure (s, none)
      | freed :: more => pageSplit order freed more s

/-- The end of `_page_alloc_order`: the first block of the free list is taken. -/
def takeHead (s : Pages) (i order : ℕ) : Except Fault (Pages × Option ℕ) := do
  let g ← follow .pointer s.groups[i]?
  match g.pgFreelist order with
  | [] => throw .pointer
  | addr :: rest => do
    let g ← Group.flipPair { g with pgFreelist := update g.pgFreelist order rest } order addr
    pure ({ s with
      groups := s.groups.set i g
      freecount := s.freecount - BitVec.ofNat 32 (2 ^ order) }, some addr)

/-- `_page_alloc_order` -/
def pageAllocOrder (s : Pages) (order : ℕ) (freed : List (ℕ × ℕ))
    (more : List (List (ℕ × ℕ))) : Except Fault (Pages × Option ℕ) :=
  match groupWith s.groups order with
  | some i => takeHead s i order
  | none => do
    let (s, found) ← pageSplit order freed more s
    match found with
    | some i => do
      let g ← follow .pointer s.groups[i]?
      demand .assertion (g.pgFreelist order ≠ [])
      takeHead s i order
    | none => pure (s, none)

/-- `page_alloc_n` -/
def pageAllocN (s : Pages) (npages : ℕ) (freed : List (ℕ × ℕ)) (more : List (List (ℕ × ℕ))) :
    Except Fault (Pages × Option ℕ) :=
  match orderOf npages with
  | none => throw .assertion
  | some order => pageAllocOrder s order freed more

/-! ## The calls -/

/-- A call of the page allocator. -/
inductive Call where
  | addRange (start fin : ℕ)
  /-- `page_alloc` -/
  | alloc (freed : List (ℕ × ℕ)) (more : List (List (ℕ × ℕ)))
  | allocN (npages : ℕ) (freed : List (ℕ × ℕ)) (more : List (List (ℕ × ℕ)))
  /-- `page_free` -/
  | free (addr : ℕ)
  | freeN (addr npages : ℕ)
deriving DecidableEq, Repr

/-- The block that an allocation returned is in use from now on. -/
def hand (npages : ℕ) : Pages × Option ℕ → Pages
  | (s, none) => s
  | (s, some addr) => { s with live := (addr, npages) :: s.live }

/-- One call.  A block may be freed if it is allocated. -/
def step (s : Pages) : Call → Except Fault Pages
  | .addRange start fin => pageAddRange s start fin
  | .alloc freed more => hand 1 <$> pageAllocOrder s 0 freed more
  | .allocN npages freed more => hand npages <$> pageAllocN s npages freed more
  | .free addr => do
    demand .disabled ((addr, 1) ∈ s.live)
    pageFreeOrder { s with live := s.live.erase (addr, 1) } addr 0
  | .freeN addr npages => release s (addr, npages)

end CS402.Page

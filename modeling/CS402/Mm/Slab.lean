import CS402.Mm.Page

/-!
# The slab allocators

The model of `mm/slab.c`, on top of the page allocator.  A slab is a block of pages with
the objects at its start, each followed by its control word, and `struct slab` after the
last object.  The slabs of an allocator are linked through `s_next`, and the free objects
of a slab through their control words; the control word of an object that is in use points
to its slab.  The null pointer is zero.

`page_alloc_n` calls `slab_allocators_reclaim` when it finds no block, also from inside
`_slab_allocator_grow`.  The shadow daemon is not compiled in, so it does not try again.
-/

namespace CS402.Slabs

open Lib Function Page

/-- `struct slab` -/
structure Slab where
  /-- `s_next` -/
  sNext : ℕ
  /-- `s_inuse` -/
  sInuse : ℤ
  /-- `s_free` -/
  sFree : ℕ
  /-- `s_addr` -/
  sAddr : ℕ
deriving DecidableEq, Repr

/-- `struct slab_bufctl`.  The word is `sb_next` while the object is free, and `sb_slab`
while it is in use. -/
structure Bufctl where
  word : ℕ
  /-- `sb_free` -/
  sbFree : Bool
deriving DecidableEq, Repr

/-- `sizeof(struct slab_bufctl)` -/
def bufctlSize : ℕ := 8

/-- `sizeof(struct slab)` -/
def headerSize : ℕ := 16

/-- `SLAB_MAX_ORDER` -/
def slabMaxOrder : ℕ := 5

/-! ## The size of a slab -/

/-- `_slab_size`, which is reduced to the 32 bits of a `size_t` where it is used. -/
def slabSize (objsize nobjs : ℕ) : ℕ := nobjs * (objsize + bufctlSize) + headerSize

/-- `_slab_nobjs` -/
def slabNobjs (objsize order : ℕ) : ℕ :=
  (blockSize order - headerSize) / ((objsize + bufctlSize) % 2 ^ 32)

/-- `_slab_waste` -/
def slabWaste (objsize order : ℕ) : ℤ :=
  int32 (blockSize order - (slabSize objsize (slabNobjs objsize order) % 2 ^ 32 : ℕ))

/-- The second loop of `_calc_slab_size`, with the best order and its waste. -/
def bestOrder (objsize minorder : ℕ) : ℕ × ℤ :=
  (List.range' (minorder + 1) (slabMaxOrder - (minorder + 1))).foldl
    (fun best order ↦ if slabWaste objsize order < best.2 then (order, slabWaste objsize order)
      else best)
    (minorder, slabWaste objsize minorder)

variable [Orders]

/-- `_calc_slab_size`: the order of the blocks and the number of objects in each. -/
def calcSlabSize (objsize : ℕ) : Except Fault (ℕ × ℕ) :=
  let minsize := int32 (slabSize objsize 1)
  match (List.range nsizes).find? fun order ↦ minsize ≤ int32 (blockSize order) with
  | none => throw .assertion
  | some minorder => do
    -- every `_slab_nobjs` divides by this number
    demand .division ((objsize + bufctlSize) % 2 ^ 32 ≠ 0)
    let order := (bestOrder objsize minorder).1
    pure (order, slabNobjs objsize order)

/-- `struct slab_allocator`, without what changes: the objects have room in a block and
leave room for `struct slab`. -/
structure Allocator where
  /-- `sa_objsize` -/
  saObjsize : ℕ
  /-- `sa_order` -/
  saOrder : ℕ
  /-- `sa_slab_nobjs` -/
  saSlabNobjs : ℕ
  order_lt : saOrder < nsizes
  nobjs_pos : 0 < saSlabNobjs
  fits : slabSize saObjsize saSlabNobjs ≤ blockSize saOrder

/-- `_allocator_init`.  An object that makes `minsize` negative has no room in the blocks that
are chosen, and the slabs would then reach beyond them. -/
def allocatorInit (size : ℕ) : Except Fault Allocator := do
  let (order, nobjs) ← calcSlabSize size
  if h : order < nsizes ∧ 0 < nobjs ∧ slabSize size nobjs ≤ blockSize order then
    pure ⟨size, order, nobjs, h.1, h.2.1, h.2.2⟩
  else throw .overrun

/-- `next_obj` -/
def Allocator.nextObj (a : Allocator) (obj : ℕ) : ℕ := obj + a.saObjsize + bufctlSize

/-! ## The state -/

/-- The page allocator and the slab allocators.  `live` are the objects that are in use,
each with its allocator, and `others` the blocks of pages that the rest of the kernel has. -/
structure Heap where
  pages : Pages
  /-- `slab_allocators`, in the order of the list. -/
  allocators : List Allocator
  /-- `sa_slabs` -/
  saSlabs : ℕ → ℕ
  slab : ℕ → Slab
  /-- The control words, by the address of their objects. -/
  bufctl : ℕ → Bufctl
  live : List (ℕ × ℕ)
  others : List (ℕ × ℕ)

/-- No allocator has a slab, and there are no pages yet. -/
def boot (allocators : List Allocator) : Heap :=
  ⟨Page.boot, allocators, fun _ ↦ 0, fun _ ↦ ⟨0, 0, 0, 0⟩, fun _ ↦ ⟨0, false⟩, [], []⟩

namespace Heap

/-- A bound for the number of slabs: each of them has a block of pages. -/
def bound (s : Heap) : ℕ := s.pages.live.length + 1

/-! ## Reclaiming memory -/

/-- `(*prev) = next`, where `prev` is `&a->sa_slabs` or the `s_next` of a slab. -/
def setPrev (s : Heap) (i : ℕ) (prev : Option ℕ) (next : ℕ) : Heap :=
  match prev with
  | none => { s with saSlabs := update s.saSlabs i next }
  | some p => { s with slab := update s.slab p { s.slab p with sNext := next } }

/-- The inner loop of `slab_allocators_reclaim`: `i` is the allocator and `slab` the next
slab.  The last result says whether the target was met. -/
def reclaimSlabs (target : ℤ) (i : ℕ) (a : Allocator) :
    ℕ → Heap → Option ℕ → ℕ → ℤ → Except Fault (Heap × ℤ × Bool)
  | 0, _, _, _, _ => throw .divergence
  | fuel + 1, s, prev, slab, freed =>
    if slab = 0 then pure (s, freed, false)
    else do
      let next := (s.slab slab).sNext
      let (s, prev, freed) ←
        if (s.slab slab).sInuse = 0 then do
          let s := s.setPrev i prev next
          let pages ← release s.pages ((s.slab slab).sAddr, 2 ^ a.saOrder)
          pure ({ s with pages }, prev, freed + 2 ^ a.saOrder)
        else pure (s, some slab, freed)
      if 0 < target ∧ target ≤ freed then pure (s, freed, true)
      else reclaimSlabs target i a fuel s prev next freed

/-- The outer loop, over the allocators from the position `i` on. -/
def reclaimFrom (target : ℤ) : ℕ → List Allocator → Heap → ℤ → Except Fault (Heap × ℤ)
  | _, [], s, freed => pure (s, freed)
  | i, a :: allocators, s, freed => do
    let (s, freed, met) ← reclaimSlabs target i a s.bound s none (s.saSlabs i) freed
    if met then pure (s, freed) else reclaimFrom target (i + 1) allocators s freed

/-- `slab_allocators_reclaim` -/
def slabAllocatorsReclaim (s : Heap) (target : ℤ) : Except Fault (Heap × ℤ) :=
  reclaimFrom target 0 s.allocators s 0

/-! ## Allocation -/

/-- `page_alloc_n`.  It returns `NULL` after `slab_allocators_reclaim(0)`. -/
def pageAllocN (s : Heap) (npages : ℕ) : Except Fault (Heap × ℕ) := do
  let (pages, addr) ← Page.pageAllocN s.pages npages [] []
  match addr with
  | some addr => pure ({ s with pages := hand npages (pages, some addr) }, addr)
  | none => do
    let (s, _) ← s.slabAllocatorsReclaim 0
    pure (s, 0)

/-- The first loop of `_slab_allocator_grow`; it ends at the last object. -/
def linkObjects (a : Allocator) : ℕ → (ℕ → Bufctl) → ℕ → (ℕ → Bufctl) × ℕ
  | 0, bufctl, obj => (bufctl, obj)
  | n + 1, bufctl, obj =>
    linkObjects a n (update bufctl obj ⟨a.nextObj obj, true⟩) (a.nextObj obj)

/-- The rest of `_slab_allocator_grow`: the block at `addr` becomes a slab. -/
def addSlab (s : Heap) (i : ℕ) (a : Allocator) (addr : ℕ) : Heap :=
  let (bufctl, obj) := linkObjects a (a.saSlabNobjs - 1) s.bufctl addr
  -- the last control word is the tail of the list, and `struct slab` comes after it
  let slab := a.nextObj obj
  { s with
    bufctl := update bufctl obj ⟨0, true⟩
    slab := update s.slab slab ⟨s.saSlabs i, 0, addr, addr⟩
    saSlabs := update s.saSlabs i slab }

/-- `_slab_allocator_grow` -/
def slabAllocatorGrow (s : Heap) (i : ℕ) (a : Allocator) : Except Fault (Heap × Bool) := do
  let (s, addr) ← s.pageAllocN (2 ^ a.saOrder)
  if addr = 0 then pure (s, false) else pure (s.addSlab i a addr, true)

/-- The `while` loop of `slab_obj_alloc`. -/
def findSlab (s : Heap) (a : Allocator) : ℕ → ℕ → Except Fault ℕ
  | 0, _ => throw .divergence
  | fuel + 1, slab =>
    if slab ≠ 0 ∧ (s.slab slab).sInuse = a.saSlabNobjs then
      s.findSlab a fuel (s.slab slab).sNext
    else pure slab

/-- The `for` loop of `slab_obj_alloc`; the result is zero when growing failed. -/
def findOrGrow (i : ℕ) (a : Allocator) : ℕ → Heap → Except Fault (Heap × ℕ)
  | 0, _ => throw .divergence
  | turns + 1, s => do
    let slab ← s.findSlab a s.bound (s.saSlabs i)
    if slab ≠ 0 ∧ (s.slab slab).sInuse < a.saSlabNobjs then pure (s, slab)
    else do
      let (s, grown) ← s.slabAllocatorGrow i a
      if grown then findOrGrow i a turns s else pure (s, 0)

/-- The end of `slab_obj_alloc`: an object is taken off the free list of a slab. -/
def takeObj (s : Heap) (i slab : ℕ) : Except Fault (Heap × ℕ) := do
  let obj := (s.slab slab).sFree
  demand .pointer (obj ≠ 0)
  pure ({ s with
    slab := update s.slab slab { s.slab slab with
      sFree := (s.bufctl obj).word, sInuse := (s.slab slab).sInuse + 1 }
    bufctl := update s.bufctl obj ⟨slab, false⟩
    live := (i, obj) :: s.live }, obj)

/-- `slab_obj_alloc` of the allocator at position `i`.  Every turn of its loop but the last
one adds a slab, so two turns are enough. -/
def slabObjAlloc (s : Heap) (i : ℕ) : Except Fault (Heap × ℕ) := do
  let a ← follow .disabled s.allocators[i]?
  let (s, slab) ← findOrGrow i a 2 s
  if slab = 0 then pure (s, 0) else s.takeObj i slab

/-- `slab_obj_free` -/
def slabObjFree (s : Heap) (i obj : ℕ) : Except Fault Heap := do
  demand .assertion ((s.bufctl obj).sbFree = false)
  let slab := (s.bufctl obj).word
  pure { s with
    bufctl := update s.bufctl obj ⟨(s.slab slab).sFree, true⟩
    slab := update s.slab slab { s.slab slab with
      sFree := obj, sInuse := (s.slab slab).sInuse - 1 }
    live := s.live.erase (i, obj) }

end Heap

/-! ## The calls -/

/-- A call of the slab allocators, or one that the rest of the kernel makes of the page
allocator. -/
inductive Call where
  | objAlloc (i : ℕ)
  | objFree (i obj : ℕ)
  | reclaim (target : ℤ)
  | addRange (start fin : ℕ)
  | pageAlloc (npages : ℕ)
  | pageFree (addr npages : ℕ)
deriving DecidableEq, Repr

/-- One call.  Objects are freed while they are in use, to their own allocator, and the rest
of the kernel frees the blocks that it has. -/
def step (s : Heap) : Call → Except Fault Heap
  | .objAlloc i => Prod.fst <$> s.slabObjAlloc i
  | .objFree i obj => do
    demand .disabled ((i, obj) ∈ s.live)
    s.slabObjFree i obj
  | .reclaim target => Prod.fst <$> s.slabAllocatorsReclaim target
  | .addRange start fin => do
    let pages ← pageAddRange s.pages start fin
    pure { s with pages }
  | .pageAlloc npages => do
    let (s, addr) ← s.pageAllocN npages
    pure { s with others := if addr = 0 then s.others else (addr, npages) :: s.others }
  | .pageFree addr npages => do
    demand .disabled ((addr, npages) ∈ s.others)
    let pages ← release s.pages (addr, npages)
    pure { s with pages, others := s.others.erase (addr, npages) }

end CS402.Slabs

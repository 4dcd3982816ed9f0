import CS402.Mm.Pframe

/-!
# Address-space maps

The model of `kernel/proc/vm/vmmap.c`, with the creation of anonymous and shadow
objects.  Page numbers are 32-bit words in the source; they are natural numbers
here, and where the source can wrap around, in the search for a free range and at
the end of a range that is tested or removed, they are computed modulo `2 ^ 32`.

The loops run over the list of areas as it was when they started: the iterator of
the source fetches the next link before the body runs, and no body touches an area
other than its own.
-/

namespace CS402.Mm

open CS402.Lib Function

/-- `VMMAP_DIR_LOHI` and `VMMAP_DIR_HILO`. -/
inductive Dir where
  | lohi | hilo
deriving DecidableEq

/-- Insert `b` before `a`: `list_insert_before`. -/
def insertBefore (a b : ℕ) : List ℕ → List ℕ
  | [] => []
  | x :: l => if x = a then b :: x :: l else x :: insertBefore a b l

/-- The area covers the page: the test of `vmmap_lookup`. -/
def VmArea.Covers (vma : VmArea) (vfn : ℕ) : Prop := vma.vmaStart ≤ vfn ∧ vfn < vma.vmaEnd

instance (vma : VmArea) (vfn : ℕ) : Decidable (vma.Covers vfn) := inferInstanceAs (Decidable (_ ∧ _))

/-- The area has no page in `[lo, hi)`: the test of `vmmap_is_range_empty`. -/
def VmArea.Avoids (vma : VmArea) (lo hi : ℕ) : Prop := hi ≤ vma.vmaStart ∨ vma.vmaEnd ≤ lo

instance (vma : VmArea) (lo hi : ℕ) : Decidable (vma.Avoids lo hi) :=
  inferInstanceAs (Decidable (_ ∨ _))

namespace Mem

/-! ## Creation -/

/-- `vmarea_alloc`; the caller stores the record. -/
def vmareaAlloc (s : Mem) : Mem × Option AreaId :=
  if s.grants .vmarea then ((s.draw .vmarea).bump, some s.next) else (s.draw .vmarea, none)

/-- `vmmap_create`. -/
def vmmapCreate (s : Mem) : Mem × Option MapId :=
  if s.grants .vmmap then ((s.draw .vmmap).bump.setMap s.next (some {}), some s.next)
  else (s.draw .vmmap, none)

/-- `anon_create`. -/
def anonCreate (s : Mem) : Mem × Option ObjId :=
  if s.grants .anon then
    ((s.draw .anon).bump.setObj s.next (some { mmoOps := .anon, mmoRefcount := 1 }), some s.next)
  else (s.draw .anon, none)

/-- `shadow_create`. -/
def shadowCreate (s : Mem) : Mem × Option ObjId :=
  if s.grants .shadow then
    ((s.draw .shadow).bump.setObj s.next (some { mmoOps := .shadow, mmoRefcount := 1 }),
      some s.next)
  else (s.draw .shadow, none)

/-! ## Lookup and search -/

/-- Whether an area of the table covers a page. -/
def covers (s : Mem) (vfn : ℕ) (a : AreaId) : Bool := (s.areas a).any fun vma ↦ vma.Covers vfn

/-- `vmmap_lookup`. -/
def vmmapLookup (s : Mem) (m : MapId) (vfn : ℕ) : Except Fault (Option AreaId) := do
  let map ← follow .pointer (s.maps m)
  return map.vmmList.find? (s.covers vfn)

/-- Link an area on the list of areas of a bottom object. -/
def linkVma (s : Mem) (o : ObjId) (a : AreaId) : Except Fault Mem := do
  let ob ← follow .pointer (s.objs o)
  return s.setObj o (some { ob with mmoVmas := a :: ob.mmoVmas })

/-- Link an area on the list of its bottom object, unless that is its own object. -/
def linkBottom (s : Mem) (o bottom : ObjId) (a : AreaId) : Except Fault Mem :=
  if bottom = o then .ok s else s.linkVma bottom a

/-- Unlink an area from the list it is on.  The object may have been freed by now;
then so has the list. -/
def unlinkVma (s : Mem) (a : AreaId) (olink : Option ObjId) : Mem :=
  match olink with
  | none => s
  | some o => s.setObj o ((s.objs o).map fun ob ↦ { ob with mmoVmas := ob.mmoVmas.erase a })

/-- Where `vmmap_insert` puts an area: before the first one that starts later. -/
def insertSorted (s : Mem) (start : ℕ) (a : AreaId) : List AreaId → List AreaId
  | [] => [a]
  | x :: l =>
    if (s.areas x).any fun vma ↦ start < vma.vmaStart then a :: x :: l
    else x :: insertSorted s start a l

section

variable [Layout]

/-- `vmmap_is_range_empty`. -/
def vmmapIsRangeEmpty (s : Mem) (m : MapId) (startvfn npages : ℕ) : Except Fault Bool := do
  let endvfn := (startvfn + npages) % 2 ^ 32
  demand .assertion (startvfn < endvfn ∧ lowPage ≤ startvfn ∧ endvfn ≤ highPage)
  let map ← follow .pointer (s.maps m)
  return map.vmmList.all fun a ↦ (s.areas a).all fun vma ↦ vma.Avoids startvfn endvfn

/-- The loop of `vmmap_find_range` from high to low, over the reversed list; `last`
says that the area is the last one of the map. -/
def findRangeLoop (s : Mem) (m : MapId) (npages : ℕ) :
    Bool → List AreaId → Except Fault (Option ℕ)
  | _, [] => return none
  | last, a :: l => do
    let vma ← follow .pointer (s.areas a)
    if last ∧ (vma.vmaEnd + npages) % 2 ^ 32 ≤ highPage then
      return some (highPage - npages)
    let start := (vma.vmaStart + (2 ^ 32 - npages)) % 2 ^ 32
    if lowPage ≤ start then
      let empty ← s.vmmapIsRangeEmpty m start npages
      if empty then return some start else findRangeLoop s m npages false l
    else
      findRangeLoop s m npages false l

/-- `vmmap_find_range`; there is no search from low to high. -/
def vmmapFindRange (s : Mem) (m : MapId) (npages : ℕ) (dir : Dir) : Except Fault (Option ℕ) := do
  let map ← follow .pointer (s.maps m)
  match dir with
  | .hilo => s.findRangeLoop m npages true map.vmmList.reverse
  | .lohi => return none

/-! ## Insertion and removal -/

/-- `vmmap_insert`. -/
def vmmapInsert (s : Mem) (m : MapId) (a : AreaId) : Except Fault Mem := do
  let map ← follow .pointer (s.maps m)
  let vma ← follow .pointer (s.areas a)
  demand .assertion (vma.vmaVmmap = none)
  demand .assertion (vma.vmaStart < vma.vmaEnd)
  demand .assertion (lowPage ≤ vma.vmaStart ∧ vma.vmaEnd ≤ highPage)
  let list := s.insertSorted vma.vmaStart a map.vmmList
  return (s.setArea a (some { vma with vmaVmmap := some m })).setMap m
    (some { map with vmmList := list })

/-- The part of `vmmap_remove` that splits an area around `[lo, hi)`: a new area for
the left part, and the old one becomes the right part.  Without memory for the new
area nothing happens. -/
def splitArea (s : Mem) (m : MapId) (lo hi : ℕ) (a : AreaId) (vma : VmArea) :
    Except Fault Mem :=
  match s.vmareaAlloc with
  | (s, none) => return s
  | (s, some b) => do
    let o ← follow .pointer vma.vmaObj
    let s ← s.ref o
    let map ← follow .pointer (s.maps m)
    let s := s.setMap m (some { map with vmmList := insertBefore a b map.vmmList })
    let bottom ← s.bottomObj o
    let s ← s.linkBottom o bottom b
    let s := s.setArea b (some { vma with
      vmaEnd := lo
      vmaOlink := if bottom = o then none else some bottom })
    return s.setArea a (some { vma with
      vmaStart := hi
      vmaOff := vma.vmaOff + (lo - vma.vmaStart) + (hi - lo) })

/-- The part of `vmmap_remove` that drops an area. -/
def dropArea (s : Mem) (m : MapId) (a : AreaId) (vma : VmArea) : Except Fault Mem := do
  let o ← follow .pointer vma.vmaObj
  let s ← s.put o
  let s := s.unlinkVma a vma.vmaOlink
  let map ← follow .pointer (s.maps m)
  return (s.setMap m (some { map with vmmList := map.vmmList.erase a })).setArea a none

/-- The loop of `vmmap_remove`.  After a split it returns. -/
def removeLoop (m : MapId) (lo hi : ℕ) : List AreaId → Mem → Except Fault Mem
  | [], s => return s
  | a :: l, s => do
    let vma ← follow .pointer (s.areas a)
    if vma.Avoids lo hi then
      removeLoop m lo hi l s
    else if vma.vmaStart < lo ∧ hi < vma.vmaEnd then
      s.splitArea m lo hi a vma
    else if vma.vmaStart < lo then
      removeLoop m lo hi l (s.setArea a (some { vma with vmaEnd := lo }))
    else if hi < vma.vmaEnd then
      removeLoop m lo hi l (s.setArea a (some { vma with
        vmaStart := hi
        vmaOff := vma.vmaOff + (hi - vma.vmaStart) }))
    else
      let s ← s.dropArea m a vma
      removeLoop m lo hi l s

/-- `vmmap_remove`. -/
def vmmapRemove (s : Mem) (m : MapId) (lopage npages : ℕ) : Except Fault Mem := do
  let empty ← s.vmmapIsRangeEmpty m lopage npages
  if empty then return s
  else
    let map ← follow .pointer (s.maps m)
    removeLoop m lopage ((lopage + npages) % 2 ^ 32) map.vmmList s

/-- One turn of the loop of `vmmap_destroy`. -/
def destroyArea (m : MapId) (s : Mem) (a : AreaId) : Except Fault Mem := do
  let vma ← follow .pointer (s.areas a)
  let map ← follow .pointer (s.maps m)
  let s := s.setMap m (some { map with vmmList := map.vmmList.erase a })
  let s := s.unlinkVma a vma.vmaOlink
  let o ← follow .pointer vma.vmaObj
  let s ← s.put o
  return s.setArea a none

/-- `vmmap_destroy`.  A map without areas is not freed. -/
def vmmapDestroy (s : Mem) (m : MapId) : Except Fault Mem := do
  let map ← follow .pointer (s.maps m)
  if map.vmmList = [] then return s
  else
    let s ← map.vmmList.foldlM (destroyArea m) s
    return s.setMap m none

/-! ## Cloning -/

/-- The loop of `vmmap_clone`; whether there was memory for all areas. -/
def cloneLoop (m : MapId) : List AreaId → Mem → Except Fault (Mem × Bool)
  | [], s => return (s, true)
  | a :: l, s => do
    let vma ← follow .pointer (s.areas a)
    match s.vmareaAlloc with
    | (s, none) => return (s, false)
    | (s, some b) =>
      let o ← follow .pointer vma.vmaObj
      let s ← s.ref o
      let s := s.setArea b (some { vma with vmaVmmap := none, vmaOlink := none })
      let s ← s.vmmapInsert m b
      cloneLoop m l s

/-- `vmmap_clone`. -/
def vmmapClone (s : Mem) (m : MapId) : Except Fault (Mem × Option MapId) := do
  let map ← follow .pointer (s.maps m)
  match s.vmmapCreate with
  | (s, none) => return (s, none)
  | (s, some m') =>
    let (s, ok) ← cloneLoop m' map.vmmList s
    return (s, if ok then some m' else none)

/-! ## Mapping -/

/-- The start of the new area, after the range has been found (`lopage = 0`) or
cleared. -/
def makeRoom (s : Mem) (m : MapId) (lopage npages : ℕ) (dir : Dir) :
    Except Fault (Mem × Option ℕ) :=
  if lopage = 0 then do
    let start ← s.vmmapFindRange m npages dir
    return (s, start)
  else do
    let empty ← s.vmmapIsRangeEmpty m lopage npages
    if empty then return (s, some lopage)
    else
      let s ← s.vmmapRemove m lopage npages
      return (s, some lopage)

/-- The object behind a new area: that of the file, or a new anonymous one.  `none`
is a pointer that is `NULL` or was never set. -/
def backing (s : Mem) (file : Option VnodeId) : Except Fault (Mem × Option ObjId) :=
  match file with
  | none => return s.anonCreate
  | some v => do
    let vn ← follow .pointer (s.vnodes v)
    match vn.vnMmap with
    | .missing => .error .pointer
    | .fails => return (s, none)
    | .object =>
      let s ← s.ref vn.vnMmobj
      return (s, some vn.vnMmobj)

/-- Put a shadow object over the object `under`: how a private area is set up, here
and in `do_fork`. -/
def shadowOver (s : Mem) (under : ObjId) : Except Fault (Mem × ObjId) := do
  let (s, r) := s.shadowCreate
  let o ← follow .pointer r
  let bottom ← s.bottomObj under
  let ob ← follow .pointer (s.objs o)
  return (s.setObj o (some { ob with
    mmoShadowed := some under
    mmoBottomObj := some bottom }), o)

/-- The part of `vmmap_map` after room has been made: allocate the area, find its
object, shadow it if the mapping is private, and insert the area. -/
def vmmapPlace (s : Mem) (m : MapId) (file : Option VnodeId) (start npages : ℕ)
    (prot flags : Flags) (off : ℕ) : Except Fault (Mem × Except Errno AreaId) :=
  match s.vmareaAlloc with
  | (s, none) => return (s, .error .ENOMEM)
  | (s, some a) => do
    let vma : VmArea :=
      { vmaStart := start, vmaEnd := start + npages, vmaOff := addrToPn off
        vmaProt := prot, vmaFlags := flags }
    let (s, under) ← s.backing file
    if flags.has mapPrivate then
      let under ← follow .pointer under
      let (s, o) ← s.shadowOver under
      let s ← s.linkVma under a
      let s := s.setArea a (some { vma with vmaObj := some o, vmaOlink := some under })
      let s ← s.vmmapInsert m a
      return (s, .ok a)
    else
      let s := s.setArea a (some { vma with vmaObj := under })
      let s ← s.vmmapInsert m a
      return (s, .ok a)

/-- `vmmap_map`. -/
def vmmapMap (s : Mem) (m : MapId) (file : Option VnodeId) (lopage npages : ℕ)
    (prot flags : Flags) (off : ℕ) (dir : Dir) : Except Fault (Mem × Except Errno AreaId) := do
  demand .assertion (0 < npages)
  demand .assertion (flags.has mapShared ∨ flags.has mapPrivate)
  demand .assertion (lopage = 0 ∨ lowPage ≤ lopage)
  demand .assertion (lopage = 0 ∨ lopage + npages ≤ highPage)
  demand .assertion (PageAligned off)
  let (s, start) ← s.makeRoom m lopage npages dir
  match start with
  | none => return (s, .error .ENOMEM)
  | some start => s.vmmapPlace m file start npages prot flags off

end

end Mem

end CS402.Mm

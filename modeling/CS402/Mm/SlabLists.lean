import CS402.Lib.Chain
import CS402.Mm.Blocks
import CS402.Mm.Slab
import Mathlib.Data.List.Perm.Subperm

/-!
# Slabs and their free lists

The invariant of the slab allocators.  A `View` of a heap lists the slabs of every
allocator and the free objects of every slab; `Heap.Inv` says that the links of the heap
lead through these lists, that a slab has its own block of pages, and that its objects are
either on its free list or in use.

Everything that is written lies in a block of pages, and different slabs have different
blocks (`Heap.Inv.same_slab`), so a write to one slab is not seen by any other.
-/

namespace CS402.Slabs

open Lib Function Page

variable [Orders]

/-! ## The layout of a slab -/

namespace Allocator

variable {a : Allocator} {addr o : ℕ}

/-- The distance from one object to the next. -/
def stride (a : Allocator) : ℕ := a.saObjsize + bufctlSize

theorem stride_pos : 0 < a.stride := Nat.add_pos_right _ (by decide)

theorem nextObj_eq : a.nextObj o = o + a.stride := Nat.add_assoc _ _ _

/-- The objects of a slab with its block at an address. -/
def objects (a : Allocator) (addr : ℕ) : List ℕ :=
  (List.range a.saSlabNobjs).map fun j ↦ addr + j * a.stride

theorem mem_objects : o ∈ a.objects addr ↔ ∃ j < a.saSlabNobjs, o = addr + j * a.stride := by
  simp [objects, eq_comm]

theorem length_objects : (a.objects addr).length = a.saSlabNobjs := by simp [objects]

theorem nodup_objects : (a.objects addr).Nodup := by
  refine List.nodup_range.map fun j j' h ↦ ?_
  exact Nat.eq_of_mul_eq_mul_right stride_pos (Nat.add_left_cancel h)

/-- The place of `struct slab`. -/
def header (a : Allocator) (addr : ℕ) : ℕ := addr + a.saSlabNobjs * a.stride

theorem header_add_le (addr : ℕ) : a.header addr + headerSize ≤ addr + blockSize a.saOrder := by
  have hfits : a.saSlabNobjs * a.stride + headerSize ≤ blockSize a.saOrder := a.fits
  unfold header
  omega

theorem object_add_le (ho : o ∈ a.objects addr) : addr ≤ o ∧ o + a.stride ≤ a.header addr := by
  obtain ⟨j, hj, rfl⟩ := mem_objects.mp ho
  have hle : (j + 1) * a.stride ≤ a.saSlabNobjs * a.stride := Nat.mul_le_mul_right _ hj
  rw [Nat.add_mul, Nat.one_mul] at hle
  unfold header
  omega

end Allocator

/-! ## The invariant -/

/-- The lists that a heap holds: the slabs of each allocator and the free objects of each
slab. -/
structure View where
  slabs : ℕ → List ℕ
  free : ℕ → List ℕ

namespace Heap

/-- The link from a slab to the next one. -/
def next (s : Heap) (p : ℕ) : ℕ := (s.slab p).sNext

/-- The link from a free object to the next one. -/
def link (s : Heap) (o : ℕ) : ℕ := (s.bufctl o).word

/-- The slab at `p` of the allocator at position `i` is as it should be, with the objects
`free` on its free list. -/
structure Formed (s : Heap) (i : ℕ) (a : Allocator) (p : ℕ) (free : List ℕ) : Prop where
  addr_ne : (s.slab p).sAddr ≠ 0
  place : p = a.header (s.slab p).sAddr
  block : ((s.slab p).sAddr, 2 ^ a.saOrder) ∈ s.pages.live
  chain : Chain s.link (s.slab p).sFree free
  objects : ∀ o ∈ free, o ∈ a.objects (s.slab p).sAddr
  count : (s.slab p).sInuse + free.length = a.saSlabNobjs
  marked : ∀ o ∈ free, (s.bufctl o).sbFree = true
  live : ∀ o ∈ a.objects (s.slab p).sAddr, o ∈ free ↔ (i, o) ∉ s.live
  back : ∀ o ∈ a.objects (s.slab p).sAddr, (i, o) ∈ s.live → s.bufctl o = ⟨p, false⟩

/-- The invariant of the slab allocators. -/
structure Inv (s : Heap) (v : View) : Prop where
  pages : s.pages.Inv
  chain : ∀ i a, s.allocators[i]? = some a → Chain s.next (s.saSlabs i) (v.slabs i)
  allocator : ∀ i, ∀ p ∈ v.slabs i, ∃ a, s.allocators[i]? = some a
  formed : ∀ i a, s.allocators[i]? = some a → ∀ p ∈ v.slabs i, s.Formed i a p (v.free p)
  /-- No two allocators share a block. -/
  one : ∀ i j, ∀ p ∈ v.slabs i, ∀ q ∈ v.slabs j, (s.slab p).sAddr = (s.slab q).sAddr → i = j
  home : ∀ i o, (i, o) ∈ s.live → ∃ a, s.allocators[i]? = some a ∧
    ∃ p ∈ v.slabs i, o ∈ a.objects (s.slab p).sAddr
  nodup : s.live.Nodup
  others : ∀ b ∈ s.others, b ∈ s.pages.live ∧ ∀ i, ∀ p ∈ v.slabs i, (s.slab p).sAddr ≠ b.1
  others_nodup : s.others.Nodup

theorem Inv.boot (allocators : List Allocator) : (boot allocators).Inv ⟨fun _ ↦ [], fun _ ↦ []⟩ where
  pages := .boot
  chain _ _ _ := rfl
  allocator _ _ hp := nomatch hp
  formed _ _ _ _ hp := nomatch hp
  one _ _ _ hp := nomatch hp
  home _ _ ho := nomatch ho
  nodup := List.nodup_nil
  others _ hb := nomatch hb
  others_nodup := List.nodup_nil

variable {s s' : Heap} {v : View} {i j p q o : ℕ} {a a' : Allocator} {free : List ℕ}

/-- A slab is as it should be if nothing that belongs to it has changed. -/
theorem Formed.congr (hf : s.Formed i a p free)
    (haddr : (s'.slab p).sAddr = (s.slab p).sAddr) (hfree : (s'.slab p).sFree = (s.slab p).sFree)
    (hinuse : (s'.slab p).sInuse = (s.slab p).sInuse)
    (hblock : ((s.slab p).sAddr, 2 ^ a.saOrder) ∈ s'.pages.live)
    (hword : ∀ o ∈ a.objects (s.slab p).sAddr, s'.bufctl o = s.bufctl o)
    (hlive : ∀ o ∈ a.objects (s.slab p).sAddr, (i, o) ∈ s'.live ↔ (i, o) ∈ s.live) :
    s'.Formed i a p free where
  addr_ne := haddr ▸ hf.addr_ne
  place := haddr ▸ hf.place
  block := haddr ▸ hblock
  chain := by
    rw [hfree]
    exact hf.chain.congr fun o ho ↦ congrArg Bufctl.word (hword o (hf.objects o ho))
  objects := haddr ▸ hf.objects
  count := hinuse ▸ hf.count
  marked o ho := by
    rw [hword o (hf.objects o ho)]
    exact hf.marked o ho
  live o ho := by
    rw [haddr] at ho
    rw [hf.live o ho, hlive o ho]
  back o ho hl := by
    rw [haddr] at ho
    rw [hword o ho]
    exact hf.back o ho ((hlive o ho).mp hl)

theorem Formed.object_lt (_ : s.Formed i a p free)
    (ho : o ∈ a.objects (s.slab p).sAddr) :
    (s.slab p).sAddr ≤ o ∧ o < (s.slab p).sAddr + blockSize a.saOrder := by
  have hobj := Allocator.object_add_le ho
  have hheader := a.header_add_le (s.slab p).sAddr
  have hpos := a.stride_pos
  omega

theorem Formed.place_lt (hf : s.Formed i a p free) :
    (s.slab p).sAddr ≤ p ∧ p < (s.slab p).sAddr + blockSize a.saOrder := by
  have hplace := hf.place
  have hheader := a.header_add_le (s.slab p).sAddr
  have hle : (s.slab p).sAddr ≤ a.header (s.slab p).sAddr := Nat.le_add_right _ _
  rw [← hplace] at hheader hle
  exact ⟨hle, lt_of_lt_of_le (Nat.lt_add_of_pos_right (by decide)) hheader⟩

namespace Inv

section

variable (h : s.Inv v) (hp : p ∈ v.slabs i) (hi : s.allocators[i]? = some a) (hq : q ∈ v.slabs j)
  (hj : s.allocators[j]? = some a')
include h hp hi hq hj

/-- **Different slabs have different blocks.** -/
theorem same_slab {x : ℕ}
    (hxp : (s.slab p).sAddr ≤ x ∧ x < (s.slab p).sAddr + blockSize a.saOrder)
    (hxq : (s.slab q).sAddr ≤ x ∧ x < (s.slab q).sAddr + blockSize a'.saOrder) : i = j ∧ p = q := by
  have hfp := h.formed i a hi p hp
  have hfq := h.formed j a' hj q hq
  by_cases haddr : (s.slab p).sAddr = (s.slab q).sAddr
  · obtain rfl := h.one i j p hp q hq haddr
    obtain rfl : a = a' := Option.some.inj (hi.symm.trans hj)
    refine ⟨rfl, ?_⟩
    rw [hfp.place, hfq.place, haddr]
  · have hdis := h.pages.live_disjoint hfp.block hfq.block (orderOf_two_pow a.order_lt)
      (orderOf_two_pow a'.order_lt) haddr
    unfold Extent.Disjoint at hdis
    simp only [] at hdis
    omega

theorem same_of_object (hop : o ∈ a.objects (s.slab p).sAddr)
    (hoq : o ∈ a'.objects (s.slab q).sAddr) : i = j ∧ p = q :=
  h.same_slab hp hi hq hj ((h.formed i a hi p hp).object_lt hop)
    ((h.formed j a' hj q hq).object_lt hoq)

end

theorem same_allocator (h : s.Inv v) (hp : p ∈ v.slabs i) (hq : p ∈ v.slabs j) : i = j := by
  obtain ⟨a, hi⟩ := h.allocator i p hp
  obtain ⟨a', hj⟩ := h.allocator j p hq
  exact (h.same_slab hp hi hq hj (h.formed i a hi p hp).place_lt
    (h.formed j a' hj p hq).place_lt).1

theorem length_slabs_lt (h : s.Inv v) (hi : s.allocators[i]? = some a) :
    (v.slabs i).length < s.bound := by
  have hnodup : ((v.slabs i).map fun p ↦ ((s.slab p).sAddr, 2 ^ a.saOrder)).Nodup := by
    refine List.Nodup.map_on (fun p hp q hq heq ↦ ?_) (h.chain i a hi).nodup
    rw [(h.formed i a hi p hp).place, (h.formed i a hi q hq).place, (Prod.mk.inj heq).1]
  have hsub : ((v.slabs i).map fun p ↦ ((s.slab p).sAddr, 2 ^ a.saOrder)) ⊆ s.pages.live := by
    intro b hb
    obtain ⟨p, hp, rfl⟩ := List.mem_map.mp hb
    exact (h.formed i a hi p hp).block
  have hle := (List.subperm_of_subset hnodup hsub).length_le
  rw [List.length_map] at hle
  exact Nat.lt_succ_of_le hle

end Inv

/-! ## One slab changes -/

/-- The slab at `p` and the control word of `o` are written, and `live` are the objects in
use from then on. -/
def edit (s : Heap) (p : ℕ) (t : Slab) (o : ℕ) (b : Bufctl) (live : List (ℕ × ℕ)) : Heap :=
  { s with slab := update s.slab p t, bufctl := update s.bufctl o b, live }

section edit

variable {t : Slab} {b : Bufctl} {live : List (ℕ × ℕ)}

theorem slab_edit_self : (s.edit p t o b live).slab p = t := update_self _ _ _

theorem slab_edit_of_ne (h : q ≠ p) : (s.edit p t o b live).slab q = s.slab q :=
  update_of_ne h _ _

theorem sAddr_edit (haddr : t.sAddr = (s.slab p).sAddr) (q : ℕ) :
    ((s.edit p t o b live).slab q).sAddr = (s.slab q).sAddr := by
  by_cases hq : q = p
  · subst hq
    simp [edit, haddr]
  · rw [slab_edit_of_ne hq]

theorem next_edit (hnext : t.sNext = (s.slab p).sNext) : (s.edit p t o b live).next = s.next := by
  funext q
  unfold next
  by_cases hq : q = p
  · subst hq
    simp [edit, hnext]
  · rw [slab_edit_of_ne hq]

theorem bufctl_edit : (s.edit p t o b live).bufctl = update s.bufctl o b := rfl

theorem live_edit : (s.edit p t o b live).live = live := rfl

theorem link_edit : (s.edit p t o b live).link = update s.link o b.word := by
  funext o'
  exact apply_update (fun _ ↦ Bufctl.word) s.bufctl o b o'

theorem Formed.edit_of_ne (hf : s.Formed j a' q free) (hqp : q ≠ p)
    (ho : o ∉ a'.objects (s.slab q).sAddr)
    (hlive : ∀ x, x ≠ (i, o) → (x ∈ live ↔ x ∈ s.live)) :
    (s.edit p t o b live).Formed j a' q free := by
  have hne : ∀ o' ∈ a'.objects (s.slab q).sAddr, o' ≠ o := by
    rintro o' ho' rfl
    exact ho ho'
  have hslab : (s.edit p t o b live).slab q = s.slab q := slab_edit_of_ne hqp
  refine hf.congr (congrArg _ hslab) (congrArg _ hslab) (congrArg _ hslab) hf.block
    (fun o' ho' ↦ update_of_ne (hne o' ho') _ _) fun o' ho' ↦ hlive _ fun heq ↦ ?_
  exact hne o' ho' (Prod.mk.inj heq).2

/-- **Writing to one slab.**  If the slab that is written is as it should be afterwards, then
so is the whole heap. -/
theorem Inv.edit (h : s.Inv v) (hi : s.allocators[i]? = some a) (hp : p ∈ v.slabs i)
    (ho : o ∈ a.objects (s.slab p).sAddr) (hnext : t.sNext = (s.slab p).sNext)
    (haddr : t.sAddr = (s.slab p).sAddr) (hlive : ∀ x, x ≠ (i, o) → (x ∈ live ↔ x ∈ s.live))
    (hnodup : live.Nodup) (hf : (s.edit p t o b live).Formed i a p free) :
    (s.edit p t o b live).Inv { v with free := update v.free p free } where
  pages := h.pages
  chain j a' hj := by
    rw [next_edit hnext]
    exact h.chain j a' hj
  allocator := h.allocator
  formed j a' hj q hq := by
    by_cases hqp : q = p
    · subst hqp
      obtain rfl := h.same_allocator hp hq
      obtain rfl : a = a' := Option.some.inj (hi.symm.trans hj)
      simp only [update_self]
      exact hf
    · simp only [update_of_ne hqp]
      refine (h.formed j a' hj q hq).edit_of_ne hqp (fun hoq ↦ ?_) hlive
      exact hqp (h.same_of_object hq hj hp hi hoq ho).2
  one j k q hq r hr heq := by
    rw [sAddr_edit haddr, sAddr_edit haddr] at heq
    exact h.one j k q hq r hr heq
  home j o' hl := by
    simp only [sAddr_edit haddr]
    by_cases heq : (j, o') = (i, o)
    · obtain ⟨rfl, rfl⟩ := Prod.mk.inj heq
      exact ⟨a, hi, p, hp, ho⟩
    · exact h.home j o' ((hlive _ heq).mp hl)
  nodup := hnodup
  others b hb := by
    simp only [sAddr_edit haddr]
    exact h.others b hb
  others_nodup := h.others_nodup

end edit

theorem Formed.exists_free (hf : s.Formed i a p free)
    (hlt : (s.slab p).sInuse < a.saSlabNobjs) : ∃ o rest, free = o :: rest := by
  refine List.exists_cons_of_ne_nil fun hnil ↦ ?_
  have hcount := hf.count
  rw [hnil] at hcount
  simp only [List.length_nil, Nat.cast_zero] at hcount
  omega

/-- An object is taken off the free list of a slab. -/
theorem Inv.takeObj (h : s.Inv v) (hi : s.allocators[i]? = some a) (hp : p ∈ v.slabs i)
    (hlt : (s.slab p).sInuse < a.saSlabNobjs) :
    ∃ s' o v', s.takeObj i p = .ok (s', o) ∧ s'.Inv v' ∧ s'.allocators = s.allocators ∧ o ≠ 0 ∧
      o ∈ a.objects (s.slab p).sAddr ∧ (i, o) ∉ s.live ∧ s'.live = (i, o) :: s.live := by
  have hf := h.formed i a hi p hp
  obtain ⟨o, rest, hfree⟩ := hf.exists_free hlt
  have hchain := hf.chain
  have hmem : o ∈ v.free p := by simp [hfree]
  have hobj := hf.objects o hmem
  have hnew : (i, o) ∉ s.live := (hf.live o hobj).mp hmem
  have hnodup := hchain.nodup
  rw [hfree] at hchain hnodup
  obtain ⟨hhead, hne, hrest⟩ := hchain
  have horest := (List.nodup_cons.mp hnodup).1
  refine ⟨s.edit p { s.slab p with sFree := (s.bufctl o).word, sInuse := (s.slab p).sInuse + 1 } o
    ⟨p, false⟩ ((i, o) :: s.live), o, { v with free := update v.free p rest }, ?_, ?_, rfl, hne,
    hobj, hnew, rfl⟩
  · unfold Heap.takeObj
    simp only [hhead]
    rw [demand_pos hne]
    rfl
  · refine h.edit hi hp hobj ?_ ?_ (fun x hx ↦ ?_) (List.nodup_cons.mpr ⟨hnew, h.nodup⟩) ?_
    · rfl
    · rfl
    · simp [hx]
    -- the slab itself
    have hrest_ne : ∀ o' ∈ rest, o' ≠ o := by
      rintro o' ho' rfl
      exact horest ho'
    have hcount := hf.count
    rw [hfree, List.length_cons] at hcount
    constructor <;> simp only [slab_edit_self, link_edit, bufctl_edit, live_edit]
    · exact hf.addr_ne
    · exact hf.place
    · exact hf.block
    · exact hrest.congr fun o' ho' ↦ update_of_ne (hrest_ne o' ho') _ _
    · exact fun o' ho' ↦ hf.objects o' (by simp [hfree, ho'])
    · push_cast at hcount
      omega
    · intro o' ho'
      rw [update_of_ne (hrest_ne o' ho')]
      exact hf.marked o' (by simp [hfree, ho'])
    · intro o' ho'
      have hl := hf.live o' ho'
      rw [hfree, List.mem_cons] at hl
      by_cases heq : o' = o
      · subst heq
        simp [horest]
      · simpa [heq] using hl
    · intro o' ho' hl
      by_cases heq : o' = o
      · rw [heq, update_self]
      · rw [update_of_ne heq]
        exact hf.back o' ho' (by simpa [heq] using hl)

/-- An object that is in use is put back on the free list of its slab. -/
theorem Inv.slabObjFree (h : s.Inv v) (hl : (i, o) ∈ s.live) :
    ∃ s' v', s.slabObjFree i o = .ok s' ∧ s'.Inv v' ∧ s'.allocators = s.allocators := by
  obtain ⟨a, hi, p, hp, hobj⟩ := h.home i o hl
  have hf := h.formed i a hi p hp
  have hback := hf.back o hobj hl
  have hfree : o ∉ v.free p := fun ho ↦ (hf.live o hobj).mp ho hl
  have hne : o ≠ 0 := by
    have haddr := hf.addr_ne
    have hle := (hf.object_lt hobj).1
    omega
  refine ⟨s.edit p { s.slab p with sFree := o, sInuse := (s.slab p).sInuse - 1 } o
    ⟨(s.slab p).sFree, true⟩ (s.live.erase (i, o)), { v with free := update v.free p (o :: v.free p) },
    ?_, ?_, rfl⟩
  · unfold Heap.slabObjFree
    rw [hback, demand_pos rfl]
    rfl
  · refine h.edit hi hp hobj ?_ ?_ (fun x hx ↦ List.mem_erase_of_ne hx) (h.nodup.erase _) ?_
    · rfl
    · rfl
    have hfree_ne : ∀ o' ∈ v.free p, o' ≠ o := by
      rintro o' ho' rfl
      exact hfree ho'
    have hcount := hf.count
    have hgone : (i, o) ∉ s.live.erase (i, o) := h.nodup.not_mem_erase
    constructor <;> simp only [slab_edit_self, link_edit, bufctl_edit, live_edit]
    · exact hf.addr_ne
    · exact hf.place
    · exact hf.block
    · exact hf.chain.push hne hfree
    · intro o' ho'
      rcases List.mem_cons.mp ho' with rfl | ho'
      · exact hobj
      · exact hf.objects o' ho'
    · rw [List.length_cons]
      push_cast
      omega
    · intro o' ho'
      rcases List.mem_cons.mp ho' with rfl | ho'
      · rw [update_self]
      · rw [update_of_ne (hfree_ne o' ho')]
        exact hf.marked o' ho'
    · intro o' ho'
      by_cases heq : o' = o
      · subst heq
        simp [hgone]
      · have hne' : (i, o') ≠ (i, o) := fun h ↦ heq (Prod.mk.inj h).2
        rw [List.mem_cons, hf.live o' ho', List.mem_erase_of_ne hne']
        simp [heq]
    · intro o' ho' hl'
      have heq : o' ≠ o := by
        rintro rfl
        exact hgone hl'
      rw [update_of_ne heq]
      exact hf.back o' ho' (List.mem_of_mem_erase hl')

end Heap

end CS402.Slabs

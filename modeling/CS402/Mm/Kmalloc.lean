import CS402.Mm.SlabAlloc
import Mathlib.Tactic.IntervalCases

/-!
# Blocks as large as asked for

`page_alloc_n` and `kmalloc` take the first power of two that is large enough.  The number
they compare it with is not always the one that was asked for: `page_alloc_n` converts
`npages` to `int`, and `kmalloc` adds the size of its header in 32 bits.
-/

namespace CS402.Slabs

open Lib Function Page

/-- `sizeof(struct slab_allocator *)`: every block of `kmalloc` has a pointer to its
allocator in front of it. -/
def pointerSize : ℕ := 4

/-- The orders from `KMALLOC_SIZE_MIN_ORDER` to `KMALLOC_SIZE_MAX_ORDER`. -/
def kmallocOrders : List ℕ := List.range' 6 13

variable [Orders]

/-- `slab_init`.  `size` is `sizeof(struct slab_allocator)`; a new allocator comes to the
front of `slab_allocators`. -/
def slabInit (size : ℕ) : Except Fault (List Allocator) := do
  let a ← allocatorInit size
  kmallocOrders.foldlM (fun allocators order ↦ (· :: allocators) <$> allocatorInit (2 ^ order)) [a]

/-- `kmalloc`.  The allocators are counted from the front, where those come that are created
after `slab_init`, so the entries of `kmalloc_allocators` are found from the other end. -/
def kmalloc (s : Heap) (size : ℕ) : Except Fault (Heap × ℕ) :=
  let size := (size + pointerSize) % 2 ^ 32
  match kmallocOrders.find? fun order ↦ size ≤ 2 ^ order with
  | none => throw .assertion
  | some order => do
    let (s, addr) ← s.slabObjAlloc (s.allocators.length + 4 - order)
    if addr = 0 then pure (s, 0) else pure (s, addr + pointerSize)

variable {size : ℕ}

theorem allocatorInit_ok {a : Allocator} (h : allocatorInit size = .ok a) : a.saObjsize = size := by
  obtain ⟨⟨order, nobjs⟩, -, h⟩ := bind_ok h
  simp only [] at h
  split at h
  · cases h
    rfl
  · cases h

theorem slabInit_ok {base : List Allocator} (h : slabInit size = .ok base) :
    base.map Allocator.saObjsize = (kmallocOrders.map (2 ^ ·)).reverse ++ [size] := by
  obtain ⟨a, ha, h⟩ := bind_ok h
  have hfold : ∀ (l : List ℕ) (init : List Allocator),
      l.foldlM (fun allocators order ↦ (· :: allocators) <$> allocatorInit (2 ^ order)) init =
        .ok base →
      base.map Allocator.saObjsize =
        (l.map (2 ^ ·)).reverse ++ init.map Allocator.saObjsize := by
    intro l
    induction l with
    | nil =>
      intro init h
      cases h
      rfl
    | cons order l ih =>
      intro init h
      rw [List.foldlM_cons] at h
      obtain ⟨_, hmap, h⟩ := bind_ok h
      obtain ⟨b, hb, rfl⟩ := map_eq_ok.mp hmap
      rw [ih _ h, List.map_cons, allocatorInit_ok hb]
      simp
  rw [hfold _ _ h, List.map_singleton, allocatorInit_ok ha]

theorem kmalloc_allocator (later : List Allocator) {order : ℕ} {base : List Allocator}
    (h : slabInit size = .ok base) (horder : order ∈ kmallocOrders) :
    ∃ a, (later ++ base)[(later ++ base).length + 4 - order]? = some a ∧
      a.saObjsize = 2 ^ order := by
  have hsizes := slabInit_ok h
  have hlen : base.length = 14 := by simpa [kmallocOrders] using congrArg List.length hsizes
  have hrange : 6 ≤ order ∧ order < 19 := by
    simpa [kmallocOrders, List.mem_range'_1] using horder
  have hget : (base.map Allocator.saObjsize)[18 - order]? = some (2 ^ order) := by
    rw [hsizes]
    obtain ⟨hmin, hmax⟩ := hrange
    interval_cases order <;> rfl
  rw [List.getElem?_map] at hget
  obtain ⟨a, ha, hsize⟩ := Option.map_eq_some_iff.mp hget
  refine ⟨a, ?_, hsize⟩
  rw [List.length_append, hlen, List.getElem?_append_right (by omega)]
  rwa [show later.length + 14 + 4 - order - later.length = 18 - order by omega]

/-- The block of the order that is chosen is large enough if the number is not negative as
an `int`. -/
theorem le_orderOf_iff {n k : ℕ} (hk : Page.orderOf n = some k) : n ≤ 2 ^ k ↔ n < 2 ^ 31 := by
  have hlt := (Pages.Inv.orderOf_lt hk).trans_le Orders.nsizes_le
  have hle : 2 ^ k ≤ 2 ^ 18 := Nat.pow_le_pow_right (by decide) (Nat.le_of_lt_succ hlt)
  refine ⟨fun h ↦ by omega, fun h ↦ ?_⟩
  have hfits := List.find?_some hk
  rw [int32_of_range (by omega) (by omega), decide_eq_true_eq] at hfits
  exact_mod_cast hfits

/-- A block of `page_alloc_n` is large enough exactly when the number is below two to the
31st, and a block of `kmalloc` when its size and the header have room in 32 bits.  A larger
request gets a block of one page, or of sixty bytes. -/
theorem large_enough_iff :
    (∀ hist s, Run (ofStep Page.step) Page.boot hist s → ∀ n, 1 ≤ n → n < 2 ^ 32 →
      ∀ freed more s' addr, pageAllocN s n freed more = .ok (s', some addr) →
      ∃ k, (addr, k) ∈ (hand n (s', some addr)).extents ∧
        (hand n (s', some addr)).extents.Pairwise Extent.Disjoint ∧
        (∃ t, release (hand n (s', some addr)) (addr, n) = .ok t ∧ t.live = s'.live) ∧
        (∀ t, pageFreeN t addr n = pageFreeOrder t addr k) ∧ (n ≤ 2 ^ k ↔ n < 2 ^ 31)) ∧
    ∀ structSize later base hist s, slabInit structSize = .ok base →
      Run (ofStep step) (boot (later ++ base)) hist s → ∀ size, size < 2 ^ 32 →
      kmalloc s size = .error .assertion ∨ ∃ s' addr, kmalloc s size = .ok (s', addr) ∧
        (addr ≠ 0 → ∃ i a obj, s.allocators[i]? = some a ∧ (∀ j, (j, obj) ∉ s.live) ∧
          s'.live = (i, obj) :: s.live ∧ addr = obj + pointerSize ∧
          (addr + size ≤ obj + a.saObjsize ↔ size + pointerSize < 2 ^ 32)) := by
  refine ⟨fun hist s hr n _ _ freed more s' addr h ↦ ?_,
    fun structSize later base hist s hbase hr size hsize ↦ ?_⟩
  · have hinv : (hand n (s', some addr)).Inv :=
      (Page.inv_of_run hr).step (e := .allocN n freed more) (by rw [Page.step, h]; rfl)
    unfold pageAllocN at h
    split at h
    · cases h
    · next k hk =>
      obtain ⟨t, hok, -, hlive⟩ := hinv.release_ok List.mem_cons_self
      refine ⟨k, ?_, hinv.pairwise_disjoint, ⟨t, hok, ?_⟩, fun t ↦ ?_, le_orderOf_iff hk⟩
      · refine List.mem_append_right _ (List.mem_filterMap.mpr ⟨(addr, n), List.mem_cons_self, ?_⟩)
        rw [hk]
        rfl
      · rw [hlive, hand, List.erase_cons_head]
      · rw [pageFreeN, hk]
  · obtain ⟨hal, v, hv⟩ := inv_of_run hr
    unfold kmalloc
    simp only []
    split
    · exact .inl rfl
    · next order hfind =>
      right
      obtain ⟨a, ha, hobj⟩ := kmalloc_allocator later hbase (List.mem_of_find?_eq_some hfind)
      rw [← hal] at ha
      obtain ⟨s', o, v', hok, -, -, hnew, -⟩ := hv.slabObjAlloc ha
      rw [hok, ok_bind]
      rcases eq_or_ne o 0 with rfl | ho
      · exact ⟨s', 0, rfl, fun h ↦ absurd rfl h⟩
      · refine ⟨s', o + pointerSize, if_neg ho, fun _ ↦
          ⟨_, a, o, ha, (hnew ho).1, (hnew ho).2, rfl, ?_⟩⟩
        have hfits := List.find?_some hfind
        rw [decide_eq_true_eq] at hfits
        have hmax : 2 ^ order ≤ 2 ^ 18 := by
          have hmem := List.mem_of_find?_eq_some hfind
          rw [kmallocOrders, List.mem_range'_1] at hmem
          exact Nat.pow_le_pow_right (by decide) (by omega)
        rw [hobj]
        unfold pointerSize at hfits ⊢
        omega

omit [Orders] in
/-- The allocators of the distribution; `sizeof(struct slab_allocator)` is 24. -/
def stockAllocators : List (@Allocator Orders.stock) :=
  letI := Orders.stock
  (slabInit 24).toOption.getD []

omit [Orders] in
theorem slabInit_stock : @slabInit Orders.stock 24 = .ok stockAllocators := rfl

omit [Orders] in
/-- Two to the 31st pages are a block of one page, and the largest size is an object of
64 bytes. -/
theorem small_blocks : letI := Orders.stock
    (∃ s s', Run (ofStep Page.step) Page.boot [.addRange 0x100000 0x182000] s ∧
      pageAllocN s (2 ^ 31) [] [] = .ok (s', some 0x17f000) ∧
      (0x17f000, 0) ∈ (hand (2 ^ 31) (s', some 0x17f000)).extents) ∧
    ∃ s s', Run (ofStep step) (boot stockAllocators) [.addRange 0x100000 0x182000] s ∧
      kmalloc s (2 ^ 32 - 1) = .ok (s', 0x170004) ∧ s'.live = [(12, 0x170000)] ∧
      (stockAllocators.map Allocator.saObjsize)[12]? = some 64 := by
  let := Orders.stock
  have hpages : check Page.step Page.boot [.addRange 0x100000 0x182000] (fun s ↦
      returns (fun r ↦ r.2 = some 0x17f000 ∧ (0x17f000, 0) ∈ (hand (2 ^ 31) r).extents)
        (pageAllocN s (2 ^ 31) [] [])) = true := by
    decide +kernel
  have hheap : check step (boot stockAllocators) [.addRange 0x100000 0x182000] (fun s ↦
      returns (fun r ↦ r.2 = 0x170004 ∧ r.1.live = [(12, 0x170000)])
        (kmalloc s (2 ^ 32 - 1))) = true := by
    decide +kernel
  constructor
  · obtain ⟨s, hs, hp⟩ := exists_of_check hpages
    obtain ⟨⟨s', _⟩, hok, hp⟩ := returns_eq_true.mp hp
    obtain ⟨rfl, hmem⟩ := of_decide_eq_true hp
    exact ⟨s, s', Run.of_exec hs, hok, hmem⟩
  · obtain ⟨s, hs, hp⟩ := exists_of_check hheap
    obtain ⟨⟨s', _⟩, hok, hp⟩ := returns_eq_true.mp hp
    obtain ⟨rfl, hlive⟩ := of_decide_eq_true hp
    exact ⟨s, s', Run.of_exec hs, hok, hlive, rfl⟩

omit [Orders] in
/-- Three pages. -/
theorem large_enough_three : letI := Orders.stock
    ∃ s s' addr k, pageAllocN s 3 [] [] = .ok (s', some addr) ∧
      (addr, k) ∈ (hand 3 (s', some addr)).extents ∧ 3 ≤ 2 ^ k := by
  let := Orders.stock
  have hpages : check Page.step Page.boot [.addRange 0x100000 0x182000] (fun s ↦
      returns (fun r ↦ r.2.isSome) (pageAllocN s 3 [] [])) = true := by
    decide +kernel
  obtain ⟨s, hs, hp⟩ := exists_of_check hpages
  obtain ⟨⟨s', addr⟩, hok, hp⟩ := returns_eq_true.mp hp
  obtain ⟨addr, rfl⟩ := Option.isSome_iff_exists.mp hp
  obtain ⟨k, hk, -, -, -, hiff⟩ := large_enough_iff.1 _ s (Run.of_exec hs) 3 (by decide) (by decide)
    [] [] s' addr hok
  exact ⟨s, s', addr, k, hok, hk, hiff.mpr (by decide)⟩

end CS402.Slabs

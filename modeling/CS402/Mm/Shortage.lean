import CS402.Mm.Freecount
import CS402.Mm.SlabAlloc

/-!
# When no block is found

`page_alloc_n` gives up after one search: without `__SHADOWD__` the counter `num_retrys`
starts at zero, and the loop of `_page_split` ends after it has called
`slab_allocators_reclaim`.  What the slabs gave back is on the free lists when `NULL` is
returned.

Which blocks that are can be read off the state before the call.  A byte is free after the
slabs have been reclaimed if it was free or lay in an empty slab
(`Heap.Inv.freeAt_reclaimed`), and there is a free block of an order exactly where an
aligned stretch of its size is free throughout (`Pages.Inv.fits_iff`), because buddies are
always joined.
-/

namespace CS402.Page

open Lib Lib.Buddy Function

variable [Orders] {s s' : Pages} {g : Group} {k n a : ℕ}

/-! ## Free bytes and free blocks -/

/-- Some group has a free block with room for `n` pages. -/
def Pages.Fits (s : Pages) (n : ℕ) : Prop :=
  ∃ g ∈ s.groups, ∃ order < nsizes, n ≤ 2 ^ order ∧ g.pgFreelist order ≠ []

/-- The byte lies in a free block. -/
def Pages.FreeAt (s : Pages) (a : ℕ) : Prop :=
  ∃ g ∈ s.groups, ∃ order, ∃ b ∈ g.pgFreelist order, b ≤ a ∧ a < b + blockSize order

/-- The byte lies in an allocated block. -/
def Pages.LiveAt (s : Pages) (b : ℕ × ℕ) (a : ℕ) : Prop :=
  b ∈ s.live ∧ ∃ order, orderOf b.2 = some order ∧ b.1 ≤ a ∧ a < b.1 + blockSize order

/-- The byte lies in the part of a group that is divided into blocks. -/
def Pages.DividedAt (s : Pages) (a : ℕ) : Prop :=
  ∃ r ∈ s.groups.map Group.divided, r.1 ≤ a ∧ a < r.2

theorem Keeps.dividedAt_iff (h : Keeps s s') : s'.DividedAt a ↔ s.DividedAt a := by
  have hmap : s'.groups.map Group.divided = s.groups.map Group.divided :=
    h.map_eq fun r ↦ (r.1, r.1 + (r.2 - r.1) / blockSize lastOrder * blockSize lastOrder)
  rw [Pages.DividedAt, Pages.DividedAt, hmap]

namespace Pages.Inv

theorem exists_free_of_freeAt (hs : s.Inv) (hg : g ∈ s.groups) {z : ℕ}
    (hz : g.pgBaseaddr + z < g.pgEndaddr) (h : s.FreeAt (g.pgBaseaddr + z)) :
    ∃ b ∈ g.free, Holds pageSize b z := by
  obtain ⟨g', hg', order, b, hb, hle, hlt⟩ := h
  have hb' := hs.group g' hg'
  have hfree := Group.mem_freelist hb' hb
  have hbase := hb'.above order b hb
  have hend := hb'.le_endaddr (.inl hfree)
  simp only [] at hend
  -- the group of the block is this one, since different groups lie apart
  obtain rfl : g' = g := by
    by_contra hne
    rcases hs.apart_of_ne hg' hg hne with hap | hap <;> simp only [Group.span] at hap <;> omega
  refine ⟨_, hfree, ?_, ?_⟩
  · show b - g'.pgBaseaddr ≤ z
    omega
  · show z < b - g'.pgBaseaddr + blockSize order
    omega

theorem fits_iff (hs : s.Inv) : s.Fits n ↔ ∃ g ∈ s.groups, ∃ order < nsizes, n ≤ 2 ^ order ∧
    ∃ x, blockSize order ∣ x ∧ g.pgBaseaddr + x + blockSize order ≤ g.pgEndaddr ∧
      ∀ z, x ≤ z → z < x + blockSize order → s.FreeAt (g.pgBaseaddr + z) := by
  constructor
  · rintro ⟨g, hg, order, horder, hn, hne⟩
    obtain ⟨x, rest, hhead, hfree⟩ := exists_head (hs.group g hg) hne
    have hend := (hs.group g hg).le_endaddr (.inl hfree)
    have hx : blockSize order ∣ x := (hs.group g hg).sound.tiling.aligned (order, x) (.inl hfree)
    refine ⟨g, hg, order, horder, hn, x, hx, hend,
      fun z hz hz' ↦ ⟨g, hg, order, g.pgBaseaddr + x, hfree, ?_, ?_⟩⟩ <;> omega
  · rintro ⟨g, hg, order, horder, hn, x, hx, hend, hfree⟩
    obtain ⟨b, hb, hle, -⟩ := (hs.group g hg).sound.exists_free pageSize_pos horder hx
      fun z hz hz' ↦ by
        have hz' : z < x + blockSize order := hz'
        exact hs.exists_free_of_freeAt hg (by omega) (hfree z hz hz')
    refine ⟨g, hg, b.1, (hs.group g hg).sound.tiling.order b (.inl hb), ?_, ?_⟩
    · exact hn.trans (Nat.pow_le_pow_right Nat.zero_lt_two hle)
    · exact List.ne_nil_of_mem hb

theorem dividedAt_iff (hs : s.Inv) : s.DividedAt a ↔ s.FreeAt a ∨ ∃ b, s.LiveAt b a := by
  rw [Pages.DividedAt, ← hs.covers a]
  simp only [List.mem_map, Pages.extents, List.mem_append, List.mem_flatMap, List.mem_filterMap]
  constructor
  · rintro ⟨_, ⟨e, ⟨g, hg, he⟩ | ⟨b, hb, he⟩, rfl⟩, hle, hlt⟩
    · obtain ⟨k, -, hk⟩ := List.mem_flatMap.mp he
      obtain ⟨c, hc, rfl⟩ := List.mem_map.mp hk
      exact .inl ⟨g, hg, k, c, hc, hle, hlt⟩
    · obtain ⟨k, hk, rfl⟩ := Option.map_eq_some_iff.mp he
      exact .inr ⟨b, hb, k, hk, hle, hlt⟩
  · rintro (⟨g, hg, k, c, hc, hle, hlt⟩ | ⟨b, hb, k, hk, hle, hlt⟩)
    · have hfree := Group.mem_freelist (hs.group g hg) hc
      have hkn := (hs.group g hg).sound.tiling.order _ (.inl hfree)
      exact ⟨_, ⟨(c, k), .inl ⟨g, hg, List.mem_flatMap.mpr
        ⟨k, List.mem_range.mpr hkn, List.mem_map.mpr ⟨c, hc, rfl⟩⟩⟩, rfl⟩, hle, hlt⟩
    · exact ⟨_, ⟨(b.1, k), .inr ⟨b, hb, by rw [hk, Option.map_some]⟩, rfl⟩, hle, hlt⟩

theorem not_liveAt (hs : s.Inv) (h : s.FreeAt a) (b : ℕ × ℕ) : ¬s.LiveAt b a := by
  rintro ⟨hb, l, hl, hle', hlt'⟩
  obtain ⟨g, hg, k, c, hc, hle, hlt⟩ := h
  have hfree := Group.mem_freelist (hs.group g hg) hc
  have hbase := (hs.group g hg).above k c hc
  obtain ⟨g', hg', l', x, hl', hx, hlive⟩ := hs.exists_liveIn hb
  obtain rfl : l' = l := Option.some.inj (hl'.symm.trans hl)
  have hdis := hs.disjoint hg hg' (.inl hfree) (.inr hlive) fun hgg heq ↦ by
    subst hgg
    exact (hs.group g hg).sound.notMem_live hfree (heq ▸ hlive)
  simp only [Extent.Disjoint] at hdis
  omega

theorem liveAt_unique (hs : s.Inv) {b c : ℕ × ℕ} (hb : s.LiveAt b a) (hc : s.LiveAt c a) :
    b = c := by
  obtain ⟨hb, k, hk, hle, hlt⟩ := hb
  obtain ⟨hc, l, hl, hle', hlt'⟩ := hc
  refine List.inj_on_of_nodup_map hs.nodup hb hc ?_
  by_contra hne
  have hdis := hs.live_disjoint hb hc hk hl hne
  simp only [Extent.Disjoint] at hdis
  omega

theorem freeAt_iff (hs : s.Inv) : s.FreeAt a ↔ s.DividedAt a ∧ ∀ b, ¬s.LiveAt b a := by
  rw [hs.dividedAt_iff]
  constructor
  · exact fun h ↦ ⟨.inl h, hs.not_liveAt h⟩
  · rintro ⟨h | ⟨b, hb⟩, hno⟩
    · exact h
    · exact absurd hb (hno b)

end Pages.Inv

/-! ## The search -/

omit [Orders] in
theorem groupWith_eq_none {groups : List Group} (h : groupWith groups k = none) :
    ∀ g ∈ groups, g.pgFreelist k = [] := by
  intro g hg
  simpa using List.findIdx?_eq_none_iff.mp h g hg

/-- The number of pages that was asked for has room in a block of the order, and not in one
of a smaller order. -/
theorem orderOf_spec (hn : n ≤ 2 ^ lastOrder) (hk : orderOf n = some k) :
    n ≤ 2 ^ k ∧ ∀ j, n ≤ 2 ^ j → k ≤ j := by
  have hle := Orders.nsizes_le
  have hlt : n < 2 ^ 31 :=
    hn.trans_lt (Nat.pow_lt_pow_right (by decide) (by unfold lastOrder; omega))
  have hint : int32 n = n := int32_of_range (by omega) (by omega)
  obtain ⟨hroom, -, hfirst⟩ := List.find?_range_eq_some.mp hk
  rw [hint] at hroom hfirst
  refine ⟨by exact_mod_cast of_decide_eq_true hroom, fun j hj ↦ ?_⟩
  by_contra hlt
  have hno := hfirst j (by omega)
  have hj : (n : ℤ) ≤ 2 ^ j := by exact_mod_cast hj
  simp [hj] at hno

/-- `page_alloc_n` returns `NULL` exactly when there is no block to be found. -/
theorem Pages.Inv.pageAllocN_none_iff (hs : s.Inv) (hn : n ≤ 2 ^ lastOrder) {r : Option ℕ}
    (h : pageAllocN s n [] [] = .ok (s', r)) : (r = none ↔ ¬s.Fits n) ∧ (r = none → s' = s) := by
  obtain ⟨k, hk⟩ := orderOf_of_le hn
  obtain ⟨hroom, hleast⟩ := orderOf_spec hn hk
  have hkn := orderOf_lt hk
  rw [pageAllocN, hk] at h
  simp only [pageAllocOrder] at h
  split at h
  · next i hi =>
    obtain ⟨g, hg, hne⟩ := groupWith_eq_some hi
    have hsome := (takeHead_live h).2
    refine ⟨iff_of_false (fun hr ↦ ?_) fun hno ↦ hno ?_, fun hr ↦ ?_⟩
    · simp [hr] at hsome
    · exact ⟨g, List.mem_of_getElem? hg, k, hkn, hroom, hne⟩
    · simp [hr] at hsome
  · next hnone =>
    obtain ⟨⟨s₁, found⟩, h₁, h⟩ := bind_ok h
    unfold pageSplit at h₁
    split at h₁
    · next norder i hlarger =>
      obtain ⟨hlt, g, hg, hne⟩ := largerBlock_eq_some hlarger
      have hfits : s.Fits n := by
        have hfree := exists_head (hs.group g (List.mem_of_getElem? hg)) hne
        obtain ⟨x, -, -, hx⟩ := hfree
        refine ⟨g, List.mem_of_getElem? hg, norder,
          (hs.group g (List.mem_of_getElem? hg)).sound.tiling.order _ (.inl hx), ?_, hne⟩
        exact hroom.trans (Nat.pow_le_pow_right Nat.zero_lt_two hlt.le)
      obtain ⟨g₁, -, h₁⟩ := bind_ok h₁
      obtain ⟨g₂, -, h₁⟩ := bind_ok h₁
      obtain ⟨_, -, h₁⟩ := bind_ok h₁
      cases h₁
      obtain ⟨g₃, -, h⟩ := bind_ok h
      obtain ⟨_, -, h⟩ := bind_ok h
      have hsome := (takeHead_live h).2
      refine ⟨iff_of_false (fun hr ↦ ?_) fun hno ↦ hno hfits, fun hr ↦ ?_⟩ <;> simp [hr] at hsome
    · next hlarger =>
      cases h₁
      cases h
      refine ⟨iff_of_true rfl ?_, fun _ ↦ rfl⟩
      rintro ⟨g, hg, j, hj, hnj, hne⟩
      rcases Nat.eq_or_lt_of_le (hleast j hnj) with rfl | hkj
      · exact hne (groupWith_eq_none hnone g hg)
      · have hfind := List.findSome?_eq_none_iff.mp hlarger j
          (List.mem_range'_1.mpr ⟨hkj, by omega⟩)
        exact hne (groupWith_eq_none (Option.map_eq_none_iff.mp hfind) g hg)

end CS402.Page

namespace CS402.Slabs

open Lib Function Page

variable [Orders]

namespace Heap

variable {s s' : Heap} {v v' : View} {i p n a : ℕ} {freed : ℤ}

/-! ## Memory that can be reclaimed -/

/-- The slab is on the list of the allocator. -/
def HasSlab (s : Heap) (i p : ℕ) : Prop := ∃ l, Chain s.next (s.saSlabs i) l ∧ p ∈ l

/-- The byte lies in a slab of which no object is in use. -/
def EmptyAt (s : Heap) (a : ℕ) : Prop :=
  ∃ i al p, s.allocators[i]? = some al ∧ s.HasSlab i p ∧ (s.slab p).sInuse = 0 ∧
    (s.slab p).sAddr ≤ a ∧ a < (s.slab p).sAddr + blockSize al.saOrder

/-- Somewhere an aligned stretch with room for `n` pages consists of free blocks and of
empty slabs. -/
def Reclaimable (s : Heap) (n : ℕ) : Prop :=
  ∃ g ∈ s.pages.groups, ∃ order < nsizes, n ≤ 2 ^ order ∧
    ∃ x, blockSize order ∣ x ∧ g.pgBaseaddr + x + blockSize order ≤ g.pgEndaddr ∧
      ∀ z, x ≤ z → z < x + blockSize order →
        s.pages.FreeAt (g.pgBaseaddr + z) ∨ s.EmptyAt (g.pgBaseaddr + z)

/-- `NULL` is returned only if no group has a free block with room for `n` pages when it is
returned. -/
def NotSpurious (s : Heap) (n : ℕ) : Prop := ∀ s', s.pageAllocN n = .ok (s', 0) → ¬s'.pages.Fits n

theorem Inv.hasSlab_iff (h : s.Inv v) {al : Allocator} (hi : s.allocators[i]? = some al) :
    s.HasSlab i p ↔ p ∈ v.slabs i := by
  constructor
  · rintro ⟨l, hl, hp⟩
    rwa [(h.chain i al hi).unique hl]
  · exact fun hp ↦ ⟨_, h.chain i al hi, hp⟩

/-! ## Reclaiming keeps the groups -/

theorem release_keeps {pages pages' : Pages} {b : ℕ × ℕ} (h : release pages b = .ok pages') :
    Keeps pages pages' := by
  obtain ⟨_, -, h⟩ := bind_ok h
  unfold pageFreeN at h
  split at h
  · cases h
  · obtain ⟨hkeep, -⟩ := pageFreeOrder_eq h
    exact ⟨hkeep.ranges, hkeep.spans⟩

theorem reclaimSlabs_keeps {target : ℤ} {al : Allocator} {fuel slab : ℕ} {prev : Option ℕ}
    {r : Heap × ℤ × Bool}
    (h : reclaimSlabs target i al fuel s prev slab freed = .ok r) : Keeps s.pages r.1.pages := by
  induction fuel generalizing s prev slab freed with
  | zero => cases h
  | succ fuel ih =>
    unfold reclaimSlabs at h
    split at h
    · cases h
      exact .refl _
    · simp only [pure_bind] at h
      split at h
      · obtain ⟨pages, hrel, h⟩ := bind_ok h
        rw [(fields_setPrev prev).2.2.2.2] at hrel
        have hkeep := release_keeps hrel
        split at h
        · cases h
          exact hkeep
        · exact hkeep.trans (ih h)
      · split at h
        · cases h
          exact .refl _
        · exact ih h

theorem reclaimFrom_keeps {target : ℤ} {allocators : List Allocator} {r : Heap × ℤ}
    (h : reclaimFrom target i allocators s freed = .ok r) : Keeps s.pages r.1.pages := by
  induction allocators generalizing s i freed with
  | nil =>
    cases h
    exact .refl _
  | cons al allocators ih =>
    obtain ⟨⟨s₁, freed₁, met⟩, h₁, h⟩ := bind_ok h
    have hkeep := reclaimSlabs_keeps h₁
    simp only [] at h
    split at h
    · cases h
      exact hkeep
    · exact hkeep.trans (ih h)

/-! ## What is free afterwards -/

/-- **A byte is free after the slabs have been reclaimed** if it was free or lay in an empty
slab. -/
theorem Inv.freeAt_reclaimed (h : s.Inv v)
    (hrec : s.slabAllocatorsReclaim 0 = .ok (s', freed)) :
    s'.pages.Inv ∧ (s'.pages.FreeAt a ↔ s.pages.FreeAt a ∨ s.EmptyAt a) := by
  obtain ⟨s₁, n, v', gone, hok, hinv, hshrunk, -, hall⟩ := h.slabAllocatorsReclaim 0
  obtain ⟨rfl, -⟩ := Prod.mk.inj (Except.ok.inj (hok.symm.trans hrec))
  refine ⟨hinv.pages, ?_⟩
  have hkeep : Keeps s.pages s₁.pages := reclaimFrom_keeps hrec
  have hperm := hshrunk.pages
  have hnodup : (gone ++ s₁.pages.live).Nodup := hperm.nodup_iff.mp h.pages.nodup.of_map
  have hsub : ∀ {b}, s₁.pages.LiveAt b a → s.pages.LiveAt b a := fun hb ↦
    ⟨hperm.mem_iff.mpr (List.mem_append_right _ hb.1), hb.2⟩
  -- the blocks that are gone are those of the empty slabs
  have hempty : s.EmptyAt a ↔ ∃ b ∈ gone, s.pages.LiveAt b a := by
    constructor
    · rintro ⟨i, al, p, hi, hp, hzero, hle, hlt⟩
      have hp := (h.hasSlab_iff hi).mp hp
      refine ⟨_, ((hshrunk.kept i al hi p hp).resolve_left fun hp' ↦ ?_), ?_⟩
      · exact hall le_rfl i p hp' hzero
      · exact ⟨(h.formed i al hi p hp).block, al.saOrder, orderOf_two_pow al.order_lt, hle, hlt⟩
    · rintro ⟨b, hb, -, k, hk, hle, hlt⟩
      obtain ⟨i, al, p, hi, hp, -, hzero, rfl⟩ := hshrunk.gone b hb
      rw [orderOf_two_pow al.order_lt, Option.some.injEq] at hk
      exact ⟨i, al, p, hi, (h.hasSlab_iff hi).mpr hp, hzero, hle, hk ▸ hlt⟩
  rw [hinv.pages.freeAt_iff, hkeep.dividedAt_iff, h.pages.dividedAt_iff, hempty]
  constructor
  · rintro ⟨hfree | ⟨b, hb⟩, hno⟩
    · exact .inl hfree
    · rcases List.mem_append.mp (hperm.mem_iff.mp hb.1) with hgone | hlive
      · exact .inr ⟨b, hgone, hb⟩
      · exact absurd ⟨hlive, hb.2⟩ (hno b)
  · rintro (hfree | ⟨b, hgone, hb⟩)
    · exact ⟨.inl hfree, fun c hc ↦ h.pages.not_liveAt hfree c (hsub hc)⟩
    · refine ⟨.inr ⟨b, hb⟩, fun c hc ↦ ?_⟩
      obtain rfl := h.pages.liveAt_unique hb (hsub hc)
      exact List.disjoint_of_nodup_append hnodup hgone hc.1

theorem Inv.fits_reclaimed (h : s.Inv v)
    (hrec : s.slabAllocatorsReclaim 0 = .ok (s', freed)) : s'.pages.Fits n ↔ s.Reclaimable n := by
  have hkeep : Keeps s.pages s'.pages := reclaimFrom_keeps hrec
  rw [(h.freeAt_reclaimed (a := 0) hrec).1.fits_iff]
  simp only [(h.freeAt_reclaimed hrec).2]
  -- the two states have the same groups, up to what is on their lists
  have hspan : ∀ P : ℕ × ℕ → Prop,
      (∃ g ∈ s'.pages.groups, P g.span) ↔ ∃ g ∈ s.pages.groups, P g.span := by
    intro P
    have hmem : ∀ {l : List Group}, (∃ g ∈ l, P g.span) ↔ ∃ r ∈ l.map Group.span, P r := by
      simp
    rw [hmem, hmem, hkeep.spans]
  exact hspan fun r ↦ ∃ order < nsizes, n ≤ 2 ^ order ∧
    ∃ x, blockSize order ∣ x ∧ r.1 + x + blockSize order ≤ r.2 ∧
      ∀ z, x ≤ z → z < x + blockSize order → s.pages.FreeAt (r.1 + z) ∨ s.EmptyAt (r.1 + z)

end Heap

theorem addr_ne_zero {s : Pages} {pages : Pages} {n addr : ℕ} (hs : s.Inv)
    (hok : Page.pageAllocN s n [] [] = .ok (pages, some addr))
    (hnull : ∀ g ∈ s.groups, g.pgBaseaddr ≠ 0) : addr ≠ 0 := by
  unfold Page.pageAllocN at hok
  split at hok
  · cases hok
  · next k hk =>
    have hkeep := (hs.pageAllocOrder_conserves hk hok).toKeeps
    have hinv := ((pageAllocOrder_fine hs [] []).of_ok hok) n hk
    obtain ⟨-, -, g, hg, hle, -⟩ := hinv.placed (addr, n) List.mem_cons_self
    have hspan : g.span ∈ s.groups.map Group.span := by
      rw [← hkeep.spans]
      exact List.mem_map_of_mem hg
    obtain ⟨g₀, hg₀, heq⟩ := List.mem_map.mp hspan
    have hbase : g₀.pgBaseaddr = g.pgBaseaddr := congrArg Prod.fst heq
    have hne := hnull g₀ hg₀
    have hle : g.pgBaseaddr ≤ addr := hle
    omega

/-- **An allocation fails without need exactly when empty slabs would have made room for
it.**  In every state that the calls of the allocators lead to, `page_alloc_n` returns; it
gives back `NULL` with a large enough block on the free lists if and only if there was no
such block before and an aligned stretch with room for the request consists of free blocks
and of empty slabs.  (The null pointer must not be a block.) -/
theorem notSpurious_iff {allocators : List Allocator} {s : Heap} {h : List Call} {n : ℕ}
    (hr : Run (ofStep step) (boot allocators) h s) (hn : n ≤ 2 ^ lastOrder)
    (hnull : ∀ g ∈ s.pages.groups, g.pgBaseaddr ≠ 0) :
    (∃ r, s.pageAllocN n = .ok r) ∧ (s.NotSpurious n ↔ s.pages.Fits n ∨ ¬s.Reclaimable n) := by
  obtain ⟨-, v, hinv⟩ := inv_of_run hr
  obtain ⟨k, hk⟩ := orderOf_of_le hn
  obtain ⟨pages, found, hok, -⟩ := hinv.pages.pageAllocN_ok hk
  obtain ⟨hnone, hsame⟩ := hinv.pages.pageAllocN_none_iff hn hok
  cases found with
  | some addr =>
    have hfits : s.pages.Fits n := by
      by_contra hno
      cases hnone.mpr hno
    have hcall : s.pageAllocN n = .ok ({ s with pages := hand n (pages, some addr) }, addr) := by
      rw [Heap.pageAllocN, hok]
      rfl
    refine ⟨⟨_, hcall⟩, iff_of_true (fun s' h0 ↦ ?_) (.inl hfits)⟩
    rw [hcall] at h0
    exact absurd (congrArg Prod.snd (Except.ok.inj h0)) (addr_ne_zero hinv.pages hok hnull)
  | none =>
    obtain ⟨s', freed, -, -, hrec, -⟩ := hinv.slabAllocatorsReclaim 0
    have hcall : s.pageAllocN n = .ok (s', 0) := by
      rw [Heap.pageAllocN, hok, ok_bind]
      simp only [hrec, ok_bind]
      rfl
    refine ⟨⟨_, hcall⟩, ?_⟩
    rw [← hinv.fits_reclaimed hrec, or_iff_right (hnone.mp rfl)]
    constructor
    · exact fun hright ↦ hright s' hcall
    · intro hno s'' hcall'
      rw [hcall] at hcall'
      obtain ⟨rfl, -⟩ := Prod.mk.inj (Except.ok.inj hcall')
      exact hno

omit [Orders] in
theorem threeObjects_not_spurious : letI := Orders.stock
    ∃ s, Run (ofStep step) (boot [twoInAPage]) threeObjects.reverse s ∧ s.pages.Fits 64 ∧
      (∃ r, s.pageAllocN 64 = .ok r) ∧ s.NotSpurious 64 := by
  let := Orders.stock
  have hcheck : check step (boot [twoInAPage]) threeObjects (fun s ↦
      decide (s.pages.groups.map (fun g ↦ (g.pgBaseaddr, g.pgFreelist 6)) =
        [(0x100000, [0x100000])])) = true := by
    decide +kernel
  obtain ⟨s, hs, hp⟩ := exists_of_check hcheck
  have hr := Run.of_exec hs
  have hlist := of_decide_eq_true hp
  have hone : ∀ g ∈ s.pages.groups, g.pgBaseaddr = 0x100000 ∧ g.pgFreelist 6 = [0x100000] := by
    intro g hg
    have hmem := List.mem_map_of_mem (f := fun g : Group ↦ (g.pgBaseaddr, g.pgFreelist 6)) hg
    rw [hlist, List.mem_singleton] at hmem
    exact Prod.mk.inj hmem
  have hfits : s.pages.Fits 64 := by
    obtain ⟨g, hg⟩ : ∃ g, g ∈ s.pages.groups := by
      refine List.exists_mem_of_ne_nil _ fun hnil ↦ ?_
      simp [hnil] at hlist
    exact ⟨g, hg, 6, by decide, by decide, by rw [(hone g hg).2]; exact List.cons_ne_nil _ _⟩
  obtain ⟨hreturns, hiff⟩ := notSpurious_iff hr (n := 64) (by decide)
    fun g hg ↦ by rw [(hone g hg).1]; decide
  exact ⟨s, hr, hfits, hreturns, hiff.mpr (.inl hfits)⟩

/-- An object is allocated and freed, and its slab stays. -/
def oneEmptySlab : List Call :=
  [.addRange 0x100000 0x182000, .objAlloc 0, .objFree 0 0x17f000]

omit [Orders] in
/-- The block of a hundred and twenty-eight pages is whole again when it is said that there
is none. -/
theorem oneEmptySlab_spurious : letI := Orders.stock
    ∃ s s', Run (ofStep step) (boot [twoInAPage]) oneEmptySlab.reverse s ∧
      s.pageAllocN 128 = .ok (s', 0) ∧ s'.pages.Fits 128 ∧ ¬s.NotSpurious 128 := by
  let := Orders.stock
  have hcheck : check step (boot [twoInAPage]) oneEmptySlab (fun s ↦
      returns (fun r : Heap × ℕ ↦ decide (r.2 = 0 ∧
        r.1.pages.groups.map (·.pgFreelist 7) = [[0x100000]])) (s.pageAllocN 128)) = true := by
    decide +kernel
  obtain ⟨s, hs, hp⟩ := exists_of_check hcheck
  obtain ⟨⟨s', addr⟩, hcall, hp⟩ := returns_eq_true.mp hp
  obtain ⟨rfl, hlist⟩ := of_decide_eq_true hp
  have hfits : s'.pages.Fits 128 := by
    obtain ⟨g, hg⟩ : ∃ g, g ∈ s'.pages.groups := by
      refine List.exists_mem_of_ne_nil _ fun hnil ↦ ?_
      simp only [hnil, List.map_nil, List.nil_eq, reduceCtorEq] at hlist
    refine ⟨g, hg, 7, by decide, by decide, ?_⟩
    have hmem := List.mem_map_of_mem (f := fun g : Group ↦ g.pgFreelist 7) hg
    rw [hlist, List.mem_singleton] at hmem
    rw [hmem]
    exact List.cons_ne_nil _ _
  exact ⟨s, s', Run.of_exec hs, hcall, hfits, fun hright ↦ hright s' hcall hfits⟩

end CS402.Slabs

import CS402.Mm.SlabReclaim
import CS402.Mm.SlabSize

/-!
# The slab allocators keep their accounts

Allocation, growth, and the runs of the slab allocators together with the page allocator
below them.  A new slab comes with a block that nobody had, so it shares no memory with the
slabs there are.
-/

namespace CS402.Slabs

open Lib Function Page

variable [Orders]

namespace Heap

variable {s s' : Heap} {v v' : View} {i p o n : ℕ} {a : Allocator}

/-! ## Pages -/

/-- The page allocator and what the rest of the kernel has may change, as long as the slabs
keep their blocks. -/
theorem Inv.withPages (h : s.Inv v) {pages : Pages} {others : List (ℕ × ℕ)} (hpages : pages.Inv)
    (hkeep : ∀ b ∈ s.pages.live, (∃ i, ∃ p ∈ v.slabs i, (s.slab p).sAddr = b.1) → b ∈ pages.live)
    (hothers : ∀ b ∈ others, b ∈ pages.live ∧ ∀ i, ∀ p ∈ v.slabs i, (s.slab p).sAddr ≠ b.1)
    (hnodup : others.Nodup) : ({ s with pages, others }).Inv v where
  pages := hpages
  chain := h.chain
  allocator := h.allocator
  formed i a hi p hp :=
    have hf := h.formed i a hi p hp
    hf.congr rfl rfl rfl (hkeep _ hf.block ⟨i, p, hp, rfl⟩) (fun _ _ ↦ rfl) fun _ _ ↦ Iff.rfl
  one := h.one
  home := h.home
  nodup := h.nodup
  others := hothers
  others_nodup := hnodup

theorem Inv.morePages (h : s.Inv v) {pages : Pages} (hpages : pages.Inv)
    (hsub : s.pages.live ⊆ pages.live) : ({ s with pages }).Inv v :=
  h.withPages hpages (fun _ hb _ ↦ hsub hb)
    (fun b hb ↦ ⟨hsub (h.others b hb).1, (h.others b hb).2⟩) h.others_nodup

theorem Inv.pageAllocN (h : s.Inv v) (hk : Page.orderOf n = some k) :
    ∃ s' addr v', s.pageAllocN n = .ok (s', addr) ∧ s'.Inv v' ∧ s'.allocators = s.allocators ∧
      s'.others = s.others ∧
      (addr ≠ 0 → v' = v ∧ s' = { s with pages := s'.pages } ∧
        s'.pages.live = (addr, n) :: s.pages.live ∧ addr ∉ s.pages.live.map Prod.fst) := by
  obtain ⟨pages, r, hok, hinv, hlive⟩ := h.pages.pageAllocN_ok hk
  unfold Heap.pageAllocN
  rw [hok, ok_bind]
  cases r with
  | some addr =>
    have hnodup := hinv.nodup
    have hcons : (hand n (pages, some addr)).live = (addr, n) :: s.pages.live :=
      congrArg ((addr, n) :: ·) hlive
    refine ⟨_, addr, v, rfl, h.morePages hinv ?_, rfl, rfl, fun _ ↦ ⟨rfl, rfl, hcons, ?_⟩⟩
    · rw [hcons]
      exact List.subset_cons_self _ _
    · rw [hcons, List.map_cons, List.nodup_cons] at hnodup
      exact hnodup.1
  | none =>
    obtain ⟨s', n, v', gone, hrec, hinv', hshrunk, -, -⟩ := h.slabAllocatorsReclaim 0
    simp only [hrec, ok_bind]
    exact ⟨s', 0, v', rfl, hinv', hshrunk.allocators, hshrunk.others, fun h0 ↦ absurd rfl h0⟩

/-! ## A new slab -/

section linkObjects

variable {bufctl : ℕ → Bufctl} {obj n : ℕ}

theorem linkObjects_snd : (linkObjects a n bufctl obj).2 = obj + n * a.stride := by
  induction n generalizing bufctl obj with
  | zero => simp [linkObjects]
  | succ n ih =>
    rw [linkObjects, ih, Allocator.nextObj_eq, Nat.succ_mul]
    omega

theorem linkObjects_of_ne (h : ∀ j < n, o ≠ obj + j * a.stride) :
    (linkObjects a n bufctl obj).1 o = bufctl o := by
  induction n generalizing bufctl obj with
  | zero => rfl
  | succ n ih =>
    rw [linkObjects, ih]
    · refine update_of_ne ?_ _ _
      simpa using h 0 (Nat.succ_pos n)
    · intro j hj
      have hne := h (j + 1) (by omega)
      rw [Nat.add_mul, Nat.one_mul] at hne
      rw [Allocator.nextObj_eq]
      omega

theorem linkObjects_object {j : ℕ} (hj : j < n) :
    (linkObjects a n bufctl obj).1 (obj + j * a.stride) = ⟨obj + (j + 1) * a.stride, true⟩ := by
  induction n generalizing bufctl obj j with
  | zero => cases hj
  | succ n ih =>
    rw [linkObjects]
    have hpos := a.stride_pos
    cases j with
    | zero =>
      rw [linkObjects_of_ne]
      · simp [Allocator.nextObj_eq]
      · intro j _
        rw [Allocator.nextObj_eq]
        omega
    | succ j =>
      have hobj : obj + (j + 1) * a.stride = a.nextObj obj + j * a.stride := by
        rw [Allocator.nextObj_eq, Nat.add_mul]
        omega
      rw [hobj, ih (by omega), Allocator.nextObj_eq, Nat.add_mul (j + 1)]
      congr 1
      omega

end linkObjects

section addSlab

variable {addr : ℕ}

theorem header_eq : addr + (a.saSlabNobjs - 1) * a.stride + a.stride = a.header addr := by
  have hpos := a.nobjs_pos
  unfold Allocator.header
  rw [Nat.add_assoc, ← Nat.succ_mul]
  congr 2
  omega

theorem slab_addSlab : (s.addSlab i a addr).slab =
    update s.slab (a.header addr) ⟨s.saSlabs i, 0, addr, addr⟩ := by
  simp only [addSlab, linkObjects_snd, Allocator.nextObj_eq, header_eq]

theorem saSlabs_addSlab : (s.addSlab i a addr).saSlabs = update s.saSlabs i (a.header addr) := by
  simp only [addSlab, linkObjects_snd, Allocator.nextObj_eq, header_eq]

theorem bufctl_addSlab : (s.addSlab i a addr).bufctl =
    update (linkObjects a (a.saSlabNobjs - 1) s.bufctl addr).1
      (addr + (a.saSlabNobjs - 1) * a.stride) ⟨0, true⟩ := by
  simp only [addSlab, linkObjects_snd]

theorem bufctl_addSlab_of_notMem (ho : o ∉ a.objects addr) :
    (s.addSlab i a addr).bufctl o = s.bufctl o := by
  have hpos := a.nobjs_pos
  have hne : ∀ j < a.saSlabNobjs, o ≠ addr + j * a.stride :=
    fun j hj heq ↦ ho (Allocator.mem_objects.mpr ⟨j, hj, heq⟩)
  rw [bufctl_addSlab, update_of_ne (hne _ (by omega)), linkObjects_of_ne]
  exact fun j hj ↦ hne j (by omega)

theorem chain_addSlab (haddr : addr ≠ 0) : Chain (s.addSlab i a addr).link addr (a.objects addr) := by
  have hpos := a.nobjs_pos
  obtain ⟨n, hn⟩ := Nat.exists_eq_add_of_lt hpos
  have hn : a.saSlabNobjs = n + 1 := by omega
  unfold Allocator.objects link
  rw [bufctl_addSlab, hn]
  refine Chain.range haddr (fun j hj ↦ ?_) ?_
  · have hne : addr + j * a.stride ≠ addr + n * a.stride := fun heq ↦
      hj.ne (Nat.eq_of_mul_eq_mul_right a.stride_pos (Nat.add_left_cancel heq))
    rw [Nat.add_sub_cancel, update_of_ne hne, linkObjects_object hj]
  · rw [Nat.add_sub_cancel, update_self]

theorem sbFree_addSlab (ho : o ∈ a.objects addr) : ((s.addSlab i a addr).bufctl o).sbFree = true := by
  obtain ⟨j, hj, rfl⟩ := Allocator.mem_objects.mp ho
  rw [bufctl_addSlab]
  by_cases hlast : addr + j * a.stride = addr + (a.saSlabNobjs - 1) * a.stride
  · rw [hlast, update_self]
  · rw [update_of_ne hlast, linkObjects_object]
    have hne : j ≠ a.saSlabNobjs - 1 := fun h ↦ hlast (by rw [h])
    omega

/-- **A new slab.**  Its block was not in use before. -/
theorem Inv.addSlab (h : s.Inv v) (hi : s.allocators[i]? = some a) (haddr : addr ≠ 0)
    (hblock : (addr, 2 ^ a.saOrder) ∈ s.pages.live)
    (hfresh : ∀ j, ∀ q ∈ v.slabs j, (s.slab q).sAddr ≠ addr)
    (hothers : ∀ b ∈ s.others, b.1 ≠ addr) :
    (s.addSlab i a addr).Inv ⟨update v.slabs i (a.header addr :: v.slabs i),
      update v.free (a.header addr) (a.objects addr)⟩ := by
  -- nothing of the new slab lies in the block of another one
  have hdis : ∀ j a', s.allocators[j]? = some a' → ∀ q ∈ v.slabs j, ∀ x,
      addr ≤ x → x < addr + blockSize a.saOrder →
      ¬((s.slab q).sAddr ≤ x ∧ x < (s.slab q).sAddr + blockSize a'.saOrder) := by
    intro j a' hj q hq x hle hlt hx
    have hd := h.pages.live_disjoint hblock (h.formed j a' hj q hq).block
      (orderOf_two_pow a.order_lt) (orderOf_two_pow a'.order_lt) (hfresh j q hq).symm
    unfold Extent.Disjoint at hd
    simp only [] at hd
    omega
  have hheader := a.header_add_le addr
  have hplace : a.header addr < addr + blockSize a.saOrder :=
    lt_of_lt_of_le (Nat.lt_add_of_pos_right (by decide)) hheader
  have hobj : ∀ o ∈ a.objects addr, addr ≤ o ∧ o < addr + blockSize a.saOrder := by
    intro o ho
    have hle := Allocator.object_add_le ho
    have hpos := a.stride_pos
    omega
  have hnew : ∀ j, a.header addr ∉ v.slabs j := by
    intro j hq
    obtain ⟨a', hj⟩ := h.allocator j _ hq
    exact hdis j a' hj _ hq _ (Nat.le_add_right _ _) hplace (h.formed j a' hj _ hq).place_lt
  have hslab : ∀ j, ∀ q ∈ v.slabs j, (s.addSlab i a addr).slab q = s.slab q := by
    intro j q hq
    have hne : q ≠ a.header addr := fun heq ↦ hnew j (heq ▸ hq)
    rw [slab_addSlab, update_of_ne hne]
  have hself : (s.addSlab i a addr).slab (a.header addr) = ⟨s.saSlabs i, 0, addr, addr⟩ := by
    rw [slab_addSlab, update_self]
  have hmem : ∀ j q, q ∈ update v.slabs i (a.header addr :: v.slabs i) j ↔
      j = i ∧ q = a.header addr ∨ q ∈ v.slabs j := by
    intro j q
    by_cases hji : j = i
    · subst hji
      simp
    · simp [hji]
  have hchain : ∀ j a', s.allocators[j]? = some a' →
      Chain (s.addSlab i a addr).next (s.saSlabs j) (v.slabs j) := fun j a' hj ↦
    (h.chain j a' hj).congr fun q hq ↦ congrArg Slab.sNext (hslab j q hq)
  constructor
  case pages => exact h.pages
  case chain =>
    intro j a' hj
    rw [saSlabs_addSlab]
    by_cases hji : j = i
    · subst hji
      simp only [update_self]
      refine ⟨rfl, by unfold Allocator.header; omega, ?_⟩
      have hnext : (s.addSlab j a addr).next (a.header addr) = s.saSlabs j :=
        congrArg Slab.sNext hself
      rw [hnext]
      exact hchain j a' hj
    · simp only [update_of_ne hji]
      exact hchain j a' hj
  case allocator =>
    intro j q hq
    rcases (hmem j q).mp hq with ⟨rfl, -⟩ | hq
    · exact ⟨a, hi⟩
    · exact h.allocator j q hq
  case formed =>
    intro j a' hj q hq
    rcases (hmem j q).mp hq with ⟨rfl, rfl⟩ | hq
    · obtain rfl : a = a' := Option.some.inj (hi.symm.trans hj)
      simp only [update_self]
      have hnone : ∀ o ∈ a.objects addr, (j, o) ∉ s.live := by
        intro o ho hl
        obtain ⟨a', hj', q, hq, hoq⟩ := h.home j o hl
        exact hdis j a' hj' q hq o (hobj o ho).1 (hobj o ho).2
          ((h.formed j a' hj' q hq).object_lt hoq)
      constructor
      case addr_ne => rw [hself]; exact haddr
      case place => rw [hself]
      case block => rw [hself]; exact hblock
      case chain => rw [hself]; exact chain_addSlab haddr
      case objects => rw [hself]; exact fun _ ho ↦ ho
      case count => rw [hself, Allocator.length_objects, Int.zero_add]
      case marked => exact fun o ho ↦ sbFree_addSlab ho
      case live => rw [hself]; exact fun o ho ↦ ⟨fun _ ↦ hnone o ho, fun _ ↦ ho⟩
      case back => rw [hself]; exact fun o ho hl ↦ absurd hl (hnone o ho)
    · have hf := h.formed j a' hj q hq
      have hne : q ≠ a.header addr := fun heq ↦ hnew j (heq ▸ hq)
      simp only [update_of_ne hne]
      have hsl := hslab j q hq
      refine hf.congr (congrArg _ hsl) (congrArg _ hsl) (congrArg _ hsl) hf.block
        (fun o ho ↦ bufctl_addSlab_of_notMem fun ho' ↦ ?_) fun _ _ ↦ Iff.rfl
      exact hdis j a' hj q hq o (hobj o ho').1 (hobj o ho').2 (hf.object_lt ho)
  case one =>
    intro j k q hq r hr heq
    rcases (hmem j q).mp hq with ⟨hji, rfl⟩ | hq' <;> rcases (hmem k r).mp hr with ⟨hki, rfl⟩ | hr'
    · rw [hji, hki]
    · rw [hself, hslab k r hr'] at heq
      exact absurd heq.symm (hfresh k r hr')
    · rw [hself, hslab j q hq'] at heq
      exact absurd heq (hfresh j q hq')
    · rw [hslab j q hq', hslab k r hr'] at heq
      exact h.one j k q hq' r hr' heq
  case home =>
    intro j o hl
    obtain ⟨a', hj, q, hq, ho⟩ := h.home j o hl
    exact ⟨a', hj, q, (hmem j q).mpr (.inr hq), by rw [hslab j q hq]; exact ho⟩
  case nodup => exact h.nodup
  case others =>
    intro b hb
    refine ⟨(h.others b hb).1, fun j q hq ↦ ?_⟩
    rcases (hmem j q).mp hq with ⟨-, rfl⟩ | hq
    · rw [hself]
      exact (hothers b hb).symm
    · rw [hslab j q hq]
      exact (h.others b hb).2 j q hq
  case others_nodup => exact h.others_nodup

end addSlab

/-- **Growing** fails for want of pages, or adds an empty slab. -/
theorem Inv.slabAllocatorGrow (h : s.Inv v) (hi : s.allocators[i]? = some a) :
    ∃ s' grown v', s.slabAllocatorGrow i a = .ok (s', grown) ∧ s'.Inv v' ∧
      s'.allocators = s.allocators ∧ s'.others = s.others ∧
      (grown = true → s'.live = s.live ∧ ∃ p ∈ v'.slabs i, (s'.slab p).sInuse = 0) := by
  obtain ⟨s₁, addr, v₁, hok, hinv, hal, hoth, hnew⟩ := h.pageAllocN (orderOf_two_pow a.order_lt)
  unfold Heap.slabAllocatorGrow
  rw [hok, ok_bind]
  by_cases haddr : addr = 0
  · simp only [haddr, if_true]
    exact ⟨s₁, false, v₁, rfl, hinv, hal, hoth, nofun⟩
  · simp only [haddr, if_false]
    obtain ⟨rfl, hs₁, hlive, hfresh⟩ := hnew haddr
    have hslab : s₁.slab = s.slab := by rw [hs₁]
    have hunused : ∀ b ∈ s.pages.live, b.1 ≠ addr := fun b hb heq ↦
      hfresh (List.mem_map.mpr ⟨b, hb, heq⟩)
    refine ⟨_, true, _, rfl, hinv.addSlab (hal ▸ hi) haddr (by simp [hlive]) (fun j q hq ↦ ?_)
      (fun b hb ↦ hunused b (h.others b (hoth ▸ hb)).1), hal, hoth, fun _ ↦ ⟨?_, a.header addr, ?_, ?_⟩⟩
    · obtain ⟨a', hj⟩ := h.allocator j q hq
      rw [hslab]
      exact hunused _ (h.formed j a' hj q hq).block
    · rw [hs₁]
      rfl
    · simp
    · rw [slab_addSlab, update_self]

/-! ## Allocation of an object -/

/-- The search for a slab with a free object. -/
theorem findSlab_eq {l : List ℕ} {fuel slab : ℕ} (hl : Chain s.next slab l) (hfuel : l.length < fuel) :
    ∃ q, s.findSlab a fuel slab = .ok q ∧
      (q = 0 ∧ (∀ p ∈ l, (s.slab p).sInuse = a.saSlabNobjs) ∨
        q ∈ l ∧ (s.slab q).sInuse ≠ a.saSlabNobjs) := by
  induction l generalizing fuel slab with
  | nil =>
    obtain ⟨fuel, rfl⟩ := Nat.exists_eq_add_of_lt hfuel
    have hzero : slab = 0 := hl
    refine ⟨0, ?_, .inl ⟨rfl, by simp⟩⟩
    rw [findSlab, if_neg fun hne ↦ hne.1 hzero, hzero]
    rfl
  | cons p l ih =>
    obtain ⟨fuel, rfl⟩ : ∃ m, fuel = m + 1 := Nat.exists_eq_succ_of_ne_zero (by omega)
    obtain ⟨rfl, hne, hrest⟩ := hl
    rw [findSlab]
    by_cases hfull : (s.slab slab).sInuse = a.saSlabNobjs
    · rw [if_pos ⟨hne, hfull⟩]
      obtain ⟨q, hq, hcases⟩ := ih hrest (by simpa using hfuel)
      refine ⟨q, hq, hcases.imp (fun ⟨h0, hall⟩ ↦ ⟨h0, ?_⟩) fun ⟨hmem, hne⟩ ↦
        ⟨List.mem_cons_of_mem _ hmem, hne⟩⟩
      rw [List.forall_mem_cons]
      exact ⟨hfull, hall⟩
    · rw [if_neg fun hand ↦ hfull hand.2]
      exact ⟨slab, rfl, .inr ⟨List.mem_cons_self, hfull⟩⟩

theorem Formed.sInuse_le {free : List ℕ} (hf : s.Formed i a p free) :
    (s.slab p).sInuse ≤ a.saSlabNobjs := by
  have hcount := hf.count
  omega

/-- One turn of the `for` loop: a slab with a free object is found, or all of them are
full and the allocator has to grow. -/
theorem Inv.findOrGrow_turn (h : s.Inv v) (hi : s.allocators[i]? = some a) (turns : ℕ) :
    (∃ q ∈ v.slabs i, (s.slab q).sInuse < a.saSlabNobjs ∧ q ≠ 0 ∧
      findOrGrow i a (turns + 1) s = .ok (s, q)) ∨
    (∀ p ∈ v.slabs i, (s.slab p).sInuse = a.saSlabNobjs) ∧
      findOrGrow i a (turns + 1) s = (do
        let (s, grown) ← s.slabAllocatorGrow i a
        if grown then findOrGrow i a turns s else pure (s, 0)) := by
  obtain ⟨q, hq, hcases⟩ := findSlab_eq (h.chain i a hi) (h.length_slabs_lt hi)
  rw [findOrGrow, hq, ok_bind]
  rcases hcases with ⟨rfl, hall⟩ | ⟨hmem, hne⟩
  · right
    rw [if_neg fun hand ↦ hand.1 rfl]
    exact ⟨hall, rfl⟩
  · left
    have hlt := lt_of_le_of_ne (h.formed i a hi q hmem).sInuse_le hne
    have hq0 := (h.chain i a hi).ne_zero hmem
    rw [if_pos ⟨hq0, hlt⟩]
    exact ⟨q, hmem, hlt, hq0, rfl⟩

theorem Inv.notMem_live (h : s.Inv v) (hi : s.allocators[i]? = some a) (hp : p ∈ v.slabs i)
    (ho : o ∈ a.objects (s.slab p).sAddr) (hl : (i, o) ∉ s.live) (j : ℕ) : (j, o) ∉ s.live := by
  intro hj
  obtain ⟨a', hj', q, hq, hoq⟩ := h.home j o hj
  obtain ⟨rfl, -⟩ := h.same_of_object hp hi hq hj' ho hoq
  exact hl hj

/-- **`slab_obj_alloc`** returns an object that was not in use, or `NULL` when all slabs are
full and growing fails. -/
theorem Inv.slabObjAlloc (h : s.Inv v) (hi : s.allocators[i]? = some a) :
    ∃ s' o v', s.slabObjAlloc i = .ok (s', o) ∧ s'.Inv v' ∧ s'.allocators = s.allocators ∧
      (o ≠ 0 → (∀ j, (j, o) ∉ s.live) ∧ s'.live = (i, o) :: s.live) ∧
      (o = 0 → (∀ p ∈ v.slabs i, (s.slab p).sInuse = a.saSlabNobjs) ∧
        s.slabAllocatorGrow i a = .ok (s', false)) := by
  unfold Heap.slabObjAlloc
  rw [hi, follow_bind]
  rcases h.findOrGrow_turn hi 1 with ⟨q, hq, hlt, hq0, hok⟩ | ⟨hfull, hok⟩
  · obtain ⟨s', o, v', htake, hinv, hal, ho0, hobj, hl, hlive⟩ := h.takeObj hi hq hlt
    rw [hok, ok_bind]
    simp only [hq0, if_false]
    exact ⟨s', o, v', htake, hinv, hal, fun _ ↦ ⟨h.notMem_live hi hq hobj hl, hlive⟩,
      fun h0 ↦ absurd h0 ho0⟩
  · obtain ⟨s₁, grown, v₁, hgrow, hinv₁, hal, -, hempty⟩ := h.slabAllocatorGrow hi
    rw [hok, hgrow, ok_bind]
    cases grown with
    | false =>
      exact ⟨s₁, 0, v₁, rfl, hinv₁, hal, fun h0 ↦ absurd rfl h0, fun _ ↦ ⟨hfull, rfl⟩⟩
    | true =>
      -- the new slab is empty, so the second turn ends the loop
      obtain ⟨hlive, p, hp, hzero⟩ := hempty rfl
      have hi₁ : s₁.allocators[i]? = some a := hal ▸ hi
      have hpos := a.nobjs_pos
      rcases hinv₁.findOrGrow_turn hi₁ 0 with ⟨q, hq, hlt, hq0, hok₁⟩ | ⟨hfull₁, -⟩
      · obtain ⟨s', o, v', htake, hinv, hal', ho0, hobj, hl, hlive'⟩ := hinv₁.takeObj hi₁ hq hlt
        have hnew := hinv₁.notMem_live hi₁ hq hobj hl
        rw [hlive] at hnew hlive'
        simp only [if_true, hok₁, ok_bind, hq0, if_false]
        exact ⟨s', o, v', htake, hinv, hal'.trans hal, fun _ ↦ ⟨hnew, hlive'⟩,
          fun h0 ↦ absurd h0 ho0⟩
      · have hp' := hfull₁ p hp
        omega

/-! ## The calls -/

/-- The rest of the kernel gets a block of pages. -/
theorem Inv.pageAlloc (h : s.Inv v) (hstep : step s (.pageAlloc n) = .ok s') :
    s'.allocators = s.allocators ∧ ∃ v', s'.Inv v' := by
  obtain ⟨⟨s₁, addr⟩, hcall, hstep⟩ := bind_ok hstep
  cases hk : Page.orderOf n with
  | none =>
    unfold Heap.pageAllocN Page.pageAllocN at hcall
    rw [hk] at hcall
    cases hcall
  | some k =>
    obtain ⟨s₁, addr, v₁, hok, hinv, hal, hoth, hnew⟩ := h.pageAllocN hk
    cases hcall.symm.trans hok
    cases hstep
    refine ⟨hal, v₁, ?_⟩
    by_cases haddr : addr = 0
    · simp only [haddr, if_true]
      exact hinv
    · simp only [haddr, if_false]
      obtain ⟨rfl, hs₁, hlive, hfresh⟩ := hnew haddr
      have hslab : s₁.slab = s.slab := by rw [hs₁]
      refine hinv.withPages hinv.pages (fun _ hb _ ↦ hb) (fun b hb ↦ ?_) ?_
      · rcases List.mem_cons.mp hb with rfl | hb
        · refine ⟨by simp [hlive], fun j q hq heq ↦ hfresh ?_⟩
          obtain ⟨a', hj⟩ := h.allocator j q hq
          rw [hslab] at heq
          exact List.mem_map.mpr ⟨_, (h.formed j a' hj q hq).block, heq⟩
        · exact hinv.others b hb
      · refine List.nodup_cons.mpr ⟨fun hmem ↦ hfresh ?_, hinv.others_nodup⟩
        rw [hoth] at hmem
        exact List.mem_map.mpr ⟨_, (h.others _ hmem).1, rfl⟩

theorem Inv.pageFree (h : s.Inv v) {addr : ℕ} (hstep : step s (.pageFree addr n) = .ok s') :
    s'.allocators = s.allocators ∧ ∃ v', s'.Inv v' := by
  obtain ⟨hmem, hstep⟩ := bind_demand hstep
  obtain ⟨hlive, hne⟩ := h.others _ hmem
  obtain ⟨pages, hrel, hpages, herase⟩ := h.pages.release_ok hlive
  rw [hrel, ok_bind] at hstep
  cases hstep
  refine ⟨rfl, v, h.withPages hpages (fun b hb hslab ↦ ?_) (fun b hb ↦ ?_) (h.others_nodup.erase _)⟩
  · obtain ⟨i, p, hp, heq⟩ := hslab
    rw [herase]
    refine (List.mem_erase_of_ne ?_).mpr hb
    rintro rfl
    exact hne i p hp heq
  · have hbn : b ≠ (addr, n) := by
      rintro rfl
      exact h.others_nodup.not_mem_erase hb
    have hb := h.others b (List.mem_of_mem_erase hb)
    rw [herase]
    exact ⟨(List.mem_erase_of_ne hbn).mpr hb.1, hb.2⟩

theorem Inv.step {e : Call} (h : s.Inv v) (hstep : step s e = .ok s') :
    s'.allocators = s.allocators ∧ ∃ v', s'.Inv v' := by
  cases e with
  | objAlloc i =>
    obtain ⟨⟨s₁, o⟩, hok, rfl⟩ := map_eq_ok.mp hstep
    cases hi : s.allocators[i]? with
    | none =>
      rw [Heap.slabObjAlloc, hi] at hok
      cases hok
    | some a =>
      obtain ⟨s₂, o₂, v', hok₂, hinv, hal, -⟩ := h.slabObjAlloc hi
      cases hok.symm.trans hok₂
      exact ⟨hal, v', hinv⟩
  | objFree i o =>
    obtain ⟨hl, hok⟩ := bind_demand hstep
    obtain ⟨s₂, v', hok₂, hinv, hal⟩ := h.slabObjFree hl
    cases hok.symm.trans hok₂
    exact ⟨hal, v', hinv⟩
  | reclaim target =>
    obtain ⟨⟨s₁, n⟩, hok, rfl⟩ := map_eq_ok.mp hstep
    obtain ⟨s₂, n₂, v', gone, hok₂, hinv, hshrunk, -⟩ := h.slabAllocatorsReclaim target
    cases hok.symm.trans hok₂
    exact ⟨hshrunk.allocators, v', hinv⟩
  | addRange start fin =>
    obtain ⟨pages, hok, hstep⟩ := bind_ok hstep
    cases hstep
    refine ⟨rfl, v, h.morePages (h.pages.pageAddRange hok) ?_⟩
    rw [pageAddRange_live hok]
    exact List.Subset.refl _
  | pageAlloc n => exact h.pageAlloc hstep
  | pageFree addr n => exact h.pageFree hstep

end Heap

theorem inv_of_run {allocators : List Allocator} {s : Heap} {h : List Call}
    (hr : Run (ofStep step) (boot allocators) h s) : s.allocators = allocators ∧ ∃ v, s.Inv v := by
  refine hr.invariant (I := fun s ↦ s.allocators = allocators ∧ ∃ v, s.Inv v)
    (fun s e s' ⟨hal, v, hv⟩ hstep ↦ ?_) ⟨rfl, _, .boot allocators⟩
  obtain ⟨hal', hv'⟩ := hv.step hstep
  exact ⟨hal'.trans hal, hv'⟩

/-- Objects that are in use, and the slabs, have no byte in common. -/
theorem Heap.Inv.objects_apart {s : Heap} {v : View} (h : s.Inv v) {i j o o' : ℕ} {a a' : Allocator}
    (hi : s.allocators[i]? = some a) (hj : s.allocators[j]? = some a') (ho : (i, o) ∈ s.live)
    (ho' : (j, o') ∈ s.live) (hne : (i, o) ≠ (j, o')) : o + a.stride ≤ o' ∨ o' + a'.stride ≤ o := by
  obtain ⟨b, hb, p, hp, hop⟩ := h.home i o ho
  obtain ⟨b', hb', q, hq, hoq⟩ := h.home j o' ho'
  obtain rfl : a = b := Option.some.inj (hi.symm.trans hb)
  obtain rfl : a' = b' := Option.some.inj (hj.symm.trans hb')
  have hfp := h.formed i a hi p hp
  have hfq := h.formed j a' hj q hq
  by_cases haddr : (s.slab p).sAddr = (s.slab q).sAddr
  · -- two objects of one slab
    obtain rfl := h.one i j p hp q hq haddr
    obtain rfl : a = a' := Option.some.inj (hi.symm.trans hj)
    obtain ⟨m, -, rfl⟩ := Allocator.mem_objects.mp hop
    obtain ⟨n, -, rfl⟩ := Allocator.mem_objects.mp hoq
    rw [haddr] at hne ⊢
    have hmn : m ≠ n := fun heq ↦ hne (by rw [heq])
    rcases Nat.lt_or_gt_of_ne hmn with hlt | hlt
    · left
      have hle := Nat.mul_le_mul_right a.stride hlt
      rw [Nat.succ_mul] at hle
      omega
    · right
      have hle := Nat.mul_le_mul_right a.stride hlt
      rw [Nat.succ_mul] at hle
      omega
  · have hd := h.pages.live_disjoint hfp.block hfq.block (orderOf_two_pow a.order_lt)
      (orderOf_two_pow a'.order_lt) haddr
    have hop' := Allocator.object_add_le hop
    have hoq' := Allocator.object_add_le hoq
    have hhp := a.header_add_le (s.slab p).sAddr
    have hhq := a'.header_add_le (s.slab q).sAddr
    unfold Extent.Disjoint at hd
    simp only [] at hd
    omega

/-- **The slab allocators keep their accounts**, in every run of their calls over any page
allocator that others use as well.  In each slab the objects in use and those on the free list
are all objects of the slab, the free list has no repetition and no object that is in use, and
the control word of an object in use points to its slab.  Objects in use share no memory.
`slab_obj_alloc` returns an object that is not in use, or `NULL` when no slab has a free object
and growing fails; freeing an object in use returns.  `slab_allocators_reclaim` takes out slabs
of which no object is in use, frees their blocks and returns the number of their pages; all
other slabs stay linked, and without a target none of them is empty. -/
theorem slabs_keep_accounts {allocators : List Allocator} {s : Heap} {h : List Call}
    (hr : Run (ofStep step) (boot allocators) h s) :
    (∀ i a, allocators[i]? = some a → ∃ l, Chain s.next (s.saSlabs i) l ∧ ∀ p ∈ l,
      ∃ free, Chain s.link (s.slab p).sFree free ∧ free.Nodup ∧
        (s.slab p).sInuse + free.length = a.saSlabNobjs ∧
        ∀ o, o ∈ free ↔ o ∈ a.objects (s.slab p).sAddr ∧ (i, o) ∉ s.live) ∧
    (∀ i o, (i, o) ∈ s.live → ∃ a l, allocators[i]? = some a ∧ Chain s.next (s.saSlabs i) l ∧
      (s.bufctl o).word ∈ l ∧ o ∈ a.objects (s.slab (s.bufctl o).word).sAddr) ∧
    (∀ i o j o' a a', (i, o) ∈ s.live → (j, o') ∈ s.live → (i, o) ≠ (j, o') →
      allocators[i]? = some a → allocators[j]? = some a' →
        o + a.stride ≤ o' ∨ o' + a'.stride ≤ o) ∧
    (∀ i a, allocators[i]? = some a → ∃ s' o, s.slabObjAlloc i = .ok (s', o) ∧
      (o ≠ 0 → ∀ j, (j, o) ∉ s.live) ∧
      (o = 0 → (∀ l, Chain s.next (s.saSlabs i) l → ∀ p ∈ l, (s.slab p).sFree = 0) ∧
        s.slabAllocatorGrow i a = .ok (s', false))) ∧
    (∀ i o, (i, o) ∈ s.live → ∃ s', s.slabObjFree i o = .ok s') ∧
    ∀ target, ∃ s' n gone, s.slabAllocatorsReclaim target = .ok (s', n) ∧
      s.pages.live.Perm (gone ++ s'.pages.live) ∧ n = Heap.npages gone ∧ s'.live = s.live ∧
      (∀ b ∈ gone, ∃ i a l, allocators[i]? = some a ∧ Chain s.next (s.saSlabs i) l ∧
        ∃ p ∈ l, b = ((s.slab p).sAddr, 2 ^ a.saOrder)) ∧
      ∀ i a l, allocators[i]? = some a → Chain s.next (s.saSlabs i) l →
        ∃ l', Chain s'.next (s'.saSlabs i) l' ∧ l'.Sublist l ∧ ∀ p ∈ l,
          (p ∈ l' ↔ ((s.slab p).sAddr, 2 ^ a.saOrder) ∉ gone) ∧
          (p ∉ l' → ∀ o ∈ a.objects (s.slab p).sAddr, (i, o) ∉ s.live) ∧
          (target ≤ 0 → p ∈ l' → ∃ o ∈ a.objects (s.slab p).sAddr, (i, o) ∈ s.live) := by
  obtain ⟨rfl, v, hv⟩ := inv_of_run hr
  refine ⟨fun i a hi ↦ ⟨v.slabs i, hv.chain i a hi, fun p hp ↦ ?_⟩, fun i o ho ↦ ?_,
    fun i o j o' a a' ho ho' hne hi hj ↦ hv.objects_apart hi hj ho ho' hne, fun i a hi ↦ ?_,
    fun i o ho ↦ ?_, fun target ↦ ?_⟩
  · have hf := hv.formed i a hi p hp
    refine ⟨v.free p, hf.chain, hf.chain.nodup, hf.count, fun o ↦ ⟨fun ho ↦ ?_, fun ho ↦ ?_⟩⟩
    · exact ⟨hf.objects o ho, (hf.live o (hf.objects o ho)).mp ho⟩
    · exact (hf.live o ho.1).mpr ho.2
  · obtain ⟨a, hi, p, hp, hobj⟩ := hv.home i o ho
    have hback := (hv.formed i a hi p hp).back o hobj ho
    refine ⟨a, v.slabs i, hi, hv.chain i a hi, ?_⟩
    rw [hback]
    exact ⟨hp, hobj⟩
  · obtain ⟨s', o, v', hok, -, -, hnew, hnull⟩ := hv.slabObjAlloc hi
    refine ⟨s', o, hok, fun h0 ↦ (hnew h0).1, fun h0 ↦ ⟨fun l hl p hp ↦ ?_, (hnull h0).2⟩⟩
    obtain rfl := hl.unique (hv.chain i a hi)
    have hf := hv.formed i a hi p hp
    have hcount := hf.count
    rw [(hnull h0).1 p hp] at hcount
    have hnil : v.free p = [] := List.length_eq_zero_iff.mp (by omega)
    have hchain := hf.chain
    rw [hnil] at hchain
    exact hchain
  · obtain ⟨s', -, hok, -⟩ := hv.slabObjFree ho
    exact ⟨s', hok⟩
  · obtain ⟨s', n, v', gone, hok, hv', hshrunk, hn, hall⟩ := hv.slabAllocatorsReclaim target
    refine ⟨s', n, gone, hok, hshrunk.pages, hn, hshrunk.live, fun b hb ↦ ?_, fun i a l hi hl ↦ ?_⟩
    · obtain ⟨i, a, p, hi, hp, -, -, rfl⟩ := hshrunk.gone b hb
      exact ⟨i, a, v.slabs i, hi, hv.chain i a hi, p, hp, rfl⟩
    · obtain rfl := hl.unique (hv.chain i a hi)
      refine ⟨v'.slabs i, hv'.chain i a (hshrunk.allocators ▸ hi), hshrunk.sublist i, fun p hp ↦ ?_⟩
      have hf := hv.formed i a hi p hp
      have hgone : ((s.slab p).sAddr, 2 ^ a.saOrder) ∈ gone →
          p ∉ v'.slabs i ∧ (s.slab p).sInuse = 0 := by
        intro hb
        obtain ⟨j, a', q, hj, hq, hq', hzero, heq⟩ := hshrunk.gone _ hb
        have haddr := (Prod.mk.inj heq).1
        obtain rfl := hv.one i j p hp q hq haddr
        obtain rfl : a = a' := Option.some.inj (hi.symm.trans hj)
        obtain rfl : p = q := by rw [hf.place, (hv.formed i a hi q hq).place, haddr]
        exact ⟨hq', hzero⟩
      refine ⟨⟨fun hp' hb ↦ (hgone hb).1 hp', fun hb ↦ ?_⟩, fun hp' ↦ ?_, fun ht hp' ↦ ?_⟩
      · exact (hshrunk.kept i a hi p hp).resolve_right hb
      · have hb := (hshrunk.kept i a hi p hp).resolve_left hp'
        exact hf.sInuse_eq_zero.mp (hgone hb).2
      · by_contra hno
        push Not at hno
        exact hall ht i p hp' (hf.sInuse_eq_zero.mpr hno)

omit [Orders] in
/-- An allocator for objects of two thousand bytes, two of which have room in a page. -/
def twoInAPage : @Allocator Orders.stock :=
  letI := Orders.stock
  ⟨2000, 0, 2, by decide, by decide, by decide⟩

omit [Orders] in
example : letI := Orders.stock
    (allocatorInit 2000).toOption.map (fun a ↦ (a.saOrder, a.saSlabNobjs)) = some (0, 2) := by
  decide +kernel

/-- Three objects are allocated, which takes two slabs, and the first one is freed. -/
def threeObjects : List Call :=
  [.addRange 0x100000 0x182000, .objAlloc 0, .objAlloc 0, .objAlloc 0, .objFree 0 0x17f000]

omit [Orders] in
theorem threeObjects_accounts : letI := Orders.stock
    ∃ s, Run (ofStep step) (boot [twoInAPage]) threeObjects.reverse s ∧
      s.live = [(0, 0x17e000), (0, 0x17f7d8)] ∧
      ∃ l, Chain s.next (s.saSlabs 0) l ∧ ∀ p ∈ l, ∃ free, Chain s.link (s.slab p).sFree free ∧
        (s.slab p).sInuse + free.length = 2 := by
  let := Orders.stock
  have hcheck : check step (boot [twoInAPage]) threeObjects
      (fun s ↦ decide (s.live = [(0, 0x17e000), (0, 0x17f7d8)])) = true := by
    decide +kernel
  obtain ⟨s, hs, hp⟩ := exists_of_check hcheck
  have hr := Run.of_exec hs
  obtain ⟨l, hl, hslabs⟩ := (slabs_keep_accounts hr).1 0 twoInAPage rfl
  refine ⟨s, hr, of_decide_eq_true hp, l, hl, fun p hpl ↦ ?_⟩
  obtain ⟨free, hfree, -, hcount, -⟩ := hslabs p hpl
  exact ⟨free, hfree, hcount⟩

end CS402.Slabs

import CS402.Mm.Page
import Mathlib.Data.List.Nodup

/-!
# The page allocator is a buddy system

The free lists and bit maps of a page group are a buddy system over the memory of the
group, in the sense of `Lib.Buddy`: `Group.Inv` says so for a group and the set of its
blocks that are in use.

While a block is split or joined, the lists of the code are ahead of the invariant: a
block that is about to be split further, or that may still be joined with its buddy, is
on a free list already.  We describe such a state as `g.put k x`: the group `g`, in which
the block is in use and the invariant holds, with the block put on its list and the bit
of its pair flipped.  Splitting turns one such state into another with a smaller block,
joining into one with a larger block, and flipping a bit twice does nothing.
-/

namespace CS402.Page

open Lib Lib.Buddy Function

theorem pageSize_pos : 0 < pageSize := by decide

theorem blockSize_pos (k : ℕ) : 0 < blockSize k := size_pos pageSize_pos k

/-- The free blocks of a group, by order and distance from the base. -/
def Group.free (g : Group) : Set Block := {b | g.pgBaseaddr + b.2 ∈ g.pgFreelist b.1}

/-- The memory of the group. -/
def Group.span (g : Group) : ℕ × ℕ := (g.pgBaseaddr, g.pgEndaddr)

variable {g : Group}

theorem Group.mem_free {b : Block} :
    b ∈ g.free ↔ g.pgBaseaddr + b.2 ∈ g.pgFreelist b.1 := Iff.rfl

theorem overlap_start (j k x : ℕ) : Overlap pageSize (j, x) (k, x) :=
  ⟨Nat.lt_add_of_pos_right (blockSize_pos k), Nat.lt_add_of_pos_right (blockSize_pos j)⟩

theorem buddy_address {k x : ℕ} (hx : blockSize k ∣ x) :
    (if x / pageSize / 2 ^ k % 2 = 1 then g.pgBaseaddr + x - blockSize k
      else g.pgBaseaddr + x + blockSize k) = g.pgBaseaddr + buddy (blockSize k) x := by
  have hdiv : x / pageSize / 2 ^ k = x / blockSize k := by
    rw [Nat.div_div_eq_div_mul, Nat.mul_comm]
    rfl
  rw [hdiv, buddy]
  split
  · next hodd =>
    -- an odd block does not start at the base
    have hle : blockSize k ≤ x := by
      refine Nat.le_of_dvd (Nat.pos_of_ne_zero fun h0 ↦ ?_) hx
      simp [h0] at hodd
    exact Nat.add_sub_assoc hle _
  · exact Nat.add_assoc _ _ _

variable [Orders]

theorem lastOrder_lt : lastOrder < nsizes := Nat.sub_one_lt_of_lt Orders.nsizes_pos

theorem lt_lastOrder_iff {k : ℕ} : k < lastOrder ↔ k + 1 < nsizes := by
  unfold lastOrder
  omega

namespace Group

/-- The length of the memory that is divided into blocks. -/
def top (g : Group) : ℕ :=
  (g.pgEndaddr - g.pgBaseaddr) / blockSize lastOrder * blockSize lastOrder

/-- The group is a buddy system. -/
structure Inv (g : Group) (live : Set Block) : Prop where
  base : PageAligned g.pgBaseaddr
  nodup : ∀ k, (g.pgFreelist k).Nodup
  above : ∀ k, ∀ a ∈ g.pgFreelist k, g.pgBaseaddr ≤ a
  sound : Sound pageSize nsizes g.top g.free live
  parity : Parity pageSize nsizes g.free g.pgMap

/-- The bit map after a block of order `k` has become free or ceased to be. -/
def flipped (g : Group) (k x : ℕ) : ℕ → ℕ → Bool :=
  if k < lastOrder then Buddy.flip g.pgMap (k + 1) (x / (2 * blockSize k)) else g.pgMap

/-- A block goes on its free list. -/
def put (g : Group) (k x : ℕ) : Group :=
  { g with
    pgFreelist := update g.pgFreelist k ((g.pgBaseaddr + x) :: g.pgFreelist k)
    pgMap := g.flipped k x }

/-- A block comes off its free list. -/
def cut (g : Group) (k x : ℕ) : Group :=
  { g with
    pgFreelist := update g.pgFreelist k ((g.pgFreelist k).erase (g.pgBaseaddr + x))
    pgMap := g.flipped k x }

variable {g : Group} {live : Set Block} {k x : ℕ}

theorem mem_freelist (h : g.Inv live) {a : ℕ} (ha : a ∈ g.pgFreelist k) :
    (k, a - g.pgBaseaddr) ∈ g.free := by
  rwa [mem_free, Nat.add_sub_cancel' (h.above k a ha)]

theorem free_put : (g.put k x).free = insert (k, x) g.free := by
  ext ⟨l, y⟩
  simp only [mem_free, put, Set.mem_insert_iff, Prod.mk.injEq]
  by_cases hl : l = k
  · subst hl
    simp
  · simp [hl]

theorem free_cut (h : ∀ k, (g.pgFreelist k).Nodup) : (g.cut k x).free = g.free \ {(k, x)} := by
  ext ⟨l, y⟩
  simp only [mem_free, cut, Set.mem_sdiff, Set.mem_singleton_iff, Prod.mk.injEq]
  by_cases hl : l = k
  · subst hl
    simp [(h l).mem_erase_iff, and_comm]
  · simp [hl]

theorem flipped_flipped : (g.put k x).flipped k x = g.pgMap ∧
    (g.cut k x).flipped k x = g.pgMap := by
  unfold put cut flipped
  by_cases hk : k < lastOrder
  · simp [hk, Buddy.flip_flip]
  · simp [hk]

theorem cut_put : (g.put k x).cut k x = g := by
  have hmap := (flipped_flipped (g := g) (k := k) (x := x)).1
  unfold cut
  rw [hmap]
  simp [put]

theorem put_cut {rest : List ℕ} (h : g.pgFreelist k = (g.pgBaseaddr + x) :: rest) :
    (g.cut k x).put k x = g := by
  have hmap := (flipped_flipped (g := g) (k := k) (x := x)).2
  unfold put
  rw [hmap]
  have hlist : update g.pgFreelist k (g.pgFreelist k) = g.pgFreelist := update_eq_self k _
  rw [h] at hlist
  simp [cut, h, hlist]

namespace Inv

theorem relist (h : g.Inv live) {g' : Group} {live' : Set Block} {l : List ℕ}
    (hg : g' = { g with pgFreelist := update g.pgFreelist k l, pgMap := g.flipped k x })
    (hl : l.Nodup) (ha : ∀ a ∈ l, a = g.pgBaseaddr + x ∨ a ∈ g.pgFreelist k)
    (hs : Sound pageSize nsizes g.top g'.free live') (hp : Parity pageSize nsizes g'.free
      (Buddy.flip g.pgMap (k + 1) (x / (2 * blockSize k)))) : g'.Inv live' := by
  subst hg
  refine ⟨h.base, fun j ↦ ?_, fun j a hj ↦ ?_, hs, ?_⟩
  · rcases eq_or_ne j k with rfl | hjk
    · simpa using hl
    · simpa [hjk] using h.nodup j
  · rcases eq_or_ne j k with rfl | hjk
    · simp only [update_self] at hj
      rcases ha a hj with rfl | hj
      · exact Nat.le_add_right _ _
      · exact h.above j a hj
    · simp only [update_of_ne hjk] at hj
      exact h.above j a hj
  · by_cases hk : k < lastOrder
    · simpa [flipped, hk] using hp
    · -- blocks of the largest order have no bit
      intro j i hj
      have hjk : j ≠ k := fun hjk ↦ hk (lt_lastOrder_iff.mpr (hjk ▸ hj))
      simpa [flipped, hk, mem_free, hjk] using h.parity j i hj

theorem put (h : g.Inv live) {live' : Set Block} (hx : blockSize k ∣ x) (hnew : (k, x) ∉ g.free)
    (hs : Sound pageSize nsizes g.top (insert (k, x) g.free) live') : (g.put k x).Inv live' := by
  rw [← free_put] at hs
  refine h.relist rfl (List.nodup_cons.mpr ⟨hnew, h.nodup k⟩) (fun a ↦ List.mem_cons.mp) hs ?_
  rw [free_put]
  exact h.parity.insert pageSize_pos hx hnew

theorem cut (h : g.Inv live) {live' : Set Block} (hb : (k, x) ∈ g.free)
    (hs : Sound pageSize nsizes g.top (g.free \ {(k, x)}) live') : (g.cut k x).Inv live' := by
  rw [← free_cut h.nodup] at hs
  refine h.relist rfl ((h.nodup k).erase _) (fun a ha ↦ .inr (List.mem_of_mem_erase ha)) hs ?_
  rw [free_cut h.nodup]
  exact h.parity.erase pageSize_pos (h.sound.tiling.aligned (k, x) (.inl hb)) hb

theorem take (h : g.Inv live) (hb : (k, x) ∈ g.free) :
    (g.cut k x).Inv (insert (k, x) live) ∧ (k, x) ∉ live :=
  ⟨h.cut hb (h.sound.take hb), h.sound.notMem_live hb⟩

theorem give (h : g.Inv (insert (k, x) live)) (hb : (k, x) ∉ live)
    (hbuddy : k < lastOrder → (k, buddy (blockSize k) x) ∉ g.free) : (g.put k x).Inv live :=
  h.put (h.sound.tiling.aligned (k, x) (.inr (.inl rfl)))
    (fun hf ↦ h.sound.notMem_live hf (.inl rfl))
    (h.sound.give pageSize_pos hb fun hk ↦ hbuddy (lt_lastOrder_iff.mpr hk))

theorem merge (h : g.Inv (insert (k, x) live)) (hb : (k, x) ∉ live) (hk : k < lastOrder)
    (hbuddy : (k, buddy (blockSize k) x) ∈ g.free) :
    (g.cut k (buddy (blockSize k) x)).Inv (insert (k + 1, min x (buddy (blockSize k) x)) live) ∧
      (k + 1, min x (buddy (blockSize k) x)) ∉ live := by
  obtain ⟨hs, hnew⟩ := h.sound.merge pageSize_pos (lt_lastOrder_iff.mp hk) hb hbuddy
  exact ⟨h.cut hbuddy hs, hnew⟩

theorem split (h : g.Inv (insert (k + 1, x) live)) (hb : (k + 1, x) ∉ live) :
    (g.put k x).Inv (insert (k, x + blockSize k) live) ∧ (k, x + blockSize k) ∉ live := by
  obtain ⟨hs, hfst, -, hsnd⟩ := h.sound.split pageSize_pos hb
  have hal : blockSize (k + 1) ∣ x := h.sound.tiling.aligned (k + 1, x) (.inr (.inl rfl))
  exact ⟨h.put ((size_dvd_size pageSize (Nat.le_succ k)).trans hal) hfst hs, hsnd⟩

end Inv

theorem Inv.le_endaddr (h : g.Inv live) {b : Block} (hb : b ∈ g.free ∪ live) :
    g.pgBaseaddr + b.2 + blockSize b.1 ≤ g.pgEndaddr := by
  have hin : b.2 + blockSize b.1 ≤ g.top := h.sound.tiling.inside b hb
  have htop : g.top ≤ g.pgEndaddr - g.pgBaseaddr := Nat.div_mul_le_self _ _
  have hpos := blockSize_pos b.1
  omega

theorem Inv.lt_endaddr (h : g.Inv live) (hb : (k, x) ∈ g.free ∪ live) :
    g.pgBaseaddr + x < g.pgEndaddr :=
  (Nat.lt_add_of_pos_right (blockSize_pos k)).trans_le (h.le_endaddr hb)

/-! ## The code of a group -/

theorem calculateIndex_eq (hbase : PageAligned g.pgBaseaddr) (hk : k + 1 < nsizes)
    (hx : blockSize k ∣ x) (hlt : g.pgBaseaddr + x < g.pgEndaddr) :
    pagegroupCalculateIndex g (k + 1) (g.pgBaseaddr + x) = .ok (x / (2 * blockSize k)) := by
  have hpage : pageSize ∣ x := (unit_dvd_size pageSize k).trans hx
  have haligned : PageAligned (g.pgBaseaddr + x) :=
    Nat.mod_eq_zero_of_dvd (Nat.dvd_add (Nat.dvd_of_mod_eq_zero hbase) hpage)
  have hmask : x % 2 ^ (k + 1) = 0 := by
    have hdvd : 2 ^ (k + 1) ∣ 2 ^ k * pageSize := by
      rw [Nat.pow_succ]
      exact Nat.mul_dvd_mul_left _ (by decide)
    exact Nat.mod_eq_zero_of_dvd (hdvd.trans hx)
  have hindex : x / 2 ^ (k + 1) / pageSize = x / (2 * blockSize k) := by
    rw [Nat.div_div_eq_div_mul, blockSize, ← size_succ, size]
  unfold pagegroupCalculateIndex
  rw [demand_bind haligned, demand_bind hk,
    demand_pos ⟨Nat.le_add_right _ _, hlt⟩, ok_bind]
  simp only [Nat.add_sub_cancel_left]
  rw [demand_bind hmask, hindex]
  rfl

section

variable (hbase : PageAligned g.pgBaseaddr) (hx : blockSize k ∣ x)
  (hlt : g.pgBaseaddr + x < g.pgEndaddr)
include hbase hx hlt

theorem flipPair_eq : g.flipPair k (g.pgBaseaddr + x) = .ok { g with pgMap := g.flipped k x } := by
  unfold flipPair flipped
  split
  · next hk =>
    rw [calculateIndex_eq hbase (lt_lastOrder_iff.mp hk) hx hlt, ok_bind]
    rfl
  · rfl

theorem insertHead_flipPair :
    (g.insertHead k (g.pgBaseaddr + x)).flipPair k (g.pgBaseaddr + x) = .ok (g.put k x) :=
  flipPair_eq hbase hx hlt

theorem removeHead_flipPair {rest : List ℕ}
    (hhead : g.pgFreelist k = (g.pgBaseaddr + x) :: rest) :
    flipPair { g with pgFreelist := update g.pgFreelist k rest } k (g.pgBaseaddr + x) =
      .ok (g.cut k x) := by
  rw [flipPair_eq (g := { g with pgFreelist := update g.pgFreelist k rest }) hbase hx hlt]
  unfold cut
  rw [hhead, List.erase_cons_head]
  rfl

end

/-- `__page_split` of a block that has been put on its list replaces it by its halves, and
its assertion holds. -/
theorem pageSplitBlock_put (h : g.Inv (insert (k + 1, x) live)) (hb : (k + 1, x) ∉ live) :
    pageSplitBlock (g.put (k + 1) x) (k + 1) = .ok ((g.put k x).put k (x + blockSize k)) := by
  have hmem : (k + 1, x) ∈ g.free ∪ insert (k + 1, x) live := .inr (.inl rfl)
  have hk : k + 1 < nsizes := h.sound.tiling.order _ hmem
  have hal : blockSize (k + 1) ∣ x := h.sound.tiling.aligned (k + 1, x) hmem
  have hpair : 2 * blockSize k ∣ x := size_succ pageSize k ▸ hal
  have hhalf : blockSize k ∣ x := (Nat.dvd_mul_left _ 2).trans hpair
  have hlt := h.lt_endaddr hmem
  obtain ⟨-, hfst, hsnd, -⟩ := h.sound.split pageSize_pos hb
  have hhead : (g.put (k + 1) x).pgFreelist (k + 1) =
      (g.pgBaseaddr + x) :: g.pgFreelist (k + 1) := by
    simp [put]
  -- neither half is free, and so the bit of the pair is clear
  have hbit : g.pgMap (k + 1) (x / (2 * blockSize k)) = false := by
    rw [← Bool.not_eq_true]
    refine fun htrue ↦ hsnd ?_
    have hbuddy := (h.parity.buddy_iff pageSize_pos hk hhalf hfst).mp htrue
    rwa [show buddy (size pageSize k) x = x + size pageSize k from
      buddy_of_dvd (blockSize_pos k) hpair] at hbuddy
  have htake := removeHead_flipPair (g := g.put (k + 1) x) h.base hal hlt hhead
  rw [cut_put] at htake
  unfold pageSplitBlock
  rw [demand_bind (Nat.succ_pos k), demand_bind hk, hhead]
  simp only []
  rw [show (g.pgBaseaddr + x) = (g.put (k + 1) x).pgBaseaddr + x from rfl, htake, ok_bind]
  rw [show (g.put (k + 1) x).pgBaseaddr + x = g.pgBaseaddr + x from rfl,
    calculateIndex_eq h.base hk hhalf hlt, ok_bind, demand_bind hbit]
  -- the bit of the pair is flipped for each of the halves, or not at all
  have hmap : (g.put k x).flipped k (x + blockSize k) = g.pgMap := by
    have hindex : (x + blockSize k) / (2 * blockSize k) = x / (2 * blockSize k) :=
      add_half_div (blockSize_pos k) hpair
    have hflip := (flipped_flipped (g := g) (k := k) (x := x)).1
    unfold flipped at hflip ⊢
    rwa [hindex]
  rw [put, hmap]
  simp [put, insertHead, Nat.add_assoc]

theorem Inv.notMem_freelist (h : g.Inv (insert (k, x) live)) (j : ℕ) :
    g.pgBaseaddr + x ∉ g.pgFreelist j := fun hj ↦ by
  have hf : (j, x) ∈ g.free := hj
  have heq := h.sound.tiling.apart (j, x) (.inl hf) (k, x) (.inr (.inl rfl)) (overlap_start j k x)
  exact h.sound.notMem_live hf (.inl heq)

theorem remove_put (h : g.Inv (insert (k, x) live)) :
    (g.put k x).remove (g.pgBaseaddr + x) = .ok { g with pgMap := g.flipped k x } := by
  have hk : k < nsizes := h.sound.tiling.order (k, x) (.inr (.inl rfl))
  have hlists : (fun j ↦ ((g.put k x).pgFreelist j).erase (g.pgBaseaddr + x)) = g.pgFreelist := by
    funext j
    by_cases hj : j = k
    · subst hj
      simp [put]
    · simp [put, hj, h.notMem_freelist j]
  unfold remove
  rw [demand_pos ⟨k, hk, by simp [put]⟩, ok_bind, hlists]
  rfl

theorem remove_free (h : g.Inv live) (hb : (k, x) ∈ g.free) (m : ℕ → ℕ → Bool) :
    remove { g with pgMap := m } (g.pgBaseaddr + x) = .ok { g with
      pgMap := m
      pgFreelist := update g.pgFreelist k ((g.pgFreelist k).erase (g.pgBaseaddr + x)) } := by
  have hk : k < nsizes := h.sound.tiling.order (k, x) (.inl hb)
  have hlists : (fun j ↦ (g.pgFreelist j).erase (g.pgBaseaddr + x)) =
      update g.pgFreelist k ((g.pgFreelist k).erase (g.pgBaseaddr + x)) := by
    funext j
    by_cases hj : j = k
    · subst hj
      simp
    · have hno : g.pgBaseaddr + x ∉ g.pgFreelist j := fun hmem ↦ by
        have hf : (j, x) ∈ g.free := hmem
        exact hj (congrArg Prod.fst (h.sound.tiling.apart (j, x) (.inl hf) (k, x) (.inl hb)
          (overlap_start j k x)))
      simp [hj, hno]
  unfold remove
  rw [demand_pos ⟨k, hk, hb⟩, ok_bind]
  simp only [hlists]
  rfl

/-- `_page_split`: a block that has been put on its list is split down to the order
asked for. -/
theorem splitDown_put {order d : ℕ} (h : g.Inv (insert (order + d, x) live))
    (hb : (order + d, x) ∉ live) :
    ∃ (g' : Group) (x' : ℕ), splitDown order d (g.put (order + d) x) = .ok (g'.put order x') ∧
      g'.Inv (insert (order, x') live) ∧ (order, x') ∉ live ∧ g'.span = g.span := by
  induction d generalizing g x with
  | zero => exact ⟨g, x, rfl, h, hb, rfl⟩
  | succ d ih =>
    have h : g.Inv (insert (order + d + 1, x) live) := h
    have hb : (order + d + 1, x) ∉ live := hb
    obtain ⟨h', hb'⟩ := h.split hb
    obtain ⟨g', x', hok, hinv, hnew, hspan⟩ := ih h' hb'
    refine ⟨g', x', ?_, hinv, hnew, hspan⟩
    show (pageSplitBlock (g.put (order + d + 1) x) (order + d + 1) >>= splitDown order d) = _
    rw [pageSplitBlock_put h hb, ok_bind]
    exact hok

theorem Inv.pgMap_iff (h : g.Inv (insert (k, x) live)) (hk : k < lastOrder) :
    g.pgMap (k + 1) (x / (2 * blockSize k)) = true ↔ (k, buddy (blockSize k) x) ∈ g.free :=
  h.parity.buddy_iff pageSize_pos (lt_lastOrder_iff.mp hk)
    (h.sound.tiling.aligned (k, x) (.inr (.inl rfl)))
    fun hf ↦ h.sound.notMem_live hf (.inl rfl)

theorem pgMap_put (hk : k < lastOrder) : (g.put k x).pgMap (k + 1) (x / (2 * blockSize k)) =
    !g.pgMap (k + 1) (x / (2 * blockSize k)) := by
  simp [put, flipped, hk, Buddy.flip]

/-- One round of `__page_join`: the buddy is free. -/
theorem pageJoin_step (h : g.Inv (insert (k, x) live)) (hb : (k, x) ∉ live) (hk : k < lastOrder)
    (hbuddy : (k, buddy (blockSize k) x) ∈ g.free) (d : ℕ) :
    pageJoin (d + 1) (g.put k x) k (g.pgBaseaddr + x) =
      pageJoin d ((g.cut k (buddy (blockSize k) x)).put (k + 1) (min x (buddy (blockSize k) x)))
        (k + 1) (g.pgBaseaddr + min x (buddy (blockSize k) x)) := by
  have hmem : (k, x) ∈ g.free ∪ insert (k, x) live := .inr (.inl rfl)
  have hk' := lt_lastOrder_iff.mp hk
  have hx : blockSize k ∣ x := h.sound.tiling.aligned (k, x) hmem
  have hindex := calculateIndex_eq (g := g.put k x) h.base hk' hx (h.lt_endaddr hmem)
  have hbit : (g.put k x).pgMap (k + 1) (x / (2 * blockSize k)) = false := by
    rw [pgMap_put hk, (h.pgMap_iff hk).mpr hbuddy]
    rfl
  have hmask : x % 2 ^ k = 0 := Nat.mod_eq_zero_of_dvd ((Nat.dvd_mul_right _ _).trans hx)
  -- the two blocks go, and the bit of their pair is as if only the buddy had
  have hmap : g.flipped k x = g.flipped k (buddy (blockSize k) x) := by
    unfold flipped
    rw [div_buddy (blockSize_pos k) hx]
  have hcut := remove_free h hbuddy (g.flipped k x)
  rw [hmap] at hcut
  -- the pair goes on the list of the next order
  obtain ⟨hinv, -⟩ := h.merge hb hk hbuddy
  have hpair : (k + 1, min x (buddy (blockSize k) x)) ∈
      (g.cut k (buddy (blockSize k) x)).free ∪
        insert (k + 1, min x (buddy (blockSize k) x)) live := .inr (.inl rfl)
  have hput := insertHead_flipPair hinv.base (hinv.sound.tiling.aligned _ hpair)
    (hinv.lt_endaddr hpair)
  have hmin : min (g.pgBaseaddr + x) (g.pgBaseaddr + buddy (blockSize k) x) =
      g.pgBaseaddr + min x (buddy (blockSize k) x) := Nat.add_min_add_left _ _ _
  rw [pageJoin, show g.pgBaseaddr + x = (g.put k x).pgBaseaddr + x from rfl, hindex, ok_bind,
    if_neg (by simp [hbit])]
  simp only [Nat.add_sub_cancel_left]
  rw [show (g.put k x).pgBaseaddr = g.pgBaseaddr from rfl, buddy_address hx, demand_bind hmask,
    remove_put h, ok_bind, hmap, hcut, ok_bind, hmin]
  exact (congrArg (· >>= _) hput).trans (ok_bind _ _)

/-- `__page_join`: a block that has been put on its list is joined with its buddy for as
long as that is free. -/
theorem pageJoin_put {d : ℕ} (hd : k + d = lastOrder) (h : g.Inv (insert (k, x) live))
    (hb : (k, x) ∉ live) :
    ∃ g', pageJoin d (g.put k x) k (g.pgBaseaddr + x) = .ok g' ∧ g'.Inv live ∧
      g'.span = g.span := by
  induction d generalizing g k x with
  | zero => exact ⟨_, rfl, h.give hb fun hk ↦ absurd hk (by omega), rfl⟩
  | succ d ih =>
    have hk : k < lastOrder := by omega
    by_cases hbuddy : (k, buddy (blockSize k) x) ∈ g.free
    · obtain ⟨hinv, hnew⟩ := h.merge hb hk hbuddy
      obtain ⟨g', hok, hinv', hspan⟩ := ih (by omega) hinv hnew
      exact ⟨g', (pageJoin_step h hb hk hbuddy d).trans hok, hinv', hspan⟩
    · -- the bit of the pair is set now, and the loop ends
      have hmem : (k, x) ∈ g.free ∪ insert (k, x) live := .inr (.inl rfl)
      have hk' := lt_lastOrder_iff.mp hk
      have hx : blockSize k ∣ x := h.sound.tiling.aligned (k, x) hmem
      have hbit : (g.put k x).pgMap (k + 1) (x / (2 * blockSize k)) = true := by
        rw [pgMap_put hk, Bool.not_eq_true', ← Bool.not_eq_true, h.pgMap_iff hk]
        exact hbuddy
      refine ⟨_, ?_, h.give hb fun _ ↦ hbuddy, rfl⟩
      rw [pageJoin, show g.pgBaseaddr + x = (g.put k x).pgBaseaddr + x from rfl,
        calculateIndex_eq (g := g.put k x) h.base hk' hx (h.lt_endaddr hmem), ok_bind,
        if_pos hbit]
      rfl

end Group

/-! ## A new group -/

section create

omit [Orders]

theorem fill_eq {step j : ℕ} (hstep : 0 < step) {fuel current : ℕ} (l : List ℕ) (hfuel : j ≤ fuel) :
    fill step (current + j * step) fuel current l =
      ((List.range j).map fun i ↦ current + i * step).reverse ++ l := by
  induction j generalizing fuel current l with
  | zero => cases fuel <;> simp [fill]
  | succ j ih =>
    obtain ⟨fuel, rfl⟩ : ∃ f, fuel = f + 1 := ⟨fuel - 1, by omega⟩
    have hlt : current < current + (j + 1) * step :=
      Nat.lt_add_of_pos_right (Nat.mul_pos (Nat.succ_pos j) hstep)
    have hend : current + (j + 1) * step = current + step + j * step := by ring
    have hmap : (List.range (j + 1)).map (fun i ↦ current + i * step) =
        current :: (List.range j).map fun i ↦ current + step + i * step := by
      rw [List.range_succ_eq_map, List.map_cons, List.map_map, Nat.zero_mul, Nat.add_zero]
      refine congrArg _ (List.map_congr_left fun i _ ↦ ?_)
      simp only [Function.comp_apply, Nat.succ_eq_add_one]
      ring
    rw [fill, if_pos hlt, hend, ih _ (by omega), hmap]
    simp

theorem foldl_testBit (npages fin m : ℕ) :
    (List.range m).foldl
      (fun last order ↦ if npages.testBit order then last - blockSize order else last) fin =
      fin - npages % 2 ^ m * pageSize := by
  induction m with
  | zero => simp [Nat.mod_one]
  | succ m ih =>
    have hbit : npages.testBit m = (npages / 2 ^ m % 2 == 1) := by
      rw [Nat.testBit_eq_decide_div_mod_eq]
      rfl
    rw [List.range_succ, List.foldl_append, ih, List.foldl_cons, List.foldl_nil, Nat.mod_pow_succ,
      hbit]
    rcases Nat.mod_two_eq_zero_or_one (npages / 2 ^ m) with h | h
    · simp [h]
    · simp only [h, beq_self_eq_true, if_true, Nat.mul_one, Nat.add_mul, blockSize, size]
      omega

theorem foldl_sub_le (f : ℕ → ℕ) (l : List ℕ) (fin : ℕ) :
    l.foldl (fun fin order ↦ fin - f order) fin ≤ fin := by
  induction l generalizing fin with
  | nil => exact le_rfl
  | cons _ l ih => exact (ih _).trans (Nat.sub_le _ _)

end create

variable {fin start : ℕ}

theorem last_eq (hstart : PageAligned start) (hfin : PageAligned fin)
    (hle : start ≤ fin) :
    fin - (fin - start) / pageSize % 2 ^ lastOrder * pageSize =
      start + (fin - start) / blockSize lastOrder * blockSize lastOrder := by
  obtain ⟨n, hn⟩ : pageSize ∣ fin - start :=
    Nat.dvd_sub (Nat.dvd_of_mod_eq_zero hfin) (Nat.dvd_of_mod_eq_zero hstart)
  have hdiv : (fin - start) / pageSize = n := by
    rw [hn, Nat.mul_div_cancel_left n pageSize_pos]
  have hblocks : (fin - start) / blockSize lastOrder = n / 2 ^ lastOrder := by
    rw [hn, blockSize, size, Nat.mul_comm (2 ^ lastOrder), Nat.mul_div_mul_left _ _ pageSize_pos]
  have hsplit : n * pageSize = n % 2 ^ lastOrder * pageSize +
      n / 2 ^ lastOrder * blockSize lastOrder := by
    conv_lhs => rw [← Nat.mod_add_div n (2 ^ lastOrder)]
    rw [blockSize, size]
    ring
  rw [hdiv, hblocks]
  rw [Nat.mul_comm] at hn
  omega

/-- The blocks of a new group are those of the largest order, and all are free. -/
theorem inv_new {last : ℕ} (hstart : PageAligned start)
    (hlast : last = start + (fin - start) / blockSize lastOrder * blockSize lastOrder) :
    Group.Inv {
      pgFreelist := update (fun _ ↦ []) lastOrder
        (fill (blockSize lastOrder) last (last - start) start [])
      pgMap := fun _ _ ↦ false
      pgBaseaddr := start
      pgEndaddr := fin } ∅ := by
  subst hlast
  have hpos := blockSize_pos lastOrder
  have hfuel : (fin - start) / blockSize lastOrder ≤
      start + (fin - start) / blockSize lastOrder * blockSize lastOrder - start := by
    rw [Nat.add_sub_cancel_left]
    exact Nat.le_mul_of_pos_right _ hpos
  rw [fill_eq hpos [] hfuel, List.append_nil]
  generalize hj : (fin - start) / blockSize lastOrder = j
  have hmem : ∀ k a, a ∈ update (fun _ ↦ []) lastOrder
      ((List.range j).map fun i ↦ start + i * blockSize lastOrder).reverse k ↔
      k = lastOrder ∧ ∃ i < j, start + i * blockSize lastOrder = a := by
    intro k a
    by_cases hk : k = lastOrder
    · subst hk
      simp
    · simp [hk]
  have hfree : Group.free {
      pgFreelist := update (fun _ ↦ []) lastOrder
        ((List.range j).map fun i ↦ start + i * blockSize lastOrder).reverse
      pgMap := fun _ _ ↦ false
      pgBaseaddr := start
      pgEndaddr := fin } = {b | b.1 = nsizes - 1 ∧ size pageSize (nsizes - 1) ∣ b.2 ∧
        b.2 < j * blockSize lastOrder} := by
    ext ⟨k, x⟩
    rw [Group.mem_free]
    simp only [hmem, Set.mem_ofPred_eq]
    refine and_congr_right fun _ ↦ ⟨?_, ?_⟩
    · rintro ⟨i, hi, hx⟩
      obtain rfl : i * blockSize lastOrder = x := by omega
      exact ⟨Nat.dvd_mul_left _ i, Nat.mul_lt_mul_of_pos_right hi hpos⟩
    · rintro ⟨⟨i, rfl⟩, hlt⟩
      rw [Nat.mul_comm] at hlt
      exact ⟨i, Nat.lt_of_mul_lt_mul_right hlt, by rw [Nat.mul_comm]; rfl⟩
  refine ⟨hstart, fun k ↦ ?_, fun k a ha ↦ ?_, ?_, ?_⟩
  · by_cases hk : k = lastOrder
    · subst hk
      simp only [update_self, List.nodup_reverse]
      refine List.Nodup.map (fun i i' h ↦ ?_) List.nodup_range
      exact Nat.eq_of_mul_eq_mul_right hpos (Nat.add_left_cancel h)
    · simp [hk]
  · obtain ⟨-, i, -, rfl⟩ := (hmem k a).mp ha
    exact Nat.le_add_right _ _
  · rw [hfree, Group.top]
    simp only [hj]
    exact Sound.coarsest pageSize_pos Orders.nsizes_pos (Nat.dvd_mul_left _ j)
  · rw [hfree]
    refine Parity.clear ?_
    rintro ⟨k, x⟩ ⟨hk, -⟩
    have hn := Orders.nsizes_pos
    simp only [] at hk ⊢
    omega

theorem pagegroupCreate_ok (hstart : PageAligned start)
    (h : pagegroupCreate start fin = .ok g) :
    g.pgBaseaddr = start ∧ g.pgEndaddr ≤ fin ∧ (g.pgBaseaddr < g.pgEndaddr → g.Inv ∅) := by
  unfold pagegroupCreate at h
  obtain ⟨-, -, h⟩ := bind_ok h
  obtain ⟨-, -, h⟩ := bind_ok h
  simp only [foldl_testBit] at h
  obtain ⟨-, -, h⟩ := bind_ok h
  rw [pure_eq_ok] at h
  subst h
  refine ⟨rfl, ?_, fun hlt ↦ inv_new hstart (last_eq hstart ?_ hlt.le)⟩
  · exact (Nat.div_mul_le_self _ _).trans ((foldl_sub_le _ _ _).trans (Nat.sub_le _ _))
  · exact Nat.mul_mod_left _ _

end CS402.Page

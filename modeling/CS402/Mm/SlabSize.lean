import CS402.Mm.Slab

/-!
# The size of a slab

`_calc_slab_size` looks for the order of blocks that wastes least, from the first one on in
which an object has room.  It computes in 32 bits and compares as `int`, so an object of
almost `2 ^ 31` bytes or more seems to have room everywhere: instead of panicking it takes a
block of one page for a slab, with no object in it or with more objects than there is room for.
-/

namespace CS402.Slabs

open Lib Page

/-! ## Without overflow -/

/-- The number of objects that have room in a block. -/
def capacity (objsize order : ℕ) : ℕ := (blockSize order - headerSize) / (objsize + bufctlSize)

/-- The bytes of a block that are not used. -/
def waste (objsize order : ℕ) : ℕ := blockSize order - slabSize objsize (capacity objsize order)

/-- **The geometry of a slab**: the objects have room in a block together with `struct slab`,
and among the orders from `minorder` on, the first that holds an object, no order wastes less
and no smaller one as little. -/
structure Geometry (objsize order nobjs : ℕ) : Prop where
  one : 1 ≤ nobjs
  fits : slabSize objsize nobjs ≤ blockSize order
  best : ∃ minorder, slabSize objsize 1 ≤ blockSize minorder ∧
    (∀ k < minorder, blockSize k < slabSize objsize 1) ∧
    (order = minorder ∨ minorder ≤ order ∧ order < slabMaxOrder) ∧
    ∀ k, minorder ≤ k → k < slabMaxOrder → waste objsize order ≤ waste objsize k ∧
      (waste objsize k = waste objsize order → order ≤ k)

variable {objsize order k : ℕ}

theorem blockSize_mono {l : ℕ} (h : k ≤ l) : blockSize k ≤ blockSize l :=
  Nat.mul_le_mul_right _ (Nat.pow_le_pow_right Nat.zero_lt_two h)

theorem blockSize_le (hk : k < 19) : blockSize k ≤ 2 ^ 30 :=
  (blockSize_mono (Nat.le_of_lt_succ hk)).trans_eq (by decide)

theorem headerSize_le (k : ℕ) : headerSize ≤ blockSize k :=
  (by decide : headerSize ≤ blockSize 0).trans (blockSize_mono k.zero_le)

theorem int32_blockSize (hk : k < 19) : int32 (blockSize k) = blockSize k := by
  have hle := blockSize_le hk
  rw [int32_of_range] <;> omega

theorem slabSize_capacity_le (objsize order : ℕ) :
    slabSize objsize (capacity objsize order) ≤ blockSize order := by
  have hle := Nat.div_mul_le_self (blockSize order - headerSize) (objsize + bufctlSize)
  have hheader := headerSize_le order
  unfold slabSize capacity
  omega

theorem slabNobjs_eq (h : slabSize objsize 1 < 2 ^ 31) (order : ℕ) :
    slabNobjs objsize order = capacity objsize order := by
  unfold slabSize headerSize at h
  rw [slabNobjs, capacity, Nat.mod_eq_of_lt (by omega)]

theorem slabWaste_eq (h : slabSize objsize 1 < 2 ^ 31) (hk : k < 19) :
    slabWaste objsize k = waste objsize k := by
  have hle := slabSize_capacity_le objsize k
  have hblock := blockSize_le hk
  rw [slabWaste, slabNobjs_eq h, Nat.mod_eq_of_lt (by omega), waste, Nat.cast_sub hle]
  rw [int32_of_range] <;> omega

/-! ## The two loops -/

/-- The first of the numbers from `lo` to `hi` at which `f` is least, with its value. -/
structure Least (f : ℕ → ℤ) (lo hi : ℕ) (best : ℕ × ℤ) : Prop where
  value : best.2 = f best.1
  range : lo ≤ best.1 ∧ best.1 ≤ hi
  least : ∀ k, lo ≤ k → k ≤ hi → f best.1 ≤ f k ∧ (f k = f best.1 → best.1 ≤ k)

theorem Least.turn {f : ℕ → ℤ} {lo hi : ℕ} {best : ℕ × ℤ} (h : Least f lo hi best) :
    Least f lo (hi + 1) (if f (hi + 1) < best.2 then (hi + 1, f (hi + 1)) else best) := by
  obtain ⟨hvalue, hrange, hleast⟩ := h
  split
  · next hlt =>
    refine ⟨rfl, ⟨by omega, le_rfl⟩, fun k hlo hhi ↦ ?_⟩
    rcases Nat.le_or_eq_of_le_succ hhi with hk | rfl
    · have hk := (hvalue ▸ hlt).trans_le (hleast k hlo hk).1
      exact ⟨hk.le, fun heq ↦ absurd heq hk.ne'⟩
    · exact ⟨le_rfl, fun _ ↦ le_rfl⟩
  · next hge =>
    refine ⟨hvalue, ⟨hrange.1, hrange.2.trans (Nat.le_succ hi)⟩, fun k hlo hhi ↦ ?_⟩
    rcases Nat.le_or_eq_of_le_succ hhi with hk | rfl
    · exact hleast k hlo hk
    · exact ⟨hvalue ▸ Int.not_lt.mp hge, fun _ ↦ hrange.2.trans (Nat.le_succ hi)⟩

theorem least_foldl (f : ℕ → ℤ) (lo n : ℕ) : Least f lo (lo + n)
    ((List.range' (lo + 1) n).foldl (fun best k ↦ if f k < best.2 then (k, f k) else best)
      (lo, f lo)) := by
  induction n with
  | zero =>
    refine ⟨rfl, ⟨le_rfl, le_rfl⟩, fun k hlo hhi ↦ ?_⟩
    obtain rfl : k = lo := Nat.le_antisymm hhi hlo
    exact ⟨le_rfl, fun _ ↦ le_rfl⟩
  | succ n ih =>
    rw [List.range'_1_concat, List.foldl_append, List.foldl_cons, List.foldl_nil,
      Nat.add_right_comm]
    exact ih.turn

theorem bestOrder_least (objsize minorder : ℕ) : Least (slabWaste objsize) minorder
    (minorder + (slabMaxOrder - (minorder + 1))) (bestOrder objsize minorder) :=
  least_foldl _ _ _

theorem bestOrder_cases (objsize minorder : ℕ) : (bestOrder objsize minorder).1 = minorder ∨
    minorder ≤ (bestOrder objsize minorder).1 ∧ (bestOrder objsize minorder).1 < slabMaxOrder := by
  have hrange := (bestOrder_least objsize minorder).range
  omega

variable [Orders]

theorem calcSlabSize_order {nobjs : ℕ} (h : calcSlabSize objsize = .ok (order, nobjs)) :
    order < nsizes ∨ order < slabMaxOrder := by
  unfold calcSlabSize at h
  simp only [] at h
  split at h
  · cases h
  · next minorder hfind =>
    obtain ⟨-, h⟩ := bind_demand h
    cases h
    have hmin := List.mem_range.mp (List.mem_of_find?_eq_some hfind)
    have hcases := bestOrder_cases objsize minorder
    omega

/-- Without overflow the slabs are what they should be, or no block is large enough. -/
theorem calcSlabSize_cases (h : slabSize objsize 1 < 2 ^ 31) :
    calcSlabSize objsize = .error .assertion ∨ ∃ order nobjs,
      calcSlabSize objsize = .ok (order, nobjs) ∧ Geometry objsize order nobjs := by
  have hint : int32 (slabSize objsize 1) = slabSize objsize 1 := by
    rw [int32_of_range] <;> omega
  have hone : objsize + bufctlSize + headerSize < 2 ^ 31 := by
    rwa [slabSize, Nat.one_mul] at h
  unfold calcSlabSize
  simp only [hint]
  split
  · exact .inl rfl
  next minorder hfind =>
  right
  obtain ⟨hroom, hmin, hfirst⟩ := List.find?_range_eq_some.mp hfind
  have hmin := (List.mem_range.mp hmin).trans_le Orders.nsizes_le
  have hint : ∀ k ≤ minorder, int32 (blockSize k) = blockSize k :=
    fun k hk ↦ int32_blockSize (hk.trans_lt hmin)
  rw [hint _ le_rfl, decide_eq_true_eq, Nat.cast_le] at hroom
  rw [demand_bind (by rw [Nat.mod_eq_of_lt (by omega)]; exact Nat.succ_ne_zero _)]
  -- all orders that are tried are small enough for an `int`
  have hleast := bestOrder_least objsize minorder
  have hcases := bestOrder_cases objsize minorder
  have hbest : (bestOrder objsize minorder).1 < 19 := by
    unfold slabMaxOrder at hcases
    omega
  refine ⟨_, _, rfl, ?_, ?_, minorder, hroom, fun k hk ↦ ?_, hcases, fun k hlo hhi ↦ ?_⟩
  · have hle := hroom.trans (blockSize_mono hleast.range.1)
    rw [slabSize, Nat.one_mul] at hle
    rw [slabNobjs_eq h]
    exact Nat.div_pos (by omega) (Nat.succ_pos _)
  · rw [slabNobjs_eq h]
    exact slabSize_capacity_le _ _
  · have hk' := hfirst k hk
    rw [hint k hk.le, Bool.not_eq_true', decide_eq_false_iff_not, Nat.cast_le] at hk'
    exact Nat.not_le.mp hk'
  · have hk := hleast.least k hlo (by omega)
    unfold slabMaxOrder at hhi
    rw [slabWaste_eq h (k := k) (by omega), slabWaste_eq h hbest] at hk
    exact_mod_cast hk

/-- **A slab is as it should be** if its size fits in an `int`.  Larger objects are not, unless
`_calc_slab_size` panics. -/
theorem calcSlabSize_geometry_iff (hpanic : calcSlabSize objsize ≠ .error .assertion) :
    (∃ order nobjs, calcSlabSize objsize = .ok (order, nobjs) ∧ Geometry objsize order nobjs) ↔
      objsize + bufctlSize + headerSize < 2 ^ 31 := by
  rw [show objsize + bufctlSize + headerSize = slabSize objsize 1 by rw [slabSize, Nat.one_mul]]
  refine ⟨?_, fun h ↦ (calcSlabSize_cases h).resolve_left hpanic⟩
  rintro ⟨order, nobjs, hok, hg⟩
  have horder : order < 19 := by
    have hle := Orders.nsizes_le
    have hlt := calcSlabSize_order hok
    unfold slabMaxOrder at hlt
    omega
  -- no block is so large that an object of `2 ^ 31` bytes has room in it
  calc slabSize objsize 1 ≤ slabSize objsize nobjs :=
        Nat.add_le_add_right (Nat.mul_le_mul_right _ hg.one) _
    _ ≤ blockSize order := hg.fits
    _ ≤ 2 ^ 30 := blockSize_le horder
    _ < 2 ^ 31 := by decide

omit [Orders] in
/-- Objects of two thousand bytes. -/
theorem calcSlabSize_geometry_2000 : letI := Orders.stock
    ∃ order nobjs, calcSlabSize 2000 = .ok (order, nobjs) ∧ Geometry 2000 order nobjs := by
  let := Orders.stock
  have hok : calcSlabSize 2000 = .ok (0, 2) := by decide +kernel
  exact (calcSlabSize_geometry_iff (by rw [hok]; simp)).mpr (by decide)

omit [Orders] in
/-- A slab for objects of `2 ^ 31` bytes has no objects, for `2 ^ 32 - 8` bytes the size is zero
where it is divided by, and of objects of `2 ^ 32 - 7` bytes there are 4080 in a page. -/
theorem calcSlabSize_large : letI := Orders.stock
    (calcSlabSize (2 ^ 31) = .ok (0, 0) ∧ ¬ Geometry (2 ^ 31) 0 0) ∧
    calcSlabSize (2 ^ 32 - 8) = .error .division ∧
    calcSlabSize (2 ^ 32 - 7) = .ok (0, 4080) ∧ ¬ Geometry (2 ^ 32 - 7) 0 4080 := by
  exact ⟨⟨by decide +kernel, fun h ↦ absurd h.one (by decide)⟩, by decide +kernel,
    by decide +kernel, fun h ↦ absurd h.fits (by decide)⟩

/-- `_allocator_init` finds a size for the slabs or panics, for objects of every size that
an `int` can hold. -/
theorem allocatorInit_cases {size : ℕ} (hn : slabMaxOrder ≤ nsizes) (hsize : slabSize size 1 < 2 ^ 31) :
    allocatorInit size = .error .assertion ∨
      ∃ a, allocatorInit size = .ok a ∧ a.saObjsize = size := by
  unfold allocatorInit
  rcases calcSlabSize_cases hsize with h | ⟨order, nobjs, h, hg⟩
  · rw [h]
    exact .inl rfl
  · have hlt : order < nsizes := by
      have := calcSlabSize_order h
      omega
    rw [h, ok_bind]
    exact .inr ⟨_, dif_pos ⟨hlt, hg.one, hg.fits⟩, rfl⟩

end CS402.Slabs

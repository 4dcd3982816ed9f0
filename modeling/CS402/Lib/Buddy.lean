import Mathlib.Data.Set.Lattice
import Mathlib.Order.CompletePartialOrder
import Mathlib.Data.Nat.Basic
import Mathlib.Tactic.Common
import Mathlib.Tactic.Ring
import Mathlib.Tactic.Linarith

/-!
# Buddy systems

A region of `top` units is divided into blocks.  A block of order `k` has the length
`2 ^ k * u` and starts at a multiple of its length; two blocks of one order that make
up a block of the next order are *buddies*.  Every block is free or in use.

`Sound` is the invariant of such a division: the blocks are disjoint and cover the
region, and two buddies are never both free, since they would have been merged.  The
four lemmas after it are the four ways in which a division changes: a free block is
taken, a block is given back, two buddies are merged, and a block is split.  Nothing in
`Sound` mentions the past, and so `Sound.eq_of_live_empty` says that the division is
the coarsest one whenever no block is in use, whatever happened before.

An implementation does not look for the buddy of a block in a list of free blocks but
keeps one bit for each pair of buddies.  `Parity` says what the bits have to be.
-/

namespace CS402.Lib.Buddy

variable {u n top k l x y z m p : ℕ} {b c : Block}

/-! ## Blocks and buddies -/

/-- The length of a block of order `k`. -/
def size (u k : ℕ) : ℕ := 2 ^ k * u

theorem size_pos (hu : 0 < u) (k : ℕ) : 0 < size u k := Nat.mul_pos (Nat.two_pow_pos k) hu

theorem size_succ (u k : ℕ) : size u (k + 1) = 2 * size u k := by
  unfold size
  ring

theorem size_dvd_size (u : ℕ) (h : k ≤ l) : size u k ∣ size u l :=
  Nat.mul_dvd_mul_right (Nat.pow_dvd_pow 2 h) u

theorem unit_dvd_size (u k : ℕ) : u ∣ size u k := Nat.dvd_mul_left u _

theorem nested {m' : ℕ} (hm : m ∣ m') (hx : m ∣ x) (hy : m' ∣ y) (h : x < y + m')
    (h' : y < x + m) : y ≤ x ∧ x + m ≤ y + m' := by
  have hym : m ∣ y := hm.trans hy
  refine ⟨Nat.le_of_lt_add_of_dvd h' hym hx, ?_⟩
  refine Nat.le_of_lt_add_of_dvd (by omega) (Nat.dvd_add hx dvd_rfl) ?_
  exact Nat.dvd_add hym hm

/-- The other half of the pair that the block of length `m` at `x` belongs to. -/
def buddy (m x : ℕ) : ℕ := if x / m % 2 = 1 then x - m else x + m

theorem buddy_of_dvd (hm : 0 < m) (h : 2 * m ∣ x) : buddy m x = x + m := by
  obtain ⟨c, rfl⟩ := h
  have hdiv : 2 * m * c / m = 2 * c := by
    rw [Nat.mul_right_comm, Nat.mul_div_cancel _ hm]
  simp [buddy, hdiv]

theorem buddy_add_of_dvd (hm : 0 < m) (h : 2 * m ∣ x) : buddy m (x + m) = x := by
  obtain ⟨c, rfl⟩ := h
  have hdiv : (2 * m * c + m) / m = 2 * c + 1 := by
    rw [Nat.add_div_right _ hm, Nat.mul_right_comm, Nat.mul_div_cancel _ hm]
  have hodd : (2 * c + 1) % 2 = 1 := by omega
  simp [buddy, hdiv, hodd]

theorem half_cases (h : m ∣ x) : 2 * m ∣ x ∨ ∃ p, 2 * m ∣ p ∧ x = p + m := by
  obtain ⟨c, rfl⟩ := h
  rcases Nat.even_or_odd' c with ⟨d, rfl | rfl⟩
  · exact .inl ⟨d, by ring⟩
  · exact .inr ⟨2 * m * d, dvd_mul_right _ _, by ring⟩

theorem buddy_ne (hm : 0 < m) (h : m ∣ x) : buddy m x ≠ x := by
  rcases half_cases h with hx | ⟨p, hp, rfl⟩
  · rw [buddy_of_dvd hm hx]
    omega
  · rw [buddy_add_of_dvd hm hp]
    omega

theorem dvd_buddy (hm : 0 < m) (h : m ∣ x) : m ∣ buddy m x := by
  rcases half_cases h with hx | ⟨p, hp, rfl⟩
  · rw [buddy_of_dvd hm hx]
    exact Nat.dvd_add h dvd_rfl
  · rw [buddy_add_of_dvd hm hp]
    exact (Nat.dvd_mul_left m 2).trans hp

theorem buddy_buddy (hm : 0 < m) (h : m ∣ x) : buddy m (buddy m x) = x := by
  rcases half_cases h with hx | ⟨p, hp, rfl⟩
  · rw [buddy_of_dvd hm hx, buddy_add_of_dvd hm hx]
  · rw [buddy_add_of_dvd hm hp, buddy_of_dvd hm hp]

theorem dvd_min_buddy (hm : 0 < m) (h : m ∣ x) : 2 * m ∣ min x (buddy m x) := by
  rcases half_cases h with hx | ⟨p, hp, rfl⟩
  · rwa [buddy_of_dvd hm hx, min_eq_left (Nat.le_add_right x m)]
  · rwa [buddy_add_of_dvd hm hp, min_eq_right (Nat.le_add_right p m)]

theorem add_half_div (hm : 0 < m) (h : 2 * m ∣ x) : (x + m) / (2 * m) = x / (2 * m) := by
  obtain ⟨c, rfl⟩ := h
  rw [Nat.mul_add_div (by omega), Nat.mul_div_cancel_left c (by omega), Nat.div_eq_of_lt (by omega),
    Nat.add_zero]

theorem div_buddy (hm : 0 < m) (h : m ∣ x) : buddy m x / (2 * m) = x / (2 * m) := by
  rcases half_cases h with hx | ⟨p, hp, rfl⟩
  · rw [buddy_of_dvd hm hx, add_half_div hm hx]
  · rw [buddy_add_of_dvd hm hp, add_half_div hm hp]

/-! ## Divisions -/

/-- A block: its order and where it starts. -/
abbrev Block := ℕ × ℕ

/-- The block holds the unit `z`. -/
def Holds (u : ℕ) (b : Block) (z : ℕ) : Prop := b.2 ≤ z ∧ z < b.2 + size u b.1

/-- Two blocks have a unit in common. -/
def Overlap (u : ℕ) (b c : Block) : Prop := b.2 < c.2 + size u c.1 ∧ c.2 < b.2 + size u b.1

theorem Overlap.symm (h : Overlap u b c) : Overlap u c b := ⟨h.2, h.1⟩

theorem Holds.overlap (h : Holds u b z) (h' : Holds u c z) : Overlap u b c :=
  ⟨h.1.trans_lt h'.2, h'.1.trans_lt h.2⟩

/-- The blocks of a division of `top` units, with orders below `n`. -/
structure Tiling (u n top : ℕ) (B : Set Block) : Prop where
  order : ∀ b ∈ B, b.1 < n
  aligned : ∀ b ∈ B, size u b.1 ∣ b.2
  inside : ∀ b ∈ B, b.2 + size u b.1 ≤ top
  apart : ∀ b ∈ B, ∀ c ∈ B, Overlap u b c → b = c
  cover : ∀ z < top, ∃ b ∈ B, Holds u b z

theorem holds_succ : Holds u (k + 1, p) z ↔ Holds u (k, p) z ∨ Holds u (k, p + size u k) z := by
  simp only [Holds, size_succ]
  omega

theorem overlap_iff (hu : 0 < u) : Overlap u b c ↔ ∃ z, Holds u b z ∧ Holds u c z := by
  refine ⟨fun h ↦ ⟨max b.2 c.2, ?_⟩, fun ⟨z, hb, hc⟩ ↦ hb.overlap hc⟩
  have hb := size_pos hu b.1
  have hc := size_pos hu c.1
  obtain ⟨h₁, h₂⟩ := h
  unfold Holds
  omega

theorem overlap_self (hu : 0 < u) (b : Block) : Overlap u b b := by
  have hb := size_pos hu b.1
  exact ⟨by omega, by omega⟩

theorem overlap_succ (hu : 0 < u) :
    Overlap u (k + 1, p) c ↔ Overlap u (k, p) c ∨ Overlap u (k, p + size u k) c := by
  simp only [overlap_iff hu, holds_succ, or_and_right, exists_or]

theorem not_overlap_halves : ¬Overlap u (k, p) (k, p + size u k) :=
  fun h ↦ Nat.lt_irrefl _ h.2

namespace Tiling

variable {B : Set Block} {p : ℕ}

theorem split (hu : 0 < u) (hB : Tiling u n top B) (h : (k + 1, p) ∈ B) :
    Tiling u n top (insert (k, p) (insert (k, p + size u k) (B \ {(k + 1, p)}))) := by
  have hord := hB.order _ h
  have hal : 2 * size u k ∣ p := size_succ u k ▸ hB.aligned _ h
  have hin : p + 2 * size u k ≤ top := size_succ u k ▸ hB.inside _ h
  have hhalf : size u k ∣ p := (Nat.dvd_mul_left _ 2).trans hal
  -- what overlaps a half overlapped the block, and was the block
  have hout : ∀ c ∈ B \ {(k + 1, p)}, ¬Overlap u (k, p) c ∧ ¬Overlap u (k, p + size u k) c := by
    rintro c ⟨hc, hne⟩
    refine ⟨fun ho ↦ hne ?_, fun ho ↦ hne ?_⟩
    · exact (hB.apart _ h c hc ((overlap_succ hu).mpr (.inl ho))).symm
    · exact (hB.apart _ h c hc ((overlap_succ hu).mpr (.inr ho))).symm
  refine ⟨?_, ?_, ?_, ?_, fun z hz ↦ ?_⟩
  · rintro b (rfl | rfl | ⟨hb, -⟩)
    · exact Nat.lt_of_succ_lt hord
    · exact Nat.lt_of_succ_lt hord
    · exact hB.order b hb
  · rintro b (rfl | rfl | ⟨hb, -⟩)
    · exact hhalf
    · exact Nat.dvd_add hhalf dvd_rfl
    · exact hB.aligned b hb
  · rintro b (rfl | rfl | ⟨hb, -⟩)
    · show p + size u k ≤ top
      omega
    · show p + size u k + size u k ≤ top
      omega
    · exact hB.inside b hb
  · rintro b (rfl | rfl | hb) c (rfl | rfl | hc) ho
    · rfl
    · exact absurd ho not_overlap_halves
    · exact absurd ho (hout c hc).1
    · exact absurd ho.symm not_overlap_halves
    · rfl
    · exact absurd ho (hout c hc).2
    · exact absurd ho.symm (hout b hb).1
    · exact absurd ho.symm (hout b hb).2
    · exact hB.apart b hb.1 c hc.1 ho
  · obtain ⟨b, hb, hz⟩ := hB.cover z hz
    by_cases hbp : b = (k + 1, p)
    · subst hbp
      rcases holds_succ.mp hz with hz | hz
      · exact ⟨_, .inl rfl, hz⟩
      · exact ⟨_, .inr (.inl rfl), hz⟩
    · exact ⟨b, .inr (.inr ⟨hb, hbp⟩), hz⟩

/-- Two buddies are replaced by the block they make up. -/
theorem merge (hu : 0 < u) (hB : Tiling u n top B) (hk : k + 1 < n) (hp : 2 * size u k ∣ p)
    (h : (k, p) ∈ B) (h' : (k, p + size u k) ∈ B) :
    Tiling u n top (insert (k + 1, p) (B \ {(k, p), (k, p + size u k)})) := by
  have hout : ∀ c ∈ B \ {(k, p), (k, p + size u k)}, ¬Overlap u (k + 1, p) c := by
    rintro c ⟨hc, hne⟩ ho
    rcases (overlap_succ hu).mp ho with ho | ho
    · exact hne (.inl (hB.apart _ h c hc ho).symm)
    · exact hne (.inr (hB.apart _ h' c hc ho).symm)
  have hin : p + size u k + size u k ≤ top := hB.inside _ h'
  refine ⟨?_, ?_, ?_, ?_, fun z hz ↦ ?_⟩
  · rintro b (rfl | ⟨hb, -⟩)
    · exact hk
    · exact hB.order b hb
  · rintro b (rfl | ⟨hb, -⟩)
    · exact (size_succ u k).symm ▸ hp
    · exact hB.aligned b hb
  · rintro b (rfl | ⟨hb, -⟩)
    · show p + size u (k + 1) ≤ top
      rw [size_succ]
      omega
    · exact hB.inside b hb
  · rintro b (rfl | hb) c (rfl | hc) ho
    · rfl
    · exact absurd ho (hout c hc)
    · exact absurd ho.symm (hout b hb)
    · exact hB.apart b hb.1 c hc.1 ho
  · obtain ⟨b, hb, hz⟩ := hB.cover z hz
    by_cases hbp : b ∈ ({(k, p), (k, p + size u k)} : Set Block)
    · refine ⟨_, .inl rfl, holds_succ.mpr ?_⟩
      rcases hbp with rfl | rfl
      · exact .inl hz
      · exact .inr hz
    · exact ⟨b, .inr ⟨hb, hbp⟩, hz⟩

theorem eq_of_order (hu : 0 < u) (hB : Tiling u n top B)
    (h : ∀ b ∈ B, b.1 = n - 1) : B = {b | b.1 = n - 1 ∧ size u (n - 1) ∣ b.2 ∧ b.2 < top} := by
  have hm := size_pos hu (n - 1)
  ext ⟨k, x⟩
  constructor
  · intro hb
    obtain rfl : k = n - 1 := h _ hb
    have hin : x + size u (n - 1) ≤ top := hB.inside _ hb
    exact ⟨rfl, hB.aligned _ hb, by show x < top; omega⟩
  · rintro ⟨rfl, hx, hlt⟩
    obtain ⟨⟨l, y⟩, hb, hz⟩ := hB.cover x hlt
    obtain rfl : l = n - 1 := h _ hb
    have hy : size u (n - 1) ∣ y := hB.aligned _ hb
    -- the block that covers `x` starts at a multiple too
    obtain ⟨hle, hge⟩ := nested dvd_rfl hx hy hz.2 (Nat.lt_of_le_of_lt hz.1 (by omega))
    obtain rfl : x = y := by omega
    exact hb

end Tiling

/-- The invariant of a buddy system. -/
structure Sound (u n top : ℕ) (free live : Set Block) : Prop where
  tiling : Tiling u n top (free ∪ live)
  once : Disjoint free live
  /-- Buddies that are both free would have been merged. -/
  merged : ∀ k x, k + 1 < n → (k, x) ∈ free → (k, buddy (size u k) x) ∉ free

namespace Sound

variable {free live : Set Block} {b : Block} {p : ℕ}

theorem notMem_live (h : Sound u n top free live) (hb : b ∈ free) : b ∉ live :=
  Set.disjoint_left.mp h.once hb

theorem take (h : Sound u n top free live) (hb : b ∈ free) :
    Sound u n top (free \ {b}) (insert b live) where
  tiling := by
    have hB : free \ {b} ∪ insert b live = free ∪ live := by
      rw [Set.union_insert, ← Set.insert_union, Set.insert_sdiff_singleton,
        Set.insert_eq_of_mem hb]
    exact hB ▸ h.tiling
  once := by
    rw [Set.disjoint_left]
    rintro c ⟨hc, hne⟩ (rfl | hl)
    · exact hne rfl
    · exact h.notMem_live hc hl
  merged k x hk hx hy := h.merged k x hk hx.1 hy.1

theorem give (h : Sound u n top free (insert b live)) (hu : 0 < u) (hb : b ∉ live)
    (hbuddy : b.1 + 1 < n → (b.1, buddy (size u b.1) b.2) ∉ free) :
    Sound u n top (insert b free) live where
  tiling := by
    have hB : insert b free ∪ live = free ∪ insert b live := by
      rw [Set.insert_union, Set.union_insert]
    exact hB ▸ h.tiling
  once := by
    rw [Set.disjoint_left]
    rintro c (rfl | hc) hl
    · exact hb hl
    · exact h.notMem_live hc (.inr hl)
  merged k x hk hx hy := by
    have hal : size u b.1 ∣ b.2 := h.tiling.aligned b (.inr (.inl rfl))
    rcases hx with rfl | hx <;> rcases hy with hy | hy
    · have hxy : buddy (size u k) x = x := congrArg Prod.snd hy
      exact buddy_ne (size_pos hu k) hal hxy
    · exact hbuddy hk hy
    · obtain rfl : (k, buddy (size u k) x) = b := hy
      refine hbuddy hk ?_
      rw [buddy_buddy (size_pos hu k) (h.tiling.aligned _ (.inl hx))]
      exact hx
    · exact h.merged k x hk hx hy

theorem notMem_of_overlap (h : Sound u n top free (insert b live)) (hne : c ≠ b)
    (hov : Overlap u c b) : c ∉ free ∧ c ∉ live := by
  refine ⟨fun hc ↦ hne ?_, fun hc ↦ hne ?_⟩
  · exact h.tiling.apart c (.inl hc) b (.inr (.inl rfl)) hov
  · exact h.tiling.apart c (.inr (.inr hc)) b (.inr (.inl rfl)) hov

/-- A block in use is merged with its free buddy. -/
theorem merge (h : Sound u n top free (insert (k, x) live)) (hu : 0 < u) (hk : k + 1 < n)
    (hb : (k, x) ∉ live) (hbuddy : (k, buddy (size u k) x) ∈ free) :
    Sound u n top (free \ {(k, buddy (size u k) x)})
        (insert (k + 1, min x (buddy (size u k) x)) live) ∧
      (k + 1, min x (buddy (size u k) x)) ∉ live := by
  have hm := size_pos hu k
  have hal : size u k ∣ x := h.tiling.aligned _ (.inr (.inl rfl))
  have hpar := dvd_min_buddy hm hal
  -- the pair, first half first
  obtain ⟨p, hp, hpair⟩ : ∃ p, min x (buddy (size u k) x) = p ∧
      ({(k, p), (k, p + size u k)} : Set Block) = {(k, x), (k, buddy (size u k) x)} := by
    rcases half_cases hal with hx | ⟨p, hp, rfl⟩
    · refine ⟨x, ?_, ?_⟩
      · rw [buddy_of_dvd hm hx, min_eq_left (Nat.le_add_right x _)]
      · rw [buddy_of_dvd hm hx]
    · refine ⟨p, ?_, ?_⟩
      · rw [buddy_add_of_dvd hm hp, min_eq_right (Nat.le_add_right p _)]
      · rw [buddy_add_of_dvd hm hp, Set.pair_comm]
  have hmem : ∀ c ∈ ({(k, p), (k, p + size u k)} : Set Block), c ∈ free ∪ insert (k, x) live := by
    rw [hpair]
    rintro c (rfl | rfl)
    · exact .inr (.inl rfl)
    · exact .inl hbuddy
  have htile := h.tiling.merge hu hk (hp ▸ hpar) (hmem _ (.inl rfl)) (hmem _ (.inr rfl))
  rw [hpair] at htile
  -- the merged block is new: it overlaps both of its halves
  have hnew : (k + 1, p) ∉ free ∧ (k + 1, p) ∉ live := by
    refine h.notMem_of_overlap (fun heq ↦ absurd (congrArg Prod.fst heq) (by simp)) ?_
    have hx : (k, x) ∈ ({(k, p), (k, p + size u k)} : Set Block) := hpair ▸ .inl rfl
    rcases hx with hx | hx
    · exact (overlap_succ hu).mpr (.inl (hx ▸ overlap_self hu _))
    · exact (overlap_succ hu).mpr (.inr (hx ▸ overlap_self hu _))
  rw [hp]
  refine ⟨⟨?_, ?_, fun j y hj hy hy' ↦ h.merged j y hj hy.1 hy'.1⟩, hnew.2⟩
  · convert htile using 1
    ext c
    have hfx : c ∈ free → c ≠ (k, x) := fun hc hcx ↦ h.notMem_live hc (.inl hcx)
    have hlx : c ∈ live → c ≠ (k, x) := fun hc hcx ↦ hb (hcx ▸ hc)
    have hlb : c ∈ live → c ≠ (k, buddy (size u k) x) := fun hc hcx ↦
      h.notMem_live hbuddy (.inr (hcx ▸ hc))
    simp only [Set.mem_union, Set.mem_sdiff, Set.mem_insert_iff, Set.mem_singleton_iff]
    constructor
    · rintro (⟨hc, hne⟩ | rfl | hc)
      · exact .inr ⟨.inl hc, fun hor ↦ hor.elim (hfx hc) hne⟩
      · exact .inl rfl
      · exact .inr ⟨.inr (.inr hc), fun hor ↦ hor.elim (hlx hc) (hlb hc)⟩
    · rintro (rfl | ⟨hc | hc | hc, hne⟩)
      · exact .inr (.inl rfl)
      · exact .inl ⟨hc, fun hcb ↦ hne (.inr hcb)⟩
      · exact absurd (.inl hc) hne
      · exact .inr (.inr hc)
  · rw [Set.disjoint_left]
    rintro c ⟨hc, -⟩ (rfl | hl)
    · exact hnew.1 hc
    · exact h.notMem_live hc (.inr hl)

/-- A block in use is split, and its first half is free. -/
theorem split (h : Sound u n top free (insert (k + 1, p) live)) (hu : 0 < u)
    (hb : (k + 1, p) ∉ live) :
    Sound u n top (insert (k, p) free) (insert (k, p + size u k) live) ∧
      (k, p) ∉ free ∧ (k, p + size u k) ∉ free ∧ (k, p + size u k) ∉ live := by
  have hm := size_pos hu k
  have hal : 2 * size u k ∣ p := size_succ u k ▸ h.tiling.aligned _ (.inr (.inl rfl))
  have htile := h.tiling.split hu (.inr (.inl rfl))
  -- the halves are new: they overlap the block
  have hfst : (k, p) ∉ free ∧ (k, p) ∉ live :=
    h.notMem_of_overlap (fun heq ↦ absurd (congrArg Prod.fst heq) (by simp))
      ((overlap_succ hu).mpr (.inl (overlap_self hu _))).symm
  have hsnd : (k, p + size u k) ∉ free ∧ (k, p + size u k) ∉ live :=
    h.notMem_of_overlap (fun heq ↦ absurd (congrArg Prod.fst heq) (by simp))
      ((overlap_succ hu).mpr (.inr (overlap_self hu _))).symm
  refine ⟨⟨?_, ?_, fun j y hj hy hy' ↦ ?_⟩, hfst.1, hsnd⟩
  · convert htile using 1
    ext c
    have hfp : c ∈ free → c ≠ (k + 1, p) := fun hc hcx ↦ h.notMem_live hc (.inl hcx)
    have hlp : c ∈ live → c ≠ (k + 1, p) := fun hc hcx ↦ hb (hcx ▸ hc)
    simp only [Set.mem_union, Set.mem_sdiff, Set.mem_insert_iff, Set.mem_singleton_iff]
    constructor
    · rintro ((rfl | hc) | rfl | hc)
      · exact .inl rfl
      · exact .inr (.inr ⟨.inl hc, hfp hc⟩)
      · exact .inr (.inl rfl)
      · exact .inr (.inr ⟨.inr (.inr hc), hlp hc⟩)
    · rintro (rfl | rfl | ⟨hc | hc | hc, hne⟩)
      · exact .inl (.inl rfl)
      · exact .inr (.inl rfl)
      · exact .inl (.inr hc)
      · exact absurd hc hne
      · exact .inr (.inr hc)
  · rw [Set.disjoint_left]
    rintro c (rfl | hc) (hcl | hl)
    · have hpp : p = p + size u k := congrArg Prod.snd hcl
      omega
    · exact hfst.2 hl
    · exact hsnd.1 (hcl ▸ hc)
    · exact h.notMem_live hc (.inr hl)
  · rcases hy with hy | hy <;> rcases hy' with hy' | hy'
    · obtain ⟨rfl, rfl⟩ : j = k ∧ y = p := Prod.mk.inj hy
      rw [buddy_of_dvd hm hal] at hy'
      exact absurd (congrArg Prod.snd hy') (by simp only []; omega)
    · obtain ⟨rfl, rfl⟩ : j = k ∧ y = p := Prod.mk.inj hy
      rw [buddy_of_dvd hm hal] at hy'
      exact hsnd.1 hy'
    · obtain ⟨rfl, hyp⟩ : j = k ∧ buddy (size u j) y = p := Prod.mk.inj hy'
      have hyal : size u j ∣ y := h.tiling.aligned _ (.inl hy)
      have hyb : y = p + size u j := by
        rw [← buddy_buddy hm hyal, hyp, buddy_of_dvd hm hal]
      exact hsnd.1 (hyb ▸ hy)
    · exact h.merged j y hj hy hy'

/-- The division into blocks of the largest order, all of them free. -/
theorem coarsest (hu : 0 < u) (hn : 0 < n) (htop : size u (n - 1) ∣ top) :
    Sound u n top {b | b.1 = n - 1 ∧ size u (n - 1) ∣ b.2 ∧ b.2 < top} ∅ where
  tiling := by
    have hm := size_pos hu (n - 1)
    rw [Set.union_empty]
    refine ⟨?_, ?_, ?_, ?_, fun z hz ↦ ?_⟩
    · rintro ⟨k, x⟩ ⟨rfl, -⟩
      exact Nat.sub_one_lt_of_lt hn
    · rintro ⟨k, x⟩ ⟨rfl, hx, -⟩
      exact hx
    · rintro ⟨k, x⟩ ⟨rfl, hx, hlt⟩
      show x + size u (n - 1) ≤ top
      have hlt : x < top := hlt
      exact Nat.le_of_lt_add_of_dvd (by omega) (Nat.dvd_add hx dvd_rfl) htop
    · rintro ⟨k, x⟩ ⟨rfl, hx, -⟩ ⟨l, y⟩ ⟨hl, hy, -⟩ hov
      obtain rfl : l = n - 1 := hl
      obtain ⟨hle, hge⟩ := nested dvd_rfl hx hy hov.1 hov.2
      obtain rfl : x = y := by omega
      rfl
    · refine ⟨(n - 1, z / size u (n - 1) * size u (n - 1)), ⟨rfl, Nat.dvd_mul_left _ _, ?_⟩, ?_, ?_⟩
      · exact (Nat.div_mul_le_self z _).trans_lt hz
      · exact Nat.div_mul_le_self z _
      · exact Nat.lt_div_mul_add hm
  once := Set.disjoint_empty _
  merged := by
    rintro k x hk ⟨rfl, -⟩
    omega

/-- Where every unit of an aligned stretch is free, a free block holds the whole stretch. -/
theorem exists_free (h : Sound u n top free live) (hu : 0 < u) (hk : k < n) (hx : size u k ∣ x)
    (hcover : ∀ z, x ≤ z → z < x + size u k → ∃ b ∈ free, Holds u b z) :
    ∃ b ∈ free, k ≤ b.1 ∧ b.2 ≤ x ∧ x + size u k ≤ b.2 + size u b.1 := by
  -- a free block of a large enough order that meets the stretch holds it
  have hwhole : ∀ {j y : ℕ} {b : Block}, b ∈ free → j ≤ b.1 → size u j ∣ y →
      y < b.2 + size u b.1 → b.2 < y + size u j →
      b.2 ≤ y ∧ y + size u j ≤ b.2 + size u b.1 := fun hb hj hy h₁ h₂ ↦
    nested (size_dvd_size u hj) hy (h.tiling.aligned _ (.inl hb)) h₁ h₂
  induction k generalizing x with
  | zero =>
    have hpos := size_pos hu 0
    obtain ⟨b, hb, hle, hlt⟩ := hcover x le_rfl (by omega)
    exact ⟨b, hb, Nat.zero_le _, hwhole hb (Nat.zero_le _) hx hlt (by omega)⟩
  | succ k ih =>
    have hm := size_pos hu k
    have hsucc := size_succ u k
    rw [hsucc] at hx hcover
    have hhalf : size u k ∣ x := (Nat.dvd_mul_left _ 2).trans hx
    obtain ⟨b, hb, hkb, hb₁, hb₂⟩ := ih (by omega) hhalf
      fun z hz hz' ↦ hcover z hz (by omega)
    obtain ⟨c, hc, hkc, hc₁, hc₂⟩ := ih (by omega) (Nat.dvd_add hhalf dvd_rfl)
      fun z hz hz' ↦ hcover z (by omega) (by omega)
    by_cases hkb' : k + 1 ≤ b.1
    · exact ⟨b, hb, hkb', hwhole hb hkb' (hsucc ▸ hx) (by omega) (by omega)⟩
    by_cases hkc' : k + 1 ≤ c.1
    · exact ⟨c, hc, hkc', hwhole hc hkc' (hsucc ▸ hx) (by omega) (by omega)⟩
    -- otherwise both halves are free, and they would have been merged
    obtain ⟨kb, xb⟩ := b
    obtain ⟨kc, xc⟩ := c
    simp only [] at *
    obtain rfl : kb = k := by omega
    obtain rfl : kc = kb := by omega
    obtain rfl : xb = x := by omega
    obtain rfl : xc = xb + size u kc := by omega
    refine absurd hc ?_
    rw [← buddy_of_dvd hm hx]
    exact h.merged kc xb hk hb

/-- A free block of an order below the largest one has a part of its buddy in use. -/
theorem exists_live (h : Sound u n top free live) (hu : 0 < u) (htop : size u (n - 1) ∣ top)
    (hk : k + 1 < n) (hb : (k, x) ∈ free) : live.Nonempty := by
  -- by induction on the order: a smallest block in the buddy has the same property
  induction k using Nat.strong_induction_on generalizing x with
  | _ k ih =>
    have hm := size_pos hu k
    have hal : size u k ∣ x := h.tiling.aligned _ (.inl hb)
    have hin : x + size u k ≤ top := h.tiling.inside _ (.inl hb)
    have hbal := dvd_buddy hm hal
    have hbin : buddy (size u k) x < top := by
      rcases half_cases hal with hx | ⟨p, hp, rfl⟩
      · rw [buddy_of_dvd hm hx]
        have hpair : 2 * size u k ∣ top :=
          (size_succ u k ▸ size_dvd_size u (Nat.le_sub_one_of_lt hk)).trans htop
        -- `top` is a multiple of the pair, and so the pair is inside
        have hle : x + 2 * size u k ≤ top :=
          Nat.le_of_lt_add_of_dvd (by omega) (Nat.dvd_add hx dvd_rfl) hpair
        omega
      · rw [buddy_add_of_dvd hm hp]
        omega
    obtain ⟨⟨l, y⟩, hc, hz⟩ := h.tiling.cover _ hbin
    rcases hc with hc | hc
    swap
    · exact ⟨_, hc⟩
    have hyal : size u l ∣ y := h.tiling.aligned _ (.inl hc)
    have hz₁ : y ≤ buddy (size u k) x := hz.1
    have hz₂ : buddy (size u k) x < y + size u l := hz.2
    rcases Nat.lt_trichotomy l k with hlk | rfl | hlk
    · exact ih l hlk (by omega) hc
    · -- the buddy itself would be free
      obtain ⟨hle, -⟩ := nested dvd_rfl hbal hyal hz₂ (by omega)
      obtain ⟨-, hge⟩ := nested dvd_rfl hbal hyal hz₂ (by omega)
      obtain rfl : y = buddy (size u l) x := by omega
      exact absurd hc (h.merged l x hk hb)
    · -- a larger block that holds the buddy holds the block too
      exfalso
      have hdvd : 2 * size u k ∣ size u l := size_succ u k ▸ size_dvd_size u hlk
      have hpar := dvd_min_buddy hm hal
      have hov : Overlap u (k, x) (l, y) := by
        have hpair : (x = min x (buddy (size u k) x) ∨
            x = min x (buddy (size u k) x) + size u k) ∧
            buddy (size u k) x < min x (buddy (size u k) x) + 2 * size u k ∧
            min x (buddy (size u k) x) ≤ buddy (size u k) x := by
          rcases half_cases hal with hx | ⟨p, hp, rfl⟩
          · rw [buddy_of_dvd hm hx]
            omega
          · rw [buddy_add_of_dvd hm hp]
            omega
        obtain ⟨hle, hge⟩ := nested hdvd hpar hyal (by omega) (by omega)
        exact ⟨by show x < y + size u l; omega, by show y < x + size u k; omega⟩
      have heq := h.tiling.apart _ (.inl hb) _ (.inl hc) hov
      have hkl : k = l := congrArg Prod.fst heq
      omega

/-- **Full coalescing.**  When no block is in use, the free blocks are those of the
largest order. -/
theorem eq_of_live_empty (h : Sound u n top free ∅) (hu : 0 < u)
    (htop : size u (n - 1) ∣ top) :
    free = {b | b.1 = n - 1 ∧ size u (n - 1) ∣ b.2 ∧ b.2 < top} := by
  have hB : free ∪ ∅ = free := Set.union_empty free
  refine Tiling.eq_of_order hu (hB ▸ h.tiling) ?_
  rintro ⟨k, x⟩ hb
  by_contra hk
  have hlt : k < n := h.tiling.order _ (.inl hb)
  have hlt' : k + 1 < n := by
    have : k ≠ n - 1 := hk
    omega
  obtain ⟨c, hc⟩ := h.exists_live hu htop hlt' hb
  exact hc

end Sound

/-! ## One bit for each pair -/

/-- The bit of a pair says whether exactly one of its halves is free. -/
def Parity (u n : ℕ) (free : Set Block) (bit : ℕ → ℕ → Bool) : Prop :=
  ∀ k i, k + 1 < n → (bit (k + 1) i = true ↔
    ((k, i * (2 * size u k)) ∈ free ↔ (k, i * (2 * size u k) + size u k) ∉ free))

/-- One bit is flipped. -/
def flip (bit : ℕ → ℕ → Bool) (k i : ℕ) : ℕ → ℕ → Bool :=
  Function.update bit k (Function.update (bit k) i (!bit k i))

theorem flip_flip (bit : ℕ → ℕ → Bool) (k i : ℕ) : flip (flip bit k i) k i = bit := by
  simp [flip]

theorem eq_or_eq_of_dvd (hm : 0 < m) (h : m ∣ x) :
    x = x / (2 * m) * (2 * m) ∨ x = x / (2 * m) * (2 * m) + m := by
  rcases half_cases h with hx | ⟨p, hp, rfl⟩
  · exact .inl (Nat.div_mul_cancel hx).symm
  · rw [add_half_div hm hp, Nat.div_mul_cancel hp]
    exact .inr rfl

theorem div_mul_add_half {i : ℕ} (hm : 0 < m) : (i * (2 * m) + m) / (2 * m) = i := by
  rw [add_half_div hm (Nat.dvd_mul_left _ _), Nat.mul_div_cancel i (by omega)]

namespace Parity

variable {free free' : Set Block} {bit : ℕ → ℕ → Bool}

section

variable (hP : Parity u n free bit) (hu : 0 < u) (hx : size u k ∣ x)
include hP hu hx

/-- One block becomes free or ceases to be, and the bit of its pair is flipped. -/
theorem toggle
    (hother : ∀ c, c ≠ (k, x) → (c ∈ free' ↔ c ∈ free))
    (hself : (k, x) ∈ free' ↔ (k, x) ∉ free) :
    Parity u n free' (flip bit (k + 1) (x / (2 * size u k))) := by
  intro j i hj
  have hm := size_pos hu k
  have hbit := hP j i hj
  by_cases hjk : j = k
  swap
  · have hne : j + 1 ≠ k + 1 := by omega
    rw [flip, Function.update_of_ne hne, hother _ fun h ↦ hjk (congrArg Prod.fst h),
      hother _ fun h ↦ hjk (congrArg Prod.fst h)]
    exact hbit
  subst hjk
  by_cases hi : i = x / (2 * size u j)
  · have hflip : flip bit (j + 1) (x / (2 * size u j)) (j + 1) i = !bit (j + 1) i := by
      simp [flip, hi]
    rw [hflip, Bool.not_eq_true', ← Bool.not_eq_true, hbit]
    rcases eq_or_eq_of_dvd hm hx with hfst | hsnd
    · rw [← hi] at hfst
      rw [← hfst, hself, hother (j, x + size u j) fun h ↦ by
        have hxx : x + size u j = x := congrArg Prod.snd h
        omega]
      grind
    · rw [← hi] at hsnd
      rw [← hsnd, hself, hother (j, i * (2 * size u j)) fun h ↦ by
        have hxx : i * (2 * size u j) = x := congrArg Prod.snd h
        omega]
      grind
  · have hflip : flip bit (j + 1) (x / (2 * size u j)) (j + 1) i = bit (j + 1) i := by
      simp [flip, hi]
    -- neither half of this pair is the block
    have hfst : i * (2 * size u j) ≠ x := fun h ↦ hi (by
      rw [← h, Nat.mul_div_cancel i (by omega)])
    have hsnd : i * (2 * size u j) + size u j ≠ x := fun h ↦ hi (by
      rw [← h, div_mul_add_half hm])
    rw [hflip, hother _ fun h ↦ hfst (congrArg Prod.snd h),
      hother _ fun h ↦ hsnd (congrArg Prod.snd h)]
    exact hbit

theorem insert
    (hb : (k, x) ∉ free) :
    Parity u n (insert (k, x) free) (flip bit (k + 1) (x / (2 * size u k))) :=
  hP.toggle hu hx (fun _ hc ↦ by simp [hc]) (by simp [hb])

theorem erase (hb : (k, x) ∈ free) :
    Parity u n (free \ {(k, x)}) (flip bit (k + 1) (x / (2 * size u k))) :=
  hP.toggle hu hx (fun _ hc ↦ by simp [hc]) (by simp [hb])

end

theorem buddy_iff (hP : Parity u n free bit) (hu : 0 < u) (hk : k + 1 < n) (hx : size u k ∣ x)
    (hb : (k, x) ∉ free) :
    bit (k + 1) (x / (2 * size u k)) = true ↔ (k, buddy (size u k) x) ∈ free := by
  have hm := size_pos hu k
  rw [hP k _ hk]
  rcases half_cases hx with hx' | ⟨p, hp, rfl⟩
  · rw [Nat.div_mul_cancel hx', buddy_of_dvd hm hx', iff_comm, iff_false_left hb, not_not]
  · rw [add_half_div hm hp, Nat.div_mul_cancel hp, buddy_add_of_dvd hm hp, iff_true_right hb]

theorem clear (h : ∀ b ∈ free, b.1 + 1 = n) : Parity u n free fun _ _ ↦ false := by
  intro k i hk
  have hno : ∀ y, (k, y) ∉ free := fun y hy ↦ by
    have := h _ hy
    omega
  simp [hno]

theorem eq_false (hP : Parity u n free bit) (h : ∀ b ∈ free, b.1 + 1 = n) {i : ℕ}
    (hk : k + 1 < n) : bit (k + 1) i = false := by
  have hno : ∀ y, (k, y) ∉ free := fun y hy ↦ by
    have := h _ hy
    omega
  rw [← Bool.not_eq_true, hP k i hk]
  simp [hno]

end Parity

end CS402.Lib.Buddy

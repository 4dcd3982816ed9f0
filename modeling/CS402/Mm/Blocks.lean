import CS402.Mm.Buddies
import Mathlib.Data.List.Pairwise

/-!
# Pages are handed out once

The invariant of the whole page allocator, and what it says: the free blocks of all
groups and the blocks that are allocated are disjoint, every free block is aligned in its
group, the bits are right, and buddies that are free have been joined.

The calls are followed one by one.  `Holding` is the state in the middle of an
allocation, after a block has been found and before it is taken from its list; freeing a
block ends in `Group.pageJoin_put`.
-/

namespace CS402.Page

open Lib Lib.Buddy Function

/-! ## Computations that only stop for what the caller did -/

/-- The computation returns something with `P`, or stops because the caller frees a block
that is not allocated. -/
def Fine {α : Type*} (P : α → Prop) : Except Fault α → Prop
  | .ok a => P a
  | .error f => f = .disabled

theorem Fine.bind {α β : Type} {P : α → Prop} {Q : β → Prop} {x : Except Fault α}
    {f : α → Except Fault β} (hx : Fine P x) (hf : ∀ a, P a → Fine Q (f a)) : Fine Q (x >>= f) := by
  cases x with
  | ok a => exact hf a hx
  | error e => exact hx

variable {α : Type*}

theorem Fine.of_eq {P : α → Prop} {x : Except Fault α} {a : α} (hx : x = .ok a)
    (h : P a) : Fine P x := hx ▸ h

theorem Fine.of_ok {P : α → Prop} {x : Except Fault α} {a : α} (h : Fine P x)
    (hx : x = .ok a) : P a := by
  subst hx
  exact h

/-- Two stretches of memory have nothing in common. -/
def Apart (r r' : ℕ × ℕ) : Prop := r.2 ≤ r'.1 ∨ r'.2 ≤ r.1

theorem Apart.symm {r r' : ℕ × ℕ} (h : Apart r r') : Apart r' r := Or.symm h

/-- A block by its address and order. -/
abbrev Extent := ℕ × ℕ

/-- Two blocks have no byte in common. -/
def Extent.Disjoint (b c : Extent) : Prop :=
  b.1 + blockSize b.2 ≤ c.1 ∨ c.1 + blockSize c.2 ≤ b.1

variable {k : ℕ}

theorem not_overlap_iff {x l y base : ℕ} : ¬Overlap pageSize (k, x) (l, y) ↔
    Extent.Disjoint (base + x, k) (base + y, l) := by
  unfold Overlap Extent.Disjoint blockSize
  simp only []
  omega

variable {i : ℕ}

theorem mem_set_cases {l : List α} {a b : α} (h : b ∈ l.set i a) :
    b = a ∨ ∃ j, j ≠ i ∧ l[j]? = some b := by
  obtain ⟨j, hj⟩ := List.mem_iff_getElem?.mp h
  rw [List.getElem?_set] at hj
  split at hj
  · split at hj
    · exact .inl (Option.some.inj hj).symm
    · cases hj
  · next hij => exact .inr ⟨j, Ne.symm hij, hj⟩

variable {g' : Group}

theorem apart_of_getElem? {l : List Group} (h : (l.map Group.span).Pairwise Apart) {j : ℕ}
    {g : Group} (hij : i ≠ j) (hi : l[i]? = some g) (hj : l[j]? = some g') :
    Apart g.span g'.span := by
  have hpw := List.pairwise_iff_getElem.mp (List.pairwise_map.mp h)
  obtain ⟨hi', rfl⟩ := List.getElem?_eq_some_iff.mp hi
  obtain ⟨hj', rfl⟩ := List.getElem?_eq_some_iff.mp hj
  rcases Nat.lt_or_gt_of_ne hij with hlt | hgt
  · exact hpw i j hi' hj' hlt
  · exact (hpw j i hj' hi' hgt).symm

variable {b : ℕ × ℕ}

theorem mem_cons_erase {live : List (ℕ × ℕ)} (hb : b ∈ live) (c : ℕ × ℕ) :
    c ∈ live ↔ c ∈ b :: live.erase b :=
  (List.perm_cons_erase hb).mem_iff

theorem groupWith_eq_some {s : Pages} (h : groupWith s.groups k = some i) :
    ∃ g, s.groups[i]? = some g ∧ g.pgFreelist k ≠ [] := by
  obtain ⟨hi, hp, -⟩ := List.findIdx?_eq_some_iff_getElem.mp h
  exact ⟨s.groups[i], List.getElem?_eq_getElem hi, of_decide_eq_true hp⟩

variable [Orders]

/-! ## The invariant -/

/-- The allocated blocks of a group. -/
def liveIn (live : List (ℕ × ℕ)) (g : Group) : Set Block :=
  {b | g.pgBaseaddr + b.2 < g.pgEndaddr ∧
    ∃ npages, (g.pgBaseaddr + b.2, npages) ∈ live ∧ orderOf npages = some b.1}

/-- The invariant of the page allocator. -/
structure Pages.Inv (s : Pages) : Prop where
  group : ∀ g ∈ s.groups, g.Inv (liveIn s.live g)
  apart : (s.groups.map Group.span).Pairwise Apart
  /-- Every group still has the memory that `_pagegroup_create` gave it. -/
  created : ∀ g ∈ s.groups, ∃ r ∈ s.ranges, PageAligned r.1 ∧
    ∃ g₀, pagegroupCreate r.1 r.2 = .ok g₀ ∧ g₀.pgBaseaddr < g₀.pgEndaddr ∧ g.span = g₀.span
  placed : ∀ b ∈ s.live, ∃ k, orderOf b.2 = some k ∧
    ∃ g ∈ s.groups, g.pgBaseaddr ≤ b.1 ∧ b.1 < g.pgEndaddr
  nodup : (s.live.map Prod.fst).Nodup

theorem Pages.Inv.boot : boot.Inv where
  group := by simp [Page.boot]
  apart := by simp [Page.boot]
  created := by simp [Page.boot]
  placed := by simp [Page.boot]
  nodup := by simp [Page.boot]

section live

variable {live live' : List (ℕ × ℕ)} {g : Group} {k x npages : ℕ}

theorem liveIn_congr (h : ∀ b, b ∈ live ↔ b ∈ live') : liveIn live g = liveIn live' g := by
  simp only [liveIn, h]

theorem liveIn_cons (hlt : g.pgBaseaddr + x < g.pgEndaddr) (hk : orderOf npages = some k) :
    liveIn ((g.pgBaseaddr + x, npages) :: live) g = insert (k, x) (liveIn live g) := by
  ext ⟨l, y⟩
  constructor
  · rintro ⟨hy, n, hn, hl⟩
    rcases List.mem_cons.mp hn with hn | hn
    · obtain ⟨hxy, rfl⟩ := Prod.mk.inj hn
      obtain rfl : y = x := Nat.add_left_cancel hxy
      obtain rfl : k = l := Option.some.inj (hk.symm.trans hl)
      exact .inl rfl
    · exact .inr ⟨hy, n, hn, hl⟩
  · rintro (heq | ⟨hy, n, hn, hl⟩)
    · obtain ⟨rfl, rfl⟩ : l = k ∧ y = x := Prod.mk.inj heq
      exact ⟨hlt, npages, List.mem_cons_self, hk⟩
    · exact ⟨hy, n, List.mem_cons_of_mem _ hn, hl⟩

theorem liveIn_cons_of_apart {h : Group} (hlt : g.pgBaseaddr + x < g.pgEndaddr)
    (hapart : Apart g.span h.span) :
    liveIn ((g.pgBaseaddr + x, npages) :: live) h = liveIn live h := by
  ext ⟨l, y⟩
  refine ⟨fun ⟨hy, n, hn, hl⟩ ↦ ?_, fun ⟨hy, n, hn, hl⟩ ↦ ⟨hy, n, List.mem_cons_of_mem _ hn, hl⟩⟩
  rcases List.mem_cons.mp hn with hn | hn
  · exfalso
    have hxy : h.pgBaseaddr + y = g.pgBaseaddr + x := congrArg Prod.fst hn
    simp only [Apart, Group.span] at hapart hy
    omega
  · exact ⟨hy, n, hn, hl⟩

theorem notMem_liveIn (h : (g.pgBaseaddr + x) ∉ live.map Prod.fst) : (k, x) ∉ liveIn live g := by
  rintro ⟨-, n, hn, -⟩
  exact h (List.mem_map_of_mem hn)

end live

variable {npages : ℕ}

namespace Pages.Inv

variable {s : Pages} {i : ℕ} {g : Group}

/-- One group and the allocated blocks in it change. -/
theorem replace (hs : s.Inv) {live : List (ℕ × ℕ)} (hi : s.groups[i]? = some g)
    (hspan : g'.span = g.span) (hg' : g'.Inv (liveIn live g'))
    (hother : ∀ h : Group, Apart g.span h.span → liveIn live h = liveIn s.live h)
    (hplaced : ∀ b ∈ live, ∃ k, orderOf b.2 = some k ∧
      ∃ h ∈ s.groups, h.pgBaseaddr ≤ b.1 ∧ b.1 < h.pgEndaddr)
    (hnodup : (live.map Prod.fst).Nodup) (c : BitVec 32) :
    Pages.Inv { s with groups := s.groups.set i g', live := live, freecount := c } := by
  have hmem : g ∈ s.groups := List.mem_of_getElem? hi
  have hspans : (s.groups.set i g').map Group.span = s.groups.map Group.span := by
    rw [List.map_set, hspan]
    refine List.ext_getElem? fun j ↦ ?_
    rw [List.getElem?_set]
    split
    · next hij =>
      subst hij
      obtain ⟨hlt, hget⟩ := List.getElem?_eq_some_iff.mp hi
      simp [hlt, hget]
    · rfl
  -- every group of the old list has one with the same memory in the new list
  have hkeep : ∀ h ∈ s.groups, ∃ h' ∈ s.groups.set i g', h'.span = h.span := by
    intro h hh
    have hin : h.span ∈ (s.groups.set i g').map Group.span := by
      rw [hspans]
      exact List.mem_map_of_mem hh
    obtain ⟨h', hh', heq⟩ := List.mem_map.mp hin
    exact ⟨h', hh', heq⟩
  refine ⟨fun h hh ↦ ?_, hspans ▸ hs.apart, fun h hh ↦ ?_, fun b hb ↦ ?_, hnodup⟩
  · rcases mem_set_cases hh with rfl | ⟨j, hji, hj⟩
    · exact hg'
    · rw [hother h (apart_of_getElem? hs.apart (Ne.symm hji) hi hj)]
      exact hs.group h (List.mem_of_getElem? hj)
  · rcases mem_set_cases hh with rfl | ⟨j, -, hj⟩
    · obtain ⟨r, hr, hal, g₀, hok, hlt, hg⟩ := hs.created g hmem
      exact ⟨r, hr, hal, g₀, hok, hlt, hspan.trans hg⟩
    · exact hs.created h (List.mem_of_getElem? hj)
  · obtain ⟨k, hk, h, hh, hle, hlt⟩ := hplaced b hb
    obtain ⟨h', hh', heq⟩ := hkeep h hh
    have hb₁ : h'.pgBaseaddr = h.pgBaseaddr := congrArg Prod.fst heq
    have hb₂ : h'.pgEndaddr = h.pgEndaddr := congrArg Prod.snd heq
    exact ⟨k, hk, h', hh', hb₁ ▸ hle, hb₂ ▸ hlt⟩

/-! ## Freeing -/

theorem orderOf_lt (h : orderOf npages = some k) : k < nsizes := by
  simpa using List.mem_of_find?_eq_some h

theorem pagegroupFromAddress_eq (hs : s.Inv) (hb : b ∈ s.live) :
    ∃ i g, pagegroupFromAddress s.groups b.1 = some i ∧ s.groups[i]? = some g ∧
      g.pgBaseaddr ≤ b.1 ∧ b.1 < g.pgEndaddr := by
  obtain ⟨k, -, g, hg, hle, hlt⟩ := hs.placed b hb
  unfold pagegroupFromAddress
  cases hf : s.groups.findIdx? fun g ↦ decide (g.pgBaseaddr ≤ b.1 ∧ b.1 < g.pgEndaddr) with
  | none =>
    have hno := List.findIdx?_eq_none_iff.mp hf g hg
    simp [hle, hlt] at hno
  | some i =>
    obtain ⟨hi, hp, -⟩ := List.findIdx?_eq_some_iff_getElem.mp hf
    have hp := of_decide_eq_true hp
    exact ⟨i, s.groups[i], rfl, List.getElem?_eq_getElem hi, hp.1, hp.2⟩

theorem pageFreeOrder_ok (hs : s.Inv) {addr : ℕ} (hb : (addr, npages) ∈ s.live)
    (hk : orderOf npages = some k) :
    ∃ s', pageFreeOrder { s with live := s.live.erase (addr, npages) } addr k = .ok s' ∧
      s'.Inv := by
  obtain ⟨i, g, hfrom, hi, hle, hlt⟩ := hs.pagegroupFromAddress_eq hb
  have hfrom : pagegroupFromAddress s.groups addr = some i := hfrom
  obtain ⟨x, rfl⟩ : ∃ x, addr = g.pgBaseaddr + x := ⟨addr - g.pgBaseaddr, by
    have hle : g.pgBaseaddr ≤ addr := hle
    omega⟩
  have hlt : g.pgBaseaddr + x < g.pgEndaddr := hlt
  have hmem : g ∈ s.groups := List.mem_of_getElem? hi
  -- the block comes off the list of the allocated ones
  have hsplit : ∀ h : Group, liveIn s.live h = liveIn
      ((g.pgBaseaddr + x, npages) :: s.live.erase (g.pgBaseaddr + x, npages)) h :=
    fun h ↦ liveIn_congr (mem_cons_erase hb)
  have hnodup : (((g.pgBaseaddr + x, npages) ::
      s.live.erase (g.pgBaseaddr + x, npages)).map Prod.fst).Nodup :=
    ((List.perm_cons_erase hb).map Prod.fst).nodup_iff.mp hs.nodup
  rw [List.map_cons, List.nodup_cons] at hnodup
  have hinv := hs.group g hmem
  rw [hsplit, liveIn_cons hlt hk] at hinv
  have hnew : (k, x) ∉ liveIn (s.live.erase (g.pgBaseaddr + x, npages)) g :=
    notMem_liveIn hnodup.1
  -- the code puts it on its list and joins it with its buddies
  have hx : blockSize k ∣ x := hinv.sound.tiling.aligned (k, x) (.inr (.inl rfl))
  have hd : k + (lastOrder - k) = lastOrder := by
    have hkn := orderOf_lt hk
    unfold lastOrder
    omega
  obtain ⟨g', hjoin, hinv', hspan⟩ := Group.pageJoin_put hd hinv hnew
  refine ⟨_, ?_, hs.replace hi hspan ?_ (fun h hh ↦ ?_)
    (fun b hb ↦ hs.placed b (List.mem_of_mem_erase hb)) hnodup.2
    (s.freecount + BitVec.ofNat 32 (2 ^ k))⟩
  · unfold pageFreeOrder
    simp only [hfrom]
    rw [hi, follow_bind, Group.insertHead_flipPair hinv.base hx hlt, ok_bind, hjoin,
      ok_bind]
    rfl
  · have hb₁ : g'.pgBaseaddr = g.pgBaseaddr := congrArg Prod.fst hspan
    have hb₂ : g'.pgEndaddr = g.pgEndaddr := congrArg Prod.snd hspan
    have heq : liveIn (s.live.erase (g.pgBaseaddr + x, npages)) g' =
        liveIn (s.live.erase (g.pgBaseaddr + x, npages)) g := by
      simp only [liveIn, hb₁, hb₂]
    exact heq ▸ hinv'
  · rw [hsplit h, liveIn_cons_of_apart hlt hh]

theorem release_fine (hs : s.Inv) (b : ℕ × ℕ) : Fine Pages.Inv (release s b) := by
  unfold release
  by_cases hb : b ∈ s.live
  · obtain ⟨k, hk, -⟩ := hs.placed b hb
    obtain ⟨s', hok, hs'⟩ := hs.pageFreeOrder_ok hb hk
    rw [demand_bind hb, pageFreeN, hk]
    exact Fine.of_eq hok hs'
  · rw [demand_neg hb]
    rfl

theorem foldlM_release_fine (hs : s.Inv) (freed : List (ℕ × ℕ)) :
    Fine Pages.Inv (freed.foldlM release s) := by
  induction freed generalizing s with
  | nil => exact hs
  | cons b freed ih =>
    rw [List.foldlM_cons]
    exact (hs.release_fine b).bind fun s' hs' ↦ ih hs'

/-! ## Allocating -/

end Pages.Inv

/-- A block of order `k` is first on its list in the group `i`, and the invariant holds as
soon as it is taken and handed out. -/
def Holding (s : Pages) (i k : ℕ) : Prop :=
  ∃ (g : Group) (x : ℕ) (live : Set Block), s.groups[i]? = some (g.put k x) ∧
    g.Inv (insert (k, x) live) ∧
    ∀ npages c, orderOf npages = some k → Pages.Inv { s with
      groups := s.groups.set i g
      live := (g.pgBaseaddr + x, npages) :: s.live
      freecount := c }

variable {s s' : Pages} {i k x norder : ℕ} {g : Group} {r : Option ℕ}

/-- A block of a group is in the hands of the code. -/
theorem Holding.of_put (hs : s.Inv) (hi : s.groups[i]? = some g)
    (hspan : g'.span = g.span) (hinv : g'.Inv (insert (k, x) (liveIn s.live g)))
    (hnew : (k, x) ∉ liveIn s.live g) :
    Holding { s with groups := s.groups.set i (g'.put k x) } i k := by
  have hmem : (k, x) ∈ g'.free ∪ insert (k, x) (liveIn s.live g) := .inr (.inl rfl)
  have hb₁ : g'.pgBaseaddr = g.pgBaseaddr := congrArg Prod.fst hspan
  have hb₂ : g'.pgEndaddr = g.pgEndaddr := congrArg Prod.snd hspan
  have hlt : g.pgBaseaddr + x < g.pgEndaddr := hb₁ ▸ hb₂ ▸ hinv.lt_endaddr hmem
  have hidx := (List.getElem?_eq_some_iff.mp hi).1
  refine ⟨g', x, liveIn s.live g, ?_, hinv, fun npages c hk ↦ ?_⟩
  · simp [hidx]
  -- no allocated block starts there: it would overlap this one
  have hfresh : g.pgBaseaddr + x ∉ s.live.map Prod.fst := by
    intro hin
    obtain ⟨⟨a, m⟩, hb, rfl⟩ := List.mem_map.mp hin
    obtain ⟨l, hl, -⟩ := hs.placed _ hb
    have hlive : (l, x) ∈ liveIn s.live g := ⟨hlt, m, hb, hl⟩
    have heq := hinv.sound.tiling.apart (l, x) (.inr (.inr hlive)) (k, x) hmem
      (overlap_start l k x)
    exact hnew (heq ▸ hlive)
  simp only [List.set_set, hb₁]
  refine hs.replace hi hspan ?_ (fun h hh ↦ liveIn_cons_of_apart hlt hh) (fun b hb ↦ ?_) ?_ c
  · have heq : liveIn ((g.pgBaseaddr + x, npages) :: s.live) g' =
        liveIn ((g.pgBaseaddr + x, npages) :: s.live) g := by
      simp only [liveIn, hb₁, hb₂]
    rw [heq, liveIn_cons hlt hk]
    exact hinv
  · rcases List.mem_cons.mp hb with rfl | hb
    · exact ⟨k, hk, g, List.mem_of_getElem? hi, Nat.le_add_right _ _, hlt⟩
    · exact hs.placed b hb
  · exact List.nodup_cons.mpr ⟨hfresh, hs.nodup⟩

theorem exists_head (hinv : g.Inv (liveIn s.live g)) (hne : g.pgFreelist k ≠ []) :
    ∃ x rest, g.pgFreelist k = (g.pgBaseaddr + x) :: rest ∧ (k, x) ∈ g.free := by
  obtain ⟨a, rest, hhead⟩ := List.exists_cons_of_ne_nil hne
  have hle := hinv.above k a (by simp [hhead])
  refine ⟨a - g.pgBaseaddr, rest, ?_, ?_⟩
  · rw [Nat.add_sub_cancel' hle, hhead]
  · rw [Group.mem_free, Nat.add_sub_cancel' hle, hhead]
    exact List.mem_cons_self

theorem Holding.of_head (hs : s.Inv) (hi : s.groups[i]? = some g) (hne : g.pgFreelist k ≠ []) :
    Holding s i k := by
  have hinv := hs.group g (List.mem_of_getElem? hi)
  obtain ⟨x, rest, hhead, hfree⟩ := exists_head hinv hne
  obtain ⟨hinv', hnew⟩ := hinv.take hfree
  have hspan : (g.cut k x).span = g.span := rfl
  have hold := Holding.of_put hs hi hspan hinv' hnew
  have hsame : s.groups.set i g = s.groups := by
    obtain ⟨hidx, hget⟩ := List.getElem?_eq_some_iff.mp hi
    rw [← hget, List.set_getElem_self]
  rwa [Group.put_cut hhead, hsame] at hold

theorem Holding.takeHead (h : Holding s i k) :
    ∃ r, takeHead s i k = .ok r ∧ ∀ npages, orderOf npages = some k → (hand npages r).Inv := by
  obtain ⟨g, x, live, hi, hinv, hhand⟩ := h
  have hmem : (k, x) ∈ g.free ∪ insert (k, x) live := .inr (.inl rfl)
  have hhead : (g.put k x).pgFreelist k = (g.pgBaseaddr + x) :: g.pgFreelist k := by
    simp [Group.put]
  have htake := Group.removeHead_flipPair (g := g.put k x) hinv.base
    (hinv.sound.tiling.aligned (k, x) hmem) (hinv.lt_endaddr hmem) hhead
  rw [Group.cut_put] at htake
  refine ⟨({ s with
      groups := s.groups.set i g
      freecount := s.freecount - BitVec.ofNat 32 (2 ^ k) }, some (g.pgBaseaddr + x)), ?_,
    fun npages hk ↦ hhand npages _ hk⟩
  unfold Page.takeHead
  rw [hi, follow_bind, hhead]
  simp only []
  rw [show g.pgBaseaddr + x = (g.put k x).pgBaseaddr + x from rfl, htake, ok_bind]
  rfl

theorem largerBlock_eq_some (h : largerBlock s.groups k = some (norder, i)) :
    k < norder ∧ ∃ g, s.groups[i]? = some g ∧ g.pgFreelist norder ≠ [] := by
  obtain ⟨n, hn, hmap⟩ := List.exists_of_findSome?_eq_some h
  obtain ⟨j, hj, heq⟩ := Option.map_eq_some_iff.mp hmap
  obtain ⟨rfl, rfl⟩ := Prod.mk.inj heq
  rw [List.mem_range'_1] at hn
  exact ⟨hn.1, groupWith_eq_some hj⟩

/-- The outcome of `_page_split`: nothing was found, or a block is at hand. -/
def Found (k : ℕ) (r : Pages × Option ℕ) : Prop :=
  match r.2 with
  | none => r.1.Inv
  | some i => Holding r.1 i k ∧ ∃ g, r.1.groups[i]? = some g ∧ g.pgFreelist k ≠ []

theorem splitLarger_ok (hs : s.Inv)
    (h : largerBlock s.groups k = some (norder, i)) :
    ∃ r, Found k r ∧ (do
      let g ← follow Fault.pointer s.groups[i]?
      let g ← splitDown k (norder - k) g
      demand .assertion (g.pgFreelist k ≠ [])
      pure ({ s with groups := s.groups.set i g }, some i)) = .ok r := by
  obtain ⟨hlt, g, hi, hne⟩ := largerBlock_eq_some h
  obtain ⟨d, rfl⟩ := Nat.exists_eq_add_of_lt hlt
  have hinv := hs.group g (List.mem_of_getElem? hi)
  obtain ⟨x, rest, hhead, hfree⟩ := exists_head hinv hne
  obtain ⟨hinv', hnew⟩ := hinv.take hfree
  obtain ⟨g', x', hok, hinv'', hnew', hspan⟩ := Group.splitDown_put (d := d + 1) hinv' hnew
  have hdown : k + d + 1 - k = d + 1 := by omega
  have hok : splitDown k (d + 1) ((g.cut (k + d + 1) x).put (k + d + 1) x) = _ := hok
  rw [Group.put_cut hhead] at hok
  have hne' : (g'.put k x').pgFreelist k ≠ [] := by simp [Group.put]
  rw [hi, follow_bind, hdown, hok, ok_bind, demand_bind hne']
  have hidx := (List.getElem?_eq_some_iff.mp hi).1
  refine ⟨({ s with groups := s.groups.set i (g'.put k x') }, some i), ?_, rfl⟩
  exact ⟨.of_put hs hi hspan hinv'' hnew', g'.put k x', by simp [hidx], hne'⟩

theorem splitLarger_fine (hs : s.Inv)
    (h : largerBlock s.groups k = some (norder, i)) :
    Fine (Found k) (do
      let g ← follow .pointer s.groups[i]?
      let g ← splitDown k (norder - k) g
      demand .assertion (g.pgFreelist k ≠ [])
      pure ({ s with groups := s.groups.set i g }, some i)) := by
  obtain ⟨r, hr, hok⟩ := splitLarger_ok hs h
  exact .of_eq hok hr

theorem pageSplit_fine (hs : s.Inv) (freed : List (ℕ × ℕ)) (more : List (List (ℕ × ℕ))) :
    Fine (Found k) (pageSplit k freed more s) := by
  induction more generalizing freed s with
  | nil =>
    unfold pageSplit
    split
    · next hlarger => exact splitLarger_fine hs hlarger
    · exact (hs.foldlM_release_fine freed).bind fun s' hs' ↦ hs'
  | cons freed' more ih =>
    unfold pageSplit
    split
    · next hlarger => exact splitLarger_fine hs hlarger
    · exact (hs.foldlM_release_fine freed).bind fun s' hs' ↦ ih hs' freed'

theorem Found.takeHead {r : Pages × Option ℕ} (hr : Found k r) :
    ∃ r', (match r.2 with
      | some i => do
        let g ← follow Fault.pointer r.1.groups[i]?
        demand Fault.assertion (g.pgFreelist k ≠ [])
        Page.takeHead r.1 i k
      | none => pure (r.1, none)) = .ok r' ∧
      ∀ npages, orderOf npages = some k → (hand npages r').Inv := by
  obtain ⟨s', found⟩ := r
  cases found with
  | none => exact ⟨_, rfl, fun _ _ ↦ hr⟩
  | some i =>
    obtain ⟨hold, g, hg, hne⟩ := hr
    obtain ⟨r, hok, hr⟩ := hold.takeHead
    refine ⟨r, ?_, hr⟩
    simp only []
    rw [hg, follow_bind, demand_bind hne]
    exact hok

theorem pageAllocOrder_fine (hs : s.Inv) (freed : List (ℕ × ℕ)) (more : List (List (ℕ × ℕ))) :
    Fine (fun r ↦ ∀ npages, orderOf npages = some k → (hand npages r).Inv)
      (pageAllocOrder s k freed more) := by
  unfold pageAllocOrder
  split
  · next i hi =>
    obtain ⟨g, hg, hne⟩ := groupWith_eq_some hi
    obtain ⟨r, hok, hr⟩ := (Holding.of_head hs hg hne).takeHead
    exact .of_eq hok hr
  · refine (pageSplit_fine hs freed more).bind fun r hr ↦ ?_
    obtain ⟨r', hok, hr'⟩ := hr.takeHead
    exact .of_eq hok hr'

theorem allocN_fine (hs : s.Inv) (hk : orderOf npages = some k)
    (freed : List (ℕ × ℕ)) (more : List (List (ℕ × ℕ))) :
    Fine Pages.Inv (hand npages <$> pageAllocOrder s k freed more) :=
  (pageAllocOrder_fine hs freed more).bind fun _ hr ↦ hr npages hk

/-! ## New memory -/

/-- A new range is apart from the groups there are, and its group is a buddy system. -/
theorem Pages.Inv.pageAddRange {start fin : ℕ} (hs : s.Inv)
    (h : pageAddRange s start fin = .ok s') : s'.Inv := by
  unfold Page.pageAddRange at h
  simp only [] at h
  obtain ⟨hlt, h⟩ := bind_demand h
  obtain ⟨hnew, h⟩ := bind_demand h
  obtain ⟨g, hg, h⟩ := bind_ok h
  have hal : PageAligned (start / pageSize * pageSize) := Nat.mul_mod_left _ _
  obtain ⟨hbase, hend, hinv⟩ := pagegroupCreate_ok hal hg
  split at h
  swap
  · rw [pure_eq_ok] at h
    subst h
    refine ⟨hs.group, hs.apart, fun g' hg' ↦ ?_, hs.placed, hs.nodup⟩
    obtain ⟨r, hr, hrest⟩ := hs.created g' hg'
    exact ⟨r, List.mem_cons_of_mem _ hr, hrest⟩
  next hsome =>
  rw [pure_eq_ok] at h
  subst h
  -- the groups there are lie in older ranges
  have hold : ∀ g' ∈ s.groups, Apart g'.span g.span := by
    intro g' hg'
    obtain ⟨r, hr, hral, g₀, hok, -, hspan⟩ := hs.created g' hg'
    obtain ⟨hb₀, he₀, -⟩ := pagegroupCreate_ok hral hok
    have hb : g'.pgBaseaddr = g₀.pgBaseaddr := congrArg Prod.fst hspan
    have he : g'.pgEndaddr = g₀.pgEndaddr := congrArg Prod.snd hspan
    rcases hnew r hr with hle | hle
    · exact .inl (by simp only [Group.span]; omega)
    · exact .inr (by simp only [Group.span]; omega)
  refine ⟨fun g' hg' ↦ ?_, ?_, fun g' hg' ↦ ?_, fun b hb ↦ ?_, hs.nodup⟩
  · rcases List.mem_append.mp hg' with hg' | hg'
    · exact hs.group g' hg'
    · obtain rfl := List.mem_singleton.mp hg'
      have hempty : liveIn s.live g' = ∅ := by
        refine Set.eq_empty_of_forall_notMem fun b hb ↦ ?_
        obtain ⟨hlt, n, hn, -⟩ := hb
        obtain ⟨k, -, h, hh, hle, hlt'⟩ := hs.placed _ hn
        rcases hold h hh with hap | hap <;> simp only [Group.span] at hap hle hlt' <;> omega
      exact hempty ▸ hinv hsome
  · rw [List.map_append, List.pairwise_append]
    refine ⟨hs.apart, List.pairwise_singleton _ _, fun r hr r' hr' ↦ ?_⟩
    obtain ⟨g', hg', rfl⟩ := List.mem_map.mp hr
    obtain rfl : r' = g.span := by simpa using hr'
    exact hold g' hg'
  · rcases List.mem_append.mp hg' with hg' | hg'
    · obtain ⟨r, hr, hrest⟩ := hs.created g' hg'
      exact ⟨r, List.mem_cons_of_mem _ hr, hrest⟩
    · obtain rfl := List.mem_singleton.mp hg'
      exact ⟨_, List.mem_cons_self, hal, g', hg, hsome, rfl⟩
  · obtain ⟨k, hk, h, hh, hrest⟩ := hs.placed b hb
    exact ⟨k, hk, h, List.mem_append_left _ hh, hrest⟩

/-! ## Every call -/

/-- The number of pages is one that `page_alloc_n` permits. -/
def Call.Permitted : Call → Prop
  | .addRange _ _ => False
  | .alloc _ _ | .free _ => True
  | .allocN npages _ _ | .freeN _ npages => 1 ≤ npages ∧ npages ≤ 2 ^ lastOrder

theorem orderOf_one : orderOf 1 = some 0 := by
  have hn := Orders.nsizes_pos
  exact List.find?_range_eq_some.mpr ⟨by decide, by simpa using hn, by simp⟩

theorem orderOf_of_le (h : npages ≤ 2 ^ lastOrder) : ∃ k, orderOf npages = some k := by
  have hle := Orders.nsizes_le
  have hlt : npages < 2 ^ 31 :=
    h.trans_lt (Nat.pow_lt_pow_right (by decide) (by unfold lastOrder; omega))
  have hint : int32 npages = npages := int32_of_range (by omega) (by omega)
  refine Option.isSome_iff_exists.mp (List.find?_isSome.mpr ⟨lastOrder, ?_, ?_⟩)
  · simpa using lastOrder_lt
  · rw [hint]
    exact decide_eq_true (by exact_mod_cast h)

/-- A call leaves the invariant intact; if it does not return, it frees a block that is not
allocated, or asks for a number of pages that is not permitted. -/
theorem step_fine (hs : s.Inv) {e : Call} (hp : e.Permitted) : Fine Pages.Inv (step s e) := by
  cases e with
  | addRange start fin => exact hp.elim
  | alloc freed more => exact allocN_fine hs orderOf_one freed more
  | allocN npages freed more =>
    obtain ⟨k, hk⟩ := orderOf_of_le hp.2
    simp only [step, pageAllocN, hk]
    exact allocN_fine hs hk freed more
  | free addr =>
    simp only [step]
    by_cases hb : (addr, 1) ∈ s.live
    · obtain ⟨s', hok, hs'⟩ := hs.pageFreeOrder_ok hb orderOf_one
      rw [demand_bind hb]
      exact .of_eq hok hs'
    · rw [demand_neg hb]
      rfl
  | freeN addr npages => exact hs.release_fine (addr, npages)

theorem Pages.Inv.step (hs : s.Inv) {e : Call} (h : step s e = .ok s') : s'.Inv := by
  cases e with
  | addRange start fin => exact hs.pageAddRange h
  | alloc freed more => exact (step_fine hs (e := .alloc freed more) trivial).of_ok h
  | allocN npages freed more =>
    simp only [Page.step, pageAllocN] at h
    split at h
    · cases h
    · next k hk => exact (allocN_fine hs hk freed more).of_ok h
  | free addr => exact (step_fine hs (e := .free addr) trivial).of_ok h
  | freeN addr npages => exact (hs.release_fine (addr, npages)).of_ok h

theorem inv_of_run {h : List Call} (hr : Run (ofStep step) boot h s) : s.Inv :=
  hr.invariant (fun _ _ _ hs hstep ↦ hs.step hstep) .boot

/-! ## What the invariant says -/

/-- All blocks on the free lists of a group. -/
def Group.extents (g : Group) : List Extent :=
  (List.range nsizes).flatMap fun k ↦ (g.pgFreelist k).map fun a ↦ (a, k)

/-- All blocks on free lists and all blocks that are allocated. -/
def Pages.extents (s : Pages) : List Extent :=
  s.groups.flatMap Group.extents ++
    s.live.filterMap fun b ↦ (orderOf b.2).map fun k ↦ (b.1, k)

namespace Pages.Inv

theorem apart_of_ne (hs : s.Inv) (hg : g ∈ s.groups) (hg' : g' ∈ s.groups)
    (hne : g ≠ g') : Apart g.span g'.span := by
  have : Std.Symm fun g g' : Group ↦ Apart g.span g'.span := ⟨fun _ _ h ↦ h.symm⟩
  exact (List.pairwise_map.mp hs.apart).forall hg hg' hne

theorem disjoint (hs : s.Inv) (hg : g ∈ s.groups) (hg' : g' ∈ s.groups)
    {b c : Block} (hb : b ∈ g.free ∪ liveIn s.live g) (hc : c ∈ g'.free ∪ liveIn s.live g')
    (hne : g = g' → b ≠ c) :
    Extent.Disjoint (g.pgBaseaddr + b.2, b.1) (g'.pgBaseaddr + c.2, c.1) := by
  by_cases hgg : g = g'
  · subst hgg
    exact not_overlap_iff.mp fun hov ↦
      hne rfl ((hs.group g hg).sound.tiling.apart b hb c hc hov)
  · have hb' := (hs.group g hg).le_endaddr hb
    have hc' := (hs.group g' hg').le_endaddr hc
    rcases hs.apart_of_ne hg hg' hgg with hap | hap <;>
      simp only [Group.span, Extent.Disjoint] at hap ⊢ <;> omega

theorem mem_extents (hs : s.Inv) (hg : g ∈ s.groups) {e : Extent} (he : e ∈ g.extents) :
    ∃ k x, e = (g.pgBaseaddr + x, k) ∧ (k, x) ∈ g.free := by
  obtain ⟨k, -, he⟩ := List.mem_flatMap.mp he
  obtain ⟨a, ha, rfl⟩ := List.mem_map.mp he
  have hle := (hs.group g hg).above k a ha
  exact ⟨k, a - g.pgBaseaddr, by rw [Nat.add_sub_cancel' hle],
    Group.mem_freelist (hs.group g hg) ha⟩

theorem exists_liveIn (hs : s.Inv) (hb : b ∈ s.live) :
    ∃ g ∈ s.groups, ∃ k x, orderOf b.2 = some k ∧ b.1 = g.pgBaseaddr + x ∧
      (k, x) ∈ liveIn s.live g := by
  obtain ⟨k, hk, g, hg, hle, hlt⟩ := hs.placed b hb
  have hadd : g.pgBaseaddr + (b.1 - g.pgBaseaddr) = b.1 := Nat.add_sub_cancel' hle
  exact ⟨g, hg, k, b.1 - g.pgBaseaddr, hk, hadd.symm, by rw [hadd]; exact hlt, b.2,
    by rw [hadd]; exact hb, hk⟩

theorem pairwise_extents (hs : s.Inv) (hg : g ∈ s.groups) : g.extents.Pairwise Extent.Disjoint := by
  have hinv := hs.group g hg
  have hfree : ∀ k a, a ∈ g.pgFreelist k → ∃ x, a = g.pgBaseaddr + x ∧ (k, x) ∈ g.free :=
    fun k a ha ↦ ⟨a - g.pgBaseaddr, (Nat.add_sub_cancel' (hinv.above k a ha)).symm,
      Group.mem_freelist hinv ha⟩
  refine List.pairwise_flatMap.mpr ⟨fun k _ ↦ List.pairwise_map.mpr ?_, ?_⟩
  · refine (hinv.nodup k).imp_of_mem fun {a a'} ha ha' hne ↦ ?_
    obtain ⟨x, rfl, hx⟩ := hfree k a ha
    obtain ⟨x', rfl, hx'⟩ := hfree k a' ha'
    exact hs.disjoint hg hg (.inl hx) (.inl hx') fun _ heq ↦
      hne (congrArg (g.pgBaseaddr + ·.2) heq)
  · refine List.nodup_range.imp fun {k k'} hne e he e' he' ↦ ?_
    obtain ⟨a, ha, rfl⟩ := List.mem_map.mp he
    obtain ⟨a', ha', rfl⟩ := List.mem_map.mp he'
    obtain ⟨x, rfl, hx⟩ := hfree k a ha
    obtain ⟨x', rfl, hx'⟩ := hfree k' a' ha'
    exact hs.disjoint hg hg (.inl hx) (.inl hx') fun _ heq ↦ hne (congrArg Prod.fst heq)

theorem pairwise_disjoint (hs : s.Inv) : s.extents.Pairwise Extent.Disjoint := by
  refine List.pairwise_append.mpr ⟨List.pairwise_flatMap.mpr ⟨fun g hg ↦ hs.pairwise_extents hg, ?_⟩,
    List.pairwise_filterMap.mpr ?_, fun e he e' he' ↦ ?_⟩
  · refine (List.pairwise_map.mp hs.apart).imp_of_mem fun {g g'} hg hg' hap e he e' he' ↦ ?_
    obtain ⟨k, x, rfl, hx⟩ := hs.mem_extents hg he
    obtain ⟨k', x', rfl, hx'⟩ := hs.mem_extents hg' he'
    refine hs.disjoint hg hg' (.inl hx) (.inl hx') fun hgg ↦ ?_
    -- a group with memory does not lie apart from itself
    subst hgg
    have hlt := (hs.group g hg).lt_endaddr (.inl hx)
    rcases hap with hap | hap <;> simp only [Group.span] at hap <;> omega
  · refine (List.pairwise_map.mp hs.nodup).imp_of_mem fun {b b'} hb hb' hne e he e' he' ↦ ?_
    obtain ⟨g, hg, k, x, hk, hx, hlive⟩ := hs.exists_liveIn hb
    obtain ⟨g', hg', k', x', hk', hx', hlive'⟩ := hs.exists_liveIn hb'
    simp only [hk, hk', Option.map_some, Option.some.injEq] at he he'
    subst he he'
    rw [hx, hx']
    refine hs.disjoint hg hg' (.inr hlive) (.inr hlive') fun hgg heq ↦ hne ?_
    rw [hx, hx', hgg, (Prod.mk.inj heq).2]
  · obtain ⟨g, hg, he⟩ := List.mem_flatMap.mp he
    obtain ⟨k, x, rfl, hx⟩ := hs.mem_extents hg he
    obtain ⟨b, hb, he'⟩ := List.mem_filterMap.mp he'
    obtain ⟨g', hg', k', x', hk', hx', hlive⟩ := hs.exists_liveIn hb
    simp only [hk', Option.map_some, Option.some.injEq] at he'
    subst he'
    rw [hx']
    refine hs.disjoint hg hg' (.inl hx) (.inr hlive) fun hgg heq ↦ ?_
    subst hgg
    exact (hs.group g hg).sound.notMem_live hx (heq ▸ hlive)

end Pages.Inv

/-! ## What the users of the allocator see -/

theorem pageFreeOrder_live {addr : ℕ} (h : pageFreeOrder s addr k = .ok s') : s'.live = s.live := by
  unfold pageFreeOrder at h
  split at h
  · rw [pure_eq_ok] at h
    rw [h]
  · obtain ⟨g, -, h⟩ := bind_ok h
    obtain ⟨g', -, h⟩ := bind_ok h
    obtain ⟨g'', -, h⟩ := bind_ok h
    rw [pure_eq_ok] at h
    rw [← h]

theorem pageAddRange_live {start fin : ℕ} (h : pageAddRange s start fin = .ok s') :
    s'.live = s.live := by
  unfold pageAddRange at h
  simp only [] at h
  obtain ⟨_, -, h⟩ := bind_ok h
  obtain ⟨_, -, h⟩ := bind_ok h
  obtain ⟨g, -, h⟩ := bind_ok h
  split at h <;> (rw [pure_eq_ok] at h; rw [← h])

theorem takeHead_live (h : takeHead s i k = .ok (s', r)) : s'.live = s.live ∧ r.isSome = true := by
  unfold takeHead at h
  obtain ⟨g, -, h⟩ := bind_ok h
  split at h
  · cases h
  · obtain ⟨g', -, h⟩ := bind_ok h
    cases h
    exact ⟨rfl, rfl⟩

theorem pageSplit_live (h : pageSplit k [] [] s = .ok (s', r)) :
    s'.live = s.live ∧ (r = none → s' = s) := by
  unfold pageSplit at h
  split at h
  · obtain ⟨g, -, h⟩ := bind_ok h
    obtain ⟨g', -, h⟩ := bind_ok h
    obtain ⟨_, -, h⟩ := bind_ok h
    cases h
    exact ⟨rfl, fun hr ↦ nomatch hr⟩
  · cases h
    exact ⟨rfl, fun _ ↦ rfl⟩

theorem pageAllocOrder_live
    (h : pageAllocOrder s k [] [] = .ok (s', r)) : s'.live = s.live := by
  unfold pageAllocOrder at h
  split at h
  · exact (takeHead_live h).1
  · obtain ⟨⟨s₁, found⟩, h₁, h⟩ := bind_ok h
    have hlive := (pageSplit_live h₁).1
    cases found with
    | none =>
      cases h
      exact hlive
    | some i =>
      obtain ⟨g, -, h⟩ := bind_ok h
      obtain ⟨_, -, h⟩ := bind_ok h
      exact (takeHead_live h).1.trans hlive

theorem orderOf_two_pow (hk : k < nsizes) : orderOf (2 ^ k) = some k := by
  have hle := Orders.nsizes_le
  have hint : int32 ((2 ^ k : ℕ) : ℤ) = 2 ^ k := by
    rw [int32_of_range] <;> push_cast
    · rfl
    · positivity
    · exact_mod_cast Nat.pow_lt_pow_right (by decide) (show k < 31 by omega)
  unfold orderOf
  refine List.find?_range_eq_some.mpr ⟨?_, by simpa using hk, fun j hj ↦ ?_⟩
  · rw [hint]
    simp
  · rw [hint]
    have hlt : (2 : ℤ) ^ j < 2 ^ k := by exact_mod_cast Nat.pow_lt_pow_right (by decide) hj
    simpa using hlt

theorem Pages.Inv.release_ok (hs : s.Inv) (hb : b ∈ s.live) :
    ∃ s', release s b = .ok s' ∧ s'.Inv ∧ s'.live = s.live.erase b := by
  obtain ⟨k, hk, -⟩ := hs.placed b hb
  obtain ⟨s', hok, hs'⟩ := hs.pageFreeOrder_ok hb hk
  refine ⟨s', ?_, hs', pageFreeOrder_live hok⟩
  rw [release, demand_bind hb, pageFreeN, hk]
  exact hok

theorem pageAllocOrder_ok (hs : s.Inv) : ∃ r, pageAllocOrder s k [] [] = .ok r ∧
    ∀ npages, orderOf npages = some k → (hand npages r).Inv := by
  have hsplit : ∃ r, Found k r ∧ pageSplit k [] [] s = .ok r := by
    unfold pageSplit
    split
    · next hlarger => exact splitLarger_ok hs hlarger
    · exact ⟨(s, none), hs, rfl⟩
  unfold pageAllocOrder
  split
  · next i hi =>
    obtain ⟨g, hg, hne⟩ := groupWith_eq_some hi
    exact (Holding.of_head hs hg hne).takeHead
  · obtain ⟨r, hr, hok⟩ := hsplit
    rw [hok, ok_bind]
    exact hr.takeHead

theorem Pages.Inv.pageAllocN_ok (hs : s.Inv) (hk : orderOf npages = some k) :
    ∃ s' r, pageAllocN s npages [] [] = .ok (s', r) ∧ (hand npages (s', r)).Inv ∧
      s'.live = s.live := by
  obtain ⟨⟨s', r⟩, hok, hr⟩ := pageAllocOrder_ok hs
  exact ⟨s', r, by rw [pageAllocN, hk]; exact hok, hr npages hk, pageAllocOrder_live hok⟩

theorem Pages.Inv.live_disjoint (hs : s.Inv) {c : ℕ × ℕ} {l : ℕ} (hb : b ∈ s.live)
    (hc : c ∈ s.live) (hk : orderOf b.2 = some k) (hl : orderOf c.2 = some l)
    (hne : b.1 ≠ c.1) : Extent.Disjoint (b.1, k) (c.1, l) := by
  obtain ⟨g, hg, k', x, hk', hx, hlive⟩ := hs.exists_liveIn hb
  obtain ⟨g', hg', l', y, hl', hy, hlive'⟩ := hs.exists_liveIn hc
  obtain rfl : k' = k := Option.some.inj (hk'.symm.trans hk)
  obtain rfl : l' = l := Option.some.inj (hl'.symm.trans hl)
  rw [hx, hy]
  refine hs.disjoint hg hg' (.inr hlive) (.inr hlive') fun hgg heq ↦ hne ?_
  rw [hx, hy, hgg, (Prod.mk.inj heq).2]

/-- **The buddy allocator is safe**, in every run of its calls: the blocks on the free lists
are aligned in their group and lie inside it; they and the allocated blocks are pairwise
disjoint; the bit of a pair is set exactly when one of its halves is free; buddies below the
largest order are never both free; and no call with a permitted number of pages fails an
assertion. -/
theorem blocks_handed_out_once {h : List Call} (hr : Run (ofStep step) boot h s) :
    (∀ g ∈ s.groups, ∀ k, ∀ a ∈ g.pgFreelist k, k < nsizes ∧ g.pgBaseaddr ≤ a ∧
      blockSize k ∣ a - g.pgBaseaddr ∧ a + blockSize k ≤ g.pgEndaddr) ∧
    s.extents.Pairwise Extent.Disjoint ∧
    (∀ g ∈ s.groups, ∀ k i, k + 1 < nsizes →
      (g.pgMap (k + 1) i = true ↔
        (g.pgBaseaddr + i * (2 * blockSize k) ∈ g.pgFreelist k ↔
          g.pgBaseaddr + (i * (2 * blockSize k) + blockSize k) ∉ g.pgFreelist k)) ∧
      ¬(g.pgBaseaddr + i * (2 * blockSize k) ∈ g.pgFreelist k ∧
          g.pgBaseaddr + (i * (2 * blockSize k) + blockSize k) ∈ g.pgFreelist k)) ∧
    ∀ e : Call, e.Permitted → ∀ f, step s e = .error f → f = .disabled := by
  have hs := inv_of_run hr
  refine ⟨fun g hg k a ha ↦ ?_, hs.pairwise_disjoint, fun g hg k i hk ↦ ⟨?_, fun hboth ↦ ?_⟩,
    fun e he f hf ↦ ?_⟩
  · have hinv := hs.group g hg
    have hfree := Group.mem_freelist hinv ha
    have hle := hinv.above k a ha
    refine ⟨hinv.sound.tiling.order (k, _) (.inl hfree), hle,
      hinv.sound.tiling.aligned (k, _) (.inl hfree), ?_⟩
    have hin := hinv.le_endaddr (.inl hfree)
    simp only [] at hin
    omega
  · exact (hs.group g hg).parity k i hk
  · have hpair : 2 * blockSize k ∣ i * (2 * blockSize k) := Nat.dvd_mul_left _ _
    refine (hs.group g hg).sound.merged k _ hk hboth.1 ?_
    rw [show buddy (size pageSize k) (i * (2 * blockSize k)) = i * (2 * blockSize k) + blockSize k
      from buddy_of_dvd (blockSize_pos k) hpair]
    exact hboth.2
  · have hfine := step_fine hs he
    rw [hf] at hfine
    exact hfine

/-- A hundred and thirty pages; one block of four pages and one of one page are allocated,
the first by splitting the only block five times. -/
def someAllocated : List Call :=
  [.addRange 0x100000 0x182000, .allocN 3 [] [], .alloc [] []]

omit [Orders] in
theorem someAllocated_handed_out_once : letI := Orders.stock
    ∃ s, Run (ofStep step) boot someAllocated.reverse s ∧
      s.live = [(0x17b000, 1), (0x17c000, 3)] ∧ s.extents.Pairwise Extent.Disjoint := by
  let := Orders.stock
  have hcheck : check step boot someAllocated
      (fun s ↦ decide (s.live = [(0x17b000, 1), (0x17c000, 3)])) = true := by
    decide +kernel
  obtain ⟨s, hs, hp⟩ := exists_of_check hcheck
  have hr := Run.of_exec hs
  exact ⟨s, hr, of_decide_eq_true hp, (blocks_handed_out_once hr).2.1⟩

/-! ## Full coalescing -/

theorem Group.Inv.mem_freelist_iff (hinv : g.Inv ∅) {a : ℕ} :
    a ∈ g.pgFreelist k ↔ k = lastOrder ∧ g.pgBaseaddr ≤ a ∧
      blockSize lastOrder ∣ a - g.pgBaseaddr ∧ a - g.pgBaseaddr < g.top := by
  have hfree := hinv.sound.eq_of_live_empty pageSize_pos (Nat.dvd_mul_left _ _)
  constructor
  · intro ha
    have hmem : (k, a - g.pgBaseaddr) ∈ g.free := Group.mem_freelist hinv ha
    rw [hfree] at hmem
    exact ⟨hmem.1, hinv.above k a ha, hmem.2⟩
  · rintro ⟨hk, hle, hrest⟩
    have hmem : (k, a - g.pgBaseaddr) ∈ g.free := hfree ▸ ⟨hk, hrest⟩
    rwa [Group.mem_free, Nat.add_sub_cancel' hle] at hmem

/-- **The allocator does not fragment.**  Once every block has been freed, in whatever
order, the free lists of each group hold the blocks that `_pagegroup_create` put there,
which are all of the largest order, and all bits are clear. -/
theorem coalesced_of_all_freed {h : List Call} (hr : Run (ofStep step) boot h s)
    (hfreed : s.live = []) : ∀ g ∈ s.groups,
    ∃ r ∈ s.ranges, ∃ g₀, pagegroupCreate r.1 r.2 = .ok g₀ ∧
      (∀ k a, a ∈ g.pgFreelist k ↔ a ∈ g₀.pgFreelist k) ∧
      (∀ k, k ≠ lastOrder → g.pgFreelist k = []) ∧
      ∀ k i, k + 1 < nsizes → g.pgMap (k + 1) i = false := by
  intro g hg
  have hs := inv_of_run hr
  have hinv := hs.group g hg
  have hempty : liveIn s.live g = ∅ := by
    simp [liveIn, hfreed]
  rw [hempty] at hinv
  obtain ⟨r, hr', hal, g₀, hok, hlt, hspan⟩ := hs.created g hg
  have hinv₀ := (pagegroupCreate_ok hal hok).2.2 hlt
  have hb : g.pgBaseaddr = g₀.pgBaseaddr := congrArg Prod.fst hspan
  have htop : g.top = g₀.top := by
    unfold Group.top
    rw [hb, show g.pgEndaddr = g₀.pgEndaddr from congrArg Prod.snd hspan]
  refine ⟨r, hr', g₀, hok, fun k a ↦ ?_, fun k hk ↦ ?_, fun k i hk ↦ ?_⟩
  · rw [hinv.mem_freelist_iff, hinv₀.mem_freelist_iff, hb, htop]
  · refine List.eq_nil_iff_forall_not_mem.mpr fun a ha ↦ hk ?_
    exact (hinv.mem_freelist_iff.mp ha).1
  · refine hinv.parity.eq_false (fun b hb ↦ ?_) hk
    have hlast : b.1 = lastOrder := (hinv.mem_freelist_iff.mp hb).1
    have hn := Orders.nsizes_pos
    rw [hlast, lastOrder]
    omega

/-- The two blocks are freed in the order in which they were allocated. -/
def allFreed : List Call := someAllocated ++ [.freeN 0x17c000 3, .free 0x17b000]

omit [Orders] in
theorem allFreed_coalesced : letI := Orders.stock
    ∃ s, Run (ofStep step) boot allFreed.reverse s ∧ s.live = [] ∧
      ∃ g ∈ s.groups, g.pgFreelist lastOrder = [0x100000] ∧
        ∀ k, k ≠ lastOrder → g.pgFreelist k = [] := by
  let := Orders.stock
  have hcheck : check step boot allFreed (fun s ↦ decide (s.live = [] ∧
      s.groups.map (·.pgFreelist lastOrder) = [[0x100000]])) = true := by
    decide +kernel
  obtain ⟨s, hs, hp⟩ := exists_of_check hcheck
  have hr := Run.of_exec hs
  obtain ⟨hlive, hlists⟩ := of_decide_eq_true hp
  obtain ⟨g, hg⟩ : ∃ g, s.groups = [g] := by
    rw [← List.length_eq_one_iff, ← List.length_map (·.pgFreelist lastOrder), hlists]
    rfl
  have hmem : g ∈ s.groups := by simp [hg]
  obtain ⟨-, -, -, -, -, hsmall, -⟩ := coalesced_of_all_freed hr hlive g hmem
  refine ⟨s, hr, hlive, g, hmem, ?_, hsmall⟩
  simpa [hg] using hlists

end CS402.Page

import CS402.Lib.Stretches
import CS402.Mm.Blocks

/-!
# The number of free pages

`page_freecount` is kept apart from the free lists: `page_add_range` adds the pages of the
new group to it, and an allocation or a free the pages of its block.  What it counts is
therefore a matter of book-keeping: no other call changes what it and the allocated blocks
make up together (`Conserves`), and that is the pages of all groups (`Balanced`).  What the
lists hold follows from the division of each group into blocks: together with the allocated
blocks they make up the memory that is divided, `Pages.Inv.freePages_add`.

The two differ by what `_pagegroup_create` gives up, the pages at the end of a group that
do not fill a block of the largest order.
-/

namespace CS402.Page

open Lib Lib.Buddy Function

variable {s s' : Pages} {g g' : Group} {i k addr npages : ℕ} {freed : List (ℕ × ℕ)}
  {r : Pages × Option ℕ} {h : List Call}

/-- The groups have the memory they had. -/
structure Keeps (s s' : Pages) : Prop where
  ranges : s'.ranges = s.ranges
  spans : s'.groups.map Group.span = s.groups.map Group.span

theorem Keeps.refl (s : Pages) : Keeps s s := ⟨rfl, rfl⟩

theorem Keeps.trans {s'' : Pages} (h : Keeps s s') (h' : Keeps s' s'') : Keeps s s'' :=
  ⟨h'.ranges.trans h.ranges, h'.spans.trans h.spans⟩

theorem Keeps.set (hi : s.groups[i]? = some g) (hspan : g'.span = g.span) (c : BitVec 32)
    (live : List (ℕ × ℕ)) :
    Keeps s { s with groups := s.groups.set i g', freecount := c, live := live } := by
  refine ⟨rfl, ?_⟩
  obtain ⟨hlt, hget⟩ := List.getElem?_eq_some_iff.mp hi
  rw [List.map_set, hspan, ← hget]
  refine List.ext_getElem? fun j ↦ ?_
  rw [List.getElem?_set]
  split
  · next hij =>
    subst hij
    simp [hlt]
  · rfl

/-- The pages of a group, as `page_add_range` counts them. -/
def Group.pages (g : Group) : ℕ := addrToPn (g.pgEndaddr - g.pgBaseaddr)

/-- The pages of all groups. -/
def managed (s : Pages) : ℕ := (s.groups.map Group.pages).sum

theorem Keeps.map_eq {α : Type*} (h : Keeps s s') (f : ℕ × ℕ → α) :
    s'.groups.map (fun g ↦ f g.span) = s.groups.map fun g ↦ f g.span := by
  have hmap := congrArg (List.map f) h.spans
  rwa [List.map_map, List.map_map] at hmap

theorem Keeps.managed_eq (h : Keeps s s') : managed s' = managed s :=
  congrArg List.sum (h.map_eq fun r ↦ addrToPn (r.2 - r.1))

variable [Orders]

/-! ## What is counted -/

/-- `page_free_count` -/
def pageFreeCount (s : Pages) : ℕ := s.freecount.toNat

/-- `pageoutd_needed`; `allocated` says whether `alloc_list` has a frame. -/
def pageoutdNeeded (s : Pages) (nfreepagesMin : ℕ) (allocated : Bool) : Bool :=
  decide (pageFreeCount s ≤ nfreepagesMin) && allocated

/-- `pageoutd_target_met` -/
def pageoutdTargetMet (s : Pages) (nfreepagesTarget : ℕ) : Bool :=
  decide (nfreepagesTarget ≤ pageFreeCount s)

/-- The pages of the blocks on the free lists of all groups. -/
def freePages (s : Pages) : ℕ := ((s.groups.flatMap Group.extents).map fun e ↦ 2 ^ e.2).sum

/-- The count is that of the pages that can be allocated, and so the page-out daemon
compares its limits with them. -/
structure Truthful (s : Pages) : Prop where
  count : pageFreeCount s = freePages s
  needed : ∀ nfreepagesMin allocated, pageoutdNeeded s nfreepagesMin allocated =
    (decide (freePages s ≤ nfreepagesMin) && allocated)
  targetMet : ∀ nfreepagesTarget, pageoutdTargetMet s nfreepagesTarget =
    decide (nfreepagesTarget ≤ freePages s)

theorem truthful_iff : Truthful s ↔ pageFreeCount s = freePages s := by
  refine ⟨Truthful.count, fun h ↦ ⟨h, fun n allocated ↦ ?_, fun n ↦ ?_⟩⟩
  · rw [pageoutdNeeded, h]
  · rw [pageoutdTargetMet, h]

/-- The pages at the end of a group that are in no block. -/
def Group.remainder (g : Group) : ℕ := g.pages % 2 ^ lastOrder

/-- The pages that `_pagegroup_create` gives up in a call. -/
def Call.remainder : Call → ℕ
  | .addRange start fin =>
    match pagegroupCreate (start / pageSize * pageSize) (fin / pageSize * pageSize) with
    | .ok g => g.remainder
    | .error _ => 0
  | _ => 0

/-- The addresses of the call are machine words. -/
def Call.Word : Call → Prop
  | .addRange start fin => start < 2 ^ 32 ∧ fin < 2 ^ 32
  | _ => True

instance : DecidablePred Call.Word
  | .addRange _ _ => inferInstanceAs (Decidable (_ ∧ _))
  | .alloc _ _ | .allocN _ _ _ | .free _ | .freeN _ _ => .isTrue trivial

/-! ## The memory of the groups stays what it is -/

namespace Group

theorem flipPair_span (h : g.flipPair k addr = .ok g') : g'.span = g.span := by
  unfold flipPair at h
  split at h
  · obtain ⟨index, -, h⟩ := bind_ok h
    rw [pure_eq_ok] at h
    subst h
    rfl
  · rw [pure_eq_ok] at h
    rw [h]

theorem remove_span (h : g.remove addr = .ok g') : g'.span = g.span := by
  obtain ⟨_, -, h⟩ := bind_ok h
  rw [pure_eq_ok] at h
  subst h
  rfl

theorem pageSplitBlock_span (h : pageSplitBlock g k = .ok g') : g'.span = g.span := by
  unfold pageSplitBlock at h
  obtain ⟨_, -, h⟩ := bind_ok h
  obtain ⟨_, -, h⟩ := bind_ok h
  split at h
  · cases h
  · obtain ⟨g₁, h₁, h⟩ := bind_ok h
    obtain ⟨index, -, h⟩ := bind_ok h
    obtain ⟨_, -, h⟩ := bind_ok h
    rw [pure_eq_ok] at h
    subst h
    have hspan := flipPair_span h₁
    exact hspan

theorem splitDown_span {d : ℕ} (h : splitDown k d g = .ok g') : g'.span = g.span := by
  induction d generalizing g with
  | zero =>
    cases h
    rfl
  | succ d ih =>
    obtain ⟨g₁, h₁, h⟩ := bind_ok h
    exact (ih h).trans (pageSplitBlock_span h₁)

theorem pageJoin_span {d : ℕ} (h : pageJoin d g k addr = .ok g') : g'.span = g.span := by
  induction d generalizing g k addr with
  | zero =>
    cases h
    rfl
  | succ d ih =>
    unfold pageJoin at h
    obtain ⟨index, -, h⟩ := bind_ok h
    split at h
    · rw [pure_eq_ok] at h
      rw [h]
    · obtain ⟨_, -, h⟩ := bind_ok h
      obtain ⟨g₁, h₁, h⟩ := bind_ok h
      obtain ⟨g₂, h₂, h⟩ := bind_ok h
      obtain ⟨g₃, h₃, h⟩ := bind_ok h
      have hspan := flipPair_span h₃
      rw [ih h, hspan]
      exact (remove_span h₂).trans (remove_span h₁)

end Group

/-! ## Book-keeping -/

/-- The pages of the block that a request for `npages` is given. -/
def blockPages (npages : ℕ) : ℕ := (orderOf npages).elim 0 (2 ^ ·)

theorem blockPages_eq (h : orderOf npages = some k) : blockPages npages = 2 ^ k := by
  rw [blockPages, h]
  rfl

/-- The pages of the allocated blocks. -/
def livePages (live : List (ℕ × ℕ)) : ℕ := (live.map fun b ↦ blockPages b.2).sum

theorem livePages_cons (b : ℕ × ℕ) (live : List (ℕ × ℕ)) :
    livePages (b :: live) = blockPages b.2 + livePages live := rfl

theorem livePages_erase {b : ℕ × ℕ} {live : List (ℕ × ℕ)} (h : b ∈ live) :
    livePages live = blockPages b.2 + livePages (live.erase b) :=
  ((List.perm_cons_erase h).map _).sum_eq

/-- The groups keep their memory, and the counter and the allocated blocks together their
pages. -/
structure Conserves (s s' : Pages) : Prop extends Keeps s s' where
  count : s'.freecount + BitVec.ofNat 32 (livePages s'.live) =
    s.freecount + BitVec.ofNat 32 (livePages s.live)

theorem Conserves.refl (s : Pages) : Conserves s s := ⟨.refl s, rfl⟩

theorem Conserves.trans {s'' : Pages} (h : Conserves s s') (h' : Conserves s' s'') :
    Conserves s s'' :=
  ⟨h.toKeeps.trans h'.toKeeps, h'.count.trans h.count⟩

theorem takeHead_eq {r : Option ℕ} (h : takeHead s i k = .ok (s', r)) :
    Keeps s s' ∧ s'.live = s.live ∧ s'.freecount = s.freecount - BitVec.ofNat 32 (2 ^ k) ∧
      r.isSome = true := by
  unfold takeHead at h
  obtain ⟨g, hg, h⟩ := bind_follow h
  split at h
  · cases h
  · obtain ⟨g', hflip, h⟩ := bind_ok h
    cases h
    have hspan := Group.flipPair_span hflip
    exact ⟨.set hg hspan _ _, rfl, rfl, rfl⟩

theorem pageFreeOrder_eq (h : pageFreeOrder s addr k = .ok s') : Keeps s s' ∧
    s'.freecount = if (pagegroupFromAddress s.groups addr).isSome then
      s.freecount + BitVec.ofNat 32 (2 ^ k) else s.freecount := by
  unfold pageFreeOrder at h
  split at h
  · next hfrom =>
    rw [pure_eq_ok] at h
    subst h
    rw [hfrom]
    exact ⟨.refl _, rfl⟩
  · next hfrom =>
    obtain ⟨g, hg, h⟩ := bind_follow h
    obtain ⟨g₁, h₁, h⟩ := bind_ok h
    obtain ⟨g₂, h₂, h⟩ := bind_ok h
    rw [pure_eq_ok] at h
    subst h
    have hspan := Group.flipPair_span h₁
    rw [hfrom]
    exact ⟨.set hg ((Group.pageJoin_span h₂).trans hspan) _ _, rfl⟩

namespace Pages.Inv

theorem pageFreeOrder_conserves (hs : s.Inv) (hmem : (addr, npages) ∈ s.live)
    (hk : orderOf npages = some k)
    (h : pageFreeOrder { s with live := s.live.erase (addr, npages) } addr k = .ok s') :
    Conserves s s' := by
  obtain ⟨i, g, hfrom, -⟩ := hs.pagegroupFromAddress_eq hmem
  obtain ⟨hkeep, hcount⟩ := pageFreeOrder_eq h
  have hfrom : pagegroupFromAddress s.groups addr = some i := hfrom
  refine ⟨⟨hkeep.ranges, hkeep.spans⟩, ?_⟩
  rw [pageFreeOrder_live h, hcount]
  simp only [hfrom, Option.isSome_some, if_true]
  rw [livePages_erase hmem, blockPages_eq hk, BitVec.ofNat_add]
  ac_rfl

theorem release_conserves {b : ℕ × ℕ} (hs : s.Inv) (h : release s b = .ok s') : Conserves s s' := by
  obtain ⟨hmem, h⟩ := bind_demand h
  obtain ⟨k, hk, -⟩ := hs.placed b hmem
  rw [pageFreeN, hk] at h
  exact hs.pageFreeOrder_conserves hmem hk h

theorem foldlM_release_conserves (hs : s.Inv)
    (h : freed.foldlM release s = .ok s') : Conserves s s' := by
  induction freed generalizing s with
  | nil =>
    cases h
    exact .refl _
  | cons b freed ih =>
    rw [List.foldlM_cons] at h
    obtain ⟨s₁, h₁, h⟩ := bind_ok h
    exact (hs.release_conserves h₁).trans (ih ((hs.release_fine b).of_ok h₁) h)

end Pages.Inv

theorem splitLarger_conserves {norder : ℕ}
    (h : (do
      let g ← follow .pointer s.groups[i]?
      let g ← splitDown k (norder - k) g
      demand .assertion (g.pgFreelist k ≠ [])
      pure ({ s with groups := s.groups.set i g }, some i)) = Except.ok r) : Conserves s r.1 := by
  obtain ⟨g, hg, h⟩ := bind_follow h
  obtain ⟨g', hdown, h⟩ := bind_ok h
  obtain ⟨_, -, h⟩ := bind_ok h
  rw [pure_eq_ok] at h
  subst h
  exact ⟨.set hg (Group.splitDown_span hdown) _ _, rfl⟩

theorem takeHead_conserves (hk : orderOf npages = some k)
    (h : takeHead s i k = .ok r) : Conserves s (hand npages r) := by
  obtain ⟨s', found⟩ := r
  obtain ⟨hkeep, hlive, hcount, hsome⟩ := takeHead_eq h
  obtain ⟨a, rfl⟩ := Option.isSome_iff_exists.mp hsome
  refine ⟨⟨hkeep.ranges, hkeep.spans⟩, ?_⟩
  simp only [hand, hlive, hcount, livePages_cons, blockPages_eq hk, BitVec.ofNat_add]
  rw [← BitVec.add_assoc, BitVec.sub_add_cancel]

namespace Pages.Inv

theorem pageSplit_conserves {more : List (List (ℕ × ℕ))}
    (hs : s.Inv) (h : pageSplit k freed more s = .ok r) : Conserves s r.1 := by
  induction more generalizing freed s with
  | nil =>
    unfold pageSplit at h
    split at h
    · exact splitLarger_conserves h
    · obtain ⟨s₁, h₁, h⟩ := bind_ok h
      cases h
      exact hs.foldlM_release_conserves h₁
  | cons freed' more ih =>
    unfold pageSplit at h
    split at h
    · exact splitLarger_conserves h
    · obtain ⟨s₁, h₁, h⟩ := bind_ok h
      exact (hs.foldlM_release_conserves h₁).trans (ih ((hs.foldlM_release_fine freed).of_ok h₁) h)

theorem pageAllocOrder_conserves {more : List (List (ℕ × ℕ))}
    (hs : s.Inv) (hk : orderOf npages = some k)
    (h : pageAllocOrder s k freed more = .ok r) : Conserves s (hand npages r) := by
  unfold pageAllocOrder at h
  split at h
  · exact takeHead_conserves hk h
  · obtain ⟨⟨s₁, found⟩, h₁, h⟩ := bind_ok h
    have hsplit : Conserves s s₁ := hs.pageSplit_conserves h₁
    cases found with
    | none =>
      cases h
      exact hsplit
    | some i =>
      obtain ⟨g, -, h⟩ := bind_ok h
      obtain ⟨_, -, h⟩ := bind_ok h
      exact hsplit.trans (takeHead_conserves hk h)

end Pages.Inv

/-- The counter and the allocated blocks make up the pages of all groups. -/
def Balanced (s : Pages) : Prop :=
  s.freecount + BitVec.ofNat 32 (livePages s.live) = BitVec.ofNat 32 (managed s)

theorem Conserves.balanced (h : Conserves s s') (hb : Balanced s) : Balanced s' := by
  unfold Balanced at hb ⊢
  rw [h.count, hb, h.managed_eq]

/-! ## What a run adds up to -/

/-- The pages of all groups that are in no block. -/
def remainders (s : Pages) : ℕ := (s.groups.map Group.remainder).sum

theorem Keeps.remainders_eq (h : Keeps s s') : remainders s' = remainders s :=
  congrArg List.sum (h.map_eq fun r ↦ addrToPn (r.2 - r.1) % 2 ^ lastOrder)

/-- What is known of a state after the calls of a history. -/
structure Account (h : List Call) (s : Pages) : Prop where
  inv : s.Inv
  balanced : Balanced s
  remainders : remainders s = (h.map Call.remainder).sum
  below : (∀ e ∈ h, e.Word) → ∀ r ∈ s.ranges, r.2 ≤ 2 ^ 32

theorem Account.boot : Account [] boot := ⟨.boot, rfl, rfl, fun _ _ hr ↦ nomatch hr⟩

theorem Account.keep {e : Call} (ha : Account h s) (hinv : s'.Inv)
    (hc : Conserves s s') (he : e.remainder = 0) : Account (e :: h) s' := by
  refine ⟨hinv, hc.balanced ha.balanced, ?_, fun hw ↦ ?_⟩
  · rw [hc.remainders_eq, ha.remainders, List.map_cons, List.sum_cons, he, Nat.zero_add]
  · rw [hc.ranges]
    exact ha.below fun e he ↦ hw e (List.mem_cons_of_mem _ he)

/-- `page_add_range` counts the pages of the new group, those that are in no block among
them. -/
theorem Account.addRange {start fin : ℕ} (ha : Account h s)
    (hstep : pageAddRange s start fin = .ok s') : Account (.addRange start fin :: h) s' := by
  have hinv := ha.inv.pageAddRange hstep
  unfold pageAddRange at hstep
  simp only [] at hstep
  obtain ⟨_, -, hstep⟩ := bind_ok hstep
  obtain ⟨_, -, hstep⟩ := bind_ok hstep
  obtain ⟨g, hg, hstep⟩ := bind_ok hstep
  have hrem : (Call.addRange start fin).remainder = g.remainder := by
    simp only [Call.remainder, hg]
  have hbelow : (∀ e ∈ Call.addRange start fin :: h, e.Word) →
      ∀ r ∈ (start / pageSize * pageSize, fin / pageSize * pageSize) :: s.ranges,
        r.2 ≤ 2 ^ 32 := by
    intro hw r hr
    rcases List.mem_cons.mp hr with rfl | hr
    · have hfin : fin < 2 ^ 32 := (hw _ List.mem_cons_self).2
      exact (Nat.div_mul_le_self fin pageSize).trans hfin.le
    · exact ha.below (fun e he ↦ hw e (List.mem_cons_of_mem _ he)) r hr
  have hbal := ha.balanced
  have hsum := ha.remainders
  unfold Balanced at hbal
  unfold Page.remainders at hsum
  split at hstep
  · next hlt =>
    rw [pure_eq_ok] at hstep
    subst hstep
    refine ⟨hinv, ?_, ?_, hbelow⟩
    · simp only [Balanced, managed, List.map_append, List.map_cons, List.map_nil, List.sum_append,
        List.sum_cons, List.sum_nil, Nat.add_zero, BitVec.ofNat_add] at hbal ⊢
      rw [← hbal, BitVec.add_assoc, BitVec.add_assoc, BitVec.add_comm (BitVec.ofNat 32 _)]
      rfl
    · simp only [Page.remainders, List.map_append, List.map_cons, List.map_nil, List.sum_append,
        List.sum_cons, List.sum_nil, Nat.add_zero, hsum, hrem]
      exact Nat.add_comm _ _
  · next hle =>
    -- the maps leave no page, and the group is not entered
    have hzero : g.remainder = 0 := by
      rw [Group.remainder, Group.pages, Nat.sub_eq_zero_of_le (Nat.le_of_not_lt hle)]
      simp [addrToPn]
    rw [pure_eq_ok] at hstep
    subst hstep
    refine ⟨hinv, ha.balanced, ?_, hbelow⟩
    rw [List.map_cons, List.sum_cons, hrem, hzero, Nat.zero_add]
    exact hsum

theorem Account.step {e : Call} (ha : Account h s) (hstep : step s e = .ok s') :
    Account (e :: h) s' := by
  have hinv := ha.inv.step hstep
  cases e with
  | addRange start fin => exact ha.addRange hstep
  | alloc freed more =>
    obtain ⟨r, hok, rfl⟩ := map_eq_ok.mp hstep
    exact ha.keep hinv (ha.inv.pageAllocOrder_conserves orderOf_one hok) rfl
  | allocN npages freed more =>
    obtain ⟨r, hok, rfl⟩ := map_eq_ok.mp hstep
    unfold pageAllocN at hok
    split at hok
    · cases hok
    · next k hk => exact ha.keep hinv (ha.inv.pageAllocOrder_conserves hk hok) rfl
  | free addr =>
    obtain ⟨hmem, hok⟩ := bind_demand hstep
    exact ha.keep hinv (ha.inv.pageFreeOrder_conserves hmem orderOf_one hok) rfl
  | freeN addr npages => exact ha.keep hinv (ha.inv.release_conserves hstep) rfl

theorem account_of_run (hr : Run (ofStep step) boot h s) : Account h s :=
  hr.history (fun _ _ _ _ ha hstep ↦ ha.step hstep) .boot

/-! ## The pages on the lists -/

/-- A block as a stretch of memory. -/
def Extent.stretch (e : Extent) : ℕ × ℕ := (e.1, e.1 + blockSize e.2)

/-- The memory of a group that is divided into blocks. -/
def Group.divided (g : Group) : ℕ × ℕ := (g.pgBaseaddr, g.pgBaseaddr + g.top)

theorem Group.top_eq (g : Group) : g.top = (g.pages - g.remainder) * pageSize := by
  have hdiv : (g.pgEndaddr - g.pgBaseaddr) / blockSize lastOrder = g.pages / 2 ^ lastOrder := by
    rw [blockSize, size, Group.pages, addrToPn, Nat.div_div_eq_div_mul, Nat.mul_comm]
  have hsub : g.pages - g.remainder = 2 ^ lastOrder * (g.pages / 2 ^ lastOrder) :=
    Nat.sub_eq_of_eq_add (Nat.div_add_mod _ _).symm
  rw [Group.top, hdiv, hsub, blockSize, size]
  ring

theorem Pages.Inv.mem_extents_iff (hs : s.Inv) {e : Extent} : e ∈ s.extents ↔
    ∃ g ∈ s.groups, ∃ b ∈ g.free ∪ liveIn s.live g, e = (g.pgBaseaddr + b.2, b.1) := by
  rw [Pages.extents, List.mem_append, List.mem_flatMap, List.mem_filterMap]
  constructor
  · rintro (⟨g, hg, he⟩ | ⟨b, hb, he⟩)
    · obtain ⟨k, x, rfl, hx⟩ := hs.mem_extents hg he
      exact ⟨g, hg, (k, x), .inl hx, rfl⟩
    · obtain ⟨g, hg, k, x, hk, hx, hlive⟩ := hs.exists_liveIn hb
      rw [hk, Option.map_some, Option.some.injEq, hx] at he
      exact ⟨g, hg, (k, x), .inr hlive, he.symm⟩
  · rintro ⟨g, hg, b, hb | ⟨-, npages, hmem, hk⟩, rfl⟩
    · have hlt := (hs.group g hg).sound.tiling.order b (.inl hb)
      exact .inl ⟨g, hg, List.mem_flatMap.mpr
        ⟨b.1, List.mem_range.mpr hlt, List.mem_map.mpr ⟨_, hb, rfl⟩⟩⟩
    · exact .inr ⟨_, hmem, by rw [hk, Option.map_some]⟩

theorem Pages.Inv.covers (hs : s.Inv) (z : ℕ) :
    (∃ r ∈ s.extents.map Extent.stretch, r.1 ≤ z ∧ z < r.2) ↔
      ∃ r ∈ s.groups.map Group.divided, r.1 ≤ z ∧ z < r.2 := by
  simp only [List.mem_map]
  constructor
  · rintro ⟨_, ⟨e, he, rfl⟩, hle, hlt⟩
    obtain ⟨g, hg, b, hb, rfl⟩ := hs.mem_extents_iff.mp he
    have hin : b.2 + blockSize b.1 ≤ g.top := (hs.group g hg).sound.tiling.inside b hb
    simp only [Extent.stretch] at hle hlt
    exact ⟨_, ⟨g, hg, rfl⟩, by simp only [Group.divided]; omega,
      by simp only [Group.divided]; omega⟩
  · rintro ⟨_, ⟨g, hg, rfl⟩, hle, hlt⟩
    simp only [Group.divided] at hle hlt
    obtain ⟨b, hb, hb₁, hb₂⟩ := (hs.group g hg).sound.tiling.cover (z - g.pgBaseaddr) (by omega)
    have hb₂ : z - g.pgBaseaddr < b.2 + blockSize b.1 := hb₂
    refine ⟨_, ⟨_, hs.mem_extents_iff.mpr ⟨g, hg, b, hb, rfl⟩, rfl⟩, ?_, ?_⟩ <;>
      simp only [Extent.stretch] <;> omega

omit [Orders] in
theorem total_extents (l : List Extent) :
    total (l.map Extent.stretch) = (l.map fun e ↦ 2 ^ e.2).sum * pageSize := by
  induction l with
  | nil => exact (Nat.zero_mul pageSize).symm
  | cons e l ih =>
    have hcons : total ((e :: l).map Extent.stretch) =
        blockSize e.2 + total (l.map Extent.stretch) :=
      congrArg (· + total (l.map Extent.stretch)) (Nat.add_sub_cancel_left e.1 (blockSize e.2))
    rw [hcons, ih, List.map_cons, List.sum_cons, Nat.add_mul]
    rfl

theorem total_divided (l : List Group) : total (l.map Group.divided) + (l.map Group.remainder).sum *
    pageSize = (l.map Group.pages).sum * pageSize := by
  induction l with
  | nil => simp [total]
  | cons g l ih =>
    have htop := g.top_eq
    have hle : g.remainder ≤ g.pages := Nat.mod_le _ _
    have hcons : total ((g :: l).map Group.divided) = g.top + total (l.map Group.divided) :=
      congrArg (· + total (l.map Group.divided)) (Nat.add_sub_cancel_left g.pgBaseaddr g.top)
    rw [hcons, htop, List.map_cons, List.map_cons, List.sum_cons, List.sum_cons]
    simp only [Nat.add_mul, Nat.sub_mul] at ih ⊢
    have hle' := Nat.mul_le_mul_right pageSize hle
    omega

theorem sum_live (live : List (ℕ × ℕ)) :
    ((live.filterMap fun b ↦ (orderOf b.2).map fun k ↦ (b.1, k)).map
      fun e : Extent ↦ 2 ^ e.2).sum = livePages live := by
  induction live with
  | nil => rfl
  | cons b live ih =>
    rw [livePages_cons, ← ih, List.filterMap_cons]
    cases hk : orderOf b.2 with
    | none => simp [blockPages, hk]
    | some k => simp [blockPages, hk]

theorem Pages.Inv.lt_endaddr (hs : s.Inv) (hg : g ∈ s.groups) : g.pgBaseaddr < g.pgEndaddr := by
  obtain ⟨r, -, -, g₀, -, hlt, hspan⟩ := hs.created g hg
  rwa [show g.pgBaseaddr = g₀.pgBaseaddr from congrArg Prod.fst hspan,
    show g.pgEndaddr = g₀.pgEndaddr from congrArg Prod.snd hspan]

/-- The pages on the lists, those of the allocated blocks and those in no block are all
pages. -/
theorem Pages.Inv.freePages_add (hs : s.Inv) :
    freePages s + livePages s.live + Page.remainders s = managed s := by
  have hext : (s.extents.map Extent.stretch).Pairwise fun r r' ↦ r.2 ≤ r'.1 ∨ r'.2 ≤ r.1 :=
    List.pairwise_map.mpr hs.pairwise_disjoint
  have hdiv : (s.groups.map Group.divided).Pairwise fun r r' ↦ r.2 ≤ r'.1 ∨ r'.2 ≤ r.1 := by
    refine List.pairwise_map.mpr
      ((List.pairwise_map.mp hs.apart).imp_of_mem fun {g g'} hg hg' hap ↦ ?_)
    have hlt := hs.lt_endaddr hg
    have hlt' := hs.lt_endaddr hg'
    have htop : g.top ≤ g.pgEndaddr - g.pgBaseaddr := Nat.div_mul_le_self _ _
    have htop' : g'.top ≤ g'.pgEndaddr - g'.pgBaseaddr := Nat.div_mul_le_self _ _
    simp only [Apart, Group.span] at hap
    simp only [Group.divided]
    omega
  have htotal := total_eq hext hdiv hs.covers
  have hsum := total_divided s.groups
  rw [← htotal, total_extents, Pages.extents, List.map_append, List.sum_append, sum_live,
    ← Nat.add_mul] at hsum
  exact Nat.eq_of_mul_eq_mul_right pageSize_pos hsum

theorem Account.managed_lt (ha : Account h s) (hw : ∀ e ∈ h, e.Word) : managed s < 2 ^ 32 := by
  have hle : managed s * pageSize ≤ total (s.groups.map Group.span) := by
    rw [managed]
    generalize s.groups = l
    induction l with
    | nil => simp [total]
    | cons g l ih =>
      have hg : g.pages * pageSize ≤ g.pgEndaddr - g.pgBaseaddr := Nat.div_mul_le_self _ _
      have hcons : total ((g :: l).map Group.span) =
          (g.pgEndaddr - g.pgBaseaddr) + total (l.map Group.span) := rfl
      rw [hcons, List.map_cons, List.sum_cons, Nat.add_mul]
      exact Nat.add_le_add hg ih
  have hbound : total (s.groups.map Group.span) ≤ 2 ^ 32 := by
    refine total_le ha.inv.apart fun r hr ↦ ?_
    obtain ⟨g, hg, rfl⟩ := List.mem_map.mp hr
    obtain ⟨r, hr, hal, g₀, hok, -, hspan⟩ := ha.inv.created g hg
    have hend := (pagegroupCreate_ok hal hok).2.1
    rw [hspan]
    exact hend.trans (ha.below hw r hr)
  have hps : pageSize = 4096 := rfl
  rw [hps] at hle
  omega

/-- **The free-page count is truthful exactly when no page was given up**, in every run of
the allocator's calls.  It counts the pages on the free lists of all groups and, for ever,
the pages that did not fill a block of the largest order when a range was added; the limits
of the page-out daemon are then compared with pages that nobody can allocate. -/
theorem pageFreeCount_truthful_iff {h : List Call} (hr : Run (ofStep step) boot h s)
    (hw : ∀ e ∈ h, e.Word) :
    pageFreeCount s = freePages s + (h.map Call.remainder).sum ∧
      (Truthful s ↔ ∀ e ∈ h, e.remainder = 0) := by
  have ha := account_of_run hr
  have hadd := ha.inv.freePages_add
  have hlt := ha.managed_lt hw
  have hcount : pageFreeCount s = freePages s + (h.map Call.remainder).sum := by
    have hbal := congrArg BitVec.toNat ha.balanced
    rw [BitVec.toNat_add, BitVec.toNat_ofNat, BitVec.toNat_ofNat, Nat.mod_eq_of_lt hlt] at hbal
    have hc := s.freecount.isLt
    rw [← ha.remainders, pageFreeCount]
    omega
  refine ⟨hcount, ?_⟩
  rw [truthful_iff, hcount, Nat.add_eq_left, List.sum_eq_zero_iff_forall_eq_nat]
  simp

/-- A hundred and twenty-nine pages, of which the last one is taken by the group itself. -/
def wholeRange : List Call := [.addRange 0x100000 0x181000, .allocN 3 [] [], .alloc [] []]

omit [Orders] in
theorem wholeRange_truthful : letI := Orders.stock
    ∃ s, Run (ofStep step) boot wholeRange.reverse s ∧ pageFreeCount s = 123 ∧ Truthful s := by
  let := Orders.stock
  have hcheck : check step boot wholeRange (fun s ↦ decide (pageFreeCount s = 123)) = true := by
    decide +kernel
  obtain ⟨s, hs, hp⟩ := exists_of_check hcheck
  have hr := Run.of_exec hs
  have hrem : ∀ e ∈ wholeRange.reverse, e.remainder = 0 := by decide +kernel
  exact ⟨s, hr, of_decide_eq_true hp,
    (pageFreeCount_truthful_iff hr (by decide +kernel)).2.mpr hrem⟩

omit [Orders] in
/-- With one page more the count is one page too large, whatever is allocated and freed. -/
theorem someAllocated_not_truthful : letI := Orders.stock
    ∃ s, Run (ofStep step) boot someAllocated.reverse s ∧ (∀ e ∈ someAllocated.reverse, e.Word) ∧
      pageFreeCount s = 124 ∧ freePages s = 123 ∧ ¬Truthful s := by
  let := Orders.stock
  have hcheck : check step boot someAllocated
      (fun s ↦ decide (pageFreeCount s = 124 ∧ freePages s = 123)) = true := by
    decide +kernel
  obtain ⟨s, hs, hp⟩ := exists_of_check hcheck
  obtain ⟨hcount, hfree⟩ := of_decide_eq_true hp
  refine ⟨s, Run.of_exec hs, by decide +kernel, hcount, hfree, fun ht ↦ ?_⟩
  have hsame := ht.count
  omega

end CS402.Page

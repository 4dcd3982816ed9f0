import CS402.Mm.SlabLists

/-!
# Reclaiming slabs

`slab_allocators_reclaim` walks along the slabs of each allocator with a pointer to the link
before the current slab, and takes out the slabs of which no object is in use.  `Shrunk`
relates the heap before and after: some empty slabs are gone, with their blocks, and
nothing else has changed.  `Heap.Inv.unlink` is one slab, and the two loops compose such
steps.
-/

namespace CS402.Slabs.Heap

open Lib Function Page

/-- The pages of a list of blocks. -/
def npages (gone : List (ℕ × ℕ)) : ℕ := (gone.map Prod.snd).sum

theorem npages_append (g g' : List (ℕ × ℕ)) : npages (g ++ g') = npages g + npages g' := by
  simp [npages]

variable [Orders] {s s' s'' : Heap} {v v' v'' : View} {i p : ℕ} {a : Allocator}

/-! ## Empty slabs -/

theorem Formed.length_free_le {free : List ℕ} (hf : s.Formed i a p free) :
    free.length ≤ a.saSlabNobjs := by
  have hsub := List.subperm_of_subset hf.chain.nodup hf.objects
  exact hsub.length_le.trans_eq Allocator.length_objects

theorem Formed.sInuse_eq_zero {free : List ℕ} (hf : s.Formed i a p free) :
    (s.slab p).sInuse = 0 ↔ ∀ o ∈ a.objects (s.slab p).sAddr, (i, o) ∉ s.live := by
  have hcount := hf.count
  constructor
  · intro hzero o ho
    have hlen : (a.objects (s.slab p).sAddr).length ≤ free.length := by
      rw [Allocator.length_objects]
      omega
    have hperm := (List.subperm_of_subset hf.chain.nodup hf.objects).perm_of_length_le hlen
    exact (hf.live o ho).mp (hperm.mem_iff.mpr ho)
  · intro hnone
    have hsub : a.objects (s.slab p).sAddr ⊆ free := fun o ho ↦ (hf.live o ho).mpr (hnone o ho)
    have hle := (List.subperm_of_subset Allocator.nodup_objects hsub).length_le
    rw [Allocator.length_objects] at hle
    have hge := hf.length_free_le
    omega

/-! ## What reclaiming may do -/

/-- The heap `s'` is `s` without some empty slabs, whose blocks `gone` were freed. -/
structure Shrunk (s : Heap) (v : View) (gone : List (ℕ × ℕ)) (s' : Heap) (v' : View) : Prop where
  allocators : s'.allocators = s.allocators
  live : s'.live = s.live
  bufctl : s'.bufctl = s.bufctl
  others : s'.others = s.others
  free : v'.free = v.free
  sAddr : ∀ p, (s'.slab p).sAddr = (s.slab p).sAddr
  sFree : ∀ p, (s'.slab p).sFree = (s.slab p).sFree
  sInuse : ∀ p, (s'.slab p).sInuse = (s.slab p).sInuse
  pages : s.pages.live.Perm (gone ++ s'.pages.live)
  sublist : ∀ i, (v'.slabs i).Sublist (v.slabs i)
  kept : ∀ i a, s.allocators[i]? = some a → ∀ p ∈ v.slabs i,
    p ∈ v'.slabs i ∨ ((s.slab p).sAddr, 2 ^ a.saOrder) ∈ gone
  gone : ∀ b ∈ gone, ∃ i a p, s.allocators[i]? = some a ∧ p ∈ v.slabs i ∧ p ∉ v'.slabs i ∧
    (s.slab p).sInuse = 0 ∧ b = ((s.slab p).sAddr, 2 ^ a.saOrder)

theorem Shrunk.refl (s : Heap) (v : View) : Shrunk s v [] s v where
  allocators := rfl
  live := rfl
  bufctl := rfl
  others := rfl
  free := rfl
  sAddr _ := rfl
  sFree _ := rfl
  sInuse _ := rfl
  pages := .refl _
  sublist _ := .refl _
  kept _ _ _ _ hp := .inl hp
  gone _ hb := nomatch hb

theorem Shrunk.trans {gone gone' : List (ℕ × ℕ)} (h : Shrunk s v gone s' v')
    (h' : Shrunk s' v' gone' s'' v'') : Shrunk s v (gone ++ gone') s'' v'' where
  allocators := h'.allocators.trans h.allocators
  live := h'.live.trans h.live
  bufctl := h'.bufctl.trans h.bufctl
  others := h'.others.trans h.others
  free := h'.free.trans h.free
  sAddr p := (h'.sAddr p).trans (h.sAddr p)
  sFree p := (h'.sFree p).trans (h.sFree p)
  sInuse p := (h'.sInuse p).trans (h.sInuse p)
  pages := by
    rw [List.append_assoc]
    exact h.pages.trans (h'.pages.append_left gone)
  sublist i := (h'.sublist i).trans (h.sublist i)
  kept i a hi p hp := by
    rw [List.mem_append]
    rcases h.kept i a hi p hp with hp | hp
    · have hkept := h'.kept i a (by rw [h.allocators]; exact hi) p hp
      rw [h.sAddr] at hkept
      exact hkept.imp_right .inr
    · exact .inr (.inl hp)
  gone b hb := by
    rcases List.mem_append.mp hb with hb | hb
    · obtain ⟨i, a, p, hi, hp, hp', hzero, rfl⟩ := h.gone b hb
      exact ⟨i, a, p, hi, hp, fun hp'' ↦ hp' ((h'.sublist i).subset hp''), hzero, rfl⟩
    · obtain ⟨i, a, p, hi, hp, hp', hzero, rfl⟩ := h'.gone b hb
      rw [h.allocators] at hi
      rw [h.sInuse] at hzero
      exact ⟨i, a, p, hi, (h.sublist i).subset hp, hp', hzero, by rw [h.sAddr]⟩

/-! ## One slab -/

section setPrev

variable {prev : Option ℕ} {n : ℕ}

theorem slab_setPrev (q : ℕ) : ((s.setPrev i prev n).slab q).sAddr = (s.slab q).sAddr ∧
    ((s.setPrev i prev n).slab q).sFree = (s.slab q).sFree ∧
    ((s.setPrev i prev n).slab q).sInuse = (s.slab q).sInuse := by
  cases prev with
  | none => exact ⟨rfl, rfl, rfl⟩
  | some r =>
    by_cases hq : q = r
    · subst hq
      simp [setPrev]
    · simp [setPrev, hq]

theorem next_setPrev {q : ℕ} (hq : q ∉ prev) : (s.setPrev i prev n).next q = s.next q := by
  cases prev with
  | none => rfl
  | some r =>
    have hne : q ≠ r := fun h ↦ hq (h ▸ rfl)
    simp [setPrev, next, hne]

theorem saSlabs_setPrev {j : ℕ} (hj : j ≠ i) : (s.setPrev i prev n).saSlabs j = s.saSlabs j := by
  cases prev with
  | none => exact update_of_ne hj _ _
  | some r => rfl

theorem fields_setPrev (prev : Option ℕ) : (s.setPrev i prev n).allocators = s.allocators ∧
    (s.setPrev i prev n).live = s.live ∧ (s.setPrev i prev n).bufctl = s.bufctl ∧
    (s.setPrev i prev n).others = s.others ∧ (s.setPrev i prev n).pages = s.pages := by
  cases prev <;> exact ⟨rfl, rfl, rfl, rfl, rfl⟩

theorem chain_setPrev {kept rest : List ℕ} (h : Chain s.next (s.saSlabs i) (kept ++ p :: rest)) :
    Chain (s.setPrev i kept.getLast? (s.next p)).next
      ((s.setPrev i kept.getLast? (s.next p)).saSlabs i) (kept ++ rest) := by
  rcases List.eq_nil_or_concat kept with rfl | ⟨l, q, rfl⟩
  · have hsa : (s.setPrev i none (s.next p)).saSlabs i = s.next p := update_self _ _ _
    rw [List.getLast?_nil, hsa]
    exact h.2.2
  · have hnext : (s.setPrev i (some q) (s.next p)).next = update s.next q (s.next p) := by
      funext r
      exact apply_update (fun _ ↦ Slab.sNext) s.slab q { s.slab q with sNext := s.next p } r
    rw [List.concat_eq_append, List.append_assoc] at h ⊢
    rw [List.getLast?_concat, hnext]
    exact h.unlink

end setPrev

/-- **An empty slab is taken out** and its block is freed. -/
theorem Inv.unlink (h : s.Inv v) (hi : s.allocators[i]? = some a) {kept rest : List ℕ}
    (hslabs : v.slabs i = kept ++ p :: rest) (hzero : (s.slab p).sInuse = 0) :
    ∃ pages, release s.pages ((s.slab p).sAddr, 2 ^ a.saOrder) = .ok pages ∧
      ({ s.setPrev i kept.getLast? (s.next p) with pages }).Inv
        { v with slabs := update v.slabs i (kept ++ rest) } ∧
      Shrunk s v [((s.slab p).sAddr, 2 ^ a.saOrder)]
        { s.setPrev i kept.getLast? (s.next p) with pages }
        { v with slabs := update v.slabs i (kept ++ rest) } := by
  have hp : p ∈ v.slabs i := by simp [hslabs]
  have hfp := h.formed i a hi p hp
  have hchain := h.chain i a hi
  rw [hslabs] at hchain
  have hnodup := hchain.nodup
  obtain ⟨pages, hrel, hpages, hlive⟩ := h.pages.release_ok hfp.block
  obtain ⟨hal, hliv, hbuf, hoth, -⟩ := fields_setPrev (s := s) (i := i) (n := s.next p) kept.getLast?
  -- the slabs that stay are not the one that goes
  have hsub : ∀ j, (update v.slabs i (kept ++ rest) j).Sublist (v.slabs j) := by
    intro j
    by_cases hj : j = i
    · subst hj
      rw [update_self, hslabs]
      exact (List.sublist_cons_self p rest).append_left kept
    · rw [update_of_ne hj]
  have hgone : p ∉ kept ++ rest := by
    have hperm : (kept ++ p :: rest).Perm (p :: (kept ++ rest)) := List.perm_middle
    exact (List.nodup_cons.mp (hperm.nodup_iff.mp hnodup)).1
  have hstay : ∀ j, ∀ q ∈ update v.slabs i (kept ++ rest) j, (s.slab q).sAddr ≠ (s.slab p).sAddr := by
    intro j q hq heq
    have hqv := (hsub j).subset hq
    obtain rfl := h.one j i q hqv p hp heq
    have hqp : q = p := by
      rw [(h.formed j a hi q hqv).place, hfp.place, heq]
    rw [update_self, hqp] at hq
    exact hgone hq
  have hblock : ∀ {b : ℕ × ℕ}, b ∈ s.pages.live → b.1 ≠ (s.slab p).sAddr → b ∈ pages.live := by
    intro b hb hne
    rw [hlive]
    exact (List.mem_erase_of_ne fun heq ↦ hne (congrArg Prod.fst heq)).mpr hb
  refine ⟨pages, hrel, ?_, ?_⟩
  · constructor <;> simp only [hal, hliv, hoth, slab_setPrev]
    case pages => exact hpages
    case chain =>
      intro j a' hj
      by_cases hji : j = i
      · subst hji
        rw [update_self]
        exact chain_setPrev hchain
      · rw [update_of_ne hji, saSlabs_setPrev hji]
        refine (h.chain j a' hj).congr fun q hq ↦ next_setPrev fun hlast ↦ hji ?_
        have hmem : q ∈ v.slabs i := by
          rw [hslabs]
          exact List.mem_append_left _ (List.mem_of_getLast? hlast)
        exact h.same_allocator hq hmem
    case allocator => exact fun j q hq ↦ h.allocator j q ((hsub j).subset hq)
    case formed =>
      intro j a' hj q hq
      have hf := h.formed j a' hj q ((hsub j).subset hq)
      refine hf.congr (slab_setPrev q).1 (slab_setPrev q).2.1 (slab_setPrev q).2.2
        (hblock hf.block (hstay j q hq)) (fun o _ ↦ ?_) fun o _ ↦ ?_
      · exact congrFun hbuf o
      · simp only []
    case one =>
      exact fun j k q hq r hr ↦ h.one j k q ((hsub j).subset hq) r ((hsub k).subset hr)
    case home =>
      intro j o hl
      obtain ⟨a', hj, q, hq, ho⟩ := h.home j o hl
      refine ⟨a', hj, q, ?_, ho⟩
      by_cases hji : j = i
      · subst hji
        obtain rfl : a = a' := Option.some.inj (hi.symm.trans hj)
        rw [update_self]
        rw [hslabs, List.mem_append, List.mem_cons] at hq
        rcases hq with hq | rfl | hq
        · exact List.mem_append_left _ hq
        · exact absurd hl (hfp.sInuse_eq_zero.mp hzero o ho)
        · exact List.mem_append_right _ hq
      · rw [update_of_ne hji]
        exact hq
    case nodup => exact h.nodup
    case others =>
      intro b hb
      obtain ⟨hb, hne⟩ := h.others b hb
      exact ⟨hblock hb (hne i p hp).symm, fun j q hq ↦ hne j q ((hsub j).subset hq)⟩
    case others_nodup => exact h.others_nodup
  · refine ⟨hal, hliv, hbuf, hoth, rfl, fun q ↦ (slab_setPrev q).1, fun q ↦ (slab_setPrev q).2.1,
      fun q ↦ (slab_setPrev q).2.2, ?_, hsub, fun j a' hj q hq ↦ ?_, fun b hb ↦ ?_⟩
    · rw [hlive]
      exact List.perm_cons_erase hfp.block
    · by_cases hji : j = i
      · subst hji
        obtain rfl : a = a' := Option.some.inj (hi.symm.trans hj)
        simp only [update_self]
        rw [hslabs, List.mem_append, List.mem_cons] at hq
        rcases hq with hq | rfl | hq
        · exact .inl (List.mem_append_left _ hq)
        · exact .inr (List.mem_singleton.mpr rfl)
        · exact .inl (List.mem_append_right _ hq)
      · simp only [update_of_ne hji]
        exact .inl hq
    · rw [List.mem_singleton] at hb
      exact ⟨i, a, p, hi, hp, by simpa using hgone, hzero, hb⟩

/-! ## The loops -/

/-- The loop over the slabs of one allocator: `kept` are the slabs that it has passed. -/
theorem Inv.reclaimSlabs {rest : List ℕ} {fuel slab : ℕ} (h : s.Inv v) (target : ℤ)
    (kept : List ℕ) (freed : ℤ) (hi : s.allocators[i]? = some a) (hslabs : v.slabs i = kept ++ rest)
    (hslab : Chain s.next slab rest) (hfuel : rest.length < fuel) :
    ∃ s' n met v' gone, reclaimSlabs target i a fuel s kept.getLast? slab freed = .ok (s', n, met) ∧
      s'.Inv v' ∧ Shrunk s v gone s' v' ∧ n = freed + npages gone ∧ (met = true → 0 < target) ∧
      (met = false → ∀ p ∈ v'.slabs i, p ∈ kept ∨ (s.slab p).sInuse ≠ 0) := by
  induction rest generalizing s v kept fuel slab freed with
  | nil =>
    obtain ⟨fuel, rfl⟩ := Nat.exists_eq_add_of_lt hfuel
    have hzero : slab = 0 := hslab
    refine ⟨s, freed, false, v, [], ?_, h, .refl s v, by simp [npages], nofun, fun _ p hp ↦ ?_⟩
    · rw [Heap.reclaimSlabs, if_pos hzero]
      rfl
    · rw [hslabs, List.append_nil] at hp
      exact .inl hp
  | cons p rest ih =>
    obtain ⟨fuel, rfl⟩ : ∃ m, fuel = m + 1 := Nat.exists_eq_succ_of_ne_zero (by omega)
    obtain ⟨rfl, hne, hrest⟩ := hslab
    have hfuel : rest.length < fuel := by simpa using hfuel
    rw [Heap.reclaimSlabs, if_neg hne]
    by_cases hzero : (s.slab slab).sInuse = 0
    · -- the slab is taken out, and the link before it stays where it is
      obtain ⟨pages, hrel, hinv, hshrunk⟩ := h.unlink hi hslabs hzero
      have hpages : (s.setPrev i kept.getLast? (s.slab slab).sNext).pages = s.pages :=
        (fields_setPrev _).2.2.2.2
      simp only [hzero, if_true, hpages, (slab_setPrev slab).1, hrel, ok_bind, pure_bind]
      have hn : freed + 2 ^ a.saOrder = freed + npages [((s.slab slab).sAddr, 2 ^ a.saOrder)] := by
        simp [npages]
      by_cases hmet : 0 < target ∧ target ≤ freed + 2 ^ a.saOrder
      · rw [if_pos hmet]
        exact ⟨_, _, true, _, _, rfl, hinv, hshrunk, hn, fun _ ↦ hmet.1, nofun⟩
      · rw [if_neg hmet]
        have hchain := h.chain i a hi
        rw [hslabs] at hchain
        have hnext : Chain (s.setPrev i kept.getLast? (s.next slab)).next (s.next slab) rest := by
          refine hrest.congr fun q hq ↦ next_setPrev fun hlast ↦ ?_
          have hdis := List.disjoint_of_nodup_append hchain.nodup
          exact hdis (List.mem_of_getLast? hlast) (List.mem_cons_of_mem _ hq)
        obtain ⟨s', n, met, v', gone, hok, hinv', hshrunk', rfl, hpos, hall⟩ :=
          ih hinv kept (freed + 2 ^ a.saOrder) (hshrunk.allocators ▸ hi)
            (update_self _ _ _) hnext hfuel
        refine ⟨s', _, met, v', _, hok, hinv', hshrunk.trans hshrunk', ?_, hpos, fun hm q hq ↦ ?_⟩
        · rw [hn, npages_append]
          push_cast
          omega
        · have hq' := hall hm q hq
          rwa [hshrunk.sInuse] at hq'
    · -- the slab stays, and its link is the one before the next slab
      simp only [hzero, if_false, pure_bind]
      by_cases hmet : 0 < target ∧ target ≤ freed
      · rw [if_pos hmet]
        exact ⟨s, freed, true, v, [], rfl, h, .refl s v, by simp [npages], fun _ ↦ hmet.1, nofun⟩
      · rw [if_neg hmet]
        obtain ⟨s', n, met, v', gone, hok, hinv', hshrunk, hn, hpos, hall⟩ :=
          ih h (kept ++ [slab]) freed hi (by simp [hslabs]) hrest hfuel
        rw [List.getLast?_concat] at hok
        refine ⟨s', n, met, v', gone, hok, hinv', hshrunk, hn, hpos, fun hm q hq ↦ ?_⟩
        rcases hall hm q hq with hq | hq
        · rw [List.mem_append, List.mem_singleton] at hq
          rcases hq with hq | rfl
          · exact .inl hq
          · exact .inr hzero
        · exact .inr hq

/-- The loop over the allocators from the position `i` on. -/
theorem Inv.reclaimFrom {allocators : List Allocator} (h : s.Inv v) (target freed : ℤ)
    (hdrop : s.allocators.drop i = allocators)
    (hdone : target ≤ 0 → ∀ j < i, ∀ p ∈ v.slabs j, (s.slab p).sInuse ≠ 0) :
    ∃ s' n v' gone, reclaimFrom target i allocators s freed = .ok (s', n) ∧ s'.Inv v' ∧
      Shrunk s v gone s' v' ∧ n = freed + npages gone ∧
      (target ≤ 0 → ∀ j, ∀ p ∈ v'.slabs j, (s.slab p).sInuse ≠ 0) := by
  induction allocators generalizing s v i freed with
  | nil =>
    refine ⟨s, freed, v, [], rfl, h, .refl s v, by simp [npages], fun ht j p hp ↦ ?_⟩
    obtain ⟨a, hj⟩ := h.allocator j p hp
    have hlen := List.drop_eq_nil_iff.mp hdrop
    have hlt := (List.getElem?_eq_some_iff.mp hj).1
    exact hdone ht j (by omega) p hp
  | cons a allocators ih =>
    have hi : s.allocators[i]? = some a := by
      rw [← List.head?_drop, hdrop]
      rfl
    have htail : s.allocators.drop (i + 1) = allocators := by
      rw [← List.tail_drop, hdrop]
      rfl
    obtain ⟨s₁, n, met, v₁, gone, hok, hinv, hshrunk, rfl, hpos, hall⟩ :=
      h.reclaimSlabs target [] freed hi (by simp) (h.chain i a hi)
        (h.length_slabs_lt hi)
    rw [Heap.reclaimFrom]
    have hok : Heap.reclaimSlabs target i a s.bound s none (s.saSlabs i) freed = _ := hok
    rw [hok, ok_bind]
    cases met with
    | true =>
      refine ⟨s₁, _, v₁, gone, rfl, hinv, hshrunk, rfl, fun ht ↦ ?_⟩
      exact absurd (hpos rfl) (by omega)
    | false =>
      obtain ⟨s', n, v', gone', hok', hinv', hshrunk', hn, hall'⟩ :=
        ih hinv (freed + npages gone) (by rw [hshrunk.allocators]; exact htail)
          fun ht j hj p hp ↦ by
            rw [hshrunk.sInuse]
            rcases Nat.lt_succ_iff_lt_or_eq.mp hj with hlt | rfl
            · exact hdone ht j hlt p ((hshrunk.sublist j).subset hp)
            · exact (hall rfl p hp).resolve_left nofun
      refine ⟨s', n, v', _, hok', hinv', hshrunk.trans hshrunk', ?_, fun ht j p hp ↦ ?_⟩
      · rw [hn, npages_append]
        push_cast
        omega
      · have hp' := hall' ht j p hp
        rwa [hshrunk.sInuse] at hp'

/-- **`slab_allocators_reclaim`** takes out empty slabs, returns the number of their pages,
and leaves no empty slab when there is no target. -/
theorem Inv.slabAllocatorsReclaim (h : s.Inv v) (target : ℤ) :
    ∃ s' n v' gone, s.slabAllocatorsReclaim target = .ok (s', n) ∧ s'.Inv v' ∧
      Shrunk s v gone s' v' ∧ n = npages gone ∧
      (target ≤ 0 → ∀ j, ∀ p ∈ v'.slabs j, (s.slab p).sInuse ≠ 0) := by
  obtain ⟨s', n, v', gone, hok, hinv, hshrunk, hn, hall⟩ :=
    h.reclaimFrom (i := 0) target 0 rfl (fun _ _ hj ↦ nomatch hj)
  exact ⟨s', n, v', gone, hok, hinv, hshrunk, by simpa using hn, hall⟩

end CS402.Slabs.Heap

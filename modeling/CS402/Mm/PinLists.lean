import CS402.Mm.Change
import CS402.Lib.Trans
import Mathlib.Data.List.Nodup

/-!
# Pin counts and the lists of pages

`pframe.c` means to keep the pages whose pin count is positive on `pinned_list`
and all others on `alloc_list`, so that pageoutd, which takes the head of
`alloc_list`, leaves pinned pages alone.  `PinsAgree` says this.

It does not: `pframe_pin` and `pframe_unpin` test "not pinned and count positive",
which never holds, so no page ever moves.  What does hold in every state that the
page operations reach is `AllAllocated`: `pinned_list` is empty and every resident
page, pinned or not, is on `alloc_list`.  The lists agree with the pin counts
exactly as long as no page is pinned (`pinsAgree_iff_unpinned`), and since every
page of an anonymous or shadow object is pinned when it is filled, one `pframe_get`
is enough to lose the agreement (`pinned_page_on_allocList`).
-/

namespace CS402.Mm

open CS402.Lib Function

/-- A call of one of the routines of `pframe.c`. -/
inductive PageEv where
  | get (o : ObjId) (n : ℕ)
  | pin (f : FrameId)
  | unpin (f : FrameId)
  | dirty (f : FrameId)
  | clean (f : FrameId)
  | free (f : FrameId)

/-- The effect of a call. -/
def pageStep [Layout] (s : Mem) : PageEv → Except Fault Mem
  | .get o n => do
    let _ ← follow .pointer (s.objs o)
    let (s, _) ← s.pframeGet o n
    return s
  | .pin f => s.pframePin f
  | .unpin f => s.pframeUnpin f
  | .dirty f => s.pframeDirty f
  | .clean f => s.pframeClean f
  | .free f => s.pframeFree f

/-- The page that pageoutd takes next. -/
def pageoutdPage (s : Mem) : Option FrameId := s.lists.allocList.head?

/-- What pageoutd does with the page it took. -/
def pageoutdTurn [Layout] (s : Mem) (f : FrameId) : Except Fault Mem := do
  let pf ← follow .pointer (s.frames f)
  demand .divergence (pf.pfBusy = false)
  if pf.pfDirty then s.pframeClean f else s.pframeFree f

/-- The lists and the pin counts agree. -/
structure PinsAgree (s : Mem) : Prop where
  /-- A pinned page is on `pinned_list` only. -/
  pinned : ∀ f pf, s.frames f = some pf → pf.IsPinned →
    f ∈ s.lists.pinnedList ∧ f ∉ s.lists.allocList
  /-- Any other page is on `alloc_list` only. -/
  unpinned : ∀ f pf, s.frames f = some pf → ¬ pf.IsPinned →
    f ∈ s.lists.allocList ∧ f ∉ s.lists.pinnedList
  npinned : s.lists.npinned = s.lists.pinnedList.length
  nallocated : s.lists.nallocated = s.lists.allocList.length
  /-- pageoutd does not take a pinned page. -/
  pageout : ∀ f pf, pageoutdPage s = some f → s.frames f = some pf → ¬ pf.IsPinned
  /-- The assertion of `pframe_clean_all` holds for every page it meets. -/
  cleanAll : ∀ f ∈ s.lists.allocList, ∀ pf, s.frames f = some pf → ¬ pf.IsPinned

/-- Every resident page is on `alloc_list`, and only there. -/
structure AllAllocated (s : Mem) : Prop where
  pinnedList : s.lists.pinnedList = []
  npinned : s.lists.npinned = 0
  nodup : s.lists.allocList.Nodup
  mem : ∀ f, f ∈ s.lists.allocList ↔ (s.frames f).isSome
  nallocated : s.lists.nallocated = s.lists.allocList.length
  fresh : ∀ f, (s.frames f).isSome → f < s.next

namespace AllAllocated

variable {s s' : Mem}

theorem congr (h : AllAllocated s) (hlists : s'.lists = s.lists) (hnext : s'.next = s.next)
    (hframes : ∀ f, (s'.frames f).isSome = (s.frames f).isSome) : AllAllocated s' where
  pinnedList := hlists ▸ h.pinnedList
  npinned := hlists ▸ h.npinned
  nodup := hlists ▸ h.nodup
  mem f := by rw [hlists, hframes]; exact h.mem f
  nallocated := hlists ▸ h.nallocated
  fresh f := by rw [hframes, hnext]; exact h.fresh f

theorem touch {f : FrameId} {pf : Pframe} (h : AllAllocated s) (hf : s.frames f = some pf) :
    AllAllocated (s.touch f) := by
  have hmem : f ∈ s.lists.allocList := (h.mem f).mpr (by simp [hf])
  unfold Mem.touch
  split
  · exact h
  refine ⟨?_, h.npinned, ?_, ?_, ?_, h.fresh⟩
  · show s.lists.pinnedList.erase f = []
    rw [h.pinnedList, List.erase_nil]
  · show (s.lists.allocList.erase f ++ [f]).Nodup
    rw [List.nodup_append]
    exact ⟨h.nodup.erase f, List.nodup_singleton f, by
      rintro x hx _ hy rfl
      exact h.nodup.not_mem_erase (List.mem_singleton.mp hy ▸ hx)⟩
  · intro g
    show g ∈ s.lists.allocList.erase f ++ [f] ↔ _
    rw [← h.mem g, List.mem_append, List.mem_singleton, h.nodup.mem_erase_iff]
    constructor
    · rintro (hg | rfl)
      · exact hg.2
      · exact hmem
    · intro hg
      rcases eq_or_ne g f with rfl | hne
      · exact .inr rfl
      · exact .inl ⟨hne, hg⟩
  · show s.lists.nallocated = _
    have hpos : 0 < s.lists.allocList.length := List.length_pos_of_mem hmem
    rw [List.length_append, List.length_erase_of_mem hmem, List.length_singleton, h.nallocated]
    omega

theorem uncache {f : FrameId} {pf : Pframe} {o : ObjId} {ob : MmObj} (h : AllAllocated s)
    (hf : s.frames f = some pf) : AllAllocated (s.uncache f o ob) := by
  have hmem : f ∈ s.lists.allocList := (h.mem f).mpr (by simp [hf])
  refine ⟨?_, h.npinned, h.nodup.erase f, ?_, ?_, ?_⟩
  · show s.lists.pinnedList.erase f = []
    rw [h.pinnedList, List.erase_nil]
  · intro g
    show g ∈ s.lists.allocList.erase f ↔ (update s.frames f none g).isSome
    rw [h.nodup.mem_erase_iff, h.mem g]
    rcases eq_or_ne g f with rfl | hne
    · simp
    · simp [hne]
  · show s.lists.nallocated - 1 = (s.lists.allocList.erase f).length
    have hpos : 0 < s.lists.allocList.length := List.length_pos_of_mem hmem
    rw [List.length_erase_of_mem hmem, h.nallocated]
    omega
  · intro g hg
    show g < s.next
    rcases eq_or_ne g f with rfl | hne
    · exact h.fresh g (by simp [hf])
    · exact h.fresh g (by simpa [Mem.uncache, hne] using hg)

theorem cache {o : ObjId} {n : ℕ} {ob : MmObj} (h : AllAllocated s) :
    AllAllocated (s.cache s.next o n ob) := by
  have hnew : s.next ∉ s.lists.allocList := fun hin ↦
    Nat.lt_irrefl _ (h.fresh _ ((h.mem _).mp hin))
  refine ⟨h.pinnedList, h.npinned, ?_, ?_, ?_, ?_⟩
  · show (s.lists.allocList ++ [s.next]).Nodup
    rw [List.nodup_append]
    exact ⟨h.nodup, List.nodup_singleton _, by
      rintro x hx _ hy rfl
      exact hnew (List.mem_singleton.mp hy ▸ hx)⟩
  · intro g
    show g ∈ s.lists.allocList ++ [s.next] ↔ (update s.frames s.next _ g).isSome
    rw [List.mem_append, List.mem_singleton, h.mem g]
    rcases eq_or_ne g s.next with rfl | hne
    · simp
    · simp [hne]
  · show s.lists.nallocated + 1 = ((s.lists.allocList ++ [s.next]).length : ℤ)
    rw [List.length_append, List.length_singleton, h.nallocated, Nat.cast_add, Nat.cast_one]
  · intro g hg
    show g < s.next + 1
    rcases eq_or_ne g s.next with rfl | hne
    · exact Nat.lt_succ_self _
    · exact Nat.lt_succ_of_lt (h.fresh g (by simpa [Mem.cache, hne] using hg))

theorem change (hc : Mem.Change s s') (h : AllAllocated s) : AllAllocated s' := by
  cases hc with
  | procs _ => exact h.congr rfl rfl fun _ ↦ rfl
  | @frame f pf pf' hf _ _ =>
    refine h.congr rfl rfl fun g ↦ ?_
    rcases eq_or_ne g f with rfl | hne
    · simp [hf]
    · simp [hne]
  | uncache hf _ => exact h.uncache hf
  | cache _ _ => exact h.cache
  | obj _ _ => exact h.congr rfl rfl fun _ ↦ rfl
  | vnodes _ => exact h.congr rfl rfl fun _ ↦ rfl
  | touch hf => exact h.touch hf
  | draw _ => exact h.congr rfl rfl fun _ ↦ rfl

/-- With all pages on `alloc_list`, the lists agree with the pin counts exactly when
there is nothing to agree about. -/
theorem pinsAgree_iff (h : AllAllocated s) :
    PinsAgree s ↔ ∀ f pf, s.frames f = some pf → ¬ pf.IsPinned := by
  constructor
  · intro hp f pf hf hpin
    have hin := (hp.pinned f pf hf hpin).1
    rw [h.pinnedList] at hin
    cases hin
  · intro hun
    refine ⟨fun f pf hf hpin ↦ absurd hpin (hun f pf hf), ?_, ?_, h.nallocated,
      fun f pf _ hf ↦ hun f pf hf, fun f _ pf hf ↦ hun f pf hf⟩
    · intro f pf hf _
      refine ⟨(h.mem f).mpr (by simp [hf]), ?_⟩
      rw [h.pinnedList]
      exact List.not_mem_nil
    · rw [h.npinned, h.pinnedList]
      rfl

end AllAllocated

/-- A state in which no page is resident: what `pframe_init` leaves, with any objects. -/
structure NoPages (s : Mem) : Prop where
  frames : ∀ f, s.frames f = none
  allocList : s.lists.allocList = []
  nallocated : s.lists.nallocated = 0
  pinnedList : s.lists.pinnedList = []
  npinned : s.lists.npinned = 0

theorem NoPages.allAllocated {s : Mem} (h : NoPages s) : AllAllocated s where
  pinnedList := h.pinnedList
  npinned := h.npinned
  nodup := h.allocList ▸ List.nodup_nil
  mem f := by simp [h.allocList, h.frames f]
  nallocated := by rw [h.nallocated, h.allocList]; rfl
  fresh f hf := by simp [h.frames f] at hf

section

variable [Layout]

theorem pageStep_changes {s s' : Mem} {e : PageEv} (h : pageStep s e = .ok s') :
    Mem.Changes s s' := by
  cases e with
  | get o n =>
    obtain ⟨_, -, h⟩ := bind_ok h
    obtain ⟨⟨s₁, r⟩, h₁, h⟩ := bind_ok h
    cases h
    exact Mem.pframeGet_changes h₁
  | pin f => exact Mem.pframePin_changes h
  | unpin f => exact Mem.pframeUnpin_changes h
  | dirty f => exact Mem.pframeDirty_changes h
  | clean f => exact Mem.pframeClean_changes h
  | free f => exact Mem.pframeFree_changes h

theorem allAllocated_of_run {s₀ s : Mem} {h : List PageEv} (h₀ : NoPages s₀)
    (hr : Run (ofStep pageStep) s₀ h s) : AllAllocated s :=
  hr.invariant (fun _ _ _ hs hstep ↦
    (pageStep_changes hstep).invariant (fun _ _ ↦ AllAllocated.change) hs) h₀.allAllocated

/-- In every state that page operations reach, the lists agree with the pin counts
if and only if no resident page is pinned. -/
theorem pinsAgree_iff_unpinned {s₀ s : Mem} {h : List PageEv} (h₀ : NoPages s₀)
    (hr : Run (ofStep pageStep) s₀ h s) :
    PinsAgree s ↔ ∀ f pf, s.frames f = some pf → ¬ pf.IsPinned :=
  (allAllocated_of_run h₀ hr).pinsAgree_iff

end

/-! ## A pinned page that pageoutd takes -/

/-- One anonymous object, with one reference. -/
def anonOnly : Mem :=
  { objs := update (fun _ ↦ none) 0 (some { mmoOps := .anon, mmoRefcount := 1 })
    next := 1 }

theorem noPages_anonOnly : NoPages anonOnly := ⟨fun _ ↦ rfl, rfl, rfl, rfl, rfl⟩

/-- The page that was got first is pinned and on `alloc_list`; pageoutd takes it and
fails in the assertion of `pframe_free`. -/
theorem pinned_page_on_allocList :
    ∃ s, Run (ofStep (@pageStep .stock)) anonOnly [.get 0 7] s ∧ ¬ PinsAgree s ∧
      ∃ f pf, pageoutdPage s = some f ∧ s.frames f = some pf ∧ pf.IsPinned ∧
        @pageoutdTurn .stock s f = .error .assertion := by
  obtain ⟨s, hs, htest⟩ := exists_of_check (f := @pageStep .stock) (s := anonOnly)
    (l := [.get 0 7]) (p := fun s ↦ pageoutdPage s == some 1 &&
      (s.frames 1).any (fun pf ↦ pf.IsPinned) && crashes .assertion (@pageoutdTurn .stock s 1))
    (by decide +kernel)
  simp only [Bool.and_eq_true, beq_iff_eq, Option.any_eq_true, decide_eq_true_eq] at htest
  obtain ⟨⟨hhead, pf, hpf, hpin⟩, hturn⟩ := htest
  refine ⟨s, Run.of_exec hs, ?_, 1, pf, hhead, hpf, hpin, crashes_eq_true.mp hturn⟩
  exact fun hagree ↦ hagree.pageout 1 pf hhead hpf hpin

/-- The equivalence after a page has been got and unpinned again. -/
theorem pinsAgree_anonOnly :
    ∃ s, Run (ofStep (@pageStep .stock)) anonOnly [.unpin 1, .get 0 7] s ∧
      (PinsAgree s ↔ ∀ f pf, s.frames f = some pf → ¬ pf.IsPinned) := by
  obtain ⟨s, hs, -⟩ := exists_of_check (f := @pageStep .stock) (s := anonOnly)
    (l := [.get 0 7, .unpin 1]) (p := fun _ ↦ true) (by decide +kernel)
  exact ⟨s, Run.of_exec hs,
    @pinsAgree_iff_unpinned .stock _ _ _ noPages_anonOnly (Run.of_exec hs)⟩

end CS402.Mm

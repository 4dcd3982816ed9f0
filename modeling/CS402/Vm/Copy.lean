import CS402.Mm.Fetch
import CS402.Vm.Access
import CS402.Vm.Reclaim

/-!
# Copying to and from user memory

What `vmmap_read` and `vmmap_write` are for: they look up the pages of a range of
addresses one after the other, and when all lookups succeed the bytes of the range are
those of the object pages that are mapped there; when one of them fails the answer is
`-EFAULT`.  `ReadRight` and `WriteRight` say this of an outcome.

The code looks up the first page only, copies all bytes from or to its frame, and trusts
the pointer to the frame even when the lookup has left it alone.  `Fits` is what has to be
the case before the call for the outcome to be right nevertheless.
-/

set_option linter.unusedSectionVars false

namespace CS402.Mm

open CS402.Lib Function

variable [Layout]

namespace Mem

/-- The lookup of a page through a map.  If no area covers the page there is no pointer to
a frame to be looked at, so it counts as cleared. -/
def pageOf (s : Mem) (m : MapId) (v : ℕ) (forwrite : Bool) :
    Except Fault (Mem × Except NoPage FrameId) := do
  let a ← s.vmmapLookup m v
  match a with
  | none => return (s, .error ⟨.EFAULT, true⟩)
  | some a =>
    let vma ← follow .pointer (s.areas a)
    let o ← follow .assertion vma.vmaObj
    s.pframeLookup o (vma.vmaOff + (v - vma.vmaStart)) forwrite

/-- The lookups of some pages, one after the other, and whether all of them succeed. -/
def pagesOf (m : MapId) (forwrite : Bool) : Mem → List ℕ → Except Fault (Mem × Bool)
  | s, [] => .ok (s, true)
  | s, v :: vs => do
    let (s, r) ← s.pageOf m v forwrite
    match r with
    | .error _ => return (s, false)
    | .ok _ => pagesOf m forwrite s vs

/-- The frame `f` holds the object page that the map has at an address. -/
def FrameAt (s : Mem) (m : MapId) (addr : ℕ) (f : FrameId) : Prop :=
  ∃ mp a vma o, s.maps m = some mp ∧ a ∈ mp.vmmList ∧ s.areas a = some vma ∧
    vma.Covers (addrToPn addr) ∧ vma.vmaObj = some o ∧
    s.PageAt f o (vma.vmaOff + (addrToPn addr - vma.vmaStart))

/-- The object page that the map has at an address holds the byte `b` there. -/
def ByteAt (s : Mem) (m : MapId) (addr : ℕ) (b : UInt8) : Prop :=
  ∃ mp a vma o d, s.maps m = some mp ∧ a ∈ mp.vmmList ∧ s.areas a = some vma ∧
    vma.Covers (addrToPn addr) ∧ vma.vmaObj = some o ∧
    Shows s (vma.vmaOff + (addrToPn addr - vma.vmaStart)) o d ∧ d (addr % pageSize) = b

end Mem

/-- The pages of a range of addresses. -/
def pageRange (vaddr count : ℕ) : List ℕ :=
  if count = 0 then [] else
    List.range' (addrToPn vaddr) (addrToPn (vaddr + count - 1) - addrToPn vaddr + 1)

/-- What `vmmap_read` owes: if all lookups succeed, the bytes of the range, and otherwise
`-EFAULT`. -/
structure ReadRight (s : Mem) (m : MapId) (vaddr count : ℕ)
    (out : Except Fault (Mem × Except Errno (List UInt8))) : Prop where
  success : ∀ s₁, s.pagesOf m false (pageRange vaddr count) = .ok (s₁, true) →
    ∃ s' buf, out = .ok (s', .ok buf) ∧ buf.length = count ∧
      ∀ i b, buf[i]? = some b → s.ByteAt m (vaddr + i) b
  failure : ∀ s₁, s.pagesOf m false (pageRange vaddr count) = .ok (s₁, false) →
    ∃ s', out = .ok (s', .error .EFAULT)

/-- What `vmmap_write` owes: if all lookups succeed, the bytes of the range are those of the
buffer and all other bytes of all frames are as before, and otherwise `-EFAULT`. -/
structure WriteRight (s : Mem) (m : MapId) (vaddr : ℕ) (buf : List UInt8)
    (out : Except Fault (Mem × Except Errno Unit)) : Prop where
  success : ∀ s₁, s.pagesOf m true (pageRange vaddr buf.length) = .ok (s₁, true) →
    ∃ s', out = .ok (s', .ok ()) ∧
      (∀ i b, buf[i]? = some b → s'.ByteAt m (vaddr + i) b) ∧
      ∀ f pf, s.frames f = some pf → ∃ pf', s'.frames f = some pf' ∧
        ∀ j, pf'.pfData j = pf.pfData j ∨
          ∃ i < buf.length, j = (vaddr + i) % pageSize ∧ s'.FrameAt m (vaddr + i) f
  failure : ∀ s₁, s.pagesOf m true (pageRange vaddr buf.length) = .ok (s₁, false) →
    ∃ s', out = .ok (s', .error .EFAULT)

/-- What may come of the lookup of the first page: a frame, if the range is within the
page, or a pointer that says that there is none. -/
def Harmless (vaddr count : ℕ) : Except Mem.NoPage FrameId → Prop
  | .ok _ => vaddr % pageSize + count ≤ pageSize
  | .error e => e.cleared = true

/-- When the code is right.  The lookup of no bytes fails in a map without areas. -/
def Fits (s : Mem) (m : MapId) (vaddr count : ℕ) (forwrite : Bool) : Prop :=
  if count = 0 then ∃ mp, s.maps m = some mp ∧ mp.vmmList ≠ []
  else ∃ s₁ r, s.pageOf m (addrToPn vaddr) forwrite = .ok (s₁, r) ∧ Harmless vaddr count r

/-- A map whose areas all have objects, in a state in order. -/
structure Ready (s : Mem) (m : MapId) (mp : Vmmap) : Prop where
  store : Store s s.heldBy
  tidy : TidyMap s m mp
  map : s.maps m = some mp
  object : ∀ a ∈ mp.vmmList, s.heldBy a ≠ none

variable {s s' : Mem} {m : MapId} {mp : Vmmap} {v vaddr count i : ℕ} {w : Bool} {f : FrameId}
  {W : ObjId → ℕ → Prop} {e : Mem.NoPage}

/-- What the lookup of a page finds. -/
structure Located (s s' : Mem) (m : MapId) (mp : Vmmap) (v : ℕ) (w : Bool) (f : FrameId) : Prop where
  area : ∃ a ∈ mp.vmmList, ∃ vma o, s.areas a = some vma ∧ vma.Covers v ∧ vma.vmaObj = some o ∧
    Eff s' (vma.vmaOff + (v - vma.vmaStart)) o f ∧
    (∃ d, Shows s (vma.vmaOff + (v - vma.vmaStart)) o d) ∧
    (w = true → s'.PageAt f o (vma.vmaOff + (v - vma.vmaStart)))

namespace Ready

theorem fetched (h : Ready s m mp) (hf : Fetched W s s')
    (hobjs : Objs s' s.heldBy) : Ready s' m mp := by
  have hheld : s'.heldBy = s.heldBy := Mem.heldBy_congr hf.rest.areas
  refine ⟨⟨hheld ▸ hobjs, hf.links h.store.links, hf.quiet h.store.quiet⟩, ?_,
    hf.rest.maps ▸ h.map, hheld ▸ h.object⟩
  exact h.tidy.congr fun a _ ↦ congrFun hf.rest.areas a

theorem pageOf_ok (h : Ready s m mp) (v : ℕ) (w : Bool) :
    ∃ s' r, s.pageOf m v w = .ok (s', r) ∧ Ready s' m mp ∧ (∃ W, Fetched W s s') ∧
      ∀ f, r = .ok f → Located s s' m mp v w f := by
  unfold Mem.pageOf Mem.vmmapLookup
  rw [h.map, follow_bind]
  cases hfind : mp.vmmList.find? (s.covers v) with
  | none =>
    exact ⟨s, _, rfl, h, ⟨fun _ _ ↦ False, .refl _ s⟩, fun f hf ↦ nomatch hf⟩
  | some a =>
    have hmem := List.mem_of_find?_eq_some hfind
    have hcov := List.find?_some hfind
    obtain ⟨vma, hvma, hc⟩ := (Option.any_eq_true ..).mp hcov
    obtain ⟨o, ho⟩ := Option.ne_none_iff_exists'.mp (h.object a hmem)
    have hobj : vma.vmaObj = some o := (Mem.heldBy_of_area hvma).symm.trans ho
    obtain ⟨ob, hob⟩ := h.store.objs.held a o ho
    obtain ⟨s', r, hlook, hout⟩ := pframeLookup_ok (n := vma.vmaOff + (v - vma.vmaStart))
      h.store.objs h.store.links (h.store.quiet.calm o) hob ⟨a, .inl ho⟩ w
    refine ⟨s', r, ?_, h.fetched hout.fetched hout.objs, ⟨_, hout.fetched⟩, fun f hf ↦ ?_⟩
    · simp only [pure_bind, hvma, hobj, follow_bind, hlook]
    · exact ⟨a, hmem, vma, o, hvma, decide_eq_true_eq.mp hc, hobj, (hout.found f hf).1,
        hout.shown f hf, (hout.found f hf).2⟩

theorem pagesOf_ok (h : Ready s m mp) (w : Bool) (l : List ℕ) :
    ∃ s' b, s.pagesOf m w l = .ok (s', b) := by
  induction l generalizing s with
  | nil => exact ⟨s, true, rfl⟩
  | cons v l ih =>
    obtain ⟨s₁, r, hr, h₁, -, -⟩ := h.pageOf_ok v w
    unfold Mem.pagesOf
    rw [hr, ok_bind]
    cases r with
    | error e => exact ⟨s₁, false, rfl⟩
    | ok f => exact ih h₁

end Ready

/-! ## The code against its purpose -/

theorem userFrame_of_pageOf {r : Except Mem.NoPage FrameId}
    (h : s.pageOf m v w = .ok (s', r)) :
    (∀ f, r = .ok f → s.userFrame m v w = .ok (s', some f)) ∧ ∀ e, r = .error e →
      s.userFrame m v w = if e.cleared then .ok (s', none) else .error .pointer := by
  obtain ⟨a, ha, h⟩ := bind_ok h
  unfold Mem.userFrame
  rw [ha, ok_bind]
  cases a with
  | none =>
    cases h
    exact ⟨nofun, by rintro _ ⟨⟩; rfl⟩
  | some a =>
    obtain ⟨vma, hvma, h⟩ := bind_ok h
    obtain ⟨o, ho, h⟩ := bind_ok h
    dsimp only
    rw [hvma, ok_bind, ho, ok_bind, h, ok_bind]
    exact ⟨by rintro _ rfl; rfl, by rintro _ rfl; rfl⟩

theorem pageRange_eq_singleton (h₀ : count ≠ 0) (h : vaddr % pageSize + count ≤ pageSize) :
    pageRange vaddr count = [addrToPn vaddr] := by
  unfold pageRange addrToPn
  unfold pageSize at *
  rw [if_neg h₀, show (vaddr + count - 1) / 4096 - vaddr / 4096 = 0 by omega]
  rfl

theorem pageRange_eq_cons (vaddr : ℕ) (h₀ : count ≠ 0) :
    ∃ l, pageRange vaddr count = addrToPn vaddr :: l := by
  unfold pageRange
  rw [if_neg h₀, List.range'_succ]
  exact ⟨_, rfl⟩

theorem pagesOf_of_error (h₀ : count ≠ 0)
    (h : s.pageOf m (addrToPn vaddr) w = .ok (s', .error e)) :
    s.pagesOf m w (pageRange vaddr count) = .ok (s', false) := by
  obtain ⟨l, hl⟩ := pageRange_eq_cons vaddr h₀
  rw [hl, Mem.pagesOf, h, ok_bind]
  rfl

theorem pagesOf_of_ok (h₀ : count ≠ 0) (hfit : vaddr % pageSize + count ≤ pageSize)
    (h : s.pageOf m (addrToPn vaddr) w = .ok (s', .ok f)) :
    s.pagesOf m w (pageRange vaddr count) = .ok (s', true) := by
  rw [pageRange_eq_singleton h₀ hfit, Mem.pagesOf, h, ok_bind]
  rfl

theorem addrToPn_add (hi : vaddr % pageSize + i < pageSize) :
    addrToPn (vaddr + i) = addrToPn vaddr := by
  unfold addrToPn
  unfold pageSize at *
  omega

theorem add_mod_pageSize (hi : vaddr % pageSize + i < pageSize) :
    (vaddr + i) % pageSize = vaddr % pageSize + i := by
  unfold pageSize at *
  omega

namespace Ready

variable {pf : Pframe}

theorem byteAt (h : Ready s m mp) (hf : Fetched W s s')
    (hs' : Ready s' m mp) (hloc : Located s s' m mp (addrToPn vaddr) w f)
    (hpf : s'.frames f = some pf) (hi : vaddr % pageSize + i < pageSize) :
    s.ByteAt m (vaddr + i) (pf.pfData (vaddr % pageSize + i)) := by
  obtain ⟨a, ha, vma, o, hvma, hc, ho, heff, ⟨d, hd⟩, -⟩ := hloc
  -- what the object shows is what the frame holds
  have hsame : d = pf.pfData :=
    (hf.shows h.store.objs hd).unique hs'.store.objs (heff.shows hpf)
  refine ⟨mp, a, vma, o, d, h.map, ha, hvma, ?_, ho, ?_, ?_⟩
  · rw [addrToPn_add hi]
    exact hc
  · rw [addrToPn_add hi]
    exact hd
  · rw [add_mod_pageSize hi, hsame]

theorem pageOf_of_empty (h : Ready s m mp) (hl : mp.vmmList = []) :
    s.pageOf m v w = .ok (s, .error ⟨.EFAULT, true⟩) := by
  unfold Mem.pageOf Mem.vmmapLookup
  rw [h.map, follow_bind, hl]
  rfl

theorem ne_nil_of_ok (h : Ready s m mp) (hp : s.pageOf m v w = .ok (s', .ok f)) :
    mp.vmmList ≠ [] := by
  intro hl
  rw [h.pageOf_of_empty hl] at hp
  cases hp

theorem fits_iff (h₀ : count ≠ 0) {r : Except Mem.NoPage FrameId}
    (hp : s.pageOf m (addrToPn vaddr) w = .ok (s', r)) :
    Fits s m vaddr count w ↔ Harmless vaddr count r := by
  unfold Fits
  rw [if_neg h₀]
  constructor
  · rintro ⟨s₁, r₁, hp₁, hr⟩
    cases hp.symm.trans hp₁
    exact hr
  · exact fun hr ↦ ⟨s', r, hp, hr⟩

/-! ### Reading -/

theorem read_of_ok (h : Ready s m mp) (h₀ : count ≠ 0)
    (hp : s.pageOf m (addrToPn vaddr) false = .ok (s', .ok f))
    (hpf : s'.frames f = some pf) :
    s.vmmapRead m vaddr count = do
      demand .overrun (vaddr % pageSize + count ≤ pageSize)
      return (s', .ok ((List.range count).map fun i ↦ pf.pfData (vaddr % pageSize + i))) := by
  unfold Mem.vmmapRead
  rw [h.map, follow_bind, if_neg (h.ne_nil_of_ok hp), if_neg h₀, (userFrame_of_pageOf hp).1 _ rfl,
    ok_bind]
  dsimp only
  rw [hpf, follow_bind]

theorem read_of_error (h : Ready s m mp) (h₀ : count ≠ 0)
    (hp : s.pageOf m (addrToPn vaddr) false = .ok (s', .error e)) :
    s.vmmapRead m vaddr count =
      if e.cleared then .ok (s', .error .EFAULT) else .error .pointer := by
  unfold Mem.vmmapRead
  rw [h.map, follow_bind]
  by_cases hl : mp.vmmList = []
  · rw [if_pos hl]
    rw [h.pageOf_of_empty hl] at hp
    cases hp
    rfl
  · rw [if_neg hl, if_neg h₀, (userFrame_of_pageOf hp).2 _ rfl]
    cases e.cleared <;> rfl

theorem read_nothing_right_iff (h : Ready s m mp) (vaddr : ℕ) :
    ReadRight s m vaddr 0 (s.vmmapRead m vaddr 0) ↔ mp.vmmList ≠ [] := by
  have hpages : s.pagesOf m false (pageRange vaddr 0) = .ok (s, true) := rfl
  have hread : s.vmmapRead m vaddr 0 =
      if mp.vmmList = [] then .ok (s, .error .EFAULT) else .ok (s, .ok []) := by
    unfold Mem.vmmapRead
    rw [h.map, follow_bind]
    rfl
  constructor
  · rintro hr hl
    obtain ⟨s', buf, hout, -⟩ := hr.success s hpages
    rw [hread, if_pos hl] at hout
    cases hout
  · intro hl
    rw [hread, if_neg hl]
    refine ⟨fun _ _ ↦ ⟨s, [], rfl, rfl, by simp⟩, fun s₁ hs₁ ↦ ?_⟩
    cases hpages.symm.trans hs₁

theorem asked (h : Ready s m mp) {P Q : Prop} {vs : List ℕ}
    (hsuccess : ∀ s₁, s.pagesOf m w vs = .ok (s₁, true) → P)
    (hfailure : ∀ s₁, s.pagesOf m w vs = .ok (s₁, false) → Q) : P ∨ Q := by
  obtain ⟨s₁, b, hpages⟩ := h.pagesOf_ok w vs
  cases b with
  | true => exact .inl (hsuccess s₁ hpages)
  | false => exact .inr (hfailure s₁ hpages)

theorem not_read_right (h : Ready s m mp) (vaddr count : ℕ) (e : Fault) :
    ¬ ReadRight s m vaddr count (.error e) := by
  intro hr
  obtain ⟨s', buf, hout, -⟩ | ⟨s', hout⟩ := h.asked hr.success hr.failure
  · cases hout
  · cases hout

theorem read_right_iff (h : Ready s m mp) (vaddr count : ℕ) :
    ReadRight s m vaddr count (s.vmmapRead m vaddr count) ↔ Fits s m vaddr count false := by
  rcases eq_or_ne count 0 with rfl | h₀
  · rw [h.read_nothing_right_iff, Fits, if_pos rfl]
    simp [h.map]
  obtain ⟨s₁, r, hp, h₁, ⟨W, hf⟩, hloc⟩ := h.pageOf_ok (addrToPn vaddr) false
  rw [fits_iff h₀ hp]
  cases r with
  | error e =>
    rw [h.read_of_error h₀ hp]
    by_cases hcl : e.cleared = true
    · rw [if_pos hcl]
      refine iff_of_true ⟨fun s₃ hs₃ ↦ ?_, fun _ _ ↦ ⟨s₁, rfl⟩⟩ hcl
      cases (pagesOf_of_error h₀ hp).symm.trans hs₃
    · rw [if_neg hcl]
      exact iff_of_false (h.not_read_right _ _ _) hcl
  | ok f =>
    obtain ⟨a, -, vma, o, -, -, -, heff, -⟩ := (hloc f rfl).area
    obtain ⟨u, -, pf, hpf, -⟩ := heff.pageAt h₁.store.objs
    rw [h.read_of_ok h₀ hp hpf]
    by_cases hfit : vaddr % pageSize + count ≤ pageSize
    · rw [demand_bind hfit]
      refine iff_of_true ⟨fun _ _ ↦ ⟨s₁, _, rfl, by simp, ?_⟩, fun s₃ hs₃ ↦ ?_⟩ hfit
      · intro i b hb
        obtain ⟨hi, hb⟩ := List.getElem?_eq_some_iff.mp hb
        rw [List.length_map, List.length_range] at hi
        rw [List.getElem_map, List.getElem_range] at hb
        rw [← hb]
        exact h.byteAt hf h₁ (hloc f rfl) hpf (by omega)
      · cases (pagesOf_of_ok h₀ hfit hp).symm.trans hs₃
    · rw [demand_neg hfit, error_bind]
      exact iff_of_false (h.not_read_right _ _ _) hfit

/-! ### Writing -/

variable {buf : List UInt8}

theorem write_of_ok (h : Ready s m mp) (h₀ : buf ≠ [])
    (hp : s.pageOf m (addrToPn vaddr) true = .ok (s', .ok f)) :
    s.vmmapWrite m vaddr buf = do
      demand .overrun (vaddr % pageSize + buf.length ≤ pageSize)
      let s ← (s'.modFrame f fun pf ↦
        { pf with pfData := Mem.storeBytes pf.pfData (vaddr % pageSize) buf }).pframeDirty f
      return (s, .ok ()) := by
  unfold Mem.vmmapWrite
  rw [h.map, follow_bind, if_neg (h.ne_nil_of_ok hp), if_neg h₀, (userFrame_of_pageOf hp).1 _ rfl,
    ok_bind]

theorem write_of_error (h : Ready s m mp) (h₀ : buf ≠ [])
    (hp : s.pageOf m (addrToPn vaddr) true = .ok (s', .error e)) :
    s.vmmapWrite m vaddr buf =
      if e.cleared then .ok (s', .error .EFAULT) else .error .pointer := by
  unfold Mem.vmmapWrite
  rw [h.map, follow_bind]
  by_cases hl : mp.vmmList = []
  · rw [if_pos hl]
    rw [h.pageOf_of_empty hl] at hp
    cases hp
    rfl
  · rw [if_neg hl, if_neg h₀, (userFrame_of_pageOf hp).2 _ rfl]
    cases e.cleared <;> rfl

theorem pframeDirty_ok (h : Ready s m mp) (hf : s.frames f = some pf)
    (g : Page → Page) : ∃ b, (s.modFrame f fun pf ↦ { pf with pfData := g pf.pfData }).pframeDirty f =
      .ok (s.setFrame f (some { pf with pfData := g pf.pfData, pfDirty := b })) := by
  obtain ⟨ob, hob⟩ := h.store.objs.owned f _ _ ⟨pf, hf, rfl, rfl⟩
  have hbusy := h.store.quiet.busy f pf hf
  have hmod : s.modFrame f (fun pf ↦ { pf with pfData := g pf.pfData }) =
      s.setFrame f (some { pf with pfData := g pf.pfData }) := by
    rw [Mem.modFrame, hf]
    rfl
  have hdirty : ∃ b, (s.setFrame f (some { pf with pfData := g pf.pfData })).dirtypage ob.mmoOps
      { pf with pfData := g pf.pfData } = .ok b := by
    unfold Mem.dirtypage
    split
    · exact ⟨_, rfl⟩
    · exact ⟨_, rfl⟩
    · next v hops =>
      obtain ⟨vn, hvn⟩ := h.store.objs.vnode _ ob v hob hops
      refine ⟨pf.pfDirty || vn.dirtypage pf.pfPagenum, ?_⟩
      rw [Mem.setFrame_vnodes, hvn, follow_bind]
      rfl
  obtain ⟨b, hb⟩ := hdirty
  refine ⟨pf.pfDirty || b, ?_⟩
  rw [hmod]
  unfold Mem.pframeDirty
  rw [Mem.setFrame_frames, update_self, follow_bind, demand_bind hbusy,
    Mem.setFrame_objs, hob, follow_bind, hb, ok_bind]
  simp [Mem.setFrame, pure, Except.pure]

theorem write_nothing_right_iff (h : Ready s m mp) (vaddr : ℕ) :
    WriteRight s m vaddr [] (s.vmmapWrite m vaddr []) ↔ mp.vmmList ≠ [] := by
  have hpages : s.pagesOf m true (pageRange vaddr 0) = .ok (s, true) := rfl
  have hwrite : s.vmmapWrite m vaddr [] =
      if mp.vmmList = [] then .ok (s, .error .EFAULT) else .ok (s, .ok ()) := by
    unfold Mem.vmmapWrite
    rw [h.map, follow_bind]
    rfl
  constructor
  · rintro hw hl
    obtain ⟨s', hout, -⟩ := hw.success s hpages
    rw [hwrite, if_pos hl] at hout
    cases hout
  · intro hl
    rw [hwrite, if_neg hl]
    refine ⟨fun _ _ ↦ ⟨s, rfl, by simp, fun f pf hf ↦ ⟨pf, hf, fun _ ↦ .inl rfl⟩⟩,
      fun s₁ hs₁ ↦ ?_⟩
    cases hpages.symm.trans hs₁

theorem not_write_right (h : Ready s m mp) (vaddr : ℕ) (buf : List UInt8) (e : Fault) :
    ¬ WriteRight s m vaddr buf (.error e) := by
  intro hw
  obtain ⟨s', hout, -⟩ | ⟨s', hout⟩ := h.asked hw.success hw.failure
  · cases hout
  · cases hout

/-- The bytes that are stored in a frame are those of the range. -/
theorem stored {s₁ : Mem} (h₁ : Ready s₁ m mp) (hf : Fetched W s s₁)
    (hloc : Located s s₁ m mp (addrToPn vaddr) true f) (hpf : s₁.frames f = some pf)
    (hfit : vaddr % pageSize + buf.length ≤ pageSize) {b : Bool}
    (hs' : s' = s₁.setFrame f (some { pf with
      pfData := Mem.storeBytes pf.pfData (vaddr % pageSize) buf, pfDirty := b })) :
    (∀ i b, buf[i]? = some b → s'.ByteAt m (vaddr + i) b) ∧
      ∀ g pg, s.frames g = some pg → ∃ pg', s'.frames g = some pg' ∧
        ∀ j, pg'.pfData j = pg.pfData j ∨
          ∃ i < buf.length, j = (vaddr + i) % pageSize ∧ s'.FrameAt m (vaddr + i) g := by
  obtain ⟨a, ha, vma, o, hvma, hc, ho, -, -, hpage⟩ := hloc
  obtain ⟨pf', hpf', hobj, hnum⟩ := hpage rfl
  cases hpf.symm.trans hpf'
  have hvma' : s'.areas a = some vma := by
    rw [hs', Mem.setFrame_areas, hf.rest.areas]
    exact hvma
  have hmap' : s'.maps m = some mp := by
    rw [hs', Mem.setFrame_maps]
    exact h₁.map
  have hframe : s'.frames f = some { pf with
      pfData := Mem.storeBytes pf.pfData (vaddr % pageSize) buf, pfDirty := b } := by
    rw [hs', Mem.setFrame_frames, update_self]
  refine ⟨fun i c hi ↦ ?_, fun g pg hg ↦ ?_⟩
  · obtain ⟨hlt, hget⟩ := List.getElem?_eq_some_iff.mp hi
    have hin : vaddr % pageSize + i < pageSize := by omega
    refine ⟨mp, a, vma, o, _, hmap', ha, hvma', ?_, ho, .page hframe hobj ?_, ?_⟩
    · rw [addrToPn_add hin]
      exact hc
    · rw [addrToPn_add hin]
      exact hnum
    · rw [add_mod_pageSize hin]
      unfold Mem.storeBytes
      dsimp only
      rw [if_pos ⟨Nat.le_add_right _ _, by omega⟩, Nat.add_sub_cancel_left, List.getD_eq_getElem?_getD,
        hi, Option.getD_some]
  · have hg₁ := hf.old g pg hg
    rcases eq_or_ne g f with rfl | hne
    · cases hpf.symm.trans hg₁
      refine ⟨_, hframe, fun j ↦ ?_⟩
      by_cases hj : vaddr % pageSize ≤ j ∧ j < vaddr % pageSize + buf.length
      · have hin : vaddr % pageSize + (j - vaddr % pageSize) < pageSize := by omega
        refine .inr ⟨j - vaddr % pageSize, by omega, ?_, mp, a, vma, o, hmap', ha, hvma', ?_, ho,
          _, hframe, hobj, ?_⟩
        · rw [add_mod_pageSize hin]
          omega
        · rw [addrToPn_add hin]
          exact hc
        · rw [addrToPn_add hin]
          exact hnum
      · exact .inl (if_neg hj)
    · refine ⟨pg, ?_, fun _ ↦ .inl rfl⟩
      rw [hs', Mem.setFrame_frames, update_of_ne hne]
      exact hg₁

theorem write_right_iff (h : Ready s m mp) (vaddr : ℕ) (buf : List UInt8) :
    WriteRight s m vaddr buf (s.vmmapWrite m vaddr buf) ↔ Fits s m vaddr buf.length true := by
  rcases eq_or_ne buf [] with rfl | h₀
  · rw [h.write_nothing_right_iff, Fits, List.length_nil, if_pos rfl]
    simp [h.map]
  have hlen : buf.length ≠ 0 := fun hz ↦ h₀ (List.length_eq_zero_iff.mp hz)
  obtain ⟨s₁, r, hp, h₁, ⟨W, hf⟩, hloc⟩ := h.pageOf_ok (addrToPn vaddr) true
  rw [fits_iff hlen hp]
  cases r with
  | error e =>
    rw [h.write_of_error h₀ hp]
    by_cases hcl : e.cleared = true
    · rw [if_pos hcl]
      refine iff_of_true ⟨fun s₃ hs₃ ↦ ?_, fun _ _ ↦ ⟨s₁, rfl⟩⟩ hcl
      cases (pagesOf_of_error hlen hp).symm.trans hs₃
    · rw [if_neg hcl]
      exact iff_of_false (h.not_write_right _ _ _) hcl
  | ok f =>
    obtain ⟨a, -, vma, o, -, -, -, heff, -⟩ := (hloc f rfl).area
    obtain ⟨u, -, pf, hpf, -⟩ := heff.pageAt h₁.store.objs
    rw [h.write_of_ok h₀ hp]
    by_cases hfit : vaddr % pageSize + buf.length ≤ pageSize
    · obtain ⟨b, hb⟩ := h₁.pframeDirty_ok hpf fun d ↦ Mem.storeBytes d (vaddr % pageSize) buf
      rw [demand_bind hfit, hb, ok_bind]
      refine iff_of_true ⟨fun _ _ ↦ ⟨_, rfl, ?_⟩, fun s₃ hs₃ ↦ ?_⟩ hfit
      · exact h₁.stored hf (hloc f rfl) hpf hfit rfl
      · cases (pagesOf_of_ok hlen hfit hp).symm.trans hs₃
    · rw [demand_neg hfit, error_bind]
      exact iff_of_false (h.not_write_right _ _ _) hfit

end Ready

/-- **`vmmap_read` and `vmmap_write` are right exactly when the range fits.** -/
theorem vmmapCopy_right_iff (h : Ready s m mp) (vaddr count : ℕ) (buf : List UInt8) :
    (ReadRight s m vaddr count (s.vmmapRead m vaddr count) ↔ Fits s m vaddr count false) ∧
    (WriteRight s m vaddr buf (s.vmmapWrite m vaddr buf) ↔ Fits s m vaddr buf.length true) :=
  ⟨h.read_right_iff vaddr count, h.write_right_iff vaddr buf⟩

/-! ## Two bytes on two pages -/

/-- A process with a private area of two pages. -/
def twoPages : List SpaceEv := [.create 1, .map 0 none 1024 2 3 2 0 .hilo]

omit [Layout] in
theorem exists_twoPages : ∃ s mp, @Ready .stock s 0 mp ∧
    (∀ w, ∃ s₁, @Mem.pagesOf .stock 0 w s [1024, 1025] = .ok (s₁, true)) ∧
    @Mem.vmmapRead .stock s 0 (pnToAddr 1025 - 1) 2 = .error .overrun ∧
    @Mem.vmmapWrite .stock s 0 (pnToAddr 1025 - 1) [7, 8] = .error .overrun := by
  obtain ⟨s, hs, htest⟩ := exists_of_check (f := @spaceStep .stock) (s := {}) (l := twoPages)
    (p := fun s ↦ (s.maps 0).any (fun mp ↦ mp.vmmList.all fun a ↦ (s.heldBy a).isSome) &&
      returns Prod.snd (@Mem.pagesOf .stock 0 true s [1024, 1025]) &&
      returns Prod.snd (@Mem.pagesOf .stock 0 false s [1024, 1025]) &&
      crashes .overrun (@Mem.vmmapRead .stock s 0 (pnToAddr 1025 - 1) 2) &&
      crashes .overrun (@Mem.vmmapWrite .stock s 0 (pnToAddr 1025 - 1) [7, 8]))
    (by decide +kernel)
  simp only [Bool.and_eq_true, Option.any_eq_true, List.all_eq_true, Option.isSome_iff_ne_none,
    returns_eq_true, crashes_eq_true, Prod.exists] at htest
  obtain ⟨⟨⟨⟨⟨mp, hmp, hobj⟩, s₁, b₁, hwrite, rfl⟩, s₂, b₂, hread, rfl⟩, hover⟩, hover'⟩ := htest
  have hspaces := @Booted.spaces_of_run .stock _ _ _ booted_empty (Run.of_exec hs)
  have hheld := @Spaces.held .stock _ _ hspaces
  have htidy := @Spaces.tidy .stock _ _ hspaces
  have hready : @Ready .stock s 0 mp :=
    @Ready.mk .stock _ _ _ (@Held.store .stock _ _ hheld) (@Tidy.map .stock _ htidy 0 mp hmp) hmp hobj
  refine ⟨s, mp, hready, fun w ↦ ?_, hover, hover'⟩
  cases w with
  | true => exact ⟨s₁, hwrite⟩
  | false => exact ⟨s₂, hread⟩

omit [Layout] in
/-- Both pages are mapped and can be looked up, but the bytes behind the frame of the first
page are read and written. -/
theorem bytes_on_two_pages : ∃ s mp, @Ready .stock s 0 mp ∧
    pageRange (pnToAddr 1025 - 1) 2 = [1024, 1025] ∧
    (∀ w, ∃ s₁, @Mem.pagesOf .stock 0 w s [1024, 1025] = .ok (s₁, true)) ∧
    @Mem.vmmapRead .stock s 0 (pnToAddr 1025 - 1) 2 = .error .overrun ∧
    @Mem.vmmapWrite .stock s 0 (pnToAddr 1025 - 1) [7, 8] = .error .overrun := by
  obtain ⟨s, mp, h, hpages, hread, hwrite⟩ := exists_twoPages
  exact ⟨s, mp, h, by decide, hpages, hread, hwrite⟩

theorem fits_of_pagesOf {vs : List ℕ} (hv : addrToPn vaddr = v) (hcount : 0 < count)
    (hend : vaddr % pageSize + count ≤ pageSize)
    (h : s.pagesOf m w (v :: vs) = .ok (s', true)) : Fits s m vaddr count w := by
  subst hv
  obtain ⟨⟨s₁, r⟩, hp, h⟩ := bind_ok h
  unfold Fits
  rw [if_neg (by omega)]
  cases r with
  | error e => cases h
  | ok f => exact ⟨s₁, .ok f, hp, hend⟩

omit [Layout] in
/-- A byte on one page is read and written. -/
theorem byte_on_one_page : ∃ s mp, @Ready .stock s 0 mp ∧
    @ReadRight .stock s 0 (pnToAddr 1024) 1 (@Mem.vmmapRead .stock s 0 (pnToAddr 1024) 1) ∧
    @WriteRight .stock s 0 (pnToAddr 1024) [7] (@Mem.vmmapWrite .stock s 0 (pnToAddr 1024) [7]) := by
  obtain ⟨s, mp, h, hpages, -⟩ := exists_twoPages
  have hiff := @vmmapCopy_right_iff .stock _ _ _ h (pnToAddr 1024) 1 [7]
  have hfits : ∀ w, @Fits .stock s 0 (pnToAddr 1024) 1 w := fun w ↦
    (hpages w).elim fun s₁ h ↦ @fits_of_pagesOf .stock _ _ _ 1024 _ 1 _ _ (by decide) (by decide)
      (by decide) h
  exact ⟨s, mp, h, hiff.1.mpr (hfits false), hiff.2.mpr (hfits true)⟩

end CS402.Mm

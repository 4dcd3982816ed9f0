import CS402.Mm.Pframe
import Mathlib.Logic.Relation

/-!
# What page operations can do

Every routine of `Mm.Pframe` is a sequence of a few elementary changes: entries
leave page tables, a page changes its pin count, flags or contents, a page enters
or leaves the cache, an object or a vnode is stored, a page moves to the back of
`alloc_list`, an allocator is asked.  `Changes` is the reflexive and transitive
closure of these; a property that each elementary change respects is then kept by
all of the routines, without going through them again.
-/

set_option linter.unusedSectionVars false

namespace CS402.Mm

open CS402.Lib Function Relation

namespace Mem

/-- One elementary change. -/
inductive Change : Mem → Mem → Prop
  /-- Entries leave page tables. -/
  | procs {s : Mem} {P : Pid → Option Proc} (h : ProcsLe P s.procs) :
      Change s { s with procs := P }
  /-- A page changes, but not its identity. -/
  | frame {s : Mem} {f : FrameId} {pf pf' : Pframe} (h : s.frames f = some pf)
      (hobj : pf'.pfObj = pf.pfObj) (hnum : pf'.pfPagenum = pf.pfPagenum) :
      Change s (s.setFrame f (some pf'))
  /-- A page leaves the cache. -/
  | uncache {s : Mem} {f : FrameId} {pf : Pframe} {ob : MmObj} (h : s.frames f = some pf)
      (hob : s.objs pf.pfObj = some ob) : Change s (s.uncache f pf.pfObj ob)
  /-- A page enters the cache. -/
  | cache {s : Mem} {o : ObjId} {ob : MmObj} (n : ℕ) (hob : s.objs o = some ob) :
      Change s (s.cache s.next o n ob)
  /-- An object is stored or removed. -/
  | obj {s : Mem} (o : ObjId) (x : Option MmObj) : Change s (s.setObj o x)
  /-- Vnodes change. -/
  | vnodes {s : Mem} (V : VnodeId → Option Vnode) : Change s { s with vnodes := V }
  /-- A resident page is used. -/
  | touch {s : Mem} {f : FrameId} {pf : Pframe} (h : s.frames f = some pf) :
      Change s (s.touch f)
  /-- An allocator is asked. -/
  | draw {s : Mem} (k : Allocator) : Change s (s.draw k)

/-- A sequence of elementary changes. -/
abbrev Changes : Mem → Mem → Prop := ReflTransGen Change

variable {s s' : Mem} {f : FrameId} {o : ObjId} {n : ℕ}

theorem Change.changes (h : Change s s') : Changes s s' := .single h

theorem Changes.invariant {I : Mem → Prop} (hstep : ∀ s s', Change s s' → I s → I s')
    (h : Changes s s') (hs : I s) : I s' := by
  induction h with
  | refl => exact hs
  | tail _ hc ih => exact hstep _ _ hc ih

theorem modFrame_changes {g : Pframe → Pframe} (hobj : ∀ pf, (g pf).pfObj = pf.pfObj)
    (hnum : ∀ pf, (g pf).pfPagenum = pf.pfPagenum) : Changes s (s.modFrame f g) := by
  unfold modFrame
  cases hf : s.frames f with
  | none =>
    have heq : s.setFrame f (Option.map g none) = s := by
      rw [Option.map_none, ← hf, setFrame, update_eq_self]
    rw [heq]
  | some pf => exact (Change.frame hf (hobj pf) (hnum pf)).changes

theorem pframePin_changes (h : s.pframePin f = .ok s') : Changes s s' := by
  obtain ⟨pf, hpf, -, rfl⟩ := pframePin_eq_ok.mp h
  exact (Change.frame hpf (by rfl) (by rfl)).changes

theorem pframeUnpin_changes (h : s.pframeUnpin f = .ok s') : Changes s s' := by
  obtain ⟨pf, hpf, -, rfl⟩ := pframeUnpin_eq_ok.mp h
  exact (Change.frame hpf (by rfl) (by rfl)).changes

section

variable [Layout] {put : Mem → ObjId → Except Fault Mem}

theorem pframeDirty_changes (h : s.pframeDirty f = .ok s') : Changes s s' := by
  obtain ⟨pf, hpf, h⟩ := bind_follow h
  obtain ⟨_, -, h⟩ := bind_ok h
  obtain ⟨ob, -, h⟩ := bind_ok h
  obtain ⟨ok, -, h⟩ := bind_ok h
  rw [← pure_eq_ok.mp h]
  exact (Change.frame hpf (by rfl) (by rfl)).changes

/-- What a put needs of a property to keep it. -/
structure Freeing (I : Mem → Prop) : Prop where
  procs {s : Mem} {P : Pid → Option Proc} : I s → ProcsLe P s.procs → I { s with procs := P }
  frame {s : Mem} {f : FrameId} {pf pf' : Pframe} : s.frames f = some pf →
    pf'.pfObj = pf.pfObj → pf'.pfPagenum = pf.pfPagenum → I s → I (s.setFrame f (some pf'))
  uncache {s s₁ : Mem} {f : FrameId} {pf : Pframe} {ob : MmObj} : s.frames f = some pf →
    s.pframeRemoveFromPts f = .ok s₁ → s₁.objs pf.pfObj = some ob → I s →
    I (s₁.uncache f pf.pfObj ob)
  count {s : Mem} {o : ObjId} {ob : MmObj} : s.objs o = some ob → I s →
    I (s.setObj o (some { ob with mmoRefcount := ob.mmoRefcount - 1 }))
  free {s : Mem} (o : ObjId) : I s → I (s.setObj o none)
  vnodes {s : Mem} (V : VnodeId → Option Vnode) : I s → I { s with vnodes := V }

namespace Freeing

variable {I : Mem → Prop} (hI : Freeing I)
include hI

theorem pframeClean (h : s.pframeClean f = .ok s') (hs : I s) : I s' := by
  obtain ⟨pf, P, V, d, hpf, hP, rfl⟩ := pframeClean_cases h
  exact hI.vnodes V (hI.procs (hI.frame hpf (by rfl) (by rfl) hs) hP)

theorem freeWith (hput : ∀ s o s', put s o = .ok s' → I s → I s')
    (h : Mem.freeWith put s f = .ok s') (hs : I s) : I s' := by
  obtain ⟨pf, hpf, -, -, s₁, h₁, ob, hob, h⟩ := freeWith_eq_ok.mp h
  exact hput _ _ _ h (hI.uncache hpf h₁ hob hs)

theorem reclaimWith (hput : ∀ s o s', put s o = .ok s' → I s → I s')
    (h : Mem.reclaimWith put s f = .ok s') (hs : I s) : I s' := by
  obtain ⟨pf, -, s₁, h₁, s₂, h₂, h⟩ := reclaimWith_eq_ok.mp h
  have hs₁ : I s₁ := by
    unfold unpinIf at h₁
    split at h₁
    · obtain ⟨pg, hg, -, rfl⟩ := pframeUnpin_eq_ok.mp h₁
      exact hI.frame hg rfl rfl hs
    · cases h₁; exact hs
  have hs₂ : I s₂ := by
    unfold cleanIf at h₂
    split at h₂
    · exact hI.pframeClean h₂ hs₁
    · cases h₂; exact hs₁
  exact hI.freeWith hput h hs₂

theorem vputLast {v : VnodeId} (h : s.vputLast o v = .ok s') (hs : I s) : I s' := by
  obtain ⟨ob, hob, h⟩ := bind_follow h
  split at h
  · cases h
    exact hI.count hob hs
  · obtain ⟨-, -, h⟩ := bind_ok h
    obtain ⟨-, -, h⟩ := bind_ok h
    cases h
    exact hI.vnodes _ (hI.free o hs)

/-- Dropping a reference, whatever goes with it. -/
theorem putN : ∀ {k : ℕ} {s s' : Mem} {o : ObjId}, Mem.putN k s o = .ok s' → I s → I s' := by
  intro k
  induction k with
  | zero => intro s s' o h; cases h
  | succ k ih =>
    intro s s' o h hs
    obtain ⟨ob, hob, h⟩ := bind_follow h
    have hput : ∀ s o s', Mem.putN k s o = .ok s' → I s → I s' := fun _ _ _ ↦ ih
    split at h
    · -- anonymous
      obtain ⟨-, -, h⟩ := bind_ok h
      split at h
      · obtain ⟨s₁, h₁, h⟩ := bind_ok h
        cases h
        exact hI.free o (foldl_invariant (fun _ _ _ _ hs hf ↦ hI.reclaimWith hput hf hs) hs h₁)
      · cases h
        exact hI.count hob hs
    · -- shadow
      obtain ⟨-, -, h⟩ := bind_ok h
      split at h
      · obtain ⟨s₁, h₁, h⟩ := bind_ok h
        obtain ⟨below, -, h⟩ := bind_ok h
        have hs₁ := foldl_invariant (fun _ _ _ _ hs hf ↦ hI.reclaimWith hput hf hs) hs h₁
        exact ih h (hI.free o hs₁)
      · cases h
        exact hI.count hob hs
    · -- vnode
      obtain ⟨-, -, h⟩ := bind_ok h
      obtain ⟨-, -, h⟩ := bind_ok h
      obtain ⟨vn, -, h⟩ := bind_ok h
      split at h
      · obtain ⟨s₁, h₁, h⟩ := bind_ok h
        obtain ⟨ob₁, -, h⟩ := bind_ok h
        obtain ⟨-, -, h⟩ := bind_ok h
        obtain ⟨-, -, h⟩ := bind_ok h
        have hs₁ := foldl_invariant (fun _ _ _ _ hs hf ↦ hI.freeWith hput hf hs) hs h₁
        exact hI.vputLast h hs₁
      · exact hI.vputLast h hs

end Freeing

theorem Changes.freeing (s : Mem) : Freeing (Changes s) where
  procs hs hP := hs.tail (.procs hP)
  frame hf hobj hnum hs := hs.tail (.frame hf hobj hnum)
  uncache hf hpts hob hs := by
    obtain ⟨P, hP, rfl⟩ := pframeRemoveFromPts_procs hpts
    exact (hs.tail (.procs hP)).tail (.uncache hf hob)
  count _ hs := hs.tail (.obj _ _)
  free o hs := hs.tail (.obj o none)
  vnodes V hs := hs.tail (.vnodes V)

theorem pframeClean_changes (h : s.pframeClean f = .ok s') : Changes s s' :=
  (Changes.freeing s).pframeClean h .refl

theorem put_changes (h : s.put o = .ok s') : Changes s s' := (Changes.freeing s).putN h .refl

theorem pframeFree_changes (h : s.pframeFree f = .ok s') : Changes s s' :=
  (Changes.freeing s).freeWith (fun _ _ _ ↦ (Changes.freeing s).putN) h .refl

theorem pframeAlloc_cases {r : Option FrameId} (h : s.pframeAlloc o n = .ok (s', r)) :
    (r = none ∧ (s' = s.draw .pframe ∨ s' = (s.draw .pframe).draw .page)) ∨
    (r = some s.next ∧ ∃ ob, s.objs o = some ob ∧ 0 < ob.mmoRefcount ∧
      s' = ((s.draw .pframe).draw .page).cache s.next o n ob) := by
  unfold pframeAlloc at h
  split at h
  · cases h
    exact .inl ⟨rfl, .inl rfl⟩
  · dsimp only at h
    split at h
    · cases h
      exact .inl ⟨rfl, .inr rfl⟩
    · obtain ⟨ob, hob, h⟩ := bind_follow h
      obtain ⟨hpos, h⟩ := bind_demand h
      cases h
      exact .inr ⟨rfl, ob, hob, hpos, rfl⟩

theorem pframeAlloc_changes {r : Option FrameId} (h : s.pframeAlloc o n = .ok (s', r)) :
    Changes s s' := by
  have hdraw : Changes s (s.draw .pframe) := (Change.draw _).changes
  rcases pframeAlloc_cases h with ⟨-, rfl | rfl⟩ | ⟨-, ob, hob, -, rfl⟩
  · exact hdraw
  · exact hdraw.tail (.draw _)
  · exact (hdraw.tail (.draw .page)).tail (.cache n hob)

theorem pframeGetResident_changes {r : Option FrameId}
    (h : s.pframeGetResident o n = (s', r)) : Changes s s' := by
  unfold pframeGetResident at h
  split at h
  · next f hf =>
    cases h
    have hholds := List.find?_some hf
    obtain ⟨pf, hpf, -⟩ := (Option.any_eq_true ..).mp hholds
    exact (Change.touch hpf).changes
  · cases h
    exact .refl

theorem fillAndPin_changes {data : Page} (h : s.fillAndPin f data = .ok s') : Changes s s' :=
  (modFrame_changes (g := fun pf ↦ { pf with pfData := data }) (fun _ ↦ rfl)
    fun _ ↦ rfl).trans (pframePin_changes h)

theorem fillWith_changes {fill : Fillpage} {r : Except Errno Unit}
    (hfill : ∀ s f s' r, fill s f = .ok (s', r) → Changes s s')
    (h : fillWith fill s f = .ok (s', r)) : Changes s s' := by
  obtain ⟨⟨s₁, r₁⟩, h₁, h⟩ := bind_ok h
  cases h
  have hset : ∀ (s : Mem) (b : Bool), Changes s (s.modFrame f fun pf ↦ { pf with pfBusy := b }) :=
    fun _ _ ↦ modFrame_changes (fun _ ↦ rfl) (fun _ ↦ rfl)
  exact (hset s true).trans ((hfill _ _ _ _ h₁).trans (hset s₁ false))

variable {r : Except NoPage FrameId}

theorem getWith_changes {fill : Fillpage}
    (hfill : ∀ s f s' r, fill s f = .ok (s', r) → Changes s s')
    (h : getWith fill s o n = .ok (s', r)) : Changes s s' := by
  unfold getWith at h
  split at h
  · next s₁ f hres =>
    obtain ⟨pf, -, h⟩ := bind_ok h
    obtain ⟨-, -, h⟩ := bind_ok h
    cases h
    exact pframeGetResident_changes hres
  · next s₁ hres =>
    obtain ⟨⟨s₂, r₂⟩, h₂, h⟩ := bind_ok h
    have hnew := (pframeGetResident_changes hres).trans (pframeAlloc_changes h₂)
    dsimp only at h
    split at h
    · cases h
      exact hnew
    · obtain ⟨⟨s₃, status⟩, h₃, h⟩ := bind_ok h
      have hfull := hnew.trans (fillWith_changes hfill h₃)
      dsimp only at h
      split at h
      · obtain ⟨s₄, h₄, h⟩ := bind_ok h
        cases h
        exact hfull.trans (pframeFree_changes h₄)
      · cases h
        exact hfull

theorem bottomFillpage_changes {r : Except Errno Unit} (h : bottomFillpage s f = .ok (s', r)) :
    Changes s s' := by
  obtain ⟨pf, -, h⟩ := bind_ok h
  obtain ⟨ob, -, h⟩ := bind_ok h
  split at h
  · obtain ⟨_, -, h⟩ := bind_ok h
    obtain ⟨s₁, h₁, h⟩ := bind_ok h
    cases h
    exact fillAndPin_changes h₁
  · obtain ⟨vn, -, h⟩ := bind_ok h
    split at h
    · cases h
      exact .refl
    · cases h
      exact modFrame_changes (fun _ ↦ rfl) (fun _ ↦ rfl)
  · cases h

theorem lookupWith_changes {get : Mem → ObjId → ℕ → Except Fault (Mem × Except NoPage FrameId)}
    {ops : MmoOps}
    (hget : ∀ s o n s' r, get s o n = .ok (s', r) → Changes s s')
    (h : lookupWith get s o n ops = .ok (s', r)) : Changes s s' := by
  unfold lookupWith at h
  split at h
  · obtain ⟨⟨s₁, r₁⟩, h₁, h⟩ := bind_ok h
    dsimp only at h
    split at h <;> cases h <;> exact hget _ _ _ _ _ h₁
  · obtain ⟨vn, -, h⟩ := bind_ok h
    split at h
    · cases h
      exact .refl
    · exact hget _ _ _ _ _ h
  · cases h

theorem bottomLookup_changes (h : s.bottomLookup o n = .ok (s', r)) : Changes s s' := by
  obtain ⟨ob, -, h⟩ := bind_ok h
  exact lookupWith_changes
    (fun _ _ _ _ _ ↦ getWith_changes fun _ _ _ _ ↦ bottomFillpage_changes) h

theorem shadowLookuppage_changes
    (h : s.shadowLookuppage o n = .ok (s', r)) : Changes s s' := by
  obtain ⟨⟨r₁, b⟩, -, h⟩ := bind_ok h
  dsimp only at h
  split at h
  · exact bottomLookup_changes h
  · obtain ⟨pf, hpf, h⟩ := bind_follow h
    obtain ⟨-, -, h⟩ := bind_ok h
    cases h
    exact (Change.touch hpf).changes

theorem fillpage_changes {r : Except Errno Unit} (h : fillpage s f = .ok (s', r)) :
    Changes s s' := by
  obtain ⟨pf, -, h⟩ := bind_ok h
  obtain ⟨ob, -, h⟩ := bind_ok h
  split at h
  · obtain ⟨_, -, h⟩ := bind_ok h
    obtain ⟨below, -, h⟩ := bind_ok h
    obtain ⟨⟨s₁, r₁⟩, h₁, h⟩ := bind_ok h
    dsimp only at h
    split at h
    · cases h
      exact shadowLookuppage_changes h₁
    · obtain ⟨src, -, h⟩ := bind_ok h
      obtain ⟨s₂, h₂, h⟩ := bind_ok h
      cases h
      exact (shadowLookuppage_changes h₁).trans (fillAndPin_changes h₂)
  · exact bottomFillpage_changes h

theorem pframeGet_changes (h : s.pframeGet o n = .ok (s', r)) : Changes s s' :=
  getWith_changes (fun _ _ _ _ ↦ fillpage_changes) h

end

end Mem

end CS402.Mm

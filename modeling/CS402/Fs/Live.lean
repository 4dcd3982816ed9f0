import Mathlib
import CS402.Fs.Takes
import CS402.Lib.Trans

/-!
# Descriptors never dangle

A descriptor leads to an open file, the file to a vnode, and the vnode to an inode; the
counts of the files and of the vnodes are all that keeps them from being freed.  The counts
may be too high: some paths of `do_open` and `do_link` leave a reference behind.  They are
never too low, whatever calls the processes make.
-/

set_option mvcgen.warning false

namespace CS402.Fs

open CS402.Lib Std.Do Function

namespace Vfs

variable {s s₁ s' : Vfs} {v : Ino} {p : Pid} {f : FileId} {e : Option Ino} {x : Option FileId}
  {B : FileId ⊕ Pid → Option Ino} {k : ℕ} {fd n : ℤ} {path : List Char} {flag : Flags}
  {cdevs : ℕ → Option Cdev} {oracle : Allocator → List Bool} {ps : List Pid}

/-- The working directories. -/
def cwd (s : Vfs) (p : Pid) : Option Ino := (s.procs p).map Proc.pCwd

/-- The references to vnodes have owners: the working directories, and the open files that
have a descriptor. -/
structure Owns (s : Vfs) (B : FileId ⊕ Pid → Option Ino) : Prop where
  slots : ∀ a f, s.slots a = some f → s.node f ≠ none ∧ B (.inl f) = s.node f
  cwd : ∀ p, s.cwd p ≠ none → B (.inr p) = s.cwd p
  counted : Counted B s.refs

/-- No count is too low. -/
structure Live (s : Vfs) : Prop where
  sane : s.Sane
  slots : Counted s.slots s.counts
  owns : ∃ B, s.Owns B

attribute [grind →] Live.sane

@[grind →] theorem Live.held (h : s.Live) : s.Held := fun _ _ ha ↦ h.slots.pos ha

@[grind →] theorem cwd_congr (h : s'.procs = s.procs) : s'.cwd = s.cwd := by
  unfold cwd
  rw [h]

@[grind →] theorem Live.takes (h : s.Live) (ht : s.Takes s') : s'.Live := by
  obtain ⟨B, hB⟩ := h.owns
  have hs := slots_congr ht.procs
  refine ⟨ht.sane, hs ▸ h.slots.mono (by simpa using ht.counts), B, ?_,
    cwd_congr ht.procs ▸ hB.cwd, hB.counted.mono (by simpa using ht.refs)⟩
  rw [hs]
  grind [Owns]

@[grind =] theorem cwd_setFile {a : Option File} : (s.setFile f a).cwd = s.cwd := rfl

/-! ## Descriptors -/

@[spec] theorem setSlot_spec : ⦃⌜s.Sane⌝⦄ s.setSlot p k x ⦃⇓? s' => ⌜s'.Sane ∧
    s'.slots = update s.slots (p, k) x ∧ s'.cwd = s.cwd ∧ (∀ v, s'.refs v = s.refs v) ∧
    ∀ f, s'.counts f = s.counts f ∧ s'.node f = s.node f⌝⦄ := by
  mvcgen [setSlot]
  next hs proc hproc =>
  refine ⟨⟨hs.cell, hs.fresh⟩, funext fun ⟨q, l⟩ ↦ ?_, funext fun q ↦ ?_, fun _ ↦ rfl,
    fun _ ↦ ⟨rfl, rfl⟩⟩
  · rcases eq_or_ne q p with rfl | hq
    · rcases eq_or_ne l k with rfl | hl <;> simp_all [slots]
    · simp [slots, hq]
  · rcases eq_or_ne q p with rfl | hq <;> simp_all [cwd]

/-- A slot `a` is set to `x`, and the open file `f` has got or lost its vnode. -/
theorem Live.set (h : s.Live) (hB : s.Owns B) (a x f e) (hs : s'.Sane)
    (hslots : s'.slots = update s.slots a x) (hcwd : s'.cwd = s.cwd)
    (hx : ∀ g, x = some g → g = f ∨ ∃ b, s.slots b = some g)
    (hc : ∀ g, s.counts g + one x g - one (s.slots a) g ≤ s'.counts g)
    (hr : ∀ w, s.refs w + one e w - one (B (.inl f)) w ≤ s'.refs w)
    (hn : ∀ g, 0 < s.counts g + one x g - one (s.slots a) g →
      s'.node g = if g = f then e else s.node g)
    (he : 0 < s.counts f + one x f - one (s.slots a) f → e ≠ none) : s'.Live := by
  have hcount := h.slots.set fun g ↦ le_refl (s.counts g + one x g - one (s.slots a) g)
  refine ⟨hs, hslots ▸ hcount.mono hc, update B (.inl f) e, fun b g hb ↦ ?_, ?_, hB.counted.set hr⟩
  · rw [hslots] at hb
    have hpos := hcount.pos hb
    grind [Owns, update_apply]
  · rw [hcwd]
    grind [Owns, update_apply]

/-- A process gets a working directory, and keeps its open files or has none. -/
theorem Live.enter {g : ℕ → Option FileId} (h : s.Live) (ht : s.Takes s₁ (some v) e)
    (he : e ≠ none → s.cwd p = e) (hg : ∀ k f, g k = some f → s.slots (p, k) = some f) :
    (s₁.setProc p (some ⟨g, v⟩)).Live := by
  obtain ⟨B, hB⟩ := h.owns
  have hold : ∀ a f, (s₁.setProc p (some ⟨g, v⟩)).slots a = some f → s.slots a = some f := by
    intro a f ha
    simp only [Vfs.slots, setProc_procs, update_apply, ht.procs] at ha hg ⊢
    grind
  refine ⟨⟨ht.sane.cell, ht.sane.fresh⟩, (h.slots.anti hold).mono fun f ↦ ?_,
    update B (.inr p) (some v), fun a f ha ↦ ?_, fun q hq ↦ ?_, hB.counted.set fun w ↦ ?_⟩
  · change _ ≤ s₁.counts f
    grind
  · change s₁.node f ≠ none ∧ update B (.inr p) (some v) (.inl f) = s₁.node f
    grind [Owns, update_apply]
  · simp only [Vfs.cwd, setProc_procs, update_apply, ht.procs] at hq ⊢
    grind [Owns, Vfs.cwd]
  · change _ ≤ s₁.refs w
    have := ht.refs w
    rcases e with _ | c <;> grind [Owns, one_cases]

/-! ## The calls -/

@[spec] theorem doClose_spec : ⦃⌜s.Live⌝⦄ s.doClose p fd ⦃⇓? r => ⌜r.1.Live⌝⦄ := by
  mvcgen [doClose]
  case vc4 =>
    next f hf hl _ _ _ _ =>
    -- the file goes with its last descriptor
    obtain ⟨B, hB⟩ := hl.owns
    apply hl.set hB (p, fd.toNat) none f (if s.counts f = 1 then none else s.node f) <;>
      grind [one_cases, Owns]
  all_goals grind

@[spec] theorem doDup_spec : ⦃⌜s.Live⌝⦄ s.doDup p fd ⦃⇓? r => ⌜r.1.Live⌝⦄ := by
  mvcgen [doDup]
  -- no descriptor is free
  case vc4 => exact Live.takes ‹s.Live› (by grind [one_cases])
  case vc6 =>
    next f hf hl _ k _ _ _ _ =>
    obtain ⟨B, hB⟩ := hl.owns
    apply hl.set hB (p, k) (some f) f (s.node f) <;> grind [one_cases, Owns]
  all_goals grind

@[spec] theorem doDup2_spec : ⦃⌜s.Live⌝⦄ s.doDup2 p fd n ⦃⇓? r => ⌜r.1.Live⌝⦄ := by
  mvcgen [doDup2, doClose]
  case vc5 => exact Live.takes ‹s.Live› (by grind [one_cases])
  case vc10 =>
    -- `nfd` was in use for `g`, which may be `f`
    next f hf _ hl s₁ _ _ ht g hg _ _ _ _ _ _ =>
    obtain ⟨B, hB⟩ := hl.owns
    have hg := slots_congr ht.procs ▸ slots_of_slot hg
    apply hl.set hB (p, n.toNat) (some f) g (if s₁.counts g = 1 then none else s.node g) <;>
      grind [one_cases, Owns, update_idem]
  case vc12 =>
    next f hf _ hl _ _ _ _ _ _ =>
    obtain ⟨B, hB⟩ := hl.owns
    apply hl.set hB (p, n.toNat) (some f) f (s.node f) <;> grind [one_cases, Owns]
  all_goals grind

@[spec] theorem doOpen_spec : ⦃⌜s.Live⌝⦄ s.doOpen p path flag ⦃⇓? r => ⌜r.1.Live⌝⦄ := by
  mvcgen [doOpen, doClose]
  case vc20 =>
    -- the only path on which a descriptor is made
    next hl _ k _ _ _ _ f _ _ _ _ _ _ _ _ v _ _ _ _ _ _ _ _ _ hs =>
    obtain ⟨B, hB⟩ := hl.owns
    apply hl.set hB (p, k) (some f) f (some v) <;> grind [one_cases, Owns]
  case vc8 =>
    next hl _ k _ _ _ _ f _ _ _ _ _ _ _ _ _ _ _ _ _ _ =>
    obtain ⟨B, hB⟩ := hl.owns
    apply hl.set hB (p, k) none f (B (.inl f)) <;> grind [one_cases, Owns]
  all_goals try refine Live.takes ‹s.Live› ?_
  all_goals grind [→ getEmptyFd_spec, one_cases, slot]

@[spec] theorem doChdir_spec : ⦃⌜s.Live⌝⦄ s.doChdir p path ⦃⇓? r => ⌜r.1.Live⌝⦄ := by
  mvcgen [doChdir]
  case vc6 =>
    next hl _ v _ _ _ _ _ x _ t _ y _ =>
    refine hl.enter (e := some x.pCwd) (?_ : s.Takes t _ _) ?_ ?_
    all_goals grind [cwd, slots]
  all_goals try refine Live.takes ‹s.Live› ?_
  all_goals grind

theorem sysCall_spec {c : Call} : ⦃⌜s.Live⌝⦄ sysCall s p c ⦃⇓? r => ⌜r.1.Live⌝⦄ := by
  cases c <;> mvcgen [sysCall] <;> grind

/-! ## Runs -/

theorem boot_live (h : boot cdevs oracle ps = .ok s) : s.Live := by
  obtain ⟨r, h₁, h⟩ := bind_ok h
  obtain ⟨-, h⟩ := bind_demand h
  have hs : ({ cdevs, oracle } : Vfs).Sane := ⟨fun v ↦ Cell.sane_none, fun _ _ ↦ rfl⟩
  have hl : ({ cdevs, oracle } : Vfs).Live :=
    ⟨hs, fun f ↦ ⟨0, .eq_zero fun a ↦ by simp [slots], by simp [counts]⟩, fun _ ↦ none,
      by simp [slots], by simp [cwd],
      fun v ↦ ⟨0, .eq_zero fun a ↦ by simp, by simp [refs, cell, Cell.refs]⟩⟩
  refine foldl_invariant (I := fun s ↦ s.Live) (fun p _ t t' ht h' ↦ ?_)
    (hl.takes (triple_iff.mp ramfsMount_spec hs _ h₁)) h
  obtain ⟨t₁, h₁, h'⟩ := bind_ok h'
  cases h'
  exact ht.enter (e := none) (triple_iff.mp vref_spec ht.sane _ h₁) (by simp) (by simp)

/-- A state after calls of the processes that have entered a new ramfs. -/
def Reachable (s : Vfs) : Prop := ∃ cdevs oracle ps s₀ h,
  boot cdevs oracle ps = .ok s₀ ∧ Run (ofStep fsStep) s₀ h s

theorem Reachable.live (hr : s.Reachable) : s.Live := by
  obtain ⟨cdevs, oracle, ps, s₀, h, hb, hr⟩ := hr
  refine hr.invariant (I := fun s ↦ s.Live) (fun s c s' hs hstep ↦ ?_) (boot_live hb)
  obtain ⟨r, hr, h⟩ := bind_ok hstep
  cases h
  exact triple_iff.mp sysCall_spec hs r hr

/-- After `open` with `O_CREAT` a process has a descriptor. -/
theorem exists_opened : ∃ s : Vfs, s.Reachable ∧
    ∃ x f, s.procs 1 = some x ∧ x.pFiles 0 = some f := by
  have h : (boot (fun _ ↦ none) (fun _ ↦ []) [1] >>= fun s₀ ↦
      exec fsStep s₀ [(1, .open ['/', 'f'] oCreat)] >>= fun s ↦
        .ok ((s.procs 1).any fun x ↦ (x.pFiles 0).isSome)) = .ok true := by decide +kernel
  obtain ⟨s₀, hb, h⟩ := bind_ok h
  obtain ⟨s, hr, h⟩ := bind_ok h
  obtain ⟨x, hx, hf⟩ := (Option.any_eq_true _ _).mp (Except.ok.inj h)
  obtain ⟨f, hf⟩ := Option.isSome_iff_exists.mp hf
  exact ⟨s, ⟨_, _, _, s₀, _, hb, .of_exec hr⟩, x, f, hx, hf⟩

/-- **Every descriptor leads to an open file, to a vnode in core and to its inode**, whatever
calls the processes have made, and so does the working directory.  No open file counts fewer
references than it has descriptors. -/
theorem descriptors_never_dangle {proc : Proc} (hr : s.Reachable) (hp : s.procs p = some proc) :
    (∃ vn, s.vnodes proc.pCwd = some vn) ∧ ∀ k f, proc.pFiles k = some f →
      ∃ file v vn i, s.files f = some file ∧ file.fVnode = some v ∧ s.vnodes v = some vn ∧
        0 < vn.vnRefcount ∧ s.inodes v = some i ∧ vn.vnMode = i.rfMem.type ∧
        ∃ n : ℕ, 0 < n ∧ Refs s.slots f n ∧ n ≤ file.fRefcount := by
  obtain ⟨B, hB⟩ := hr.live.owns
  -- what has an owner is in core
  have core {b v} (hv : B b = some v) : ∃ vn, s.vnodes v = some vn := by
    have hpos := hB.counted.pos hv
    rcases hvn : s.vnodes v with _ | vn
    · simp [refs, cell, Cell.refs, hvn] at hpos
    · exact ⟨vn, rfl⟩
  refine ⟨core (b := .inr p) ((hB.cwd p (by simp [cwd, hp])).trans (by simp [cwd, hp])),
    fun k f hf ↦ ?_⟩
  have hk : s.slots (p, k) = some f := by simpa [slots, hp] using hf
  obtain ⟨hne, hBf⟩ := hB.slots _ f hk
  obtain ⟨v, hv⟩ := Option.ne_none_iff_exists'.mp hne
  obtain ⟨file, hfile, hfv⟩ := Option.bind_eq_some_iff.mp hv
  obtain ⟨vn, hvn⟩ := core (hBf.trans hv)
  obtain ⟨i, hi, hmode, href, -⟩ := (hr.live.sane.cell v).core vn hvn
  obtain ⟨n, hn, hle⟩ := hr.live.slots f
  rw [(hr.live.sane.file hfile).1] at hle
  exact ⟨file, v, vn, i, hfile, hfv, hvn, href, hi, hmode, n, hn.pos hk, hn, hle⟩

theorem descriptors_never_dangle_open : ∃ s : Vfs, s.Reachable ∧ ∃ x f file v vn,
    s.procs 1 = some x ∧ x.pFiles 0 = some f ∧ s.files f = some file ∧ file.fVnode = some v ∧
    s.vnodes v = some vn := by
  obtain ⟨s, hr, x, f, hx, hf⟩ := exists_opened
  obtain ⟨file, v, vn, -, hfile, hv, hvn, -⟩ := (descriptors_never_dangle hr hx).2 0 f hf
  exact ⟨s, hr, x, f, file, v, vn, hx, hf, hfile, hv, hvn⟩

end Vfs

end CS402.Fs

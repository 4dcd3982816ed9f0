import CS402.Fs.Opened
import CS402.Fs.Paths

/-!
# Which paths are accepted

`do_open`, `do_stat` and `do_link` put length checks of their own in front of one resolver.
The documentation has `ENAMETOOLONG` for a component that is too long; `dir_namev` checks
just this, and the length of the whole path against `MAXPATHLEN`.  `do_stat` checks only the
latter, but `do_open` and `do_link` compare the whole path with `NAME_LEN`, the bound for a
component.
-/

namespace CS402.Fs

open CS402.Lib Function

variable {s s' : Vfs} {v d start : Ino} {p : Pid} {path other src dst : List Char} {x : Proc}
  {fd : ℕ}

/-- A component of the path or the path itself is too long. -/
def TooLong (path : List Char) : Prop :=
  maxPathLen < path.length ∨ ∃ c ∈ components path, nameLen < c.length

instance (path : List Char) : Decidable (TooLong path) := inferInstanceAs (Decidable (_ ∨ _))

namespace Vfs

/-! ## When resolution finds a path too long -/

theorem look_ne_tooLong {c : List Char} : s.look d c ≠ .ok (.error .ENAMETOOLONG) := by
  unfold look
  intro h
  split at h
  · cases h
  · split at h
    · cases h
    · split at h <;> cases h

theorem child_ne_tooLong {name : List Char} {len : ℕ} :
    s.child d name len ≠ .ok (.error .ENAMETOOLONG) := by
  intro h
  rcases child_error h with ⟨he, -⟩ | ⟨he, -⟩ <;> cases he

theorem directory_ne_tooLong : s.runSteps d [.directory] ≠ .ok (.error .ENAMETOOLONG) := by
  rw [runSteps_directory]
  split <;> intro h <;> cases h

theorem exists_long_of_runSteps {cs : List (List Char)}
    (h : s.runSteps d (steps cs) = .ok (.error .ENAMETOOLONG)) : ∃ c ∈ cs, nameLen < c.length := by
  induction cs using steps.induct generalizing d with
  | case1 => exact absurd h directory_ne_tooLong
  | case2 c =>
    by_cases hlong : nameLen < c.length
    · exact ⟨c, List.mem_singleton_self c, hlong⟩
    · rw [steps, runSteps_measure _ hlong] at h
      exact absurd h directory_ne_tooLong
  | case3 c c' cs ih =>
    by_cases hlong : nameLen < c.length
    · exact ⟨c, List.mem_cons_self, hlong⟩
    · rw [steps, runSteps_measure _ hlong, runSteps, runStep] at h
      obtain ⟨r, hr, h⟩ := bind_ok h
      cases r with
      | error e =>
        cases h
        exact absurd hr look_ne_tooLong
      | ok w =>
        obtain ⟨c₁, hc₁, hlong₁⟩ := ih h
        exact ⟨c₁, List.mem_cons_of_mem _ hc₁, hlong₁⟩

theorem tooLong_of_resolve (h : s.resolve p path none = .ok (.error .ENAMETOOLONG)) :
    TooLong path := by
  obtain ⟨-, he⟩ | ⟨hmax, -⟩ | ⟨x, start, rest, vn, hpos, hmax, hx, hns, hvn, -⟩ := resolve_cases h
  · cases he
  · exact .inl hmax
  have hstart : start = if path.head? = some '/' then rootIno else Option.getD none x.pCwd := by
    have hfst := congrArg Prod.fst hns
    unfold namevStart at hfst
    split at hfst
    · next hroot => exact hfst.symm.trans (if_pos hroot).symm
    · next hroot => exact hfst.symm.trans (if_neg hroot).symm
  obtain ⟨name, -, heq⟩ := resolve_eq hx (Nat.pos_of_ne_zero hpos) hmax hstart (by rw [hvn]; rfl)
  rw [heq] at h
  obtain ⟨r, hr, h⟩ := bind_ok h
  cases r with
  | ok w => cases h
  | error e =>
    cases h
    exact .inr (exists_long_of_runSteps hr)

theorem tooLong_of_target (h : s.target p path = .ok (.error .ENAMETOOLONG)) : TooLong path := by
  obtain ⟨r, hr, h⟩ := bind_ok h
  cases r with
  | error e =>
    cases h
    exact tooLong_of_resolve hr
  | ok nm => exact absurd h child_ne_tooLong

theorem target_of_length (h : maxPathLen < path.length) :
    s.target p path = .ok (.error .ENAMETOOLONG) := by
  unfold target
  rw [resolve_of_length h]
  rfl

/-! ## What `do_stat` does -/

theorem Sane.ramfsStat_hold (hs : s.Sane) (hv : (s.inodes v).isSome = true) :
    ∃ st, (s.hold v).ramfsStat v = .ok st ∧ st.stIno = v := by
  obtain ⟨vn, hvn⟩ := vnodes_hold_self hv
  obtain ⟨ino, hino, -⟩ := (hs.hold hv).inode_of_vnode hvn
  unfold ramfsStat toInode
  rw [hvn, follow_bind, hino]
  exact ⟨_, rfl, rfl⟩

theorem Sane.doStat_spec (hs : s.Sane) (p : Pid) (path : List Char) :
    (∀ f, s.target p path = .error f → s.doStat p path = .error f) ∧
    (∀ e, s.target p path = .ok (.error e) → s.doStat p path = .ok (s, .error e)) ∧
    ∀ v, s.target p path = .ok (.ok v) → ∃ st, s.doStat p path = .ok (s, .ok st) ∧ st.stIno = v := by
  unfold doStat
  rw [hs.openNamev_eq]
  split
  · next hlong =>
    rw [target_of_length hlong]
    refine ⟨fun f h ↦ ?_, fun e h ↦ ?_, fun v h ↦ ?_⟩ <;> cases h
    rfl
  · refine ⟨fun f h ↦ ?_, fun e h ↦ ?_, fun v h ↦ ?_⟩
    · rw [h]
      rfl
    · rw [h]
      rfl
    · have hv := isSome_of_target h
      obtain ⟨st, hst, hino⟩ := hs.ramfsStat_hold hv
      refine ⟨st, ?_, hino⟩
      rw [h]
      simp only [ok_bind, heldBy, hst, hs.vput_hold hv]
      rfl

/-! ## Agreement -/

/-- `do_open` with `O_RDONLY` and `do_stat` treat the path alike, and call it too long only if
it is. -/
structure OpenAgrees (s : Vfs) (p : Pid) (path : List Char) : Prop where
  succeeds : (∃ s' n, s.doOpen p path 0 = .ok (s', .ok n)) ↔
    ∃ s' st, s.doStat p path = .ok (s', .ok st)
  vnode : ∀ s' n s'' st, s.doOpen p path 0 = .ok (s', .ok n) →
    s.doStat p path = .ok (s'', .ok st) → s'.Denotes p n st.stIno
  fails : ∀ e, (∃ s', s.doOpen p path 0 = .ok (s', .error e)) ↔
    ∃ s', s.doStat p path = .ok (s', .error e)
  tooLong : ∀ s', s.doOpen p path 0 = .ok (s', .error .ENAMETOOLONG) ∨
    s.doStat p path = .ok (s', .error .ENAMETOOLONG) → TooLong path

/-- `do_link` calls neither of its arguments too long unless one is. -/
def LinkAccepts (s : Vfs) (p : Pid) (src dst : List Char) : Prop :=
  ∀ s', s.doLink p src dst = .ok (s', .error .ENAMETOOLONG) → TooLong src ∨ TooLong dst

/-- As long as the path passes the check of `do_open`, it is all the same. -/
theorem Sane.openAgrees_of_le (hs : s.Sane) (hx : s.procs p = some x)
    (hfd : s.getEmptyFd p = some fd) (hg : s.grants .file = true)
    (hlen : path.length ≤ nameLen) : s.OpenAgrees p path := by
  have hopen := hs.doOpen_readOnly hx hfd hg path
  rw [if_neg (Nat.not_lt.mpr hlen)] at hopen
  obtain ⟨hfault, herror, hfound⟩ := hs.doStat_spec p path
  cases ht : s.target p path with
  | error f =>
    have hstat := hfault f ht
    rw [ht] at hopen
    refine ⟨?_, ?_, fun e ↦ ?_, ?_⟩ <;> rw [hopen, hstat] <;> simp
  | ok r =>
    cases r with
    | error e =>
      have hstat := herror e ht
      rw [ht] at hopen
      refine ⟨?_, ?_, fun e' ↦ ?_, fun s' h ↦ ?_⟩
      · rw [hopen, hstat]
        simp
      · rw [hopen, hstat]
        simp
      · rw [hopen, hstat]
        simp
      · have he : e = .ENAMETOOLONG := by
          rcases h with h | h
          · rw [hopen] at h
            cases h
            rfl
          · rw [hstat] at h
            cases h
            rfl
        exact tooLong_of_target (he ▸ ht)
    | ok v =>
      obtain ⟨st, hstat, hino⟩ := hfound v ht
      rw [ht] at hopen
      refine ⟨?_, fun s' n s'' st' h h' ↦ ?_, fun e ↦ ?_, fun s' h ↦ ?_⟩
      · rw [hopen, hstat]
        simp
      · rw [hopen] at h
        rw [hstat] at h'
        cases h
        cases h'
        exact denotes_installed (getEmptyFd_spec hfd).1 (congrArg some hino.symm)
      · rw [hopen, hstat]
        simp
      · rw [hopen, hstat] at h
        rcases h with h | h <;> cases h

theorem Sane.openAgrees_iff (hs : s.Sane) (hx : s.procs p = some x)
    (hfd : s.getEmptyFd p = some fd) (hg : s.grants .file = true) :
    s.OpenAgrees p path ↔
      path.length ≤ nameLen ∨ s.target p path = .ok (.error .ENAMETOOLONG) := by
  by_cases hlen : path.length ≤ nameLen
  · exact iff_of_true (hs.openAgrees_of_le hx hfd hg hlen) (.inl hlen)
  rw [or_iff_right hlen]
  have hopen := hs.doOpen_readOnly hx hfd hg path
  rw [if_pos (Nat.not_le.mp hlen)] at hopen
  obtain ⟨hfault, herror, hfound⟩ := hs.doStat_spec p path
  constructor
  · -- `do_stat` has to fail in the same way, and it gives what resolution gives
    intro h
    obtain ⟨s', hstat⟩ := (h.fails .ENAMETOOLONG).mp ⟨_, hopen⟩
    cases ht : s.target p path with
    | error f =>
      rw [hfault f ht] at hstat
      cases hstat
    | ok r =>
      cases r with
      | error e =>
        rw [herror e ht] at hstat
        cases hstat
        rfl
      | ok v =>
        obtain ⟨st, hok, -⟩ := hfound v ht
        rw [hok] at hstat
        cases hstat
  · intro ht
    have hstat := herror _ ht
    refine ⟨?_, ?_, fun e ↦ ?_, fun _ _ ↦ tooLong_of_target ht⟩ <;> rw [hopen, hstat] <;> simp

/-- What `do_link` calls too long. -/
theorem Sane.linkAccepts_iff (hs : s.Sane) : s.LinkAccepts p src dst ↔
    src.length ≤ nameLen ∧ dst.length ≤ nameLen ∨ TooLong src ∨ TooLong dst := by
  by_cases hlen : nameLen < dst.length ∨ nameLen < src.length
  · have hlink : s.doLink p src dst = .ok (s, .error .ENAMETOOLONG) := by
      unfold doLink
      rw [if_pos hlen]
      rfl
    constructor
    · exact fun h ↦ .inr (h s hlink)
    · rintro (⟨hsrc, hdst⟩ | h)
      · rcases hlen with h | h
        · exact absurd h (Nat.not_lt.mpr hdst)
        · exact absurd h (Nat.not_lt.mpr hsrc)
      · exact fun _ _ ↦ h
  · have hshort := not_or.mp hlen
    refine iff_of_true (fun s' h ↦ ?_)
      (.inl ⟨Nat.le_of_not_lt hshort.2, Nat.le_of_not_lt hshort.1⟩)
    -- only the resolution of the second argument can still give this error
    unfold doLink at h
    rw [if_neg hlen] at h
    obtain ⟨⟨s₁, r₁⟩, h₁, h⟩ := bind_ok h
    obtain ⟨ht, rfl⟩ := hs.openNamev_ok h₁
    obtain ⟨v, hv, h⟩ := bind_follow h
    cases r₁ with
    | error e => cases hv
    | ok v' =>
      cases hv
      have hsv := hs.hold (isSome_of_target ht)
      obtain ⟨vn, -, h⟩ := bind_ok h
      split at h
      · obtain ⟨s₂, -, h⟩ := bind_ok h
        cases h
      · obtain ⟨⟨s₂, r₂⟩, h₂, h⟩ := bind_ok h
        have hres := hsv.dirNamev_ok h₂
        cases r₂ with
        | error e =>
          cases h
          exact .inr (tooLong_of_resolve hres)
        | ok nm =>
          obtain ⟨⟨s₃, r₃⟩, -, h⟩ := bind_ok h
          cases r₃ with
          | ok w =>
            obtain ⟨s₄, -, h⟩ := bind_ok h
            obtain ⟨s₅, -, h⟩ := bind_ok h
            obtain ⟨s₆, -, h⟩ := bind_ok h
            cases h
          | error e =>
            obtain ⟨⟨s₄, r₄⟩, h₄, h⟩ := bind_ok h
            obtain ⟨s₅, -, h⟩ := bind_ok h
            obtain ⟨s₆, -, h⟩ := bind_ok h
            cases r₄ with
            | ok _ => cases h
            | error e' =>
              cases h
              unfold ramfsLink at h₄
              obtain ⟨slot, -, h₄⟩ := bind_ok h₄
              cases slot with
              | none => cases h₄
              | some i =>
                obtain ⟨s₇, -, h₄⟩ := bind_ok h₄
                obtain ⟨s₈, -, h₄⟩ := bind_ok h₄
                cases h₄

/-- **`do_open` and `do_stat` agree, and `do_link` accepts the same paths, exactly when the
checks against `NAME_LEN` do not matter**: for a path that is no longer than a component may
be, or that resolution finds too long itself; and, as an argument of `do_link` together with
any other path, if neither of them is longer than a component may be, or one of them is
really too long. -/
theorem openStat_agree_iff (hs : s.Sane) (hx : s.procs p = some x)
    (hfd : s.getEmptyFd p = some fd) (hg : s.grants .file = true) (path other : List Char) :
    (s.OpenAgrees p path ∧ s.LinkAccepts p path other ∧ s.LinkAccepts p other path) ↔
      (path.length ≤ nameLen ∨ s.target p path = .ok (.error .ENAMETOOLONG)) ∧
        (path.length ≤ nameLen ∧ other.length ≤ nameLen ∨ TooLong path ∨ TooLong other) := by
  rw [hs.openAgrees_iff hx hfd hg, hs.linkAccepts_iff, hs.linkAccepts_iff,
    and_comm (a := other.length ≤ nameLen), or_comm (a := TooLong other), and_self]

theorem rootOnly_agrees : rootOnly.OpenAgrees 0 ['/', '.'] ∧
    rootOnly.LinkAccepts 0 ['/', '.'] ['a'] ∧ rootOnly.LinkAccepts 0 ['a'] ['/', '.'] :=
  (openStat_agree_iff sane_rootOnly rfl (by decide : rootOnly.getEmptyFd 0 = some 0) rfl
    ['/', '.'] ['a']).mpr
    ⟨.inl (by decide), .inl ⟨by decide, by decide⟩⟩

/-- A path of twenty-nine characters that leads to the root: `./././` and so on. -/
def manyDots : List Char := (List.replicate 14 ['.', '/']).flatten ++ ['.']

/-- `do_stat` finds the root where `do_open` and `do_link` find the path too long. -/
theorem manyDots_disagree : ¬TooLong manyDots ∧
    (∃ s', rootOnly.doOpen 0 manyDots 0 = .ok (s', .error .ENAMETOOLONG)) ∧
    (∃ s' st, rootOnly.doStat 0 manyDots = .ok (s', .ok st) ∧ st.stIno = rootIno) ∧
    (∃ s', rootOnly.doLink 0 manyDots ['a'] = .ok (s', .error .ENAMETOOLONG)) ∧
    ¬rootOnly.OpenAgrees 0 manyDots := by
  have hopen := sane_rootOnly.doOpen_readOnly rfl
    (by decide : rootOnly.getEmptyFd 0 = some 0) rfl manyDots
  have htarget : rootOnly.target 0 manyDots = .ok (.ok rootIno) := by decide +kernel
  obtain ⟨st, hstat, hino⟩ := (sane_rootOnly.doStat_spec 0 manyDots).2.2 rootIno htarget
  refine ⟨by decide +kernel, ⟨_, hopen⟩, ⟨_, st, hstat, hino⟩, ⟨_, rfl⟩, fun h ↦ ?_⟩
  obtain ⟨s', hfail⟩ := (h.fails .ENAMETOOLONG).mp ⟨_, hopen⟩
  rw [hstat] at hfail
  cases hfail

end Vfs

end CS402.Fs

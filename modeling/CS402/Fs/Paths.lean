import CS402.Fs.Resolve
import Mathlib.Data.List.TakeWhile

/-!
# The components of a path

`dir_namev` scans a path once: it measures a component, skips the slashes behind it, and
looks the component up unless it was the last one.  Here a path is first split into its
components, and what `dir_namev` has to do is a list of steps over them.  Whether it
succeeds, the error it returns and the directory it finds are those of the first step
that fails, or of the last one.
-/

namespace CS402.Fs

open CS402.Lib Function

variable {s s' : Vfs} {v d base start : Ino} {p : Pid} {path l c : List Char}

/-! ## Splitting -/

/-- The maximal runs of characters other than slashes. -/
def components (path : List Char) : List (List Char) :=
  (path.splitOnP fun c ↦ decide (c = '/')).filter fun c ↦ decide (c ≠ [])

@[simp] theorem components_nil : components [] = [] := rfl

@[simp] theorem components_slash (l : List Char) : components ('/' :: l) = components l := by
  simp [components, List.splitOnP_cons_eq_if_modifyHead]

theorem components_of_run (hc : ∀ x ∈ c, x ≠ '/') (hne : c ≠ []) : components c = [c] := by
  rw [components, List.splitOnP_eq_singleton (by simpa using hc)]
  simp [hne]

theorem components_run_slash (hc : ∀ x ∈ c, x ≠ '/') (hne : c ≠ []) (l : List Char) :
    components (c ++ '/' :: l) = c :: components l := by
  rw [components, List.splitOnP_append_cons_of_forall_mem (by simpa using hc) '/' (by simp)]
  simp [hne, components]

theorem components_dropWhile (l : List Char) :
    components (l.dropWhile fun c ↦ decide (c = '/')) = components l := by
  induction l with
  | nil => rfl
  | cons x l ih =>
    rcases eq_or_ne x '/' with rfl | hx
    · simpa using ih
    · simp [hx]

theorem drop_length_takeWhile (q : Char → Bool) (l : List Char) :
    l.drop (l.takeWhile q).length = l.dropWhile q := by
  induction l with
  | nil => rfl
  | cons x l ih => cases hx : q x <;> simp [hx, ih]

theorem drop_slashes (l : List Char) : l.drop (slashes l) = l.dropWhile fun c ↦ decide (c = '/') :=
  drop_length_takeWhile _ l

theorem take_compLen (l : List Char) : l.take (compLen l) = l.takeWhile fun c ↦ decide (c ≠ '/') :=
  (List.prefix_iff_eq_take.mp (List.takeWhile_prefix _)).symm

theorem drop_compLen (l : List Char) : l.drop (compLen l) = l.dropWhile fun c ↦ decide (c ≠ '/') :=
  drop_length_takeWhile _ l

theorem pathRest_eq (l : List Char) : pathRest l =
    (l.dropWhile fun c ↦ decide (c ≠ '/')).dropWhile fun c ↦ decide (c = '/') := by
  rw [pathRest, ← List.drop_drop, drop_slashes, drop_compLen]

theorem head?_dropWhile_slash (l : List Char) :
    (l.dropWhile fun c ↦ decide (c = '/')).head? ≠ some '/' := by
  intro h
  have hnot := List.head?_dropWhile_not (fun c ↦ decide (c = '/')) l
  rw [h] at hnot
  simp at hnot

theorem head?_pathRest (l : List Char) : (pathRest l).head? ≠ some '/' := by
  rw [pathRest_eq]
  exact head?_dropWhile_slash _

theorem compLen_pos (hne : l ≠ []) (hh : l.head? ≠ some '/') : 0 < compLen l := by
  cases l with
  | nil => exact absurd rfl hne
  | cons x l =>
    have hx : x ≠ '/' := fun h ↦ hh (by rw [h]; rfl)
    simp [compLen, hx]

theorem components_append_of_slashes {pre : List Char} (h : ∀ x ∈ pre, x = '/') (l : List Char) :
    components (pre ++ l) = components l := by
  induction pre with
  | nil => rfl
  | cons x pre ih =>
    obtain rfl := h x List.mem_cons_self
    rw [List.cons_append, components_slash]
    exact ih fun y hy ↦ h y (List.mem_cons_of_mem _ hy)

section

variable (hne : l ≠ []) (hh : l.head? ≠ some '/')
include hne hh

/-- A component with the slashes behind it, if there are any. -/
theorem exists_front (hdrop : l.drop (compLen l) ≠ []) :
    ∃ pre, l = pre ++ pathRest l ∧
      ∀ t, components (pre ++ t) = l.take (compLen l) :: components t := by
  have hrun : ∀ x ∈ l.take (compLen l), x ≠ '/' := by
    intro x hx
    rw [take_compLen] at hx
    simpa using List.mem_takeWhile_imp hx
  have hrunne : l.take (compLen l) ≠ [] := by
    have hpos := compLen_pos hne hh
    rw [ne_eq, List.take_eq_nil_iff, not_or]
    exact ⟨hpos.ne', hne⟩
  obtain ⟨x, r, hd⟩ := List.exists_cons_of_ne_nil hdrop
  -- the run is maximal, so what follows it is a slash
  have hx : x = '/' := by
    have hnot := List.head?_dropWhile_not (fun c ↦ decide (c ≠ '/')) l
    rw [← drop_compLen, hd] at hnot
    simpa using hnot
  subst hx
  refine ⟨l.take (compLen l) ++ '/' :: r.takeWhile fun c ↦ decide (c = '/'), ?_, fun t ↦ ?_⟩
  · have hr : pathRest l = r.dropWhile fun c ↦ decide (c = '/') := by
      rw [pathRest_eq, ← drop_compLen, hd]
      simp
    rw [hr, List.append_assoc, List.cons_append, List.takeWhile_append_dropWhile, ← hd,
      List.take_append_drop]
  · rw [List.append_assoc, List.cons_append, components_run_slash hrun hrunne,
      components_append_of_slashes]
    intro y hy
    simpa using List.mem_takeWhile_imp hy

theorem components_eq_cons : components l = l.take (compLen l) :: components (pathRest l) := by
  by_cases hd : l.drop (compLen l) = []
  · have htake : l.take (compLen l) = l := by
      conv_rhs => rw [← List.take_append_drop (compLen l) l, hd, List.append_nil]
    have hrun : ∀ x ∈ l, x ≠ '/' := by
      intro x hx
      rw [← htake, take_compLen] at hx
      simpa using List.mem_takeWhile_imp hx
    rw [pathRest_eq, ← drop_compLen, hd, htake, components_of_run hrun hne]
    rfl
  · obtain ⟨pre, hl, hpre⟩ := exists_front hne hh hd
    rw [← hpre, ← hl]

theorem components_ne_nil : components l ≠ [] := by
  rw [components_eq_cons hne hh]
  exact List.cons_ne_nil _ _

theorem length_pathRest_lt : (pathRest l).length < l.length := by
  have hpos := compLen_pos hne hh
  have hl := List.length_pos_iff.mpr hne
  rw [pathRest, List.length_drop]
  omega

end

/-! ## The last component -/

/-- `name` is the part of the path from its last component on, and `len` is the length of
the component.  The other components are in front of it, and there is nothing but slashes
behind it. -/
structure LastIn (path name : List Char) (len : ℕ) : Prop where
  place : ∃ pre, path = pre ++ name ∧ components pre = (components path).dropLast
  last : name.take len = (components path).getLastD []
  length : len = ((components path).getLastD []).length
  trailing : ∀ x ∈ name.drop len, x = '/'

theorem LastIn.nil : LastIn [] [] 0 := ⟨⟨[], rfl, rfl⟩, rfl, rfl, by simp⟩

theorem length_take_compLen (l : List Char) : (l.take (compLen l)).length = compLen l := by
  rw [take_compLen]
  rfl

theorem LastIn.of_pathRest_eq_nil (hne : l ≠ []) (hh : l.head? ≠ some '/') (h : pathRest l = []) :
    LastIn l l (compLen l) := by
  have hcs : components l = [l.take (compLen l)] := by
    rw [components_eq_cons hne hh, h, components_nil]
  refine ⟨⟨[], rfl, by rw [hcs]; rfl⟩, by rw [hcs]; rfl, ?_, ?_⟩
  · rw [hcs]
    exact (length_take_compLen l).symm
  · rw [pathRest_eq, ← drop_compLen, List.dropWhile_eq_nil_iff] at h
    simpa using h

theorem LastIn.of_pathRest {name : List Char} {len : ℕ} (hne : l ≠ []) (hh : l.head? ≠ some '/')
    (hrest : pathRest l ≠ []) (h : LastIn (pathRest l) name len) : LastIn l name len := by
  obtain ⟨⟨pre, hpre, hcomp⟩, hlast, hlen, htrail⟩ := h
  obtain ⟨c', cs, hcs⟩ := List.exists_cons_of_ne_nil (components_ne_nil hrest (head?_pathRest l))
  have hdrop : l.drop (compLen l) ≠ [] := by
    intro hd
    rw [pathRest_eq, ← drop_compLen, hd] at hrest
    exact hrest rfl
  obtain ⟨front, hl, hfront⟩ := exists_front hne hh hdrop
  have hl' := components_eq_cons hne hh
  have hend : (components l).getLastD [] = (components (pathRest l)).getLastD [] := by
    rw [hl', hcs]
    rfl
  refine ⟨⟨front ++ pre, ?_, ?_⟩, hlast.trans hend.symm, hend ▸ hlen, htrail⟩
  · rw [List.append_assoc, ← hpre]
    exact hl
  · rw [hfront, hcomp, hl', hcs]
    rfl

theorem LastIn.of_slashes {name : List Char} {len : ℕ}
    (h : LastIn (path.dropWhile fun c ↦ decide (c = '/')) name len) : LastIn path name len := by
  obtain ⟨⟨pre, hpre, hcomp⟩, hlast, hlen, htrail⟩ := h
  rw [components_dropWhile] at hcomp hlast hlen
  refine ⟨⟨path.takeWhile (fun c ↦ decide (c = '/')) ++ pre, ?_, ?_⟩, hlast, hlen, htrail⟩
  · rw [List.append_assoc, ← hpre, List.takeWhile_append_dropWhile]
  · rw [components_append_of_slashes, hcomp]
    intro x hx
    simpa using List.mem_takeWhile_imp hx

/-! ## The steps of a resolution -/

/-- What `dir_namev` does with the components of a path. -/
inductive Step where
  /-- The component must not be too long. -/
  | measure (c : List Char)
  /-- The component is looked up. -/
  | enter (c : List Char)
  /-- What has been reached must be a directory. -/
  | directory

/-- The steps for the components of a path, in the order of the path: the last component
is not looked up. -/
def steps : List (List Char) → List Step
  | [] => [.directory]
  | [c] => [.measure c, .directory]
  | c :: c' :: cs => .measure c :: .enter c :: steps (c' :: cs)

namespace Vfs

/-- The entry of a directory with the name `c`.  An entry that names no inode ends in the
assertion of `ramfs_read_vnode`. -/
def look (s : Vfs) (d : Ino) (c : List Char) : Except Fault (Except Errno Ino) :=
  match s.entriesOf d with
  | none => .ok (.error .ENOTDIR)
  | some es =>
    match es.find? fun e ↦ decide (e.rdName = c) with
    | none => .ok (.error .ENOENT)
    | some e => if (s.mem e.rdIno).isSome = true then .ok (.ok e.rdIno) else .error .staleInode

/-- One step from the directory `d`: the error, or the directory to go on with. -/
def runStep (s : Vfs) (d : Ino) : Step → Except Fault (Except Errno Ino)
  | .measure c => .ok (if nameLen < c.length then .error .ENAMETOOLONG else .ok d)
  | .enter c => s.look d c
  | .directory => .ok (if s.entriesOf d = none then .error .ENOTDIR else .ok d)

/-- Steps one after the other: the error of the first one that fails, or what the last one
reaches. -/
def runSteps (s : Vfs) : Ino → List Step → Except Fault (Except Errno Ino)
  | d, [] => .ok (.ok d)
  | d, t :: ts => do
    match ← s.runStep d t with
    | .error e => return .error e
    | .ok v => s.runSteps v ts

theorem runSteps_measure_long (ts : List Step) (h : nameLen < c.length) :
    s.runSteps d (.measure c :: ts) = .ok (.error .ENAMETOOLONG) := by
  simp [runSteps, runStep, h]

theorem runSteps_measure (ts : List Step) (h : ¬ nameLen < c.length) :
    s.runSteps d (.measure c :: ts) = s.runSteps d ts := by
  simp [runSteps, runStep, h]

theorem runSteps_directory : s.runSteps d [.directory] =
    .ok (if s.entriesOf d = none then .error .ENOTDIR else .ok d) := by
  by_cases hd : s.entriesOf d = none
  · simp [runSteps, runStep, hd]
  · simp [runSteps, runStep, hd]

/-! ## The loop of `dir_namev` -/

theorem child_eq_look (s : Vfs) (d : Ino) (hdot : path ≠ ['.']) (hlen : compLen path ≠ 0) :
    s.child d path (compLen path) = s.look d (path.take (compLen path)) := by
  have htake := length_take_compLen path
  have hmatch : (fun e : Dirent ↦ nameMatch e.rdName path (compLen path)) =
      fun e ↦ decide (e.rdName = path.take (compLen path)) := by
    funext e
    by_cases he : e.rdName = path.take (compLen path)
    · simp [nameMatch, he, htake]
    · simp [nameMatch, he]
  unfold child look
  cases s.entriesOf d with
  | none => rfl
  | some es =>
    refine (if_neg (not_or.mpr ⟨hdot, hlen⟩)).trans ?_
    generalize (fun e : Dirent ↦ nameMatch e.rdName path (compLen path)) = f at hmatch ⊢
    subst hmatch
    rfl

/-- The loop takes the steps of the path, and returns where its last component is. -/
theorem resolveLoop_eq (s : Vfs) {turns : ℕ} (hlt : path.length < turns)
    (hh : path.head? ≠ some '/') :
    ∃ name, LastIn path name (compLen name) ∧ ∀ d, s.resolveLoop turns d path =
      s.runSteps d (steps (components path)) >>= fun r ↦
        .ok (r.map fun v ↦ ⟨v, name, compLen name⟩) := by
  induction turns generalizing path with
  | zero => exact absurd hlt (Nat.not_lt_zero _)
  | succ turns ih =>
    by_cases hne : path = []
    · subst hne
      refine ⟨[], .nil, fun d ↦ ?_⟩
      rw [components_nil, steps, runSteps_directory]
      by_cases hd : s.entriesOf d = none
      · simp [resolveLoop, compLen, pathRest, hd, Except.map]
      · simp [resolveLoop, compLen, pathRest, hd, Except.map]
    have hcs := components_eq_cons hne hh
    have htake := length_take_compLen path
    by_cases hrest : pathRest path = []
    · refine ⟨path, .of_pathRest_eq_nil hne hh hrest, fun d ↦ ?_⟩
      rw [hcs, hrest, components_nil, steps, resolveLoop]
      by_cases hlong : nameLen < compLen path
      · rw [if_pos hlong, runSteps_measure_long _ (by rwa [htake])]
        rfl
      · rw [if_neg hlong, if_pos hrest, runSteps_measure _ (by rwa [htake]), runSteps_directory]
        by_cases hd : s.entriesOf d = none
        · simp [hd, Except.map]
        · simp [hd, Except.map]
    · have hshort : (pathRest path).length < turns :=
        Nat.lt_of_lt_of_le (length_pathRest_lt hne hh) (Nat.le_of_lt_succ hlt)
      obtain ⟨name, hlast, hrec⟩ := ih hshort (head?_pathRest path)
      refine ⟨name, .of_pathRest hne hh hrest hlast, fun d ↦ ?_⟩
      obtain ⟨c', cs, hrestcs⟩ := List.exists_cons_of_ne_nil
        (components_ne_nil hrest (head?_pathRest path))
      have hdot : path ≠ ['.'] := by
        rintro rfl
        exact hrest rfl
      have hsteps : steps (components path) = .measure (path.take (compLen path)) ::
          .enter (path.take (compLen path)) :: steps (components (pathRest path)) := by
        rw [hcs, hrestcs, steps]
      rw [hsteps, resolveLoop]
      by_cases hlong : nameLen < compLen path
      · rw [if_pos hlong, runSteps_measure_long _ (by rwa [htake])]
        rfl
      · rw [if_neg hlong, if_neg hrest, runSteps_measure _ (by rwa [htake]), runSteps, runStep,
          child_eq_look s d hdot (compLen_pos hne hh).ne']
        cases s.look d (path.take (compLen path)) with
        | error f => rfl
        | ok r =>
          cases r with
          | error e => rfl
          | ok v => exact hrec v

section

variable {proc : Proc} {base : Option Ino} (hp : s.procs p = some proc) (hpos : 0 < path.length)
  (hmax : path.length ≤ maxPathLen)
  (hstart : start = if path.head? = some '/' then rootIno else base.getD proc.pCwd)
  (hcore : (s.vnodes start).isSome = true)
include hp hpos hmax hstart hcore

theorem resolve_eq : ∃ name, LastIn path name (compLen name) ∧ s.resolve p path base =
      s.runSteps start (steps (components path)) >>= fun r ↦
        .ok (r.map fun v ↦ ⟨v, name, compLen name⟩) := by
  obtain ⟨vn, hvn⟩ := Option.isSome_iff_exists.mp hcore
  unfold resolve namevStart
  rw [if_neg (by omega), if_neg (by omega), hp, follow_bind]
  by_cases habs : path.head? = some '/'
  · rw [if_pos habs] at hstart
    subst hstart
    obtain ⟨name, hlast, hloop⟩ := resolveLoop_eq s (Nat.lt_succ_self (path.drop (slashes path)).length)
      (by rw [drop_slashes]; exact head?_dropWhile_slash path)
    refine ⟨name, .of_slashes (by rwa [drop_slashes] at hlast), ?_⟩
    simp only [habs, if_true, hvn, follow_bind, hloop]
    rw [drop_slashes, components_dropWhile]
  · rw [if_neg habs] at hstart
    subst hstart
    obtain ⟨name, hlast, hloop⟩ := resolveLoop_eq s (Nat.lt_succ_self _) habs
    refine ⟨name, hlast, ?_⟩
    simp only [habs, if_false, hvn, follow_bind, hloop]

theorem Sane.dirNamev_steps (hs : s.Sane) : ∃ name, LastIn path name (compLen name) ∧
    s.dirNamev p path base =
      s.runSteps start (steps (components path)) >>= fun r ↦
        .ok (s.heldBy r, r.map fun v ↦ ⟨v, name, compLen name⟩) := by
  obtain ⟨name, hlast, hres⟩ := resolve_eq hp hpos hmax hstart hcore
  refine ⟨name, hlast, ?_⟩
  rw [hs.dirNamev_eq, hres]
  cases s.runSteps start (steps (components path)) with
  | error f => rfl
  | ok r => cases r <;> rfl

end

theorem runSteps_directory_eq_ok :
    s.runSteps d [.directory] = .ok (.ok v) ↔ d = v ∧ s.entriesOf v ≠ none := by
  rw [runSteps_directory]
  by_cases hd : s.entriesOf d = none
  · simp only [hd, if_true]
    constructor
    · intro h
      cases h
    · rintro ⟨rfl, hne⟩
      exact absurd hd hne
  · simp only [hd, if_false]
    constructor
    · intro h
      cases h
      exact ⟨rfl, hd⟩
    · rintro ⟨rfl, -⟩
      rfl

/-- All steps of a path succeed if no component is too long, all but the last one can be
looked up, and this leads to a directory. -/
theorem runSteps_eq_ok {cs : List (List Char)} : s.runSteps d (steps cs) = .ok (.ok v) ↔
    (∀ c ∈ cs, c.length ≤ nameLen) ∧ s.runSteps d (cs.dropLast.map .enter) = .ok (.ok v) ∧
      s.entriesOf v ≠ none := by
  induction cs using steps.induct generalizing d with
  | case1 =>
    rw [steps, runSteps_directory_eq_ok]
    simp [runSteps]
  | case2 c =>
    rw [steps]
    by_cases hlong : nameLen < c.length
    · rw [runSteps_measure_long _ hlong]
      simp [hlong]
    · rw [runSteps_measure _ hlong, runSteps_directory_eq_ok]
      simp [runSteps, Nat.not_lt.mp hlong]
  | case3 c c' cs ih =>
    rw [steps, List.dropLast_cons_cons, List.map_cons]
    by_cases hlong : nameLen < c.length
    · rw [runSteps_measure_long _ hlong]
      simp [hlong]
    · rw [runSteps_measure _ hlong, runSteps, runSteps, runStep]
      cases s.look d c with
      | error f => simp
      | ok r =>
        cases r with
        | error e => simp
        | ok w =>
          simp only [ok_bind, ih, List.forall_mem_cons, Nat.not_lt.mp hlong,
            true_and]

/-- The references to a vnode; there are none to one that is out of core. -/
def refcount (s : Vfs) (v : Ino) : ℤ := (s.vnodes v).elim 0 Vnode.vnRefcount

theorem refcount_hold (hv : (s.inodes v).isSome = true) :
    (s.hold v).refcount = update s.refcount v (s.refcount v + 1) := by
  funext w
  rcases eq_or_ne w v with rfl | hw
  · have h : (s.hold w).vnodes w = (s.cell w).hold.vnode := congrArg Cell.vnode (s.cell_hold w)
    obtain ⟨i, hi⟩ := Option.isSome_iff_exists.mp hv
    rw [update_self, refcount, refcount, h, cell, hi]
    cases s.vnodes w <;> rfl
  · have h : (s.hold v).vnodes w = s.vnodes w := congrArg Cell.vnode (cell_hold_of_ne hw)
    rw [update_of_ne hw, refcount, refcount, h]

/-- A file system with nothing but its root, which is the working directory of a process. -/
def rootOnly : Vfs where
  inodes := update (fun _ ↦ none) rootIno (some
    { rfIno := rootIno, rfMem := .dir (newDir rootIno rootIno), rfLinkcount := 2 })
  vnodes := update (fun _ ↦ none) rootIno (some ⟨2, .dir, 2 * direntSize⟩)
  procs := update (fun _ ↦ none) 0 (some { pCwd := rootIno })

theorem sane_rootOnly : rootOnly.Sane := by
  refine ⟨fun v ↦ ?_, fun f _ ↦ rfl⟩
  rcases eq_or_ne v rootIno with rfl | hv
  · refine ⟨?_, ?_, ?_, ?_⟩
    · intro i hi
      cases hi
      rfl
    · intro i es hi hes
      cases hi
      cases hes
      simp [newDir]
    · intro vn hvn
      cases hvn
      exact ⟨_, rfl, rfl, by decide, fun _ ↦ by contradiction⟩
    · intro i hi hnone
      cases hnone
  · have hcell : rootOnly.cell v = ⟨none, none⟩ := by
      simp [rootOnly, cell, hv]
    rw [hcell]
    refine ⟨?_, ?_, ?_, ?_⟩ <;> intro _ <;> simp

end Vfs

end CS402.Fs

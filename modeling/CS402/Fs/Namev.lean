import CS402.Fs.Ramfs

/-!
# Path names

The model of `fs/namev.c`.  The loop of `dir_namev` walks over the path with the index
`i`; here it walks over what is left of the path at `i`.  Every turn but the last one
takes at least one character, so the length of the path bounds the turns.
-/

namespace CS402.Fs

open CS402.Lib Function

/-- `j` of `dir_namev`: the length of the component that starts here. -/
def compLen (path : List Char) : ℕ := (path.takeWhile fun c ↦ decide (c ≠ '/')).length

/-- The number of slashes that stand here: the `k` of `dir_namev`, and the `i` with which
an absolute path starts. -/
def slashes (path : List Char) : ℕ := (path.takeWhile fun c ↦ decide (c = '/')).length

/-- What is left of the path after its first component and the slashes behind it. -/
def pathRest (path : List Char) : List Char :=
  path.drop (compLen path + slashes (path.drop (compLen path)))

namespace Vfs

/-- `lookup`. -/
def lookup (s : Vfs) (dir : Ino) (name : List Char) (len : ℕ) :
    Except Fault (Vfs × Except Errno Ino) := do
  let vn ← follow .pointer (s.vnodes dir)
  if vn.vnMode ≠ .dir then return (s, .error .ENOTDIR)
  else if name = ['.'] ∨ len = 0 then
    let s ← s.vref dir
    return (s, .ok dir)
  else s.ramfsLookup dir name len

/-- The result of `dir_namev`: the directory, the name and its length. -/
structure Named where
  resVnode : Ino
  name : List Char
  namelen : ℕ
deriving DecidableEq

/-- The loop of `dir_namev`, from a directory `base` that it holds. -/
def dirNamevLoop : ℕ → Vfs → Ino → List Char → Except Fault (Vfs × Except Errno Named)
  | 0, _, _, _ => .error .divergence
  | turns + 1, s, base, path => do
    if nameLen < compLen path then
      let s ← s.vput base
      return (s, .error .ENAMETOOLONG)
    else if pathRest path = [] then
      let vn ← follow .pointer (s.vnodes base)
      if vn.vnMode ≠ .dir then
        let s ← s.vput base
        return (s, .error .ENOTDIR)
      else return (s, .ok ⟨base, path, compLen path⟩)
    else
      let (s, r) ← s.lookup base path (compLen path)
      let s ← s.vput base
      match r with
      | .error e => return (s, .error e)
      | .ok v => dirNamevLoop turns s v (pathRest path)

/-- Where `dir_namev` starts: the first directory, and the path from there. -/
def namevStart (base : Ino) (path : List Char) : Ino × List Char :=
  if path.head? = some '/' then (rootIno, path.drop (slashes path)) else (base, path)

/-- `dir_namev`; without a `base` it is the working directory. -/
def dirNamev (s : Vfs) (p : Pid) (path : List Char) (base : Option Ino) :
    Except Fault (Vfs × Except Errno Named) := do
  if path.length = 0 then return (s, .error .EINVAL)
  else if maxPathLen < path.length then return (s, .error .ENAMETOOLONG)
  else
    let proc ← follow .pointer (s.procs p)
    let (base, path) := namevStart (base.getD proc.pCwd) path
    let s ← s.vref base
    dirNamevLoop (path.length + 1) s base path

/-- `open_namev`. -/
def openNamev (s : Vfs) (p : Pid) (path : List Char) (flag : Flags) (base : Option Ino) :
    Except Fault (Vfs × Except Errno Ino) := do
  let (s, r) ← s.dirNamev p path base
  match r with
  | .error e => return (s, .error e)
  | .ok ⟨parent, name, length⟩ =>
    let (s, r) ← s.lookup parent name length
    match r with
    | .ok v =>
      let s ← s.vput parent
      return (s, .ok v)
    | .error .ENOENT =>
      if flag.has oCreat then
        let (s, r) ← s.ramfsCreate parent name length
        let s ← s.vput parent
        return (s, r)
      else
        let s ← s.vput parent
        return (s, .error .ENOENT)
    | .error e =>
      let s ← s.vput parent
      return (s, .error e)

end Vfs

end CS402.Fs

import CS402.Basic
import CS402.Lib.Outcome
import Mathlib.Logic.Function.Basic

/-!
# The circular list

The two implementations of `My402List`, `warmup1/my402list.c` and
`Threading/my402list.c`.  A list is a struct with a counter and an anchor, which is an
element that holds no object; its links and those of the elements are addresses, and `0`
is `NULL`.  Memory is a table of the elements that are in use, the anchor among them, and
to follow a pointer to anything else is a crash.

What `malloc` returns is not up to the list: a call is given the address of the new
element and what stands there, or nothing if the allocation fails.  An address that is in
use, or `NULL`, is never returned by a successful `malloc`.

The counter is an `int`.  The loops are bounded by a number of turns that no list of
fewer than `2 ^ 31` elements needs.
-/

namespace CS402.My402

open CS402.Lib Function

/-- The addresses of elements. -/
abbrev Addr := ℕ
/-- Objects are pointers (`void *`). -/
abbrev Obj := ℕ

/-- `My402ListElem`. -/
structure My402ListElem where
  obj : Obj
  next : Addr
  prev : Addr
deriving DecidableEq

/-- `My402List`, and the memory that it lives in. -/
structure My402List where
  numMembers : ℤ
  cells : Addr → Option My402ListElem

/-- What a call of `malloc` returns: an address and what it holds, or `NULL`. -/
abbrev Alloc := Option (Addr × My402ListElem)

namespace My402List

/-! ## Memory -/

/-- The `next` link of an element. -/
def next (s : My402List) (p : Addr) : Option Addr := (s.cells p).map My402ListElem.next

/-- The `prev` link of an element. -/
def prev (s : My402List) (p : Addr) : Option Addr := (s.cells p).map My402ListElem.prev

/-- The object of an element. -/
def obj (s : My402List) (p : Addr) : Option Obj := (s.cells p).map My402ListElem.obj

/-- There is an element at this address. -/
def Live (s : My402List) (p : Addr) : Prop := s.cells p ≠ none

instance (s : My402List) (p : Addr) : Decidable (s.Live p) := inferInstanceAs (Decidable (¬ _))

/-- Write to memory. -/
def put (s : My402List) (p : Addr) (e : Option My402ListElem) : My402List :=
  { s with cells := update s.cells p e }

/-- Change an element. -/
def modify (s : My402List) (p : Addr) (f : My402ListElem → My402ListElem) : My402List :=
  s.put p ((s.cells p).map f)

/-- `p->next`. -/
def getNext (s : My402List) (p : Addr) : Except Fault Addr := follow .pointer (s.next p)

/-- `p->prev`. -/
def getPrev (s : My402List) (p : Addr) : Except Fault Addr := follow .pointer (s.prev p)

/-- `p->obj`. -/
def getObj (s : My402List) (p : Addr) : Except Fault Obj := follow .pointer (s.obj p)

/-- `p->next = q`. -/
def setNext (s : My402List) (p q : Addr) : Except Fault My402List := do
  demand .pointer (s.Live p)
  return s.modify p fun e ↦ { e with next := q }

/-- `p->prev = q`. -/
def setPrev (s : My402List) (p q : Addr) : Except Fault My402List := do
  demand .pointer (s.Live p)
  return s.modify p fun e ↦ { e with prev := q }

/-- `p->obj = o`. -/
def setObj (s : My402List) (p : Addr) (o : Obj) : Except Fault My402List := do
  demand .pointer (s.Live p)
  return s.modify p fun e ↦ { e with obj := o }

/-- `malloc`, with what it is going to return. -/
def malloc (s : My402List) : Alloc → Except Fault (My402List × Addr)
  | none => .ok (s, 0)
  | some (p, e) => do
    demand .disabled (p ≠ 0 ∧ ¬ s.Live p)
    return (s.put p (some e), p)

/-- `free`. -/
def free (s : My402List) (p : Addr) : Except Fault My402List := do
  demand .pointer (s.Live p)
  return s.put p none

/-- Assign to `num_members`. -/
def setCount (s : My402List) (n : ℤ) : My402List := { s with numMembers := int32 n }

end My402List

open My402List

/-- A number of turns that no loop over a list needs. -/
def turns : ℕ := 2 ^ 32

variable (anchor : Addr) (s : My402List)

/-! ## What both programs do in the same way -/

/-- `My402ListLength`. -/
def my402ListLength : ℤ := s.numMembers

/-- `My402ListFirst`. -/
def my402ListFirst : Except Fault Addr :=
  if s.numMembers = 0 then return 0 else s.getNext anchor

/-- `My402ListLast`. -/
def my402ListLast : Except Fault Addr :=
  if s.numMembers = 0 then return 0 else s.getPrev anchor

/-- `My402ListNext`. -/
def my402ListNext (element : Addr) : Except Fault Addr := do
  let next ← s.getNext element
  if next = anchor then return 0 else return next

/-- `My402ListPrev`. -/
def my402ListPrev (element : Addr) : Except Fault Addr := do
  let prev ← s.getPrev element
  if prev = anchor then return 0 else return prev

/-- `My402ListInit`, on a list that is not `NULL`. -/
def my402ListInit : Except Fault My402List := do
  let s := s.setCount 0
  let s ← s.setNext anchor anchor
  s.setPrev anchor anchor

/-- Both branches of `My402ListAppend` and `My402ListPrepend` for an empty list. -/
def linkOnly (temp : Addr) : Except Fault (My402List × Bool) := do
  let s ← s.setNext temp anchor
  let s ← s.setPrev temp anchor
  let s ← s.setNext anchor temp
  let s ← s.setPrev anchor temp
  return (s.setCount (s.numMembers + 1), true)

/-! ## `warmup1/my402list.c` -/

namespace Warmup1

/-- `My402ListEmpty`. -/
def my402ListEmpty : Except Fault Bool := do
  return (← s.getNext anchor) = anchor

/-- The new element of the insertions. -/
def newElem (temp : Addr) (object : Obj) : Except Fault My402List := do
  let s ← s.setObj temp object
  let s ← s.setNext temp 0
  s.setPrev temp 0

/-- `My402ListAppend`. -/
def my402ListAppend (object : Obj) (new : Alloc) : Except Fault (My402List × Bool) := do
  let (s, temp) ← s.malloc new
  if temp = 0 then return (s, false)
  let s ← newElem s temp object
  if (← s.getNext anchor) = anchor then
    linkOnly anchor s temp
  else
    let last ← s.getPrev anchor
    let s ← s.setNext temp anchor
    let s ← s.setPrev temp last
    let s ← s.setNext last temp
    let s ← s.setPrev anchor temp
    return (s.setCount (s.numMembers + 1), true)

/-- `My402ListPrepend`. -/
def my402ListPrepend (object : Obj) (new : Alloc) : Except Fault (My402List × Bool) := do
  let (s, temp) ← s.malloc new
  if temp = 0 then return (s, false)
  let s ← newElem s temp object
  if (← s.getNext anchor) = anchor then
    linkOnly anchor s temp
  else
    let first ← s.getNext anchor
    let s ← s.setNext temp first
    let s ← s.setPrev temp anchor
    let s ← s.setNext anchor temp
    let s ← s.setPrev first temp
    return (s.setCount (s.numMembers + 1), true)

/-- `My402ListUnlink`. -/
def my402ListUnlink (elem : Addr) : Except Fault My402List := do
  let previous ← s.getPrev elem
  let nextelement ← s.getNext elem
  let s ← s.setNext previous nextelement
  let s ← s.setPrev nextelement previous
  let s ← s.free elem
  return s.setCount (s.numMembers - 1)

/-- The loop of `My402ListUnlinkAll`. -/
def unlinkAllLoop : ℕ → My402List → Addr → Except Fault (My402List × Addr)
  | 0, _, _ => .error .divergence
  | n + 1, s, header => do
    if (← s.getNext header) ≠ anchor then
      let headernext ← s.getNext header
      let s ← s.setPrev headernext header
      let s ← s.setNext anchor headernext
      let s ← s.setPrev headernext anchor
      let s ← s.free header
      unlinkAllLoop n s headernext
    else
      return (s, header)

/-- `My402ListUnlinkAll`. -/
def my402ListUnlinkAll : Except Fault My402List := do
  if s.numMembers = 0 then return s
  let header ← s.getNext anchor
  let _ ← s.getNext header
  let (s, header) ← unlinkAllLoop anchor turns s header
  let s ← s.free header
  let s ← s.setNext anchor anchor
  let s ← s.setPrev anchor anchor
  return s.setCount 0

/-- `My402ListInsertAfter`. -/
def my402ListInsertAfter (object : Obj) (element : Addr) (new : Alloc) :
    Except Fault (My402List × Bool) := do
  if element = 0 then return ← my402ListAppend anchor s object new
  let (s, temp) ← s.malloc new
  if temp = 0 then return (s, false)
  let s ← newElem s temp object
  let nextelement ← s.getNext element
  let s ← s.setNext element temp
  let s ← s.setPrev temp element
  let s ← s.setNext temp nextelement
  let s ← s.setPrev nextelement temp
  return (s.setCount (s.numMembers + 1), true)

/-- `My402ListInsertBefore`. -/
def my402ListInsertBefore (object : Obj) (element : Addr) (new : Alloc) :
    Except Fault (My402List × Bool) := do
  if element = 0 then return ← my402ListPrepend anchor s object new
  let (s, temp) ← s.malloc new
  if temp = 0 then return (s, false)
  let s ← newElem s temp object
  let prevelement ← s.getPrev element
  let s ← s.setPrev element temp
  let s ← s.setNext temp element
  let s ← s.setPrev temp prevelement
  let s ← s.setNext prevelement temp
  return (s.setCount (s.numMembers + 1), true)

/-- The loop of `My402ListFind`. -/
def findLoop (object : Obj) : ℕ → Addr → Except Fault Addr
  | 0, _ => .error .divergence
  | n + 1, temp => do
    if (← s.getNext temp) ≠ anchor then
      if (← s.getObj temp) = object then return temp
      findLoop object n (← s.getNext temp)
    else
      -- the element that the loop stops at is looked at behind it
      if (← s.getObj temp) = object then return temp
      return 0

/-- `My402ListFind`. -/
def my402ListFind (object : Obj) : Except Fault Addr := do
  findLoop anchor s object turns (← s.getNext anchor)

end Warmup1

/-! ## `Threading/my402list.c` -/

namespace Threading

/-- `My402ListEmpty`. -/
def my402ListEmpty : Except Fault Bool := return s.numMembers = 0

/-- `My402ListAppend`. -/
def my402ListAppend (object : Obj) (new : Alloc) : Except Fault (My402List × Bool) := do
  let (s, temp) ← s.malloc new
  if temp = 0 then return (s, false)
  let s ← s.setObj temp object
  if s.numMembers = 0 then
    linkOnly anchor s temp
  else
    let s ← s.setNext temp anchor
    let s ← s.setPrev temp (← s.getPrev anchor)
    let s ← s.setNext (← s.getPrev anchor) temp
    let s ← s.setPrev anchor temp
    return (s.setCount (s.numMembers + 1), true)

/-- `My402ListPrepend`. -/
def my402ListPrepend (object : Obj) (new : Alloc) : Except Fault (My402List × Bool) := do
  let (s, temp) ← s.malloc new
  if temp = 0 then return (s, false)
  let s ← s.setObj temp object
  if s.numMembers = 0 then
    linkOnly anchor s temp
  else
    let s ← s.setNext temp (← s.getNext anchor)
    let s ← s.setPrev temp anchor
    let s ← s.setPrev (← s.getNext anchor) temp
    let s ← s.setNext anchor temp
    return (s.setCount (s.numMembers + 1), true)

/-- `My402ListUnlink`. -/
def my402ListUnlink (elem : Addr) : Except Fault My402List := do
  let s ← s.setNext (← s.getPrev elem) (← s.getNext elem)
  let s ← s.setPrev (← s.getNext elem) (← s.getPrev elem)
  let s ← s.free elem
  return s.setCount (s.numMembers - 1)

/-- The loop of `My402ListUnlinkAll`. -/
def unlinkAllLoop : ℕ → My402List → Addr → Except Fault My402List
  | 0, _, _ => .error .divergence
  | n + 1, s, element => do
    if (← s.getNext element) ≠ (← s.getNext anchor) then
      let elementnext ← s.getNext element
      let s ← s.setNext anchor elementnext
      let s ← s.setPrev elementnext anchor
      let s ← s.free element
      unlinkAllLoop n s elementnext
    else
      return s

/-- `My402ListUnlinkAll`, on a list that is not `NULL`. -/
def my402ListUnlinkAll : Except Fault My402List := do
  if (← s.getNext anchor) = anchor then return s
  let element ← s.getNext anchor
  let _ ← s.getNext element
  let s ← unlinkAllLoop anchor turns s element
  let s ← s.setNext anchor anchor
  let s ← s.setPrev anchor anchor
  return s.setCount 0

/-- `My402ListInsertAfter`.  The new element is allocated before `elem` is looked at; if
`elem` is `NULL` it is lost, and `My402ListAppend` allocates another one. -/
def my402ListInsertAfter (object : Obj) (elem : Addr) (new new' : Alloc) :
    Except Fault (My402List × Bool) := do
  let (s, temp) ← s.malloc new
  if temp = 0 then return (s, false)
  if elem = 0 then return ← my402ListAppend anchor s object new'
  let s ← s.setObj temp object
  let s ← s.setNext temp (← s.getNext elem)
  let s ← s.setPrev temp elem
  let s ← s.setPrev (← s.getNext elem) temp
  let s ← s.setNext elem temp
  return (s.setCount (s.numMembers + 1), true)

/-- `My402ListInsertBefore`. -/
def my402ListInsertBefore (object : Obj) (elem : Addr) (new new' : Alloc) :
    Except Fault (My402List × Bool) := do
  let (s, temp) ← s.malloc new
  if temp = 0 then return (s, false)
  if elem = 0 then return ← my402ListPrepend anchor s object new'
  let s ← s.setObj temp object
  let s ← s.setNext temp elem
  let s ← s.setPrev temp (← s.getPrev elem)
  let s ← s.setNext (← s.getPrev elem) temp
  let s ← s.setPrev elem temp
  return (s.setCount (s.numMembers + 1), true)

/-- The loop of `My402ListFind`, which goes on until it is at the anchor. -/
def findLoop (object : Obj) : ℕ → Addr → Except Fault Addr
  | 0, _ => .error .divergence
  | n + 1, temp => do
    if (← s.getNext temp) ≠ (← s.getNext anchor) then
      if (← s.getObj temp) = object then return temp
      findLoop object n (← s.getNext temp)
    else
      return 0

/-- `My402ListFind`. -/
def my402ListFind (object : Obj) : Except Fault Addr := do
  findLoop anchor s object turns (← s.getNext anchor)

end Threading

end CS402.My402

import CS402.Lib.Trans
import CS402.My402List.Links

/-!
# The circular list is a sequence

The specification of `My402List` is a sequence of objects; an element is a position in it.
A client calls the two implementations in the same way: it names an element by its
position, that is, it has come to it from the anchor along the links.  `Represents` says
that a list in memory is a given sequence: the elements and the anchor form a ring, each
element holds its object, and the counter is right.  Every call keeps this up, in both
programs (`Represents.call`), and whatever is asked then has the answer that the sequence
gives, with one exception.

The exception is `My402ListFind` of `warmup1`.  It looks at the element behind its loop
without asking whether that is the anchor, so on an empty list it compares the `obj` field
of the anchor, which `My402ListInit` does not set, and may return the anchor.
-/

namespace CS402.My402

open CS402.Lib Function

/-! ## Sequences -/

/-- The calls that change a list; elements are given by position, `none` is `NULL`. -/
inductive Call where
  | append (o : Obj)
  | prepend (o : Obj)
  | insertAfter (o : Obj) (elem : Option ℕ)
  | insertBefore (o : Obj) (elem : Option ℕ)
  | unlink (elem : ℕ)
  | unlinkAll

namespace Call

/-- What a call does to a sequence. -/
def apply (xs : List Obj) : Call → List Obj
  | .append o | .insertAfter o none => xs ++ [o]
  | .prepend o | .insertBefore o none => o :: xs
  | .insertAfter o (some i) => xs.take (i + 1) ++ o :: xs.drop (i + 1)
  | .insertBefore o (some i) => xs.take i ++ o :: xs.drop i
  | .unlink i => xs.eraseIdx i
  | .unlinkAll => []

/-- The element is on the list, and the counter has room for one more. -/
def Ok (xs : List Obj) : Call → Prop
  | .append _ | .prepend _ | .insertAfter _ none | .insertBefore _ none => xs.length + 1 < 2 ^ 31
  | .insertAfter _ (some i) | .insertBefore _ (some i) => i < xs.length ∧ xs.length + 1 < 2 ^ 31
  | .unlink i => i < xs.length
  | .unlinkAll => True

instance (xs : List Obj) : DecidablePred (Ok xs)
  | .append _ | .prepend _ | .insertAfter _ none | .insertBefore _ none =>
    inferInstanceAs (Decidable (_ < _))
  | .insertAfter _ (some _) | .insertBefore _ (some _) => inferInstanceAs (Decidable (_ ∧ _))
  | .unlink _ => inferInstanceAs (Decidable (_ < _))
  | .unlinkAll => inferInstanceAs (Decidable True)

end Call

/-- The sequence after some calls, the latest one first, if they are all in order. -/
def sequence : List Call → Option (List Obj)
  | [] => some []
  | c :: cs => (sequence cs).bind fun xs ↦ if c.Ok xs then some (c.apply xs) else none

/-- The questions whose answer is an element. -/
inductive Query where
  | first
  | last
  | next (elem : ℕ)
  | prev (elem : ℕ)
  | find (o : Obj)
deriving DecidableEq

namespace Query

/-- The answer that a sequence gives. -/
def answer (xs : List Obj) : Query → Option ℕ
  | .first => if xs = [] then none else some 0
  | .last => if xs = [] then none else some (xs.length - 1)
  | .next i => if i + 1 < xs.length then some (i + 1) else none
  | .prev i => if i = 0 then none else some (i - 1)
  | .find o => xs.idxOf? o

/-- The element that is asked about is on the list. -/
def Ok (xs : List Obj) : Query → Prop
  | .next i | .prev i => i < xs.length
  | .first | .last | .find _ => True

end Query

/-- The pointer to the element at a position, for elements at the addresses `p`; no
position is `NULL`. -/
def pointerTo (p : List Addr) : Option ℕ → Addr
  | none => 0
  | some i => p.getD i 0

/-! ## The two programs -/

/-- Which program. -/
inductive Impl where
  | warmup1
  | threading
deriving DecidableEq

variable (anchor : Addr) (s : My402List)

/-- The element at a position, along the links. -/
def elemAt : ℕ → Except Fault Addr
  | 0 => s.getNext anchor
  | i + 1 => do s.getNext (← elemAt i)

/-- The pointer that a client passes for an element. -/
def pointer : Option ℕ → Except Fault Addr
  | none => .ok 0
  | some i => elemAt anchor s i

namespace Impl

/-- A call that changes the list, with what `malloc` returns during it.  The functions that
return nothing count as successful. -/
def call (I : Impl) (c : Call) (new new' : Alloc) : Except Fault (My402List × Bool) :=
  match I, c with
  | .warmup1, .append o => Warmup1.my402ListAppend anchor s o new
  | .warmup1, .prepend o => Warmup1.my402ListPrepend anchor s o new
  | .warmup1, .insertAfter o i => do
    Warmup1.my402ListInsertAfter anchor s o (← pointer anchor s i) new
  | .warmup1, .insertBefore o i => do
    Warmup1.my402ListInsertBefore anchor s o (← pointer anchor s i) new
  | .warmup1, .unlink i => do
    return (← Warmup1.my402ListUnlink s (← elemAt anchor s i), true)
  | .warmup1, .unlinkAll => do return (← Warmup1.my402ListUnlinkAll anchor s, true)
  | .threading, .append o => Threading.my402ListAppend anchor s o new
  | .threading, .prepend o => Threading.my402ListPrepend anchor s o new
  | .threading, .insertAfter o i => do
    Threading.my402ListInsertAfter anchor s o (← pointer anchor s i) new new'
  | .threading, .insertBefore o i => do
    Threading.my402ListInsertBefore anchor s o (← pointer anchor s i) new new'
  | .threading, .unlink i => do
    return (← Threading.my402ListUnlink s (← elemAt anchor s i), true)
  | .threading, .unlinkAll => do return (← Threading.my402ListUnlinkAll anchor s, true)

/-- `My402ListEmpty`. -/
def my402ListEmpty : Impl → Except Fault Bool
  | .warmup1 => Warmup1.my402ListEmpty anchor s
  | .threading => Threading.my402ListEmpty s

/-- A question. -/
def ask (I : Impl) : Query → Except Fault Addr
  | .first => my402ListFirst anchor s
  | .last => my402ListLast anchor s
  | .next i => do my402ListNext anchor s (← elemAt anchor s i)
  | .prev i => do my402ListPrev anchor s (← elemAt anchor s i)
  | .find o =>
    match I with
    | .warmup1 => Warmup1.my402ListFind anchor s o
    | .threading => Threading.my402ListFind anchor s o

end Impl

/-- A call and the elements that `malloc` returns during it. -/
structure Event where
  call : Call
  new : Addr × My402ListElem
  new' : Addr × My402ListElem

/-- `malloc` returns memory that is not in use. -/
def Event.Fresh (s : My402List) (e : Event) : Prop :=
  e.new.1 ≠ 0 ∧ ¬ s.Live e.new.1 ∧ e.new'.1 ≠ 0 ∧ ¬ s.Live e.new'.1 ∧ e.new.1 ≠ e.new'.1

instance (s : My402List) (e : Event) : Decidable (e.Fresh s) := inferInstanceAs (Decidable (_ ∧ _))

/-- One call. -/
def Impl.step (I : Impl) (e : Event) : Except Fault My402List :=
  Prod.fst <$> I.call anchor s e.call (some e.new) (some e.new')

variable {anchor s} {s' : My402List} {p l₁ l₂ : List Addr} {xs ys : List Obj} {o c x : Obj}
  {q z z' : Addr}
  {e e' : My402ListElem} {i k n : ℕ}

/-! ## Representation -/

/-- The list is the sequence `xs`, with its elements at the addresses `p`; the `obj` field
of the anchor holds `c`. -/
structure Represents (anchor : Addr) (c : Obj) (s : My402List) (p : List Addr) (xs : List Obj) :
    Prop where
  null : ¬ s.Live 0
  anchorObj : s.obj anchor = some c
  ring : LinkRing s.next s.prev anchor p
  objs : p.map s.obj = xs.map some
  count : s.numMembers = xs.length
  size : xs.length < 2 ^ 31

namespace Represents

section

variable (h : Represents anchor c s p xs)
include h

theorem length_eq : p.length = xs.length := by
  simpa using congrArg List.length h.objs

theorem eq_nil_iff : p = [] ↔ xs = [] := by
  rw [← List.length_eq_zero_iff, ← List.length_eq_zero_iff, h.length_eq]

theorem count_eq_zero : s.numMembers = 0 ↔ p = [] := by
  rw [h.count, h.eq_nil_iff]
  simp

theorem ne_anchor (hq : q ∈ p) : q ≠ anchor :=
  fun he ↦ (List.nodup_cons.mp h.ring.nodup).1 (he ▸ hq)

theorem live_anchor : s.Live anchor :=
  My402List.live_of_next h.ring.next_anchor

theorem live_of_mem (hq : q ∈ p) : s.Live q := by
  obtain ⟨l₁, l₂, rfl⟩ := List.append_of_mem hq
  exact My402List.live_of_next (h.ring.next_node l₁)

theorem obj_of_mem (hq : q ∈ p) : ∃ x, s.obj q = some x :=
  Option.ne_none_iff_exists'.mp (My402List.live_iff_obj.mp (h.live_of_mem hq))

theorem ne_zero (hq : q ∈ p) : q ≠ 0 :=
  fun he ↦ h.null (he ▸ h.live_of_mem hq)

theorem ne_of_free (hz : ¬ s.Live z) : ∀ q ∈ anchor :: p, q ≠ z := by
  rintro q hq rfl
  rcases List.mem_cons.mp hq with rfl | hq
  · exact hz h.live_anchor
  · exact hz (h.live_of_mem hq)

theorem headD_eq_anchor : p.headD anchor = anchor ↔ p = [] := by
  cases p with
  | nil => simp
  | cons q p => simpa using h.ne_anchor List.mem_cons_self

theorem getLastD_eq_anchor : p.getLastD anchor = anchor ↔ p = [] := by
  rcases p.eq_nil_or_concat' with rfl | ⟨p, q, rfl⟩
  · simp
  · simpa using h.ne_anchor (List.mem_append_right p (List.mem_singleton_self q))

theorem elemAt_ok (hi : i < p.length) : elemAt anchor s i = .ok p[i] := by
  induction i with
  | zero =>
    obtain ⟨q, p, rfl⟩ := List.exists_cons_of_length_pos hi
    exact My402List.getNext_ok h.ring.next_anchor
  | succ i ih =>
    have hi' : i < p.length := Nat.lt_of_succ_lt hi
    rw [elemAt, ih hi', ok_bind]
    have hring := h.ring
    rw [← List.take_append_drop i p, List.drop_eq_getElem_cons hi',
      List.drop_eq_getElem_cons hi] at hring
    exact My402List.getNext_ok (hring.next_node _)

theorem split (hi : i < xs.length) : ∃ l₁ q l₂ ys y zs, p = l₁ ++ q :: l₂ ∧ xs = ys ++ y :: zs ∧
    l₁.length = i ∧ ys.length = i ∧ elemAt anchor s i = .ok q := by
  have hi' : i < p.length := h.length_eq ▸ hi
  refine ⟨p.take i, p[i], p.drop (i + 1), xs.take i, xs[i], xs.drop (i + 1), ?_, ?_,
    List.length_take_of_le hi'.le, List.length_take_of_le hi.le, h.elemAt_ok hi'⟩
  · rw [← List.drop_eq_getElem_cons, List.take_append_drop]
  · rw [← List.drop_eq_getElem_cons, List.take_append_drop]

theorem clear (hr : LinkRing s'.next s'.prev anchor [])
    (hs : Shrinks s s') (hcount : s'.numMembers = 0) : Represents anchor c s' [] [] where
  null hl := h.null (hs.live 0 hl)
  anchorObj := (hs.obj _ (My402List.live_of_next hr.next_anchor)).trans h.anchorObj
  ring := hr
  objs := rfl
  count := hcount
  size := by simp

theorem lose (hz₀ : z ≠ 0) (hz : ¬ s.Live z) : Represents anchor c (s.put z (some e)) p xs := by
  have hne := h.ne_of_free hz
  constructor
  case null =>
    rw [My402List.live_put_some]
    exact not_or.mpr ⟨hz₀.symm, h.null⟩
  case anchorObj =>
    rw [My402List.obj_put, update_of_ne (hne _ List.mem_cons_self)]
    exact h.anchorObj
  case ring =>
    refine ⟨h.ring.nodup, LinkRing.chain_congr h.ring.chain (fun q hq ↦ ?_) (fun q hq ↦ ?_)⟩
    · have hq := List.dropLast_subset _ hq
      rw [My402List.next_put, update_of_ne (hne q (by grind))]
    · rw [My402List.prev_put, update_of_ne (hne q (by simpa [or_comm] using hq))]
  case objs =>
    rw [← h.objs]
    refine List.map_congr_left fun q hq ↦ ?_
    rw [My402List.obj_put, update_of_ne (hne q (List.mem_cons_of_mem _ hq))]
  case count => exact h.count
  case size => exact h.size

end

/-! ## The calls -/

theorem objs_append (h : Represents anchor c s (l₁ ++ l₂) (xs ++ ys)) (hl : l₁.length = xs.length) :
    l₁.map s.obj = xs.map some ∧ l₂.map s.obj = ys.map some := by
  have hobjs := h.objs
  rw [List.map_append, List.map_append] at hobjs
  exact List.append_inj hobjs (by simpa using hl)

section Insert

variable (hz₀ : z ≠ 0) (hz : ¬ s.Live z)
include hz₀ hz

theorem insert {r : My402List → Prop} (h : Represents anchor c s (l₁ ++ l₂) (xs ++ ys))
    (hl : l₁.length = xs.length) (hlen : (xs ++ ys).length + 1 < 2 ^ 31)
    (hr : ∃ s', r s' ∧ Inserted s z o (l₁.getLastD anchor) (l₂.headD anchor) s') :
    ∃ s', r s' ∧ Represents anchor c s' (l₁ ++ z :: l₂) (xs ++ o :: ys) := by
  obtain ⟨s', hs', hi⟩ := hr
  refine ⟨s', hs', ?_⟩
  have hne := h.ne_of_free hz
  have hobj : ∀ q ∈ anchor :: (l₁ ++ l₂), s'.obj q = s.obj q := fun q hq ↦ by
    rw [hi.obj, if_neg (hne q hq)]
  obtain ⟨-, -, hxz, hyz, -⟩ := Cut.apart ⟨h.ring.link l₁, hz₀, hz⟩
  constructor
  case null => exact fun hl ↦ (hi.live.mp hl).elim hz₀.symm h.null
  case anchorObj =>
    rw [hobj _ List.mem_cons_self]
    exact h.anchorObj
  case ring =>
    refine h.ring.insert (fun w hw hwx ↦ ?_) (fun w hw hwy ↦ ?_) (fun hm ↦ hne z hm rfl) ⟨?_, ?_⟩
      ⟨?_, ?_⟩
    · rw [hi.next, if_neg hw, if_neg hwx]
    · rw [hi.prev, if_neg hw, if_neg hwy]
    · rw [hi.next, if_neg hxz, if_pos rfl]
    · rw [hi.prev, if_pos rfl]
    · rw [hi.next, if_pos rfl]
    · rw [hi.prev, if_neg hyz, if_pos rfl]
  case objs =>
    obtain ⟨h₁, h₂⟩ := h.objs_append hl
    rw [List.map_append, List.map_cons, List.map_append, List.map_cons, hi.obj, if_pos rfl, ← h₁,
      ← h₂, List.map_congr_left fun q hq ↦ hobj q (by simp [hq]),
      List.map_congr_left fun q hq ↦ hobj q (by simp [hq])]
  case count =>
    rw [hi.count, h.count, int32_of_range (by omega) (by omega)]
    simp
    omega
  case size =>
    simpa [Nat.add_assoc] using hlen

theorem append (h : Represents anchor c s p xs) (hlen : xs.length + 1 < 2 ^ 31) (I : Impl)
    (new' : Alloc) :
    ∃ s', I.call anchor s (.append o) (some (z, e)) new' = .ok (s', true) ∧
      Represents anchor c s' (p ++ [z]) (xs ++ [o]) := by
  have h' : Represents anchor c s (p ++ []) (xs ++ []) := by
    rwa [List.append_nil, List.append_nil]
  have hcut : Cut s (p.getLastD anchor) anchor z := ⟨h'.ring.link p, hz₀, hz⟩
  refine h'.insert hz₀ hz h.length_eq (by simpa using hlen) ?_
  cases I with
  | warmup1 =>
    exact Warmup1.append_inserted hcut h.ring.next_anchor
      (h.headD_eq_anchor.trans h.getLastD_eq_anchor.symm)
  | threading =>
    exact Threading.append_inserted hcut (h.count_eq_zero.trans h.getLastD_eq_anchor.symm)

theorem prepend (h : Represents anchor c s p xs) (hlen : xs.length + 1 < 2 ^ 31) (I : Impl)
    (new' : Alloc) :
    ∃ s', I.call anchor s (.prepend o) (some (z, e)) new' = .ok (s', true) ∧
      Represents anchor c s' (z :: p) (o :: xs) := by
  have hcut : Cut s anchor (p.headD anchor) z := ⟨h.ring.link [], hz₀, hz⟩
  refine insert hz₀ hz (show Represents anchor c s ([] ++ p) ([] ++ xs) from h) rfl hlen ?_
  cases I with
  | warmup1 => exact Warmup1.prepend_inserted hcut
  | threading =>
    exact Threading.prepend_inserted hcut (h.count_eq_zero.trans h.headD_eq_anchor.symm)

variable (h : Represents anchor c s (l₁ ++ q :: l₂) (xs ++ x :: ys)) (hl : l₁.length = xs.length)
  (hlen : (xs ++ x :: ys).length + 1 < 2 ^ 31) {j : Option ℕ}
  (hq : pointer anchor s j = .ok q)
include h hl hlen hq

theorem insertAfter (I : Impl) (new' : Alloc) :
    ∃ s', I.call anchor s (.insertAfter o j) (some (z, e)) new' = .ok (s', true) ∧
      Represents anchor c s' (l₁ ++ q :: z :: l₂) (xs ++ x :: o :: ys) := by
  have hne : q ≠ 0 := h.ne_zero (by simp)
  rw [List.append_cons, List.append_cons xs] at h
  rw [List.append_cons, List.append_cons xs]
  rw [List.append_cons] at hlen
  have hlast : (l₁ ++ [q]).getLastD anchor = q := List.getLastD_concat
  have hcut : Cut s q (l₂.headD anchor) z := ⟨hlast ▸ h.ring.link (l₁ ++ [q]), hz₀, hz⟩
  refine h.insert hz₀ hz (by simp [hl]) hlen ?_
  rw [hlast]
  cases I with
  | warmup1 =>
    simpa only [Impl.call, hq, ok_bind] using Warmup1.insertAfter_inserted anchor hcut hne
  | threading =>
    simpa only [Impl.call, hq, ok_bind] using Threading.insertAfter_inserted anchor hcut hne new'

theorem insertBefore (I : Impl) (new' : Alloc) :
    ∃ s', I.call anchor s (.insertBefore o j) (some (z, e)) new' = .ok (s', true) ∧
      Represents anchor c s' (l₁ ++ z :: q :: l₂) (xs ++ o :: x :: ys) := by
  have hne : q ≠ 0 := h.ne_zero (by simp)
  have hcut : Cut s (l₁.getLastD anchor) q z := ⟨h.ring.link l₁, hz₀, hz⟩
  refine h.insert hz₀ hz hl hlen ?_
  rw [List.headD_cons]
  cases I with
  | warmup1 =>
    simpa only [Impl.call, hq, ok_bind] using Warmup1.insertBefore_inserted anchor hcut hne
  | threading =>
    simpa only [Impl.call, hq, ok_bind] using Threading.insertBefore_inserted anchor hcut hne new'

end Insert

section Remove

variable (h : Represents anchor c s (l₁ ++ q :: l₂) (xs ++ x :: ys)) (hl : l₁.length = xs.length)
include h hl

theorem remove (hr : Removed s q (l₁.getLastD anchor) (l₂.headD anchor) s')
    (hcount : s'.numMembers = int32 (s.numMembers - 1)) :
    Represents anchor c s' (l₁ ++ l₂) (xs ++ ys) := by
  have hnodup := (List.nodup_cons.mp h.ring.nodup).2
  rw [List.nodup_middle] at hnodup
  have hobj : ∀ w ∈ l₁ ++ l₂, s'.obj w = s.obj w := fun w hw ↦ by
    rw [hr.obj, if_neg]
    rintro rfl
    exact (List.nodup_cons.mp hnodup).1 hw
  have hsize := h.size
  have hlen : (xs ++ x :: ys).length = (xs ++ ys).length + 1 := by simp [Nat.add_assoc]
  constructor
  case null => exact fun hl ↦ h.null (hr.live.mp hl).2
  case anchorObj =>
    rw [hr.obj, if_neg (h.ne_anchor (by simp)).symm]
    exact h.anchorObj
  case ring => exact hr.ring _ h.ring
  case objs =>
    obtain ⟨h₁, h₂⟩ := h.objs_append hl
    rw [List.map_congr_left hobj, List.map_append, List.map_append, h₁, (List.cons.inj h₂).2]
  case count =>
    rw [hcount, h.count, int32_of_range (by omega) (by omega)]
    omega
  case size => omega

theorem unlink (I : Impl) (new new' : Alloc) (hq : elemAt anchor s i = .ok q) :
    ∃ s', I.call anchor s (.unlink i) new new' = .ok (s', true) ∧
      Represents anchor c s' (l₁ ++ l₂) (xs ++ ys) := by
  obtain ⟨hleft, hright⟩ := h.ring.links l₁
  have hne : l₁.getLastD anchor ≠ q := by
    have hnodup := h.ring.nodup
    rcases l₁.eq_nil_or_concat' with rfl | ⟨l, x, rfl⟩ <;> grind
  cases I with
  | warmup1 =>
    obtain ⟨s', hs', hrem, hcount⟩ := Warmup1.unlink_removed hleft hright
    refine ⟨s', ?_, h.remove hl hrem hcount⟩
    simp only [Impl.call, hq, ok_bind, hs']
    rfl
  | threading =>
    obtain ⟨s', hs', hrem, hcount⟩ := Threading.unlink_removed hleft hright hne
    refine ⟨s', ?_, h.remove hl hrem hcount⟩
    simp only [Impl.call, hq, ok_bind, hs']
    rfl

end Remove

section

variable (h : Represents anchor c s p xs)
include h

variable {ev : Event}

/-- Insertion after `NULL` is `My402ListAppend` and before `NULL` `My402ListPrepend`; the
program of `Threading` loses an element on the way. -/
theorem call_null (I : Impl) (hf : ev.Fresh s) :
    ∃ s₁ z e, Represents anchor c s₁ p xs ∧ z ≠ 0 ∧ ¬ s₁.Live z ∧
      (∀ o, I.call anchor s (.insertAfter o none) (some ev.new) (some ev.new') =
        I.call anchor s₁ (.append o) (some (z, e)) none) ∧
      ∀ o, I.call anchor s (.insertBefore o none) (some ev.new) (some ev.new') =
        I.call anchor s₁ (.prepend o) (some (z, e)) none := by
  obtain ⟨hz₀, hz, hz₀', hz', hne⟩ := hf
  cases I with
  | warmup1 => exact ⟨s, ev.new.1, ev.new.2, h, hz₀, hz, fun _ ↦ rfl, fun _ ↦ rfl⟩
  | threading =>
    refine ⟨_, ev.new'.1, ev.new'.2, h.lose (e := ev.new.2) hz₀ hz, hz₀', ?_, ?_, ?_⟩
    · rw [My402List.live_put_some]
      exact not_or.mpr ⟨hne.symm, hz'⟩
    · simp [Impl.call, pointer, Threading.my402ListInsertAfter, My402List.malloc_ok hz₀ hz, hz₀]
    · simp [Impl.call, pointer, Threading.my402ListInsertBefore, My402List.malloc_ok hz₀ hz, hz₀]

theorem unlinkAll (I : Impl) (new new' : Alloc) :
    ∃ s', I.call anchor s .unlinkAll new new' = .ok (s', true) ∧
      Represents anchor c s' [] [] := by
  have hsize : p.length < turns := by
    have := h.size
    rw [h.length_eq]
    unfold turns
    omega
  cases p with
  | nil =>
    obtain rfl := h.eq_nil_iff.mp rfl
    refine ⟨s, ?_, h⟩
    cases I with
    | warmup1 => simp [Impl.call, Warmup1.my402ListUnlinkAll, h.count]
    | threading =>
      simp [Impl.call, Threading.my402ListUnlinkAll, My402List.getNext, h.ring.next_anchor]
  | cons z p =>
    cases I with
    | warmup1 =>
      have hcount : s.numMembers ≠ 0 := fun h0 ↦ List.cons_ne_nil z p (h.count_eq_zero.mp h0)
      obtain ⟨s', hs', hring, hshr, hzero⟩ :=
        Warmup1.unlinkAll_ok h.ring hcount (Nat.lt_of_succ_lt hsize)
      refine ⟨s', ?_, h.clear hring hshr hzero⟩
      simp only [Impl.call, hs', ok_bind]
      rfl
    | threading =>
      obtain ⟨s', hs', hring, hshr, hzero⟩ := Threading.unlinkAll_ok h.ring hsize
      refine ⟨s', ?_, h.clear hring hshr hzero⟩
      simp only [Impl.call, hs', ok_bind]
      rfl

/-- **Every call does to the list what it does to the sequence.** -/
theorem call (I : Impl) (hf : ev.Fresh s)
    (hok : ev.call.Ok xs) :
    ∃ s' p', I.call anchor s ev.call (some ev.new) (some ev.new') = .ok (s', true) ∧
      Represents anchor c s' p' (ev.call.apply xs) := by
  obtain ⟨hz₀, hz, -⟩ := id hf
  obtain ⟨call, ⟨z, e⟩, new'⟩ := ev
  cases call with
  | append o =>
    obtain ⟨s', hs', hrep⟩ := h.append hz₀ hz hok I (some new')
    exact ⟨s', _, hs', hrep⟩
  | prepend o =>
    obtain ⟨s', hs', hrep⟩ := h.prepend hz₀ hz hok I (some new')
    exact ⟨s', _, hs', hrep⟩
  | insertAfter o elem =>
    cases elem with
    | none =>
      obtain ⟨s₁, z, e, h₁, hz₀, hz, hcall, -⟩ := h.call_null I hf
      obtain ⟨s', hs', hrep⟩ := h₁.append hz₀ hz hok I none
      exact ⟨s', _, (hcall o).trans hs', hrep⟩
    | some i =>
      obtain ⟨l₁, q, l₂, ys, y, zs, rfl, rfl, hl, rfl, hq⟩ := h.split hok.1
      obtain ⟨s', hs', hrep⟩ := insertAfter (j := some _) hz₀ hz h hl hok.2 hq I (some new')
      exact ⟨s', _, hs',
        by simpa [Call.apply, List.take_length_add_append] using hrep⟩
  | insertBefore o elem =>
    cases elem with
    | none =>
      obtain ⟨s₁, z, e, h₁, hz₀, hz, -, hcall⟩ := h.call_null I hf
      obtain ⟨s', hs', hrep⟩ := h₁.prepend hz₀ hz hok I none
      exact ⟨s', _, (hcall o).trans hs', hrep⟩
    | some i =>
      obtain ⟨l₁, q, l₂, ys, y, zs, rfl, rfl, hl, rfl, hq⟩ := h.split hok.1
      obtain ⟨s', hs', hrep⟩ := insertBefore (j := some _) hz₀ hz h hl hok.2 hq I (some new')
      exact ⟨s', _, hs', by simpa [Call.apply] using hrep⟩
  | unlink i =>
    obtain ⟨l₁, q, l₂, ys, y, zs, rfl, rfl, hl, rfl, hq⟩ := h.split hok
    obtain ⟨s', hs', hrep⟩ := h.unlink hl I (some (z, e)) (some new') hq
    exact ⟨s', _, hs', by simpa [Call.apply, List.eraseIdx_append_of_length_le] using hrep⟩
  | unlinkAll =>
    obtain ⟨s', hs', hrep⟩ := h.unlinkAll I (some (z, e)) (some new')
    exact ⟨s', _, hs', hrep⟩

end

/-! ## The questions -/

theorem next_at (h : Represents anchor c s (l₁ ++ q :: l₂) xs) :
    my402ListNext anchor s q = .ok (l₂.headD 0) := by
  rw [my402ListNext, My402List.getNext_ok (h.ring.next_node l₁), ok_bind]
  cases l₂ with
  | nil => exact if_pos rfl
  | cons r l₂ => exact if_neg (h.ne_anchor (by simp))

theorem prev_at (h : Represents anchor c s (l₁ ++ q :: l₂) xs) :
    my402ListPrev anchor s q = .ok (l₁.getLastD 0) := by
  rw [my402ListPrev, My402List.getPrev_ok (h.ring.links l₁).1.2, ok_bind]
  rcases l₁.eq_nil_or_concat' with rfl | ⟨l, r, rfl⟩
  · exact if_pos rfl
  · rw [List.getLastD_concat, List.getLastD_concat]
    exact if_neg (h.ne_anchor (by simp))

/-- The first element that holds an object, or `NULL`. -/
def firstWith (s : My402List) (o : Obj) (p : List Addr) : Addr :=
  (p.find? fun q ↦ s.obj q = some o).getD 0

theorem firstWith_cons :
    firstWith s o (q :: p) = if s.obj q = some o then q else firstWith s o p := by
  unfold firstWith
  rw [List.find?_cons]
  split <;> simp_all

theorem findLoop_warmup1 (h : Represents anchor c s p xs) {t : Addr} (hp : p = l₁ ++ t :: l₂)
    (hn : l₂.length < n) : Warmup1.findLoop anchor s o n t = .ok (firstWith s o (t :: l₂)) := by
  induction l₂ generalizing l₁ t n with
  | nil =>
    obtain ⟨n, rfl⟩ := Nat.exists_eq_succ_of_ne_zero hn.ne'
    obtain ⟨x, hx⟩ := h.obj_of_mem (q := t) (by simp [hp])
    have hnext : s.next t = some anchor := (hp ▸ h.ring).next_node l₁
    simp only [Warmup1.findLoop, My402List.getNext_ok hnext, My402List.getObj_ok hx, ok_bind,
      firstWith_cons, hx, Option.some.injEq]
    simp only [ne_eq, not_true_eq_false, if_false]
    split <;> rfl
  | cons y l₂ ih =>
    obtain ⟨n, rfl⟩ := Nat.exists_eq_succ_of_ne_zero (Nat.ne_zero_of_lt hn)
    obtain ⟨x, hx⟩ := h.obj_of_mem (q := t) (by simp [hp])
    have hnext : s.next t = some y := (hp ▸ h.ring).next_node l₁
    have hy : y ≠ anchor := h.ne_anchor (by simp [hp])
    have hp' : p = (l₁ ++ [t]) ++ y :: l₂ := by simp [hp]
    have hrest := ih hp' (Nat.lt_of_succ_lt_succ hn)
    rw [firstWith_cons, hx]
    simp only [Warmup1.findLoop, My402List.getNext_ok hnext, My402List.getObj_ok hx, ok_bind,
      Option.some.injEq, ne_eq, hy, not_false_eq_true, if_true, hrest]
    split <;> rfl

theorem ne_first (h : Represents anchor c s p xs) {t : Addr} (hp : p = l₁ ++ t :: l₂) :
    l₂.headD anchor ≠ p.headD anchor := by
  intro heq
  have hprev : s.prev (l₂.headD anchor) = some t := by
    have hring := hp ▸ h.ring
    rw [List.append_cons] at hring
    simpa using (hring.link _).2
  have hprev' : s.prev (p.headD anchor) = some anchor := (h.ring.link []).2
  rw [heq, hprev', Option.some.injEq] at hprev
  exact h.ne_anchor (by simp [hp]) hprev.symm

theorem findLoop_threading (h : Represents anchor c s p xs) (hp : p = l₁ ++ l₂)
    (hn : l₂.length < n) :
    Threading.findLoop anchor s o n (l₂.headD anchor) = .ok (firstWith s o l₂) := by
  have hfirst := h.ring.next_anchor
  induction l₂ generalizing l₁ n with
  | nil =>
    obtain ⟨n, rfl⟩ := Nat.exists_eq_succ_of_ne_zero hn.ne'
    simp [Threading.findLoop, My402List.getNext_ok hfirst, firstWith, pure, Except.pure]
  | cons t l₂ ih =>
    obtain ⟨n, rfl⟩ := Nat.exists_eq_succ_of_ne_zero (Nat.ne_zero_of_lt hn)
    obtain ⟨x, hx⟩ := h.obj_of_mem (q := t) (by simp [hp])
    have hring := hp ▸ h.ring
    have hnext : s.next t = some (l₂.headD anchor) := hring.next_node l₁
    have hp' : p = (l₁ ++ [t]) ++ l₂ := by simp [hp]
    have hrest := ih hp' (Nat.lt_of_succ_lt_succ hn)
    rw [firstWith_cons, hx]
    simp only [Threading.findLoop, List.headD_cons, My402List.getNext_ok hnext,
      My402List.getNext_ok hfirst, My402List.getObj_ok hx, ok_bind, Option.some.injEq, ne_eq,
      h.ne_first hp, not_false_eq_true, if_true, hrest]
    split <;> rfl

theorem firstWith_eq (hobjs : p.map s.obj = xs.map some) :
    firstWith s o p = pointerTo p (xs.idxOf? o) := by
  induction p generalizing xs with
  | nil =>
    cases xs with
    | nil => rfl
    | cons x xs => simp at hobjs
  | cons q p ih =>
    cases xs with
    | nil => simp at hobjs
    | cons x xs =>
      simp only [List.map_cons, List.cons.injEq] at hobjs
      rw [firstWith_cons, hobjs.1, List.idxOf?_cons]
      by_cases hx : x = o
      · simp [hx, pointerTo]
      · rw [if_neg (by simpa using hx), if_neg (by simpa using hx), ih hobjs.2]
        cases xs.idxOf? o <;> rfl

section

variable (h : Represents anchor c s p xs)
include h

/-- `My402ListFind` of `warmup1`: right, but for the object that the anchor of an empty
list happens to hold. -/
theorem find_warmup1 :
    Warmup1.my402ListFind anchor s o = .ok (if xs = [] ∧ o = c then anchor else
      pointerTo p (xs.idxOf? o)) := by
  have hsize := h.size
  have hlen := h.length_eq
  unfold Warmup1.my402ListFind
  rw [My402List.getNext_ok h.ring.next_anchor, ok_bind]
  cases p with
  | nil =>
    obtain rfl := h.eq_nil_iff.mp rfl
    obtain ⟨n, hn⟩ : ∃ n, turns = n + 1 := Nat.exists_eq_succ_of_ne_zero (by decide)
    rw [hn]
    simp only [List.headD_nil, Warmup1.findLoop, My402List.getNext_ok h.ring.next_anchor,
      My402List.getObj_ok h.anchorObj, ok_bind, ne_eq, not_true_eq_false, if_false, true_and,
      eq_comm]
    split <;> rfl
  | cons q p =>
    have hxs : xs ≠ [] := fun hnil ↦ List.cons_ne_nil q p (h.eq_nil_iff.mpr hnil)
    rw [if_neg fun hc ↦ hxs hc.1, ← firstWith_eq h.objs]
    refine h.findLoop_warmup1 (List.nil_append _).symm ?_
    rw [List.length_cons] at hlen
    unfold turns
    omega

theorem find_threading : Threading.my402ListFind anchor s o = .ok (pointerTo p (xs.idxOf? o)) := by
  have hsize := h.size
  have hlen := h.length_eq
  unfold Threading.my402ListFind
  rw [My402List.getNext_ok h.ring.next_anchor, ok_bind, ← firstWith_eq h.objs]
  refine h.findLoop_threading (List.nil_append _).symm ?_
  unfold turns
  omega

theorem first_ok : my402ListFirst anchor s = .ok (pointerTo p (Query.first.answer xs)) := by
  unfold my402ListFirst
  rcases eq_or_ne p [] with rfl | hp
  · rw [if_pos (h.count_eq_zero.mpr rfl), Query.answer, if_pos (h.eq_nil_iff.mp rfl)]
    rfl
  · rw [if_neg fun hc ↦ hp (h.count_eq_zero.mp hc), Query.answer,
      if_neg fun hx ↦ hp (h.eq_nil_iff.mpr hx), My402List.getNext_ok h.ring.next_anchor]
    obtain ⟨q, p, rfl⟩ := List.exists_cons_of_ne_nil hp
    rfl

theorem last_ok : my402ListLast anchor s = .ok (pointerTo p (Query.last.answer xs)) := by
  unfold my402ListLast
  rcases eq_or_ne p [] with rfl | hp
  · rw [if_pos (h.count_eq_zero.mpr rfl), Query.answer, if_pos (h.eq_nil_iff.mp rfl)]
    rfl
  · rw [if_neg fun hc ↦ hp (h.count_eq_zero.mp hc), Query.answer,
      if_neg fun hx ↦ hp (h.eq_nil_iff.mpr hx), My402List.getPrev_ok h.ring.prev_anchor,
      ← h.length_eq]
    obtain ⟨p, q, rfl⟩ := (p.eq_nil_or_concat').resolve_left hp
    simp [pointerTo]

theorem next_ok (hi : i < xs.length) :
    (elemAt anchor s i >>= my402ListNext anchor s) =
      .ok (pointerTo p ((Query.next i).answer xs)) := by
  obtain ⟨l₁, q, l₂, ys, y, zs, rfl, rfl, hl, rfl, hq⟩ := h.split hi
  have hlen := h.length_eq
  rw [hq, ok_bind, h.next_at, Query.answer, ← hlen, ← hl]
  cases l₂ <;> simp [pointerTo]

theorem prev_ok (hi : i < xs.length) :
    (elemAt anchor s i >>= my402ListPrev anchor s) =
      .ok (pointerTo p ((Query.prev i).answer xs)) := by
  obtain ⟨l₁, q, l₂, ys, y, zs, rfl, rfl, hl, rfl, hq⟩ := h.split hi
  rw [hq, ok_bind, h.prev_at, Query.answer, ← hl]
  rcases l₁.eq_nil_or_concat' with rfl | ⟨l, x, rfl⟩ <;> simp [pointerTo]

/-- **Every question has the answer that the sequence gives**, except that `warmup1` finds
the anchor of an empty list. -/
theorem ask_iff (I : Impl) {q : Query} (hq : q.Ok xs) :
    I.ask anchor s q = .ok (pointerTo p (q.answer xs)) ↔
      ¬ (I = .warmup1 ∧ xs = [] ∧ q = .find c) := by
  have hanchor : anchor ≠ 0 := fun h0 ↦ h.null (h0 ▸ h.live_anchor)
  cases q with
  | first => exact iff_of_true h.first_ok (by simp)
  | last => exact iff_of_true h.last_ok (by simp)
  | next i => exact iff_of_true (h.next_ok hq) (by simp)
  | prev i => exact iff_of_true (h.prev_ok hq) (by simp)
  | find o =>
    cases I with
    | threading => exact iff_of_true h.find_threading (by simp)
    | warmup1 =>
      unfold Impl.ask
      dsimp only
      rw [h.find_warmup1, Query.answer]
      by_cases hc : xs = [] ∧ o = c
      · obtain ⟨rfl, rfl⟩ := hc
        simp [pointerTo, hanchor]
      · simp [hc]

theorem empty_ok (I : Impl) : I.my402ListEmpty anchor s = .ok (decide (xs = [])) := by
  cases I with
  | warmup1 =>
    unfold Impl.my402ListEmpty Warmup1.my402ListEmpty
    rw [My402List.getNext_ok h.ring.next_anchor, ok_bind]
    exact congrArg Except.ok (decide_eq_decide.mpr (h.headD_eq_anchor.trans h.eq_nil_iff))
  | threading =>
    unfold Impl.my402ListEmpty Threading.my402ListEmpty
    exact congrArg Except.ok (decide_eq_decide.mpr (h.count_eq_zero.trans h.eq_nil_iff))

end

end Represents

/-! ## Whole runs -/

/-- `My402ListInit` has been called on a list in memory of any contents; `c` is what the
`obj` field of its anchor held. -/
def Started (anchor : Addr) (c : Obj) (s₁ : My402List) : Prop :=
  ∃ s : My402List, ¬ s.Live 0 ∧ s.obj anchor = some c ∧ my402ListInit anchor s = .ok s₁

theorem Started.represents (h : Started anchor c s) : Represents anchor c s [] [] := by
  obtain ⟨s₀, hnull, hc, hinit⟩ := h
  have hlive : s₀.Live anchor := by
    rw [My402List.live_iff_obj, hc]
    exact Option.some_ne_none c
  simp only [my402ListInit, My402List.setNext_ok, My402List.setPrev_ok, My402List.live_setCount,
    My402List.live_modify, hlive, ok_bind, Except.ok.injEq] at hinit
  subst hinit
  constructor
  case null => simpa using hnull
  case anchorObj => simpa using hc
  case ring => exact ⟨by simp, by simp [Linked, hlive]⟩
  case objs => rfl
  case count => rfl
  case size => simp

/-- The runs of a program, with a `malloc` that returns memory that is not in use. -/
def Runs (I : Impl) (anchor : Addr) (s : My402List) (h : List Event) (s' : My402List) : Prop :=
  Run (restrict (ofStep (I.step anchor)) fun s e ↦ e.Fresh s) s h s'

theorem Runs.represents {I : Impl} {h : List Event} (hs : Started anchor c s)
    (hr : Runs I anchor s h s') (hxs : sequence (h.map Event.call) = some xs) :
    ∃ p, Represents anchor c s' p xs := by
  unfold Runs at hr
  induction hr generalizing xs with
  | start =>
    cases hxs
    exact ⟨[], hs.represents⟩
  | @step h s s' e hr hs ih =>
    obtain ⟨ys, hys, hstep⟩ := Option.bind_eq_some_iff.mp hxs
    split at hstep
    · next hok =>
      cases hstep
      obtain ⟨p, hrep⟩ := ih hys
      obtain ⟨t, p', ht, hrep'⟩ := hrep.call I hs.1 hok
      have heq : I.step anchor s e = .ok t := by
        unfold Impl.step
        rw [ht]
        rfl
      cases hs.2.symm.trans heq
      exact ⟨p', hrep'⟩
    · cases hstep

/-- What a list owes the sequence `xs`, apart from the questions of `Query`: the links form
a ring through the anchor, the elements hold the objects, the counter and
`My402ListEmpty` are right, and the next call returns. -/
structure Holds (I : Impl) (anchor : Addr) (s : My402List) (p : List Addr) (xs : List Obj) :
    Prop where
  ring : LinkRing s.next s.prev anchor p
  objs : p.map s.obj = xs.map some
  length : my402ListLength s = xs.length
  empty : I.my402ListEmpty anchor s = .ok (decide (xs = []))
  call : ∀ e : Event, e.Fresh s → e.call.Ok xs →
    ∃ s', I.call anchor s e.call (some e.new) (some e.new') = .ok (s', true)

theorem Represents.holds (h : Represents anchor c s p xs) (I : Impl) : Holds I anchor s p xs where
  ring := h.ring
  objs := h.objs
  length := h.count
  empty := h.empty_ok I
  call e hf hok := by
    obtain ⟨s', _, hs', -⟩ := h.call I hf hok
    exact ⟨s', hs'⟩

/-- **The two programs implement sequences, up to one question.**  After the same calls,
both lists hold the same sequence of objects, and a question is answered by both with the
element at the position that the sequence says, unless the list is empty and `warmup1` is
asked for the object that its anchor happens to hold. -/
theorem my402List_answers_iff {anchor₁ anchor₂ : Addr} {c₁ c₂ : Obj}
    {i₁ i₂ s₁ s₂ : My402List} {h₁ h₂ : List Event}
    (hs₁ : Started anchor₁ c₁ i₁) (hs₂ : Started anchor₂ c₂ i₂)
    (hr₁ : Runs .warmup1 anchor₁ i₁ h₁ s₁) (hr₂ : Runs .threading anchor₂ i₂ h₂ s₂)
    (hcalls : h₁.map Event.call = h₂.map Event.call)
    (hxs : sequence (h₁.map Event.call) = some xs) :
    ∃ p₁ p₂, Holds .warmup1 anchor₁ s₁ p₁ xs ∧ Holds .threading anchor₂ s₂ p₂ xs ∧
      ∀ q : Query, q.Ok xs →
        (Impl.ask anchor₁ s₁ .warmup1 q = .ok (pointerTo p₁ (q.answer xs)) ∧
          Impl.ask anchor₂ s₂ .threading q = .ok (pointerTo p₂ (q.answer xs)) ↔
            ¬ (xs = [] ∧ q = .find c₁)) := by
  obtain ⟨p₁, hrep₁⟩ := hr₁.represents hs₁ hxs
  obtain ⟨p₂, hrep₂⟩ := hr₂.represents hs₂ (hcalls ▸ hxs)
  refine ⟨p₁, p₂, hrep₁.holds _, hrep₂.holds _, fun q hq ↦ ?_⟩
  rw [hrep₁.ask_iff _ hq, hrep₂.ask_iff _ hq]
  simp

/-- A list at the address 1, whose memory holds what was there before. -/
def rawList : My402List where
  numMembers := 42
  cells := update (fun _ ↦ none) 1 (some ⟨7, 13, 0⟩)

/-- The list after `My402ListInit`. -/
def emptyList : My402List :=
  ((rawList.setCount 0).modify 1 fun e ↦ { e with next := 1 }).modify 1 fun e ↦ { e with prev := 1 }

theorem started_emptyList : Started 1 7 emptyList := ⟨rawList, by decide, by decide, rfl⟩

/-- The object 7 is not on the empty list, but `warmup1` finds it: the answer is the anchor. -/
theorem anchor_found : Started 1 7 emptyList ∧
    Impl.ask 1 emptyList .warmup1 (.find 7) = .ok 1 ∧
    Impl.ask 1 emptyList .threading (.find 7) = .ok 0 :=
  ⟨started_emptyList, by decide +kernel, by decide +kernel⟩

/-- A list with two elements, in both programs; in `Threading`, an element has been lost. -/
theorem answers_on_two : ∃ s₁ s₂ p₁ p₂,
    Holds .warmup1 1 s₁ p₁ [5, 6] ∧ Holds .threading 1 s₂ p₂ [5, 6] ∧
      Impl.ask 1 s₁ .warmup1 (.find 6) = .ok (pointerTo p₁ (some 1)) ∧
      Impl.ask 1 s₂ .threading (.find 6) = .ok (pointerTo p₂ (some 1)) := by
  have hcheck : ∀ I, check (guarded Fault.disabled (fun s e ↦ Impl.step 1 s I e)
      fun s e ↦ e.Fresh s) emptyList
      [⟨.append 5, (2, ⟨0, 0, 0⟩), (3, ⟨0, 0, 0⟩)⟩,
        ⟨.insertAfter 6 none, (4, ⟨0, 0, 0⟩), (5, ⟨0, 0, 0⟩)⟩] (fun _ ↦ true) = true := by
    intro I
    cases I <;> decide +kernel
  obtain ⟨s₁, hs₁, -⟩ := exists_of_check (hcheck .warmup1)
  obtain ⟨s₂, hs₂, -⟩ := exists_of_check (hcheck .threading)
  have hseq : sequence [.insertAfter 6 none, .append 5] = some [5, 6] := by decide
  obtain ⟨p₁, p₂, h₁, h₂, hq⟩ := my402List_answers_iff started_emptyList started_emptyList
    (Run.of_exec_guarded hs₁) (Run.of_exec_guarded hs₂) rfl hseq
  exact ⟨s₁, s₂, p₁, p₂, h₁, h₂, (hq (.find 6) trivial).mpr (by decide)⟩

end CS402.My402

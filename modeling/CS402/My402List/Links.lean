import CS402.Lib.Ring
import CS402.My402List.Basic

/-!
# What the calls do to the links

Each call that changes a list is a few assignments to the links of the new or the old
element and of its two neighbours, in an order of its own.  Memory is read through the
three maps `next`, `prev` and `obj`; the simp lemmas below say what one assignment does to
each of them, so that `simp` executes a call.  What it leads to is the same for all
insertions (`Inserted`) and for all removals (`Removed`), in both programs.
-/

namespace CS402.My402

open CS402.Lib Function

variable {anchor : Addr} {s s' : My402List} {p q w x y z : Addr} {e : My402ListElem} {o c : Obj}
  {l : List Addr}

/-! ## Memory -/

namespace My402List

theorem getNext_ok (h : s.next p = some q) : s.getNext p = .ok q := by
  rw [getNext, h, follow_some]

theorem getPrev_ok (h : s.prev p = some q) : s.getPrev p = .ok q := by
  rw [getPrev, h, follow_some]

theorem getObj_ok (h : s.obj p = some o) : s.getObj p = .ok o := by
  rw [getObj, h, follow_some]

@[simp] theorem setNext_ok (h : s.Live p) :
    s.setNext p q = .ok (s.modify p fun e ↦ { e with next := q }) := by
  rw [setNext, demand_bind h]
  rfl

@[simp] theorem setPrev_ok (h : s.Live p) :
    s.setPrev p q = .ok (s.modify p fun e ↦ { e with prev := q }) := by
  rw [setPrev, demand_bind h]
  rfl

@[simp] theorem setObj_ok (h : s.Live p) :
    s.setObj p o = .ok (s.modify p fun e ↦ { e with obj := o }) := by
  rw [setObj, demand_bind h]
  rfl

@[simp] theorem malloc_ok (h₀ : z ≠ 0) (h : ¬ s.Live z) :
    s.malloc (some (z, e)) = .ok (s.put z (some e), z) := by
  rw [malloc, demand_pos ⟨h₀, h⟩, ok_bind]
  rfl

@[simp] theorem free_ok (h : s.Live p) : s.free p = .ok (s.put p none) := by
  rw [free, demand_bind h]
  rfl

theorem live_of_next (h : s.next p = some q) : s.Live p := by
  intro hn
  simp [next, hn] at h

theorem live_of_prev (h : s.prev p = some q) : s.Live p := by
  intro hn
  simp [prev, hn] at h

theorem live_iff_obj : s.Live w ↔ s.obj w ≠ none :=
  not_congr Option.map_eq_none_iff.symm

@[simp] theorem live_put_some : (s.put p (some e)).Live w ↔ w = p ∨ s.Live w := by
  unfold Live put
  rcases eq_or_ne w p with rfl | hne
  · simp
  · simp [hne]

@[simp] theorem live_modify {f : My402ListElem → My402ListElem} :
    (s.modify p f).Live w ↔ s.Live w := by
  unfold Live modify put
  rcases eq_or_ne w p with rfl | hne
  · simp
  · simp [update_of_ne hne]

variable {n : ℤ}

@[simp] theorem live_setCount : (s.setCount n).Live w ↔ s.Live w := Iff.rfl

@[simp] theorem live_put_none : (s.put p none).Live w ↔ w ≠ p ∧ s.Live w := by
  unfold Live put
  rcases eq_or_ne w p with rfl | hne
  · simp
  · simp [hne]

@[simp] theorem next_put {e : Option My402ListElem} :
    (s.put p e).next = update s.next p (e.map My402ListElem.next) := by
  funext w
  rcases eq_or_ne w p with rfl | hne
  · simp [next, put]
  · simp [next, put, update_of_ne hne]

@[simp] theorem prev_put {e : Option My402ListElem} :
    (s.put p e).prev = update s.prev p (e.map My402ListElem.prev) := by
  funext w
  rcases eq_or_ne w p with rfl | hne
  · simp [prev, put]
  · simp [prev, put, update_of_ne hne]

@[simp] theorem obj_put {e : Option My402ListElem} :
    (s.put p e).obj = update s.obj p (e.map My402ListElem.obj) := by
  funext w
  rcases eq_or_ne w p with rfl | hne
  · simp [obj, put]
  · simp [obj, put, update_of_ne hne]

@[simp] theorem next_setNext (h : s.Live p) :
    (s.modify p fun e ↦ { e with next := q }).next = update s.next p (some q) := by
  obtain ⟨e, he⟩ := Option.ne_none_iff_exists'.mp h
  simp [modify, he]

@[simp] theorem prev_setPrev (h : s.Live p) :
    (s.modify p fun e ↦ { e with prev := q }).prev = update s.prev p (some q) := by
  obtain ⟨e, he⟩ := Option.ne_none_iff_exists'.mp h
  simp [modify, he]

@[simp] theorem obj_setObj (h : s.Live p) :
    (s.modify p fun e ↦ { e with obj := o }).obj = update s.obj p (some o) := by
  obtain ⟨e, he⟩ := Option.ne_none_iff_exists'.mp h
  simp [modify, he]

theorem modify_field {β : Type*} (g : My402ListElem → β) {f : My402ListElem → My402ListElem}
    (h : ∀ e, g (f e) = g e) : ((s.modify p f).cells w).map g = (s.cells w).map g := by
  unfold modify put
  rcases eq_or_ne w p with rfl | hne
  · simp [Function.comp_def, h]
  · simp [update_of_ne hne]

@[simp] theorem next_setPrev : (s.modify p fun e ↦ { e with prev := q }).next = s.next :=
  funext fun _ ↦ modify_field My402ListElem.next fun _ ↦ rfl

@[simp] theorem next_setObj : (s.modify p fun e ↦ { e with obj := o }).next = s.next :=
  funext fun _ ↦ modify_field My402ListElem.next fun _ ↦ rfl

@[simp] theorem prev_setNext : (s.modify p fun e ↦ { e with next := q }).prev = s.prev :=
  funext fun _ ↦ modify_field My402ListElem.prev fun _ ↦ rfl

@[simp] theorem prev_setObj : (s.modify p fun e ↦ { e with obj := o }).prev = s.prev :=
  funext fun _ ↦ modify_field My402ListElem.prev fun _ ↦ rfl

@[simp] theorem obj_setNext : (s.modify p fun e ↦ { e with next := q }).obj = s.obj :=
  funext fun _ ↦ modify_field My402ListElem.obj fun _ ↦ rfl

@[simp] theorem obj_setPrev : (s.modify p fun e ↦ { e with prev := q }).obj = s.obj :=
  funext fun _ ↦ modify_field My402ListElem.obj fun _ ↦ rfl

@[simp] theorem numMembers_modify {f : My402ListElem → My402ListElem} :
    (s.modify p f).numMembers = s.numMembers := rfl

@[simp] theorem numMembers_put {e : Option My402ListElem} :
    (s.put p e).numMembers = s.numMembers := rfl

@[simp] theorem next_setCount : (s.setCount n).next = s.next := rfl

@[simp] theorem prev_setCount : (s.setCount n).prev = s.prev := rfl

@[simp] theorem obj_setCount : (s.setCount n).obj = s.obj := rfl

@[simp] theorem numMembers_setCount : (s.setCount n).numMembers = int32 n := rfl

end My402List

open My402List

/-! ## One element enters, one element leaves -/

/-- The element `z` has been put between `x` and `y`. -/
structure Inserted (s : My402List) (z : Addr) (o : Obj) (x y : Addr) (s' : My402List) :
    Prop where
  next : ∀ w, s'.next w = if w = z then some y else if w = x then some z else s.next w
  prev : ∀ w, s'.prev w = if w = z then some x else if w = y then some z else s.prev w
  obj : ∀ w, s'.obj w = if w = z then some o else s.obj w
  count : s'.numMembers = int32 (s.numMembers + 1)

theorem Inserted.live (h : Inserted s z o x y s') : s'.Live w ↔ w = z ∨ s.Live w := by
  rw [live_iff_obj, live_iff_obj, h.obj]
  split <;> simp_all

/-- What the insertions ask of memory: a new element, and two neighbours. -/
structure Cut (s : My402List) (x y z : Addr) : Prop where
  linked : Linked s.next s.prev x y
  ne_null : z ≠ 0
  free : ¬ s.Live z

theorem Cut.apart (h : Cut s x y z) : s.Live x ∧ s.Live y ∧ x ≠ z ∧ y ≠ z ∧ Cut s x y z := by
  have hx : s.Live x := live_of_next h.linked.1
  have hy : s.Live y := live_of_prev h.linked.2
  exact ⟨hx, hy, fun he ↦ h.free (he ▸ hx), fun he ↦ h.free (he ▸ hy), h⟩

section

variable {f : Addr}

theorem Warmup1.append_inserted (h : Cut s x anchor z) (hf : s.next anchor = some f)
    (hiff : f = anchor ↔ x = anchor) :
    ∃ s', Warmup1.my402ListAppend anchor s o (some (z, e)) = .ok (s', true) ∧
      Inserted s z o x anchor s' := by
  obtain ⟨hx, hy, hxz, hyz, ⟨hxy, hyx⟩, hz₀, hz⟩ := h.apart
  unfold Warmup1.my402ListAppend Warmup1.newElem linkOnly
  by_cases he : x = anchor
  · subst he
    simp [*, getNext]
    constructor <;> intros <;> simp [*, update_apply] <;> grind
  · simp [*, getNext, getPrev]
    constructor <;> intros <;> simp [*, update_apply] <;> grind

theorem Warmup1.prepend_inserted (h : Cut s anchor y z) :
    ∃ s', Warmup1.my402ListPrepend anchor s o (some (z, e)) = .ok (s', true) ∧
      Inserted s z o anchor y s' := by
  obtain ⟨hx, hy, hxz, hyz, ⟨hxy, hyx⟩, hz₀, hz⟩ := h.apart
  unfold Warmup1.my402ListPrepend Warmup1.newElem linkOnly
  by_cases he : y = anchor
  · subst he
    simp [*, getNext]
    constructor <;> intros <;> simp [*, update_apply] <;> grind
  · simp [*, getNext]
    constructor <;> intros <;> simp [*, update_apply] <;> grind

theorem Warmup1.insertAfter_inserted (anchor : Addr) (h : Cut s x y z) (hx₀ : x ≠ 0) :
    ∃ s', Warmup1.my402ListInsertAfter anchor s o x (some (z, e)) = .ok (s', true) ∧
      Inserted s z o x y s' := by
  obtain ⟨hx, hy, hxz, hyz, ⟨hxy, hyx⟩, hz₀, hz⟩ := h.apart
  unfold Warmup1.my402ListInsertAfter Warmup1.newElem
  simp [*, getNext]
  constructor <;> intros <;> simp [*, update_apply] <;> grind

theorem Warmup1.insertBefore_inserted (anchor : Addr) (h : Cut s x y z) (hy₀ : y ≠ 0) :
    ∃ s', Warmup1.my402ListInsertBefore anchor s o y (some (z, e)) = .ok (s', true) ∧
      Inserted s z o x y s' := by
  obtain ⟨hx, hy, hxz, hyz, ⟨hxy, hyx⟩, hz₀, hz⟩ := h.apart
  unfold Warmup1.my402ListInsertBefore Warmup1.newElem
  simp [*, getPrev]
  constructor <;> intros <;> simp [*, update_apply] <;> grind

theorem Threading.append_inserted (h : Cut s x anchor z)
    (hiff : s.numMembers = 0 ↔ x = anchor) :
    ∃ s', Threading.my402ListAppend anchor s o (some (z, e)) = .ok (s', true) ∧
      Inserted s z o x anchor s' := by
  obtain ⟨hx, hy, hxz, hyz, ⟨hxy, hyx⟩, hz₀, hz⟩ := h.apart
  unfold Threading.my402ListAppend linkOnly
  by_cases he : x = anchor
  · subst he
    simp [*]
    constructor <;> intros <;> simp [*, update_apply] <;> grind
  · simp [*, getPrev]
    constructor <;> intros <;> simp [*, update_apply] <;> grind

theorem Threading.prepend_inserted (h : Cut s anchor y z)
    (hiff : s.numMembers = 0 ↔ y = anchor) :
    ∃ s', Threading.my402ListPrepend anchor s o (some (z, e)) = .ok (s', true) ∧
      Inserted s z o anchor y s' := by
  obtain ⟨hx, hy, hxz, hyz, ⟨hxy, hyx⟩, hz₀, hz⟩ := h.apart
  unfold Threading.my402ListPrepend linkOnly
  by_cases he : y = anchor
  · subst he
    simp [*]
    constructor <;> intros <;> simp [*, update_apply] <;> grind
  · simp [*, getNext]
    constructor <;> intros <;> simp [*, update_apply] <;> grind

theorem Threading.insertAfter_inserted (anchor : Addr) (h : Cut s x y z) (hx₀ : x ≠ 0) (new' : Alloc) :
    ∃ s', Threading.my402ListInsertAfter anchor s o x (some (z, e)) new' = .ok (s', true) ∧
      Inserted s z o x y s' := by
  obtain ⟨hx, hy, hxz, hyz, ⟨hxy, hyx⟩, hz₀, hz⟩ := h.apart
  unfold Threading.my402ListInsertAfter
  simp [*, getNext]
  constructor <;> intros <;> simp [*, update_apply] <;> grind

theorem Threading.insertBefore_inserted (anchor : Addr) (h : Cut s x y z) (hy₀ : y ≠ 0) (new' : Alloc) :
    ∃ s', Threading.my402ListInsertBefore anchor s o y (some (z, e)) new' = .ok (s', true) ∧
      Inserted s z o x y s' := by
  obtain ⟨hx, hy, hxz, hyz, ⟨hxy, hyx⟩, hz₀, hz⟩ := h.apart
  unfold Threading.my402ListInsertBefore
  simp [*, getPrev]
  constructor <;> intros <;> simp [*, update_apply] <;> grind

end

/-- The element `z` between `x` and `y` is gone. -/
structure Removed (s : My402List) (z x y : Addr) (s' : My402List) : Prop where
  next : ∀ w, s'.next w = if w = z then none else if w = x then some y else s.next w
  prev : ∀ w, s'.prev w = if w = z then none else if w = y then some x else s.prev w
  obj : ∀ w, s'.obj w = if w = z then none else s.obj w

theorem Removed.live (h : Removed s z x y s') : s'.Live w ↔ w ≠ z ∧ s.Live w := by
  rw [live_iff_obj, live_iff_obj, h.obj]
  split <;> simp_all

theorem Warmup1.unlink_removed (hxz : Linked s.next s.prev x z) (hzy : Linked s.next s.prev z y) :
    ∃ s', Warmup1.my402ListUnlink s z = .ok s' ∧ Removed s z x y s' ∧
      s'.numMembers = int32 (s.numMembers - 1) := by
  have hx : s.Live x := live_of_next hxz.1
  have hy : s.Live y := live_of_prev hzy.2
  have hz : s.Live z := live_of_next hzy.1
  obtain ⟨hzx, hzy, hyz⟩ := And.intro hxz.2 hzy
  unfold Warmup1.my402ListUnlink
  simp [*, getNext, getPrev]
  constructor <;> intros <;> simp [*, update_apply]

theorem Threading.unlink_removed (hxz : Linked s.next s.prev x z)
    (hzy : Linked s.next s.prev z y) (hne : x ≠ z) :
    ∃ s', Threading.my402ListUnlink s z = .ok s' ∧ Removed s z x y s' ∧
      s'.numMembers = int32 (s.numMembers - 1) := by
  have hx : s.Live x := live_of_next hxz.1
  have hy : s.Live y := live_of_prev hzy.2
  have hz : s.Live z := live_of_next hzy.1
  obtain ⟨hzx, hzy, hyz⟩ := And.intro hxz.2 hzy
  unfold Threading.my402ListUnlink
  simp [*, getNext, getPrev, hne.symm]
  constructor <;> intros <;> simp [*, update_apply]

/-! ## The loops of `My402ListUnlinkAll` -/

theorem Removed.ring (l₁ : List Addr) {l₂ : List Addr}
    (h : Removed s z (l₁.getLastD anchor) (l₂.headD anchor) s')
    (hr : LinkRing s.next s.prev anchor (l₁ ++ z :: l₂)) :
    LinkRing s'.next s'.prev anchor (l₁ ++ l₂) := by
  have hnodup := hr.nodup
  have hx : l₁.getLastD anchor ≠ z := by
    rcases l₁.eq_nil_or_concat with rfl | ⟨l₁, x, rfl⟩ <;> grind
  have hy : l₂.headD anchor ≠ z := by
    cases l₂ <;> grind
  refine hr.remove (fun w hw hwx ↦ ?_) (fun w hw hwy ↦ ?_) ⟨?_, ?_⟩
  · rw [h.next, if_neg hw, if_neg hwx]
  · rw [h.prev, if_neg hw, if_neg hwy]
  · rw [h.next, if_neg hx, if_pos rfl]
  · rw [h.prev, if_neg hy, if_pos rfl]

/-- Elements have been freed, and nothing else has changed but links. -/
structure Shrinks (s s' : My402List) : Prop where
  live : ∀ w, s'.Live w → s.Live w
  obj : ∀ w, s'.Live w → s'.obj w = s.obj w

theorem Removed.shrinks (h : Removed s z x y s') : Shrinks s s' where
  live w hw := (h.live.mp hw).2
  obj w hw := by rw [h.obj, if_neg (h.live.mp hw).1]

theorem Shrinks.trans {s₁ : My402List} (h : Shrinks s s₁) (h' : Shrinks s₁ s') : Shrinks s s' :=
  ⟨fun w hw ↦ h.live w (h'.live w hw), fun w hw ↦ (h'.obj w hw).trans (h.obj w (h'.live w hw))⟩

theorem Warmup1.unlinkAllLoop_succ {n : ℕ} {header : Addr}
    (h : Linked s.next s.prev anchor header) (h' : Linked s.next s.prev header y)
    (hy : y ≠ anchor) :
    ∃ s', Removed s header anchor y s' ∧
      Warmup1.unlinkAllLoop anchor (n + 1) s header = Warmup1.unlinkAllLoop anchor n s' y := by
  have hla : s.Live anchor := live_of_next h.1
  have hlh : s.Live header := live_of_next h'.1
  have hly : s.Live y := live_of_prev h'.2
  obtain ⟨hnext, hprev⟩ := h'
  rw [Warmup1.unlinkAllLoop]
  simp [*, getNext]
  refine ⟨_, ?_, rfl⟩
  constructor <;> intros <;> simp [*, update_apply]

theorem Warmup1.unlinkAllLoop_ok {header : Addr} {n : ℕ}
    (h : LinkRing s.next s.prev anchor (header :: l)) (hn : l.length < n) :
    ∃ s' last, Warmup1.unlinkAllLoop anchor n s header = .ok (s', last) ∧
      LinkRing s'.next s'.prev anchor [last] ∧ Shrinks s s' := by
  induction l generalizing s header n with
  | nil =>
    obtain ⟨n, rfl⟩ := Nat.exists_eq_succ_of_ne_zero hn.ne'
    refine ⟨s, header, ?_, h, fun _ ↦ id, fun _ _ ↦ rfl⟩
    have hnext : s.next header = some anchor := LinkRing.next_node [] h
    simp [Warmup1.unlinkAllLoop, getNext, hnext]
  | cons y l ih =>
    obtain ⟨n, rfl⟩ := Nat.exists_eq_succ_of_ne_zero (Nat.ne_zero_of_lt hn)
    have hy : y ≠ anchor := by
      rintro rfl
      exact (List.nodup_cons.mp h.nodup).1 (by simp)
    obtain ⟨s₁, hrem, hstep⟩ := Warmup1.unlinkAllLoop_succ
      (LinkRing.link [] h) (LinkRing.link [header] h) hy
    have hring : LinkRing s₁.next s₁.prev anchor (y :: l) := hrem.ring [] h
    obtain ⟨s', last, hloop, hlast, hshr⟩ := ih hring (Nat.lt_of_succ_lt_succ hn)
    exact ⟨s', last, hstep.trans hloop, hlast, hrem.shrinks.trans hshr⟩

theorem Threading.unlinkAllLoop_succ {n : ℕ} {element : Addr}
    (h : Linked s.next s.prev anchor element) (h' : Linked s.next s.prev element y)
    (hy : y ≠ element) :
    ∃ s', Removed s element anchor y s' ∧
      Threading.unlinkAllLoop anchor (n + 1) s element = Threading.unlinkAllLoop anchor n s' y := by
  have hla : s.Live anchor := live_of_next h.1
  have hlh : s.Live element := live_of_next h'.1
  have hly : s.Live y := live_of_prev h'.2
  obtain ⟨hanchor, -⟩ := h
  obtain ⟨hnext, hprev⟩ := h'
  rw [Threading.unlinkAllLoop]
  simp [*, getNext]
  refine ⟨_, ?_, rfl⟩
  constructor <;> intros <;> simp [*, update_apply]

theorem Threading.unlinkAllLoop_ok {n : ℕ}
    (h : LinkRing s.next s.prev anchor l) (hn : l.length < n) :
    ∃ s', Threading.unlinkAllLoop anchor n s (l.headD anchor) = .ok s' ∧
      LinkRing s'.next s'.prev anchor [] ∧ Shrinks s s' := by
  induction l generalizing s n with
  | nil =>
    obtain ⟨n, rfl⟩ := Nat.exists_eq_succ_of_ne_zero hn.ne'
    refine ⟨s, ?_, h, fun _ ↦ id, fun _ _ ↦ rfl⟩
    simp [Threading.unlinkAllLoop, getNext, h.next_anchor]
  | cons z l ih =>
    obtain ⟨n, rfl⟩ := Nat.exists_eq_succ_of_ne_zero (Nat.ne_zero_of_lt hn)
    have hnodup := h.nodup
    have hy : l.headD anchor ≠ z := by cases l <;> grind
    obtain ⟨s₁, hrem, hstep⟩ := Threading.unlinkAllLoop_succ
      (LinkRing.link [] h) (LinkRing.link [z] h) hy
    have hring : LinkRing s₁.next s₁.prev anchor l := hrem.ring [] h
    obtain ⟨s', hloop, hempty, hshr⟩ := ih hring (Nat.lt_of_succ_lt_succ hn)
    exact ⟨s', hstep.trans hloop, hempty, hrem.shrinks.trans hshr⟩

theorem Warmup1.unlinkAll_ok (h : LinkRing s.next s.prev anchor (z :: l))
    (hcount : s.numMembers ≠ 0) (hl : l.length < turns) :
    ∃ s', Warmup1.my402ListUnlinkAll anchor s = .ok s' ∧ LinkRing s'.next s'.prev anchor [] ∧
      Shrinks s s' ∧ s'.numMembers = 0 := by
  obtain ⟨s₁, last, hloop, hlast, hshr⟩ := Warmup1.unlinkAllLoop_ok h hl
  have hz : s.next z = some (l.headD anchor) := h.next_node []
  have hne : anchor ≠ last := by
    have hnodup := hlast.nodup
    simpa using hnodup
  have hla : s₁.Live anchor := live_of_next hlast.next_anchor
  have hll : s₁.Live last := live_of_next (hlast.next_node [])
  -- what is left after the loop is the removal of the last element
  let s' := (((s₁.put last none).modify anchor fun e ↦ { e with next := anchor }).modify anchor
    fun e ↦ { e with prev := anchor }).setCount 0
  have hrun : Warmup1.my402ListUnlinkAll anchor s = .ok s' := by
    unfold Warmup1.my402ListUnlinkAll
    simp [*, getNext, h.next_anchor, s']
  have hrem : Removed s₁ last anchor anchor s' := by
    constructor <;> intros <;> simp [*, update_apply, s'] <;> grind
  exact ⟨s', hrun, hrem.ring [] hlast, hshr.trans hrem.shrinks, rfl⟩

theorem Threading.unlinkAll_ok (h : LinkRing s.next s.prev anchor (z :: l))
    (hl : l.length + 1 < turns) :
    ∃ s', Threading.my402ListUnlinkAll anchor s = .ok s' ∧ LinkRing s'.next s'.prev anchor [] ∧
      Shrinks s s' ∧ s'.numMembers = 0 := by
  obtain ⟨s₁, hloop, hempty, hshr⟩ := Threading.unlinkAllLoop_ok h hl
  have hz : s.next z = some (l.headD anchor) := h.next_node []
  have hne : z ≠ anchor := by
    rintro rfl
    exact (List.nodup_cons.mp h.nodup).1 List.mem_cons_self
  have hla : s₁.Live anchor := live_of_next hempty.next_anchor
  rw [List.headD_cons] at hloop
  unfold Threading.my402ListUnlinkAll
  simp [*, getNext, h.next_anchor]
  refine ⟨⟨by simp, ?_⟩, ⟨fun w hw ↦ hshr.live w (by simpa using hw), fun w hw ↦ ?_⟩, rfl⟩
  · simp [Linked]
  · simpa using hshr.obj w (by simpa using hw)

end CS402.My402

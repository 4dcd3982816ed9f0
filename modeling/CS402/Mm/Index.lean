import CS402.Mm.Put
import CS402.Lib.Trans

/-!
# The index of resident pages

`pframe.c` finds a resident page through the chains of `pframe_hash`, and an object
finds its pages through `mmo_respages`.  `Mem` keeps the chains as one list; here they
are kept one by one, as the source does, next to the rest of the state, and a page
enters and leaves the chain that `hash_page` says.

`Index.Sound` is what the three memberships and the two counters of a page owe each
other.  The calls change it in two ways only, a page enters (`Sound.enter`) or a page
leaves (`Sound.leave`): migration is a page that leaves one object and enters another.
What makes `pframe_free` and `pframe_migrate` safe although they call `put` in the
middle of it is `spare`: an object has a reference for each of its pages and one more,
so that this `put` never is the last one and only counts.
-/

set_option linter.unusedSectionVars false

namespace CS402.Mm

open CS402.Lib Function

namespace Mem

/-- The first half of a migration: the page is taken from the lists of its object. -/
def detach (s : Mem) (f : FrameId) (pf : Pframe) (dest : ObjId) (ob : MmObj) : Mem :=
  { s with
    frames := update s.frames f (some { pf with pfObj := dest })
    objs := update s.objs pf.pfObj (some { ob with
      mmoNrespages := ob.mmoNrespages - 1
      mmoRespages := ob.mmoRespages.erase f })
    pframeHash := s.pframeHash.erase f }

/-- The second half of a migration: the page is put on the lists of its new object. -/
@[simps -fullyApplied] def attach (s : Mem) (f : FrameId) (dest : ObjId) (ob : MmObj) : Mem :=
  { s with
    objs := update s.objs dest (some { ob with
      mmoNrespages := ob.mmoNrespages + 1
      mmoRespages := f :: ob.mmoRespages })
    pframeHash := f :: s.pframeHash }

section

variable [Layout]

/-- `pframe_migrate` after its lookup, which has found the page `found`. -/
def migrateWith (s : Mem) (f : FrameId) (pf : Pframe) (dest : ObjId) (found : Option FrameId) :
    Except Fault Mem :=
  match found with
  | some g => do
    let s ← (s.touch g).pframeUnpin f
    let s ← s.pframeClean f
    s.pframeFree f
  | none => do
    let ob ← follow .pointer (s.objs pf.pfObj)
    let s ← (s.detach f pf dest ob).put pf.pfObj
    let db ← follow .pointer (s.objs dest)
    (s.attach f dest db).ref dest

/-- `pframe_migrate`. -/
def pframeMigrate (s : Mem) (f : FrameId) (dest : ObjId) : Except Fault Mem := do
  let pf ← follow .pointer (s.frames f)
  demand .assertion (pf.pfBusy = false)
  s.migrateWith f pf dest (s.resident dest pf.pfPagenum)

end

end Mem

/-- The state of memory management with the chains of `pframe_hash`. -/
structure Index where
  mem : Mem
  pframeHash : ℕ → List FrameId := fun _ ↦ []

/-- `hash_page`, for objects at the addresses `addr` and `size` chains. -/
def hashPage (addr : ObjId → ℕ) (size : ℕ) (o : ObjId) (n : ℕ) : ℕ :=
  (addr o + n) % 2 ^ 32 % size

namespace Index

section

variable (addr : ObjId → ℕ) (size : ℕ)

/-- The lookup of `pframe_get_resident` along one chain. -/
def resident (s : Index) (o : ObjId) (n : ℕ) : Option FrameId :=
  (s.pframeHash (hashPage addr size o n)).find? (s.mem.holds o n)

/-- A page enters its chain at the head. -/
def insertHead (s : Index) (f : FrameId) (o : ObjId) (n : ℕ) : ℕ → List FrameId :=
  update s.pframeHash (hashPage addr size o n) (f :: s.pframeHash (hashPage addr size o n))

variable [Layout]

/-- `pframe_get` up to the new page: `pframe_alloc` is called for a page that is not
resident. -/
def getPage (s : Index) (o : ObjId) (n : ℕ) : Except Fault Index :=
  match s.resident addr size o n with
  | some f => .ok { s with mem := s.mem.touch f }
  | none => do
    let (m, r) ← s.mem.pframeAlloc o n
    match r with
    | none => return { s with mem := m }
    | some f => return ⟨m, s.insertHead addr size f o n⟩

/-- Every page that is gone has left its chain. -/
def prune (m : Mem) (chain : ℕ → List FrameId) : ℕ → List FrameId :=
  fun k ↦ (chain k).filter fun f ↦ (m.frames f).isSome

/-- `pframe_free`. -/
def free (s : Index) (f : FrameId) : Except Fault Index := do
  let m ← s.mem.pframeFree f
  return ⟨m, prune m s.pframeHash⟩

/-- `pframe_migrate`. -/
def migrate (s : Index) (f : FrameId) (dest : ObjId) : Except Fault Index := do
  let pf ← follow .pointer (s.mem.frames f)
  demand .assertion (pf.pfBusy = false)
  let found := s.resident addr size dest pf.pfPagenum
  let m ← s.mem.migrateWith f pf dest found
  match found with
  | some _ => return ⟨m, prune m s.pframeHash⟩
  | none =>
    let s := { s with pframeHash := fun k ↦ (s.pframeHash k).erase f }
    return ⟨m, s.insertHead addr size f dest pf.pfPagenum⟩

/-- The calls. -/
inductive Event where
  | get (o : ObjId) (n : ℕ)
  | free (f : FrameId)
  | migrate (f : FrameId) (dest : ObjId)
  /-- Between the calls, the pin count, the flags and the contents of a page change. -/
  | change (f : FrameId) (pincount : ℤ) (busy dirty : Bool) (data : Page)

/-- One call. -/
def step (s : Index) : Event → Except Fault Index
  | .get o n => s.getPage addr size o n
  | .free f => s.free f
  | .migrate f dest => s.migrate addr size f dest
  | .change f pincount busy dirty data => .ok { s with
      mem := s.mem.modFrame f fun pf ↦
        { pf with pfPincount := pincount, pfBusy := busy, pfDirty := dirty, pfData := data } }

end

/-! ## What the index owes -/

/-- No page is resident. -/
structure Empty (s : Index) : Prop where
  frames : ∀ f, s.mem.frames f = none
  objs : ∀ o ob, s.mem.objs o = some ob → ob.mmoRespages = [] ∧ ob.mmoNrespages = 0
  chains : ∀ k, s.pframeHash k = []
  hash : s.mem.pframeHash = []

/-- The pages of one object: the list, the counter, and a reference to spare. -/
structure Lists (m : Mem) (o : ObjId) (ob : MmObj) : Prop where
  nodup : ob.mmoRespages.Nodup
  mem : ∀ f, f ∈ ob.mmoRespages ↔ ∃ n, m.PageAt f o n
  length : ob.mmoNrespages = ob.mmoRespages.length
  spare : ob.mmoRespages ≠ [] → ob.mmoNrespages < ob.mmoRefcount

/-- The index is in order. -/
structure Sound (addr : ObjId → ℕ) (size : ℕ) (s : Index) : Prop where
  fresh : ∀ f o n, s.mem.PageAt f o n → f < s.mem.next
  nodup : ∀ k, (s.pframeHash k).Nodup
  chain : ∀ k f, f ∈ s.pframeHash k ↔ ∃ o n, s.mem.PageAt f o n ∧ hashPage addr size o n = k
  hash : ∀ f o n, s.mem.PageAt f o n → f ∈ s.mem.pframeHash
  owned : ∀ f o n, s.mem.PageAt f o n → ∃ ob, s.mem.objs o = some ob
  objs : ∀ o ob, s.mem.objs o = some ob → Lists s.mem o ob
  unique : ∀ f g o n, s.mem.PageAt f o n → s.mem.PageAt g o n → f = g

variable {addr : ObjId → ℕ} {size : ℕ} {s s' : Index} {f g : FrameId} {o u dest : ObjId} {n m : ℕ}
  {pf : Pframe} {ob : MmObj}

theorem Empty.sound (h : s.Empty) : s.Sound addr size := by
  have hno : ∀ f o n, ¬ s.mem.PageAt f o n := by
    rintro f o n ⟨pf, hpf, -⟩
    exact nomatch (h.frames f).symm.trans hpf
  constructor
  case fresh => exact fun f o n hp ↦ absurd hp (hno f o n)
  case nodup => exact fun k ↦ h.chains k ▸ List.nodup_nil
  case chain =>
    intro k f
    rw [h.chains k]
    refine ⟨fun hf ↦ absurd hf List.not_mem_nil, ?_⟩
    rintro ⟨o, n, hp, -⟩
    exact absurd hp (hno f o n)
  case hash => exact fun f o n hp ↦ absurd hp (hno f o n)
  case owned => exact fun f o n hp ↦ absurd hp (hno f o n)
  case objs =>
    intro o ob hob
    obtain ⟨hnil, hzero⟩ := h.objs o ob hob
    refine ⟨hnil ▸ List.nodup_nil, fun f ↦ ?_, by simp [hnil, hzero], fun hne ↦ absurd hnil hne⟩
    rw [hnil]
    refine ⟨fun hf ↦ absurd hf List.not_mem_nil, ?_⟩
    rintro ⟨n, hp⟩
    exact absurd hp (hno f o n)
  case unique => exact fun f g o n hp _ ↦ absurd hp (hno f o n)

namespace Sound

theorem resident_eq_some (h : s.Sound addr size) :
    s.resident addr size o n = some f ↔ s.mem.PageAt f o n :=
  Mem.find_holds (fun g hg ↦ (h.chain _ g).mpr ⟨o, n, hg, rfl⟩) (h.unique · · o n)

theorem resident_eq_none (h : s.Sound addr size) :
    s.resident addr size o n = none ↔ ∀ f, ¬ s.mem.PageAt f o n := by
  rw [Option.eq_none_iff_forall_not_mem]
  exact forall_congr' fun f ↦ not_congr h.resident_eq_some

theorem resident_eq (h : s.Sound addr size) (o : ObjId) (n : ℕ) :
    s.resident addr size o n = s.mem.resident o n := by
  ext f
  rw [h.resident_eq_some]
  exact (Mem.find_holds (h.hash · o n) (h.unique · · o n)).symm

theorem congr (h : s.Sound addr size) (hp : ∀ f o n, s'.mem.PageAt f o n ↔ s.mem.PageAt f o n)
    (hobjs : s'.mem.objs = s.mem.objs) (hhash : s'.mem.pframeHash = s.mem.pframeHash)
    (hnext : s'.mem.next = s.mem.next) (hchain : s'.pframeHash = s.pframeHash) :
    s'.Sound addr size where
  fresh f o n hf := hnext ▸ h.fresh f o n ((hp f o n).mp hf)
  nodup k := hchain ▸ h.nodup k
  chain k f := by simp only [hchain, h.chain, hp]
  hash f o n hf := hhash ▸ h.hash f o n ((hp f o n).mp hf)
  owned f o n hf := hobjs ▸ h.owned f o n ((hp f o n).mp hf)
  objs o ob ho := by
    obtain ⟨hnodup, hmem, hlen, hspare⟩ := h.objs o ob (hobjs ▸ ho)
    exact ⟨hnodup, fun f ↦ by simp only [hmem, hp], hlen, hspare⟩
  unique f g o n hf hg := h.unique f g o n ((hp f o n).mp hf) ((hp g o n).mp hg)

end Sound

/-! ## A page leaves, a page enters -/

/-- The page `f` of the object `o` has left all lists, and its object has lost the
reference of the page. -/
structure Leaves (f : FrameId) (o : ObjId) (ob : MmObj) (s s' : Index) : Prop where
  pages : ∀ g u m, s'.mem.PageAt g u m ↔ s.mem.PageAt g u m ∧ g ≠ f
  objs : s'.mem.objs = update s.mem.objs o (some { ob with
    mmoRefcount := ob.mmoRefcount - 1
    mmoNrespages := ob.mmoNrespages - 1
    mmoRespages := ob.mmoRespages.erase f })
  hash : s'.mem.pframeHash = s.mem.pframeHash.erase f
  next : s'.mem.next = s.mem.next
  chain : ∀ k, s'.pframeHash k = (s.pframeHash k).erase f

/-- The page `f` has become page `n` of the object `o`. -/
structure Enters (f : FrameId) (o : ObjId) (n : ℕ) (ob : MmObj) (addr : ObjId → ℕ) (size : ℕ)
    (s s' : Index) : Prop where
  pages : ∀ g u m, s'.mem.PageAt g u m ↔ s.mem.PageAt g u m ∨ g = f ∧ u = o ∧ m = n
  objs : s'.mem.objs = update s.mem.objs o (some { ob with
    mmoRefcount := ob.mmoRefcount + 1
    mmoNrespages := ob.mmoNrespages + 1
    mmoRespages := f :: ob.mmoRespages })
  hash : s'.mem.pframeHash = f :: s.mem.pframeHash
  next : s.mem.next ≤ s'.mem.next
  fresh : f < s'.mem.next
  chain : s'.pframeHash = s.insertHead addr size f o n

namespace Sound

theorem leave (h : s.Sound addr size) (hf : s.mem.PageAt f o n) (ho : s.mem.objs o = some ob)
    (hl : Leaves f o ob s s') : s'.Sound addr size := by
  have hlists := h.objs o ob ho
  have hmem : f ∈ ob.mmoRespages := (hlists.mem f).mpr ⟨n, hf⟩
  constructor
  case fresh => exact fun g u m hg ↦ hl.next ▸ h.fresh g u m ((hl.pages g u m).mp hg).1
  case nodup => exact fun k ↦ hl.chain k ▸ (h.nodup k).erase f
  case chain =>
    intro k g
    simp only [hl.chain, (h.nodup k).mem_erase_iff, h.chain, hl.pages]
    constructor
    · rintro ⟨hne, u, m, hg, hk⟩
      exact ⟨u, m, ⟨hg, hne⟩, hk⟩
    · rintro ⟨u, m, ⟨hg, hne⟩, hk⟩
      exact ⟨hne, u, m, hg, hk⟩
  case hash =>
    intro g u m hg
    obtain ⟨hg, hne⟩ := (hl.pages g u m).mp hg
    exact hl.hash ▸ (List.mem_erase_of_ne hne).mpr (h.hash g u m hg)
  case owned =>
    intro g u m hg
    rw [hl.objs]
    rcases eq_or_ne u o with rfl | hu
    · exact ⟨_, update_self ..⟩
    · exact (update_of_ne hu _ s.mem.objs).symm ▸ h.owned g u m ((hl.pages g u m).mp hg).1
  case objs =>
    intro u ub hu
    rw [hl.objs] at hu
    rcases eq_or_ne u o with rfl | hne
    · cases (update_self ..).symm.trans hu
      have hpos := List.length_pos_of_mem hmem
      have hspare := hlists.spare (List.ne_nil_of_mem hmem)
      refine ⟨hlists.nodup.erase f, fun g ↦ ?_, ?_, fun _ ↦ by dsimp only; omega⟩
      · rw [hlists.nodup.mem_erase_iff, hlists.mem]
        simp only [hl.pages]
        exact ⟨fun ⟨hne, m, hg⟩ ↦ ⟨m, hg, hne⟩, fun ⟨m, hg, hne⟩ ↦ ⟨hne, m, hg⟩⟩
      · show ob.mmoNrespages - 1 = ((ob.mmoRespages.erase f).length : ℤ)
        rw [hlists.length, List.length_erase_of_mem hmem]
        omega
    · rw [update_of_ne hne] at hu
      obtain ⟨hnodup, hpages, hlen, hspare⟩ := h.objs u ub hu
      refine ⟨hnodup, fun g ↦ ?_, hlen, hspare⟩
      rw [hpages]
      refine exists_congr fun m ↦ ?_
      rw [hl.pages]
      refine ⟨fun hg ↦ ⟨hg, ?_⟩, And.left⟩
      rintro rfl
      obtain ⟨pf, hpf, rfl, -⟩ := hf
      obtain ⟨pg, hpg, rfl, -⟩ := hg
      cases hpf.symm.trans hpg
      exact hne rfl
  case unique =>
    exact fun g g' u m hg hg' ↦
      h.unique g g' u m ((hl.pages g u m).mp hg).1 ((hl.pages g' u m).mp hg').1

theorem enter (h : s.Sound addr size) (hf : ∀ u m, ¬ s.mem.PageAt f u m)
    (hno : ∀ g, ¬ s.mem.PageAt g o n) (ho : s.mem.objs o = some ob) (hpos : 0 < ob.mmoRefcount)
    (he : Enters f o n ob addr size s s') : s'.Sound addr size := by
  have hlists := h.objs o ob ho
  have hold : ∀ k, f ∉ s.pframeHash k := by
    intro k hk
    obtain ⟨u, m, hp, -⟩ := (h.chain k f).mp hk
    exact hf u m hp
  constructor
  case fresh =>
    intro g u m hg
    rcases (he.pages g u m).mp hg with hg | ⟨rfl, -⟩
    · exact (h.fresh g u m hg).trans_le he.next
    · exact he.fresh
  case nodup =>
    intro k
    rw [he.chain]
    unfold insertHead
    rcases eq_or_ne k (hashPage addr size o n) with rfl | hk
    · rw [update_self]
      exact (h.nodup _).cons (hold _)
    · rw [update_of_ne hk]
      exact h.nodup k
  case chain =>
    intro k g
    have hins : g ∈ s'.pframeHash k ↔
        g ∈ s.pframeHash k ∨ g = f ∧ k = hashPage addr size o n := by
      rw [he.chain]
      unfold insertHead
      rcases eq_or_ne k (hashPage addr size o n) with rfl | hk
      · rw [update_self, List.mem_cons, or_comm, and_iff_left rfl]
      · simp only [update_of_ne hk, hk, and_false, or_false]
    rw [hins, h.chain]
    simp only [he.pages]
    constructor
    · rintro (⟨u, m, hg, hk⟩ | ⟨rfl, rfl⟩)
      · exact ⟨u, m, .inl hg, hk⟩
      · exact ⟨o, n, .inr ⟨rfl, rfl, rfl⟩, rfl⟩
    · rintro ⟨u, m, hg | ⟨rfl, rfl, rfl⟩, hk⟩
      · exact .inl ⟨u, m, hg, hk⟩
      · exact .inr ⟨rfl, hk.symm⟩
  case hash =>
    intro g u m hg
    rw [he.hash]
    rcases (he.pages g u m).mp hg with hg | ⟨rfl, -⟩
    · exact List.mem_cons_of_mem _ (h.hash g u m hg)
    · exact List.mem_cons_self
  case owned =>
    intro g u m hg
    rw [he.objs]
    rcases eq_or_ne u o with rfl | hu
    · exact ⟨_, update_self ..⟩
    · rcases (he.pages g u m).mp hg with hg | ⟨-, rfl, -⟩
      · exact (update_of_ne hu _ s.mem.objs).symm ▸ h.owned g u m hg
      · exact absurd rfl hu
  case objs =>
    intro u ub hu
    rw [he.objs] at hu
    rcases eq_or_ne u o with rfl | hne
    · cases (update_self ..).symm.trans hu
      have hfresh : f ∉ ob.mmoRespages := by
        intro hmem
        obtain ⟨m, hp⟩ := (hlists.mem f).mp hmem
        exact hf u m hp
      refine ⟨hlists.nodup.cons hfresh, fun g ↦ ?_, ?_, fun _ ↦ ?_⟩
      · rw [List.mem_cons, hlists.mem]
        constructor
        · rintro (rfl | ⟨m, hg⟩)
          · exact ⟨n, (he.pages ..).mpr (.inr ⟨rfl, rfl, rfl⟩)⟩
          · exact ⟨m, (he.pages ..).mpr (.inl hg)⟩
        · rintro ⟨m, hg⟩
          rcases (he.pages ..).mp hg with hg | ⟨rfl, -⟩
          · exact .inr ⟨m, hg⟩
          · exact .inl rfl
      · rw [List.length_cons, hlists.length]
        rfl
      · show ob.mmoNrespages + 1 < ob.mmoRefcount + 1
        rcases eq_or_ne ob.mmoRespages [] with hnil | hnil
        · rw [hlists.length, hnil]
          simpa using hpos
        · have := hlists.spare hnil
          omega
    · rw [update_of_ne hne] at hu
      obtain ⟨hnodup, hpages, hlen, hspare⟩ := h.objs u ub hu
      refine ⟨hnodup, fun g ↦ ?_, hlen, hspare⟩
      rw [hpages]
      refine exists_congr fun m ↦ ?_
      rw [he.pages]
      refine ⟨.inl, ?_⟩
      rintro (hg | ⟨-, rfl, -⟩)
      · exact hg
      · exact absurd rfl hne
  case unique =>
    intro g g' u m hg hg'
    rcases (he.pages g u m).mp hg with hg | ⟨rfl, rfl, rfl⟩
    · rcases (he.pages g' u m).mp hg' with hg' | ⟨-, rfl, rfl⟩
      · exact h.unique g g' u m hg hg'
      · exact absurd hg (hno g)
    · rcases (he.pages g' u m).mp hg' with hg' | ⟨rfl, -⟩
      · exact absurd hg' (hno g')
      · rfl

end Sound

/-! ## The calls -/

section

variable [Layout]

theorem put_counts {m m' : Mem} (h : m.put o = .ok m') (ho : m.objs o = some ob)
    (hnonneg : 0 ≤ ob.mmoNrespages) (hmore : ob.mmoNrespages < ob.mmoRefcount - 1) :
    m' = m.setObj o (some { ob with mmoRefcount := ob.mmoRefcount - 1 }) := by
  have hv : ∀ v, ob.mmoOps = .vnode v → ∃ vn, m.vnodes v = some vn := by
    intro v hops
    unfold Mem.put Mem.putN at h
    rw [ho, follow_bind, hops] at h
    obtain ⟨-, -, h⟩ := bind_ok h
    obtain ⟨-, -, h⟩ := bind_ok h
    obtain ⟨vn, hvn, -⟩ := bind_follow h
    exact ⟨vn, hvn⟩
  exact Except.ok.inj (h.symm.trans (putN_dec ho hnonneg hmore hv))

theorem Sound.object (h : s.Sound addr size) (hf : s.mem.PageAt f o n) :
    ∃ ob, s.mem.objs o = some ob ∧ 0 < ob.mmoNrespages ∧ ob.mmoNrespages < ob.mmoRefcount := by
  obtain ⟨ob, ho⟩ := h.owned f o n hf
  have hlists := h.objs o ob ho
  have hmem : f ∈ ob.mmoRespages := (hlists.mem f).mpr ⟨n, hf⟩
  refine ⟨ob, ho, ?_, hlists.spare (List.ne_nil_of_mem hmem)⟩
  rw [hlists.length]
  exact_mod_cast List.length_pos_of_mem hmem

theorem pageAt_erase {m m' : Mem} (h : m'.frames = update m.frames f none) :
    m'.PageAt g u n ↔ m.PageAt g u n ∧ g ≠ f := by
  unfold Mem.PageAt
  rw [h]
  rcases eq_or_ne g f with rfl | hne
  · simp
  · simp [hne]

theorem pageAt_insert (pf : Pframe) {m m' : Mem} {k : ℕ} (hf : ∀ u n, ¬ m.PageAt f u n)
    (h : m'.frames = update m.frames f (some pf)) :
    m'.PageAt g u k ↔ m.PageAt g u k ∨ g = f ∧ u = pf.pfObj ∧ k = pf.pfPagenum := by
  rcases eq_or_ne g f with rfl | hne
  · rw [or_iff_right (hf u k)]
    simp [Mem.PageAt, h, eq_comm]
  · simp [Mem.PageAt, h, hne]

section

variable (h : s.Sound addr size)
include h

theorem Sound.prune_eq {m : Mem}
    (hframes : m.frames = update s.mem.frames f none) (k : ℕ) :
    prune m s.pframeHash k = (s.pframeHash k).erase f := by
  rw [(h.nodup k).erase_eq_filter]
  refine List.filter_congr fun g hg ↦ ?_
  obtain ⟨o, n, ⟨pf, hpf, -⟩, -⟩ := (h.chain k g).mp hg
  rw [hframes]
  rcases eq_or_ne g f with rfl | hne
  · simp
  · simp [hpf, hne]

theorem Sound.free_cases (hs : s.free f = .ok s') :
    ∃ pf ob, s.mem.frames f = some pf ∧ ¬ pf.IsPinned ∧ pf.pfBusy = false ∧
      s.mem.objs pf.pfObj = some ob ∧ s'.mem.frames = update s.mem.frames f none ∧
      Leaves f pf.pfObj ob s s' := by
  obtain ⟨m, hm, hs⟩ := bind_ok hs
  cases hs
  obtain ⟨pf, hpf, hpin, hbusy, m₁, h₁, ob, hob, hput⟩ := Mem.freeWith_eq_ok.mp hm
  obtain ⟨P, -, rfl⟩ := Mem.pframeRemoveFromPts_procs h₁
  obtain ⟨ob', hob', hpos, hspare⟩ := h.object ⟨pf, hpf, rfl, rfl⟩
  cases hob.symm.trans hob'
  have hm := put_counts hput (update_self ..) (show 0 ≤ ob.mmoNrespages - 1 by omega)
    (show ob.mmoNrespages - 1 < ob.mmoRefcount - 1 by omega)
  subst hm
  exact ⟨pf, ob, hpf, hpin, hbusy, hob, rfl,
    fun _ _ _ ↦ pageAt_erase rfl, update_idem .., rfl, rfl, h.prune_eq rfl⟩

theorem Sound.free (hs : s.free f = .ok s') : s'.Sound addr size := by
  obtain ⟨pf, ob, hpf, -, -, hob, -, hleaves⟩ := h.free_cases hs
  exact h.leave ⟨pf, hpf, rfl, rfl⟩ hob hleaves

theorem Sound.touch (g : FrameId) : Sound addr size { s with mem := s.mem.touch g } := by
  unfold Mem.touch
  split
  · exact h
  · exact h.congr (fun _ _ _ ↦ Iff.rfl) rfl rfl rfl rfl

theorem Sound.setFrame {pf' : Pframe} (hf : s.mem.frames f = some pf)
    {m : Mem} (hframes : m.frames = (s.mem.setFrame f (some pf')).frames)
    (hobj : pf'.pfObj = pf.pfObj) (hnum : pf'.pfPagenum = pf.pfPagenum)
    (hobjs : m.objs = s.mem.objs) (hhash : m.pframeHash = s.mem.pframeHash)
    (hnext : m.next = s.mem.next) : Sound addr size { s with mem := m } := by
  refine h.congr (fun g u k ↦ ?_) hobjs hhash hnext rfl
  rw [← pageAt_setFrame hf hobj hnum]
  unfold Mem.PageAt
  rw [hframes]

theorem Sound.discard {m : Mem}
    (hm : s.mem.migrateWith f pf dest (some g) = .ok m) :
    Sound addr size ⟨m, prune m s.pframeHash⟩ := by
  obtain ⟨m₁, h₁, hrest⟩ := bind_ok hm
  obtain ⟨m₂, h₂, hfree⟩ := bind_ok hrest
  obtain ⟨pf₁, hpf₁, -, rfl⟩ := Mem.pframeUnpin_eq_ok.mp h₁
  have hs₁ : Sound addr size { s with
      mem := (s.mem.touch g).setFrame f (some { pf₁ with pfPincount := pf₁.pfPincount - 1 }) } :=
    (h.touch g).setFrame hpf₁ rfl rfl rfl rfl rfl rfl
  obtain ⟨pf₂, P, V, d, hpf₂, -, hm₂⟩ := Mem.pframeClean_cases h₂
  have hs₂ : Sound addr size { s with mem := m₂ } := by
    subst hm₂
    exact hs₁.setFrame hpf₂ rfl rfl rfl rfl rfl rfl
  exact hs₂.free (bind_eq_ok.mpr ⟨m, hfree, rfl⟩)

/-- The slot is free: the page leaves its object and enters the other one. -/
theorem Sound.move {m : Mem} (hf : s.mem.frames f = some pf)
    (hno : ∀ g, ¬ s.mem.PageAt g dest pf.pfPagenum)
    (hm : s.mem.migrateWith f pf dest none = .ok m) :
    Sound addr size ⟨m, insertHead addr size
      { s with pframeHash := fun k ↦ (s.pframeHash k).erase f } f dest pf.pfPagenum⟩ := by
  have hpage : s.mem.PageAt f pf.pfObj pf.pfPagenum := ⟨pf, hf, rfl, rfl⟩
  obtain ⟨ob, hob, hm⟩ := bind_follow hm
  obtain ⟨ob', hob', hpos, hspare⟩ := h.object hpage
  cases hob.symm.trans hob'
  obtain ⟨m₁, hput, hm⟩ := bind_ok hm
  have hm₁ := put_counts hput (update_self ..) (show 0 ≤ ob.mmoNrespages - 1 by omega)
    (show ob.mmoNrespages - 1 < ob.mmoRefcount - 1 by omega)
  subst hm₁
  obtain ⟨db, hdb, hm⟩ := bind_follow hm
  obtain ⟨db', hdb', hm⟩ := bind_ok hm
  rw [follow_eq_ok, Mem.attach_objs, update_self] at hdb'
  cases hdb'
  obtain ⟨href, hm⟩ := bind_demand hm
  cases hm
  -- between the two halves the page belongs to nobody
  let mid : Index :=
    ⟨{ (s.mem.detach f pf dest ob).setObj pf.pfObj (some { ob with
        mmoRefcount := ob.mmoRefcount - 1
        mmoNrespages := ob.mmoNrespages - 1
        mmoRespages := ob.mmoRespages.erase f }) with frames := update s.mem.frames f none },
      fun k ↦ (s.pframeHash k).erase f⟩
  have hmid : mid.Sound addr size := h.leave hpage hob'
    ⟨fun _ _ _ ↦ pageAt_erase rfl, update_idem .., rfl, rfl, fun _ ↦ rfl⟩
  have hnone : ∀ u m, ¬ mid.mem.PageAt f u m := fun u m hu ↦ ((pageAt_erase rfl).mp hu).2 rfl
  refine hmid.enter hnone (fun g hg ↦ hno g ((pageAt_erase rfl).mp hg).1) hdb
    href ⟨fun g u m ↦ ?_, update_idem .., rfl, le_rfl, h.fresh f _ _ hpage, rfl⟩
  exact pageAt_insert { pf with pfObj := dest } hnone (update_idem ..).symm

theorem Sound.migrate (hs : s.migrate addr size f dest = .ok s') : s'.Sound addr size := by
  obtain ⟨pf, hpf, hs⟩ := bind_follow hs
  obtain ⟨-, -, hs⟩ := bind_ok hs
  obtain ⟨m, hm, hs⟩ := bind_ok hs
  cases hfound : s.resident addr size dest pf.pfPagenum with
  | some g =>
    rw [hfound] at hm hs
    cases hs
    exact h.discard hm
  | none =>
    rw [hfound] at hm hs
    cases hs
    exact h.move hpf (h.resident_eq_none.mp hfound) hm

theorem Sound.getPage (hs : s.getPage addr size o n = .ok s') : s'.Sound addr size := by
  unfold Index.getPage at hs
  split at hs
  · next g _ =>
    cases hs
    exact h.touch g
  · next hnone =>
    obtain ⟨⟨m, r⟩, hm, hs⟩ := bind_ok hs
    have hdraw : ∀ k, Sound addr size { s with mem := s.mem.draw k } := fun k ↦
      h.congr (fun _ _ _ ↦ Iff.rfl) rfl rfl rfl rfl
    have hdraw₂ : Sound addr size { s with mem := (s.mem.draw .pframe).draw .page } :=
      h.congr (fun _ _ _ ↦ Iff.rfl) rfl rfl rfl rfl
    rcases Mem.pframeAlloc_cases hm with ⟨rfl, rfl | rfl⟩ | ⟨rfl, ob, hob, hpos, rfl⟩
    · cases hs
      exact hdraw .pframe
    · cases hs
      exact hdraw₂
    · cases hs
      -- the name of the new page has never been used
      have hfresh : ∀ u m, ¬ s.mem.PageAt s.mem.next u m := fun u m hp ↦
        lt_irrefl _ (h.fresh _ u m hp)
      exact hdraw₂.enter hfresh (h.resident_eq_none.mp hnone) hob hpos
        ⟨fun g u m ↦ pageAt_insert ⟨o, n, 0, false, false, fun _ ↦ 0⟩ hfresh rfl, rfl, rfl,
          Nat.le_succ _, Nat.lt_succ_self _, rfl⟩

theorem Sound.step {e : Event} (hs : s.step addr size e = .ok s') : s'.Sound addr size := by
  cases e with
  | get o n => exact h.getPage hs
  | free f => exact h.free hs
  | migrate f dest => exact h.migrate hs
  | change f pincount busy dirty data =>
    cases hs
    unfold Mem.modFrame
    cases hf : s.mem.frames f with
    | none =>
      refine h.congr (fun g u m ↦ ?_) rfl rfl rfl rfl
      rw [Option.map_none, ← hf]
      show Mem.PageAt (s.mem.setFrame f (s.mem.frames f)) g u m ↔ _
      rw [Mem.setFrame, update_eq_self]
    | some pf => exact h.setFrame hf rfl rfl rfl rfl rfl rfl

theorem Sound.migrate_mem (f : FrameId) (dest : ObjId) :
    Index.mem <$> s.migrate addr size f dest = s.mem.pframeMigrate f dest := by
  unfold Index.migrate Mem.pframeMigrate
  simp only [h.resident_eq]
  cases follow Fault.pointer (s.mem.frames f) with
  | error e => rfl
  | ok pf =>
    simp only [ok_bind]
    cases demand Fault.assertion (pf.pfBusy = false) with
    | error e => rfl
    | ok _ =>
      simp only [ok_bind]
      cases s.mem.migrateWith f pf dest (s.mem.resident dest pf.pfPagenum) with
      | error e => rfl
      | ok m => cases s.mem.resident dest pf.pfPagenum <;> rfl

end

/-- In every state that calls of `pframe_alloc`, `pframe_free` and `pframe_migrate` lead
to, a resident page is on its hash chain and on no other, once, and once on the list of
its object; the counter of every object is the length of its list; no two pages have the
same identity; and the lookup of an identity finds the page that has it. -/
theorem index_of_run {s₀ : Index} {h : List Event} (h₀ : s₀.Empty)
    (hr : Run (ofStep (step addr size)) s₀ h s) :
    (∀ f pf, s.mem.frames f = some pf →
      (∀ k, (s.pframeHash k).count f =
        if k = hashPage addr size pf.pfObj pf.pfPagenum then 1 else 0) ∧
      ∃ ob, s.mem.objs pf.pfObj = some ob ∧ ob.mmoRespages.count f = 1) ∧
    (∀ o ob, s.mem.objs o = some ob → ob.mmoNrespages = ob.mmoRespages.length ∧
      ∀ f ∈ ob.mmoRespages, ∃ pf, s.mem.frames f = some pf ∧ pf.pfObj = o) ∧
    (∀ f g pf pg, s.mem.frames f = some pf → s.mem.frames g = some pg →
      pf.pfObj = pg.pfObj → pf.pfPagenum = pg.pfPagenum → f = g) ∧
    ∀ o n f, s.resident addr size o n = some f ↔
      ∃ pf, s.mem.frames f = some pf ∧ pf.pfObj = o ∧ pf.pfPagenum = n := by
  have hs : s.Sound addr size := hr.invariant (fun _ _ _ hi hs ↦ hi.step hs) h₀.sound
  refine ⟨fun f pf hf ↦ ?_, fun o ob ho ↦ ?_, fun f g pf pg hf hg hobj hnum ↦ ?_, fun o n f ↦ ?_⟩
  · have hpage : s.mem.PageAt f pf.pfObj pf.pfPagenum := ⟨pf, hf, rfl, rfl⟩
    refine ⟨fun k ↦ ?_, ?_⟩
    · rw [(hs.nodup k).count]
      refine if_congr ?_ rfl rfl
      rw [hs.chain]
      constructor
      · rintro ⟨o, n, ⟨pf', hf', rfl, rfl⟩, hk⟩
        cases hf.symm.trans hf'
        exact hk.symm
      · rintro rfl
        exact ⟨_, _, hpage, rfl⟩
    · obtain ⟨ob, hob⟩ := hs.owned f _ _ hpage
      have hlists := hs.objs _ ob hob
      exact ⟨ob, hob, List.count_eq_one_of_mem hlists.nodup ((hlists.mem f).mpr ⟨_, hpage⟩)⟩
  · refine ⟨(hs.objs o ob ho).length, fun f hf ↦ ?_⟩
    obtain ⟨n, pf, hpf, hobj, -⟩ := ((hs.objs o ob ho).mem f).mp hf
    exact ⟨pf, hpf, hobj⟩
  · exact hs.unique f g pg.pfObj pg.pfPagenum ⟨pf, hf, hobj, hnum⟩ ⟨pg, hg, rfl, rfl⟩
  · exact hs.resident_eq_some

/-- **The hash chains refine the one list of `Mem`**: in every state that the calls lead to,
lookups and `pframe_migrate` are those of `Mem`. -/
theorem chains_refine_mem {s₀ : Index} {h : List Event} (h₀ : s₀.Empty)
    (hr : Run (ofStep (step addr size)) s₀ h s) :
    (∀ o n, s.resident addr size o n = s.mem.resident o n) ∧
    ∀ f dest, Index.mem <$> s.migrate addr size f dest = s.mem.pframeMigrate f dest := by
  have hs : s.Sound addr size := hr.invariant (fun _ _ _ hi hs ↦ hi.step hs) h₀.sound
  exact ⟨hs.resident_eq, hs.migrate_mem⟩

end

/-- Two anonymous objects without pages, each with one reference. -/
def twoObjects : Index where
  mem :=
    { objs := fun o ↦ if o < 2 then some { mmoOps := .anon, mmoRefcount := 1 } else none
      next := 2 }

theorem empty_twoObjects : twoObjects.Empty := by
  refine ⟨fun _ ↦ rfl, fun o ob ho ↦ ?_, fun _ ↦ rfl, rfl⟩
  change (if o < 2 then _ else _) = some ob at ho
  split at ho <;> cases ho
  exact ⟨rfl, rfl⟩

/-- A page moves to the other object; a second page with its number follows and is freed,
because the slot is taken. -/
theorem index_of_migrations : ∃ s, Run (ofStep (@step (fun o ↦ 64 * o) 16 .stock)) twoObjects
      [.migrate 3 1, .change 3 1 false true (fun _ ↦ 0), .get 0 7, .migrate 2 1, .get 0 7] s ∧
    s.pframeHash (hashPage (fun o ↦ 64 * o) 16 1 7) = [2] ∧
    ∀ o n f, s.resident (fun o ↦ 64 * o) 16 o n = some f ↔
      ∃ pf, s.mem.frames f = some pf ∧ pf.pfObj = o ∧ pf.pfPagenum = n := by
  obtain ⟨s, hs, htest⟩ := exists_of_check (f := @step (fun o ↦ 64 * o) 16 .stock)
    (s := twoObjects)
    (l := [.get 0 7, .migrate 2 1, .get 0 7, .change 3 1 false true (fun _ ↦ 0), .migrate 3 1])
    (p := fun s ↦ s.pframeHash (hashPage (fun o ↦ 64 * o) 16 1 7) == [2]) (by decide +kernel)
  have hr := Run.of_exec hs
  exact ⟨s, hr, beq_iff_eq.mp htest,
    (@index_of_run (fun o ↦ 64 * o) 16 s .stock _ _ empty_twoObjects hr).2.2.2⟩

theorem chains_refine_one : ∃ s, Run (ofStep (@step (fun o ↦ 64 * o) 16 .stock)) twoObjects
      [.get 0 7] s ∧ s.resident (fun o ↦ 64 * o) 16 0 7 = some 2 ∧
    s.resident (fun o ↦ 64 * o) 16 0 7 = s.mem.resident 0 7 := by
  obtain ⟨s, hs, htest⟩ := exists_of_check (f := @step (fun o ↦ 64 * o) 16 .stock)
    (s := twoObjects) (l := [.get 0 7])
    (p := fun s ↦ s.resident (fun o ↦ 64 * o) 16 0 7 == some 2) (by decide +kernel)
  have hr := Run.of_exec hs
  exact ⟨s, hr, beq_iff_eq.mp htest,
    (@chains_refine_mem (fun o ↦ 64 * o) 16 s .stock _ _ empty_twoObjects hr).1 0 7⟩

end Index

end CS402.Mm

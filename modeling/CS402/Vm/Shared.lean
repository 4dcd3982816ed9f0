import CS402.Vm.Reclaim

/-!
# Shared mappings and the mode of a file

A shared mapping that can be written lets a process change the file behind it, so `do_mmap`
asks whether the descriptor is open for reading and writing.  It compares the flags with
`MAP_SHARED` as a whole: one more flag, such as `MAP_FIXED`, and nothing is asked.
-/

namespace CS402.Mm

open CS402.Lib Function

/-- Every shared mapping of a file that `do_mmap` makes with these flags, and that can be
written, is one of a file that is open for reading and for writing. -/
def ChecksMode [Layout] (flags : Flags) : Prop :=
  ∀ (s s' : Mem) (p : Pid) (x : Proc) (addr len : ℕ) (prot : Flags) (fd : ℤ) (off r : ℕ),
    flags.has mapAnon = false → flags.has mapShared = true → prot.has protWrite = true →
    s.procs p = some x → s.doMmap p addr len prot flags fd off = .ok (s', .ok r) →
    ∃ f, s.fileOf x fd = some f ∧ f.fMode.has fmodeRead = true ∧ f.fMode.has fmodeWrite = true

theorem checksMode_mapShared [Layout] : ChecksMode mapShared := by
  intro s s' p x addr len prot fd off r hanon _ hw hx hs
  obtain ⟨y, hy, hs⟩ := bind_ok hs
  obtain rfl : x = y := Option.some.inj (hx.symm.trans (Mem.curproc_eq_ok.mp hy).1)
  split at hs
  · cases hs
  obtain ⟨file, hfile, hs⟩ := bind_ok hs
  rw [Mem.mmapFile, hanon] at hfile
  cases hf : s.fileOf x fd with
  | none =>
    rw [hf] at hfile
    cases hfile
    cases hs
  | some f =>
    rw [hf] at hfile
    obtain ⟨v, -, hfile⟩ := bind_ok hfile
    split at hfile
    · cases hfile
      cases hs
    · next hok =>
      refine ⟨f, rfl, ?_⟩
      simpa [Mem.WriteDenied, hw] using hok

/-! ## A file that is open for reading -/

/-- A process with nothing in its map and one descriptor, which is open for reading. -/
def reader : Mem where
  objs := fun o ↦ if o = 0 then some { mmoOps := .vnode 0, mmoRefcount := 1 } else none
  maps := fun m ↦ if m = 0 then some {} else none
  procs := fun p ↦ if p = 0 then
    some { pVmmap := some 0, pFiles := fun i ↦ if i = 0 then some 0 else none } else none
  files := fun f ↦ if f = 0 then some { fMode := 1, fVnode := some 0 } else none
  vnodes := fun v ↦ if v = 0 then
    some { vnMmobj := 0, vnLen := 4096, fillpage := fun _ ↦ .ok fun _ ↦ 0 } else none
  next := 1

section

attribute [local instance] Layout.stock

variable {flags : Flags}

theorem vmmapMap_reader (hshared : flags.has mapShared = true) :
    ∃ s' vma x, reader.vmmapMap 0 (some 0) 1024 1 protWrite flags 0 .hilo = .ok (s', .ok 1) ∧
      s'.areas 1 = some vma ∧ vma.vmaStart = 1024 ∧ vma.vmaEnd = 1025 ∧ s'.procs 0 = some x := by
  have hroom : reader.makeRoom 0 1024 1 .hilo = .ok (reader, some 1024) := rfl
  rw [Mem.vmmapMap, demand_bind (by decide), demand_bind (.inl hshared), demand_bind (by decide),
    demand_bind (by decide), demand_bind (by decide), hroom, ok_bind]
  cases hp : flags.has mapPrivate with
  | true =>
    simp only [Mem.vmmapPlace, hp]
    exact ⟨_, _, _, rfl, rfl, rfl, rfl, rfl⟩
  | false =>
    simp only [Mem.vmmapPlace, hp]
    exact ⟨_, _, _, rfl, rfl, rfl, rfl, rfl⟩

theorem doMmap_reader (hshared : flags.has mapShared = true) (hanon : flags.has mapAnon = false)
    (hne : flags ≠ mapShared) :
    ∃ s' r, reader.doMmap 0 0x400000 4096 protWrite flags 0 0 = .ok (s', .ok r) := by
  obtain ⟨x, hx, hcur, hm⟩ : ∃ x, reader.procs 0 = some x ∧ reader.curproc 0 = .ok x ∧
      x.pVmmap = some 0 := ⟨_, rfl, rfl, rfl⟩
  have hvalid : ¬ Mem.MmapInvalid 0x400000 4096 flags 0 := by
    simp [Mem.MmapInvalid, PageAligned]
    decide
  have hfile : reader.mmapFile x protWrite flags 0 = .ok (.ok (some 0)) := by
    have hden : ¬ Mem.WriteDenied { fMode := 1, fVnode := some 0 } protWrite flags :=
      fun h ↦ hne h.1
    cases hx
    rw [Mem.mmapFile, hanon]
    exact if_neg hden
  obtain ⟨s', vma, y, hmap, hvma, hstart, hend, hy⟩ := vmmapMap_reader hshared
  have hmap' : reader.vmmapMap 0 (some 0) (addrToPn 0x400000) (pagesOf 4096) protWrite flags 0
      .hilo = .ok (s', .ok 1) := hmap
  rw [Mem.doMmap, hcur, ok_bind, if_neg hvalid, hfile, ok_bind]
  simp only [hm, follow_bind, hmap', ok_bind, Mem.mmapFlush, hvma, hstart, hend, hy]
  rw [if_neg (by decide), ptUnmapRange_eq_ok.mpr ⟨by decide, rfl⟩]
  exact ⟨_, _, rfl⟩

/-- Whether a frame caches the first page of the file and this is its first byte. -/
def Mem.fileByte (s : Mem) (f : FrameId) (b : UInt8) : Bool :=
  (s.frames f).any fun pf ↦ pf.pfObj = 0 ∧ pf.pfPagenum = 0 ∧ pf.pfData 0 = b

end

end CS402.Mm

import OsKernel.Hal.TrapCode
import OsKernel.Mm.Memlayout

/-! What the code between user and kernel mode does: `uservec` saves the registers of the program in
its trap frame and enters the kernel as the frame says, and `userret` gives the program the
registers in the frame. -/

namespace OsKernel.Hal

open Lib Hsai Mm

/-- The address of the trap frame of the program that runs, in its own page table. -/
def trapFrameVa : BitVec 64 := BitVec.ofNat 64 vmTrapFrame

/-- The translation by the page table register. -/
def mmuOf (translate : BitVec 64 → Mem → BitVec 64 → Option Nat) : Mmu Csr :=
  fun csr => translate (csr .pageTable)

/-- The registers of a program. -/
structure UserRegs (arch : Arch) where
  reg : GReg arch → BitVec 64
  pc : BitVec 64

/-- The frame at `f` has the registers. -/
structure FrameHolds (arch : Arch) (m : Mem) (f : Nat) (u : UserRegs arch) : Prop where
  reg : ∀ r, m.word (f + frameOffset arch r) = u.reg r
  pc : m.word (f + arch.trapFrameEntry) = u.pc

section

variable {arch : Arch} {translate : BitVec 64 → Mem → BitVec 64 → Option Nat}
  {s : Cpu (GReg arch) Csr} {f : Nat}

/-! ### The layout of the frame -/

/-- The offsets of the members that are no registers. -/
def otherOffsets (arch : Arch) : List Nat :=
  [(kernelOffsets arch).pageTable, (kernelOffsets arch).sp, (kernelOffsets arch).trap,
    (kernelOffsets arch).hartid, arch.trapFrameEntry]

theorem frameOffset_other : ∀ r ∈ frameRegs arch, ∀ o ∈ otherOffsets arch,
    frameOffset arch r + 8 ≤ o ∨ o + 8 ≤ frameOffset arch r := by
  cases arch with
  | riscv => decide
  | loongarch => decide

theorem otherOffsets_apart : (otherOffsets arch).Pairwise fun o o' => o + 8 ≤ o' ∨
    o' + 8 ≤ o := by
  cases arch with
  | riscv => decide
  | loongarch => decide

theorem frameOffset_lt : ∀ r ∈ frameRegs arch, frameOffset arch r + 8 ≤ 4096 := by
  cases arch with
  | riscv => decide
  | loongarch => decide

theorem otherOffsets_lt : ∀ o ∈ otherOffsets arch, o + 8 ≤ 4096 := by
  cases arch with
  | riscv => decide
  | loongarch => decide

theorem frameRegs_nodup : (frameRegs arch).Nodup := by
  cases arch with
  | riscv => exact (by decide : Riscv.frameRegs.Nodup)
  | loongarch => exact (by decide : Loongarch.frameRegs.Nodup)

theorem frameOffset_ne {r r' : GReg arch} (h : r ≠ r') :
    frameOffset arch r + 8 ≤ frameOffset arch r' ∨
      frameOffset arch r' + 8 ≤ frameOffset arch r := by
  have : Std.Symm fun r r' : GReg arch =>
      frameOffset arch r + 8 ≤ frameOffset arch r' ∨
        frameOffset arch r' + 8 ≤ frameOffset arch r :=
    ⟨fun _ _ h => h.symm⟩
  exact (frameOffset_apart arch).forall (mem_frameRegs arch r) (mem_frameRegs arch r') h

theorem plainSlots_mem {p : GReg arch × Nat} :
    p ∈ plainSlots arch ↔ p.1 ≠ .a0 arch ∧ p.2 = frameOffset arch p.1 := by
  unfold plainSlots
  rw [List.mem_map]
  constructor
  · rintro ⟨r, hr, rfl⟩
    exact ⟨by simpa using (List.mem_filter.mp hr).2, rfl⟩
  · rintro ⟨hne, hoff⟩
    exact ⟨p.1, List.mem_filter.mpr
      ⟨mem_frameRegs arch p.1, by simpa using hne⟩, by rw [← hoff]⟩

theorem plainSlots_nodup : ((plainSlots arch).map Prod.fst).Nodup := by
  unfold plainSlots
  rw [List.map_map, show (Prod.fst ∘ fun r => (r, frameOffset arch r)) = id from rfl, List.map_id]
  exact frameRegs_nodup.filter _

theorem plainSlots_apart : (plainSlots arch).Pairwise fun p q => p.2 + 8 ≤ q.2 ∨
    q.2 + 8 ≤ p.2 := by
  unfold plainSlots
  rw [List.pairwise_map]
  exact (frameOffset_apart arch).filter _

theorem plainSlots_lt : ∀ p ∈ plainSlots arch, p.2 + 8 ≤ 4096 := by
  intro p hp
  rw [(plainSlots_mem.mp hp).2]
  exact frameOffset_lt p.1 (mem_frameRegs arch p.1)

theorem GReg.a0_ne : GReg.t0 arch ≠ .a0 arch ∧ GReg.t1 arch ≠ .a0 arch ∧
    GReg.sp arch ≠ .a0 arch ∧ GReg.tp arch ≠ .a0 arch := by
  cases arch with
  | riscv => decide
  | loongarch => decide

theorem GReg.apart : GReg.sp arch ≠ .tp arch ∧ GReg.sp arch ≠ .t0 arch ∧
    GReg.sp arch ≠ .t1 arch ∧ GReg.tp arch ≠ .t0 arch ∧ GReg.tp arch ≠ .t1 arch ∧
      GReg.t0 arch ≠ .t1 arch := by
  cases arch with
  | riscv => decide
  | loongarch => decide

/-! ### The trap -/

/-- The registers with which `uservec` enters the kernel, from the memory after the stores. -/
structure Enters (arch : Arch) (m : Mem) (f : Nat) (s s' : Cpu (GReg arch) Csr) : Prop where
  mem : s'.mem = m
  epc : s'.csr .epc = s.csr .epc
  pageTable : s'.csr .pageTable = m.word (f + (kernelOffsets arch).pageTable)
  sp : s'.reg (.sp arch) = m.word (f + (kernelOffsets arch).sp)
  tp : s'.reg (.tp arch) = m.word (f + (kernelOffsets arch).hartid)
  pc : s'.pc = m.word (f + (kernelOffsets arch).trap)

theorem enter_run (ha : s.reg (.a0 arch) = trapFrameVa)
    (hw : Window (mmuOf translate) s.csr s.mem trapFrameVa f 4096) :
    ∃ s', s.run (mmuOf translate) (enterCode arch) = some s' ∧
      Enters arch (s.mem.write (f + frameOffset arch (.a0 arch)) 8 (s.csr .scratch).toNat)
        f s s' := by
  have hat0 := hw.at (@frameOffset_lt arch _ (mem_frameRegs arch (.a0 arch)))
  have hw' := hw.write (v := (s.csr .scratch).toNat)
    (@frameOffset_lt arch _ (mem_frameRegs arch (.a0 arch)))
  have hpt := hw'.at (@otherOffsets_lt arch (kernelOffsets arch).pageTable (by simp [otherOffsets]))
  have hsp := hw'.at (@otherOffsets_lt arch (kernelOffsets arch).sp (by simp [otherOffsets]))
  have htrap := hw'.at (@otherOffsets_lt arch (kernelOffsets arch).trap (by simp [otherOffsets]))
  have hhart := hw'.at (@otherOffsets_lt arch (kernelOffsets arch).hartid (by simp [otherOffsets]))
  obtain ⟨ht0, ht1, hspne, htp⟩ := @GReg.a0_ne arch
  obtain ⟨h1, h2, h3, h4, h5, h6⟩ := @GReg.apart arch
  have hepc : Csr.epc ≠ .pageTable := by decide
  cases arch with
  | riscv =>
    simp only [enterCode, clearFp, setPageTable, List.cons_append, List.nil_append, Cpu.run_cons,
      Cpu.exec, Cpu.run_nil, Function.update_of_ne ht0.symm, Function.update_of_ne hspne.symm,
      Function.update_of_ne htp.symm, Function.update_self, ha, hat0, hpt, hsp, htrap, hhart,
      Option.bind_eq_bind, Option.bind_some]
    refine ⟨_, rfl, ?_⟩
    constructor <;> simp only [Function.update_self, Function.update_of_ne h1,
      Function.update_of_ne h2, Function.update_of_ne h3, Function.update_of_ne h4,
      Function.update_of_ne h5, Function.update_of_ne h6,
      Function.update_of_ne hepc]
  | loongarch =>
    have hfp₁ : GReg.sp .loongarch ≠ TfReg.fp := (by decide : TfReg.sp ≠ .fp)
    have hfp₂ : GReg.tp .loongarch ≠ TfReg.fp := (by decide : TfReg.tp ≠ .fp)
    have hfp₃ : GReg.t0 .loongarch ≠ TfReg.fp := (by decide : TfReg.t0 ≠ .fp)
    simp only [enterCode, clearFp, setPageTable, List.cons_append, List.nil_append, Cpu.run_cons,
      Cpu.exec, Cpu.run_nil, Function.update_of_ne ht0.symm, Function.update_of_ne hspne.symm,
      Function.update_of_ne htp.symm, Function.update_self, ha, hat0, hpt, hsp, htrap, hhart,
      Option.bind_eq_bind, Option.bind_some]
    refine ⟨_, rfl, ?_⟩
    constructor <;> simp only [Function.update_self, Function.update_of_ne h1,
      Function.update_of_ne h2, Function.update_of_ne h3, Function.update_of_ne h4,
      Function.update_of_ne h5, Function.update_of_ne h6,
      Function.update_of_ne hepc, Function.update_of_ne hfp₁, Function.update_of_ne hfp₂,
      Function.update_of_ne hfp₃]

/-- The memory after `uservec`. -/
def savedFrame (arch : Arch) (reg : GReg arch → BitVec 64) (f : Nat) (m : Mem) : Mem :=
  (SaveArea.saved (Function.update reg (.a0 arch) trapFrameVa) f (plainSlots arch) m).write
    (f + frameOffset arch (.a0 arch)) 8 (reg (.a0 arch)).toNat

theorem savedFrame_outside {reg : GReg arch → BitVec 64} {m : Mem} {x : Nat}
    (hx : x < f ∨ f + 4096 ≤ x) : savedFrame arch reg f m x = m x := by
  have hlt := @frameOffset_lt arch _ (mem_frameRegs arch (.a0 arch))
  unfold savedFrame
  rw [Mem.write_outside (by omega), SaveArea.saved_outside plainSlots_lt hx]

theorem savedFrame_reg (reg : GReg arch → BitVec 64) (m : Mem) (r : GReg arch) :
    (savedFrame arch reg f m).word (f + frameOffset arch r) = reg r := by
  unfold savedFrame
  by_cases hr : r = .a0 arch
  · rw [hr, Mem.word_write_same]
  · have hap := frameOffset_ne hr
    have hmem : (r, frameOffset arch r) ∈ plainSlots arch := plainSlots_mem.mpr ⟨hr, rfl⟩
    have hword := @SaveArea.saved_word _ m f (Function.update reg (.a0 arch) trapFrameVa)
      _ plainSlots_apart _ hmem
    rw [Mem.word_write_apart (by omega), hword, Function.update_of_ne hr]

theorem savedFrame_other (reg : GReg arch → BitVec 64) (m : Mem) {o : Nat}
    (ho : o ∈ otherOffsets arch) : (savedFrame arch reg f m).word (f + o) = m.word (f + o) := by
  have hap := @frameOffset_other arch _ (mem_frameRegs arch (.a0 arch)) _ ho
  unfold savedFrame
  rw [Mem.word_write_apart (by omega)]
  apply SaveArea.saved_apart
  intro p hp
  have := @frameOffset_other arch _ (mem_frameRegs arch p.1) _ ho
  rw [(plainSlots_mem.mp hp).2]
  omega

/-- `uservec` ends, with the registers in the frame. -/
theorem uservec_run (hs : s.csr .scratch = trapFrameVa)
    (hw : Window (mmuOf translate) s.csr s.mem trapFrameVa f 4096) :
    ∃ s', s.run (mmuOf translate) (uservec arch) = some s' ∧
      Enters arch (savedFrame arch s.reg f s.mem) f s s' := by
  have hpt : Csr.pageTable ≠ .scratch := by decide
  have hepc : Csr.epc ≠ .scratch := by decide
  have ha : Function.update s.reg (.a0 arch) (s.csr .scratch) (.a0 arch) = trapFrameVa := by
    rw [Function.update_self, hs]
  have hcsr : mmuOf translate (Function.update s.csr .scratch (s.reg (.a0 arch))) =
      mmuOf translate s.csr := by
    unfold mmuOf
    rw [Function.update_of_ne hpt]
  have hw₁ : Window (mmuOf translate) (Function.update s.csr .scratch (s.reg (.a0 arch))) s.mem
      (Function.update s.reg (.a0 arch) (s.csr .scratch) (.a0 arch)) f 4096 := by
    unfold Window
    rw [hcsr, ha]
    exact hw
  rw [uservec_eq, Cpu.run_cons, Cpu.exec, Option.bind_some, Cpu.run_append,
    SaveArea.run_stores hw₁ plainSlots_lt, Option.bind_some]
  rw [ha] at hw₁
  obtain ⟨s', hrun, h⟩ := enter_run (s := { s with
    reg := Function.update s.reg (.a0 arch) (s.csr .scratch)
    csr := Function.update s.csr .scratch (s.reg (.a0 arch))
    mem := SaveArea.saved (Function.update s.reg (.a0 arch) (s.csr .scratch)) f
      (plainSlots arch) s.mem }) ha
    (hw₁.congr fun x hx => SaveArea.saved_outside plainSlots_lt hx)
  refine ⟨s', hrun, ?_⟩
  have hmem : savedFrame arch s.reg f s.mem =
      (SaveArea.saved (Function.update s.reg (.a0 arch) (s.csr .scratch)) f
        (plainSlots arch) s.mem).write (f + frameOffset arch (.a0 arch)) 8
      (Function.update s.csr .scratch (s.reg (.a0 arch)) .scratch).toNat := by
    rw [savedFrame, hs, Function.update_self]
  rw [hmem]
  have hepc' := Function.update_of_ne hepc (s.reg (.a0 arch)) s.csr
  exact ⟨h.mem, h.epc.trans hepc', h.pageTable, h.sp, h.tp, h.pc⟩

/-! ### The return -/

/-- The processor after `userret`. -/
structure Leaves (arch : Arch) (f : Nat) (s s' : Cpu (GReg arch) Csr) : Prop where
  mem : s'.mem = s.mem
  reg : ∀ r, s'.reg r = s.mem.word (f + frameOffset arch r)
  pc : s'.pc = s.csr .epc
  scratch : s'.csr .scratch = trapFrameVa
  pageTable : s'.csr .pageTable = s.reg (.a1 arch)

/-- The first four instructions of `userret`: the page table of the program is on, and its `a0` is
in the control register. -/
theorem switch_run (ha : s.reg (.a0 arch) = trapFrameVa)
    (hw : Window (mmuOf translate) (Function.update s.csr .pageTable (s.reg (.a1 arch)))
      s.mem trapFrameVa f 4096) :
    ∃ s', s.run (mmuOf translate) [setPageTable arch (.a1 arch), .fence,
        .load (.t0 arch) (.a0 arch) (frameOffset arch (.a0 arch)),
        setScratch arch (.t0 arch)] = some s' ∧
      s'.mem = s.mem ∧ s'.reg (.a0 arch) = trapFrameVa ∧
      s'.csr .scratch = s.mem.word (f + frameOffset arch (.a0 arch)) ∧
      s'.csr .pageTable = s.reg (.a1 arch) ∧ s'.csr .epc = s.csr .epc := by
  have hat := hw.at (@frameOffset_lt arch _ (mem_frameRegs arch (.a0 arch)))
  have ht0 := (@GReg.a0_ne arch).1
  have hpt : Csr.pageTable ≠ .scratch := by decide
  have hepc : Csr.epc ≠ .scratch ∧ Csr.epc ≠ .pageTable := by decide
  cases arch with
  | riscv =>
    simp only [setPageTable, setScratch, Cpu.run_cons, Cpu.exec, Cpu.run_nil, ha, hat,
      Option.bind_eq_bind, Option.bind_some]
    refine ⟨_, rfl, rfl, ?_⟩
    simp only [Function.update_self, Function.update_of_ne ht0.symm, Function.update_of_ne hpt,
      Function.update_of_ne hepc.1, Function.update_of_ne hepc.2, ha, and_self]
  | loongarch =>
    have ha1 : GReg.a0 .loongarch ≠ .a1 .loongarch := (by decide : TfReg.a0 ≠ .a1)
    simp only [setPageTable, setScratch, Cpu.run_cons, Cpu.exec, Cpu.run_nil,
      Function.update_of_ne ha1, ha, hat, Option.bind_eq_bind, Option.bind_some]
    refine ⟨_, rfl, rfl, ?_⟩
    simp only [Function.update_self, Function.update_of_ne ht0.symm, Function.update_of_ne hpt,
      Function.update_of_ne hepc.1, Function.update_of_ne hepc.2, Function.update_of_ne ha1, ha,
      and_self]

/-- `userret` ends, with the registers of the frame. -/
theorem userret_run (ha : s.reg (.a0 arch) = trapFrameVa)
    (hw : Window (mmuOf translate) (Function.update s.csr .pageTable (s.reg (.a1 arch)))
      s.mem trapFrameVa f 4096) :
    ∃ s', s.run (mmuOf translate) (userret arch) = some s' ∧ Leaves arch f s s' := by
  obtain ⟨s₁, hrun, hmem, ha0, hscr, hpt, hepc⟩ := switch_run ha hw
  have hw₁ : Window (mmuOf translate) s₁.csr s₁.mem (s₁.reg (.a0 arch)) f 4096 := by
    have hcsr : mmuOf translate s₁.csr =
        mmuOf translate (Function.update s.csr .pageTable (s.reg (.a1 arch))) := by
      unfold mmuOf
      rw [hpt, Function.update_self]
    unfold Window
    rw [hcsr, hmem, ha0]
    exact hw
  have hbase : ∀ p ∈ plainSlots arch, p.1 = .a0 arch →
      s₁.mem.word (f + p.2) = s₁.reg (.a0 arch) :=
    fun p hp h => absurd h (plainSlots_mem.mp hp).1
  have hnot : GReg.a0 arch ∉ (plainSlots arch).map Prod.fst := by
    intro h
    obtain ⟨p, hp, hpa⟩ := List.mem_map.mp h
    exact (plainSlots_mem.mp hp).1 hpa
  rw [userret_eq, Cpu.run_append, hrun, Option.bind_some, Cpu.run_append,
    SaveArea.run_loads hw₁ plainSlots_lt hbase, Option.bind_some]
  refine ⟨_, rfl, hmem, ?_, ?_, ?_, ?_⟩
  · intro r
    simp only [hscr]
    by_cases hr : r = .a0 arch
    · rw [hr, Function.update_self]
    · have hin : (r, frameOffset arch r) ∈ plainSlots arch := plainSlots_mem.mpr ⟨hr, rfl⟩
      have hword := @SaveArea.loaded_word _ s₁.mem f _ _ plainSlots_nodup s₁.reg _ hin
      rw [Function.update_of_ne hr, hword, hmem]
  · simp only [Function.update_of_ne (by decide : Csr.epc ≠ .scratch), hepc]
  · simp only [Function.update_self, SaveArea.loaded_of_not_mem hnot, ha0]
  · simp only [Function.update_of_ne (by decide : Csr.pageTable ≠ .scratch), hpt]

end

end OsKernel.Hal

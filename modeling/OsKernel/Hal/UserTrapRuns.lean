import Mathlib.Logic.Relation
import OsKernel.Hal.UserTraps

/-! A processor that runs the programs in turn.  Each program has registers of its own; they are in
the processor while it runs, and in its trap frame while it does not. -/

namespace OsKernel.Hal

open Lib Hsai Mm

/-- The trap frames of the programs, and their page tables as in the register. -/
structure Frames (ι : Type) where
  frame : ι → Nat
  root : ι → BitVec 64
  apart : ∀ i j, i ≠ j → frame i + 4096 ≤ frame j ∨ frame j + 4096 ≤ frame i

/-- What the kernel leaves in the frame for the next trap. -/
structure KernelEntry where
  pageTable : BitVec 64
  sp : BitVec 64
  trap : BitVec 64
  hartid : BitVec 64

/-- The processor, the program that runs with what the kernel left for its trap, and the registers
of the programs. -/
structure TrapSys (arch : Arch) (ι : Type) where
  cpu : Cpu (GReg arch) Csr
  running : Option (ι × KernelEntry)
  regs : ι → UserRegs arch

section

variable {arch : Arch} {ι : Type}

namespace Frames

variable (F : Frames ι) (translate : BitVec 64 → Mem → BitVec 64 → Option Nat)

def Inside (x : Nat) : Prop := ∃ i, F.frame i ≤ x ∧ x < F.frame i + 4096

/-- Each page table maps its frame, whatever the frames contain. -/
def Mapped (m : Mem) : Prop :=
  ∀ i (m' : Mem), (∀ x, ¬ F.Inside x → m' x = m x) → ∀ off, off + 8 ≤ 4096 →
    translate (F.root i) m' (trapFrameVa + BitVec.ofNat 64 off) = some (F.frame i + off)

variable {F translate} {m m' : Mem}

theorem Mapped.congr (h : F.Mapped translate m) (hm : ∀ x, ¬ F.Inside x → m' x = m x) :
    F.Mapped translate m' :=
  fun i m₁ h₁ => h i m₁ fun x hx => (h₁ x hx).trans (hm x hx)

theorem Mapped.write (h : F.Mapped translate m) (i : ι) {off v : Nat} (hoff : off + 8 ≤ 4096) :
    F.Mapped translate (m.write (F.frame i + off) 8 v) := by
  refine h.congr fun x hx => Mem.write_outside ?_
  by_contra hin
  exact hx ⟨i, by omega, by omega⟩

theorem Mapped.window (h : F.Mapped translate m) {csr : Csr → BitVec 64} {i : ι}
    (hi : csr .pageTable = F.root i) :
      Window (mmuOf translate) csr m trapFrameVa (F.frame i) 4096 := by
  intro m' hm off hoff
  unfold mmuOf
  rw [hi]
  refine h i m' (fun x hx => hm x ?_) off hoff
  by_contra hin
  exact hx ⟨i, by omega, by omega⟩

end Frames

/-! ### The frame in memory -/

/-- The frame at `f` has what the kernel left. -/
structure FrameEnters (arch : Arch) (m : Mem) (f : Nat) (k : KernelEntry) : Prop where
  pageTable : m.word (f + (kernelOffsets arch).pageTable) = k.pageTable
  sp : m.word (f + (kernelOffsets arch).sp) = k.sp
  trap : m.word (f + (kernelOffsets arch).trap) = k.trap
  hartid : m.word (f + (kernelOffsets arch).hartid) = k.hartid

/-- The writes of `user_trap_ret` to the frame. -/
def leaveEntry (arch : Arch) (f : Nat) (k : KernelEntry) (m : Mem) : Mem :=
  (((m.write (f + (kernelOffsets arch).pageTable) 8 k.pageTable.toNat).write
    (f + (kernelOffsets arch).sp) 8 k.sp.toNat).write
    (f + (kernelOffsets arch).trap) 8 k.trap.toNat).write
    (f + (kernelOffsets arch).hartid) 8 k.hartid.toNat

theorem FrameHolds.congr {m m' : Mem} {f : Nat} {u : UserRegs arch} (h : FrameHolds arch m f u)
    (hm : ∀ x, f ≤ x → x < f + 4096 → m' x = m x) : FrameHolds arch m' f u := by
  have hword : ∀ o, o + 8 ≤ 4096 → m'.word (f + o) = m.word (f + o) :=
    fun o ho => Mem.word_congr fun x hlo hhi => hm x (by omega) (by omega)
  constructor
  · intro r
    rw [hword _ (frameOffset_lt r (mem_frameRegs arch r)), h.reg r]
  · rw [hword _ (@otherOffsets_lt arch _ (by simp [otherOffsets])), h.pc]

theorem FrameEnters.congr {m m' : Mem} {f : Nat} {k : KernelEntry} (h : FrameEnters arch m f k)
    (hm : ∀ x, f ≤ x → x < f + 4096 → m' x = m x) : FrameEnters arch m' f k := by
  have hword : ∀ o ∈ otherOffsets arch, m'.word (f + o) = m.word (f + o) := by
    intro o ho
    have := otherOffsets_lt o ho
    exact Mem.word_congr fun x hlo hhi => hm x (by omega) (by omega)
  constructor
  · rw [hword _ (by simp [otherOffsets]), h.pageTable]
  · rw [hword _ (by simp [otherOffsets]), h.sp]
  · rw [hword _ (by simp [otherOffsets]), h.trap]
  · rw [hword _ (by simp [otherOffsets]), h.hartid]

theorem leaveEntry_outside {f : Nat} {k : KernelEntry} {m : Mem} {x : Nat}
    (hx : ∀ o ∈ otherOffsets arch, x < f + o ∨ f + o + 8 ≤ x) :
      leaveEntry arch f k m x = m x := by
  unfold leaveEntry
  rw [Mem.write_outside (hx _ (by simp [otherOffsets])),
    Mem.write_outside (hx _ (by simp [otherOffsets])),
    Mem.write_outside (hx _ (by simp [otherOffsets])),
    Mem.write_outside (hx _ (by simp [otherOffsets]))]

theorem leaveEntry_apart {f : Nat} {k : KernelEntry} {m : Mem} {x : Nat}
    (hx : x < f ∨ f + 4096 ≤ x) : leaveEntry arch f k m x = m x := by
  refine leaveEntry_outside fun o ho => ?_
  have := otherOffsets_lt o ho
  omega

theorem FrameHolds.leave {m : Mem} {f : Nat} {u : UserRegs arch} (h : FrameHolds arch m f u)
    (k : KernelEntry) : FrameHolds arch (leaveEntry arch f k m) f u := by
  constructor
  · intro r
    rw [← h.reg r]
    unfold leaveEntry
    have hap := frameOffset_other r (mem_frameRegs arch r)
    have h₁ := hap (kernelOffsets arch).pageTable (by simp [otherOffsets])
    have h₂ := hap (kernelOffsets arch).sp (by simp [otherOffsets])
    have h₃ := hap (kernelOffsets arch).trap (by simp [otherOffsets])
    have h₄ := hap (kernelOffsets arch).hartid (by simp [otherOffsets])
    rw [Mem.word_write_apart (by omega), Mem.word_write_apart (by omega),
      Mem.word_write_apart (by omega), Mem.word_write_apart (by omega)]
  · rw [← h.pc]
    unfold leaveEntry
    have hap := @otherOffsets_apart arch
    simp only [otherOffsets, List.pairwise_cons, List.mem_cons, List.not_mem_nil, or_false,
      forall_eq_or_imp, forall_eq] at hap
    rw [Mem.word_write_apart (by omega), Mem.word_write_apart (by omega),
      Mem.word_write_apart (by omega), Mem.word_write_apart (by omega)]

theorem FrameEnters.leave (m : Mem) (f : Nat) (k : KernelEntry) :
    FrameEnters arch (leaveEntry arch f k m) f k := by
  have hap := @otherOffsets_apart arch
  simp only [otherOffsets, List.pairwise_cons, List.mem_cons, List.not_mem_nil, or_false,
    forall_eq_or_imp, forall_eq] at hap
  unfold leaveEntry
  constructor
  · rw [Mem.word_write_apart (by omega), Mem.word_write_apart (by omega),
      Mem.word_write_apart (by omega), Mem.word_write_same]
  · rw [Mem.word_write_apart (by omega), Mem.word_write_apart (by omega), Mem.word_write_same]
  · rw [Mem.word_write_apart (by omega), Mem.word_write_same]
  · rw [Mem.word_write_same]

/-! ### The runs -/

section

variable [DecidableEq ι] (F : Frames ι)
  (translate : BitVec 64 → Mem → BitVec 64 → Option Nat)

/-- The kernel has changed no register in a frame. -/
def FramesKept (arch : Arch) (m m' : Mem) : Prop :=
  ∀ i (u : UserRegs arch), FrameHolds arch m (F.frame i) u → FrameHolds arch m' (F.frame i) u

/-- The processor at the trap: the hardware keeps the pc. -/
def atTrap (c : Cpu (GReg arch) Csr) : Cpu (GReg arch) Csr :=
  { c with csr := Function.update c.csr .epc c.pc }

/-- `user_trap` up to the handler: it keeps the pc of the program in the frame. -/
def keepPc (f : Nat) (c : Cpu (GReg arch) Csr) : Cpu (GReg arch) Csr :=
  { c with mem := c.mem.write (f + arch.trapFrameEntry) 8 (c.csr .epc).toNat }

/-- `user_trap_ret` up to the call of `userret`. -/
def userTrapRet (f : Nat) (root : BitVec 64) (k : KernelEntry) (c : Cpu (GReg arch) Csr) :
    Cpu (GReg arch) Csr :=
  let m := leaveEntry arch f k c.mem
  { c with
    reg := Function.update (Function.update c.reg (.a0 arch) trapFrameVa) (.a1 arch) root
    csr := Function.update c.csr .epc (m.word (f + arch.trapFrameEntry))
    mem := m }

inductive TrapStep : TrapSys arch ι → TrapSys arch ι → Prop
  /-- A program computes: it reaches neither a frame nor the control registers. -/
  | user {s : TrapSys arch ι} {i k m'} (u : UserRegs arch) (hrun : s.running = some (i, k))
      (hm : ∀ x, F.Inside x → m' x = s.cpu.mem x) (hmap : F.Mapped translate m') :
      TrapStep s
        { s with
          cpu := { s.cpu with reg := u.reg, pc := u.pc, mem := m' }
          regs := Function.update s.regs i u }
  | trap {s : TrapSys arch ι} {i k cpu'} (hrun : s.running = some (i, k))
      (huser : (atTrap s.cpu).run (mmuOf translate) (uservec arch) = some cpu') :
      TrapStep s { s with cpu := keepPc (F.frame i) cpu', running := none }
  /-- The kernel works, and it may go on with another thread. -/
  | kernel {s : TrapSys arch ι} {cpu'} (hrun : s.running = none)
      (hm : FramesKept F arch s.cpu.mem cpu'.mem) (hmap : F.Mapped translate cpu'.mem) :
      TrapStep s { s with cpu := cpu' }
  /-- The kernel gives a program new registers, such as the value that a call returns. -/
  | setRegs {s : TrapSys arch ι} {cpu'} (i : ι) (u : UserRegs arch) (hrun : s.running = none)
      (hi : FrameHolds arch cpu'.mem (F.frame i) u)
        (hm : ∀ x, x < F.frame i ∨ F.frame i + 4096 ≤ x →
        cpu'.mem x = s.cpu.mem x) :
      TrapStep s { s with cpu := cpu', regs := Function.update s.regs i u }
  | ret {s : TrapSys arch ι} {cpu'} (i : ι) (k : KernelEntry) (hrun : s.running = none)
      (huser : (userTrapRet (F.frame i) (F.root i) k s.cpu).run (mmuOf translate) (userret arch) =
        some cpu') :
      TrapStep s { s with cpu := cpu', running := some (i, k) }

/-- The registers of each program are in its frame, except those of the program that runs. -/
structure TrapInv (s : TrapSys arch ι) : Prop where
  mapped : F.Mapped translate s.cpu.mem
  idle : ∀ i, (∀ k, s.running ≠ some (i, k)) →
    FrameHolds arch s.cpu.mem (F.frame i) (s.regs i)
  reg : ∀ {i k}, s.running = some (i, k) → s.cpu.reg = (s.regs i).reg
  pc : ∀ {i k}, s.running = some (i, k) → s.cpu.pc = (s.regs i).pc
  scratch : ∀ {i k}, s.running = some (i, k) → s.cpu.csr .scratch = trapFrameVa
  root : ∀ {i k}, s.running = some (i, k) → s.cpu.csr .pageTable = F.root i
  entry : ∀ {i k}, s.running = some (i, k) → FrameEnters arch s.cpu.mem (F.frame i) k

variable {F translate} {s s' : TrapSys arch ι}

omit [DecidableEq ι] in
theorem Frames.apart_of_inside {i j : ι} (hne : i ≠ j) {x : Nat} (hlo : F.frame i ≤ x)
    (hhi : x < F.frame i + 4096) : x < F.frame j ∨ F.frame j + 4096 ≤ x := by
  have := F.apart i j hne
  omega

omit [DecidableEq ι] in
/-- A trap of the program that runs ends in the kernel, with its registers in its frame. -/
theorem TrapInv.trap_run (h : TrapInv F translate s) {i : ι} {k : KernelEntry}
    (hrun : s.running = some (i, k)) : ∃ cpu',
      (atTrap s.cpu).run (mmuOf translate) (uservec arch) = some cpu' ∧
      Enters arch (savedFrame arch (s.regs i).reg (F.frame i) s.cpu.mem) (F.frame i)
        (atTrap s.cpu) cpu' := by
  have hscr : (atTrap s.cpu).csr .scratch = trapFrameVa := by
    simp only [atTrap, Function.update_of_ne (by decide : Csr.scratch ≠ .epc), h.scratch hrun]
  have hroot : (atTrap s.cpu).csr .pageTable = F.root i := by
    simp only [atTrap, Function.update_of_ne (by decide : Csr.pageTable ≠ .epc), h.root hrun]
  have hw :
      Window (mmuOf translate) (atTrap s.cpu).csr (atTrap s.cpu).mem trapFrameVa (F.frame i) 4096 :=
    h.mapped.window hroot
  obtain ⟨cpu', huser, henters⟩ := uservec_run hscr hw
  rw [← h.reg hrun]
  exact ⟨cpu', huser, henters⟩

omit [DecidableEq ι] in
/-- The kernel can return to each program. -/
theorem TrapInv.ret_run (h : TrapInv F translate s) (i : ι) (k : KernelEntry) :
    ∃ cpu', (userTrapRet (F.frame i) (F.root i) k s.cpu).run (mmuOf translate) (userret arch) =
      some cpu' ∧ Leaves arch (F.frame i) (userTrapRet (F.frame i) (F.root i) k s.cpu) cpu' := by
  have hne : GReg.a0 arch ≠ .a1 arch := by
    cases arch with
    | riscv => exact (by decide : XReg.a0 ≠ .a1)
    | loongarch => exact (by decide : TfReg.a0 ≠ .a1)
  have ha : (userTrapRet (F.frame i) (F.root i) k s.cpu).reg (.a0 arch) = trapFrameVa := by
    simp only [userTrapRet, Function.update_of_ne hne, Function.update_self]
  have hmap : F.Mapped translate (leaveEntry arch (F.frame i) k s.cpu.mem) := by
    refine h.mapped.congr fun x hx => leaveEntry_apart ?_
    by_contra hin
    exact hx ⟨i, by omega, by omega⟩
  refine userret_run ha (hmap.window ?_)
  simp only [userTrapRet, Function.update_self]

/-! ### The steps keep the invariant -/

omit [DecidableEq ι] in
theorem TrapInv.start (hidle : s.running = none) (hmap : F.Mapped translate s.cpu.mem)
    (hregs : ∀ i, FrameHolds arch s.cpu.mem (F.frame i) (s.regs i)) : TrapInv F translate s := by
  have hno : ∀ {i k}, s.running ≠ some (i, k) :=
    fun hi => Option.some_ne_none _ (hi.symm.trans hidle)
  constructor
  · exact hmap
  · exact fun i _ => hregs i
  all_goals exact fun hi => absurd hi hno

theorem TrapInv.user (h : TrapInv F translate s) {i : ι} {k : KernelEntry}
    (hrun : s.running = some (i, k)) (u : UserRegs arch) {m' : Mem}
    (hm : ∀ x, F.Inside x → m' x = s.cpu.mem x) (hmap : F.Mapped translate m') :
    TrapInv F translate { s with
      cpu := { s.cpu with reg := u.reg, pc := u.pc, mem := m' }
      regs := Function.update s.regs i u } := by
  have hsame : ∀ {j k'}, s.running = some (j, k') → Function.update s.regs i u j = u := by
    intro j k' hj
    obtain ⟨rfl, -⟩ : i = j ∧ k = k' := by simpa using hrun.symm.trans hj
    exact Function.update_self ..
  have hframe : ∀ j x, F.frame j ≤ x → x < F.frame j + 4096 → m' x = s.cpu.mem x :=
    fun j x hlo hhi => hm x ⟨j, hlo, hhi⟩
  constructor
  · exact hmap
  · intro j hj
    have hne : j ≠ i := fun hij => hj k (hij ▸ hrun)
    simp only [Function.update_of_ne hne]
    exact (h.idle j hj).congr (hframe j)
  · intro j k' hj
    simp only [hsame hj]
  · intro j k' hj
    simp only [hsame hj]
  · exact h.scratch
  · exact h.root
  · intro j k' hj
    exact (h.entry hj).congr (hframe j)

theorem TrapInv.trap (h : TrapInv F translate s) {i : ι} {k : KernelEntry}
    (hrun : s.running = some (i, k))
    {cpu' : Cpu (GReg arch) Csr}
    (huser : (atTrap s.cpu).run (mmuOf translate) (uservec arch) = some cpu') :
    TrapInv F translate { s with cpu := keepPc (F.frame i) cpu', running := none } := by
  obtain ⟨cpu₁, huser₁, henters⟩ := h.trap_run hrun
  obtain rfl : cpu₁ = cpu' := Option.some.inj (huser₁.symm.trans huser)
  have hentry : arch.trapFrameEntry ∈ otherOffsets arch := by simp [otherOffsets]
  have hlt := otherOffsets_lt _ hentry
  have hepc : cpu₁.csr .epc = (s.regs i).pc := by
    rw [henters.epc, ← h.pc hrun]
    simp only [atTrap, Function.update_self]
  have hout : ∀ x, x < F.frame i ∨ F.frame i + 4096 ≤ x →
      (keepPc (F.frame i) cpu₁).mem x = s.cpu.mem x := by
    intro x hx
    simp only [keepPc]
    rw [Mem.write_outside (by omega), henters.mem, savedFrame_outside hx]
  constructor
  · refine h.mapped.congr fun x hx => hout x ?_
    by_contra hin
    exact hx ⟨i, by omega, by omega⟩
  · intro j _
    by_cases hij : j = i
    · -- The stores of `uservec`, and then that of the pc.
      rw [hij]
      constructor
      · intro r
        have hap := frameOffset_other r (mem_frameRegs arch r) _ hentry
        simp only [keepPc]
        rw [Mem.word_write_apart (by omega), henters.mem, savedFrame_reg]
      · simp only [keepPc]
        rw [Mem.word_write_same, hepc]
    · refine (h.idle j fun k' hj => hij ?_).congr fun x hlo hhi =>
        hout x (Frames.apart_of_inside hij hlo hhi)
      exact (by simpa using hrun.symm.trans hj : i = j ∧ k = k').1.symm
  all_goals exact fun hj => absurd hj (Option.some_ne_none _).symm

omit [DecidableEq ι] in
theorem TrapInv.kernel (h : TrapInv F translate s) (hrun : s.running = none)
    {cpu' : Cpu (GReg arch) Csr} (hm : FramesKept F arch s.cpu.mem cpu'.mem)
    (hmap : F.Mapped translate cpu'.mem) :
    TrapInv F translate { s with cpu := cpu' } := by
  have hno : ∀ {i k}, s.running ≠ some (i, k) :=
    fun hi => Option.some_ne_none _ (hi.symm.trans hrun)
  constructor
  · exact hmap
  · exact fun i hi => hm i _ (h.idle i hi)
  all_goals exact fun hi => absurd hi hno

theorem TrapInv.setRegs (h : TrapInv F translate s) (hrun : s.running = none) {i : ι}
    {u : UserRegs arch}
    {cpu' : Cpu (GReg arch) Csr} (hi : FrameHolds arch cpu'.mem (F.frame i) u)
    (hm : ∀ x, x < F.frame i ∨ F.frame i + 4096 ≤ x → cpu'.mem x = s.cpu.mem x) :
    TrapInv F translate { s with cpu := cpu', regs := Function.update s.regs i u } := by
  have hno : ∀ {i k}, s.running ≠ some (i, k) :=
    fun hi => Option.some_ne_none _ (hi.symm.trans hrun)
  constructor
  · refine h.mapped.congr fun x hx => hm x ?_
    by_contra hin
    exact hx ⟨i, by omega, by omega⟩
  · intro j hj
    by_cases hij : j = i
    · simp only [hij, Function.update_self]
      exact hi
    · simp only [Function.update_of_ne hij]
      exact (h.idle j hj).congr fun x hlo hhi => hm x (Frames.apart_of_inside hij hlo hhi)
  all_goals exact fun hi => absurd hi hno

omit [DecidableEq ι] in
theorem TrapInv.ret (h : TrapInv F translate s) (hrun : s.running = none) {i : ι} {k : KernelEntry}
    {cpu' : Cpu (GReg arch) Csr}
    (huser : (userTrapRet (F.frame i) (F.root i) k s.cpu).run (mmuOf translate) (userret arch) =
      some cpu') :
    TrapInv F translate { s with cpu := cpu', running := some (i, k) } := by
  obtain ⟨cpu₁, huser₁, hleaves⟩ := h.ret_run i k
  obtain rfl : cpu₁ = cpu' := Option.some.inj (huser₁.symm.trans huser)
  have hmem : cpu₁.mem = leaveEntry arch (F.frame i) k s.cpu.mem := hleaves.mem
  have hidle := (h.idle i fun k' hi => Option.some_ne_none _ (hi.symm.trans hrun)).leave k
  constructor
  · simp only [hmem]
    refine h.mapped.congr fun x hx => leaveEntry_apart ?_
    by_contra hin
    exact hx ⟨i, by omega, by omega⟩
  · intro j hj
    have hij : j ≠ i := fun hij => hj k (hij ▸ rfl)
    have hold := h.idle j fun k' hj' => Option.some_ne_none _ (hj'.symm.trans hrun)
    simp only [hmem]
    exact hold.congr fun x hlo hhi => leaveEntry_apart (Frames.apart_of_inside hij hlo hhi)
  all_goals
    intro j k' hj
    obtain ⟨rfl, rfl⟩ : i = j ∧ k = k' := by simpa using hj
  · funext r
    rw [hleaves.reg r, ← hidle.reg r]
    rfl
  · rw [hleaves.pc, ← hidle.pc]
    simp only [userTrapRet, Function.update_self]
  · exact hleaves.scratch
  · rw [hleaves.pageTable]
    simp only [userTrapRet, Function.update_self]
  · rw [hmem]
    exact FrameEnters.leave _ _ _

theorem TrapInv.step (h : TrapInv F translate s) (hstep : TrapStep F translate s s') :
    TrapInv F translate s' := by
  cases hstep with
  | user u hrun hm hmap => exact h.user hrun u hm hmap
  | trap hrun huser => exact h.trap hrun huser
  | kernel hrun hm hmap => exact h.kernel hrun hm hmap
  | setRegs i u hrun hi hm => exact h.setRegs hrun hi hm
  | ret i k hrun huser => exact h.ret hrun huser

theorem TrapInv.run (h : TrapInv F translate s)
    (hrun : Relation.ReflTransGen (TrapStep F translate) s s') :
    TrapInv F translate s' := by
  induction hrun with
  | refl => exact h
  | tail _ hstep ih => exact ih.step hstep

/-- What holds of a processor in the middle of a run: a program that runs has its registers, and a
trap takes it to the handler, on the stack and with the page table that the kernel left; the kernel
can return to any program, which then has its registers. -/
structure TrapSafe (F : Frames ι) (translate : BitVec 64 → Mem → BitVec 64 → Option Nat)
    (s : TrapSys arch ι) : Prop where
  user : ∀ {i k}, s.running = some (i, k) → s.cpu.reg = (s.regs i).reg ∧
    s.cpu.pc = (s.regs i).pc
  trap : ∀ {i k}, s.running = some (i, k) →
    ∃ cpu', (atTrap s.cpu).run (mmuOf translate) (uservec arch) = some cpu' ∧
      cpu'.reg (.sp arch) = k.sp ∧ cpu'.reg (.tp arch) = k.hartid ∧
      cpu'.csr .pageTable = k.pageTable ∧ cpu'.pc = k.trap
  ret : s.running = none → ∀ i k,
    ∃ cpu', (userTrapRet (F.frame i) (F.root i) k s.cpu).run (mmuOf translate) (userret arch) =
      some cpu' ∧ cpu'.reg = (s.regs i).reg ∧ cpu'.pc = (s.regs i).pc ∧
      cpu'.csr .pageTable = F.root i

omit [DecidableEq ι] in
theorem TrapInv.safe (h : TrapInv F translate s) : TrapSafe F translate s where
  user hrun := ⟨h.reg hrun, h.pc hrun⟩
  trap {i k} hrun := by
    obtain ⟨cpu', huser, henters⟩ := h.trap_run hrun
    have hentry := h.entry hrun
    refine ⟨cpu', huser, ?_, ?_, ?_, ?_⟩
    · rw [henters.sp, savedFrame_other _ _ (by simp [otherOffsets]), hentry.sp]
    · rw [henters.tp, savedFrame_other _ _ (by simp [otherOffsets]), hentry.hartid]
    · rw [henters.pageTable, savedFrame_other _ _ (by simp [otherOffsets]), hentry.pageTable]
    · rw [henters.pc, savedFrame_other _ _ (by simp [otherOffsets]), hentry.trap]
  ret hrun i k := by
    obtain ⟨cpu', huser, -⟩ := h.ret_run i k
    have h' := h.ret hrun huser
    exact ⟨cpu', huser, h'.reg rfl, h'.pc rfl, h'.root rfl⟩

/-- In every run of the programs and the kernel, from a processor in the kernel with the registers
of the programs in their frames. -/
theorem traps_keep_registers (hidle : s.running = none) (hmap : F.Mapped translate s.cpu.mem)
    (hregs : ∀ i, FrameHolds arch s.cpu.mem (F.frame i) (s.regs i))
    (hrun : Relation.ReflTransGen (TrapStep F translate) s s') : TrapSafe F translate s' := by
  exact ((TrapInv.start hidle hmap hregs).run hrun).safe

end

end

/-! ### A sample: two programs with a page each -/

def sampleFrames : Frames Bool where
  frame i := if i then 8192 else 4096
  root i := if i then 8192 else 4096
  apart i j hne := by
    cases i <;> cases j
    · exact absurd rfl hne
    · exact .inl (Nat.le_refl _)
    · exact .inr (Nat.le_refl _)
    · exact absurd rfl hne

/-- The page table maps the trap frame at the address that is in the register. -/
def sampleTranslate (root : BitVec 64) (_ : Mem) (va : BitVec 64) : Option Nat :=
  some (root.toNat + (va - trapFrameVa).toNat)

theorem sampleFrames_mapped (m : Mem) : sampleFrames.Mapped sampleTranslate m := by
  intro i _ _ off hoff
  have hsub : trapFrameVa + BitVec.ofNat 64 off - trapFrameVa = BitVec.ofNat 64 off := by
    rw [BitVec.add_comm, BitVec.add_sub_cancel]
  have hoff64 : (BitVec.ofNat 64 off).toNat = off := by
    rw [BitVec.toNat_ofNat, Nat.mod_eq_of_lt (by omega)]
  rw [sampleTranslate, hsub, hoff64]
  cases i with
  | false => rfl
  | true => rfl

/-- The kernel, with a value of its own in each register of a program. -/
def sampleTrapSys : TrapSys .riscv Bool :=
  let mem : Mem := fun x => UInt8.ofNat (x / 8 + x / 4096)
  { cpu := ⟨fun _ => 17, fun _ => 0, 0, mem⟩
    running := none
    regs i :=
      ⟨fun r => mem.word (sampleFrames.frame i + frameOffset .riscv r),
        mem.word (sampleFrames.frame i + Arch.riscv.trapFrameEntry)⟩ }

theorem sampleTrapSys_regs (i : Bool) :
    FrameHolds .riscv sampleTrapSys.cpu.mem (sampleFrames.frame i) (sampleTrapSys.regs i) where
  reg _ := rfl
  pc := rfl

/-- The registers that the second program computes. -/
def sampleUserRegs : UserRegs .riscv :=
  ⟨fun r => BitVec.ofNat 64 (Riscv.frameOffset r + 2 ^ 63), 0x1234⟩

/-- The second program computes and traps, the first one runs, and the second one gets its registers
back. -/
theorem traps_keep_registers_return : ∃ s' : TrapSys .riscv Bool,
    s'.running = some (true, ⟨9, 10, 11, 12⟩) ∧ s'.cpu.reg = sampleUserRegs.reg ∧
      s'.cpu.pc = 0x1234 ∧ TrapSafe sampleFrames sampleTranslate s' := by
  have hmap := sampleFrames_mapped sampleTrapSys.cpu.mem
  have I₀ := TrapInv.start rfl hmap sampleTrapSys_regs
  obtain ⟨c₁, h₁, -⟩ := I₀.ret_run true ⟨1, 2, 3, 4⟩
  have I₁ := I₀.ret rfl h₁
  -- the program also writes to its memory
  have hown : ∀ x, sampleFrames.Inside x → Function.update c₁.mem 100 1 x = c₁.mem x := by
    rintro x ⟨i, hlo, -⟩
    refine Function.update_of_ne ?_ _ _
    cases i
    · change 4096 ≤ x at hlo
      omega
    · change 8192 ≤ x at hlo
      omega
  have I₂ := I₁.user rfl sampleUserRegs hown (sampleFrames_mapped _)
  obtain ⟨c₃, h₃, -⟩ := I₂.trap_run rfl
  have I₃ := I₂.trap rfl h₃
  obtain ⟨c₄, h₄, -⟩ := I₃.ret_run false ⟨5, 6, 7, 8⟩
  have I₄ := I₃.ret rfl h₄
  obtain ⟨c₅, h₅, -⟩ := I₄.trap_run rfl
  have I₅ := I₄.trap rfl h₅
  obtain ⟨c₆, h₆, -⟩ := I₅.ret_run true ⟨9, 10, 11, 12⟩
  have hrun := Relation.ReflTransGen.refl.tail (TrapStep.ret (s := sampleTrapSys) true _ rfl h₁)
    |>.tail (.user sampleUserRegs rfl hown (sampleFrames_mapped _))
    |>.tail (.trap rfl h₃) |>.tail (.ret false _ rfl h₄) |>.tail (.trap rfl h₅)
    |>.tail (.ret true _ rfl h₆)
  have S := traps_keep_registers rfl hmap sampleTrapSys_regs hrun
  obtain ⟨hreg, hpc⟩ := S.user rfl
  exact ⟨_, rfl, hreg, hpc, S⟩

end OsKernel.Hal

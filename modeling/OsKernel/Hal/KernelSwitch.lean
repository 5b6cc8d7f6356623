import Mathlib.Logic.Relation
import OsKernel.Hal.TrapCode

/-! `swtch`: the registers of the thread that stops are in its context, and the processor has those
in the context of the thread that goes on.  In every run of the threads each has its own registers
when it goes on. -/

namespace OsKernel.Hal

open Lib Hsai

/-- The places of the registers in a `Context`. -/
def contextSlots : (arch : Arch) → List (GReg arch × Nat)
  | .riscv =>
    [(XReg.ra, 0), (XReg.sp, 8), (XReg.s0, 16), (XReg.s1, 24), (XReg.s2, 32), (XReg.s3, 40),
      (XReg.s4, 48), (XReg.s5, 56), (XReg.s6, 64), (XReg.s7, 72), (XReg.s8, 80), (XReg.s9, 88),
      (XReg.s10, 96), (XReg.s11, 104)]
  | .loongarch =>
    [(TfReg.ra, 0), (TfReg.sp, 8), (TfReg.s0, 16), (TfReg.s1, 24), (TfReg.s2, 32), (TfReg.s3, 40),
      (TfReg.s4, 48), (TfReg.s5, 56), (TfReg.s6, 64), (TfReg.s7, 72), (TfReg.s8, 80),
      (TfReg.fp, 88)]

def contextSize : Arch → Nat
  | .riscv => 112
  | .loongarch => 96

namespace GReg

def ra : (arch : Arch) → GReg arch
  | .riscv => XReg.ra
  | .loongarch => TfReg.ra

end GReg

section

variable {arch : Arch}

theorem swtch_eq (arch : Arch) :
    swtch arch = (contextSlots arch).map (fun p => .store p.1 (.a0 arch) p.2) ++
    ((contextSlots arch).map (fun p => .load p.1 (.a1 arch) p.2) ++ [.jump (.ra arch)]) := by
  cases arch with
  | riscv => rfl
  | loongarch => rfl

theorem contextSlots_nodup : ((contextSlots arch).map Prod.fst).Nodup := by
  cases arch with
  | riscv => exact (by decide : ((contextSlots .riscv).map (Prod.fst : XReg × Nat → XReg)).Nodup)
  | loongarch =>
    exact (by decide : ((contextSlots .loongarch).map (Prod.fst : TfReg × Nat → TfReg)).Nodup)

theorem contextSlots_apart : (contextSlots arch).Pairwise fun p q => p.2 + 8 ≤ q.2 ∨
    q.2 + 8 ≤ p.2 := by
  cases arch with
  | riscv => decide
  | loongarch => decide

theorem contextSlots_lt : ∀ p ∈ contextSlots arch, p.2 + 8 ≤ contextSize arch := by
  cases arch with
  | riscv => decide
  | loongarch => decide

theorem contextSlots_ne : ∀ p ∈ contextSlots arch, p.1 ≠ .a1 arch := by
  cases arch with
  | riscv => decide
  | loongarch => decide

theorem ra_mem_contextSlots : (GReg.ra arch, 0) ∈ contextSlots arch := by
  cases arch with
  | riscv => exact List.mem_cons_self
  | loongarch => exact List.mem_cons_self

variable {mmu : Mmu Csr} {s : Cpu (GReg arch) Csr} {old new : Nat}

/-- The processor after `swtch`, with the contexts at `old` and `new`. -/
structure Switched (arch : Arch) (old new : Nat) (s s' : Cpu (GReg arch) Csr) : Prop where
  saved : ∀ p ∈ contextSlots arch, s'.mem.word (old + p.2) = s.reg p.1
  outside : ∀ x, x < old ∨ old + contextSize arch ≤ x → s'.mem x = s.mem x
  loaded : ∀ p ∈ contextSlots arch, s'.reg p.1 = s.mem.word (new + p.2)
  kept : ∀ r, r ∉ (contextSlots arch).map Prod.fst → s'.reg r = s.reg r
  pc : s'.pc = s.mem.word new
  csr : s'.csr = s.csr

/-- `swtch` between two contexts that do not overlap. -/
theorem swtch_run (hold : Window mmu s.csr s.mem (s.reg (.a0 arch)) old (contextSize arch))
    (hnew : ∀ m', (∀ x, x < old ∨ old + contextSize arch ≤ x → m' x = s.mem x) →
      Window mmu s.csr m' (s.reg (.a1 arch)) new (contextSize arch))
    (hap : old + contextSize arch ≤ new ∨ new + contextSize arch ≤ old) :
    ∃ s', s.run mmu (swtch arch) = some s' ∧ Switched arch old new s s' := by
  have hout : ∀ x, x < old ∨ old + contextSize arch ≤ x →
      SaveArea.saved s.reg old (contextSlots arch) s.mem x = s.mem x :=
    fun x hx => SaveArea.saved_outside contextSlots_lt hx
  have hword : ∀ p ∈ contextSlots arch,
      (SaveArea.saved s.reg old (contextSlots arch) s.mem).word (new + p.2) =
        s.mem.word (new + p.2) := by
    intro p hp
    have := contextSlots_lt p hp
    exact Mem.word_congr fun x hlo hhi => hout x (by omega)
  have hload : ∀ p ∈ contextSlots arch,
      SaveArea.loaded (SaveArea.saved s.reg old (contextSlots arch) s.mem) new (contextSlots arch)
        s.reg p.1 = s.mem.word (new + p.2) := by
    intro p hp
    rw [SaveArea.loaded_word contextSlots_nodup hp, hword p hp]
  rw [swtch_eq, Cpu.run_append, SaveArea.run_stores hold contextSlots_lt, Option.bind_some,
    Cpu.run_append]
  have hw₁ := hnew _ hout
  rw [SaveArea.run_loads (s := { s with mem := SaveArea.saved s.reg old (contextSlots arch) s.mem })
    hw₁ contextSlots_lt (fun p hp h => absurd h (contextSlots_ne p hp)), Option.bind_some]
  refine ⟨_, rfl, ?_, hout, hload, ?_, hload _ ra_mem_contextSlots, rfl⟩
  · exact fun p hp => SaveArea.saved_word contextSlots_apart hp
  · exact fun r hr => SaveArea.loaded_of_not_mem hr

end

/-! ### The threads of a processor -/

/-- The general registers that a function keeps for its caller, and the address at which
it returns. -/
def calleeSaved : (arch : Arch) → List (GReg arch)
  | .riscv =>
    [XReg.ra, XReg.sp, XReg.s0, XReg.s1, XReg.s2, XReg.s3, XReg.s4, XReg.s5, XReg.s6, XReg.s7,
      XReg.s8, XReg.s9, XReg.s10, XReg.s11]
  | .loongarch =>
    [TfReg.ra, TfReg.sp, TfReg.s0, TfReg.s1, TfReg.s2, TfReg.s3, TfReg.s4, TfReg.s5, TfReg.s6,
      TfReg.s7, TfReg.s8, TfReg.fp]

theorem contextSlots_saved (arch : Arch) : (contextSlots arch).map Prod.fst = calleeSaved arch := by
  cases arch with
  | riscv => rfl
  | loongarch => rfl

/-- The contexts of the threads, and their addresses for the kernel. -/
structure Contexts (arch : Arch) (ι : Type) where
  place : ι → Nat
  va : ι → BitVec 64
  apart : ∀ i j, i ≠ j →
    place i + contextSize arch ≤ place j ∨ place j + contextSize arch ≤ place i

/-- The processor and the thread that runs.  `regs` is history: the registers with which each other
thread has called `swtch`, or which the kernel has given it. -/
structure KernelThreads (arch : Arch) (ι : Type) where
  cpu : Cpu (GReg arch) Csr
  current : ι
  regs : ι → GReg arch → BitVec 64

/-- The context at `f` has the registers. -/
def ContextHolds (arch : Arch) (m : Mem) (f : Nat) (u : GReg arch → BitVec 64) : Prop :=
  ∀ p ∈ contextSlots arch, m.word (f + p.2) = u p.1

section

variable {arch : Arch} {ι : Type}

theorem ContextHolds.congr {m m' : Mem} {f : Nat} {u : GReg arch → BitVec 64}
    (h : ContextHolds arch m f u)
    (hm : ∀ x, f ≤ x → x < f + contextSize arch → m' x = m x) :
    ContextHolds arch m' f u := by
  intro p hp
  have hlt := contextSlots_lt p hp
  rw [← h p hp]
  exact Mem.word_congr fun x hlo hhi => hm x (by omega) (by omega)

namespace Contexts

variable (K : Contexts arch ι) (mmu : Mmu Csr)

def Inside (x : Nat) : Prop := ∃ i, K.place i ≤ x ∧ x < K.place i + contextSize arch

/-- The contexts are at their addresses, whatever they contain. -/
def Mapped (csr : Csr → BitVec 64) (m : Mem) : Prop :=
  ∀ i (m' : Mem), (∀ x, ¬K.Inside x → m' x = m x) → ∀ off,
    off + 8 ≤ contextSize arch → mmu csr m' (K.va i + BitVec.ofNat 64 off) =
    some (K.place i + off)

variable {K mmu} {csr : Csr → BitVec 64} {m m' : Mem}

theorem Mapped.congr (h : K.Mapped mmu csr m) (hm : ∀ x, ¬K.Inside x → m' x = m x) :
    K.Mapped mmu csr m' :=
  fun i m₁ h₁ => h i m₁ fun x hx => (h₁ x hx).trans (hm x hx)

theorem Mapped.window (h : K.Mapped mmu csr m) (i : ι) :
    Window mmu csr m (K.va i) (K.place i) (contextSize arch) := by
  intro m' hm off hoff
  refine h i m' (fun x hx => hm x ?_) off hoff
  by_contra hin
  exact hx ⟨i, by omega, by omega⟩

end Contexts

variable [DecidableEq ι] (K : Contexts arch ι) (mmu : Mmu Csr)

/-- A thread of the kernel works, which keeps the contexts of the others; the kernel prepares the
context of a thread; or the thread that runs switches to another one. -/
inductive SwitchStep : KernelThreads arch ι → KernelThreads arch ι → Prop
  | work {s : KernelThreads arch ι} {cpu'}
        (hm : ∀ i, i ≠ s.current → ∀ x, K.place i ≤ x →
        x < K.place i + contextSize arch → cpu'.mem x = s.cpu.mem x)
      (hmap : K.Mapped mmu cpu'.csr cpu'.mem) : SwitchStep s { s with cpu := cpu' }
  | prepare {s : KernelThreads arch ι} {m'} (i : ι) (u : GReg arch → BitVec 64)
      (hne : i ≠ s.current) (hi : ContextHolds arch m' (K.place i) u)
      (hm : ∀ x, x < K.place i ∨ K.place i + contextSize arch ≤ x → m' x = s.cpu.mem x) :
      SwitchStep s { s with cpu := { s.cpu with mem := m' }, regs := Function.update s.regs i u }
  | switch {s : KernelThreads arch ι} {cpu'} (i : ι) (hne : i ≠ s.current)
      (hold : s.cpu.reg (.a0 arch) = K.va s.current) (hnew : s.cpu.reg (.a1 arch) = K.va i)
      (hrun : s.cpu.run mmu (swtch arch) = some cpu') :
      SwitchStep s ⟨cpu', i, Function.update s.regs s.current s.cpu.reg⟩

/-- The registers of each thread that does not run are in its context. -/
structure SwitchInv (s : KernelThreads arch ι) : Prop where
  mapped : K.Mapped mmu s.cpu.csr s.cpu.mem
  held : ∀ i, i ≠ s.current → ContextHolds arch s.cpu.mem (K.place i) (s.regs i)

/-- `swtch` to another thread does not fault, and the thread goes on where it has called `swtch`,
with the registers that the call keeps; the other registers and the rest of the memory stay. -/
def SwitchSafe (s : KernelThreads arch ι) : Prop :=
  ∀ i, i ≠ s.current → s.cpu.reg (.a0 arch) = K.va s.current →
    s.cpu.reg (.a1 arch) = K.va i → ∃ cpu', s.cpu.run mmu (swtch arch) = some cpu' ∧
      (∀ r ∈ calleeSaved arch, cpu'.reg r = s.regs i r) ∧ cpu'.pc = s.regs i (.ra arch) ∧
      (∀ r, r ∉ calleeSaved arch → cpu'.reg r = s.cpu.reg r) ∧ cpu'.csr = s.cpu.csr ∧
      ∀ x, ¬K.Inside x → cpu'.mem x = s.cpu.mem x

variable {K mmu} {s s' : KernelThreads arch ι}

omit [DecidableEq ι] in
theorem SwitchInv.switched (h : SwitchInv K mmu s) {i : ι} (hne : i ≠ s.current)
    (hold : s.cpu.reg (.a0 arch) = K.va s.current) (hnew : s.cpu.reg (.a1 arch) = K.va i) :
    ∃ cpu', s.cpu.run mmu (swtch arch) = some cpu' ∧
      Switched arch (K.place s.current) (K.place i) s.cpu cpu' := by
  refine swtch_run (by rw [hold]; exact h.mapped.window _) (fun m' hm => ?_) (K.apart _ _ hne.symm)
  rw [hnew]
  refine (h.mapped.congr fun x hx => hm x ?_).window i
  by_contra hin
  exact hx ⟨s.current, by omega, by omega⟩

theorem SwitchInv.step (h : SwitchInv K mmu s) (hstep : SwitchStep K mmu s s') :
    SwitchInv K mmu s' := by
  cases hstep with
  | work hm hmap => exact ⟨hmap, fun i hi => (h.held i hi).congr (hm i hi)⟩
  | prepare i u hne hi hm =>
    refine ⟨h.mapped.congr fun x hx => hm x ?_, fun j hj => ?_⟩
    · by_contra hin
      exact hx ⟨i, by omega, by omega⟩
    · by_cases hji : j = i
      · subst hji
        simp only [Function.update_self]
        exact hi
      · simp only [Function.update_of_ne hji]
        refine (h.held j hj).congr fun x hlo hhi => hm x ?_
        have := K.apart j i hji
        omega
  | switch i hne hold hnew hrun =>
    obtain ⟨cpu₁, hrun₁, hs⟩ := h.switched hne hold hnew
    obtain rfl := Option.some.inj (hrun₁.symm.trans hrun)
    refine ⟨?_, fun j hj => ?_⟩
    · rw [hs.csr]
      refine h.mapped.congr fun x hx => hs.outside x ?_
      by_contra hin
      exact hx ⟨s.current, by omega, by omega⟩
    · by_cases hjc : j = s.current
      · subst hjc
        simp only [Function.update_self]
        exact hs.saved
      · simp only [Function.update_of_ne hjc]
        refine (h.held j hjc).congr fun x hlo hhi => hs.outside x ?_
        have := K.apart j s.current hjc
        omega

omit [DecidableEq ι] in
theorem SwitchInv.safe (h : SwitchInv K mmu s) : SwitchSafe K mmu s := by
  intro i hne hold hnew
  obtain ⟨cpu', hrun, hs⟩ := h.switched hne hold hnew
  have hloaded : ∀ p ∈ contextSlots arch, cpu'.reg p.1 = s.regs i p.1 :=
    fun p hp => (hs.loaded p hp).trans (h.held i hne p hp)
  refine ⟨cpu', hrun, fun r hr => ?_, ?_, fun r hr => hs.kept r ?_, hs.csr,
    fun x hx => hs.outside x ?_⟩
  · rw [← contextSlots_saved] at hr
    obtain ⟨p, hp, rfl⟩ := List.mem_map.mp hr
    exact hloaded p hp
  · have hra := h.held i hne _ ra_mem_contextSlots
    rw [Nat.add_zero] at hra
    rw [hs.pc, hra]
  · rw [contextSlots_saved]
    exact hr
  · by_contra hin
    exact hx ⟨s.current, by omega, by omega⟩

/-- In every run of the threads of a processor, from contexts that hold the registers of the threads
that do not run, a thread goes on with the registers with which it has called `swtch`, whatever ran
in between. -/
theorem switches_keep_registers (hmap : K.Mapped mmu s.cpu.csr s.cpu.mem)
    (hheld : ∀ i, i ≠ s.current → ContextHolds arch s.cpu.mem (K.place i) (s.regs i))
    (hrun : Relation.ReflTransGen (SwitchStep K mmu) s s') : SwitchSafe K mmu s' := by
  have h : SwitchInv K mmu s' := by
    induction hrun with
    | refl => exact ⟨hmap, hheld⟩
    | tail _ hstep ih => exact ih.step hstep
  exact h.safe

end

/-! ### A sample: the scheduler and a thread -/

def sampleContexts : Contexts .riscv Bool where
  place i := if i then 8192 else 4096
  va i := if i then 8192 else 4096
  apart i j hne := by
    cases i <;> cases j
    · exact absurd rfl hne
    · exact .inl (by decide)
    · exact .inr (by decide)
    · exact absurd rfl hne

/-- The kernel sees the memory at its own addresses. -/
def directMmu : Mmu Csr := fun _ _ va => some va.toNat

theorem sampleContexts_mapped (csr : Csr → BitVec 64) (m : Mem) :
    sampleContexts.Mapped directMmu csr m := by
  intro i _ _ off hoff
  have hsize : contextSize .riscv = 112 := rfl
  have hva : ∀ n, n < 2 ^ 32 → (BitVec.ofNat 64 n + BitVec.ofNat 64 off).toNat = n + off := by
    intro n hn
    rw [← BitVec.ofNat_add, BitVec.toNat_ofNat]
    omega
  cases i
  · exact congrArg some (hva 4096 (by decide))
  · exact congrArg some (hva 8192 (by decide))

/-- The scheduler is about to switch to the thread. -/
def sampleThreads : KernelThreads .riscv Bool :=
  let mem : Mem := fun x => UInt8.ofNat (x / 8)
  { cpu := ⟨fun r : XReg => if r = XReg.a0 then 8192 else if r = XReg.a1 then 4096
      else BitVec.ofNat 64 (Riscv.frameOffset r + 2 ^ 63), fun _ => 0, 0, mem⟩
    current := true
    regs _ r := (((contextSlots .riscv).find? fun p => p.1 = r).map fun p =>
      mem.word (4096 + p.2)).getD 0 }

/-- The registers with which the thread switches back. -/
def sampleWork (r : GReg .riscv) : BitVec 64 :=
  if r = GReg.a0 .riscv then 4096 else if r = GReg.a1 .riscv then 8192 else 77

theorem sampleThreads_held (i : Bool) (hi : i ≠ sampleThreads.current) :
    ContextHolds .riscv sampleThreads.cpu.mem (sampleContexts.place i) (sampleThreads.regs i) := by
  obtain rfl : i = false := Bool.eq_false_of_not_eq_true hi
  intro p hp
  have hfind : (contextSlots .riscv).find? (fun q => q.1 = p.1) = some p :=
    (by decide : ∀ p ∈ contextSlots .riscv,
      (contextSlots .riscv).find? (fun q => q.1 = p.1) = some p) p hp
  simp only [sampleThreads, hfind, Option.map_some, Option.getD_some]
  rfl

/-- The scheduler switches to the thread, which works with all registers and switches back. -/
theorem switches_keep_registers_sample : ∃ s : KernelThreads .riscv Bool, s.current = true ∧
    (∀ r ∈ calleeSaved .riscv, s.cpu.reg r = BitVec.ofNat 64 (Riscv.frameOffset r + 2 ^ 63)) ∧
    SwitchSafe sampleContexts directMmu s := by
  have hmap := sampleContexts_mapped sampleThreads.cpu.csr sampleThreads.cpu.mem
  have S₀ := switches_keep_registers hmap sampleThreads_held .refl
  obtain ⟨c₁, hrun₁, -⟩ := S₀ false (by decide) rfl rfl
  have h₁ := Relation.ReflTransGen.refl.tail (SwitchStep.switch (K := sampleContexts)
    (s := sampleThreads) false (by decide) rfl rfl hrun₁)
  have hwork : SwitchStep sampleContexts directMmu
      ⟨c₁, false, Function.update sampleThreads.regs true sampleThreads.cpu.reg⟩
      ⟨{ c₁ with reg := sampleWork }, false,
        Function.update sampleThreads.regs true sampleThreads.cpu.reg⟩ :=
    .work (fun _ _ _ _ _ => rfl) (sampleContexts_mapped _ _)
  have h₂ := h₁.tail hwork
  have hother : true ≠ false := by decide
  obtain ⟨c₃, hrun₃, hsaved, -⟩ :=
    switches_keep_registers hmap sampleThreads_held h₂ true hother rfl rfl
  have h₃ := h₂.tail (.switch true hother rfl rfl hrun₃)
  refine ⟨_, rfl, fun r hr => (hsaved r hr).trans ?_,
    switches_keep_registers hmap sampleThreads_held h₃⟩
  have hr₀ : r ≠ GReg.a0 .riscv ∧ r ≠ GReg.a1 .riscv := by
    constructor
    · rintro rfl
      exact absurd hr (by decide)
    · rintro rfl
      exact absurd hr (by decide)
  exact (if_neg hr₀.1).trans (if_neg hr₀.2)

end OsKernel.Hal

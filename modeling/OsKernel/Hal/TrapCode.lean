import OsKernel.Hal.Ale
import OsKernel.Hsai.TrapFrame
import OsKernel.Lib.RegisterCode

/-! The assembly code between user and kernel mode, and between two threads of the kernel. -/

namespace OsKernel.Hal

open Lib Hsai

/-- The general registers of RISC-V, without `zero`. -/
inductive XReg where
  | ra | sp | gp | tp
  | t0 | t1 | t2
  | s0 | s1
  | a0 | a1 | a2 | a3 | a4 | a5 | a6 | a7
  | s2 | s3 | s4 | s5 | s6 | s7 | s8 | s9 | s10 | s11
  | t3 | t4 | t5 | t6
  deriving DecidableEq

/-- The control registers of the code: `sscratch` or `SAVE0`, `satp` or `PGDL`, and `sepc`
or `ERA`. -/
inductive Csr where
  | scratch
  | pageTable
  | epc
  deriving DecidableEq

/-- The general registers. -/
def GReg : Arch → Type
  | .riscv => XReg
  | .loongarch => TfReg

instance GReg.decEq : (arch : Arch) → DecidableEq (GReg arch)
  | .riscv => inferInstanceAs (DecidableEq XReg)
  | .loongarch => inferInstanceAs (DecidableEq TfReg)

/-! ### RISC-V -/

namespace Riscv

open XReg Instr

/-- `uservec`, from the trap to the jump to `user_trap`. -/
def uservec : List (Instr XReg Csr) :=
  [swapCsr .scratch a0,
    store ra a0 40, store sp a0 48, store gp a0 56, store tp a0 64, store t0 a0 72, store t1 a0 80,
    store t2 a0 88, store s0 a0 96, store s1 a0 104, store a1 a0 120, store a2 a0 128,
    store a3 a0 136,
    store a4 a0 144, store a5 a0 152, store a6 a0 160, store a7 a0 168, store s2 a0 176,
    store s3 a0 184,
    store s4 a0 192, store s5 a0 200, store s6 a0 208, store s7 a0 216, store s8 a0 224,
    store s9 a0 232,
    store s10 a0 240, store s11 a0 248, store t3 a0 256, store t4 a0 264, store t5 a0 272,
    store t6 a0 280,
    readCsr t0 .scratch, store t0 a0 112,
    load sp a0 8, load tp a0 32, load t0 a0 16,
    load t1 a0 0, writeCsr .pageTable t1, fence,
    jump t0]

/-- `userret`, with the trap frame in `a0` and the page table in `a1`. -/
def userret : List (Instr XReg Csr) :=
  [writeCsr .pageTable a1, fence,
    load t0 a0 112, writeCsr .scratch t0,
    load ra a0 40, load sp a0 48, load gp a0 56, load tp a0 64, load t0 a0 72, load t1 a0 80,
    load t2 a0 88, load s0 a0 96, load s1 a0 104, load a1 a0 120, load a2 a0 128, load a3 a0 136,
    load a4 a0 144, load a5 a0 152, load a6 a0 160, load a7 a0 168, load s2 a0 176, load s3 a0 184,
    load s4 a0 192, load s5 a0 200, load s6 a0 208, load s7 a0 216, load s8 a0 224, load s9 a0 232,
    load s10 a0 240, load s11 a0 248, load t3 a0 256, load t4 a0 264, load t5 a0 272,
    load t6 a0 280,
    swapCsr .scratch a0,
    trapReturn .epc]

/-- `swtch`: the context to store is in `a0`, that to switch to in `a1`. -/
def swtch : List (Instr XReg Csr) :=
  [store ra a0 0, store sp a0 8, store s0 a0 16, store s1 a0 24, store s2 a0 32, store s3 a0 40,
    store s4 a0 48, store s5 a0 56, store s6 a0 64, store s7 a0 72, store s8 a0 80, store s9 a0 88,
    store s10 a0 96, store s11 a0 104,
    load ra a1 0, load sp a1 8, load s0 a1 16, load s1 a1 24, load s2 a1 32, load s3 a1 40,
    load s4 a1 48, load s5 a1 56, load s6 a1 64, load s7 a1 72, load s8 a1 80, load s9 a1 88,
    load s10 a1 96, load s11 a1 104,
    jump ra]

/-- The registers of a `TrapFrame`. -/
def frameRegs : List XReg :=
  [ra, sp, gp, tp, t0, t1, t2, s0, s1, a0, a1, a2, a3, a4, a5, a6, a7, s2, s3, s4, s5, s6, s7, s8,
    s9, s10, s11, t3, t4, t5, t6]

theorem mem_frameRegs (r : XReg) : r ∈ frameRegs := by cases r <;> decide

/-- The offset of a register in a `TrapFrame`. -/
def frameOffset : XReg → Nat
  | ra => 40 | sp => 48 | gp => 56 | tp => 64
  | t0 => 72 | t1 => 80 | t2 => 88
  | s0 => 96 | s1 => 104
  | a0 => 112 | a1 => 120 | a2 => 128 | a3 => 136 | a4 => 144 | a5 => 152 | a6 => 160 | a7 => 168
  | s2 => 176 | s3 => 184 | s4 => 192 | s5 => 200 | s6 => 208 | s7 => 216 | s8 => 224 | s9 => 232
  | s10 => 240 | s11 => 248
  | t3 => 256 | t4 => 264 | t5 => 272 | t6 => 280

end Riscv

/-! ### LoongArch -/

namespace Loongarch

open TfReg Instr

/-- `uservec`.  `csrwr` exchanges its two registers. -/
def uservec : List (Instr TfReg Csr) :=
  [swapCsr .scratch a0,
    store ra a0 0, store tp a0 8, store sp a0 16, store a1 a0 32, store a2 a0 40, store a3 a0 48,
    store a4 a0 56, store a5 a0 64, store a6 a0 72, store a7 a0 80, store t0 a0 88, store t1 a0 96,
    store t2 a0 104, store t3 a0 112, store t4 a0 120, store t5 a0 128, store t6 a0 136,
    store t7 a0 144,
    store t8 a0 152, store r21 a0 160, store fp a0 168, store s0 a0 176, store s1 a0 184,
    store s2 a0 192,
    store s3 a0 200, store s4 a0 208, store s5 a0 216, store s6 a0 224, store s7 a0 232,
    store s8 a0 240,
    readCsr t0 .scratch, store t0 a0 24,
    load sp a0 248, load tp a0 272, load t0 a0 256,
    load t1 a0 280, swapCsr .pageTable t1, loadImm fp 0, fence,
    jump t0]

def userret : List (Instr TfReg Csr) :=
  [swapCsr .pageTable a1, fence,
    load t0 a0 24, swapCsr .scratch t0,
    load ra a0 0, load tp a0 8, load sp a0 16, load a1 a0 32, load a2 a0 40, load a3 a0 48,
    load a4 a0 56, load a5 a0 64, load a6 a0 72, load a7 a0 80, load t0 a0 88, load t1 a0 96,
    load t2 a0 104, load t3 a0 112, load t4 a0 120, load t5 a0 128, load t6 a0 136, load t7 a0 144,
    load t8 a0 152, load r21 a0 160, load fp a0 168, load s0 a0 176, load s1 a0 184, load s2 a0 192,
    load s3 a0 200, load s4 a0 208, load s5 a0 216, load s6 a0 224, load s7 a0 232, load s8 a0 240,
    swapCsr .scratch a0,
    trapReturn .epc]

def swtch : List (Instr TfReg Csr) :=
  [store ra a0 0, store sp a0 8, store s0 a0 16, store s1 a0 24, store s2 a0 32, store s3 a0 40,
    store s4 a0 48, store s5 a0 56, store s6 a0 64, store s7 a0 72, store s8 a0 80, store fp a0 88,
    load ra a1 0, load sp a1 8, load s0 a1 16, load s1 a1 24, load s2 a1 32, load s3 a1 40,
    load s4 a1 48, load s5 a1 56, load s6 a1 64, load s7 a1 72, load s8 a1 80, load fp a1 88,
    jump ra]

def frameRegs : List TfReg :=
  [ra, tp, sp, a0, a1, a2, a3, a4, a5, a6, a7, t0, t1, t2, t3, t4, t5, t6, t7, t8, r21, fp, s0, s1,
    s2, s3, s4, s5, s6, s7, s8]

theorem mem_frameRegs (r : TfReg) : r ∈ frameRegs := by cases r <;> decide

def frameOffset : TfReg → Nat
  | ra => 0 | tp => 8 | sp => 16
  | a0 => 24 | a1 => 32 | a2 => 40 | a3 => 48 | a4 => 56 | a5 => 64 | a6 => 72 | a7 => 80
  | t0 =>
    88 | t1 => 96 | t2 => 104 | t3 => 112 | t4 => 120 | t5 => 128 | t6 => 136 | t7 => 144 | t8 =>
      152
  | r21 => 160 | fp => 168
  | s0 =>
    176 | s1 => 184 | s2 => 192 | s3 => 200 | s4 => 208 | s5 => 216 | s6 => 224 | s7 => 232 | s8 =>
      240

end Loongarch

/-! ### Both -/

section

open Instr

def uservec : (arch : Arch) → List (Instr (GReg arch) Csr)
  | .riscv => Riscv.uservec
  | .loongarch => Loongarch.uservec

def userret : (arch : Arch) → List (Instr (GReg arch) Csr)
  | .riscv => Riscv.userret
  | .loongarch => Loongarch.userret

def swtch : (arch : Arch) → List (Instr (GReg arch) Csr)
  | .riscv => Riscv.swtch
  | .loongarch => Loongarch.swtch

def frameRegs : (arch : Arch) → List (GReg arch)
  | .riscv => Riscv.frameRegs
  | .loongarch => Loongarch.frameRegs

def frameOffset : (arch : Arch) → GReg arch → Nat
  | .riscv => Riscv.frameOffset
  | .loongarch => Loongarch.frameOffset

namespace GReg

def a0 : (arch : Arch) → GReg arch
  | .riscv => XReg.a0
  | .loongarch => TfReg.a0

def a1 : (arch : Arch) → GReg arch
  | .riscv => XReg.a1
  | .loongarch => TfReg.a1

def sp : (arch : Arch) → GReg arch
  | .riscv => XReg.sp
  | .loongarch => TfReg.sp

def tp : (arch : Arch) → GReg arch
  | .riscv => XReg.tp
  | .loongarch => TfReg.tp

def t0 : (arch : Arch) → GReg arch
  | .riscv => XReg.t0
  | .loongarch => TfReg.t0

def t1 : (arch : Arch) → GReg arch
  | .riscv => XReg.t1
  | .loongarch => TfReg.t1

end GReg

/-- The offsets of the members of a `TrapFrame` for the kernel: the page table, the top of the
stack, the handler and the number of the CPU. -/
structure KernelOffsets where
  pageTable : Nat
  sp : Nat
  trap : Nat
  hartid : Nat

def kernelOffsets : Arch → KernelOffsets
  | .riscv => ⟨0, 8, 16, 32⟩
  | .loongarch => ⟨280, 248, 256, 272⟩

/-- The write of the page table register: it is an exchange on LoongArch. -/
def setPageTable : (arch : Arch) → GReg arch → Instr (GReg arch) Csr
  | .riscv, r => writeCsr .pageTable r
  | .loongarch, r => swapCsr .pageTable r

def setScratch : (arch : Arch) → GReg arch → Instr (GReg arch) Csr
  | .riscv, r => writeCsr .scratch r
  | .loongarch, r => swapCsr .scratch r

/-- What `uservec` does besides on LoongArch: it clears `fp`. -/
def clearFp : (arch : Arch) → List (Instr (GReg arch) Csr)
  | .riscv => []
  | .loongarch => [loadImm TfReg.fp 0]

variable (arch : Arch)

/-- The registers that are saved as they are; `a0` goes through the control register. -/
def plainSlots : List (GReg arch × Nat) :=
  ((frameRegs arch).filter (· ≠ GReg.a0 arch)).map fun r => (r, frameOffset arch r)

/-- `uservec` after the registers: `a0`, and what the kernel has left in the frame. -/
def enterCode : List (Instr (GReg arch) Csr) :=
  [readCsr (.t0 arch) .scratch, store (.t0 arch) (.a0 arch) (frameOffset arch (.a0 arch)),
    load (.sp arch) (.a0 arch) (kernelOffsets arch).sp,
    load (.tp arch) (.a0 arch) (kernelOffsets arch).hartid,
    load (.t0 arch) (.a0 arch) (kernelOffsets arch).trap,
    load (.t1 arch) (.a0 arch) (kernelOffsets arch).pageTable, setPageTable arch (.t1 arch)] ++
  clearFp arch ++ [fence, jump (.t0 arch)]

theorem uservec_eq : uservec arch = swapCsr .scratch (.a0 arch) ::
    ((plainSlots arch).map (fun p => store p.1 (.a0 arch) p.2) ++ enterCode arch) := by
  cases arch with
  | riscv => rfl
  | loongarch => rfl

theorem userret_eq : userret arch =
    [setPageTable arch (.a1 arch), fence, load (.t0 arch) (.a0 arch) (frameOffset arch (.a0 arch)),
      setScratch arch (.t0 arch)] ++ ((plainSlots arch).map (fun p => load p.1 (.a0 arch) p.2) ++
      [swapCsr .scratch (.a0 arch), trapReturn .epc]) := by
  cases arch with
  | riscv => rfl
  | loongarch => rfl

theorem mem_frameRegs (r : GReg arch) : r ∈ frameRegs arch := by
  cases arch with
  | riscv => exact Riscv.mem_frameRegs r
  | loongarch => exact Loongarch.mem_frameRegs r

theorem frameOffset_apart : (frameRegs arch).Pairwise fun r r' =>
    frameOffset arch r + 8 ≤ frameOffset arch r' ∨
      frameOffset arch r' + 8 ≤ frameOffset arch r := by
  cases arch with
  | riscv => decide
  | loongarch => decide

end

end OsKernel.Hal

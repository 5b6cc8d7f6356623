import OsKernel.Hsai.Pte
import OsKernel.Lib.ByteMemory

/-! The saved user registers of a process, which are at the start of its trap frame page. -/

namespace OsKernel.Hsai

open Lib

/-- `sizeof( TrapFrame )`. -/
def trapFrameSize : Nat := 288

namespace Arch

/-- The offset of `a0` in a `TrapFrame`. -/
def trapFrameA0 : Arch → Nat
  | riscv => 112
  | loongarch => 24

/-- The offset of `a1`. -/
def trapFrameA1 : Arch → Nat
  | riscv => 120
  | loongarch => 32

/-- The offset of the user's program counter. -/
def trapFrameEntry : Arch → Nat
  | riscv => 24
  | loongarch => 264

/-- The offset of `sp`. -/
def trapFrameSp : Arch → Nat
  | riscv => 48
  | loongarch => 16

/-- The offset of `tp`. -/
def trapFrameTp : Arch → Nat
  | riscv => 64
  | loongarch => 8

end Arch

variable (arch : Arch)

/-- `copy_trap_frame`. -/
def copyTrapFrame (m : Mem) (src dst : Nat) : Mem := m.copy dst src trapFrameSize

/-- `set_trap_frame_return_value`. -/
def setTrapFrameReturnValue (m : Mem) (tf v : Nat) : Mem := m.write (tf + arch.trapFrameA0) 8 v

/-- `set_trap_frame_arg` of the argument 1. -/
def setTrapFrameArg1 (m : Mem) (tf v : Nat) : Mem := m.write (tf + arch.trapFrameA1) 8 v

/-- `set_trap_frame_entry`. -/
def setTrapFrameEntry (m : Mem) (tf entry : Nat) : Mem := m.write (tf + arch.trapFrameEntry) 8 entry

/-- `set_trap_frame_user_sp`. -/
def setTrapFrameUserSp (m : Mem) (tf sp : Nat) : Mem := m.write (tf + arch.trapFrameSp) 8 sp

/-- `set_trap_frame_user_tp`. -/
def setTrapFrameUserTp (m : Mem) (tf tp : Nat) : Mem := m.write (tf + arch.trapFrameTp) 8 tp

theorem setTrapFrameReturnValue_outside {m : Mem} {tf v x : Nat} (h : x < tf ∨ tf + 4096 ≤ x) :
    setTrapFrameReturnValue arch m tf v x = m x := by
  have : arch.trapFrameA0 + 8 ≤ 4096 := by cases arch <;> decide
  exact Mem.write_outside (by omega)

theorem setTrapFrameUserSp_outside {m : Mem} {tf sp x : Nat} (h : x < tf ∨ tf + 4096 ≤ x) :
    setTrapFrameUserSp arch m tf sp x = m x := by
  have : arch.trapFrameSp + 8 ≤ 4096 := by cases arch <;> decide
  exact Mem.write_outside (by omega)

theorem copyTrapFrame_outside {m : Mem} {src dst x : Nat} (h : x < dst ∨ dst + 4096 ≤ x) :
    copyTrapFrame m src dst x = m x :=
  Mem.copy_outside (by unfold trapFrameSize; omega)

end OsKernel.Hsai

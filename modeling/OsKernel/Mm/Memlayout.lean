import OsKernel.Hsai.Page

/-! The user address space of `memlayout.hh`. -/

namespace OsKernel.Mm

open Hsai

/-- `vm_user_end`: 64 GiB. -/
def vmUserEnd : Nat := pageSize <<< 24

/-- `vm_trap_frame`: the last page of the user address space. -/
def vmTrapFrame : Nat := vmUserEnd - pageSize

/-- `vm_ustack_end`: one page below the trap frame. -/
def vmUstackEnd : Nat := vmTrapFrame - pageSize

end OsKernel.Mm

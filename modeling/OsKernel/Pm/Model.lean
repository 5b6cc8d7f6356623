import OsKernel.Mm.Memlayout
import OsKernel.Mm.Vmm.Model

/-! The page tables of processes in `process_manager.cc`. -/

namespace OsKernel.Pm

open Lib Hsai Mm

variable {σ : Type} (arch : Arch) (V : VirtualPageAllocator σ)

/-- `_proc_create_vm( p, pt )`, with the trap frame of `p`. -/
def procCreateVmOn (k : Kernel σ) (pt : PageTable) (trapframe : Nat) :
    Except Fault (Kernel σ) := do
  if pt.baseAddr = 0 then .ok k
  else
    let r ← mapDataPages arch V k pt vmTrapFrame pageSize trapframe false
    if r.1 then .ok r.2
    else do
      let _ ← vmUnmap arch V r.2 pt vmTrapFrame 1 false
      .error (.panic "proc create vm but no mem.")

/-- `_proc_create_vm( p )`. -/
def procCreateVm (k : Kernel σ) (trapframe : Nat) : Except Fault (PageTable × Kernel σ) := do
  let r ← vmCreate V k
  let k ← procCreateVmOn arch V r.2 r.1 trapframe
  .ok (r.1, k)

end OsKernel.Pm

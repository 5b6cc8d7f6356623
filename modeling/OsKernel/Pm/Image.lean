import OsKernel.Hsai.TrapFrame
import OsKernel.Pm.Files
import OsKernel.Pm.Model

/-! The memory of the processes: what `alloc_proc`, `freeproc`, `fork`, `clone`, `exit_proc` and
`wait` do to page tables and pages.  Each call is one step. -/

namespace OsKernel.Pm

open Lib Hsai Mm

/-- `TRAMPOLINE`: the last page below `MAXVA`. -/
def vmTrampoline : Nat := 2 ^ 38 - pageSize

/-- The lowest page of the user stack, which protects it. -/
def stackStart : Nat := vmUstackEnd - (1 + defaultProcUstackPages) * pageSize

/-- `program_section_desc`. -/
structure ProgSection where
  start : Nat
  size : Nat

/-- The fields of a `Pcb` that are about its memory, and those that say whether it runs. -/
structure MemPcb (n : Nat) where
  state : ProcState
  pid : Nat
  parent : Option (Fin n)
  chan : Option (Fin n)
  killed : Bool
  xstate : BitVec 32
  trapframe : Nat
  pt : PageTable
  sections : List ProgSection
  sz : Nat
  heapStart : Nat
  heapPtr : Nat
  vm : Fin maxVmaNum → Vma

structure MemState (σ : Type) (n : Nat) where
  procs : Fin n → MemPcb n
  curPid : Nat
  lastAllocProcGid : Fin n
  kernel : Kernel σ

/-- An `int` passed on as an `uint64`. -/
def ulongOfInt (x : Int) : Nat := (x % 2 ^ 64).toNat

variable {σ : Type} {n : Nat} (arch : Arch) (V : VirtualPageAllocator σ) (tramp : Nat)

/-- `hsai::proc_init`, with the trampoline at `tramp` in the kernel image. -/
def procInit (k : Kernel σ) (pt : PageTable) : Except Fault (Kernel σ) :=
  match arch with
  | .riscv => do
    let r ← mapCodePages .riscv V k pt vmTrampoline pageSize tramp false
    .ok r.2
  | .loongarch => .ok k

/-- `hsai::proc_free`. -/
def procFree (k : Kernel σ) (pt : PageTable) : Except Fault (Kernel σ) :=
  match arch with
  | .riscv => vmUnmap .riscv V k pt vmTrampoline 1 false
  | .loongarch => .ok k

/-! ### `freeproc` -/

/-- The loop of `freeproc` over the program sections. -/
def freeSections (pt : PageTable) : List ProgSection → Kernel σ → Except Fault (Kernel σ)
  | [], k => .ok k
  | sec :: rest, k => do
    let start := pageRoundDown sec.start
    let size := pageRoundUp (wordSub (wordAdd sec.start sec.size) start)
    let k ← vmUnmap arch V k pt start (size / pageSize) true
    freeSections pt rest k

/-- The part of `freeproc` for a page table that is not null. -/
def freeImage (p : MemPcb n) (k : Kernel σ) : Except Fault (Kernel σ) :=
  if p.pt.baseAddr = 0 then .ok k
  else do
    let k ← freeSections arch V p.pt p.sections k
    let k ← vmUnmap arch V k p.pt stackStart (defaultProcUstackPages + 1) true
    let heapSize := pageRoundUp (wordSub p.heapPtr p.heapStart)
    let k ← vmUnmap arch V k p.pt p.heapStart (heapSize / pageSize) true
    let k ← procFree arch V k p.pt
    freewalk arch V k p.pt

/-- The fields that `freeproc` resets.  The start of the heap and the areas stay as they are. -/
def MemPcb.reset (p : MemPcb n) : MemPcb n :=
  { p with
    trapframe := 0, pt := { p.pt with baseAddr := 0 }, sections := [], sz := 0, heapPtr := 0
    pid := 0, parent := none, chan := none, killed := false, xstate := 0, state := .unused }

namespace MemState

variable (s : MemState σ n)

/-- One process changed. -/
def set (p : Fin n) (f : MemPcb n → MemPcb n) : MemState σ n :=
  { s with procs := Function.update s.procs p (f (s.procs p)) }

/-- `freeproc`. -/
def freeproc (g : Fin n) : Except Fault (MemState σ n) := do
  let k ← vmUnmap arch V s.kernel (s.procs g).pt vmTrapFrame 1 true
  let k ← freeImage arch V (s.procs g) k
  .ok { s.set g MemPcb.reset with kernel := k }

/-! ### `alloc_proc` and `alloc_thread` -/

/-- The first unused slot, in the order in which `alloc_proc` looks. -/
def allocSlot : Option (Fin n) :=
  ((List.finRange n).map fun i =>
    (⟨(s.lastAllocProcGid + i) % n, Nat.mod_lt _ s.lastAllocProcGid.pos⟩ : Fin n)).find?
      fun p => (s.procs p).state = .unused

/-- The slot `g` is taken, with a new pid. -/
def takeSlot (g : Fin n) : MemState σ n :=
  { s.set g fun p => { p with pid := s.curPid, state := .used } with curPid := s.curPid + 1 }

/-- `alloc_proc`. -/
def allocProc : Except Fault (Option (Fin n) × MemState σ n) :=
  match s.allocSlot with
  | none => .ok (none, s)
  | some g => do
    let r ← pmmAllocPage V s.kernel
    match r.1 with
    | none => do
      let s ← freeproc arch V { (s.takeSlot g).set g fun p => { p with trapframe := 0 } with
        kernel := r.2 } g
      .ok (none, s)
    | some tf => do
      let c ← procCreateVm arch V r.2 tf
      let s := { (s.takeSlot g).set g fun p => { p with trapframe := tf, pt := c.1 } with
        kernel := c.2 }
      if c.1.baseAddr = 0 then do
        let s ← freeproc arch V s g
        .ok (none, s)
      else .ok (some g, { s with lastAllocProcGid := g })

/-- `alloc_thread`. -/
def allocThread : Except Fault (Option (Fin n) × MemState σ n) :=
  match s.allocSlot with
  | none => .ok (none, s)
  | some g => do
    let r ← pmmAllocPage V s.kernel
    match r.1 with
    | none => do
      let s ← freeproc arch V { (s.takeSlot g).set g fun p => { p with trapframe := 0 } with
        kernel := r.2 } g
      .ok (none, s)
    | some tf => .ok (some g, { (s.takeSlot g).set g fun p => { p with trapframe := tf } with
        kernel := r.2
        lastAllocProcGid := g })

/-! ### `fork` -/

/-- `fork` gives back the slot of the child and returns `r`. -/
def forkFail (np : Fin n) (r : Int) : Except Fault (Int × MemState σ n) := do
  let s ← freeproc arch V s np
  .ok (r, s)

/-- The end of `fork`: the child gets the registers of the parent and may run. -/
def forkFinish (p np : Fin n) (usp : Nat) : Except Fault (Int × MemState σ n) := do
  let k ← procInit arch V tramp s.kernel (s.procs np).pt
  let tf := (s.procs np).trapframe
  let m := copyTrapFrame k.mem (s.procs p).trapframe tf
  let m := setTrapFrameReturnValue arch m tf 0
  let m := if usp ≠ 0 then setTrapFrameUserSp arch m tf usp else m
  .ok ((s.procs np).pid,
    { s.set np fun q => { q with parent := some p, state := .runnable } with
      kernel := { k with mem := m } })

/-- The copy of the memory areas. -/
def forkVmas (p np : Fin n) (usp : Nat) :
    List (Fin maxVmaNum) → MemState σ n → Except Fault (Int × MemState σ n)
  | [], s => forkFinish arch V tramp s p np usp
  | i :: rest, s =>
    let v := (s.procs p).vm i
    if v.isUsed then do
      let c ← vmCopy arch V s.kernel (s.procs p).pt (s.procs np).pt v.address
        (ulongOfInt v.length)
      let s := { s with kernel := c.2 }
      if c.1 < 0 then forkFail arch V s np (-3)
      else
        let vma : Vma := ⟨true, v.address, v.length, v.vfile⟩
        forkVmas p np usp rest (s.set np fun q => { q with vm := Function.update q.vm i vma })
    else forkVmas p np usp rest s

/-- The copy of the user stack. -/
def forkStack (p np : Fin n) (usp : Nat) : Except Fault (Int × MemState σ n) := do
  let c ← vmCopy arch V s.kernel (s.procs p).pt (s.procs np).pt stackStart
    ((1 + defaultProcUstackPages) * pageSize)
  let s := { s with kernel := c.2 }
  if c.1 < 0 then forkFail arch V s np (-3)
  else forkVmas arch V tramp p np usp (List.finRange maxVmaNum) s

/-- The copy of the heap. -/
def forkHeap (p np : Fin n) (usp : Nat) : Except Fault (Int × MemState σ n) := do
  let q := s.procs p
  let c ← vmCopy arch V s.kernel q.pt (s.procs np).pt q.heapStart
    (pageRoundUp (wordSub q.heapPtr q.heapStart))
  let s := { s with kernel := c.2 }
  if c.1 < 0 then forkFail arch V s np (-2)
  else
    let s := s.set np fun r =>
      { r with sz := q.sz, heapStart := q.heapStart, heapPtr := q.heapPtr }
    forkStack arch V tramp s p np usp

/-- The copy of the program sections. -/
def forkSections (p np : Fin n) (usp : Nat) :
    List ProgSection → MemState σ n → Except Fault (Int × MemState σ n)
  | [], s => forkHeap arch V tramp s p np usp
  | sec :: rest, s => do
    let start := pageRoundDown sec.start
    let size := wordSub (pageRoundUp (wordAdd sec.start sec.size)) start
    let c ← vmCopy arch V s.kernel (s.procs p).pt (s.procs np).pt start size
    let s := { s with kernel := c.2 }
    if c.1 < 0 then forkFail arch V s np (-1)
    else forkSections p np usp rest (s.set np fun q => { q with sections := q.sections ++ [sec] })

/-- `fork( usp )` of the process `p`. -/
def fork (p : Fin n) (usp : Nat) : Except Fault (Int × MemState σ n) := do
  let a ← allocProc arch V s
  match a.1 with
  | none => .ok (-1, a.2)
  | some np => forkSections arch V tramp p np usp (a.2.procs p).sections a.2

/-! ### `clone` -/

def cloneVm : Nat := 0x100
def cloneThread : Nat := 0x10000
def cloneSettls : Nat := 0x80000
def cloneParentSettid : Nat := 0x100000

/-- The thread that `clone` makes of the slot `c`: it has the page table of `p`, and a trap frame of
its own that is not mapped in it. -/
def startThread (p c : Fin n) (childStack : Nat) : MemState σ n :=
  let q := s.procs p
  let tf := (s.procs c).trapframe
  let m := copyTrapFrame s.kernel.mem q.trapframe tf
  let m := setTrapFrameReturnValue arch m tf 0
  let m := if childStack ≠ 0 then setTrapFrameUserSp arch m tf childStack else m
  { s.set c fun r => { r with
      pt := q.pt, sections := q.sections, sz := q.sz, heapStart := q.heapStart, heapPtr := q.heapPtr
      vm := fun i => if (q.vm i).isUsed then q.vm i else r.vm i
      parent := some p, state := .runnable } with
    kernel := { s.kernel with mem := m } }

/-- `clone` of the process `p` with `CLONE_THREAD`. -/
def cloneThreadOf (p : Fin n) (flags childStack parentTid tls : Nat) :
    Except Fault (Int × MemState σ n) := do
  let a ← allocThread arch V s
  match a.1 with
  | none => .ok (-1, a.2)
  | some c =>
    if flags &&& cloneVm = 0 then .ok (-1, a.2)
    else
      let s := startThread arch a.2 p c childStack
      let pid := (s.procs c).pid
      let settls := fun (s : MemState σ n) =>
        if flags &&& cloneSettls ≠ 0 ∧ tls ≠ 0 then
          { s with kernel := { s.kernel with
              mem := setTrapFrameUserTp arch s.kernel.mem (s.procs c).trapframe tls } }
        else s
      if flags &&& cloneParentSettid ≠ 0 then do
        let o ← copyout arch V s.kernel (s.procs p).pt parentTid
          ((List.range 4).map fun i => UInt8.ofNat (pid / 256 ^ i))
        if o.1 < 0 then .ok (-1, { s with kernel := o.2 })
        else .ok (pid, settls { s with kernel := o.2 })
      else .ok (pid, settls s)

/-- `clone` of the process `p`. -/
def clone (p : Fin n) (flags childStack parentTid tls : Nat) :
    Except Fault (Int × MemState σ n) :=
  if flags &&& cloneThread ≠ 0 then cloneThreadOf arch V s p flags childStack parentTid tls
  else fork arch V tramp s p childStack

/-! ### `exit_proc` -/

/-- The loop of `exit_proc` over the memory areas. -/
def unmapVmas (p : Fin n) : List (Fin maxVmaNum) → MemState σ n → Except Fault (MemState σ n)
  | [], s => .ok s
  | i :: rest, s =>
    let v := (s.procs p).vm i
    if v.address ≠ 0 then do
      let k ← vmUnmap arch V s.kernel (s.procs p).pt (pageRoundUp v.address)
        (ulongOfInt v.length / pageSize) true
      let s := { s with kernel := k }
      let vma : Vma := ⟨false, 0, v.length, none⟩
      unmapVmas p rest (s.set p fun q => { q with vm := Function.update q.vm i vma })
    else unmapVmas p rest s

/-- `reparent( p )`, `wakeup( p->parent )` and the end of `p`. -/
def becomeZombie (init p : Fin n) (state : BitVec 32) : MemState σ n :=
  let orphan := fun q : MemPcb n => { q with
    parent := if q.parent = some p then some init else q.parent
    state := if q.state = .sleeping ∧ (s.procs p).parent ≠ none ∧
        q.chan = (s.procs p).parent then
      .runnable else q.state }
  { s with procs := fun q => if q = p then
      { orphan (s.procs p) with xstate := state <<< 8, state := .zombie }
    else orphan (s.procs q) }

/-- `exit_proc`. -/
def exitProc (init p : Fin n) (state : BitVec 32) : Except Fault (MemState σ n) :=
  if p = init then .error (.panic "init exiting")
  else do
    let s ← unmapVmas arch V p (List.finRange maxVmaNum) s
    .ok (s.becomeZombie init p state)

/-! ### `wait` -/

/-- The processes that `wait( childPid )` of `p` looks at. -/
def kids (p : Fin n) (childPid : Int) : List (Fin n) :=
  (List.finRange n).filter fun np =>
    (childPid ≤ 0 ∨ (s.procs np).pid = childPid) ∧ (s.procs np).parent = some p

/-- `-ECHILD`. -/
def noChild : Int := -10

/-- One turn of the loop of `wait`; `none` where `p` goes to sleep. -/
def waitTurn (p : Fin n) (childPid : Int) (addr : Nat) :
    Except Fault (Option Int × MemState σ n) :=
  match (s.kids p childPid).find? fun np => (s.procs np).state = .zombie with
  | some np =>
    let pid : Int := (s.procs np).pid
    if addr ≠ 0 then do
      let o ← copyout arch V s.kernel (s.procs p).pt addr
        ((List.range 4).map fun i => UInt8.ofNat ((s.procs np).xstate.toNat / 256 ^ i))
      if o.1 < 0 then .ok (some (-1), { s with kernel := o.2 })
      else do
        let s ← freeproc arch V { s with kernel := o.2 } np
        .ok (some pid, s)
    else do
      let s ← freeproc arch V s np
      .ok (some pid, s)
  | none =>
    if s.kids p childPid = [] ∨ (s.procs p).killed then .ok (some noChild, s)
    else .ok (none, s.set p fun q => { q with chan := some p, state := .sleeping })

/-- `wait` up to its first sleep. -/
def wait (p : Fin n) (childPid : Int) (addr : Nat) : Except Fault (Option Int × MemState σ n) :=
  if 0 < childPid ∧ s.kids p childPid = [] then .ok (some (-1), s)
  else waitTurn arch V s p childPid addr

end MemState

end OsKernel.Pm

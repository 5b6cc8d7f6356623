import Mathlib.Data.List.FinRange
import OsKernel.Hsai.SpinLock
import OsKernel.Pm.Lifetime

/-! The scheduler on one processor, with the locks and the interrupt state that pass through
`swtch`. Control is with the scheduler or with the current process; `toProc` and `toScheduler` are
the two directions of `swtch`. -/

namespace OsKernel.Pm

open Hsai

inductive LockId (n : Nat) where
  | proc (p : Fin n)
  | waitLock
  | pidLock
  | scheLock
  | other (k : Nat)
  deriving DecidableEq

/-- A channel of `sleep`: the address of a `Pcb`, or another one. -/
inductive Chan (n : Nat) where
  | proc (p : Fin n)
  | other (k : Nat)
  deriving DecidableEq

/-- Where the saved context of a process goes on, with the local `intena` of its `call_sched`. -/
inductive Context (n : Nat) where
  | forkRet
  | yield (intena : Bool)
  | sleep (lock : LockId n) (intena : Bool)
  | exit (intena : Bool)

structure Pcb (n : Nat) where
  state : ProcState
  priority : Int
  parent : Option (Fin n)
  chan : Option (Chan n)
  context : Context n

inductive Control (n : Nat) where
  | scheduler
  | toProc (p : Fin n)
  | process (p : Fin n)
  | toScheduler (p : Fin n)

/-- The processor and the pool.  `slot`, `needed` and `priority` are the variables of
`start_schedule`.  `ena p` is history: whether interrupts were enabled when `p` last took a lock
while it held none. -/
structure Machine (n : Nat) where
  cpu : CpuLocks (LockId n)
  curProc : Option (Fin n)
  pool : Fin n → Pcb n
  lastAllocProcGid : Nat
  slot : Nat
  needed : Bool
  priority : Int
  control : Control n
  ena : Fin n → Bool

def defaultProcPrio : Int := 10

def lowestProcPrio : Int := 19

namespace Machine

variable {n : Nat} (s : Machine n)

def set (p : Fin n) (f : Pcb n → Pcb n) : Machine n :=
  { s with pool := Function.update s.pool p (f (s.pool p)) }

/-- `SpinLock::acquire`. -/
def acquire (l : LockId n) : Except Fault (Machine n) := do
  let cpu ← s.cpu.acquire l
  return { s with
    cpu
    ena := match s.curProc with
      | some p => if s.cpu.numOff = 0 then Function.update s.ena p s.cpu.interruptible else s.ena
      | none => s.ena }

/-- `SpinLock::release`. -/
def release (l : LockId n) : Except Fault (Machine n) := do
  let cpu ← s.cpu.release l
  return { s with cpu }

/-- The result of `get_highest_proirity`. -/
def highestPriority : Int :=
  (List.finRange n).foldl (fun prio p =>
    if (s.pool p).priority < prio ∧ (s.pool p).state = .runnable then (s.pool p).priority
    else prio) lowestProcPrio

def getHighestPriority : Except Fault (Machine n) := do
  let s ← s.acquire .scheLock
  let s := { s with priority := s.highestPriority }
  s.release .scheLock

/-- `if ( needed ) priority = get_highest_proirity()`. -/
def refreshPriority : Except Fault (Machine n) :=
  if s.needed then s.getHighestPriority else .ok s

/-- The loop of `start_schedule` up to the next call of `swtch`, or to its next turn. -/
def schedule : Except Fault (Machine n) :=
  if h : s.slot < n then do
    let p : Fin n := ⟨s.slot, h⟩
    let s ← s.refreshPriority
    let s := { s with needed := false }
    if (s.pool p).state ≠ .runnable ∨ (s.pool p).priority > s.priority then
      .ok { s with slot := s.slot + 1 }
    else
      let s ← s.acquire (.proc p)
      if (s.pool p).state = .runnable then
        let s := s.set p fun q => { q with state := .running }
        .ok { s with curProc := some p, control := .toProc p }
      else
        let s ← s.release (.proc p)
        .ok { s with needed := true, slot := s.slot + 1 }
  else .ok { s with slot := 0, cpu := { s.cpu with interruptible := true } }

/-- The turn of `start_schedule` after `swtch` has come back. -/
def scheduled : Except Fault (Machine n) :=
  if h : s.slot < n then do
    let s := { s with curProc := none }
    let s ← s.release (.proc ⟨s.slot, h⟩)
    .ok { s with needed := true, slot := s.slot + 1, control := .scheduler }
  else .error (.undefined "process pool index")

/-- `call_sched` of `p` up to `swtch`, where `context` goes on after it. -/
def callSched (p : Fin n) (context : Bool → Context n) : Except Fault (Machine n) := do
  kassert (s.cpu.locked (.proc p) = true) "sched: proc lock not held"
  kassert (s.cpu.numOff = 1) "sched: proc locks"
  kassert ((s.pool p).state ≠ .running) "sched: proc is not running"
  kassert (s.cpu.interruptible = false) "sched: interruptible"
  let s := s.set p fun q => { q with context := context s.cpu.intEna }
  .ok { s with control := .toScheduler p }

/-- What `p` does after `swtch` has come back to it. -/
def resume (p : Fin n) : Except Fault (Machine n) :=
  match (s.pool p).context with
  | .forkRet => do
    let s ← s.release (.proc p)
    .ok { s with control := .process p }
  | .yield intena => do
    let s := { s with cpu := { s.cpu with intEna := intena } }
    let s ← s.release (.proc p)
    .ok { s with control := .process p }
  | .sleep lock intena => do
    let s := { s with cpu := { s.cpu with intEna := intena } }
    let s := s.set p fun q => { q with chan := none }
    let s ← if .proc p ≠ lock then do (← s.release (.proc p)).acquire lock else .ok s
    .ok { s with control := .process p }
  | .exit _ => .error (.panic "zombie exit")

def yield (p : Fin n) : Except Fault (Machine n) := do
  let s ← s.acquire (.proc p)
  let s := s.set p fun q => { q with state := .runnable }
  s.callSched p .yield

def sleep (p : Fin n) (chan : Chan n) (lock : LockId n) : Except Fault (Machine n) := do
  let s ← if .proc p ≠ lock then do (← s.acquire (.proc p)).release lock else .ok s
  let s := s.set p fun q => { q with chan := some chan, state := .sleeping }
  s.callSched p (.sleep lock)

/-- A function that takes the lock of each process of a list in turn and changes that process. -/
def eachLocked (f : Pcb n → Pcb n) : List (Fin n) → Machine n → Except Fault (Machine n)
  | [], s => .ok s
  | p :: ps, s => do
    let s ← s.acquire (.proc p)
    let s ← (s.set p f).release (.proc p)
    eachLocked f ps s

def wakeup (chan : Chan n) : Except Fault (Machine n) :=
  eachLocked (fun q => if q.state = .sleeping ∧ q.chan = some chan then
    { q with state := .runnable } else q) (List.finRange n) s

/-- `reparent`, where `init` is the slot of the init process. -/
def reparent (init p : Fin n) : Except Fault (Machine n) :=
  eachLocked (fun q => { q with parent := some init })
    (((List.finRange n).map fun i =>
        (⟨(s.lastAllocProcGid + i) % n, Nat.mod_lt _ p.pos⟩ : Fin n)).filter
      fun q => (s.pool q).parent = some p) s

/-- `if ( p->parent ) wakeup( p->parent )`. -/
def wakeupParent (p : Fin n) : Except Fault (Machine n) :=
  match (s.pool p).parent with
  | some parent => s.wakeup (.proc parent)
  | none => .ok s

/-- The end of `exit_proc`, from `_wait_lock.acquire()` on. -/
def exitProc (init p : Fin n) : Except Fault (Machine n) := do
  let s ← s.acquire .waitLock
  let s ← s.reparent init p
  let s ← s.wakeupParent p
  let s ← s.acquire (.proc p)
  let s := s.set p fun q => { q with state := .zombie }
  let s ← s.release .waitLock
  s.callSched p .exit

/-- The loop of `alloc_proc` over a list of slots, where `memory` says whether there is memory for
the new process. -/
def allocLoop (memory : Bool) : List (Fin n) → Machine n → Except Fault (Machine n)
  | [], s => .ok s
  | np :: nps, s => do
    let s ← s.acquire (.proc np)
    if (s.pool np).state = .unused then
      let s ← s.acquire .pidLock
      let s ← s.release .pidLock
      let s := s.set np fun q => { q with state := .used, priority := defaultProcPrio }
      if memory then
        let s := s.set np fun q => { q with context := .forkRet }
        let s ← s.release (.proc np)
        .ok { s with lastAllocProcGid := np }
      else
        let s := s.set np fun q => { q with state := .unused, parent := none, chan := none }
        s.release (.proc np)
    else
      let s ← s.release (.proc np)
      allocLoop memory nps s

def allocProc (p : Fin n) (memory : Bool) : Except Fault (Machine n) :=
  allocLoop memory ((List.finRange n).map fun i =>
    (⟨(s.lastAllocProcGid + i) % n, Nat.mod_lt _ p.pos⟩ : Fin n)) s

/-- `fork` of `p` sets the parent of `np`. -/
def setParent (p np : Fin n) : Except Fault (Machine n) := do
  let s ← s.acquire .waitLock
  (s.set np fun q => { q with parent := some p }).release .waitLock

/-- `wait` of a process finds the zombie `np` and frees it. -/
def reap (np : Fin n) : Except Fault (Machine n) := do
  let s ← s.acquire .waitLock
  let s ← s.acquire (.proc np)
  let s := s.set np fun q => { q with state := .unused, parent := none, chan := none }
  let s ← s.release (.proc np)
  s.release .waitLock

/-- The clock interrupt: `handle_clock_intr` with interrupts off, where `lock` is the lock of the
timer. -/
def clockIntr (lock : LockId n) (chan : Chan n) : Except Fault (Machine n) := do
  let s := { s with cpu := { s.cpu with interruptible := false } }
  let s ← s.acquire lock
  let s ← s.wakeup chan
  let s ← s.release lock
  .ok { s with cpu := { s.cpu with interruptible := true } }

end Machine

open Machine in
/-- What may run next, where `init` is the slot of the init process.  A process calls `yield` and
`exit` with no lock, `sleep` with the lock that it passes, and takes no lock twice. -/
inductive Next {n : Nat} (init : Fin n) (s : Machine n) : Except Fault (Machine n) → Prop
  | schedule (hc : s.control = .scheduler) : Next init s s.schedule
  | clockIntr (k : Nat) (chan : Chan n) (hc : s.control = .scheduler)
      (hint : s.cpu.interruptible = true) : Next init s (s.clockIntr (.other k) chan)
  | scheduled (p : Fin n) (hc : s.control = .toScheduler p) : Next init s s.scheduled
  | resume (p : Fin n) (hc : s.control = .toProc p) : Next init s (s.resume p)
  | yield (p : Fin n) (hc : s.control = .process p) (hfree : ∀ l, s.cpu.locked l = false) :
      Next init s (s.yield p)
  | sleep (p : Fin n) (chan : Chan n) (lock : LockId n) (hc : s.control = .process p)
      (hheld : ∀ l, s.cpu.locked l = true ↔ l = lock) : Next init s (s.sleep p chan lock)
  | wakeup (p : Fin n) (chan : Chan n) (hc : s.control = .process p)
      (hfree : ∀ q, s.cpu.locked (.proc q) = false) : Next init s (s.wakeup chan)
  | allocProc (p : Fin n) (memory : Bool) (hc : s.control = .process p)
      (hfree : ∀ q, s.cpu.locked (.proc q) = false) (hpid : s.cpu.locked .pidLock = false) :
      Next init s (s.allocProc p memory)
  | setParent (p np : Fin n) (hc : s.control = .process p) (hnp : (s.pool np).state = .used)
      (hfree : s.cpu.locked .waitLock = false) : Next init s (s.setParent p np)
  | forkFail (p np : Fin n) (hc : s.control = .process p) (hnp : (s.pool np).state = .used) :
      Next init s
      (.ok (s.set np fun q => { q with state := .unused, parent := none, chan := none }))
  | forkRun (p np : Fin n) (hc : s.control = .process p) (hnp : (s.pool np).state = .used) :
      Next init s (.ok (s.set np fun q => { q with state := .runnable }))
  | exit (p : Fin n) (hc : s.control = .process p) (hinit : p ≠ init)
      (hfree : ∀ l, s.cpu.locked l = false) : Next init s (s.exitProc init p)
  | reap (p np : Fin n) (hc : s.control = .process p) (hnp : (s.pool np).state = .zombie)
      (hfree : s.cpu.locked .waitLock = false) (hlock : s.cpu.locked (.proc np) = false) :
      Next init s (s.reap np)
  | acquire (p : Fin n) (l : LockId n) (hc : s.control = .process p)
      (hfree : s.cpu.locked l = false) : Next init s (s.acquire l)
  | release (p : Fin n) (l : LockId n) (hc : s.control = .process p)
      (hheld : s.cpu.locked l = true) : Next init s (s.release l)
  | interrupt (p : Fin n) (on : Bool) (hc : s.control = .process p) (hoff : s.cpu.numOff = 0) :
      Next init s (.ok { s with cpu := { s.cpu with interruptible := on } })

/-- The machine when `start_schedule` begins: the init process is ready to run for the first time,
no lock is held. -/
def Machine.boot {n : Nat} (init : Fin n) (intEna interruptible : Bool) (priority : Int)
    (ena : Fin n → Bool) : Machine n where
  cpu := ⟨⟨0, intEna, interruptible⟩, fun _ => false⟩
  curProc := none
  pool := fun p => ⟨if p = init then .runnable else .unused, defaultProcPrio, none, none,
    .forkRet⟩
  lastAllocProcGid := init
  slot := n
  needed := true
  priority
  control := .scheduler
  ena

inductive MachineReach {n : Nat} (init : Fin n) : Machine n → Prop
  | boot (intEna interruptible : Bool) (priority : Int) (ena : Fin n → Bool) :
      MachineReach init (Machine.boot init intEna interruptible priority ena)
  | step {s s' : Machine n} (h : MachineReach init s) (hs : Next init s (.ok s')) :
      MachineReach init s'

end OsKernel.Pm

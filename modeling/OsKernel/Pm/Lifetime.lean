import Mathlib.Data.List.FinRange
import Mathlib.Data.List.Nodup

/-! The life of a process from `fork` through `exit` to the `wait` of its parent.  What runs under
`_wait_lock`, or under the lock of one `Pcb`, is one step, and so is a context switch in
`call_sched`.  Any number of processes may be running at once. -/

namespace OsKernel.Pm

inductive ProcState where
  | unused
  | used
  | sleeping
  | runnable
  | running
  | zombie
  deriving DecidableEq

/-- The kernel call that a process is in, where other processes may run before it ends. -/
inductive Call (n : Nat) where
  | none
  /-- `fork` after `alloc_proc` has given it the slot `np`. -/
  | fork (np : Fin n)
  /-- `fork` after it has set the parent of `np`. -/
  | forked (np : Fin n)
  | wait (childPid : Int)
  deriving DecidableEq

/-- The fields of a `Pcb` that `fork`, `exit_proc` and `wait` share.  `locked` says that `_lock` is
held, and `onStack` that the process runs on its kernel stack. -/
structure Proc (n : Nat) where
  state : ProcState
  pid : Nat
  parent : Option (Fin n)
  chan : Option (Fin n)
  killed : Bool
  xstate : BitVec 32
  locked : Bool
  onStack : Bool
  call : Call n

/-- A child that a call of `wait` has returned. -/
structure Reap where
  pid : Nat
  status : BitVec 32

/-- The pool with the history of the calls: the exits with their codes, the children that `wait` has
returned, and the processes that `freeproc` was applied to. -/
structure Pool (n : Nat) where
  procs : Fin n → Proc n
  curPid : Nat
  lastAllocProcGid : Fin n
  exits : List (Nat × BitVec 32)
  reaps : List Reap
  freed : List Nat

/-- `freeproc`, on the fields kept here. -/
def Proc.freeproc {n : Nat} (p : Proc n) : Proc n :=
  { p with
    pid := 0, parent := none, chan := none, killed := false, xstate := 0, state := .unused
    call := .none }

namespace Pool

variable {n : Nat} (s : Pool n)

/-- One process changed. -/
def set (p : Fin n) (f : Proc n → Proc n) : Pool n :=
  { s with procs := Function.update s.procs p (f (s.procs p)) }

/-- The process `p` runs on some processor, outside a context switch. -/
def Running (p : Fin n) : Prop :=
  (s.procs p).state = .running ∧ (s.procs p).onStack = true ∧ (s.procs p).locked = false

/-- The slots in the order in which `alloc_proc` looks at them. -/
def allocOrder : List (Fin n) :=
  (List.finRange n).map fun i =>
    ⟨(s.lastAllocProcGid + i) % n, Nat.mod_lt _ s.lastAllocProcGid.pos⟩

/-- The slot that `alloc_proc` takes. -/
def allocSlot : Option (Fin n) := s.allocOrder.find? fun p => (s.procs p).state = .unused

/-- The section of `alloc_proc` that takes the slot `np` for a `fork` of `p`. -/
def alloc (p np : Fin n) : Pool n :=
  { (s.set np fun q => { q with pid := s.curPid, state := .used, call := .none }).set p
      fun q => { q with call := .fork np } with
    curPid := s.curPid + 1
    lastAllocProcGid := np }

/-- The section of `alloc_proc` where it finds no memory for the slot `np`. -/
def allocFail (np : Fin n) : Pool n :=
  { s.set np Proc.freeproc with
    curPid := s.curPid + 1
    freed := s.freed ++ [s.curPid] }

/-- The processes that `wait( childPid )` of `p` looks at, in the order of the pool. -/
def kids (p : Fin n) (childPid : Int) : List (Fin n) :=
  (List.finRange n).filter fun np =>
    (childPid ≤ 0 ∨ (s.procs np).pid = childPid) ∧ (s.procs np).parent = some p

/-- The first zombie that `wait( childPid )` of `p` meets. -/
def zombieKid (p : Fin n) (childPid : Int) : Option (Fin n) :=
  (s.kids p childPid).find? fun np => (s.procs np).state = .zombie

/-- The process `q` after `reparent( p )` and `wakeup( p->parent )`. -/
def orphan (init p : Fin n) (q : Proc n) : Proc n :=
  { q with
    parent := if q.parent = some p then some init else q.parent
    state := if q.state = .sleeping ∧ (s.procs p).parent ≠ none ∧
        q.chan = (s.procs p).parent then
      .runnable else q.state }

/-- The section of `exit_proc` under `_wait_lock`. -/
def exit (init p : Fin n) (code : BitVec 32) : Pool n :=
  { s with
    procs := fun q => if q = p then
        { s.orphan init p (s.procs p) with locked := true, xstate := code <<< 8, state := .zombie }
      else s.orphan init p (s.procs q)
    exits := s.exits ++ [((s.procs p).pid, code)] }

/-- `wait` of `p` returns the child `np`. -/
def reap (p np : Fin n) : Pool n :=
  { (s.set np Proc.freeproc).set p fun q => { q with call := .none } with
    reaps := s.reaps ++ [⟨(s.procs np).pid, (s.procs np).xstate⟩]
    freed := s.freed ++ [(s.procs np).pid] }

/-- `fork` of `p` fails and gives back the slot `np`. -/
def forkFail (p np : Fin n) : Pool n :=
  { (s.set np Proc.freeproc).set p fun q => { q with call := .none } with
    freed := s.freed ++ [(s.procs np).pid] }

/-- The pool after a `fork` of `p` that takes the slot `np`. -/
def forked (p np : Fin n) : Pool n :=
  ((((s.alloc p np).set np fun q => { q with parent := some p }).set p
    fun q => { q with call := .forked np }).set np fun q => { q with state := .runnable }).set p
    fun q => { q with call := .none }

end Pool

inductive PoolEvent (n : Nat) where
  | reap (p np : Fin n) (pid : Nat) (status : BitVec 32)
  | exit (p : Fin n)
  | other

open Pool in
/-- The steps of the pool, where `init` is the slot of the init process. -/
inductive PoolStep {n : Nat} (init : Fin n) : Pool n → PoolEvent n → Pool n → Prop
  | alloc {s : Pool n} (p np : Fin n) (hrun : s.Running p) (hcall : (s.procs p).call = .none)
      (hnp : s.allocSlot = some np) (hlock : (s.procs np).locked = false) :
      PoolStep init s .other (s.alloc p np)
  | allocFail {s : Pool n} (p np : Fin n) (hrun : s.Running p) (hcall : (s.procs p).call = .none)
      (hnp : s.allocSlot = some np) (hlock : (s.procs np).locked = false) :
      PoolStep init s .other (s.allocFail np)
  | forkFail {s : Pool n} (p np : Fin n) (hrun : s.Running p)
      (hcall : (s.procs p).call = .fork np) : PoolStep init s .other (s.forkFail p np)
  | forkParent {s : Pool n} (p np : Fin n) (hrun : s.Running p)
      (hcall : (s.procs p).call = .fork np) :
      PoolStep init s .other ((s.set np fun q => { q with parent := some p }).set p
        fun q => { q with call := .forked np })
  | forkRun {s : Pool n} (p np : Fin n) (hrun : s.Running p)
      (hcall : (s.procs p).call = .forked np) :
      PoolStep init s .other ((s.set np fun q => { q with state := .runnable }).set p
        fun q => { q with call := .none })
  | exit {s : Pool n} (p : Fin n) (code : BitVec 32) (hrun : s.Running p)
      (hcall : (s.procs p).call = .none) (hinit : p ≠ init)
      (hlocks : ∀ q, (s.procs q).locked = false) : PoolStep init s (.exit p) (s.exit init p code)
  | switch {s : Pool n} (p : Fin n) (hlock : (s.procs p).locked = true)
      (hstack : (s.procs p).onStack = true) :
      PoolStep init s .other (s.set p fun q => { q with locked := false, onStack := false })
  | waitCall {s : Pool n} (p : Fin n) (childPid : Int) (hrun : s.Running p)
      (hcall : (s.procs p).call = .none)
      (hchild : 0 < childPid → s.kids p childPid ≠ []) :
      PoolStep init s .other (s.set p fun q => { q with call := .wait childPid })
  | reap {s : Pool n} (p np : Fin n) (childPid : Int) (hrun : s.Running p)
      (hcall : (s.procs p).call = .wait childPid) (hnp : s.zombieKid p childPid = some np)
      (hlocks : ∀ q ∈ s.kids p childPid, q ≤ np → (s.procs q).locked = false) :
      PoolStep init s (.reap p np (s.procs np).pid (s.procs np).xstate) (s.reap p np)
  | waitFault {s : Pool n} (p np : Fin n) (childPid : Int) (hrun : s.Running p)
      (hcall : (s.procs p).call = .wait childPid) (hnp : s.zombieKid p childPid = some np)
      (hlocks : ∀ q ∈ s.kids p childPid, q ≤ np → (s.procs q).locked = false) :
      PoolStep init s .other (s.set p fun q => { q with call := .none })
  | waitNone {s : Pool n} (p : Fin n) (childPid : Int) (hrun : s.Running p)
      (hcall : (s.procs p).call = .wait childPid) (hnp : s.zombieKid p childPid = none)
      (hlocks : ∀ q ∈ s.kids p childPid, (s.procs q).locked = false)
      (hend : s.kids p childPid = [] ∨ (s.procs p).killed = true) :
      PoolStep init s .other (s.set p fun q => { q with call := .none })
  | waitSleep {s : Pool n} (p : Fin n) (childPid : Int) (hrun : s.Running p)
      (hcall : (s.procs p).call = .wait childPid) (hnp : s.zombieKid p childPid = none)
      (hlocks : ∀ q ∈ s.kids p childPid, (s.procs q).locked = false)
      (hkids : s.kids p childPid ≠ []) (hkilled : (s.procs p).killed = false) :
      PoolStep init s .other (s.set p fun q =>
        { q with locked := true, chan := some p, state := .sleeping })
  | yield {s : Pool n} (p : Fin n) (hrun : s.Running p) :
      PoolStep init s .other (s.set p fun q => { q with locked := true, state := .runnable })
  | schedule {s : Pool n} (p : Fin n) (hstate : (s.procs p).state = .runnable)
      (hlock : (s.procs p).locked = false) :
      PoolStep init s .other (s.set p fun q =>
        { q with state := .running, onStack := true, chan := none })
  | kill {s : Pool n} (p : Fin n) :
      PoolStep init s .other (s.set p fun q => { q with killed := true })

/-- The pool when the init process starts to run. -/
def Pool.start {n : Nat} (init : Fin n) : Pool n where
  procs := fun p => if p = init then
      ⟨.running, 1, none, none, false, 0, false, true, .none⟩
    else ⟨.unused, 0, none, none, false, 0, false, false, .none⟩
  curPid := 2
  lastAllocProcGid := init
  exits := []
  reaps := []
  freed := []

/-- The states that a run of steps reaches, each of which satisfies `ok`. -/
inductive PoolReach {n : Nat} (init : Fin n) (ok : Pool n → PoolEvent n → Prop) : Pool n →
    Prop
  | start : PoolReach init ok (Pool.start init)
  | step {s s' : Pool n} {e : PoolEvent n} (h : PoolReach init ok s) (hok : ok s e)
      (hs : PoolStep init s e s') : PoolReach init ok s'

namespace PoolReach

variable {n : Nat} {init : Fin n} {ok : Pool n → PoolEvent n → Prop} {s : Pool n}

/-- The steps of a `fork` that succeeds. -/
theorem forked (h : PoolReach init ok s) (hok : ∀ s, ok s .other) (p np : Fin n)
    (hrun : s.Running p) (hcall : (s.procs p).call = .none) (hnp : s.allocSlot = some np)
    (hlock : (s.procs np).locked = false) (hne : p ≠ np) :
    PoolReach init ok (s.forked p np) := by
  have h1 := h.step (hok _) (PoolStep.alloc p np hrun hcall hnp hlock)
  have hrun1 : (s.alloc p np).Running p := by
    simpa [Pool.Running, Pool.alloc, Pool.set, hne] using hrun
  have h2 := h1.step (hok _) (PoolStep.forkParent p np hrun1
    (by simp [Pool.alloc, Pool.set]))
  refine h2.step (hok _) (PoolStep.forkRun p np ?_ (by simp [Pool.set]))
  simpa [Pool.Running, Pool.alloc, Pool.set, hne] using hrun

end PoolReach

end OsKernel.Pm

import OsKernel.Mm.Vmm.UserAccess
import OsKernel.Pm.DentryUsers

/-! The system calls on descriptors, with what they leave behind when they fail. -/

namespace OsKernel.Pm

open Fs Hsai Mm Lib.BuddySystem BuddyAllocator

/-- The bytes of an `int`. -/
def intBytes (v : Int) : List UInt8 :=
  (List.range 4).map fun i => UInt8.ofNat ((v % 2 ^ 32).toNat / 256 ^ i)

namespace Tables

variable (t : Tables) (p : Fin numProcess)

/-- `open` with a new object at `f`.  The path leads from the file of `dirFd` to a node, of which
`search` gives the device number and the type, or to none. -/
def openat (dirFd : Int) (search : Option Nat → Option (Int × FileTypes)) (f : Nat) :
    Int × Tables :=
  match search (if dirFd = atFdcwd then none else t.getOpenFile p dirFd) with
  | none => (-1, t)
  | some (dev, filetype) => t.openFile p f dev filetype

/-- The descriptors that `pipe` stores. -/
def pipeFds (id f0 f1 : Nat) : Int × Int :=
  let t : Tables := { t with store := t.store.createPipe id f0 f1 }
  let a := t.allocFd p f0
  (a.1, (a.2.allocFd p f1).1)

/-- `_sys_pipe`. -/
def sysPipe {σ : Type} (arch : Arch) (V : VirtualPageAllocator σ) (k : Kernel σ) (pt : PageTable)
    (addr id f0 f1 : Nat) : Except Fault (Int × Tables × Kernel σ) := do
  let fd ← copyIn arch V k pt addr 8
  if fd.1 < 0 then return (-1, t, k)
  else do
    let r ← t.pipe p id f0 f1
    if r.1 < 0 then return (-1, r.2, k)
    else do
      let fds := t.pipeFds p id f0 f1
      let c ← copyout arch V k pt addr (intBytes fds.1 ++ intBytes fds.2)
      if c.1 < 0 then return (-1, r.2, c.2) else return (0, r.2, c.2)

/-- `fcntl( oldfd, F_DUPFD_CLOEXEC, arg )`. -/
def fcntlDupFdCloexec (oldfd arg : Int) : Except Fault (Int × Tables) :=
  match t.getOpenFile p oldfd with
  | none => .ok (-1, t)
  | some f => do
    let r ← t.dupFdFrom p f (maxOpenFiles - arg).toNat arg
    match r.2.getOpenFile p r.1 with
    | none => .error (.undefined "null file")
    | some g =>
      match r.2.store.files g with
      | none => .error (.undefined "use of a deleted file")
      | some o => .ok (r.1, { r.2 with store := { r.2.store with
          files := Function.update r.2.store.files g (some { o with flCloexec := true }) } })

/-- `_sys_splice`, where `moved` is what it gives once the files are there and one of them is
a pipe. -/
def sysSplice (fdIn fdOut moved : Int) : Except Fault (Int × Tables) :=
  match fdIndex fdIn, fdIndex fdOut with
  | some i, some o =>
    match (t.procs p).ofile i, (t.procs p).ofile o with
    | some fileIn, some fileOut =>
      match t.store.files fileIn, t.store.files fileOut with
      | some a, some b =>
        if (a.filetype = .pipe ↔ b.filetype = .pipe) then .ok (-1, t) else .ok (moved, t)
      | _, _ => .error (.undefined "use of a deleted file")
    | _, _ => .ok (-1, t)
  | _, _ => .error (.undefined "_ofile: read out of bounds")

/-- The descriptors of all processes, and which file objects there are with which counts, are
the same. -/
def SameFiles (t t' : Tables) : Prop :=
  (∀ q, (t'.procs q).ofile = (t.procs q).ofile) ∧ t'.store.cnt = t.store.cnt

/-- A call does nothing undefined, and if it returns a negative value, it leaves descriptors and
files as they were. -/
def FailsClean (x : Except Fault (Int × Tables)) : Prop :=
  (∀ what, x ≠ .error (.undefined what)) ∧ ∀ r t', x = .ok (r, t') → r < 0 →
    t.SameFiles t'

end Tables

/-- A call on descriptors, with the addresses that `new` gives in it. -/
inductive DescriptorCall
  | openat (dirFd : Int) (search : Option Nat → Option (Int × FileTypes)) (f : Nat)
  | pipe (addr id f0 f1 : Nat)
  | dup (oldfd : Int)
  | dup2 (oldfd fd : Int)
  | dupFd (oldfd arg : Int)
  | dupFdCloexec (oldfd arg : Int)
  | splice (fdIn fdOut moved : Int)

namespace DescriptorCall

/-- The addresses from `new` are not in use, and the address of the user is one. -/
def Valid (t : Tables) : DescriptorCall → Prop
  | openat _ _ f => t.store.files f = none
  | pipe addr id f0 f1 => addr < 2 ^ 64 ∧ t.store.pipes id = none ∧ t.store.files f0 = none ∧
      t.store.files f1 = none ∧ f0 ≠ f1
  | _ => True

def run {σ : Type} (arch : Arch) (V : VirtualPageAllocator σ) (k : Kernel σ) (pt : PageTable)
    (t : Tables) (p : Fin numProcess) : DescriptorCall → Except Fault (Int × Tables)
  | openat dirFd search f => .ok (t.openat p dirFd search f)
  | pipe addr id f0 f1 => (t.sysPipe p arch V k pt addr id f0 f1).map fun r => (r.1, r.2.1)
  | dup oldfd => t.dup p oldfd
  | dup2 oldfd fd => t.dup2 p oldfd fd
  | dupFd oldfd arg => t.fcntlDupFd p oldfd arg
  | dupFdCloexec oldfd arg => t.fcntlDupFdCloexec p oldfd arg
  | splice fdIn fdOut moved => t.sysSplice p fdIn fdOut moved

/-- `fd` is an index of `_ofile`. -/
def InRange (fd : Int) : Prop := 0 ≤ fd ∧ fd < maxOpenFiles

/-- There is a free descriptor from `arg` on. -/
def HasFree (t : Tables) (p : Fin numProcess) (arg : Int) : Prop :=
  ∃ fd : Fin maxOpenFiles, arg ≤ fd.val ∧ (t.procs p).ofile fd = none

/-- When a call fails cleanly. -/
def Ok (t : Tables) (p : Fin numProcess) : DescriptorCall → Prop
  | openat dirFd search _ =>
    search (if dirFd = atFdcwd then none else t.getOpenFile p dirFd) = none ∨ HasFree t p 0
  | pipe _ _ _ _ => True
  | dup _ => True
  | dup2 oldfd fd => t.getOpenFile p oldfd = none ∨ InRange fd
  | dupFd oldfd arg => t.getOpenFile p oldfd = none ∨ 0 ≤ arg
  | dupFdCloexec oldfd arg => t.getOpenFile p oldfd = none ∨ 0 ≤ arg ∧ HasFree t p arg
  | splice fdIn fdOut _ => InRange fdIn ∧ InRange fdOut

end DescriptorCall

end OsKernel.Pm

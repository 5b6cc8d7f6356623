import OsKernel.Fs.File
import OsKernel.Hsai.Page
import OsKernel.Pm.Reap

/-! The descriptor tables and memory areas of the processes, as far as they point to files: the
system calls on descriptors, `mmap` and `munmap`, and the parts of `fork`, `execve`, `exit_proc` and
`freeproc` that copy and drop references. -/

namespace OsKernel.Pm
open Fs Hsai

def numProcess : Nat := 32

instance : NeZero numProcess := ⟨by decide⟩

def maxOpenFiles : Nat := 1024

def maxVmaNum : Nat := 64

def defaultProcUstackPages : Nat := 32

/-- `vma`. -/
structure Vma where
  isUsed : Bool
  address : Nat
  length : Int
  vfile : Option Nat

/-- The fields of a `Pcb` that are about files and memory areas. -/
structure FilePcb where
  state : ProcState
  ofile : Fin maxOpenFiles → Option Nat
  vm : Fin maxVmaNum → Vma
  sz : Nat

structure Tables where
  procs : Fin numProcess → FilePcb
  store : FileStore

/-- The index in `_ofile` of a descriptor in range. -/
def fdIndex (fd : Int) : Option (Fin maxOpenFiles) :=
  if h : 0 ≤ fd ∧ fd < maxOpenFiles then some ⟨fd.toNat, by omega⟩ else none

/-- What `vm_alloc` gives for a range, where `ok` says that there was memory. -/
def vmAllocSize (oldSz newSz : Nat) (ok : Bool) : Nat :=
  if newSz < oldSz then oldSz else if ok then newSz else 0

namespace Tables

variable (t : Tables) (p : Fin numProcess)

def setProc (f : FilePcb → FilePcb) : Tables :=
  { t with procs := Function.update t.procs p (f (t.procs p)) }

/-- `p->_ofile[ fd ] = v`. -/
def setFd (fd : Fin maxOpenFiles) (v : Option Nat) : Tables :=
  t.setProc p fun q => { q with ofile := Function.update q.ofile fd v }

/-- `p->vm[ i ] = v`. -/
def setVma (i : Fin maxVmaNum) (v : Vma) : Tables :=
  t.setProc p fun q => { q with vm := Function.update q.vm i v }

/-- `get_open_file`. -/
def getOpenFile (fd : Int) : Option Nat := (fdIndex fd).bind (t.procs p).ofile

def freeFile (f : Nat) : Except Fault Tables := do
  let store ← t.store.freeFile f
  return { t with store }

def dupFile (f : Nat) : Except Fault Tables := do
  let store ← t.store.dup f
  return { t with store }

/-- `free_file` unless the pointer is null. -/
def freeOpt : Option Nat → Except Fault Tables
  | none => .ok t
  | some f => t.freeFile f

/-- `dup` unless the pointer is null. -/
def dupOpt : Option Nat → Except Fault Tables
  | none => .ok t
  | some f => t.dupFile f

/-- `alloc_fd( p, f )`. -/
def allocFd (f : Nat) : Int × Tables :=
  match (List.finRange maxOpenFiles).find? fun fd => (t.procs p).ofile fd = none with
  | some fd => (fd.val, t.setFd p fd (some f))
  | none => (-1, t)

/-- `alloc_fd( p, f, fd )`. -/
def allocFdAt (f : Nat) (fd : Int) : Int × Tables :=
  match fdIndex fd with
  | none => (-1, t)
  | some i => if (t.procs p).ofile i = none then (fd, t.setFd p i (some f)) else (-1, t)

/-- `open` of a file whose node has the device number `dev` and the type `filetype`, with a new
object at `f`. -/
def openFile (f : Nat) (dev : Int) (filetype : FileTypes) : Int × Tables :=
  let cls := if 0 ≤ dev ∧ dev < 1024 then .device else .normal
  ({ t with store := t.store.create f cls filetype } : Tables).allocFd p f

/-- `close`. -/
def close (fd : Int) : Except Fault (Int × Tables) :=
  match fdIndex fd with
  | none => .ok (-1, t)
  | some i =>
    match (t.procs p).ofile i with
    | none => .ok (0, t)
    | some f => do
      let t ← t.freeFile f
      return (0, t.setFd p i none)

/-- `pipe`, with a new pipe at `id` and its files at `f0` and `f1`. -/
def pipe (id f0 f1 : Nat) : Except Fault (Int × Tables) :=
  let t : Tables := { t with store := t.store.createPipe id f0 f1 }
  let a := t.allocFd p f0
  let b := a.2.allocFd p f1
  if a.1 < 0 then do
    let t ← t.freeFile f0
    let t ← t.freeFile f1
    return (-1, t)
  else if b.1 < 0 then do
    -- The descriptor of the read end is free again: the slots are those of before.
    let t ← t.freeFile f0
    let t ← t.freeFile f1
    return (-1, t)
  else .ok (0, b.2)

/-- `_sys_dup`. -/
def dup (oldfd : Int) : Except Fault (Int × Tables) :=
  match t.getOpenFile p oldfd with
  | none => .ok (-1, t)
  | some f =>
    let r := t.allocFd p f
    if r.1 < 0 then .ok (-1, r.2)
    else do
      let t ← r.2.dupFile f
      return (r.1, t)

/-- `_sys_dup2`. -/
def dup2 (oldfd fd : Int) : Except Fault (Int × Tables) :=
  match t.getOpenFile p oldfd with
  | none => .ok (-1, t)
  | some f =>
    if fd = oldfd then .ok (fd, t)
    else if fdIndex fd = none then .error (.undefined "_ofile: read out of bounds")
    else do
      let c ← t.close p fd
      let r := c.2.allocFdAt p f fd
      if r.1 < 0 then .ok (-1, r.2)
      else do
        let t ← r.2.dupFile f
        return (fd, t)

/-- The loop of `F_DUPFD` from the descriptor `i`, with `left` turns left. -/
def dupFdFrom (f : Nat) : Nat → Int → Except Fault (Int × Tables)
  | 0, _ => .ok (-1, t)
  | left + 1, i =>
    let r := t.allocFdAt p f i
    if r.1 = i then do
      let t ← r.2.dupFile f
      return (i, t)
    else dupFdFrom f left (i + 1)

/-- `fcntl( oldfd, F_DUPFD, arg )`. -/
def fcntlDupFd (oldfd arg : Int) : Except Fault (Int × Tables) :=
  match t.getOpenFile p oldfd with
  | none => .ok (-1, t)
  | some f => t.dupFdFrom p f (maxOpenFiles - arg).toNat arg

/-- `fcntl( fd, F_SETFD, FD_CLOEXEC )`. -/
def fcntlSetFd (fd : Int) : Except Fault (Int × Tables) :=
  match t.getOpenFile p fd with
  | none => .ok (-1, t)
  | some f =>
    match t.store.files f with
    | none => .error (.undefined "use of a deleted file")
    | some o => .ok (0, { t with store := { t.store with
        files := Function.update t.store.files f (some { o with flCloexec := true }) } })

/-- The first memory area that is not in use. -/
def freeVma : Option (Fin maxVmaNum) :=
  (List.finRange maxVmaNum).find? fun i => ((t.procs p).vm i).isUsed = false

/-- `mmap`, where `allocOk` says that `vm_alloc` finds memory and `copyOk` that `copyout` of the
contents works. -/
def mmap (fd mapSize : Int) (allocOk copyOk : Bool) : Except Fault (Int × Tables) :=
  let fst := (t.procs p).sz
  let fsz := (mapSize % wordSize).toNat
  let newSz := vmAllocSize fst ((fst + fsz) % wordSize) allocOk
  if fd = -1 then
    if newSz = 0 then .ok (-1, t)
    else
      match t.freeVma p with
      | none => .ok (-1, t)
      | some i => .ok (Int.bmod fst (2 ^ 32),
          (t.setVma p i ⟨true, fst, mapSize, none⟩).setProc p fun q => { q with sz := newSz })
  else if fd ≤ 2 ∨ maxOpenFiles ≤ fd ∨ mapSize < 0 then .ok (-1, t)
  else
    match t.getOpenFile p fd with
    | none => .error (.undefined "null file")
    | some f =>
      match t.store.files f with
      | none => .error (.undefined "use of a deleted file")
      | some o =>
        if o.filetype ≠ .normal then .ok (-1, t)
        else
          match t.freeVma p with
          | none => .ok (-1, t)
          | some i =>
            if newSz = 0 then .ok (-1, t)
            else do
              let t ← (t.setVma p i ⟨true, fst, mapSize, some f⟩).dupFile f
              let t := t.setProc p fun q => { q with sz := newSz }
              return (if copyOk then Int.bmod fst (2 ^ 32) else -1, t)

/-- `munmap`. -/
def munmap (va : Nat) : Except Fault (Int × Tables) :=
  match (List.finRange maxVmaNum).find? fun i => ((t.procs p).vm i).address = pageRoundDown va with
  | none => .ok (-1, t)
  | some i => do
    let v := (t.procs p).vm i
    let t ← t.freeOpt v.vfile
    return (0, t.setVma p i { v with isUsed := false, address := 0 })

/-- The copy of a memory area in `fork` of `p` to `np`. -/
def copyVma (np : Fin numProcess) (t : Tables) (i : Fin maxVmaNum) : Except Fault Tables :=
  let v := (t.procs p).vm i
  if v.isUsed then do
    let t ← t.dupOpt v.vfile
    return t.setVma np i v
  else .ok t

/-- The copy of a descriptor in `fork` of `p` to `np`. -/
def copyFd (np : Fin numProcess) (t : Tables) (i : Fin maxOpenFiles) : Except Fault Tables :=
  match (t.procs p).ofile i with
  | none => .ok t
  | some f => do
    let t ← t.dupFile f
    return t.setFd np i (some f)

/-- `fork` of `p`, for which `alloc_proc` gives the slot `np`. -/
def fork (np : Fin numProcess) : Except Fault Tables := do
  let t := t.setProc np fun q => { q with state := .used, sz := (t.procs p).sz }
  let t ← (List.finRange maxVmaNum).foldlM (copyVma p np) t
  let t ← (List.finRange maxOpenFiles).foldlM (copyFd p np) t
  return t.setProc np fun q => { q with state := .runnable }

/-- The turn of `execve` that closes a descriptor. -/
def closeOnExec (t : Tables) (i : Fin maxOpenFiles) : Except Fault Tables :=
  match (t.procs p).ofile i with
  | none => .ok t
  | some f =>
    match t.store.files f with
    | none => .error (.undefined "use of a deleted file")
    | some o =>
      if o.flCloexec && !o.alwaysOn then do
        let t ← t.freeFile f
        return t.setFd p i none
      else .ok t

/-- The turn of `execve` that drops a memory area. -/
def unmapVma (t : Tables) (i : Fin maxVmaNum) : Except Fault Tables :=
  let v := (t.procs p).vm i
  if v.isUsed then do
    let t ← t.freeOpt v.vfile
    return t.setVma p i ⟨false, 0, 0, none⟩
  else .ok t

/-- What a successful `execve` does.  The new image has `segPages` pages of segments and program
headers, and the stack with its guard page. -/
def execve (segPages : Nat) : Except Fault Tables := do
  let t ← (List.finRange maxOpenFiles).foldlM (closeOnExec p) t
  let t := t.setProc p fun q =>
    { q with sz := (segPages + defaultProcUstackPages + 1) * pageSize }
  let t ← (List.finRange maxVmaNum).foldlM (unmapVma p) t
  return t.setProc p fun q => { q with state := .runnable }

/-- The turn of `exit_proc`, and of `freeproc`, that drops a descriptor. -/
def dropFd (t : Tables) (i : Fin maxOpenFiles) : Except Fault Tables :=
  match (t.procs p).ofile i with
  | none => .ok t
  | some f =>
    match t.store.files f with
    | none => .error (.undefined "use of a deleted file")
    | some o =>
      if 0 < o.refcnt then do
        let t ← t.freeFile f
        return t.setFd p i none
      else .ok t

/-- The turn of `exit_proc` that drops a memory area. -/
def dropVma (t : Tables) (i : Fin maxVmaNum) : Except Fault Tables :=
  let v := (t.procs p).vm i
  if v.address ≠ 0 then do
    let t ← t.freeOpt v.vfile
    return t.setVma p i { v with isUsed := false, address := 0, vfile := none }
  else .ok t

/-- `exit_proc`. -/
def exitProc : Except Fault Tables := do
  let t ← (List.finRange maxOpenFiles).foldlM (dropFd p) t
  let t ← (List.finRange maxVmaNum).foldlM (dropVma p) t
  return t.setProc p fun q => { q with state := .zombie }

/-- `freeproc` of a process that `wait` has found to be a zombie. -/
def freeproc : Except Fault Tables :=
  (List.finRange maxOpenFiles).foldlM (dropFd p)
    (t.setProc p fun q => { q with sz := 0, state := .unused })

end Tables

/-- The tables when the init process has opened its three devices. -/
def Tables.start (init : Fin numProcess) (sz f0 f1 f2 : Nat) : Tables where
  procs := fun p => if p = init then
      ⟨.running, fun fd => if fd.val = 0 then some f0 else if fd.val = 1 then some f1
        else if fd.val = 2 then some f2 else none, fun _ => ⟨false, 0, 0, none⟩, sz⟩
    else ⟨.unused, fun _ => none, fun _ => ⟨false, 0, 0, none⟩, 0⟩
  store := ⟨fun f => if f = f0 ∨ f = f1 ∨
    f = f2 then some ⟨.device, .device, 1, false, true⟩ else none,
    fun _ => none⟩

/-- The calls of the processes, each of which succeeds. -/
inductive FilesStep (init : Fin numProcess) (t : Tables) : Tables → Prop
  | openFile {t' : Tables} {v : Int} (p : Fin numProcess) (f : Nat) (dev : Int)
      (filetype : FileTypes) (hp : (t.procs p).state.live = true) (hf : t.store.files f = none)
      (hrun : t.openFile p f dev filetype = (v, t')) (hv : 0 ≤ v) : FilesStep init t t'
  | pipe {t' : Tables} {v : Int} (p : Fin numProcess) (id f0 f1 : Nat)
      (hp : (t.procs p).state.live = true) (hid : t.store.pipes id = none)
      (hf0 : t.store.files f0 = none) (hf1 : t.store.files f1 = none) (hne : f0 ≠ f1)
      (hrun : t.pipe p id f0 f1 = .ok (v, t')) (hv : 0 ≤ v) : FilesStep init t t'
  | dup {t' : Tables} {v : Int} (p : Fin numProcess) (oldfd : Int)
      (hp : (t.procs p).state.live = true) (hrun : t.dup p oldfd = .ok (v, t')) (hv : 0 ≤ v) :
      FilesStep init t t'
  | dup2 {t' : Tables} {v : Int} (p : Fin numProcess) (oldfd fd : Int)
      (hp : (t.procs p).state.live = true) (hrun : t.dup2 p oldfd fd = .ok (v, t')) (hv : 0 ≤ v) :
      FilesStep init t t'
  | fcntlDupFd {t' : Tables} {v : Int} (p : Fin numProcess) (oldfd arg : Int)
      (hp : (t.procs p).state.live = true) (hrun : t.fcntlDupFd p oldfd arg = .ok (v, t'))
      (hv : 0 ≤ v) : FilesStep init t t'
  | fcntlSetFd {t' : Tables} {v : Int} (p : Fin numProcess) (fd : Int)
      (hp : (t.procs p).state.live = true) (hrun : t.fcntlSetFd p fd = .ok (v, t')) (hv : 0 ≤ v) :
      FilesStep init t t'
  | close {t' : Tables} {v : Int} (p : Fin numProcess) (fd : Int)
      (hp : (t.procs p).state.live = true) (hrun : t.close p fd = .ok (v, t')) (hv : 0 ≤ v) :
      FilesStep init t t'
  | mmap {t' : Tables} {v : Int} (p : Fin numProcess) (fd mapSize : Int) (allocOk copyOk : Bool)
      (hp : (t.procs p).state.live = true)
      (hrun : t.mmap p fd mapSize allocOk copyOk = .ok (v, t')) : FilesStep init t t'
  | munmap {t' : Tables} {v : Int} (p : Fin numProcess) (va : Nat)
      (hp : (t.procs p).state.live = true)
      (hva : ∃ i, ((t.procs p).vm i).isUsed = true ∧ ((t.procs p).vm i).address = va)
      (hrun : t.munmap p va = .ok (v, t')) : FilesStep init t t'
  | fork {t' : Tables} (p np : Fin numProcess) (hp : (t.procs p).state.live = true)
      (hnp : (t.procs np).state = .unused) (hrun : t.fork p np = .ok t') : FilesStep init t t'
  | execve {t' : Tables} (p : Fin numProcess) (segPages : Nat)
      (hp : (t.procs p).state.live = true) (hrun : t.execve p segPages = .ok t') :
      FilesStep init t t'
  | exit {t' : Tables} (p : Fin numProcess) (hp : (t.procs p).state.live = true)
      (hinit : p ≠ init) (hrun : t.exitProc p = .ok t') : FilesStep init t t'
  | wait {t' : Tables} (np : Fin numProcess) (hnp : (t.procs np).state = .zombie)
      (hrun : t.freeproc np = .ok t') : FilesStep init t t'

/-- The tables that a run of calls reaches.  The image of the init process, which has a page for its
stack, has `sz` bytes. -/
inductive FilesReach (init : Fin numProcess) : Tables → Prop
  | start (sz f0 f1 f2 : Nat) (hsz : pageSize ≤ sz) (h01 : f0 ≠ f1) (h02 : f0 ≠ f2)
      (h12 : f1 ≠ f2) : FilesReach init (Tables.start init sz f0 f1 f2)
  | step {t t' : Tables} (h : FilesReach init t) (hs : FilesStep init t t') : FilesReach init t'

end OsKernel.Pm

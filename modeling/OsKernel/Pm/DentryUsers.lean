import Mathlib.Algebra.BigOperators.Group.Finset.Basic
import OsKernel.Fs.Dentry
import OsKernel.Pm.FileRefs

/-! The users of dentries: the open files and the working directories of the processes.  A file has
its own count of references, and each of them is a reference to the dentry too.  No call here maps
memory, so the memory areas stay as they are. -/

namespace OsKernel.Pm
open Fs RefCount

def atFdcwd : Int := -100

/-- The tables with the working directories, the dentries of the files, and the cache. -/
structure CwdTables (ι : Type) where
  tables : Tables
  cwd : Fin numProcess → Did
  dentry : Nat → Option Did
  cache : DentryCache ι

namespace CwdTables

variable {ι : Type} (fs : Inodes ι) (t : CwdTables ι) (p : Fin numProcess)

def setFd (fd : Fin maxOpenFiles) (v : Option Nat) : CwdTables ι :=
  { t with tables := t.tables.setFd p fd v }

/-- `dup` of a file. -/
def dupFile (f : Nat) : Except Fault (CwdTables ι) := do
  let tables ← t.tables.dupFile f
  match t.dentry f with
  | none => return { t with tables }
  | some d => return { t with tables, cache := t.cache.dup d }

/-- `free_file`. -/
def freeFile (f : Nat) : Except Fault (CwdTables ι) := do
  let tables ← t.tables.freeFile f
  match t.dentry f with
  | none => return { t with tables }
  | some d =>
    let cache ← t.cache.release d
    return { t with tables, cache }

/-- A new file at the address `f`: its constructor calls `dup`. -/
def newFile (f : Nat) (cls : FileClass) (filetype : FileTypes) (den : Option Did) :
    CwdTables ι where
  tables := { t.tables with store := t.tables.store.create f cls filetype }
  cwd := t.cwd
  dentry := Function.update t.dentry f den
  cache := match den with
    | none => t.cache
    | some d => t.cache.dup d

/-- The dentry from which a `Path` starts.  The file of a descriptor is taken for a normal one. -/
def pathBase (dirFd : Int) : Str → Except Fault Did
  | [] => .ok (t.cwd p)
  | ch :: _ =>
    if ch = '/' then .ok t.cache.root
    else
      match if dirFd = atFdcwd then none else t.tables.getOpenFile p dirFd with
      | none => .ok (t.cwd p)
      | some f =>
        match t.tables.store.files f with
        | none => .error (.undefined "use of a deleted file")
        | some o =>
          if o.cls = .normal then .ok ((t.dentry f).getD (t.cwd p))
          else .error (.undefined "file is not a normal file")

/-- `pathSearch` of a `Path`. -/
def walk (base : Did) (path : Str) (parent : Bool) : Except Fault (Option Did × CwdTables ι) := do
  let (r, cache) ← DentryCache.pathSearch fs parent (splitNames path) (some base) t.cache
  return (r, { t with cache })

/-- The end of `open`, where the dentry is found. -/
def openDentry (f : Nat) (d : Did) : Int × CwdTables ι :=
  let node := (t.cache.den d).node
  let dev := fs.rDev node
  let cls := if 0 ≤ dev ∧ dev < 1024 then .device else .normal
  let t := t.newFile f cls (fs.filetype node) (some d)
  let r := t.tables.allocFd p f
  (r.1, { t with tables := r.2 })

/-- `open`, with a new object at `f`; `creat` says whether `O_CREAT` is set. -/
def openAt (f : Nat) (dirFd : Int) (path : Str) (creat : Bool) :
    Except Fault (Int × CwdTables ι) := do
  let base ← t.pathBase p dirFd path
  let (r, t) ← t.walk fs base path false
  if path = [] then return (-1, t)
  match r with
  | some d => return t.openDentry fs p f d
  | none =>
    if creat = false then return (-1, t)
    let (par, t) ← t.walk fs base path true
    match par with
    | none => return (-1, t)
    | some par =>
      match (splitNames path).getLast? with
      | none => .error (.undefined "dirname: read out of bounds")
      | some name =>
        let (r, cache) ← t.cache.entryCreate fs par name
        match r with
        | none => return (-1, { t with cache })
        | some d => return ({ t with cache } : CwdTables ι).openDentry fs p f d

/-- `close`. -/
def close (fd : Int) : Except Fault (Int × CwdTables ι) :=
  match fdIndex fd with
  | none => .ok (-1, t)
  | some i =>
    match (t.tables.procs p).ofile i with
    | none => .ok (0, t)
    | some f => do
      let t ← t.freeFile f
      return (0, t.setFd p i none)

/-- `_sys_dup`. -/
def dup (oldfd : Int) : Except Fault (Int × CwdTables ι) :=
  match t.tables.getOpenFile p oldfd with
  | none => .ok (-1, t)
  | some f =>
    let r := t.tables.allocFd p f
    if r.1 < 0 then .ok (-1, { t with tables := r.2 })
    else do
      let t ← ({ t with tables := r.2 } : CwdTables ι).dupFile f
      return (r.1, t)

/-- `_sys_dup2`. -/
def dup2 (oldfd fd : Int) : Except Fault (Int × CwdTables ι) :=
  match t.tables.getOpenFile p oldfd with
  | none => .ok (-1, t)
  | some f =>
    if fd = oldfd then .ok (fd, t)
    else if fdIndex fd = none then .error (.undefined "_ofile: read out of bounds")
    else do
      let (_, t) ← t.close p fd
      let r := t.tables.allocFdAt p f fd
      if r.1 < 0 then .ok (-1, { t with tables := r.2 })
      else do
        let t ← ({ t with tables := r.2 } : CwdTables ι).dupFile f
        return (fd, t)

/-- `fcntl` with `F_DUPFD` or `F_DUPFD_CLOEXEC`: the count of the file goes up, and that of its
dentry does not. -/
def fcntlDupFd (cloexec : Bool) (oldfd arg : Int) : Except Fault (Int × CwdTables ι) := do
  let (fd, tables) ← t.tables.fcntlDupFd p oldfd arg
  if t.tables.getOpenFile p oldfd = none ∨ cloexec = false then return (fd, { t with tables })
  match tables.getOpenFile p fd with
  | none => .error (.undefined "null file")
  | some _ =>
    let (_, tables) ← tables.fcntlSetFd p fd
    return (fd, { t with tables })

/-- The copy of a descriptor in `fork` of `p` to `np`. -/
def copyFd (np : Fin numProcess) (t : CwdTables ι) (i : Fin maxOpenFiles) :
    Except Fault (CwdTables ι) :=
  match (t.tables.procs p).ofile i with
  | none => .ok t
  | some f => do
    let t ← t.dupFile f
    return t.setFd np i (some f)

/-- `fork` of `p`, for which `alloc_proc` gives the slot `np`. -/
def fork (np : Fin numProcess) : Except Fault (CwdTables ι) := do
  let t ← (List.finRange maxOpenFiles).foldlM (copyFd p np) t
  return { t with
    tables := t.tables.setProc np fun q => { q with state := .runnable }
    cwd := Function.update t.cwd np (t.cwd p)
    cache := t.cache.dup (t.cwd p) }

/-- `chdir`. -/
def chdir (path : Str) : Except Fault (Int × CwdTables ι) := do
  let base ← t.pathBase p atFdcwd path
  let (r, t) ← t.walk fs base path false
  match r with
  | none => return (-1, t)
  | some d =>
    let cache ← (t.cache.dup d).release (t.cwd p)
    return (0, { t with cwd := Function.update t.cwd p d, cache })

/-- The turn of `exit_proc`, and of `freeproc`, that drops a descriptor. -/
def dropFd (t : CwdTables ι) (i : Fin maxOpenFiles) : Except Fault (CwdTables ι) :=
  match (t.tables.procs p).ofile i with
  | none => .ok t
  | some f =>
    match t.tables.store.files f with
    | none => .error (.undefined "use of a deleted file")
    | some o =>
      if 0 < o.refcnt then do
        let t ← t.freeFile f
        return t.setFd p i none
      else .ok t

def setState (s : ProcState) : CwdTables ι :=
  { t with tables := t.tables.setProc p fun q => { q with state := s } }

/-- `exit_proc`.  The reference to the working directory is not given back. -/
def exitProc : Except Fault (CwdTables ι) := do
  let t ← (List.finRange maxOpenFiles).foldlM (dropFd p) t
  return t.setState p .zombie

/-- `freeproc` of a process that `wait` has found to be a zombie. -/
def freeproc : Except Fault (CwdTables ι) :=
  (List.finRange maxOpenFiles).foldlM (dropFd p) (t.setState p .unused)

end CwdTables

/-- The calls of the processes; a file that is opened gets the address `f`. -/
inductive CwdCall where
  | openAt (p : Fin numProcess) (f : Nat) (dirFd : Int) (path : Str) (creat : Bool)
  | dup (p : Fin numProcess) (oldfd : Int)
  | dup2 (p : Fin numProcess) (oldfd fd : Int)
  | fcntlDupFd (p : Fin numProcess) (cloexec : Bool) (oldfd arg : Int)
  | close (p : Fin numProcess) (fd : Int)
  | fork (p np : Fin numProcess)
  | chdir (p : Fin numProcess) (path : Str)
  | exit (p : Fin numProcess)
  | wait (np : Fin numProcess)

namespace CwdTables

variable {ι : Type} (fs : Inodes ι) (init : Fin numProcess) (t : CwdTables ι)

/-- A live process can make the call. -/
def Enabled : CwdCall → Prop
  | .openAt p f _ _ _ => (t.tables.procs p).state.live = true ∧ t.tables.store.files f = none
  | .dup p _ | .fcntlDupFd p _ _ _ | .close p _ | .chdir p _ => (t.tables.procs p).state.live = true
  | .dup2 p _ fd => (t.tables.procs p).state.live = true ∧ 0 ≤ fd ∧ fd < maxOpenFiles
  | .fork p np => (t.tables.procs p).state.live = true ∧ (t.tables.procs np).state = .unused
  | .exit p => (t.tables.procs p).state.live = true ∧ p ≠ init
  | .wait np => (t.tables.procs np).state = .zombie

/-- What a call does. -/
def call : CwdCall → Except Fault (CwdTables ι)
  | .openAt p f dirFd path creat => (·.2) <$> t.openAt fs p f dirFd path creat
  | .dup p oldfd => (·.2) <$> t.dup p oldfd
  | .dup2 p oldfd fd => (·.2) <$> t.dup2 p oldfd fd
  | .fcntlDupFd p cloexec oldfd arg => (·.2) <$> t.fcntlDupFd p cloexec oldfd arg
  | .close p fd => (·.2) <$> t.close p fd
  | .fork p np => t.fork p np
  | .chdir p path => (·.2) <$> t.chdir fs p path
  | .exit p => t.exitProc p
  | .wait np => t.freeproc np

end CwdTables

/-! ### The first process -/

/-- The caches that the initialisation of the file system makes: some paths are walked and some
entries created. -/
inductive BootCache {ι : Type} (fs : Inodes ι) : DentryCache ι → Prop
  | start (pool : Did → Dentry ι) (node : ι) : BootCache fs (.start pool node)
  | walk {c c' : DentryCache ι} {r : Option Did} (ns : List Str) : BootCache fs c →
      c.pathSearch fs false ns (some c.root) = .ok (r, c') → BootCache fs c'
  | create {c c₁ c' : DentryCache ι} {d : Did} {r : Option Did} (ns : List Str) (name : Str) :
      BootCache fs c → c.pathSearch fs false ns (some c.root) = .ok (some d, c₁) →
      c₁.entryCreate fs d name = .ok (r, c') →
      BootCache fs c'

namespace CwdTables

variable {ι : Type} (fs : Inodes ι) (init : Fin numProcess)

/-- No process has anything. -/
def empty (c : DentryCache ι) : CwdTables ι where
  tables := ⟨fun _ => ⟨.unused, fun _ => none, fun _ => ⟨false, 0, 0, none⟩, 0⟩,
    ⟨fun _ => none, fun _ => none⟩⟩
  cwd := fun _ => c.root
  dentry := fun _ => none
  cache := c

/-- A device is opened for the first process, at the descriptor `i`. -/
def openStd (t : CwdTables ι) (i : Fin maxOpenFiles) (f : Nat) (path : Str) :
    Except Fault (CwdTables ι) := do
  let (r, t) ← t.walk fs t.cache.root path false
  return (t.newFile f .device .device r).setFd init i (some f)

def stdin : Str := ['/', 'd', 'e', 'v', '/', 's', 't', 'd', 'i', 'n']

def stdout : Str := ['/', 'd', 'e', 'v', '/', 's', 't', 'd', 'o', 'u', 't']

def stderr : Str := ['/', 'd', 'e', 'v', '/', 's', 't', 'd', 'e', 'r', 'r']

def mnt : Str := ['m', 'n', 't']

/-- `fork_ret` of the first process. -/
def boot (f0 f1 f2 : Nat) (c : DentryCache ι) : Except Fault (CwdTables ι) := do
  let t ← (empty c).openStd fs init ⟨0, by decide⟩ f0 stdin
  let t ← t.openStd fs init ⟨1, by decide⟩ f1 stdout
  let t ← t.openStd fs init ⟨2, by decide⟩ f2 stderr
  let (r, cache) ← t.cache.entrySearch fs t.cache.root mnt
  match r with
  | none => .error (.undefined "null dentry")
  | some d =>
    return ({ t with cwd := Function.update t.cwd init d, cache := (cache.dup d).dup d } :
      CwdTables ι).setState init .running

end CwdTables

/-- The states of the calls, each of which meets a condition. -/
inductive CwdRun {ι : Type} (fs : Inodes ι) (init : Fin numProcess)
    (Ok : CwdTables ι → CwdCall → Prop) : CwdTables ι → Prop
  | start {t : CwdTables ι} {c : DentryCache ι} {f0 f1 f2 : Nat} : BootCache fs c →
      f0 ≠ f1 → f0 ≠ f2 → f1 ≠ f2 → CwdTables.boot fs init f0 f1 f2 c = .ok t →
      CwdRun fs init Ok t
  | step {t t' : CwdTables ι} {e : CwdCall} : CwdRun fs init Ok t → Ok t e →
      t.Enabled init e → t.call fs e = .ok t' → CwdRun fs init Ok t'

end OsKernel.Pm

import OsKernel.Fs.NormalFile
import OsKernel.Pm.Ipc.Pipe

/-! The calls that move bytes from one open file to another: `sendfile`, `copy_file_range` and
`splice`, with what they use of `normal_file`, `pipe_file` and the inodes.  A pipe is given by the
states in which the call finds it, at first and after each sleep. -/

namespace OsKernel.Syscall

open Fs Hsai Pm.Ipc

/-- A `long` as an `int`. -/
def intOf (x : Int) : Int := (x + 2 ^ 31) % 2 ^ 32 - 2 ^ 31

/-- The memory that `new` can give: not none, and less than the machine has. -/
structure Heap where
  gives : Nat → Bool
  zero : gives 0 = false
  small : ∀ {n}, gives n = true → n < 2 ^ 31

/-! ### Pipes -/

/-- `Pipe::read` of `n` bytes: `none` where it still sleeps, `some none` where it returns -1. -/
def pipeRead (n : Int) : List (Pipe × Bool) → Option (Option (List UInt8))
  | [] => none
  | (p, killed) :: visits =>
    match readStretch killed n p with
    | (_, bytes, .ret r _) => some (if r < 0 then none else some bytes)
    | (_, _, .sleep _) => pipeRead n visits

/-- `Pipe::write_in_kernel` of `n` of the bytes `src`, from byte `i` on: its result and the bytes
that it has pushed, or `none` where it still sleeps. -/
def pipeWrite (src : List UInt8) (n : Int) : Nat → List (Pipe × Bool) →
    Option (Int × List UInt8)
  | _, [] => none
  | i, (p, killed) :: visits =>
    match writeLoop killed (fun j => src[j]?) (n.toNat - i) p i with
    | (_, bytes, .ret r _) => some (r, bytes)
    | (_, bytes, .sleep j) => (pipeWrite src n j visits).map fun r => (r.1, bytes ++ r.2)

/-! ### Open files -/

/-- A `normal_file`. -/
structure Regular where
  uRead : Bool
  uWrite : Bool
  filetype : FileTypes
  statSize : Nat
  filePtr : Nat
  node : Nat

inductive OpenFile where
  | regular (f : Regular)
  | pipe

/-- The open files, the inodes and the offsets in the memory of the process. -/
structure State where
  files : Nat → OpenFile
  nodes : Nat → FileNode
  user : Nat → UInt64

/-- `normal_file::write` gets to the inode. -/
def Regular.canWrite (f : Regular) : Bool :=
  f.uWrite && !(f.filetype = .direct) && !(f.filetype = .none)

/-- `_file_ptr += ret`, if `upgrade` is set. -/
def Regular.advance (f : Regular) (upgrade : Bool) (n : Nat) : Except Fault Regular :=
  if upgrade = false then .ok f
  else if f.filePtr + n < 2 ^ 63 then .ok { f with filePtr := f.filePtr + n }
  else .error (.undefined "signed overflow")

namespace State

variable (s : State)

/-- `get_file_offset`. -/
def filePtr (i : Nat) : Nat :=
  match s.files i with
  | .regular f => f.filePtr
  | .pipe => 0

def isPipe (i : Nat) : Bool :=
  match s.files i with
  | .regular _ => false
  | .pipe => true

def setFile (i : Nat) (f : Regular) : State :=
  { s with files := Function.update s.files i (.regular f) }

def setUser (a : Nat) (v : UInt64) : State := { s with user := Function.update s.user a v }

/-- The inode that a read of `x` reads. -/
def source (x : Nat) : Nat :=
  match s.nodes x with
  | .link (some t) => t
  | _ => x

/-- A negative position stands for that of the file. -/
def effective (f : Regular) (off : Int) : Nat := if off < 0 then f.filePtr else off.toNat

/-- `read` into a buffer of `cap` bytes: `none` where it still sleeps; otherwise the bytes, or
`none` where it returns -1. -/
def fileRead (i cap len : Nat) (off : Int) (upgrade : Bool) (visits : List (Pipe × Bool)) :
    Except Fault (Option (Option (List UInt8) × State)) :=
  match s.files i with
  | .pipe =>
    match pipeRead (intOf len) visits with
    | none => .ok none
    | some none => .ok (some (none, s))
    | some (some bytes) =>
      if cap < bytes.length then .error (.undefined "buffer overrun")
        else .ok (some (some bytes, s))
  | .regular f =>
    if f.uRead = false then .ok (some (none, s))
    else do
      match ← (s.nodes (s.source f.node)).read (effective f off) len with
      | none => .ok (some (none, s))
      | some bytes =>
        if cap < bytes.length then .error (.undefined "buffer overrun")
        else do
          let f ← f.advance upgrade bytes.length
          .ok (some (some bytes, s.setFile i f))

/-- `write` of `len` bytes of a buffer that has the bytes `src`: the result and the bytes pushed to
a pipe, or `none` where it still sleeps. -/
def fileWrite (o : Nat) (src : List UInt8) (len off : Int) (upgrade : Bool)
    (visits : List (Pipe × Bool)) : Except Fault (Option (Int × List UInt8 × State)) :=
  match s.files o with
  | .pipe =>
    match pipeWrite src (intOf len) 0 visits with
    | none => .ok none
    | some (w, pushed) => .ok (some (w, pushed, s))
  | .regular f =>
    if f.canWrite = false then .ok (some (-1, [], s))
    else do
      let r ← (s.nodes f.node).write (effective f off) src len
      let f ← f.advance (decide (0 ≤ r.1) && upgrade) r.1.toNat
      .ok (some (r.1, [],
        ({ s with nodes := Function.update s.nodes f.node r.2 } : State).setFile o
          { f with statSize := r.2.rFileSize }))

end State

/-! ### The calls -/

/-- What a call has done: its result, the state after it, and the bytes that it has taken out of a
pipe and pushed into one. -/
structure Moved where
  ret : Int
  state : State
  taken : List UInt8
  pushed : List UInt8

/-- The result of `read` as a number. -/
def readCount : Option (List UInt8) → Int
  | none => -1
  | some bytes => bytes.length

/-- The bytes that a `read` has put into the buffer. -/
def readBytes : Option (List UInt8) → List UInt8
  | none => []
  | some bytes => bytes

namespace State

variable (h : Heap) (s : State)

/-- Nothing is done. -/
def stay (r : Int) : Moved := ⟨r, s, [], []⟩

/-- The bytes that a read of `i` has taken out of a pipe. -/
def taken (i : Nat) (r : Option (List UInt8)) : List UInt8 := if s.isPipe i then readBytes r else []

/-- The offset, as the `long` that is passed on: the one at a given address, or that of the file. -/
def offset (i : Nat) (off : Option Nat) : Int :=
  match off with
  | none => s.filePtr i
  | some a => longOfUlong (s.user a).toNat

/-- The offset at a given address becomes its value in `old`, moved by `n`. -/
def putOffset (off : Option Nat) (old : Nat → UInt64) (n : Int) : State :=
  match off with
  | none => s
  | some a => s.setUser a (old a + UInt64.ofInt n)

/-- `_sys_sendfile`, with the address of the offset. -/
def sendfile (o i : Nat) (off : Option Nat) (size : UInt64) (vin vout : List (Pipe × Bool)) :
    Except Fault (Option Moved) :=
  let count := size.toNat
  let startOff := s.offset i off
  if h.gives ((count + 1) % 2 ^ 64) = false then .ok (some (s.stay (-5)))
  else do
    match ← s.fileRead i (count + 1) count startOff true vin with
    | none => .ok none
    | some (r, s₁) =>
      let readcnt := intOf (readCount r)
      match ← s₁.fileWrite o (readBytes r) readcnt (s₁.filePtr o) true vout with
      | none => .ok none
      | some (w, pushed, s₂) =>
        let writecnt := intOf w
        .ok (some ⟨writecnt, s₂.putOffset off s₂.user writecnt, s.taken i r, pushed⟩)

/-- `_sys_copy_file_range`, with the addresses of the offsets.  Where `new` gives nothing, the
buffer is at the null pointer. -/
def copyFileRange (i : Nat) (offIn : Option Nat) (o : Nat) (offOut : Option Nat) (len : Int)
    (vin vout : List (Pipe × Bool)) : Except Fault (Option Moved) :=
  if len = 0 then .ok (some (s.stay 0))
  else do
    let offI := s.offset i offIn
    let offO := s.offset o offOut
    let size := (len % 2 ^ 64).toNat
    let cap := if h.gives size then size else 0
    match ← s.fileRead i cap size offI offIn.isNone vin with
    | none => .ok none
    | some (r, s₁) =>
      let readlen := intOf (readCount r)
      match ← s₁.fileWrite o (readBytes r) readlen offO offOut.isNone vout with
      | none => .ok none
      | some (w, pushed, s₂) =>
        let writeLen := intOf w
        let s₃ := s₂.putOffset offIn s.user readlen
        .ok (some ⟨readlen, s₃.putOffset offOut s.user writeLen, s.taken i r, pushed⟩)

/-- `copyout` of an `int`: the low half of the offset. -/
def storeInt (a : Nat) (v : Int) : State :=
  s.setUser a (UInt64.ofNat ((s.user a).toNat / 2 ^ 32 * 2 ^ 32 + v.toNat))

/-- The end of `_sys_splice`: the bytes are read at `offI`, written at `offO`, and the offset at `a`
is advanced from `off`. -/
def spliceMove (i o : Nat) (actualLen offI offO : Int) (a : Nat) (off : Int)
    (vin vout : List (Pipe × Bool)) : Except Fault (Option Moved) :=
  if actualLen ≤ 0 then .ok (some (s.stay 0))
  else if h.gives actualLen.toNat = false then .ok (some (s.stay (-1)))
  else do
    match ← s.fileRead i actualLen.toNat actualLen.toNat offI (s.isPipe i) vin with
    | none => .ok none
    | some (r, s₁) =>
      let readBytes' := intOf (readCount r)
      if readBytes' ≤ 0 then .ok (some ⟨readBytes', s₁, s.taken i r, []⟩)
      else
        match ← s₁.fileWrite o (readBytes r) readBytes' offO (s.isPipe o) vout with
        | none => .ok none
        | some (w, pushed, s₂) =>
          let writeBytes := intOf w
          if 0 < writeBytes then
            if off + writeBytes < 2 ^ 31 then
              .ok (some ⟨writeBytes, s₂.storeInt a (off + writeBytes), s.taken i r, pushed⟩)
            else .error (.undefined "signed overflow")
          else .ok (some ⟨writeBytes, s₂, s.taken i r, pushed⟩)

/-- `_sys_splice`, with the addresses of the offsets. -/
def splice (i : Nat) (offIn : Option Nat) (o : Nat) (offOut : Option Nat) (len : Int)
    (vin vout : List (Pipe × Bool)) : Except Fault (Option Moved) :=
  match s.files i, s.files o with
  | .pipe, .pipe => .ok (some (s.stay (-1)))
  | .regular _, .regular _ => .ok (some (s.stay (-1)))
  | .regular f, .pipe =>
    match offIn, offOut with
    | some a, none =>
      let off := intOf (s.user a).toNat
      if off < 0 then .ok (some (s.stay (-1)))
      else
        let fileSize := intOf f.statSize
        if fileSize ≤ off then .ok (some (s.stay 0))
        else s.spliceMove h i o (if fileSize - off < len then fileSize - off else len) off 0 a off
          vin vout
    | _, _ => .ok (some (s.stay (-1)))
  | .pipe, .regular _ =>
    match offIn, offOut with
    | none, some a =>
      let off := intOf (s.user a).toNat
      if off < 0 then .ok (some (s.stay (-1)))
      else s.spliceMove h i o len 0 off a off vin vout
    | _, _ => .ok (some (s.stay (-1)))

end State

end OsKernel.Syscall

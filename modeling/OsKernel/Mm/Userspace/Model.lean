import OsKernel.Mm.Vmm.Model

/-! The stream of `userspace_stream.cc`, with which the kernel reads and writes a buffer of a user.
It keeps the kernel's address of its position, in the page that it has looked up last. -/

namespace OsKernel.Mm

open Lib Hsai

/-- `UserspaceStream::RetCode`. -/
inductive UsRetCode where
  | ok
  | fail
  | notOpen
  deriving DecidableEq, Repr

/-- `UserspaceStream`. -/
structure UserspaceStream where
  startAddr : Nat
  endAddr : Nat
  pt : PageTable
  ptr : Nat
  cachePtr : Nat
  cacheEnd : Nat
  errno : UsRetCode
  deriving DecidableEq

namespace UserspaceStream

variable {σ : Type} (arch : Arch) (V : VirtualPageAllocator σ)

/-- The constructor. -/
def new (uAddrStart uSize : Nat) (uPt : PageTable) : UserspaceStream where
  startAddr := uAddrStart
  endAddr := wordAdd uAddrStart uSize
  pt := uPt
  ptr := 0
  cachePtr := 0
  cacheEnd := 0
  errno := .ok

/-- `_update_cache`, which always returns zero. -/
def updateCache (k : Kernel σ) (s : UserspaceStream) (va : Nat) : Except Fault UserspaceStream :=
  do
  let pa ← walkAddr arch V k s.pt va
  let ptr := arch.toVir pa
  if isPageAlign va then .ok { s with cachePtr := ptr, cacheEnd := wordAdd ptr pageSize }
  else .ok { s with cachePtr := ptr, cacheEnd := pageRoundUp ptr }

/-- `open`, which returns `rc_ok`. -/
def openStream (k : Kernel σ) (s : UserspaceStream) : Except Fault UserspaceStream :=
  updateCache arch V k { s with ptr := s.startAddr } s.startAddr

/-- `rest_space`. -/
def restSpace (s : UserspaceStream) : Nat := wordSub s.endAddr s.ptr

/-- The length of a transfer, which does not go beyond the end. -/
def clip (s : UserspaceStream) (len : Nat) : Nat :=
  if s.endAddr < wordAdd s.ptr len then wordSub s.endAddr s.ptr else len

/-- The loop of `operator<<` with the bytes that are left.  A turn that stores nothing moves the
cache to the page of the position, so two turns for each byte are enough unless the loop does
not end. -/
def writeLoop : Nat → Kernel σ → UserspaceStream → List UInt8 →
    Except Fault (UserspaceStream × Kernel σ)
  | 0, _, _, _ => .error (.undefined "operator<< does not end")
  | turns + 1, k, s, buf =>
    if buf.length = 0 then .ok ({ s with errno := .ok }, k)
    else if wordAdd s.cachePtr buf.length ≤ s.cacheEnd then
      .ok ({ s with
          cachePtr := wordAdd s.cachePtr buf.length
          ptr := wordAdd s.ptr buf.length
          errno := .ok },
        { k with mem := k.mem.store s.cachePtr buf })
    else if s.cacheEnd < s.cachePtr then .error (.undefined "memcpy of a negative length")
    else do
      let l := s.cacheEnd - s.cachePtr
      let k := { k with mem := k.mem.store s.cachePtr (buf.take l) }
      let ptr := wordAdd s.ptr l
      let s ← updateCache arch V k { s with cachePtr := s.cacheEnd, ptr := ptr } ptr
      writeLoop turns k s (buf.drop l)

/-- `operator<<` of a range. -/
def write (k : Kernel σ) (s : UserspaceStream) (buf : List UInt8) :
    Except Fault (UserspaceStream × Kernel σ) :=
  if s.ptr = 0 then .ok ({ s with errno := .notOpen }, k)
  else
    let buf := buf.take (s.clip buf.length)
    writeLoop arch V (2 * buf.length + 2) k s buf

/-- The loop of `operator>>` with the bytes that are read so far and the length that is left. -/
def readLoop (k : Kernel σ) : Nat → UserspaceStream → List UInt8 → Nat →
    Except Fault (UserspaceStream × List UInt8)
  | 0, _, _, _ => .error (.undefined "operator>> does not end")
  | turns + 1, s, buf, len =>
    if len = 0 then .ok (s, buf)
    else if wordAdd s.cachePtr len ≤ s.cacheEnd then
      .ok ({ s with cachePtr := wordAdd s.cachePtr len, ptr := wordAdd s.ptr len },
        buf ++ k.mem.load s.cachePtr len)
    else if s.cacheEnd < s.cachePtr then .error (.undefined "memcpy of a negative length")
    else do
      let l := s.cacheEnd - s.cachePtr
      let ptr := wordAdd s.ptr l
      let buf := buf ++ k.mem.load s.cachePtr l
      let s ← updateCache arch V k { s with cachePtr := s.cacheEnd, ptr := ptr } ptr
      readLoop k turns s buf (len - l)

/-- `operator>>` of a range: the stream and the bytes read. -/
def read (k : Kernel σ) (s : UserspaceStream) (len : Nat) :
    Except Fault (UserspaceStream × List UInt8) :=
  if s.ptr = 0 then .ok ({ s with errno := .notOpen }, [])
  else
    let len := s.clip len
    readLoop arch V k (2 * len + 2) s [] len

end UserspaceStream

/-! ### Runs -/

/-- A range write or a range read. -/
inductive WindowOp where
  | write (buf : List UInt8)
  | read (len : Nat)

namespace WindowOp

/-- The length of the range. -/
def length : WindowOp → Nat
  | .write buf => buf.length
  | .read len => len

end WindowOp

namespace UserspaceStream

variable {σ : Type} (arch : Arch) (V : VirtualPageAllocator σ)

/-- One operation: the stream, the memory, and the bytes read. -/
def exec (k : Kernel σ) (s : UserspaceStream) : WindowOp →
    Except Fault (UserspaceStream × Kernel σ × List UInt8)
  | .write buf => do
    let r ← write arch V k s buf
    return (r.1, r.2, [])
  | .read len => do
    let r ← read arch V k s len
    return (r.1, k, r.2)

/-- A sequence of operations, with the bytes that each one reads. -/
def execAll (k : Kernel σ) (s : UserspaceStream) :
    List WindowOp → Except Fault (UserspaceStream × Kernel σ × List (List UInt8))
  | [] => .ok (s, k, [])
  | op :: ops => do
    let r ← exec arch V k s op
    let rest ← execAll r.2.1 r.1 ops
    return (rest.1, rest.2.1, r.2.2 :: rest.2.2)

end UserspaceStream

end OsKernel.Mm

import OsKernel.Mm.Vmm.Model

/-! The stream of `userstack_stream.cc`, with which `execve` fills the stack of a new program.  It
keeps the kernel's address of the stack pointer, in the page that it has looked up last. -/

namespace OsKernel.Mm

open Lib Hsai

/-- `UserstackStream::RetCode`. -/
inductive RetCode where
  | ok
  | fail
  | notOpen
  | noMem
  | empty
  deriving DecidableEq, Repr

/-- `UserstackStream`. -/
structure UserstackStream where
  stackBase : Nat
  stackEnd : Nat
  pt : PageTable
  sp : Nat
  cachePtr : Nat
  cacheBegin : Nat
  errno : RetCode
  deriving DecidableEq

namespace UserstackStream

variable {σ : Type} (arch : Arch) (V : VirtualPageAllocator σ)

/-- The constructor. -/
def new (uAddrStart uSize : Nat) (uPt : PageTable) : UserstackStream where
  stackBase := uAddrStart
  stackEnd := wordAdd uAddrStart uSize
  pt := uPt
  sp := 0
  cachePtr := 0
  cacheBegin := 0
  errno := .ok

/-- `_update_cache`: an aligned address selects the page before it.  It always returns zero. -/
def updateCache (k : Kernel σ) (s : UserstackStream) (va : Nat) : Except Fault UserstackStream :=
  if isPageAlign va then do
    let pa ← walkAddr arch V k s.pt (wordSub va pageSize)
    let first := arch.toVir pa
    .ok { s with cacheBegin := first, cachePtr := wordAdd first pageSize }
  else do
    let pa ← walkAddr arch V k s.pt va
    let ptr := arch.toVir pa
    .ok { s with cachePtr := ptr, cacheBegin := pageRoundDown ptr }

/-- `open`, which returns `rc_ok`. -/
def openStack (k : Kernel σ) (s : UserstackStream) : Except Fault UserstackStream :=
  updateCache arch V k { s with sp := s.stackEnd } s.stackEnd

/-! ### Pushes -/

/-- The loop of `operator<<` with the bytes that are left.  A turn that stores nothing moves the
cache to the page of the stack pointer, so two turns for each byte are enough unless the loop does
not end. -/
def pushLoop : Nat → Kernel σ → UserstackStream → List UInt8 →
    Except Fault (UserstackStream × Kernel σ)
  | 0, _, _, _ => .error (.undefined "operator<< does not end")
  | turns + 1, k, s, buf =>
    if buf.length = 0 then .ok ({ s with errno := .ok }, k)
    else if s.cacheBegin ≤ wordSub s.cachePtr buf.length then
      let ptr := wordSub s.cachePtr buf.length
      .ok ({ s with cachePtr := ptr, sp := wordSub s.sp buf.length, errno := .ok },
        { k with mem := k.mem.store ptr buf })
    else if s.cachePtr < s.cacheBegin then
      .error (.undefined "memcpy of a negative length")
    else do
      let l := s.cachePtr - s.cacheBegin
      let k := { k with mem := k.mem.store s.cacheBegin (buf.drop (buf.length - l)) }
      let sp := wordSub s.sp l
      let s ← updateCache arch V k { s with cachePtr := s.cacheBegin, sp := sp } sp
      pushLoop turns k s (buf.take (buf.length - l))

/-- `operator<<` of a range, and of the bytes of a scalar. -/
def push (k : Kernel σ) (s : UserstackStream) (buf : List UInt8) :
    Except Fault (UserstackStream × Kernel σ) :=
  if s.sp = 0 then .ok ({ s with errno := .notOpen }, k)
  else if wordSub s.sp buf.length < s.stackBase then .ok ({ s with errno := .noMem }, k)
  else pushLoop arch V (2 * buf.length + 2) k s buf

/-- Pushes of one character after the other. -/
def pushChars (k : Kernel σ) (s : UserstackStream) : List UInt8 →
    Except Fault (UserstackStream × Kernel σ)
  | [] => .ok (s, k)
  | c :: cs => do
    let r ← push arch V k s [c]
    pushChars r.2 r.1 cs

/-- `operator<<` of a C string with the given bytes before its NUL: from the NUL on downwards. -/
def pushCStr (k : Kernel σ) (s : UserstackStream) (str : List UInt8) :
    Except Fault (UserstackStream × Kernel σ) :=
  pushChars arch V k s (str ++ [0]).reverse

/-- `operator<<` of an `eastl::string`. -/
def pushString (k : Kernel σ) (s : UserstackStream) (str : List UInt8) :
    Except Fault (UserstackStream × Kernel σ) := do
  let r ← push arch V k s [0]
  pushChars arch V r.2 r.1 str.reverse

/-! ### Moves -/

/-- `operator+=`, with the `long` as a 64-bit word. -/
def addMove (k : Kernel σ) (s : UserstackStream) (move : Nat) : Except Fault UserstackStream :=
  let moveto := wordAdd s.cachePtr move
  if s.cacheBegin ≤ moveto ∧ moveto < wordAdd s.cacheBegin pageSize then
    .ok { s with cachePtr := moveto, sp := wordAdd s.sp move }
  else updateCache arch V k { s with sp := wordAdd s.sp move } (wordAdd s.sp move)

/-- `operator-=`. -/
def subMove (k : Kernel σ) (s : UserstackStream) (move : Nat) : Except Fault UserstackStream :=
  addMove arch V k s (wordSub 0 move)

/-! ### Pops -/

/-- The loop of `operator>>`, with the bytes written to the buffer, the position in it and the
length that is left.  The turns suffice as for `operator<<`. -/
def popLoop (k : Kernel σ) : Nat → UserstackStream → List UInt8 → Nat → Nat →
    Except Fault (UserstackStream × List UInt8)
  | 0, _, _, _, _ => .error (.undefined "operator>> does not end")
  | turns + 1, s, buf, pos, len =>
    if len = 0 then .ok ({ s with errno := .ok }, buf)
    else if wordAdd s.cachePtr len ≤ wordAdd s.cacheBegin pageSize then
      .ok ({ s with sp := wordAdd s.sp len, cachePtr := wordAdd s.cachePtr len, errno := .ok },
        buf.take pos ++ k.mem.load s.cachePtr len)
    else do
      let l := wordSub (wordAdd s.cacheBegin pageSize) s.cachePtr
      -- the length of this copy is that of the whole rest
      let buf := buf.take pos ++ k.mem.load s.cachePtr len
      let sp := wordAdd s.sp l
      let s ← updateCache arch V k { s with sp := sp } sp
      popLoop k turns s buf (pos + l) (wordSub len l)

/-- `operator>>` of a range: the stream and the bytes written to the buffer. -/
def pop (k : Kernel σ) (s : UserstackStream) (len : Nat) :
    Except Fault (UserstackStream × List UInt8) :=
  if s.sp = 0 then .ok ({ s with errno := .notOpen }, [])
  else if s.stackEnd < wordAdd s.sp len then .ok ({ s with errno := .empty }, [])
  else popLoop arch V k (2 * len + 2) s [] 0 len

end UserstackStream

end OsKernel.Mm

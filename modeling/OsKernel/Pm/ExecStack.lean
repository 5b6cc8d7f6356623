import OsKernel.Hsai.TrapFrame
import OsKernel.Mm.Memlayout
import OsKernel.Mm.Userstack.Model
import OsKernel.Pm.Files

/-! How `execve` fills the stack of the new program: random bytes, the strings of the
environment and of the arguments, the auxiliary vector, the pointers to the strings, and the
number of arguments. -/

namespace OsKernel.Pm

open Lib Hsai Mm

/-- `MAXARG`. -/
def maxArg : Nat := 32

/-- The bytes of a 64-bit word. -/
def wordBytes (v : Nat) : List UInt8 := (List.range 8).map fun i => UInt8.ofNat (v / 256 ^ i)

/-- The bytes of an `Elf64_auxv_t`. -/
def auxBytes (type val : Nat) : List UInt8 := wordBytes type ++ wordBytes val

/-- `c_str()`, up to its NUL. -/
def cStr (str : List UInt8) : List UInt8 := str.takeWhile (· ≠ 0)

/-- What the auxiliary vector says of the program headers. -/
structure ProgramHeaders where
  phdr : Nat
  phentsize : Nat
  phnum : Nat

/-- The next part of `execve`, unless it has given up and returns -1. -/
def orGiveUp {α β : Type} (x : Except Fault (Option α)) (f : α → Except Fault (Option β)) :
    Except Fault (Option β) :=
  x >>= fun r =>
    match r with
    | none => .ok none
    | some a => f a

section

variable {σ : Type} (arch : Arch) (V : VirtualPageAllocator σ)

/-- Pushes without a look at the error. -/
def pushUnchecked (k : Kernel σ) (s : UserstackStream) : List (List UInt8) →
    Except Fault (UserstackStream × Kernel σ)
  | [] => .ok (s, k)
  | buf :: rest => do
    let r ← s.push arch V k buf
    pushUnchecked r.2 r.1 rest

/-- Pushes up to the first one that fails. -/
def pushChecked (k : Kernel σ) (s : UserstackStream) : List (List UInt8) →
    Except Fault (Option (UserstackStream × Kernel σ))
  | [] => .ok (some (s, k))
  | buf :: rest => do
    let r ← s.push arch V k buf
    if r.1.errno ≠ .ok then .ok none else pushChecked r.2 r.1 rest

/-- The loop over the strings, with the pointers so far: each string is moved so that its first byte
is aligned.  The pointers end with a null. -/
def pushStrings (stackbase : Nat) (k : Kernel σ) (s : UserstackStream) (ptrs : List Nat) :
    List (List UInt8) → Except Fault (Option (List Nat × UserstackStream × Kernel σ))
  | [] =>
    if ptrs.length < maxArg then .ok (some (ptrs ++ [0], s, k))
    else .error (.undefined "index past the pointers")
  | str :: rest =>
    if maxArg ≤ ptrs.length then .ok none
    else do
      let sp := s.sp
      let s ← s.subMove arch V k (wordSub (wordSub sp str.length) 1 % 16)
      if sp < stackbase then .ok none
      else do
        let r ← s.pushCStr arch V k (cStr str)
        if r.1.errno ≠ .ok then .ok none
        else pushStrings stackbase r.2 r.1 (ptrs ++ [r.1.sp]) rest

/-- The entries of the auxiliary vector, in the order of the pushes: `AT_NULL`, `AT_PAGESZ`,
`AT_PHNUM`, `AT_PHENT`, `AT_PHDR` and `AT_RANDOM`. -/
def auxv (ph : ProgramHeaders) (rdPos : Nat) : List (List UInt8) :=
  [auxBytes 0 0] ++
    (if ph.phdr ≠ 0 then
      [auxBytes 6 pageSize, auxBytes 5 ph.phnum, auxBytes 4 ph.phentsize, auxBytes 3 ph.phdr]
        else []) ++
    [auxBytes 25 rdPos]

/-- The words at the end of the stack, and the random bytes. -/
def randomWords : List (List UInt8) :=
  [wordBytes 0, wordBytes (wordSub 0 0x114514FF114514), wordBytes (2 <<< 60), wordBytes (3 <<< 60)]

/-- The stack of `execve`, on the pages that have been allocated for it. -/
def execStack (k : Kernel σ) (pt : PageTable) (ph : ProgramHeaders)
    (argv envs : List (List UInt8)) : Except Fault (Option (UserstackStream × Kernel σ)) := do
  let size := defaultProcUstackPages * pageSize
  let stackbase := vmUstackEnd - size
  let s ← (UserstackStream.new stackbase size pt).openStack arch V k
  let r ← pushUnchecked arch V k s randomWords
  let rdPos := r.1.sp
  orGiveUp (pushStrings arch V stackbase r.2 r.1 [] envs) fun env =>
  orGiveUp (pushStrings arch V stackbase env.2.2 env.2.1 [] argv) fun arg => do
    let s ← arg.2.1.subMove arch V arg.2.2 (arg.2.1.sp % 16)
    orGiveUp (pushChecked arch V arg.2.2 s (auxv ph rdPos)) fun r =>
      orGiveUp (pushChecked arch V r.2 r.1 (env.1.reverse.map wordBytes)) fun r =>
      orGiveUp (pushChecked arch V r.2 r.1 (arg.1.reverse.map wordBytes)) fun r =>
      pushChecked arch V r.2 r.1 [wordBytes argv.length]

/-- The trap frame: the entry, the stack pointer, and the stack pointer as an argument. -/
def execFrame (m : Mem) (trapframe entry sp : Nat) : Mem :=
  setTrapFrameArg1 arch (setTrapFrameUserSp arch (setTrapFrameEntry arch m trapframe entry)
    trapframe sp) trapframe sp

end

end OsKernel.Pm

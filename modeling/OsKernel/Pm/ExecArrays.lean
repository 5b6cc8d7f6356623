import OsKernel.Pm.ExecStack

/-! The arrays of `execve`: the sections of the program, and the pointers to the strings.  What the
calls of `execve` to memory management and to the stack give is an answer to it. -/

namespace OsKernel.Pm

open Lib Hsai Mm

def maxProgramSectionNum : Nat := 16

def maxArgNum : Nat := 32

/-- How a call to another part of the kernel ends. -/
inductive Answer
  | panics
  | fails
  | works
  deriving DecidableEq

/-- The answers to the calls of `execve`: to `vm_create`, to `vm_alloc` and `load_seg` for a
header, to `vm_alloc`, `new`, `nodeRead` and `copyout` for the program headers, to `vm_alloc`
and `vm_set_super` for the stack, for each string, for the vectors, and for the exchange of
the images. -/
structure ExecAnswers where
  vmCreate : Answer
  segment : Nat → Answer
  headers : Answer
  stack : Answer
  pushEnv : Nat → Answer
  pushArg : Nat → Answer
  vectors : Answer
  image : Answer

/-! ### The file -/

/-- A read of the file into a buffer, in which the bytes that the file does not have stay. -/
def readBuffer (file buf : List UInt8) (off : Nat) : List UInt8 :=
  let bytes := (file.drop off).take buf.length
  bytes ++ buf.drop bytes.length

/-- The field of `n` bytes at `off` in a buffer. -/
def bufferField (buf : List UInt8) (off n : Nat) : Nat := Mem.read (fun i => buf.getD i 0) off n

def elfMagic : Nat := 0x464C457F

/-- The fields of an `elfhdr` that `execve` looks at. -/
structure ElfHdr where
  magic : Nat
  phoff : Nat
  phnum : Nat

def ElfHdr.ofBuffer (buf : List UInt8) : ElfHdr :=
  ⟨bufferField buf 0 4, bufferField buf 32 8, bufferField buf 56 2⟩

/-- The fields of a `proghdr` that decide if it is loaded. -/
structure ProgHdr where
  type : Nat
  vaddr : Nat
  filesz : Nat
  memsz : Nat
  deriving DecidableEq

def ProgHdr.ofBuffer (buf : List UInt8) : ProgHdr :=
  ⟨bufferField buf 0 4, bufferField buf 16 8, bufferField buf 32 8, bufferField buf 40 8⟩

/-- `ELF_PROG_LOAD`. -/
def ProgHdr.isLoad (ph : ProgHdr) : Bool := ph.type = 1

/-- The checks of the sizes. -/
def ProgHdr.sizesOk (ph : ProgHdr) : Bool :=
  ph.filesz ≤ ph.memsz && ph.vaddr ≤ wordAdd ph.vaddr ph.memsz

/-- The headers that the loop reads, each into the buffer of the one before.  The offset is
an `int`. -/
def progHdrs (file : List UInt8) : Nat → List UInt8 → Nat → List ProgHdr
  | 0, _, _ => []
  | n + 1, buf, off =>
    let buf := readBuffer file buf (intOfUlong off)
    .ofBuffer buf :: progHdrs file n buf (off + 56)

/-! ### The arrays -/

/-- `new_sec_desc[ cnt ] = ..`. -/
def storeSection (cnt : Nat) : Except Fault Unit :=
  if cnt < maxProgramSectionNum then .ok () else .error (.undefined "index past the sections")

/-- The use of the sections below `cnt`, of `new_sec_desc` or of `_prog_sections`. -/
def useSections (cnt : Nat) : Except Fault Unit :=
  if cnt ≤ maxProgramSectionNum then .ok () else .error (.undefined "index past the sections")

/-- `execve` frees the new page table and returns -1. -/
def giveUp {α : Type} (cnt : Nat) : Except Fault (Option α) := do
  useSections cnt
  return none

/-- A call that has the given answer. -/
def call (cnt : Nat) : Answer → Except Fault (Option Unit)
  | .panics => .error (.panic "in a call of execve")
  | .fails => giveUp cnt
  | .works => .ok (some ())

/-- The loop over the headers, from the one with the number `i` on, with `cnt` sections so far. -/
def loadSections (segment : Nat → Answer) : Nat → List ProgHdr → Nat →
    Except Fault (Option Nat)
  | _, [], cnt => .ok (some cnt)
  | i, ph :: rest, cnt =>
    if !ph.isLoad then loadSections segment (i + 1) rest cnt
    else if !ph.sizesOk then giveUp cnt
    else orGiveUp (call cnt (segment i)) fun _ => do
      storeSection cnt
      loadSections segment (i + 1) rest (cnt + 1)

/-- The loop over the strings from the one with the number `i` on, of which `left` are left: the
place of each goes to the array of the pointers, and a null behind the last one. -/
def storeStrings (push : Nat → Answer) (cnt : Nat) : Nat → Nat → Except Fault (Option Unit)
  | i, 0 => if i < maxArg then .ok (some ()) else .error (.undefined "index past the pointers")
  | i, left + 1 =>
    if maxArg ≤ i then giveUp cnt
    else orGiveUp (call cnt (push i)) fun _ => storeStrings push cnt (i + 1) left

/-- `execve` of a file with the headers, in a process with `old` sections: the new number
of sections. -/
def execveLoaded (a : ExecAnswers) (old : Nat) (hdrs : List ProgHdr)
    (argv envs : List (List UInt8)) : Except Fault (Option Nat) :=
  orGiveUp (loadSections a.segment 0 hdrs 0) fun cnt =>
  orGiveUp (call cnt a.headers) fun _ => do
    storeSection cnt
    orGiveUp (call (cnt + 1) a.stack) fun _ =>
      orGiveUp (storeStrings a.pushEnv (cnt + 1) 0 envs.length) fun _ =>
      orGiveUp (storeStrings a.pushArg (cnt + 1) 0 argv.length) fun _ =>
      orGiveUp (call (cnt + 1) a.vectors) fun _ =>
      orGiveUp (call (cnt + 1) a.image) fun _ => do
        useSections old
        useSections (cnt + 1)
        return some (cnt + 1)

/-- `execve`, where `files` gives the file at a path, and `elf` are the bytes of the header before
it is read. -/
def execve (a : ExecAnswers) (files : List UInt8 → Option (List UInt8)) (elf : List UInt8)
    (old : Nat) (path : List UInt8) (argv envs : List (List UInt8)) : Except Fault (Option Nat) :=
  match files path with
  | none => .ok none
  | some file =>
    let hdr := ElfHdr.ofBuffer (readBuffer file elf 0)
    if hdr.magic ≠ elfMagic then .ok none
    else orGiveUp (call 0 a.vmCreate) fun _ =>
      execveLoaded a old (progHdrs file hdr.phnum (List.replicate 56 0) hdr.phoff) argv envs

/-- `".sh"`. -/
def shSuffix : List UInt8 := [46, 115, 104]

/-- `"./busybox"`. -/
def busybox : List UInt8 := [46, 47, 98, 117, 115, 121, 98, 111, 120]

/-- `_sys_execve`, with the strings up to the null pointers of the user. -/
def sysExecve (a : ExecAnswers) (files : List UInt8 → Option (List UInt8)) (elf : List UInt8)
    (old : Nat) (path : List UInt8) (uargv uenvp : List (List UInt8)) : Except Fault (Option Nat) :=
  if maxArgNum ≤ uargv.length then .ok none
  else if maxArgNum ≤ uenvp.length then .ok none
  else if shSuffix.isSuffixOf path then execve a files elf old busybox
    (busybox :: [115, 104] :: uargv) uenvp
  else execve a files elf old path uargv uenvp

end OsKernel.Pm

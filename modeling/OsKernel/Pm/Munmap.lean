import OsKernel.Mm.Vmm.Unmap
import OsKernel.Pm.Files

/-! `munmap`, with the page table of the process, its memory areas and the files behind them. -/

namespace OsKernel.Pm

open Fs Hsai Mm

def mapShared : Nat := 1

def protWrite : Nat := 2

/-- `vma`, with its protection and flags. -/
structure MmapVma extends Vma where
  prot : Nat
  flags : Nat

/-- What `normal_file::write` looks at besides the fields of a `File`. -/
structure NormalAttrs where
  uWrite : Bool
  filePtr : Int

/-- A call of `nodeWrite`, which returns the length. -/
structure NodeWrite where
  file : Nat
  off : Nat
  bytes : List UInt8

/-- The state that `munmap` works on. -/
structure MmapState (σ : Type) where
  kernel : Kernel σ
  vm : Fin maxVmaNum → MmapVma
  store : FileStore
  normals : Nat → NormalAttrs
  written : List NodeWrite

namespace MmapState

variable {σ : Type} (arch : Arch) (V : VirtualPageAllocator σ) (pt : PageTable) (s : MmapState σ)

/-- `normal_file::write` of the bytes at an offset, which is the position of the file if it
is negative. -/
def fileWrite (f : Nat) (src : List UInt8) (off : Int) : Except Fault (MmapState σ) :=
  match s.store.files f with
  | none => .error (.undefined "use of a deleted file")
  | some o =>
    let a := s.normals f
    if !a.uWrite then .ok s
    else if o.filetype = .direct then .ok s
    else if o.filetype = .none then .ok s
    else
      let off := if off < 0 then a.filePtr else off
      .ok { s with
        written := s.written ++ [⟨f, (off % wordSize).toNat, src⟩]
        normals := Function.update s.normals f { a with filePtr := a.filePtr + src.length } }

/-- The loop of `munmap` that writes the pages back, with an `int` for the offset. -/
def writeBackLoop (f : Nat) : Nat → MmapState σ → Nat → Int → Except Fault (MmapState σ)
  | 0, s, _, _ => .ok s
  | n + 1, s, va, offset => do
    let pa ← kwalkAddr arch V s.kernel pt va
    let s ← s.fileWrite f (s.kernel.mem.load (arch.toVir pa) pageSize) offset
    writeBackLoop f n s (wordAdd va pageSize) (Int.bmod (offset + pageSize) (2 ^ 32))

/-- The number of turns of a loop from `va` up to `va + len`, by pages. -/
def turns (va len : Nat) : Nat := (wordAdd va len - va) / pageSize

/-- The write back of a memory area. -/
def writeBack (v : MmapVma) (va len : Nat) : Except Fault (MmapState σ) :=
  match v.vfile with
  | none => .ok s
  | some f =>
    if v.flags = mapShared ∧ v.prot &&& protWrite ≠
      0 then writeBackLoop arch V pt f (turns va len) s va 0
    else .ok s

/-- `free_file` unless the pointer is null. -/
def freeVfile : Option Nat → Except Fault (MmapState σ)
  | none => .ok s
  | some f => do
    let store ← s.store.freeFile f
    return { s with store }

/-- The first memory area with the address, in use or not. -/
def findVma (va : Nat) : Option (Fin maxVmaNum) :=
  (List.finRange maxVmaNum).find? fun i => (s.vm i).address = va

/-- `munmap`. -/
def munmap (va len : Nat) : Except Fault (Int × MmapState σ) :=
  let va := pageRoundDown va
  let len := pageRoundUp len
  match s.findVma va with
  | none => .ok (-1, s)
  | some i => do
    let v := s.vm i
    let s ← s.writeBack arch V pt v va len
    let s ← s.freeVfile v.vfile
    let vm := Function.update s.vm i { v with isUsed := false, address := 0 }
    let kernel ← vmUnmap arch V s.kernel pt va (len / pageSize) true
    return (0, { s with vm, kernel })

end MmapState

/-! ### What it is to do -/

/-- The bytes that calls of `nodeWrite` leave, by their offset in the file. -/
def NodeWrite.overlay : List NodeWrite → Nat → Option UInt8
  | [], _ => none
  | c :: rest, x =>
    match overlay rest x with
    | some b => some b
    | none =>
      if c.off ≤ x ∧ x < c.off + c.bytes.length then some (c.bytes.getD (x - c.off) 0) else none

namespace MmapVma

variable (v : MmapVma)

/-- The pages of a memory area that starts at a page. -/
def pageCount : Nat := (v.length.toNat + 4095) / 4096

/-- A shared mapping of a file that may be written. -/
def SharedWritable : Prop :=
  v.vfile ≠ none ∧ v.flags &&& mapShared ≠ 0 ∧ v.prot &&& protWrite ≠ 0

instance : Decidable v.SharedWritable := inferInstanceAs (Decidable (_ ∧ _ ∧ _))

end MmapVma

section

variable {σ : Type} (arch : Arch) (V : VirtualPageAllocator σ) (pt : PageTable)

/-- `s'` is `s` after a request for `n` pages of the area `i`: its first `n` pages are unmapped, all
if it has no more; it describes the rest; its file has one reference less; and the bytes of a shared
mapping are written. -/
structure AreaUnmapped (s s' : MmapState σ) (i : Fin maxVmaNum) (n : Nat) : Prop where
  pages : ∀ w < arch.vaPages, entryOf arch V s'.kernel pt (4096 * w) =
    if (s.vm i).address ≤ 4096 * w ∧
      4096 * w < (s.vm i).address + 4096 * min n (s.vm i).pageCount then 0
    else entryOf arch V s.kernel pt (4096 * w)
  rest : if (s.vm i).pageCount ≤ n then (s'.vm i).isUsed = false
    else s'.vm i =
      { s.vm i with
        address := (s.vm i).address + 4096 * n
        length := (s.vm i).length - 4096 * n }
  others : ∀ j, j ≠ i → s'.vm j = s.vm j
  file : s.freeVfile (s.vm i).vfile = .ok { s with store := s'.store }
  written : ∃ calls, s'.written = s.written ++ calls ∧
    (∀ c ∈ calls, (s.vm i).vfile = some c.file) ∧
    ∀ x, NodeWrite.overlay calls x = if (s.vm i).SharedWritable ∧ x < (s.vm i).length.toNat then
      some (s.kernel.mem (userLoc arch V s.kernel pt ((s.vm i).address + x))) else none

/-- A call of `munmap` with the address and length removes a live mapping, or returns -1 and
changes nothing. -/
def RemovesLive (s : MmapState σ) (va len : Nat) : Prop :=
  ∃ r s', s.munmap arch V pt va len = .ok (r, s') ∧
    ((r = 0 ∧ ∃ i, (s.vm i).isUsed = true ∧ (s.vm i).address = pageRoundDown va ∧
        AreaUnmapped arch V pt s s' i ((len + 4095) / 4096)) ∨
      (r = -1 ∧ s' = s))

/-- The condition on the first area with the address.  It is in use, and the request is for all its
pages.  The pages that the loop comes to are pages of the area, all mapped, and no other page of the
area is mapped.  If its bytes are to be written, there are none, or the flags are those of a shared
mapping alone, the file takes them, and the pages that the loop comes to are full of them. -/
structure FitsArea (s : MmapState σ) (i : Fin maxVmaNum) (len : Nat) : Prop where
  used : (s.vm i).isUsed = true
  whole : (s.vm i).pageCount ≤ (len + 4095) / 4096
  inside : MmapState.turns (s.vm i).address (pageRoundUp len) ≤ (s.vm i).pageCount
  mapped : ∀ j < (s.vm i).pageCount,
    ValidLeaf arch V s.kernel pt ((s.vm i).address + 4096 * j) ↔
    j < MmapState.turns (s.vm i).address (pageRoundUp len)
  bytes : (s.vm i).SharedWritable → (s.vm i).length ≤ 0 ∨ (s.vm i).flags = mapShared ∧
    (∀ f, (s.vm i).vfile = some f → (s.normals f).uWrite = true ∧
      ∀ o, s.store.files f = some o → o.filetype ≠ .direct ∧ o.filetype ≠ .none) ∧
    (s.vm i).length = 4096 * MmapState.turns (s.vm i).address (pageRoundUp len)

end

end OsKernel.Pm

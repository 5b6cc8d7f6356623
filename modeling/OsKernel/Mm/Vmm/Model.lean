import OsKernel.Mm.PageTable.Model

/-! `VirtualMemoryManager`: mapping, growing, shrinking and copying user memory. -/

namespace OsKernel.Mm

open Lib Hsai

variable {σ : Type} (arch : Arch) (V : VirtualPageAllocator σ)

/-- The sum of two `ulong`s. -/
def wordAdd (a b : Nat) : Nat := (a + b) % wordSize

/-! ### Mapping -/

/-- The loop of `map_pages`, with `n` pages left after the one at `a`. -/
def mapLoop (pt : PageTable) (flags : Nat) :
    Nat → Kernel σ → Nat → Nat → Except Fault (Bool × Kernel σ)
  | n, k, a, pa => do
    let r ← walk arch V k pt a true
    if r.1 = 0 then .ok (false, r.2)
    else if arch.isValid (pteData r.2.mem r.1) then .ok (false, r.2)
    else
      let k := pteSetData arch r.2 r.1 (pageRoundDown (arch.toPhy pa) ||| flags)
      match n with
      | 0 => .ok (true, k)
      | n + 1 => mapLoop pt flags n k (wordAdd a pageSize) (wordAdd pa pageSize)

/-- `map_pages`. -/
def mapPages (k : Kernel σ) (pt : PageTable) (va size pa flags : Nat) :
    Except Fault (Bool × Kernel σ) :=
  if size = 0 then .error (.panic "mappages: size")
  else
    let a := pageRoundDown va
    let last := pageRoundDown (wordSub (wordAdd va size) 1)
    mapLoop arch V pt flags (wordSub last a / pageSize) k a pa

/-- The flags that the `map_*_pages` functions add for the privilege level. -/
def plvFlag (forUser : Bool) : Nat := if forUser then arch.userPlvFlag else arch.superPlvFlag

/-- `map_code_pages`. -/
def mapCodePages (k : Kernel σ) (pt : PageTable) (va size pa : Nat) (forUser : Bool) :
    Except Fault (Bool × Kernel σ) :=
  mapPages arch V k pt va size pa
    (arch.mapCodePageFlags ||| arch.validFlag ||| plvFlag arch forUser)

/-- `map_data_code_pages`. -/
def mapDataCodePages (k : Kernel σ) (pt : PageTable) (va size pa : Nat) (forUser : Bool) :
    Except Fault (Bool × Kernel σ) :=
  mapPages arch V k pt va size pa
    (arch.mapDataPageFlags ||| arch.mapCodePageFlags ||| arch.validFlag ||| plvFlag arch forUser)

/-- `map_data_pages`. -/
def mapDataPages (k : Kernel σ) (pt : PageTable) (va size pa : Nat) (forUser : Bool) :
    Except Fault (Bool × Kernel σ) :=
  mapPages arch V k pt va size pa
    (arch.mapDataPageFlags ||| arch.validFlag ||| plvFlag arch forUser)

/-- The loop of `vm_unmap` over the `n` pages from `a` on. -/
def unmapLoop (pt : PageTable) (doFree : Bool) : Nat → Kernel σ → Nat →
    Except Fault (Kernel σ)
  | 0, k, _ => .ok k
  | n + 1, k, a => do
    let r ← walk arch V k pt a false
    let data := pteData r.2.mem r.1
    if r.1 = 0 then .error (.panic "vmunmap: walk")
    else if !arch.isValid data then .error (.panic "vmunmap: not mapped")
    else if arch.isDirPage data then .error (.panic "vmunmap: not a leaf")
    else if doFree then do
      let f ← pmmFreePages V r.2 (arch.toVir (arch.toPa data))
      unmapLoop pt doFree n (pteClearData f.2 r.1) (wordAdd a pageSize)
    else unmapLoop pt doFree n (pteClearData r.2 r.1) (wordAdd a pageSize)

/-- `vm_unmap`: the loop runs while the address is below the end, which may wrap around. -/
def vmUnmap (k : Kernel σ) (pt : PageTable) (va npages : Nat) (doFree : Bool) :
    Except Fault (Kernel σ) :=
  if va % pageSize ≠ 0 then .error (.panic "vmunmap: not aligned")
  else
    let last := wordAdd va (npages * pageSize)
    unmapLoop arch V pt doFree ((last - va) / pageSize) k va

/-- `vm_create`. -/
def vmCreate (k : Kernel σ) : Except Fault (PageTable × Kernel σ) := do
  let r ← pmmAllocPage V k
  match r.1 with
  | none => .error (.panic "vmm: no mem to create vm space.")
  | some addr => .ok (⟨addr, true⟩, clearPage r.2 addr)

/-! ### Growing and shrinking -/

/-- An `int` made from an `ulong` and passed on as an `uint64`. -/
def intOfUlong (n : Nat) : Nat :=
  if n % 2 ^ 32 < 2 ^ 31 then n % 2 ^ 32 else n % 2 ^ 32 + (2 ^ 64 - 2 ^ 32)

/-- `vm_dealloc`. -/
def vmDealloc (k : Kernel σ) (pt : PageTable) (oldSz newSz : Nat) :
    Except Fault (Nat × Kernel σ) :=
  if oldSz ≤ newSz then .ok (oldSz, k)
  else
    let na := pageRoundUp newSz
    let oa := pageRoundUp oldSz
    if na < oa then do
      let k ← vmUnmap arch V k pt na (intOfUlong ((oa - na) / pageSize)) true
      .ok (newSz, k)
    else .ok (newSz, k)

/-- The mapping that `vm_alloc` makes for one block. -/
def vmAllocMap (executable writeable forUser : Bool) (k : Kernel σ) (pt : PageTable)
    (va size mem : Nat) : Except Fault (Bool × Kernel σ) :=
  if executable then
    if writeable then mapDataCodePages arch V k pt va size mem forUser
    else mapCodePages arch V k pt va size mem forUser
  else mapDataPages arch V k pt va size mem forUser

/-- The loop of `vm_alloc` over the bits of the page count from bit `j` on. -/
def vmAllocLoop (pt : PageTable) (executable writeable forUser : Bool) (oa npg newSz : Nat) :
    Nat → Kernel σ → Nat → Nat → Except Fault (Nat × Kernel σ)
  | 0, k, _, _ => .ok (newSz, k)
  | n + 1, k, j, hasAlloc =>
    if npg < 2 ^ j then .ok (newSz, k)
    else if npg.testBit j then do
      let r ← pmmAllocPages V k (2 ^ j)
      match r.1 with
      | none => do
        let d ← vmDealloc arch V r.2 pt (wordAdd oa hasAlloc) oa
        .ok (0, d.2)
      | some mem => do
        let k := clearPages r.2 mem (2 ^ j)
        let ls := pageSize * 2 ^ j
        let f ← vmAllocMap arch V executable writeable forUser k pt (wordAdd oa hasAlloc) ls mem
        if f.1 then
          vmAllocLoop pt executable writeable forUser oa npg newSz n f.2 (j + 1) (hasAlloc + ls)
        else do
          let g ← pmmFreePages V f.2 mem
          let d ← vmDealloc arch V g.2 pt (wordAdd oa hasAlloc) oa
          .ok (0, d.2)
    else vmAllocLoop pt executable writeable forUser oa npg newSz n k (j + 1) hasAlloc

/-- `vm_alloc`. -/
def vmAlloc (k : Kernel σ) (pt : PageTable) (oldSz newSz : Nat)
    (executable writeable forUser : Bool) : Except Fault (Nat × Kernel σ) :=
  if newSz < oldSz then .ok (oldSz, k)
  else
    let oa := pageRoundUp oldSz
    let na := pageRoundUp newSz
    let npg := wordSub na oa / pageSize
    vmAllocLoop arch V pt executable writeable forUser oa npg newSz 64 k 0 0

/-! ### Copying -/

/-- The loop of `vm_copy` over the `n` pages from `va` on. -/
def vmCopyLoop (oldPt newPt : PageTable) (start : Nat) :
    Nat → Kernel σ → Nat → Except Fault (Int × Kernel σ)
  | 0, k, _ => .ok (0, k)
  | n + 1, k, va => do
    let r ← walk arch V k oldPt va false
    let data := pteData r.2.mem r.1
    if r.1 = 0 then .error (.panic "uvmcopy: pte should exist")
    else if !arch.isPresent data then .error (.panic "uvmcopy: page not present")
    else do
      let pa := arch.toVir (arch.toPa data)
      let flags := arch.getFlags data
      let p ← pmmAllocPage V r.2
      match p.1 with
      | none => do
        let k ← vmUnmap arch V p.2 newPt start ((va - start) / pageSize) true
        .ok (-1, k)
      | some mem => do
        let k := { p.2 with mem := p.2.mem.copy mem pa pageSize }
        let f ← mapPages arch V k newPt va pageSize mem flags
        if f.1 then vmCopyLoop oldPt newPt start n f.2 (wordAdd va pageSize)
        else do
          let g ← pmmFreePages V f.2 mem
          let k ← vmUnmap arch V g.2 newPt start ((va - start) / pageSize) true
          .ok (-1, k)

/-- `vm_copy`, of two page tables. -/
def vmCopy (k : Kernel σ) (oldPt newPt : PageTable) (start size : Nat) :
    Except Fault (Int × Kernel σ) :=
  if !isPageAlign start then .error (.panic "vm copy : va start not page-align")
  else if !isPageAlign size then .error (.panic "vm copy : copy size is not page-align")
  else
    let vaEnd := wordAdd start size
    vmCopyLoop arch V oldPt newPt start ((vaEnd - start) / pageSize) k start

/-- The loop of `copyout`, which ends within as many turns as there are bytes. -/
def copyoutLoop (pt : PageTable) :
    Nat → Kernel σ → Nat → List UInt8 → Except Fault (Int × Kernel σ)
  | 0, k, _, _ => .ok (0, k)
  | turns + 1, k, va, p =>
    if p.length = 0 then .ok (0, k)
    else do
      let a := pageRoundDown va
      let pte ← walk arch V k pt a false
      let pa := arch.toVir (arch.toPa (pteData pte.2.mem pte.1))
      if pa = 0 then .ok (-1, pte.2)
      else
        let n := min (pageSize - (va - a)) p.length
        let mem := pte.2.mem.store (arch.toVir (wordAdd pa (va - a))) (p.take n)
        copyoutLoop pt turns { pte.2 with mem := mem } (wordAdd a pageSize) (p.drop n)

/-- `copyout` of the bytes `p`. -/
def copyout (k : Kernel σ) (pt : PageTable) (va : Nat) (p : List UInt8) :
    Except Fault (Int × Kernel σ) :=
  copyoutLoop arch V pt p.length k va p

/-- The loop of `copy_in`, with the bytes stored at `dst` so far.  It ends within as many turns as
there are bytes. -/
def copyInLoop (k : Kernel σ) (pt : PageTable) :
    Nat → Nat → Nat → List UInt8 → Except Fault (Int × List UInt8)
  | 0, _, _, dst => .ok (0, dst)
  | turns + 1, srcVa, len, dst =>
    if len = 0 then .ok (0, dst)
    else do
      let va := pageRoundDown srcVa
      let pa ← walkAddr arch V k pt va
      let pa := arch.toVir pa
      if pa = 0 then .ok (-1, dst)
      else
        let n := min (pageSize - (srcVa - va)) len
        copyInLoop k pt turns (wordAdd va pageSize) (len - n)
          (dst ++ k.mem.load (wordAdd pa (srcVa - va)) n)

/-- `copy_in`: the result and the bytes stored at `dst`. -/
def copyIn (k : Kernel σ) (pt : PageTable) (srcVa len : Nat) : Except Fault (Int × List UInt8) :=
  copyInLoop arch V k pt len srcVa len []

/-- The inner loop of `copy_str_in` over at most `n` bytes from `p` on: whether it has met the NUL,
what is left of `max`, and the bytes stored so far, with `nul` stored for the NUL. -/
def copyStrScan (nul : List UInt8) (m : Mem) :
    Nat → Nat → Nat → List UInt8 → Bool × Nat × List UInt8
  | 0, _, max, dst => (false, max, dst)
  | n + 1, p, max, dst =>
    if m p = 0 then (true, max, dst ++ nul)
    else copyStrScan nul m n (p + 1) (max - 1) (dst ++ [m p])

/-- The outer loop of `copy_str_in`, which ends within `max` turns. -/
def copyStrInLoop (nul : List UInt8) (k : Kernel σ) (pt : PageTable) :
    Nat → Nat → Nat → List UInt8 → Except Fault (Int × List UInt8)
  | 0, _, _, dst => .ok (-1, dst)
  | turns + 1, srcVa, max, dst =>
    if max = 0 then .ok (-1, dst)
    else do
      let va := pageRoundDown srcVa
      let pa ← walkAddr arch V k pt va
      let pa := arch.toVir pa
      if pa = 0 then .ok (-1, dst)
      else
        let n := min (pageSize - (srcVa - va)) max
        let (gotNull, max, dst) := copyStrScan nul k.mem n (wordAdd pa (srcVa - va)) max dst
        if gotNull then .ok (0, dst)
        else copyStrInLoop nul k pt turns (wordAdd va pageSize) max dst

/-- `copy_str_in` to a buffer: the result and the bytes stored, the NUL with them. -/
def copyStrIn (k : Kernel σ) (pt : PageTable) (srcVa max : Nat) :
    Except Fault (Int × List UInt8) :=
  copyStrInLoop arch V [0] k pt max srcVa max []

/-- `copy_str_in` to a string, which it appends to. -/
def copyStrInString (k : Kernel σ) (pt : PageTable) (dst : List UInt8) (srcVa max : Nat) :
    Except Fault (Int × List UInt8) :=
  copyStrInLoop arch V [] k pt max srcVa max dst

end OsKernel.Mm

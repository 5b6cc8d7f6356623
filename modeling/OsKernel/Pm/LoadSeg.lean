import OsKernel.Mm.Vmm.RoundTrip

/-! `load_seg`, which loads a segment of a program into pages that `vm_alloc` has mapped. -/

namespace OsKernel.Pm

open Lib Hsai Mm

/-- An `uint`. -/
def uintOf (n : Nat) : Nat := n % 2 ^ 32

/-- The memory after a read of `len` bytes at `off` in the node of the file to `dst`, which ends at
the end of the file. -/
def nodeRead (m : Mem) (file : List UInt8) (dst off len : Nat) : Mem :=
  m.store dst ((file.drop off).take len)

section

variable {σ : Type} (arch : Arch) (V : VirtualPageAllocator σ)

/-- The loop of `load_seg` over the pages from `va + i` on, with `fuel` turns left. -/
def loadSegLoop (pt : PageTable) (va : Nat) (file : List UInt8) (offset size : Nat) :
    Nat → Kernel σ → Nat → Except Fault (Kernel σ)
  | 0, _, _ => .error (.undefined "no end of the segment")
  | fuel + 1, k, i =>
    if i < size then do
      let pte ← walk arch V k pt (wordAdd va i) false
      let pa := arch.toPa (pteData pte.2.mem pte.1)
      if pa = 0 then .error (.panic "load_seg: walk")
      else
        let n := if size - i < pageSize then size - i else pageSize
        let mem := nodeRead pte.2.mem file (arch.toVir pa) (uintOf (offset + i)) n
        loadSegLoop pt va file offset size fuel { pte.2 with mem := mem } (uintOf (i + pageSize))
    else .ok k

/-- `load_seg`, with at most `fuel` turns of its loop.  The parameters `offset` and `size`
are `uint`s. -/
def loadSeg (fuel : Nat) (k : Kernel σ) (pt : PageTable) (va : Nat) (file : List UInt8)
    (offset size : Nat) : Except Fault (Kernel σ) :=
  let offset := uintOf offset
  let size := uintOf size
  if isPageAlign va then loadSegLoop arch V pt va file offset size fuel k 0
  else do
    let pa ← walkAddr arch V k pt va
    let n := uintOf (wordSub (pageRoundUp va) va)
    let mem := nodeRead k.mem file (arch.toVir pa) (uintOf (offset + 0)) n
    loadSegLoop arch V pt va file offset size fuel { k with mem := mem } (uintOf (0 + n))

/-- The user bytes of the mapped pages are those of the file up to `size`, and zero elsewhere. -/
def SegmentLoaded (k : Kernel σ) (pt : PageTable) (va : Nat) (file : List UInt8)
    (off size memsz : Nat) : Prop :=
  ∀ a, pageRoundDown va ≤ a → a < pageRoundUp (va + memsz) → k.mem (userLoc arch V k pt a) =
    if va ≤ a ∧ a < va + size then file.getD (off + (a - va)) 0 else 0

/-- `load_seg` returns, and the segment is loaded. -/
def LoadsSegment (k : Kernel σ) (pt : PageTable) (va : Nat) (file : List UInt8)
    (off size memsz : Nat) : Prop :=
  ∃ turns k', (∀ fuel, turns ≤ fuel → loadSeg arch V fuel k pt va file off size =
    .ok k') ∧ SegmentLoaded arch V k' pt va file off size memsz

end

end OsKernel.Pm

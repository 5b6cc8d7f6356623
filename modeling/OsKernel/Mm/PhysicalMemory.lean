import OsKernel.Hsai.Page
import OsKernel.Klib.Fault
import OsKernel.Lib.ByteMemory

/-! The physical memory manager `k_pmm` over any page allocator.  All junk values of the source are
zero. -/

namespace OsKernel.Mm

open Lib Hsai

/-- The interface `VirtualPageAllocator`, for an allocator object of type `σ`: `none` is the null
pointer. -/
structure VirtualPageAllocator (σ : Type) where
  allocPages : σ → Mem → Nat → Except Fault (Option Nat × σ × Mem)
  freePages : σ → Mem → Nat → Except Fault (Int × σ × Mem)

/-- The allocator object and the memory. -/
structure Kernel (σ : Type) where
  pages : σ
  mem : Mem

/-- `_fill_junk`. -/
def fillJunk (m : Mem) (pa : Nat) : Mem := m.fill pa pageSize 0

/-- `_fill_pages`: the count is an `uint`, and the loop ends at once where the end wraps around. -/
def fillPages (m : Mem) (pages : Nat) (cnt : Int) : Mem :=
  let endUnit := (pages + (cnt % 2 ^ 32).toNat * pageSize) % wordSize
  m.fill pages (endUnit - pages) 0

section

variable {σ : Type} (V : VirtualPageAllocator σ)

/-- `k_pmm.alloc_pages`. -/
def pmmAllocPages (k : Kernel σ) (cnt : Nat) : Except Fault (Option Nat × Kernel σ) := do
  let r ← V.allocPages k.pages k.mem cnt
  match r.1 with
  | none => .ok (none, ⟨r.2.1, r.2.2⟩)
  | some pgs => .ok (some pgs, ⟨r.2.1, fillPages r.2.2 pgs cnt⟩)

/-- `k_pmm.free_pages`. -/
def pmmFreePages (k : Kernel σ) (pa : Nat) : Except Fault (Int × Kernel σ) :=
  if pa = 0 then .ok (-1, k)
  else do
    let r ← V.freePages k.pages k.mem pa
    .ok (0, ⟨r.2.1, fillPages r.2.2 pa r.1⟩)

/-- `k_pmm.alloc_page`. -/
def pmmAllocPage (k : Kernel σ) : Except Fault (Option Nat × Kernel σ) := do
  let r ← V.allocPages k.pages k.mem 1
  match r.1 with
  | none => .ok (none, ⟨r.2.1, r.2.2⟩)
  | some pg => .ok (some pg, ⟨r.2.1, fillJunk r.2.2 pg⟩)

/-- `k_pmm.clear_page`. -/
def clearPage (k : Kernel σ) (pa : Nat) : Kernel σ := { k with mem := fillJunk k.mem pa }

/-- `k_pmm.clear_pages`. -/
def clearPages (k : Kernel σ) (pa cnt : Nat) : Kernel σ :=
  { k with mem := k.mem.fill pa (cnt * pageSize) 0 }

end

end OsKernel.Mm

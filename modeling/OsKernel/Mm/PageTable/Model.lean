import OsKernel.Hsai.Pte
import OsKernel.Mm.PhysicalMemory

/-! The page table walk of `page_table.cc`.  A `Pte` is the address of an entry, with 0 for the null
pointer. -/

namespace OsKernel.Mm

open Lib Hsai

/-- `PageTable`. -/
structure PageTable where
  baseAddr : Nat
  isGlobal : Bool
  deriving DecidableEq

variable {σ : Type} (arch : Arch) (V : VirtualPageAllocator σ)

/-- The data of an entry. -/
def pteData (m : Mem) (pte : Nat) : Nat := m.read pte 8

/-- `Pte::set_data`. -/
def pteSetData (k : Kernel σ) (pte data : Nat) : Kernel σ :=
  { k with mem := k.mem.write pte 8 (arch.setData data) }

/-- `Pte::clear_data`. -/
def pteClearData (k : Kernel σ) (pte : Nat) : Kernel σ := { k with mem := k.mem.write pte 8 0 }

/-- `PageTable::get_pte` of the table at `base`. -/
def getPte (base index : Nat) : Nat := arch.pteAddr (base + 8 * index)

/-- `_walk_to_next_level`: the base of the next table, or `none` where it returns false. -/
def walkToNextLevel (k : Kernel σ) (pte : Nat) (alloc : Bool) :
    Except Fault (Option Nat × Kernel σ) :=
  if arch.isValid (pteData k.mem pte) then
    .ok (some (arch.toVir (arch.toPa (pteData k.mem pte))), k)
  else if !alloc then .ok (none, k)
  else do
    let r ← pmmAllocPage V k
    match r.1 with
    | none => .ok (none, r.2)
    | some page =>
      let k := clearPage r.2 page
      .ok (some page,
        pteSetData arch k pte (pageRoundDown (arch.toPhy page) ||| arch.mapDirPageFlags))

/-- The panic of `walk` where the table below a level cannot be reached. -/
def walkFail : Nat → String
  | 3 => "walk pgd to pud fail"
  | 2 => "walk pud to pmd fail"
  | _ => "walk pmd to pt fail"

/-- The steps of `walk` from the table at `base`, which is at the given level. -/
def walkFrom (va : Nat) (alloc : Bool) : Nat → Kernel σ → Nat →
    Except Fault (Nat × Kernel σ)
  | 0, k, base => .ok (getPte arch base (pgNum 0 va), k)
  | level + 1, k, base => do
    let r ← walkToNextLevel arch V k (getPte arch base (pgNum (level + 1) va)) alloc
    match r.1 with
    | none => .error (.panic (walkFail (level + 1)))
    | some next => walkFrom va alloc level r.2 next

/-- `PageTable::walk`. -/
def walk (k : Kernel σ) (pt : PageTable) (va : Nat) (alloc : Bool) :
    Except Fault (Nat × Kernel σ) :=
  if pt.isGlobal = false then .ok (0, k)
  else walkFrom arch V va alloc arch.top k pt.baseAddr

/-- `PageTable::walk_addr`.  The walk does not allocate, so the state stays as it is. -/
def walkAddr (k : Kernel σ) (pt : PageTable) (va : Nat) : Except Fault Nat := do
  let r ← walk arch V k pt va false
  let data := pteData r.2.mem r.1
  if r.1 = 0 then .ok 0
  else if !arch.isValid data then .ok 0
  else if arch.isSuperPlv data then .ok 0
  else .ok (arch.toPa data ||| (va &&& (pageSize - 1)))

/-- `PageTable::freewalk` of the table at `base`, through at most `depth` levels: the tables that it
refers to go first.  A leaf entry is only reported. -/
def freewalkFrom : Nat → Kernel σ → Nat → Except Fault (Kernel σ)
  | 0, _, _ => .error (.undefined "freewalk below the last level")
  | depth + 1, k, base => do
    let k ← (List.range 512).foldlM (fun k i =>
      let data := pteData k.mem (getPte arch base i)
      if arch.isValid data && arch.isDirPage data then do
        let k ← freewalkFrom depth k (arch.toVir (arch.toPa data))
        .ok (pteClearData k (base + 8 * i))
      else .ok k) k
    let f ← pmmFreePages V k base
    .ok f.2

/-- `PageTable::freewalk`. -/
def freewalk (k : Kernel σ) (pt : PageTable) : Except Fault (Kernel σ) :=
  freewalkFrom arch V (arch.top + 1) k pt.baseAddr

end OsKernel.Mm

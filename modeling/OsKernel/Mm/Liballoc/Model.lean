import Mathlib.Logic.Function.Basic
import OsKernel.Klib.Fault

/-! `L_Allocator`: the kernel heap.  Chunks of pages are kept in a list from `_mem_root` on, and in
each of them the blocks in use, behind their tags, in the order of their addresses.  The pointers of
both lists are given by the order of the Lean lists. -/

namespace OsKernel.Mm.Liballoc

/-- `sizeof( L_TagMajor )`. -/
abbrev sizeofMajor : Nat := 40

/-- `sizeof( L_TagMinor )`. -/
abbrev sizeofMinor : Nat := 40

structure LTagMinor where
  addr : Nat
  size : Nat
  reqSize : Nat

structure LTagMajor where
  addr : Nat
  size : Nat
  usage : Nat
  /-- `first` and the tags behind it. -/
  minors : List LTagMinor

/-- The fields of the allocator, and the `magic` words at the addresses of tags. -/
structure LAllocator where
  chunks : List LTagMajor
  bestBet : Option Nat
  cachSize : Nat
  usedSize : Nat
  metaSize : Nat
  magic : Nat → Nat

/-- `_liballoc_magic_`. -/
def liballocMagic : Nat := 0x17ba110c17ba110c

/-- `_liballoc_dead`. -/
def liballocDead : Nat := 0xdeaddeaddeaddead

/-- The base allocator, by the runs of pages that are held in its states. -/
structure PageSource (σ : Type) where
  allocPages : σ → Nat → Option Nat × σ
  freePages : σ → Nat → σ
  /-- The number of pages of the run at an address. -/
  held : σ → Nat → Option Nat
  held_run : ∀ {s : σ} {a n : Nat}, held s a = some n → 0 < n ∧ 0 < a ∧ a % 4096 = 0 ∧
    a + 4096 * n ≤ 2 ^ 64
  apart : ∀ {s : σ} {a b n m : Nat}, held s a = some n → held s b = some m → a ≠ b →
    a + 4096 * n ≤ b ∨ b + 4096 * m ≤ a
  alloc_some : ∀ {s s' : σ} {n a : Nat}, 0 < n → allocPages s n = (some a, s') →
    held s a = none ∧ held s' = Function.update (held s) a (some n)
  alloc_none : ∀ {s s' : σ} {n : Nat}, allocPages s n = (none, s') → held s' = held s
  free_held : ∀ (s : σ) (a : Nat), held (freePages s a) = Function.update (held s) a none

/-- The sum of two `uint`s. -/
def uintAdd (a b : Nat) : Nat := (a + b) % 2 ^ 32

/-- The difference of two `uint`s. -/
def uintSub (a b : Nat) : Nat := (a + (2 ^ 32 - b % 2 ^ 32)) % 2 ^ 32

/-- The sum of two `uint64`s. -/
def u64Add (a b : Nat) : Nat := (a + b) % 2 ^ 64

/-- The difference of two `uint64`s. -/
def u64Sub (a b : Nat) : Nat := (a + (2 ^ 64 - b % 2 ^ 64)) % 2 ^ 64

/-- `_size_align`. -/
def sizeAlign (size : Nat) : Nat := (size + 7) / 8 * 8

/-- The free bytes of a chunk, `maj->size - maj->usage`. -/
def LTagMajor.diff (maj : LTagMajor) : Nat := uintSub maj.size maj.usage

/-! ### A block in a chunk -/

/-- The tag that `malloc` writes. -/
def newMinor (addr size reqSize : Nat) : LTagMinor := ⟨addr, size % 2 ^ 32, reqSize % 2 ^ 32⟩

/-- The chunk with the tags `minors`, one more than before, for a block of `size` bytes. -/
def LTagMajor.grow (maj : LTagMajor) (minors : List LTagMinor) (size : Nat) : LTagMajor :=
  { maj with minors, usage := uintAdd maj.usage (size + sizeofMinor) }

/-- Case 4: the tags from `min` on with a new one behind the first that has room behind it, and the
address of that. -/
def scan (maj : LTagMajor) (size reqSize : Nat) : List LTagMinor → Option (List LTagMinor × Nat)
  | [] => none
  | [min] =>
    let diff : Int := (maj.addr + maj.size : Int) - min.addr - sizeofMinor - min.size
    if diff ≥ size + sizeofMinor then
      let tag := min.addr + sizeofMinor + min.size
      some ([min, newMinor tag size reqSize], tag)
    else none
  | min :: next :: rest =>
    let diff : Int := (next.addr : Int) - min.addr - sizeofMinor - min.size
    if diff ≥ size + sizeofMinor then
      let tag := min.addr + sizeofMinor + min.size
      some (min :: newMinor tag size reqSize :: next :: rest, tag)
    else (scan maj size reqSize (next :: rest)).map fun r => (min :: r.1, r.2)

/-- Cases 2 to 4: the chunk with a new block in it, and the address of the tag. -/
def LTagMajor.place (maj : LTagMajor) (size reqSize : Nat) : Option (LTagMajor × Nat) :=
  let start := maj.addr + sizeofMajor
  match maj.minors with
  | [] => some (maj.grow [newMinor start size reqSize] size, start)
  | first :: rest =>
    let diff : Int := (first.addr : Int) - maj.addr - sizeofMajor
    if diff ≥ size + sizeofMinor then
      some (maj.grow (newMinor start size reqSize :: first :: rest) size, start)
    else (scan maj size reqSize (first :: rest)).map fun r => (maj.grow r.1 size, r.2)

/-! ### `malloc` -/

/-- The number of pages of a new chunk.  `_page_per_chunk` is 16. -/
def chunkPages (size : Nat) : Nat := max ((size + sizeofMajor + sizeofMinor + 4095) / 4096) 16

/-- The chunk that `_allocate_new_chunk` makes of the pages at `a`. -/
def newChunk (a size : Nat) : LTagMajor := ⟨a, chunkPages size * 4096 % 2 ^ 32, sizeofMajor, []⟩

/-- The totals with those of a new chunk of `size` bytes. -/
def LAllocator.withChunk (h : LAllocator) (size : Nat) : LAllocator :=
  { h with
    cachSize := u64Add h.cachSize size
    usedSize := u64Add h.usedSize sizeofMajor
    metaSize := u64Add h.metaSize sizeofMajor }

/-- The heap with a block of `size` bytes more, which is in `chunks`. -/
def LAllocator.withBlock (h : LAllocator) (chunks : List LTagMajor) (tag size : Nat) : LAllocator :=
  { h with
    chunks
    usedSize := u64Add h.usedSize (size + sizeofMinor)
    metaSize := u64Add h.metaSize sizeofMinor
    magic := Function.update h.magic tag liballocMagic }

/-- `_allocate_new_chunk`. -/
def allocateNewChunk {σ : Type} (src : PageSource σ) (h : LAllocator) (s : σ) (size : Nat) :
    Option LTagMajor × LAllocator × σ :=
  match src.allocPages s (chunkPages size) with
  | (none, s') => (none, h, s')
  | (some a, s') => (some (newChunk a size), h.withChunk (newChunk a size).size, s')

/-- The variables of the search, the chunks that it has looked at, and the answers of the base
allocator. -/
structure SearchState (σ : Type) where
  heap : LAllocator
  source : σ
  /-- The position of `maj` in the list. -/
  pos : Nat
  startedBet : Bool
  bestSize : Nat
  visits : List Nat
  asked : List (Option Nat)

/-- The end of a `malloc`: the pointer, or `none` for null. -/
structure MallocRun (σ : Type) where
  ptr : Option Nat
  heap : LAllocator
  source : σ
  visits : List Nat
  asked : List (Option Nat)

namespace SearchState

variable {σ : Type}

def maj (st : SearchState σ) : Option LTagMajor := st.heap.chunks[st.pos]?

def exhausted (st : SearchState σ) : MallocRun σ :=
  ⟨none, st.heap, st.source, st.visits, st.asked⟩

/-- A chunk with more free memory than the best bet takes its place. -/
def better (st : SearchState σ) (maj : LTagMajor) : SearchState σ :=
  if st.bestSize < maj.diff then
    { st with heap := { st.heap with bestBet := some maj.addr }, bestSize := maj.diff }
  else st

def visit (st : SearchState σ) (maj : LTagMajor) : SearchState σ :=
  { st with visits := st.visits ++ [maj.addr] }

/-- The block goes to the chunk at `pos`, which becomes `maj`. -/
def placed (st : SearchState σ) (maj : LTagMajor) (tag size : Nat) : MallocRun σ where
  ptr := some (tag + sizeofMinor)
  heap := st.heap.withBlock (st.heap.chunks.set st.pos maj) tag size
  source := st.source
  visits := st.visits
  asked := st.asked

end SearchState

/-- Where the search goes from a chunk: to no other, to one in the list, or to a new one
behind it. -/
inductive Move (σ : Type) where
  | stop (st : SearchState σ)
  | chunk (st : SearchState σ)
  | fresh (st : SearchState σ)

/-- The end of a turn of the loop. -/
inductive Turn (σ : Type) where
  | done (run : MallocRun σ)
  | next (st : SearchState σ)

section

variable {σ : Type} (src : PageSource σ)

/-- To the next chunk, after the last one to the first if the search began at the best bet, and
otherwise to a new chunk. -/
def moveOn (size : Nat) (st : SearchState σ) : Move σ :=
  if st.pos + 1 < st.heap.chunks.length then .chunk { st with pos := st.pos + 1 }
  else if st.startedBet then .chunk { st with pos := 0, startedBet := false }
  else
    match allocateNewChunk src st.heap st.source size with
    | (none, h, s) => .stop { st with heap := h, source := s, asked := st.asked ++ [none] }
    | (some new, h, s) =>
      .fresh
        { st with
          heap := { h with chunks := h.chunks ++ [new] }
          source := s
          pos := st.pos + 1
          asked := st.asked ++ [some new.addr] }

/-- Cases 2 to 5. -/
def blockCases (size reqSize : Nat) (st : SearchState σ) : Turn σ :=
  match st.maj with
  | none => .done st.exhausted
  | some maj =>
    match maj.place size reqSize with
    | some (maj, tag) => .done (st.placed maj tag size)
    | none =>
      match moveOn src size st with
      | .stop st => .done st.exhausted
      | .chunk st => .next st
      | .fresh st => .next st

/-- One turn of the loop.  In case 1 a new chunk goes on to case 2. -/
def turn (size reqSize : Nat) (st : SearchState σ) : Turn σ :=
  match st.maj with
  | none => .done st.exhausted
  | some maj =>
    let st := (st.visit maj).better maj
    if maj.diff < size + sizeofMinor then
      match moveOn src size st with
      | .stop st => .done st.exhausted
      | .chunk st => .next st
      | .fresh st =>
        match st.maj with
        | none => .done st.exhausted
        | some new => blockCases src size reqSize (st.visit new)
    else blockCases src size reqSize st

/-- The loop, or `none` where it needs more than `fuel` turns. -/
def search (size reqSize : Nat) : Nat → SearchState σ → Option (MallocRun σ)
  | 0, _ => none
  | fuel + 1, st =>
    match turn src size reqSize st with
    | .done run => some run
    | .next st => search size reqSize fuel st

/-- The loop from the first chunk, or from the best bet if it has room. -/
def startSearch (size : Nat) (h : LAllocator) (s : σ) (asked : List (Option Nat)) :
    Except Fault (SearchState σ) :=
  match h.bestBet with
  | none => .ok ⟨h, s, 0, false, 0, [], asked⟩
  | some b =>
    match h.chunks.findIdx? (·.addr = b), h.chunks.find? (·.addr = b) with
    | some i, some maj =>
      if maj.diff > size + sizeofMinor then .ok ⟨h, s, i, true, maj.diff, [], asked⟩
      else .ok ⟨h, s, 0, false, maj.diff, [], asked⟩
    | _, _ => .error (.undefined "_best_bet")

/-- `L_Allocator::malloc` with at most `fuel` turns of its loop. -/
def malloc (fuel : Nat) (h : LAllocator) (s : σ) (reqSize : Int) :
    Except Fault (Option (MallocRun σ)) :=
  if reqSize ≤ 0 then .ok (some ⟨none, h, s, [], []⟩)
  else
    let req := reqSize.toNat
    let size := sizeAlign req
    match h.chunks with
    | [] =>
      match allocateNewChunk src h s size with
      | (none, h, s) => .ok (some ⟨none, h, s, [], [none]⟩)
      | (some new, h, s) => do
        let st ← startSearch size { h with chunks := [new] } s [some new.addr]
        .ok (search src size req fuel st)
    | _ :: _ => do
      let st ← startSearch size h s []
      .ok (search src size req fuel st)

/-! ### `free` -/

/-- The chunk with the tag `tag`, by its position, with that tag. -/
def findTag (chunks : List LTagMajor) (tag : Nat) : Option (Nat × LTagMajor × LTagMinor) :=
  chunks.zipIdx.findSome? fun (maj, i) => (maj.minors.find? (·.addr = tag)).map fun min =>
    (i, maj, min)

/-- The chunk without the tag at `tag`, whose block had `size` bytes. -/
def LTagMajor.remove (maj : LTagMajor) (tag size : Nat) : LTagMajor :=
  { maj with
    usage := uintSub maj.usage (size + sizeofMinor)
    minors := maj.minors.filter (·.addr ≠ tag) }

/-- The heap with a block of `size` bytes less. -/
def LAllocator.withoutBlock (h : LAllocator) (chunks : List LTagMajor) (tag size : Nat) :
    LAllocator :=
  { h with
    chunks
    usedSize := u64Sub h.usedSize (size + sizeofMinor)
    metaSize := u64Sub h.metaSize sizeofMinor
    magic := Function.update h.magic tag liballocDead }

/-- The heap without the chunk at `addr`, which had `size` bytes. -/
def LAllocator.withoutChunk (h : LAllocator) (chunks : List LTagMajor) (addr size : Nat) :
    LAllocator :=
  { h with
    chunks
    bestBet := if h.bestBet = some addr then none else h.bestBet
    cachSize := u64Sub h.cachSize size }

/-- `L_Allocator::free`.  The tag names its chunk, in which it is. -/
def free (h : LAllocator) (s : σ) (ptr : Nat) : Except Fault (LAllocator × σ) :=
  if ptr = 0 then .ok (h, s)
  else
    let tag := ptr - sizeofMinor
    if h.magic tag ≠ liballocMagic then .ok (h, s)
    else
      match findTag h.chunks tag with
      | none => .error (.undefined "no tag")
      | some (i, maj, min) =>
        let new := maj.remove tag min.size
        let h := h.withoutBlock (h.chunks.set i new) tag min.size
        if new.minors ≠ [] then
          match h.bestBet with
          | none => .ok (h, s)
          | some b =>
            match h.chunks.find? (·.addr = b) with
            | none => .error (.undefined "_best_bet")
            | some best =>
              if new.diff > best.diff then .ok ({ h with bestBet := some new.addr }, s)
                else .ok (h, s)
        else .ok (h.withoutChunk (h.chunks.eraseIdx i) new.addr new.size, src.freePages s new.addr)

end

end OsKernel.Mm.Liballoc

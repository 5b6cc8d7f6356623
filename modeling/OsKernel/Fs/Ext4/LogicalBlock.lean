import OsKernel.Klib.BinarySearch
import OsKernel.Lib.ByteMemory

/-! `Ext4IndexNode::read_logical_block`: from the number of a block of a file to the buffer of a
block of the disk, through a tree of extents or through indirect blocks. -/

namespace OsKernel.Fs.Ext4

open Lib

/-- What the file system does for an inode: a block of the disk can be read into a buffer of
the pool. -/
structure Volume where
  blockSize : Nat
  support64bit : Bool
  readBlock : Nat → Mem

/-- The inode, as far as its blocks and its size go. -/
structure Ext4Inode where
  extents : Bool
  blocks : Mem
  sizeLo : UInt32
  sizeHigh : UInt32

/-- The `pinned` flag of the buffer of each block of the disk. -/
abbrev Pins := Nat → Bool

def Pins.pin (p : Pins) (blk : Nat) : Pins := Function.update p blk true

def Pins.unpin (p : Pins) (blk : Nat) : Pins := Function.update p blk false

theorem Pins.unpin_eq {pins : Pins} {buf blk : Nat} (h : pins.unpin buf blk = true) :
    pins blk = true ∧ blk ≠ buf := by
  simp only [Pins.unpin, Function.update_apply] at h
  split at h
  · cases h
  · next hne => exact ⟨h, hne⟩

/-- `read_block`: the buffer is pinned if asked. -/
def Pins.read (p : Pins) (blk : Nat) (pin : Bool) : Pins := if pin then p.pin blk else p

/-! ### Extents -/

/-- An `Ext4ExtentHeader` and the nodes behind it, in the inode or in a block. -/
structure ExNode where
  mem : Mem
  size : Nat

namespace ExNode

variable (t : ExNode)

/-- `valid_nodes_count`. -/
def count : Nat := t.mem.read 2 2

def depth : Nat := t.mem.read 6 2

def logicalBlockStart (i : Nat) : Nat := t.mem.read (12 + 12 * i) 4

/-- `length` of a leaf node. -/
def length (i : Nat) : Nat := t.mem.read (12 + 12 * i + 4) 2

/-- `start_lo + ( start_hi << 32 )` of a leaf node. -/
def physical (i : Nat) : Nat :=
  t.mem.read (12 + 12 * i + 8) 4 + t.mem.read (12 + 12 * i + 6) 2 * 2 ^ 32

/-- `next_node_address` of an internal node. -/
def nextNode (i : Nat) : Nat := t.mem.read (12 + 12 * i + 4) 6

/-- The first `n` bytes of the node `i` are read. -/
def inside (i n : Nat) : Except Fault Unit :=
  if 12 + 12 * i + n ≤ t.size then .ok () else .error (.undefined "read past the block")

/-- `comp_leaf`. -/
def compLeaf (block : Nat) (mid : Int) : Except Fault Int := do
  t.inside mid.toNat 6
  let l := t.logicalBlockStart mid.toNat
  let r := l + t.length mid.toNat
  .ok (if l ≤ block ∧ block < r then 0 else if block < l then -1 else 1)

/-- `comp_intr`, where `ed` is the last index. -/
def compIntr (ed : Int) (block : Nat) (mid : Int) : Except Fault Int := do
  t.inside mid.toNat 4
  if block < t.logicalBlockStart mid.toNat then .ok (-1)
  else if mid = ed then .ok 0
  else do
    t.inside (mid.toNat + 1) 4
    .ok (if t.logicalBlockStart (mid.toNat + 1) ≤ block then 1 else 0)

end ExNode

/-- The block of the buffer that is returned, and the flags. -/
abbrev ReadResult := Except Fault (Option Nat × Pins)

variable (v : Volume)

/-- `if ( internal_block ) internal_block->unpin()`. -/
def unpinInternal (internal : Option Nat) (pins : Pins) : Pins :=
  match internal with
  | none => pins
  | some blk => pins.unpin blk

/-- The loop over the levels of the tree, with `fuel` turns left. -/
def extentLoop (block : Nat) (pin : Bool) : Nat → ExNode → Option Nat → Pins → ReadResult
  | 0, _, _, _ => .error (.undefined "no end of the tree")
  | fuel + 1, t, internal, pins => do
    let ed : Int := t.count - 1
    if t.depth = 0 then
      match ← Klib.binarySearchM (t.compLeaf block) 0 ed with
      | none => .ok (none, unpinInternal internal pins)
      | some i => do
        t.inside i.toNat 12
        let phyBlock := t.physical i.toNat + (block - t.logicalBlockStart i.toNat)
        .ok (some phyBlock, (unpinInternal internal pins).read phyBlock pin)
    else
      match ← Klib.binarySearchM (t.compIntr ed block) 0 ed with
      | none => .ok (none, unpinInternal internal pins)
      | some i => do
        t.inside i.toNat 10
        let nextBlock := t.nextNode i.toNat
        let pins := (unpinInternal internal pins).read nextBlock true
        extentLoop block pin fuel ⟨v.readBlock nextBlock, v.blockSize⟩ (some nextBlock) pins

/-! ### Indirect blocks -/

/-- The entry `idx` of an index block. -/
def pointerAt (m : Mem) (idx : Int) : Except Fault Nat :=
  if 0 ≤ idx ∧ 4 * idx + 4 ≤ v.blockSize then .ok (m.read (4 * idx.toNat) 4)
  else .error (.undefined "index out of the block")

def calSindIndex (target start : Int) : Int := (target - start).tdiv v.blockSize

def calDindIndex (target start : Int) : Int := (target - start).tdiv (v.blockSize * v.blockSize)

def calTindIndex (target start : Int) : Int :=
  (target - start).tdiv (v.blockSize * (v.blockSize * v.blockSize))

/-- `_search_direct_block`. -/
def searchDirectBlock (target start : Int) (m : Mem) (pin : Bool) (pins : Pins) : ReadResult := do
  let p ← pointerAt v m (target - start)
  .ok (some p, pins.read p pin)

/-- The block of the entry `idx` is pinned, searched with its number as start, and unpinned. -/
def searchThrough (idx : Int) (search : Int → Mem → Pins → ReadResult) (m : Mem)
    (pins : Pins) : ReadResult := do
  let p ← pointerAt v m idx
  let r ← search p (v.readBlock p) (pins.pin p)
  .ok (r.1, r.2.unpin p)

/-- `_search_sindirect_block`. -/
def searchSindirectBlock (target start : Int) (m : Mem) (pin : Bool) (pins : Pins) : ReadResult :=
  searchThrough v (calSindIndex v target start)
    (fun start m pins => searchDirectBlock v target start m pin pins) m pins

/-- `_search_dindirect_block`. -/
def searchDindirectBlock (target start : Int) (m : Mem) (pin : Bool) (pins : Pins) : ReadResult :=
  searchThrough v (calDindIndex v target start)
    (fun start m pins => searchSindirectBlock v target start m pin pins) m pins

/-- `_search_tindirect_block`. -/
def searchTindirectBlock (target start : Int) (m : Mem) (pin : Bool) (pins : Pins) : ReadResult :=
  searchThrough v (calTindIndex v target start)
    (fun start m pins => searchDindirectBlock v target start m pin pins) m pins

namespace Volume

def idxPerBlock : Nat := v.blockSize / 4

def sIndirectBlockStart : Nat := 12

def dIndirectBlockStart : Nat := sIndirectBlockStart + v.idxPerBlock

def tIndirectBlockStart : Nat := v.dIndirectBlockStart + v.idxPerBlock * v.idxPerBlock

end Volume

namespace Ext4Inode

variable (inode : Ext4Inode)

/-- `blocks_ptr`. -/
def blocksPtr (i : Nat) : Nat := inode.blocks.read (4 * i) 4

def root : ExNode := ⟨inode.blocks, 60⟩

/-- A search of the block of a pointer of the inode, which is pinned meanwhile. -/
def searchPointer (i : Nat) (search : Int → Mem → Pins → ReadResult) (pins : Pins) :
    ReadResult := do
  let p := inode.blocksPtr i
  let r ← search p (v.readBlock p) (pins.pin p)
  .ok (r.1, r.2.unpin p)

/-- The branch of `read_logical_block` for an inode without extents. -/
def readIndirect (block : Nat) (pin : Bool) (pins : Pins) : ReadResult :=
  if block < 12 then .ok (some (inode.blocksPtr block), pins.read (inode.blocksPtr block) pin)
  else if v.tIndirectBlockStart < block then
    inode.searchPointer v 14 (fun start m pins => searchTindirectBlock v block start m pin pins)
      pins
  else if v.dIndirectBlockStart < block then
    inode.searchPointer v 13 (fun start m pins => searchDindirectBlock v block start m pin pins)
      pins
  else if v.dIndirectBlockStart < block then
    inode.searchPointer v 12 (fun start m pins => searchSindirectBlock v block start m pin pins)
      pins
  else .ok (none, pins)

/-- `read_logical_block`, with at most `fuel` levels of extents. -/
def readLogicalBlock (fuel block : Nat) (pin : Bool) (pins : Pins) : ReadResult :=
  if inode.extents then extentLoop v block pin fuel inode.root none pins
  else inode.readIndirect v block pin pins

end Ext4Inode

end OsKernel.Fs.Ext4

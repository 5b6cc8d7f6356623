import OsKernel.Fs.File
import OsKernel.Klib.BinarySearch
import OsKernel.Lib.ByteMemory

/-! Directories of ext4 with a hash tree: the layout of index nodes and of leaf blocks in bytes, and
`Ext4IndexNode::lookup`. -/

namespace OsKernel.Fs.Ext4

open Lib

abbrev Name := List UInt8

/-- An `Ext4IndexNode` of a directory, with what its file system does for it: the logical blocks,
the inodes by their number, and the major hash of a name for a hash version. -/
structure Ext4IndexNode (ι : Type) where
  mode : Nat
  index : Bool
  hasBlocks : Nat
  blockSize : Nat
  readLogicalBlock : Nat → Option Mem
  readInode : Nat → Option ι
  inodeMode : ι → Nat
  htreeHash : Nat → Name → Option Nat

/-- What `lookup` returns: the directory itself, or the node of an inode with its attributes. -/
inductive SubNode (ι : Type) where
  | self
  | sub (inode : ι) (value : Nat) (filetype : FileTypes)

/-! ### Entries of a block -/

/-- `Ext4DirEntry2`. -/
structure DirEntry where
  inode : Nat
  recLen : Nat
  fileType : Nat
  name : Name

/-- The entry at an offset of a block. -/
def direntAt (block : Mem) (off : Nat) : DirEntry where
  inode := block.read off 4
  recLen := block.read (off + 4) 2
  fileType := block.read (off + 7) 1
  name := (List.range (block.read (off + 6) 1)).map fun j => block (off + 8 + j)

/-- `strncmp` of two strings from their characters `i` on. -/
def strncmp (s₁ s₂ : Nat → UInt8) : Nat → Nat → Int
  | 0, _ => 0
  | n + 1, i =>
    if s₁ i = s₂ i then
      if s₁ i = 0 then 0 else strncmp s₁ s₂ n (i + 1)
    else if s₁ i < s₂ i then -1 else 1

/-- The file type for the mode of an inode. -/
def modeType (mode : Nat) : FileTypes :=
  match mode &&& 0xF000 with
  | 0x4000 => .direct
  | 0x2000 => .device
  | 0x6000 => .device
  | 0x1000 => .pipe
  | 0x8000 => .normal
  | _ => .none

namespace Ext4IndexNode

variable {ι : Type} (d : Ext4IndexNode ι)

/-- The node for an inode number. -/
def subNode (ino : Nat) : Option (SubNode ι) :=
  (d.readInode ino).map fun inode => .sub inode (d.inodeMode inode &&& 0x1FF)
    (modeType (d.inodeMode inode))

/-- The loop of `_linear_lookup`, which does not know where the block ends. -/
def linearLoop (dirName : Name) (block : Mem) : Nat → Nat → Except Fault (Option (SubNode ι))
  | 0, _ => .error (.undefined "no end of the entries")
  | fuel + 1, idx =>
    if d.blockSize < idx + 8 then .error (.undefined "read past the block")
    else if block.read idx 4 = 0 then .ok none
    else if dirName.length = block.read (idx + 6) 1 ∧
        strncmp (dirName.getD · 0) (fun j => block (idx + 8 + j)) (block.read (idx + 6) 1) 0 =
          0 then
      .ok (d.subNode (block.read idx 4))
    else linearLoop dirName block fuel (idx + block.read (idx + 4) 2)

/-- `_linear_lookup`. -/
def linearLookup (dirName : Name) (block : Mem) : Except Fault (Option (SubNode ι)) :=
  d.linearLoop dirName block (d.blockSize + 1) 0

end Ext4IndexNode

/-! ### Index nodes -/

/-- The `count`, the `block` of the first slot and the `entries` of an `Ext4DxRoot` or an
`Ext4DxNode`, whose entries start at `base`. -/
structure DxTable where
  mem : Mem
  base : Nat

namespace DxTable

variable (t : DxTable)

def count : Nat := t.mem.read (t.base - 6) 2

def block : Nat := t.mem.read (t.base - 4) 4

def hash (i : Nat) : Nat := t.mem.read (t.base + 8 * i) 4

def entryBlock (i : Nat) : Nat := t.mem.read (t.base + 8 * i + 4) 4

/-- `comp` of `_htree_lookup`, where `ed` is the last index. -/
def comp (ed : Int) (hash : Nat) (mid : Int) : Int :=
  if hash < t.hash mid.toNat then -1
  else if mid = ed then 0
  else if hash < t.hash (mid + 1).toNat then 0
  else 1

end DxTable

def dxRoot (m : Mem) : DxTable := ⟨m, 40⟩

def dxNode (m : Mem) : DxTable := ⟨m, 16⟩

/-- `info.hash_version` of the root. -/
def hashVersion (m : Mem) : Nat := m.read 28 1

/-- `info.indirect_levels` of the root. -/
def indirectLevels (m : Mem) : Nat := m.read 30 1

abbrev nameDot : Name := [0x2e]

abbrev nameDotdot : Name := [0x2e, 0x2e]

namespace Ext4IndexNode

variable {ι : Type} (d : Ext4IndexNode ι)

/-- The loop of `_htree_lookup` over the levels, down to the block of a leaf. -/
def htreeLoop (hash : Nat) : Nat → DxTable → Except Fault (Option Mem)
  | 0, t => .ok (some t.mem)
  | lvl + 1, t =>
    let ed : Int := t.count - 2
    match Klib.binarySearch (t.comp ed hash) 0 ed with
    | none => .ok none
    | some i =>
      match d.readLogicalBlock (t.entryBlock i.toNat) with
      | none => .error (.undefined "null buffer")
      | some m => htreeLoop hash lvl (dxNode m)

/-- `_htree_lookup`. -/
def htreeLookup (dirName : Name) : Except Fault (Option (SubNode ι)) := do
  if dirName = nameDotdot then return none
  match d.readLogicalBlock 0 with
  | none => .error (.undefined "null buffer")
  | some root =>
    match d.htreeHash (hashVersion root) dirName with
    | none => return none
    | some hash =>
      match ← d.htreeLoop hash (indirectLevels root + 1) (dxRoot root) with
      | none => return none
      | some leaf => d.linearLookup dirName leaf

/-- The loop of `lookup` over the blocks of a directory without an index. -/
def blocksLoop (dirName : Name) : Nat → Nat → Except Fault (Option (SubNode ι))
  | 0, _ => .ok none
  | n + 1, i =>
    match d.readLogicalBlock i with
    | none => .ok none
    | some m => do
      match ← d.linearLookup dirName m with
      | some r => return some r
      | none => blocksLoop dirName n (i + 1)

/-- `lookup`. -/
def lookup (dirName : Name) : Except Fault (Option (SubNode ι)) :=
  if d.mode &&& 0x4000 = 0 then .error (.panic "try to lookup an inode that's not dir")
  else if dirName = nameDot then .ok (some .self)
  else if d.index then d.htreeLookup dirName
  else d.blocksLoop dirName d.hasBlocks 0

end Ext4IndexNode

end OsKernel.Fs.Ext4

import OsKernel.Fs.Ramfs
import OsKernel.Lib.ByteMemory

/-! The inodes that a `normal_file` may be opened on. -/

namespace OsKernel.Fs

open Hsai Lib

/-- An inode whose `nodeWrite` stores nothing: the contents, what `nodeRead` gives (`none` where it
returns -1), `rFileSize`, and whether `nodeWrite` returns the length or 0. -/
structure FixedNode where
  data : List UInt8
  reads : Nat → Nat → Except Fault (Option (List UInt8))
  size : Nat
  returnsLen : Bool

namespace FixedNode

/-- `Ext4IndexNode`, whose `nodeRead` gives what `blocks` says for the part of a read that is in the
file: fewer bytes where a block cannot be read. -/
def ext4 (data : List UInt8) (blocks : Nat → Nat → List UInt8) (size : Nat) : FixedNode where
  data := data
  reads off len :=
    if data.length ≤ off then .ok (some [])
    else .ok (some (blocks off
      (if (off + len) % wordSize ≤ data.length then len else data.length - off)))
  size := size
  returnsLen := true

/-- `Fat32Inode`: `nodeRead` returns the length, and `buf off len i` is what `read_content` leaves
in byte `i` of the buffer. -/
def fat32 (data : List UInt8) (buf : Nat → Nat → Nat → UInt8) (size : Nat) : FixedNode where
  data := data
  reads off len := .ok (some ((List.range len).map (buf off len)))
  size := size
  returnsLen := false

/-- `RamInode`, and the classes that keep its `nodeWrite` and `rFileSize`: `Exe`, `Mount`,
`Interrupts` and `MemInfo`.  The bytes are those that `nodeRead` leaves in the buffer `mem`. -/
def ramInode (data : List UInt8)
    (nodeRead : Mem → Nat → Nat → Nat → Except Fault (Nat × Mem))
    (mem : Mem) : FixedNode where
  data := data
  reads off len := do
    let r ← nodeRead mem 0 off len
    .ok (some (Mem.load r.2 0 r.1))
  size := 0
  returnsLen := false

/-- `Null`, which `open` takes for a regular file. -/
def null : FixedNode := ⟨[], fun _ _ => .ok none, 0, true⟩

end FixedNode

/-- The inodes: `Normal` of the RAM file system; one that stores nothing; and a `SymbleLink`, which
reads the inode that its path leads to, if there is one. -/
inductive FileNode where
  | ramfs (data : List UInt8)
  | fixed (node : FixedNode)
  | link (target : Option Nat)

namespace FileNode

def data : FileNode → List UInt8
  | .ramfs data => data
  | .fixed node => node.data
  | .link _ => []

def rFileSize : FileNode → Nat
  | .ramfs data => data.length
  | .fixed node => node.size
  | .link _ => 0

/-- `nodeRead`.  There is one link, and it does not lead to itself. -/
def read (off len : Nat) : FileNode → Except Fault (Option (List UInt8))
  | .ramfs data => (nodeRead data off len).map some
  | .fixed node => node.reads off len
  | .link _ => .error (.undefined "null node")

/-- The inode after the bytes `src` are stored. -/
def put (off : Nat) (src : List UInt8) : FileNode → FileNode
  | .ramfs data => .ramfs (nodeWrite data off src)
  | .fixed node => .fixed node
  | .link target => .link target

/-- `nodeWrite` of `len` bytes of a buffer that has the bytes `src`. -/
def write (node : FileNode) (off : Nat) (src : List UInt8) (len : Int) :
    Except Fault (Int × FileNode) :=
  match node with
  | .ramfs _ =>
    if len < 0 then .error (.undefined "buffer overrun")
    else .ok ((src.take len.toNat).length, node.put off (src.take len.toNat))
  | .fixed f => .ok (if f.returnsLen = true then len else 0, node.put off (src.take len.toNat))
  | .link _ => .ok (0, node.put off (src.take len.toNat))

/-- `nodeTruncate`; `Inode` has one that returns -1 and does nothing else. -/
def truncate (len : Nat) : FileNode → Nat × FileNode
  | .ramfs data => ((nodeTruncate data len).length, .ramfs (nodeTruncate data len))
  | node => (2 ^ 64 - 1, node)

/-- `nodeWrite` returns the length that it is given. -/
def counts : FileNode → Bool
  | .ramfs _ => true
  | .fixed node => node.returnsLen
  | .link _ => false

theorem write_natCast (node : FileNode) (off : Nat) (src : List UInt8) :
    node.write off src src.length =
      .ok (if node.counts = true then src.length else 0, node.put off src) := by
  have hpos : ¬(src.length : Int) < 0 := by omega
  cases node with
  | ramfs data =>
    simp only [write, if_neg hpos, Int.toNat_natCast, List.take_length, counts, if_true]
  | fixed node =>
    simp only [write, Int.toNat_natCast, List.take_length]
    rfl
  | link target =>
    simp only [write, Int.toNat_natCast, List.take_length, counts, Bool.false_eq_true, if_false]

end FileNode

end OsKernel.Fs

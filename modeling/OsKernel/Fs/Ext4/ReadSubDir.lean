import OsKernel.Fs.Ext4.Htree
import OsKernel.Fs.Ext4.NodeRead
import OsKernel.Mm.Userspace.Model

/-! `Ext4IndexNode::readLinerSubDir`: the entries of a directory without an index go to a buffer of
a user, as many as it has room for, and the next call goes on behind them. -/

namespace OsKernel.Fs.Ext4

open Lib Hsai Mm

/-- `linux_dirent64`, without the name behind it. -/
structure LinuxDirent64 where
  dIno : Nat
  dOff : Nat
  dReclen : Nat
  dType : Nat

/-- An integer of `n` bytes. -/
def leBytes (n v : Nat) : List UInt8 := (List.range n).map fun i => UInt8.ofNat (v / 256 ^ i)

namespace LinuxDirent64

def bytes (lxdir : LinuxDirent64) : List UInt8 :=
  leBytes 8 lxdir.dIno ++ leBytes 8 lxdir.dOff ++ leBytes 2 lxdir.dReclen ++ leBytes 1 lxdir.dType

/-- `sizeof`. -/
def size : Nat := 19

@[simp] theorem bytes_length (lxdir : LinuxDirent64) : lxdir.bytes.length = size := by
  simp [bytes, leBytes, size]

end LinuxDirent64

namespace DirEntry

/-- `dentsz`. -/
def dentsz (pDir : DirEntry) : Nat := pDir.name.length + 1 + LinuxDirent64.size

def lxdir (pDir : DirEntry) : LinuxDirent64 where
  dIno := pDir.inode
  dOff := 0
  dReclen := pDir.dentsz
  dType := pDir.fileType

end DirEntry

/-- The block in the buffer that is pinned, and the place of `blk_ptr` in it. -/
structure BlockPtr where
  buf : Nat
  ptr : Nat

/-- The variables of `readLinerSubDir`, with the memory that it writes to and the flags of
the buffers. -/
structure LinerState (σ : Type) where
  off : Nat
  blkNo : Nat
  blk : Option BlockPtr
  bufrest : Nat
  dst : UserspaceStream
  kernel : Kernel σ
  pins : Pins

/-- How a turn of the loop ends. -/
inductive LinerTurn (σ : Type) where
  | again (st : LinerState σ)
  | leave (st : LinerState σ)
  | fail (st : LinerState σ)

/-- What a call gets: the stream to the user's buffer, the kernel with its memory, and the flags of
the buffers. -/
structure ListCall (σ : Type) where
  kernel : Kernel σ
  dst : UserspaceStream
  pins : Pins

namespace Ext4Inode

variable {σ : Type} (arch : Arch) (V : VirtualPageAllocator σ) (inode : Ext4Inode) (v : Volume)

/-- The turn with the entry at `blk_ptr`. -/
def entryTurn (st : LinerState σ) (blk : BlockPtr) : Except Fault (LinerTurn σ) :=
  if v.blockSize < blk.ptr + 8 then .error (.undefined "read past the block")
  else
    let pDir := direntAt (v.readBlock blk.buf) blk.ptr
    if pDir.inode = 0 then
      let off := wordAdd st.off pDir.recLen
      if pDir.fileType = 0xde then
        -- the checksum at the end of the block
        .ok (.again { st with
          off, blkNo := off / v.blockSize, blk := none, pins := st.pins.unpin blk.buf })
      else .ok (.again { st with off, blk := some { blk with ptr := blk.ptr + pDir.recLen } })
    else if st.bufrest < pDir.dentsz then .ok (.leave { st with blk := some blk })
    else if v.blockSize < blk.ptr + 8 + pDir.name.length then .error
      (.undefined "read past the block")
    else do
      let r₁ ← st.dst.write arch V st.kernel pDir.lxdir.bytes
      let r₂ ← r₁.1.write arch V r₁.2 pDir.name
      let r ← r₂.1.write arch V r₂.2 [0]
      .ok (.again { st with
        off := wordAdd st.off pDir.recLen
        blk := some { blk with ptr := blk.ptr + pDir.recLen }
        bufrest := r.1.restSpace
        dst := r.1
        kernel := r.2 })

/-- A turn of the loop, which reads the block if there is none. -/
def linerTurn (fuel : Nat) (st : LinerState σ) : Except Fault (LinerTurn σ) :=
  match st.blk with
  | some blk => entryTurn arch V v st blk
  | none =>
    if inode.calSize v ≤ st.off then .ok (.leave st)
    else do
      let r ← inode.readLogicalBlock v fuel st.blkNo true st.pins
      match r.1 with
      | none => .ok (.fail { st with pins := r.2 })
      | some buf => entryTurn arch V v { st with pins := r.2 } ⟨buf, st.off % v.blockSize⟩

/-- What is returned, the stream, the memory, and the flags. -/
abbrev ListResult (σ : Type) := Nat × UserspaceStream × Kernel σ × Pins

/-- The end of `readLinerSubDir`. -/
def linerEnd (offBk : Nat) (st : LinerState σ) : ListResult σ :=
  (wordSub st.off offBk, st.dst, st.kernel, unpinInternal (st.blk.map (·.buf)) st.pins)

/-- The loop of `readLinerSubDir`. -/
def linerLoop (fuel offBk : Nat) : Nat → LinerState σ → Except Fault (ListResult σ)
  | 0, _ => .error (.undefined "readLinerSubDir does not end")
  | turns + 1, st =>
    if st.bufrest = 0 then .ok (linerEnd offBk st)
    else do
      match ← inode.linerTurn arch V v fuel st with
      | .again st => linerLoop fuel offBk turns st
      | .leave st => .ok (linerEnd offBk st)
      | .fail st => .ok (0, st.dst, st.kernel, st.pins)

/-- `readLinerSubDir`, with at most `fuel` levels of extents and `turns` turns of the loop. -/
def readLinerSubDir (fuel turns : Nat) (k : Kernel σ) (dst : UserspaceStream) (off : Nat)
    (pins : Pins) : Except Fault (ListResult σ) :=
  inode.linerLoop arch V v fuel off turns {
    off
    blkNo := off / v.blockSize
    blk := none
    bufrest := dst.restSpace
    dst
    kernel := k
    pins }

/-- `_file_ptr` after so many calls of `normal_file::read_sub_dir`. -/
def filePtr (fuel turns : Nat) (calls : Nat → ListCall σ) : Nat → Except Fault Nat
  | 0 => .ok 0
  | j + 1 => do
    let off ← filePtr fuel turns calls j
    let r ← inode.readLinerSubDir arch V v fuel turns (calls j).kernel (calls j).dst off
      (calls j).pins
    return wordAdd off r.1

end Ext4Inode

end OsKernel.Fs.Ext4

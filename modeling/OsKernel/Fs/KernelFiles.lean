import OsKernel.Hsai.Page
import OsKernel.Klib.Fault
import OsKernel.Lib.ByteMemory

/-! The files whose contents the kernel makes up when they are read: `busybox.conf`, `/proc/mounts`,
`/proc/meminfo` and `/proc/interrupts`. -/

namespace OsKernel.Fs

open Hsai Lib

/-- The characters of a text. -/
def chars (s : String) : List UInt8 := s.toList.map fun c => UInt8.ofNat c.toNat

/-- `memcpy( dst, src + off, n )`, where `src` is all that may be read. -/
def memcpyFrom (mem : Mem) (dst : Nat) (src : List UInt8) (off : Int) (n : Nat) :
    Except Fault Mem :=
  if n = 0 then .ok mem
  else if 0 ≤ off ∧ off + n ≤
    src.length then .ok (mem.store dst ((src.drop off.toNat).take n))
  else .error (.undefined "memcpy: read out of bounds")

/-- A read of `C` gives `C[ off, off + min( len, max( 0, |C| - off ) ) )`, whatever the memory and
the destination are. -/
def ReadsText (nodeRead : Mem → Nat → Nat → Nat → Except Fault (Nat × Mem))
    (C : List UInt8) (off len : Nat) : Prop :=
  ∀ mem dst, nodeRead mem dst off len =
    .ok (((C.drop off).take len).length, mem.store dst ((C.drop off).take len))

/-! ### `busybox.conf` -/

/-- `busybox_conf`, without the zero at its end. -/
def busyboxConf : List UInt8 :=
  chars ("# /etc/busybox.conf: SliTaz GNU/linux Busybox configuration.\n" ++
    "[SUID]\n" ++
    "# Allow command to be run by anyone.\n" ++
    "su = ssx root.root\n" ++
    "loadkmap = ssx root.root\n" ++
    "mount = ssx root.root\n" ++
    "reboot = ssx root.root\n" ++
    "halt = ssx root.root\n" ++
    "poweroff = ssx root.root\n")

/-- `RamInode::nodeRead` of a node whose `readable` is as given, for the array that holds `conf`. -/
def RamInode.nodeRead (readable : Bool) (conf : List UInt8) (mem : Mem) (dst off len : Nat) :
    Except Fault (Nat × Mem) :=
  let size := conf.length + 1
  if readable then do
    let readLen := if size < (off + len) % wordSize then wordSub size off else len
    let mem ← memcpyFrom mem dst (conf ++ [0]) off readLen
    return (readLen, mem)
  else .ok (0, mem)

/-! ### `/proc/mounts` and `/proc/meminfo` -/

/-- An entry of `mnt_table`: the name of the root of the file system, the mount point that is the
key, and the type. -/
structure MountEntry where
  rName : List UInt8
  mntPoint : List UInt8
  rFStype : List UInt8

/-- The row of a mounted file system. -/
def MountEntry.row (it : MountEntry) : List UInt8 :=
  it.rName ++ chars " \t" ++ it.mntPoint ++ chars " \t" ++ it.rFStype ++ chars " \t" ++ chars "rw\n"

/-- The loop over the rows.  A string has a zero behind its characters. -/
def rowsLoop (len : Nat) : List (List UInt8) → Mem → Nat → Int → Nat →
    Except Fault (Nat × Mem)
  | [], mem, _, _, readbts => .ok (readbts, mem)
  | row :: rows, mem, dst, off, readbts =>
    let readlen := row.length
    let bytes := if readlen + readbts < len then readlen else len - readbts
    if off < readlen then do
      let mem ← memcpyFrom mem dst (row ++ [0]) off bytes
      rowsLoop len rows mem (dst + bytes) off (readbts + bytes)
    else rowsLoop len rows mem dst (if off < bytes then 0 else off - bytes) readbts

/-- `Mount::nodeRead` and `MemInfo::nodeRead` for the rows that the loop makes; `off` becomes
an `int`. -/
def nodeReadRows (rows : List (List UInt8)) (mem : Mem) (dst off len : Nat) :
    Except Fault (Nat × Mem) :=
  rowsLoop len rows mem dst (Int.bmod off (2 ^ 32)) 0

/-- `Mount::nodeRead`, with the entries of `mnt_table` in the order of its iterator. -/
def Mount.nodeRead (table : List MountEntry) : Mem → Nat → Nat → Nat →
    Except Fault (Nat × Mem) :=
  nodeReadRows (table.map MountEntry.row)

/-- `MemInfo::nodeRead`. -/
def MemInfo.nodeRead (table : List MountEntry) : Mem → Nat → Nat → Nat →
    Except Fault (Nat × Mem) :=
  nodeReadRows (table.map MountEntry.row)

/-! ### `/proc/interrupts` -/

/-- The loop of `printint` that writes the digits of `x` before `s`, in a buffer that has room for
`left` more. -/
def printintLoop (base : Nat) : Nat → Nat → List UInt8 → List UInt8
  | 0, _, s => s
  | left + 1, x, s =>
    let s := (chars "0123456789abcdef").getD (x % base) 0 :: s
    if x / base = 0 then s else printintLoop base left (x / base) s

/-- `printint( xx, 10, 0, des )`: the characters that are stored. -/
def printint (xx : BitVec 32) : List UInt8 := printintLoop 10 16 xx.toNat []

/-- The loop of `Interrupts::nodeRead`, whose `cnt` stays as it is. -/
def interruptsLoop (dst len : Nat) (cnt : BitVec 32) : List (BitVec 32) → Mem → Nat →
    Nat × Mem
  | [], mem, readbts => (readbts, mem)
  | it :: nums, mem, readbts =>
    if len ≤ readbts + 10 then (readbts, mem)
    else if it ≠ 0 then
      let mem := mem.store (dst + readbts) (printint it)
      let readbts := (printint it).length
      let mem := mem.store (dst + readbts) (chars ":")
      let readbts := readbts + 1
      let mem := mem.store (dst + readbts) (printint cnt)
      let readbts := readbts + (printint cnt).length
      let mem := mem.store (dst + readbts) (chars "\n")
      interruptsLoop dst len cnt nums mem (readbts + 1)
    else interruptsLoop dst len cnt nums mem readbts

/-- `Interrupts::nodeRead`, which does not look at the offset. -/
def Interrupts.nodeRead (intrNums : List (BitVec 32)) (mem : Mem) (dst _off len : Nat) :
    Except Fault (Nat × Mem) :=
  .ok (interruptsLoop dst len 0 intrNums mem 0)

/-- The line of a counter. -/
def intrLine (it : BitVec 32) : List UInt8 := printint it ++ chars ":" ++ printint 0 ++ chars "\n"

/-- The lines of the counters that are not zero. -/
def intrText (intrNums : List (BitVec 32)) : List UInt8 :=
  (intrNums.filter (· ≠ 0)).flatMap intrLine

/-! ### When the reads are right -/

/-- The read stays in the text, or is empty and just behind its final zero. -/
def BusyboxOk (size off len : Nat) : Prop :=
  off + len ≤ size ∨ off = size + 1 ∧ off + len < wordSize

/-- The row of the offset is found, for rows of lengths `ls`: those before it are no longer than the
read, which starts at the beginning of the row or ends in it. -/
def RowHit (len : Nat) : List Nat → Nat → Prop
  | [], _ => False
  | l :: ls, off =>
    if off < l then off = 0 ∨ off + len ≤ l else l ≤ len ∧ RowHit len ls (off - l)

/-- All rows are skipped. -/
def RowsSkipped (len : Nat) : List Nat → Int → Prop
  | [], _ => True
  | l :: ls, off => l ≤ off ∧ RowsSkipped len ls (off - min l len)

/-- A read of rows of lengths `ls` is right. -/
def RowsOk (ls : List Nat) (off len : Nat) : Prop :=
  len = 0 ∨ ls = [] ∨ 0 ≤ Int.bmod off (2 ^ 32) ∧
    if off < ls.sum then RowHit len ls off else RowsSkipped len ls (Int.bmod off (2 ^ 32))

/-- A read of the lines of counters is right, where `ks` are the numbers of digits of those that are
not zero. -/
def InterruptsOk (ks : List Nat) (off len : Nat) : Prop :=
  ks = [] ∨ len = 0 ∨ len ≤ 10 ∧ (ks.map (· + 3)).sum ≤ off ∨
    off = 0 ∧ 11 ≤ len ∧ ((∃ k, ks = [k] ∧ k + 3 ≤ len) ∨ ∃ k l ks',
      ks = k :: l :: ks' ∧ len = k + 3)

end OsKernel.Fs

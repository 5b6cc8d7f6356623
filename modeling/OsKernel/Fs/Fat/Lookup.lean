import OsKernel.Fs.Fat.ReadSpec

/-! `Fat32Inode::lookup`.  It walks over the entries in the buffer of the first sector of each
cluster up to a zero byte; the places of the entries that it reads are kept. -/

namespace OsKernel.Fs.Fat

open Lib Hsai

/-- `fat32_longfilename`. -/
def fat32LongFilename : UInt8 := 0x0F

/-- `Fat32DirShortChkSum` of the 11 bytes at `a`. -/
def dirShortChkSum (disk : Mem) (a : Nat) : UInt8 :=
  (List.range 11).foldl (fun (sum : UInt8) i => (if sum &&& 1 ≠ 0 then (0x80 : UInt8) else 0) +
    (sum >>> 1) + disk (a + i)) 0

/-- The `n` characters of a long entry from `a` on, up to the first that is 0 or 0xFFFF. -/
def longChars (disk : Mem) (a : Nat) : Nat → List UInt8
  | 0 => []
  | n + 1 =>
    let uc := disk.read a 2
    if uc = 0 ∨ uc = 0xFFFF then [] else UInt8.ofNat uc :: longChars disk (a + 2) n

/-- The characters that a long entry adds to the name: `file_name_1`, `file_name_2`
and `file_name_3`. -/
def longPart (disk : Mem) (a : Nat) : List UInt8 :=
  longChars disk (a + 1) 5 ++ longChars disk (a + 14) 6 ++ longChars disk (a + 28) 2

/-- The name in long entries, in the order of the places; none if a checksum is wrong. -/
def longName (disk : Mem) (chksum : UInt8) : List Nat → Option (List UInt8)
  | [] => some []
  | a :: as =>
    if disk (a + 13) ≠ chksum then none else (longName disk chksum as).map (longPart disk a ++ ·)

/-- The name of an entry without long entries: both conditions in the source, `||` of two
inequalities, are always true. -/
def shortName (disk : Mem) (a : Nat) : List UInt8 := disk.load a 8 ++ 46 :: disk.load (a + 8) 3

/-- What `_read_sub_dir` gives: a negative number, or the name, the place of the
`Fat32DirectryShort` and the index of the entry behind it. -/
inductive SubDir where
  | fail (code : Int)
  | entry (name : List UInt8) (info next : Nat)

/-- What the walk over the entries of one cluster gives. -/
inductive Walked where
  | done
  | fail
  | found (info : Nat)

/-- The place of the entry with the index `i` from the data pointer of a buffer on. -/
def Buffer.entryAt (buf : Buffer) (i : Nat) : Except Fault Nat :=
  if buf.base + 32 * i + 32 ≤
    defaultBufferSize then .ok (defaultBufferSize * buf.number + buf.base + 32 * i)
  else .error (.undefined "access outside the buffer")

/-- The entries that fit in a buffer. -/
def entriesPerBuffer : Nat := defaultBufferSize / 32

namespace Fat32Inode

/-- The loop over long entries: their places, and the index and the place of the first entry that is
not one. -/
def skipLong (disk : Mem) (buf : Buffer) : Nat → Nat → List Nat →
    Except Fault (List Nat × Nat × Nat)
  | 0, _, _ => .error (.undefined "access outside the buffer")
  | turns + 1, i, longs => do
    let a ← buf.entryAt i
    if disk (a + 11) = fat32LongFilename then skipLong disk buf turns (i + 1) (longs ++ [a])
    else .ok (longs, i, a)

/-- The name in front of the short entry at `info`, behind the long entries at `longs`. -/
def subDirOf (disk : Mem) (longs : List Nat) (info next : Nat) : SubDir :=
  match longs with
  | [] => .entry (shortName disk info) info next
  | first :: _ =>
    -- the bit `is_last`
    if disk first &&& 0x40 = 0 then .fail (-2)
    else
      match longName disk (dirShortChkSum disk info) longs.reverse with
      | none => .fail (-1)
      | some name => .entry name info next

/-- `_read_sub_dir` of the entry with the index `i`, with the places of the entries read. -/
def readSubDir (disk : Mem) (buf : Buffer) (i : Nat) : Except Fault (SubDir × List Nat) := do
  let r ← skipLong disk buf (entriesPerBuffer + 1) i []
  .ok (subDirOf disk r.1 r.2.2 (r.2.1 + 1), r.1 ++ [r.2.2])

/-- The loop of `lookup` over the entries of a cluster from the index `i` on. -/
def walkEntries (disk : Mem) (buf : Buffer) (dirname : List UInt8) :
    Nat → Nat → List Nat → Except Fault (Walked × List Nat)
  | 0, _, _ => .error (.undefined "access outside the buffer")
  | turns + 1, i, reads => do
    let a ← buf.entryAt i
    if disk a = 0 then .ok (.done, reads ++ [a])
    else
      let r ← readSubDir disk buf i
      match r.1 with
      | .fail _ => .ok (.fail, reads ++ r.2)
      | .entry name info next =>
        if name = dirname then .ok (.found info, reads ++ r.2)
        else walkEntries disk buf dirname turns next (reads ++ r.2)

/-- The inode that `lookup` builds from the entry at `a`. -/
def ofEntry (fs : Fat32FS) (disk : Mem) (held : List Nat) (a : Nat) :
    Except Fault (Fat32Inode × List Nat) :=
  init fs disk held (disk.read (a + 20) 2 * 2 ^ 16 + disk.read (a + 26) 2)
    (if disk (a + 11) &&& 0x10 ≠ 0 then .folder else .file) (disk.read (a + 28) 4)

/-- The loop of `lookup` over the clusters: the inode, the buffers held, and the places of the
entries read. -/
def lookupLoop (fs : Fat32FS) (disk : Mem) (dirname : List UInt8) :
    List Nat → List Nat → List Nat → Except Fault (Option Fat32Inode × List Nat × List Nat)
  | [], held, reads => .ok (none, held, reads)
  | cluster :: clusters, held, reads => do
    let buf := readSync held (fs.clusterToLba cluster)
    let r ← walkEntries disk buf.1 dirname (entriesPerBuffer + 1) 0 reads
    match r.1 with
    | .fail => .ok (none, releaseBufferSync buf.2 buf.1, r.2)
    | .found info =>
      -- the buffer is not released
      let node ← ofEntry fs disk buf.2 info
      .ok (some node.1, node.2, r.2)
    | .done => lookupLoop fs disk dirname clusters (releaseBufferSync buf.2 buf.1) r.2

/-- `Fat32Inode::lookup`. -/
def lookup (fs : Fat32FS) (node : Fat32Inode) (disk : Mem) (held : List Nat)
    (dirname : List UInt8) : Except Fault (Option Fat32Inode × List Nat × List Nat) :=
  if node.dirType ≠ .folder then .ok (none, held, [])
  else lookupLoop fs disk dirname node.clustersNumber held []

end Fat32Inode

end OsKernel.Fs.Fat

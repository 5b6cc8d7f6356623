import OsKernel.Hsai.Page
import OsKernel.Klib.Fault
import OsKernel.Lib.ByteMemory

/-! `Fat32Inode`: the cluster list of a file and the reads of its content.  The bytes of the device
are those that the buffer cache gives; a buffer has 4096 of them, and an access outside the buffer
is undefined. -/

namespace OsKernel.Fs.Fat

open Lib Hsai

/-- `default_buffer_size`. -/
def defaultBufferSize : Nat := 4096

/-- `default_sector_size`. -/
def defaultSectorSize : Nat := 512

/-- A `Buffer`: the number of the 8 sectors that it has, and where in it its data pointer is. -/
structure Buffer where
  number : Nat
  base : Nat
  deriving DecidableEq, Repr

/-- `BufferManager::read_sync` by a caller that holds the buffers `held`: the data pointer is at the
sector, not at the start of the buffer. -/
def readSync (held : List Nat) (lba : Nat) : Buffer × List Nat :=
  (⟨lba / 8, defaultSectorSize * (lba % 8)⟩, (lba / 8) :: held)

/-- `release_buffer_sync`. -/
def releaseBufferSync (held : List Nat) (buf : Buffer) : List Nat := held.erase buf.number

namespace Buffer

/-- The `n` bytes at `get_data_ptr() + p`. -/
def load (disk : Mem) (buf : Buffer) (p n : Nat) : Except Fault (List UInt8) :=
  if n = 0 ∨ buf.base + p + n ≤ defaultBufferSize then
    .ok (disk.load (defaultBufferSize * buf.number + buf.base + p) n)
  else .error (.undefined "access outside the buffer")

/-- The `uint32` with the index `i` from `get_data_ptr()` on. -/
def word (disk : Mem) (buf : Buffer) (i : Nat) : Except Fault Nat :=
  if buf.base + 4 * i + 4 ≤ defaultBufferSize then
    .ok (disk.read (defaultBufferSize * buf.number + buf.base + 4 * i) 4)
  else .error (.undefined "access outside the buffer")

end Buffer

/-- A `Fat32FS` with the numbers of its boot record. -/
structure Fat32FS where
  startLba : Nat
  reservedSectors : Nat
  fatCounts : Nat
  sectorsPerFat : Nat
  sectorsPerCluster : Nat
  bytesPerSector : Nat
  cluster_ok : ∃ e ≤ 7, sectorsPerCluster = 2 ^ e
  sector_ok : bytesPerSector = 512 ∨ bytesPerSector = 1024 ∨ bytesPerSector = 2048 ∨
    bytesPerSector = 4096

inductive Fat32NodeType where
  | file
  | folder
  deriving DecidableEq, Repr

structure Fat32Inode where
  firstCluster : Nat
  dirType : Fat32NodeType
  clustersNumber : List Nat
  size : Nat

/-- `Fat32_fat_end_value`. -/
def fat32FatEndValue : Nat := 0x0FFFFFF8

/-- `fat_is_end`. -/
def fatIsEnd (fat : Nat) : Bool := fat32FatEndValue ≤ fat

/-- `Fat32_first_data_cluster`. -/
def fat32FirstDataCluster : Nat := 2

namespace Fat32FS

variable (fs : Fat32FS)

/-- `get_fat_lba`. -/
def fatLba : Nat := fs.startLba + fs.reservedSectors

/-- `_cluster_to_lba`. -/
def clusterToLba (cluster : Nat) : Nat :=
  (fs.startLba + fs.reservedSectors + fs.sectorsPerFat * fs.fatCounts +
    fs.sectorsPerCluster * wordSub cluster fat32FirstDataCluster) % wordSize

/-- `_cover_size_bytes` of a list of clusters. -/
def coverSizeBytes (clusters : List Nat) : Nat :=
  clusters.length * fs.sectorsPerCluster * fs.bytesPerSector % wordSize

end Fat32FS

namespace Fat32Inode

/-- The loop of `init` over the entries from the index `p` on, of which `turns` are before
`buf_end`: the list, and whether an end marker has stopped the loop. -/
def clusterLoop (word : Nat → Except Fault Nat) : Nat → Nat → Nat → List Nat →
    Except Fault (List Nat × Bool)
  | 0, _, _, clusters => .ok (clusters, false)
  | turns + 1, p, i, clusters => do
    let fat ← word p
    if fatIsEnd fat then .ok (clusters ++ [i], true)
    else clusterLoop word turns (p + 1) fat (clusters ++ [i])

/-- `Fat32Inode::init`. -/
def init (fs : Fat32FS) (disk : Mem) (held : List Nat) (firstCluster : Nat)
    (nodeType : Fat32NodeType) (size : Nat) : Except Fault (Fat32Inode × List Nat) := do
  let clsNumInSector := firstCluster / (fs.bytesPerSector / 4)
  let clsNumOffset := firstCluster % (fs.bytesPerSector / 4)
  let buf := readSync held (fs.fatLba + clsNumInSector)
  let r ← clusterLoop (buf.1.word disk) (defaultBufferSize / 4 - clsNumOffset) clsNumOffset
    firstCluster []
  let held := releaseBufferSync buf.2 buf.1
  -- the size of the root is that of its clusters
  let size := if size = 0 then fs.coverSizeBytes r.1 else size
  let _ ← kassert (r.2 = true)
    "Fat32DirEntry: too long directory that covers more than %d clusters."
  .ok (⟨firstCluster, nodeType, r.1, size⟩, held)

/-- `memcpy` of the next bytes from a buffer, at most a whole one. -/
def copyUnit (disk : Mem) (buf : Buffer) (offset rest : Nat) : Except Fault (List UInt8) :=
  buf.load disk offset (if rest > defaultBufferSize then defaultBufferSize else rest)

/-- The loop of `read_content` over the clusters after the first one, with the bytes copied
so far. -/
def readLoop (fs : Fat32FS) (disk : Mem) :
    List Nat → List Nat → Nat → List UInt8 → Except Fault (List UInt8 × List Nat)
  | [], held, _, out => .ok (out, held)
  | cluster :: clusters, held, rest, out =>
    if rest = 0 then .ok (out, held)
    else do
      let buf := readSync held (fs.clusterToLba cluster)
      let bytes ← copyUnit disk buf.1 0 rest
      readLoop fs disk clusters (releaseBufferSync buf.2 buf.1) (rest - bytes.length) (out ++ bytes)

/-- `Fat32Inode::read_content`: the bytes copied to the destination, and the buffers held then. -/
def readContent (fs : Fat32FS) (node : Fat32Inode) (disk : Mem) (held : List Nat)
    (readLen offset : Nat) (asyncRead : Bool) : Except Fault (List UInt8 × List Nat) :=
  let coverSize := fs.coverSizeBytes node.clustersNumber
  let len := if wordSub coverSize offset > readLen then readLen else coverSize
  let clsStart := offset / (fs.sectorsPerCluster * fs.bytesPerSector)
  match node.clustersNumber.drop clsStart with
  | [] => .ok ([], held)
  | cluster :: clusters =>
    if asyncRead then .error (.panic "buffer : asynchronous read not implement")
    else do
      let offset := offset % (fs.bytesPerSector * fs.sectorsPerCluster)
      let buf := readSync held (fs.clusterToLba cluster)
      let bytes ← copyUnit disk buf.1 offset len
      readLoop fs disk clusters (releaseBufferSync buf.2 buf.1) (len - bytes.length) bytes

end Fat32Inode

end OsKernel.Fs.Fat

import Mathlib.Data.List.FinRange
import Mathlib.Logic.Function.Basic
import OsKernel.Klib.Fault

/-! The block buffer cache: `BufferBlock` with its hand-written LRU list, and `BufferManager`, which
finds or evicts a buffer for a sector.  A device is its bytes, 512 to a sector, with a record of
what was read from it and written to it. -/

namespace OsKernel.Fs

abbrev maxBufferPerBlock : Nat := 64
abbrev blockPerPool : Nat := 64
def defaultBufferSize : Nat := 4096
def defaultSectorSize : Nat := 512

def lbaOffsetMask : Nat := (2 ^ 64 - 1) >>> (64 - 3) <<< 0
def lbaBlkNumMask : Nat := (2 ^ 64 - 1) >>> (64 - 6) <<< 3
def lbaTagNumMask : Nat := (2 ^ 64 - 1) >>> (64 - 45) <<< 9

def offsetFromLba (lba : Nat) : Nat := (lba &&& lbaOffsetMask) % 2 ^ 32 >>> 0

def blkNumFromLba (lba : Nat) : Nat := (lba &&& lbaBlkNumMask) >>> 3

def tagNumFromLba (lba : Nat) : Nat := (lba &&& lbaTagNumMask) >>> 9

def lbaBlkAlign (lba : Nat) : Nat := lba &&& (2 ^ 64 - 1 - lbaOffsetMask)

def lbaFromTagBlkOff (tag blk off : Nat) : Nat :=
  (tag <<< 9 % 2 ^ 64 &&& lbaTagNumMask) ||| (blk <<< 3 % 2 ^ 64 &&& lbaBlkNumMask) |||
    (off <<< 0 % 2 ^ 64 &&& lbaOffsetMask)

theorem blkNumFromLba_eq (lba : Nat) : blkNumFromLba lba = lba / 8 % 64 := by
  have hmask : lbaBlkNumMask >>> 3 = 2 ^ 6 - 1 := by decide
  rw [blkNumFromLba, Nat.shiftRight_and_distrib, hmask, Nat.and_two_pow_sub_one_eq_mod,
    Nat.shiftRight_eq_div_pow]

theorem blkNumFromLba_lt (lba : Nat) : blkNumFromLba lba < blockPerPool := by
  rw [blkNumFromLba_eq]
  exact Nat.mod_lt _ (by decide)

/-- A node of the LRU list: a buffer, or `_node_head`. -/
abbrev Node := Option (Fin maxBufferPerBlock)

/-- The data pages of the buffers are in `data`; the bit maps are functions of the index. -/
structure BufferBlock where
  validMap : Fin maxBufferPerBlock → Bool
  dirtyMap : Fin maxBufferPerBlock → Bool
  diskOwnMap : Fin maxBufferPerBlock → Bool
  device : Fin maxBufferPerBlock → Int
  refCnt : Fin maxBufferPerBlock → Int
  tagNumber : Fin maxBufferPerBlock → Nat
  next : Node → Node
  prev : Node → Node
  data : Fin maxBufferPerBlock → Nat → UInt8

namespace BufferBlock

variable (b : BufferBlock)

/-- `i` is put right behind the head. -/
def insertFirst (i : Fin maxBufferPerBlock) : BufferBlock :=
  let next := Function.update b.next (some i) (b.next none)
  let prev := Function.update b.prev (some i) none
  let prev := Function.update prev (next none) (some i)
  { b with next := Function.update next none (some i), prev }

/-- `i` is taken out of the list. -/
def unlink (i : Fin maxBufferPerBlock) : BufferBlock :=
  let prev := Function.update b.prev (b.next (some i)) (b.prev (some i))
  { b with prev, next := Function.update b.next (prev (some i)) (b.next (some i)) }

/-- `BufferBlock::init`, where the pages hold `data` and the links of the nodes `next`
and `prev`. -/
def init (data : Fin maxBufferPerBlock → Nat → UInt8) (next prev : Node → Node) :
    BufferBlock :=
  (List.finRange maxBufferPerBlock).foldl insertFirst
    { validMap := fun _ => false
      dirtyMap := fun _ => false
      diskOwnMap := fun _ => false
      device := fun _ => 0
      refCnt := fun _ => 0
      tagNumber := fun _ => 2 ^ 64 - 1
      next := Function.update next none none
      prev := Function.update prev none none
      data }

/-- The loop over the nodes along `link`, up to the first for which `found` holds. -/
def nodeLoop (link : Node → Node) (found : Fin maxBufferPerBlock → Bool) :
    Nat → Node → Except Fault (Option (Fin maxBufferPerBlock))
  | _, none => .ok none
  | 0, some _ => .error (.undefined "list without end")
  | fuel + 1, some i => if found i then .ok (some i) else nodeLoop link found fuel (link (some i))

def searchBuffer (dev : Int) (tag : Nat) : Except Fault (Option (Fin maxBufferPerBlock)) :=
  nodeLoop b.next (fun i => b.device i = dev ∧ b.tagNumber i = tag) maxBufferPerBlock
    (b.next none)

def allocBuffer : Except Fault (Option (Fin maxBufferPerBlock)) :=
  nodeLoop b.prev (fun i => b.refCnt i = 0) maxBufferPerBlock (b.prev none)

end BufferBlock

/-- What a block device was asked to do, for the buffer `idx` of the block `blk`. -/
inductive DevOp where
  | read (dev : Int) (lba : Nat) (blk : Fin blockPerPool) (idx : Fin maxBufferPerBlock)
  | write (dev : Int) (lba : Nat) (blk : Fin blockPerPool) (idx : Fin maxBufferPerBlock)

/-- The buffers and the devices.  `ops` has the last operation first. -/
structure Cache where
  pool : Fin blockPerPool → BufferBlock
  disk : Int → Nat → UInt8
  ops : List DevOp

/-- The value that `read_sync` returns: the buffer, and where in its page the sector starts. -/
structure Buffer where
  blk : Fin blockPerPool
  idx : Fin maxBufferPerBlock
  start : Nat
  deriving DecidableEq

namespace Cache

variable (c : Cache)

def set (blk : Fin blockPerPool) (f : BufferBlock → BufferBlock) : Cache :=
  { c with pool := Function.update c.pool blk (f (c.pool blk)) }

/-- `write_blocks_sync` of the page of a buffer, from the sector `lba` on. -/
def writeBlocks (dev : Int) (lba : Nat) (blk : Fin blockPerPool) (idx : Fin maxBufferPerBlock) :
    Cache :=
  { c with
    disk := fun d x => if d = dev ∧ defaultSectorSize * lba ≤ x ∧
        x < defaultSectorSize * lba + defaultBufferSize then
      (c.pool blk).data idx (x - defaultSectorSize * lba) else c.disk d x
    ops := .write dev lba blk idx :: c.ops }

/-- `read_blocks_sync` into the page of a buffer, from the sector `lba` on. -/
def readBlocks (dev : Int) (lba : Nat) (blk : Fin blockPerPool) (idx : Fin maxBufferPerBlock) :
    Cache :=
  let page := fun x => if x < defaultBufferSize then c.disk dev (defaultSectorSize * lba + x)
    else (c.pool blk).data idx x
  { c.set blk fun b => { b with data := Function.update b.data idx page } with
    ops := .read dev lba blk idx :: c.ops }

/-- A buffer that is evicted is written back if it is dirty. -/
def writeBack (blk : Fin blockPerPool) (idx : Fin maxBufferPerBlock) : Cache :=
  if (c.pool blk).dirtyMap idx then
    let dev := (c.pool blk).device idx
    let lba := lbaFromTagBlkOff ((c.pool blk).tagNumber idx) blk 0
    let c := c.set blk fun b => { b with diskOwnMap := Function.update b.diskOwnMap idx true }
    let c := c.writeBlocks dev lba blk idx
    c.set blk fun b =>
      { b with
        dirtyMap := Function.update b.dirtyMap idx false
        diskOwnMap := Function.update b.diskOwnMap idx false }
  else c

/-- The buffer is given to the sector group `tag` of `dev`. -/
def assign (blk : Fin blockPerPool) (idx : Fin maxBufferPerBlock) (dev : Int) (tag : Nat) : Cache :=
  c.set blk fun b =>
    { b with
      device := Function.update b.device idx dev
      tagNumber := Function.update b.tagNumber idx tag
      refCnt := Function.update b.refCnt idx 1
      validMap := Function.update b.validMap idx false }

/-- The buffer is read from the device if it has no valid data. -/
def fill (blk : Fin blockPerPool) (idx : Fin maxBufferPerBlock) (dev : Int) (lba : Nat) : Cache :=
  if (c.pool blk).validMap idx then c
  else
    let c := c.set blk fun b => { b with diskOwnMap := Function.update b.diskOwnMap idx true }
    let c := c.readBlocks dev lba blk idx
    c.set blk fun b =>
      { b with
        diskOwnMap := Function.update b.diskOwnMap idx false
        validMap := Function.update b.validMap idx true }

/-- The part of `_get_buffer` that finds a buffer, with `need_sleep_lock` false. -/
def findBuffer (blk : Fin blockPerPool) (dev : Int) (tag : Nat) :
    Except Fault (Fin maxBufferPerBlock × Cache) := do
  match ← (c.pool blk).searchBuffer dev tag with
  | some idx =>
    kassert ((c.pool blk).diskOwnMap idx = false)
      "synchronously get buffer but disk occupies this buffer"
    return (idx, c.set blk fun b =>
      { b with refCnt := Function.update b.refCnt idx (b.refCnt idx + 1) })
  | none =>
    match ← (c.pool blk).allocBuffer with
    | none => .error (.assertion "BufferManager : try to get buffer fail")
    | some idx => return (idx, (c.writeBack blk idx).assign blk idx dev tag)

/-- `read_sync`, where `isBlock` says which devices are block devices. -/
def readSync (isBlock : Int → Bool) (dev : Int) (lba : Nat) :
    Except Fault (Option Buffer × Cache) :=
  if isBlock dev then do
    let blk : Fin blockPerPool := ⟨blkNumFromLba lba, blkNumFromLba_lt lba⟩
    let tag := tagNumFromLba lba % 2 ^ 32
    let r ← c.findBuffer blk dev tag
    let c := r.2.fill blk r.1 dev (lbaBlkAlign lba)
    return (some ⟨blk, r.1, defaultSectorSize * offsetFromLba lba⟩, c)
  else return (none, c)

/-- The caller writes the sector of a buffer and calls `dirt_buffer`. -/
def modify (buf : Buffer) (bytes : Fin defaultSectorSize → UInt8) : Cache :=
  c.set buf.blk fun b =>
    { b with
      data := Function.update b.data buf.idx fun x =>
        if h : buf.start ≤ x ∧ x - buf.start <
          defaultSectorSize then bytes ⟨x - buf.start, h.2⟩
        else b.data buf.idx x
      dirtyMap := Function.update b.dirtyMap buf.idx true }

def pinBuffer (buf : Buffer) : Cache :=
  c.set buf.blk fun b =>
    { b with refCnt := Function.update b.refCnt buf.idx (b.refCnt buf.idx + 1) }

def unpinBuffer (buf : Buffer) : Cache :=
  c.set buf.blk fun b =>
    { b with refCnt := Function.update b.refCnt buf.idx (b.refCnt buf.idx - 1) }

def releaseBufferSync (buf : Buffer) : Cache :=
  c.set buf.blk fun b =>
    let b := { b with refCnt := Function.update b.refCnt buf.idx (b.refCnt buf.idx - 1) }
    if b.refCnt buf.idx = 0 then (b.unlink buf.idx).insertFirst buf.idx else b

/-- `BufferManager::init`. -/
def init (data : Fin blockPerPool → Fin maxBufferPerBlock → Nat → UInt8)
    (next prev : Fin blockPerPool → Node → Node) (disk : Int → Nat → UInt8) : Cache where
  pool := fun blk => BufferBlock.init (data blk) (next blk) (prev blk)
  disk
  ops := []

end Cache

/-- A reference that a caller holds: the buffer, and the sector it was read for. -/
structure Ref extends Buffer where
  dev : Int
  lba : Nat
  deriving DecidableEq

/-- The contents of the devices after a sector is written. -/
def writeSector (disk : Int → Nat → UInt8) (dev : Int) (lba : Nat)
    (bytes : Fin defaultSectorSize → UInt8) : Int → Nat → UInt8 :=
  fun d x => if h : d = dev ∧ defaultSectorSize * lba ≤ x ∧
      x - defaultSectorSize * lba < defaultSectorSize then bytes ⟨x - defaultSectorSize * lba,
        h.2.2⟩
    else disk d x

/-- The cache with what its callers know: the logical contents of the devices, and the references
that have not been released. -/
structure CacheRun where
  cache : Cache
  logical : Int → Nat → UInt8
  refs : List Ref

/-- The calls of one caller at a time.  There is always a buffer without a reference for a read. -/
inductive CacheStep (isBlock : Int → Bool) : CacheRun → CacheRun → Prop
  | read {r : CacheRun} {dev : Int} {lba : Nat} {buf : Buffer} {c : Cache}
      (hdev : isBlock dev = true) (hlba : lba < 2 ^ 41)
      (hfree : ∃ i, (r.cache.pool ⟨blkNumFromLba lba, blkNumFromLba_lt lba⟩).refCnt i = 0)
      (hrun : r.cache.readSync isBlock dev lba = .ok (some buf, c)) :
      CacheStep isBlock r ⟨c, r.logical, ⟨buf, dev, lba⟩ :: r.refs⟩
  | modify {r : CacheRun} {ref : Ref} (bytes : Fin defaultSectorSize → UInt8)
      (href : ref ∈ r.refs) :
      CacheStep isBlock r ⟨r.cache.modify ref.toBuffer bytes,
        writeSector r.logical ref.dev ref.lba bytes, r.refs⟩
  | pin {r : CacheRun} {ref : Ref} (href : ref ∈ r.refs) :
      CacheStep isBlock r ⟨r.cache.pinBuffer ref.toBuffer, r.logical, ref :: r.refs⟩
  | unpin {r : CacheRun} {ref : Ref} (href : ref ∈ r.refs) :
      CacheStep isBlock r ⟨r.cache.unpinBuffer ref.toBuffer, r.logical, r.refs.erase ref⟩
  | release {r : CacheRun} {ref : Ref} (href : ref ∈ r.refs) :
      CacheStep isBlock r ⟨r.cache.releaseBufferSync ref.toBuffer, r.logical, r.refs.erase ref⟩

inductive CacheReach (isBlock : Int → Bool) : CacheRun → Prop
  | init (data : Fin blockPerPool → Fin maxBufferPerBlock → Nat → UInt8)
      (next prev : Fin blockPerPool → Node → Node) (disk : Int → Nat → UInt8) :
      CacheReach isBlock ⟨Cache.init data next prev disk, disk, []⟩
  | step {r r' : CacheRun} (h : CacheReach isBlock r) (hs : CacheStep isBlock r r') :
      CacheReach isBlock r'

/-- Where the page of a buffer was last read from. -/
def lastRead (blk : Fin blockPerPool) (idx : Fin maxBufferPerBlock) :
    List DevOp → Option (Int × Nat)
  | [] => none
  | .read dev lba b i :: ops =>
    if b = blk ∧ i = idx then some (dev, lba) else lastRead blk idx ops
  | .write .. :: ops => lastRead blk idx ops

end OsKernel.Fs

import Mathlib.Data.Fintype.Defs
import OsKernel.Fs.BufferCache

/-! `_get_buffer` and `_release_buffer` by several processes.  The lock of the manager is dropped
for the write-back of an evicted buffer and for the read of a new one; what is done under the lock
at one time is one step, and so is a transfer. -/

namespace OsKernel.Fs

/-- The block of the buffers for a sector. -/
def blkOf (lba : Nat) : Fin blockPerPool := ⟨blkNumFromLba lba, blkNumFromLba_lt lba⟩

/-- How far a process has come with a `_get_buffer` that does not hit. -/
inductive GetPhase where
  | idle
  /-- The lock is dropped before the old page of the buffer is written to `wdev` at `wlba`. -/
  | writing (dev : Int) (lba : Nat) (idx : Fin maxBufferPerBlock) (wdev : Int) (wlba : Nat)
  /-- The old page is written, and the lock is not taken again. -/
  | written (dev : Int) (lba : Nat) (idx : Fin maxBufferPerBlock)
  /-- The lock is dropped before the read. -/
  | reading (dev : Int) (lba : Nat) (idx : Fin maxBufferPerBlock)
  /-- The new page is read, and the lock is not taken again. -/
  | readDone (dev : Int) (lba : Nat) (idx : Fin maxBufferPerBlock)

/-- The cache with its users: how far each process has come, the references that have been returned
to a process, and the logical contents of the devices. -/
structure SharedCache (α : Type) where
  cache : Cache
  phase : α → GetPhase
  handed : List (α × Ref)
  logical : Int → Nat → UInt8

namespace Cache

variable (c : Cache)

def setDiskOwn (blk : Fin blockPerPool) (idx : Fin maxBufferPerBlock) (v : Bool) : Cache :=
  c.set blk fun b => { b with diskOwnMap := Function.update b.diskOwnMap idx v }

/-- The lock is taken after a write-back. -/
def endWrite (blk : Fin blockPerPool) (idx : Fin maxBufferPerBlock) : Cache :=
  c.set blk fun b =>
    { b with
      dirtyMap := Function.update b.dirtyMap idx false
      diskOwnMap := Function.update b.diskOwnMap idx false }

/-- The lock is taken after a read. -/
def endRead (blk : Fin blockPerPool) (idx : Fin maxBufferPerBlock) : Cache :=
  c.set blk fun b =>
    { b with
      diskOwnMap := Function.update b.diskOwnMap idx false
      validMap := Function.update b.validMap idx true }

/-- One more reference. -/
def addRef (blk : Fin blockPerPool) (idx : Fin maxBufferPerBlock) : Cache :=
  c.set blk fun b => { b with refCnt := Function.update b.refCnt idx (b.refCnt idx + 1) }

end Cache

/-- The reference that `read_sync` of the sector `lba` returns. -/
def refOf (dev : Int) (lba : Nat) (idx : Fin maxBufferPerBlock) : Ref :=
  ⟨⟨blkOf lba, idx, defaultSectorSize * offsetFromLba lba⟩, dev, lba⟩

namespace SharedCache

variable {α : Type} [DecidableEq α] (s : SharedCache α)

/-- The buffer is returned. -/
def hand (p : α) (c : Cache) (dev : Int) (lba : Nat) (idx : Fin maxBufferPerBlock) :
    SharedCache α where
  cache := c
  phase := Function.update s.phase p .idle
  handed := (p, refOf dev lba idx) :: s.handed
  logical := s.logical

/-- The process waits for a transfer. -/
def wait (p : α) (c : Cache) (φ : GetPhase) : SharedCache α :=
  { s with cache := c, phase := Function.update s.phase p φ }

/-- A buffer without valid data is read; another one is returned. -/
def readOrHand (p : α) (c : Cache) (dev : Int) (lba : Nat) (idx : Fin maxBufferPerBlock) :
    SharedCache α :=
  if (c.pool (blkOf lba)).validMap idx then s.hand p c dev lba idx
  else s.wait p (c.setDiskOwn (blkOf lba) idx true) (.reading dev lba idx)

/-- `_get_buffer` up to the first point at which the lock is dropped. -/
def getBuffer (p : α) (dev : Int) (lba : Nat) : Except Fault (SharedCache α) := do
  let blk := blkOf lba
  let tag := tagNumFromLba lba % 2 ^ 32
  match ← (s.cache.pool blk).searchBuffer dev tag with
  | some idx =>
    kassert ((s.cache.pool blk).diskOwnMap idx = false)
      "synchronously get buffer but disk occupies this buffer"
    return s.readOrHand p (s.cache.addRef blk idx) dev lba idx
  | none =>
    match ← (s.cache.pool blk).allocBuffer with
    | none => .error (.assertion "BufferManager : try to get buffer fail")
    | some idx =>
      if (s.cache.pool blk).dirtyMap idx then
        return s.wait p (s.cache.setDiskOwn blk idx true) (.writing dev lba idx
          ((s.cache.pool blk).device idx)
          (lbaFromTagBlkOff ((s.cache.pool blk).tagNumber idx) blk 0))
      else return s.readOrHand p (s.cache.assign blk idx dev tag) dev lba idx

end SharedCache

inductive SharedEvent (α : Type) where
  | get (p : α) (dev : Int) (lba : Nat)
  | write (p : α)
  | endWrite (p : α)
  | read (p : α)
  | endRead (p : α)
  | modify (p : α) (ref : Ref) (bytes : Fin defaultSectorSize → UInt8)
  | release (p : α) (ref : Ref)

variable {α : Type} [DecidableEq α]

/-- One step of a process. -/
inductive SharedStep (isBlock : Int → Bool) : SharedEvent α → SharedCache α →
    SharedCache α → Prop
  | get {s s' : SharedCache α} {p : α} {dev : Int} {lba : Nat} : isBlock dev = true →
      s.phase p = .idle → s.getBuffer p dev lba = .ok s' →
      SharedStep isBlock (.get p dev lba) s s'
  | write {s : SharedCache α} {p : α} {dev wdev : Int} {lba wlba : Nat}
      {idx : Fin maxBufferPerBlock} : s.phase p = .writing dev lba idx wdev wlba →
        SharedStep isBlock (.write p)
        s (s.wait p (s.cache.writeBlocks wdev wlba (blkOf lba) idx) (.written dev lba idx))
  | endWrite {s : SharedCache α} {p : α} {dev : Int} {lba : Nat} {idx : Fin maxBufferPerBlock} :
      s.phase p = .written dev lba idx → SharedStep isBlock (.endWrite p) s
        (s.readOrHand p ((s.cache.endWrite (blkOf lba) idx).assign (blkOf lba) idx dev
          (tagNumFromLba lba % 2 ^ 32)) dev lba idx)
  | read {s : SharedCache α} {p : α} {dev : Int} {lba : Nat} {idx : Fin maxBufferPerBlock} :
      s.phase p = .reading dev lba idx → SharedStep isBlock (.read p) s
        (s.wait p (s.cache.readBlocks dev (lbaBlkAlign lba) (blkOf lba) idx)
          (.readDone dev lba idx))
  | endRead {s : SharedCache α} {p : α} {dev : Int} {lba : Nat} {idx : Fin maxBufferPerBlock} :
      s.phase p = .readDone dev lba idx → SharedStep isBlock (.endRead p) s
        (s.hand p (s.cache.endRead (blkOf lba) idx) dev lba idx)
  | modify {s : SharedCache α} {p : α} {ref : Ref} {bytes : Fin defaultSectorSize → UInt8} :
      (p, ref) ∈ s.handed → SharedStep isBlock (.modify p ref bytes) s
        { s with
          cache := s.cache.modify ref.toBuffer bytes
          logical := writeSector s.logical ref.dev ref.lba bytes }
  | release {s : SharedCache α} {p : α} {ref : Ref} : (p, ref) ∈ s.handed →
      SharedStep isBlock (.release p ref) s
        { s with
          cache := s.cache.releaseBufferSync ref.toBuffer
          handed := s.handed.erase (p, ref) }

/-- The states of a new cache, by steps that all meet a condition. -/
inductive SharedRun (isBlock : Int → Bool) (Ok : SharedCache α → SharedEvent α → Prop) :
    SharedCache α → Prop
  | start (data : Fin blockPerPool → Fin maxBufferPerBlock → Nat → UInt8)
      (next prev : Fin blockPerPool → Node → Node) (disk : Int → Nat → UInt8) :
      SharedRun isBlock Ok ⟨Cache.init data next prev disk, fun _ => .idle, [], disk⟩
  | step {s s' : SharedCache α} {e : SharedEvent α} : SharedRun isBlock Ok s → Ok s e →
      SharedStep isBlock e s s' → SharedRun isBlock Ok s'

/-- What the users of a cache can rely on in a state. -/
structure SharedSafe (isBlock : Int → Bool) (Ok : SharedCache α → SharedEvent α → Prop)
    (s : SharedCache α) : Prop where
  /-- No assertion fails. -/
  progress : ∀ {p dev lba}, isBlock dev = true → s.phase p = .idle → Ok s (.get p dev lba) →
    ∃ s', s.getBuffer p dev lba = .ok s'
  /-- A buffer that two users have is for one device and tag. -/
  single : ∀ {p q ref ref'}, (p, ref) ∈ s.handed → (q, ref') ∈ s.handed →
    ref.blk = ref'.blk → ref.idx = ref'.idx → ref.dev = ref'.dev ∧
    tagNumFromLba ref.lba % 2 ^ 32 = tagNumFromLba ref'.lba % 2 ^ 32
  /-- The buffer of a user has been read, and has the contents of its sector. -/
  filled : ∀ {p ref}, (p, ref) ∈ s.handed → (s.cache.pool ref.blk).validMap ref.idx = true ∧
    (s.cache.pool ref.blk).diskOwnMap ref.idx = false ∧
    ∀ j < 512, (s.cache.pool ref.blk).data ref.idx (ref.start + j) =
    s.logical ref.dev (512 * ref.lba + j)
  /-- What users have written is on the device, or in a dirty buffer for its page. -/
  kept : ∀ d blk tag x, x < 4096 → s.cache.disk d (pageStart tag blk + x) =
    s.logical d (pageStart tag blk + x) ∨ ∃ i, (s.cache.pool blk).device i = d ∧
      (s.cache.pool blk).tagNumber i = tag ∧ (s.cache.pool blk).dirtyMap i = true ∧
      (s.cache.pool blk).data i x = s.logical d (pageStart tag blk + x)

/-- The page for which a request evicts a buffer. -/
def GetPhase.pending : GetPhase → Option (Fin blockPerPool × Int × Nat)
  | writing dev lba _ _ _ | written dev lba _ => some (blkOf lba, dev, tagNumFromLba lba % 2 ^ 32)
  | idle | reading .. | readDone .. => none

/-- A process asks for a sector below `2 ^ 41` while no transfer is going on for the buffer that
it hits or evicts, and no other process evicts a buffer for the same page; and there is a buffer
for it. -/
def Undisturbed (s : SharedCache α) : SharedEvent α → Prop
  | .get _ dev lba => lba < 2 ^ 41 ∧
      (∀ i, (s.cache.pool (blkOf lba)).searchBuffer dev (tagNumFromLba lba % 2 ^ 32) =
        .ok (some i) → (s.cache.pool (blkOf lba)).diskOwnMap i = false) ∧
      ((s.cache.pool (blkOf lba)).searchBuffer dev (tagNumFromLba lba % 2 ^ 32) = .ok none →
        (∃ i, (s.cache.pool (blkOf lba)).refCnt i = 0) ∧
        (∀ i, (s.cache.pool (blkOf lba)).allocBuffer = .ok (some i) →
          (s.cache.pool (blkOf lba)).diskOwnMap i = false) ∧
        ∀ q, (s.phase q).pending ≠ some (blkOf lba, dev, tagNumFromLba lba % 2 ^ 32))
  | _ => True

end OsKernel.Fs

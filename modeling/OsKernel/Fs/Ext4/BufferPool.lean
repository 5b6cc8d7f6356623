import OsKernel.Fs.BufferCache
import OsKernel.Lib.LinkList

/-! `Ext4BufferPool`: 32 buffers of the block size of an ext4 file system, in an LRU list, filled
sector by sector from the block buffer cache. -/

namespace OsKernel.Fs.Ext4

open Lib

abbrev poolCount : Nat := 32

/-- Where the file system is: its device, its first sector and its block size. -/
structure Ext4FS where
  isBlock : Int → Bool
  dev : Int
  startLba : Nat
  blockSize : Nat
  aligned : blockSize % 512 = 0
  device : isBlock dev = true

namespace Ext4FS

variable (fs : Ext4FS)

/-- `num_sector`. -/
def numSector : Nat := fs.blockSize / 512

/-- The sector `k` of a block. -/
def lba (blockNo : Int) (k : Nat) : Nat :=
  ((fs.startLba + blockNo * fs.numSector + k) % 2 ^ 64).toNat

end Ext4FS

/-- The buffers by their number, with the links of the list. -/
structure Pool where
  pinned : Fin poolCount → Bool
  valid : Fin poolCount → Bool
  blockNo : Fin poolCount → Int
  data : Fin poolCount → Nat → UInt8
  links : Links (Fin poolCount)

namespace Pool

variable (p : Pool)

/-- The constructor, for buffers on the heap with any bytes. -/
def init (data : Fin poolCount → Nat → UInt8) : Pool where
  pinned := fun _ => false
  valid := fun _ => false
  blockNo := fun _ => -1
  data
  links := (List.finRange poolCount).foldl Links.insertFirst ⟨fun _ => none, fun _ => none⟩

/-- A loop over the list that ends. -/
def loopResult (r : Option (Option (Fin poolCount))) : Except Fault (Option (Fin poolCount)) :=
  match r with
  | none => .error (.undefined "list without end")
  | some r => .ok r

/-- `_search_buffer`. -/
def searchBuffer (blockNo : Int) : Except Fault (Option (Fin poolCount)) :=
  loopResult (Links.loop p.links.next (fun i => p.valid i ∧ p.blockNo i = blockNo) poolCount
    (p.links.next none))

/-- `_alloc_buffer`. -/
def allocBuffer : Except Fault (Option (Fin poolCount)) :=
  loopResult (Links.loop p.links.prev (fun i => p.pinned i = false) poolCount (p.links.prev none))

/-- The bytes of the sector `k` of the buffer `i`. -/
def copySector (i : Fin poolCount) (k : Nat) (bytes : Nat → UInt8) : Pool :=
  { p with
    data := Function.update p.data i fun x =>
      if 512 * k ≤ x ∧ x < 512 * k + 512 then bytes (x - 512 * k) else p.data i x }

/-- The buffer `i` has got the block. -/
def identify (i : Fin poolCount) (blockNo : Int) : Pool :=
  { p with
    valid := Function.update p.valid i true
    blockNo := Function.update p.blockNo i blockNo }

/-- The end of `request_block`: the buffer goes to the front of the list, and is pinned if asked. -/
def use (i : Fin poolCount) (pin : Bool) : Pool :=
  { p with
    links := (p.links.unlink i).insertFirst i
    pinned := if pin then Function.update p.pinned i true else p.pinned }

/-- `unpin`. -/
def unpin (i : Fin poolCount) : Pool := { p with pinned := Function.update p.pinned i false }

end Pool

variable (fs : Ext4FS)

/-- `read_sync` of the sector `k` of a block. -/
def fetchSector (c : Cache) (blockNo : Int) (k : Nat) : Except Fault (Buffer × Cache) := do
  let r ← c.readSync fs.isBlock fs.dev (fs.lba blockNo k)
  match r.1 with
  | none => .error (.undefined "no buffer")
  | some buf => .ok (buf, r.2)

/-- `copy_data_to` the sector `k` of the buffer `i`, and `release_buffer_sync`. -/
def copyFetched (p : Pool) (c : Cache) (i : Fin poolCount) (k : Nat) (buf : Buffer) :
    Pool × Cache :=
  (p.copySector i k fun j => (c.pool buf.blk).data buf.idx (buf.start + j), c.releaseBufferSync buf)

/-- The loop over the sectors from `k` on, `n` of them. -/
def fillLoop (i : Fin poolCount) (blockNo : Int) :
    Nat → Nat → Pool → Cache → Except Fault (Pool × Cache)
  | 0, _, p, c => .ok (p, c)
  | n + 1, k, p, c => do
    let r ← fetchSector fs c blockNo k
    let q := copyFetched p r.2 i k r.1
    fillLoop i blockNo n (k + 1) q.1 q.2

/-- `request_block`; the result is the null pointer where all buffers are pinned. -/
def requestBlock (p : Pool) (c : Cache) (blockNo : Int) (pin : Bool) :
    Except Fault (Option (Fin poolCount) × Pool × Cache) := do
  match ← p.searchBuffer blockNo with
  | some i => return (some i, p.use i pin, c)
  | none =>
    match ← p.allocBuffer with
    | none => return (none, p, c)
    | some i =>
      let r ← fillLoop fs i blockNo fs.numSector 0 p c
      return (some i, (r.1.identify i blockNo).use i pin, r.2)

/-! ### The list -/

/-- The list has each of the buffers once. -/
def Pool.Listed (p : Pool) : Prop := ∃ l : List (Fin poolCount), p.links.Order l

theorem Pool.init_listed (data : Fin poolCount → Nat → UInt8) : (Pool.init data).Listed := by
  refine ⟨(List.finRange poolCount).reverse, fun i => by simp, ?_⟩
  have h := Links.ring_foldl (List.finRange poolCount) ⟨fun _ => none, fun _ => none⟩ []
    (Ring.nil rfl rfl) (by simpa using List.nodup_finRange poolCount)
  rw [List.append_nil] at h
  exact h

variable {fs} {p p' : Pool} {c c' : Cache} {i v : Fin poolCount} {b : Int} {k : Nat}

theorem Pool.Listed.use (h : p.Listed) (i : Fin poolCount) (pin : Bool) : (p.use i pin).Listed := by
  obtain ⟨l, hl⟩ := h
  exact ⟨_, hl.moveFirst i⟩

/-- The search finds a buffer with the block where there is one. -/
theorem Pool.Listed.search (h : p.Listed) (b : Int) :
    (∃ i, p.searchBuffer b = .ok (some i) ∧ p.valid i = true ∧ p.blockNo i = b) ∨
      (p.searchBuffer b = .ok none ∧ ∀ i, p.valid i = true → p.blockNo i ≠ b) := by
  obtain ⟨l, hl⟩ := h
  unfold searchBuffer
  rw [hl.loop_next _ (by simp)]
  cases hf : l.find? fun i => p.valid i ∧ p.blockNo i = b with
  | some i =>
    have hi := List.find?_some hf
    simp only [decide_eq_true_eq] at hi
    exact .inl ⟨i, rfl, hi⟩
  | none =>
    refine .inr ⟨rfl, fun i hv hb => ?_⟩
    have := List.find?_eq_none.mp hf i (hl.all i)
    simp [hv, hb] at this

/-- A buffer that is not pinned is found. -/
theorem Pool.Listed.alloc (h : p.Listed) (hfree : ∃ i, p.pinned i = false) :
    ∃ i, p.allocBuffer = .ok (some i) ∧ p.pinned i = false := by
  obtain ⟨l, hl⟩ := h
  obtain ⟨j, hj⟩ := hfree
  unfold allocBuffer
  rw [hl.loop_prev _ (by simp)]
  cases hf : l.reverse.find? fun i => p.pinned i = false with
  | some i =>
    have hi := List.find?_some hf
    simp only [decide_eq_true_eq] at hi
    exact ⟨i, rfl, hi⟩
  | none =>
    have := List.find?_eq_none.mp hf j (List.mem_reverse.mpr (hl.all j))
    simp [hj] at this

theorem Pool.Listed.alloc_pinned (h : p.Listed) (hrun : p.allocBuffer = .ok (some v)) :
    p.pinned v = false := by
  obtain ⟨l, hl⟩ := h
  unfold allocBuffer at hrun
  rw [hl.loop_prev _ (by simp)] at hrun
  have hv := List.find?_some (Except.ok.inj hrun)
  simpa only [decide_eq_true_eq] using hv

/-! ### The contents -/

/-- The buffer cache tells the sectors of the block apart from all others. -/
def Ext4FS.Near (fs : Ext4FS) (b : Int) : Prop := ∀ {k}, k < fs.numSector → fs.lba b k < 2 ^ 41

/-- The first `n` sectors of the buffer `i` are those of the block `b`. -/
def Pool.Has (fs : Ext4FS) (disk : Int → Nat → UInt8) (p : Pool) (i : Fin poolCount) (b : Int)
    (n : Nat) : Prop :=
  ∀ {k j}, k < n → j < 512 → p.data i (512 * k + j) = disk fs.dev (512 * fs.lba b k + j)

/-- The cache with no reference to any of its buffers. -/
def Idle (c : Cache) (disk : Int → Nat → UInt8) : Prop := CacheInv ⟨c, disk, []⟩

variable {disk : Int → Nat → UInt8}

/-- One sector is read. -/
theorem fetchSector_spec {refs : List Ref} (h : CacheInv ⟨c, disk, refs⟩)
    (hlba : fs.lba b k < 2 ^ 41)
    (hfree : ∃ i, (c.pool ⟨blkNumFromLba (fs.lba b k), blkNumFromLba_lt _⟩).refCnt i = 0) :
    ∃ buf c', fetchSector fs c b k = .ok (buf, c') ∧
      CacheInv ⟨c', disk, ⟨buf, fs.dev, fs.lba b k⟩ :: refs⟩ := by
  obtain ⟨buf, c', hrun, hinv, -⟩ := CacheInv.read h fs.device hlba hfree
  exact ⟨buf, c', by rw [fetchSector, hrun, ok_bind], hinv⟩

theorem Idle.fetch (h : Idle c disk) (hlba : fs.lba b k < 2 ^ 41) :
    ∃ buf c', fetchSector fs c b k = .ok (buf, c') ∧
      CacheInv ⟨c', disk, [⟨buf, fs.dev, fs.lba b k⟩]⟩ :=
  fetchSector_spec h hlba ⟨0, h.idle rfl _ _⟩

/-- The sector is copied, and its buffer released. -/
theorem copyFetched_spec {buf : Buffer} {refs : List Ref}
    (h : CacheInv ⟨c, disk, ⟨buf, fs.dev, fs.lba b k⟩ :: refs⟩)
    (hp : p.Has fs disk v b k) :
    CacheInv ⟨(copyFetched p c v k buf).2, disk, refs⟩ ∧
      (copyFetched p c v k buf).1.Has fs disk v b (k + 1) ∧
      ∃ data, (copyFetched p c v k buf).1 = { p with data := Function.update p.data v data } := by
  refine ⟨?_, fun {k' j} hk hj => ?_, _, rfl⟩
  · have := h.release List.mem_cons_self
    rwa [List.erase_cons_head] at this
  · have hdata : (copyFetched p c v k buf).1.data v (512 * k' + j) =
        if 512 * k ≤ 512 * k' + j ∧ 512 * k' + j < 512 * k + 512 then
          (c.pool buf.blk).data buf.idx (buf.start + (512 * k' + j - 512 * k))
        else p.data v (512 * k' + j) := by
      simp only [copyFetched, Pool.copySector, Function.update_self]
    rw [hdata]
    by_cases hkk : k' = k
    · subst hkk
      rw [if_pos (by omega), Nat.add_sub_cancel_left]
      exact h.sector List.mem_cons_self hj
    · rw [if_neg (by omega)]
      exact hp (by omega) hj

/-- All sectors are read into one buffer; nothing else changes. -/
theorem fillLoop_spec (hb : fs.Near b) (n : Nat) (hn : k + n = fs.numSector) (h : Idle c disk)
    (hp : p.Has fs disk v b k) :
    ∃ p' c', fillLoop fs v b n k p c = .ok (p', c') ∧ Idle c' disk ∧
      p'.Has fs disk v b fs.numSector ∧
      ∃ data, p' = { p with data := Function.update p.data v data } := by
  induction n generalizing k p c with
  | zero =>
    refine ⟨p, c, rfl, h, ?_, p.data v, by rw [Function.update_eq_self]⟩
    rwa [← hn, Nat.add_zero]
  | succ n ih =>
    obtain ⟨buf, c₁, hfetch, hinv⟩ := h.fetch (hb (show k < fs.numSector by omega))
    obtain ⟨hidle, hhas, data, hdata⟩ := copyFetched_spec hinv hp
    obtain ⟨p', c', hrun, hidle', hhas', data', hdata'⟩ := ih (by omega) hidle hhas
    refine ⟨p', c', ?_, hidle', hhas', data', ?_⟩
    · rw [fillLoop, hfetch, ok_bind]
      exact hrun
    · rw [hdata', hdata]
      simp only [Function.update_idem]

/-! ### The invariant -/

/-- What every call keeps: the list is whole, a valid buffer has its block, and no two valid buffers
have one. -/
structure PoolInv (fs : Ext4FS) (disk : Int → Nat → UInt8) (p : Pool) : Prop where
  listed : p.Listed
  has : ∀ {i}, p.valid i = true → p.Has fs disk i (p.blockNo i) fs.numSector
  unique : ∀ {i j}, p.valid i = true → p.valid j = true → p.blockNo i = p.blockNo j → i = j

theorem PoolInv.init (data : Fin poolCount → Nat → UInt8) : PoolInv fs disk (Pool.init data) :=
  ⟨Pool.init_listed data, nofun, nofun⟩

theorem PoolInv.use (I : PoolInv fs disk p) (i : Fin poolCount) (pin : Bool) :
    PoolInv fs disk (p.use i pin) :=
  ⟨I.listed.use i pin, I.has, I.unique⟩

theorem PoolInv.unpin (I : PoolInv fs disk p) (i : Fin poolCount) : PoolInv fs disk (p.unpin i) :=
  ⟨I.listed, I.has, I.unique⟩

/-- The buffer `v` has been filled with a block that no buffer had. -/
theorem PoolInv.identify (I : PoolInv fs disk p) {data : Nat → UInt8}
    (hmiss : ∀ i, p.valid i = true → p.blockNo i ≠ b)
    (hhas : Pool.Has fs disk { p with data := Function.update p.data v data } v b fs.numSector) :
    PoolInv fs disk (Pool.identify { p with data := Function.update p.data v data } v b) := by
  refine ⟨I.listed, fun {i} hi => ?_, fun {i j} hi hj hij => ?_⟩
  · by_cases hv : i = v
    · subst hv
      intro hk hj
      simp only [Pool.identify, Function.update_self]
      have h := hhas hk hj
      simp only [Function.update_self] at h
      exact h
    · simp only [Pool.identify, Function.update_of_ne hv] at hi
      intro hk hj
      simp only [Pool.identify, Function.update_of_ne hv]
      exact I.has hi hk hj
  · by_cases hv : i = v <;> by_cases hw : j = v
    · rw [hv, hw]
    · subst hv
      simp only [Pool.identify, Function.update_self, Function.update_of_ne hw] at hij hj
      exact absurd hij.symm (hmiss j hj)
    · subst hw
      simp only [Pool.identify, Function.update_self, Function.update_of_ne hv] at hij hi
      exact absurd hij (hmiss i hi)
    · simp only [Pool.identify, Function.update_of_ne hv, Function.update_of_ne hw] at hi hj hij
      exact I.unique hi hj hij

/-- What a call leaves alone: a buffer that is pinned keeps its block and its bytes. -/
def KeepsPinned (p p' : Pool) (i : Fin poolCount) : Prop :=
  p'.valid i = p.valid i ∧ p'.blockNo i = p.blockNo i ∧ p'.data i = p.data i

/-- `request_block`, where the block is near and not all buffers are pinned. -/
theorem PoolInv.requestBlock (I : PoolInv fs disk p) (hc : Idle c disk) (hb : fs.Near b)
    (hfree : ∃ i, p.pinned i = false) (pin : Bool) :
    ∃ i p' c', requestBlock fs p c b pin = .ok (some i, p', c') ∧ PoolInv fs disk p' ∧
      Idle c' disk ∧ p'.Has fs disk i b fs.numSector ∧ p'.valid i = true ∧
      p'.blockNo i = b ∧
      (∀ j, p.pinned j = true → KeepsPinned p p' j) ∧
      p'.pinned = if pin then Function.update p.pinned i true else p.pinned := by
  unfold Ext4.requestBlock
  rcases I.listed.search b with ⟨i, hs, hv, hi⟩ | ⟨hs, hmiss⟩
  · rw [hs, ok_bind]
    exact ⟨i, p.use i pin, c, rfl, I.use i pin, hc, hi ▸ I.has hv, hv, hi, fun _ _ =>
      ⟨rfl, rfl, rfl⟩, rfl⟩
  obtain ⟨v, ha, hv⟩ := I.listed.alloc hfree
  obtain ⟨p', c', hfill, hidle, hhas, data, rfl⟩ :=
    fillLoop_spec (v := v) (p := p) hb fs.numSector
    (Nat.zero_add _) hc nofun
  rw [hs, ok_bind]
  simp only
  rw [ha, ok_bind]
  simp only
  rw [hfill, ok_bind]
  have I' := I.identify hmiss hhas
  have hne : ∀ j, p.pinned j = true → j ≠ v := by
    rintro j hj rfl
    rw [hv] at hj
    cases hj
  refine ⟨v, _, c', rfl, I'.use v pin, hidle, fun hk hj => hhas hk hj, ?_, ?_, fun j hj => ?_,
    rfl⟩
  · exact Function.update_self ..
  · exact Function.update_self ..
  · exact ⟨Function.update_of_ne (hne j hj) .., Function.update_of_ne (hne j hj) ..,
      Function.update_of_ne (hne j hj) ..⟩

/-! ### Runs -/

inductive PoolEvent where
  | request (b : Int) (pin : Bool)
  | unpin (i : Fin poolCount)

/-- One call.  A request is made with a buffer left that is not pinned, and a buffer is unpinned by
its holder. -/
inductive PoolStep (fs : Ext4FS) : PoolEvent → Pool × Cache → Pool × Cache → Prop
  | request {p p' : Pool} {c c' : Cache} {b : Int} {pin : Bool} {r : Option (Fin poolCount)} :
      (∃ i, p.pinned i = false) → requestBlock fs p c b pin = .ok (r, p', c') →
      PoolStep fs (.request b pin) (p, c) (p', c')
  | unpin {p : Pool} {c : Cache} {i : Fin poolCount} : p.pinned i = true →
      PoolStep fs (.unpin i) (p, c) (p.unpin i, c)

/-- The states of a new pool on a new buffer cache, by calls that all meet the condition. -/
inductive PoolRun (fs : Ext4FS) (disk : Int → Nat → UInt8) (Ok : PoolEvent → Prop) :
    Pool × Cache → Prop
  | start (data : Fin poolCount → Nat → UInt8)
      (pages : Fin blockPerPool → Fin maxBufferPerBlock → Nat → UInt8)
      (next prev : Fin blockPerPool → Node → Node) :
      PoolRun fs disk Ok (Pool.init data, Cache.init pages next prev disk)
  | step {s s' : Pool × Cache} {e : PoolEvent} : PoolRun fs disk Ok s → Ok e →
      PoolStep fs e s s' → PoolRun fs disk Ok s'

/-- What the pool should do in a state: every request returns a buffer with the block, no two valid
buffers have one block, the list has each buffer once, and no call changes a buffer that is pinned
and stays so. The blocks and the calls are those that `Ok` allows. -/
structure PoolTransparent (fs : Ext4FS) (disk : Int → Nat → UInt8) (Ok : PoolEvent → Prop)
    (s : Pool × Cache) : Prop where
  request : ∀ {b pin}, Ok (.request b pin) → (∃ i, s.1.pinned i = false) →
    ∃ i p' c', requestBlock fs s.1 s.2 b pin = .ok (some i, p', c') ∧
      p'.Has fs disk i b fs.numSector
  unique : ∀ {i j}, s.1.valid i = true → s.1.valid j = true →
    s.1.blockNo i = s.1.blockNo j → i = j
  listed : s.1.Listed
  pinned : ∀ {e s'}, Ok e → PoolStep fs e s s' → ∀ {i}, s.1.pinned i = true →
    e ≠ .unpin i → s'.1.data i = s.1.data i ∧ s'.1.pinned i = true

/-- Requests are for blocks whose sectors are below `2 ^ 41`. -/
def RequestsNear (fs : Ext4FS) : PoolEvent → Prop
  | .request b _ => fs.Near b
  | .unpin _ => True

theorem PoolInv.step {s s' : Pool × Cache} {e : PoolEvent} (I : PoolInv fs disk s.1)
    (hc : Idle s.2 disk) (hok : RequestsNear fs e) (hstep : PoolStep fs e s s') :
    PoolInv fs disk s'.1 ∧ Idle s'.2 disk ∧ ∀ {i}, s.1.pinned i = true → e ≠ .unpin i →
      s'.1.data i = s.1.data i ∧ s'.1.pinned i = true := by
  cases hstep with
  | request hfree hrun =>
    rename_i p p' c c' b pin r
    obtain ⟨i, q, d, hrun', I', hidle, -, -, -, hkeep, hpin⟩ := I.requestBlock hc hok hfree pin
    rw [hrun] at hrun'
    cases hrun'
    refine ⟨I', hidle, fun {j} hj _ => ⟨(hkeep j hj).2.2, ?_⟩⟩
    simp only [hpin]
    split
    · rw [Function.update_apply]
      split
      · rfl
      · exact hj
    · exact hj
  | unpin hp =>
    rename_i p c i
    refine ⟨I.unpin i, hc, fun {j} hj hne => ⟨rfl, ?_⟩⟩
    have hji : j ≠ i := fun h => hne (by rw [h])
    simp only [Pool.unpin, Function.update_of_ne hji]
    exact hj

/-- In every run of requests for near blocks the pool is transparent. -/
theorem pool_transparent {s : Pool × Cache} (hrun : PoolRun fs disk (RequestsNear fs) s) :
    PoolTransparent fs disk (RequestsNear fs) s := by
  have I : PoolInv fs disk s.1 ∧ Idle s.2 disk := by
    induction hrun with
    | start data pages next prev => exact ⟨.init data, CacheInv.init pages next prev disk⟩
    | step _ hok hstep ih =>
      obtain ⟨I, hidle, -⟩ := ih.1.step ih.2 hok hstep
      exact ⟨I, hidle⟩
  refine ⟨fun {b pin} hok hfree => ?_, I.1.unique, I.1.listed, fun hok hstep =>
    (I.1.step I.2 hok hstep).2.2⟩
  obtain ⟨i, p', c', hrun', -, -, hhas, -⟩ := I.1.requestBlock I.2 hok hfree pin
  exact ⟨i, p', c', hrun', hhas⟩

/-- A file system from the sector 8 on, with blocks of 1024 bytes. -/
def sampleFS : Ext4FS := ⟨fun _ => true, 0, 8, 1024, by decide, rfl⟩

/-- Every byte is the number of its sector. -/
def sampleDisk : Int → Nat → UInt8 := fun _ x => UInt8.ofNat (x / 512)

/-- Block 3 is requested and pinned, block 5 is requested, and block 3 is unpinned. -/
theorem pool_transparent_sample :
    ∃ s i j, PoolRun sampleFS sampleDisk (RequestsNear sampleFS) s ∧
      PoolTransparent sampleFS sampleDisk (RequestsNear sampleFS) s ∧
      s.1.data i 0 = 14 ∧ s.1.data j 0 = 18 ∧ s.1.pinned i = false := by
  have hnear : ∀ b : Int, b = 3 ∨ b = 5 → sampleFS.Near b := by
    rintro b (rfl | rfl) k hk
    · have hk' : k < 2 := hk
      simp only [Ext4FS.lba, Ext4FS.numSector, sampleFS]
      omega
    · have hk' : k < 2 := hk
      simp only [Ext4FS.lba, Ext4FS.numSector, sampleFS]
      omega
  have h3 : RequestsNear sampleFS (.request 3 true) := hnear 3 (.inl rfl)
  have h5 : RequestsNear sampleFS (.request 5 false) := hnear 5 (.inr rfl)
  have hstart : PoolRun sampleFS sampleDisk (RequestsNear sampleFS) _ :=
    .start (fun _ _ => 0) (fun _ _ _ => 0) (fun _ n => n) fun _ n => n
  have hfree : ∃ i, (Pool.init fun _ _ => 0).pinned i = false := ⟨0, rfl⟩
  obtain ⟨i, p₁, c₁, hreq₁, -, -, hhas₁, -, -, -, hpin⟩ :=
    (PoolInv.init fun _ _ => 0).requestBlock (CacheInv.init _ _ _ sampleDisk) (hnear 3 (.inl rfl))
      hfree true
  have hrun₁ := hstart.step @h3 (.request hfree hreq₁)
  have hpinned : p₁.pinned i = true := by
    rw [hpin, if_pos rfl, Function.update_self]
  have hfree₁ : ∃ k, p₁.pinned k = false := by
    obtain ⟨k, hk⟩ := exists_ne i
    refine ⟨k, ?_⟩
    rw [hpin, if_pos rfl, Function.update_of_ne hk]
    rfl
  have T₁ := pool_transparent hrun₁
  obtain ⟨j, p₂, c₂, hreq₂, hhas₂⟩ := T₁.request @h5 hfree₁
  have hstep₂ : PoolStep sampleFS (.request 5 false) (p₁, c₁) (p₂, c₂) :=
    .request hfree₁ hreq₂
  have hrun₂ := hrun₁.step @h5 hstep₂
  obtain ⟨hkeep, hstill⟩ := T₁.pinned @h5 hstep₂ hpinned (by simp)
  have hrun₃ := hrun₂.step (show RequestsNear sampleFS (.unpin i) from trivial) (.unpin hstill)
  refine ⟨_, i, j, hrun₃, pool_transparent hrun₃, ?_, ?_, Function.update_self ..⟩
  · exact (congrFun hkeep 0).trans (hhas₁ (show 0 < 2 by decide) (show 0 < 512 by decide))
  · exact hhas₂ (show 0 < 2 by decide) (show 0 < 512 by decide)

/-! ### Sectors that the cache does not tell apart -/

/-- A sector with the tag, block and offset of one that is cached is taken for it. -/
theorem readSync_alias {r : CacheRun} {isBlock : Int → Bool} {dev : Int} {lba lba' : Nat}
    (h : CacheInv r) (hlba : lba < 2 ^ 41)
    (hblk : blkNumFromLba lba' = blkNumFromLba lba)
    (htag : tagNumFromLba lba' % 2 ^ 32 = tagNumFromLba lba % 2 ^ 32)
    (hoff : offsetFromLba lba' = offsetFromLba lba)
    (hin : ∃ i, (r.cache.pool ⟨blkNumFromLba lba, blkNumFromLba_lt lba⟩).device i = dev ∧
      (r.cache.pool ⟨blkNumFromLba lba, blkNumFromLba_lt lba⟩).tagNumber i = lba / 512) :
    r.cache.readSync isBlock dev lba' = r.cache.readSync isBlock dev lba := by
  have hb : (⟨blkNumFromLba lba', blkNumFromLba_lt lba'⟩ : Fin blockPerPool) =
      ⟨blkNumFromLba lba, blkNumFromLba_lt lba⟩ := Fin.ext hblk
  unfold Cache.readSync
  simp only [hb, htag, hoff]
  set blk : Fin blockPerPool := ⟨blkNumFromLba lba, blkNumFromLba_lt lba⟩
  obtain ⟨l, hl⟩ := h.order blk
  obtain ⟨i, hi⟩ := hin
  split
  · unfold Cache.findBuffer
    simp only [tagNumFromLba_eq hlba, hl.searchBuffer, ok_bind]
    cases hfind : l.find? fun i => (r.cache.pool blk).device i = dev ∧
      (r.cache.pool blk).tagNumber i = lba / 512 with
    | none =>
      have := List.find?_eq_none.mp hfind i (hl.mem i)
      simp [hi] at this
    | some j =>
      have hj := List.find?_some hfind
      simp only [decide_eq_true_eq] at hj
      have hvalid : (r.cache.pool blk).validMap j = true := by
        refine (h.valid_or blk j).resolve_right ?_
        rw [hj.2]
        omega
      have hfill : ∀ a, (r.cache.set blk fun b =>
          { b with refCnt := Function.update b.refCnt j (b.refCnt j + 1) }).fill blk j dev a =
            r.cache.set blk fun b =>
              { b with refCnt := Function.update b.refCnt j (b.refCnt j + 1) } := by
        intro a
        unfold Cache.fill
        exact if_pos (by simpa using hvalid)
      simp only [kassert_pos (h.own blk j), ok_bind, pure, Except.pure, hfill]
  · rfl

theorem releaseBufferSync_keeps (c : Cache) (buf : Buffer) (blk : Fin blockPerPool) :
    ((c.releaseBufferSync buf).pool blk).device = (c.pool blk).device ∧
      ((c.releaseBufferSync buf).pool blk).tagNumber = (c.pool blk).tagNumber := by
  unfold Cache.releaseBufferSync
  rw [Cache.set_pool]
  split
  · rename_i h
    subst h
    simp only
    split
    · exact ⟨rfl, rfl⟩
    · exact ⟨rfl, rfl⟩
  · exact ⟨rfl, rfl⟩

/-- A request for a block of one sector that misses. -/
theorem requestBlock_miss (hone : fs.numSector = 1) (hs : p.searchBuffer b = .ok none)
    (ha : p.allocBuffer = .ok (some v)) {buf : Buffer} {c' : Cache}
    (hf : fetchSector fs c b 0 = .ok (buf, c')) (pin : Bool) :
    requestBlock fs p c b pin = .ok (some v, ((copyFetched p c' v 0 buf).1.identify v b).use v pin,
      (copyFetched p c' v 0 buf).2) := by
  unfold Ext4.requestBlock
  rw [hs, ok_bind]
  simp only
  rw [ha, ok_bind]
  simp only [hone, fillLoop, hf, ok_bind]
  rfl

/-- A file system from the sector 0 on, with blocks of one sector. -/
def aliasFS : Ext4FS := ⟨fun _ => true, 0, 0, 512, by decide, rfl⟩

/-- Sector 0 has ones, the others zeros. -/
def aliasDisk : Int → Nat → UInt8 := fun _ x => if x < 512 then 1 else 0

theorem aliasFS_lba (n : Nat) (hn : n < 2 ^ 64) : aliasFS.lba n 0 = n := by
  unfold Ext4FS.lba aliasFS Ext4FS.numSector
  simp only [Nat.reduceDiv]
  omega

/-- A request for a far block after one for block 0 returns the bytes of block 0. -/
theorem far_block_aliased : ¬∀ s, PoolRun aliasFS aliasDisk (fun _ => True) s →
    PoolTransparent aliasFS aliasDisk (fun _ => True) s := by
  intro H
  have hone : aliasFS.numSector = 1 := rfl
  have hnear : aliasFS.lba (0 : Nat) 0 = 0 := aliasFS_lba 0 (by omega)
  have hfar : aliasFS.lba (2 ^ 41 : Nat) 0 = 2 ^ 41 := aliasFS_lba _ (by omega)
  have hlba : aliasFS.lba (0 : Nat) 0 < 2 ^ 41 := by omega
  let p := Pool.init fun _ _ => 0
  have hlisted : p.Listed := Pool.init_listed _
  have hidle :
      Idle (Cache.init (fun _ _ _ => 0) (fun _ n => n) (fun _ n => n) aliasDisk) aliasDisk :=
    CacheInv.init _ _ _ _
  have hsearch : p.searchBuffer (0 : Nat) = .ok none := by
    rcases hlisted.search (0 : Nat) with ⟨i, -, hi, -⟩ | ⟨hs, -⟩
    · cases hi
    · exact hs
  -- The first request fills a buffer of the cache with sector 0, and leaves it there.
  obtain ⟨v, ha, -⟩ := hlisted.alloc ⟨0, rfl⟩
  obtain ⟨buf, c₁, hf, hinv⟩ := hidle.fetch hlba
  have hreq := requestBlock_miss hone hsearch ha hf false
  have hstart : PoolRun aliasFS aliasDisk (fun _ => True) (p, _) :=
    .start (fun _ _ => 0) (fun _ _ _ => 0) (fun _ n => n) fun _ n => n
  have hrun := hstart.step trivial (.request ⟨0, rfl⟩ hreq)
  obtain ⟨hidle₂, -⟩ := copyFetched_spec (p := p) (v := v) hinv nofun
  set q := ((copyFetched p c₁ v 0 buf).1.identify v (0 : Nat)).use v false
  set c₂ := (copyFetched p c₁ v 0 buf).2 with hc₂
  have hlisted₂ : q.Listed :=
    Pool.Listed.use (p := (copyFetched p c₁ v 0 buf).1.identify v (0 : Nat))
    hlisted v false
  have hsearch₂ : q.searchBuffer (2 ^ 41 : Nat) = .ok none := by
    rcases hlisted₂.search (2 ^ 41 : Nat) with ⟨i, -, hi, hb⟩ | ⟨hs, -⟩
    · by_cases hiv : i = v
      · rw [hiv] at hb
        have : q.blockNo v = 0 := Function.update_self ..
        omega
      · have : q.valid i = false := Function.update_of_ne hiv ..
        rw [this] at hi
        cases hi
    · exact hs
  obtain ⟨w, ha₂, -⟩ := hlisted₂.alloc ⟨0, rfl⟩
  -- The second request hits that buffer.
  have hin : ∃ i, (c₂.pool ⟨blkNumFromLba 0, blkNumFromLba_lt 0⟩).device i = 0 ∧
      (c₂.pool ⟨blkNumFromLba 0, blkNumFromLba_lt 0⟩).tagNumber i = 0 / 512 := by
    obtain ⟨-, hblk, -, -, hdev, htag⟩ := hinv.held _ (List.mem_singleton_self _)
    have hb : (⟨blkNumFromLba 0, blkNumFromLba_lt 0⟩ : Fin blockPerPool) = buf.blk := by
      refine Fin.ext ?_
      rw [hblk, hnear]
      exact blkNumFromLba_eq 0
    obtain ⟨hkd, hkt⟩ := releaseBufferSync_keeps c₁ buf buf.blk
    refine ⟨buf.idx, ?_, ?_⟩
    · rw [hb, hc₂]
      exact (congrFun hkd _).trans hdev
    · rw [hb, hc₂]
      refine (congrFun hkt _).trans (htag.trans ?_)
      rw [hnear]
  have halias : fetchSector aliasFS c₂ (2 ^ 41 : Nat) 0 =
      fetchSector aliasFS c₂ (0 : Nat) 0 := by
    have hread : c₂.readSync aliasFS.isBlock 0 (2 ^ 41) = c₂.readSync aliasFS.isBlock 0 0 :=
      readSync_alias hidle₂ (by omega) (by decide) (by decide) (by decide) hin
    unfold fetchSector
    rw [hnear, hfar]
    simp only [show aliasFS.dev = 0 from rfl, hread]
  obtain ⟨buf', c₃, hf₂, hinv₂⟩ := Idle.fetch hidle₂ hlba
  have hreq₂ := requestBlock_miss hone hsearch₂ ha₂ (halias.trans hf₂) false
  obtain ⟨i, p', c', hreq', hhas⟩ : ∃ i p' c',
      requestBlock aliasFS q c₂ (2 ^ 41 : Nat) false =
      .ok (some i, p', c') ∧ p'.Has aliasFS aliasDisk i (2 ^ 41 : Nat) aliasFS.numSector :=
    (H _ hrun).request trivial ⟨0, rfl⟩
  rw [hreq₂] at hreq'
  cases hreq'
  obtain ⟨-, hhas₀, -⟩ := copyFetched_spec (p := q) (v := w) hinv₂ nofun
  have h₁ := hhas (show 0 < aliasFS.numSector by decide) (show 0 < 512 by decide)
  have h₀ := hhas₀ (show 0 < 0 + 1 by decide) (show 0 < 512 by decide)
  have h := h₀.symm.trans h₁
  rw [hnear, hfar] at h
  revert h
  decide

end OsKernel.Fs.Ext4

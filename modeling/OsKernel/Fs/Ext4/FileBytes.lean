import OsKernel.Fs.Ext4.ExtentTree
import OsKernel.Fs.Ext4.NodeRead

/-! The bytes of a file that is mapped by extents, and what `nodeRead` gives of them. -/

namespace OsKernel.Fs.Ext4

open Lib

namespace Ext4Inode

variable (inode : Ext4Inode) (v : Volume) (d : Nat)

/-- The byte at a place of the file: the stored one in an initialised extent, zero elsewhere. -/
def IsByte (place : Nat) (c : UInt8) : Prop :=
  (∀ e, v.HasExtent d inode.root e → e.initialised = true →
    e.Contains (place / v.blockSize) → c = v.readBlock (e.mapped (place / v.blockSize))
    (place % v.blockSize)) ∧
  ((∀ e, v.HasExtent d inode.root e → e.initialised = true →
    ¬e.Contains (place / v.blockSize)) → c = 0)

/-- The index blocks on the way to a block of the file, and its block. -/
def Touches (block blk : Nat) : Prop :=
  v.OnPath block d inode.root blk ∨ ∃ e, v.HasExtent d inode.root e ∧ e.Contains block ∧
    blk = e.mapped block

/-- A read gives the bytes of the file up to its size, and no block that it has pinned
stays pinned. -/
def ReadsFile (off len : Nat) : Prop :=
  ∀ fuel, d < fuel → ∀ dst mem pins, ∃ bytes pins',
    inode.nodeRead v fuel dst off len mem pins = .ok (bytes.length, mem.store dst bytes, pins') ∧
    bytes.length = min len (inode.rFileSize - off) ∧
    (∀ i, ∀ h : i < bytes.length, inode.IsByte v d (off + i) bytes[i]) ∧
    ∀ blk, pins' blk = true → pins blk = true ∧ (off < inode.calSize v →
      ∀ i, i = 0 ∨ i < bytes.length → ¬inode.Touches v d ((off + i) / v.blockSize) blk)

/-- A read in two pieces gives what one read gives. -/
def ReadsSplit (off len : Nat) : Prop :=
  ∀ fuel, d < fuel → ∀ dst mem pins, ∀ l₁ l₂, len = l₁ + l₂ →
    ∃ n₁ m₁ p₁ n₂ m₂ p₂ p, inode.nodeRead v fuel dst off l₁ mem pins =
    .ok (n₁, m₁, p₁) ∧
    inode.nodeRead v fuel (dst + n₁) (off + n₁) l₂ m₁ p₁ = .ok (n₂, m₂, p₂) ∧
    inode.nodeRead v fuel dst off len mem pins = .ok (n₁ + n₂, m₂, p)

/-- The blocks below the size are in initialised extents. -/
def Covered : Prop :=
  ∀ b, b * v.blockSize < inode.rFileSize →
    ∃ e, v.HasExtent d inode.root e ∧ e.initialised = true ∧ e.Contains b

variable {inode v d}

/-- `read_logical_block` searches the tree. -/
theorem finds (hext : inode.extents = true) (h : v.TreeWf d inode.root) {fuel : Nat}
    (hfuel : d < fuel) : inode.Finds v fuel (v.find d inode.root) fun b =>
      v.OnPath b d inode.root := by
  intro b pins
  obtain ⟨q, hrun, hq⟩ := Volume.extentLoop_find b h true none pins
  refine ⟨Volume.finish q true (v.find d inode.root b), ?_, fun blk hblk => ?_⟩
  · rw [readLogicalBlock, if_pos hext]
    exact hrun fuel hfuel
  · cases hr : v.find d inode.root b with
    | none =>
      rw [hr] at hblk
      exact .inr ⟨(hq blk hblk).1, (hq blk hblk).2.2⟩
    | some r =>
      rw [hr] at hblk
      simp only [Volume.finish, Pins.read, if_true, Pins.pin, Function.update_apply] at hblk
      split at hblk
      · next he => exact .inl (by rw [he])
      · exact .inr ⟨(hq blk hblk).1, (hq blk hblk).2.2⟩

theorem extent_pos {t : ExNode} {d : Nat} {e : Extent} (he : v.HasExtent d t e)
    (hun : e.initialised = false) : 0 < e.length := by
  induction d generalizing t with
  | zero =>
    obtain ⟨i, -, rfl⟩ := he
    have hlen : ¬t.length i ≤ 32768 := of_decide_eq_false hun
    simp only [ExNode.leaf, if_neg hlen]
    omega
  | succ d ih =>
    obtain ⟨i, -, he⟩ := he
    exact ih he

/-- A block below the size is found. -/
theorem Covered.find (hcov : inode.Covered v d) (h : v.TreeWf d inode.root) {b : Nat}
    (hb : b * v.blockSize < inode.rFileSize) :
    ∃ e, v.HasExtent d inode.root e ∧ e.initialised = true ∧ e.Contains b ∧
      v.find d inode.root b = some (e.mapped b) := by
  obtain ⟨e, he, hinit, hc⟩ := hcov b hb
  refine ⟨e, he, hinit, hc, Volume.find_mapped h he hc fun e' he' hle => ?_⟩
  cases hun : e'.initialised with
  | true => rfl
  | false =>
    -- its first block is below the size, hence in another extent too
    have hpos := extent_pos he' hun
    have hlt : e'.start ≤ b := by have := hc.1; omega
    obtain ⟨e'', he'', hinit'', hc''⟩ :=
      hcov e'.start (Nat.lt_of_le_of_lt (Nat.mul_le_mul_right _ hlt) hb)
    have hsame := Volume.HasExtent.unique h he' he'' ⟨Nat.le_refl _, by omega⟩ hc''
    rw [← hsame, hun] at hinit''
    cases hinit''

theorem isByte_of_find (place : Nat) (h : v.TreeWf d inode.root) {e : Extent}
    (he : v.HasExtent d inode.root e) (hinit : e.initialised = true)
    (hc : e.Contains (place / v.blockSize)) :
    inode.IsByte v d place (v.readBlock (e.mapped (place / v.blockSize)) (place % v.blockSize)) :=
      by
  refine ⟨fun e' he' _ hc' => ?_, fun hnone => absurd hc (hnone e he hinit)⟩
  rw [Volume.HasExtent.unique h he he' hc hc']

theorem calSize_le (inode : Ext4Inode) (v : Volume) : inode.calSize v ≤ inode.rFileSize := by
  unfold calSize rFileSize
  split <;> omega

/-- All bytes below both ends are read. -/
theorem Covered.length (hcov : inode.Covered v d) (h : v.TreeWf d inode.root) (off len : Nat) :
    (bytesFrom v (v.find d inode.root) off (min len (inode.calSize v - off)) 0).length =
      min len (inode.calSize v - off) := by
  refine bytesFrom_found fun j hj hj' => ?_
  have hle := calSize_le inode v
  obtain ⟨e, -, -, -, hfind⟩ := hcov.find h (b := (off + j) / v.blockSize)
    (Nat.lt_of_le_of_lt (Nat.div_mul_le_self _ _) (by omega))
  rw [hfind]
  rfl

/-- The read ends at the size that the file has for `nodeRead`. -/
theorem Covered.reads (hcov : inode.Covered v d) (hext : inode.extents = true)
    (h : v.TreeWf d inode.root)
    {fuel : Nat} (hfuel : d < fuel) {off len : Nat} (hlen : off + len < 2 ^ 64) (dst : Nat)
    (mem : Mem)
    (pins : Pins) : ∃ bytes q,
      bytes = bytesFrom v (v.find d inode.root) off (min len (inode.calSize v - off)) 0 ∧
      inode.nodeRead v fuel dst off len mem pins = .ok (bytes.length, mem.store dst bytes, q) ∧
      bytes.length = min len (inode.calSize v - off) ∧
      (∀ i, ∀ h : i < bytes.length, inode.IsByte v d (off + i) bytes[i]) ∧
      ∀ blk, q blk = true → pins blk = true ∧ (off < inode.calSize v →
        ∀ i, i = 0 ∨ i < bytes.length →
          ¬inode.Touches v d ((off + i) / v.blockSize) blk) := by
  have hlength := hcov.length h off len
  generalize hbytes : bytesFrom v (v.find d inode.root) off (min len (inode.calSize v - off)) 0 =
    bytes at hlength
  obtain ⟨q, hrun, hq⟩ := nodeRead_eq (finds hext h hfuel) hlen dst mem pins hbytes.symm
  have hle := calSize_le inode v
  have hsize : ∀ {i}, i < bytes.length → off + i < inode.rFileSize := fun hi => by omega
  refine ⟨bytes, q, rfl, hrun, hlength, fun i hi => ?_,
    fun blk hblk => ⟨(hq blk hblk).1, fun hoff i hi => ?_⟩⟩
  · obtain ⟨e, he, hinit, hc, hfind⟩ := hcov.find h (b := (off + i) / v.blockSize)
      (Nat.lt_of_le_of_lt (Nat.div_mul_le_self _ _) (hsize hi))
    subst hbytes
    obtain ⟨blk, hblk, hget⟩ := bytesFrom_get hi
    rw [Nat.zero_add] at hblk hget
    obtain rfl := Option.some.inj (hfind.symm.trans hblk)
    rw [hget]
    exact isByte_of_find (off + i) h he hinit hc
  · have hvis := (hq blk hblk).2 hoff i hi
    rintro (hpath | ⟨e', he', hc', rfl⟩)
    · exact hvis (.inl hpath)
    · obtain ⟨e, he, -, hc, hfind⟩ := hcov.find h (b := (off + i) / v.blockSize)
        (Nat.lt_of_le_of_lt (Nat.div_mul_le_self _ _) (by omega))
      obtain rfl := Volume.HasExtent.unique h he he' hc hc'
      exact hvis (.inr hfind)

theorem Covered.readsSplit (hcov : inode.Covered v d) (hext : inode.extents = true)
    (h : v.TreeWf d inode.root)
    {off len : Nat} (hlen : off + len < 2 ^ 64) : inode.ReadsSplit v d off len := by
  rintro fuel hfuel dst mem pins l₁ l₂ rfl
  obtain ⟨b₁, p₁, hb₁, hrun₁, hlen₁, -⟩ :=
    hcov.reads hext h hfuel (show off + l₁ < 2 ^ 64 by omega) dst mem pins
  obtain ⟨b₂, p₂, hb₂, hrun₂, hlen₂, -⟩ :=
    hcov.reads hext h hfuel (show off + b₁.length + l₂ < 2 ^ 64 by omega)
    (dst + b₁.length) (mem.store dst b₁) p₁
  obtain ⟨b, p, hb, hrun, hlen', -⟩ := hcov.reads hext h hfuel hlen dst mem pins
  have happend : b = b₁ ++ b₂ := by
    rw [bytesFrom_shift, Nat.add_zero] at hb₂
    rw [hb, show min (l₁ + l₂) (inode.calSize v - off) = min l₁ (inode.calSize v - off) +
      min l₂ (inode.calSize v -
        (off + b₁.length)) by omega, bytesFrom_append (hcov.length h off l₁), ← hb₁,
      Nat.zero_add, ← hlen₁, ← hb₂]
  refine ⟨_, _, _, _, _, _, p, hrun₁, hrun₂, ?_⟩
  rw [hrun, happend, Mem.store_append, List.length_append]

/-- The two sizes agree on what there is to read. -/
theorem sizes_agree_iff (inode : Ext4Inode) (v : Volume) (off len : Nat) :
    min len (inode.calSize v - off) = min len (inode.rFileSize - off) ↔
      v.support64bit = true ∨ inode.sizeHigh = 0 ∨ len = 0 ∨
        off + len ≤ inode.sizeLo.toNat ∨ inode.rFileSize ≤ off := by
  have hhigh : inode.sizeHigh = 0 ↔ inode.sizeHigh.toNat = 0 := UInt32.toNat_inj.symm
  rw [hhigh]
  unfold calSize rFileSize
  cases v.support64bit with
  | true => simp
  | false =>
    simp only [Bool.false_eq_true, if_false, false_or]
    omega

end Ext4Inode

open Ext4Inode in
/-- Of a file whose blocks are all there `nodeRead` gives the bytes, in one piece or in two, unless
the read goes past 4 GiB and the file system has no 64-bit feature. -/
theorem reads_file_iff (v : Volume) (inode : Ext4Inode) (hext : inode.extents = true) (d : Nat)
    (h : v.TreeWf d inode.root) (hcov : inode.Covered v d) (off len : Nat)
    (hlen : off + len < 2 ^ 64) :
    inode.ReadsFile v d off len ∧ inode.ReadsSplit v d off len ↔
      v.support64bit = true ∨ inode.sizeHigh = 0 ∨ len = 0 ∨
        off + len ≤ inode.sizeLo.toNat ∨ inode.rFileSize ≤ off := by
  rw [← sizes_agree_iff]
  constructor
  · rintro ⟨hreads, -⟩
    obtain ⟨bytes, q, hrun, hlength, -⟩ :=
      hreads (d + 1) (Nat.lt_succ_self d) 0 (fun _ => 0) fun _ => false
    obtain ⟨bytes', q', -, hrun', hlength', -⟩ :=
      hcov.reads hext h (Nat.lt_succ_self d) hlen 0 (fun _ => 0) fun _ => false
    rw [hrun] at hrun'
    rw [← hlength, ← hlength']
    exact (congrArg Prod.fst (Except.ok.inj hrun')).symm
  · intro hsize
    refine ⟨fun fuel hfuel dst mem pins => ?_, hcov.readsSplit hext h hlen⟩
    obtain ⟨bytes, q, -, hrun, hlength, hbytes, hpins⟩ :=
      hcov.reads hext h hfuel hlen dst mem pins
    exact ⟨bytes, q, hrun, hlength.trans hsize, hbytes, hpins⟩

theorem sampleInode_covered : sampleInode.Covered sampleVolume 1 := by
  intro b hb
  refine ⟨⟨0, 3, 20, true⟩, ⟨0, by decide, 0, by decide, by decide⟩, rfl, Nat.zero_le b,
    ?_⟩
  change b * 1024 < 2500 at hb
  change b < 0 + 3
  omega

theorem reads_file_sample : sampleInode.ReadsFile sampleVolume 1 1000 100 ∧
    sampleInode.ReadsSplit sampleVolume 1 1000 100 :=
  (reads_file_iff sampleVolume sampleInode rfl 1 sampleVolume_wf sampleInode_covered 1000 100
    (by decide)).mpr (.inl rfl)

/-! A file of 4 GiB, in 32 extents of the largest length. -/

/-- The bytes of the node `i` of the leaf. -/
def largeByte (i : Nat) : Nat → UInt8
  | 1 => UInt8.ofNat (i % 2 * 128)
  | 2 => UInt8.ofNat (i / 2)
  | 5 => 128
  | 9 => UInt8.ofNat (i % 2 * 128)
  | 10 => UInt8.ofNat (i / 2)
  | 11 => 1
  | _ => 0

def largeVolume : Volume where
  blockSize := 4096
  support64bit := false
  readBlock blk :=
    if blk = 5 then fun a =>
      if a < 12 then (bytesOf [10, 243, 32, 0, 84, 1]) a
        else largeByte ((a - 12) / 12) ((a - 12) % 12)
    else fun a => UInt8.ofNat (blk + a)

def largeInode : Ext4Inode where
  extents := true
  blocks := bytesOf [10, 243, 1, 0, 4, 0, 1, 0, 0, 0, 0, 0, 0, 0, 0, 0, 5]
  sizeLo := 0
  sizeHigh := 1

theorem largeVolume_node : ∀ i < 32,
    (largeVolume.node 5).leaf i = ⟨i * 32768, 32768, 2 ^ 24 + i * 32768, true⟩ := by
  decide +kernel

theorem largeVolume_wf : largeVolume.TreeWf 1 largeInode.root := by
  have hcount : largeInode.root.count = 1 := rfl
  have hnext : largeInode.root.nextNode 0 = 5 := by decide
  have hleaf : (largeVolume.node 5).count = 32 := rfl
  refine ⟨rfl, ⟨by decide, by decide⟩, fun i hi => by omega, fun i hi => ?_⟩
  obtain rfl : i = 0 := by omega
  rw [hnext]
  refine ⟨⟨rfl, ⟨by decide, by decide⟩, fun j hj => ?_⟩,
    fun e he => ⟨Nat.zero_le _, fun h => by omega⟩⟩
  rw [largeVolume_node j (by omega), largeVolume_node (j + 1) (by omega)]
  simp only
  omega

theorem largeInode_covered : largeInode.Covered largeVolume 1 := by
  intro b hb
  change b * 4096 < 4294967296 at hb
  refine ⟨_, ⟨0, by decide, b / 32768, ?_, (largeVolume_node (b / 32768) (by omega)).symm⟩,
    rfl, ?_, ?_⟩
  · change b / 32768 < 32
    omega
  · change b / 32768 * 32768 ≤ b
    omega
  · change b < b / 32768 * 32768 + 32768
    omega

/-- Without the 64-bit feature nothing of the file is read. -/
theorem large_file_unread : largeInode.extents = true ∧ largeVolume.TreeWf 1 largeInode.root ∧
    largeInode.Covered largeVolume 1 ∧ largeInode.rFileSize = 2 ^ 32 ∧
    largeInode.nodeRead largeVolume 2 0 0 1 (fun _ => 0) (fun _ => false) =
      .ok (0, fun _ => 0, fun _ => false) ∧ ¬largeInode.ReadsFile largeVolume 1 0 1 := by
  have hrun : ∀ fuel, largeInode.nodeRead largeVolume fuel 0 0 1 (fun _ => 0) (fun _ => false) =
      .ok (0, fun _ => 0, fun _ => false) := fun fuel => rfl
  refine ⟨rfl, largeVolume_wf, largeInode_covered, rfl, hrun 2, fun h => ?_⟩
  obtain ⟨bytes, q, hbytes, hlen, -⟩ := h 2 (by decide) 0 (fun _ => 0) fun _ => false
  rw [hrun] at hbytes
  have hzero : 0 = bytes.length := congrArg Prod.fst (Except.ok.inj hbytes)
  have hone : min 1 (largeInode.rFileSize - 0) = 1 := by decide
  omega

end OsKernel.Fs.Ext4

import OsKernel.Fs.Ext4.FileBytes

/-! Files with holes and with extents that are not initialised. -/

namespace OsKernel.Fs.Ext4

open Lib

namespace Volume

variable (v : Volume)

/-- The index blocks of a tree. -/
def Index : Nat → ExNode → Nat → Prop
  | 0, _, _ => False
  | d + 1, t, blk => ∃ i < t.count, blk = t.nextNode i ∨ Index d (v.node (t.nextNode i)) blk

/-- A disk with the same tree, and any contents of the other blocks. -/
structure SameTree (d : Nat) (t : ExNode) (v' : Volume) : Prop where
  blockSize : v'.blockSize = v.blockSize
  support64bit : v'.support64bit = v.support64bit
  index : ∀ blk, v.Index d t blk → v'.readBlock blk = v.readBlock blk

/-- The search for a block of the extent ends at the first node on its way whose length, as it
stands, reaches the block; that node has the same block of the disk. -/
def Leads (d : Nat) (t : ExNode) (block : Nat) (e : Extent) : Prop :=
  ∀ l, v.leafOf block d t = some l → ∀ j < l.count, l.leaf j = e →
    ∀ i, (Klib.way j 0 (l.count - 1)).find? (fun i => l.Reaches block i.toNat) = some i →
      (l.leaf i.toNat).mapped block = e.mapped block

variable {v} {d : Nat} {t : ExNode} {v' : Volume} {block : Nat}

theorem SameTree.refl : v.SameTree d t v := ⟨rfl, rfl, fun _ _ => rfl⟩

theorem SameTree.child (h : v.SameTree (d + 1) t v') {i : Nat} (hi : i < t.count) :
    v'.node (t.nextNode i) = v.node (t.nextNode i) ∧ v.SameTree d (v.node (t.nextNode i)) v' := by
  refine ⟨?_, h.blockSize, h.support64bit, fun blk hblk => h.index blk ⟨i, hi, .inr hblk⟩⟩
  unfold node
  rw [h.index _ ⟨i, hi, .inl rfl⟩, h.blockSize]

theorem SameTree.hasExtent (h : v.SameTree d t v') (e : Extent) : v'.HasExtent d t e ↔
    v.HasExtent d t e := by
  induction d generalizing t with
  | zero => rfl
  | succ d ih =>
    refine exists_congr fun i => and_congr_right fun hi => ?_
    rw [(h.child hi).1]
    exact ih (h.child hi).2

theorem SameTree.treeWf (h : v.SameTree d t v') : v'.TreeWf d t ↔ v.TreeWf d t := by
  induction d generalizing t with
  | zero => rfl
  | succ d ih =>
    refine and_congr_right fun _ => and_congr_right fun _ => and_congr_right fun _ => ?_
    refine forall_congr' fun i => forall_congr' fun hi => ?_
    rw [(h.child hi).1]
    refine and_congr (ih (h.child hi).2) (forall_congr' fun e => ?_)
    rw [(h.child hi).2.hasExtent e]

theorem SameTree.leafOf (h : v.SameTree d t v') : v'.leafOf block d t = v.leafOf block d t := by
  induction d generalizing t with
  | zero => rfl
  | succ d ih =>
    rw [Volume.leafOf, Volume.leafOf]
    refine Option.bind_congr fun i hi => ?_
    obtain ⟨hf, hl, -⟩ := Klib.binarySearch_sound hi
    obtain ⟨hnode, hsame⟩ := h.child (i := i.toNat) (by omega)
    rw [hnode]
    exact ih hsame

theorem SameTree.find (h : v.SameTree d t v') : v'.find d t block = v.find d t block := by
  rw [Volume.find, Volume.find, h.leafOf]

theorem leads_iff (h : v.TreeWf d t) {e : Extent} (he : v.HasExtent d t e) (hc : e.Contains block) :
    v.Leads d t block e ↔ v.find d t block = some (e.mapped block) := by
  have hfind : ∀ {l}, v.leafOf block d t = some l → ∀ {j}, j < l.count → l.leaf j = e →
      v.find d t block = ((Klib.way j 0 (l.count - 1)).find? (fun i => l.Reaches block i.toNat)).map
        fun i => (l.leaf i.toNat).mapped block := by
    rintro l hl j hj rfl
    obtain ⟨⟨-, -, hapart⟩, -⟩ := leafOf_wf h hl
    rw [Volume.find, hl, Option.bind_some, findIn, ExNode.Apart.search_way hapart hj hc]
  constructor
  · intro hleads
    obtain ⟨l, hl, j, hj, rfl⟩ := HasExtent.leafOf h he hc
    rw [hfind hl hj rfl]
    cases hway : (Klib.way j 0 (l.count - 1)).find? (fun i => l.Reaches block i.toNat) with
    | none =>
      have hmem := List.find?_eq_none.mp hway j (Klib.mem_way (by omega) (by omega))
      exact absurd (ExNode.reaches_of_contains hc) (by simpa using hmem)
    | some i =>
      rw [Option.map_some, hleads l hl j hj rfl i hway]
  · intro hsome l hl j hj hleaf i hway
    rw [hfind hl hj hleaf, hway] at hsome
    exact Option.some.inj hsome

end Volume

namespace Ext4Inode

variable (inode : Ext4Inode) (v : Volume) (d : Nat)

/-- A read gives the bytes of the file up to its size. -/
def ReadsBytes (off len : Nat) : Prop :=
  ∀ fuel, d < fuel → ∀ dst mem pins, ∃ bytes pins',
    inode.nodeRead v fuel dst off len mem pins = .ok (bytes.length, mem.store dst bytes, pins') ∧
    bytes.length = min len (inode.rFileSize - off) ∧
    ∀ i, ∀ h : i < bytes.length, inode.IsByte v d (off + i) bytes[i]

/-- The place is in an initialised extent to which the search leads. -/
def Stored (place : Nat) : Prop :=
  ∃ e, v.HasExtent d inode.root e ∧ e.initialised = true ∧
    e.Contains (place / v.blockSize) ∧ v.Leads d inode.root (place / v.blockSize) e

/-- The place is in none, and the search ends at an index block of the tree, which has a
zero there. -/
def Spared (place : Nat) : Prop :=
  (∀ e, v.HasExtent d inode.root e → e.initialised = true →
    ¬e.Contains (place / v.blockSize)) ∧ ∃ blk, v.find d inode.root (place / v.blockSize) =
      some blk ∧ v.Index d inode.root blk ∧ v.readBlock blk (place % v.blockSize) = 0

variable {inode v d} {v' : Volume}

theorem isByte_congr (h : v.SameTree d inode.root v') (place : Nat) (c : UInt8) :
    inode.IsByte v' d place c ↔
      (∀ e, v.HasExtent d inode.root e → e.initialised = true →
        e.Contains (place / v.blockSize) → c = v'.readBlock (e.mapped (place / v.blockSize))
        (place % v.blockSize)) ∧
      ((∀ e, v.HasExtent d inode.root e → e.initialised = true →
        ¬e.Contains (place / v.blockSize)) → c = 0) := by
  unfold IsByte
  simp only [h.hasExtent, h.blockSize]

theorem calSize_congr (h : v.SameTree d inode.root v') : inode.calSize v' = inode.calSize v := by
  unfold calSize
  rw [h.support64bit]

theorem spared_of_index (h : v.SameTree d inode.root v') {blk place : Nat}
    (hi : v.Index d inode.root blk) (hzero : v.readBlock blk (place % v.blockSize) = 0) :
      v'.readBlock blk (place % v.blockSize) = 0 := by
  rw [h.index blk hi, hzero]

/-- What a read does on a disk with the same tree. -/
theorem nodeRead_same (hext : inode.extents = true) (hwf : v.TreeWf d inode.root)
    (h : v.SameTree d inode.root v')
    {fuel : Nat} (hfuel : d < fuel) {off len : Nat} (hlen : off + len < 2 ^ 64) (dst : Nat)
    (mem : Mem)
    (pins : Pins) : ∃ bytes q,
      bytes = bytesFrom v' (v.find d inode.root) off (min len (inode.calSize v - off)) 0 ∧
      inode.nodeRead v' fuel dst off len mem pins = .ok (bytes.length, mem.store dst bytes, q) := by
  have hfinds := finds hext (h.treeWf.mpr hwf) hfuel
  rw [show v'.find d inode.root = v.find d inode.root from funext fun b => h.find] at hfinds
  obtain ⟨q, hrun, -⟩ := nodeRead_eq hfinds hlen dst mem pins rfl
  rw [calSize_congr h] at hrun
  exact ⟨_, q, rfl, hrun⟩

end Ext4Inode

/-- The disk with one block filled with a byte. -/
def Volume.fillBlock (v : Volume) (blk : Nat) (c : UInt8) : Volume :=
  { v with readBlock := Function.update v.readBlock blk fun _ => c }

theorem Volume.sameTree_fillBlock {v : Volume} {d : Nat} {t : ExNode} {blk : Nat}
    (h : ¬v.Index d t blk) (c : UInt8) : v.SameTree d t (v.fillBlock blk c) where
  blockSize := rfl
  support64bit := rfl
  index blk' hblk' := Function.update_of_ne (by rintro rfl; exact h hblk') _ _

open Ext4Inode in
/-- Whatever the blocks of the file hold, a read gives the bytes of the file if and only if it does
not go past 4 GiB without the 64-bit feature, and all its places are in initialised extents to which
the search leads, but for places where it ends at a zero of the tree itself. -/
theorem reads_sparse_iff (v : Volume) (inode : Ext4Inode) (hext : inode.extents = true) (d : Nat)
    (h : v.TreeWf d inode.root)
    (hdata : ∀ e b, v.HasExtent d inode.root e → e.initialised = true → e.Contains b →
      ¬v.Index d inode.root (e.mapped b)) (off len : Nat) (hlen : off + len < 2 ^ 64) :
    (∀ v', v.SameTree d inode.root v' → inode.ReadsBytes v' d off len) ↔
      (v.support64bit = true ∨ inode.sizeHigh = 0 ∨ len = 0 ∨
        off + len ≤ inode.sizeLo.toNat ∨ inode.rFileSize ≤ off) ∧
      ∀ place, off ≤ place → place < off + len → place < inode.rFileSize →
        inode.Stored v d place ∨ inode.Spared v d place := by
  rw [← sizes_agree_iff]
  have hle := calSize_le inode v
  constructor
  · intro hreads
    have hrun : ∀ v', v.SameTree d inode.root v' → ∃ bytes,
        bytes = bytesFrom v' (v.find d inode.root) off (min len (inode.calSize v - off)) 0 ∧
        bytes.length = min len (inode.rFileSize - off) ∧
        ∀ i, ∀ h : i < bytes.length, inode.IsByte v' d (off + i) bytes[i] := by
      intro v' hsame
      obtain ⟨bytes, q, hrun, hlength, hbytes⟩ :=
        hreads v' hsame (d + 1) (Nat.lt_succ_self d) 0 (fun _ => 0) fun _ => false
      obtain ⟨bytes', q', heq, hrun'⟩ :=
        nodeRead_same hext h hsame (Nat.lt_succ_self d) hlen 0 (fun _ => 0) fun _ => false
      rw [hrun] at hrun'
      have hsame_len : bytes.length = bytes'.length := congrArg Prod.fst (Except.ok.inj hrun')
      have hsame_mem := congrArg (fun r => r.2.1) (Except.ok.inj hrun')
      obtain rfl := Mem.store_inj hsame_len hsame_mem
      exact ⟨bytes, heq, hlength, hbytes⟩
    -- the byte at a place, on any such disk
    have hplace : ∀ place, off ≤ place → place < off + len → place < inode.rFileSize →
        ∃ blk, v.find d inode.root (place / v.blockSize) = some blk ∧
          ∀ v', v.SameTree d inode.root v' →
            inode.IsByte v' d place (v'.readBlock blk (place % v.blockSize)) := by
      intro place hlow hhigh hsize
      have hget : ∀ v', v.SameTree d inode.root v' → ∃ blk,
          v.find d inode.root (place / v.blockSize) = some blk ∧
          inode.IsByte v' d place (v'.readBlock blk (place % v.blockSize)) := by
        intro v' hsame
        obtain ⟨bytes, heq, hlength, hbytes⟩ := hrun v' hsame
        have hi : place - off < bytes.length := by omega
        have hbyte := hbytes (place - off) hi
        subst heq
        obtain ⟨blk, hblk, hget⟩ := bytesFrom_get hi
        rw [hget, hsame.blockSize] at hbyte
        rw [hsame.blockSize] at hblk
        rw [show off + (0 + (place - off)) = place by omega] at hblk hbyte
        rw [show off + (place - off) = place by omega] at hbyte
        exact ⟨blk, hblk, hbyte⟩
      obtain ⟨blk, hblk, -⟩ := hget v Volume.SameTree.refl
      refine ⟨blk, hblk, fun v' hsame => ?_⟩
      obtain ⟨blk', hblk', hbyte⟩ := hget v' hsame
      rwa [← Option.some.inj (hblk.symm.trans hblk')] at hbyte
    refine ⟨?_, fun place hlow hhigh hsize => ?_⟩
    · obtain ⟨bytes, heq, hlength, -⟩ := hrun v Volume.SameTree.refl
      have hmost : (bytesFrom v (v.find d inode.root) off (min len (inode.calSize v - off))
          0).length ≤ _ :=
        bytesFrom_length off (min len (inode.calSize v - off)) 0
      rw [← heq] at hmost
      omega
    · obtain ⟨blk, hblk, hbyte⟩ := hplace place hlow hhigh hsize
      by_cases hinit : ∃ e, v.HasExtent d inode.root e ∧ e.initialised = true ∧
        e.Contains (place / v.blockSize)
      · obtain ⟨e, he, hinit, hc⟩ := hinit
        refine .inl ⟨e, he, hinit, hc, (Volume.leads_iff h he hc).mpr ?_⟩
        rw [hblk]
        by_contra hne
        have hne : blk ≠ e.mapped (place / v.blockSize) := fun heq => hne (congrArg some heq)
        have hsame := Volume.sameTree_fillBlock (hdata e _ he hinit hc)
          (v.readBlock blk (place % v.blockSize) + 1)
        have hwrong := ((isByte_congr hsame _ _).mp (hbyte _ hsame)).1 e he hinit hc
        simp only [Volume.fillBlock, Function.update_self, Function.update_of_ne hne] at hwrong
        simp at hwrong
      · have hnone : ∀ e, v.HasExtent d inode.root e → e.initialised = true →
            ¬e.Contains (place / v.blockSize) :=
          fun e he hi hc => hinit ⟨e, he, hi, hc⟩
        have hindex : v.Index d inode.root blk := by
          by_contra hno
          have hsame := Volume.sameTree_fillBlock hno 1
          have hwrong := ((isByte_congr hsame _ _).mp (hbyte _ hsame)).2 hnone
          simp [Volume.fillBlock] at hwrong
        exact .inr ⟨hnone, blk, hblk, hindex, (hbyte v Volume.SameTree.refl).2 hnone⟩
  · rintro ⟨hsizes, hplaces⟩ v' hsame fuel hfuel dst mem pins
    obtain ⟨bytes, q, heq, hrun⟩ := nodeRead_same hext h hsame hfuel hlen dst mem pins
    have hgood : ∀ i, i < min len (inode.calSize v - off) → ∃ blk,
        v.find d inode.root ((off + i) / v.blockSize) = some blk ∧
        inode.IsByte v' d (off + i) (v'.readBlock blk ((off + i) % v.blockSize)) := by
      intro i hi
      rcases hplaces (off + i) (by omega) (by omega)
        (by omega) with ⟨e, he, hinit, hc, hleads⟩ | ⟨hnone, blk, hblk, hindex, hzero⟩
      · refine ⟨_, (Volume.leads_iff h he hc).mp hleads, ?_⟩
        have hwf' := hsame.treeWf.mpr h
        have hbyte := isByte_of_find (off + i) hwf' ((hsame.hasExtent e).mpr he) hinit
          (by rw [hsame.blockSize]; exact hc)
        rwa [hsame.blockSize] at hbyte
      · refine ⟨blk, hblk, (isByte_congr hsame _ _).mpr
          ⟨fun e he hinit hc => absurd hc (hnone e he hinit),
          fun _ => spared_of_index hsame hindex hzero⟩⟩
    have hlength : bytes.length = min len (inode.calSize v - off) := by
      rw [heq]
      refine bytesFrom_found fun j hj hj' => ?_
      rw [hsame.blockSize]
      obtain ⟨blk, hblk, -⟩ := hgood j (by omega)
      rw [hblk]
      rfl
    refine ⟨bytes, q, hrun, hlength.trans hsizes, fun i hi => ?_⟩
    obtain ⟨blk, hblk, hbyte⟩ := hgood i (by omega)
    subst heq
    obtain ⟨blk', hblk', hget⟩ := bytesFrom_get hi
    rw [Nat.zero_add, hsame.blockSize] at hblk' hget
    obtain rfl := Option.some.inj (hblk.symm.trans hblk')
    rw [hget]
    exact hbyte

theorem sample_index (blk : Nat) (h : sampleVolume.Index 1 sampleInode.root blk) : blk = 5 ∨
    blk = 6 := by
  have hnext : sampleInode.root.nextNode 0 = 5 ∧ sampleInode.root.nextNode 1 = 6 := by decide
  have hcount : sampleInode.root.count = 2 := rfl
  obtain ⟨i, hi, rfl | hblk⟩ := h
  · rcases show i = 0 ∨ i = 1 by omega with rfl | rfl
    · exact .inl hnext.1
    · exact .inr hnext.2
  · exact hblk.elim

theorem sample_data (e : Extent) (b : Nat) (he : sampleVolume.HasExtent 1 sampleInode.root e)
    (hc : e.Contains b) : ¬sampleVolume.Index 1 sampleInode.root (e.mapped b) := by
  intro hindex
  have hlow : 20 ≤ e.mapped b := by
    rcases sample_extents e he with rfl | rfl
    · exact Nat.le_add_right 20 _
    · exact Nat.le_trans (by decide) (Nat.le_add_right 30 _)
  rcases sample_index _ hindex with h | h <;> omega

theorem sample_stored {place : Nat} (h : place < 3072) :
    sampleInode.Stored sampleVolume 1 place := by
  have hb : place / sampleVolume.blockSize < 0 + 3 := by
    change place / 1024 < 0 + 3
    omega
  have he : sampleVolume.HasExtent 1 sampleInode.root ⟨0, 3, 20, true⟩ :=
    ⟨0, by decide, 0, by decide, by decide⟩
  have hc : Extent.Contains ⟨0, 3, 20, true⟩ (place / sampleVolume.blockSize) :=
    ⟨Nat.zero_le _, hb⟩
  refine ⟨_, he, rfl, hc, (Volume.leads_iff sampleVolume_wf he hc).mpr ?_⟩
  refine Volume.find_mapped sampleVolume_wf he hc fun e he' _ => ?_
  rcases sample_extents e he' with rfl | rfl <;> rfl

theorem reads_sparse_sample : sampleInode.ReadsBytes sampleVolume 1 1000 100 :=
  (reads_sparse_iff sampleVolume sampleInode rfl 1 sampleVolume_wf
    (fun e b he _ hc => sample_data e b he hc) 1000 100 (by decide)).mpr
    ⟨.inl rfl, fun place _ h _ => .inl (sample_stored (by omega))⟩ sampleVolume
    Volume.SameTree.refl

/-- The same blocks in a file of 12000 bytes: the blocks 3 to 9 are a hole. -/
def sparseInode : Ext4Inode := { sampleInode with sizeLo := 12000 }

/-- A read in the hole gives nothing. -/
theorem hole_unread : sparseInode.extents = true ∧ sampleVolume.TreeWf 1 sparseInode.root ∧
    sparseInode.rFileSize = 12000 ∧
    (sparseInode.nodeRead sampleVolume 2 0 3072 1 (fun _ => 0) fun _ => false).map Prod.fst =
    .ok 0 ∧
    ¬sparseInode.ReadsBytes sampleVolume 1 3072 1 := by
  have hrun : (sparseInode.nodeRead sampleVolume 2 0 3072 1 (fun _ => 0) fun _ => false).map
    Prod.fst = .ok 0 := rfl
  refine ⟨rfl, sampleVolume_wf, rfl, hrun, fun h => ?_⟩
  obtain ⟨bytes, q, hbytes, hlen, -⟩ := h 2 (by decide) 0 (fun _ => 0) fun _ => false
  rw [hbytes] at hrun
  have hzero : bytes.length = 0 := Except.ok.inj hrun
  have hone : min 1 (sparseInode.rFileSize - 3072) = 1 := by decide
  omega

end OsKernel.Fs.Ext4

import OsKernel.Fs.Ext4.ExtentTree

/-! The blocks of a file through the pointers of the inode and three levels of index blocks. -/

namespace OsKernel.Fs.Ext4

open Lib

namespace Volume

variable (v : Volume)

/-- The pointer at an entry of an index block. -/
def entry (blk i : Nat) : Nat := (v.readBlock blk).read (4 * i) 4

/-- The block at a place under an index block: each level takes one digit of the place, in
base `idxPerBlock`. -/
def under : Nat → Nat → Nat → Nat
  | 0, blk, _ => blk
  | level + 1, blk, place =>
    under level (v.entry blk (place / v.idxPerBlock ^ level)) (place % v.idxPerBlock ^ level)

end Volume

namespace Ext4Inode

variable (inode : Ext4Inode) (v : Volume)

/-- The block of the file in the classic mapping. -/
def classicBlock (block : Nat) : Nat :=
  if block < 12 then inode.blocksPtr block
  else if block < v.dIndirectBlockStart then v.under 1 (inode.blocksPtr 12) (block - 12)
  else if block < v.tIndirectBlockStart then v.under 2 (inode.blocksPtr 13)
    (block - v.dIndirectBlockStart)
  else v.under 3 (inode.blocksPtr 14) (block - v.tIndirectBlockStart)

/-- The block is read, with no index out of its block on the way. -/
def ReadsClassic (block : Nat) : Prop :=
  ∀ fuel pin pins, ∃ pins',
    inode.readLogicalBlock v fuel block pin pins = .ok (some (inode.classicBlock v block), pins')

end Ext4Inode

/-! ### A disk on which all pointers are 1 -/

/-- The bytes of words that are all 1. -/
def ones : Mem := fun a => if a % 4 = 0 then 1 else 0

def onesVolume (blockSize : Nat) : Volume := ⟨blockSize, true, fun _ => ones⟩

def onesInode : Ext4Inode := ⟨false, ones, 0, 0⟩

theorem read_ones (i : Nat) : ones.read (4 * i) 4 = 1 := by
  have hword : ∀ k < 4, ones (4 * i + k) = if k = 0 then 1 else 0 := by
    intro k hk
    unfold ones
    rw [Nat.mul_add_mod, Nat.mod_eq_of_lt hk]
  have hhead : ones (4 * i) = 1 := hword 0 (by decide)
  simp only [Mem.read, hhead, Nat.add_assoc, hword 1 (by decide), hword 2 (by decide),
    hword 3 (by decide)]
  rfl

def ReadResult.Fails (r : ReadResult) : Prop := ∃ e, r = .error e

theorem pointerAt_ones (size : Nat) (idx : Int) :
    pointerAt (onesVolume size) ones idx = .ok 1 ∨ ∃ e, pointerAt (onesVolume size) ones idx =
      .error e := by
  unfold pointerAt
  split
  · exact .inl (by rw [read_ones])
  · exact .inr ⟨_, rfl⟩

/-- The search of a block is the search of the block 1 below it, or fails on the way. -/
theorem searchThrough_fails {size : Nat} {idx : Int} {search : Int → Mem → Pins → ReadResult}
    (h : ∀ pins, (search 1 ones pins).Fails) (pins : Pins) :
    (searchThrough (onesVolume size) idx search ones pins).Fails := by
  unfold searchThrough
  rcases pointerAt_ones size idx with hp | ⟨e, hp⟩
  · rw [hp, ok_bind]
    obtain ⟨e, he⟩ := h (pins.pin 1)
    exact ⟨e, by simp only [onesVolume, Nat.cast_one, he, error_bind]⟩
  · exact ⟨e, by rw [hp, error_bind]⟩

variable {size block : Nat}

theorem searchDirect_fails (h : size / 4 < block) (pin : Bool) (pins : Pins) :
    (searchDirectBlock (onesVolume size) block 1 ones pin pins).Fails := by
  unfold searchDirectBlock pointerAt
  rw [if_neg (by simp only [onesVolume]; omega), error_bind]
  exact ⟨_, rfl⟩

theorem searchSindirect_fails (h : size / 4 < block) (pin : Bool) (pins : Pins) :
    (searchSindirectBlock (onesVolume size) block 1 ones pin pins).Fails :=
  searchThrough_fails (searchDirect_fails h pin) pins

theorem searchDindirect_fails (h : size / 4 < block) (pin : Bool) (pins : Pins) :
    (searchDindirectBlock (onesVolume size) block 1 ones pin pins).Fails :=
  searchThrough_fails (searchSindirect_fails h pin) pins

theorem searchTindirect_fails (h : size / 4 < block) (pin : Bool) (pins : Pins) :
    (searchTindirectBlock (onesVolume size) block 1 ones pin pins).Fails :=
  searchThrough_fails (searchDindirect_fails h pin) pins

theorem searchPointer_fails {search : Int → Mem → Pins → ReadResult}
    (h : ∀ pins, (search 1 ones pins).Fails) (i : Nat) (pins : Pins) :
    (onesInode.searchPointer (onesVolume size) i search pins).Fails := by
  unfold Ext4Inode.searchPointer
  rw [show onesInode.blocksPtr i = 1 from read_ones i]
  obtain ⟨e, he⟩ := h (pins.pin 1)
  exact ⟨e, by simp only [onesVolume, Nat.cast_one, he, error_bind]⟩

/-- Behind the single indirect blocks the number of the block is compared with pointers. -/
theorem readIndirect_fails (h : 12 + size / 4 < block) (pin : Bool) (pins : Pins) :
    (onesInode.readIndirect (onesVolume size) block pin pins).Fails := by
  have hd : (onesVolume size).dIndirectBlockStart = 12 + size / 4 := rfl
  have hbehind : size / 4 < block := by omega
  unfold Ext4Inode.readIndirect
  rw [if_neg (by omega)]
  split
  · exact searchPointer_fails (searchTindirect_fails hbehind pin) 14 pins
  · rw [if_pos (by omega)]
    exact searchPointer_fails (searchDindirect_fails hbehind pin) 13 pins

/-- `read_logical_block` follows the classic mapping for the direct blocks, and for no others. -/
theorem reads_classic_iff (size block : Nat) :
    (∀ (v : Volume) (inode : Ext4Inode), v.blockSize = size → inode.extents = false →
      inode.ReadsClassic v block) ↔ block < 12 := by
  constructor
  · intro h
    by_contra hge
    obtain ⟨pins, hread⟩ := h (onesVolume size) onesInode rfl rfl 0 false fun _ => false
    change onesInode.readIndirect (onesVolume size) block false (fun _ => false) = _ at hread
    by_cases hsingle : block ≤ 12 + size / 4
    · have ht : 12 + size / 4 ≤ (onesVolume size).tIndirectBlockStart := Nat.le_add_right _ _
      have hd : (onesVolume size).dIndirectBlockStart = 12 + size / 4 := rfl
      rw [Ext4Inode.readIndirect, if_neg hge, if_neg (by omega), if_neg (by omega),
        if_neg (by omega)] at hread
      cases congrArg Prod.fst (Except.ok.inj hread)
    · have hbehind : 12 + size / 4 < block := by omega
      obtain ⟨e, he⟩ := readIndirect_fails hbehind false fun _ => false
      rw [he] at hread
      cases hread
  · intro hlt v inode _ hext fuel pin pins
    refine ⟨pins.read (inode.blocksPtr block) pin, ?_⟩
    rw [Ext4Inode.readLogicalBlock, hext, if_neg (by decide), Ext4Inode.readIndirect, if_pos hlt,
      Ext4Inode.classicBlock, if_pos hlt]

/-- An inode whose single indirect block is 100, and the first entry of that block is 200. -/
def indirectInode : Ext4Inode := ⟨false, bytesOf (List.replicate 48 0 ++ [100]), 0, 0⟩

def indirectVolume : Volume :=
  ⟨1024, true, fun blk => if blk = 100 then bytesOf [200] else fun _ => 0⟩

/-- The first block behind the direct ones is not found. -/
theorem single_indirect_unread : indirectInode.classicBlock indirectVolume 12 = 200 ∧
    indirectInode.readLogicalBlock indirectVolume 0 12 false (fun _ => false) =
      .ok (none, fun _ => false) ∧ ¬indirectInode.ReadsClassic indirectVolume 12 := by
  have hnone : indirectInode.readLogicalBlock indirectVolume 0 12 false (fun _ => false) =
    .ok (none, fun _ => false) := rfl
  refine ⟨by decide, hnone, fun h => ?_⟩
  obtain ⟨pins, hread⟩ := h 0 false fun _ => false
  rw [hnone] at hread
  cases congrArg Prod.fst (Except.ok.inj hread)

end OsKernel.Fs.Ext4

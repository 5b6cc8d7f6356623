import Mathlib.Tactic.Ring
import OsKernel.Klib.Fault
import OsKernel.Lib.ByteMemory

/-! Where `Ext4FS` finds an inode: the group descriptors that `init` reads, and `read_inode`.  The
disk is one memory, of which a block is a stretch. -/

namespace OsKernel.Fs.Ext4

open Lib

/-- What a superblock says about the places of descriptors and inodes. -/
structure Geometry where
  blockSize : Nat
  support64bit : Bool
  inodeSize : Nat
  inodesPerGroup : Nat
  blockCount : Nat
  blocksPerGroup : Nat
  blockSize_eq : blockSize = 1024 ∨ blockSize = 2048 ∨ blockSize = 4096
  inodeSize_eq : ∃ k, inodeSize = 128 * 2 ^ k
  inodeSize_le : inodeSize ≤ blockSize
  inodesPerGroup_pos : 0 < inodesPerGroup
  blocksPerGroup_pos : 0 < blocksPerGroup
  groups_lt : (blockCount + blocksPerGroup - 1) / blocksPerGroup < 2 ^ 31

namespace Geometry

variable (g : Geometry)

/-! ### The source -/

/-- `_cache_group_count`. -/
def cacheGroupCount : Nat := (g.blockCount + g.blocksPerGroup - 1) / g.blocksPerGroup

/-- `desc_per_block`, of descriptors of 64 bytes. -/
def descPerBlock : Nat := g.blockSize / 64

/-- The block and the offset of each descriptor that the loop of `init` reads, with `rest` turns to
go from the group `i` on, `cnt` blocks requested, and the buffer of the block `pblk`. -/
def gdtLoop : Nat → Nat → Nat → Nat → List (Nat × Nat)
  | 0, _, _, _ => []
  | rest + 1, i, cnt, pblk =>
    let off := i % g.descPerBlock
    if off = 0 then (1 + cnt, off * 64) :: gdtLoop rest (i + 1) (cnt + 1) (1 + cnt)
    else (pblk, off * 64) :: gdtLoop rest (i + 1) cnt pblk

/-- An `Ext4BlockGroup`, with the place on the disk of the descriptor that it holds a copy of. -/
structure BlockGroup where
  place : Nat
  inodeTableBlock : Nat

/-- The constructor. -/
def blockGroup (disk : Mem) (at_ : Nat × Nat) : BlockGroup :=
  let place := at_.1 * g.blockSize + at_.2
  let lo := disk.read (place + 8) 4
  ⟨place, if g.support64bit then lo + disk.read (place + 40) 4 * 2 ^ 32 else lo⟩

/-- `_bgs`. -/
def bgs (disk : Mem) : List BlockGroup :=
  (g.gdtLoop g.cacheGroupCount 0 0 0).map (g.blockGroup disk)

/-- `Ext4BlockGroup::read_inode`: the 160 bytes of an `Ext4Inode`, from records of 256 bytes. -/
def BlockGroup.readInode (bg : BlockGroup) (disk : Mem) (index : Nat) : Except Fault (List UInt8) :=
  let inodePerBlock := g.blockSize / g.inodeSize
  let blockNo := bg.inodeTableBlock + index / inodePerBlock
  let blockIdx := index % inodePerBlock
  if blockIdx * 256 + 160 ≤
    g.blockSize then .ok (disk.load (blockNo * g.blockSize + blockIdx * 256) 160)
  else .error (.undefined "read past the block")

/-- `Ext4FS::read_inode`. -/
def readInode (disk : Mem) (inodeNo : Nat) : Except Fault (List UInt8) :=
  let bg := (inodeNo - 1) / g.inodesPerGroup
  let idx := (inodeNo - 1) % g.inodesPerGroup
  match (g.bgs disk)[bg]? with
  | some group => group.readInode g disk idx
  | none => .error (.undefined "index past the block groups")

/-! ### The format -/

/-- The block of the superblock: the boot sector has the block 0 for itself where blocks
are small. -/
def firstDataBlock : Nat := if g.blockSize = 1024 then 1 else 0

def groupCount : Nat := (g.blockCount - g.firstDataBlock + g.blocksPerGroup - 1) / g.blocksPerGroup

def descSize : Nat := if g.support64bit then 64 else 32

/-- The descriptors follow the block of the superblock. -/
def descPlace (group : Nat) : Nat := (g.firstDataBlock + 1) * g.blockSize + group * g.descSize

/-- The first byte of the inode table of a group. -/
def inodeTable (disk : Mem) (group : Nat) : Nat :=
  let lo := disk.read (g.descPlace group + 8) 4
  (if g.support64bit then lo + disk.read (g.descPlace group + 40) 4 * 2 ^ 32 else lo) * g.blockSize

/-- The descriptor of the group comes from its place, and the inode from its record in the table of
the group. -/
def ReadsInode (disk : Mem) (inodeNo : Nat) : Prop :=
  let group := (inodeNo - 1) / g.inodesPerGroup
  let record := g.inodeTable disk group + (inodeNo - 1) % g.inodesPerGroup * g.inodeSize
  ((g.bgs disk)[group]?).map BlockGroup.place = some (g.descPlace group) ∧
    ∃ bytes, g.readInode disk inodeNo = .ok bytes ∧
      bytes.take g.inodeSize = disk.load record (min 160 g.inodeSize)

variable {g}

theorem descPerBlock_pos : 0 < g.descPerBlock := by
  have h := g.blockSize_eq
  unfold descPerBlock
  omega

theorem next_div_mod {d : Nat} (hd : 0 < d) (i : Nat) :
    (i % d + 1 = d ∧ (i + 1) / d = i / d + 1 ∧ (i + 1) % d = 0) ∨
      (i % d + 1 < d ∧ (i + 1) / d = i / d ∧ (i + 1) % d = i % d + 1) := by
  have hlt := Nat.mod_lt i hd
  have hsum := Nat.div_add_mod i d
  rcases Nat.eq_or_lt_of_le (Nat.succ_le_of_lt hlt) with he | hne
  · have hmul : d * (i / d + 1) = d * (i / d) + d := Nat.mul_succ d (i / d)
    exact .inl ⟨he, (Nat.div_mod_unique hd).mpr ⟨by omega, hd⟩⟩
  · exact .inr ⟨hne, (Nat.div_mod_unique hd).mpr ⟨by omega, hne⟩⟩

/-- The descriptors are read in order, 64 bytes each, from the block 1 on. -/
theorem gdtLoop_get {rest i cnt pblk : Nat}
    (hfirst : i % g.descPerBlock = 0 → cnt = i / g.descPerBlock)
    (hmid : i % g.descPerBlock ≠ 0 → cnt = i / g.descPerBlock + 1 ∧
      pblk = 1 + i / g.descPerBlock) {j : Nat}
    (hj : j < rest) : (g.gdtLoop rest i cnt pblk)[j]? =
      some (1 + (i + j) / g.descPerBlock, (i + j) % g.descPerBlock * 64) := by
  induction rest generalizing i cnt pblk j with
  | zero => omega
  | succ rest ih =>
    have hnext := next_div_mod g.descPerBlock_pos i
    rw [gdtLoop]
    split
    · next hzero =>
      cases j with
      | zero => rw [List.getElem?_cons_zero, Nat.add_zero, hfirst hzero]
      | succ j =>
        rw [List.getElem?_cons_succ, ih (fun h => by have := hfirst hzero; omega)
          (fun h => by have := hfirst hzero; omega) (Nat.lt_of_succ_lt_succ hj), Nat.add_right_comm,
          Nat.add_assoc]
    · next hne =>
      cases j with
      | zero => rw [List.getElem?_cons_zero, Nat.add_zero, (hmid hne).2]
      | succ j =>
        rw [List.getElem?_cons_succ, ih (fun h => by have := hmid hne; omega)
          (fun h => by have := hmid hne; omega) (Nat.lt_of_succ_lt_succ hj), Nat.add_right_comm,
          Nat.add_assoc]

/-- The place on the disk of the descriptor that `_bgs` has for a group. -/
theorem bgs_get (disk : Mem) {group : Nat} (h : group < g.cacheGroupCount) :
    (g.bgs disk)[group]? = some (g.blockGroup disk
      (1 + group / g.descPerBlock, group % g.descPerBlock * 64)) := by
  have hget : (g.gdtLoop g.cacheGroupCount 0 0 0)[group]? =
      some (1 + (0 + group) / g.descPerBlock, (0 + group) % g.descPerBlock * 64) := gdtLoop_get
    (fun _ => (Nat.zero_div _).symm) (fun h => absurd (Nat.zero_mod _) h) h
  rw [Nat.zero_add] at hget
  rw [bgs, List.getElem?_map, hget, Option.map_some]

theorem place_eq (group : Nat) (disk : Mem) :
    (g.blockGroup disk (1 + group / g.descPerBlock, group % g.descPerBlock * 64)).place =
      g.blockSize + group * 64 := by
  have hsize : g.blockSize = g.descPerBlock * 64 := by
    have h := g.blockSize_eq
    unfold descPerBlock
    omega
  have hsum := Nat.div_add_mod group g.descPerBlock
  simp only [blockGroup]
  generalize g.descPerBlock = d at hsize hsum
  rw [hsize]
  calc (1 + group / d) * (d * 64) + group % d * 64 = d * 64 + (d * (group / d) + group % d) *
    64 := by ring
    _ = d * 64 + group * 64 := by rw [hsum]

theorem groupCount_le : g.groupCount ≤ g.cacheGroupCount :=
  Nat.div_le_div_right (by omega)

/-- The place from which the descriptor of a group comes is the right one. -/
theorem place_right_iff (group : Nat) : g.blockSize + group * 64 = g.descPlace group ↔
    (g.blockSize ≠ 1024 ∧ (g.support64bit = true ∨ group = 0)) ∨
      (g.blockSize = 1024 ∧ g.support64bit = false ∧ group = 32) := by
  unfold descPlace firstDataBlock descSize
  by_cases hsmall : g.blockSize = 1024
  · simp only [hsmall, if_true, ne_eq, not_true_eq_false, false_and, false_or, true_and]
    cases g.support64bit with
    | true =>
      simp only [if_true, reduceCtorEq, false_and, iff_false]
      omega
    | false =>
      simp only [Bool.false_eq_true, if_false, true_and]
      omega
  · simp only [hsmall, if_false, ne_eq, not_false_eq_true, true_and, false_and, or_false]
    cases g.support64bit with
    | true => simp only [if_true, true_or, Nat.zero_add, Nat.one_mul]
    | false =>
      simp only [Bool.false_eq_true, if_false, false_or]
      omega

theorem inodePerBlock_mul : g.blockSize / g.inodeSize * g.inodeSize = g.blockSize := by
  obtain ⟨k, hk⟩ := g.inodeSize_eq
  have hle := g.inodeSize_le
  have hblock : ∃ j, g.blockSize = 128 * 2 ^ j := by
    rcases g.blockSize_eq with h | h | h
    · exact ⟨3, h⟩
    · exact ⟨4, h⟩
    · exact ⟨5, h⟩
  obtain ⟨j, hj⟩ := hblock
  have hkj : k ≤ j := by
    rw [hk, hj] at hle
    exact (Nat.pow_le_pow_iff_right (by decide)).mp (Nat.le_of_mul_le_mul_left hle (by decide))
  rw [hk, hj]
  exact Nat.div_mul_cancel (Nat.mul_dvd_mul_left 128 (Nat.pow_dvd_pow 2 hkj))

theorem inodeSize_pos : 0 < g.inodeSize := by
  obtain ⟨k, hk⟩ := g.inodeSize_eq
  rw [hk]
  exact Nat.mul_pos (by decide) (Nat.two_pow_pos k)

theorem inodePerBlock_pos : 0 < g.blockSize / g.inodeSize :=
  Nat.div_pos g.inodeSize_le inodeSize_pos

/-- The record of an inode, as a block of the table and a place in the block. -/
theorem record_eq (idx : Nat) : idx * g.inodeSize =
    idx / (g.blockSize / g.inodeSize) * g.blockSize + idx % (g.blockSize / g.inodeSize) *
      g.inodeSize := by
  have hsum := Nat.div_add_mod idx (g.blockSize / g.inodeSize)
  have hmul := g.inodePerBlock_mul
  generalize g.blockSize / g.inodeSize = n at hsum hmul ⊢
  calc idx * g.inodeSize = (n * (idx / n) + idx % n) * g.inodeSize := by rw [hsum]
    _ = idx / n * (n * g.inodeSize) + idx % n * g.inodeSize := by ring
    _ = idx / n * g.blockSize + idx % n * g.inodeSize := by rw [hmul]

/-- The table that is used, where the descriptor comes from its place. -/
theorem table_eq {disk : Mem} {group : Nat} {at_ : Nat × Nat}
    (h : (g.blockGroup disk at_).place = g.descPlace group) :
    (g.blockGroup disk at_).inodeTableBlock * g.blockSize = g.inodeTable disk group := by
  simp only [blockGroup] at h ⊢
  simp only [inodeTable, h]

theorem load_head (m : Mem) (a : Nat) {n : Nat} (h : 0 < n) : (m.load a n)[0]? = some (m a) := by
  simp [Mem.load, h]

theorem take_load (m : Mem) (a n k : Nat) : (m.load a n).take k = m.load a (min n k) := by
  rw [Mem.load, ← List.map_take, List.take_range, Nat.min_comm, Mem.load]

/-- A record of 256 bytes fits in the block. -/
theorem record_fits {idx : Nat} (h : g.inodeSize = 256 ∨ idx % (g.blockSize / g.inodeSize) = 0) :
    idx % (g.blockSize / g.inodeSize) * 256 + 160 ≤ g.blockSize := by
  rcases h with hsize | hmod
  · have hlt := Nat.mod_lt idx g.inodePerBlock_pos
    have hmul := g.inodePerBlock_mul
    rw [hsize] at hlt hmul ⊢
    omega
  · have hblock := g.blockSize_eq
    rw [hmod]
    omega

/-- The block behind that of a descriptor, as the number of a block and as a place. -/
theorem behind_lt {group : Nat} (h : group < g.cacheGroupCount) :
    g.descPlace group / g.blockSize + 2 < 2 ^ 32 := by
  have hgroups := g.groups_lt
  have hblock := g.blockSize_eq
  have hplace : g.descPlace group ≤ 2 * g.blockSize + group * 64 := by
    unfold descPlace firstDataBlock descSize
    split <;> split <;> omega
  have hdiv : g.descPlace group / g.blockSize ≤ g.descPlace group / 1024 :=
    Nat.div_le_div_left (by omega) (by decide)
  unfold cacheGroupCount at h
  omega

theorem behind_le (group : Nat) :
    g.descPlace group + 48 ≤ (g.descPlace group / g.blockSize + 2) * g.blockSize := by
  have hblock := g.blockSize_eq
  have hdiv := Nat.lt_div_mul_add (a := g.descPlace group) (b := g.blockSize) (by omega)
  rw [Nat.add_mul]
  omega

/-- A disk with the table of the group in the block `table`, and a byte set behind
the descriptor. -/
def diskWith (g : Geometry) (group table x : Nat) : Mem :=
  Mem.write (fun y => if y = x then 1 else 0) (g.descPlace group + 8) 4 table

theorem diskWith_table {group table x : Nat} (htable : table < 2 ^ 32)
    (hx : g.descPlace group + 48 ≤ x) : g.inodeTable (g.diskWith group table x) group =
      table * g.blockSize := by
  have hlo : (g.diskWith group table x).read (g.descPlace group + 8) 4 = table := by
    rw [diskWith, Mem.read_write_same]
    exact Nat.mod_eq_of_lt htable
  have hhi : (g.diskWith group table x).read (g.descPlace group + 40) 4 = 0 := by
    rw [diskWith, Mem.read_write_apart (by omega)]
    simp only [Mem.read]
    rw [if_neg (by omega), if_neg (by omega), if_neg (by omega), if_neg (by omega)]
    rfl
  rw [inodeTable, hlo, hhi, Nat.zero_mul, Nat.add_zero, ite_self]

theorem diskWith_apply {group table x y : Nat} (hy : g.descPlace group + 48 ≤ y) :
    g.diskWith group table x y = if y = x then 1 else 0 := by
  rw [diskWith, Mem.write_outside (by omega)]

end Geometry

section

open Fs.Ext4.Geometry

/-- Whatever the disk holds, an inode is read from its record if and only if the descriptor table is
where the descriptors of 64 bytes from block 1 on put the group, and the record is where one of 256
bytes is. -/
theorem reads_inode_iff (g : Geometry) (n : Nat) (hn : 1 ≤ n)
    (hle : n ≤ g.groupCount * g.inodesPerGroup) :
    (∀ disk, g.ReadsInode disk n) ↔
      ((g.blockSize ≠ 1024 ∧ (g.support64bit = true ∨ (n - 1) / g.inodesPerGroup = 0)) ∨
        (g.blockSize = 1024 ∧ g.support64bit = false ∧ (n - 1) / g.inodesPerGroup = 32)) ∧
      (g.inodeSize = 256 ∨ (n - 1) % g.inodesPerGroup % (g.blockSize / g.inodeSize) = 0) := by
  have hgroup : (n - 1) / g.inodesPerGroup < g.cacheGroupCount := by
    refine Nat.lt_of_lt_of_le (Nat.div_lt_of_lt_mul ?_) groupCount_le
    rw [Nat.mul_comm]
    omega
  rw [← place_right_iff]
  generalize hg : (n - 1) / g.inodesPerGroup = group at hgroup ⊢
  generalize hi : (n - 1) % g.inodesPerGroup = idx
  have hrun : ∀ disk, g.readInode disk n = BlockGroup.readInode g (g.blockGroup disk
      (1 + group / g.descPerBlock, group % g.descPerBlock * 64)) disk idx := by
    intro disk
    rw [readInode, hg, hi, bgs_get disk hgroup]
  have hplace : ∀ disk, (((g.bgs disk)[group]?).map BlockGroup.place =
      some (g.descPlace group) ↔ g.blockSize + group * 64 = g.descPlace group) := by
    intro disk
    rw [bgs_get disk hgroup, Option.map_some, place_eq]
    exact Option.some_inj
  have htable := fun disk (h : g.blockSize + group * 64 = g.descPlace group) =>
    table_eq ((place_eq group disk).trans h)
  have hpos := g.inodePerBlock_pos
  have hmul := g.inodePerBlock_mul
  have hrecord := g.record_eq idx
  have hlt := Nat.mod_lt idx hpos
  simp only [ReadsInode, hg, hi, hplace, hrun]
  constructor
  · intro h
    refine ⟨(h fun _ => 0).1, ?_⟩
    by_contra hcond
    obtain ⟨hsize, hmod⟩ := not_or.mp hcond
    -- a table behind the descriptors, and a byte at the head of the record
    have hbehind := behind_le (g := g) group
    generalize hT : g.descPlace group / g.blockSize + 2 = T at hbehind
    have hT' : T < 2 ^ 32 := hT ▸ behind_lt hgroup
    have hx : g.descPlace group + 48 ≤ T * g.blockSize + idx * g.inodeSize := by omega
    obtain ⟨hright, bytes, hread, htake⟩ :=
      h (g.diskWith group T (T * g.blockSize + idx * g.inodeSize))
    rw [BlockGroup.readInode] at hread
    split at hread
    · obtain rfl := Except.ok.inj hread
      have hhead := congrArg (fun l : List UInt8 => l[0]?) htake
      rw [List.getElem?_take_of_lt inodeSize_pos, load_head _ _ (by decide),
        load_head _ _ (Nat.lt_min.mpr ⟨by decide, inodeSize_pos⟩), Nat.add_mul, htable _ hright,
        diskWith_table hT' hx, diskWith_apply hx, if_pos rfl, diskWith_apply (by omega),
        Nat.add_assoc,
        hrecord] at hhead
      have hne : idx % (g.blockSize / g.inodeSize) * 256 ≠ idx % (g.blockSize / g.inodeSize) *
          g.inodeSize :=
        fun he => hsize (Nat.eq_of_mul_eq_mul_left (Nat.pos_of_ne_zero hmod) he).symm
      rw [if_neg (by omega)] at hhead
      cases Option.some.inj hhead
    · cases hread
  · rintro ⟨hright, hcond⟩ disk
    refine ⟨hright, disk.load (g.inodeTable disk group + idx * g.inodeSize) 160, ?_, ?_⟩
    · have hsame : idx % (g.blockSize / g.inodeSize) * 256 =
          idx % (g.blockSize / g.inodeSize) * g.inodeSize := by
        rcases hcond with hsize | hmod
        · rw [hsize]
        · rw [hmod, Nat.zero_mul, Nat.zero_mul]
      rw [BlockGroup.readInode, if_pos (record_fits hcond), hsame, Nat.add_mul, htable disk hright,
        Nat.add_assoc, ← hrecord]
    · exact take_load _ _ _ _

/-- Two groups of blocks of 4096 bytes. -/
def sampleGeometry : Geometry where
  blockSize := 4096
  support64bit := true
  inodeSize := 256
  inodesPerGroup := 8192
  blockCount := 65536
  blocksPerGroup := 32768
  blockSize_eq := .inr (.inr rfl)
  inodeSize_eq := ⟨1, rfl⟩
  inodeSize_le := by decide
  inodesPerGroup_pos := by decide
  blocksPerGroup_pos := by decide
  groups_lt := by decide

/-- The table of the second group is block 100, and the record of its eighth inode starts with
a one. -/
theorem reads_inode_sample : ∃ disk : Mem, sampleGeometry.inodeTable disk 1 = 409600 ∧
    disk (409600 + 7 * 256) = 1 ∧ sampleGeometry.ReadsInode disk 8200 :=
  ⟨sampleGeometry.diskWith 1 100 (409600 + 7 * 256), diskWith_table (by decide) (by decide),
    (diskWith_apply (by decide)).trans (if_pos rfl),
    (reads_inode_iff sampleGeometry 8200 (by decide) (by decide)).mpr
      ⟨.inl ⟨by decide, .inl rfl⟩, .inl rfl⟩ _⟩

end

/-- One group of blocks of 1024 bytes. -/
def smallGeometry : Geometry where
  blockSize := 1024
  support64bit := true
  inodeSize := 256
  inodesPerGroup := 2048
  blockCount := 8192
  blocksPerGroup := 8192
  blockSize_eq := .inl rfl
  inodeSize_eq := ⟨1, rfl⟩
  inodeSize_le := by decide
  inodesPerGroup_pos := by decide
  blocksPerGroup_pos := by decide
  groups_lt := by decide

/-- The root inode is looked up through the superblock, taken for a group descriptor. -/
theorem root_inode_misread : ((smallGeometry.bgs fun _ => 0)[0]?).map Geometry.BlockGroup.place =
    some 1024 ∧ smallGeometry.descPlace 0 = 2048 ∧
      ¬smallGeometry.ReadsInode (fun _ => 0) 2 := by
  have hplace : ((smallGeometry.bgs fun _ => 0)[0]?).map Geometry.BlockGroup.place = some 1024 :=
    rfl
  refine ⟨hplace, rfl, fun h => ?_⟩
  have hright : ((smallGeometry.bgs fun _ => 0)[0]?).map Geometry.BlockGroup.place = some 2048 :=
    h.1
  rw [hplace] at hright
  cases hright

end OsKernel.Fs.Ext4

import Mathlib.Data.List.GetD
import OsKernel.Fs.Ext4.Htree

/-! What a hash tree is for: a live name is in the leaf that its hash selects, so that it can be
found by one path down the tree.  `lookup` against a search of all leaves. -/

namespace OsKernel.Fs.Ext4

open Lib

/-! ### Well-formed directories -/

/-- The entries of a block from an offset on, up to its end. -/
inductive Chain (size : Nat) (m : Mem) : Nat → List DirEntry → Prop
  | nil : Chain size m size []
  | cons {off : Nat} {es : List DirEntry} :
      8 + (direntAt m off).name.length ≤ (direntAt m off).recLen →
      ((direntAt m off).inode ≠ 0 → (direntAt m off).name ≠ [] ∧
        0 ∉ (direntAt m off).name) →
      off + (direntAt m off).recLen ≤ size →
      Chain size m (off + (direntAt m off).recLen) es → Chain size m off (direntAt m off :: es)

namespace DxTable

variable (t : DxTable)

/-- The number of entries behind the first slot. -/
def entryCount : Nat := t.count - 1

/-- The blocks of all slots. -/
def slots : List Nat := t.block :: (List.range t.entryCount).map t.entryBlock

/-- The first slot has the block for the smallest hashes; an entry has the block for the hashes from
its own on. -/
def Selects (hash blk : Nat) : Prop :=
  (∃ i < t.entryCount, t.hash i ≤ hash ∧ (i + 1 < t.entryCount → hash < t.hash (i + 1)) ∧
      blk = t.entryBlock i) ∨
    ((∀ i < t.entryCount, hash < t.hash i) ∧ blk = t.block)

/-- The table fits into its block, and is sorted. -/
structure WellFormed (size : Nat) : Prop where
  count_pos : 1 ≤ t.count
  fits : t.base + 8 * t.entryCount ≤ size
  sorted : ∀ {i j}, i ≤ j → j < t.entryCount → t.hash i ≤ t.hash j

/-- The hash is not below that of the first entry. -/
def Indexed (hash : Nat) : Prop := 0 < t.entryCount ∧ t.hash 0 ≤ hash

end DxTable

namespace Ext4IndexNode

variable {ι : Type} (d : Ext4IndexNode ι)

/-- The bytes of a logical block. -/
def block (blk : Nat) : Mem := (d.readLogicalBlock blk).getD fun _ => 0

/-- The leaves under a table with `lvl` levels of nodes below it. -/
def leaves : Nat → DxTable → List Nat
  | 0, t => t.slots
  | lvl + 1, t => t.slots.flatMap fun b => leaves lvl (dxNode (d.block b))

/-- The leaf for a hash. -/
def SelectsLeaf (hash : Nat) : Nat → DxTable → Nat → Prop
  | 0, t, leaf => t.Selects hash leaf
  | lvl + 1, t, leaf => ∃ b, t.Selects hash b ∧ SelectsLeaf hash lvl (dxNode (d.block b)) leaf

/-- The tables of all levels are well formed, and their blocks can be read. -/
def TablesWf : Nat → DxTable → Prop
  | 0, t => t.WellFormed d.blockSize ∧ ∀ b ∈ t.slots, (d.readLogicalBlock b).isSome
  | lvl + 1, t => t.WellFormed d.blockSize ∧ ∀ b ∈ t.slots, (d.readLogicalBlock b).isSome ∧
      TablesWf lvl (dxNode (d.block b))

/-- On the way down to the leaf for a hash, no table has the hash below that of its first entry. -/
def AllIndexed (hash : Nat) : Nat → DxTable → Prop
  | 0, t => t.Indexed hash
  | lvl + 1, t =>
    t.Indexed hash ∧ ∀ b, t.Selects hash b → AllIndexed hash lvl (dxNode (d.block b))

/-- The table of the root, and the levels of nodes below it. -/
def root : DxTable := dxRoot (d.block 0)

def levels : Nat := indirectLevels (d.block 0)

def leafBlocks : List Nat := d.leaves d.levels d.root

/-- The hash of a name, as the directory was built. -/
def hashOf (name : Name) : Option Nat := d.htreeHash (hashVersion (d.block 0)) name

end Ext4IndexNode

/-- A directory whose hash tree is well formed, with the entries of its leaves. -/
structure Htree {ι : Type} (d : Ext4IndexNode ι) where
  isDir : d.mode &&& 0x4000 ≠ 0
  isIndex : d.index = true
  entries : Nat → List DirEntry
  root : (d.readLogicalBlock 0).isSome
  tables : d.TablesWf d.levels d.root
  chain : ∀ leaf ∈ d.leafBlocks, Chain d.blockSize (d.block leaf) 0 (entries leaf)
  placed : ∀ leaf ∈ d.leafBlocks, ∀ e ∈ entries leaf, e.inode ≠ 0 →
    ∃ hash, d.hashOf e.name = some hash ∧ d.SelectsLeaf hash d.levels d.root leaf
  unique : ∀ leaf ∈ d.leafBlocks, ∀ e ∈ entries leaf, ∀ leaf' ∈ d.leafBlocks,
    ∀ e' ∈ entries leaf', e.inode ≠ 0 → e'.inode ≠ 0 → e.name = e'.name →
    e.inode = e'.inode
  names : ∀ leaf ∈ d.leafBlocks, ∀ e ∈ entries leaf, e.inode ≠ 0 →
    e.name ≠ nameDot ∧ e.name ≠ nameDotdot
  inodes : ∀ leaf ∈ d.leafBlocks, ∀ e ∈ entries leaf, e.inode ≠ 0 →
    (d.readInode e.inode).isSome

namespace Htree

variable {ι : Type} {d : Ext4IndexNode ι} (T : Htree d)

/-- The live entries, leaf by leaf. -/
def live : List DirEntry := (d.leafBlocks.flatMap T.entries).filter (·.inode ≠ 0)

/-- The search of all leaves. -/
def search (name : Name) : Option (SubNode ι) :=
  (T.live.find? (·.name = name)).bind fun e => d.subNode e.inode

/-- The leaf for a name, where no table on the way has the hash of the name below its
first entry. -/
def Way (_ : Htree d) (name : Name) (leaf : Nat) : Prop :=
  ∃ hash, d.hashOf name = some hash ∧ d.AllIndexed hash d.levels d.root ∧
    d.SelectsLeaf hash d.levels d.root leaf

/-- The name has a live entry, and all entries before it are live. -/
def Within (es : List DirEntry) (name : Name) : Prop :=
  ∃ pre e post, es = pre ++ e :: post ∧ e.inode ≠ 0 ∧ e.name = name ∧ ∀ e' ∈ pre,
    e'.inode ≠ 0

/-- When `lookup` finds what there is.  For a live name, the way down must be indexed and no dead
entry may stand before it in its leaf.  For another name, the scan of a leaf must meet a dead entry
before the end of the block. -/
def Reached (name : Name) : Prop :=
  ((∃ e ∈ T.live, e.name = name) → ∃ leaf, T.Way name leaf ∧
    Within (T.entries leaf) name) ∧
      ((∀ e ∈ T.live, e.name ≠ name) → name ≠ nameDot ∧ (name ≠ nameDotdot →
      ∀ leaf, T.Way name leaf → ∃ e ∈ T.entries leaf, e.inode = 0))

end Htree

/-! ### The way down -/

namespace DxTable

variable {t : DxTable} {size hash b b' : Nat}

theorem WellFormed.last_index (h : t.WellFormed size) : (t.count : Int) - 2 = t.entryCount - 1 := by
  have := h.count_pos
  unfold entryCount
  omega

theorem WellFormed.search_indexed (h : t.WellFormed size) (hi : t.Indexed hash) :
    ∃ i < t.entryCount, Klib.binarySearch (t.comp (t.count - 2) hash) 0 (t.count - 2) =
      some (i : Int) ∧ t.Selects hash (t.entryBlock i) := by
  -- The last entry with a hash that is not above.
  set i := Nat.findGreatest (fun i => t.hash i ≤ hash) (t.entryCount - 1) with hidef
  have hle : i ≤ t.entryCount - 1 := Nat.findGreatest_le _
  have hspec : t.hash i ≤ hash :=
    Nat.findGreatest_spec (P := fun i => t.hash i ≤ hash) (Nat.zero_le _) hi.2
  have hpos := hi.1
  have hnext : i + 1 < t.entryCount → hash < t.hash (i + 1) := fun hlt =>
    Nat.lt_of_not_le (Nat.findGreatest_is_greatest (P := fun i => t.hash i ≤ hash)
      (Nat.lt_succ_self i) (by omega))
  refine ⟨i, by omega, ?_, .inl ⟨i, by omega, hspec, hnext, rfl⟩⟩
  rw [h.last_index]
  refine Klib.binarySearch_found ?_ (by omega) (by omega) (fun {j} hj hji => ?_) fun {j} hij hj =>
    ?_
  · rw [comp, Int.toNat_natCast, if_neg (by omega)]
    split
    · rfl
    · rw [if_pos]
      have : ((i : Int) + 1).toNat = i + 1 := by omega
      rw [this]
      exact hnext (by omega)
  · have h₁ : t.hash j.toNat ≤ t.hash i := h.sorted (by omega) (by omega)
    have h₂ : t.hash (j + 1).toNat ≤ t.hash i := h.sorted (by omega) (by omega)
    rw [comp, if_neg (by omega), if_neg (by omega), if_neg (by omega)]
    omega
  · have h₁ : t.hash (i + 1) ≤ t.hash j.toNat := h.sorted (by omega) (by omega)
    have h₂ := hnext (by omega)
    rw [comp, if_pos (by omega)]
    omega

theorem WellFormed.search_none (h : t.WellFormed size) (hi : ¬t.Indexed hash) :
    Klib.binarySearch (t.comp (t.count - 2) hash) 0 (t.count - 2) = none := by
  rw [h.last_index]
  refine Klib.binarySearch_none fun {j} hj hle => ?_
  have h₁ : t.hash 0 ≤ t.hash j.toNat := h.sorted (Nat.zero_le _) (by omega)
  have h₂ : hash < t.hash 0 := Nat.lt_of_not_le fun hle => hi ⟨by omega, hle⟩
  rw [comp, if_pos (by omega)]
  omega

theorem WellFormed.selects_unique (h : t.WellFormed size) (hb : t.Selects hash b)
    (hb' : t.Selects hash b') : b = b' := by
  rcases hb with ⟨i, hi, hle, hnext, rfl⟩ | ⟨hlt, rfl⟩
  · rcases hb' with ⟨j, hj, hle', hnext', rfl⟩ | ⟨hlt', rfl⟩
    · rcases Nat.lt_trichotomy i j with hij | rfl | hij
      · have h₁ : t.hash (i + 1) ≤ t.hash j := h.sorted hij hj
        have h₂ := hnext (by omega)
        omega
      · rfl
      · have h₁ : t.hash (j + 1) ≤ t.hash i := h.sorted hij hi
        have h₂ := hnext' (by omega)
        omega
    · have := hlt' i hi
      omega
  · rcases hb' with ⟨j, hj, hle', -, rfl⟩ | ⟨-, rfl⟩
    · have := hlt j hj
      omega
    · rfl

theorem Selects.mem (h : t.Selects hash b) : b ∈ t.slots := by
  rcases h with ⟨i, hi, -, -, rfl⟩ | ⟨-, rfl⟩
  · exact List.mem_cons_of_mem _ (List.mem_map.mpr ⟨i, List.mem_range.mpr hi, rfl⟩)
  · exact List.mem_cons_self

end DxTable

namespace Ext4IndexNode

variable {ι : Type} {d : Ext4IndexNode ι} {hash : Nat}

theorem read_block {b : Nat} (h : (d.readLogicalBlock b).isSome) :
    d.readLogicalBlock b = some (d.block b) := by
  obtain ⟨m, hm⟩ := Option.isSome_iff_exists.mp h
  rw [block, hm]
  rfl

/-- The slots of a well-formed table can be read. -/
theorem TablesWf.readable {lvl : Nat} {t : DxTable} (h : d.TablesWf lvl t) :
    t.WellFormed d.blockSize ∧ ∀ b ∈ t.slots, (d.readLogicalBlock b).isSome := by
  cases lvl with
  | zero => exact h
  | succ lvl => exact ⟨h.1, fun b hb => (h.2 b hb).1⟩

/-- One level down. -/
theorem htreeLoop_step {lvl : Nat} {t : DxTable} (h : d.TablesWf lvl t) (hi : t.Indexed hash)
    (n : Nat) : ∃ b ∈ t.slots, t.Selects hash b ∧
      d.htreeLoop hash (n + 1) t = d.htreeLoop hash n (dxNode (d.block b)) := by
  obtain ⟨hwf, hread⟩ := h.readable
  obtain ⟨i, -, hsearch, hsel⟩ := hwf.search_indexed hi
  refine ⟨_, hsel.mem, hsel, ?_⟩
  rw [htreeLoop]
  simp only [hsearch, Int.toNat_natCast, read_block (hread _ hsel.mem)]

theorem htreeLoop_indexed {lvl : Nat} {t : DxTable} (h : d.TablesWf lvl t)
    (hi : d.AllIndexed hash lvl t) : ∃ leaf ∈ d.leaves lvl t, d.SelectsLeaf hash lvl t leaf ∧
      d.htreeLoop hash (lvl + 1) t = .ok (some (d.block leaf)) := by
  induction lvl generalizing t with
  | zero =>
    obtain ⟨b, hmem, hsel, hstep⟩ := htreeLoop_step h hi 0
    exact ⟨b, hmem, hsel, hstep⟩
  | succ lvl ih =>
    obtain ⟨b, hmem, hsel, hstep⟩ := htreeLoop_step h hi.1 (lvl + 1)
    obtain ⟨leaf, hleaf, hsel', hrun⟩ := ih (h.2 b hmem).2 (hi.2 b hsel)
    refine ⟨leaf, List.mem_flatMap.mpr ⟨b, hmem, hleaf⟩, ⟨b, hsel, hsel'⟩, ?_⟩
    rw [hstep, hrun]

theorem htreeLoop_none {lvl : Nat} {t : DxTable} (h : d.TablesWf lvl t)
    (hi : ¬d.AllIndexed hash lvl t) : d.htreeLoop hash (lvl + 1) t = .ok none := by
  induction lvl generalizing t with
  | zero =>
    rw [htreeLoop]
    simp only [h.1.search_none hi]
  | succ lvl ih =>
    by_cases ht : t.Indexed hash
    · obtain ⟨b, hmem, hsel, hstep⟩ := htreeLoop_step h ht (lvl + 1)
      rw [hstep]
      refine ih (h.2 b hmem).2 fun hb => hi ⟨ht, fun b' hsel' => ?_⟩
      rw [h.1.selects_unique hsel' hsel]
      exact hb
    · rw [htreeLoop]
      simp only [h.1.search_none ht]

theorem SelectsLeaf.unique {lvl : Nat} {t : DxTable} {leaf leaf' : Nat}
    (hl : d.SelectsLeaf hash lvl t leaf) (hl' : d.SelectsLeaf hash lvl t leaf')
    (h : d.TablesWf lvl t) : leaf = leaf' := by
  induction lvl generalizing t with
  | zero => exact h.1.selects_unique hl hl'
  | succ lvl ih =>
    obtain ⟨b, hb, hleaf⟩ := hl
    obtain ⟨b', hb', hleaf'⟩ := hl'
    obtain rfl := h.1.selects_unique hb hb'
    exact ih hleaf hleaf' (h.2 b hb.mem).2

/-! ### The scan of a leaf -/

theorem strncmp_eq_zero {s₁ s₂ : Nat → UInt8} {n i : Nat}
    (h : ∀ j < n, s₂ (i + j) ≠ 0) : strncmp s₁ s₂ n i = 0 ↔ ∀ j < n,
      s₁ (i + j) = s₂ (i + j) := by
  induction n generalizing i with
  | zero => simp [strncmp]
  | succ n ih =>
    have hrest : ∀ j < n, s₂ (i + 1 + j) ≠ 0 := by
      intro j hj
      have := h (j + 1) (by omega)
      rwa [← Nat.add_assoc, Nat.add_right_comm] at this
    unfold strncmp
    by_cases heq : s₁ i = s₂ i
    · have hne := h 0 (by omega)
      rw [Nat.add_zero] at hne
      rw [if_pos heq, if_neg (by rw [heq]; exact hne), ih hrest]
      refine ⟨fun H j hj => ?_, fun H j hj => ?_⟩
      · cases j with
        | zero => exact heq
        | succ j =>
          have := H j (by omega)
          rwa [Nat.add_right_comm] at this
      · have := H (j + 1) (by omega)
        rwa [← Nat.add_assoc, Nat.add_right_comm] at this
    · rw [if_neg heq]
      refine ⟨fun H => ?_, fun H => absurd (H 0 (by omega)) heq⟩
      split at H
      · cases H
      · cases H

/-- The comparison of `_linear_lookup` is that of the names. -/
theorem name_matches {m : Mem} {off : Nat} (dirName : Name) (h : 0 ∉ (direntAt m off).name) :
    (dirName.length = m.read (off + 6) 1 ∧
      strncmp (dirName.getD · 0) (fun j => m (off + 8 + j)) (m.read (off + 6) 1) 0 = 0) ↔
      (direntAt m off).name = dirName := by
  have hbyte : ∀ j < m.read (off + 6) 1, m (off + 8 + j) ≠ 0 := fun j hj hz =>
    h (List.mem_map.mpr ⟨j, List.mem_range.mpr hj, hz⟩)
  have hlen : (direntAt m off).name.length = m.read (off + 6) 1 := by simp [direntAt]
  rw [strncmp_eq_zero (by simpa using hbyte)]
  refine ⟨fun ⟨hl, heq⟩ => ?_, ?_⟩
  · refine List.ext_getElem (by rw [hlen, hl]) fun j hj hj' => ?_
    have := heq j (by omega)
    rw [Nat.zero_add, List.getD_eq_getElem _ _ hj'] at this
    rw [this]
    simp [direntAt]
  · rintro rfl
    refine ⟨hlen, fun j hj => ?_⟩
    rw [Nat.zero_add, List.getD_eq_getElem _ _ (by omega)]
    simp [direntAt]

/-- `_linear_lookup`, over the entries of a block. -/
def scan (d : Ext4IndexNode ι) (name : Name) : List DirEntry → Except Fault (Option (SubNode ι))
  | [] => .error (.undefined "read past the block")
  | e :: es =>
    if e.inode = 0 then .ok none
    else if e.name = name then .ok (d.subNode e.inode)
    else scan d name es

theorem linearLoop_eq {m : Mem} {off : Nat} {es : List DirEntry} (h : Chain d.blockSize m off es)
    (name : Name) {fuel : Nat} (hfuel : d.blockSize < fuel + off) :
    d.linearLoop name m fuel off = d.scan name es := by
  induction h generalizing fuel with
  | nil =>
    obtain ⟨fuel, rfl⟩ : ∃ n, fuel = n + 1 := ⟨fuel - 1, by omega⟩
    rw [linearLoop, if_pos (by omega)]
    rfl
  | @cons off es hlen hlive hle hrest ih =>
    by_cases hoff : d.blockSize < off
    · omega
    obtain ⟨fuel, rfl⟩ : ∃ n, fuel = n + 1 := ⟨fuel - 1, by omega⟩
    rw [linearLoop, if_neg (by omega), scan]
    by_cases hz : (direntAt m off).inode = 0
    · rw [if_pos hz, if_pos (show m.read off 4 = 0 from hz)]
    · rw [if_neg hz, if_neg (show m.read off 4 ≠ 0 from hz)]
      by_cases hname : (direntAt m off).name = name
      · rw [if_pos hname, if_pos ((name_matches name (hlive hz).2).mpr hname)]
        rfl
      · rw [if_neg hname, if_neg fun h => hname ((name_matches name (hlive hz).2).mp h)]
        exact ih (by omega)

/-- The scan finds a name that no dead entry is before. -/
theorem scan_within {name : Name} {es : List DirEntry} (h : Htree.Within es name) :
    ∃ e ∈ es, e.inode ≠ 0 ∧ e.name = name ∧ d.scan name es = .ok (d.subNode e.inode) := by
  obtain ⟨pre, e, post, rfl, hlive, hname, hpre⟩ := h
  induction pre with
  | nil =>
    refine ⟨e, List.mem_cons_self, hlive, hname, ?_⟩
    rw [List.nil_append, scan, if_neg hlive, if_pos hname]
  | cons x pre ih =>
    have hx := hpre x List.mem_cons_self
    by_cases hxn : x.name = name
    · refine ⟨x, List.mem_cons_self, hx, hxn, ?_⟩
      rw [List.cons_append, scan, if_neg hx, if_pos hxn]
    · obtain ⟨y, hy, hrest⟩ := ih fun e' he' => hpre e' (List.mem_cons_of_mem _ he')
      refine ⟨y, List.mem_cons_of_mem _ hy, hrest.1, hrest.2.1, ?_⟩
      rw [List.cons_append, scan, if_neg hx, if_neg hxn]
      exact hrest.2.2

/-- The scan finds no other name, and ends only at a dead entry. -/
theorem scan_not_within {name : Name} {es : List DirEntry} (h : ¬Htree.Within es name) :
    d.scan name es = if ∃ e ∈ es, e.inode = 0 then .ok none else
      .error (.undefined "read past the block") := by
  induction es with
  | nil => simp [scan]
  | cons x es ih =>
    by_cases hx : x.inode = 0
    · rw [scan, if_pos hx, if_pos ⟨x, List.mem_cons_self, hx⟩]
    · have hxn : x.name ≠ name := fun hxn => h ⟨[], x, es, rfl, hx, hxn, nofun⟩
      have hes : ¬Htree.Within es name := by
        rintro ⟨pre, e, post, rfl, hlive, hname, hpre⟩
        refine h ⟨x :: pre, e, post, rfl, hlive, hname, fun e' he' => ?_⟩
        rcases List.mem_cons.mp he' with rfl | he'
        · exact hx
        · exact hpre e' he'
      rw [scan, if_neg hx, if_neg hxn, ih hes]
      simp only [List.mem_cons, exists_eq_or_imp, hx, false_or]

end Ext4IndexNode

/-! ### The lookup -/

namespace Htree

variable {ι : Type} {d : Ext4IndexNode ι} (T : Htree d) {name : Name}

/-- The lookup scans the leaf for the name where the way to it is indexed, and gives
up otherwise. -/
theorem lookup_eq (hdot : name ≠ nameDot) (hdotdot : name ≠ nameDotdot) :
    (∃ leaf ∈ d.leafBlocks, T.Way name leaf ∧
      d.lookup name = d.scan name (T.entries leaf)) ∨
      ((∀ leaf, ¬T.Way name leaf) ∧ d.lookup name = .ok none) := by
  have hlookup : d.lookup name = d.htreeLookup name := by
    rw [Ext4IndexNode.lookup, if_neg T.isDir, if_neg hdot, if_pos T.isIndex]
  rw [hlookup, Ext4IndexNode.htreeLookup, if_neg hdotdot, Ext4IndexNode.read_block T.root]
  simp only
  cases hhash : d.htreeHash (hashVersion (d.block 0)) name with
  | none =>
    refine .inr ⟨fun leaf ⟨hash, hsome, _⟩ => ?_, rfl⟩
    rw [Ext4IndexNode.hashOf, hhash] at hsome
    cases hsome
  | some hash =>
    simp only
    by_cases hi : d.AllIndexed hash d.levels d.root
    · obtain ⟨leaf, hleaf, hsel, hrun⟩ := Ext4IndexNode.htreeLoop_indexed T.tables hi
      refine .inl ⟨leaf, hleaf, ⟨hash, hhash, hi, hsel⟩, ?_⟩
      rw [show d.htreeLoop hash (indirectLevels (d.block 0) + 1) (dxRoot (d.block 0)) =
        .ok (some (d.block leaf)) from hrun, ok_bind]
      exact Ext4IndexNode.linearLoop_eq (T.chain leaf hleaf) name (by omega)
    · refine .inr ⟨fun leaf ⟨hash', hsome, hi', _⟩ => ?_, ?_⟩
      · rw [Ext4IndexNode.hashOf, hhash] at hsome
        cases hsome
        exact hi hi'
      · rw [show d.htreeLoop hash (indirectLevels (d.block 0) + 1) (dxRoot (d.block 0)) =
          .ok none from Ext4IndexNode.htreeLoop_none T.tables hi, ok_bind]
        rfl

theorem Way.unique {leaf leaf' : Nat} (h : T.Way name leaf) (h' : T.Way name leaf') :
    leaf = leaf' := by
  obtain ⟨hash, hhash, -, hsel⟩ := h
  obtain ⟨hash', hhash', -, hsel'⟩ := h'
  cases hhash.symm.trans hhash'
  exact hsel.unique hsel' T.tables

theorem mem_live {e : DirEntry} :
    e ∈ T.live ↔ (∃ leaf ∈ d.leafBlocks, e ∈ T.entries leaf) ∧ e.inode ≠ 0 := by
  simp [live, List.mem_filter, List.mem_flatMap]

/-- All live entries of a name have one inode. -/
theorem search_eq {e : DirEntry} (he : e ∈ T.live) : T.search e.name = d.subNode e.inode := by
  unfold search
  cases hf : T.live.find? (·.name = e.name) with
  | none =>
    have := List.find?_eq_none.mp hf e he
    simp at this
  | some e' =>
    have hname := List.find?_some hf
    simp only [decide_eq_true_eq] at hname
    obtain ⟨⟨leaf, hleaf, hmem⟩, hlive⟩ := T.mem_live.mp he
    obtain ⟨⟨leaf', hleaf', hmem'⟩, hlive'⟩ := T.mem_live.mp (List.mem_of_find?_eq_some hf)
    rw [Option.bind_some, T.unique leaf' hleaf' e' hmem' leaf hleaf e hmem hlive' hlive hname]

theorem search_none (h : ∀ e ∈ T.live, e.name ≠ name) : T.search name = none := by
  unfold search
  rw [List.find?_eq_none.mpr fun e he => by simpa using h e he]
  rfl

/-- A live name is found exactly where it is reached. -/
theorem lookup_live {e : DirEntry} (he : e ∈ T.live) : d.lookup e.name = .ok (T.search e.name) ↔
    ∃ leaf, T.Way e.name leaf ∧ Within (T.entries leaf) e.name := by
  obtain ⟨⟨leaf₀, hleaf₀, hmem⟩, hlive⟩ := T.mem_live.mp he
  obtain ⟨hdot, hdotdot⟩ := T.names leaf₀ hleaf₀ e hmem hlive
  obtain ⟨inode, hinode⟩ := Option.isSome_iff_exists.mp (T.inodes leaf₀ hleaf₀ e hmem hlive)
  have hsome : T.search e.name ≠ none := by
    rw [T.search_eq he, Ext4IndexNode.subNode, hinode]
    exact nofun
  rcases T.lookup_eq hdot hdotdot with ⟨leaf, hleaf, hway, hrun⟩ | ⟨hno, hrun⟩
  · rw [hrun]
    by_cases hw : Within (T.entries leaf) e.name
    · obtain ⟨e', hmem', hlive', hname', hscan⟩ := Ext4IndexNode.scan_within (d := d) hw
      refine iff_of_true ?_ ⟨leaf, hway, hw⟩
      rw [hscan, ← hname', T.search_eq (T.mem_live.mpr ⟨⟨leaf, hleaf, hmem'⟩, hlive'⟩)]
    · refine iff_of_false (fun h => ?_) fun ⟨leaf', hway', hw'⟩ => ?_
      · rw [Ext4IndexNode.scan_not_within hw] at h
        split at h
        · exact hsome (Except.ok.inj h).symm
        · cases h
      · rw [hway'.unique T hway] at hw'
        exact hw hw'
  · refine iff_of_false (fun h => ?_) fun ⟨leaf, hway, _⟩ => hno leaf hway
    rw [hrun] at h
    exact hsome (Except.ok.inj h).symm

/-- Any other name is not found, but the scan for it must end. -/
theorem lookup_other (h : ∀ e ∈ T.live, e.name ≠ name) :
    d.lookup name = .ok (T.search name) ↔ name ≠ nameDot ∧ (name ≠ nameDotdot →
      ∀ leaf, T.Way name leaf → ∃ e ∈ T.entries leaf, e.inode = 0) := by
  rw [T.search_none h]
  by_cases hdot : name = nameDot
  · refine iff_of_false (fun hrun => ?_) fun h => h.1 hdot
    rw [Ext4IndexNode.lookup, if_neg T.isDir, if_pos hdot] at hrun
    cases hrun
  by_cases hdotdot : name = nameDotdot
  · refine iff_of_true ?_ ⟨hdot, fun h => absurd hdotdot h⟩
    rw [Ext4IndexNode.lookup, if_neg T.isDir, if_neg hdot, if_pos T.isIndex,
      Ext4IndexNode.htreeLookup,
      if_pos hdotdot]
    rfl
  rcases T.lookup_eq hdot hdotdot with ⟨leaf, hleaf, hway, hrun⟩ | ⟨hno, hrun⟩
  · have hw : ¬Within (T.entries leaf) name := by
      rintro ⟨pre, e, post, hes, hlive, hname, -⟩
      refine h e (T.mem_live.mpr ⟨⟨leaf, hleaf, ?_⟩, hlive⟩) hname
      rw [hes]
      exact List.mem_append_right _ List.mem_cons_self
    rw [hrun, Ext4IndexNode.scan_not_within hw]
    refine ⟨fun hscan => ⟨hdot, fun _ leaf' hway' => ?_⟩, fun hdead => ?_⟩
    · rw [hway'.unique T hway]
      by_contra hno
      rw [if_neg hno] at hscan
      cases hscan
    · rw [if_pos (hdead.2 hdotdot leaf hway)]
  · exact iff_of_true hrun ⟨hdot, fun _ leaf hway => absurd hway (hno leaf)⟩

/-- `lookup` agrees with a search of all leaves exactly where a live name is reached, and the scan
for another name ends. -/
theorem lookup_iff (name : Name) : d.lookup name = .ok (T.search name) ↔ T.Reached name := by
  by_cases h : ∃ e ∈ T.live, e.name = name
  · obtain ⟨e, he, rfl⟩ := h
    rw [T.lookup_live he]
    exact ⟨fun hr => ⟨fun _ => hr, fun hno => absurd rfl (hno e he)⟩,
      fun hr => hr.1 ⟨e, he, rfl⟩⟩
  · have hno : ∀ e ∈ T.live, e.name ≠ name := fun e he hname => h ⟨e, he, hname⟩
    rw [T.lookup_other hno]
    exact ⟨fun hr => ⟨fun hyes => absurd hyes h, fun _ => hr⟩, fun hr => hr.2 hno⟩

/-! ### A small directory -/

/-- A root with one entry, for the hashes from 100 on. -/
def sampleRoot : Mem :=
  Mem.write (Mem.write (Mem.write (Mem.write (fun _ => 0) 34 2 2) 36 4 1) 40 4 100) 44 4 2

/-- A leaf with one name and a checksum. -/
def sampleLeaf (ino ch : Nat) : Mem :=
  Mem.write
    (Mem.write (Mem.write (Mem.write (Mem.write (Mem.write (fun _ => 0) 0 4 ino) 4 2 1012) 6 1 1)
    8 1 ch) 1016 2 12) 1019 1 0xde

/-- The name `a` has the hash 5, and all others 200. -/
def sampleDir : Ext4IndexNode Nat where
  mode := 0x41ed
  index := true
  hasBlocks := 3
  blockSize := 1024
  readLogicalBlock
    | 0 => some sampleRoot
    | 1 => some (sampleLeaf 11 0x61)
    | 2 => some (sampleLeaf 12 0x62)
    | _ => none
  readInode := some
  inodeMode := fun _ => 0x81a4
  htreeHash := fun _ name => some (if name = [0x61] then 5 else 200)

/-- The two entries of a leaf. -/
def sampleEntries (leaf : Nat) : List DirEntry :=
  [direntAt (sampleDir.block leaf) 0, direntAt (sampleDir.block leaf) 1012]

theorem sample_leafBlocks : sampleDir.leafBlocks = [1, 2] := by decide

theorem sample_selects : sampleDir.SelectsLeaf 5 sampleDir.levels sampleDir.root 1 ∧
    sampleDir.SelectsLeaf 200 sampleDir.levels sampleDir.root 2 := by
  have hlevels : sampleDir.levels = 0 := by decide
  rw [hlevels]
  exact ⟨.inr (by decide), .inl ⟨0, by decide⟩⟩

/-- A block that starts with an entry up to its checksum. -/
theorem chain_of_two {m : Mem}
    (h₀ : (direntAt m 0).recLen = 1012 ∧ (direntAt m 0).name.length ≤ 255 ∧
      (direntAt m 0).name ≠ [] ∧ 0 ∉ (direntAt m 0).name)
    (h₁ : (direntAt m 1012).recLen = 12 ∧ (direntAt m 1012).name = [] ∧
      (direntAt m 1012).inode = 0) :
    Chain 1024 m 0 [direntAt m 0, direntAt m 1012] := by
  have htail : Chain 1024 m 1012 [direntAt m 1012] := by
    refine .cons (by simp [h₁]) (fun h => absurd h₁.2.2 h) (by omega) ?_
    rw [h₁.1]
    exact .nil
  refine .cons (by omega) (fun _ => h₀.2.2) (by omega) ?_
  rw [h₀.1, Nat.zero_add]
  exact htail

def sampleHtree : Htree sampleDir where
  isDir := by decide
  isIndex := rfl
  entries := sampleEntries
  root := rfl
  tables := by
    have hlevels : sampleDir.levels = 0 := by decide
    rw [hlevels]
    refine ⟨⟨by decide, by decide, fun {i j} hij hj => ?_⟩, by decide⟩
    have hcount : sampleDir.root.entryCount = 1 := by decide
    obtain rfl : i = j := by omega
    exact Nat.le_refl _
  chain := by
    rw [sample_leafBlocks]
    intro leaf hleaf
    rcases List.mem_pair.mp hleaf with rfl | rfl
    · exact chain_of_two (by decide) (by decide)
    · exact chain_of_two (by decide) (by decide)
  placed := by
    rw [sample_leafBlocks]
    intro leaf hleaf e he hlive
    rcases List.mem_pair.mp hleaf with rfl | rfl
    · rcases List.mem_pair.mp he with rfl | rfl
      · exact ⟨5, by decide, sample_selects.1⟩
      · exact absurd (by decide) hlive
    · rcases List.mem_pair.mp he with rfl | rfl
      · exact ⟨200, by decide, sample_selects.2⟩
      · exact absurd (by decide) hlive
  unique := by
    rw [sample_leafBlocks]
    decide
  names := by
    rw [sample_leafBlocks]
    decide
  inodes := fun _ _ _ _ _ => rfl

/-- The name of the second leaf is found. -/
theorem lookup_iff_sample : sampleHtree.Reached [0x62] ∧
    sampleDir.lookup [0x62] = .ok (sampleHtree.search [0x62]) := by
  have hlookup : sampleDir.lookup [0x62] = .ok (sampleHtree.search [0x62]) := rfl
  exact ⟨(sampleHtree.lookup_iff _).mp hlookup, hlookup⟩

/-- The name of the first leaf is not found. -/
theorem first_slot_lost : sampleDir.lookup [0x61] ≠ .ok (sampleHtree.search [0x61]) := by
  have hlookup : sampleDir.lookup [0x61] = .ok none := rfl
  have hsearch : sampleHtree.search [0x61] = some (.sub 11 0x1a4 .normal) := rfl
  rw [hlookup, hsearch]
  exact nofun

end Htree

end OsKernel.Fs.Ext4

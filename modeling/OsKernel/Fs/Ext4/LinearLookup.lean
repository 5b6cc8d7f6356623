import OsKernel.Fs.Ext4.HtreeLookup
import OsKernel.Fs.Ext4.LinearDir

/-! `Ext4IndexNode::lookup` in a directory without an index, with the buffers that it pins, against
a search of all live entries. -/

namespace OsKernel.Fs.Ext4

open Lib

namespace Ext4IndexNode

variable {ι : Type} (d : Ext4IndexNode ι) (inode : Ext4Inode) (v : Volume) (fuel : Nat)

/-- What `lookup` returns, and the flags of the buffers. -/
abbrev LookupResult (ι : Type) := Option (SubNode ι) × Pins

/-- The loop of `lookup` over the blocks, with `n` blocks left. -/
def lookupLoop (dirName : Name) : Nat → Nat → Pins → Except Fault (LookupResult ι)
  | 0, _, pins => .ok (none, pins)
  | n + 1, i, pins => do
    let r ← inode.readLogicalBlock v fuel i true pins
    match r.1 with
    | none => .ok (none, r.2)
    | some buf => do
      let res ← d.linearLookup dirName (v.readBlock buf)
      let pins := r.2.unpin buf
      match res with
      | some node => .ok (some node, pins)
      | none => lookupLoop dirName n (i + 1) (pins.unpin buf)

/-- `lookup` in a directory without an index. -/
def lookupLinear (dirName : Name) (pins : Pins) : Except Fault (LookupResult ι) :=
  if d.mode &&& 0x4000 = 0 then .error (.panic "try to lookup an inode that's not dir")
  else if dirName = nameDot then .ok (some .self, pins)
  else d.lookupLoop inode v fuel dirName d.hasBlocks 0 pins

end Ext4IndexNode

open Ext4Inode in
/-- A directory without an index, whose blocks are chains of entries.  `find` gives the blocks that
can be read: those of the directory, and none behind them. -/
structure LookupDir {ι : Type} (d : Ext4IndexNode ι) (inode : Ext4Inode) (v : Volume) (fuel : Nat)
    (find : Nat → Option Nat) (index : Nat → Nat → Prop) where
  isDir : d.mode &&& 0x4000 ≠ 0
  blockSize : d.blockSize = v.blockSize
  count : Nat
  entries : Nat → List DirEntry
  reads : ∀ b < d.hasBlocks, ∀ pins, ∃ q, inode.readLogicalBlock v fuel b true pins =
    .ok (find b, q) ∧ ∀ blk, q blk = true → find b = some blk ∨
    (pins blk = true ∧ ¬index b blk)
  behind : ∀ b, count ≤ b → b < d.hasBlocks → find b = none
  chain : ∀ b < count, ∀ blk, find b = some blk →
    Chain v.blockSize (v.readBlock blk) 0 (entries b)
  unique : ∀ b < count, ∀ e ∈ entries b, ∀ b' < count, ∀ e' ∈ entries b',
    e.inode ≠ 0 → e'.inode ≠ 0 → e.name = e'.name → e.inode = e'.inode
  inodes : ∀ b < count, ∀ e ∈ entries b, e.inode ≠ 0 → (d.readInode e.inode).isSome

namespace LookupDir

variable {ι : Type} {d : Ext4IndexNode ι} {inode : Ext4Inode} {v : Volume} {fuel : Nat}
  {find : Nat → Option Nat}
  {index : Nat → Nat → Prop} (D : LookupDir d inode v fuel find index)

/-- The live entries, block by block. -/
def live : List DirEntry := ((List.range D.count).flatMap D.entries).filter (·.inode ≠ 0)

/-- The search of all live entries, where the entry for the directory itself is the directory. -/
def search (name : Name) : Option (SubNode ι) :=
  (D.live.find? (·.name = name)).bind fun e => if name = nameDot then some .self
    else d.subNode e.inode

/-- The blocks that are read for a name: up to the first one that has it, or that cannot be read. -/
def Visited (name : Name) (b : Nat) : Prop :=
  b < d.hasBlocks ∧ ∀ b' < b, (find b').isSome ∧ ¬Htree.Within (D.entries b') name

/-- `lookup` finds what there is, and unpins what it has pinned. -/
def LooksUp (name : Name) : Prop :=
  ∀ pins, ∃ q, d.lookupLinear inode v fuel name pins = .ok (D.search name, q) ∧
    ∀ blk, q blk = true → pins blk = true ∧
      (name ≠ nameDot → ∀ b, D.Visited name b → ¬Ext4Inode.Visits find index b blk)

/-- A deleted entry or a checksum ends the scan of a block. -/
def Ends (b : Nat) : Prop := ∃ e ∈ D.entries b, e.inode = 0

/-- The scan comes to the entry of a name: no deleted entry is before it in its block, and the
blocks before it can be read and end. -/
def Found (name : Name) : Prop :=
  ∃ b < d.hasBlocks, (find b).isSome ∧ Htree.Within (D.entries b) name ∧ ∀ b' < b,
    (find b').isSome ∧ D.Ends b'

/-- The scan ends in all blocks that it comes to. -/
def AllEnd : Prop := ∀ b < d.hasBlocks, (∀ b' ≤ b, (find b').isSome) → D.Ends b

/-- When `lookup` finds what there is. -/
def Reached (name : Name) : Prop :=
  ((∃ e ∈ D.live, e.name = name) → name ≠ nameDot → D.Found name) ∧
    ((∀ e ∈ D.live, e.name ≠ name) → name ≠ nameDot ∧ D.AllEnd)

/-! ### The scan of the blocks -/

/-- The scan of the blocks from `i` on, with `n` blocks left. -/
def scanBlocks (name : Name) : Nat → Nat → Except Fault (Option (SubNode ι))
  | 0, _ => .ok none
  | n + 1, i =>
    match find i with
    | none => .ok none
    | some _ => do
      match ← d.scan name (D.entries i) with
      | some node => .ok (some node)
      | none => scanBlocks name n (i + 1)

variable {D} {name : Name}

theorem lt_count {b : Nat} (hb : b < d.hasBlocks) (h : (find b).isSome) : b < D.count := by
  by_contra hle
  rw [D.behind b (Nat.le_of_not_lt hle) hb] at h
  cases h

theorem mem_live {e : DirEntry} : e ∈ D.live ↔ (∃ b < D.count, e ∈ D.entries b) ∧
    e.inode ≠ 0 := by
  simp [live, List.mem_filter, List.mem_flatMap]

theorem subNode_isSome {e : DirEntry} (he : e ∈ D.live) : (d.subNode e.inode).isSome := by
  obtain ⟨⟨b, hb, hmem⟩, hlive⟩ := mem_live.mp he
  rw [Ext4IndexNode.subNode, Option.isSome_map]
  exact D.inodes b hb e hmem hlive

/-- A block with the name in reach. -/
theorem scan_found {b : Nat} (hb : b < D.count) (h : Htree.Within (D.entries b) name) :
    ∃ e ∈ D.live, e.name = name ∧ d.scan name (D.entries b) = .ok (d.subNode e.inode) := by
  obtain ⟨e, he, hlive, hname, hscan⟩ := Ext4IndexNode.scan_within (d := d) h
  exact ⟨e, mem_live.mpr ⟨⟨b, hb, he⟩, hlive⟩, hname, hscan⟩

/-- The name is found in the first block that has it in reach. -/
theorem scanBlocks_found {n i b : Nat} (hn : i + n = d.hasBlocks) (hi : i ≤ b)
    (hb : b < d.hasBlocks) (hfind : (find b).isSome) (hwithin : Htree.Within (D.entries b) name)
    (hbefore : ∀ b', i ≤ b' → b' < b → (find b').isSome ∧ D.Ends b') :
    ∃ e ∈ D.live, e.name = name ∧ D.scanBlocks name n i = .ok (d.subNode e.inode) := by
  induction n generalizing i with
  | zero => omega
  | succ n ih =>
    have hread : (find i).isSome := by
      rcases Nat.eq_or_lt_of_le hi with rfl | hlt
      · exact hfind
      · exact (hbefore i (Nat.le_refl i) hlt).1
    obtain ⟨blk, hblk⟩ := Option.isSome_iff_exists.mp hread
    rw [scanBlocks, hblk]
    simp only
    by_cases hw : Htree.Within (D.entries i) name
    · obtain ⟨e, he, hname, hscan⟩ := scan_found (lt_count (by omega) hread) hw
      obtain ⟨node, hnode⟩ := Option.isSome_iff_exists.mp (subNode_isSome he)
      refine ⟨e, he, hname, ?_⟩
      rw [hscan, ok_bind, hnode]
    · have hne : i ≠ b := fun h => hw (h ▸ hwithin)
      have hends : D.Ends i := (hbefore i (Nat.le_refl i) (by omega)).2
      rw [Ext4IndexNode.scan_not_within hw,
        if_pos (show ∃ e ∈ D.entries i, e.inode = 0 from hends), ok_bind]
      exact ih (by omega) (by omega) fun b' hb' => hbefore b' (by omega)

/-- Nothing is found where no block that is reached has the name in reach. -/
theorem scanBlocks_lost {n i : Nat} (hn : i + n = d.hasBlocks)
    (hlost : ∀ b, i ≤ b → b < d.hasBlocks → (find b).isSome →
      Htree.Within (D.entries b) name → ∃ b', i ≤ b' ∧ b' < b ∧
      ((find b').isSome → ¬D.Ends b')) :
    (D.scanBlocks name n i = .ok none ∧
        ∀ b, i ≤ b → b < d.hasBlocks →
        (∀ b', i ≤ b' → b' ≤ b → (find b').isSome) → D.Ends b) ∨
      (D.scanBlocks name n i = .error (.undefined "read past the block") ∧
        ∃ b, i ≤ b ∧ b < d.hasBlocks ∧
          (∀ b', i ≤ b' → b' ≤ b → (find b').isSome) ∧ ¬D.Ends b) := by
  induction n generalizing i with
  | zero => exact .inl ⟨rfl, fun b hi hb => by omega⟩
  | succ n ih =>
    cases hblk : find i with
    | none =>
      refine .inl ⟨by rw [scanBlocks, hblk], fun b hi _ hall => ?_⟩
      have := hall i (Nat.le_refl i) hi
      rw [hblk] at this
      cases this
    | some blk =>
      have hread : (find i).isSome := by rw [hblk]; rfl
      have hw : ¬Htree.Within (D.entries i) name := fun hw => by
        obtain ⟨b', hi', hlt, -⟩ := hlost i (Nat.le_refl i) (by omega) hread hw
        omega
      by_cases hends : D.Ends i
      · have hstep : D.scanBlocks name (n + 1) i = D.scanBlocks name n (i + 1) := by
          rw [scanBlocks, hblk]
          simp only
          rw [Ext4IndexNode.scan_not_within hw,
            if_pos (show ∃ e ∈ D.entries i, e.inode = 0 from hends), ok_bind]
        rw [hstep]
        have hlost' : ∀ b, i + 1 ≤ b → b < d.hasBlocks → (find b).isSome →
            Htree.Within (D.entries b) name → ∃ b', i + 1 ≤ b' ∧ b' < b ∧
              ((find b').isSome → ¬D.Ends b') := fun b hi hb hfind hwithin => by
          obtain ⟨b', hi', hlt, hno⟩ := hlost b (by omega) hb hfind hwithin
          refine ⟨b', ?_, hlt, hno⟩
          have : b' ≠ i := fun h => hno (h ▸ hread) (h ▸ hends)
          omega
        rcases ih (by omega) hlost' with ⟨hrun, hall⟩ | ⟨hrun, b, hi, hb, hall, hno⟩
        · refine .inl ⟨hrun, fun b hi hb hfind => ?_⟩
          rcases Nat.eq_or_lt_of_le hi with rfl | hlt
          · exact hends
          · exact hall b hlt hb fun b' hb' => hfind b' (by omega)
        · refine .inr ⟨hrun, b, by omega, hb, fun b' hb' hle => ?_, hno⟩
          rcases Nat.eq_or_lt_of_le hb' with rfl | hlt
          · exact hread
          · exact hall b' hlt hle
      · refine .inr ⟨?_, i, Nat.le_refl i, by omega, fun b' hb' hle => ?_, hends⟩
        · rw [scanBlocks, hblk]
          simp only
          rw [Ext4IndexNode.scan_not_within hw,
            if_neg (show ¬∃ e ∈ D.entries i, e.inode = 0 from hends)]
          rfl
        · obtain rfl : b' = i := by omega
          exact hread

variable (name) in
/-- The loop of `lookup` scans the blocks, and unpins the buffers that it has pinned. -/
theorem lookupLoop_eq {n i : Nat} (hn : i + n = d.hasBlocks) (pins : Pins) :
    (∃ f, d.lookupLoop inode v fuel name n i pins = .error f ∧
      D.scanBlocks name n i = .error f) ∨ ∃ r q, d.lookupLoop inode v fuel name n i pins =
        .ok (r, q) ∧ D.scanBlocks name n i = .ok r ∧ ∀ blk, q blk = true →
          pins blk = true ∧ ∀ b, i ≤ b → b < d.hasBlocks →
          (∀ b', i ≤ b' → b' < b → (find b').isSome ∧
            ¬Htree.Within (D.entries b') name) →
          ¬Ext4Inode.Visits find index b blk := by
  induction n generalizing i pins with
  | zero =>
    exact .inr ⟨none, pins, rfl, rfl, fun blk hblk => ⟨hblk, fun b hi hb => by omega⟩⟩
  | succ n ih =>
    obtain ⟨q, hread, hq⟩ := D.reads i (by omega) pins
    rw [Ext4IndexNode.lookupLoop, scanBlocks, hread, ok_bind]
    cases hfind : find i with
    | none =>
      refine .inr ⟨none, q, rfl, rfl, fun blk hblk => ?_⟩
      obtain ⟨hold, hindex⟩ := (hq blk hblk).resolve_left
        (by rw [hfind]; exact fun h => nomatch h)
      refine ⟨hold, fun b hi hb hpast => ?_⟩
      rcases Nat.eq_or_lt_of_le hi with rfl | hlt
      · rintro (hvis | hvis)
        · exact hindex hvis
        · rw [hfind] at hvis
          cases hvis
      · have := (hpast i (Nat.le_refl i) hlt).1
        rw [hfind] at this
        cases this
    | some buf =>
      have hcount : i < D.count := lt_count (by omega) (by rw [hfind]; rfl)
      have hscan : d.linearLookup name (v.readBlock buf) = d.scan name (D.entries i) := by
        have hchain := D.chain i hcount buf hfind
        rw [← D.blockSize] at hchain
        exact Ext4IndexNode.linearLoop_eq hchain name (by omega)
      -- the buffers that are still pinned after the block
      have hrest : ∀ blk, q.unpin buf blk = true →
          pins blk = true ∧ ¬Ext4Inode.Visits find index i blk := fun blk hblk => by
        obtain ⟨hold, hne⟩ := Pins.unpin_eq hblk
        rcases hq blk hold with hbuf | ⟨hfirst, hindex⟩
        · exact absurd (Option.some.inj (hfind.symm.trans hbuf)).symm hne
        · refine ⟨hfirst, ?_⟩
          rintro (hvis | hvis)
          · exact hindex hvis
          · exact hne (Option.some.inj (hfind.symm.trans hvis)).symm
      simp only [hscan]
      by_cases hw : Htree.Within (D.entries i) name
      · obtain ⟨e, he, -, hfound⟩ := scan_found hcount hw
        obtain ⟨node, hnode⟩ := Option.isSome_iff_exists.mp (subNode_isSome he)
        rw [hfound, ok_bind, ok_bind, hnode]
        refine .inr ⟨some node, q.unpin buf, rfl, rfl,
          fun blk hblk => ⟨(hrest blk hblk).1, fun b hi hb hpast => ?_⟩⟩
        rcases Nat.eq_or_lt_of_le hi with rfl | hlt
        · exact (hrest blk hblk).2
        · exact absurd hw (hpast i (Nat.le_refl i) hlt).2
      · rw [Ext4IndexNode.scan_not_within hw]
        by_cases hends : ∃ e ∈ D.entries i, e.inode = 0
        · rw [if_pos hends, ok_bind, ok_bind]
          rcases ih (i := i + 1) (by omega) ((q.unpin buf).unpin buf) with herr |
              ⟨r, q', hrun, hscan', hq'⟩
          · exact .inl herr
          · refine .inr ⟨r, q', hrun, hscan', fun blk hblk => ?_⟩
            obtain ⟨hold, hnot⟩ := hq' blk hblk
            obtain ⟨hfirst, hvis⟩ := hrest blk (Pins.unpin_eq hold).1
            refine ⟨hfirst, fun b hi hb hpast => ?_⟩
            rcases Nat.eq_or_lt_of_le hi with rfl | hlt
            · exact hvis
            · exact hnot b hlt hb fun b' hb' => hpast b' (by omega)
        · rw [if_neg hends]
          exact .inl ⟨_, rfl, rfl⟩

/-! ### The lookup -/

theorem lookupLinear_dot (hdir : d.mode &&& 0x4000 ≠ 0) (pins : Pins) :
    d.lookupLinear inode v fuel nameDot pins = .ok (some .self, pins) := by
  rw [Ext4IndexNode.lookupLinear, if_neg hdir, if_pos rfl]

/-- The directory itself is found without a search. -/
theorem looksUp_dot : D.LooksUp nameDot ↔ ∃ e ∈ D.live, e.name = nameDot := by
  have hsearch : D.search nameDot = some .self ↔ ∃ e ∈ D.live, e.name = nameDot := by
    unfold search
    cases hf : D.live.find? (·.name = nameDot) with
    | none =>
      refine iff_of_false (fun h => nomatch h) fun ⟨e, he, hname⟩ => ?_
      have := List.find?_eq_none.mp hf e he
      simp [hname] at this
    | some e =>
      have hname := List.find?_some hf
      simp only [decide_eq_true_eq] at hname
      exact iff_of_true rfl ⟨e, List.mem_of_find?_eq_some hf, hname⟩
  rw [← hsearch]
  constructor
  · intro h
    obtain ⟨q, hok, -⟩ := h fun _ => false
    rw [lookupLinear_dot D.isDir] at hok
    exact (congrArg Prod.fst (Except.ok.inj hok)).symm
  · intro h pins
    refine ⟨pins, by rw [lookupLinear_dot D.isDir, h],
      fun blk hblk => ⟨hblk, fun hne => absurd rfl hne⟩⟩

/-- The lookup is right exactly where the scan of the blocks is. -/
theorem looksUp_iff_scan (hdot : name ≠ nameDot) :
    D.LooksUp name ↔ D.scanBlocks name d.hasBlocks 0 = .ok (D.search name) := by
  have hrun : ∀ pins, d.lookupLinear inode v fuel name pins =
      d.lookupLoop inode v fuel name d.hasBlocks 0 pins :=
    fun pins => by rw [Ext4IndexNode.lookupLinear, if_neg D.isDir, if_neg hdot]
  unfold LooksUp
  constructor
  · intro h
    obtain ⟨q, hok, -⟩ := h fun _ => false
    rw [hrun] at hok
    rcases D.lookupLoop_eq name (Nat.zero_add _) fun _ =>
      false with ⟨f, herr, -⟩ | ⟨r, q', hok', hscan, -⟩
    · rw [hok] at herr
      cases herr
    · rw [hok] at hok'
      rw [hscan]
      exact congrArg (fun r => Except.ok r.1) (Except.ok.inj hok').symm
  · intro h pins
    rcases D.lookupLoop_eq name (Nat.zero_add _) pins with
        ⟨f, -, herr⟩ | ⟨r, q, hok, hscan, hq⟩
    · rw [h] at herr
      cases herr
    · obtain rfl : D.search name = r := Except.ok.inj (h.symm.trans hscan)
      refine ⟨q, by rw [hrun, hok], fun blk hblk => ⟨(hq blk hblk).1, fun _ b hvis => ?_⟩⟩
      exact (hq blk hblk).2 b (Nat.zero_le b) hvis.1 fun b' _ => hvis.2 b'

theorem search_live (hdot : name ≠ nameDot) {e : DirEntry} (he : e ∈ D.live)
    (hname : e.name = name) : D.search name = d.subNode e.inode := by
  unfold search
  cases hf : D.live.find? (·.name = name) with
  | none =>
    have := List.find?_eq_none.mp hf e he
    simp [hname] at this
  | some e' =>
    have hname' := List.find?_some hf
    simp only [decide_eq_true_eq] at hname'
    obtain ⟨⟨b, hb, hmem⟩, hlive⟩ := mem_live.mp he
    obtain ⟨⟨b', hb', hmem'⟩, hlive'⟩ := mem_live.mp (List.mem_of_find?_eq_some hf)
    rw [Option.bind_some, if_neg hdot,
      D.unique b' hb' e' hmem' b hb e hmem hlive' hlive (hname'.trans hname.symm)]

theorem search_none (h : ∀ e ∈ D.live, e.name ≠ name) : D.search name = none := by
  unfold search
  rw [List.find?_eq_none.mpr fun e he => by simpa using h e he]
  rfl

/-- A live name is found exactly where the scan comes to it. -/
theorem scan_live_iff (hdot : name ≠ nameDot) {e : DirEntry} (he : e ∈ D.live)
    (hname : e.name = name) : D.scanBlocks name d.hasBlocks 0 = .ok (D.search name) ↔
      D.Found name := by
  rw [search_live hdot he hname]
  by_cases hfound : D.Found name
  · obtain ⟨b, hb, hfind, hwithin, hbefore⟩ := hfound
    obtain ⟨e', he', hname', hrun⟩ :=
      scanBlocks_found (Nat.zero_add _) (Nat.zero_le b) hb hfind hwithin
      fun b' _ hlt => hbefore b' hlt
    refine iff_of_true ?_ ⟨b, hb, hfind, hwithin, hbefore⟩
    rw [hrun, ← search_live hdot he' hname', search_live hdot he hname]
  · refine iff_of_false (fun hrun => ?_) hfound
    obtain ⟨node, hnode⟩ := Option.isSome_iff_exists.mp (subNode_isSome he)
    rw [hnode] at hrun
    have hlost : ∀ b, 0 ≤ b → b < d.hasBlocks → (find b).isSome →
        Htree.Within (D.entries b) name → ∃ b', 0 ≤ b' ∧ b' < b ∧
          ((find b').isSome → ¬D.Ends b') := fun b _ hb hfind hwithin => by
      by_contra hall
      refine hfound ⟨b, hb, hfind, hwithin, fun b' hlt => ?_⟩
      by_contra hno
      exact hall ⟨b', Nat.zero_le b', hlt, fun hread hends => hno ⟨hread, hends⟩⟩
    rcases scanBlocks_lost (Nat.zero_add _) hlost with ⟨hnone, -⟩ | ⟨herr, -⟩
    · rw [hnone] at hrun
      cases hrun
    · rw [herr] at hrun
      cases hrun

/-- Any other name is not found, but the scan for it must end. -/
theorem scan_other_iff (h : ∀ e ∈ D.live, e.name ≠ name) :
    D.scanBlocks name d.hasBlocks 0 = .ok (D.search name) ↔ D.AllEnd := by
  rw [search_none h]
  have hlost : ∀ b, 0 ≤ b → b < d.hasBlocks → (find b).isSome →
      Htree.Within (D.entries b) name → ∃ b', 0 ≤ b' ∧ b' < b ∧
        ((find b').isSome → ¬D.Ends b') := fun b _ hb hfind hwithin => by
    obtain ⟨e, he, hname, -⟩ := scan_found (lt_count hb hfind) hwithin
    exact absurd hname (h e he)
  rcases scanBlocks_lost (Nat.zero_add _) hlost with
      ⟨hnone, hall⟩ | ⟨herr, b, -, hb, hread, hno⟩
  · exact iff_of_true hnone fun b hb hread => hall b (Nat.zero_le b) hb fun b' _ => hread b'
  · refine iff_of_false (fun hrun => ?_) fun hall =>
      hno (hall b hb fun b' => hread b' (Nat.zero_le b'))
    rw [herr] at hrun
    cases hrun

end LookupDir

open LookupDir in
/-- `lookup` in a directory without an index finds what there is, and unpins what it has pinned,
exactly where the scan comes to the entry, or ends in all blocks that it comes to. -/
theorem linear_lookup_iff {ι : Type} (d : Ext4IndexNode ι) (inode : Ext4Inode) (v : Volume)
    (fuel : Nat) (find : Nat → Option Nat) (index : Nat → Nat → Prop)
    (D : LookupDir d inode v fuel find index) (name : Name) :
    D.LooksUp name ↔ D.Reached name := by
  unfold LookupDir.Reached
  by_cases hdot : name = nameDot
  · subst hdot
    rw [looksUp_dot]
    refine ⟨fun ⟨e, he, hname⟩ =>
      ⟨fun _ hne => absurd rfl hne, fun hno => absurd hname (hno e he)⟩, fun h => ?_⟩
    by_contra hno
    exact (h.2 fun e he hname => hno ⟨e, he, hname⟩).1 rfl
  rw [looksUp_iff_scan hdot]
  by_cases h : ∃ e ∈ D.live, e.name = name
  · obtain ⟨e, he, hname⟩ := h
    rw [scan_live_iff hdot he hname]
    exact ⟨fun hf => ⟨fun _ _ => hf, fun hno => absurd hname (hno e he)⟩,
      fun hr => hr.1 ⟨e, he, hname⟩ hdot⟩
  · have hno : ∀ e ∈ D.live, e.name ≠ name := fun e he hname => h ⟨e, he, hname⟩
    rw [scan_other_iff hno]
    exact ⟨fun hall => ⟨fun hyes => absurd hyes h, fun _ => ⟨hdot, hall⟩⟩,
      fun hr => (hr.2 hno).2⟩

/-! A directory of one block, whose second entry is deleted. -/

def deletedNode : Ext4IndexNode Nat where
  mode := 0x41ed
  index := false
  hasBlocks := 1
  blockSize := 1024
  readLogicalBlock := fun _ => none
  readInode := some
  inodeMode := fun _ => 0x81a4
  htreeHash := fun _ _ => none

/-- The entry `c`, a deleted entry, the entry `a` of 988 bytes, and the checksum. -/
def deletedVolume : Volume where
  blockSize := 1024
  support64bit := true
  readBlock _ := fun a =>
    if a < 1012 then (bytesOf [12, 0, 0, 0, 12, 0, 1, 1, 99, 0, 0, 0, 0, 0, 0, 0, 12, 0, 1, 1, 98,
      0, 0, 0, 11, 0, 0, 0, 220, 3, 1, 1, 97]) a
    else (bytesOf [0, 0, 0, 0, 12, 0, 0, 222]) (a - 1012)

def deletedEntries : List DirEntry :=
  [⟨12, 12, 1, [99]⟩, ⟨0, 12, 1, [98]⟩, ⟨11, 988, 1, [97]⟩, ⟨0, 12, 222, []⟩]

theorem deleted_chain : Chain 1024 (deletedVolume.readBlock 30) 0 deletedEntries := by
  have h₀ : direntAt (deletedVolume.readBlock 30) 0 = ⟨12, 12, 1, [99]⟩ := rfl
  have h₁ : direntAt (deletedVolume.readBlock 30) 12 = ⟨0, 12, 1, [98]⟩ := rfl
  have h₂ : direntAt (deletedVolume.readBlock 30) 24 = ⟨11, 988, 1, [97]⟩ := rfl
  have h₃ : direntAt (deletedVolume.readBlock 30) 1012 = ⟨0, 12, 222, []⟩ := rfl
  have t₃ := @Chain.cons 1024 (deletedVolume.readBlock 30) 1012 []
  have t₂ := @Chain.cons 1024 (deletedVolume.readBlock 30) 24 [⟨0, 12, 222, []⟩]
  have t₁ := @Chain.cons 1024 (deletedVolume.readBlock 30)
    12 [⟨11, 988, 1, [97]⟩, ⟨0, 12, 222, []⟩]
  have t₀ := @Chain.cons 1024 (deletedVolume.readBlock 30) 0
    [⟨0, 12, 1, [98]⟩, ⟨11, 988, 1, [97]⟩, ⟨0, 12, 222, []⟩]
  rw [h₃] at t₃
  rw [h₂] at t₂
  rw [h₁] at t₁
  rw [h₀] at t₀
  exact t₀ (by decide) (by decide) (by decide) (t₁ (by decide) (by decide) (by decide)
    (t₂ (by decide) (by decide) (by decide) (t₃ (by decide) (by decide) (by decide) .nil)))

theorem deleted_wf : deletedVolume.TreeWf 0 linearInode.root := by
  refine ⟨rfl, ⟨by decide, by decide⟩, fun i hi => ?_⟩
  have : linearInode.root.count = 1 := rfl
  omega

theorem deleted_find : deletedVolume.find 0 linearInode.root 0 = some 30 := by
  have hmap : linearInode.MappedTo deletedVolume 0 1 := fun b hb =>
    ⟨⟨0, 1, 30, true⟩, ⟨0, by decide, by decide⟩, rfl, Nat.zero_le b, hb⟩
  obtain ⟨e, ⟨i, hi, rfl⟩, -, -, hfind⟩ := hmap.find deleted_wf (Nat.lt_succ_self 0)
  have hcount : linearInode.root.count = 1 := rfl
  obtain rfl : i = 0 := by omega
  rw [hfind]
  rfl

def deletedDir : LookupDir deletedNode linearInode deletedVolume 1
    (deletedVolume.find 0 linearInode.root)
      (fun b => deletedVolume.OnPath b 0 linearInode.root) where
  isDir := by decide
  blockSize := rfl
  count := 1
  entries _ := deletedEntries
  reads b _ pins := Ext4Inode.finds rfl deleted_wf (Nat.lt_succ_self 0) b pins
  behind b hle hlt := absurd hlt (by change ¬b < 1; omega)
  chain _ _ _ _ := deleted_chain
  unique _ _ e he _ _ e' he' :=
    (by decide : ∀ e ∈ deletedEntries, ∀ e' ∈ deletedEntries,
      e.inode ≠ 0 → e'.inode ≠ 0 → e.name = e'.name →
      e.inode = e'.inode) e he e' he'
  inodes _ _ _ _ _ := rfl

/-- The entry before the deleted one is found. -/
theorem deleted_finds : deletedDir.search [99] = some (.sub 12 0x1a4 .normal) ∧
    deletedDir.LooksUp [99] := by
  have hsearch : deletedDir.search [99] = some (.sub 12 0x1a4 .normal) := rfl
  refine ⟨hsearch, (LookupDir.looksUp_iff_scan (by decide)).mpr ?_⟩
  change deletedDir.scanBlocks [99] 1 0 = _
  rw [hsearch, LookupDir.scanBlocks, deleted_find]
  rfl

/-- The entry behind the deleted one is not found. -/
theorem deleted_hides : deletedNode.readInode 11 = some 11 ∧ ¬deletedDir.LooksUp [97] := by
  refine ⟨rfl, fun h => ?_⟩
  have hscan := (LookupDir.looksUp_iff_scan (by decide)).mp h
  have hsearch : deletedDir.search [97] = some (.sub 11 0x1a4 .normal) := rfl
  have hrun : deletedDir.scanBlocks [97] 1 0 = .ok none := by
    rw [LookupDir.scanBlocks, deleted_find]
    rfl
  rw [hsearch] at hscan
  cases hrun.symm.trans hscan

end OsKernel.Fs.Ext4

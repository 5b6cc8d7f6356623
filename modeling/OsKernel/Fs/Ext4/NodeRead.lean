import OsKernel.Fs.Ext4.LogicalBlock

/-! `Ext4IndexNode::nodeRead`: the bytes of a file, block by block. -/

namespace OsKernel.Fs.Ext4

open Lib

namespace Ext4Inode

variable (inode : Ext4Inode) (v : Volume)

/-- `_cal_size`, as a `size_t`. -/
def calSize : Nat :=
  if v.support64bit then inode.sizeLo.toNat + inode.sizeHigh.toNat * 2 ^ 32 else inode.sizeLo.toNat

/-- `rFileSize`. -/
def rFileSize : Nat := inode.sizeLo.toNat + inode.sizeHigh.toNat * 2 ^ 32

/-- What is returned, the memory with the destination, and the flags. -/
abbrev NodeReadResult := Except Fault (Nat × Mem × Pins)

/-- The loop from the byte `i` on, with `rest` bytes to go, and the block `current` in the buffer
of `buf`. -/
def readLoop (fuel dst off : Nat) : Nat → Nat → Nat → Nat → Mem → Pins → NodeReadResult
  | 0, i, _, buf, mem, pins => .ok (i, mem, pins.unpin buf)
  | rest + 1, i, current, buf, mem, pins =>
    let bOff := (off + i) % 2 ^ 64 % v.blockSize
    let needed := (off + i) % 2 ^ 64 / v.blockSize
    if needed ≠ current then do
      let r ← inode.readLogicalBlock v fuel needed true (pins.unpin buf)
      match r.1 with
      | none => .ok (i, mem, r.2)
      | some buf =>
        readLoop fuel dst off rest (i + 1) needed buf
          (Function.update mem (dst + i) (v.readBlock buf bOff)) r.2
    else
      readLoop fuel dst off rest (i + 1) current buf
        (Function.update mem (dst + i) (v.readBlock buf bOff)) pins

/-- `nodeRead`, to a destination that is not in a buffer of the pool. -/
def nodeRead (fuel dst off len : Nat) (mem : Mem) (pins : Pins) : NodeReadResult :=
  if inode.calSize v ≤ off then .ok (0, mem, pins)
  else do
    let readLen := if (off + len) % 2 ^ 64 ≤ inode.calSize v then len else inode.calSize v - off
    let r ← inode.readLogicalBlock v fuel (off / v.blockSize) true pins
    match r.1 with
    | none => .ok (0, mem, r.2)
    | some buf => inode.readLoop v fuel dst off readLen 0 (off / v.blockSize) buf mem r.2

/-! ### Any search of blocks -/

variable {v inode}

/-- The bytes up to the first block that is not found. -/
def bytesFrom (v : Volume) (find : Nat → Option Nat) (off : Nat) : Nat → Nat → List UInt8
  | 0, _ => []
  | rest + 1, i =>
    match find ((off + i) / v.blockSize) with
    | none => []
    | some blk => v.readBlock blk ((off + i) % v.blockSize) :: bytesFrom v find off rest (i + 1)

/-- Blocks are found by `find`, and the index blocks `index b` on the way to the block `b`
are unpinned. -/
def Finds (inode : Ext4Inode) (v : Volume) (fuel : Nat) (find : Nat → Option Nat)
    (index : Nat → Nat → Prop) : Prop :=
  ∀ b pins, ∃ q, inode.readLogicalBlock v fuel b true pins = .ok (find b, q) ∧
    ∀ blk, q blk = true → find b = some blk ∨ (pins blk = true ∧ ¬index b blk)

variable {fuel : Nat} {find : Nat → Option Nat} {index : Nat → Nat → Prop}

/-- The block is pinned on the way to the block `b` of the file, or is its block. -/
def Visits (find : Nat → Option Nat) (index : Nat → Nat → Prop) (b blk : Nat) : Prop :=
  index b blk ∨ find b = some blk

theorem bytesFrom_length (off : Nat) (rest i : Nat) :
    (bytesFrom v find off rest i).length ≤ rest := by
  induction rest generalizing i with
  | zero => exact Nat.le_refl 0
  | succ rest ih =>
    rw [bytesFrom]
    cases find ((off + i) / v.blockSize) with
    | none => exact Nat.zero_le _
    | some blk => exact Nat.succ_le_succ (ih (i + 1))

/-- The loop stores the bytes up to the first block that is not found.  `V` are the blocks that were
pinned for the file so far; but for the buffer of the current one they are unpinned, and so are
those of the blocks that follow. -/
theorem readLoop_eq (h : Finds inode v fuel find index) (dst : Nat) {off : Nat} {pins₀ : Pins}
    {rest i : Nat} (hoff : off + i + rest < 2 ^ 64) {current buf : Nat}
    (hbuf : find current = some buf) {V : Nat → Prop}
    (mem : Mem) {pins : Pins}
    (hpins : ∀ blk, pins blk = true → blk = buf ∨ (pins₀ blk = true ∧ ¬V blk))
    (hV : ∀ blk, Visits find index current blk → V blk) :
    ∃ q, inode.readLoop v fuel dst off rest i current buf mem pins =
        .ok (i + (bytesFrom v find off rest i).length,
          mem.store (dst + i) (bytesFrom v find off rest i), q) ∧
      ∀ blk, q blk = true → pins₀ blk = true ∧ ¬V blk ∧ ∀ j, i ≤ j →
        j < i + rest → j ≤ i + (bytesFrom v find off rest i).length →
          ¬Visits find index ((off + j) / v.blockSize) blk := by
  induction rest generalizing i current buf V mem pins with
  | zero =>
    refine ⟨pins.unpin buf, ?_, fun blk hblk => ?_⟩
    · rw [readLoop, bytesFrom, Mem.store_nil]
      rfl
    · obtain ⟨hold, hne⟩ := Pins.unpin_eq hblk
      obtain ⟨hfirst, hnot⟩ := (hpins blk hold).resolve_left hne
      exact ⟨hfirst, hnot, fun j hj hj' => by omega⟩
  | succ rest ih =>
    have hpos : (off + i) % 2 ^ 64 = off + i := Nat.mod_eq_of_lt (by omega)
    by_cases hsame : (off + i) / v.blockSize = current
    · obtain ⟨q, hrun, hq⟩ := ih (i := i + 1) (by omega) hbuf
        (Function.update mem (dst + i) (v.readBlock buf ((off + i) % v.blockSize))) hpins hV
      have hbytes : bytesFrom v find off (rest + 1) i =
          v.readBlock buf ((off + i) % v.blockSize) :: bytesFrom v find off rest (i + 1) := by
        rw [bytesFrom, hsame, hbuf]
      refine ⟨q, ?_, fun blk hblk => ?_⟩
      · rw [readLoop, hpos, hsame]
        simp only [ne_eq, not_true_eq_false, if_false]
        rw [hrun, hbytes, ← Mem.store_cons, List.length_cons, Nat.add_assoc dst, Nat.add_assoc i,
          Nat.add_comm 1]
      · obtain ⟨hfirst, hnot, hrest⟩ := hq blk hblk
        refine ⟨hfirst, hnot, fun j hj hj' hlen => ?_⟩
        rcases Nat.eq_or_lt_of_le hj with rfl | hlt
        · rw [hsame]
          exact fun hvis => hnot (hV blk hvis)
        · rw [hbytes, List.length_cons] at hlen
          exact hrest j hlt (by omega) (by omega)
    · obtain ⟨q, hread, hq⟩ := h ((off + i) / v.blockSize) (pins.unpin buf)
      have hold : ∀ blk, pins.unpin buf blk = true → pins₀ blk = true ∧ ¬V blk :=
          fun blk hblk =>
        (hpins blk (Pins.unpin_eq hblk).1).resolve_left (Pins.unpin_eq hblk).2
      cases hnext : find ((off + i) / v.blockSize) with
      | none =>
        rw [hnext] at hread
        have hbytes : bytesFrom v find off (rest + 1) i = [] := by rw [bytesFrom, hnext]
        refine ⟨q, ?_, fun blk hblk => ?_⟩
        · rw [readLoop, hpos]
          simp only [ne_eq, hsame, not_false_eq_true, if_true]
          rw [hread, ok_bind, hbytes]
          simp only [List.length_nil, Nat.add_zero]
          rw [Mem.store_nil]
        · obtain ⟨hun, hindex⟩ := (hq blk hblk).resolve_left
            (by rw [hnext]; exact fun h => nomatch h)
          refine ⟨(hold blk hun).1, (hold blk hun).2, fun j hj hj' hlen => ?_⟩
          rw [hbytes, List.length_nil] at hlen
          rw [show j = i by omega]
          rintro (hvis | hvis)
          · exact hindex hvis
          · rw [hnext] at hvis
            cases hvis
      | some new =>
        rw [hnext] at hread hq
        have hbytes : bytesFrom v find off (rest + 1) i =
            v.readBlock new ((off + i) % v.blockSize) :: bytesFrom v find off rest (i + 1) := by
          rw [bytesFrom, hnext]
        obtain ⟨q', hrun, hq'⟩ := ih (i := i + 1) (by omega) hnext
          (V := fun blk => V blk ∨ Visits find index ((off + i) / v.blockSize) blk)
          (Function.update mem (dst + i) (v.readBlock new ((off + i) % v.blockSize)))
          (fun blk hblk => by
            rcases hq blk hblk with hnew | ⟨hun, hindex⟩
            · exact .inl (Option.some.inj hnew).symm
            · by_cases hne : blk = new
              · exact .inl hne
              · refine .inr ⟨(hold blk hun).1, ?_⟩
                rintro (hv | hv | hv)
                · exact (hold blk hun).2 hv
                · exact hindex hv
                · rw [hnext] at hv
                  exact hne (Option.some.inj hv).symm)
          fun blk hvis => .inr hvis
        refine ⟨q', ?_, fun blk hblk => ?_⟩
        · rw [readLoop, hpos]
          simp only [ne_eq, hsame, not_false_eq_true, if_true]
          rw [hread, ok_bind]
          simp only
          rw [hrun, hbytes, ← Mem.store_cons, List.length_cons, Nat.add_assoc dst,
            Nat.add_assoc i, Nat.add_comm 1]
        · obtain ⟨hfirst, hnot, hrest⟩ := hq' blk hblk
          refine ⟨hfirst, fun hv => hnot (.inl hv), fun j hj hj' hlen => ?_⟩
          rcases Nat.eq_or_lt_of_le hj with rfl | hlt
          · exact fun hvis => hnot (.inr hvis)
          · rw [hbytes, List.length_cons] at hlen
            exact hrest j hlt (by omega) (by omega)

/-- `nodeRead` stores the bytes up to the size and up to the first block that is not found. -/
theorem nodeRead_eq (h : Finds inode v fuel find index) {off len : Nat} (hlen : off + len < 2 ^ 64)
    (dst : Nat) (mem : Mem) (pins : Pins) {bytes : List UInt8}
    (hbytes : bytes = bytesFrom v find off (min len (inode.calSize v - off)) 0) :
    ∃ q, inode.nodeRead v fuel dst off len mem pins =
      .ok (bytes.length, mem.store dst bytes, q) ∧ ∀ blk, q blk = true → pins blk = true ∧
        (off < inode.calSize v → ∀ j, j = 0 ∨ j < bytes.length →
          ¬Visits find index ((off + j) / v.blockSize) blk) := by
  subst hbytes
  unfold nodeRead
  by_cases hpast : inode.calSize v ≤ off
  · rw [if_pos hpast, Nat.sub_eq_zero_of_le hpast, Nat.min_zero, bytesFrom, Mem.store_nil]
    exact ⟨pins, rfl, fun blk hblk => ⟨hblk, fun hlt => absurd hlt (by omega)⟩⟩
  · rw [if_neg hpast]
    have hread : (if (off + len) % 2 ^ 64 ≤ inode.calSize v then len else inode.calSize v - off) =
        min len (inode.calSize v - off) := by
      rw [Nat.mod_eq_of_lt hlen]
      split <;> omega
    simp only [hread]
    generalize hn : min len (inode.calSize v - off) = n
    have hnoff : off + 0 + n < 2 ^ 64 := by omega
    obtain ⟨q, hfirst, hq⟩ := h (off / v.blockSize) pins
    rw [hfirst, ok_bind]
    cases hfind : find (off / v.blockSize) with
    | none =>
      have hnil : bytesFrom v find off n 0 = [] := by
        cases n with
        | zero => rfl
        | succ n => rw [bytesFrom, Nat.add_zero, hfind]
      rw [hnil, Mem.store_nil]
      refine ⟨q, rfl, fun blk hblk => ?_⟩
      obtain ⟨hold, hindex⟩ := (hq blk hblk).resolve_left
        (by rw [hfind]; exact fun h => nomatch h)
      refine ⟨hold, fun _ j hj => ?_⟩
      rw [show j = 0 by rw [List.length_nil] at hj; omega, Nat.add_zero]
      rintro (hvis | hvis)
      · exact hindex hvis
      · rw [hfind] at hvis
        cases hvis
    | some buf =>
      obtain ⟨q', hrun, hq'⟩ := readLoop_eq h dst hnoff hfind
        (V := Visits find index (off / v.blockSize)) mem (fun blk hblk => by
          rcases hq blk hblk with hbuf | ⟨hold, hindex⟩
          · exact .inl (Option.some.inj (hfind.symm.trans hbuf)).symm
          · by_cases hne : blk = buf
            · exact .inl hne
            · refine .inr ⟨hold, ?_⟩
              rintro (hvis | hvis)
              · exact hindex hvis
              · exact hne (Option.some.inj (hfind.symm.trans hvis)).symm) fun blk hvis => hvis
      refine ⟨q', ?_, fun blk hblk => ?_⟩
      · simp only
        rw [hrun, Nat.zero_add, Nat.add_zero]
      · obtain ⟨hold, hnot, hrest⟩ := hq' blk hblk
        refine ⟨hold, fun _ j hj => ?_⟩
        rcases hj with rfl | hj
        · exact hnot
        · have hle : (bytesFrom v find off n 0).length ≤ n := bytesFrom_length off n 0
          exact hrest j (Nat.zero_le j) (by omega) (by omega)

/-- Every byte is read where every block is found. -/
theorem bytesFrom_found {off rest i : Nat}
    (h : ∀ j, i ≤ j → j < i + rest → (find ((off + j) / v.blockSize)).isSome) :
    (bytesFrom v find off rest i).length = rest := by
  induction rest generalizing i with
  | zero => rfl
  | succ rest ih =>
    have hi := h i (Nat.le_refl i) (by omega)
    obtain ⟨blk, hblk⟩ := Option.isSome_iff_exists.mp hi
    rw [bytesFrom, hblk]
    simp only [List.length_cons]
    rw [ih fun j hj hj' => h j (by omega) (by omega)]

/-- The bytes that are read are those of the blocks that are found. -/
theorem bytesFrom_get {off rest i j : Nat} (h : j < (bytesFrom v find off rest i).length) :
    ∃ blk, find ((off + (i + j)) / v.blockSize) = some blk ∧
      (bytesFrom v find off rest i)[j] = v.readBlock blk ((off + (i + j)) % v.blockSize) := by
  induction rest generalizing i j with
  | zero => exact absurd h (Nat.not_lt_zero j)
  | succ rest ih =>
    cases hblk : find ((off + i) / v.blockSize) with
    | none =>
      simp only [bytesFrom, hblk, List.length_nil] at h
      omega
    | some blk =>
      simp only [bytesFrom, hblk] at h ⊢
      cases j with
      | zero => exact ⟨blk, by rw [Nat.add_zero, hblk], rfl⟩
      | succ j =>
        obtain ⟨blk', hfind, hget⟩ := ih (i := i + 1) (j := j) (Nat.lt_of_succ_lt_succ h)
        rw [show i + (j + 1) = i + 1 + j by omega]
        exact ⟨blk', hfind, hget⟩

theorem bytesFrom_shift (off k m i : Nat) :
    bytesFrom v find (off + k) m i = bytesFrom v find off m (k + i) := by
  induction m generalizing i with
  | zero => rfl
  | succ m ih => rw [bytesFrom, bytesFrom, ih (i + 1), ← Nat.add_assoc off, Nat.add_assoc k]

/-- Two stretches that follow each other are one. -/
theorem bytesFrom_append {off n m i : Nat} (h : (bytesFrom v find off n i).length = n) :
    bytesFrom v find off (n + m) i = bytesFrom v find off n i ++
      bytesFrom v find off m (i + n) := by
  induction n generalizing i with
  | zero =>
    rw [Nat.zero_add, Nat.add_zero]
    rfl
  | succ n ih =>
    rw [Nat.add_right_comm n 1 m]
    cases hblk : find ((off + i) / v.blockSize) with
    | none =>
      simp only [bytesFrom, hblk, List.length_nil] at h
      omega
    | some blk =>
      simp only [bytesFrom, hblk, List.length_cons, List.cons_append] at h ⊢
      rw [ih (Nat.succ.inj h), show i + (n + 1) = i + 1 + n by omega]

end Ext4Inode

end OsKernel.Fs.Ext4

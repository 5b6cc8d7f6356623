import OsKernel.Fs.KernelFiles

/-! Which reads of the files that the kernel makes up are those of a text. -/

namespace OsKernel.Fs

open Hsai Lib

variable {mem mem' : Mem} {dst off len n x : Nat}

/-- The part of a text that a read gives lies in its first characters. -/
theorem take_drop_append {C D : List UInt8} (h : off + len ≤ C.length) :
    ((C ++ D).drop off).take len = (C.drop off).take len := by
  rw [List.drop_append_of_le_length (by omega), List.take_append_of_le_length]
  rw [List.length_drop]
  omega

theorem length_take_drop {C : List UInt8} :
    ((C.drop off).take len).length = min len (C.length - off) := by
  rw [List.length_take, List.length_drop]

/-- A copy of characters of a string. -/
theorem memcpyFrom_ok {C D : List UInt8} (h : off + n ≤ C.length) :
    memcpyFrom mem dst (C ++ D) off n = .ok (mem.store dst ((C.drop off).take n)) := by
  unfold memcpyFrom
  by_cases hn : n = 0
  · rw [if_pos hn, hn, List.take_zero, Mem.store_nil]
  · have hb : (0 : Int) ≤ off ∧ (off : Int) + n ≤ ((C ++ D).length : Nat) := by
      rw [List.length_append]
      omega
    rw [if_neg hn, if_pos hb, Int.toNat_natCast, take_drop_append h]

theorem memcpyFrom_zero {C : List UInt8} {o : Int} : memcpyFrom mem dst C o 0 = .ok mem :=
  if_pos rfl

/-- A copy that returns. -/
theorem memcpyFrom_of_ok {C : List UInt8} {o : Int} (hn : 0 < n)
    (h : memcpyFrom mem dst C o n = .ok mem') :
    0 ≤ o ∧ o + n ≤ C.length ∧ mem' = mem.store dst ((C.drop o.toNat).take n) := by
  unfold memcpyFrom at h
  rw [if_neg (by omega)] at h
  split at h
  · rename_i hb
    exact ⟨hb.1, hb.2, (Except.ok.inj h).symm⟩
  · cases h

/-! ### `busybox.conf` -/

theorem busybox_iff {conf : List UInt8} (hsize : conf.length + 1 < wordSize) (hoff : off < wordSize)
    (hlen : len < wordSize) :
    ReadsText (RamInode.nodeRead true conf) conf off len ↔ BusyboxOk conf.length off len := by
  unfold wordSize at hsize hoff hlen
  constructor
  · intro h
    have hrun := h (fun _ => 0) 0
    simp only [RamInode.nodeRead, if_true] at hrun
    obtain ⟨mem, -, hrun⟩ := bind_eq_ok.mp hrun
    have hr := (Prod.mk.inj (Except.ok.inj hrun)).1
    rw [length_take_drop] at hr
    unfold BusyboxOk
    unfold wordSub wordSize at *
    split at hr <;> omega
  · rintro (hin | ⟨hend, hfits⟩) mem dst
    · have hr : ¬ conf.length + 1 < (off + len) % wordSize := by
        unfold wordSize
        omega
      have hn : min len (conf.length - off) = len := by omega
      simp only [RamInode.nodeRead, if_true, hr, if_false, memcpyFrom_ok hin, ok_bind]
      rw [length_take_drop, hn]
      rfl
    · have hr : (if conf.length + 1 < (off + len) % wordSize then wordSub (conf.length + 1) off
          else len) = 0 := by
        unfold wordSub wordSize at *
        split <;> omega
      simp only [RamInode.nodeRead, if_true, hr, memcpyFrom_zero, ok_bind]
      rw [List.drop_eq_nil_of_le (by omega), List.take_nil, Mem.store_nil]
      rfl

/-! ### The rows -/

section Rows

variable {rows : List (List UInt8)} {o : Int} {r : Nat}

/-- Nothing more is copied once the read has its length. -/
theorem rowsLoop_full : rowsLoop len rows mem dst o len = .ok (len, mem) := by
  induction rows generalizing dst o with
  | nil => rfl
  | cons row rows ih =>
    have hb : (if row.length + len < len then row.length else len - len) = 0 := by
      rw [if_neg (by omega), Nat.sub_self]
    simp only [rowsLoop, hb, memcpyFrom_zero, ok_bind, Nat.add_zero, ih, ite_self]

/-- From the beginning of a row on, the rest is read. -/
theorem rowsLoop_start (hpos : ∀ row ∈ rows, row ≠ []) (hr : r ≤ len) :
    rowsLoop len rows mem dst 0 r = .ok (r + (rows.flatten.take (len - r)).length,
      mem.store dst (rows.flatten.take (len - r))) := by
  induction rows generalizing mem dst r with
  | nil => simp [rowsLoop, Mem.store_nil]
  | cons row rows ih =>
    have hrow : 0 < row.length := List.length_pos_iff.mpr (hpos row (List.mem_cons_self ..))
    have hlt : (0 : Int) < row.length := by exact_mod_cast hrow
    have hb : (if row.length + r < len then row.length else len - r) =
        min row.length (len - r) := by
      split <;> omega
    have hcopy : memcpyFrom mem dst (row ++ [0]) ((0 : Nat) : Int) (min row.length (len - r)) =
        .ok (mem.store dst ((row.drop 0).take (min row.length (len - r)))) :=
      memcpyFrom_ok (by omega)
    rw [List.drop_zero, Int.natCast_zero] at hcopy
    have hsub : len - (r + min row.length (len - r)) = len - r - row.length := by omega
    have htake : row.take (min row.length (len - r)) ++ rows.flatten.take (len - r - row.length) =
        (row :: rows).flatten.take (len - r) := by
      rw [List.flatten_cons, List.take_append, List.take_eq_take_iff.mpr]
      omega
    have hlen : (row.take (min row.length (len - r))).length = min row.length (len - r) := by
      rw [List.length_take]
      omega
    simp only [rowsLoop, hlt, if_true, hb, hcopy, ok_bind]
    rw [ih (fun q hq => hpos q (List.mem_cons_of_mem _ hq)) (by omega), hsub, ← htake,
      Mem.store_append, List.length_append, hlen, Nat.add_assoc]

/-- A read that hits a row. -/
theorem rowsLoop_hit (hpos : ∀ row ∈ rows, row ≠ []) (hlen : 0 < len)
    (h : RowHit len (rows.map List.length) off) :
    rowsLoop len rows mem dst off 0 = .ok (((rows.flatten.drop off).take len).length,
      mem.store dst ((rows.flatten.drop off).take len)) := by
  induction rows generalizing off with
  | nil => exact h.elim
  | cons row rows ih =>
    simp only [List.map_cons, RowHit] at h
    by_cases hoff : off < row.length
    · rw [if_pos hoff] at h
      rcases h with rfl | hin
      · refine (rowsLoop_start hpos (Nat.zero_le len)).trans ?_
        rw [Nat.sub_zero, Nat.zero_add, List.drop_zero]
      · -- The read ends in the row.
        have hb : (if row.length + 0 < len then row.length else len - 0) = len := by
          rw [if_neg (by omega), Nat.sub_zero]
        have hlt : (off : Int) < row.length := by exact_mod_cast hoff
        have hmin : min len (row.length - off) = len := by omega
        simp only [rowsLoop, hlt, if_true, hb, memcpyFrom_ok hin, ok_bind, Nat.zero_add,
          rowsLoop_full, List.flatten_cons, take_drop_append hin, length_take_drop, hmin]
    · rw [if_neg hoff] at h
      obtain ⟨hle, hrest⟩ := h
      have hb : (if row.length + 0 < len then row.length else len - 0) = row.length := by
        split <;> omega
      have hlt : ¬ (off : Int) < row.length := by exact_mod_cast hoff
      have hnext : (off : Int) - row.length = ((off - row.length : Nat) : Int) := by omega
      have hdrop : (row :: rows).flatten.drop off = rows.flatten.drop (off - row.length) := by
        rw [List.flatten_cons, List.drop_append, List.drop_eq_nil_of_le (by omega), List.nil_append]
      simp only [rowsLoop, hlt, if_false, hb, hnext, hdrop]
      exact ih (fun q hq => hpos q (List.mem_cons_of_mem _ hq)) hrest

theorem rowsLoop_skipped (h : RowsSkipped len (rows.map List.length) o) :
    rowsLoop len rows mem dst o 0 = .ok (0, mem) := by
  induction rows generalizing o with
  | nil => rfl
  | cons row rows ih =>
    obtain ⟨hle, hrest⟩ := h
    have hb : (if row.length + 0 < len then row.length else len - 0) = min row.length len := by
      split <;> omega
    have hlt : ¬ o < row.length := Int.not_lt.mpr hle
    have hno : ¬ o < (min row.length len : Nat) := by omega
    simp only [rowsLoop, hlt, if_false, hb, hno]
    exact ih hrest

/-- What the loop has counted stays counted. -/
theorem rowsLoop_le (h : rowsLoop len rows mem dst o r = .ok (n, mem')) : r ≤ n := by
  induction rows generalizing mem dst o r with
  | nil => exact (Prod.mk.inj (Except.ok.inj h)).1.le
  | cons row rows ih =>
    simp only [rowsLoop] at h
    split at h
    · obtain ⟨m, -, h⟩ := bind_eq_ok.mp h
      exact (Nat.le_add_right _ _).trans (ih h)
    · exact ih h

/-- The memory before the destination stays as it is. -/
theorem rowsLoop_before (h : rowsLoop len rows mem dst o r = .ok (n, mem')) (hx : x < dst) :
    mem' x = mem x := by
  induction rows generalizing mem dst o r with
  | nil => rw [← (Prod.mk.inj (Except.ok.inj h)).2]
  | cons row rows ih =>
    simp only [rowsLoop] at h
    generalize hb : (if row.length + r < len then row.length else len - r) = b at h
    split at h
    · obtain ⟨m, hcopy, h⟩ := bind_eq_ok.mp h
      rw [ih h (by omega)]
      rcases Nat.eq_zero_or_pos b with rfl | hpos
      · rw [memcpyFrom_zero] at hcopy
        rw [← Except.ok.inj hcopy]
      · rw [(memcpyFrom_of_ok hpos hcopy).2.2, Mem.store_outside (Or.inl hx)]
    · exact ih h hx

/-- Rows that are not skipped give something. -/
theorem rowsLoop_some (hpos : ∀ row ∈ rows, row ≠ []) (hlen : 0 < len) (ho : 0 ≤ o)
    (h : ¬ RowsSkipped len (rows.map List.length) o)
    (hrun : rowsLoop len rows mem dst o 0 = .ok (n, mem')) : 0 < n := by
  induction rows generalizing o with
  | nil => exact absurd trivial h
  | cons row rows ih =>
    have hrow : 0 < row.length := List.length_pos_iff.mpr (hpos row (List.mem_cons_self ..))
    have hb : (if row.length + 0 < len then row.length else len - 0) = min row.length len := by
      split <;> omega
    simp only [rowsLoop, hb] at hrun
    split at hrun
    · obtain ⟨m, -, hrun⟩ := bind_eq_ok.mp hrun
      have hle := rowsLoop_le hrun
      omega
    · rename_i hlt
      have hno : ¬ o < (min row.length len : Nat) := by omega
      rw [if_neg hno] at hrun
      refine ih (fun q hq => hpos q (List.mem_cons_of_mem _ hq)) (by omega)
        (fun hs => h ⟨?_, hs⟩) hrun
      exact Int.not_lt.mp hlt

end Rows

/-! ### Rows with one marked character -/

/-- Rows of the lengths `ls` whose characters are 2, but that at `a` is 1. -/
def markedRows : List Nat → Int → List (List UInt8)
  | [], _ => []
  | l :: ls, a =>
    (List.range l).map (fun i : Nat => if (i : Int) = a then 1 else 2) :: markedRows ls (a - l)

section Marked

variable {ls : List Nat} {a o : Int}

theorem markedRows_length : (markedRows ls a).map List.length = ls := by
  induction ls generalizing a with
  | nil => rfl
  | cons l ls ih => simp [markedRows, ih]

theorem markedRows_ne_zero {b : UInt8} (hb : b ∈ (markedRows ls a).flatten) : b ≠ 0 := by
  induction ls generalizing a with
  | nil => simp [markedRows] at hb
  | cons l ls ih =>
    rw [markedRows, List.flatten_cons, List.mem_append] at hb
    rcases hb with hb | hb
    · obtain ⟨i, -, rfl⟩ := List.mem_map.mp hb
      split <;> decide
    · exact ih hb

theorem markedRows_at (h : off < ls.sum) : (markedRows ls off).flatten[off]? = some 1 := by
  induction ls generalizing off with
  | nil => simp at h
  | cons l ls ih =>
    rw [markedRows, List.flatten_cons]
    by_cases hl : off < l
    · rw [List.getElem?_append_left (by simpa using hl)]
      simp [hl]
    · rw [List.getElem?_append_right (by simpa using hl)]
      have hnext : (off : Int) - l = ((off - l : Nat) : Int) := by omega
      rw [hnext]
      rw [List.sum_cons] at h
      simpa using ih (show off - l < ls.sum by omega)

/-- Once the offset of the loop is behind the marked character, the first character that is read is
another one. -/
theorem rowsLoop_drift (hpos : ∀ l ∈ ls, 0 < l) (hlen : 0 < len) (ho : 0 ≤ o) (ha : a < o)
    (hrun : rowsLoop len (markedRows ls a) mem dst o 0 = .ok (n, mem')) : n = 0 ∨
      mem' dst = 2 := by
  induction ls generalizing a o with
  | nil => exact Or.inl (Prod.mk.inj (Except.ok.inj hrun)).1.symm
  | cons l ls ih =>
    have hl := hpos l (List.mem_cons_self ..)
    have hb : (if l + 0 < len then l else len - 0) = min l len := by split <;> omega
    simp only [markedRows, rowsLoop, List.length_map, List.length_range, hb] at hrun
    split at hrun
    · rename_i hlt
      obtain ⟨m, hcopy, hrun⟩ := bind_eq_ok.mp hrun
      have hmin : 0 < min l len := by omega
      obtain ⟨-, -, rfl⟩ := memcpyFrom_of_ok hmin hcopy
      refine Or.inr ?_
      rw [rowsLoop_before hrun (by omega)]
      refine Mem.store_at (i := 0) ?_
      have hlt' : o.toNat < l := by omega
      have hne : ¬ ((o.toNat : Nat) : Int) = a := by omega
      rw [List.getElem?_take_of_lt hmin, List.getElem?_drop, Nat.add_zero,
        List.getElem?_append_left (by simpa using hlt'), List.getElem?_map,
        List.getElem?_range hlt', Option.map_some, if_neg hne]
    · rename_i hlt
      have hno : ¬ o < (min l len : Nat) := by omega
      rw [if_neg hno] at hrun
      exact ih (fun k hk => hpos k (List.mem_cons_of_mem _ hk)) (by omega) (by omega) hrun

/-- A read of marked rows that gives characters from the mark on hits the row of its offset. -/
theorem rowHit_of_read (hpos : ∀ l ∈ ls, 0 < l) (hlen : 0 < len) {E : List UInt8}
    (hfirst : E[0]? = some 1) (hzero : ∀ b ∈ E, b ≠ 0)
    (hrun : rowsLoop len (markedRows ls off) mem dst off 0 = .ok (E.length, mem.store dst E)) :
    RowHit len ls off := by
  have hE : 0 < E.length := (List.getElem?_eq_some_iff.mp hfirst).1
  induction ls generalizing off with
  | nil =>
    have hn := (Prod.mk.inj (Except.ok.inj hrun)).1
    omega
  | cons l ls ih =>
    have hl := hpos l (List.mem_cons_self ..)
    have hpos' : ∀ k ∈ ls, 0 < k := fun k hk => hpos k (List.mem_cons_of_mem _ hk)
    have hb : (if l + 0 < len then l else len - 0) = min l len := by split <;> omega
    simp only [markedRows, rowsLoop, List.length_map, List.length_range, hb] at hrun
    unfold RowHit
    by_cases hoff : off < l
    · rw [if_pos hoff]
      rw [if_pos (by exact_mod_cast hoff)] at hrun
      obtain ⟨m, hcopy, hrun⟩ := bind_eq_ok.mp hrun
      by_contra hno
      rw [not_or] at hno
      obtain ⟨-, hle, rfl⟩ := memcpyFrom_of_ok (by omega) hcopy
      simp only [List.length_append, List.length_map, List.length_range,
        List.length_singleton] at hle
      -- The zero behind the row is copied.
      have hn := rowsLoop_le hrun
      have hbyte := rowsLoop_before hrun (show dst + (l - off) < dst + min l len by omega)
      have hin : l - off < E.length := by omega
      rw [Mem.store_at (List.getElem?_eq_getElem hin), Mem.store_at (b := 0) ?_] at hbyte
      · exact hzero _ (List.getElem_mem hin) hbyte
      · rw [List.getElem?_take_of_lt (by omega), List.getElem?_drop, Int.toNat_natCast,
          List.getElem?_append_right (by simp; omega)]
        simp [show off + (l - off) - l = 0 by omega]
    · rw [if_neg hoff]
      rw [if_neg (by exact_mod_cast hoff), if_neg (by omega)] at hrun
      have hle : l ≤ len := by
        by_contra hno
        rcases rowsLoop_drift hpos' hlen (by omega) (by omega) hrun with hn | hbyte
        · omega
        · have hmark := Mem.store_at (m := mem) (a := dst) hfirst
          rw [Nat.add_zero, hbyte] at hmark
          cases hmark
      have hnext : (off : Int) - (min l len : Nat) = ((off - l : Nat) : Int) := by omega
      have hmark : (off : Int) - l = ((off - l : Nat) : Int) := by omega
      rw [hnext, hmark] at hrun
      exact ⟨hle, ih hpos' hrun⟩

end Marked

/-- The offset as an `int`, where it is in a text that is not too long. -/
theorem bmod_of_lt {k : Nat} (hk : k < 2 ^ 31) (h : off < k) : Int.bmod off (2 ^ 32) = off := by
  rw [Int.bmod_def]
  omega

/-- A negative offset is before the first row. -/
theorem rowsLoop_negative {rows : List (List UInt8)} {o : Int} (hne : rows ≠ [])
    (hpos : ∀ row ∈ rows, row ≠ []) (hlen : 0 < len) (ho : o < 0) :
    rowsLoop len rows mem dst o 0 ≠ .ok (n, mem') := by
  intro hrun
  cases rows with
  | nil => exact hne rfl
  | cons row rows =>
    have hrow : 0 < row.length := List.length_pos_iff.mpr (hpos row (List.mem_cons_self ..))
    have hlt : o < row.length := by omega
    have hb : 0 < (if row.length + 0 < len then row.length else len - 0) := by split <;> omega
    simp only [rowsLoop, hlt, if_true] at hrun
    obtain ⟨m, hcopy, -⟩ := bind_eq_ok.mp hrun
    have hle := (memcpyFrom_of_ok hb hcopy).1
    omega

/-- The reads of rows of the lengths `ls` that are right whatever the characters are. -/
theorem rows_iff {ls : List Nat} (hpos : ∀ l ∈ ls, 0 < l) (hfits : ls.sum < 2 ^ 31) :
    (∀ rows, rows.map List.length = ls → ReadsText (nodeReadRows rows) rows.flatten off len) ↔
      RowsOk ls off len := by
  have hsum : ∀ {rows : List (List UInt8)}, rows.map List.length = ls →
      rows.flatten.length = ls.sum := by
    intro rows hrows
    rw [List.length_flatten, hrows]
  have hrow : ∀ {rows : List (List UInt8)}, rows.map List.length = ls → ∀ row ∈ rows,
      row ≠ [] := by
    intro rows hrows row hmem
    exact List.length_pos_iff.mp (hpos _ (hrows ▸ List.mem_map_of_mem hmem))
  constructor
  · intro h
    by_contra hno
    rw [RowsOk, not_or, not_or] at hno
    obtain ⟨hlen, hne, hno⟩ := hno
    have hlen : 0 < len := Nat.pos_of_ne_zero hlen
    have hread := h (markedRows ls off) markedRows_length (fun _ => 0) 0
    rw [nodeReadRows] at hread
    by_cases hoff : off < ls.sum
    · rw [bmod_of_lt hfits hoff] at hno hread
      refine hno ⟨Int.natCast_nonneg _, ?_⟩
      rw [if_pos hoff]
      refine rowHit_of_read hpos hlen ?_ (fun b hb => ?_) hread
      · rw [List.getElem?_take_of_lt hlen, List.getElem?_drop, Nat.add_zero]
        exact markedRows_at hoff
      · exact markedRows_ne_zero (List.mem_of_mem_drop (List.mem_of_mem_take hb))
    · rw [List.drop_eq_nil_of_le (by rw [hsum markedRows_length]; omega), List.take_nil] at hread
      rw [if_neg hoff] at hno
      have hmarked : (markedRows ls off).map List.length = ls := markedRows_length
      have hne' : markedRows ls off ≠ [] := by
        intro he
        rw [he] at hmarked
        exact hne hmarked.symm
      have hrow' := hrow hmarked
      by_cases ho : 0 ≤ Int.bmod off (2 ^ 32)
      · refine absurd (rowsLoop_some hrow' hlen ho (fun hs => hno ⟨ho, ?_⟩) hread)
          (Nat.lt_irrefl 0)
        rwa [markedRows_length] at hs
      · exact rowsLoop_negative hne' hrow' hlen (by omega) hread
  · rintro (rfl | rfl | ⟨ho, h⟩) rows hrows mem dst
    · rw [nodeReadRows, rowsLoop_full, List.take_zero, Mem.store_nil]
      rfl
    · obtain rfl := List.map_eq_nil_iff.mp hrows
      simp [nodeReadRows, rowsLoop, Mem.store_nil]
    · rcases Nat.eq_zero_or_pos len with rfl | hlen
      · rw [nodeReadRows, rowsLoop_full, List.take_zero, Mem.store_nil]
        rfl
      rw [nodeReadRows]
      split at h
      · rename_i hoff
        rw [bmod_of_lt hfits hoff]
        exact rowsLoop_hit (hrow hrows) hlen (by rwa [hrows])
      · rename_i hoff
        rw [rowsLoop_skipped (by rwa [hrows]), List.drop_eq_nil_of_le (by rw [hsum hrows]; omega),
          List.take_nil, Mem.store_nil]
        rfl

/-! ### The counters -/

section Interrupts

variable {nums : List (BitVec 32)} {it : BitVec 32} {r k : Nat}

theorem printintLoop_length : ∀ (k : Nat) {left x : Nat} (s : List UInt8), x < 10 ^ (k + 1) →
    k < left → s.length + 1 ≤ (printintLoop 10 left x s).length ∧
      (printintLoop 10 left x s).length ≤ s.length + (k + 1) := by
  intro k
  induction k with
  | zero =>
    intro left x s hx hleft
    obtain ⟨left, rfl⟩ := Nat.exists_eq_succ_of_ne_zero (by omega : left ≠ 0)
    have hdiv : x / 10 = 0 := by omega
    simp [printintLoop, hdiv]
  | succ k ih =>
    intro left x s hx hleft
    obtain ⟨left, rfl⟩ := Nat.exists_eq_succ_of_ne_zero (by omega : left ≠ 0)
    unfold printintLoop
    simp only
    split
    · simp
    · have hdiv : x / 10 < 10 ^ (k + 1) := by
        rw [pow_succ] at hx
        omega
      have hrest := ih ((chars "0123456789abcdef").getD (x % 10) 0 :: s) hdiv (by omega : k < left)
      rw [List.length_cons] at hrest
      omega

/-- A counter has one to ten digits. -/
theorem printint_length (it : BitVec 32) : 1 ≤ (printint it).length ∧
    (printint it).length ≤ 10 := by
  have hlt := it.isLt
  have hlen := printintLoop_length 9 [] (show it.toNat < 10 ^ 10 by omega) (show 9 < 16 by decide)
  simpa [printint] using hlen

theorem printint_zero : printint 0 = [48] := by decide

/-- The digits are all 2 in a counter of each length, and all but the first, which is 1,
in another. -/
theorem printint_twos (hk : 1 ≤ k) (hk' : k ≤ 10) :
    (∃ it, it ≠ 0 ∧ printint it = List.replicate k 50) ∧
      ∃ it, it ≠ 0 ∧ printint it = 49 :: List.replicate (k - 1) 50 := by
  have h : k = 1 ∨ k = 2 ∨ k = 3 ∨ k = 4 ∨ k = 5 ∨ k = 6 ∨ k = 7 ∨ k = 8 ∨ k = 9 ∨
    k = 10 := by omega
  rcases h with rfl | rfl | rfl | rfl | rfl | rfl | rfl | rfl | rfl | rfl
  · exact ⟨⟨2, by decide, by decide⟩, ⟨1, by decide, by decide⟩⟩
  · exact ⟨⟨22, by decide, by decide⟩, ⟨12, by decide, by decide⟩⟩
  · exact ⟨⟨222, by decide, by decide⟩, ⟨122, by decide, by decide⟩⟩
  · exact ⟨⟨2222, by decide, by decide⟩, ⟨1222, by decide, by decide⟩⟩
  · exact ⟨⟨22222, by decide, by decide⟩, ⟨12222, by decide, by decide⟩⟩
  · exact ⟨⟨222222, by decide, by decide⟩, ⟨122222, by decide, by decide⟩⟩
  · exact ⟨⟨2222222, by decide, by decide⟩, ⟨1222222, by decide, by decide⟩⟩
  · exact ⟨⟨22222222, by decide, by decide⟩, ⟨12222222, by decide, by decide⟩⟩
  · exact ⟨⟨222222222, by decide, by decide⟩, ⟨122222222, by decide, by decide⟩⟩
  · exact ⟨⟨2222222222, by decide, by decide⟩, ⟨1222222222, by decide, by decide⟩⟩

theorem intrLine_length (it : BitVec 32) : (intrLine it).length = (printint it).length + 3 := by
  simp only [intrLine, printint_zero, List.length_append]
  rfl

/-- The loop of `nodeRead`, with the counter that is printed behind the colon. -/
abbrev loop (dst len : Nat) (nums : List (BitVec 32)) (mem : Mem) (r : Nat) : Nat × Mem :=
  interruptsLoop dst len 0 nums mem r

theorem interruptsLoop_stop (h : len ≤ r + 10) : loop dst len nums mem r = (r, mem) := by
  cases nums with
  | nil => rfl
  | cons it nums => rw [loop, interruptsLoop, if_pos h]

theorem interruptsLoop_zero (h : nums.filter (· ≠ 0) = []) :
    loop dst len nums mem r = (r, mem) := by
  induction nums with
  | nil => rfl
  | cons it nums ih =>
    rw [List.filter_eq_nil_iff] at h
    have hit : it = 0 := by simpa using h it (List.mem_cons_self ..)
    rw [loop, interruptsLoop]
    split
    · rfl
    · simp only [hit, ne_eq, not_true_eq_false, if_false]
      exact ih (List.filter_eq_nil_iff.mpr fun x hx => h x (List.mem_cons_of_mem _ hx))

/-- The first counter that is not zero is written as a line. -/
theorem interruptsLoop_first (mem : Mem) (dst : Nat) {l : List (BitVec 32)}
    (h : nums.filter (· ≠ 0) = it :: l) (hlen : 10 < len) :
    ∃ nums', nums'.filter (· ≠ 0) = l ∧ loop dst len nums mem 0 =
      loop dst len nums' (mem.store dst (intrLine it)) ((printint it).length + 3) := by
  induction nums with
  | nil => cases h
  | cons i nums ih =>
    have hgo : ¬ len ≤ 0 + 10 := by omega
    by_cases hi : i = 0
    · rw [List.filter_cons_of_neg (by simpa using hi)] at h
      obtain ⟨nums', hl, hrun⟩ := ih h
      refine ⟨nums', hl, ?_⟩
      rw [loop, interruptsLoop, if_neg hgo, if_neg (by simpa using hi)]
      exact hrun
    · rw [List.filter_cons_of_pos (by simpa using hi)] at h
      obtain ⟨rfl, rfl⟩ := List.cons.inj h
      refine ⟨nums, rfl, ?_⟩
      have hstore : mem.store dst (intrLine i) =
          (((mem.store (dst + 0) (printint i)).store (dst + (printint i).length) (chars ":")).store
            (dst + ((printint i).length + 1)) (printint 0)).store
            (dst + ((printint i).length + 1 + (printint 0).length)) (chars "\n") := by
        simp only [intrLine, Mem.store_append, Nat.add_zero, List.length_append, Nat.add_assoc]
        rfl
      rw [loop, interruptsLoop, if_neg hgo, if_pos (by simpa using hi), hstore]
      rfl

/-- What the loop has counted at its end: what it had, or the length of the last line. -/
theorem interruptsLoop_count (dst len : Nat) (nums : List (BitVec 32)) (mem : Mem) (r : Nat) :
    (loop dst len nums mem r).1 = r ∨
    r + 10 < len ∧ ∃ it ∈ nums.filter (· ≠ 0),
      (loop dst len nums mem r).1 = (printint it).length + 3 := by
  induction nums generalizing mem r with
  | nil => exact Or.inl rfl
  | cons i nums ih =>
    rw [loop, interruptsLoop]
    split
    · exact Or.inl rfl
    · rename_i hgo
      by_cases hi : i = 0
      · rw [if_neg (by simpa using hi), List.filter_cons_of_neg (by simpa using hi)]
        exact ih mem r
      · rw [if_pos (by simpa using hi), List.filter_cons_of_pos (by simpa using hi)]
        refine Or.inr ⟨by omega, ?_⟩
        simp only [printint_zero]
        rcases ih _ _ with hc | ⟨-, it, hit, hc⟩
        · exact ⟨i, List.mem_cons_self .., hc⟩
        · exact ⟨it, List.mem_cons_of_mem _ hit, hc⟩

/-- After the first line the loop leaves the first character. -/
theorem interruptsLoop_first_char (hr : 0 < r) : (loop dst len nums mem r).2 dst = mem dst := by
  induction nums generalizing mem r with
  | nil => rfl
  | cons i nums ih =>
    have hk := (printint_length i).1
    rw [loop, interruptsLoop]
    split
    · rfl
    · by_cases hi : i = 0
      · rw [if_neg (by simpa using hi)]
        exact ih hr
      · rw [if_pos (by simpa using hi)]
        refine (ih (by omega)).trans ?_
        rw [Mem.store_outside (Or.inl (by omega)), Mem.store_outside (Or.inl (by omega)),
          Mem.store_outside (Or.inl (by omega)), Mem.store_outside (Or.inl (by omega))]

/-- The numbers of digits of the counters; none for a zero. -/
def intrShape (nums : List (BitVec 32)) : List Nat :=
  nums.map fun it => if it = 0 then 0 else (printint it).length

theorem intrShape_filter : (intrShape nums).filter (· ≠ 0) =
    (nums.filter (· ≠ 0)).map fun it => (printint it).length := by
  induction nums with
  | nil => rfl
  | cons i nums ih =>
    have hk := (printint_length i).1
    by_cases hi : i = 0
    · simp_all [intrShape]
    · have hne : (printint i).length ≠ 0 := by omega
      simp_all [intrShape]

theorem intrText_length :
    (intrText nums).length = (((intrShape nums).filter (· ≠ 0)).map (· + 3)).sum := by
  rw [intrShape_filter, intrText, List.length_flatMap, List.map_map]
  simp only [intrLine_length]
  rfl

theorem intrText_cons (hit : it ≠ 0) : intrText (it :: nums) = intrLine it ++ intrText nums := by
  rw [intrText, List.filter_cons_of_pos (by simpa using hit), List.flatMap_cons]
  rfl

/-- Counters of any shape without a 1. -/
theorem exists_twos (nums : List (BitVec 32)) :
    ∃ nums', intrShape nums' = intrShape nums ∧ (49 : UInt8) ∉ intrText nums' := by
  induction nums with
  | nil => exact ⟨[], rfl, by simp [intrText]⟩
  | cons i nums ih =>
    obtain ⟨nums', hshape, hno⟩ := ih
    by_cases hi : i = 0
    · exact ⟨0 :: nums', by simp [intrShape, hi] at hshape ⊢; exact hshape, hno⟩
    · obtain ⟨hle, hge⟩ := printint_length i
      obtain ⟨⟨j, hj, hdigits⟩, -⟩ := printint_twos hle hge
      refine ⟨j :: nums', ?_, ?_⟩
      · simp only [intrShape, List.map_cons, hj, hi, if_false, hdigits, List.length_replicate]
        exact congrArg _ hshape
      · rw [intrText_cons hj, List.mem_append, not_or]
        refine ⟨?_, hno⟩
        rw [intrLine, hdigits, printint_zero]
        simp [chars]

/-- Counters of any shape with a 1 as their first character, and nowhere else. -/
theorem exists_marked {l : List (BitVec 32)} (h : nums.filter (· ≠ 0) = it :: l) :
    ∃ nums' it' l' T, intrShape nums' = intrShape nums ∧ nums'.filter (· ≠ 0) = it' :: l' ∧
      (intrLine it')[0]? = some 49 ∧ intrText nums' = 49 :: T ∧ (49 : UInt8) ∉ T := by
  induction nums with
  | nil => cases h
  | cons i nums ih =>
    by_cases hi : i = 0
    · rw [List.filter_cons_of_neg (by simpa using hi)] at h
      obtain ⟨nums', it', l', T, hshape, hfilter, hrest⟩ := ih h
      exact ⟨0 :: nums', it', l',
        T, by simp [intrShape, hi] at hshape ⊢; exact hshape, hfilter, hrest⟩
    · obtain ⟨hle, hge⟩ := printint_length i
      obtain ⟨-, j, hj, hdigits⟩ := printint_twos hle hge
      obtain ⟨nums', hshape, hno⟩ := exists_twos nums
      have hline : intrLine j =
          49 :: (List.replicate ((printint i).length - 1) 50 ++ [58, 48, 10]) := by
        rw [intrLine, hdigits, printint_zero]
        simp [chars]
      refine ⟨j :: nums', j, _, _, ?_,
        List.filter_cons_of_pos (by simpa using hj), by rw [hline]; rfl,
        (intrText_cons hj).trans (by rw [hline]; rfl), ?_⟩
      · have hlen : (printint j).length = (printint i).length := by
          rw [hdigits, List.length_cons, List.length_replicate]
          omega
        simp only [intrShape, List.map_cons, hj, hi, if_false, hlen]
        exact congrArg _ hshape
      · show (49 : UInt8) ∉ (List.replicate ((printint i).length - 1) 50 ++ [58, 48, 10]) ++
          intrText nums'
        rw [List.mem_append, not_or]
        exact ⟨by simp, hno⟩

/-- The reads of counters that are right whatever their digits are. -/
theorem interrupts_iff :
    (∀ nums', intrShape nums' = intrShape nums →
      ReadsText (Interrupts.nodeRead nums') (intrText nums') off len) ↔
      InterruptsOk ((intrShape nums).filter (· ≠ 0)) off len := by
  constructor
  · intro h
    -- What a read of counters of this shape counts and stores.
    have hread : ∀ nums', intrShape nums' = intrShape nums →
        (loop 0 len nums' (fun _ => 0) 0).1 = min len ((intrText nums').length - off) ∧
        (loop 0 len nums' (fun _ => 0) 0).2 =
          Mem.store (fun _ => 0) 0 (((intrText nums').drop off).take len) := by
      intro nums' hshape
      have hrun := Except.ok.inj (h nums' hshape (fun _ => 0) 0)
      rw [length_take_drop] at hrun
      exact ⟨congrArg Prod.fst hrun, congrArg Prod.snd hrun⟩
    unfold InterruptsOk
    rw [← intrText_length, intrShape_filter]
    cases hf : nums.filter (· ≠ 0) with
    | nil => exact Or.inl rfl
    | cons it l =>
      refine Or.inr (or_iff_not_imp_left.mpr fun hlen => ?_)
      by_cases hshort : len ≤ 10
      · have hcount := (hread nums rfl).1
        rw [interruptsLoop_stop (by omega)] at hcount
        exact Or.inl ⟨hshort, by omega⟩
      refine Or.inr ?_
      by_cases hoff : off = 0
      · refine ⟨hoff, by omega, ?_⟩
        obtain ⟨nums', hl, hrun⟩ := interruptsLoop_first (fun _ => 0) 0 hf
          (show 10 < len by omega)
        have hcount := (hread nums rfl).1
        have htotal : (intrText nums).length =
            (printint it).length + 3 + (l.flatMap intrLine).length := by
          rw [intrText, hf, List.flatMap_cons, List.length_append, intrLine_length]
        rw [hrun, htotal, hoff] at hcount
        cases l with
        | nil =>
          rw [interruptsLoop_zero hl] at hcount
          simp only [List.flatMap_nil, List.length_nil] at hcount
          refine Or.inl ⟨(printint it).length, rfl, by omega⟩
        | cons i l =>
          rw [List.flatMap_cons, List.length_append, intrLine_length] at hcount
          refine Or.inr ⟨(printint it).length, _, _, rfl, ?_⟩
          rcases interruptsLoop_count 0 len nums' (Mem.store (fun _ => 0) 0 (intrLine it))
            ((printint it).length + 3) with hc | ⟨hgo, j, hj, hc⟩
          · rw [hc] at hcount
            omega
          · -- More lines: the count is that of the last line, and less than the text and the read.
            have hjl := (printint_length j).2
            have hil := (printint_length it).1
            rw [hc] at hcount
            rw [hl] at hj
            have hle : (printint j).length + 3 ≤
                (printint i).length + 3 + (l.flatMap intrLine).length := by
              rw [← intrLine_length, ← intrLine_length, ← List.length_append,
                ← List.flatMap_cons, List.flatMap_def]
              exact (List.sublist_flatten_of_mem (List.mem_map_of_mem hj)).length_le
            omega
      · -- Behind the first character there is no 1, which the read gives first.
        obtain ⟨nums', it', l', T, hshape, hf', hfirst, htext, hno⟩ := exists_marked hf
        obtain ⟨nums'', hl, hrun⟩ := interruptsLoop_first (fun _ => 0) 0 hf'
          (show 10 < len by omega)
        obtain ⟨hcount, hmem⟩ := hread nums' hshape
        rw [hrun] at hcount hmem
        have hpos : 0 < (loop 0 len nums'' (Mem.store (fun _ => 0) 0 (intrLine it'))
            ((printint it').length + 3)).1 := by
          rcases interruptsLoop_count 0 len nums'' (Mem.store (fun _ => 0) 0 (intrLine it'))
            ((printint it').length + 3) with hc | ⟨-, j, -, hc⟩
          · omega
          · omega
        have hbyte := congrFun hmem 0
        rw [interruptsLoop_first_char (by omega)] at hbyte
        have hone := Mem.store_at (m := fun _ => 0) (a := 0) hfirst
        rw [Nat.add_zero, hbyte] at hone
        have hin : off < (intrText nums').length := by omega
        have hget : (((intrText nums').drop off).take len)[0]? = some (intrText nums')[off] := by
          rw [List.getElem?_take_of_lt (by omega), List.getElem?_drop, Nat.add_zero,
            List.getElem?_eq_getElem hin]
        have hchar := Mem.store_at (m := fun _ => 0) (a := 0) hget
        rw [Nat.add_zero, hone] at hchar
        refine absurd ?_ hno
        have hmem' : (intrText nums')[off] ∈ T := by
          obtain ⟨o, rfl⟩ := Nat.exists_eq_succ_of_ne_zero hoff
          simp only [htext, List.getElem_cons_succ]
          exact List.getElem_mem _
        rw [hchar]
        exact hmem'
  · intro h nums' hshape mem dst
    rw [← hshape, InterruptsOk, ← intrText_length, intrShape_filter] at h
    show Except.ok (loop dst len nums' mem 0) = _
    rcases h with hnil | rfl | ⟨hshort, hend⟩ | ⟨rfl, hlen, hlines⟩
    · have hnil := List.map_eq_nil_iff.mp hnil
      rw [interruptsLoop_zero hnil, intrText, hnil]
      simp [Mem.store_nil]
    · rw [interruptsLoop_stop (by omega), List.take_zero, Mem.store_nil]
      rfl
    · rw [interruptsLoop_stop (by omega), List.drop_eq_nil_of_le hend, List.take_nil,
        Mem.store_nil]
      rfl
    · -- One line is written, which is the text or its first characters.
      obtain ⟨it, l, hf, hone⟩ : ∃ it l, nums'.filter (· ≠ 0) = it :: l ∧
          (l = [] ∧ (printint it).length + 3 ≤ len ∨ len = (printint it).length + 3) := by
        cases hf : nums'.filter (· ≠ 0) with
        | nil =>
          rw [hf] at hlines
          rcases hlines with ⟨k, hk, -⟩ | ⟨k, j, ks, hk, -⟩ <;> cases hk
        | cons it l =>
          rw [hf] at hlines
          rcases hlines with ⟨k, hk, hle⟩ | ⟨k, j, ks, hk, hle⟩
          · obtain ⟨rfl, hnil⟩ := List.cons.inj hk
            exact ⟨it, l, rfl, Or.inl ⟨List.map_eq_nil_iff.mp hnil, hle⟩⟩
          · obtain ⟨rfl, -⟩ := List.cons.inj hk
            exact ⟨it, l, rfl, Or.inr hle⟩
      obtain ⟨nums'', hl, hrun⟩ := interruptsLoop_first mem dst hf
        (show 10 < len by omega)
      have hstop : ∀ m, loop dst len nums'' m ((printint it).length + 3) =
          ((printint it).length + 3, m) := by
        intro m
        rcases hone with ⟨rfl, -⟩ | hle
        · exact interruptsLoop_zero hl
        · exact interruptsLoop_stop (by omega)
      have htake : ((intrText nums').drop 0).take len = intrLine it := by
        rw [List.drop_zero, intrText, hf, List.flatMap_cons]
        rcases hone with ⟨rfl, hle⟩ | hle
        · rw [List.flatMap_nil, List.append_nil,
            List.take_of_length_le (by rw [intrLine_length]; exact hle)]
        · rw [hle, ← intrLine_length, List.take_left']
          rfl
      rw [hrun, hstop, htake, intrLine_length]

end Interrupts

theorem busyboxConf_length : busyboxConf.length = 240 := by
  rw [busyboxConf, chars, List.length_map]
  simp only [String.toList_append, List.length_append, String.reduceToList, List.length_cons,
    List.length_nil]

/-- The files read like texts: `busybox.conf`, and the rows of mounted file systems and the lines of
counters of given lengths whatever their characters are, in exactly these reads; the rows of the
mount table in particular. -/
theorem kernel_files_read_iff (off len : Nat) (hoff : off < wordSize) (hlen : len < wordSize) :
    (ReadsText (RamInode.nodeRead true busyboxConf) busyboxConf off len ↔
      BusyboxOk busyboxConf.length off len) ∧
    (∀ ls : List Nat, (∀ l ∈ ls, 0 < l) → ls.sum < 2 ^ 31 →
      ((∀ rows, rows.map List.length = ls →
        ReadsText (nodeReadRows rows) rows.flatten off len) ↔
        RowsOk ls off len)) ∧
    (∀ table : List MountEntry, (table.flatMap MountEntry.row).length < 2 ^ 31 →
      RowsOk (table.map fun it => it.row.length) off len →
        ReadsText (Mount.nodeRead table) (table.flatMap MountEntry.row) off len ∧
          ReadsText (MemInfo.nodeRead table) (table.flatMap MountEntry.row) off len) ∧
    ∀ nums : List (BitVec 32), (∀ nums', intrShape nums' = intrShape nums →
      ReadsText (Interrupts.nodeRead nums') (intrText nums') off len) ↔
        InterruptsOk ((intrShape nums).filter (· ≠ 0)) off len := by
  refine ⟨busybox_iff (by rw [busyboxConf_length]; decide) hoff hlen,
    fun ls hpos hfits => rows_iff hpos hfits,
    fun table hfits hok => ?_, fun nums => interrupts_iff⟩
  have hpos : ∀ l ∈ table.map (fun it => it.row.length), 0 < l := by
    intro l hl
    obtain ⟨it, -, rfl⟩ := List.mem_map.mp hl
    simp [MountEntry.row, chars]
  have hsum : (table.map fun it => it.row.length).sum < 2 ^ 31 := by
    rwa [List.length_flatMap] at hfits
  have hread := (rows_iff hpos hsum).mpr hok (table.map MountEntry.row) (by rw [List.map_map]; rfl)
  rw [← List.flatMap_def] at hread
  exact ⟨hread, hread⟩

def sampleMounts : List MountEntry :=
  [⟨chars "/", chars "/", chars "ramfs"⟩, ⟨chars "/dev/sda", chars "/mnt", chars "ext4"⟩]

/-- The configuration, a table of two mounts and a line of counters, each from its start. -/
theorem kernel_files_read_sample :
    ReadsText (RamInode.nodeRead true busyboxConf) busyboxConf 0 100 ∧
    ReadsText (Mount.nodeRead sampleMounts) (sampleMounts.flatMap MountEntry.row) 0 100 ∧
    ReadsText (MemInfo.nodeRead sampleMounts) (sampleMounts.flatMap MountEntry.row) 0 100 ∧
    ReadsText (Interrupts.nodeRead [0, 7]) (intrText [0, 7]) 0 100 := by
  obtain ⟨hbusybox, -, hmounts, hintr⟩ := kernel_files_read_iff 0 100 (by decide) (by decide)
  have hlens : (sampleMounts.map fun it => it.row.length) = [16, 25] := by decide
  have hrows : RowsOk (sampleMounts.map fun it => it.row.length) 0 100 := by
    rw [hlens]
    exact .inr (.inr ⟨by decide, by simp [RowHit]⟩)
  have hline : InterruptsOk ((intrShape [0, 7]).filter (· ≠ 0)) 0 100 :=
    .inr (.inr (.inr ⟨rfl, by decide, .inl ⟨1, by decide, by decide⟩⟩))
  exact ⟨hbusybox.mpr (.inl (by rw [busyboxConf_length]; decide)),
    (hmounts sampleMounts (by decide) hrows).1, (hmounts sampleMounts (by decide) hrows).2,
    (hintr [0, 7]).mpr hline [0, 7] rfl⟩

/-- A read from the end of the configuration gives one byte; a read of `/proc/mounts` from the
second character on reads behind the row; one of `/proc/interrupts` gives the same at any offset,
and two lines are not put together. -/
theorem kernel_files_read_wrong :
    ¬ ReadsText (RamInode.nodeRead true busyboxConf) busyboxConf busyboxConf.length 1 ∧
    ¬ ReadsText (Mount.nodeRead [⟨chars "/", chars "/", chars "ramfs"⟩])
      (chars "/ \t/ \tramfs \trw\n") 1 100 ∧
    ¬ ReadsText (Interrupts.nodeRead [7]) (intrText [7]) 4 100 ∧
    ¬ ReadsText (Interrupts.nodeRead [7, 8]) (intrText [7, 8]) 0 100 := by
  refine ⟨fun h => ?_, fun h => ?_, fun h => ?_, fun h => ?_⟩
  · have hok := (busybox_iff (by rw [busyboxConf_length]; decide)
      (by rw [busyboxConf_length]; decide) (by decide)).mp h
    unfold BusyboxOk at hok
    omega
  -- The others return the wrong number of bytes.
  all_goals have hcount := congrArg (fun r => r.toOption.map Prod.fst) (h (fun _ => 0) 0)
  all_goals exact absurd hcount (by decide)

end OsKernel.Fs

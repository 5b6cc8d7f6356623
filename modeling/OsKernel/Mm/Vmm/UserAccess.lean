import OsKernel.Lib.FirstStop
import OsKernel.Mm.Vmm.Pages

/-! When the copies between the kernel and a user return at all.  The loops look at the entries of
one page after the other; the walk underneath panics where a table is missing, and on LoongArch an
entry that is not valid passes for physical page zero. -/

namespace OsKernel.Mm

open Lib Hsai Lib.BuddySystem BuddyAllocator

section

variable {σ : Type} (arch : Arch) (V : VirtualPageAllocator σ) (k : Kernel σ) (pt : PageTable)

/-- All tables above the leaf entry for `va` exist. -/
def LeafExists (va : Nat) : Prop := ∃ pte, walk arch V k pt va false = .ok (pte, k)

/-- The leaf entry for `va` is valid. -/
def ValidLeaf (va : Nat) : Prop := arch.isValid (entryOf arch V k pt va) = true

/-- `walk_addr` of `va` gives an address that is not null in the kernel's window. -/
def Passes (va : Nat) : Prop := ∃ pa, walkAddr arch V k pt va = .ok pa ∧ arch.toVir pa ≠ 0

/-- The call returns, and it returns -1 if `bad` is the case. -/
def ReturnsChecked {α : Type} (x : Except Fault (Int × α)) (bad : Prop) : Prop :=
  ∃ r a, x = .ok (r, a) ∧ (bad → r = -1)

/-- The offset in its page and the length of the part of a copy that is in the page `j`. -/
def partOff (va j : Nat) : Nat := if j = 0 then va % 4096 else 0

def partLen (va len j : Nat) : Nat :=
  min (4096 - partOff va j) (len - if j = 0 then 0 else 4096 * j - va % 4096)

/-- `copy_str_in` reads the part in the page `j` to its end: there is no NUL in it. -/
def StringGoesOn (va max j : Nat) : Prop :=
  ∃ pa, walkAddr arch V k pt (copyPage va j) = .ok pa ∧ arch.toVir pa ≠ 0 ∧
    ∀ d < partLen va max j, k.mem (wordAdd (arch.toVir pa) (partOff va j) + d) ≠ 0

/-- A call of `copy_str_in` has to read in the page `j`. -/
def StringReached (va max j : Nat) : Prop :=
  Reached va max j ∧ ∀ i < j, StringGoesOn arch V k pt va max i

/-! ### The conditions -/

/-- Each page that `copy_in` comes to has a valid leaf entry, or, on RISC-V, a leaf entry. -/
def CopyInGuarded (va len : Nat) : Prop :=
  ∀ j, Reached va len j → (∀ i < j, Passes arch V k pt (copyPage va i)) →
    ValidLeaf arch V k pt (copyPage va j) ∨
    (arch = .riscv ∧ LeafExists arch V k pt (copyPage va j))

/-- Each page that `copy_str_in` comes to has a leaf entry; and if one of them is not valid, then
the machine is RISC-V or no NUL is met. -/
def CopyStrGuarded (va max : Nat) : Prop :=
  (∀ j, StringReached arch V k pt va max j → LeafExists arch V k pt (copyPage va j)) ∧
    ((∃ j, StringReached arch V k pt va max j ∧ ¬ValidLeaf arch V k pt (copyPage va j)) →
      arch = .riscv ∨ ∀ j, StringReached arch V k pt va max j →
      StringGoesOn arch V k pt va max j)

/-- Each page that `copyout` comes to has a valid leaf entry, or, on RISC-V, a leaf entry. -/
def CopyoutReturns (va len : Nat) : Prop :=
  ∀ j, Reached va len j → (∀ i < j, LeafExists arch V k pt (copyPage va i) ∧
      arch.toVir (arch.toPa (entryOf arch V k pt (copyPage va i))) ≠ 0) →
    ValidLeaf arch V k pt (copyPage va j) ∨
    (arch = .riscv ∧ LeafExists arch V k pt (copyPage va j))

end

section

variable {σ : Type} {arch : Arch} {V : VirtualPageAllocator σ} {k : Kernel σ} {pt : PageTable}
  {va len j : Nat}

/-! ### The pages of a copy -/

/-- The number of pages of a copy. -/
def copyPages (va len : Nat) : Nat := if len = 0 then 0 else (va % 4096 + len - 1) / 4096 + 1

theorem reached_iff : Reached va len j ↔ j < copyPages va len := by
  unfold Reached copyPages
  split <;> omega

theorem copyPages_next (hpos : 0 < len) :
    copyPages va len = copyPages (wordAdd (pageRoundDown va) pageSize)
      (len - min (4096 - va % 4096) len) + 1 := by
  have hdown := pageRoundDown_eq va
  have hmod : wordAdd (pageRoundDown va) pageSize % 4096 = 0 := by
    unfold wordAdd wordSize pageSize
    omega
  unfold copyPages
  rw [if_neg (by omega), hmod]
  split <;> omega

theorem next_mod (va : Nat) : wordAdd (pageRoundDown va) pageSize % 4096 = 0 := by
  have hdown := pageRoundDown_eq va
  unfold wordAdd wordSize pageSize
  omega

theorem partOff_next (va j : Nat) :
    partOff (wordAdd (pageRoundDown va) pageSize) j = partOff va (j + 1) := by
  unfold partOff
  rw [next_mod]
  simp

theorem partLen_next (hpos : 0 < len) :
    partLen (wordAdd (pageRoundDown va) pageSize) (len - min (4096 - va % 4096) len) j =
      partLen va len (j + 1) := by
  unfold partLen
  rw [partOff_next, next_mod]
  have hlt : va % 4096 < 4096 := Nat.mod_lt _ (by decide)
  rw [if_neg (Nat.succ_ne_zero j)]
  split <;> omega

/-! ### The walk -/

theorem leafExists_or (arch : Arch) (V : VirtualPageAllocator σ) (k : Kernel σ) (pt : PageTable)
    (va : Nat) : (∃ e, walk arch V k pt va false = .error e) ∨ LeafExists arch V k pt va := by
  cases h : walk arch V k pt va false with
  | error e => exact .inl ⟨e, rfl⟩
  | ok r =>
    obtain ⟨pte, k'⟩ := r
    obtain rfl := walk_state h
    exact .inr ⟨pte, h⟩

theorem ValidLeaf.exists (h : ValidLeaf arch V k pt va) : LeafExists arch V k pt va := by
  rcases leafExists_or arch V k pt va with ⟨e, he⟩ | h'
  · unfold ValidLeaf entryOf at h
    rw [he] at h
    simp at h
  · exact h'

/-- `walk_addr` fails where the walk does. -/
theorem walkAddr_ok_iff : (∃ pa, walkAddr arch V k pt va = .ok pa) ↔
    LeafExists arch V k pt va := by
  rcases leafExists_or arch V k pt va with ⟨e, he⟩ | ⟨pte, h⟩
  · refine iff_of_false ?_ ?_
    · rintro ⟨pa, hpa⟩
      rw [walkAddr, he, error_bind] at hpa
      cases hpa
    · rintro ⟨pte, h⟩
      rw [he] at h
      cases h
  · refine iff_of_true ?_ ⟨pte, h⟩
    rw [walkAddr, h, ok_bind]
    simp only
    split
    · exact ⟨_, rfl⟩
    · split
      · exact ⟨_, rfl⟩
      · split <;> exact ⟨_, rfl⟩

/-- `walk_addr` gives zero for an entry that is not valid. -/
theorem walkAddr_invalid {pa : Nat} (h : walkAddr arch V k pt va = .ok pa)
    (hv : ¬ValidLeaf arch V k pt va) : pa = 0 := by
  obtain ⟨pte, hw⟩ := walkAddr_ok_iff.mp ⟨pa, h⟩
  have hdata : arch.isValid (pteData k.mem pte) = false := by
    unfold ValidLeaf entryOf at hv
    rw [hw] at hv
    simpa using hv
  rw [walkAddr, hw, ok_bind] at h
  simp only [hdata, Bool.not_false, if_true] at h
  split at h <;> cases h <;> rfl

theorem Passes.valid (h : Passes .riscv V k pt va) : ValidLeaf .riscv V k pt va := by
  obtain ⟨pa, hpa, hnz⟩ := h
  by_contra hv
  rw [walkAddr_invalid hpa hv] at hnz
  exact hnz rfl

theorem passes_loongarch (h : LeafExists .loongarch V k pt va) : Passes .loongarch V k pt va := by
  obtain ⟨pa, hpa⟩ := walkAddr_ok_iff.mpr h
  refine ⟨pa, hpa, ?_⟩
  rw [Arch.toVir_loongarch]
  omega

/-! ### `copy_in` -/

/-- What `copy_in` does at the page `j`. -/
def lookIn (arch : Arch) (V : VirtualPageAllocator σ) (k : Kernel σ) (pt : PageTable)
    (va j : Nat) : Look Fault Int :=
  match walkAddr arch V k pt (copyPage va j) with
  | .error e => .fail e
  | .ok pa => if arch.toVir pa = 0 then .stop (-1) else .next

theorem copyInLoop_scan (turns : Nat) (dst : List UInt8) (hva : va < 2 ^ 64)
    (hlen : len ≤ turns) : (copyInLoop arch V k pt turns va len dst).map Prod.fst =
      scan (lookIn arch V k pt va) 0 (copyPages va len) 0 := by
  induction turns generalizing va len dst with
  | zero =>
    obtain rfl : len = 0 := by omega
    rfl
  | succ turns ih =>
    rw [copyInLoop]
    split
    case isTrue h =>
      subst h
      rfl
    case isFalse h =>
      have hdown := pageRoundDown_eq va
      have hoff : va - pageRoundDown va = va % 4096 := by omega
      have hlook : (fun j => lookIn arch V k pt va (j + 1)) =
          lookIn arch V k pt (wordAdd (pageRoundDown va) pageSize) := by
        funext j
        simp only [lookIn, copyPage_next]
      rw [copyPages_next (by omega), scan]
      simp only [lookIn, copyPage_zero hva]
      cases walkAddr arch V k pt (pageRoundDown va) with
      | error e => rfl
      | ok pa =>
        rw [ok_bind]
        simp only [hoff]
        by_cases hpa : arch.toVir pa = 0
        · rw [if_pos hpa, if_pos hpa]
          rfl
        · rw [if_neg hpa, if_neg hpa]
          rw [ih _ (wordAdd_lt _ _) (by unfold pageSize; omega), ← hlook, scan_shift]
          rfl

theorem lookIn_next {j : Nat} :
    lookIn arch V k pt va j = .next ↔ Passes arch V k pt (copyPage va j) := by
  unfold lookIn Passes
  cases walkAddr arch V k pt (copyPage va j) with
  | error e => simp
  | ok pa =>
    by_cases hpa : arch.toVir pa = 0 <;> simp [hpa]

theorem lookIn_fail {j : Nat} :
    (∃ e, lookIn arch V k pt va j = .fail e) ↔ ¬LeafExists arch V k pt (copyPage va j) := by
  rw [← walkAddr_ok_iff]
  unfold lookIn
  cases walkAddr arch V k pt (copyPage va j) with
  | error e => simp
  | ok pa => by_cases hpa : arch.toVir pa = 0 <;> simp [hpa]

theorem lookIn_stop {j : Nat} {r : Int} (h : lookIn arch V k pt va j = .stop r) : r = -1 := by
  unfold lookIn at h
  split at h
  · cases h
  · split at h
    · cases h
      rfl
    · cases h

/-- The results of a call are those of its loop. -/
theorem returnsChecked_iff {α : Type} {x : Except Fault (Int × α)} {bad : Prop} :
    ReturnsChecked x bad ↔ ∃ r, x.map Prod.fst = .ok r ∧ (bad → r = -1) := by
  cases x with
  | error e => simp [ReturnsChecked, Except.map]
  | ok q =>
    obtain ⟨r, a⟩ := q
    simp [ReturnsChecked, Except.map]

theorem comes_in {j : Nat} : Comes (lookIn arch V k pt va) (copyPages va len) 0 j ↔
    Reached va len j ∧ ∀ i < j, Passes arch V k pt (copyPage va i) := by
  simp only [comes_zero, reached_iff, lookIn_next]

theorem copyIn_checked_iff (hva : va < 2 ^ 64) :
    ReturnsChecked (copyIn arch V k pt va len)
        (∃ j, Reached va len j ∧ ¬ValidLeaf arch V k pt (copyPage va j)) ↔
      CopyInGuarded arch V k pt va len := by
  rw [returnsChecked_iff, copyIn, copyInLoop_scan len [] hva (Nat.le_refl len)]
  constructor
  · rintro ⟨r, hr, hbad⟩ j hj hpass
    have hexists : LeafExists arch V k pt (copyPage va j) := by
      by_contra hno
      obtain ⟨e, he⟩ := lookIn_fail.mpr hno
      exact scan_returns.mp ⟨r, hr⟩ j (comes_in.mpr ⟨hj, hpass⟩) e he
    by_contra hno
    obtain ⟨hinv, harch⟩ := not_or.mp hno
    have hr1 := hbad ⟨j, hj, hinv⟩
    -- only LoongArch is left, where no page stops the loop
    cases arch with
    | riscv => exact harch ⟨rfl, hexists⟩
    | loongarch =>
      rcases scan_ok.mp hr with ⟨i, hi, hstop⟩ | ⟨h0, -⟩
      · have hleaf : LeafExists .loongarch V k pt (copyPage va i) := by
          by_contra hnone
          obtain ⟨e, he⟩ := lookIn_fail.mpr hnone
          rw [hstop] at he
          cases he
        rw [lookIn_next.mpr (passes_loongarch hleaf)] at hstop
        cases hstop
      · omega
  · intro h
    have hret : ∃ r, scan (lookIn arch V k pt va) 0 (copyPages va len) 0 = .ok r := by
      refine scan_returns.mpr fun i hi e he => ?_
      obtain ⟨hi, hpass⟩ := comes_in.mp hi
      refine lookIn_fail.mp ⟨e, he⟩ ?_
      rcases h i hi hpass with hv | ⟨-, hl⟩
      · exact hv.exists
      · exact hl
    obtain ⟨r, hr⟩ := hret
    refine ⟨r, hr, ?_⟩
    rintro ⟨j, hj, hinv⟩
    rcases scan_ok.mp hr with ⟨i, -, hstop⟩ | ⟨-, hall⟩
    · exact lookIn_stop hstop
    · have hpass : ∀ i, Reached va len i → Passes arch V k pt (copyPage va i) := fun i hi =>
        lookIn_next.mp (hall i (Nat.zero_le i) (by have := reached_iff.mp hi; omega))
      have hbefore : ∀ i < j, Passes arch V k pt (copyPage va i) := fun i hi =>
        hpass i (reached_iff.mpr (Nat.lt_trans hi (reached_iff.mp hj)))
      rcases h j hj hbefore with hv | ⟨rfl, -⟩
      · exact absurd hv hinv
      · exact absurd (hpass j hj).valid hinv

/-! ### `copy_str_in` -/

/-- The inner loop where there is no NUL. -/
theorem copyStrScan_next {nul : List UInt8} {m : Mem} {n p : Nat} (max : Nat) (dst : List UInt8)
    (h : ∀ d < n, m (p + d) ≠ 0) :
    copyStrScan nul m n p max dst = (false, max - n, dst ++ m.load p n) := by
  induction n generalizing p max dst with
  | zero => simp [copyStrScan, Mem.load]
  | succ n ih =>
    have hload : m.load p (n + 1) = m p :: m.load (p + 1) n := by
      rw [Nat.add_comm, Mem.load_add]
      simp [Mem.load]
    rw [copyStrScan, if_neg (by simpa using h 0 (by omega)), ih]
    · rw [hload]
      simp
      omega
    · intro d hd
      have := h (d + 1) (by omega)
      rwa [Nat.add_assoc, Nat.add_comm 1 d]

/-- The inner loop with the first NUL at `d`. -/
theorem copyStrScan_nul {nul : List UInt8} {m : Mem} {n p d : Nat} (max : Nat) (dst : List UInt8)
    (hd : d < n) (hnul : m (p + d) = 0) (hb : ∀ i < d, m (p + i) ≠ 0) :
    copyStrScan nul m n p max dst = (true, max - d, dst ++ m.load p d ++ nul) := by
  induction d generalizing n p max dst with
  | zero =>
    obtain ⟨n, rfl⟩ : ∃ l, n = l + 1 := ⟨n - 1, by omega⟩
    rw [copyStrScan, if_pos (by simpa using hnul)]
    simp [Mem.load]
  | succ d ih =>
    obtain ⟨n, rfl⟩ : ∃ l, n = l + 1 := ⟨n - 1, by omega⟩
    have hload : m.load p (d + 1) = m p :: m.load (p + 1) d := by
      rw [Nat.add_comm, Mem.load_add]
      simp [Mem.load]
    rw [copyStrScan, if_neg (by simpa using hb 0 (by omega)), ih _ _ (by omega)]
    · rw [hload]
      simp
      omega
    · rwa [Nat.add_assoc, Nat.add_comm 1 d]
    · intro i hi
      have := hb (i + 1) (by omega)
      rwa [Nat.add_assoc, Nat.add_comm 1 i]

theorem exists_first_nul {m : Mem} {n p : Nat} (h : ∃ d < n, m (p + d) = 0) :
    ∃ d < n, m (p + d) = 0 ∧ ∀ i < d, m (p + i) ≠ 0 := by
  classical
  obtain ⟨hlt, hnul⟩ := Nat.find_spec h
  exact ⟨Nat.find h, hlt, hnul, fun i hi h0 => Nat.find_min h hi ⟨by omega, h0⟩⟩

/-- What `copy_str_in` does at the page `j`. -/
def lookStr (arch : Arch) (V : VirtualPageAllocator σ) (k : Kernel σ) (pt : PageTable)
    (va max j : Nat) : Look Fault Int :=
  match walkAddr arch V k pt (copyPage va j) with
  | .error e => .fail e
  | .ok pa =>
    if arch.toVir pa = 0 then .stop (-1)
    else if ∃ d < partLen va max j, k.mem (wordAdd (arch.toVir pa) (partOff va j) + d) = 0 then
      .stop 0
    else .next

theorem partOff_zero (va : Nat) : partOff va 0 = va % 4096 := if_pos rfl

theorem partLen_zero (va len : Nat) : partLen va len 0 = min (4096 - va % 4096) len := by
  unfold partLen
  rw [partOff_zero]
  rfl

theorem copyStrInLoop_scan (nul : List UInt8) (turns : Nat) {max : Nat} (dst : List UInt8)
    (hva : va < 2 ^ 64) (hmax : max ≤ turns) :
    (copyStrInLoop arch V nul k pt turns va max dst).map Prod.fst =
      scan (lookStr arch V k pt va max) (-1) (copyPages va max) 0 := by
  induction turns generalizing va max dst with
  | zero =>
    obtain rfl : max = 0 := by omega
    rfl
  | succ turns ih =>
    rw [copyStrInLoop]
    split
    case isTrue h =>
      subst h
      rfl
    case isFalse h =>
      have hdown := pageRoundDown_eq va
      have hoff : va - pageRoundDown va = va % 4096 := by omega
      have hlook : (fun j => lookStr arch V k pt va max (j + 1)) =
          lookStr arch V k pt (wordAdd (pageRoundDown va) pageSize)
            (max - min (4096 - va % 4096) max) := by
        funext j
        simp only [lookStr, copyPage_next, partOff_next, partLen_next (show 0 < max by omega)]
      rw [copyPages_next (by omega), scan]
      simp only [lookStr, copyPage_zero hva, partOff_zero, partLen_zero]
      cases walkAddr arch V k pt (pageRoundDown va) with
      | error e => rfl
      | ok pa =>
        rw [ok_bind]
        simp only [hoff, show pageSize = 4096 from rfl]
        by_cases hpa : arch.toVir pa = 0
        · rw [if_pos hpa, if_pos hpa]
          rfl
        rw [if_neg hpa, if_neg hpa]
        by_cases hnul : ∃ d < min (4096 - va % 4096) max,
            k.mem (wordAdd (arch.toVir pa) (va % 4096) + d) = 0
        · obtain ⟨d, hd, h0, hb⟩ := exists_first_nul hnul
          rw [if_pos hnul, copyStrScan_nul max dst hd h0 hb]
          rfl
        · have hall : ∀ d < min (4096 - va % 4096) max,
              k.mem (wordAdd (arch.toVir pa) (va % 4096) + d) ≠ 0 := fun d hd h0 =>
            hnul ⟨d, hd, h0⟩
          rw [if_neg hnul, copyStrScan_next max dst hall]
          simp only [Bool.false_eq_true, if_false]
          rw [show (4096 : Nat) = pageSize from rfl, ih _ (wordAdd_lt _ _)]
          · rw [show pageSize = 4096 from rfl, ← scan_shift, hlook]
            rfl
          · unfold pageSize
            omega

theorem lookStr_next {max j : Nat} :
    lookStr arch V k pt va max j = .next ↔ StringGoesOn arch V k pt va max j := by
  unfold lookStr StringGoesOn
  cases walkAddr arch V k pt (copyPage va j) with
  | error e => simp
  | ok pa =>
    by_cases hpa : arch.toVir pa = 0
    · simp [hpa]
    · by_cases hnul : ∃ d < partLen va max j,
          k.mem (wordAdd (arch.toVir pa) (partOff va j) + d) = 0
      · simp only [if_neg hpa, if_pos hnul, reduceCtorEq, false_iff]
        rintro ⟨pa', hpa', -, hall⟩
        cases hpa'
        obtain ⟨d, hd, h0⟩ := hnul
        exact hall d hd h0
      · simp only [if_neg hpa, if_neg hnul, true_iff]
        exact ⟨pa, rfl, hpa, fun d hd h0 => hnul ⟨d, hd, h0⟩⟩

theorem lookStr_fail {max j : Nat} :
    (∃ e, lookStr arch V k pt va max j = .fail e) ↔
      ¬LeafExists arch V k pt (copyPage va j) := by
  rw [← walkAddr_ok_iff]
  unfold lookStr
  cases walkAddr arch V k pt (copyPage va j) with
  | error e => simp
  | ok pa =>
    refine iff_of_false ?_ (by simp)
    rintro ⟨e, he⟩
    simp only at he
    split at he
    · cases he
    · split at he <;> cases he

theorem comes_str {max j : Nat} :
    Comes (lookStr arch V k pt va max) (copyPages va max) 0 j ↔
      StringReached arch V k pt va max j := by
  simp only [comes_zero, StringReached, reached_iff, lookStr_next]

/-- An entry that is not valid stops the loop on RISC-V. -/
theorem lookStr_invalid {max j : Nat} (h : LeafExists .riscv V k pt (copyPage va j))
    (hv : ¬ValidLeaf .riscv V k pt (copyPage va j)) :
    lookStr .riscv V k pt va max j = .stop (-1) := by
  obtain ⟨pa, hpa⟩ := walkAddr_ok_iff.mpr h
  have h0 := walkAddr_invalid hpa hv
  unfold lookStr
  rw [hpa, h0]
  rfl

/-- On LoongArch the loop stops at a NUL alone. -/
theorem lookStr_loongarch {max j : Nat} {r : Int}
    (h : lookStr .loongarch V k pt va max j = .stop r) : r = 0 := by
  unfold lookStr at h
  split at h
  · cases h
  · rw [if_neg (by rw [Arch.toVir_loongarch]; omega)] at h
    split at h
    · cases h
      rfl
    · cases h

theorem copyStr_checked_iff (nul dst : List UInt8) {max : Nat} (hva : va < 2 ^ 64) :
    ReturnsChecked (copyStrInLoop arch V nul k pt max va max dst)
        (∃ j, StringReached arch V k pt va max j ∧ ¬ValidLeaf arch V k pt (copyPage va j)) ↔
      CopyStrGuarded arch V k pt va max := by
  rw [returnsChecked_iff, copyStrInLoop_scan nul max dst hva (Nat.le_refl max)]
  have hret : (∃ r, scan (lookStr arch V k pt va max) (-1) (copyPages va max) 0 = .ok r) ↔
      ∀ j, StringReached arch V k pt va max j → LeafExists arch V k pt (copyPage va j) := by
    rw [scan_returns]
    constructor
    · intro h j hj
      by_contra hno
      obtain ⟨e, he⟩ := lookStr_fail.mpr hno
      exact h j (comes_str.mpr hj) e he
    · intro h i hi e he
      exact lookStr_fail.mp ⟨e, he⟩ (h i (comes_str.mp hi))
  constructor
  · rintro ⟨r, hr, hbad⟩
    refine ⟨hret.mp ⟨r, hr⟩, fun hb => ?_⟩
    have hr1 := hbad hb
    cases arch with
    | riscv => exact .inl rfl
    | loongarch =>
      refine .inr fun j hj => ?_
      rcases scan_ok.mp hr with ⟨i, -, hstop⟩ | ⟨-, hall⟩
      · have := lookStr_loongarch hstop
        omega
      · exact lookStr_next.mp (hall j (Nat.zero_le j) (by have := reached_iff.mp hj.1; omega))
  · rintro ⟨hleaf, hend⟩
    obtain ⟨r, hr⟩ := hret.mpr hleaf
    refine ⟨r, hr, ?_⟩
    rintro ⟨j, hj, hinv⟩
    rcases hend ⟨j, hj, hinv⟩ with rfl | hall
    · rw [scan_ok.mpr (.inl ⟨j, comes_str.mpr hj, lookStr_invalid (hleaf j hj) hinv⟩)] at hr
      cases hr
      rfl
    · rcases scan_ok.mp hr with ⟨i, hi, hstop⟩ | ⟨h, -⟩
      · rw [lookStr_next.mpr (hall i (comes_str.mp hi))] at hstop
        cases hstop
      · exact h

end

/-! ### `copyout` -/

section

variable {reg : Region} {arch : Arch} {k : Kernel BuddyAllocator} {B : Blocks}
  {Base : Nat → Nat → Prop} {ι : Type} {W : Spaces ι} {i : ι} {A : AddrSpace} {va : Nat}

/-- What `copyout` does at the page `j`. -/
def lookOut (arch : Arch) (A : AddrSpace) (va j : Nat) : Look Unit Int :=
  match leafPte A.tables (walkPage arch (copyPage va j)) with
  | none => .fail ()
  | some _ =>
    if arch.toVir (arch.toPa
        (((A.map (walkPage arch (copyPage va j))).map (·.data arch)).getD 0)) = 0
    then .stop (-1)
    else .next

theorem World.leafExists_iff (H : World reg arch k B Base W) (hi : W i = some A) (va : Nat) :
    LeafExists arch buddyPages k ⟨A.root, true⟩ va ↔
      leafPte A.tables (walkPage arch va) ≠ none := by
  unfold walkPage
  rcases walk_find (V := buddyPages) (H.tables hi) va with
      ⟨l, hrun, hnone⟩ | ⟨pte, hrun, hsome⟩
  · refine iff_of_false ?_ (not_not.mpr hnone)
    rintro ⟨pte, h⟩
    rw [hrun] at h
    cases h
  · rw [hsome]
    exact iff_of_true ⟨pte, hrun⟩ (by simp)

theorem World.lookOut_next (H : World reg arch k B Base W) (hi : W i = some A) (hb : A.base = 0)
    {j : Nat} : lookOut arch A va j = .next ↔
      LeafExists arch buddyPages k ⟨A.root, true⟩ (copyPage va j) ∧
        arch.toVir (arch.toPa (Mm.entryOf arch buddyPages k ⟨A.root, true⟩ (copyPage va j))) ≠
          0 := by
  rw [H.leafExists_iff hi, H.entryOf hi hb]
  unfold lookOut walkPage
  split
  case h_1 h => simp [h]
  case h_2 pte h =>
    rw [h]
    split
    case isTrue h0 => simp [h0]
    case isFalse h0 => simp [h0]

theorem World.lookOut_fail (H : World reg arch k B Base W) (hi : W i = some A) {j : Nat} :
    lookOut arch A va j = .fail () ↔
      ¬LeafExists arch buddyPages k ⟨A.root, true⟩ (copyPage va j) := by
  rw [H.leafExists_iff hi]
  unfold lookOut
  split
  case h_1 h => simp [h]
  case h_2 pte h =>
    rw [h]
    split <;> simp

theorem lookOut_stop {j : Nat} {r : Int} (h : lookOut arch A va j = .stop r) : r = -1 := by
  unfold lookOut at h
  split at h
  · cases h
  · split at h
    · cases h
      rfl
    · cases h

theorem walkPage_down (arch : Arch) (va : Nat) :
    walkPage arch (pageRoundDown va) = walkPage arch va := by
  have hdown := pageRoundDown_eq va
  unfold walkPage
  rw [show pageRoundDown va / 4096 = va / 4096 by omega]

/-- The loop of `copyout`, where no page is taken for the physical page zero. -/
theorem World.copyoutLoop_scan (hw : reg.InWindow arch) (turns : Nat) (p : List UInt8)
    (H : World reg arch k B Base W) (hi : W i = some A) (hb : A.base = 0) (ho : A.Owned reg arch)
    (hva : va < 2 ^ 64) (hlen : p.length ≤ turns)
    (hmap : arch = .riscv ∨
      ∀ j, Reached va p.length j → A.map (walkPage arch (copyPage va j)) ≠ none) :
    ((copyoutLoop arch buddyPages ⟨A.root, true⟩ turns k va p).map Prod.fst).mapError
        (fun _ => ()) =
      scan (lookOut arch A va) 0 (copyPages va p.length) 0 := by
  induction turns generalizing k va p with
  | zero =>
    obtain rfl : p = [] := List.length_eq_zero_iff.mp (by omega)
    rfl
  | succ turns ih =>
    rw [copyoutLoop]
    split
    case isTrue h =>
      rw [h]
      rfl
    case isFalse h =>
      have hdown := pageRoundDown_eq va
      have hoff : va - pageRoundDown va = va % 4096 := by omega
      have hlook : (fun j => lookOut arch A va (j + 1)) =
          lookOut arch A (wordAdd (pageRoundDown va) pageSize) := by
        funext j
        simp only [lookOut, copyPage_next]
      -- the rest of the loop, from a state in which the same spaces are there
      have hrest : ∀ k', World reg arch k' B Base W →
          ((copyoutLoop arch buddyPages ⟨A.root, true⟩
            turns k' (wordAdd (pageRoundDown va) pageSize)
            (p.drop (min (pageSize - (va - pageRoundDown va)) p.length))).map Prod.fst).mapError
              (fun _ => ()) =
          scan (lookOut arch A va) 0
            (copyPages (wordAdd (pageRoundDown va) pageSize)
              (p.length - min (4096 - va % 4096) p.length)) 1 := by
        intro k' H'
        have hdrop : (p.drop (min (pageSize - (va - pageRoundDown va)) p.length)).length =
            p.length - min (4096 - va % 4096) p.length := by
          rw [List.length_drop, hoff]
          rfl
        rw [ih _ H' (wordAdd_lt _ _) (by rw [hdrop]; omega) ?_, hdrop, ← hlook, scan_shift]
        rcases hmap with harch | hmap
        · exact .inl harch
        · refine .inr fun j hj => ?_
          rw [hdrop] at hj
          rw [copyPage_next]
          exact hmap (j + 1) (reached_next.mp hj)
      rw [copyPages_next (by omega), scan]
      simp only [lookOut, copyPage_zero hva, walkPage_down]
      have hleaf := H.leafExists_iff hi (pageRoundDown va)
      rw [walkPage_down] at hleaf
      rcases H.lookup hi hb (pageRoundDown va) with ⟨e, hwalk⟩ | ⟨pte, hwalk, -, hdata⟩
      · have hnone : leafPte A.tables (walkPage arch va) = none := by
          by_contra hc
          obtain ⟨pte, hp⟩ := hleaf.mpr hc
          rw [hwalk] at hp
          cases hp
        rw [hwalk, error_bind, hnone]
        rfl
      obtain ⟨pte', hpte'⟩ := Option.ne_none_iff_exists'.mp (hleaf.mp ⟨pte, hwalk⟩)
      rw [hwalk, ok_bind, hpte']
      simp only [hdata, walkPage_down]
      cases hM : A.map (walkPage arch va) with
      | none =>
        rcases hmap with rfl | hmap
        · rfl
        · have := hmap 0 ⟨by omega, by omega⟩
          rw [copyPage_zero hva, walkPage_down] at this
          exact absurd hM this
      | some mp =>
        have hok := ((H.represents hi).of_some hM).2
        simp only [Option.map_some, Option.getD_some, hok.toPa]
        split
        case isTrue h0 => rfl
        case isFalse h0 =>
          exact hrest _ (H.storeMapped hw hi ho hM (copyout_bytes hok.aligned hok.toVir_le p))

theorem comes_out {len j : Nat} : Comes (lookOut arch A va) (copyPages va len) 0 j ↔
    Reached va len j ∧ ∀ i < j, lookOut arch A va i = .next := by
  simp only [comes_zero, reached_iff]

theorem mapError_ok {ε α : Type} {x : Except ε α} {a : α} :
    x.mapError (fun _ => ()) = .ok a ↔ x = .ok a := by
  cases x <;> simp [Except.mapError]

/-- On LoongArch the condition says that all entries are valid. -/
theorem copyoutReturns_loongarch {σ : Type} {V : VirtualPageAllocator σ} {k : Kernel σ}
    {pt : PageTable} {len : Nat} : CopyoutReturns .loongarch V k pt va len ↔
      ∀ j, Reached va len j → ValidLeaf .loongarch V k pt (copyPage va j) := by
  constructor
  · intro h j
    induction j using Nat.strong_induction_on with
    | _ j ih =>
      intro hj
      refine (h j hj fun i hi => ?_).resolve_right (by rintro ⟨h, -⟩; cases h)
      have hreach : Reached va len i := reached_iff.mpr (Nat.lt_trans hi (reached_iff.mp hj))
      refine ⟨(ih i hi hreach).exists, ?_⟩
      rw [Arch.toVir_loongarch]
      omega
  · exact fun h j hj _ => .inl (h j hj)

theorem World.copyout_checked_iff (H : World reg arch k B Base W) (hw : reg.InWindow arch)
    (hi : W i = some A) (hb : A.base = 0) (ho : A.Owned reg arch) (hva : va < 2 ^ 64)
    (p : List UInt8) :
    ReturnsChecked (copyout arch buddyPages k ⟨A.root, true⟩ va p)
        (∃ j, Reached va p.length j ∧
          ¬ValidLeaf arch buddyPages k ⟨A.root, true⟩ (copyPage va j)) ↔
      CopyoutReturns arch buddyPages k ⟨A.root, true⟩ va p.length := by
  have hvalid : ∀ va, ValidLeaf arch buddyPages k ⟨A.root, true⟩ va ↔
      A.map (walkPage arch va) ≠ none := fun va => H.valid_iff hi hb
  have hscan := H.copyoutLoop_scan hw p.length p hi hb ho hva (Nat.le_refl _)
  cases arch with
  | riscv =>
    have hrun := hscan (.inl rfl)
    rw [returnsChecked_iff, copyout]
    simp only [← @mapError_ok Fault, hrun]
    constructor
    · rintro ⟨r, hr, -⟩ j hj hpass
      refine .inr ⟨rfl, ?_⟩
      by_contra hno
      refine scan_returns.mp ⟨r, hr⟩ j (comes_out.mpr ⟨hj, fun l hl => ?_⟩) ()
        ((H.lookOut_fail hi).mpr hno)
      exact (H.lookOut_next hi hb).mpr (hpass l hl)
    · intro h
      have hret : ∃ r, scan (lookOut .riscv A va) 0 (copyPages va p.length) 0 = .ok r := by
        refine scan_returns.mpr fun j hj e he => ?_
        obtain ⟨hj, hpass⟩ := comes_out.mp hj
        refine (H.lookOut_fail hi).mp he ?_
        rcases h j hj (fun l hl => (H.lookOut_next hi hb).mp (hpass l hl)) with hv | ⟨-, hl⟩
        · exact hv.exists
        · exact hl
      obtain ⟨r, hr⟩ := hret
      refine ⟨r, hr, ?_⟩
      rintro ⟨j, hj, hinv⟩
      rcases scan_ok.mp hr with ⟨l, -, hstop⟩ | ⟨-, hall⟩
      · exact lookOut_stop hstop
      · have hnext := hall j (Nat.zero_le j) (by have := reached_iff.mp hj; omega)
        have hzero := ((H.lookOut_next hi hb).mp hnext).2
        have hnone : A.map (copyPage va j / 4096 % Arch.vaPages .riscv) = none :=
          not_not.mp ((hvalid _).not.mp hinv)
        rw [H.entryOf hi hb, hnone] at hzero
        exact absurd rfl hzero
  | loongarch =>
    rw [copyoutReturns_loongarch]
    constructor
    · rintro ⟨r, k', hrun, hbad⟩ j hj
      by_contra hinv
      have h0 := copyoutLoop_loongarch _ _ _ hrun
      have h1 := hbad ⟨j, hj, hinv⟩
      omega
    · intro h
      have hrun := hscan (.inr fun j hj => (hvalid _).mp (h j hj))
      have hret : ∃ r, scan (lookOut .loongarch A va) 0 (copyPages va p.length) 0 = .ok r := by
        refine scan_returns.mpr fun j hj e he => ?_
        exact (H.lookOut_fail hi).mp he (h j (comes_out.mp hj).1).exists
      obtain ⟨r, hr⟩ := hret
      rw [returnsChecked_iff]
      refine ⟨r, ?_, ?_⟩
      · rw [← mapError_ok, copyout, hrun, hr]
      · rintro ⟨j, hj, hinv⟩
        exact absurd (h j hj) hinv

/-- The copies between the kernel and the address space of a process return, and with -1 if a page
they have to touch is not mapped by a valid leaf, exactly under their conditions. -/
theorem userAccess_checked_iff (reg : Region) (arch : Arch) (hw : reg.InWindow arch)
    (k : Kernel BuddyAllocator) (B : Blocks) (Base : Nat → Nat → Prop) (W : Spaces ι)
    (H : World reg arch k B Base W) (i : ι) (A : AddrSpace) (hi : W i = some A) (hb : A.base = 0)
    (ho : A.Owned reg arch) (va : Nat) (hva : va < 2 ^ 64) :
    (∀ len, ReturnsChecked (copyIn arch buddyPages k ⟨A.root, true⟩ va len)
        (∃ j, Reached va len j ∧ ¬ValidLeaf arch buddyPages k ⟨A.root, true⟩
          (copyPage va j)) ↔
      CopyInGuarded arch buddyPages k ⟨A.root, true⟩ va len) ∧
    (∀ max, ReturnsChecked (copyStrIn arch buddyPages k ⟨A.root, true⟩ va max)
        (∃ j, StringReached arch buddyPages k ⟨A.root, true⟩ va max j ∧
          ¬ValidLeaf arch buddyPages k ⟨A.root, true⟩ (copyPage va j)) ↔
      CopyStrGuarded arch buddyPages k ⟨A.root, true⟩ va max) ∧
    (∀ dst max, ReturnsChecked (copyStrInString arch buddyPages k ⟨A.root, true⟩ dst va max)
        (∃ j, StringReached arch buddyPages k ⟨A.root, true⟩ va max j ∧
          ¬ValidLeaf arch buddyPages k ⟨A.root, true⟩ (copyPage va j)) ↔
      CopyStrGuarded arch buddyPages k ⟨A.root, true⟩ va max) ∧
    ∀ p : List UInt8, ReturnsChecked (copyout arch buddyPages k ⟨A.root, true⟩ va p)
        (∃ j, Reached va p.length j ∧
          ¬ValidLeaf arch buddyPages k ⟨A.root, true⟩ (copyPage va j)) ↔
      CopyoutReturns arch buddyPages k ⟨A.root, true⟩ va p.length :=
  ⟨fun _ => copyIn_checked_iff hva, fun _ => copyStr_checked_iff [0] [] hva,
    fun dst _ => copyStr_checked_iff [] dst hva, H.copyout_checked_iff hw hi hb ho hva⟩

end

/-- A page table on a region with one page of the user, for the page number `v`. -/
theorem Region.new_user {reg : Region} {arch : Arch} (hw : reg.InWindow arch)
    (hroom : arch.top + 2 ≤ reg.pages) (v : Nat) (hv : v < arch.vaPages) :
    ∃ (k : Kernel BuddyAllocator) (B : Blocks) (Base : Nat → Nat → Prop) (A : AddrSpace)
    (q : Nat),
    World reg arch k B Base (fun _ : Unit => some A) ∧ A.base = 0 ∧ A.Owned reg arch ∧
      A.pages v = some q ∧ A.map v =
        some ⟨arch.toPhy (reg.addr q), vmAllocFlags arch false true true⟩ := by
  obtain ⟨k₀, B₀, -, hroom₀, H₀⟩ := reg.new_world arch
  rcases H₀.create hw (i := ()) rfl 0 with
      ⟨-, h0⟩ | ⟨p, k₁, B₁, T, -, H₁, -, hle, -⟩
  · omega
  rw [Spaces.update_unit] at H₁
  have hspan : v + 1 ≤ 0 + arch.vaPages := by omega
  have hpages : arch.vaPages ≤ 2 ^ 52 := by cases arch <;> decide
  obtain ⟨k, B, A, -, H, E⟩ := H₁.allocOne hw (i := ()) rfl false true true 0x11000
    (v := v) ⟨Nat.zero_le v, hspan, by omega⟩ rfl (by omega)
  rw [Spaces.update_unit] at H
  obtain ⟨q, hq, hmap, -⟩ := E.inside v (by omega) (by omega)
  refine ⟨k, B, _, A, q, H, E.base, fun w mp hmp => .inl ?_, hq, hmap⟩
  by_cases hw : w = v
  · rw [hw, hq]
    exact Option.some_ne_none q
  · rw [(E.outside w (by omega)).1] at hmp
    cases hmp

/-- A page table on the sample region with one page of the user, for the page number `v`. -/
theorem sample_user (v : Nat) (hv : v < 16384) : ∃ (k : Kernel BuddyAllocator) (B : Blocks)
    (Base : Nat → Nat → Prop) (A : AddrSpace) (q : Nat),
    World sampleRegion .riscv k B Base (fun _ : Unit => some A) ∧ A.base = 0 ∧
      A.Owned sampleRegion .riscv ∧ A.pages v = some q ∧
      A.map v = some ⟨Arch.toPhy .riscv (sampleRegion.addr q),
        vmAllocFlags .riscv false true true⟩ :=
  Region.new_user sampleRegion_inWindow (by decide) v (Nat.lt_of_lt_of_le hv (by decide))

/-- Copies of a few bytes at a page of the user return. -/
theorem userAccess_checked_iff_sample : ∃ (k : Kernel BuddyAllocator) (pt : PageTable),
    (∃ r dst, copyIn .riscv buddyPages k pt 0x10000 16 = .ok (r, dst)) ∧
      (∃ r dst, copyStrIn .riscv buddyPages k pt 0x10000 16 = .ok (r, dst)) ∧
      (∃ r dst, copyStrInString .riscv buddyPages k pt [1] 0x10000 16 = .ok (r, dst)) ∧
      ∃ r k', copyout .riscv buddyPages k pt 0x10000 [1, 2, 3] = .ok (r, k') := by
  obtain ⟨k, B, Base, A, q, H, hb, ho, -, hmap⟩ := sample_user 16 (by decide)
  obtain ⟨hin, hstr, hstring, hout⟩ := userAccess_checked_iff sampleRegion .riscv
    sampleRegion_inWindow k B Base _ H () A rfl hb ho 0x10000 (by decide)
  have hvalid : ∀ {len j}, len ≤ 16 → Reached 0x10000 len j →
      ValidLeaf .riscv buddyPages k ⟨A.root, true⟩ (copyPage 0x10000 j) := by
    intro len j hlen hj
    obtain rfl : j = 0 := by
      unfold Reached at hj
      omega
    refine (H.valid_iff (i := ()) rfl hb).mpr ?_
    rw [show copyPage 0x10000 0 / 4096 % Arch.vaPages .riscv = 16 from rfl, hmap]
    exact Option.some_ne_none _
  have hguard : CopyStrGuarded .riscv buddyPages k ⟨A.root, true⟩ 0x10000 16 :=
    ⟨fun j hj => (hvalid (Nat.le_refl 16) hj.1).exists, fun _ => .inl rfl⟩
  obtain ⟨r₁, d₁, h₁, -⟩ := (hin 16).mpr fun j hj _ => .inl (hvalid (Nat.le_refl 16) hj)
  obtain ⟨r₂, d₂, h₂, -⟩ := (hstr 16).mpr hguard
  obtain ⟨r₃, d₃, h₃, -⟩ := (hstring [1] 16).mpr hguard
  obtain ⟨r₄, k₄, h₄, -⟩ := (hout [1, 2, 3]).mpr fun j hj _ =>
    .inl (hvalid (by decide) hj)
  exact ⟨k, ⟨A.root, true⟩, ⟨r₁, d₁, h₁⟩, ⟨r₂, d₂, h₂⟩,
    ⟨r₃, d₃, h₃⟩, r₄, k₄, h₄⟩

/-- On a new page table the walk panics at every address. -/
theorem vmCreate_walk {σ : Type} {V : VirtualPageAllocator σ} {k k' : Kernel σ} {pt : PageTable}
    (h : vmCreate V k = .ok (pt, k')) (va : Nat) :
    walk .riscv V k' pt va false = .error (.panic "walk pud to pmd fail") := by
  unfold vmCreate at h
  cases hr : pmmAllocPage V k with
  | error e =>
    rw [hr, error_bind] at h
    cases h
  | ok r =>
    obtain ⟨page, k₁⟩ := r
    rw [hr, ok_bind] at h
    cases page with
    | none => cases h
    | some addr =>
      cases h
      have hnum := pgNum_lt 2 va
      have hzero : pteData (fillJunk k₁.mem addr) (addr + 8 * pgNum 2 va) = 0 :=
        Mem.read_fill_zero (by omega) (by unfold pageSize; omega)
      unfold walk
      rw [if_neg (by simp), show Arch.top .riscv = 1 + 1 from rfl, walkFrom]
      simp only [walkToNextLevel, getPte, Arch.pteAddr, clearPage, hzero, Arch.isValid_zero]
      rfl

/-- On a new page table all four copies panic. -/
theorem userAccess_panics : ∃ (k₀ k : Kernel BuddyAllocator) (B : Blocks)
    (Base : Nat → Nat → Prop) (A : AddrSpace),
      vmCreate buddyPages k₀ = .ok (⟨A.root, true⟩, k) ∧
      World sampleRegion .riscv k B Base (fun _ : Unit => some A) ∧ A.base = 0 ∧
      A.Owned sampleRegion .riscv ∧
      copyIn .riscv buddyPages k ⟨A.root, true⟩ 0x10000 1 =
        .error (.panic "walk pud to pmd fail") ∧
      copyStrIn .riscv buddyPages k ⟨A.root, true⟩ 0x10000 1 =
        .error (.panic "walk pud to pmd fail") ∧
      copyStrInString .riscv buddyPages k ⟨A.root, true⟩ [] 0x10000 1 =
        .error (.panic "walk pud to pmd fail") ∧
      copyout .riscv buddyPages k ⟨A.root, true⟩ 0x10000 [0] =
        .error (.panic "walk pud to pmd fail") := by
  obtain ⟨k₀, B₀, -, hroom, H₀⟩ := sample_world
  rcases H₀.create sampleRegion_inWindow (i := ()) rfl 0 with
    ⟨-, h0⟩ | ⟨p, k, B, T, hrun, H, -, -, -⟩
  · omega
  rw [Spaces.update_unit] at H
  have hwalk := vmCreate_walk hrun
  have haddr : ∀ va, walkAddr .riscv buddyPages k ⟨p, true⟩ va =
      .error (.panic "walk pud to pmd fail") := by
    intro va
    rw [walkAddr, hwalk, error_bind]
  refine ⟨k₀, k, B, _, _, hrun, H, rfl, ?_, ?_, ?_, ?_, ?_⟩
  · intro v mp hmp
    cases hmp
  · rw [copyIn, copyInLoop, if_neg (by decide)]
    simp only [haddr, error_bind]
  · rw [copyStrIn, copyStrInLoop, if_neg (by decide)]
    simp only [haddr, error_bind]
  · rw [copyStrInString, copyStrInLoop, if_neg (by decide)]
    simp only [haddr, error_bind]
  · rw [copyout, List.length_singleton, copyoutLoop, if_neg (by simp)]
    simp only [hwalk, error_bind]

end OsKernel.Mm

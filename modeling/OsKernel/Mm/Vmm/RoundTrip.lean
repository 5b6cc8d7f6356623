import OsKernel.Lib.ScatteredBytes
import OsKernel.Mm.Vmm.UserAccess

/-! What the copies between the kernel and a user transfer.  The bytes of a user range are
scattered over physical pages; `copyout` stores exactly these bytes, and `copy_in` and
`copy_str_in` read them. -/

namespace OsKernel.Mm

open Lib Hsai Lib.BuddySystem BuddyAllocator

section

variable {σ : Type} (arch : Arch) (V : VirtualPageAllocator σ) (k : Kernel σ) (pt : PageTable)

/-- The kernel's address of the byte at the user address `a`. -/
def userLoc (a : Nat) : Nat :=
  arch.toVir (arch.toPa (entryOf arch V k pt (pageRoundDown a))) + a % 4096

/-- The `n` bytes at the user address `va`. -/
def userView (va n : Nat) : List UInt8 :=
  k.mem.view (fun d => userLoc arch V k pt (wordAdd va d)) n

/-- The leaf entry for `va` is valid and open to the user. -/
def UserLeaf (va : Nat) : Prop :=
  ValidLeaf arch V k pt va ∧ arch.isSuperPlv (entryOf arch V k pt va) = false

/-- All pages of the range are mapped by user leaves. -/
def UserLeaves (va len : Nat) : Prop :=
  ∀ j, Reached va len j → UserLeaf arch V k pt (copyPage va j)

/-- All pages of the range are mapped by user leaves, to physical pages that are
pairwise distinct. -/
structure UserRange (va len : Nat) : Prop where
  leaf : ∀ j, Reached va len j → UserLeaf arch V k pt (copyPage va j)
  distinct : ∀ i j, Reached va len i → Reached va len j →
    arch.toPa (entryOf arch V k pt (copyPage va i)) =
      arch.toPa (entryOf arch V k pt (copyPage va j)) → i = j

/-- `walk_addr` finds the page of the user address `a`, and not at the null address. -/
structure Readable (a : Nat) : Prop where
  walk : walkAddr arch V k pt (pageRoundDown a) =
    .ok (arch.toPa (entryOf arch V k pt (pageRoundDown a)))
  nonnull : arch.toVir (arch.toPa (entryOf arch V k pt (pageRoundDown a))) ≠ 0
  fits : arch.toVir (arch.toPa (entryOf arch V k pt (pageRoundDown a))) + 4096 ≤ 2 ^ 64

/-- What both forms of `copy_str_in` do for the first `max` user bytes at `va`: they return, with
zero if and only if one of the bytes is NUL, and then with the bytes before the first NUL. -/
structure StringDelivered (va max : Nat) : Prop where
  buffer : ∃ r bytes, copyStrIn arch V k pt va max = .ok (r, bytes) ∧
    (r = 0 ↔ ∃ d < max, k.mem (userLoc arch V k pt (wordAdd va d)) = 0)
  string : ∀ dst, ∃ r bytes, copyStrInString arch V k pt dst va max = .ok (r, bytes) ∧
    (r = 0 ↔ ∃ d < max, k.mem (userLoc arch V k pt (wordAdd va d)) = 0)
  before : ∀ d < max, k.mem (userLoc arch V k pt (wordAdd va d)) = 0 →
    (∀ e < d, k.mem (userLoc arch V k pt (wordAdd va e)) ≠ 0) →
    copyStrIn arch V k pt va max = .ok (0, userView arch V k pt va d ++ [0]) ∧
      ∀ dst, copyStrInString arch V k pt dst va max = .ok (0, dst ++ userView arch V k pt va d)

/-- The state `k'` after a `copyout` of `src` to `va`: exactly the user bytes of the range are those
of `src`, and the copies in give them back. -/
structure CopiedOut (va : Nat) (src : List UInt8) (k' : Kernel σ) : Prop where
  mapping : userLoc arch V k' pt = userLoc arch V k pt
  bytes : Mem.Stored k.mem (fun d => userLoc arch V k pt (wordAdd va d)) (fun d => src.getD d 0) 0
    src.length k'.mem
  back : copyIn arch V k' pt va src.length = .ok (0, src)
  strings : ∀ max, max ≤ src.length ∨ 0 ∈ src → StringDelivered arch V k' pt va max

end

/-! ### Reading -/

section

variable {σ : Type} {arch : Arch} {V : VirtualPageAllocator σ} {k : Kernel σ} {pt : PageTable}
  {va len : Nat}

theorem wordAdd_assoc (a b c : Nat) : wordAdd (wordAdd a b) c = wordAdd a (b + c) := by
  unfold wordAdd wordSize
  omega

theorem wordAdd_zero {a : Nat} (h : a < 2 ^ 64) : wordAdd a 0 = a := Nat.mod_eq_of_lt h

/-- The next page starts where the part in this page ends. -/
theorem next_page (va : Nat) :
    wordAdd (pageRoundDown va) pageSize = wordAdd va (4096 - va % 4096) := by
  have hdown := pageRoundDown_eq va
  unfold wordAdd wordSize pageSize
  omega

theorem page_of_add (va d : Nat) :
    pageRoundDown (wordAdd va d) = copyPage va ((va % 4096 + d) / 4096) := by
  unfold copyPage wordAdd wordSize pageRoundDown pageSize
  omega

theorem offset_of_add (va d : Nat) : wordAdd va d % 4096 = (va % 4096 + d) % 4096 := by
  unfold wordAdd wordSize
  omega

theorem userView_add (va n l : Nat) : userView arch V k pt va (n + l) =
    userView arch V k pt va n ++ userView arch V k pt (wordAdd va n) l := by
  unfold userView
  rw [Mem.view_add]
  simp only [wordAdd_assoc]

/-- Within a page the user bytes are in one piece. -/
theorem userLoc_page {d : Nat} (hva : va < 2 ^ 64) (hd : d < 4096 - va % 4096) :
    userLoc arch V k pt (wordAdd va d) =
      arch.toVir (arch.toPa (entryOf arch V k pt (pageRoundDown va))) + va % 4096 + d := by
  unfold userLoc
  rw [page_of_add, offset_of_add, show (va % 4096 + d) / 4096 = 0 by omega, copyPage_zero hva,
    Nat.mod_eq_of_lt (by omega), Nat.add_assoc]

theorem Readable.wordAdd_off (h : Readable arch V k pt va) :
    wordAdd (arch.toVir (arch.toPa (entryOf arch V k pt (pageRoundDown va)))) (va % 4096) =
      arch.toVir (arch.toPa (entryOf arch V k pt (pageRoundDown va))) + va % 4096 := by
  have := h.fits
  unfold wordAdd wordSize
  omega

theorem Readable.load (h : Readable arch V k pt va) (hva : va < 2 ^ 64) {n : Nat}
    (hn : n ≤ 4096 - va % 4096) :
    k.mem.load (wordAdd (arch.toVir (arch.toPa (entryOf arch V k pt (pageRoundDown va))))
      (va % 4096)) n = userView arch V k pt va n := by
  rw [h.wordAdd_off]
  exact (Mem.view_load fun d hd => userLoc_page hva (by omega)).symm

/-- `copy_in` where no walk panics or gives the null address: the byte at the user address `a` comes
from `loc a`. -/
theorem copyInLoop_view (loc : Nat → Nat) (turns : Nat) (dst : List UInt8) (hva : va < 2 ^ 64)
    (hlen : len ≤ turns) (h : ∀ d < len, ∃ pa,
      walkAddr arch V k pt (pageRoundDown (wordAdd va d)) = .ok pa ∧ arch.toVir pa ≠ 0 ∧
      arch.toVir pa + 4096 ≤ 2 ^ 64 ∧ loc (wordAdd va d) = arch.toVir pa + wordAdd va d %
      4096) :
    copyInLoop arch V k pt turns va len dst =
      .ok (0, dst ++ k.mem.view (fun d => loc (wordAdd va d)) len) := by
  induction turns generalizing va len dst with
  | zero =>
    obtain rfl : len = 0 := by omega
    simp [copyInLoop]
  | succ turns ih =>
    rw [copyInLoop]
    split
    case isTrue h0 =>
      subst h0
      simp
    case isFalse h0 =>
      have hdown := pageRoundDown_eq va
      have hoff : va - pageRoundDown va = va % 4096 := by omega
      obtain ⟨pa, hwalk, hnonnull, hfits, -⟩ := h 0 (by omega)
      rw [wordAdd_zero hva] at hwalk
      simp only
      rw [hwalk, ok_bind]
      simp only [if_neg hnonnull, hoff, show pageSize = 4096 from rfl]
      have hadd : wordAdd (arch.toVir pa) (va % 4096) = arch.toVir pa + va % 4096 := by
        unfold wordAdd wordSize
        omega
      -- the bytes in this page are in one piece
      have hload : ∀ n, n ≤ len → n ≤ 4096 - va % 4096 →
          k.mem.load (wordAdd (arch.toVir pa) (va % 4096)) n =
          k.mem.view (fun d => loc (wordAdd va d)) n := by
        intro n hn hpage
        rw [hadd]
        refine (Mem.view_load fun d hd => ?_).symm
        obtain ⟨pa', hwalk', -, -, hloc⟩ := h d (by omega)
        have hsame : pageRoundDown (wordAdd va d) = pageRoundDown va := by
          rw [page_of_add, show (va % 4096 + d) / 4096 = 0 by omega, copyPage_zero hva]
        rw [hsame, hwalk] at hwalk'
        cases hwalk'
        rw [hloc, offset_of_add, Nat.mod_eq_of_lt (by omega)]
        omega
      rw [hload _ (Nat.min_le_right _ _) (Nat.min_le_left _ _), ← show pageSize = 4096 from rfl,
        next_page,
        show pageSize = 4096 from rfl]
      rcases Nat.le_total len (4096 - va % 4096) with hle | hle
      · -- the last page
        rw [Nat.min_eq_right hle, Nat.sub_self, ih _ (wordAdd_lt _ _) (Nat.zero_le _)]
        · simp
        · intro d hd
          omega
      · rw [Nat.min_eq_left hle, ih _ (wordAdd_lt _ _) (by omega), List.append_assoc]
        · have hsum : len = 4096 - va % 4096 + (len - (4096 - va % 4096)) := by omega
          rw [hsum, Mem.view_add, ← hsum]
          simp only [wordAdd_assoc]
        · intro d hd
          rw [wordAdd_assoc]
          exact h _ (by omega)

/-- `copy_in` of bytes that can be read. -/
theorem copyInLoop_bytes (turns : Nat) (dst : List UInt8) (hva : va < 2 ^ 64) (hlen : len ≤ turns)
    (h : ∀ d < len, Readable arch V k pt (wordAdd va d)) :
    copyInLoop arch V k pt turns va len dst = .ok (0, dst ++ userView arch V k pt va len) :=
  copyInLoop_view (userLoc arch V k pt) turns dst hva hlen fun d hd =>
    ⟨_, (h d hd).walk, (h d hd).nonnull, (h d hd).fits, rfl⟩

/-- `copy_str_in` of bytes that can be read, with the first NUL at `d`. -/
theorem copyStrInLoop_found (nul : List UInt8) (turns : Nat) {max d : Nat} (dst : List UInt8)
    (hva : va < 2 ^ 64) (hmax : max ≤ turns) (hd : d < max)
    (h : ∀ e ≤ d, Readable arch V k pt (wordAdd va e))
    (hnul : k.mem (userLoc arch V k pt (wordAdd va d)) = 0)
    (hbefore : ∀ e < d, k.mem (userLoc arch V k pt (wordAdd va e)) ≠ 0) :
    copyStrInLoop arch V nul k pt turns va max dst =
      .ok (0, dst ++ userView arch V k pt va d ++ nul) := by
  induction turns generalizing va max d dst with
  | zero => omega
  | succ turns ih =>
    have hdown := pageRoundDown_eq va
    have hoff : va - pageRoundDown va = va % 4096 := by omega
    have h₀ := h 0 (Nat.zero_le d)
    rw [wordAdd_zero hva] at h₀
    have hbyte : ∀ e < 4096 - va % 4096, k.mem (arch.toVir (arch.toPa (entryOf arch V k pt
        (pageRoundDown va))) + va % 4096 + e) = k.mem (userLoc arch V k pt (wordAdd va e)) :=
      fun e he => by rw [userLoc_page hva he]
    rw [copyStrInLoop, if_neg (by omega)]
    simp only
    rw [h₀.walk, ok_bind]
    simp only [if_neg h₀.nonnull, hoff, show pageSize = 4096 from rfl]
    by_cases hin : d < 4096 - va % 4096
    · rw [h₀.wordAdd_off, copyStrScan_nul (d := d) max dst (by omega) (by rw [hbyte d hin, hnul])
        fun e he => by rw [hbyte e (by omega)]; exact hbefore e he]
      simp only [if_true]
      rw [← h₀.wordAdd_off, h₀.load hva (by omega)]
    · -- the NUL is in a page after this one
      have hmin : min (4096 - va % 4096) max = 4096 - va % 4096 := by omega
      rw [hmin, h₀.wordAdd_off, copyStrScan_next max dst
        fun e he => by rw [hbyte e he]; exact hbefore e (by omega)]
      simp only [Bool.false_eq_true, if_false]
      rw [← h₀.wordAdd_off, h₀.load hva (Nat.le_refl _), ← show pageSize = 4096 from rfl,
        next_page,
        show pageSize = 4096 from rfl]
      have hsum : 4096 - va % 4096 + (d - (4096 - va % 4096)) = d := by omega
      rw [ih (d := d - (4096 - va % 4096)) _ (wordAdd_lt _ _) (by omega) (by omega)]
      · rw [List.append_assoc dst, ← userView_add, hsum]
      · intro e he
        rw [wordAdd_assoc]
        exact h _ (by omega)
      · rw [wordAdd_assoc, hsum, hnul]
      · intro e he
        rw [wordAdd_assoc]
        exact hbefore _ (by omega)

/-- `copy_str_in` of bytes that can be read, without a NUL. -/
theorem copyStrInLoop_missing (nul : List UInt8) (turns : Nat) {max : Nat} (dst : List UInt8)
    (hva : va < 2 ^ 64) (hmax : max ≤ turns)
    (h : ∀ d < max, Readable arch V k pt (wordAdd va d))
    (hnone : ∀ d < max, k.mem (userLoc arch V k pt (wordAdd va d)) ≠ 0) :
    ∃ bytes, copyStrInLoop arch V nul k pt turns va max dst = .ok (-1, bytes) := by
  induction turns generalizing va max dst with
  | zero => exact ⟨dst, rfl⟩
  | succ turns ih =>
    rw [copyStrInLoop]
    split
    case isTrue h0 => exact ⟨dst, rfl⟩
    case isFalse h0 =>
      have hdown := pageRoundDown_eq va
      have hoff : va - pageRoundDown va = va % 4096 := by omega
      have h₀ := h 0 (by omega)
      rw [wordAdd_zero hva] at h₀
      simp only
      rw [h₀.walk, ok_bind]
      simp only [if_neg h₀.nonnull, hoff, show pageSize = 4096 from rfl]
      rw [h₀.wordAdd_off, copyStrScan_next max dst fun e he => by
        rw [← userLoc_page hva (by omega)]
        exact hnone e (by omega)]
      simp only [Bool.false_eq_true, if_false]
      rw [← show pageSize = 4096 from rfl, next_page, show pageSize = 4096 from rfl]
      rcases Nat.le_total max (4096 - va % 4096) with hle | hle
      · refine ih _ (wordAdd_lt _ _) (by omega) ?_ ?_ <;> intro d hd <;> omega
      · refine ih _ (wordAdd_lt _ _) (by omega) ?_ ?_ <;> intro d hd <;> rw [wordAdd_assoc]
        · exact h _ (by omega)
        · exact hnone _ (by omega)

/-- `copy_str_in` where the bytes up to the first NUL, or to the end, can be read. -/
theorem stringDelivered {max : Nat} (hva : va < 2 ^ 64)
    (h : ∀ d < max, (∀ e < d, k.mem (userLoc arch V k pt (wordAdd va e)) ≠ 0) →
      Readable arch V k pt (wordAdd va d)) : StringDelivered arch V k pt va max := by
  have hbefore : ∀ d < max, k.mem (userLoc arch V k pt (wordAdd va d)) = 0 →
      (∀ e < d, k.mem (userLoc arch V k pt (wordAdd va e)) ≠ 0) → ∀ nul dst,
      copyStrInLoop arch V nul k pt max va max dst =
        .ok (0, dst ++ userView arch V k pt va d ++ nul) := by
    intro d hd hnul hb nul dst
    refine copyStrInLoop_found nul max dst hva (Nat.le_refl max) hd (fun e he => ?_) hnul hb
    exact h e (by omega) fun l hl => hb l (by omega)
  have hreturns : ∀ nul dst, ∃ r bytes, copyStrInLoop arch V nul k pt max va max dst =
      .ok (r, bytes) ∧
        (r = 0 ↔ ∃ d < max, k.mem (userLoc arch V k pt (wordAdd va d)) = 0) := by
    intro nul dst
    by_cases hnul : ∃ d < max, k.mem (userLoc arch V k pt (wordAdd va d)) = 0
    · classical
      obtain ⟨hd, h0⟩ := Nat.find_spec hnul
      refine ⟨0, _, hbefore (Nat.find hnul) hd h0 (fun e he hz => ?_)
        nul dst, by simpa using hnul⟩
      exact Nat.find_min hnul he ⟨by omega, hz⟩
    · have hnone : ∀ d < max, k.mem (userLoc arch V k pt (wordAdd va d)) ≠ 0 := fun d hd h0 =>
        hnul ⟨d, hd, h0⟩
      obtain ⟨bytes, hrun⟩ := copyStrInLoop_missing nul max dst hva (Nat.le_refl max)
        (fun d hd => h d hd fun e he => hnone e (by omega)) hnone
      exact ⟨-1, bytes, hrun, by simpa using hnone⟩
  refine ⟨hreturns [0] [], hreturns [], fun d hd hnul hb => ⟨?_, fun dst => ?_⟩⟩
  · rw [copyStrIn, hbefore d hd hnul hb]
    rfl
  · rw [copyStrInString, hbefore d hd hnul hb, List.append_nil]

end

/-! ### Writing -/

section

variable {reg : Region} {arch : Arch} {k k' : Kernel BuddyAllocator} {B : Blocks}
  {Base : Nat → Nat → Prop} {ι : Type} {W : Spaces ι} {i : ι} {A : AddrSpace} {va len : Nat}

theorem Mapping.Ok.toVir_inj {mp mp' : Mapping} (h : mp.Ok arch) (h' : mp'.Ok arch)
    (he : arch.toVir mp.page = arch.toVir mp'.page) : mp.page = mp'.page := by
  have hlt := h.lt
  have hlt' := h'.lt
  cases arch with
  | riscv => exact he
  | loongarch =>
    rw [Arch.toVir_loongarch, Arch.toVir_loongarch] at he
    simp only [Arch.physLimit] at hlt hlt'
    omega

/-- The mapping behind a valid leaf entry. -/
theorem World.validLeaf (H : World reg arch k B Base W) (hi : W i = some A) (hb : A.base = 0)
    (hv : ValidLeaf arch buddyPages k ⟨A.root, true⟩ va) :
    ∃ mp, A.map (va / 4096 % arch.vaPages) = some mp ∧ mp.Ok arch ∧
      Mm.entryOf arch buddyPages k ⟨A.root, true⟩ va = mp.data arch := by
  obtain ⟨mp, hmp⟩ := Option.ne_none_iff_exists'.mp ((H.valid_iff hi hb).mp hv)
  refine ⟨mp, hmp, ((H.represents hi).of_some hmp).2, ?_⟩
  rw [H.entryOf hi hb, hmp]
  rfl

theorem World.readable (H : World reg arch k B Base W) (hi : W i = some A) (hb : A.base = 0)
    (hu : UserLeaf arch buddyPages k ⟨A.root, true⟩ (pageRoundDown va))
    (hn : arch.toVir (arch.toPa
      (Mm.entryOf arch buddyPages k ⟨A.root, true⟩ (pageRoundDown va))) ≠ 0) :
    Readable arch buddyPages k ⟨A.root, true⟩ va := by
  obtain ⟨mp, hmp, hok, hentry⟩ := H.validLeaf hi hb hu.1
  have hdown := pageRoundDown_eq va
  have hmod : pageRoundDown va &&& (pageSize - 1) = 0 := by
    rw [show pageSize - 1 = 2 ^ 12 - 1 from rfl, Nat.and_two_pow_sub_one_eq_mod]
    omega
  refine ⟨?_, hn, ?_⟩
  · rcases H.lookup hi hb (pageRoundDown va) with ⟨e, he⟩ | ⟨pte, hwalk, hpos, hdata⟩
    · obtain ⟨pte, hp⟩ := hu.1.exists
      rw [he] at hp
      cases hp
    have hpd : pteData k.mem pte = mp.data arch := by
      rw [hdata]
      unfold walkPage
      rw [hmp]
      rfl
    have hs := hu.2
    rw [hentry] at hs
    rw [walkAddr, hwalk, ok_bind]
    simp only [if_neg hpos, hpd, hok.isValid, hs, hmod, hentry, Bool.not_true, Bool.false_eq_true,
      if_false, Nat.or_zero]
  · rw [hentry, hok.toPa]
    exact hok.toVir_le

theorem reached_of_lt {d : Nat} (hd : d < len) : Reached va len ((va % 4096 + d) / 4096) :=
  ⟨by omega, by omega⟩

/-- Different bytes of the range are at different addresses. -/
theorem World.userLoc_inj (H : World reg arch k B Base W) (hi : W i = some A) (hb : A.base = 0)
    (R : UserRange arch buddyPages k ⟨A.root, true⟩ va len) {d e : Nat} (hd : d < len)
    (he : e < len)
    (h : userLoc arch buddyPages k ⟨A.root, true⟩ (wordAdd va d) =
      userLoc arch buddyPages k ⟨A.root, true⟩ (wordAdd va e)) : d = e := by
  have hrd : Reached va len ((va % 4096 + d) / 4096) := reached_of_lt hd
  have hre : Reached va len ((va % 4096 + e) / 4096) := reached_of_lt he
  obtain ⟨mp, -, hok, hentry⟩ := H.validLeaf hi hb (R.leaf _ hrd).1
  obtain ⟨mp', -, hok', hentry'⟩ := H.validLeaf hi hb (R.leaf _ hre).1
  have hpage := R.distinct _ _ hrd hre
  unfold userLoc at h
  rw [page_of_add, page_of_add, offset_of_add, offset_of_add] at h
  rw [hentry, hentry', hok.toPa, hok'.toPa] at h hpage
  have hmod : arch.toVir mp.page % 4096 = 0 := toVir_mod hok.aligned
  have hmod' : arch.toVir mp'.page % 4096 = 0 := toVir_mod hok'.aligned
  have hsame := hpage (hok.toVir_inj hok' (by omega))
  omega

theorem UserLeaves.congr (L : UserLeaves arch buddyPages k ⟨A.root, true⟩ va len)
    (H : World reg arch k B Base W) (H' : World reg arch k' B Base W) (hi : W i = some A)
    (hb : A.base = 0) : UserLeaves arch buddyPages k' ⟨A.root, true⟩ va len := by
  intro j hj
  have := L j hj
  unfold UserLeaf ValidLeaf at this ⊢
  rwa [H.entryOf_congr H' hi hb]

theorem UserRange.congr (R : UserRange arch buddyPages k ⟨A.root, true⟩ va len)
    (H : World reg arch k B Base W) (H' : World reg arch k' B Base W) (hi : W i = some A)
    (hb : A.base = 0) : UserRange arch buddyPages k' ⟨A.root, true⟩ va len := by
  refine ⟨UserLeaves.congr R.leaf H H' hi hb, fun l j hl hj => ?_⟩
  rw [H.entryOf_congr H' hi hb]
  exact R.distinct l j hl hj

theorem World.userLoc_congr (H : World reg arch k B Base W) (H' : World reg arch k' B Base W)
    (hi : W i = some A) (hb : A.base = 0) :
    userLoc arch buddyPages k' ⟨A.root, true⟩ =
      userLoc arch buddyPages k ⟨A.root, true⟩ := by
  unfold userLoc
  rw [H.entryOf_congr H' hi hb]

/-- The pages after the first one. -/
theorem UserLeaves.next (L : UserLeaves arch buddyPages k ⟨A.root, true⟩ va len) :
    UserLeaves arch buddyPages k ⟨A.root, true⟩ (wordAdd (pageRoundDown va) pageSize)
      (len - min (4096 - va % 4096) len) := by
  intro j hj
  rw [copyPage_next]
  exact L (j + 1) (reached_next.mp hj)

/-- `copyout` to user leaves, where different bytes of the range are at different addresses, stores
exactly the bytes of the range. -/
theorem World.copyoutLoop_leaves (hw : reg.InWindow arch) (turns : Nat) (p : List UInt8)
    (H : World reg arch k B Base W) (hi : W i = some A) (hb : A.base = 0) (ho : A.Owned reg arch)
    (hva : va < 2 ^ 64) (hlen : p.length ≤ turns)
    (R : UserLeaves arch buddyPages k ⟨A.root, true⟩ va p.length)
    (hinj : ∀ d e, d < p.length → e < p.length → userLoc arch buddyPages k ⟨A.root, true⟩
      (wordAdd va d) = userLoc arch buddyPages k ⟨A.root, true⟩ (wordAdd va e) → d = e)
    (hn : ∀ j, Reached va p.length j → arch.toVir (arch.toPa
      (Mm.entryOf arch buddyPages k ⟨A.root, true⟩ (copyPage va j))) ≠ 0) :
    ∃ k', copyoutLoop arch buddyPages ⟨A.root, true⟩ turns k va p = .ok (0, k') ∧
      World reg arch k' B Base W ∧
      Mem.Stored k.mem (fun d => userLoc arch buddyPages k ⟨A.root, true⟩ (wordAdd va d))
        (fun d => p.getD d 0) 0 p.length k'.mem := by
  induction turns generalizing k va p with
  | zero =>
    have h0 : p.length = 0 := by omega
    exact ⟨k, rfl, H, .refl _ _ _ (by omega)⟩
  | succ turns ih =>
    by_cases h0 : p.length = 0
    · refine ⟨k, ?_, H, .refl _ _ _ (by omega)⟩
      rw [copyoutLoop, if_pos h0]
    have hdown := pageRoundDown_eq va
    have hreach : Reached va p.length 0 := ⟨by omega, by omega⟩
    have hleaf := R 0 hreach
    have hnz := hn 0 hreach
    rw [copyPage_zero hva] at hleaf hnz
    obtain ⟨mp, hmp, hok, hentry⟩ := H.validLeaf hi hb hleaf.1
    rw [show pageRoundDown va / 4096 = va / 4096 by omega] at hmp
    rw [hentry, hok.toPa] at hnz
    have hoff : va - pageRoundDown va = va % 4096 := by omega
    have hbytes : AgreeOn (fun x => x < arch.toVir mp.page ∨ arch.toVir mp.page + 4096 ≤ x)
        k.mem (k.mem.store (arch.toVir (wordAdd (arch.toVir mp.page) (va - pageRoundDown va)))
          (p.take (min (pageSize - (va - pageRoundDown va)) p.length))) :=
      copyout_bytes hok.aligned hok.toVir_le p
    rw [hoff, show pageSize = 4096 from rfl] at hbytes
    have H₁ := H.storeMapped hw hi ho hmp hbytes
    rw [H.copyout_entry hi hmp hnz (by omega)]
    have hle := hok.toVir_le
    have hadd : wordAdd (arch.toVir mp.page) (va % 4096) = arch.toVir mp.page + va % 4096 := by
      unfold wordAdd wordSize
      omega
    have hvir : arch.toVir (arch.toVir mp.page + va % 4096) = arch.toVir mp.page + va % 4096 :=
      ((windowed_toVir arch mp.page).add (toVir_mod hok.aligned) (Nat.mod_lt _ (by decide))).toVir
    generalize hn₀ : min (4096 - va % 4096) p.length = n at H₁ ⊢
    have hdrop : (p.drop n).length = p.length - n := List.length_drop
    have R₁ : UserLeaves arch buddyPages
        { k with
          mem := k.mem.store (arch.toVir (wordAdd (arch.toVir mp.page) (va % 4096))) (p.take n) }
        ⟨A.root, true⟩ (wordAdd (pageRoundDown va) pageSize) (p.drop n).length := by
      have hnext := (R.congr H H₁ hi hb).next
      rwa [hn₀, ← hdrop] at hnext
    have hinj₁ : ∀ d e, d < (p.drop n).length → e < (p.drop n).length →
        userLoc arch buddyPages
          { k with
            mem := k.mem.store (arch.toVir (wordAdd (arch.toVir mp.page) (va % 4096))) (p.take n) }
          ⟨A.root, true⟩ (wordAdd (wordAdd (pageRoundDown va) pageSize) d) =
        userLoc arch buddyPages
          { k with
            mem := k.mem.store (arch.toVir (wordAdd (arch.toVir mp.page) (va % 4096))) (p.take n) }
          ⟨A.root, true⟩ (wordAdd (wordAdd (pageRoundDown va) pageSize) e) → d = e := by
      intro d e hd he heq
      rw [hdrop] at hd he
      rw [H.userLoc_congr H₁ hi hb, next_page, wordAdd_assoc, wordAdd_assoc] at heq
      have := hinj _ _ (by omega) (by omega) heq
      omega
    obtain ⟨k', hrun, H', hst⟩ :=
        ih (p.drop n) H₁ (wordAdd_lt _ _) (by omega) R₁ hinj₁ (by
      intro j hj
      rw [H.entryOf_congr H₁ hi hb, copyPage_next]
      rw [hdrop, ← hn₀] at hj
      exact hn (j + 1) (reached_next.mp hj))
    refine ⟨k', hrun, H', ?_⟩
    rw [H.userLoc_congr H₁ hi hb, hdrop] at hst
    have hfirst : Mem.Stored k.mem
        (fun d => userLoc arch buddyPages k ⟨A.root, true⟩ (wordAdd va d)) (fun d => p.getD d 0)
        0 n
        (k.mem.store (arch.toVir (wordAdd (arch.toVir mp.page) (va % 4096))) (p.take n)) := by
      rw [hadd, hvir]
      refine .store (by rw [List.length_take]; omega) (fun d _ hd => ?_) fun d _ hd => ?_
      · rw [userLoc_page hva (by omega), hentry, hok.toPa, Nat.sub_zero]
      · rw [Nat.sub_zero, List.getD_eq_getElem?_getD, List.getD_eq_getElem?_getD,
          List.getElem?_take_of_lt hd]
    rcases Nat.lt_or_ge (4096 - va % 4096) p.length with hlt | hge
    · have hn₁ : n = 4096 - va % 4096 := by omega
      have hrest : Mem.Stored (k.mem.store
            (arch.toVir (wordAdd (arch.toVir mp.page) (va % 4096))) (p.take n))
          (fun d => userLoc arch buddyPages k ⟨A.root, true⟩ (wordAdd va d))
          (fun d => p.getD d 0) n
          p.length k'.mem := by
        rw [show n = n + 0 from rfl, show p.length = n + (p.length - n) by omega]
        refine Mem.Stored.shift ?_
        simpa only [next_page, ← hn₁, wordAdd_assoc, List.getD_eq_getElem?_getD,
          List.getElem?_drop, Nat.add_zero] using hst
      exact hfirst.append hrest (fun d e _ hd hbe he heq => by
        have := hinj _ _ (by omega) he heq
        omega) (Nat.zero_le n) (by omega)
    · -- this was the last page
      have hn₁ : n = p.length := by omega
      have hsame : k'.mem = k.mem.store
          (arch.toVir (wordAdd (arch.toVir mp.page) (va % 4096))) (p.take n) := by
        funext x
        exact hst.outside x fun d _ hd => by omega
      rw [hsame, ← hn₁]
      exact hfirst

/-- `copyout` to a range of user pages stores exactly the bytes of the range. -/
theorem World.copyoutLoop_stored (hw : reg.InWindow arch) (turns : Nat) (p : List UInt8)
    (H : World reg arch k B Base W) (hi : W i = some A) (hb : A.base = 0) (ho : A.Owned reg arch)
    (hva : va < 2 ^ 64) (hlen : p.length ≤ turns)
    (R : UserRange arch buddyPages k ⟨A.root, true⟩ va p.length)
    (hn : ∀ j, Reached va p.length j → arch.toVir (arch.toPa
      (Mm.entryOf arch buddyPages k ⟨A.root, true⟩ (copyPage va j))) ≠ 0) :
    ∃ k', copyoutLoop arch buddyPages ⟨A.root, true⟩ turns k va p = .ok (0, k') ∧
      World reg arch k' B Base W ∧
      Mem.Stored k.mem (fun d => userLoc arch buddyPages k ⟨A.root, true⟩ (wordAdd va d))
        (fun d => p.getD d 0) 0 p.length k'.mem :=
  H.copyoutLoop_leaves hw turns p hi hb ho hva hlen R.leaf
    (fun _ _ hd he => H.userLoc_inj hi hb R hd he) hn

theorem Reached.of_le {max j : Nat} (h : Reached va max j) (hle : max ≤ len) :
    Reached va len j := by
  obtain ⟨hpos, hj⟩ := h
  exact ⟨by omega, by omega⟩

theorem UserLeaves.of_le {σ : Type} {V : VirtualPageAllocator σ} {k : Kernel σ} {pt : PageTable}
    {n : Nat} (L : UserLeaves arch V k pt va len) (hle : n ≤ len) : UserLeaves arch V k pt va n :=
    fun j hj => L j (hj.of_le hle)

/-- After `copyout` has stored `src`, the copies in give it back. -/
theorem World.copiedOut (H : World reg arch k B Base W) (H' : World reg arch k' B Base W)
    (hi : W i = some A) (hb : A.base = 0) (hva : va < 2 ^ 64) {src : List UInt8}
    (R : UserRange arch buddyPages k ⟨A.root, true⟩ va src.length)
    (hn : ∀ j, Reached va src.length j → arch.toVir (arch.toPa
      (Mm.entryOf arch buddyPages k ⟨A.root, true⟩ (copyPage va j))) ≠ 0)
    (hst : Mem.Stored k.mem (fun d => userLoc arch buddyPages k ⟨A.root, true⟩ (wordAdd va d))
      (fun d => src.getD d 0) 0 src.length k'.mem) :
    CopiedOut arch buddyPages k ⟨A.root, true⟩ va src k' := by
  have hloc := H.userLoc_congr H' hi hb
  have hread : ∀ d < src.length, Readable arch buddyPages k' ⟨A.root, true⟩
      (wordAdd va d) := by
    intro d hd
    have hr : Reached va src.length ((va % 4096 + d) / 4096) := reached_of_lt hd
    refine H'.readable hi hb ?_ ?_
    · rw [page_of_add]
      exact (R.congr H H' hi hb).leaf _ hr
    · rw [page_of_add, H.entryOf_congr H' hi hb]
      exact hn _ hr
  refine ⟨hloc, hst, ?_, fun max hmax => stringDelivered hva fun d hd hbefore => hread d ?_⟩
  · rw [copyIn, copyInLoop_bytes _ _ hva (Nat.le_refl _) hread, List.nil_append]
    unfold userView
    rw [hloc, Mem.view_eq fun d hd => hst.inside d (Nat.zero_le d) hd]
  · rcases hmax with hle | hmem
    · omega
    · -- a byte before the first NUL of `src` is a byte of `src`
      obtain ⟨e, he, h0⟩ := List.mem_iff_getElem.mp hmem
      by_contra hd'
      refine hbefore e (by omega) ?_
      rw [hloc, hst.inside e (Nat.zero_le e) he, List.getD_eq_getElem?_getD,
        List.getElem?_eq_getElem he, Option.getD_some, h0]

/-- `copyout` to a range of user pages returns, with zero if none of them is at the null
address; and then exactly the bytes of the range have changed, and `copy_in` and `copy_str_in`
give them back. -/
theorem copyout_copyIn (reg : Region) (arch : Arch) (hw : reg.InWindow arch)
    (k : Kernel BuddyAllocator) (B : Blocks) (Base : Nat → Nat → Prop) (W : Spaces ι)
    (H : World reg arch k B Base W) (i : ι) (A : AddrSpace) (hi : W i = some A) (hb : A.base = 0)
    (ho : A.Owned reg arch) (va : Nat) (hva : va < 2 ^ 64) (src : List UInt8)
    (R : UserRange arch buddyPages k ⟨A.root, true⟩ va src.length) :
    ∃ r k', copyout arch buddyPages k ⟨A.root, true⟩ va src = .ok (r, k') ∧
      (r = 0 ↔ ∀ j, Reached va src.length j → arch.toVir (arch.toPa
        (Mm.entryOf arch buddyPages k ⟨A.root, true⟩ (copyPage va j))) ≠ 0) ∧
      (r = 0 → CopiedOut arch buddyPages k ⟨A.root, true⟩ va src k') := by
  by_cases hn : ∀ j, Reached va src.length j → arch.toVir (arch.toPa
      (Mm.entryOf arch buddyPages k ⟨A.root, true⟩ (copyPage va j))) ≠ 0
  · obtain ⟨k', hrun, H', hst⟩ :=
      H.copyoutLoop_stored hw src.length src hi hb ho hva (Nat.le_refl _)
      R hn
    exact ⟨0, k', hrun, by simpa using hn, fun _ => H.copiedOut H' hi hb hva R hn hst⟩
  · -- a page at the null address stops the copy
    have hret : ∃ r, scan (lookOut arch A va) 0 (copyPages va src.length) 0 = .ok r := by
      refine scan_returns.mpr fun j hj e he => ?_
      exact (H.lookOut_fail hi).mp he (R.leaf j (comes_out.mp hj).1).1.exists
    obtain ⟨r, hr⟩ := hret
    have hscan := H.copyoutLoop_scan hw src.length src hi hb ho hva (Nat.le_refl _)
      (.inr fun j hj => (H.valid_iff hi hb).mp (R.leaf j hj).1)
    have hr0 : r ≠ 0 := by
      rintro rfl
      rcases scan_ok.mp hr with ⟨j, -, hstop⟩ | ⟨-, hall⟩
      · have := lookOut_stop hstop
        omega
      · refine hn fun j hj => ((H.lookOut_next hi hb).mp (hall j (Nat.zero_le j) ?_)).2
        have := reached_iff.mp hj
        omega
    rw [hr, mapError_ok] at hscan
    cases hc : copyoutLoop arch buddyPages ⟨A.root, true⟩ src.length k va src with
    | error e =>
      rw [hc] at hscan
      cases hscan
    | ok q =>
      obtain ⟨r', k'⟩ := q
      rw [hc] at hscan
      cases hscan
      exact ⟨r', k', hc, iff_of_false hr0 hn, fun h0 => absurd h0 hr0⟩

end

/-- A string that is copied out to the page of the user and read back. -/
theorem copyout_copyIn_sample : ∃ (k k' : Kernel BuddyAllocator) (pt : PageTable),
    copyout .riscv buddyPages k pt 0x10064 [104, 105, 0, 7] = .ok (0, k') ∧
      copyIn .riscv buddyPages k' pt 0x10064 4 = .ok (0, [104, 105, 0, 7]) ∧
      ∃ bytes, copyStrIn .riscv buddyPages k' pt 0x10064 100 = .ok (0, bytes) := by
  obtain ⟨k, B, Base, A, q, H, hb, ho, hq, hmap⟩ := sample_user 16 (by decide)
  have hzero : ∀ j, Reached 0x10064 4 j → j = 0 := by
    intro j hj
    unfold Reached at hj
    omega
  have hok := ((H.represents (i := ()) rfl).of_some hmap).2
  have hentry : Mm.entryOf .riscv buddyPages k ⟨A.root, true⟩ (copyPage 0x10064 0) =
      Mapping.data .riscv ⟨Arch.toPhy .riscv (sampleRegion.addr q),
        vmAllocFlags .riscv false true true⟩ := by
    rw [H.entryOf (i := ()) rfl hb,
      show copyPage 0x10064 0 / 4096 % Arch.vaPages .riscv = 16 from rfl, hmap]
    rfl
  have R : UserRange .riscv buddyPages k ⟨A.root, true⟩ 0x10064
      ([104, 105, 0, 7] : List UInt8).length := by
    refine ⟨fun j hj => ?_, fun l j hl hj _ => by rw [hzero l hl, hzero j hj]⟩
    rw [hzero j hj]
    refine ⟨?_, ?_⟩
    · unfold ValidLeaf
      rw [hentry, hok.isValid]
    · rw [hentry, hok.isSuperPlv]
      exact show Arch.isSuperPlv .riscv (vmAllocFlags .riscv false true true) = false by decide
  obtain ⟨r, k', hrun, hr, hback⟩ :=
    copyout_copyIn sampleRegion .riscv sampleRegion_inWindow k B Base _
    H () A rfl hb ho 0x10064 (by decide) [104, 105, 0, 7] R
  have h0 : r = 0 := by
    refine hr.mpr fun j hj => ?_
    rw [hzero j hj, hentry, hok.toPa, toVir_page sampleRegion_inWindow (H.page_lt (j := ()) rfl hq)]
    have := sampleRegion_inWindow.pos
    simp only [Region.addr]
    omega
  have C := hback h0
  obtain ⟨r', bytes, hstr, hiff⟩ := (C.strings 100 (.inr (by decide))).buffer
  have hr' : r' = 0 := by
    refine hiff.mpr ⟨2, by decide, ?_⟩
    rw [C.mapping]
    exact C.bytes.inside 2 (by decide) (by decide)
  exact ⟨k, k', _, by rw [hrun, h0], C.back, bytes, by rw [hstr, hr']⟩

end OsKernel.Mm

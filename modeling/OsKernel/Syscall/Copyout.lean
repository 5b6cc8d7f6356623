import OsKernel.Mm.Vmm.Range
import OsKernel.Pm.CreateVm

/-! `copyout` and the pages that a user may write.  It asks only whether the entry of a page refers
to an address, so it stores wherever the table of the entry exists: to pages of the kernel and to
read-only pages as well, and on LoongArch to physical page zero when nothing is mapped. -/

namespace OsKernel.Mm

open Lib Hsai Lib.BuddySystem BuddyAllocator

section

variable {σ : Type} (arch : Arch) (V : VirtualPageAllocator σ) (k : Kernel σ) (pt : PageTable)

/-- The leaf entry for `va` is valid, of the user and writable. -/
def UserWritable (va : Nat) : Prop :=
  arch.isValid (entryOf arch V k pt va) = true ∧
    arch.isSuperPlv (entryOf arch V k pt va) = false ∧
    arch.isWritable (entryOf arch V k pt va) = true

/-- The byte at `x` is in a page that the user may write. -/
def UserByte (x : Nat) : Prop :=
  ∃ va, UserWritable arch V k pt va ∧ arch.toVir (arch.toPa (entryOf arch V k pt va)) ≤ x ∧
    x < arch.toVir (arch.toPa (entryOf arch V k pt va)) + 4096

/-- The copy of `len` bytes to `va` reaches its page `j`. -/
def Reached (va len j : Nat) : Prop := 0 < len ∧ 4096 * j < va % 4096 + len

/-- The address of the page `j` of a copy to `va`. -/
def copyPage (va j : Nat) : Nat := wordAdd (pageRoundDown va) (4096 * j)

/-- `copyout` returns; it changes only bytes that the user may write, and it returns 0 or -1 as all
pages that it reaches are pages that the user may write. -/
def CopyoutSound (va len : Nat) : Prop :=
  ∀ p : List UInt8, p.length = len → ∃ r k', copyout arch V k pt va p = .ok (r, k') ∧
    (∀ x, k'.mem x ≠ k.mem x → UserByte arch V k pt x) ∧
    ((∀ j, Reached va len j → UserWritable arch V k pt (copyPage va j)) → r = 0) ∧
    ((∃ j, Reached va len j ∧ ¬UserWritable arch V k pt (copyPage va j)) → r = -1)

/-- Each page that the copy reaches through pages that the user may write is one too, or the machine
is RISC-V and the entry of the page exists and is not valid. -/
def CopyoutGuarded (va len : Nat) : Prop :=
  ∀ j, Reached va len j → (∀ i < j, UserWritable arch V k pt (copyPage va i)) →
    UserWritable arch V k pt (copyPage va j) ∨
      (arch = .riscv ∧ (∃ pte, walk arch V k pt (copyPage va j) false = .ok (pte, k)) ∧
        arch.isValid (entryOf arch V k pt (copyPage va j)) = false)

end

/-! ### Any page table -/

section

variable {σ : Type} {arch : Arch} {V : VirtualPageAllocator σ} {k k' : Kernel σ} {pt : PageTable}

/-- One turn of the loop. -/
theorem copyoutLoop_succ {turns va : Nat} {p : List UInt8} {r : Int}
    (h : copyoutLoop arch V pt (turns + 1) k va p = .ok (r, k')) :
    (k' = k ∧ (r = 0 ∨ arch = .riscv)) ∨
      ∃ a n va', copyoutLoop arch V pt turns { k with mem := k.mem.store a (p.take n) } va'
        (p.drop n) = .ok (r, k') := by
  rw [copyoutLoop] at h
  split at h
  · cases h
    exact .inl ⟨rfl, .inl rfl⟩
  · obtain ⟨⟨pte, k₁⟩, hwalk, hrest⟩ := bind_eq_ok.mp h
    have hk := walk_state hwalk
    subst hk
    simp only at hrest
    split at hrest
    · rename_i hpa
      cases hrest
      refine .inl ⟨rfl, .inr ?_⟩
      cases arch with
      | riscv => rfl
      | loongarch =>
        rw [Arch.toVir_loongarch] at hpa
        omega
    · exact .inr ⟨_, _, _, hrest⟩

/-- A copy of equal bytes leaves each byte as it is or sets it to that value. -/
theorem copyoutLoop_replicate {c : UInt8} (turns va n : Nat) {r : Int}
    (h : copyoutLoop arch V pt turns k va (List.replicate n c) = .ok (r, k')) (x : Nat) :
    k'.mem x = k.mem x ∨ k'.mem x = c := by
  induction turns generalizing k va n with
  | zero =>
    cases h
    exact .inl rfl
  | succ turns ih =>
    rcases copyoutLoop_succ h with ⟨rfl, -⟩ | ⟨a, l, va', h⟩
    · exact .inl rfl
    rw [List.take_replicate, List.drop_replicate] at h
    rcases ih _ _ h with hx | hx
    · by_cases hin : a ≤ x ∧ x < a + min l n
      · right
        rw [hx]
        simp only [Mem.store, List.length_replicate, if_pos hin]
        exact List.getD_replicate _ (by omega)
      · left
        rw [hx]
        exact Mem.store_outside (by rw [List.length_replicate]; omega)
    · exact .inr hx

/-- On LoongArch `to_vir` never gives the null pointer. -/
theorem copyoutLoop_loongarch (turns va : Nat) (p : List UInt8) {r : Int}
    (h : copyoutLoop .loongarch V pt turns k va p = .ok (r, k')) : r = 0 := by
  induction turns generalizing k va p with
  | zero =>
    cases h
    rfl
  | succ turns ih =>
    rcases copyoutLoop_succ h with ⟨-, h | h⟩ | ⟨a, l, va', h⟩
    · exact h
    · cases h
    · exact ih _ _ h

end

/-! ### The pages of a copy -/

theorem copyPage_zero {va : Nat} (h : va < 2 ^ 64) : copyPage va 0 = pageRoundDown va := by
  unfold copyPage wordAdd wordSize pageRoundDown pageSize
  omega

theorem wordAdd_lt (a b : Nat) : wordAdd a b < 2 ^ 64 := Nat.mod_lt _ (by decide)

theorem copyPage_next (va j : Nat) :
    copyPage (wordAdd (pageRoundDown va) pageSize) j = copyPage va (j + 1) := by
  unfold copyPage wordAdd wordSize pageRoundDown pageSize
  omega

theorem reached_next {va len j : Nat} :
    Reached (wordAdd (pageRoundDown va) pageSize) (len - min (4096 - va % 4096) len) j ↔
      Reached va len (j + 1) := by
  unfold Reached wordAdd wordSize pageRoundDown pageSize
  omega

/-! ### Page tables of processes -/

/-- Every page that is mapped is a page of the region that the space holds, or a page of the kernel
image that the user cannot access. -/
def AddrSpace.Held (reg : Region) (arch : Arch) (A : AddrSpace) : Prop :=
  ∀ v mp, A.map v = some mp → (∃ q, A.pages v = some q) ∨
    (arch.isSuperPlv mp.flags = true ∧ mp.page ≠ 0 ∧
      ∀ w q, A.pages w = some q → mp.page ≠ arch.toPhy (reg.addr q))

section

variable {reg : Region} {arch : Arch} {k k' : Kernel BuddyAllocator} {B B' : Blocks}
  {Base Base' : Nat → Nat → Prop} {ι : Type} {W : Spaces ι} {i : ι} {A : AddrSpace}
  {va : Nat}

/-- The entry for an address in a space used from page number zero on. -/
theorem World.entryOf (H : World reg arch k B Base W) (hi : W i = some A) (hb : A.base = 0)
    (va : Nat) : entryOf arch buddyPages k ⟨A.root, true⟩ va =
      ((A.map (va / 4096 % arch.vaPages)).map (·.data arch)).getD 0 := by
  have hlt := Nat.mod_lt (va / 4096) (Arch.vaPages_pos arch)
  have hmod : va / 4096 % arch.vaPages % arch.vaPages = va / 4096 % arch.vaPages := Nat.mod_mod _ _
  have hR := H.represents hi
  rw [show k = ⟨k.pages, k.mem⟩ from rfl, (H.tables hi).entryOf_eq]
  cases hM : A.map (va / 4096 % arch.vaPages) with
  | none =>
    have := hR.of_none hM ⟨by omega, by omega⟩
    rwa [hmod] at this
  | some mp =>
    have := (hR.of_some hM).1
    rwa [hmod] at this

/-- Stores in a page that a space holds. -/
theorem World.storePage (H : World reg arch k B Base W) (hi : W i = some A) {v q : Nat}
    (hq : A.pages v = some q) {m : Mem}
    (hm : AgreeOn (fun x => x < reg.addr q ∨ reg.addr q + 4096 ≤ x) k.mem m) :
    World reg arch { k with mem := m } B Base W := by
  refine H.frame fun x hx => hm x ?_
  by_contra hc
  rcases hx with hx | ⟨j, A', hj, hx⟩
  · exact hx (H.other_page hi hi hq (by omega) (by omega)).1
  · exact (H.other_page hj hi hq (by omega) (by omega)).2 hx

/-- The turn at a page that is mapped. -/
theorem World.copyout_entry (H : World reg arch k B Base W) (hi : W i = some A) {mp : Mapping}
    (hmp : A.map (va / 4096 % arch.vaPages) = some mp) (hpa : arch.toVir mp.page ≠ 0)
    {p : List UInt8} (hp : 0 < p.length) (turns : Nat) :
    copyoutLoop arch buddyPages ⟨A.root, true⟩ (turns + 1) k va p =
      copyoutLoop arch buddyPages ⟨A.root, true⟩ turns
        { k with
          mem := k.mem.store (arch.toVir (wordAdd (arch.toVir mp.page) (va % 4096)))
            (p.take (min (4096 - va % 4096) p.length)) }
        (wordAdd (pageRoundDown va) pageSize) (p.drop (min (4096 - va % 4096) p.length)) := by
  have hR := H.represents hi
  obtain ⟨pte, hpte, hdata⟩ := hR.leafPte hmp
  have hok := (hR.of_some hmp).2
  have hdown := pageRoundDown_eq va
  have hpage : pageRoundDown va / 4096 = va / 4096 := by omega
  have hoff : va - pageRoundDown va = va % 4096 := by omega
  rw [Nat.mod_mod] at hpte
  have hwalk : walk arch buddyPages k ⟨A.root, true⟩ (pageRoundDown va) false = .ok (pte, k) :=
    walk_find_ok (H.tables hi) (by rw [hpage]; exact hpte)
  rw [copyoutLoop, if_neg (by omega)]
  simp only
  rw [hwalk, ok_bind]
  simp only [hdata, hok.toPa]
  rw [if_neg hpa, hoff, show pageSize = 4096 from rfl]

/-- The turn at a page that the space holds: the bytes are stored in it. -/
theorem World.copyout_mapped (H : World reg arch k B Base W) (hw : reg.InWindow arch)
    (hi : W i = some A) {q : Nat} (hq : A.pages (va / 4096 % arch.vaPages) = some q)
    {p : List UInt8} (hp : 0 < p.length) (turns : Nat) :
    copyoutLoop arch buddyPages ⟨A.root, true⟩ (turns + 1) k va p =
      copyoutLoop arch buddyPages ⟨A.root, true⟩ turns
        { k with
          mem := k.mem.store (reg.addr q + va % 4096) (p.take (min (4096 - va % 4096) p.length)) }
        (wordAdd (pageRoundDown va) pageSize) (p.drop (min (4096 - va % 4096) p.length)) := by
  obtain ⟨f, hf⟩ := H.mapped hi hq
  have hlt := H.page_lt hi hq
  have hbound := Region.page_bound hlt
  have hend := reg.end_le
  have hpos := hw.pos
  have hal := reg.mem_aligned
  have hwin := hw.windowed (reg.addr q) (by simp only [Region.addr]; omega) (by omega)
  have hadd : wordAdd (reg.addr q) (va % 4096) = reg.addr q + va % 4096 := by
    unfold wordAdd wordSize
    simp only [Region.addr] at *
    omega
  have hvir : arch.toVir (reg.addr q + va % 4096) = reg.addr q + va % 4096 :=
    (hwin.add (n := va % 4096) (by simp only [Region.addr]; omega) (by omega)).toVir
  have hnz : reg.addr q ≠ 0 := by
    simp only [Region.addr]
    omega
  rw [H.copyout_entry hi hf (by rw [toVir_page hw hlt]; exact hnz) hp]
  simp only [toVir_page hw hlt, hadd, hvir]

/-- The turn at a page that is not mapped: the walk panics where a table is missing, and otherwise
`copyout` returns -1 on RISC-V. -/
theorem World.copyout_unmapped (H : World reg arch k B Base W) (hi : W i = some A)
    (hb : A.base = 0) (hM : A.map (va / 4096 % arch.vaPages) = none) {p : List UInt8}
    (hp : 0 < p.length) (turns : Nat) :
    (∃ e, walk arch buddyPages k ⟨A.root, true⟩ (pageRoundDown va) false = .error e ∧
        copyoutLoop arch buddyPages ⟨A.root, true⟩ (turns + 1) k va p = .error e) ∨
      (arch = .riscv →
        copyoutLoop arch buddyPages ⟨A.root, true⟩ (turns + 1) k va p = .ok (-1, k)) := by
  have hdown := pageRoundDown_eq va
  have hpage : pageRoundDown va / 4096 = va / 4096 := by omega
  rw [copyoutLoop, if_neg (by omega)]
  simp only
  rcases walk_find (V := buddyPages) (H.tables hi) (pageRoundDown va) with
    ⟨l, hrun, -⟩ | ⟨pte, hrun, hpte⟩
  · rw [hrun, error_bind]
    exact .inl ⟨_, rfl, rfl⟩
  · right
    rintro rfl
    have hdata := H.entryOf hi hb (pageRoundDown va)
    unfold Mm.entryOf at hdata
    rw [hrun, hpage, hM] at hdata
    simp only [Option.map_none, Option.getD_none] at hdata
    rw [hrun, ok_bind]
    simp only [hdata]
    rfl

/-- The loop after `j` pages that are mapped. -/
theorem World.copyout_reach (H : World reg arch k B Base W) (hw : reg.InWindow arch)
    (hi : W i = some A) (hva : va < 2 ^ 64) {p : List UInt8} {turns j : Nat}
    (hturns : p.length ≤ turns) (hj : Reached va p.length j)
    (hpages : ∀ l < j, A.pages (copyPage va l / 4096 % arch.vaPages) ≠ none) :
    ∃ k₁ turns₁ va₁ n, World reg arch k₁ B Base W ∧
      copyoutLoop arch buddyPages ⟨A.root, true⟩ turns k va p =
        copyoutLoop arch buddyPages ⟨A.root, true⟩ (turns₁ + 1) k₁ va₁ (p.drop n) ∧
      n < p.length ∧ pageRoundDown va₁ = copyPage va j ∧
      va₁ % 4096 = if j = 0 then va % 4096 else 0 := by
  induction j generalizing k va p turns with
  | zero =>
    obtain ⟨turns, rfl⟩ : ∃ t, turns = t + 1 := ⟨turns - 1, by have := hj.1; omega⟩
    exact ⟨k, turns, va, 0, H, rfl, hj.1, (copyPage_zero hva).symm, (if_pos rfl).symm⟩
  | succ j ih =>
    obtain ⟨turns, rfl⟩ : ∃ t, turns = t + 1 := ⟨turns - 1, by have := hj.1; omega⟩
    have hdown := pageRoundDown_eq va
    obtain ⟨q, hq⟩ := Option.ne_none_iff_exists'.mp (hpages 0 (by omega))
    rw [copyPage_zero hva, show pageRoundDown va / 4096 = va / 4096 by omega] at hq
    have hrun := H.copyout_mapped hw hi hq hj.1 turns
    have H₁ := H.storePage hi hq (m := k.mem.store (reg.addr q + va % 4096)
      (p.take (min (4096 - va % 4096) p.length)))
      fun x hx => Mem.store_outside (by rw [List.length_take]; omega)
    have hlen : (p.drop (min (4096 - va % 4096) p.length)).length =
        p.length - min (4096 - va % 4096) p.length := List.length_drop ..
    have hpos := hj.1
    have hj₁ := reached_next.mpr hj
    rw [← hlen] at hj₁
    obtain ⟨k₁, turns₁, va₁, n, H₂, hrun₁, hn, hpage, hoff⟩ :=
      ih H₁ (wordAdd_lt _ _) (show _ ≤ turns by rw [hlen]; omega) hj₁ fun l hl => by
        rw [copyPage_next]
        exact hpages (l + 1) (by omega)
    rw [List.drop_drop] at hrun₁
    refine ⟨k₁, turns₁, va₁, _,
      H₂, by rw [hrun, hrun₁], by rw [hlen] at hn; omega, ?_, ?_⟩
    · rw [hpage, copyPage_next]
    · rw [hoff, if_neg (Nat.succ_ne_zero j)]
      unfold wordAdd wordSize pageRoundDown pageSize
      split <;> omega

/-! ### What `copyout` meets -/

/-- The entries are those of the space, so they stay as they are while the space does. -/
theorem World.entryOf_congr (H : World reg arch k B Base W) (H' : World reg arch k' B' Base' W)
    (hi : W i = some A) (hb : A.base = 0) :
    Mm.entryOf arch buddyPages k' ⟨A.root, true⟩ =
      Mm.entryOf arch buddyPages k ⟨A.root, true⟩ := by
  funext va
  rw [H.entryOf hi hb, H'.entryOf hi hb]

theorem World.userWritable_congr (H : World reg arch k B Base W)
    (H' : World reg arch k' B' Base' W) (hi : W i = some A) (hb : A.base = 0) :
    UserWritable arch buddyPages k' ⟨A.root, true⟩ =
      UserWritable arch buddyPages k ⟨A.root, true⟩ := by
  unfold UserWritable
  rw [H.entryOf_congr H' hi hb]

theorem World.valid_iff (H : World reg arch k B Base W) (hi : W i = some A) (hb : A.base = 0) :
    arch.isValid (Mm.entryOf arch buddyPages k ⟨A.root, true⟩ va) = true ↔
      A.map (va / 4096 % arch.vaPages) ≠ none := by
  rw [H.entryOf hi hb]
  cases hM : A.map (va / 4096 % arch.vaPages) with
  | none => exact iff_of_false (by simp [Arch.isValid]) (by simp)
  | some mp => exact iff_of_true ((H.represents hi).of_some hM).2.isValid (by simp)

/-- A page that the user may write is a page of the region that the space holds. -/
theorem World.user_page (H : World reg arch k B Base W) (hw : reg.InWindow arch)
    (hi : W i = some A) (hb : A.base = 0) (hheld : A.Held reg arch)
    (hu : UserWritable arch buddyPages k ⟨A.root, true⟩ va) :
    ∃ q, A.pages (va / 4096 % arch.vaPages) = some q ∧
      arch.toVir (arch.toPa (Mm.entryOf arch buddyPages k ⟨A.root, true⟩ va)) = reg.addr q := by
  obtain ⟨mp, hmp⟩ := Option.ne_none_iff_exists'.mp ((H.valid_iff hi hb).mp hu.1)
  have hok := ((H.represents hi).of_some hmp).2
  have hentry := H.entryOf hi hb va
  rw [hmp] at hentry
  simp only [Option.map_some, Option.getD_some] at hentry
  rcases hheld _ _ hmp with ⟨q, hq⟩ | ⟨hsup, -⟩
  · obtain ⟨f, hf⟩ := H.mapped hi hq
    rw [hmp] at hf
    cases hf
    refine ⟨q, hq, ?_⟩
    rw [hentry, hok.toPa]
    exact toVir_page hw (H.page_lt hi hq)
  · have := hu.2.1
    rw [hentry, hok.isSuperPlv, hsup] at this
    cases this

theorem copyPage_index {va₁ j : Nat} (h : pageRoundDown va₁ = copyPage va j) :
    copyPage va j / 4096 = va₁ / 4096 := by
  rw [← h, pageRoundDown_eq]
  omega

/-- A copy whose pages are guarded. -/
theorem World.copyout_guarded (H : World reg arch k B Base W) (hw : reg.InWindow arch)
    (hi : W i = some A) (hb : A.base = 0) (hheld : A.Held reg arch) (hva : va < 2 ^ 64)
    {p : List UInt8}
    (turns : Nat) (hturns : p.length ≤ turns)
    (hg : CopyoutGuarded arch buddyPages k ⟨A.root, true⟩ va p.length) :
    ∃ r k', copyoutLoop arch buddyPages ⟨A.root, true⟩ turns k va p = .ok (r, k') ∧
      (∀ x, k'.mem x ≠ k.mem x → UserByte arch buddyPages k ⟨A.root, true⟩ x) ∧
      ((∀ j, Reached va p.length j →
        UserWritable arch buddyPages k ⟨A.root, true⟩ (copyPage va j)) → r = 0) ∧
      ((∃ j, Reached va p.length j ∧
        ¬UserWritable arch buddyPages k ⟨A.root, true⟩ (copyPage va j)) → r = -1) := by
  induction turns generalizing k va p with
  | zero =>
    refine ⟨0, k, rfl, fun x hx => absurd rfl hx, fun _ => rfl, ?_⟩
    rintro ⟨j, hj, -⟩
    have := hj.1
    omega
  | succ turns ih =>
    rcases Nat.eq_zero_or_pos p.length with h0 | hpos
    · refine ⟨0, k, by rw [copyoutLoop, if_pos h0],
        fun x hx => absurd rfl hx, fun _ => rfl, ?_⟩
      rintro ⟨j, hj, -⟩
      have := hj.1
      omega
    have hfirst : Reached va p.length 0 := ⟨hpos, by omega⟩
    have hindex := copyPage_index (copyPage_zero hva).symm
    rcases hg 0 hfirst (fun i hi => by omega) with hwr | ⟨rfl, ⟨pte, hwalk⟩, hinv⟩
    · -- the first page is stored to, and the rest is a copy of its own
      obtain ⟨q, hq, hqa⟩ := H.user_page hw hi hb hheld hwr
      rw [hindex] at hq
      have H₁ := H.storePage hi hq (m := k.mem.store (reg.addr q + va % 4096)
        (p.take (min (4096 - va % 4096) p.length)))
        fun x hx => Mem.store_outside (by rw [List.length_take]; omega)
      have hlen : (p.drop (min (4096 - va % 4096) p.length)).length =
          p.length - min (4096 - va % 4096) p.length := List.length_drop ..
      have hentry := H.entryOf_congr H₁ hi hb
      have hsame := H.userWritable_congr H₁ hi hb
      have hreach : ∀ {j}, Reached (wordAdd (pageRoundDown va) pageSize)
          (p.drop (min (4096 - va % 4096) p.length)).length j ↔ Reached va p.length (j + 1) := by
        intro j
        rw [hlen]
        exact reached_next
      obtain ⟨r, k', hrun, hmem, hzero, hneg⟩ := ih H₁ (wordAdd_lt _ _)
        (p := p.drop (min (4096 - va % 4096) p.length)) (by rw [hlen]; omega) (by
          intro j hj hall
          rw [copyPage_next, hentry, hsame]
          simp only [copyPage_next, hsame] at hall
          refine (hg (j + 1) (hreach.mp hj) fun l hl => ?_).imp id ?_
          · cases l with
            | zero => exact hwr
            | succ l => exact hall l (by omega)
          · rintro ⟨hr, ⟨pte, hrun⟩, hinv⟩
            refine ⟨hr, ?_, hinv⟩
            rcases walk_find (V := buddyPages) (H.tables hi) (copyPage va (j + 1)) with
              ⟨l, he, -⟩ | ⟨pte', -, hp⟩
            · rw [he] at hrun
              cases hrun
            · exact ⟨pte', walk_find_ok (H₁.tables hi) hp⟩)
      simp only [hreach, copyPage_next, hsame] at hzero hneg
      refine ⟨r, k', by rw [H.copyout_mapped hw hi hq hpos, hrun], fun x hx => ?_,
        fun hall => hzero fun j hj => hall (j + 1) hj, ?_⟩
      · by_cases hx' : k'.mem x = k.mem.store (reg.addr q + va % 4096)
            (p.take (min (4096 - va % 4096) p.length)) x
        · refine ⟨_, hwr, ?_⟩
          rw [hqa]
          by_contra hc
          refine hx (hx'.trans (Mem.store_outside ?_))
          rw [List.length_take]
          omega
        · have := hmem x hx'
          unfold UserByte at this ⊢
          rwa [hsame, hentry] at this
      · rintro ⟨j, hj, hbad⟩
        cases j with
        | zero => exact absurd hwr hbad
        | succ j => exact hneg ⟨j, hj, hbad⟩
    · have hM : A.map (va / 4096 % Arch.vaPages .riscv) = none := by
        by_contra hM
        rw [← hindex] at hM
        rw [(H.valid_iff hi hb).mpr hM] at hinv
        cases hinv
      rcases H.copyout_unmapped hi hb hM hpos turns with ⟨e, he, -⟩ | hrun
      · rw [copyPage_zero hva, he] at hwalk
        cases hwalk
      · refine ⟨-1, k, hrun rfl, fun x hx => absurd rfl hx, fun hall => ?_, fun _ => rfl⟩
        have := (hall 0 hfirst).1
        rw [hinv] at this
        cases this

/-- The first page of a copy that is not guarded. -/
theorem World.copyout_unguarded (H : World reg arch k B Base W) (hw : reg.InWindow arch)
    (hi : W i = some A) (hb : A.base = 0) (hheld : A.Held reg arch) (hva : va < 2 ^ 64)
    {len j : Nat}
    (hj : Reached va len j)
    (hall : ∀ l < j, UserWritable arch buddyPages k ⟨A.root, true⟩ (copyPage va l))
    (hbad : ¬UserWritable arch buddyPages k ⟨A.root, true⟩ (copyPage va j))
    (hs : CopyoutSound arch buddyPages k ⟨A.root, true⟩ va len) :
    arch = .riscv ∧
      (∃ pte, walk arch buddyPages k ⟨A.root, true⟩ (copyPage va j) false = .ok (pte, k)) ∧
      arch.isValid (Mm.entryOf arch buddyPages k ⟨A.root, true⟩ (copyPage va j)) = false := by
  have hpages : ∀ l < j, A.pages (copyPage va l / 4096 % arch.vaPages) ≠ none := fun l hl => by
    obtain ⟨q, hq, -⟩ := H.user_page hw hi hb hheld (hall l hl)
    rw [hq]
    exact Option.some_ne_none q
  have hriscv : arch = .riscv := by
    cases arch with
    | riscv => rfl
    | loongarch =>
      obtain ⟨r, k', hrun, -, -, hneg⟩ := hs (List.replicate len 0) (List.length_replicate ..)
      have h0 := copyoutLoop_loongarch _ _ _ hrun
      have h1 := hneg ⟨j, hj, hbad⟩
      omega
  have hreach : ∀ c : UInt8, ∃ k₁ turns₁ va₁ n, World reg arch k₁ B Base W ∧
      copyout arch buddyPages k ⟨A.root, true⟩ va (List.replicate len c) =
        copyoutLoop arch buddyPages ⟨A.root, true⟩ (turns₁ + 1) k₁ va₁
          (List.replicate (len - n) c) ∧ n < len ∧ pageRoundDown va₁ = copyPage va j ∧
      va₁ % 4096 = if j = 0 then va % 4096 else 0 := by
    intro c
    have := H.copyout_reach hw hi hva (p := List.replicate len c)
      (show _ ≤ len by rw [List.length_replicate]) (by rwa [List.length_replicate]) hpages
    simpa only [copyout, List.length_replicate, List.drop_replicate] using this
  refine ⟨hriscv, ?_, ?_⟩
  · rcases walk_find (V := buddyPages) (H.tables hi) (copyPage va j) with
      ⟨l, he, hnone⟩ | ⟨pte, he, -⟩
    · exfalso
      obtain ⟨r, k', hrun, -⟩ := hs (List.replicate len 0) (List.length_replicate ..)
      obtain ⟨k₁, turns₁, va₁, n, H₁, hrun₁, hn, hpage, -⟩ := hreach 0
      have hindex := copyPage_index hpage
      have hM : A.map (va₁ / 4096 % arch.vaPages) = none := by
        by_contra hM
        obtain ⟨mp, hmp⟩ := Option.ne_none_iff_exists'.mp hM
        obtain ⟨pte, hp, -⟩ := (H.represents hi).leafPte hmp
        rw [Nat.mod_mod, ← hindex, hnone] at hp
        cases hp
      rcases H₁.copyout_unmapped hi hb hM (p := List.replicate (len - n) 0)
        (by rw [List.length_replicate]; omega) turns₁ with ⟨e, -, hrun₂⟩ | hrun₂
      · rw [hrun₁, hrun₂] at hrun
        cases hrun
      · rcases walk_find (V := buddyPages) (H₁.tables hi) (pageRoundDown va₁) with
          ⟨l', he', -⟩ | ⟨pte, -, hp⟩
        · rw [copyoutLoop, if_neg (by rw [List.length_replicate]; omega)] at hrun₂
          simp only [he', error_bind] at hrun₂
          cases hrun₂ hriscv
        · rw [hpage, hnone] at hp
          cases hp
    · exact ⟨pte, he⟩
  · by_contra hvalid
    rw [Bool.not_eq_false] at hvalid
    subst hriscv
    obtain ⟨mp, hmp⟩ := Option.ne_none_iff_exists'.mp ((H.valid_iff hi hb).mp hvalid)
    have hok := ((H.represents hi).of_some hmp).2
    have hal := hok.aligned
    have hlt : mp.page < 2 ^ 64 := hok.lt
    have hmem := reg.mem_aligned
    have hpage : mp.page ≠ 0 := by
      rcases hheld _ _ hmp with ⟨q, hq⟩ | ⟨-, h0, -⟩
      · obtain ⟨f, hf⟩ := H.mapped hi hq
        rw [hmp] at hf
        cases hf
        have := hw.pos
        simp only [Arch.toPhy, Region.addr]
        omega
      · exact h0
    have hoff : (if j = 0 then va % 4096 else 0) < 4096 := by split <;> omega
    -- a byte of the page that the copy sets, whatever the value
    have hset : ∀ c : UInt8, ∀ r k', copyout .riscv buddyPages k ⟨A.root, true⟩ va
        (List.replicate len c) = .ok (r, k') →
        k'.mem (mp.page + if j = 0 then va % 4096 else 0) = c := by
      intro c r k' hrun
      obtain ⟨k₁, turns₁, va₁, n, H₁, hrun₁, hn, hpage₁, hoff₁⟩ := hreach c
      rw [copyPage_index hpage₁] at hmp
      have hlen : 0 < (List.replicate (len - n) c).length := by
        rw [List.length_replicate]
        omega
      have hadd : wordAdd mp.page (va₁ % 4096) = mp.page + va₁ % 4096 := by
        unfold wordAdd wordSize
        omega
      rw [hrun₁, H₁.copyout_entry hi hmp hpage hlen, List.take_replicate,
        List.drop_replicate] at hrun
      simp only [Arch.toVir, hadd, List.length_replicate] at hrun
      rw [← hoff₁]
      rcases copyoutLoop_replicate _ _ _ hrun (mp.page + va₁ % 4096) with hx | hx
      · rw [hx]
        simp only [Mem.store, List.length_replicate]
        rw [if_pos (by omega), Nat.sub_self]
        exact List.getD_replicate _ (by omega)
      · exact hx
    obtain ⟨r, k', hrun, hchange, -⟩ := hs
      (List.replicate len (k.mem (mp.page + if j = 0 then va % 4096 else 0) + 1))
      (List.length_replicate ..)
    have hx := hset _ r k' hrun
    obtain ⟨va', hwr, hl, hu⟩ := hchange (mp.page + if j = 0 then va % 4096 else 0)
      (by rw [hx]; simp)
    obtain ⟨q', hq', hqa'⟩ := H.user_page hw hi hb hheld hwr
    rw [hqa'] at hl hu
    have hsame : mp.page = reg.addr q' := by
      simp only [Region.addr] at hl hu ⊢
      omega
    rcases hheld _ _ hmp with ⟨q, hq⟩ | ⟨-, -, hapart⟩
    · obtain ⟨f, hf⟩ := H.mapped hi hq
      rw [hmp] at hf
      cases hf
      have hqq := Region.addr_inj (s := q) (t := q') hsame
      subst hqq
      have hvv := (H.owners.inj ⟨A, hi, hq⟩ ⟨A, hi, hq'⟩).2
      refine hbad ?_
      unfold UserWritable at hwr ⊢
      rw [H.entryOf hi hb] at hwr ⊢
      rwa [hvv]
    · exact hapart _ _ hq' hsame

/-- On the page table of a process, `copyout` keeps to the pages that the user may write exactly
where the copy is guarded. -/
theorem copyout_sound_iff (reg : Region) (arch : Arch) (hw : reg.InWindow arch)
    (k : Kernel BuddyAllocator) (B : Blocks) (Base : Nat → Nat → Prop) (W : Spaces ι)
    (H : World reg arch k B Base W) (i : ι) (A : AddrSpace) (hi : W i = some A) (hb : A.base = 0)
    (hheld : A.Held reg arch) (va len : Nat) (hva : va < 2 ^ 64) :
    CopyoutSound arch buddyPages k ⟨A.root, true⟩ va len ↔
      CopyoutGuarded arch buddyPages k ⟨A.root, true⟩ va len := by
  constructor
  · intro hs j hj hall
    by_cases hbad : UserWritable arch buddyPages k ⟨A.root, true⟩ (copyPage va j)
    · exact .inl hbad
    · exact .inr (H.copyout_unguarded hw hi hb hheld hva hj hall hbad hs)
  · rintro hg p rfl
    exact H.copyout_guarded hw hi hb hheld hva p.length (Nat.le_refl _) hg

end

/-- A page table made by `_proc_create_vm` on the sample region, with one page of the user. -/
theorem sample_process : ∃ (k₀ k₁ k : Kernel BuddyAllocator) (B : Blocks)
    (Base : Nat → Nat → Prop) (A : AddrSpace) (trapframe : Nat),
    Pm.procCreateVm .riscv buddyPages k₀ trapframe = .ok (⟨A.root, true⟩, k₁) ∧
      vmAlloc .riscv buddyPages k₁ ⟨A.root, true⟩ 0x10000 0x11000 false false true =
        .ok (0x11000, k) ∧
      World sampleRegion .riscv k B Base (fun _ : Unit => some A) ∧ A.base = 0 ∧
      A.Held sampleRegion .riscv ∧
      (∃ mp, A.map Pm.trapPage = some mp ∧ Arch.isSuperPlv .riscv mp.flags = true) ∧
      ∃ mp, A.map 16 = some mp ∧ Arch.isSuperPlv .riscv mp.flags = false ∧
        Arch.isWritable .riscv mp.flags = true := by
  obtain ⟨k, B, -, hroom, H⟩ := sample_world
  rcases H.allocPage with ⟨-, h0⟩ | ⟨s, k₀, B₀, -, ha, H₀, -⟩
  · omega
  have hroom₀ := Region.room_of_alloc ha
  rcases Pm.procCreateVm_spec H₀ sampleRegion_inWindow (i := ()) rfl (.inl ⟨rfl, rfl⟩) with
    ⟨e, -, hlt⟩ | ⟨k₁, B₁, A₁, hrun₁, H₁, htrap, hroom₁, -⟩
  · have : Arch.top .riscv = 2 := rfl
    omega
  have htop : Arch.top .riscv = 2 := rfl
  have hclear : A₁.map 16 = none := by
    rw [htrap.map, if_neg (by decide)]
  obtain ⟨k₂, B₂, A₂, hrun₂, H₂, E⟩ :=
    H₁.allocOne sampleRegion_inWindow (i := ()) rfl
    false false true 0x11000 (v := 16)
    (by rw [htrap.base]; exact ⟨by decide, by decide, by decide⟩) hclear (by omega)
  rw [Spaces.update_unit] at H₂
  have hbase : A₂.base = 0 := by rw [E.base, htrap.base]
  have htf : A₂.map Pm.trapPage = some ⟨Arch.toPhy .riscv (sampleRegion.addr s),
      vmAllocFlags .riscv false false false⟩ := by
    rw [(E.outside _ (.inr (by decide))).1, htrap.map, if_pos rfl]
  obtain ⟨q, hq, hmq, -⟩ := E.inside 16 (by omega) (by omega)
  have htflags : Arch.isSuperPlv .riscv (vmAllocFlags .riscv false false false) = true := by decide
  have hflags : Arch.isSuperPlv .riscv (vmAllocFlags .riscv false false true) = false ∧
      Arch.isWritable .riscv (vmAllocFlags .riscv false false true) = true := by decide
  refine ⟨k₀, k₁, k₂, B₂, _, A₂, sampleRegion.addr s, ?_, ?_, H₂, hbase,
    fun v mp hmp => .inl ?_,
    ⟨_, htf, htflags⟩, _, hmq, hflags.1, hflags.2⟩
  · rw [hrun₁, E.root]
  · rw [E.root, ← hrun₂]
    rfl
  · by_cases h16 : v = 16
    · exact ⟨q, by rw [h16, hq]⟩
    · have hv := E.outside v (by omega)
      rw [hv.1, htrap.map] at hmp
      rw [hv.2, htrap.pages]
      split at hmp
      · rw [if_pos ‹_›]
        exact ⟨s, rfl⟩
      · cases hmp

theorem copyout_sound_sample : ∃ (k : Kernel BuddyAllocator) (pt : PageTable),
    CopyoutGuarded .riscv buddyPages k pt 0x10000 4096 ∧
      CopyoutSound .riscv buddyPages k pt 0x10000 4096 := by
  obtain ⟨-, -, k, B, Base, A, -, -, -, H, hb, hheld, -, mp, hmp, hu, hwr⟩ := sample_process
  have hok := ((H.represents (i := ()) rfl).of_some hmp).2
  have hentry := H.entryOf (i := ()) rfl hb 0x10000
  rw [show A.map (0x10000 / 4096 % Arch.vaPages .riscv) = some mp from hmp] at hentry
  simp only [Option.map_some, Option.getD_some] at hentry
  have hg : CopyoutGuarded .riscv buddyPages k ⟨A.root, true⟩ 0x10000 4096 := by
    intro j hj _
    have h0 : j = 0 := by
      unfold Reached at hj
      omega
    subst h0
    left
    rw [copyPage_zero (by decide), show pageRoundDown 0x10000 = 0x10000 from rfl]
    unfold UserWritable
    rw [hentry, hok.isValid, hok.isSuperPlv, hok.isWritable]
    exact ⟨rfl, hu, hwr⟩
  exact ⟨k, _, hg, (copyout_sound_iff sampleRegion .riscv sampleRegion_inWindow k B Base _ H ()
    A rfl hb hheld 0x10000 4096 (by decide)).mpr hg⟩

/-- On a page table that `_proc_create_vm` has made, a copy to the trap frame is not refused. -/
theorem copyout_trap_frame : ∃ (k₀ k₁ k : Kernel BuddyAllocator) (pt : PageTable)
    (trapframe : Nat),
    Pm.procCreateVm .riscv buddyPages k₀ trapframe = .ok (pt, k₁) ∧
      vmAlloc .riscv buddyPages k₁ pt 0x10000 0x11000 false false true = .ok (0x11000, k) ∧
      ¬CopyoutSound .riscv buddyPages k pt vmTrapFrame 1 := by
  obtain ⟨k₀, k₁, k, B, Base, A, tf, hrun₀, hrun₁, H, hb, hheld, ⟨mp, hmp, hsup⟩,
      -⟩ :=
    sample_process
  refine ⟨k₀, k₁, k, _, tf, hrun₀, hrun₁, fun hs => ?_⟩
  have hok := ((H.represents (i := ()) rfl).of_some hmp).2
  have hentry := H.entryOf (i := ()) rfl hb vmTrapFrame
  rw [show A.map (vmTrapFrame / 4096 % Arch.vaPages .riscv) = some mp from hmp] at hentry
  simp only [Option.map_some, Option.getD_some] at hentry
  have hpage : copyPage vmTrapFrame 0 = vmTrapFrame := by decide
  have hbad : ¬UserWritable .riscv buddyPages k ⟨A.root, true⟩ (copyPage vmTrapFrame 0) := by
    rintro ⟨-, hu, -⟩
    rw [hpage, hentry, hok.isSuperPlv, hsup] at hu
    cases hu
  obtain ⟨-, -, hinv⟩ := H.copyout_unguarded sampleRegion_inWindow (i := ()) rfl hb hheld
    (by decide) ⟨by decide, by decide⟩ (fun _ hl => absurd hl (Nat.not_lt_zero _)) hbad hs
  rw [hpage, hentry, hok.isValid] at hinv
  cases hinv

end OsKernel.Mm

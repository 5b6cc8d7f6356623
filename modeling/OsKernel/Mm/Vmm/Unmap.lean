import OsKernel.Mm.Vmm.RoundTrip

/-! `vm_unmap` with release in a space that holds blocks of many pages, and the walk that does not
look at the privilege level. -/

namespace OsKernel.Mm

open Lib Hsai Lib.BuddySystem BuddyAllocator

/-- `PageTable::kwalk_addr`. -/
def kwalkAddr {σ : Type} (arch : Arch) (V : VirtualPageAllocator σ) (k : Kernel σ)
    (pt : PageTable) (va : Nat) : Except Fault Nat := do
  let r ← walk arch V k pt va false
  let data := pteData r.2.mem r.1
  if r.1 = 0 then .ok 0
  else if !arch.isValid data then .ok 0
  else .ok (arch.toPa data ||| (va &&& (pageSize - 1)))

section

variable {reg : Region} {arch : Arch} {hw : reg.InWindow arch} {k : Kernel BuddyAllocator}
  {B : Blocks}
  {Base : Nat → Nat → Prop} {ι : Type} {W : Spaces ι} {i : ι} {A : AddrSpace} {va : Nat}

/-- What `vm_unmap` needs of a space and keeps.  A block of the space stays a block in use until the
first of its pages is unmapped; after that its other pages are no starts of blocks. -/
structure HeldPages (hw : reg.InWindow arch) (k : Kernel BuddyAllocator) (B : Blocks)
    (A : AddrSpace) : Prop where
  space : Space (buddySource reg arch hw) k B A.root A.tables
  map : Represents arch k.mem A.tables 0 A.map
  tableBlock : ∀ a, IsTable A.tables a → ∃ s, a = reg.addr s ∧ B s = some ⟨0, true⟩
  held : ∀ v p, A.pages v = some p → p < reg.pages ∧ ∃ f,
    A.map v = some ⟨arch.toPhy (reg.addr p), f⟩
  inj : ∀ v w p, A.pages v = some p → A.pages w = some p → v = w
  start : ∀ v p, A.pages v = some p → B p = none ∨
    ((∃ j, B p = some ⟨j, true⟩) ∧ ¬IsTable A.tables (reg.addr p))
  owned : A.Owned reg arch

theorem World.heldPages (H : World reg arch k B Base W) (hi : W i = some A) (hb : A.base = 0)
    (ho : A.Owned reg arch) : HeldPages hw k B A where
  space := H.space hi
  map := by
    have h := H.represents hi
    rwa [hb] at h
  tableBlock := fun _ ha => H.tableBlock hi ha
  held := fun _ _ hp => ⟨H.page_lt hi hp, H.mapped hi hp⟩
  inj := fun _ _ _ hv hw => (H.owners.inj ⟨A, hi, hv⟩ ⟨A, hi, hw⟩).2
  start := fun v p hp => (H.owners.page_start H.alloc.inv.rep.part ⟨A, hi, hp⟩).imp id fun h =>
    ⟨h, fun ht => H.owners.pageTable ⟨A, hi, hp⟩ ⟨A, hi, ht⟩⟩
  owned := ho

namespace HeldPages

/-- The entry of a page. -/
theorem entryOf (h : HeldPages hw k B A) (w : Nat) (hlt : w < arch.vaPages) :
    Mm.entryOf arch buddyPages k ⟨A.root, true⟩ (4096 * w) =
      ((A.map w).map (·.data arch)).getD 0 := by
  have hspan : InSpan arch 0 w := ⟨Nat.zero_le w, by omega⟩
  have hentry : Mm.entryOf arch buddyPages k ⟨A.root, true⟩ (4096 * w) =
      leafData k.mem A.tables (4096 * w / 4096 % arch.vaPages) :=
      h.space.tables.entryOf_eq (4096 * w)
  rw [Nat.mul_div_cancel_left w (by decide)] at hentry
  cases hM : A.map w with
  | none => exact hentry.trans (h.map.of_none hM hspan)
  | some mp => exact hentry.trans (h.map.of_some hM).1

theorem entryOf_zero (h : HeldPages hw k B A) (w : Nat) (hlt : w < arch.vaPages) :
    Mm.entryOf arch buddyPages k ⟨A.root, true⟩ (4096 * w) = 0 ↔ A.map w = none := by
  rw [h.entryOf w hlt]
  cases hM : A.map w with
  | none => exact iff_of_true rfl rfl
  | some mp =>
    refine iff_of_false (fun h0 => ?_) (Option.some_ne_none mp)
    have hval := (h.map.of_some hM).2.isValid
    rw [show mp.data arch = 0 from h0, Arch.isValid_zero] at hval
    cases hval

theorem validLeaf_iff (h : HeldPages hw k B A) (w : Nat) (hlt : w < arch.vaPages) :
    ValidLeaf arch buddyPages k ⟨A.root, true⟩ (4096 * w) ↔ A.map w ≠ none := by
  unfold ValidLeaf
  rw [h.entryOf w hlt]
  cases hM : A.map w with
  | none => simp [Arch.isValid_zero]
  | some mp => simp [(h.map.of_some hM).2.isValid]

/-- What `kwalk_addr` gives for the start of a page that is mapped. -/
theorem kwalkAddr (h : HeldPages hw k B A) (hva : va % 4096 = 0)
    (hv : ValidLeaf arch buddyPages k ⟨A.root, true⟩ va) :
    Mm.kwalkAddr arch buddyPages k ⟨A.root, true⟩ va =
      .ok (arch.toPa (Mm.entryOf arch buddyPages k ⟨A.root, true⟩ va)) := by
  have hentry : Mm.entryOf arch buddyPages k ⟨A.root, true⟩ va =
      leafData k.mem A.tables (va / 4096 % arch.vaPages) := h.space.tables.entryOf_eq va
  rcases walk_find (V := buddyPages) (k := k) h.space.tables va with
      ⟨l, hrun, hnone⟩ | ⟨pte, hrun, hpte⟩
  · obtain ⟨pte, hp⟩ := hv.exists
    rw [hrun] at hp
    cases hp
  · rw [leafData_of_pte hpte] at hentry
    unfold ValidLeaf at hv
    rw [hentry] at hv ⊢
    have hmod : va &&& (pageSize - 1) = 0 := by
      rw [show pageSize - 1 = 2 ^ 12 - 1 from rfl, Nat.and_two_pow_sub_one_eq_mod]
      exact hva
    rw [Mm.kwalkAddr, hrun, ok_bind]
    simp only [if_neg (h.space.tables.leafPte_pos hpte), hv, hmod, Nat.or_zero, Bool.not_true,
      Bool.false_eq_true,
      if_false]

/-- A page that goes back, with its block if it is the first one of it. -/
theorem release (h : HeldPages hw k B A) {v n : Nat} (hv : PageRange arch 0 v n)
    (hlt : v + n < 2 ^ 52) (hheld : ∀ w, v ≤ w → w < v + n → A.pages w ≠ none) :
    ∃ k' B', unmapLoop arch buddyPages ⟨A.root, true⟩ true n k (4096 * v) = .ok k' ∧
      HeldPages hw k' B' (A.unmap v n) := by
  have hpage : ∀ w, v ≤ w → w < v + n → A.pages w = some ((A.pages w).getD 0) := by
    intro w hl hu
    obtain ⟨p, hp⟩ := Option.ne_none_iff_exists'.mp (hheld w hl hu)
    rw [hp]
    rfl
  obtain ⟨k', B', hrun, Sp', hM', hrel, -⟩ := unmapFree_spec hw
    (fun w => (A.pages w).getD 0) (fun w => ((A.map w).map Mapping.flags).getD 0) n v h.space h.map
    hv hlt
    (fun w hl hu => by
      obtain ⟨hp, f, hf⟩ := h.held w _ (hpage w hl hu)
      rw [hf]
      exact ⟨rfl, hp⟩)
    (fun w w' hl hu hl' hu' he => h.inj w w' _ (hpage w hl hu) (he ▸ hpage w' hl' hu'))
    (fun w hl hu => h.start w _ (hpage w hl hu)) h.tableBlock
  -- what is not unmapped
  have hrest : ∀ w p, (A.unmap v n).pages w = some p → A.pages w = some p ∧
      ¬(v ≤ w ∧ w < v + n) := by
    intro w p hp
    unfold AddrSpace.unmap at hp
    simp only at hp
    split at hp
    · cases hp
    · exact ⟨hp, by assumption⟩
  have hmap : ∀ w, ¬(v ≤ w ∧ w < v + n) → (A.unmap v n).map w = A.map w :=
    fun w hw' => if_neg hw'
  refine ⟨k', B', hrun, Sp', hM', fun a ha => ?_, fun w p hp => ?_, fun w w' p hp hp' => ?_,
    fun w p hp => ?_,
    fun w mp hmp => ?_⟩
  · obtain ⟨s, rfl, hs⟩ := h.tableBlock a ha
    refine ⟨s, rfl, (hrel.used s 0).mpr ⟨hs, ?_⟩⟩
    rintro ⟨w, hl, hu, rfl⟩
    rcases h.start w _ (hpage w hl hu) with hn | ⟨-, hnt⟩
    · rw [hn] at hs
      cases hs
    · exact hnt ha
  · obtain ⟨hp, hout⟩ := hrest w p hp
    rw [hmap w hout]
    exact h.held w p hp
  · exact h.inj w w' p (hrest w p hp).1 (hrest w' p hp').1
  · obtain ⟨hp, hout⟩ := hrest w p hp
    rcases h.start w p hp with hn | ⟨⟨j, hj⟩, hnt⟩
    · exact .inl (hrel.starts p hn)
    · refine .inr ⟨⟨j, (hrel.used p j).mpr ⟨hj, ?_⟩⟩, hnt⟩
      rintro ⟨u, hl, hu, rfl⟩
      rw [h.inj w u _ hp (hpage u hl hu)] at hout
      exact hout ⟨hl, hu⟩
  · have hout : ¬(v ≤ w ∧ w < v + n) := by
      intro hin
      rw [show (A.unmap v n).map w = none from if_pos hin] at hmp
      cases hmp
    rw [hmap w hout] at hmp
    rw [show (A.unmap v n).pages w = A.pages w from if_neg hout]
    exact h.owned w mp hmp

/-- A page of the kernel image that is no longer mapped. -/
theorem clear (h : HeldPages hw k B A) {u pte : Nat} {mp : Mapping} (hmp : A.map u = some mp)
    (hp : A.pages u = none) (hpte : leafPte A.tables (u % arch.vaPages) = some pte) :
    HeldPages hw (pteClearData k pte) B (A.unmap u 1) := by
  obtain ⟨Sp, -, hleaf⟩ := h.space.writeLeaf hpte (d := 0) (by decide)
  have hM := h.map.clear (h.map.inSpan hmp) hleaf
  have hmap : ∀ w, (A.unmap u 1).map w = if w = u then none else A.map w :=
    fun w => (A.unmap_one u w).1
  have hpages : (A.unmap u 1).pages = A.pages := by
    funext w
    rw [(A.unmap_one u w).2]
    split
    · next hwu => rw [hwu, hp]
    · rfl
  have hmap' : (A.unmap u 1).map = Function.update A.map u none := by
    funext w
    rw [hmap w, Function.update_apply]
  refine ⟨Sp, ?_, h.tableBlock, fun w p hw' => ?_, fun w w' p hw' hw'' => ?_, fun w p hw' => ?_,
    fun w mp' hw' => ?_⟩
  · rw [hmap']
    exact hM
  · rw [hpages] at hw'
    rw [hmap w, if_neg ?_]
    · exact h.held w p hw'
    · rintro rfl
      rw [hp] at hw'
      cases hw'
  · rw [hpages] at hw' hw''
    exact h.inj w w' p hw' hw''
  · rw [hpages] at hw'
    exact h.start w p hw'
  · rw [hmap w] at hw'
    split at hw'
    · cases hw'
    · rw [hpages]
      exact h.owned w mp' hw'

/-- One turn at any address: a fault, or the page was mapped and is not any more. -/
theorem turn (h : HeldPages hw k B A) (hva : va % 4096 = 0) :
    (∃ e, unmapLoop arch buddyPages ⟨A.root, true⟩ true 1 k va = .error e) ∨
      ∃ k' B', unmapLoop arch buddyPages ⟨A.root, true⟩ true 1 k va = .ok k' ∧
        A.map (walkPage arch va) ≠ none ∧
          HeldPages hw k' B' (A.unmap (walkPage arch va) 1) := by
  rw [unmapLoop_page hva]
  generalize hu : walkPage arch va = u
  have hrange : PageRange arch 0 u 1 := hu ▸ walkPage_range arch va
  have hlt : u + 1 < 2 ^ 52 := hu ▸ walkPage_lt arch va
  have hmod : u % arch.vaPages = u := by
    rw [← hu]
    exact Nat.mod_mod _ _
  have hleaf : 4096 * u / 4096 % arch.vaPages = u := by
    rw [Nat.mul_div_cancel_left u (by decide), hmod]
  cases hM : A.map u with
  | none =>
    left
    rcases walk_find (V := buddyPages) (k := k) h.space.tables (4096 * u) with ⟨l, hrun,
      -⟩ | ⟨pte, hrun, hpte⟩
    · exact ⟨_, by rw [unmapLoop, hrun, error_bind]⟩
    · rw [hleaf] at hpte
      have hdata : pteData k.mem pte = 0 := by
        have h0 := h.map.of_none hM ⟨Nat.zero_le u, by have := hrange.hi; omega⟩
        rwa [hmod, leafData_of_pte hpte] at h0
      refine ⟨.panic "vmunmap: not mapped", ?_⟩
      rw [unmapLoop, hrun, ok_bind]
      simp only [if_neg (h.space.tables.leafPte_pos hpte), hdata, Arch.isValid_zero, Bool.not_false,
        if_true]
  | some mp =>
    cases hp : A.pages u with
    | some p =>
      obtain ⟨k', B', hrun, h'⟩ := h.release hrange hlt fun w hl hu' => by
        rw [show w = u by omega, hp]
        exact Option.some_ne_none p
      exact .inr ⟨k', B', hrun, Option.some_ne_none mp, h'⟩
    | none =>
      obtain ⟨pte, hpte, hdata⟩ := h.map.leafPte hM
      have hok := (h.map.of_some hM).2
      have hwalk := walk_find_ok (V := buddyPages) h.space.tables
        (show leafPte A.tables (4096 * u / 4096 % arch.vaPages) =
          some pte by rw [hleaf, ← hmod]; exact hpte)
      have hf := (h.owned u mp hM).resolve_left (not_not.mpr hp)
      have hinv : reg.Alloc k.pages k.mem B := h.space.inv
      have hturn : unmapLoop arch buddyPages ⟨A.root, true⟩ true 1 k (4096 * u) =
          (pmmFreePages buddyPages k (arch.toVir mp.page) >>= fun f =>
            .ok (pteClearData f.2 pte)) := by
        rw [unmapLoop, hwalk, ok_bind]
        simp only [if_neg (h.space.tables.leafPte_pos hpte), hdata, hok.isValid, hok.isDirPage,
          hok.toPa, Bool.not_true, Bool.false_eq_true, if_false, if_true]
        rfl
      rw [hturn]
      rcases pmmFree_foreign hinv hok.aligned hf with ⟨e, hfree⟩ | ⟨r, hfree⟩
      · exact .inl ⟨e, by rw [hfree, error_bind]⟩
      · exact .inr ⟨pteClearData k pte,
          B, by rw [hfree, ok_bind], Option.some_ne_none mp, h.clear hM hp hpte⟩

/-- The loop over any range: a fault, or exactly its pages, which were all mapped, are not
any more. -/
theorem loop (n : Nat) (h : HeldPages hw k B A) (hva : va % 4096 = 0)
    (hlt : va + 4096 * n ≤ 2 ^ 64) :
      (∃ e, unmapLoop arch buddyPages ⟨A.root, true⟩ true n k va = .error e) ∨
      ∃ k' B' A', unmapLoop arch buddyPages ⟨A.root, true⟩ true n k va = .ok k' ∧
        A'.root = A.root ∧ HeldPages hw k' B' A' ∧
        (∀ j < n, A.map (walkPage arch (va + 4096 * j)) ≠ none) ∧
        ∀ w, A'.map w = none ↔ A.map w = none ∨ ∃ j < n,
          w = walkPage arch (va + 4096 * j) := by
  induction n generalizing k B A va with
  | zero =>
    refine .inr ⟨k, B, A, rfl, rfl, h, fun j hj => absurd hj (Nat.not_lt_zero j), fun w => ?_⟩
    simp only [Nat.not_lt_zero, false_and, exists_false, or_false]
  | succ n ih =>
    rw [unmapLoop_succ]
    rcases h.turn hva with ⟨e, hrun⟩ | ⟨k₁, B₁, hrun, hmapped, h₁⟩
    · rw [hrun, error_bind]
      exact .inl ⟨e, rfl⟩
    · rw [hrun, ok_bind]
      cases n with
      | zero =>
        refine .inr ⟨k₁, B₁, A.unmap (walkPage arch va) 1, rfl, rfl, h₁, fun j hj => ?_,
          fun w => ?_⟩
        · rw [show va + 4096 * j = va by omega]
          exact hmapped
        · rw [(A.unmap_one _ w).1]
          split
          · next hwu =>
            exact iff_of_true rfl
              (.inr ⟨0, Nat.zero_lt_one, by rw [hwu, Nat.mul_zero, Nat.add_zero]⟩)
          · next hwu =>
            refine ⟨.inl, fun hor => hor.resolve_right ?_⟩
            rintro ⟨j, hj, rfl⟩
            exact hwu (by rw [show va + 4096 * j = va by omega])
      | succ m =>
        have hnext : wordAdd va pageSize = va + 4096 := by
          unfold wordAdd pageSize wordSize
          omega
        rw [hnext]
        have hal : (va + 4096) % 4096 = 0 := by omega
        have hle : va + 4096 + 4096 * (m + 1) ≤ 2 ^ 64 := by
          have hsum : va + 4096 * (m + 1 + 1) = va + 4096 + 4096 * (m + 1) := by ring
          exact hsum ▸ hlt
        have haddr : ∀ j, va + 4096 + 4096 * j = va + 4096 * (j + 1) := fun j => by omega
        rcases ih h₁ hal hle with
          ⟨e, hrest⟩ | ⟨k', B', A', hrest, hroot, h', hall, hiff⟩
        · exact .inl ⟨e, hrest⟩
        · refine .inr ⟨k', B', A', hrest, hroot, h', fun j hj => ?_, fun w => ?_⟩
          · cases j with
            | zero =>
              rw [Nat.mul_zero, Nat.add_zero]
              exact hmapped
            | succ j =>
              have hj' := hall j (by omega)
              rw [haddr, (A.unmap_one _ _).1] at hj'
              intro hnone
              apply hj'
              rw [hnone, ite_self]
          · rw [hiff w, (A.unmap_one _ w).1]
            simp only [haddr]
            constructor
            · rintro (hw' | ⟨j, hj, rfl⟩)
              · split at hw'
                · next hwu => exact .inr ⟨0, by omega, by rw [hwu, Nat.mul_zero, Nat.add_zero]⟩
                · exact .inl hw'
              · exact .inr ⟨j + 1, by omega, rfl⟩
            · rintro (hw' | ⟨j, hj, rfl⟩)
              · exact .inl (by rw [hw', ite_self])
              · cases j with
                | zero => exact .inl (if_pos (by rw [Nat.mul_zero, Nat.add_zero]))
                | succ j => exact .inr ⟨j, by omega, rfl⟩

end HeldPages

end

end OsKernel.Mm

import OsKernel.Mm.Vmm.Grow
import OsKernel.Syscall.Copyout

/-! Operations on one address space page by page, at any address.  A space with single pages
alone may unmap and release any range; what it maps besides its own pages are pages of the
kernel image. -/

namespace OsKernel.Mm

open Lib Hsai Lib.BuddySystem BuddyAllocator

/-- The physical page `pa` is below the region, and no list head of the allocator is in it. -/
def Region.Foreign (reg : Region) (arch : Arch) (pa : Nat) : Prop :=
  arch.toVir pa + 4096 ≤ reg.mem ∧
    (arch.toVir pa + 4096 ≤ reg.nodes ∨ reg.nodes + 1056 ≤ arch.toVir pa)

/-- Every page that is mapped is held by the space or is a page of the kernel image. -/
def AddrSpace.Owned (reg : Region) (arch : Arch) (A : AddrSpace) : Prop :=
  ∀ v mp, A.map v = some mp → A.pages v ≠ none ∨ reg.Foreign arch mp.page

/-- Every page that the space holds is a block of its own. -/
def AddrSpace.Single (A : AddrSpace) (B : Blocks) : Prop :=
  ∀ v s, A.pages v = some s → B s = some ⟨0, true⟩

/-- What an operation on one space keeps: it takes pages that were not in use and gives back pages
of that space alone. -/
structure SpaceStep (reg : Region) (arch : Arch) (B : Blocks) (A : AddrSpace) (B' : Blocks)
    (A' : AddrSpace) : Prop where
  root : A'.root = A.root
  base : A'.base = A.base
  owned : A.Owned reg arch → A'.Owned reg arch
  single : A.Single B → A'.Single B'
  fresh : ∀ v p, A'.pages v = some p → (∃ w, A.pages w = some p) ∨ ∀ o,
    B p ≠ some ⟨o, true⟩
  others : ∀ t o, B t = some ⟨o, true⟩ → (∀ v, A.pages v ≠ some t) →
    B' t = some ⟨o, true⟩

namespace SpaceStep

variable {reg : Region} {arch : Arch} {B B' B'' : Blocks} {A A' A'' : AddrSpace}

theorem refl (B : Blocks) (A : AddrSpace) : SpaceStep reg arch B A B A :=
  ⟨rfl, rfl, id, id, fun v _ h => .inl ⟨v, h⟩, fun _ _ h _ => h⟩

theorem trans (h : SpaceStep reg arch B A B' A') (h' : SpaceStep reg arch B' A' B'' A'') :
    SpaceStep reg arch B A B'' A'' := by
  refine ⟨h'.root.trans h.root, h'.base.trans h.base, fun ho => h'.owned (h.owned ho),
    fun hs => h'.single (h.single hs), fun v p hp => ?_, fun t o ht hn => ?_⟩
  · rcases h'.fresh v p hp with ⟨w, hw⟩ | hfree
    · exact h.fresh w p hw
    · by_cases hA : ∃ w, A.pages w = some p
      · exact .inl hA
      · refine .inr fun o ho => hfree o (h.others p o ho fun v hv => hA ⟨v, hv⟩)
  · refine h'.others t o (h.others t o ht hn) fun v hv => ?_
    rcases h.fresh v t hv with ⟨w, hw⟩ | hfree
    · exact hn w hw
    · exact hfree o ht

end SpaceStep

section

variable {reg : Region} {arch : Arch} {k k' : Kernel BuddyAllocator} {B B' : Blocks}
  {Base : Nat → Nat → Prop} {ι : Type} {W : Spaces ι} {i j : ι} {A A' : AddrSpace} {va : Nat}

/-! ### Pages of the kernel image -/

theorem toVir_mod {pa : Nat} (h : pa % 4096 = 0) : arch.toVir pa % 4096 = 0 := by
  cases arch with
  | riscv => exact h
  | loongarch =>
    rw [Arch.toVir_loongarch]
    omega

/-- `k_pmm.free_pages` of a page below the region: an assertion fails, or nothing happens. -/
theorem pmmFree_foreign (h : reg.Alloc k.pages k.mem B) {pa : Nat} (hpa : pa % 4096 = 0)
    (hf : reg.Foreign arch pa) :
    (∃ e, pmmFreePages buddyPages k (arch.toVir pa) = .error e) ∨
      ∃ r, pmmFreePages buddyPages k (arch.toVir pa) = .ok (r, k) := by
  have hal : arch.toVir pa % 4096 = 0 := toVir_mod hpa
  have hmem := h.memAddr
  have hend := reg.end_le
  have hlow := hf.1
  obtain ⟨-, -, -, hsum⟩ := reg.infos_le
  unfold pmmFreePages
  by_cases hnull : arch.toVir pa = 0
  · rw [if_pos hnull]
    exact .inr ⟨-1, rfl⟩
  rw [if_neg hnull]
  change (∃ e, (k.pages.freePages k.mem (arch.toVir pa) >>= _) = _) ∨
    ∃ r, (k.pages.freePages k.mem (arch.toVir pa) >>= _) = _
  have halign : isPageAlign (arch.toVir pa) = true := isPageAlign_iff.mpr hal
  -- the index has wrapped around, so it is not that of a page
  have hidx : reg.pages ≤ k.pages.getInfoIndex (arch.toVir pa) := by
    unfold getInfoIndex wordSub wordSize pageSize
    rw [hmem]
    omega
  unfold freePages
  rw [if_neg hnull, halign, if_neg (by simp)]
  simp only
  by_cases hlt : k.pages.getInfoIndex (arch.toVir pa) < k.pages.infosSize
  · right
    have hB : B (k.pages.getInfoIndex (arch.toVir pa)) = none := by
      cases hB : B (k.pages.getInfoIndex (arch.toVir pa)) with
      | none => rfl
      | some blk =>
        have := h.inv.rep.block_lt hB
        omega
    have hinfo : k.pages.getInfo k.mem (k.pages.getInfoIndex (arch.toVir pa)) =
        ⟨0, false, false⟩ := by
      unfold getInfo
      rw [h.inv.rep.info _ hlt (by simp), hB]
      decide
    have hfill : fillPages k.mem (arch.toVir pa) 0 = k.mem := by
      have hend : (arch.toVir pa + ((0 : Int) % 2 ^ 32).toNat * pageSize) % wordSize =
          arch.toVir pa := by
        unfold wordSize
        simp
        omega
      funext x
      unfold fillPages
      simp only [hend, Nat.sub_self]
      exact Mem.fill_outside (by omega)
    rw [kassert_pos hlt, ok_bind]
    simp only [hinfo, if_true]
    refine ⟨0, ?_⟩
    rw [ok_bind]
    simp only [hfill]
  · left
    rw [kassert, if_neg hlt]
    exact ⟨_, rfl⟩

theorem World.freeForeign (H : World reg arch k B Base W) {pa : Nat} (hpa : pa % 4096 = 0)
    (hf : reg.Foreign arch pa) :
    (∃ e, pmmFreePages buddyPages k (arch.toVir pa) = .error e) ∨
      ∃ r, pmmFreePages buddyPages k (arch.toVir pa) = .ok (r, k) :=
  pmmFree_foreign H.alloc hpa hf

/-- Stores in a page of the kernel image. -/
theorem World.storeForeign (H : World reg arch k B Base W) {pa : Nat} (hf : reg.Foreign arch pa)
    {m : Mem} (hm : AgreeOn (fun x => x < arch.toVir pa ∨ arch.toVir pa + 4096 ≤ x) k.mem m) :
    World reg arch { k with mem := m } B Base W := by
  obtain ⟨hlow, hnodes⟩ := hf
  have hused : ∀ x, reg.Used B x → reg.mem ≤ x := by
    rintro x ⟨s, o, -, hl, -⟩
    simp only [Region.addr] at hl
    omega
  have htab : ∀ {i A}, W i = some A → AgreeOn (TableByte A.tables) k.mem m := fun hi x hx =>
    hm x (.inr (by have := hused x (H.table_used hi hx); omega))
  have hL := H.alloc.inv.rep.layout
  refine ⟨⟨H.alloc.inv.frame fun x hx => hm x ?_, H.alloc.memAddr, H.alloc.nodes,
    H.alloc.infosSize⟩, fun hi => (H.tables hi).congr (htab hi),
    fun hi => (H.represents hi).congr (Tables.leaf_congr (htab hi)), H.tableAddr, H.mapped,
    H.owners⟩
  rcases hx with ⟨h1, h2⟩ | ⟨h1, h2⟩ | ⟨s, o, -, h1, -⟩
  · rw [H.alloc.nodes] at h1 h2
    omega
  · have := hL.infos
    have := H.alloc.memAddr
    omega
  · rw [H.alloc.pageAddr_eq] at h1
    simp only [Region.addr] at h1
    omega

/-! ### One page at any address -/

/-- The number of the page that a walk finds at `va`. -/
def walkPage (arch : Arch) (va : Nat) : Nat := va / 4096 % arch.vaPages

theorem walkPage_range (arch : Arch) (va : Nat) : PageRange arch 0 (walkPage arch va) 1 := by
  have hlt : walkPage arch va < arch.vaPages := Nat.mod_lt _ (Arch.vaPages_pos arch)
  have hle : arch.vaPages ≤ 2 ^ 36 := by cases arch <;> decide
  exact ⟨by omega, by omega, by omega⟩

theorem walkPage_lt (arch : Arch) (va : Nat) : walkPage arch va + 1 < 2 ^ 52 := by
  have hlt : walkPage arch va < arch.vaPages := Nat.mod_lt _ (Arch.vaPages_pos arch)
  have hle : arch.vaPages ≤ 2 ^ 36 := by cases arch <;> decide
  omega

theorem walkPage_addr {va : Nat} (h : va % 4096 = 0) :
    4096 * walkPage arch va = va % 2 ^ arch.vaBits := by
  unfold walkPage
  rw [Arch.two_pow_vaBits, Nat.mod_mul, h]
  omega

theorem walkPage_mul (arch : Arch) (va : Nat) :
    walkPage arch (4096 * walkPage arch va) = walkPage arch va := by
  unfold walkPage
  rw [Nat.mul_div_cancel_left _ (by decide), Nat.mod_mod]

/-- A walk at an address is the walk at the address of its page number. -/
theorem walk_page {σ : Type} (V : VirtualPageAllocator σ) (k : Kernel σ) (pt : PageTable)
    {va : Nat} (h : va % 4096 = 0) (alloc : Bool) :
    walk arch V k pt va alloc = walk arch V k pt (4096 * walkPage arch va) alloc := by
  rw [walk_mod, ← walkPage_addr h]

/-- The entry that a walk finds. -/
theorem World.lookup (H : World reg arch k B Base W) (hi : W i = some A) (hb : A.base = 0)
    (va : Nat) :
    (∃ e, walk arch buddyPages k ⟨A.root, true⟩ va false = .error e) ∨
      ∃ pte, walk arch buddyPages k ⟨A.root, true⟩ va false = .ok (pte, k) ∧ pte ≠ 0 ∧
        pteData k.mem pte = ((A.map (walkPage arch va)).map (·.data arch)).getD 0 := by
  have hentry := H.entryOf hi hb va
  rcases walk_find (V := buddyPages) (H.tables hi) va with ⟨l, hrun, -⟩ | ⟨pte, hrun, hpte⟩
  · exact .inl ⟨_, hrun⟩
  · refine .inr ⟨pte, hrun, (H.tables hi).leafPte_pos hpte, ?_⟩
    unfold Mm.entryOf at hentry
    rwa [hrun] at hentry

theorem unmapLoop_succ {σ : Type} {V : VirtualPageAllocator σ} {k : Kernel σ} {pt : PageTable}
    {doFree : Bool} {n a : Nat} :
    unmapLoop arch V pt doFree (n + 1) k a =
      unmapLoop arch V pt doFree 1 k a >>= fun k' =>
        unmapLoop arch V pt doFree n k' (wordAdd a pageSize) := by
  rw [unmapLoop, unmapLoop]
  cases walk arch V k pt a false with
  | error e => rfl
  | ok r =>
    simp only [ok_bind]
    split_ifs
    · rfl
    · rfl
    · rfl
    · cases pmmFreePages V r.2 (arch.toVir (arch.toPa (pteData r.2.mem r.1))) with
      | error e => rfl
      | ok f => rfl
    · rfl

theorem unmapLoop_page {σ : Type} {V : VirtualPageAllocator σ} {k : Kernel σ} {pt : PageTable}
    {doFree : Bool} {va : Nat} (h : va % 4096 = 0) :
    unmapLoop arch V pt doFree 1 k va =
      unmapLoop arch V pt doFree 1 k (4096 * walkPage arch va) := by
  simp only [unmapLoop, ← walk_page V k pt h]

/-! ### Unmapping -/

theorem AddrSpace.Single.whole (h : A.Single B) (v n : Nat) : A.Whole B v n := by
  intro w s o d hl hu hp hs hd _
  rw [h w s hp] at hs
  cases hs
  simp only [Nat.pow_zero] at hd
  omega

theorem AddrSpace.unmap_one (A : AddrSpace) (u w : Nat) :
    ((A.unmap u 1).map w = if w = u then none else A.map w) ∧
      (A.unmap u 1).pages w = if w = u then none else A.pages w := by
  unfold AddrSpace.unmap PageMap.unmap
  by_cases hw : w = u
  · subst hw
    simp
  · rw [if_neg hw, if_neg hw]
    exact ⟨if_neg (by omega), if_neg (by omega)⟩

/-- A page that is no longer mapped, and whose block has gone back. -/
theorem SpaceStep.unmap_one {u : Nat}
    (hused : ∀ t o, B' t = some ⟨o, true⟩ ↔ B t = some ⟨o, true⟩ ∧
      A.pages u ≠ some t)
    (hinj : ∀ v t, A.pages v = some t → A.pages u = some t → v = u) :
    SpaceStep reg arch B A B' (A.unmap u 1) := by
  refine ⟨rfl, rfl, fun ho v mp hmp => ?_, fun hs v s hp => ?_, fun v p hp => ?_,
    fun t o ht hn => (hused t o).mpr ⟨ht, hn u⟩⟩
  · rw [(A.unmap_one u v).1] at hmp
    rw [(A.unmap_one u v).2]
    by_cases hv : v = u
    · rw [if_pos hv] at hmp
      cases hmp
    · rw [if_neg hv] at hmp ⊢
      exact ho v mp hmp
  · rw [(A.unmap_one u v).2] at hp
    by_cases hv : v = u
    · rw [if_pos hv] at hp
      cases hp
    · rw [if_neg hv] at hp
      exact (hused s 0).mpr ⟨hs v s hp, fun hu => hv (hinj v s hp hu)⟩
  · rw [(A.unmap_one u v).2] at hp
    by_cases hv : v = u
    · rw [if_pos hv] at hp
      cases hp
    · rw [if_neg hv] at hp
      exact .inl ⟨v, hp⟩

/-- A turn of `vm_unmap` at a page that the space maps but does not hold. -/
theorem World.unmapUnheld [DecidableEq ι] (H : World reg arch k B Base W) (hw : reg.InWindow arch)
    (hi : W i = some A) (hb : A.base = 0) {u : Nat} (hu : PageRange arch 0 u 1)
    (hlt : u + 1 < 2 ^ 52) {mp : Mapping} (hmp : A.map u = some mp) (hp : A.pages u = none) :
    ∃ k', unmapLoop arch buddyPages ⟨A.root, true⟩ false 1 k (4096 * u) = .ok k' ∧
      World reg arch k' B Base (Function.update W i (some (A.unmap u 1))) ∧
      (∀ r, pmmFreePages buddyPages k (arch.toVir mp.page) = .ok (r, k) →
        unmapLoop arch buddyPages ⟨A.root, true⟩ true 1 k (4096 * u) = .ok k') := by
  have hR := H.represents hi
  obtain ⟨pte, hpte, hdata⟩ := hR.leafPte hmp
  have hok := (hR.of_some hmp).2
  have hwalk := walk_find_ok (V := buddyPages) (H.tables hi)
    (show leafPte A.tables (4096 * u / 4096 % arch.vaPages) = some pte by
      rw [Nat.mul_div_cancel_left u (by decide)]
      exact hpte)
  have hnz := (H.tables hi).leafPte_pos hpte
  obtain ⟨k', hrun, Sp', hg, hM'⟩ := unmapLoop_spec (V := buddyPages)
    (S := buddySource reg arch hw) 1 u (H.space hi) hR (by rw [hb]; exact hu) hlt
    (fun w hl hu' => by
      rw [show w = u by omega, hmp]
      exact Option.some_ne_none mp)
  have hk' : k' = pteClearData k pte := by
    rw [unmapLoop, hwalk, ok_bind] at hrun
    simp only [if_neg hnz, hdata, hok.isValid, hok.isDirPage, Bool.not_true, Bool.false_eq_true,
      if_false, unmapLoop] at hrun
    exact (Except.ok.inj hrun).symm
  have H' := H.grow hi Sp' hg hM' fun v p hv => by
    have hne : v ≠ u := by
      rintro rfl
      rw [hp] at hv
      cases hv
    exact if_neg (by omega)
  have hA : ({ A with base := A.base, tables := A.tables, map := A.map.unmap u 1 } : AddrSpace) =
      A.unmap u 1 := by
    have hpages : (A.unmap u 1).pages = A.pages := by
      funext w
      rw [(A.unmap_one u w).2]
      by_cases hwu : w = u
      · rw [if_pos hwu, hwu, hp]
      · rw [if_neg hwu]
    unfold AddrSpace.unmap at hpages ⊢
    simp only at hpages
    rw [hpages]
  rw [hA] at H'
  refine ⟨k', hrun, H', fun r hfree => ?_⟩
  rw [unmapLoop, hwalk, ok_bind]
  simp only [if_neg hnz, hdata, hok.isValid, hok.isDirPage, hok.toPa, hfree, Bool.not_true,
    Bool.false_eq_true, if_false, if_true]
  rw [ok_bind, hk']
  rfl

/-- One turn of `vm_unmap` with release at any address. -/
theorem World.unmapTurn [DecidableEq ι] (H : World reg arch k B Base W) (hw : reg.InWindow arch)
    (hi : W i = some A) (hb : A.base = 0) (ho : A.Owned reg arch) (hs : A.Single B)
    (hva : va % 4096 = 0) :
    (∃ e, unmapLoop arch buddyPages ⟨A.root, true⟩ true 1 k va = .error e) ∨
      ∃ k' B', unmapLoop arch buddyPages ⟨A.root, true⟩ true 1 k va = .ok k' ∧
        World reg arch k' B' Base (Function.update W i (some (A.unmap (walkPage arch va) 1))) ∧
        SpaceStep reg arch B A B' (A.unmap (walkPage arch va) 1) := by
  rw [unmapLoop_page hva]
  generalize hu : walkPage arch va = u
  have hrange : PageRange arch 0 u 1 := hu ▸ walkPage_range arch va
  have hlt : u + 1 < 2 ^ 52 := hu ▸ walkPage_lt arch va
  cases hM : A.map u with
  | none =>
    left
    rcases H.lookup hi hb (4096 * u) with ⟨e, hrun⟩ | ⟨pte, hrun, hnz, hdata⟩
    · exact ⟨e, by rw [unmapLoop, hrun, error_bind]⟩
    · rw [show walkPage arch (4096 * u) = u by rw [← hu, walkPage_mul], hM] at hdata
      refine ⟨.panic "vmunmap: not mapped", ?_⟩
      rw [unmapLoop, hrun, ok_bind]
      simp only [if_neg hnz, hdata, Option.map_none, Option.getD_none, Arch.isValid_zero,
        Bool.not_false, if_true]
  | some mp =>
    cases hp : A.pages u with
    | some p =>
      obtain ⟨k', B', hrun, H', hrel, -⟩ := H.unmapFree hw hi (n := 1) (v := u)
        (by rw [hb]; exact hrange) hlt
        (fun w hl hu' => by
          rw [show w = u by omega, hp]
          exact Option.some_ne_none p) (hs.whole u 1)
      refine .inr ⟨k', B', hrun, H', .unmap_one (fun t o => ?_) fun v t hv hu' =>
        (H.owners.inj ⟨A, hi, hv⟩ ⟨A, hi, hu'⟩).2⟩
      rw [hrel.used]
      refine and_congr_right fun _ => not_congr ⟨?_, fun h => ⟨u, by omega, by omega, h⟩⟩
      rintro ⟨w, hl, hu', h⟩
      rwa [show w = u by omega] at h
    | none =>
      have hf := (ho u mp hM).resolve_left (not_not.mpr hp)
      obtain ⟨k', -, H', hrun⟩ := H.unmapUnheld hw hi hb hrange hlt hM hp
      rcases H.freeForeign ((H.represents hi).of_some hM).2.aligned hf with
          ⟨e, hfree⟩ | ⟨r, hfree⟩
      · left
        rcases H.lookup hi hb (4096 * u) with ⟨e', hwalk⟩ | ⟨pte, hwalk, hnz, hdata⟩
        · exact ⟨e', by rw [unmapLoop, hwalk, error_bind]⟩
        · have hok := ((H.represents hi).of_some hM).2
          rw [show walkPage arch (4096 * u) = u by rw [← hu, walkPage_mul], hM] at hdata
          simp only [Option.map_some, Option.getD_some] at hdata
          refine ⟨e, ?_⟩
          rw [unmapLoop, hwalk, ok_bind]
          simp only [if_neg hnz, hdata, hok.isValid, hok.isDirPage, hok.toPa, hfree, Bool.not_true,
            Bool.false_eq_true, if_false, if_true]
          rfl
      · refine .inr ⟨k', B, hrun r hfree, H', .unmap_one (fun t o => ?_) fun v t _ hu' => ?_⟩
        · rw [hp]
          simp
        · rw [hp] at hu'
          cases hu'

theorem wordAdd_page_mod (h : va % 4096 = 0) : wordAdd va pageSize % 4096 = 0 := by
  unfold wordAdd wordSize pageSize
  omega

/-- The loop of `vm_unmap` with release over any range. -/
theorem World.unmapLoopAny [DecidableEq ι] (hw : reg.InWindow arch) (n : Nat)
    (H : World reg arch k B Base W) (hi : W i = some A) (hb : A.base = 0)
    (ho : A.Owned reg arch) (hs : A.Single B) (hva : va % 4096 = 0) :
    (∃ e, unmapLoop arch buddyPages ⟨A.root, true⟩ true n k va = .error e) ∨
      ∃ k' B' A', unmapLoop arch buddyPages ⟨A.root, true⟩ true n k va = .ok k' ∧
        World reg arch k' B' Base (Function.update W i (some A')) ∧
        SpaceStep reg arch B A B' A' := by
  induction n generalizing k B W A va with
  | zero =>
    refine .inr ⟨k, B, A, rfl, ?_, .refl B A⟩
    rwa [Function.update_eq_self_iff.mpr hi.symm]
  | succ n ih =>
    rw [unmapLoop_succ]
    rcases H.unmapTurn hw hi hb ho hs hva with ⟨e, hrun⟩ | ⟨k₁, B₁, hrun, H₁, St⟩
    · rw [hrun, error_bind]
      exact .inl ⟨e, rfl⟩
    · rw [hrun, ok_bind]
      have h := ih H₁ (Function.update_self ..) hb (St.owned ho) (St.single hs)
        (wordAdd_page_mod hva)
      simp only [Function.update_idem] at h
      rcases h with ⟨e, hrest⟩ | ⟨k', B', A', hrest, H', St'⟩
      · exact .inl ⟨e, hrest⟩
      · exact .inr ⟨k', B', A', hrest, H', St.trans St'⟩

/-- `vm_unmap` with release of any range. -/
theorem World.unmapAny [DecidableEq ι] (H : World reg arch k B Base W) (hw : reg.InWindow arch)
    (hi : W i = some A) (hb : A.base = 0) (ho : A.Owned reg arch) (hs : A.Single B)
    (va npages : Nat) :
    (∃ e, Mm.vmUnmap arch buddyPages k ⟨A.root, true⟩ va npages true = .error e) ∨
      ∃ k' B' A', Mm.vmUnmap arch buddyPages k ⟨A.root, true⟩ va npages true = .ok k' ∧
        World reg arch k' B' Base (Function.update W i (some A')) ∧
        SpaceStep reg arch B A B' A' := by
  unfold Mm.vmUnmap
  by_cases hva : va % pageSize ≠ 0
  · rw [if_pos hva]
    exact .inl ⟨_, rfl⟩
  · rw [if_neg hva]
    exact H.unmapLoopAny hw _ hi hb ho hs (by simpa [pageSize] using hva)

/-! ### Mapping -/

/-- More blocks in use and more tables, with the same pages. -/
theorem SpaceStep.retable (hroot : A'.root = A.root) (hbase : A'.base = A.base)
    (hmap : A'.map = A.map) (hpages : A'.pages = A.pages)
    (hused : ∀ {t o}, B t = some ⟨o, true⟩ → B' t = some ⟨o, true⟩) :
    SpaceStep reg arch B A B' A' := by
  refine ⟨hroot, hbase, fun ho v mp hmp => ?_, fun hs v s hp => ?_, fun v p hp => ?_,
    fun t o ht _ => hused ht⟩
  · rw [hmap] at hmp
    rw [hpages]
    exact ho v mp hmp
  · rw [hpages] at hp
    exact hused (hs v s hp)
  · rw [hpages] at hp
    exact .inl ⟨v, hp⟩

/-- One more page, on a block that was not in use. -/
theorem SpaceStep.map_one {u s : Nat} (hroot : A'.root = A.root) (hbase : A'.base = A.base)
    (hmap : ∀ w, w ≠ u → A'.map w = A.map w)
    (hpages : ∀ w, A'.pages w = if w = u then some s else A.pages w)
    (hfresh : ∀ o, B s ≠ some ⟨o, true⟩) (hs' : B' s = some ⟨0, true⟩)
    (hused : ∀ {t o}, B t = some ⟨o, true⟩ → B' t = some ⟨o, true⟩) :
    SpaceStep reg arch B A B' A' := by
  refine ⟨hroot, hbase, fun ho v mp hmp => ?_, fun hs v p hp => ?_, fun v p hp => ?_,
    fun t o ht _ => hused ht⟩
  · rw [hpages]
    by_cases hv : v = u
    · rw [if_pos hv]
      exact .inl (Option.some_ne_none s)
    · rw [if_neg hv]
      rw [hmap v hv] at hmp
      exact ho v mp hmp
  · rw [hpages] at hp
    by_cases hv : v = u
    · rw [if_pos hv] at hp
      cases hp
      exact hs'
    · rw [if_neg hv] at hp
      exact hused (hs v p hp)
  · rw [hpages] at hp
    by_cases hv : v = u
    · rw [if_pos hv] at hp
      cases hp
      exact .inr hfresh
    · rw [if_neg hv] at hp
      exact .inl ⟨v, hp⟩

theorem mapPages_page {σ : Type} {V : VirtualPageAllocator σ} {k : Kernel σ} {pt : PageTable}
    {va pa flags : Nat} (h : va % 4096 = 0) (hlt : va < 2 ^ 64) :
    mapPages arch V k pt va pageSize pa flags =
      mapPages arch V k pt (4096 * walkPage arch va) pageSize pa flags := by
  have hone : ∀ {a}, a % 4096 = 0 → a < 2 ^ 64 →
      mapPages arch V k pt a pageSize pa flags = mapLoop arch V pt flags 0 k a pa := by
    intro a ha hlt
    have hdown : pageRoundDown a = a := by
      rw [pageRoundDown_eq]
      omega
    have hlast : pageRoundDown (wordSub (wordAdd a pageSize) 1) = a := by
      rw [pageRoundDown_eq]
      unfold wordSub wordAdd wordSize pageSize
      omega
    unfold mapPages
    rw [if_neg (by decide)]
    simp only [hdown, hlast]
    have hzero : wordSub a a / pageSize = 0 := by
      unfold wordSub wordSize pageSize
      omega
    rw [hzero]
  have hu := walkPage_lt arch va
  rw [hone h hlt, hone (by omega) (by omega), mapLoop, mapLoop, ← walk_page V k pt h]

theorem walkPage_clear {M : PageMap} {u : Nat} :
    M.Clear u (u + 2 ^ 0 - 1) ↔ M u = none := by
  constructor
  · exact fun h => h u (Nat.le_refl u) (by omega)
  · intro h w hl hu
    rwa [show w = u by omega]

/-- `map_pages` of one page held outside, at any address. -/
theorem World.mapTurn [DecidableEq ι] (H : World reg arch k B Base W) (hw : reg.InWindow arch)
    (hi : W i = some A) (hb : A.base = 0) {s flags : Nat} (hs : Base s 0)
    (hf : LeafFlags arch flags) (hva : va % 4096 = 0) (hlt : va < 2 ^ 64) :
    (∃ e, mapPages arch buddyPages k ⟨A.root, true⟩ va pageSize (reg.addr s) flags =
      .error e) ∨ ∃ r k' B' A',
          mapPages arch buddyPages k ⟨A.root, true⟩ va pageSize (reg.addr s) flags =
          .ok (r, k') ∧ (r = true ↔ A.map (walkPage arch va) = none) ∧
        (∀ {t o}, B t = some ⟨o, true⟩ → B' t = some ⟨o, true⟩) ∧
        A'.root = A.root ∧ A'.base = A.base ∧
        AgreeOn (reg.Other B A.tables) k.mem k'.mem ∧
        (∀ w, w ≠ walkPage arch va → A'.map w = A.map w) ∧
        (r = false → A'.map = A.map ∧ A'.pages = A.pages ∧
          World reg arch k' B' Base (Function.update W i (some A'))) ∧
        (r = true →
          A'.map (walkPage arch va) = some ⟨arch.toPhy (reg.addr s), flags⟩ ∧
          (∀ w, A'.pages w = if w = walkPage arch va then some s else A.pages w) ∧
          World reg arch k' B' (fun t j => Base t j ∧ t ≠ s)
            (Function.update W i (some A'))) := by
  rw [mapPages_page hva hlt]
  generalize hu : walkPage arch va = u
  have hrange : PageRange arch 0 u 1 := hu ▸ walkPage_range arch va
  have hmap := H.mapBlock hw hi (u := u) hs hf (by rw [hb]; exact hrange)
  simp only [Nat.pow_zero, Nat.mul_one] at hmap
  rcases hmap with ⟨l, hrun, -⟩ | ⟨r, k', B', T', hrun, hg, hr, H₂, H₂', -⟩
  · exact .inl ⟨_, hrun⟩
  have hr' : r = true ↔ A.map u = none := by
    rw [hr]
    exact walkPage_clear
  obtain ⟨ps, hps, -⟩ := hg.grabs
  have hused : ∀ {t o}, B t = some ⟨o, true⟩ → B' t = some ⟨o, true⟩ := fun h =>
    (grabs_used hps _ _).mpr (.inl h)
  right
  cases r with
  | false =>
    have hne : A.map u ≠ none := fun h => by simpa using hr'.mpr h
    obtain ⟨mp, hmp⟩ := Option.ne_none_iff_exists'.mp hne
    have hstuck : A.map.map arch u (u + 1 - 1) (reg.addr s) flags = A.map :=
      PageMap.map_stuck hmp
    rw [hstuck] at H₂
    exact ⟨false, k', B', { A with tables := T' }, hrun, hr', hused, rfl, rfl, hg.keep,
      fun _ _ => rfl,
      fun _ => ⟨rfl, rfl, H₂⟩, fun h => by cases h⟩
  | true =>
    have hclear := hr.mp rfl
    have htarget : PageMap.target arch (reg.addr s) flags 0 =
        ⟨arch.toPhy (reg.addr (s + 0)), flags⟩ :=
      H.target_page hw (H.owners.base hs) (Nat.two_pow_pos 0)
    refine ⟨true, k', B', { A with
        tables := T'
        map := A.map.map arch u (u + 1 - 1) (reg.addr s) flags
        pages := fun w => if u ≤ w ∧ w < u + 1 then some (s + (w - u)) else A.pages w },
      hrun, hr', hused, rfl, rfl, hg.keep, fun w hwu => ?_,
      fun h => (by cases h), fun _ => ⟨?_, fun w => ?_, H₂' rfl⟩⟩
    · exact PageMap.map_outside (by omega)
    · refine (PageMap.map_clear hclear (Nat.le_refl u) (by omega)).trans ?_
      rw [Nat.sub_self, htarget, Nat.add_zero]
    · simp only
      by_cases hwu : w = u
      · rw [if_pos (by omega), if_pos hwu, hwu, Nat.sub_self, Nat.add_zero]
      · rw [if_neg (by omega), if_neg hwu]

/-! ### Copying -/

/-- The results of `vm_copy` into the space `j`: it keeps the pages that `j` has, unless
it fails. -/
def CopyResult [DecidableEq ι] (reg : Region) (arch : Arch) (Base : Nat → Nat → Prop)
    (W : Spaces ι) (j : ι) (B : Blocks) (A : AddrSpace)
      (x : Except Fault (Int × Kernel BuddyAllocator)) : Prop :=
  (∃ e, x = .error e) ∨
    ∃ r k' B' A', x = .ok (r, k') ∧
      World reg arch k' B' Base (Function.update W j (some A')) ∧
      SpaceStep reg arch B A B' A' ∧
      (0 ≤ r → ∀ v p, A.pages v = some p → A'.pages v = some p)

/-- The pages copied so far are given back. -/
theorem World.copyUndo [DecidableEq ι]
    (H : World reg arch k B' Base (Function.update W j (some A')))
    (hw : reg.InWindow arch) (hb : A.base = 0) (ho : A.Owned reg arch) (hs : A.Single B)
    (St : SpaceStep reg arch B A B' A') (start npages : Nat) :
    CopyResult reg arch Base W j B A (do
      let k ← Mm.vmUnmap arch buddyPages k ⟨A.root, true⟩ start npages true
      .ok (-1, k)) := by
  have h := H.unmapAny hw (Function.update_self ..) (St.base.trans hb) (St.owned ho) (St.single hs)
    start npages
  rw [St.root] at h
  rcases h with ⟨e, hrun⟩ | ⟨k', B'', A'', hrun, H', St'⟩
  · rw [hrun, error_bind]
    exact .inl ⟨e, rfl⟩
  · rw [hrun, ok_bind]
    rw [Function.update_idem] at H'
    exact .inr ⟨-1, k', B'', A'', rfl, H', St.trans St', fun h => by omega⟩

/-- The loop of `vm_copy` from the space `i` to the space `j`. -/
theorem World.copyLoopAny [DecidableEq ι] (hw : reg.InWindow arch) {Ai : AddrSpace} (hij : i ≠ j)
    (start n : Nat) (H : World reg arch k B Base W) (hi : W i = some Ai) (hbi : Ai.base = 0)
    (hj : W j = some A) (hb : A.base = 0) (ho : A.Owned reg arch) (hs : A.Single B)
    (hva : va % 4096 = 0) (hlt : va < 2 ^ 64) :
    CopyResult reg arch Base W j B A
      (vmCopyLoop arch buddyPages ⟨Ai.root, true⟩ ⟨A.root, true⟩ start n k va) := by
  induction n generalizing k B W A va with
  | zero =>
    refine .inr ⟨0, k, B, A, rfl, ?_, .refl B A, fun _ _ _ => id⟩
    rwa [Function.update_eq_self_iff.mpr hj.symm]
  | succ n ih =>
    have hupd : ∀ {k₁ B₁ A₁},
        World reg arch k₁ B₁ Base (Function.update W j (some A₁)) →
        Function.update W j (some A₁) i = some Ai := fun _ => by
      rw [Function.update_of_ne hij, hi]
    rw [vmCopyLoop]
    rcases H.lookup hi hbi va with ⟨e, hwalk⟩ | ⟨pte, hwalk, hnz, hdata⟩
    · rw [hwalk, error_bind]
      exact .inl ⟨e, rfl⟩
    rw [hwalk, ok_bind]
    simp only [if_neg hnz, hdata]
    cases hM : Ai.map (walkPage arch va) with
    | none =>
      have hz : arch.isPresent 0 = false := by cases arch <;> decide
      simp only [Option.map_none, Option.getD_none, hz, Bool.not_false, if_true]
      exact .inl ⟨_, rfl⟩
    | some mp =>
      have hok := ((H.represents hi).of_some hM).2
      simp only [Option.map_some, Option.getD_some, hok.isPresent, hok.toPa, hok.getFlags]
      split
      · exact .inl ⟨_, rfl⟩
      rcases H.allocPage with ⟨hnone, -⟩ | ⟨s, k₁, B₁, hrun₁, ha, H₁, -⟩
      · rw [hnone, ok_bind]
        have Hj : World reg arch k B Base (Function.update W j (some A)) := by
          rwa [Function.update_eq_self_iff.mpr hj.symm]
        exact Hj.copyUndo hw hb ho hs (.refl B A) start _
      rw [hrun₁, ok_bind]
      simp only
      have hused₁ : ∀ {t o}, B t = some ⟨o, true⟩ → B₁ t = some ⟨o, true⟩ :=
          fun h =>
        (ha.used _ _).mpr (.inr h)
      have hB₁ : B₁ s = some ⟨0, true⟩ := (ha.used s 0).mpr (.inl ⟨rfl, rfl⟩)
      have H₁' : World reg arch
          { k₁ with mem := k₁.mem.copy (reg.addr s) (arch.toVir mp.page) pageSize } B₁ _ W :=
        H₁.write_base (.inl ⟨rfl, rfl⟩) fun x hx => Mem.copy_outside (by
          unfold pageSize
          omega)
      rcases H₁'.mapTurn hw hj hb (s := s) (.inl ⟨rfl, rfl⟩) hok.flags hva hlt with
        ⟨e, hmap⟩ |
          ⟨r, k₂, B₂, A₂, hmap, hr, hused₂, hroot, hbase, -, hmaps, hfalse, htrue⟩
      · rw [hmap, error_bind]
        exact .inl ⟨e, rfl⟩
      rw [hmap, ok_bind]
      cases r with
      | true =>
        obtain ⟨-, hpages, H₂⟩ := htrue rfl
        rw [H.base_cancel ha.fresh] at H₂
        have hAu : A.pages (walkPage arch va) = none := by
          cases hp : A.pages (walkPage arch va) with
          | none => rfl
          | some p =>
            obtain ⟨f, hf⟩ := H.mapped hj hp
            rw [hr.mp rfl] at hf
            cases hf
        have St : SpaceStep reg arch B A B₂ A₂ := .map_one hroot hbase hmaps hpages ha.fresh
          (hused₂ hB₁) fun h => hused₂ (hused₁ h)
        simp only [if_true]
        have h := ih H₂ (hupd H₂) (Function.update_self ..) (hbase.trans hb) (St.owned ho)
          (St.single hs) (wordAdd_page_mod hva) (wordAdd_lt _ _)
        rw [hroot] at h
        rcases h with ⟨e, hrest⟩ | ⟨r, k', B', A', hrest, H', St', hkeep⟩
        · exact .inl ⟨e, hrest⟩
        · rw [Function.update_idem] at H'
          refine .inr ⟨r, k', B', A', hrest, H', St.trans St', fun hr v p hp => hkeep hr v p ?_⟩
          rw [hpages, if_neg]
          · exact hp
          · rintro rfl
            rw [hAu] at hp
            cases hp
      | false =>
        obtain ⟨hmap₂, hpages₂, H₂⟩ := hfalse rfl
        obtain ⟨r', k₃, B₃, hfree, hrel, H₃, -⟩ := H₂.freeBase hw (s := s) (o := 0)
          (.inl ⟨rfl, rfl⟩)
        rw [H.base_cancel ha.fresh] at H₃
        have hused₃ : ∀ {t o}, B t = some ⟨o, true⟩ → B₃ t = some ⟨o, true⟩ :=
            fun {t o} h => by
          refine (hrel.used t o).mpr ⟨hused₂ (hused₁ h), ?_⟩
          rintro rfl
          exact ha.fresh o h
        simp only [Bool.false_eq_true, if_false]
        rw [hfree, ok_bind]
        exact H₃.copyUndo hw hb ho hs (.retable hroot hbase hmap₂ hpages₂ hused₃) start _

/-- `vm_copy` of any range. -/
theorem World.copyAny [DecidableEq ι] (H : World reg arch k B Base W) (hw : reg.InWindow arch)
    {Ai : AddrSpace} (hij : i ≠ j) (hi : W i = some Ai) (hbi : Ai.base = 0) (hj : W j = some A)
    (hb : A.base = 0) (ho : A.Owned reg arch) (hs : A.Single B) (start size : Nat) :
    CopyResult reg arch Base W j B A
      (vmCopy arch buddyPages k ⟨Ai.root, true⟩ ⟨A.root, true⟩ start size) := by
  unfold vmCopy
  split
  · exact .inl ⟨_, rfl⟩
  · rename_i hal
    split
    · exact .inl ⟨_, rfl⟩
    · have hva : start % 4096 = 0 := isPageAlign_iff.mp (by simpa using hal)
      by_cases hlt : start < 2 ^ 64
      · exact H.copyLoopAny hw hij start _ hi hbi hj hb ho hs hva hlt
      · have hend : (wordAdd start size - start) / pageSize = 0 := by
          have := wordAdd_lt start size
          rw [Nat.sub_eq_zero_of_le (by omega), Nat.zero_div]
        refine .inr ⟨0, k, B, A, ?_, ?_, .refl B A, fun _ _ _ => id⟩
        · simp only [hend, vmCopyLoop]
        · rwa [Function.update_eq_self_iff.mpr hj.symm]

/-! ### The trampoline -/

/-- `map_pages` of a page of the kernel image, at any address. -/
theorem World.mapForeign [DecidableEq ι] (H : World reg arch k B Base W) (hw : reg.InWindow arch)
    (hi : W i = some A) (hb : A.base = 0) {pa flags : Nat} (hf : LeafFlags arch flags)
    (hva : va % 4096 = 0) (hlt : va < 2 ^ 64) (hpa : pa < 2 ^ 64)
    (hfor : reg.Foreign arch (pageRoundDown (arch.toPhy pa))) :
    (∃ e, mapPages arch buddyPages k ⟨A.root, true⟩ va pageSize pa flags = .error e ∧
        reg.room B < arch.top) ∨
      ∃ r k' B' A', mapPages arch buddyPages k ⟨A.root, true⟩ va pageSize pa flags =
        .ok (r, k') ∧ World reg arch k' B' Base (Function.update W i (some A')) ∧
        SpaceStep reg arch B A B' A' ∧ A'.pages = A.pages := by
  rw [mapPages_page hva hlt]
  generalize hu : walkPage arch va = u
  have hrange : PageRange arch 0 u 1 := hu ▸ walkPage_range arch va
  have hu52 : u + 1 < 2 ^ 52 := hu ▸ walkPage_lt arch va
  have hfirst : 4096 * u / 4096 = u := Nat.mul_div_cancel_left u (by decide)
  have hlast : (4096 * u + pageSize - 1) / 4096 = u := by
    unfold pageSize
    omega
  have hspec := mapPages_spec (S := buddySource reg arch hw) (4096 * u) pageSize hf (by decide)
    (by unfold pageSize; omega)
    (by rw [hfirst, hlast, hb, Nat.sub_self]; exact hrange) hpa (H.space hi) (H.represents hi)
  rw [hfirst, hlast] at hspec
  rcases hspec with ⟨l, hrun, hroom⟩ | ⟨r, k', B', T', hrun, Sp', hg, hM', hr, -⟩
  · rw [Nat.sub_self, Nat.zero_add, Nat.mul_one] at hroom
    exact .inl ⟨_, hrun, hroom⟩
  obtain ⟨ps, hps, -⟩ := hg.grabs
  have hmap : ∀ w mp, A.map.map arch u u pa flags w = some mp →
      A.map w = some mp ∨ mp.page = pageRoundDown (arch.toPhy pa) := by
    intro w mp hmp
    unfold PageMap.map at hmp
    split at hmp
    · rename_i hw'
      cases hmp
      have hwu : w - u = 0 := by omega
      refine .inr ?_
      rw [hwu]
      simp only [PageMap.target, wordAdd, wordSize, Nat.mul_zero, Nat.add_zero,
        Nat.mod_eq_of_lt hpa]
    · exact .inl hmp
  have H' := H.grow hi Sp' hg hM' fun v p hp => by
    obtain ⟨f, hv⟩ := H.mapped hi hp
    rw [hv, PageMap.map_of_some hv]
  refine .inr ⟨r, k', B', _, hrun, H', ⟨rfl, rfl, fun ho v mp hmp => ?_, fun hs v s hp =>
    (grabs_used hps _ _).mpr (.inl (hs v s hp)), fun v p hp => .inl ⟨v, hp⟩, fun t o ht _ =>
    (grabs_used hps _ _).mpr (.inl ht)⟩, rfl⟩
  rcases hmap v mp hmp with h | h
  · exact ho v mp h
  · rw [h]
    exact .inr hfor

/-- `vm_unmap` without release of one page, in a space that holds no pages. -/
theorem World.unmapKeep [DecidableEq ι] (H : World reg arch k B Base W) (hw : reg.InWindow arch)
    (hi : W i = some A) (hb : A.base = 0) (hp : ∀ v, A.pages v = none) (hva : va % 4096 = 0)
    (hlt : va + 4096 < 2 ^ 64) :
    (∃ e, Mm.vmUnmap arch buddyPages k ⟨A.root, true⟩ va 1 false = .error e) ∨
      ∃ k', Mm.vmUnmap arch buddyPages k ⟨A.root, true⟩ va 1 false = .ok k' ∧
        World reg arch k' B Base (Function.update W i (some (A.unmap (walkPage arch va) 1))) := by
  have hend : (wordAdd va (1 * pageSize) - va) / pageSize = 1 := by
    unfold wordAdd wordSize pageSize
    omega
  unfold Mm.vmUnmap
  rw [if_neg (by simpa [pageSize] using hva)]
  simp only
  rw [hend, unmapLoop_page hva]
  generalize hu : walkPage arch va = u
  have hrange : PageRange arch 0 u 1 := hu ▸ walkPage_range arch va
  have hu52 : u + 1 < 2 ^ 52 := hu ▸ walkPage_lt arch va
  cases hM : A.map u with
  | none =>
    left
    rcases H.lookup hi hb (4096 * u) with ⟨e, hrun⟩ | ⟨pte, hrun, hnz, hdata⟩
    · exact ⟨e, by rw [unmapLoop, hrun, error_bind]⟩
    · rw [show walkPage arch (4096 * u) = u by rw [← hu, walkPage_mul], hM] at hdata
      refine ⟨.panic "vmunmap: not mapped", ?_⟩
      rw [unmapLoop, hrun, ok_bind]
      simp only [if_neg hnz, hdata, Option.map_none, Option.getD_none, Arch.isValid_zero,
        Bool.not_false, if_true]
  | some mp =>
    obtain ⟨k', hrun, H', -⟩ := H.unmapUnheld hw hi hb hrange hu52 hM (hp u)
    exact .inr ⟨k', hrun, H'⟩

/-! ### `copyout` -/

theorem windowed_toVir (arch : Arch) (pa : Nat) : arch.Windowed (arch.toVir pa) := by
  rw [Arch.windowed_iff]
  cases arch with
  | riscv => trivial
  | loongarch =>
    simp only
    rw [Arch.toVir_loongarch]
    omega

/-- What `copyout` stores in the page at `pa`. -/
theorem copyout_bytes {m : Mem} {pa : Nat} (hpa : pa % 4096 = 0)
    (hle : arch.toVir pa + 4096 ≤ 2 ^ 64) (p : List UInt8) :
    AgreeOn (fun x => x < arch.toVir pa ∨ arch.toVir pa + 4096 ≤ x) m
      (m.store (arch.toVir (wordAdd (arch.toVir pa) (va - pageRoundDown va)))
        (p.take (min (pageSize - (va - pageRoundDown va)) p.length))) := by
  have hdown := pageRoundDown_eq va
  have hoff : va - pageRoundDown va < 4096 := by omega
  have hadd : wordAdd (arch.toVir pa) (va - pageRoundDown va) =
      arch.toVir pa + (va - pageRoundDown va) := by
    unfold wordAdd wordSize
    omega
  have hvir : arch.toVir (arch.toVir pa + (va - pageRoundDown va)) =
      arch.toVir pa + (va - pageRoundDown va) :=
    ((windowed_toVir arch pa).add (toVir_mod hpa) hoff).toVir
  intro x hx
  refine Mem.store_outside ?_
  rw [hadd, hvir, List.length_take]
  unfold pageSize
  omega

/-- Stores in a page that a space maps. -/
theorem World.storeMapped (H : World reg arch k B Base W) (hw : reg.InWindow arch)
    (hi : W i = some A) (ho : A.Owned reg arch) {u : Nat} {mp : Mapping} (hM : A.map u = some mp)
    {m : Mem}
    (hm : AgreeOn (fun x => x < arch.toVir mp.page ∨ arch.toVir mp.page + 4096 ≤ x) k.mem m) :
    World reg arch { k with mem := m } B Base W := by
  cases hp : A.pages u with
  | some q =>
    obtain ⟨f, hf⟩ := H.mapped hi hp
    rw [hM] at hf
    cases hf
    have hvir := toVir_page hw (H.page_lt hi hp)
    refine H.storePage hi hp fun x hx => hm x ?_
    rwa [hvir]
  | none => exact H.storeForeign ((ho u mp hM).resolve_left (not_not.mpr hp)) hm

theorem Mapping.Ok.toVir_le {mp : Mapping} (h : mp.Ok arch) :
    arch.toVir mp.page + 4096 ≤ 2 ^ 64 := by
  have hal := h.aligned
  have hlt := h.lt
  cases arch with
  | riscv =>
    simp only [Arch.physLimit] at hlt
    simp only [Arch.toVir]
    omega
  | loongarch =>
    rw [Arch.toVir_loongarch]
    omega

/-- `copyout` to any address leaves all spaces as they are.  On LoongArch it takes an entry that is
not valid for the physical page zero. -/
theorem World.copyoutLoopAny (hw : reg.InWindow arch)
    (hzero : arch = .loongarch → reg.Foreign arch 0)
    (turns : Nat) (p : List UInt8) (H : World reg arch k B Base W) (hi : W i = some A)
    (hb : A.base = 0) (ho : A.Owned reg arch) :
    (∃ e, copyoutLoop arch buddyPages ⟨A.root, true⟩ turns k va p = .error e) ∨
      ∃ r k', copyoutLoop arch buddyPages ⟨A.root, true⟩ turns k va p = .ok (r, k') ∧
        World reg arch k' B Base W := by
  have hend := reg.end_le
  induction turns generalizing k va p with
  | zero => exact .inr ⟨0, k, rfl, H⟩
  | succ turns ih =>
    have hdown := pageRoundDown_eq va
    have hpage : walkPage arch (pageRoundDown va) = walkPage arch va := by
      unfold walkPage
      rw [show pageRoundDown va / 4096 = va / 4096 by omega]
    rw [copyoutLoop]
    split
    · exact .inr ⟨0, k, rfl, H⟩
    simp only
    rcases H.lookup hi hb (pageRoundDown va) with ⟨e, hwalk⟩ | ⟨pte, hwalk, -, hdata⟩
    · rw [hwalk, error_bind]
      exact .inl ⟨e, rfl⟩
    rw [hwalk, ok_bind]
    simp only [hdata, hpage]
    cases hM : A.map (walkPage arch va) with
    | none =>
      simp only [Option.map_none, Option.getD_none]
      cases arch with
      | riscv => exact .inr ⟨-1, k, rfl, H⟩
      | loongarch =>
        have hz : Arch.toPa .loongarch 0 = 0 := by decide
        have hf := hzero rfl
        rw [hz, if_neg (by rw [Arch.toVir_loongarch]; omega)]
        exact ih _ (H.storeForeign hf (copyout_bytes (by decide) (by have := hf.1; omega) p))
    | some mp =>
      have hok := ((H.represents hi).of_some hM).2
      simp only [Option.map_some, Option.getD_some, hok.toPa]
      split
      · exact .inr ⟨-1, k, rfl, H⟩
      exact ih _ (H.storeMapped hw hi ho hM (copyout_bytes hok.aligned hok.toVir_le p))

end

end OsKernel.Mm

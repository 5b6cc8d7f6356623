import OsKernel.Mm.Buddy.Source
import OsKernel.Mm.Vmm.Map

/-! `vm_unmap` with release over the buddy allocator.  Each page is given to `free_pages`: the first
page of a block in use releases the block, and a page that starts no block has no effect. -/

namespace OsKernel.Mm

open Lib Hsai Lib.BuddySystem BuddyAllocator

/-- The blocks that start in `R` are released, and no page becomes the start of a block. -/
structure ReleasedSet (B : Blocks) (R : Nat → Prop) (B' : Blocks) : Prop where
  used : ∀ t j, B' t = some ⟨j, true⟩ ↔ B t = some ⟨j, true⟩ ∧ ¬R t
  starts : ∀ t, B t = none → B' t = none

theorem ReleasedSet.refl {B : Blocks} {R : Nat → Prop}
    (h : ∀ t j, B t = some ⟨j, true⟩ → ¬R t) : ReleasedSet B R B :=
  ⟨fun t j => ⟨fun ht => ⟨ht, h t j ht⟩, And.left⟩, fun _ => id⟩

theorem ReleasedSet.used_of {B B' : Blocks} {R : Nat → Prop} (h : ReleasedSet B R B')
    {reg : Region} {x : Nat} (hx : reg.Used B' x) : reg.Used B x := by
  obtain ⟨t, j, ht, hl, hu⟩ := hx
  exact ⟨t, j, ((h.used t j).mp ht).1, hl, hu⟩

/-- The bytes that an operation on an address space leaves alone: those of blocks in use other than
its tables. -/
def Region.Other (reg : Region) (B : Blocks) (T : Nat → Nat → Option Nat) (x : Nat) : Prop :=
  reg.Used B x ∧ ¬TableByte T x

section

variable {reg : Region} {arch : Arch} {hw : reg.InWindow arch} {k : Kernel BuddyAllocator}
  {B : Blocks} {root : Nat} {T : Nat → Nat → Option Nat} {base : Nat} {M : PageMap}

/-- The pages of tables are in use as blocks of one page, so another memory with the same bytes in
use has the same tables. -/
theorem Space.rebase (Sp : Space (buddySource reg arch hw) k B root T) {k' : Kernel BuddyAllocator}
    {B' : Blocks} (h : reg.Alloc k'.pages k'.mem B')
    (hheld : ∀ x, TableByte T x → reg.Used B' x)
    (hkeep : AgreeOn (TableByte T) k.mem k'.mem) :
    Space (buddySource reg arch hw) k' B' root T :=
  ⟨h, Sp.tables.congr hkeep, hheld⟩

/-- `k_pmm.free_pages` of a page of the region: a block in use is released, and a page that starts
no block has no effect. -/
theorem pmmFree_page {p : Nat} (h : reg.Alloc k.pages k.mem B) (hw : reg.InWindow arch)
    (hp : p < reg.pages) (hstart : B p = none ∨ ∃ j, B p = some ⟨j, true⟩) :
    ∃ r k' B', pmmFreePages buddyPages k (reg.addr p) = .ok (r, k') ∧
      reg.Alloc k'.pages k'.mem B' ∧ ReleasedSet B (· = p) B' ∧
      AgreeOn (reg.Used B') k.mem k'.mem := by
  have hpos : reg.addr p ≠ 0 := by
    have := hw.pos
    simp only [Region.addr]
    omega
  have hlt : reg.addr p < 2 ^ 64 := by
    have := Region.page_bound hp
    have := reg.end_le
    omega
  have hfill : ∀ m : Mem, fillPages m (reg.addr p) 0 = m := by
    intro m
    have : (reg.addr p + ((0 : Int) % 2 ^ 32).toNat * pageSize) % wordSize = reg.addr p := by
      unfold wordSize
      simp
      omega
    funext x
    unfold fillPages
    simp only [this, Nat.sub_self]
    exact Mem.fill_outside (by omega)
  obtain ⟨r, b', m', hrun, hcase⟩ := h.free hw.pos hp
  have hrun' : buddyPages.freePages k.pages k.mem (reg.addr p) = .ok (r, b', m') := hrun
  unfold pmmFreePages
  rw [if_neg hpos, hrun', ok_bind]
  rcases hcase with ⟨hB, rfl, rfl, rfl⟩ | ⟨j, hB, -⟩ | ⟨j, B', rfl, h', hr, hkeep⟩
  · refine ⟨0, _, B, rfl, ?_, .refl ?_, ?_⟩
    · simpa only [hfill] using h
    · rintro t i ht rfl
      rw [hB] at ht
      cases ht
    · intro x _
      simp only [hfill]
  · rcases hstart with he | ⟨i, he⟩ <;> rw [hB] at he <;> cases he
  · refine ⟨0, _, B', rfl, ?_, ⟨fun t i => ?_, hr.starts⟩, ?_⟩
    · simpa only [hfill] using h'
    · rw [hr.used, and_comm]
    · simpa only [hfill] using hkeep

/-- The kernel address of the page that an entry refers to. -/
theorem toVir_page {p : Nat} (hw : reg.InWindow arch) (hp : p < reg.pages) :
    arch.toVir (arch.toPhy (reg.addr p)) = reg.addr p := by
  have := Region.page_bound hp
  exact hw.windowed _ (by simp only [Region.addr]; omega) (by omega)

/-- The loop of `vm_unmap` with release, over `n` pages from `v` on that are mapped to different
pages of the region, each of them no start of a block or the start of a block in use that is no
table. -/
theorem unmapFree_spec (hw : reg.InWindow arch) (page flags : Nat → Nat) (n v : Nat)
    (Sp : Space (buddySource reg arch hw) k B root T) (hM : Represents arch k.mem T base M)
    (hv : PageRange arch base v n) (hlt : v + n < 2 ^ 52)
    (hmapped : ∀ w, v ≤ w → w < v + n →
      M w = some ⟨arch.toPhy (reg.addr (page w)), flags w⟩ ∧ page w < reg.pages)
    (hinj : ∀ w w', v ≤ w → w < v + n → v ≤ w' → w' < v + n → page w = page w' →
      w = w')
    (hstart : ∀ w, v ≤ w → w < v + n → B (page w) = none ∨
      ((∃ j, B (page w) = some ⟨j, true⟩) ∧ ¬IsTable T (reg.addr (page w))))
    (htable : ∀ a, IsTable T a → ∃ s, a = reg.addr s ∧ B s = some ⟨0, true⟩) :
    ∃ k' B', unmapLoop arch buddyPages ⟨root, true⟩ true n k (4096 * v) = .ok k' ∧
      Space (buddySource reg arch hw) k' B' root T ∧
      Represents arch k'.mem T base (M.unmap v n) ∧
      ReleasedSet B (fun t => ∃ w, v ≤ w ∧ w < v + n ∧ t = page w) B' ∧
      AgreeOn (reg.Other B' T) k.mem k'.mem := by
  induction n generalizing k B M v with
  | zero =>
    refine ⟨k, B, rfl, Sp, ?_, .refl ?_, fun _ _ => rfl⟩
    · have : M.unmap v 0 = M := by
        funext w
        exact if_neg (by omega)
      rwa [this]
    · rintro t j - ⟨w, hl, hu, -⟩
      omega
  | succ n ih =>
    obtain ⟨hMv, hpv⟩ := hmapped v (Nat.le_refl v) (by omega)
    obtain ⟨pte, hpte, hdata⟩ := hM.leafPte hMv
    have hok := (hM.of_some hMv).2
    have hwalk := walk_find_ok (V := buddyPages) Sp.tables
      (show leafPte T (4096 * v / 4096 % arch.vaPages) = some pte by
        rw [Nat.mul_div_cancel_left v (by decide)]; exact hpte)
    have hnext : wordAdd (4096 * v) pageSize = 4096 * (v + 1) := by
      unfold wordAdd pageSize wordSize
      omega
    have hstart' : B (page v) = none ∨ ∃ j, B (page v) = some ⟨j, true⟩ :=
      (hstart v (Nat.le_refl v) (by omega)).imp id And.left
    obtain ⟨r, k₁, B₁, hfree, hA₁, hrel, hkeep₁⟩ := pmmFree_page Sp.inv hw hpv hstart'
    -- the tables are other blocks, still in use
    have htable₁ : ∀ a, IsTable T a → ∃ s, a = reg.addr s ∧
        B₁ s = some ⟨0, true⟩ := by
      intro a ha
      obtain ⟨s, rfl, hs⟩ := htable a ha
      refine ⟨s, rfl, (hrel.used s 0).mpr ⟨hs, ?_⟩⟩
      rintro rfl
      rcases hstart v (Nat.le_refl v) (by omega) with hn | ⟨-, hnt⟩
      · rw [hn] at hs
        cases hs
      · exact hnt ha
    have hheld₁ : ∀ x, TableByte T x → reg.Used B₁ x := by
      rintro x ⟨a, ha, hl, hu⟩
      obtain ⟨s, rfl, hs⟩ := htable₁ a ha
      exact ⟨s, 0, hs, hl, by simpa using hu⟩
    have hkt : AgreeOn (TableByte T) k.mem k₁.mem := fun x hx => hkeep₁ x (hheld₁ x hx)
    have Sp₁ := Sp.rebase hA₁ hheld₁ hkt
    obtain ⟨Sp₂, hg₂, hleaf₂⟩ := Sp₁.writeLeaf hpte (d := 0) (by decide)
    have hM₂ := (hM.congr (Tables.leaf_congr hkt)).clear (hM.inSpan hMv) hleaf₂
    obtain ⟨k₃, B₃, hrun, Sp₃, hM₃, hrel₃, hkeep₃⟩ := ih (v + 1) Sp₂ hM₂
      (hv.sub (by omega) (by omega)) (by omega)
      (fun w hl hu => by
        rw [Function.update_of_ne (by omega)]
        exact hmapped w (by omega) (by omega))
      (fun w w' hl hu hl' hu' => hinj w w' (by omega) (by omega) (by omega) (by omega))
      (fun w hl hu => by
        have hne : page w ≠ page v := fun he => by
          have := hinj w v (by omega) (by omega) (by omega) (by omega) he
          omega
        rcases hstart w (by omega) (by omega) with hn | ⟨⟨j, hj⟩, hnt⟩
        · exact .inl (hrel.starts _ hn)
        · exact .inr ⟨⟨j, (hrel.used _ j).mpr ⟨hj, hne⟩⟩, hnt⟩)
      htable₁
    refine ⟨k₃, B₃, ?_, Sp₃, ?_,
      ⟨fun t j => ?_, fun t ht => hrel₃.starts t (hrel.starts t ht)⟩,
      fun x hx => ?_⟩
    · rw [unmapLoop, hwalk, ok_bind]
      simp only [if_neg (Sp.tables.leafPte_pos hpte), hdata, hok.isValid, hok.isDirPage,
        hok.toPa, toVir_page hw hpv, hfree, Bool.not_true, Bool.false_eq_true, if_false, if_true]
      rw [ok_bind, hnext]
      exact hrun
    · have : PageMap.unmap (Function.update M v none) (v + 1) n = M.unmap v (n + 1) := by
        funext w
        unfold PageMap.unmap
        by_cases hwv : w = v
        · rw [if_neg (by omega), if_pos (by omega), hwv, Function.update_self]
        · rw [Function.update_of_ne hwv]
          by_cases hw : v + 1 ≤ w ∧ w < v + 1 + n
          · rw [if_pos hw, if_pos (by omega)]
          · rw [if_neg hw, if_neg (by omega)]
      rwa [← this]
    · rw [hrel₃.used, hrel.used, and_assoc]
      refine and_congr_right fun _ => ?_
      constructor
      · rintro ⟨hne, hall⟩ ⟨w, hl, hu, rfl⟩
        by_cases hwv : w = v
        · exact hne (by rw [hwv])
        · exact hall ⟨w, by omega, by omega, rfl⟩
      · intro hall
        refine ⟨fun he => hall ⟨v, by omega, by omega, he⟩, ?_⟩
        rintro ⟨w, hl, hu, rfl⟩
        exact hall ⟨w, by omega, by omega, rfl⟩
    · have hx₁ : reg.Used B₁ x := hrel₃.used_of hx.1
      rw [hkeep₃ x hx, hg₂.keep x ⟨hx₁, hx.2⟩, hkeep₁ x hx₁]

end

end OsKernel.Mm

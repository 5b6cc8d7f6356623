import OsKernel.Mm.Vmm.Grow
import OsKernel.Pm.Model

/-! The page table of a new process: it maps the trap frame and nothing else. -/

namespace OsKernel.Pm

open Lib Hsai Mm Lib.BuddySystem BuddyAllocator

/-- The number of the page of the trap frame. -/
def trapPage : Nat := vmTrapFrame / 4096

theorem four_mul_trapPage : 4096 * trapPage = vmTrapFrame := by decide

theorem trapFlags (arch : Arch) :
    arch.mapDataPageFlags ||| arch.validFlag ||| plvFlag arch false =
      vmAllocFlags arch false false false := rfl

/-- A space that maps only the page `s`, as a trap frame. -/
structure TrapOnly (reg : Region) (arch : Arch) (A : AddrSpace) (s : Nat) : Prop where
  base : A.base = 0
  pages : ∀ v, A.pages v = if v = trapPage then some s else none
  map : ∀ v, A.map v = if v = trapPage then
    some ⟨arch.toPhy (reg.addr s), vmAllocFlags arch false false false⟩ else none

section

variable {reg : Region} {arch : Arch} {k : Kernel BuddyAllocator} {B : Blocks}
  {Base : Nat → Nat → Prop} {ι : Type} [DecidableEq ι] {W : Spaces ι} {i : ι}
  {A : AddrSpace}

theorem trapPage_range (arch : Arch) : PageRange arch 0 trapPage (2 ^ 0) := by
  cases arch <;> exact ⟨by decide, by decide, by decide⟩

/-- `_proc_create_vm`, for a trap frame that is one page held outside. -/
theorem procCreateVm_spec (H : World reg arch k B Base W) (hw : reg.InWindow arch)
    (hi : W i = none) {s : Nat} (hs : Base s 0) :
    (∃ e, procCreateVm arch buddyPages k (reg.addr s) = .error (.panic e) ∧
        reg.room B < arch.top + 1) ∨
      ∃ k' B' A', procCreateVm arch buddyPages k (reg.addr s) = .ok (⟨A'.root, true⟩, k') ∧
        World reg arch k' B' (fun t j => Base t j ∧ t ≠ s) (Function.update W i (some A')) ∧
        TrapOnly reg arch A' s ∧ reg.room B ≤ reg.room B' + arch.top + 1 ∧
        ∀ {t o}, B t = some ⟨o, true⟩ → B' t = some ⟨o, true⟩ := by
  unfold procCreateVm
  rcases H.create hw hi 0 with
      ⟨hrun, hroom⟩ | ⟨p, k₁, B₁, T₁, hrun, H₁, hused, hroom, -⟩
  · rw [hrun, error_bind]
    exact .inl ⟨_, rfl, by omega⟩
  rw [hrun, ok_bind]
  have hi₁ : Function.update W i (some ⟨p, 0, T₁, fun _ => none, fun _ => none⟩) i =
      some ⟨p, 0, T₁, fun _ => none, fun _ => none⟩ := Function.update_self ..
  have hp : p ≠ 0 := by
    obtain ⟨t, ht, -⟩ := H₁.tableBlock hi₁ ⟨_, _, (H₁.tables hi₁).radix.root⟩
    have := hw.pos
    simp only [Region.addr] at ht
    omega
  have hrun₂ := H₁.mapBlock hw hi₁ (u := trapPage)
    hs (leafFlags_vmAlloc arch false false false)
    (trapPage_range arch)
  rw [four_mul_trapPage] at hrun₂
  unfold procCreateVmOn mapDataPages
  rw [if_neg hp, trapFlags, show pageSize = 4096 * 2 ^ 0 from rfl]
  rcases hrun₂ with
      ⟨l, hrun₂, hlt⟩ | ⟨r, k₂, B₂, T₂, hrun₂, hg, hr, -, H₂, hroom₂⟩
  · rw [hrun₂, error_bind]
    exact .inl ⟨_, rfl, by omega⟩
  have htrue : r = true := hr.mpr fun _ _ _ => rfl
  subst htrue
  rw [hrun₂, ok_bind]
  have H₃ := H₂ rfl
  rw [Function.update_idem] at H₃
  obtain ⟨ps, hps, -⟩ := hg.grabs
  refine .inr ⟨k₂, B₂, _, rfl, H₃, ⟨rfl, fun v => ?_, fun v => ?_⟩, by omega, fun ht =>
    (grabs_used hps _ _).mpr (.inl (hused ht))⟩
  · by_cases hv : v = trapPage
    · subst hv
      simp
    · have : ¬(trapPage ≤ v ∧ v < trapPage + 2 ^ 0) := by omega
      simp only [if_neg this, if_neg hv]
  · by_cases hv : v = trapPage
    · subst hv
      rw [if_pos rfl]
      exact (PageMap.map_clear (fun _ _ _ => rfl) (Nat.le_refl _) (by omega)).trans (by
        rw [Nat.sub_self, H₁.target_page hw (H₁.owners.base hs) (Nat.two_pow_pos 0),
          Nat.add_zero])
    · simp only [if_neg hv]
      exact PageMap.map_outside (by omega)

end

end OsKernel.Pm

import OsKernel.Mm.Vmm.CopySpec

/-! Pages that are added to a space or copied to another one, where the allocator has enough of
them. -/

namespace OsKernel.Mm

open Lib Hsai Lib.BuddySystem BuddyAllocator

/-- The `n` pages from `v` on are pages of the space, mapped with these flags. -/
def OwnPages (reg : Region) (arch : Arch) (A : AddrSpace) (v n flags : Nat) : Prop :=
  ∀ w, v ≤ w → w < v + n → ∃ q, A.pages w = some q ∧
    A.map w = some ⟨arch.toPhy (reg.addr q), flags⟩

section

variable {reg : Region} {arch : Arch} {k : Kernel BuddyAllocator} {B : Blocks}
  {Base : Nat → Nat → Prop} {ι : Type} [DecidableEq ι] {W : Spaces ι} {i j : ι}
  {A Ai : AddrSpace} {v flags : Nat}

/-- Single pages are added to a space, one behind another. -/
theorem World.addPages (hw : reg.InWindow arch) (hf : LeafFlags arch flags) (n : Nat)
    (H : World reg arch k B Base (Function.update W i (some A)))
    (hrange : PageRange arch A.base v n) (hclear : ∀ w, v ≤ w → w < v + n → A.map w = none)
    (hroom : (arch.top + 1) * n ≤ reg.room B) :
    ∃ k' B' A', World reg arch k' B' Base (Function.update W i (some A')) ∧ A'.base = A.base ∧
      OwnPages reg arch A' v n flags ∧
      (∀ w, w < v ∨ v + n ≤ w → A'.map w = A.map w ∧ A'.pages w = A.pages w) ∧
      reg.room B ≤ reg.room B' + (arch.top + 1) * n := by
  induction n with
  | zero =>
    exact ⟨k, B, A, H, rfl, fun w hl hu => absurd hu (by omega), fun _ _ => ⟨rfl, rfl⟩, by omega⟩
  | succ n ih =>
    rw [Nat.mul_succ] at hroom
    obtain ⟨k₁, B₁, A₁, H₁, hbase, hown, hout, hroom₁⟩ :=
      ih (hrange.sub (Nat.le_refl v) (by omega)) (fun w hl hu => hclear w hl (by omega)) (by omega)
    rcases H₁.allocPage with ⟨-, h0⟩ | ⟨s, k₂, B₂, -, ha, H₂, -⟩
    · omega
    have hB₂ : B₂ s = some ⟨0, true⟩ := (ha.used s 0).mpr (.inl ⟨rfl, rfl⟩)
    have hunits := Region.room_of_alloc ha
    have hcl : A₁.map.Clear (v + n) (v + n + 2 ^ 0 - 1) := by
      intro w hl hu
      rw [(hout w (by omega)).1]
      exact hclear w (by omega) (by omega)
    rcases H₂.mapBlock hw (Function.update_self ..) (s := s) (o := 0) (.inl ⟨rfl, rfl⟩) hf
        (u := v + n) (by rw [hbase]; exact hrange.sub (by omega) (by omega)) with
      ⟨l, -, hlt⟩ | ⟨r, k₃, B₃, T₃, -, -, hr, -, H₃, hroom₃⟩
    · simp only [Nat.pow_zero, Nat.mul_one] at hlt
      omega
    have H₃ := H₃ (hr.mpr hcl)
    rw [H₁.base_cancel ha.fresh, Function.update_idem] at H₃
    simp only [Nat.pow_zero, Nat.mul_one] at hroom₃
    refine ⟨k₃, B₃, _, H₃, hbase, fun w hl hu => ?_, fun w hw' => ?_, by rw [Nat.mul_succ]; omega⟩
    · by_cases hlast : w < v + n
      · obtain ⟨q, hq, hmap⟩ := hown w hl hlast
        refine ⟨q, ?_, ?_⟩
        · simp only
          rw [if_neg (by omega), hq]
        · simp only
          rw [PageMap.map_outside (by omega), hmap]
      · obtain rfl : w = v + n := by omega
        refine ⟨s, ?_, ?_⟩
        · simp only
          rw [if_pos (by omega), Nat.sub_self, Nat.add_zero]
        · simp only
          rw [PageMap.map_clear hcl (Nat.le_refl _) (by omega), Nat.sub_self,
            H₂.target_page hw hB₂ (Nat.two_pow_pos 0), Nat.add_zero]
    · simp only
      rw [PageMap.map_outside (by omega), if_neg (by omega)]
      exact hout w (by omega)

/-- The loop of `vm_copy` copies all pages, where they are present and enough pages are left. -/
theorem CopyCall.copies {k₀ : Kernel BuddyAllocator} {B₀ : Blocks} {A₀ : AddrSpace} {n : Nat}
    (C : CopyCall reg arch k₀ B₀ Base W i j Ai A₀ v n) (hlt : v + n < 2 ^ 52)
    (hpresent : ∀ w mp, v ≤ w → w < v + n → Ai.map w = some mp →
      arch.isPresent mp.flags = true) (start rest : Nat) {m : Nat} (hrest : m + rest = n)
    (H : World reg arch k B Base (Function.update W j (some A)))
    (St : Copied reg arch Ai k₀ B₀ A₀ k B A v m)
    (hroom : (arch.top + 1) * rest ≤ reg.room B) :
    ∃ k' B' A', vmCopyLoop arch buddyPages ⟨Ai.root, true⟩ ⟨A₀.root, true⟩ start rest k
        (4096 * (v + m)) = .ok (0, k') ∧
      World reg arch k' B' Base (Function.update W j (some A')) ∧
      Copied reg arch Ai k₀ B₀ A₀ k' B' A' v n ∧
      reg.room B ≤ reg.room B' + (arch.top + 1) * rest := by
  induction rest generalizing m k B A with
  | zero =>
    obtain rfl : m = n := by omega
    exact ⟨k, B, A, rfl, H, St, by omega⟩
  | succ rest ih =>
    rw [Nat.mul_succ] at hroom
    rcases C.turn H St (by omega) start rest with
      ⟨f, -, hlow | ⟨mp, hmp, hnot⟩⟩ | ⟨h0, -⟩ | ⟨k₁, B₁, A₁, H₁, St₁, hnext, hroom₁⟩
    · omega
    · rw [hpresent _ mp (by omega) (by omega) hmp] at hnot
      cases hnot
    · omega
    · have hva : wordAdd (4096 * (v + m)) pageSize = 4096 * (v + (m + 1)) := by
        unfold wordAdd wordSize pageSize
        omega
      obtain ⟨k', B', A', hrun, H', St', hroom'⟩ := ih (by omega) H₁ St₁ (by omega)
      refine ⟨k', B', A', ?_, H', St', by rw [Nat.mul_succ]; omega⟩
      rw [hnext, hva]
      exact hrun

/-- `vm_copy` of pages that one space owns, to another one that does not map them. -/
theorem World.vmCopy_copies {n : Nat} (H : World reg arch k B Base W) (hw : reg.InWindow arch)
    (hij : i ≠ j) (hi : W i = some Ai) (hj : W j = some A)
    (hrange : PageRange arch Ai.base v n) (hrange' : PageRange arch A.base v n)
    (hlt : v + n < 2 ^ 52) (hown : OwnPages reg arch Ai v n flags)
    (hpresent : arch.isPresent flags = true)
    (hclear : ∀ w, v ≤ w → w < v + n → A.map w = none)
    (hroom : (arch.top + 1) * n ≤ reg.room B) :
    ∃ k' B' A', vmCopy arch buddyPages k ⟨Ai.root, true⟩ ⟨A.root, true⟩ (4096 * v) (4096 * n) =
        .ok (0, k') ∧ World reg arch k' B' Base (Function.update W j (some A')) ∧
      A'.root = A.root ∧ A'.base = A.base ∧ reg.room B ≤ reg.room B' + (arch.top + 1) * n := by
  have C : CopyCall reg arch k B Base W i j Ai A v n := by
    refine ⟨H, hw, hij, hi, hj, hrange, hrange', fun w hl hu => ?_, hclear,
      fun w mp x hl hu hmp hlx hux => ?_⟩
    · obtain ⟨q, -, hmap⟩ := hown w hl hu
      rw [hmap]
      exact Option.some_ne_none _
    · obtain ⟨q, hq, hmap⟩ := hown w hl hu
      rw [hmap] at hmp
      cases hmp
      rw [toVir_page hw (H.page_lt hi hq)] at hlx hux
      have := H.other_page hj hi hq hlx hux
      exact ⟨.inl this.1, this.2⟩
  have hWj : World reg arch k B Base (Function.update W j (some A)) := by
    rw [Function.update_eq_self_iff.mpr hj.symm]
    exact H
  have hal : ∀ x, isPageAlign (4096 * x) = true := fun x => isPageAlign_iff.mpr (by omega)
  have hcount : (wordAdd (4096 * v) (4096 * n) - 4096 * v) / pageSize = n := by
    unfold wordAdd wordSize pageSize
    omega
  obtain ⟨k', B', A', hrun, H', St, hroom'⟩ := C.copies hlt (fun w mp hl hu hmp => by
    obtain ⟨q, -, hmap⟩ := hown w hl hu
    rw [hmap] at hmp
    cases hmp
    exact hpresent) (4096 * v) n (Nat.zero_add n) hWj (.refl k B A v) hroom
  refine ⟨k', B', A', ?_, H', St.root, St.base, hroom'⟩
  unfold vmCopy
  simp only [hal, Bool.not_true, Bool.false_eq_true, if_false, hcount]
  exact hrun

end

end OsKernel.Mm

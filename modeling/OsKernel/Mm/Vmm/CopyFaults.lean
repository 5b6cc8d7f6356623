import OsKernel.Mm.Vmm.UserAccess

/-! How the copies between the kernel and a user fail: through a panic of the walk, or with -1; and
where `copy_in` has not failed, `copyout` does not. -/

namespace OsKernel.Mm

open Lib Hsai Lib.BuddySystem BuddyAllocator

section

variable {σ : Type} {arch : Arch} {V : VirtualPageAllocator σ} {k : Kernel σ} {pt : PageTable}

/-- A walk that does not allocate ends in a panic if it does not return. -/
theorem walkFrom_error {va level base : Nat} {e : Fault}
    (h : walkFrom arch V va false level k base = .error e) :
    ∃ message, e = .panic message := by
  induction level generalizing base with
  | zero => cases h
  | succ level ih =>
    rw [walkFrom, walkToNextLevel] at h
    split at h
    · exact ih h
    · simp only [Bool.not_false, if_true, ok_bind] at h
      cases h
      exact ⟨_, rfl⟩

theorem walk_error {va : Nat} {e : Fault} (h : walk arch V k pt va false = .error e) :
    ∃ message, e = .panic message := by
  unfold walk at h
  split at h
  · cases h
  · exact walkFrom_error h

theorem walkAddr_error {va : Nat} {e : Fault} (h : walkAddr arch V k pt va = .error e) :
    ∃ message, e = .panic message := by
  unfold walkAddr at h
  cases hw : walk arch V k pt va false with
  | error e' =>
    rw [hw] at h
    cases h
    exact walk_error hw
  | ok r =>
    rw [hw, ok_bind] at h
    simp only at h
    split at h
    · cases h
    · split at h
      · cases h
      · split at h <;> cases h

theorem copyInLoop_error {turns va len : Nat} {dst : List UInt8} {e : Fault}
    (h : copyInLoop arch V k pt turns va len dst = .error e) : ∃ message, e = .panic message := by
  induction turns generalizing va len dst with
  | zero => cases h
  | succ turns ih =>
    rw [copyInLoop] at h
    split at h
    · cases h
    · simp only at h
      cases hw : walkAddr arch V k pt (pageRoundDown va) with
      | error e' =>
        rw [hw] at h
        cases h
        exact walkAddr_error hw
      | ok pa =>
        rw [hw, ok_bind] at h
        split at h
        · cases h
        · exact ih h

theorem copyoutLoop_error {turns va : Nat} {p : List UInt8} {e : Fault}
    (h : copyoutLoop arch V pt turns k va p = .error e) : ∃ message, e = .panic message := by
  induction turns generalizing k va p with
  | zero => cases h
  | succ turns ih =>
    rw [copyoutLoop] at h
    split at h
    · cases h
    · simp only at h
      cases hw : walk arch V k pt (pageRoundDown va) false with
      | error e' =>
        rw [hw] at h
        cases h
        exact walk_error hw
      | ok r =>
        rw [hw, ok_bind] at h
        split at h
        · cases h
        · exact ih h

theorem copyPage_mod (va j : Nat) : copyPage va j % 4096 = 0 := by
  have hdown := pageRoundDown_eq va
  unfold copyPage wordAdd wordSize
  omega

theorem walkAddr_page {va pa : Nat} (hva : va % 4096 = 0) (h : walkAddr arch V k pt va = .ok pa)
    (hpa : pa ≠ 0) : pa = arch.toPa (entryOf arch V k pt va) := by
  have hoff : va &&& (pageSize - 1) = 0 := by
    rw [show pageSize - 1 = 2 ^ 12 - 1 from rfl, Nat.and_two_pow_sub_one_eq_mod]
    exact hva
  unfold walkAddr at h
  unfold entryOf
  cases hw : walk arch V k pt va false with
  | error e =>
    rw [hw] at h
    cases h
  | ok r =>
    obtain ⟨pte, k'⟩ := r
    obtain rfl := walk_state hw
    rw [hw, ok_bind] at h
    simp only [hoff, Nat.or_zero] at h
    split at h
    · exact absurd (Except.ok.inj h).symm hpa
    · split at h
      · exact absurd (Except.ok.inj h).symm hpa
      · split at h
        · exact absurd (Except.ok.inj h).symm hpa
        · exact (Except.ok.inj h).symm

/-- `copyout` to a place from which `copy_in` has read does not fail. -/
theorem World.copyout_of_copyIn {reg : Region} {arch : Arch} {k k' : Kernel BuddyAllocator}
    {B : Blocks}
    {Base : Nat → Nat → Prop} {ι : Type} {W : Spaces ι} {i : ι} {A : AddrSpace} {va : Nat}
    (H : World reg arch k B Base W) (hw : reg.InWindow arch) (hi : W i = some A) (hb : A.base = 0)
    (ho : A.Owned reg arch) (hva : va < 2 ^ 64) {p dst : List UInt8} {r r' : Int}
    (hin : copyIn arch buddyPages k ⟨A.root, true⟩ va p.length = .ok (r, dst)) (hr : 0 ≤ r)
    (hout : copyout arch buddyPages k ⟨A.root, true⟩ va p = .ok (r', k')) : 0 ≤ r' := by
  cases arch with
  | loongarch => exact Int.le_of_eq (copyoutLoop_loongarch _ _ _ hout).symm
  | riscv =>
    have hscan : (copyInLoop .riscv buddyPages k ⟨A.root, true⟩ p.length va p.length []).map
        Prod.fst =
          scan (lookIn .riscv buddyPages k ⟨A.root, true⟩ va) 0 (copyPages va p.length) 0 :=
      copyInLoop_scan p.length [] hva (Nat.le_refl _)
    rw [copyIn] at hin
    rw [hin] at hscan
    rcases scan_ok.mp hscan.symm with ⟨j, -, hstop⟩ | ⟨-, hall⟩
    · have := lookIn_stop hstop
      omega
    · have hrun := H.copyoutLoop_scan hw p.length p hi hb ho hva (Nat.le_refl _) (.inl rfl)
      rw [copyout] at hout
      rw [hout] at hrun
      rcases scan_ok.mp hrun.symm with ⟨j, hj, hstop⟩ | ⟨hr', -⟩
      · -- the page that stops `copyout` has passed `copy_in`
        have hnext := hall j (Nat.zero_le j) (by have := reached_iff.mp (comes_out.mp hj).1; omega)
        obtain ⟨pa, hpa, hnz⟩ := lookIn_next.mp hnext
        rw [walkAddr_page (copyPage_mod va j) hpa fun h0 => hnz (by rw [h0]; rfl)] at hnz
        rw [(H.lookOut_next hi hb).mpr ⟨walkAddr_ok_iff.mp ⟨pa, hpa⟩, hnz⟩] at hstop
        cases hstop
      · exact Int.le_of_eq hr'.symm

end

end OsKernel.Mm

import OsKernel.Lib.Readers
import OsKernel.Mm.Userstack.Runs
import OsKernel.Mm.Vmm.UserAccess

/-! Pushes and moves as the program on the stack sees them: the stack pointer goes down, what is
pushed is at the new one, and nothing else changes. -/

namespace OsKernel.Mm

open Lib Hsai Lib.BuddySystem BuddyAllocator

/-- The memory as the program with the page table sees it. -/
def userMem {σ : Type} (arch : Arch) (V : VirtualPageAllocator σ) (k : Kernel σ)
    (pt : PageTable) : Mem :=
  fun a => k.mem (userLoc arch V k pt a)

/-- The stack pointer has gone down from that of `s` to that of `s'`; only bytes between them
have changed. -/
structure Lowered (reg : Region) (arch : Arch) (B : Blocks) (Base : Nat → Nat → Prop)
    {ι : Type} (W : Spaces ι) (i : ι) (A : AddrSpace) (base top : Nat)
    (k : Kernel BuddyAllocator)
    (s s' : UserstackStream) (k' : Kernel BuddyAllocator) : Prop where
  space : StackSpace reg arch k' B Base W i A base top
  stack : OnStack arch buddyPages k' ⟨A.root, true⟩ base top s'
  le : s'.sp ≤ s.sp
  outside : ∀ x, (∀ a, s'.sp ≤ a → a < s.sp →
    x ≠ userLoc arch buddyPages k ⟨A.root, true⟩ a) →
    k'.mem x = k.mem x

section

variable {reg : Region} {arch : Arch} {k k₁ k' : Kernel BuddyAllocator} {B : Blocks}
  {Base : Nat → Nat → Prop} {ι : Type} {W : Spaces ι} {i : ι} {A : AddrSpace}
  {base top : Nat} {s s₁ s' : UserstackStream} {buf str cs : List UInt8}

namespace Lowered

theorem refl (C : StackSpace reg arch k B Base W i A base top)
    (I : OnStack arch buddyPages k ⟨A.root, true⟩ base top s) :
    Lowered reg arch B Base W i A base top k s s k :=
  ⟨C, I, Nat.le_refl _, fun _ _ => rfl⟩

theorem trans (h : Lowered reg arch B Base W i A base top k s s₁ k₁)
    (h' : Lowered reg arch B Base W i A base top k₁ s₁ s' k')
    (C : StackSpace reg arch k B Base W i A base top) :
    Lowered reg arch B Base W i A base top k s s' k' := by
  have hle := h.le
  have hle' := h'.le
  refine ⟨h'.space, h'.stack, hle'.trans hle, fun x hx => ?_⟩
  have hloc := C.userLoc_congr h.space
  rw [h'.outside x fun a hl hu => ?_, h.outside x fun a hl hu => hx a (by omega) hu]
  rw [hloc]
  exact hx a hl (by omega)

/-- What is above the old stack pointer stays as it is. -/
theorem above (h : Lowered reg arch B Base W i A base top k s s' k')
    (C : StackSpace reg arch k B Base W i A base top) {a : Nat} (hl : s.sp ≤ a) (hu : a < top) :
    userMem arch buddyPages k' ⟨A.root, true⟩ a =
      userMem arch buddyPages k ⟨A.root, true⟩ a := by
  have hlow := h.stack.low
  have hle := h.le
  unfold userMem
  rw [C.userLoc_congr h.space]
  apply h.outside
  intro b hb hb' heq
  have := C.loc_inj (by omega) hu (by omega) (by omega) heq
  omega

theorem holds (h : Lowered reg arch B Base W i A base top k s s' k')
    (C : StackSpace reg arch k B Base W i A base top) {a : Nat} {l : List UInt8}
    (hat : (userMem arch buddyPages k ⟨A.root, true⟩).Holds a l) (hl : s.sp ≤ a)
    (hu : a + l.length ≤ top) : (userMem arch buddyPages k' ⟨A.root, true⟩).Holds a l :=
  hat.congr fun _ hx hx' => h.above C (by omega) (by omega)

end Lowered

/-! ### Pushes -/

theorem Pushed.holds (hp : Pushed arch A base top k s buf s' k')
    (C : StackSpace reg arch k B Base W i A base top)
    (C' : StackSpace reg arch k' B Base W i A base top) (hfit : base + buf.length ≤ s.sp) :
    (userMem arch buddyPages k' ⟨A.root, true⟩).Holds s'.sp buf := by
  intro d hd
  have hsp := hp.sp
  have hin := hp.bytes.inside (s'.sp + d) (by omega) (by omega)
  unfold userMem
  rw [C.userLoc_congr C', hin, hsp, Nat.add_sub_cancel_left]
  simp [hd]

theorem Pushed.lowered (hp : Pushed arch A base top k s buf s' k')
    (C' : StackSpace reg arch k' B Base W i A base top) :
    Lowered reg arch B Base W i A base top k s s' k' := by
  refine ⟨C', hp.stack, by rw [hp.sp]; exact Nat.sub_le _ _, fun x hx => ?_⟩
  apply hp.bytes.outside
  intro a hl hu
  exact hx a (by rw [hp.sp]; exact hl) hu

/-- Characters that are pushed where there is no room for one. -/
theorem pushChars_refused {V : VirtualPageAllocator BuddyAllocator} (hsp : s.sp ≠ 0)
    (hlow : wordSub s.sp 1 < s.stackBase) (hcs : cs ≠ []) :
    s.pushChars arch V k cs = .ok ({ s with errno := .noMem }, k) := by
  induction cs generalizing s with
  | nil => exact absurd rfl hcs
  | cons c cs ih =>
    have hpush : s.push arch V k [c] = .ok ({ s with errno := .noMem }, k) := by
      rw [UserstackStream.push, if_neg hsp, List.length_singleton, if_pos hlow]
    rw [UserstackStream.pushChars, hpush, ok_bind]
    by_cases hnil : cs = []
    · subst hnil
      rfl
    · exact ih (s := { s with errno := .noMem }) hsp hlow hnil

namespace StackSpace

theorem push_lowered (C : StackSpace reg arch k B Base W i A base top)
    (I : OnStack arch buddyPages k ⟨A.root, true⟩ base top s) (hb : 0 < base) (buf : List UInt8)
    (hfit : base + buf.length ≤ s.sp) :
    ∃ s' k', s.push arch buddyPages k buf = .ok (s', k') ∧ s'.errno = .ok ∧
      s'.sp = s.sp - buf.length ∧ Lowered reg arch B Base W i A base top k s s' k' ∧
      (userMem arch buddyPages k' ⟨A.root, true⟩).Holds s'.sp buf := by
  obtain ⟨s', k', hrun, C', hp, -⟩ := C.push_fits I hfit
  refine ⟨s', k', hrun, ?_, hp.sp, hp.lowered C', hp.holds C C' hfit⟩
  have hhigh := I.high
  have hfits := C.stack.fits
  rw [UserstackStream.push, if_neg (by omega),
    if_neg (by rw [wordSub_of_le (by omega) (by omega), I.stackBase]; omega)] at hrun
  exact pushLoop_errno _ hrun

theorem pushChars_lowered (C : StackSpace reg arch k B Base W i A base top)
    (I : OnStack arch buddyPages k ⟨A.root, true⟩ base top s) (hb : 0 < base) (cs : List UInt8)
    (hcs : cs ≠ []) (hfit : base + cs.length ≤ s.sp) :
    ∃ s' k', s.pushChars arch buddyPages k cs = .ok (s', k') ∧ s'.errno = .ok ∧
      s'.sp = s.sp - cs.length ∧ Lowered reg arch B Base W i A base top k s s' k' ∧
      (userMem arch buddyPages k' ⟨A.root, true⟩).Holds s'.sp cs.reverse := by
  obtain ⟨s', k', hrun, C', hp⟩ := C.pushChars_fits cs I hfit
  refine ⟨s', k', hrun, ?_, by rw [hp.sp, List.length_reverse], hp.lowered C',
    hp.holds C C' (by rw [List.length_reverse]; exact hfit)⟩
  clear hp C'
  induction cs generalizing k s with
  | nil => exact absurd rfl hcs
  | cons c cs ih =>
    rw [List.length_cons] at hfit
    obtain ⟨s₁, k₁, hpush, herrno, hsp, h, -⟩ := C.push_lowered I hb [c]
      (by rw [List.length_singleton]; omega)
    rw [List.length_singleton] at hsp
    rw [UserstackStream.pushChars, hpush, ok_bind] at hrun
    by_cases hnil : cs = []
    · subst hnil
      cases hrun
      exact herrno
    · exact ih h.space h.stack hnil (by omega) hrun

/-- Characters that do not all fit. -/
theorem pushChars_full (C : StackSpace reg arch k B Base W i A base top)
    (I : OnStack arch buddyPages k ⟨A.root, true⟩ base top s) (hb : 0 < base) (cs : List UInt8)
    (hfull : s.sp < base + cs.length) :
    ∃ r, s.pushChars arch buddyPages k cs = .ok r ∧ r.1.errno = .noMem := by
  have hlow := I.low
  induction cs generalizing k s with
  | nil => exact absurd hfull (Nat.not_lt.mpr hlow)
  | cons c cs ih =>
    by_cases hone : base + 1 ≤ s.sp
    · rw [List.length_cons] at hfull
      obtain ⟨s₁, k₁, hpush, -, hsp, h, -⟩ := C.push_lowered I hb [c] hone
      rw [List.length_singleton] at hsp
      obtain ⟨r, hrun, herrno⟩ := ih h.space h.stack (by omega) h.stack.low
      refine ⟨r, ?_, herrno⟩
      rw [UserstackStream.pushChars, hpush, ok_bind, hrun]
    · have hhigh := I.high
      have hfits := C.stack.fits
      refine ⟨_, pushChars_refused (by omega) ?_ (List.cons_ne_nil c cs), rfl⟩
      rw [wordSub_of_le (by omega) (by omega), I.stackBase]
      omega

/-! ### Moves -/

theorem subMove_lowered (C : StackSpace reg arch k B Base W i A base top)
    (I : OnStack arch buddyPages k ⟨A.root, true⟩ base top s) (move : Nat)
    (hroom : base + move < s.sp) :
    ∃ s', s.subMove arch buddyPages k move = .ok s' ∧ s'.sp = s.sp - move ∧
      Lowered reg arch B Base W i A base top k s s' k := by
  have hhigh := I.high
  have hfits := C.stack.fits
  have hto : wordAdd s.sp (wordSub 0 move) = s.sp - move := by
    unfold wordAdd wordSub wordSize
    omega
  have habove : base < wordAdd s.sp (wordSub 0 move) := by omega
  obtain ⟨s', hrun, hsp, I'⟩ := C.addMove I habove (by omega)
  rw [hto] at hsp
  exact ⟨s', hrun, hsp, C, I', by omega, fun _ _ => rfl⟩

/-- The leaf entries of the page below the stack are in the table of its first page. -/
theorem guard_exists (C : StackSpace reg arch k B Base W i A base top) (hal : base % 4096 = 0)
    (htable : base / 4096 % 512 ≠ 0) {va : Nat} (hl : base - 4096 ≤ va) (hu : va < base) :
    LeafExists arch buddyPages k ⟨A.root, true⟩ va := by
  have hP : StackPage base top base := ⟨hal, by omega, C.stack.nonempty⟩
  obtain ⟨mp, hmp, -⟩ := C.world.leafPage C.space C.zero (C.leaf hP)
  obtain ⟨pte, hpte, -⟩ := (C.world.represents C.space).leafPte hmp
  rw [Nat.mod_mod] at hpte
  obtain ⟨t, ht, -⟩ := Option.map_eq_some_iff.mp hpte
  have hva : 512 ∣ arch.vaPages := by
    cases arch with
    | riscv => exact ⟨2 ^ 18, rfl⟩
    | loongarch => exact ⟨2 ^ 27, rfl⟩
  have hsame : va / 4096 % arch.vaPages / 512 = base / 4096 % arch.vaPages / 512 := by
    obtain ⟨n, hn⟩ := hva
    rw [hn, Nat.mod_mul_right_div_self, Nat.mod_mul_right_div_self]
    congr 1
    omega
  exact ⟨_, walk_find_ok (C.world.tables C.space) (by rw [leafPte, hsame, ht, Option.map_some])⟩

/-- A move to the end of the stack or into the page below it. -/
theorem subMove_low (C : StackSpace reg arch k B Base W i A base top)
    (I : OnStack arch buddyPages k ⟨A.root, true⟩ base top s) (hal : base % 4096 = 0)
    (htable : base / 4096 % 512 ≠ 0) (move : Nat) (hmove : move < 4096)
    (hroom : s.sp ≤ base + move) :
    ∃ s', s.subMove arch buddyPages k move = .ok s' ∧ s'.sp = s.sp - move ∧
      s'.stackBase = base := by
  have hlow := I.low
  have hhigh := I.high
  have hfits := C.stack.fits
  have hto : wordAdd s.sp (wordSub 0 move) = s.sp - move := by
    unfold wordAdd wordSub wordSize
    omega
  unfold UserstackStream.subMove UserstackStream.addMove
  simp only [hto]
  split
  · exact ⟨_, rfl, rfl, I.stackBase⟩
  unfold UserstackStream.updateCache
  split
  · next haligned =>
    have hend : s.sp - move = base := by
      have := isPageAlign_iff.mp haligned
      omega
    have hbelow : wordSub base pageSize = base - 4096 :=
      wordSub_of_le (by unfold pageSize; omega) (by omega)
    obtain ⟨pa, hpa⟩ := walkAddr_ok_iff.mpr
      (C.guard_exists hal htable (Nat.le_refl (base - 4096)) (by omega))
    simp only [I.table, hend, hbelow]
    rw [hpa]
    exact ⟨_, rfl, rfl, I.stackBase⟩
  · next hnot =>
    have hbelow : s.sp - move < base := by
      have := mt isPageAlign_iff.mpr hnot
      omega
    obtain ⟨pa, hpa⟩ := walkAddr_ok_iff.mpr
      (C.guard_exists hal htable (show base - 4096 ≤ s.sp - move by omega) hbelow)
    simp only [I.table]
    rw [hpa]
    exact ⟨_, rfl, rfl, I.stackBase⟩

end StackSpace

end

end OsKernel.Mm

import OsKernel.Mm.Vmm.CopyRoom
import OsKernel.Pm.ImageFork

/-! `fork` of a process that has a stack and nothing else: it makes a child, as long as the pages
last. -/

namespace OsKernel.Pm

open Lib Hsai Mm Lib.BuddySystem BuddyAllocator

variable {n : Nat} {reg : Region} {arch : Arch} {tramp : Nat} {init p np : Fin n}
  {s : MemState BuddyAllocator n} {k : Kernel BuddyAllocator} {B : Blocks}
  {Base : Nat → Nat → Prop} {W : Spaces (Fin n)} {A A' : AddrSpace}

/-- The pages of the user stack, with the one below it. -/
def stackPages : Nat := 1 + defaultProcUstackPages

/-- A process with a user stack, and no sections, no heap and no memory areas. -/
structure MemPcb.StackOnly (reg : Region) (arch : Arch) (p : MemPcb n) (A : AddrSpace) : Prop where
  sections : p.sections = []
  heap : p.heapPtr = p.heapStart
  heapStart : p.heapStart % 4096 = 0 ∧ p.heapStart < 2 ^ 64
  areas : ∀ i, (p.vm i).isUsed = false
  stack : OwnPages reg arch A (stackStart / 4096) stackPages (vmAllocFlags arch false true true)

theorem stack_range (arch : Arch) : PageRange arch 0 (stackStart / 4096) stackPages := by
  cases arch <;> exact ⟨by decide, by decide, by decide⟩

/-- The trap frame is above the stack. -/
theorem stack_below_trap {w : Nat} (h : w < stackStart / 4096 + stackPages) : w ≠ trapPage := by
  have : stackStart / 4096 + stackPages ≤ trapPage := by decide
  omega

theorem vmCopy_empty {σ : Type} (arch : Arch) (V : VirtualPageAllocator σ) (k : Kernel σ)
    (oldPt newPt : PageTable) {start : Nat} (hal : start % 4096 = 0) (hlt : start < 2 ^ 64) :
    vmCopy arch V k oldPt newPt start 0 = .ok (0, k) := by
  have hstart : isPageAlign start = true := isPageAlign_iff.mpr hal
  have hzero : isPageAlign 0 = true := by decide
  have hcount : (wordAdd start 0 - start) / pageSize = 0 := by
    unfold wordAdd wordSize pageSize
    omega
  unfold vmCopy
  simp only [hstart, hzero, Bool.not_true, Bool.false_eq_true, if_false, hcount]
  rfl

theorem forkVmas_unused {σ : Type} (V : VirtualPageAllocator σ) (s : MemState σ n) (usp : Nat)
    (h : ∀ i, ((s.procs p).vm i).isUsed = false) (areas : List (Fin maxVmaNum)) :
    MemState.forkVmas arch V tramp p np usp areas s = s.forkFinish arch V tramp p np usp := by
  induction areas with
  | nil => rfl
  | cons i rest ih =>
    rw [MemState.forkVmas]
    simp only [h i, Bool.false_eq_true, if_false]
    exact ih

/-- `hsai::proc_init` of a space with enough pages left. -/
theorem procInit_succeeds (K : KernelImage reg arch tramp) (H : World reg arch k B Base W)
    (hA : W np = some A) (hb : A.base = 0) (hroom : arch.top ≤ reg.room B) :
    ∃ k', procInit arch buddyPages tramp k ⟨A.root, true⟩ = .ok k' := by
  cases arch with
  | loongarch => exact ⟨k, rfl⟩
  | riscv =>
    have hflags : Arch.mapCodePageFlags .riscv ||| Arch.validFlag .riscv ||| plvFlag .riscv false =
        vmAllocFlags .riscv true false false := rfl
    unfold procInit mapCodePages
    rw [hflags]
    rcases H.mapForeign K.inWindow hA hb (leafFlags_vmAlloc .riscv true false false)
        (by decide : vmTrampoline % 4096 = 0) (by decide) K.tramp_lt (K.trampoline rfl) with
      ⟨e, -, hlt⟩ | ⟨r, k', -, -, hrun, -⟩
    · omega
    · refine ⟨k', ?_⟩
      simp only
      rw [hrun, ok_bind]

/-- The last stages of `fork`, where the pages last. -/
theorem forkStack_succeeds (K : KernelImage reg arch tramp)
    (H : World reg arch s.kernel B Base W) (hne : p ≠ np) (hA : W p = some A)
    (hsp : (s.procs p).HasSpace reg arch A)
    (hown : OwnPages reg arch A (stackStart / 4096) stackPages (vmAllocFlags arch false true true))
    (hareas : ∀ i, ((s.procs p).vm i).isUsed = false) (hA' : W np = some A')
    (hsp' : (s.procs np).HasSpace reg arch A')
    (hclear : ∀ w, w < stackStart / 4096 + stackPages → A'.map w = none)
    (hroom : (arch.top + 1) * stackPages + arch.top ≤ reg.room B) (usp : Nat) :
    ∃ k', s.forkStack arch buddyPages tramp p np usp = .ok ((s.procs np).pid,
      { s.set np fun q => { q with parent := some p, state := .runnable } with kernel := k' }) := by
  obtain ⟨k₁, B₁, A₁, hcopy, H₁, hroot, hbase, hroom₁⟩ := H.vmCopy_copies K.inWindow hne hA hA'
    (by rw [hsp.base]; exact stack_range arch) (by rw [hsp'.base]; exact stack_range arch)
    (by decide) hown (by cases arch <;> decide) (fun w _ hu => hclear w hu) (by omega)
  obtain ⟨k₂, hinit⟩ := procInit_succeeds K H₁ (Function.update_self ..) (hbase.trans hsp'.base)
    (by omega)
  rw [show 4096 * (stackStart / 4096) = stackStart by decide,
    show 4096 * stackPages = (1 + defaultProcUstackPages) * pageSize by decide] at hcopy
  unfold MemState.forkStack
  rw [hsp.pt, hsp'.pt, hcopy, ok_bind]
  simp only [Int.lt_irrefl, if_false]
  rw [forkVmas_unused buddyPages { s with kernel := k₁ } usp hareas]
  unfold MemState.forkFinish
  simp only
  rw [hsp'.pt, ← hroot, hinit, ok_bind]
  exact ⟨_, rfl⟩

/-- `fork` where a slot is free and the pages last. -/
theorem MemHolds.fork_succeeds (I : MemHolds reg arch init s B Base W)
    (K : KernelImage reg arch tramp) (hslot : s.allocSlot = some np) (hA : W p = some A)
    (hstack : (s.procs p).StackOnly reg arch A)
    (hroom : (arch.top + 1) * (stackPages + 2) ≤ reg.room B) (usp : Nat) :
    ∃ s', s.fork arch buddyPages tramp p usp = .ok (s.curPid, s') ∧
      (s'.procs np).state = .runnable ∧ (s'.procs np).parent = some p ∧
      (s'.procs np).vm = (s.procs np).vm ∧ ∀ h ≠ np, s'.procs h = s.procs h := by
  obtain ⟨hsp, hp⟩ := I.hasSpace hA
  have hne : p ≠ np := by
    rintro rfl
    exact hp (allocSlot_unused hslot)
  rw [show stackPages + 2 = stackPages + 1 + 1 from rfl, Nat.mul_succ, Nat.mul_succ] at hroom
  unfold MemState.fork
  rcases I.allocProc K.inWindow hslot (by omega) with
    ⟨e, -, hlt⟩ | ⟨s₁, B₁, Base₁, A₁, t, hrun, I₁, htrap, hnew, hother, hroom₁⟩
  · omega
  rw [hrun, ok_bind]
  have hp₁ : s₁.procs p = s.procs p := hother p hne
  simp only
  rw [hp₁, hstack.sections, MemState.forkSections]
  unfold MemState.forkHeap
  have hsize : pageRoundUp (wordSub (s.procs p).heapPtr (s.procs p).heapStart) = 0 := by
    rw [hstack.heap, wordSub_of_le (Nat.le_refl _) hstack.heapStart.2, Nat.sub_self]
    decide
  simp only [hp₁]
  rw [hsize, vmCopy_empty _ _ _ _ _ hstack.heapStart.1 hstack.heapStart.2, ok_bind]
  simp only [Int.lt_irrefl, if_false]
  -- the fields of the heap are set, and the rest is as `alloc_proc` left it
  generalize hs₂ : MemState.set _ np _ = s₂
  have hp₂ : s₂.procs p = s.procs p := by
    rw [← hs₂]
    simp only [MemState.set, Function.update_of_ne hne, hp₁]
  have hnp₂ : (s₂.procs np).pid = s.curPid ∧ (s₂.procs np).pt = ⟨A₁.root, true⟩ ∧
      (s₂.procs np).vm = (s.procs np).vm := by
    rw [← hs₂]
    simp only [MemState.set, Function.update_self, hnew]
    exact ⟨trivial, trivial, trivial⟩
  have hother₂ : ∀ h ≠ np, s₂.procs h = s.procs h := by
    intro h hh
    rw [← hs₂]
    simp only [MemState.set, Function.update_of_ne hh, hother h hh]
  have H₂ : World reg arch s₂.kernel B₁ Base₁ (Function.update W np (some A₁)) := by
    rw [← hs₂]
    exact I₁.world
  obtain ⟨k', hlast⟩ := forkStack_succeeds K H₂ hne (by rw [Function.update_of_ne hne, hA])
    (by rw [hp₂]; exact hsp) hstack.stack (by rw [hp₂]; exact hstack.areas)
    (Function.update_self ..) ⟨hnp₂.2.1, htrap.base, htrap.owned⟩
    (fun w hw => by rw [htrap.map, if_neg (stack_below_trap hw)]) (by omega) usp
  refine ⟨_, by rw [hlast, hnp₂.1], ?_, ?_, ?_, fun h hh => ?_⟩
  · simp only [MemState.set, Function.update_self]
  · simp only [MemState.set, Function.update_self]
  · simp only [MemState.set, Function.update_self, hnp₂.2.2]
  · simp only [MemState.set, Function.update_of_ne hh, hother₂ h hh]

end OsKernel.Pm

import OsKernel.Pm.ImageInv

/-! `alloc_proc` and `fork`: the new process has a space of its own at every stage, and a stage that
fails gives it back. -/

namespace OsKernel.Pm

open Lib Hsai Mm Lib.BuddySystem BuddyAllocator

/-- The child `np` of `p` is being made. -/
structure Forking {n : Nat} (reg : Region) (arch : Arch) (init p np : Fin n)
    (s : MemState BuddyAllocator n) (B : Blocks) (Base : Nat → Nat → Prop)
    (W : Spaces (Fin n)) :
    Prop where
  holds : MemHolds reg arch init s B Base W
  parent : (s.procs p).state ≠ .unused
  ne : p ≠ np
  notInit : np ≠ init
  child : (s.procs np).state = .used

variable {n : Nat} {reg : Region} {arch : Arch} {tramp : Nat} {init g p np : Fin n}
  {s s' : MemState BuddyAllocator n} {k' : Kernel BuddyAllocator} {B B' : Blocks}
  {Base Base' : Nat → Nat → Prop} {W : Spaces (Fin n)} {A A' : AddrSpace}

/-! ### `alloc_proc` -/

theorem allocSlot_unused (h : s.allocSlot = some g) : (s.procs g).state = .unused := by
  have := List.find?_some h
  simpa using this

theorem TrapOnly.owned {t : Nat} (h : TrapOnly reg arch A t) : A.Owned reg arch := by
  intro v mp hmp
  rw [h.map] at hmp
  rw [h.pages]
  split at hmp
  · rename_i hv
    rw [if_pos hv]
    exact .inl (Option.some_ne_none t)
  · cases hmp

theorem TrapOnly.single {t : Nat} (h : TrapOnly reg arch A t) (hB : B t = some ⟨0, true⟩) :
    A.Single B := by
  intro v t' hp
  rw [h.pages] at hp
  split at hp
  · cases hp
    exact hB
  · cases hp

/-- A process in a slot that was unused, with a space that maps its trap frame alone. -/
theorem MemHolds.start (I : MemHolds reg arch init s B Base W)
    (hunused : (s.procs g).state = .unused)
    {t : Nat} (H : World reg arch k' B' Base' (Function.update W g (some A)))
    (ht : TrapOnly reg arch A t) (hB : B' t = some ⟨0, true⟩)
    (hused : ∀ {u o}, B u = some ⟨o, true⟩ → B' u = some ⟨o, true⟩) {q : MemPcb n}
    (hpt : q.pt = ⟨A.root, true⟩) (htf : q.trapframe = reg.addr t) (hq : q.state = .used)
    (curPid : Nat) (last : Fin n) :
    MemHolds reg arch init ⟨Function.update s.procs g q, curPid, last, k'⟩ B' Base'
      (Function.update W g (some A)) := by
  have hinit : init ≠ g := by
    rintro rfl
    exact I.initRuns.1 hunused
  refine ⟨H, fun {h} hh => ?_, fun {h} hh => ?_, fun {h Ah} hh hz => ?_, fun {h Ah} hne hh => ?_,
    ?_⟩
  · by_cases hhg : h = g
    · simp only [hhg, Function.update_self, hq] at hh
      cases hh
    · simp only [Function.update_of_ne hhg] at hh ⊢
      exact I.unused hh
  · by_cases hhg : h = g
    · subst hhg
      simp only [Function.update_self]
      exact ⟨A, rfl, hpt, ht.base, ht.owned⟩
    · simp only [Function.update_of_ne hhg] at hh ⊢
      exact I.space hh
  · rcases Spaces.update_eq hh with ⟨rfl, rfl⟩ | ⟨hhg, hh⟩
    · simp only [Function.update_self]
      exact ⟨t, htf, by rw [ht.pages, if_pos rfl]⟩
    · simp only [Function.update_of_ne hhg] at hz ⊢
      exact I.trap hh hz
  · rcases Spaces.update_eq hh with ⟨rfl, rfl⟩ | ⟨hhg, hh⟩
    · exact ht.single hB
    · exact fun v u hu => hused (I.single hne hh v u hu)
  · simp only [Function.update_of_ne hinit]
    exact I.initRuns

/-- `alloc_proc` where a page is left for the trap frame. -/
theorem MemHolds.allocProc (I : MemHolds reg arch init s B Base W) (hw : reg.InWindow arch)
    (hslot : s.allocSlot = some g) (hroom : 0 < reg.room B) :
    (∃ e, s.allocProc arch buddyPages = .error e ∧ reg.room B ≤ arch.top + 1) ∨
      ∃ s' B' Base' A t, s.allocProc arch buddyPages = .ok (some g, s') ∧
        MemHolds reg arch init s' B' Base' (Function.update W g (some A)) ∧
        TrapOnly reg arch A t ∧ s'.procs g = { s.procs g with
          pid := s.curPid, state := .used, trapframe := reg.addr t, pt := ⟨A.root, true⟩ } ∧
        (∀ h ≠ g, s'.procs h = s.procs h) ∧ reg.room B ≤ reg.room B' + arch.top + 2 := by
  have hunused := allocSlot_unused hslot
  have hg := I.unused hunused
  unfold MemState.allocProc
  rw [hslot]
  simp only
  rcases I.world.allocPage with ⟨-, h0⟩ | ⟨t, k₁, B₁, hrun, ha, H₁, -⟩
  · omega
  rw [hrun, ok_bind]
  simp only
  have hB₁ : B₁ t = some ⟨0, true⟩ := (ha.used t 0).mpr (.inl ⟨rfl, rfl⟩)
  have hunits := Region.room_of_alloc ha
  rcases procCreateVm_spec H₁ hw hg (s := t) (.inl ⟨rfl, rfl⟩) with
    ⟨e, hvm, hlow⟩ | ⟨k₂, B₂, A, hvm, H₂, htrap, hroom₂, hused⟩
  · rw [hvm, error_bind]
    exact .inl ⟨_, rfl, by omega⟩
  rw [hvm, ok_bind]
  have hroot : A.root ≠ 0 := by
    obtain ⟨u, hu, -⟩ := H₂.tableBlock (Function.update_self ..)
      ⟨_, _, (H₂.tables (Function.update_self ..)).radix.root⟩
    have := hw.pos
    simp only [Region.addr] at hu
    omega
  simp only [if_neg hroot]
  rw [I.world.base_cancel ha.fresh] at H₂
  have I' := I.start hunused H₂ htrap (hused hB₁)
    (fun h => hused ((ha.used _ _).mpr (.inr h)))
    (q := { s.procs g with
      pid := s.curPid, state := .used, trapframe := reg.addr t, pt := ⟨A.root, true⟩ })
    rfl rfl rfl (s.curPid + 1) g
  refine .inr ⟨_, B₂, Base, A, t, rfl, ?_, htrap, ?_, fun h hne => ?_, by omega⟩
  · simpa only [MemState.takeSlot, MemState.set, Function.update_idem,
      Function.update_self] using I'
  · simp only [MemState.takeSlot, MemState.set, Function.update_self]
  · simp only [MemState.takeSlot, MemState.set, Function.update_of_ne hne]

/-! ### `fork` -/

/-- `freeproc` does not look at the state of the process. -/
theorem freeproc_state {σ : Type} (V : VirtualPageAllocator σ) (s : MemState σ n) (g : Fin n)
    (st : ProcState) (k : Kernel σ) :
    ({ s with
      kernel := k
      procs := Function.update s.procs g { s.procs g with state := st } } : MemState σ n).freeproc
        arch V g = ({ s with kernel := k } : MemState σ n).freeproc arch V g := by
  simp only [MemState.freeproc, MemState.set, Function.update_self, Function.update_idem]
  rfl

namespace Forking

theorem spaces (F : Forking reg arch init p np s B Base W) :
    ∃ Ap A, W p = some Ap ∧ (s.procs p).HasSpace reg arch Ap ∧ W np = some A ∧
      (s.procs np).HasSpace reg arch A := by
  obtain ⟨Ap, hp, hsp⟩ := F.holds.space F.parent
  obtain ⟨A, hnp, hsnp⟩ := F.holds.space (g := np) (by rw [F.child]; decide)
  exact ⟨Ap, A, hp, hsp, hnp, hsnp⟩

/-- The fields of the child other than its table, its trap frame and its state. -/
theorem set (F : Forking reg arch init p np s B Base W) {f : MemPcb n → MemPcb n}
    (hf : ∀ q, (f q).pt = q.pt ∧ (f q).trapframe = q.trapframe ∧ (f q).state = q.state) :
    Forking reg arch init p np (s.set np f) B Base W := by
  have hsame : ∀ h, ((s.set np f).procs h).pt = (s.procs h).pt ∧
      ((s.set np f).procs h).trapframe = (s.procs h).trapframe ∧
      ((s.set np f).procs h).state = (s.procs h).state := by
    intro h
    by_cases hh : h = np
    · subst hh
      simp only [MemState.set, Function.update_self]
      exact hf _
    · simp only [MemState.set, Function.update_of_ne hh]
      exact ⟨trivial, trivial, trivial⟩
  refine ⟨F.holds.congr F.holds.world (fun h => ⟨(hsame h).1, (hsame h).2.1⟩) (fun h => ?_)
    fun h => ?_, ?_, F.ne, F.notInit, ?_⟩
  · rw [(hsame h).2.2]
  · rw [(hsame h).2.2]
  · rw [(hsame p).2.2]
    exact F.parent
  · rw [(hsame np).2.2]
    exact F.child

/-- The child is given up. -/
theorem fail (F : Forking reg arch init p np s B Base W) (hw : reg.InWindow arch)
    (hnp : W np = some A) (H : World reg arch k' B' Base (Function.update W np (some A')))
    (St : SpaceStep reg arch B A B' A') (r : Int) :
    Kept reg arch init (({ s with kernel := k' } : MemState _ n).forkFail arch buddyPages np r) :=
      by
  have I := F.holds.onSpace hnp H St (q := { s.procs np with state := .zombie }) rfl (by simp)
    (fun h => absurd rfl h) fun h => absurd h F.notInit
  unfold MemState.forkFail
  rw [← freeproc_state buddyPages s np .zombie k']
  rcases I.freeproc hw (Function.update_self ..) F.notInit with
    ⟨e, hrun⟩ | ⟨s', B'', Base', hrun, I', -⟩
  · rw [hrun, error_bind]
    exact .inl ⟨e, rfl⟩
  · rw [hrun, ok_bind]
    exact I'.kept _

/-- One call of `vm_copy` from the parent to the child. -/
theorem copy (F : Forking reg arch init p np s B Base W) (hw : reg.InWindow arch) (start size : Nat)
    (r : Int) {rest : Int × Kernel BuddyAllocator →
      Except Fault (Int × MemState BuddyAllocator n)}
    (hrest : ∀ {c k' B' W'}, Forking reg arch init p np { s with kernel := k' } B' Base W' →
      Kept reg arch init (rest (c, k'))) :
    Kept reg arch init (do
      let c ← vmCopy arch buddyPages s.kernel (s.procs p).pt (s.procs np).pt start size
      if c.1 < 0 then MemState.forkFail arch buddyPages { s with kernel := c.2 } np r
        else rest c) := by
  obtain ⟨Ap, A, hp, hsp, hnp, hsnp⟩ := F.spaces
  rw [hsp.pt, hsnp.pt]
  rcases F.holds.world.copyAny hw F.ne hp hsp.base hnp hsnp.base hsnp.owned
    (F.holds.single F.notInit hnp) start size with
    ⟨e, hrun⟩ | ⟨c, k', B', A', hrun, H, St, hkeep⟩
  · rw [hrun, error_bind]
    exact .inl ⟨e, rfl⟩
  rw [hrun, ok_bind]
  simp only
  split
  · exact F.fail hw hnp H St r
  · rename_i hc
    have htrap : (s.procs np).HasTrap reg A' := by
      obtain ⟨t, ht, hpage⟩ := F.holds.trap hnp (by rw [F.child]; decide)
      exact ⟨t, ht, hkeep (by omega) _ _ hpage⟩
    have I := F.holds.onSpace hnp H St (q := s.procs np) rfl (by rw [F.child]; decide)
      (fun _ => htrap) fun h => absurd h F.notInit
    rw [Function.update_eq_self] at I
    exact hrest ⟨I, F.parent, F.ne, F.notInit, F.child⟩

/-- `hsai::proc_init` of the child. -/
theorem procInit (F : Forking reg arch init p np s B Base W) (K : KernelImage reg arch tramp) :
    (∃ e, Pm.procInit arch buddyPages tramp s.kernel (s.procs np).pt = .error e) ∨
      ∃ k' B' W', Pm.procInit arch buddyPages tramp s.kernel (s.procs np).pt = .ok k' ∧
        Forking reg arch init p np { s with kernel := k' } B' Base W' := by
  obtain ⟨Ap, A, hp, hsp, hnp, hsnp⟩ := F.spaces
  rw [hsnp.pt]
  cases arch with
  | loongarch => exact .inr ⟨s.kernel, B, W, rfl, F⟩
  | riscv =>
    have h := F.holds.world.mapForeign K.inWindow hnp hsnp.base
      (leafFlags_vmAlloc .riscv true false false) (by decide : vmTrampoline % 4096 = 0) (by decide)
      K.tramp_lt (K.trampoline rfl)
    have hflags : Arch.mapCodePageFlags .riscv ||| Arch.validFlag .riscv ||| plvFlag .riscv false =
        vmAllocFlags .riscv true false false := rfl
    unfold Pm.procInit mapCodePages
    rw [hflags]
    rcases h with ⟨e, hrun, -⟩ | ⟨r, k', B', A', hrun, H, St, hpages⟩
    · left
      refine ⟨e, ?_⟩
      simp only
      rw [hrun, error_bind]
    · have htrap : (s.procs np).HasTrap reg A' := by
        obtain ⟨t, ht, hpage⟩ := F.holds.trap hnp (by rw [F.child]; decide)
        exact ⟨t, ht, by rw [hpages, hpage]⟩
      have I := F.holds.onSpace hnp H St (q := s.procs np) rfl (by rw [F.child]; decide)
        (fun _ => htrap) fun h => absurd h F.notInit
      rw [Function.update_eq_self] at I
      refine .inr ⟨k', B', _, ?_, I, F.parent, F.ne, F.notInit, F.child⟩
      simp only
      rw [hrun, ok_bind]

/-- The end of `fork`. -/
theorem finish (F : Forking reg arch init p np s B Base W) (K : KernelImage reg arch tramp)
    (usp : Nat) : Kept reg arch init (s.forkFinish arch buddyPages tramp p np usp) := by
  unfold MemState.forkFinish
  rcases F.procInit K with ⟨e, hrun⟩ | ⟨k', B', W', hrun, F'⟩
  · rw [hrun, error_bind]
    exact .inl ⟨e, rfl⟩
  rw [hrun, ok_bind]
  obtain ⟨-, A, -, -, hnp, -⟩ := F'.spaces
  obtain ⟨t, ht, hpage⟩ := F'.holds.trap hnp (by rw [F'.child]; decide)
  -- the stores are in the trap frame of the child, which its space holds
  have H := F'.holds.world.storePage hnp hpage
    (m := if usp ≠ 0 then
        setTrapFrameUserSp arch (setTrapFrameReturnValue arch (copyTrapFrame k'.mem
          (s.procs p).trapframe (s.procs np).trapframe) (s.procs np).trapframe 0)
          (s.procs np).trapframe usp
      else setTrapFrameReturnValue arch (copyTrapFrame k'.mem (s.procs p).trapframe
        (s.procs np).trapframe) (s.procs np).trapframe 0) fun x hx => by
      simp only at ht
      rw [ht]
      split
      · rw [setTrapFrameUserSp_outside arch hx, setTrapFrameReturnValue_outside arch hx,
          copyTrapFrame_outside hx]
      · rw [setTrapFrameReturnValue_outside arch hx, copyTrapFrame_outside hx]
  have hchild : (s.procs np).state = .used := F'.child
  refine (F'.holds.congr H (fun h => ?_) (fun h => ?_) fun h => ?_).kept _ <;>
    by_cases hh : h = np
  · subst hh
    simp only [MemState.set, Function.update_self]
    exact ⟨trivial, trivial⟩
  · simp only [MemState.set, Function.update_of_ne hh]
    exact ⟨trivial, trivial⟩
  · subst hh
    simp [MemState.set, hchild]
  · simp only [MemState.set, Function.update_of_ne hh]
  · subst hh
    simp [MemState.set, hchild]
  · simp only [MemState.set, Function.update_of_ne hh]

theorem vmas (K : KernelImage reg arch tramp) (usp : Nat) (areas : List (Fin maxVmaNum))
    (F : Forking reg arch init p np s B Base W) :
    Kept reg arch init (MemState.forkVmas arch buddyPages tramp p np usp areas s) := by
  induction areas generalizing s B W with
  | nil => exact F.finish K usp
  | cons i rest ih =>
    rw [MemState.forkVmas]
    simp only
    split
    · refine F.copy K.inWindow _ _ (-3) fun F' => ?_
      refine ih (F'.set ?_)
      exact fun q => ⟨rfl, rfl, rfl⟩
    · exact ih F

theorem stack (F : Forking reg arch init p np s B Base W) (K : KernelImage reg arch tramp)
    (usp : Nat) : Kept reg arch init (s.forkStack arch buddyPages tramp p np usp) := by
  unfold MemState.forkStack
  simp only
  exact F.copy K.inWindow _ _ (-3) fun F' => vmas K usp _ F'

theorem heap (F : Forking reg arch init p np s B Base W) (K : KernelImage reg arch tramp)
    (usp : Nat) : Kept reg arch init (s.forkHeap arch buddyPages tramp p np usp) := by
  unfold MemState.forkHeap
  simp only
  refine F.copy K.inWindow _ _ (-2) fun F' => ?_
  refine stack (F'.set ?_) K usp
  exact fun q => ⟨rfl, rfl, rfl⟩

theorem sections (K : KernelImage reg arch tramp) (usp : Nat) (secs : List ProgSection)
    (F : Forking reg arch init p np s B Base W) :
    Kept reg arch init (MemState.forkSections arch buddyPages tramp p np usp secs s) := by
  induction secs generalizing s B W with
  | nil => exact F.heap K usp
  | cons sec rest ih =>
    rw [MemState.forkSections]
    simp only
    refine F.copy K.inWindow _ _ (-1) fun F' => ?_
    refine ih (F'.set ?_)
    exact fun q => ⟨rfl, rfl, rfl⟩

end Forking

/-- `fork`, where no slot is left or a page is left for the trap frame. -/
theorem MemHolds.fork (I : MemHolds reg arch init s B Base W) (K : KernelImage reg arch tramp)
    (hp : (s.procs p).state ≠ .unused) (hroom : s.allocSlot = none ∨ 0 < reg.room B)
    (usp : Nat) :
    Kept reg arch init (s.fork arch buddyPages tramp p usp) := by
  unfold MemState.fork
  cases hslot : s.allocSlot with
  | none =>
    rw [MemState.allocProc, hslot]
    exact I.kept _
  | some np =>
    have hunused := allocSlot_unused hslot
    have hne : p ≠ np := by
      rintro rfl
      exact hp hunused
    have hninit : np ≠ init := by
      rintro rfl
      exact I.initRuns.1 hunused
    rcases I.allocProc K.inWindow hslot (hroom.resolve_left (by rw [hslot]; simp)) with
      ⟨e, hrun, -⟩ | ⟨s', B', Base', A, t, hrun, I', -, hnew, hother, -⟩
    · rw [hrun, error_bind]
      exact .inl ⟨e, rfl⟩
    · rw [hrun, ok_bind]
      exact Forking.sections K usp _
        ⟨I', by rw [hother p hne]; exact hp, hne, hninit, by rw [hnew]⟩

end OsKernel.Pm

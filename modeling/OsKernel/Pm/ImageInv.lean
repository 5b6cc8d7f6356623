import OsKernel.Mm.Vmm.Freewalk
import OsKernel.Mm.Vmm.Pages
import OsKernel.Pm.CreateVm
import OsKernel.Pm.Image

/-! Every process that is in use has an address space of its own.  `fork`, `exit_proc` and `wait`
keep this; the init process may have any space, and all others have one that `fork` has made. -/

namespace OsKernel.Pm

open Lib Hsai Mm Lib.BuddySystem BuddyAllocator

/-- Where the kernel image is: the trampoline, and on LoongArch the physical page zero, are below
the memory of the allocator. -/
structure KernelImage (reg : Region) (arch : Arch) (tramp : Nat) : Prop where
  inWindow : reg.InWindow arch
  tramp_lt : tramp < 2 ^ 64
  trampoline : arch = .riscv → reg.Foreign arch (pageRoundDown (arch.toPhy tramp))
  zero : arch = .loongarch → reg.Foreign arch 0

/-- The process has the space `A`. -/
structure MemPcb.HasSpace {n : Nat} (reg : Region) (arch : Arch) (p : MemPcb n) (A : AddrSpace) :
    Prop where
  pt : p.pt = ⟨A.root, true⟩
  base : A.base = 0
  owned : A.Owned reg arch

/-- The trap frame of the process is the page that its space maps there. -/
def MemPcb.HasTrap {n : Nat} (reg : Region) (p : MemPcb n) (A : AddrSpace) : Prop :=
  ∃ t, p.trapframe = reg.addr t ∧ A.pages trapPage = some t

structure MemHolds {n : Nat} (reg : Region) (arch : Arch) (init : Fin n)
    (s : MemState BuddyAllocator n) (B : Blocks) (Base : Nat → Nat → Prop)
    (W : Spaces (Fin n)) : Prop where
  world : World reg arch s.kernel B Base W
  unused : ∀ {g}, (s.procs g).state = .unused → W g = none
  space : ∀ {g}, (s.procs g).state ≠ .unused → ∃ A, W g = some A ∧
    (s.procs g).HasSpace reg arch A
  trap : ∀ {g A}, W g = some A → (s.procs g).state ≠ .zombie → (s.procs g).HasTrap reg A
  single : ∀ {g A}, g ≠ init → W g = some A → A.Single B
  initRuns : (s.procs init).state ≠ .unused ∧ (s.procs init).state ≠ .zombie

/-- A call that panics, or that leaves every process with a space of its own. -/
def Kept {n : Nat} (reg : Region) (arch : Arch) (init : Fin n) {α : Type}
    (x : Except Fault (α × MemState BuddyAllocator n)) : Prop :=
  (∃ e, x = .error e) ∨
    ∃ r s', x = .ok (r, s') ∧ ∃ B Base W, MemHolds reg arch init s' B Base W

namespace MemHolds

variable {n : Nat} {reg : Region} {arch : Arch} {tramp : Nat} {init g p np : Fin n}
  {s s' : MemState BuddyAllocator n} {k' : Kernel BuddyAllocator} {B B' : Blocks}
  {Base Base' : Nat → Nat → Prop} {W : Spaces (Fin n)} {A A' : AddrSpace}

theorem hasSpace (I : MemHolds reg arch init s B Base W) (hg : W g = some A) :
    (s.procs g).HasSpace reg arch A ∧ (s.procs g).state ≠ .unused := by
  have hne : (s.procs g).state ≠ .unused := by
    intro h
    rw [I.unused h] at hg
    cases hg
  obtain ⟨A', hA', h⟩ := I.space hne
  rw [hg] at hA'
  cases hA'
  exact ⟨h, hne⟩

/-- Steps that change neither page tables nor trap frames. -/
theorem congr (I : MemHolds reg arch init s B Base W)
    (hk : World reg arch s'.kernel B Base W)
    (hpt : ∀ g, (s'.procs g).pt = (s.procs g).pt ∧
      (s'.procs g).trapframe = (s.procs g).trapframe)
    (hunused : ∀ g, (s'.procs g).state = .unused ↔ (s.procs g).state = .unused)
    (hzombie : ∀ g, (s'.procs g).state = .zombie ↔ (s.procs g).state = .zombie) :
    MemHolds reg arch init s' B Base W := by
  refine ⟨hk, fun h => I.unused ((hunused _).mp h), fun {g} h => ?_, fun {g A} hg h => ?_,
    I.single,
    fun h => I.initRuns.1 ((hunused _).mp h), fun h => I.initRuns.2 ((hzombie _).mp h)⟩
  · obtain ⟨A, hA, hs⟩ := I.space fun h' => h ((hunused g).mpr h')
    exact ⟨A, hA, (hpt g).1.trans hs.pt, hs.base, hs.owned⟩
  · obtain ⟨t, ht, hp⟩ := I.trap hg fun h' => h ((hzombie g).mpr h')
    exact ⟨t, (hpt g).2.trans ht, hp⟩

/-- A page that another process holds stays in use. -/
theorem others (I : MemHolds reg arch init s B Base W) (hg : W g = some A) {h : Fin n}
    {Ah : AddrSpace} (hne : h ≠ g) (hh : W h = some Ah) (hinit : h ≠ init)
    (hB : ∀ t o, B t = some ⟨o, true⟩ → (∀ v, A.pages v ≠ some t) →
      (∀ i' A'', W i' = some A'' → ¬IsTable A''.tables (reg.addr t)) →
      B' t = some ⟨o, true⟩) :
    Ah.Single B' := by
  intro v t ht
  refine hB t 0 (I.single hinit hh v t ht) (fun w hw => ?_) fun i' A'' hi' htab => ?_
  · exact hne (I.world.owners.inj ⟨Ah, hh, ht⟩ ⟨A, hg, hw⟩).1
  · exact I.world.owners.pageTable ⟨Ah, hh, ht⟩ ⟨A'', hi', htab⟩

/-- An operation on the space of one process. -/
theorem onSpace (I : MemHolds reg arch init s B Base W) (hg : W g = some A)
    (H : World reg arch k' B' Base' (Function.update W g (some A')))
    (St : SpaceStep reg arch B A B' A') {q : MemPcb n} (hpt : q.pt = (s.procs g).pt)
    (hstate : q.state ≠ .unused) (htrap : q.state ≠ .zombie → q.HasTrap reg A')
    (hinit : g = init → q.state ≠ .zombie) :
    MemHolds reg arch init { s with kernel := k', procs := Function.update s.procs g q } B' Base'
      (Function.update W g (some A')) := by
  obtain ⟨hs, -⟩ := I.hasSpace hg
  refine ⟨H, fun {h} hh => ?_, fun {h} hh => ?_, fun {h Ah} hh hz => ?_, fun {h Ah} hne hh => ?_,
    ?_, ?_⟩
  · simp only [Function.update_apply] at hh ⊢
    split at hh
    · exact absurd hh hstate
    · rename_i hne
      rw [if_neg hne]
      exact I.unused hh
  · simp only [Function.update_apply] at hh ⊢
    split
    · exact ⟨A', rfl, hpt.trans (by rw [hs.pt, St.root]), St.base.trans hs.base,
        St.owned hs.owned⟩
    · rename_i hne
      rw [if_neg hne] at hh
      exact I.space hh
  · rcases Spaces.update_eq hh with ⟨rfl, rfl⟩ | ⟨hne, hh⟩
    · simp only [Function.update_self] at hz ⊢
      exact htrap hz
    · simp only [Function.update_of_ne hne] at hz ⊢
      exact I.trap hh hz
  · rcases Spaces.update_eq hh with ⟨rfl, rfl⟩ | ⟨hneg, hh⟩
    · exact St.single (I.single hne hg)
    · exact I.others hg hneg hh hne fun t o ht hn _ => St.others t o ht hn
  · simp only [Function.update_apply]
    split
    · exact hstate
    · exact I.initRuns.1
  · simp only [Function.update_apply]
    split
    · rename_i he
      exact hinit he.symm
    · exact I.initRuns.2

/-- Stores that leave all spaces as they are. -/
theorem stored (I : MemHolds reg arch init s B Base W) (H : World reg arch k' B Base W) :
    MemHolds reg arch init { s with kernel := k' } B Base W :=
  I.congr H (fun _ => ⟨rfl, rfl⟩) (fun _ => Iff.rfl) fun _ => Iff.rfl

/-! ### `freeproc` -/

/-- A kernel operation on the space of `g` alone. -/
def SpaceRun (reg : Region) (arch : Arch) (Base : Nat → Nat → Prop) (W : Spaces (Fin n))
    (g : Fin n) (B : Blocks) (A : AddrSpace) (x : Except Fault (Kernel BuddyAllocator)) : Prop :=
  (∃ e, x = .error e) ∨
    ∃ k' B' A', x = .ok k' ∧ World reg arch k' B' Base (Function.update W g (some A')) ∧
      SpaceStep reg arch B A B' A'

theorem SpaceRun.bind {x : Except Fault (Kernel BuddyAllocator)}
    {f : Kernel BuddyAllocator → Except Fault (Kernel BuddyAllocator)}
    (h : SpaceRun reg arch Base W g B A x)
    (hf : ∀ {k' B' A'}, World reg arch k' B' Base (Function.update W g (some A')) →
      SpaceStep reg arch B A B' A' → SpaceRun reg arch Base W g B' A' (f k')) :
    SpaceRun reg arch Base W g B A (x >>= f) := by
  rcases h with ⟨e, rfl⟩ | ⟨k', B', A', rfl, H, St⟩
  · exact .inl ⟨e, rfl⟩
  · rcases hf H St with ⟨e, hrun⟩ | ⟨k'', B'', A'', hrun, H', St'⟩
    · exact .inl ⟨e, hrun⟩
    · exact .inr ⟨k'', B'', A'', hrun, H', St.trans St'⟩

/-- `vm_unmap` with release, for a space that `g` has reached in between. -/
theorem spaceRun_unmap {k : Kernel BuddyAllocator} (hw : reg.InWindow arch)
    (H : World reg arch k B Base (Function.update W g (some A))) (hb : A.base = 0)
    (ho : A.Owned reg arch) (hs : A.Single B) (va npages : Nat) :
    SpaceRun reg arch Base W g B A
      (vmUnmap arch buddyPages k ⟨A.root, true⟩ va npages true) := by
  have h := H.unmapAny hw (Function.update_self ..) hb ho hs va npages
  simp only [Function.update_idem] at h
  exact h

theorem spaceRun_sections (hw : reg.InWindow arch) (secs : List ProgSection)
    {k : Kernel BuddyAllocator} (H : World reg arch k B Base (Function.update W g (some A)))
    (hb : A.base = 0) (ho : A.Owned reg arch) (hs : A.Single B) :
    SpaceRun reg arch Base W g B A (freeSections arch buddyPages ⟨A.root, true⟩ secs k) := by
  induction secs generalizing k B A with
  | nil => exact .inr ⟨k, B, A, rfl, H, .refl B A⟩
  | cons sec rest ih =>
    refine (spaceRun_unmap hw H hb ho hs _ _).bind fun H' St => ?_
    rw [← St.root]
    exact ih H' (St.base.trans hb) (St.owned ho) (St.single hs)

/-- The spaces other than that of `g` keep single pages. -/
def OthersSingle (W : Spaces (Fin n)) (g : Fin n) (B B' : Blocks) : Prop :=
  ∀ {h Ah}, h ≠ g → W h = some Ah → Ah.Single B → Ah.Single B'

theorem othersSingle_step {k : Kernel BuddyAllocator}
    (H : World reg arch k B Base (Function.update W g (some A)))
    (St : SpaceStep reg arch B A B' A') : OthersSingle W g B B' := by
  intro h Ah hne hh hs v t ht
  refine St.others t 0 (hs v t ht) fun w hw => ?_
  have hh' : Function.update W g (some A) h = some Ah := by rwa [Function.update_of_ne hne]
  exact hne (H.owners.inj ⟨Ah, hh', ht⟩ ⟨A, Function.update_self .., hw⟩).1

theorem othersSingle_tables {k : Kernel BuddyAllocator}
    (H : World reg arch k B Base (Function.update W g (some A)))
    (hused : ∀ t o, B' t = some ⟨o, true⟩ ↔
      B t = some ⟨o, true⟩ ∧ ¬IsTable A.tables (reg.addr t)) : OthersSingle W g B B' := by
  intro h Ah hne hh hs v t ht
  refine (hused t 0).mpr ⟨hs v t ht, fun htab => ?_⟩
  have hh' : Function.update W g (some A) h = some Ah := by rwa [Function.update_of_ne hne]
  exact H.owners.pageTable ⟨Ah, hh', ht⟩ ⟨A, Function.update_self .., htab⟩

/-- `proc_free` of a space that holds no pages. -/
theorem procFree_spec {k : Kernel BuddyAllocator} (hw : reg.InWindow arch)
    (H : World reg arch k B Base (Function.update W g (some A))) (hb : A.base = 0)
    (hp : ∀ v, A.pages v = none) :
    (∃ e, procFree arch buddyPages k ⟨A.root, true⟩ = .error e) ∨
      ∃ k' A', procFree arch buddyPages k ⟨A.root, true⟩ = .ok k' ∧
        World reg arch k' B Base (Function.update W g (some A')) ∧ A'.root = A.root ∧
        A'.base = A.base := by
  cases arch with
  | riscv =>
    have h := H.unmapKeep hw (Function.update_self ..) hb hp (by decide : vmTrampoline % 4096 = 0)
      (by decide)
    rcases h with ⟨e, hrun⟩ | ⟨k', hrun, H'⟩
    · exact .inl ⟨e, hrun⟩
    · rw [Function.update_idem] at H'
      exact .inr ⟨k', _, hrun, H', rfl, rfl⟩
  | loongarch => exact .inr ⟨k, A, rfl, H, rfl, rfl⟩

/-- The end of `freeproc`: the space is given up with its tables. -/
theorem giveUp_spec {k : Kernel BuddyAllocator} (hw : reg.InWindow arch)
    (H : World reg arch k B Base (Function.update W g (some A))) (hb : A.base = 0) :
    (∃ e, (procFree arch buddyPages k ⟨A.root, true⟩ >>= fun k =>
        freewalk arch buddyPages k ⟨A.root, true⟩) = .error e) ∨
      ∃ k' B' Base', (procFree arch buddyPages k ⟨A.root, true⟩ >>= fun k =>
          freewalk arch buddyPages k ⟨A.root, true⟩) = .ok k' ∧
        World reg arch k' B' Base' (Function.update W g none) ∧ OthersSingle W g B B' := by
  have H₁ := H.disown (Function.update_self ..)
  rw [Function.update_idem] at H₁
  rcases procFree_spec hw H₁ hb fun _ =>
    rfl with ⟨e, hrun⟩ | ⟨k₂, A₂, hrun, H₂, hroot, hbase⟩
  · exact .inl ⟨e, by
      rw [show procFree arch buddyPages k ⟨A.root, true⟩ = _ from hrun, error_bind]⟩
  · rw [show procFree arch buddyPages k ⟨A.root, true⟩ = _ from hrun, ok_bind]
    obtain ⟨k', B', hwalk, H₃, hused, -⟩ := H₂.freewalk hw (Function.update_self ..)
      (hbase.trans hb)
    rw [hroot] at hwalk
    rw [Function.update_idem] at H₃
    exact .inr ⟨k', B', _, hwalk, H₃, othersSingle_tables H₂ hused⟩

theorem freeImage_spec {k : Kernel BuddyAllocator} (hw : reg.InWindow arch)
    (H : World reg arch k B Base (Function.update W g (some A))) (hb : A.base = 0)
    (ho : A.Owned reg arch) (hs : A.Single B) {p : MemPcb n} (hpt : p.pt = ⟨A.root, true⟩) :
    (∃ e, freeImage arch buddyPages p k = .error e) ∨
      ∃ k' B' Base', freeImage arch buddyPages p k = .ok k' ∧
        World reg arch k' B' Base' (Function.update W g none) ∧ OthersSingle W g B B' := by
  have hroot : A.root ≠ 0 := by
    obtain ⟨t, ht, -⟩ := H.tableBlock (Function.update_self ..)
      ⟨_, _, (H.tables (Function.update_self ..)).radix.root⟩
    have := hw.pos
    simp only [Region.addr] at ht
    omega
  have hrun : SpaceRun reg arch Base W g B A
      (freeSections arch buddyPages ⟨A.root, true⟩ p.sections k >>= fun k =>
        vmUnmap arch buddyPages k ⟨A.root, true⟩ stackStart (defaultProcUstackPages + 1)
          true >>=
          fun k => vmUnmap arch buddyPages k ⟨A.root, true⟩ p.heapStart
            (pageRoundUp (wordSub p.heapPtr p.heapStart) / pageSize) true) := by
    refine (spaceRun_sections hw p.sections H hb ho hs).bind fun H₁ St₁ => ?_
    rw [← St₁.root]
    have hb₁ := St₁.base.trans hb
    refine (spaceRun_unmap hw H₁ hb₁ (St₁.owned ho) (St₁.single hs) _ _).bind fun H₂
      St₂ => ?_
    rw [← St₂.root]
    exact spaceRun_unmap hw H₂ (St₂.base.trans hb₁) (St₂.owned (St₁.owned ho))
      (St₂.single (St₁.single hs)) _ _
  have hsplit : freeImage arch buddyPages p k =
      (freeSections arch buddyPages ⟨A.root, true⟩ p.sections k >>= fun k =>
        vmUnmap arch buddyPages k ⟨A.root, true⟩ stackStart (defaultProcUstackPages + 1)
          true >>=
          fun k => vmUnmap arch buddyPages k ⟨A.root, true⟩ p.heapStart
            (pageRoundUp (wordSub p.heapPtr p.heapStart) / pageSize) true) >>= fun k =>
      procFree arch buddyPages k ⟨A.root, true⟩ >>= fun k =>
        freewalk arch buddyPages k ⟨A.root, true⟩ := by
    unfold freeImage
    rw [hpt, if_neg hroot]
    simp only [bind_assoc]
  rw [hsplit]
  rcases hrun with ⟨e, hrun⟩ | ⟨k₁, B₁, A₁, hrun, H₁, St⟩
  · rw [hrun, error_bind]
    exact .inl ⟨e, rfl⟩
  · rw [hrun, ok_bind]
    rcases giveUp_spec hw H₁ (St.base.trans hb) with
        ⟨e, hend⟩ | ⟨k', B', Base', hend, H', hs'⟩
    · rw [St.root] at hend
      exact .inl ⟨e, hend⟩
    · rw [St.root] at hend
      exact .inr ⟨k', B', Base', hend, H', fun hne hh hsingle =>
        hs' hne hh (othersSingle_step H St hne hh hsingle)⟩

/-- `freeproc` of a process that is in use. -/
theorem freeproc (I : MemHolds reg arch init s B Base W) (hw : reg.InWindow arch)
    (hg : W g = some A) (hne : g ≠ init) :
    (∃ e, s.freeproc arch buddyPages g = .error e) ∨
      ∃ s' B' Base', s.freeproc arch buddyPages g = .ok s' ∧
        MemHolds reg arch init s' B' Base' (Function.update W g none) ∧
        ∀ h ≠ g, s'.procs h = s.procs h := by
  obtain ⟨hsp, -⟩ := I.hasSpace hg
  have hsingle := I.single hne hg
  have H : World reg arch s.kernel B Base (Function.update W g (some A)) := by
    rw [Function.update_eq_self_iff.mpr hg.symm]
    exact I.world
  unfold MemState.freeproc
  rw [hsp.pt]
  rcases spaceRun_unmap hw H hsp.base hsp.owned hsingle vmTrapFrame 1 with
    ⟨e, hrun⟩ | ⟨k₁, B₁, A₁, hrun, H₁, St⟩
  · rw [hrun, error_bind]
    exact .inl ⟨e, rfl⟩
  rw [hrun, ok_bind]
  rcases freeImage_spec hw H₁ (St.base.trans hsp.base) (St.owned hsp.owned) (St.single hsingle)
    (p := s.procs g) (by rw [hsp.pt, St.root]) with
        ⟨e, hfree⟩ | ⟨k', B', Base', hfree, H', hs'⟩
  · rw [hfree, error_bind]
    exact .inl ⟨e, rfl⟩
  rw [hfree, ok_bind]
  have hother : ∀ h ≠ g, (s.set g MemPcb.reset).procs h = s.procs h := fun h hne =>
    Function.update_of_ne hne ..
  have hself : ((s.set g MemPcb.reset).procs g).state = .unused := by
    simp only [MemState.set, Function.update_self, MemPcb.reset]
  refine .inr ⟨_, B', Base', rfl,
    ⟨H', fun {h} hh => ?_, fun {h} hh => ?_, fun {h Ah} hh hz => ?_,
    fun {h Ah} hinit hh => ?_, ?_⟩, hother⟩
  · by_cases hhg : h = g
    · rw [hhg, Function.update_self]
    · rw [Function.update_of_ne hhg]
      simp only [hother h hhg] at hh
      exact I.unused hh
  · by_cases hhg : h = g
    · rw [hhg] at hh
      exact absurd hself hh
    · simp only [hother h hhg] at hh ⊢
      rw [Function.update_of_ne hhg]
      exact I.space hh
  · by_cases hhg : h = g
    · rw [hhg, Function.update_self] at hh
      cases hh
    · simp only [hother h hhg] at hz ⊢
      rw [Function.update_of_ne hhg] at hh
      exact I.trap hh hz
  · by_cases hhg : h = g
    · rw [hhg, Function.update_self] at hh
      cases hh
    · rw [Function.update_of_ne hhg] at hh
      exact hs' hhg hh (othersSingle_step H St hhg hh (I.single hinit hh))
  · simp only [hother init hne.symm]
    exact I.initRuns

theorem kept {α : Type} (I : MemHolds reg arch init s B Base W) (r : α) :
    Kept reg arch init (.ok (r, s)) :=
  .inr ⟨r, s, rfl, B, Base, W, I⟩

/-! ### `exit_proc` -/

/-- The loop over the areas changes the space of `p` and its list of areas. -/
theorem unmapVmas_spec (hw : reg.InWindow arch) (areas : List (Fin maxVmaNum))
    (H : World reg arch s.kernel B Base (Function.update W p (some A)))
    (hsp : (s.procs p).HasSpace reg arch A) (hs : A.Single B) :
    (∃ e, MemState.unmapVmas arch buddyPages p areas s = .error e) ∨
      ∃ k' B' A' vm, MemState.unmapVmas arch buddyPages p areas s =
          .ok { s with
            kernel := k'
            procs := Function.update s.procs p { s.procs p with vm := vm } } ∧
        World reg arch k' B' Base (Function.update W p (some A')) ∧
        SpaceStep reg arch B A B' A' := by
  induction areas generalizing s B A with
  | nil =>
    refine .inr ⟨s.kernel, B, A, (s.procs p).vm, ?_, H, .refl B A⟩
    rw [MemState.unmapVmas, Function.update_eq_self]
  | cons i rest ih =>
    rw [MemState.unmapVmas]
    simp only
    split
    · have hunmap := spaceRun_unmap hw H hsp.base hsp.owned hs
        (pageRoundUp ((s.procs p).vm i).address) (ulongOfInt ((s.procs p).vm i).length / pageSize)
      rw [← hsp.pt] at hunmap
      rcases hunmap with ⟨e, hrun⟩ | ⟨k₁, B₁, A₁, hrun, H₁, St⟩
      · rw [hrun, error_bind]
        exact .inl ⟨e, rfl⟩
      rw [hrun, ok_bind]
      have hsp₁ : (((({ s with kernel := k₁ } : MemState _ n).set p fun q => { q with
          vm := Function.update q.vm i ⟨false, 0, ((s.procs p).vm i).length, none⟩ })).procs
          p).HasSpace reg arch A₁ := by
        simp only [MemState.set, Function.update_self]
        exact ⟨by rw [hsp.pt, St.root], St.base.trans hsp.base, St.owned hsp.owned⟩
      rcases ih (B := B₁) (A := A₁) H₁ hsp₁ (St.single hs) with
        ⟨e, hrest⟩ | ⟨k', B', A', vm, hrest, H', St'⟩
      · exact .inl ⟨e, hrest⟩
      · refine .inr ⟨k', B', A', vm, ?_, H', St.trans St'⟩
        rw [hrest]
        simp only [MemState.set, Function.update_self, Function.update_idem]
    · exact ih H hsp hs

/-- `exit_proc` of a process that is in use. -/
theorem exitProc (I : MemHolds reg arch init s B Base W) (hw : reg.InWindow arch)
    (hp : (s.procs p).state ≠ .unused) (state : BitVec 32) :
    (∃ e, s.exitProc arch buddyPages init p state = .error e) ∨
      ∃ s' B' W', s.exitProc arch buddyPages init p state = .ok s' ∧
        MemHolds reg arch init s' B' Base W' := by
  unfold MemState.exitProc
  by_cases hinit : p = init
  · rw [if_pos hinit]
    exact .inl ⟨_, rfl⟩
  rw [if_neg hinit]
  obtain ⟨A, hA, hsp⟩ := I.space hp
  have H : World reg arch s.kernel B Base (Function.update W p (some A)) := by
    rw [Function.update_eq_self_iff.mpr hA.symm]
    exact I.world
  rcases unmapVmas_spec hw (List.finRange maxVmaNum) H hsp (I.single hinit hA) with
    ⟨e, hrun⟩ | ⟨k', B', A', vm, hrun, H', St⟩
  · rw [hrun, error_bind]
    exact .inl ⟨e, rfl⟩
  rw [hrun, ok_bind]
  have I' := I.onSpace hA H' St (q := { s.procs p with vm := vm, state := .zombie }) rfl (by simp)
    (fun h => absurd rfl h) fun h => absurd h hinit
  refine .inr ⟨_, B', _, rfl, I'.congr H' (fun h => ?_) (fun h => ?_) fun h => ?_⟩ <;>
    by_cases hh : h = p
  · subst hh
    simp only [MemState.becomeZombie, if_true, Function.update_self]
    exact ⟨trivial, trivial⟩
  · simp only [MemState.becomeZombie, if_neg hh, Function.update_of_ne hh]
    exact ⟨trivial, trivial⟩
  · subst hh
    simp [MemState.becomeZombie]
  · simp only [MemState.becomeZombie, if_neg hh, Function.update_of_ne hh]
    split
    · rename_i hc
      simp [hc.1]
    · rfl
  · subst hh
    simp [MemState.becomeZombie]
  · simp only [MemState.becomeZombie, if_neg hh, Function.update_of_ne hh]
    split
    · rename_i hc
      simp [hc.1]
    · rfl

/-! ### `wait` -/

/-- `copyout` to the space of a process. -/
theorem copyout (I : MemHolds reg arch init s B Base W) (K : KernelImage reg arch tramp)
    (hp : (s.procs p).state ≠ .unused) (va : Nat) (bytes : List UInt8) :
    (∃ e, Mm.copyout arch buddyPages s.kernel (s.procs p).pt va bytes = .error e) ∨
      ∃ r k', Mm.copyout arch buddyPages s.kernel (s.procs p).pt va bytes = .ok (r, k') ∧
        MemHolds reg arch init { s with kernel := k' } B Base W := by
  obtain ⟨A, hA, hsp⟩ := I.space hp
  rw [hsp.pt]
  unfold Mm.copyout
  refine (World.copyoutLoopAny K.inWindow K.zero bytes.length bytes I.world hA hsp.base
    hsp.owned).imp id ?_
  rintro ⟨r, k', hrun, H⟩
  exact ⟨r, k', hrun, I.stored H⟩

/-- A zombie is given back. -/
theorem reap (I : MemHolds reg arch init s B Base W) (hw : reg.InWindow arch)
    (hz : (s.procs np).state = .zombie) (pid : Int) :
    Kept reg arch init (do
      let s ← s.freeproc arch buddyPages np
      .ok (some pid, s)) := by
  obtain ⟨A, hA, -⟩ := I.space (g := np) (by rw [hz]; decide)
  have hninit : np ≠ init := by
    rintro rfl
    exact I.initRuns.2 hz
  rcases I.freeproc hw hA hninit with ⟨e, hrun⟩ | ⟨s', B', Base', hrun, I', -⟩
  · rw [hrun, error_bind]
    exact .inl ⟨e, rfl⟩
  · rw [hrun, ok_bind]
    exact I'.kept _

/-- One turn of the loop of `wait` of a process that runs. -/
theorem waitTurn (I : MemHolds reg arch init s B Base W) (K : KernelImage reg arch tramp)
    (hp : (s.procs p).state = .running) (childPid : Int) (addr : Nat) :
    Kept reg arch init (s.waitTurn arch buddyPages p childPid addr) := by
  unfold MemState.waitTurn
  split
  · rename_i np hnp
    have hz : (s.procs np).state = .zombie := by simpa using List.find?_some hnp
    simp only
    split
    · rcases I.copyout K (p := p) (by rw [hp]; decide) addr ((List.range 4).map fun i =>
        UInt8.ofNat ((s.procs np).xstate.toNat / 256 ^ i)) with
            ⟨e, hrun⟩ | ⟨r, k', hrun, I'⟩
      · rw [hrun, error_bind]
        exact .inl ⟨e, rfl⟩
      · rw [hrun, ok_bind]
        simp only
        split
        · exact I'.kept _
        · exact I'.reap K.inWindow hz _
    · exact I.reap K.inWindow hz _
  · split
    · exact I.kept _
    · refine MemHolds.kept (s := s.set p _)
        (I.congr I.world (fun h => ?_) (fun h => ?_) fun h => ?_) _ <;> by_cases hh : h = p
      · subst hh
        simp only [MemState.set, Function.update_self]
        exact ⟨trivial, trivial⟩
      · simp only [MemState.set, Function.update_of_ne hh]
        exact ⟨trivial, trivial⟩
      · subst hh
        simp [MemState.set, hp]
      · simp only [MemState.set, Function.update_of_ne hh]
      · subst hh
        simp [MemState.set, hp]
      · simp only [MemState.set, Function.update_of_ne hh]

end MemHolds

end OsKernel.Pm

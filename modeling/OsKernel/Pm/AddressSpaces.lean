import OsKernel.Pm.ForkSuccess

/-! Runs of `fork`, `clone`, `exit_proc` and `wait`.  As long as no thread is made, every process
keeps its address space: what its page table reaches is in use and belongs to it alone. -/

namespace OsKernel.Pm

open Lib Hsai Mm Lib.BuddySystem BuddyAllocator

/-! ### What a page table reaches -/

/-- The table at `a` is reached from the table at `root`, as the one at level `l` with the
prefix `q`. -/
inductive TableAt (arch : Arch) (m : Mem) (root : Nat) : Nat → Nat → Nat → Prop
  | root : TableAt arch m root arch.top 0 root
  | entry {l q a i b : Nat} : TableAt arch m root (l + 1) q a → i < 512 →
      dirEntry arch m a i = some b → TableAt arch m root l (512 * q + i) b

/-- A place in the tree of a page table. -/
inductive Spot where
  | table (l q : Nat)
  | page (v : Nat)

/-- The page at `a` is at this place below the table at `root`. -/
def Reaches (arch : Arch) (m : Mem) (root : Nat) : Spot → Nat → Prop
  | .table l q, a => TableAt arch m root l q a
  | .page v, a => ∃ b, TableAt arch m root 0 (v / 512) b ∧
      arch.isValid (pteData m (b + 8 * (v % 512))) = true ∧
      a = arch.toVir (arch.toPa (pteData m (b + 8 * (v % 512))))

/-- The address `a` is in a block of the allocator that is in use, or in one that is free. -/
def InBlock (k : Kernel BuddyAllocator) (used : Bool) (a : Nat) : Prop :=
  ∃ s o, k.blocks s = some ⟨o, used⟩ ∧ k.pages.pageAddr s ≤ a ∧
    a < k.pages.pageAddr s + 4096 * 2 ^ o

/-- No process loses its address space: the allocator is sound, what the page table of a process
reaches is not free, no page in use has two places, so that it is released at most once, and a
process that may run has its trap frame where its page table has it. -/
structure SpacesKept {n : Nat} (reg : Region) (arch : Arch) (s : MemState BuddyAllocator n) :
    Prop where
  sound : ∃ B, reg.Alloc s.kernel.pages s.kernel.mem B
  inUse : ∀ {g spot a}, (s.procs g).state ≠ .unused →
    Reaches arch s.kernel.mem (s.procs g).pt.baseAddr spot a → ¬InBlock s.kernel false a
  once : ∀ {g h spot spot' a}, (s.procs g).state ≠ .unused → (s.procs h).state ≠ .unused →
    Reaches arch s.kernel.mem (s.procs g).pt.baseAddr spot a →
    Reaches arch s.kernel.mem (s.procs h).pt.baseAddr spot' a → InBlock s.kernel true a →
    g = h ∧ spot = spot'
  trap : ∀ {g}, (s.procs g).state = .runnable →
    Reaches arch s.kernel.mem (s.procs g).pt.baseAddr (.page trapPage) (s.procs g).trapframe

/-! ### Runs -/

inductive MemEvent (n : Nat) where
  | fork (p : Fin n) (usp : Nat)
  | clone (p : Fin n) (flags childStack parentTid tls : Nat)
  | exit (p : Fin n) (state : BitVec 32)
  | wait (p : Fin n) (childPid : Int) (addr : Nat)
  | waitAgain (p : Fin n) (childPid : Int) (addr : Nat)
  | run (p : Fin n)
  | yield (p : Fin n)

/-- One call of a process that runs, or one decision of the scheduler.  A call that panics has no
successor. -/
inductive MemStep {σ : Type} {n : Nat} (arch : Arch) (V : VirtualPageAllocator σ) (tramp : Nat)
    (init : Fin n) : MemEvent n → MemState σ n → MemState σ n → Prop
  | fork {s s' p usp r} : (s.procs p).state = .running →
      s.fork arch V tramp p usp = .ok (r, s') → MemStep arch V tramp init (.fork p usp) s s'
  | clone {s s' p flags stack tid tls r} : (s.procs p).state = .running →
      s.clone arch V tramp p flags stack tid tls = .ok (r, s') →
      MemStep arch V tramp init (.clone p flags stack tid tls) s s'
  | exit {s s' p state} : (s.procs p).state = .running →
      s.exitProc arch V init p state = .ok s' → MemStep arch V tramp init (.exit p state) s s'
  | wait {s s' p childPid addr r} : (s.procs p).state = .running →
      s.wait arch V p childPid addr = .ok (r, s') →
      MemStep arch V tramp init (.wait p childPid addr) s s'
  | waitAgain {s s' p childPid addr r} : (s.procs p).state = .running →
      s.waitTurn arch V p childPid addr = .ok (r, s') →
      MemStep arch V tramp init (.waitAgain p childPid addr) s s'
  | run {s p} : (s.procs p).state = .runnable →
      MemStep arch V tramp init (.run p) s (s.set p fun q => { q with state := .running })
  | yield {s p} : (s.procs p).state = .running →
      MemStep arch V tramp init (.yield p) s (s.set p fun q => { q with state := .runnable })

/-- The runs from `s₀` whose steps all meet the condition `Ok`. -/
inductive MemRun {σ : Type} {n : Nat} (arch : Arch) (V : VirtualPageAllocator σ) (tramp : Nat)
    (init : Fin n) (Ok : MemState σ n → MemEvent n → Prop) (s₀ : MemState σ n) :
    MemState σ n → Prop
  | refl : MemRun arch V tramp init Ok s₀ s₀
  | step {s s' e} : MemRun arch V tramp init Ok s₀ s → Ok s e →
      MemStep arch V tramp init e s s' → MemRun arch V tramp init Ok s₀ s'

/-- The first process alone, with any address space. -/
structure MemStarted {n : Nat} (reg : Region) (arch : Arch) (tramp : Nat) (init : Fin n)
    (s : MemState BuddyAllocator n) : Prop where
  image : KernelImage reg arch tramp
  alone : ∀ {g}, (s.procs g).state ≠ .unused → g = init
  runs : (s.procs init).state = .running
  space : ∃ B Base A,
    World reg arch s.kernel B Base (Function.update (fun _ => none) init (some A)) ∧
      (s.procs init).HasSpace reg arch A ∧ (s.procs init).HasTrap reg A

/-- No thread is made, and a page is left for the trap frame of a new process. -/
def MakesNoThread {n : Nat} (reg : Region) (s : MemState BuddyAllocator n) : MemEvent n → Prop
  | .fork _ _ => s.allocSlot = none ∨ 0 < reg.room s.kernel.blocks
  | .clone _ flags _ _ _ => s.allocSlot = none ∨
      (flags &&& MemState.cloneThread = 0 ∧ 0 < reg.room s.kernel.blocks)
  | _ => True

section

variable {n : Nat} {reg : Region} {arch : Arch} {tramp : Nat} {init : Fin n}
  {s s' s₀ : MemState BuddyAllocator n} {k : Kernel BuddyAllocator} {B : Blocks}
  {Base : Nat → Nat → Prop} {W : Spaces (Fin n)} {A : AddrSpace} {e : MemEvent n} {g : Fin n}

theorem TableAt.of_tables {m : Mem} {root l q a : Nat} {T : Nat → Nat → Option Nat}
    (HT : Mm.Tables arch m root T) (h : TableAt arch m root l q a) : T l q = some a := by
  induction h with
  | root => exact HT.radix.root
  | entry _ hi hb ih => rw [← hb, HT.radix.dir ih hi]

/-- A page below the table of a space: it is mapped there. -/
theorem Reaches.mapping (H : World reg arch k B Base W) (hg : W g = some A) (hb : A.base = 0)
    {v a : Nat} (h : Reaches arch k.mem A.root (.page v) a) :
    ∃ mp, A.map v = some mp ∧ a = arch.toVir mp.page := by
  obtain ⟨b, hb', hval, rfl⟩ := h
  have HT := H.tables hg
  have htab := hb'.of_tables HT
  have hpte : leafPte A.tables v = some (b + 8 * (v % 512)) := by simp [leafPte, htab]
  have hlt : v < arch.vaPages := by
    have hq := (HT.radix.below_root htab).2
    rw [Nat.sub_zero] at hq
    have := Nat.lt_of_div_eq_zero (Nat.pow_pos (by decide)) hq
    have hpow : arch.vaPages = 512 ^ arch.top * 512 := Nat.pow_succ ..
    omega
  have hR := H.represents hg v
  rw [Nat.mod_eq_of_lt hlt, leafData_of_pte hpte] at hR
  cases hM : A.map v with
  | none =>
    rw [hM] at hR
    simp only at hR
    rw [hR ⟨by omega, by omega⟩, Arch.isValid_zero] at hval
    cases hval
  | some mp =>
    rw [hM] at hR
    exact ⟨mp, rfl, by rw [hR.2.1, hR.2.2.toPa]⟩

theorem TableAt.of_eq {m : Mem} {root : Nat} {T : Nat → Nat → Option Nat}
    (HT : Mm.Tables arch m root T) (d : Nat) {l q a : Nat} (hd : l + d = arch.top)
    (h : T l q = some a) : TableAt arch m root l q a := by
  induction d generalizing l q a with
  | zero =>
    have hl : l = arch.top := hd
    subst hl
    have hq := (HT.radix.range h).2 rfl
    subst hq
    rw [HT.radix.root] at h
    cases h
    exact .root
  | succ d ih =>
    obtain ⟨b, hb⟩ := HT.radix.closed h (by omega)
    have hmod : q % 512 < 512 := Nat.mod_lt _ (by decide)
    have hdir := HT.radix.dir hb hmod
    rw [Nat.div_add_mod, h] at hdir
    have := TableAt.entry (ih (by omega) hb) hmod hdir
    rwa [Nat.div_add_mod] at this

/-- The space has the page `p` of the region at this place. -/
def Spot.Holds (reg : Region) (A : AddrSpace) : Spot → Nat → Prop
  | .table l q, p => A.tables l q = some (reg.addr p)
  | .page v, p => A.pages v = some p

/-- What the table of a space reaches is a page that the space has, or a page of the
kernel image. -/
theorem Reaches.holds (H : World reg arch k B Base W) (hw : reg.InWindow arch) (hg : W g = some A)
    (hb : A.base = 0) (ho : A.Owned reg arch) {spot : Spot} {a : Nat}
    (h : Reaches arch k.mem A.root spot a) :
    (∃ p, a = reg.addr p ∧ spot.Holds reg A p) ∨ a < reg.mem := by
  cases spot with
  | table l q =>
    have htab := TableAt.of_tables (H.tables hg) h
    obtain ⟨p, rfl⟩ := H.tableAddr hg ⟨l, q, htab⟩
    exact .inl ⟨p, rfl, htab⟩
  | page v =>
    obtain ⟨mp, hmp, rfl⟩ := h.mapping H hg hb
    cases hp : A.pages v with
    | none =>
      have := ((ho v mp hmp).resolve_left (not_not.mpr hp)).1
      exact .inr (by omega)
    | some p =>
      obtain ⟨f, hf⟩ := H.mapped hg hp
      rw [hmp] at hf
      cases hf
      exact .inl ⟨p, toVir_page hw (H.page_lt hg hp), hp⟩

/-- A page that a space has is in a block in use. -/
theorem Spot.Holds.block (H : World reg arch k B Base W) (hg : W g = some A) {spot : Spot} {p : Nat}
    (h : spot.Holds reg A p) : ∃ s o d, B s = some ⟨o, true⟩ ∧ p = s + d ∧ d < 2 ^ o := by
  cases spot with
  | table l q => exact ⟨p, 0, 0, H.owners.table ⟨A, hg, l, q, h⟩, rfl, Nat.two_pow_pos 0⟩
  | page v =>
    obtain ⟨s, o, d, hs, hp, hd, -⟩ := H.page_block hg h
    exact ⟨s, o, d, hs, hp, hd⟩

/-- A page has one place in one space. -/
theorem Spot.Holds.unique (H : World reg arch k B Base W) {h : Fin n} {A' : AddrSpace}
    (hg : W g = some A) (hh : W h = some A') {spot spot' : Spot} {p : Nat}
    (hs : spot.Holds reg A p) (hs' : spot'.Holds reg A' p) : g = h ∧ spot = spot' := by
  cases spot with
  | table l q =>
    cases spot' with
    | table l' q' =>
      have he := H.owners.tableApart ⟨A, hg, l, q, hs⟩ ⟨A', hh, l', q', hs'⟩
      subst he
      rw [hg] at hh
      cases hh
      obtain ⟨rfl, rfl⟩ := (H.tables hg).radix.inj hs hs'
      exact ⟨rfl, rfl⟩
    | page v => exact (H.owners.pageTable ⟨A', hh, hs'⟩ ⟨A, hg, l, q, hs⟩).elim
  | page v =>
    cases spot' with
    | table l q => exact (H.owners.pageTable ⟨A, hg, hs⟩ ⟨A', hh, l, q, hs'⟩).elim
    | page v' =>
      obtain ⟨he, hv⟩ := H.owners.inj ⟨A, hg, hs⟩ ⟨A', hh, hs'⟩
      exact ⟨he, by rw [hv]⟩

theorem InBlock.of_alloc {used : Bool} {a : Nat} (h : reg.Alloc k.pages k.mem B)
    (hb : InBlock k used a) :
    ∃ s o, B s = some ⟨o, used⟩ ∧ reg.addr s ≤ a ∧ a < reg.addr s + 4096 * 2 ^ o := by
  obtain ⟨s, o, hs, hl, hu⟩ := hb
  rw [h.pageAddr_eq] at hl hu
  rw [show k.blocks = B from h.inv.rep.blocks_eq] at hs
  exact ⟨s, o, hs, hl, hu⟩

/-- The address spaces of the processes, from what the kernel keeps about them. -/
theorem MemHolds.spacesKept (I : MemHolds reg arch init s B Base W) (hw : reg.InWindow arch) :
    SpacesKept reg arch s := by
  have H := I.world
  refine ⟨⟨B, H.alloc⟩, fun {g spot a} hg hr hfree => ?_,
    fun {g h spot spot' a} hg hh hr hr' hused => ?_,
    fun {g} hg => ?_⟩
  · obtain ⟨A, hA, hsp⟩ := I.space hg
    rw [hsp.pt] at hr
    obtain ⟨s', o', hs', hl', hu'⟩ := hfree.of_alloc H.alloc
    rcases hr.holds H hw hA hsp.base hsp.owned with ⟨p, rfl, hp⟩ | hlow
    · obtain ⟨t, o, d, ht, rfl, hd⟩ := hp.block H hA
      have heq := H.alloc.inv.rep.part.eq_of_mem hs' ht
        (Region.addr_page hl' hu') (Region.addr_page (x := reg.addr (t + d))
          (by simp only [Region.addr]; omega) (by simp only [Region.addr]; omega))
      rw [heq, ht] at hs'
      cases hs'
    · simp only [Region.addr] at hl'
      omega
  · obtain ⟨A, hA, hsp⟩ := I.space hg
    obtain ⟨A', hA', hsp'⟩ := I.space hh
    rw [hsp.pt] at hr
    rw [hsp'.pt] at hr'
    obtain ⟨s', o', -, hl', -⟩ := hused.of_alloc H.alloc
    have hge : ¬a < reg.mem := by
      simp only [Region.addr] at hl'
      omega
    obtain ⟨p, rfl, hp⟩ := (hr.holds H hw hA hsp.base hsp.owned).resolve_right hge
    obtain ⟨p', hpp, hp'⟩ := (hr'.holds H hw hA' hsp'.base hsp'.owned).resolve_right hge
    cases Region.addr_inj hpp
    exact hp.unique H hA hA' hp'
  · obtain ⟨A, hA, hsp⟩ := I.space (g := g) (by rw [hg]; decide)
    obtain ⟨t, ht, hpage⟩ := I.trap hA (by rw [hg]; decide)
    obtain ⟨f, hf⟩ := H.mapped hA hpage
    have hR := H.represents hA
    obtain ⟨pte, hpte, hdata⟩ := hR.leafPte hf
    have hok := (hR.of_some hf).2
    have hmod : trapPage % arch.vaPages = trapPage := by cases arch <;> decide
    rw [hmod] at hpte
    obtain ⟨b, hb, rfl⟩ := Option.map_eq_some_iff.mp hpte
    rw [hsp.pt, ht]
    refine ⟨b, TableAt.of_eq (H.tables hA) arch.top (by omega) hb, ?_, ?_⟩
    · rw [hdata, hok.isValid]
    · rw [hdata, hok.toPa]
      exact (toVir_page hw (H.page_lt hA hpage)).symm

theorem MemStarted.holdsWith (h : MemStarted reg arch tramp init s)
    (H : World reg arch s.kernel B Base (Function.update (fun _ => none) init (some A)))
    (hsp : (s.procs init).HasSpace reg arch A) (htrap : (s.procs init).HasTrap reg A) :
    MemHolds reg arch init s B Base (Function.update (fun _ => none) init (some A)) := by
  have hW : ∀ {g A'}, Function.update (fun _ => none) init (some A) g = some A' →
      g = init ∧ A' = A := fun hg => by
    rcases Spaces.update_eq hg with h | ⟨-, h⟩
    · exact h
    · cases h
  refine ⟨H, fun {g} hg => ?_, fun {g} hg => ?_, fun {g A'} hg _ => ?_,
    fun {g A'} hne hg => absurd (hW hg).1 hne, by rw [h.runs]; decide, by rw [h.runs]; decide⟩
  · refine Function.update_of_ne ?_ ..
    rintro rfl
    rw [h.runs] at hg
    cases hg
  · cases h.alone hg
    exact ⟨A, Function.update_self .., hsp⟩
  · obtain ⟨rfl, rfl⟩ := hW hg
    exact htrap

theorem MemStarted.holds (h : MemStarted reg arch tramp init s) :
    ∃ B Base W, MemHolds reg arch init s B Base W := by
  obtain ⟨B, Base, A, H, hsp, htrap⟩ := h.space
  exact ⟨B, Base, _, h.holdsWith H hsp htrap⟩

/-- The state of one process that is neither unused nor a zombie becomes another such state. -/
theorem MemHolds.setState (I : MemHolds reg arch init s B Base W) {p : Fin n} {st : ProcState}
    (hp : (s.procs p).state ≠ .unused ∧ (s.procs p).state ≠ .zombie)
    (hst : st ≠ .unused ∧ st ≠ .zombie) :
    MemHolds reg arch init (s.set p fun q => { q with state := st }) B Base W := by
  refine I.congr I.world (fun h => ?_) (fun h => ?_) fun h => ?_ <;> by_cases hh : h = p
  · subst hh
    simp only [MemState.set, Function.update_self]
    exact ⟨trivial, trivial⟩
  · simp only [MemState.set, Function.update_of_ne hh]
    exact ⟨trivial, trivial⟩
  · subst hh
    simp [MemState.set, hp.1, hst.1]
  · simp only [MemState.set, Function.update_of_ne hh]
  · subst hh
    simp [MemState.set, hp.2, hst.2]
  · simp only [MemState.set, Function.update_of_ne hh]

theorem Kept.of_ok {α : Type} {x : Except Fault (α × MemState BuddyAllocator n)} {r : α}
    (h : Kept reg arch init x) (hx : x = .ok (r, s)) : ∃ B Base W,
      MemHolds reg arch init s B Base W := by
  rcases h with ⟨e, he⟩ | ⟨r', s', hs, hI⟩
  · rw [hx] at he
    cases he
  · rw [hx] at hs
    cases hs
    exact hI

/-- One step keeps the spaces apart. -/
theorem MemHolds.step (I : MemHolds reg arch init s B Base W) (K : KernelImage reg arch tramp)
    (hok : MakesNoThread reg s e) (hstep : MemStep arch buddyPages tramp init e s s') :
    ∃ B' Base' W', MemHolds reg arch init s' B' Base' W' := by
  have hblocks : s.kernel.blocks = B := I.world.alloc.inv.rep.blocks_eq
  have hlive : ∀ {p : Fin n}, (s.procs p).state = .running → (s.procs p).state ≠ .unused :=
    fun h => by rw [h]; decide
  cases hstep with
  | fork hp hrun =>
    rw [MakesNoThread, hblocks] at hok
    exact (I.fork K (hlive hp) hok _).of_ok hrun
  | clone hp hrun =>
    rw [MakesNoThread, hblocks] at hok
    unfold MemState.clone at hrun
    rcases hok with hslot | ⟨hflags, hroom⟩
    · split at hrun
      · rw [MemState.cloneThreadOf, MemState.allocThread, hslot] at hrun
        cases hrun
        exact ⟨B, Base, W, I⟩
      · exact (I.fork K (hlive hp) (.inl hslot) _).of_ok hrun
    · rw [if_neg (not_not.mpr hflags)] at hrun
      exact (I.fork K (hlive hp) (.inr hroom) _).of_ok hrun
  | exit hp hrun =>
    rcases I.exitProc K.inWindow (hlive hp) _ with ⟨e, he⟩ | ⟨s'', B', W', hs, I'⟩
    · rw [hrun] at he
      cases he
    · rw [hrun] at hs
      cases hs
      exact ⟨B', Base, W', I'⟩
  | wait hp hrun =>
    unfold MemState.wait at hrun
    split at hrun
    · cases hrun
      exact ⟨B, Base, W, I⟩
    · exact (I.waitTurn K hp _ _).of_ok hrun
  | waitAgain hp hrun => exact (I.waitTurn K hp _ _).of_ok hrun
  | run hp => exact ⟨B, Base, W, I.setState (by rw [hp]; decide) (by decide)⟩
  | yield hp => exact ⟨B, Base, W, I.setState (by rw [hp]; decide) (by decide)⟩

/-- In every run in which no thread is made and no `fork` is without a page for its trap frame, no
process loses its address space. -/
theorem spaces_kept (h₀ : MemStarted reg arch tramp init s₀)
    (hrun : MemRun arch buddyPages tramp init (MakesNoThread reg) s₀ s) :
      SpacesKept reg arch s := by
  have hI : ∃ B Base W, MemHolds reg arch init s B Base W := by
    induction hrun with
    | refl => exact h₀.holds
    | step _ hok hstep ih =>
      obtain ⟨B, Base, W, I⟩ := ih
      exact I.step h₀.image hok hstep
  obtain ⟨B, Base, W, I⟩ := hI
  exact I.spacesKept h₀.image.inWindow

end

/-! ### A child and a thread -/

/-- Two slots, the first of them with a process that runs. -/
def sampleMem (k : Kernel BuddyAllocator) (root trapframe : Nat) : MemState BuddyAllocator 2 where
  procs g :=
    { state := if g.val = 0 then .running else .unused
      pid := if g.val = 0 then 1 else 0
      parent := none
      chan := none
      killed := false
      xstate := 0
      trapframe := if g.val = 0 then trapframe else 0
      pt := ⟨if g.val = 0 then root else 0, true⟩
      sections := []
      sz := 0
      heapStart := 0
      heapPtr := 0
      vm := fun _ => ⟨false, 0, 0, none⟩ }
  curPid := 2
  lastAllocProcGid := ⟨0, Nat.two_pos⟩
  kernel := k

theorem sample_image : KernelImage sampleRegion .riscv 0x70000000 :=
  ⟨sampleRegion_inWindow, by decide, fun _ => ⟨by decide, by decide⟩, fun h => by cases h⟩

/-- A first process with a page table that `_proc_create_vm` has made. -/
theorem new_space {reg : Region} (hw : reg.InWindow .riscv) (hpages : 4 ≤ reg.pages) :
    ∃ k B Base A t,
      World reg .riscv k B Base (Function.update (fun _ : Fin 2 => none) 0 (some A)) ∧
        TrapOnly reg .riscv A t ∧ B t = some ⟨0, true⟩ ∧ reg.pages ≤ reg.room B + 4 := by
  obtain ⟨k, B, h, hroom⟩ := reg.new_alloc
  have H : World reg .riscv k B (fun s o => B s = some ⟨o, true⟩) fun _ : Fin 2 => none :=
    ⟨h, by simp, by simp, by simp, by simp, .bare (by simp [Spaces.Tab]) (by simp [Spaces.Page])⟩
  rcases H.allocPage with ⟨-, h0⟩ | ⟨t, k₁, B₁, -, ha, H₁, -⟩
  · omega
  have hroom₁ := Region.room_of_alloc ha
  have htop : Arch.top .riscv = 2 := rfl
  have hB₁ : B₁ t = some ⟨0, true⟩ := (ha.used t 0).mpr (.inl ⟨rfl, rfl⟩)
  rcases procCreateVm_spec H₁ hw (i := (0 : Fin 2)) rfl (.inl ⟨rfl, rfl⟩) with
    ⟨e, -, hlt⟩ | ⟨k₂, B₂, A, -, H₂, htrap, hroom₂, hused⟩
  · omega
  · exact ⟨k₂, B₂, _, A, t, H₂, htrap, hused hB₁, by omega⟩

theorem sample_started {reg : Region} (K : KernelImage reg .riscv 0x70000000)
    {k : Kernel BuddyAllocator} {B : Blocks} {Base : Nat → Nat → Prop} {A : AddrSpace} {t : Nat}
    (H : World reg .riscv k B Base (Function.update (fun _ : Fin 2 => none) 0 (some A)))
    (hb : A.base = 0) (ho : A.Owned reg .riscv) (ht : A.pages trapPage = some t) :
    MemStarted reg .riscv 0x70000000 0 (sampleMem k A.root (reg.addr t)) := by
  refine ⟨K, fun {g} hg => ?_, rfl, B, Base, A, H, ⟨rfl, hb, ho⟩, t, rfl, ht⟩
  by_contra hne
  exact hg (if_neg fun h => hne (Fin.ext h))

/-- `exit_proc` of a process that has mapped no memory areas. -/
theorem unmapVmas_unused {σ : Type} {n : Nat} {arch : Arch} {p : Fin n}
    (V : VirtualPageAllocator σ) (s : MemState σ n) (h : ∀ i, ((s.procs p).vm i).address = 0)
    (areas : List (Fin maxVmaNum)) : MemState.unmapVmas arch V p areas s = .ok s := by
  induction areas with
  | nil => rfl
  | cons i rest ih =>
    rw [MemState.unmapVmas]
    simp only [h i, ne_eq, not_true_eq_false, if_false]
    exact ih

/-- Memory for a process with a user stack, and for a copy of it. -/
def stackRegion : Region where
  mem := 0x90000000
  size := 1024 * 4096
  nodes := 0x8ffff000
  mem_aligned := by decide
  size_aligned := by decide
  size_ge := by decide
  pages_lt := by decide
  end_le := by decide
  nodes_le := by decide
  apart := by decide

theorem stack_image : KernelImage stackRegion .riscv 0x70000000 :=
  ⟨⟨by decide, fun _ _ _ => rfl⟩, by decide, fun _ => ⟨by decide, by decide⟩, fun h => by cases h⟩

/-- A first process that has a user stack. -/
theorem stack_space : ∃ k B Base A t,
    World stackRegion .riscv k B Base (Function.update (fun _ : Fin 2 => none) 0 (some A)) ∧
      A.base = 0 ∧ A.Owned stackRegion .riscv ∧ A.pages trapPage = some t ∧
      OwnPages stackRegion .riscv A (stackStart / 4096) stackPages
        (vmAllocFlags .riscv false true true) ∧ 200 ≤ stackRegion.room B := by
  have hw := stack_image.inWindow
  have hpages : stackRegion.pages = 1023 := rfl
  obtain ⟨k, B, Base, A, t, H, htrap, -, hroom⟩ := new_space hw (by omega)
  have hcount : (Arch.top .riscv + 1) * stackPages = 99 := rfl
  obtain ⟨k', B', A', H', hbase, hown, hout, hroom'⟩ := H.addPages hw
    (leafFlags_vmAlloc .riscv false true true) stackPages
    (by rw [htrap.base]; exact stack_range .riscv)
    (fun w _ hu => by rw [htrap.map, if_neg (stack_below_trap hu)]) (by omega)
  refine ⟨k', B', _, A', t, H', hbase.trans htrap.base, fun w mp hmp => ?_, ?_, hown, by omega⟩
  · by_cases hin : stackStart / 4096 ≤ w ∧ w < stackStart / 4096 + stackPages
    · obtain ⟨q, hq, -⟩ := hown w hin.1 hin.2
      rw [hq]
      exact .inl (Option.some_ne_none q)
    · obtain ⟨hmap, hpages⟩ := hout w (by omega)
      rw [hmap] at hmp
      rw [hpages]
      exact htrap.owned w mp hmp
  · rw [(hout trapPage (by decide)).2, htrap.pages, if_pos rfl]

/-- The first process has nobody to wait for, and makes a child, which exits. -/
theorem spaces_kept_sample : ∃ s₀ s,
    MemStarted stackRegion .riscv 0x70000000 (0 : Fin 2) s₀ ∧
    MemRun .riscv buddyPages 0x70000000 0 (MakesNoThread stackRegion) s₀ s ∧
    (s.procs 0).state = .runnable ∧ (s.procs 1).state = .zombie ∧
    SpacesKept stackRegion .riscv s := by
  obtain ⟨k, B, Base, A, t, H, hbase, howned, htrap, hstack, hroom⟩ := stack_space
  have h₀ := sample_started stack_image H hbase howned htrap
  have hslot : (sampleMem k A.root (stackRegion.addr t)).allocSlot = some 1 := rfl
  have hpages : 0 < stackRegion.room k.blocks := by
    rw [show k.blocks = B from H.alloc.inv.rep.blocks_eq]
    omega
  obtain ⟨s₁, hfork, hchild, -, hvm, hother⟩ := (h₀.holdsWith H ⟨rfl, hbase, howned⟩
    ⟨t, rfl, htrap⟩).fork_succeeds stack_image hslot (Function.update_self ..)
    ⟨rfl, rfl, ⟨rfl, Nat.two_pow_pos 64⟩, fun _ => rfl, hstack⟩ (Nat.le_trans (by decide) hroom) 0
  have hparent : (s₁.procs 0).state = .running := by
    rw [hother 0 (by decide)]
    rfl
  have hareas : ∀ i, ((s₁.procs 1).vm i).address = 0 := fun i => by
    rw [hvm]
    rfl
  have h10 : (1 : Fin 2) ≠ 0 := by decide
  -- the parent yields
  obtain ⟨s₂, hs₂⟩ : ∃ s₂, s₂ = s₁.set 0 fun q => { q with state := .runnable } := ⟨_, rfl⟩
  have hyield : MemStep .riscv buddyPages 0x70000000 0 (.yield 0) s₁ s₂ := hs₂ ▸ .yield hparent
  have hchild₂ : s₂.procs 1 = s₁.procs 1 := by
    simp only [hs₂, MemState.set, Function.update_of_ne h10]
  have hparent₂ : (s₂.procs 0).state = .runnable := by
    simp only [hs₂, MemState.set, Function.update_self]
  -- the child runs and exits
  obtain ⟨s₃, hs₃⟩ : ∃ s₃, s₃ = s₂.set 1 fun q => { q with state := .running } := ⟨_, rfl⟩
  have hruns : MemStep .riscv buddyPages 0x70000000 0 (.run 1) s₂ s₃ :=
    hs₃ ▸ .run (by rw [hchild₂]; exact hchild)
  have hchild₃ : s₃.procs 1 = { s₁.procs 1 with state := .running } := by
    simp only [hs₃, MemState.set, Function.update_self, hchild₂]
  have hparent₃ : s₃.procs 0 = s₂.procs 0 := by
    simp only [hs₃, MemState.set, Function.update_of_ne h10.symm]
  have hexit : s₃.exitProc .riscv buddyPages 0 1 0 = .ok (s₃.becomeZombie 0 1 0) := by
    unfold MemState.exitProc
    rw [if_neg h10, unmapVmas_unused buddyPages s₃ fun i => by rw [hchild₃]; exact hareas i]
    rfl
  have hwait : MemRun .riscv buddyPages 0x70000000 0 (MakesNoThread stackRegion)
      (sampleMem k A.root (stackRegion.addr t)) (sampleMem k A.root (stackRegion.addr t)) :=
    .step (e := .wait 0 (-1) 0) .refl trivial (.wait rfl rfl)
  have hrun : MemRun .riscv buddyPages 0x70000000 0 (MakesNoThread stackRegion)
      (sampleMem k A.root (stackRegion.addr t)) (s₃.becomeZombie 0 1 0) :=
    (((hwait.step (e := .fork 0 0) (.inr hpages) (.fork rfl hfork)).step (e := .yield 0)
      trivial hyield).step (e := .run 1) trivial hruns).step (e := .exit 1 0) trivial
        (.exit (by rw [hchild₃]) hexit)
  refine ⟨_, _, h₀, hrun, ?_, ?_, spaces_kept h₀ hrun⟩
  · simp [MemState.becomeZombie, hparent₃, hparent₂]
  · simp only [MemState.becomeZombie, if_true]

/-- A thread has a trap frame of its own, but runs on the page table that maps the trap frame of its
parent. -/
theorem thread_trap_frame : ∃ s₀ s,
    MemStarted sampleRegion .riscv 0x70000000 (0 : Fin 2) s₀ ∧
    MemRun .riscv buddyPages 0x70000000 0 (fun _ e =>
      ∃ tls, e = .clone 0 (MemState.cloneThread ||| MemState.cloneVm) 0 0 tls) s₀ s ∧
    ¬SpacesKept sampleRegion .riscv s := by
  have hpages : sampleRegion.pages = 99 := rfl
  obtain ⟨k, B, Base, A, t, H, htrap, hB, hroom⟩ := new_space sampleRegion_inWindow (by omega)
  rcases H.allocPage with ⟨-, h0⟩ | ⟨t', k', B', hrun, ha, H', -⟩
  · omega
  -- the stores of `clone` are in the new page
  have H'' := H'.write_base (s := t') (o := 0) (.inl ⟨rfl, rfl⟩)
    (m := setTrapFrameReturnValue .riscv (copyTrapFrame k'.mem (sampleRegion.addr t)
      (sampleRegion.addr t')) (sampleRegion.addr t') 0) fun x hx => by
      simp only [Nat.pow_zero, Nat.mul_one] at hx
      rw [setTrapFrameReturnValue_outside _ hx, copyTrapFrame_outside hx]
  obtain ⟨s, hclone, hstate, hpt, htf, hmem⟩ : ∃ s,
      (sampleMem k A.root (sampleRegion.addr t)).clone .riscv buddyPages 0x70000000 0
        (MemState.cloneThread ||| MemState.cloneVm) 0 0 0 = .ok (2, s) ∧
      (s.procs 1).state = .runnable ∧ (s.procs 1).pt = ⟨A.root, true⟩ ∧
      (s.procs 1).trapframe = sampleRegion.addr t' ∧
      s.kernel.mem = setTrapFrameReturnValue .riscv (copyTrapFrame k'.mem (sampleRegion.addr t)
        (sampleRegion.addr t')) (sampleRegion.addr t') 0 := by
    unfold MemState.clone MemState.cloneThreadOf MemState.allocThread
    rw [if_pos (by decide), show (sampleMem k A.root (sampleRegion.addr t)).allocSlot =
      some 1 from rfl]
    simp only [show (sampleMem k A.root (sampleRegion.addr t)).kernel = k from rfl]
    rw [hrun, ok_bind]
    simp only [ok_bind]
    rw [if_neg (by decide), if_neg (by decide), if_neg (by decide)]
    exact ⟨_, rfl, rfl, rfl, rfl, rfl⟩
  refine ⟨_, s, sample_started sample_image H htrap.base htrap.owned
    (by rw [htrap.pages, if_pos rfl]), .step .refl ⟨0, rfl⟩ (.clone rfl hclone),
    fun hk => ?_⟩
  have hreach := hk.trap hstate
  rw [hpt, htf, hmem] at hreach
  obtain ⟨mp, hmp, ha'⟩ := Reaches.mapping H'' (g := 0) (Function.update_self ..) htrap.base
    hreach
  rw [htrap.map, if_pos rfl] at hmp
  cases hmp
  have hlt : t < sampleRegion.pages := by
    have := H.alloc.block_bound hB
    simp only at this
    omega
  rw [toVir_page sampleRegion_inWindow hlt] at ha'
  have htt : t' = t := Region.addr_inj ha'
  exact ha.fresh 0 (htt ▸ hB)

end OsKernel.Pm

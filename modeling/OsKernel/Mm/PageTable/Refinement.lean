import OsKernel.Mm.Buddy.Source
import OsKernel.Mm.Vmm.Map

/-! A page table from `vm_create` on, over any run of mappings, unmappings and walks: it refines the
page map. -/

namespace OsKernel.Mm

open Lib Hsai

/-- The calls on a page table. -/
inductive PtOp where
  | map (va size pa flags : Nat)
  | unmap (va npages : Nat)
  | walk (va : Nat)

namespace PtOp

/-- The call in the code; `vm_unmap` and `walk` give back true. -/
def exec {σ : Type} (arch : Arch) (V : VirtualPageAllocator σ) (k : Kernel σ) (pt : PageTable) :
    PtOp → Except Fault (Bool × Kernel σ)
  | map va size pa flags => mapPages arch V k pt va size pa flags
  | unmap va npages => do
    let k ← vmUnmap arch V k pt va npages false
    .ok (true, k)
  | walk va => do
    let r ← Mm.walk arch V k pt va true
    .ok (true, r.2)

/-- The call on the map. -/
noncomputable def apply (arch : Arch) (M : PageMap) : PtOp → PageMap
  | map va size pa flags => M.map arch (va / 4096) ((va + size - 1) / 4096) pa flags
  | unmap va npages => M.unmap (va / 4096) npages
  | walk _ => M

/-- The arguments are in the translated range, and only mapped pages are unmapped. -/
def Legal (arch : Arch) (M : PageMap) : PtOp → Prop
  | map va size pa flags =>
    0 < size ∧ va + size ≤ 2 ^ arch.vaBits ∧ pa < 2 ^ 64 ∧ LeafFlags arch flags
  | unmap va npages => va % 4096 = 0 ∧ va + 4096 * npages ≤ 2 ^ arch.vaBits ∧
    ∀ u, va / 4096 ≤ u → u < va / 4096 + npages → M u ≠ none
  | walk va => va < 2 ^ arch.vaBits

/-- The pages of the range. -/
def Touches (v : Nat) : PtOp → Prop
  | map va size _ _ => va / 4096 ≤ v ∧ v ≤ (va + size - 1) / 4096
  | unmap va npages => va / 4096 ≤ v ∧ v < va / 4096 + npages
  | walk _ => False

/-- The pages that are enough for the tables that the call may add. -/
def cost (arch : Arch) : PtOp → Nat
  | map va size _ _ => arch.top * ((va + size - 1) / 4096 - va / 4096 + 1)
  | unmap _ _ => 0
  | walk _ => arch.top

theorem apply_untouched {arch : Arch} {M : PageMap} {op : PtOp} {v : Nat} (h : ¬op.Touches v) :
    op.apply arch M v = M v := by
  cases op with
  | map va size pa flags =>
    simp only [Touches] at h
    exact PageMap.map_outside (by omega)
  | unmap va npages => exact if_neg h
  | walk va => rfl

end PtOp

section

variable {σ G : Type} {V : VirtualPageAllocator σ} {arch : Arch}

/-- The data of the entry that `walk` finds, zero where it finds none. -/
def entryOf (arch : Arch) (V : VirtualPageAllocator σ) (k : Kernel σ) (pt : PageTable)
    (va : Nat) : Nat :=
  match walk arch V k pt va false with
  | .ok r => pteData k.mem r.1
  | .error _ => 0

/-- A page table made by `vm_create` and changed by legal calls, and the map that the calls make. -/
inductive PtReach (S : PageSource V arch G) : PageTable → Kernel σ → PageMap → Prop
  | create {k k' : Kernel σ} {g : G} {pt : PageTable} (hinv : S.inv k.pages k.mem g)
      (h : vmCreate V k = .ok (pt, k')) : PtReach S pt k' fun _ => none
  | step {k k' : Kernel σ} {pt : PageTable} {M : PageMap} {op : PtOp} {r : Bool}
      (hreach : PtReach S pt k M) (hop : op.Legal arch M)
      (h : op.exec arch V k pt = .ok (r, k')) : PtReach S pt k' (op.apply arch M)

/-- The tables are a tree on pages in use whose leaf entries are those of the map. -/
structure PtHolds (S : PageSource V arch G) (pt : PageTable) (k : Kernel σ) (g : G)
    (T : Nat → Nat → Option Nat) (M : PageMap) : Prop where
  isGlobal : pt.isGlobal = true
  space : Space S k g pt.baseAddr T
  represents : Represents arch k.mem T 0 M

variable {S : PageSource V arch G} {pt : PageTable} {k : Kernel σ} {g : G}
  {T : Nat → Nat → Option Nat} {M : PageMap}

theorem PtHolds.pt_eq (H : PtHolds S pt k g T M) : pt = ⟨pt.baseAddr, true⟩ := by
  have := H.isGlobal
  cases pt
  simp_all

/-- Every legal call returns unless pages for tables run out, and does to the entries what it does
to the map. -/
theorem PtHolds.exec (H : PtHolds S pt k g T M) {op : PtOp} (hop : op.Legal arch M) :
    (∃ e, op.exec arch V k pt = .error e ∧ S.room g < op.cost arch) ∨
      ∃ r k' g' T', op.exec arch V k pt = .ok (r, k') ∧
        PtHolds S pt k' g' T' (op.apply arch M) ∧ Grown S k g T k' g' T' ∧ ∀ va size pa flags,
          op = .map va size pa flags →
            (r = true ↔ M.Clear (va / 4096) ((va + size - 1) / 4096)) := by
  have hpt := H.pt_eq
  have Sp := H.space
  have hM := H.represents
  cases op with
  | map va size pa flags =>
    obtain ⟨hsize, hva, hpa, hf⟩ := hop
    simp only [PtOp.exec, PtOp.cost]
    rw [hpt]
    have hbits := vaBits_le arch
    have hdvd : 4096 ∣ 2 ^ arch.vaBits := by cases arch <;> decide
    have hrange : PageRange arch 0 (va / 4096) ((va + size - 1) / 4096 - va / 4096 + 1) :=
      .of_le (by omega)
    rcases mapPages_spec va size hf hsize (by omega) hrange hpa Sp hM with
      ⟨j, hrun, hroom⟩ | ⟨r, k', g', T', hrun, Sp', hg, hM', hr, -⟩
    · exact .inl ⟨_, hrun, hroom⟩
    · refine .inr ⟨r, k', g', T', hrun, ⟨rfl, Sp', hM'⟩, hg, ?_⟩
      rintro va' size' pa' flags' he
      cases he
      exact hr
  | unmap va npages =>
    obtain ⟨hal, hva, hmapped⟩ := hop
    simp only [PtOp.exec]
    rw [hpt]
    have hbits := vaBits_le arch
    obtain ⟨k', hrun, Sp', hg, hM'⟩ :=
      vmUnmap_spec (V := V) hal (by omega) (.of_le (by omega)) Sp hM
      hmapped
    rw [hrun, ok_bind]
    exact .inr ⟨true, k', g, T, rfl, ⟨rfl, Sp', hM'⟩, hg, by simp⟩
  | walk va =>
    simp only [PtOp.exec, PtOp.cost]
    rw [hpt]
    rcases walk_alloc Sp va with
      ⟨j, hrun, hroom⟩ | ⟨pte, k', g', T', hrun, Sp', hg, hleaf, -, -⟩
    · rw [hrun]
      exact .inl ⟨_, rfl, hroom⟩
    · rw [hrun, ok_bind]
      exact .inr ⟨true, k', g', T', rfl, ⟨rfl, Sp', hM.congr hleaf⟩, hg, by simp⟩

theorem PtReach.holds (h : PtReach S pt k M) : ∃ g T, PtHolds S pt k g T M := by
  induction h with
  | create hinv h =>
    rcases vmCreate_spec hinv with ⟨he, -⟩ | ⟨p, k', g', T', hrun, Sp, -, -, -, hM⟩
    · rw [he] at h
      cases h
    · rw [hrun] at h
      cases h
      exact ⟨g', T', rfl, Sp, hM 0⟩
  | step _ hop h ih =>
    obtain ⟨g, T, H⟩ := ih
    rcases H.exec hop with ⟨e, he, -⟩ | ⟨r', k'', g', T', hrun, H', -⟩
    · rw [he] at h
      cases h
    · rw [hrun] at h
      cases h
      exact ⟨g', T', H'⟩

/-- A translated address has its page number in the tables. -/
theorem vpn_eq {va : Nat} (hva : va < 2 ^ arch.vaBits) : va / 4096 % arch.vaPages = va / 4096 := by
  rw [← vpn_mod, Nat.mod_eq_of_lt hva]

theorem inSpan_vpn {va : Nat} (hva : va < 2 ^ arch.vaBits) : InSpan arch 0 (va / 4096) := by
  rw [Arch.two_pow_vaBits] at hva
  exact ⟨Nat.zero_le _, by omega⟩

theorem Tables.entryOf_eq {m : Mem} {s : σ} {root : Nat} (H : Tables arch m root T) (va : Nat) :
    entryOf arch V ⟨s, m⟩ ⟨root, true⟩ va = leafData m T (va / 4096 % arch.vaPages) := by
  unfold entryOf
  rcases walk_find (V := V) (k := ⟨s, m⟩) H va with ⟨j, hrun, hp⟩ | ⟨pte, hrun, hp⟩
  · rw [hrun, leafData_of_none hp]
  · rw [hrun, leafData_of_pte hp]

/-- The entry that `walk` finds is the entry of the map. -/
theorem PtHolds.entryOf_eq (H : PtHolds S pt k g T M) (va : Nat) :
    entryOf arch V k pt va = leafData k.mem T (va / 4096 % arch.vaPages) := by
  rw [H.pt_eq]
  exact H.space.tables.entryOf_eq va

theorem PtHolds.entryOf_data (H : PtHolds S pt k g T M) {va : Nat} (hva : va < 2 ^ arch.vaBits) :
    entryOf arch V k pt va = ((M (va / 4096)).map (·.data arch)).getD 0 := by
  rw [H.entryOf_eq va]
  cases hMv : M (va / 4096) with
  | none => exact H.represents.of_none hMv (inSpan_vpn hva)
  | some mp => exact (H.represents.of_some hMv).1

/-- The page table refines the map from page numbers to physical pages and flags. -/
theorem pageTable_refines (S : PageSource V arch G) (pt : PageTable) (k : Kernel σ) (M : PageMap)
    (h : PtReach S pt k M) :
    (∀ va mp, va < 2 ^ arch.vaBits → M (va / 4096) = some mp →
      arch.isSuperPlv mp.flags = false →
      walkAddr arch V k pt va = .ok (mp.page ||| (va % 4096))) ∧
    (∀ (op : PtOp) r k', op.Legal arch M → op.exec arch V k pt = .ok (r, k') →
      ∀ va < 2 ^ arch.vaBits, ¬op.Touches (va / 4096) →
        entryOf arch V k' pt va = entryOf arch V k pt va) ∧
    (∀ va size pa flags r k', (PtOp.map va size pa flags).Legal arch M →
      mapPages arch V k pt va size pa flags = .ok (r, k') →
      (r = true ↔ ∀ v, va / 4096 ≤ v → v ≤ (va + size - 1) / 4096 →
        arch.isValid (entryOf arch V k pt (4096 * v)) = false)) ∧
    (∀ va va' p p' k₁ k₂, va < 2 ^ arch.vaBits → va' < 2 ^ arch.vaBits →
      walk arch V k pt va false = .ok (p, k₁) → walk arch V k pt va' false = .ok (p', k₂) →
      (p = p' ↔ va / 4096 = va' / 4096)) ∧
    ∃ g, S.inv k.pages k.mem g ∧ ∀ op : PtOp, op.Legal arch M →
      op.cost arch ≤ S.room g → ∃ r k', op.exec arch V k pt = .ok (r, k') := by
  obtain ⟨g, T, H⟩ := h.holds
  refine ⟨fun va mp hva hmp hplv => ?_, fun op r k' hop hrun va hva ht => ?_,
    fun va size pa flags r k' hop hrun => ?_,
    fun va va' p p' k₁ k₂ hva hva' hrun hrun' => ?_, g, H.space.inv, fun op hop hroom => ?_⟩
  · rw [H.pt_eq, walkAddr_mapped H.space.tables H.represents hmp, hplv]
    rfl
  · rcases H.exec hop with ⟨e, he, -⟩ | ⟨r', k'', g', T', hrun', H', -⟩
    · rw [he] at hrun
      cases hrun
    · rw [hrun'] at hrun
      cases hrun
      rw [H'.entryOf_data hva, H.entryOf_data hva, PtOp.apply_untouched ht]
  · rcases H.exec hop with ⟨e, he, -⟩ | ⟨r', k'', g', T', hrun', -, -, hr⟩
    · simp only [PtOp.exec] at he
      rw [he] at hrun
      cases hrun
    · simp only [PtOp.exec] at hrun'
      rw [hrun'] at hrun
      cases hrun
      rw [hr va size pa flags rfl]
      refine forall_congr' fun v => forall_congr' fun hl => forall_congr' fun hu => ?_
      have hdvd : 4096 ∣ 2 ^ arch.vaBits := by cases arch <;> decide
      have hva : 4096 * v < 2 ^ arch.vaBits := by
        have := hop.1
        have := hop.2.1
        omega
      have hspan := inSpan_vpn hva
      rw [Nat.mul_div_cancel_left v (by decide)] at hspan
      rw [H.entryOf_eq, Nat.mul_div_cancel_left v (by decide), H.represents.isValid hspan]
      cases M v <;> simp
  · have key : ∀ {va p k₁}, va < 2 ^ arch.vaBits →
        walk arch V k pt va false = .ok (p, k₁) → leafPte T (va / 4096) = some p := by
      intro va p k₁ hva hrun
      rw [H.pt_eq] at hrun
      rw [← vpn_eq hva]
      rcases walk_find (V := V) H.space.tables va with ⟨j, he, -⟩ | ⟨pte, he, hp⟩
      · rw [he] at hrun
        cases hrun
      · rw [he] at hrun
        cases hrun
        exact hp
    have hp := key hva hrun
    have hp' := key hva' hrun'
    constructor
    · rintro rfl
      exact H.space.tables.leafPte_inj hp hp'
    · intro he
      rw [he, hp'] at hp
      exact (Option.some.inj hp).symm
  · rcases H.exec hop with ⟨e, -, hlt⟩ | ⟨r, k', -, -, hrun, -⟩
    · omega
    · exact ⟨r, k', hrun⟩

end

theorem sampleRegion_inWindow : sampleRegion.InWindow .riscv where
  pos := by decide
  windowed := fun _ _ _ => rfl

/-- The allocator of a region after its initialisation. -/
theorem Region.new_alloc (reg : Region) : ∃ (k : Kernel BuddyAllocator) (B : BuddySystem.Blocks),
    reg.Alloc k.pages k.mem B ∧ reg.room B = reg.pages := by
  obtain ⟨b, m, B, -, I, hB, hmem, hnodes, hinf⟩ := make_inv reg fun _ => 0
  have hfree : BuddySystem.usedUnits reg.pages B = 0 := by
    refine Finset.sum_eq_zero fun p _ => ?_
    cases hp : B p with
    | none => rfl
    | some blk =>
      obtain ⟨o, u⟩ := blk
      have hu := ((hB p _).mp hp).2
      simp only at hu
      rw [hu]
      rfl
  refine ⟨⟨b, m⟩, B, ⟨I, hmem, hnodes, hinf⟩, ?_⟩
  rw [Region.room, hfree, Nat.sub_zero]

/-- The allocator of the sample region after its initialisation. -/
theorem sample_alloc : ∃ (k : Kernel BuddyAllocator) (B : BuddySystem.Blocks),
    sampleRegion.Alloc k.pages k.mem B ∧ sampleRegion.room B = 99 := sampleRegion.new_alloc

/-- A new page table on the buddy allocator of the sample region, and a page mapped in it. -/
theorem pageTable_refines_sample :
    ∃ pt k M, PtReach (buddySource sampleRegion .riscv sampleRegion_inWindow) pt k M ∧
      M 5 = some ⟨0x80001000, 0x17⟩ ∧
      walkAddr .riscv buddyPages k pt 0x5123 = .ok 0x80001123 := by
  obtain ⟨k, B, hinv, hroom⟩ := sample_alloc
  let S := buddySource sampleRegion .riscv sampleRegion_inWindow
  have hroom : S.room B = 99 := hroom
  rcases vmCreate_spec (S := S) hinv with
    ⟨-, h0⟩ | ⟨p, k₁, g₁, T₁, hrun₁, Sp₁, hgrab, -, -, hM₁⟩
  · omega
  have hreach₁ : PtReach S ⟨p, true⟩ k₁ fun _ => none := .create hinv hrun₁
  have hop : (PtOp.map 0x5000 0x1000 0x80001000 0x17).Legal .riscv fun _ => none := by
    exact ⟨by decide, by decide, by decide, by decide⟩
  have hroom₁ := S.room_grab hgrab
  have H₁ : PtHolds S ⟨p, true⟩ k₁ g₁ T₁ fun _ => none := ⟨rfl, Sp₁, hM₁ 0⟩
  rcases H₁.exec hop with
    ⟨e, -, hlt⟩ | ⟨r, k₂, g₂, T₂, hrun₂, H₂, -⟩
  · have hcost : (PtOp.map 0x5000 0x1000 0x80001000 0x17).cost .riscv = 2 := by decide
    omega
  have hmap : PtOp.apply .riscv (fun _ => none) (.map 0x5000 0x1000 0x80001000 0x17) 5 =
      some ⟨0x80001000, 0x17⟩ := PageMap.map_clear (fun _ _ _ => rfl) (by decide) (by decide)
  refine ⟨⟨p, true⟩, k₂, _, hreach₁.step hop hrun₂, hmap, ?_⟩
  exact (pageTable_refines S _ k₂ _ (hreach₁.step hop hrun₂)).1 0x5123 ⟨0x80001000, 0x17⟩
    (by decide) hmap (by decide)

end OsKernel.Mm

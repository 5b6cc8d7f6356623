import OsKernel.Mm.PageTable.Refinement
import OsKernel.Mm.Vmm.Alloc

/-! One range of an address space, grown by `vm_alloc` and shrunk by `vm_dealloc` from its top.  A
growth hands out whole blocks and a shrink releases them page by page, so a shrink that ends inside
a block leaves the block in use until its first page goes. -/

namespace OsKernel.Mm

open Lib Hsai Lib.BuddySystem BuddyAllocator

/-- The runs that start with the empty range at `start`.  A growth succeeds when it does not return
zero; `ok` is asked of its new end. -/
inductive RangeReach (arch : Arch) (pt : PageTable) (k₀ : Kernel BuddyAllocator) (start : Nat)
    (ok : Nat → Prop) : Kernel BuddyAllocator → Nat → Prop
  | init : RangeReach arch pt k₀ start ok k₀ start
  | grow {k k' : Kernel BuddyAllocator} {cur new r : Nat} {executable writeable forUser : Bool}
      (h : RangeReach arch pt k₀ start ok k cur) (hok : ok new)
      (hrun : vmAlloc arch buddyPages k pt cur new executable writeable forUser = .ok (r, k'))
      (hr : r ≠ 0) : RangeReach arch pt k₀ start ok k' r
  | shrink {k k' : Kernel BuddyAllocator} {cur new r : Nat}
      (h : RangeReach arch pt k₀ start ok k cur) (hnew : start ≤ new)
      (hrun : vmDealloc arch buddyPages k pt cur new = .ok (r, k')) :
      RangeReach arch pt k₀ start ok k' r

/-- The blocks that the allocator of the kernel describes. -/
def Kernel.blocks (k : Kernel BuddyAllocator) : Blocks := k.pages.blocks k.mem

/-- The pages of the range are mapped, each to a page of a block in use and no two to one page; and
an empty range has given back all its blocks but those of tables. -/
structure RangeSound (reg : Region) (arch : Arch) (pt : PageTable) (k₀ : Kernel BuddyAllocator)
    (start : Nat) (k : Kernel BuddyAllocator) (cur : Nat) : Prop where
  mapped : ∀ v, pageCeil start ≤ v → v < pageCeil cur →
    arch.isValid (entryOf arch buddyPages k pt (4096 * v)) = true
  inUse : ∀ v, pageCeil start ≤ v → v < pageCeil cur → ∃ s o,
    k.blocks s = some ⟨o, true⟩ ∧
    reg.addr s ≤ arch.toVir (arch.toPa (entryOf arch buddyPages k pt (4096 * v))) ∧
    arch.toVir (arch.toPa (entryOf arch buddyPages k pt (4096 * v))) < reg.addr s + 4096 * 2 ^ o
  distinct : ∀ v w, pageCeil start ≤ v → v < pageCeil cur → pageCeil start ≤ w →
    w < pageCeil cur → arch.toPa (entryOf arch buddyPages k pt (4096 * v)) =
      arch.toPa (entryOf arch buddyPages k pt (4096 * w)) → v = w
  released : cur = start → ∀ s o, k.blocks s = some ⟨o, true⟩ →
    k₀.blocks s = some ⟨o, true⟩ ∨ ∃ T, Tables arch k.mem pt.baseAddr T ∧
    IsTable T (reg.addr s)

/-! ### The page table at the start -/

section

variable {reg : Region} {arch : Arch} {hw : reg.InWindow arch} {k : Kernel BuddyAllocator}
  {B : Blocks} {Base : Nat → Nat → Prop} {pt : PageTable} {M : PageMap}

theorem Represents.rebase {m : Mem} {T : Nat → Nat → Option Nat} (h : Represents arch m T 0 M)
    (base : Nat) :
    ∃ M', Represents arch m T base M' := by
  classical
  refine ⟨fun v => if InSpan arch base v then M (v % arch.vaPages) else none, fun v => ?_⟩
  have hlt := Nat.mod_lt v (Arch.vaPages_pos arch)
  have hmod : v % arch.vaPages % arch.vaPages = v % arch.vaPages := Nat.mod_mod _ _
  by_cases hv : InSpan arch base v
  · have := h (v % arch.vaPages)
    simp only [if_pos hv]
    cases hM : M (v % arch.vaPages) with
    | none =>
      rw [hM, hmod] at this
      exact fun _ => this ⟨Nat.zero_le _, by omega⟩
    | some mp =>
      rw [hM, hmod] at this
      exact ⟨hv, this.2⟩
  · simp only [if_neg hv]
    exact fun hv' => absurd hv' hv

theorem Spaces.update_unit {W : Spaces Unit} {A : AddrSpace} :
    Function.update W () (some A) = fun _ => some A := by
  funext j
  simp

/-- A page table made by `vm_create` is an address space that holds no pages. -/
theorem PtReach.world (h : PtReach (buddySource reg arch hw) pt k M) :
    ∃ B Base T, pt = ⟨pt.baseAddr, true⟩ ∧ World reg arch k B Base
      fun _ : Unit => some ⟨pt.baseAddr, 0, T, M, fun _ => none⟩ := by
  induction h with
  | @create k k' B pt hinv h =>
    have H : World reg arch k B (fun s o => B s = some ⟨o, true⟩) fun _ : Unit => none :=
      ⟨hinv, by simp, by simp, by simp, by simp,
        .bare (by simp [Spaces.Tab]) (by simp [Spaces.Page])⟩
    rcases H.create hw (i := ()) rfl 0 with ⟨he, -⟩ | ⟨p, k₁, B', T', hrun, H', -⟩
    · rw [he] at h
      cases h
    · rw [hrun] at h
      cases h
      rw [Spaces.update_unit] at H'
      exact ⟨B', fun s o => B s = some ⟨o, true⟩, T', rfl, H'⟩
  | @step k k' pt M op r hreach hop h ih =>
    obtain ⟨B, Base, T, hpt, H⟩ := ih
    have Hp : PtHolds (buddySource reg arch hw) pt k B T M :=
      ⟨by rw [hpt], H.space (i := ()) rfl, H.represents (i := ()) rfl⟩
    rcases Hp.exec hop with ⟨e, he, -⟩ | ⟨r', k₁, B', T', hrun, Hp', hg, -⟩
    · rw [he] at h
      cases h
    · rw [hrun] at h
      cases h
      have H' := H.grow (i := ()) rfl Hp'.space hg Hp'.represents fun v p hp => by cases hp
      rw [Spaces.update_unit] at H'
      exact ⟨B', Base, T', hpt, H'⟩

/-- The entry of a mapped page. -/
theorem Represents.entryOf {root base : Nat} {T : Nat → Nat → Option Nat} {v : Nat}
    {mp : Mapping} (h : Represents arch k.mem T base M) (H : Tables arch k.mem root T)
    (hv : M v = some mp) :
    entryOf arch buddyPages k ⟨root, true⟩ (4096 * v) = mp.data arch := by
  rw [H.entryOf_eq, Nat.mul_div_cancel_left v (by decide)]
  exact (h.of_some hv).1

/-- The memory of the machine is small beside an address space. -/
theorem Region.pages_small (h : reg.size ≤ arch.memLimit) :
    reg.pages < 2 ^ 31 ∧ 3 * reg.pages ≤ arch.vaPages := by
  obtain ⟨-, -, -, hsum⟩ := reg.infos_le
  have hlim : arch.memLimit ≤ 4096 * 557056 := by cases arch <;> decide
  have hva : 2 ^ 27 ≤ arch.vaPages := by cases arch <;> decide
  omega

end

/-! ### Runs -/

/-- The range holds the pages from its start to its end and no others. -/
structure RangeInv (reg : Region) (arch : Arch) (pt : PageTable) (Base : Nat → Nat → Prop)
    (start : Nat) (k : Kernel BuddyAllocator) (B : Blocks) (A : AddrSpace) (cur : Nat) : Prop where
  world : World reg arch k B Base fun _ : Unit => some A
  root : pt = ⟨A.root, true⟩
  base : A.base = pageCeil start
  le : start ≤ cur
  small : cur = start ∨ cur ≤ 2 ^ 64 - 4096
  pages : ∀ v, A.pages v ≠ none ↔ pageCeil start ≤ v ∧ v < pageCeil cur

section

variable {reg : Region} {arch : Arch} {pt : PageTable} {Base : Nat → Nat → Prop}
  {start cur new : Nat} {k k' : Kernel BuddyAllocator} {B : Blocks} {A : AddrSpace}

theorem pageCeil_mono {a b : Nat} (h : a ≤ b) : pageCeil a ≤ pageCeil b := by
  unfold pageCeil
  omega

namespace RangeInv

theorem grow (I : RangeInv reg arch pt Base start k B A cur) (hw : reg.InWindow arch)
    (hsize : reg.size ≤ arch.memLimit) (hnew : new ≤ 2 ^ 64 - 4096) {e w u : Bool} {r : Nat}
    (hrun : vmAlloc arch buddyPages k pt cur new e w u = .ok (r, k')) (hr : r ≠ 0) :
    ∃ B' A', RangeInv reg arch pt Base start k' B' A' r := by
  by_cases hlt : new < cur
  · unfold vmAlloc at hrun
    rw [if_pos hlt] at hrun
    cases hrun
    exact ⟨B, A, I⟩
  obtain ⟨hsmall, hspan⟩ := Region.pages_small hsize
  have hsc := pageCeil_mono I.le
  have hcn := pageCeil_mono (Nat.le_of_not_lt hlt)
  have hn : pageCeil new ≤ 2 ^ 52 := by
    unfold pageCeil
    omega
  have hheld := I.world.held_le (i := ()) rfl (v := pageCeil start)
    (n := pageCeil cur - pageCeil start) fun v hl hu => (I.pages v).mpr ⟨hl, by omega⟩
  have hres := I.world.vmAlloc hw hsmall (i := ()) rfl e w u cur new
    (fun v hv => by
      by_contra hc
      obtain ⟨p, hp⟩ := Option.ne_none_iff_exists'.mp hc
      obtain ⟨f, hf⟩ := I.world.mapped (i := ()) rfl hp
      rw [hv] at hf
      cases hf)
    (Nat.le_of_not_lt hlt) hnew
    (fun m hm hm' => ⟨by rw [I.base]; exact hsc, by rw [I.base]; omega, by omega⟩)
  rw [← I.root, hrun] at hres
  cases hres with
  | @done _ B' A' H E _ =>
    rw [Spaces.update_unit] at H
    refine ⟨B', A', H, by rw [I.root, E.root], by rw [E.base, I.base], ?_,
      .inr hnew, fun v => ?_⟩
    · have := I.le
      omega
    · by_cases hv : pageCeil cur ≤ v ∧ v < pageCeil new
      · exact iff_of_true (E.held v hv.1 (by omega)) ⟨by omega, hv.2⟩
      · rw [(E.outside v (by omega)).2, I.pages]
        omega
  | failed => exact absurd rfl hr

/-- Every shrink of the range returns. -/
theorem shrink (I : RangeInv reg arch pt Base start k B A cur) (hw : reg.InWindow arch)
    (hsize : reg.size ≤ arch.memLimit) (hnew : start ≤ new) :
    ∃ r k' B' A', vmDealloc arch buddyPages k pt cur new = .ok (r, k') ∧
      RangeInv reg arch pt Base start k' B' A' r := by
  by_cases hge : cur ≤ new
  · refine ⟨cur, k, B, A, ?_, I⟩
    unfold vmDealloc
    exact if_pos hge
  have hold : cur ≤ 2 ^ 64 - 4096 := I.small.resolve_left (by omega)
  have hsn := pageCeil_mono hnew
  have hnc := pageCeil_mono (Nat.le_of_not_le hge)
  obtain ⟨hsmall, hspan⟩ := Region.pages_small hsize
  have hheld := I.world.held_le (i := ()) rfl (v := pageCeil start)
    (n := pageCeil cur - pageCeil start) fun v hl hu => (I.pages v).mpr ⟨hl, by omega⟩
  have hc : pageCeil cur ≤ 2 ^ 52 := by
    unfold pageCeil
    omega
  obtain ⟨k', B', hrun, H, -, -⟩ := I.world.dealloc hw hsmall (i := ()) rfl cur new
    (by omega) hold
    ⟨by rw [I.base]; exact hsn, by rw [I.base]; omega, by omega⟩
    (fun v hl hu => (I.pages v).mpr ⟨by omega, hu⟩)
    (fun v s o d hl hu _ _ _ hp => by
      have := (I.pages (v + d)).mp (by rw [hp]; exact Option.some_ne_none _)
      omega)
  rw [← I.root] at hrun
  rw [Spaces.update_unit] at H
  refine ⟨new, k', B', _, hrun, H, I.root, I.base, hnew, .inr (by omega), fun v => ?_⟩
  simp only [AddrSpace.unmap]
  by_cases hv : pageCeil new ≤ v ∧ v < pageCeil new + (pageCeil cur - pageCeil new)
  · rw [if_pos hv]
    exact iff_of_false (fun h => h rfl) (by omega)
  · rw [if_neg hv, I.pages]
    omega

theorem sound (I : RangeInv reg arch pt Base start k B A cur) (hw : reg.InWindow arch)
    {k₀ : Kernel BuddyAllocator}
    (hbase : ∀ s o, Base s o → k₀.blocks s = some ⟨o, true⟩) :
    RangeSound reg arch pt k₀ start k cur := by
  have H := I.world
  have hblocks : k.blocks = B := H.alloc.inv.rep.blocks_eq
  have hentry : ∀ v, pageCeil start ≤ v → v < pageCeil cur → ∃ p, A.pages v = some p ∧
      arch.isValid (entryOf arch buddyPages k pt (4096 * v)) = true ∧
      arch.toVir (arch.toPa (entryOf arch buddyPages k pt (4096 * v))) = reg.addr p := by
    intro v hl hu
    obtain ⟨p, hp⟩ := Option.ne_none_iff_exists'.mp ((I.pages v).mpr ⟨hl, hu⟩)
    obtain ⟨f, hf⟩ := H.mapped (i := ()) rfl hp
    have hok := ((H.represents (i := ()) rfl).of_some hf).2
    rw [I.root, (H.represents (i := ()) rfl).entryOf (H.tables (i := ()) rfl) hf, hok.isValid,
      hok.toPa]
    exact ⟨p, hp, rfl, toVir_page hw (H.page_lt (j := ()) rfl hp)⟩
  refine ⟨fun v hl hu => ?_, fun v hl hu => ?_, fun v w hl hu hl' hu' he => ?_,
    fun hcur s o hs => ?_⟩
  · obtain ⟨-, -, hvalid, -⟩ := hentry v hl hu
    exact hvalid
  · obtain ⟨p, hp, -, ha⟩ := hentry v hl hu
    obtain ⟨s, o, d, hs, rfl, hd, -⟩ := H.page_block (j := ()) rfl hp
    rw [ha, hblocks]
    refine ⟨s, o, hs, ?_, ?_⟩ <;> simp only [Region.addr] <;> omega
  · obtain ⟨p, hp, -, ha⟩ := hentry v hl hu
    obtain ⟨q, hq, -, ha'⟩ := hentry w hl' hu'
    rw [he, ha'] at ha
    rw [Region.addr_inj ha] at hq
    exact (H.owners.inj (i := ()) (j := ()) ⟨A, rfl, hp⟩ ⟨A, rfl, hq⟩).2
  · rw [hblocks] at hs
    rcases H.owners.cover hs with hb | ⟨i, A', hA', ht⟩ | ⟨i, v, A', hA', hp⟩
    · exact .inl (hbase s o hb)
    · cases hA'
      refine .inr ⟨A.tables, ?_, ht⟩
      rw [I.root]
      exact H.tables (i := ()) rfl
    · cases hA'
      have := (I.pages v).mp (by rw [hp]; exact Option.some_ne_none _)
      rw [hcur] at this
      omega

end RangeInv

/-- In every run whose growths end at most one page below `2 ^ 64`, every state has the range backed
by blocks in use, and every shrink returns. -/
theorem range_sound (reg : Region) (arch : Arch) (hw : reg.InWindow arch)
    (hsize : reg.size ≤ arch.memLimit) (pt : PageTable) (k₀ k : Kernel BuddyAllocator)
    (M : PageMap) (hpt : PtReach (buddySource reg arch hw) pt k₀ M) (start cur : Nat)
    (h : RangeReach arch pt k₀ start (· ≤ 2 ^ 64 - 4096) k cur) :
    RangeSound reg arch pt k₀ start k cur ∧
      ∀ new, start ≤ new → ∃ r k', vmDealloc arch buddyPages k pt cur new =
        .ok (r, k') := by
  obtain ⟨B₀, Base, T, hroot, H₀⟩ := hpt.world
  have hbase : ∀ s o, Base s o → k₀.blocks s = some ⟨o, true⟩ := by
    intro s o hs
    rw [show k₀.blocks = B₀ from H₀.alloc.inv.rep.blocks_eq]
    exact H₀.owners.base hs
  suffices hinv : ∃ B A, RangeInv reg arch pt Base start k B A cur by
    obtain ⟨B, A, I⟩ := hinv
    refine ⟨I.sound hw hbase, fun new hnew => ?_⟩
    obtain ⟨r, k', -, -, hrun, -⟩ := I.shrink hw hsize hnew
    exact ⟨r, k', hrun⟩
  induction h with
  | init =>
    obtain ⟨M', hM'⟩ := (H₀.represents (i := ()) rfl).rebase (pageCeil start)
    have hSp : Space (buddySource reg arch hw) k₀ B₀ pt.baseAddr T := H₀.space (i := ()) rfl
    have H := H₀.grow (i := ()) rfl hSp (.refl k₀ B₀ T) hM'
      fun v p hp => by cases hp
    rw [Spaces.update_unit] at H
    refine ⟨B₀, _, H, hroot, rfl, Nat.le_refl _, .inl rfl, fun v => ?_⟩
    exact iff_of_false (fun h => h rfl) (by omega)
  | grow _ hok hrun hr ih =>
    obtain ⟨B, A, I⟩ := ih
    exact I.grow hw hsize hok hrun hr
  | shrink _ hnew hrun ih =>
    obtain ⟨B, A, I⟩ := ih
    obtain ⟨r', k', B', A', hrun', I'⟩ := I.shrink hw hsize hnew
    rw [hrun'] at hrun
    cases hrun
    exact ⟨B', A', I'⟩

end

theorem vmDealloc_fst {σ : Type} {V : VirtualPageAllocator σ} {arch : Arch} {k k' : Kernel σ}
    {pt : PageTable} {old new r : Nat} (hlt : new < old)
    (h : vmDealloc arch V k pt old new = .ok (r, k')) : r = new := by
  unfold vmDealloc at h
  rw [if_neg (by omega)] at h
  simp only at h
  split at h
  · obtain ⟨k₁, -, h⟩ := bind_eq_ok.mp h
    cases h
    rfl
  · cases h
    rfl

/-- A region with no address space on it. -/
theorem Region.new_world (reg : Region) (arch : Arch) : ∃ (k : Kernel BuddyAllocator)
    (B : Blocks), reg.Alloc k.pages k.mem B ∧ reg.room B = reg.pages ∧
      World reg arch k B (fun s o => B s = some ⟨o, true⟩) fun _ : Unit => none := by
  obtain ⟨k, B, h, hroom⟩ := reg.new_alloc
  exact ⟨k, B, h, hroom, h, by simp, by simp, by simp, by simp,
    .bare (by simp [Spaces.Tab]) (by simp [Spaces.Page])⟩

/-- The sample region with no address space on it. -/
theorem sample_world : ∃ (k : Kernel BuddyAllocator) (B : Blocks),
    sampleRegion.Alloc k.pages k.mem B ∧ sampleRegion.room B = 99 ∧
      World sampleRegion .riscv k B (fun s o => B s = some ⟨o, true⟩) fun _ : Unit => none :=
  sampleRegion.new_world .riscv

/-- A new page table on the sample region: nothing is mapped, and the empty range at `start` holds
nothing. -/
theorem sample_range (start : Nat) : ∃ pt k B Base A,
    PtReach (buddySource sampleRegion .riscv sampleRegion_inWindow) pt k (fun _ => none) ∧
      RangeInv sampleRegion .riscv pt Base start k B A start ∧ (∀ v, A.map v = none) ∧
      3 ≤ sampleRegion.room B := by
  obtain ⟨k₀, B, hinv, hroom, H⟩ := sample_world
  rcases H.create sampleRegion_inWindow (i := ()) rfl (pageCeil start) with
    ⟨-, h0⟩ | ⟨p, k, B', T, hrun, H', -, hle, -⟩
  · omega
  rw [Spaces.update_unit] at H'
  refine ⟨⟨p, true⟩, k, B', _, _, .create hinv hrun,
    ⟨H', rfl, rfl, Nat.le_refl _, .inl rfl, fun v => ?_⟩, fun _ => rfl, by omega⟩
  exact iff_of_false (fun h => h rfl) (by omega)

/-- A range of one page, and then the empty range again. -/
theorem range_sound_sample : ∃ pt k₀ k₁ k₂,
    RangeReach .riscv pt k₀ 0x10000 (· ≤ 2 ^ 64 - 4096) k₁ 0x11000 ∧
      RangeSound sampleRegion .riscv pt k₀ 0x10000 k₁ 0x11000 ∧
      RangeReach .riscv pt k₀ 0x10000 (· ≤ 2 ^ 64 - 4096) k₂ 0x10000 ∧
      RangeSound sampleRegion .riscv pt k₀ 0x10000 k₂ 0x10000 := by
  obtain ⟨pt, k₀, B, Base, A, hpt, I, hclear, hroom⟩ := sample_range 0x10000
  have hsize : sampleRegion.size ≤ Arch.memLimit .riscv := by decide
  obtain ⟨k₁, B₁, A₁, hrun, -, -⟩ := I.world.allocOne sampleRegion_inWindow (i := ()) rfl
    false true true 0x11000 (v := 16)
    ⟨by rw [I.base]; decide, by rw [I.base]; decide, by decide⟩ (hclear 16) hroom
  have hgrow : vmAlloc .riscv buddyPages k₀ pt 0x10000 0x11000 false true true =
      .ok (0x11000, k₁) := by
    rw [I.root, ← hrun]
    rfl
  have hreach : RangeReach .riscv pt k₀ 0x10000 (· ≤ 2 ^ 64 - 4096) k₁ 0x11000 :=
    RangeReach.grow .init (by decide) hgrow (by decide)
  have hsound := range_sound sampleRegion .riscv sampleRegion_inWindow hsize pt k₀ k₁ _ hpt
    0x10000 0x11000 hreach
  obtain ⟨r, k₂, hback⟩ := hsound.2 0x10000 (Nat.le_refl _)
  have hr := vmDealloc_fst (by decide) hback
  subst hr
  have hreach₂ := hreach.shrink (Nat.le_refl _) hback
  exact ⟨pt, k₀, k₁, k₂, hreach, hsound.1, hreach₂, (range_sound sampleRegion .riscv
    sampleRegion_inWindow hsize pt k₀ k₂ _ hpt 0x10000 0x10000 hreach₂).1⟩

/-- A growth to the last byte of the 64-bit address space and back: `page_round_up` of the end wraps
around to zero, so the shrink releases nothing. -/
theorem range_end_wraps : ∃ pt k₀ k,
    PtReach (buddySource sampleRegion .riscv sampleRegion_inWindow) pt k₀ (fun _ => none) ∧
      RangeReach .riscv pt k₀ (2 ^ 64 - 4096) (· < 2 ^ 64) k (2 ^ 64 - 4096) ∧
      ¬RangeSound sampleRegion .riscv pt k₀ (2 ^ 64 - 4096) k (2 ^ 64 - 4096) := by
  obtain ⟨pt, k₀, B, Base, A, hpt, I, hclear, hroom⟩ := sample_range (2 ^ 64 - 4096)
  obtain ⟨k, B', A', hrun, H, E⟩ := I.world.allocOne sampleRegion_inWindow (i := ()) rfl
    false true true (2 ^ 64 - 1) (v := 2 ^ 52 - 1)
    ⟨by rw [I.base]; decide, by rw [I.base]; decide, by decide⟩ (hclear _) hroom
  have hgrow : vmAlloc .riscv buddyPages k₀ pt (2 ^ 64 - 4096) (2 ^ 64 - 1) false true true =
      .ok (2 ^ 64 - 1, k) := by
    rw [I.root, ← hrun]
    rfl
  have hback : vmDealloc .riscv buddyPages k pt (2 ^ 64 - 1) (2 ^ 64 - 4096) =
      .ok (2 ^ 64 - 4096, k) := by
    unfold vmDealloc
    rw [if_neg (by decide), if_neg (by decide)]
  refine ⟨pt, k₀, k, hpt, .shrink (.grow .init (by decide) hgrow (by decide))
    (Nat.le_refl _) hback,
    fun hs => ?_⟩
  rw [Spaces.update_unit] at H
  obtain ⟨p, hp, -, hfresh⟩ := E.inside (2 ^ 52 - 1) (Nat.le_refl _) (by decide)
  obtain ⟨s, o, d, hB', rfl, hd, hle, A₁, hA₁, hstart⟩ :=
    H.owners.backed (i := ()) ⟨A', rfl, hp⟩
  cases hA₁
  -- only one page is held
  have hd0 : d = 0 := by
    by_contra hne
    rw [(E.outside (2 ^ 52 - 1 - d) (by omega)).2] at hstart
    have := (I.pages (2 ^ 52 - 1 - d)).mp (by rw [hstart]; exact Option.some_ne_none _)
    omega
  subst hd0
  rw [Nat.add_zero] at hfresh hp
  rcases hs.released rfl s o (by rw [show k.blocks = B' from H.alloc.inv.rep.blocks_eq]; exact hB')
    with h₀ | ⟨T, hT, l, q, ht⟩
  · rw [show k₀.blocks = B from I.world.alloc.inv.rep.blocks_eq] at h₀
    exact hfresh.not_start o h₀
  · rw [I.root, ← E.root] at hT
    have ht' := hT.radix.unique (H.tables (i := ()) rfl).radix (by decide) ht
    exact H.owners.pageTable (i := ()) (j := ()) ⟨A', rfl, hp⟩ ⟨A', rfl, l, q, ht'⟩

end OsKernel.Mm

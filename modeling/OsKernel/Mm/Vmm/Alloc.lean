import OsKernel.Mm.Vmm.Grow

/-! What `vm_alloc` returns.  Where it meets a page that is mapped already inside a block, it gives
the block back and leaves the pages before that one mapped. -/

namespace OsKernel.Mm

open Lib Hsai Lib.BuddySystem BuddyAllocator

/-- The first mapped page among the `n` pages from `v` on, if there is one, is the first page of one
of the blocks that `vm_alloc` takes for `n` pages. -/
def PageMap.ChunkClear (M : PageMap) (v n : Nat) : Prop :=
  ∀ j d, n.testBit j = true → 0 < d → d < 2 ^ j →
    (∀ w, v ≤ w → w < v + n % 2 ^ j + d → M w = none) → M (v + n % 2 ^ j + d) = none

/-- The mappings after a failed `vm_alloc`. -/
def PageMap.Leftover (M M' : PageMap) (v n : Nat) : Prop :=
  M' = M ∨ (¬M.ChunkClear v n ∧ ∀ w, M' w = M w ∨ (M w = none ∧ v ≤ w ∧ w < v + n))

/-- The first mapped page of a range whose first page is not mapped. -/
theorem PageMap.first_mapped {M : PageMap} {v last : Nat} (hfirst : M v = none)
    (hclear : ¬M.Clear v last) : ∃ d, 0 < d ∧ v + d ≤ last ∧
      (∀ w, v ≤ w → w < v + d → M w = none) ∧ M (v + d) ≠ none := by
  obtain ⟨x, hl, hu, hx⟩ : ∃ x, v ≤ x ∧ x ≤ last ∧ M x ≠ none := by
    simpa [PageMap.Clear] using hclear
  have hex : ∃ d, M (v + d) ≠ none := ⟨x - v, by rwa [Nat.add_sub_cancel' hl]⟩
  have hmin := @Nat.find_min _ _ hex
  have hd := Nat.find_spec hex
  have hdx := Nat.find_min' hex (m := x - v) (by rwa [Nat.add_sub_cancel' hl])
  have hd0 : Nat.find hex ≠ 0 := fun h0 => by
    rw [h0, Nat.add_zero] at hd
    exact hd hfirst
  refine ⟨Nat.find hex, by omega, by omega, fun w hlw huw => ?_, hd⟩
  have := hmin (m := w - v) (by omega)
  rwa [not_not, Nat.add_sub_cancel' hlw] at this

section

variable {reg : Region} {arch : Arch} {k k' : Kernel BuddyAllocator} {B B' : Blocks}
  {Base : Nat → Nat → Prop} {ι : Type} [DecidableEq ι] {W : Spaces ι} {i : ι}
  {A : AddrSpace}
  {B₀ : Blocks} {A₀ : AddrSpace} {v n flags : Nat} {T : Nat → Nat → Option Nat}
  {M : PageMap}

theorem pageCeil_mul (v : Nat) : pageCeil (4096 * v) = v := by
  unfold pageCeil
  omega

/-- The pages mapped so far are given back. -/
theorem World.rollback (hw : reg.InWindow arch) (hsize : reg.pages < 2 ^ 31)
    (E : Extended reg arch B₀ A₀ B { A with tables := T } v n flags)
    (H : World reg arch k B Base (Function.update W i (some { A with tables := T, map := M })))
    (hA₀ : ∀ w, A₀.map w = none → A₀.pages w = none)
    (hend : PageRange arch A₀.base v n) (hlt : v + n < 2 ^ 52) :
    ∃ r k' B', vmDealloc arch buddyPages k ⟨A₀.root, true⟩ (4096 * (v + n)) (4096 * v) =
        .ok (r, k') ∧
      World reg arch k' B' Base
        (Function.update W i (some { A₀ with tables := T, map := M.unmap v n })) ∧
      Extended reg arch B₀ A₀ B' { A₀ with tables := T } v 0 flags ∧
      AgreeOn (reg.Other B₀ A₀.tables) k.mem k'.mem := by
  have hroot : A.root = A₀.root := E.root
  have hbase : A.base = A₀.base := E.base
  have hpages : (fun w => if v ≤ w ∧ w < v + n then none else A.pages w) = A₀.pages := by
    funext w
    by_cases hw : v ≤ w ∧ w < v + n
    · rw [if_pos hw, hA₀ w (E.clear w hw.1 hw.2)]
    · rw [if_neg hw]
      exact (E.outside w (by omega)).2
  have hspace : ({ A with tables := T, map := M } : AddrSpace).unmap v n =
      { A₀ with tables := T, map := M.unmap v n } := by
    simp only [AddrSpace.unmap, hpages, hroot, hbase]
  have hext : ∀ {B' : Blocks},
      (∀ {s o}, B₀ s = some ⟨o, true⟩ → B' s = some ⟨o, true⟩) →
      Extended reg arch B₀ A₀ B' { A₀ with tables := T } v 0 flags := fun hused =>
    ⟨rfl, rfl, E.sub, hused, E.table, fun _ _ => ⟨rfl, rfl⟩, fun _ hl hu => by omega,
      fun _ hl hu => by omega, fun _ _ _ hl hu => by omega⟩
  rcases Nat.eq_zero_or_pos n with rfl | hpos
  · rw [AddrSpace.unmap_zero] at hspace
    rw [← hspace]
    refine ⟨4096 * v, k, B, ?_, H, hext E.used, fun _ _ => rfl⟩
    unfold vmDealloc
    exact if_pos (by omega)
  have hi : Function.update W i (some { A with tables := T, map := M }) i =
      some { A with tables := T, map := M } := Function.update_self ..
  obtain ⟨k', B', hrun, H', hrel, hkeep⟩ := H.dealloc hw hsize hi (4096 * (v + n))
    (4096 * v) (by omega) (by omega)
    (by
      rw [pageCeil_mul, pageCeil_mul, Nat.add_sub_cancel_left]
      simp only [hbase]
      exact hend)
    (by
      rw [pageCeil_mul, pageCeil_mul]
      exact E.held)
    (by
      rw [pageCeil_mul, pageCeil_mul, Nat.add_sub_cancel_left]
      intro w s o d hl hu hp hs hd _
      have := E.whole w s o hl hu hp hs
      omega)
  rw [pageCeil_mul, pageCeil_mul] at hrel H'
  rw [Nat.add_sub_cancel_left, hspace, Function.update_idem] at H'
  have hused : ∀ {s o}, B₀ s = some ⟨o, true⟩ → B' s = some ⟨o, true⟩ := by
    intro s o hs
    refine (hrel.used s o).mpr ⟨E.used hs, ?_⟩
    rintro ⟨w, hl, hu, hp⟩
    obtain ⟨p, hp', -, hf⟩ := E.inside w hl hu
    rw [show A.pages w = some s from hp] at hp'
    cases hp'
    exact hf.not_start o hs
  refine ⟨4096 * v, k', B', ?_, H', hext hused, fun x hx => hkeep x ?_⟩
  · rw [← hroot]
    exact hrun
  · obtain ⟨⟨t, o, ht, hl, hu⟩, -⟩ := id hx
    refine ⟨⟨t, o, hused ht, hl, hu⟩, ?_⟩
    exact ((hext hused).other H' (Function.update_self ..) rfl hx).2

/-- The results of `vm_alloc` for the `n` pages from `v` on. -/
inductive GrowResult (reg : Region) (arch : Arch) (Base : Nat → Nat → Prop) (W : Spaces ι)
    (i : ι) (k₀ : Kernel BuddyAllocator) (B₀ : Blocks) (A₀ : AddrSpace)
    (v n flags newSz : Nat) :
    Except Fault (Nat × Kernel BuddyAllocator) → Prop
  | noTable (l : Nat) : GrowResult reg arch Base W i k₀ B₀ A₀ v n flags newSz
      (.error (.panic (walkFail l)))
  | tooLarge (large : 2 ^ 32 ≤ n) : GrowResult reg arch Base W i k₀ B₀ A₀ v n flags newSz
      (.error (.undefined "1U << 32"))
  | done {k' : Kernel BuddyAllocator} {B' : Blocks} {A' : AddrSpace}
      (H : World reg arch k' B' Base (Function.update W i (some A')))
      (E : Extended reg arch B₀ A₀ B' A' v n flags)
      (keep : AgreeOn (reg.Other B₀ A₀.tables) k₀.mem k'.mem) :
      GrowResult reg arch Base W i k₀ B₀ A₀ v n flags newSz (.ok (newSz, k'))
  | failed {k' : Kernel BuddyAllocator} {B' : Blocks} {T' : Nat → Nat → Option Nat}
      {M' : PageMap} (H : World reg arch k' B' Base
        (Function.update W i (some { A₀ with tables := T', map := M' })))
      (E : Extended reg arch B₀ A₀ B' { A₀ with tables := T' } v 0 flags)
      (keep : AgreeOn (reg.Other B₀ A₀.tables) k₀.mem k'.mem)
      (left : A₀.map.Leftover M' v n) :
      GrowResult reg arch Base W i k₀ B₀ A₀ v n flags newSz (.ok (0, k'))

omit [DecidableEq ι] in
theorem Extended.unmap_map (E : Extended reg arch B₀ A₀ B A v n flags) :
    A.map.unmap v n = A₀.map := by
  funext w
  unfold PageMap.unmap
  by_cases hw : v ≤ w ∧ w < v + n
  · rw [if_pos hw, E.clear w hw.1 hw.2]
  · rw [if_neg hw]
    exact (E.outside w (by omega)).1

omit [DecidableEq ι] in
/-- The mappings that are left when a page of the block at bit `j` is mapped already. -/
theorem Extended.leftover {j pa : Nat} (E : Extended reg arch B₀ A₀ B A v (n % 2 ^ j) flags)
    (hj : n.testBit j = true)
    (hclear : ¬A.map.Clear (v + n % 2 ^ j) (v + n % 2 ^ j + 2 ^ j - 1)) :
    A₀.map.Leftover
      ((A.map.map arch (v + n % 2 ^ j) (v + n % 2 ^ j + 2 ^ j - 1) pa flags).unmap v (n % 2 ^ j))
      v n := by
  have hle : n % 2 ^ j + 2 ^ j ≤ n :=
    (mod_two_pow_apart hj (Nat.lt_succ_self j)).trans (Nat.mod_le _ _)
  by_cases hfirst : A.map (v + n % 2 ^ j) = none
  · -- the first mapped page is inside the block
    refine .inr ⟨fun hcc => ?_, fun w => ?_⟩
    · obtain ⟨d, hd0, hdl, hmin, hd⟩ := PageMap.first_mapped hfirst hclear
      refine hd ?_
      rw [(E.outside _ (by omega)).1]
      refine hcc j d hj hd0 (by omega) fun w hlw huw => ?_
      by_cases hw : w < v + n % 2 ^ j
      · exact E.clear w hlw hw
      · rw [← (E.outside w (by omega)).1]
        exact hmin w (by omega) huw
    · unfold PageMap.unmap
      by_cases hw : v ≤ w ∧ w < v + n % 2 ^ j
      · rw [if_pos hw, E.clear w hw.1 hw.2]
        exact .inl rfl
      · rw [if_neg hw]
        cases hA : A.map w with
        | none =>
          rw [(E.outside w (by omega)).1] at hA
          by_cases hr : v + n % 2 ^ j ≤ w ∧ w ≤ v + n % 2 ^ j + 2 ^ j - 1
          · exact .inr ⟨hA, by omega, by omega⟩
          · rw [PageMap.map_outside (by omega)]
            exact .inl (E.outside w (by omega)).1
        | some mp =>
          rw [PageMap.map_of_some hA, ← hA]
          exact .inl (E.outside w (by omega)).1
  · obtain ⟨mp, hmp⟩ := Option.ne_none_iff_exists'.mp hfirst
    rw [PageMap.map_stuck hmp]
    exact .inl E.unmap_map

/-- `alloc_pages` of `2 ^ 32` pages or more shifts by the width of an `unsigned int`. -/
theorem pmmAllocPages_large (k : Kernel BuddyAllocator) {count : Nat} (h : 2 ^ 32 ≤ count) :
    pmmAllocPages buddyPages k count = .error (.undefined "1U << 32") := by
  have hrun : buddyPages.allocPages k.pages k.mem count = .error (.undefined "1U << 32") := by
    change k.pages.allocPages k.mem count = _
    unfold BuddyAllocator.allocPages
    have hlow : ∀ j, 0 ≤ j → j < 0 + 32 → 2 ^ j < count := fun j _ hj =>
      Nat.lt_of_lt_of_le (Nat.pow_lt_pow_right (by decide) (by omega)) h
    rw [if_neg (by omega), orderFor_error 32 0 hlow, error_bind]
  unfold pmmAllocPages
  rw [hrun, error_bind]

theorem World.allocLoop (hw : reg.InWindow arch) (hsize : reg.pages < 2 ^ 31) (e w u : Bool)
    {npg : Nat} (newSz : Nat) (hA₀ : ∀ x, A₀.map x = none → A₀.pages x = none)
    (hend : ∀ m, m ≤ npg → m ≤ 2 * reg.pages → PageRange arch A₀.base v m)
    (hlt : v + npg < 2 ^ 52) {k₀ : Kernel BuddyAllocator} (fuel j : Nat)
    (hfuel : fuel + j = 64) (H : World reg arch k B Base (Function.update W i (some A)))
    (E : Extended reg arch B₀ A₀ B A v (npg % 2 ^ j) (vmAllocFlags arch e w u))
    (hkeep : AgreeOn (reg.Other B₀ A₀.tables) k₀.mem k.mem) :
    GrowResult reg arch Base W i k₀ B₀ A₀ v npg (vmAllocFlags arch e w u) newSz
      (vmAllocLoop arch buddyPages ⟨A₀.root, true⟩ e w u (4096 * v) npg newSz fuel k j
        (4096 * (npg % 2 ^ j))) := by
  induction fuel generalizing j k B A with
  | zero =>
    have hj : j = 64 := by omega
    subst hj
    rw [Nat.mod_eq_of_lt (by omega)] at E
    exact .done H E hkeep
  | succ fuel ih =>
    rw [vmAllocLoop]
    by_cases hstop : npg < 2 ^ j
    · rw [if_pos hstop]
      rw [Nat.mod_eq_of_lt hstop] at E
      exact .done H E hkeep
    rw [if_neg hstop]
    have hsucc := mod_two_pow_succ npg j
    cases hbit : npg.testBit j with
    | false =>
      rw [hbit] at hsucc
      simp only [Bool.toNat_false, Nat.mul_zero, Nat.add_zero] at hsucc
      rw [if_neg (by simp), ← hsucc]
      rw [← hsucc] at E
      exact ih (j + 1) (by omega) H E hkeep
    | true =>
      rw [hbit] at hsucc
      simp only [Bool.toNat_true, Nat.mul_one] at hsucc
      have hle : npg % 2 ^ j + 2 ^ j ≤ npg := by
        rw [← hsucc]
        exact Nat.mod_le _ _
      have hva : wordAdd (4096 * v) (4096 * (npg % 2 ^ j)) = 4096 * (v + npg % 2 ^ j) := by
        unfold wordAdd wordSize
        omega
      have hroot : A.root = A₀.root := E.root
      have hi : Function.update W i (some A) i = some A := Function.update_self ..
      rw [if_pos rfl, hva, ← hroot, show pageSize * 2 ^ j = 4096 * 2 ^ j from rfl]
      by_cases hj : 32 ≤ j
      · have hlarge : 2 ^ 32 ≤ 2 ^ j := Nat.pow_le_pow_right (by decide) hj
        rw [pmmAllocPages_large k hlarge, error_bind]
        exact .tooLarge (by omega)
      have hmod : npg % 2 ^ j < 2 ^ j := Nat.mod_lt _ (Nat.two_pow_pos j)
      have hheld := H.held_le hi E.held
      have hback := hend (npg % 2 ^ j) (by omega) (by omega)
      have hnext : 2 ^ j ≤ reg.pages → PageRange arch A.base (v + npg % 2 ^ j) (2 ^ j) := by
        intro hle'
        rw [show A.base = A₀.base from E.base]
        exact (hend (npg % 2 ^ j + 2 ^ j) hle (by omega)).sub (by omega) (by omega)
      rcases H.allocChunk hw hi E (leafFlags_vmAlloc arch e w u) (by omega) hnext with
        ⟨hnone, -⟩ | ⟨s, k₁, hrun₁,
          ⟨l, hrun₂, -⟩ | ⟨k₂, B₂, A₂, hrun₂, H₂, E₂, hkeep₂, -⟩ |
          ⟨k₂, r, k₃, B₃, T₃, hrun₂, hrun₃, H₃, E₃, hclear, hkeep₃⟩⟩
      · rw [hnone, ok_bind]
        obtain ⟨r, k', B', hrun, H', E', hkeep'⟩ := World.rollback (A := A) (T := A.tables)
          (M := A.map) hw hsize E H hA₀ hback (by omega)
        simp only
        rw [hroot, hrun, ok_bind]
        refine .failed H' E' (fun x hx => by rw [hkeep' x hx, hkeep x hx])
          (.inl E.unmap_map)
      · rw [hrun₁, ok_bind]
        simp only [vmAllocMap_eq]
        rw [hrun₂, error_bind]
        exact .noTable l
      · rw [hrun₁, ok_bind]
        simp only [vmAllocMap_eq]
        rw [hrun₂, ok_bind]
        simp only [if_true]
        rw [← Nat.mul_add, ← hsucc, hroot]
        rw [← hsucc] at E₂
        rw [Function.update_idem] at H₂
        refine ih (j + 1) (by omega) H₂ E₂ fun x hx => ?_
        rw [hkeep₂ x (E.other H hi rfl hx), hkeep x hx]
      · rw [hrun₁, ok_bind]
        simp only [vmAllocMap_eq]
        rw [hrun₂, ok_bind]
        simp only [Bool.false_eq_true, if_false]
        rw [hrun₃, ok_bind]
        rw [Function.update_idem] at H₃
        obtain ⟨r', k', B', hrun, H', E', hkeep'⟩ :=
          World.rollback (A := A) (T := T₃) hw hsize E₃ H₃ hA₀ hback (by omega)
        rw [hroot, hrun, ok_bind]
        refine .failed H' E' (fun x hx => ?_) (E.leftover hbit hclear)
        rw [hkeep' x hx, hkeep₃ x (E.other H hi rfl hx), hkeep x hx]

/-- `vm_alloc`. -/
theorem World.vmAlloc (H : World reg arch k B Base W) (hw : reg.InWindow arch)
    (hsize : reg.pages < 2 ^ 31) (hi : W i = some A) (e w u : Bool) (oldSz newSz : Nat)
    (hheld : ∀ x, A.map x = none → A.pages x = none) (hle : oldSz ≤ newSz)
    (hlt : newSz ≤ 2 ^ 64 - 4096) (hend : ∀ m, m ≤ pageCeil newSz - pageCeil oldSz →
      m ≤ 2 * reg.pages → PageRange arch A.base (pageCeil oldSz) m) :
    GrowResult reg arch Base W i k B A (pageCeil oldSz) (pageCeil newSz - pageCeil oldSz)
      (vmAllocFlags arch e w u) newSz
      (vmAlloc arch buddyPages k ⟨A.root, true⟩ oldSz newSz e w u) := by
  have hmono : pageCeil oldSz ≤ pageCeil newSz := by
    unfold pageCeil
    omega
  have hlast : pageCeil newSz < 2 ^ 52 := by
    unfold pageCeil
    omega
  unfold Mm.vmAlloc
  rw [if_neg (by omega), pageRoundUp_pageCeil (by omega), pageRoundUp_pageCeil (by omega)]
  have hn : wordSub (4096 * pageCeil newSz) (4096 * pageCeil oldSz) / pageSize =
      pageCeil newSz - pageCeil oldSz := by
    rw [wordSub_of_le (by omega) (by omega), ← Nat.mul_sub, show pageSize = 4096 from rfl,
      Nat.mul_div_cancel_left _ (by decide)]
  simp only
  rw [hn]
  have hW : World reg arch k B Base (Function.update W i (some A)) := by
    rwa [Function.update_eq_self_iff.mpr hi.symm]
  have hE : Extended reg arch B A B A (pageCeil oldSz)
      ((pageCeil newSz - pageCeil oldSz) % 2 ^ 0) (vmAllocFlags arch e w u) := by
    rw [Nat.pow_zero, Nat.mod_one]
    exact .refl ..
  have := World.allocLoop hw hsize e w u newSz hheld hend (by omega) 64 0 rfl hW hE fun _ _ => rfl
  rwa [Nat.pow_zero, Nat.mod_one, Nat.mul_zero] at this

/-- The loop of `vm_alloc` for one page, with pages left for it and for the tables above it. -/
theorem World.allocOne (H : World reg arch k B Base W) (hw : reg.InWindow arch)
    (hi : W i = some A) (e w u : Bool) (newSz : Nat) (hv : PageRange arch A.base v 1)
    (hclear : A.map v = none) (hroom : arch.top + 1 ≤ reg.room B) :
    ∃ k' B' A', vmAllocLoop arch buddyPages ⟨A.root, true⟩ e w u (4096 * v) 1 newSz 64 k 0 0 =
        .ok (newSz, k') ∧
      World reg arch k' B' Base (Function.update W i (some A')) ∧
      Extended reg arch B A B' A' v 1 (vmAllocFlags arch e w u) := by
  have hfits := hv.fits
  have hva : wordAdd (4096 * v) 0 = 4096 * (v + 0) := by
    unfold wordAdd wordSize
    omega
  have hnot : ¬¬A.map.Clear (v + 0) (v + 0 + 2 ^ 0 - 1) := not_not.mpr fun x hl hu => by
    rw [show x = v by omega]
    exact hclear
  rw [vmAllocLoop, if_neg (by decide), if_pos (by decide), hva]
  rcases H.allocChunk hw hi (.refl B A v (vmAllocFlags arch e w u)) (leafFlags_vmAlloc arch e w u)
    (o := 0) (by decide) (fun _ => hv) with
    ⟨-, hsmall⟩ | ⟨s, k₁, hrun₁,
      ⟨l, -, hlt⟩ | ⟨k₂, B₂, A₂, hrun₂, H₂, E₂, -⟩ |
      ⟨-, -, -, -, -, -, -, -, -, hc, -⟩⟩
  · have := H.alloc.room_eq_zero fun s j hs => absurd (hsmall s j hs) (by omega)
    omega
  · omega
  · refine ⟨k₂, B₂, A₂, ?_, H₂, E₂⟩
    rw [hrun₁, ok_bind]
    simp only [vmAllocMap_eq]
    rw [show pageSize * 2 ^ 0 = 4096 * 2 ^ 0 from rfl, hrun₂, ok_bind]
    simp only [if_true]
    rw [vmAllocLoop, if_pos (by decide)]
  · exact absurd hc hnot

end

end OsKernel.Mm

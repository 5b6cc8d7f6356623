import OsKernel.Mm.Vmm.Transfer

/-! `vm_alloc` and `vm_dealloc` over all address spaces.  `vm_alloc` takes one block for each bit of
the page count; when it fails it gives back the blocks it has mapped. -/

namespace OsKernel.Mm

open Lib Hsai Lib.BuddySystem BuddyAllocator

/-- The flags of the pages that `vm_alloc` maps. -/
def vmAllocFlags (arch : Arch) (executable writeable forUser : Bool) : Nat :=
  (if executable then
    if writeable then arch.mapDataPageFlags ||| arch.mapCodePageFlags else arch.mapCodePageFlags
  else arch.mapDataPageFlags) ||| arch.validFlag ||| plvFlag arch forUser

theorem vmAllocMap_eq {σ : Type} (arch : Arch) (V : VirtualPageAllocator σ) (e w u : Bool)
    (k : Kernel σ) (pt : PageTable) (va size mem : Nat) :
    vmAllocMap arch V e w u k pt va size mem =
      mapPages arch V k pt va size mem (vmAllocFlags arch e w u) := by
  unfold vmAllocMap vmAllocFlags mapDataCodePages mapCodePages mapDataPages
  cases e
  · simp only [Bool.false_eq_true, if_false]
  · cases w
    · simp only [Bool.false_eq_true, if_false, if_true]
    · simp only [if_true]

theorem leafFlags_vmAlloc (arch : Arch) (e w u : Bool) :
    LeafFlags arch (vmAllocFlags arch e w u) := by
  cases arch <;> cases e <;> cases w <;> cases u <;> decide

/-- The number of the first page at or after an address. -/
def pageCeil (addr : Nat) : Nat := (addr + 4095) / 4096

theorem pageRoundUp_pageCeil {addr : Nat} (h : addr ≤ 2 ^ 64 - 4096) :
    pageRoundUp addr = 4096 * pageCeil addr := by
  rw [pageRoundUp_eq (by omega), pageCeil, Nat.mul_comm]

section

variable {reg : Region} {arch : Arch} {k k' : Kernel BuddyAllocator} {B B' : Blocks}
  {Base : Nat → Nat → Prop} {ι : Type} [DecidableEq ι] {W : Spaces ι} {i : ι}
  {A : AddrSpace}

/-! ### `vm_dealloc` -/

omit [DecidableEq ι] in
/-- A space holds no more pages than there are. -/
theorem World.held_le (H : World reg arch k B Base W) (hi : W i = some A) {v n : Nat}
    (hheld : ∀ w, v ≤ w → w < v + n → A.pages w ≠ none) : n ≤ reg.pages := by
  have hpage : ∀ d < n, A.pages (v + d) = some ((A.pages (v + d)).getD 0) := by
    intro d hd
    obtain ⟨p, hp⟩ := Option.ne_none_iff_exists'.mp (hheld (v + d) (by omega) (by omega))
    rw [hp]
    rfl
  have hcard := Finset.card_le_card_of_injOn (s := Finset.range n) (t := Finset.range reg.pages)
    (fun d => (A.pages (v + d)).getD 0)
    (fun d hd => by
      rw [Finset.coe_range] at hd ⊢
      exact H.page_lt hi (hpage d hd))
    (fun d hd d' hd' he => by
      rw [Finset.coe_range] at hd hd'
      simp only at he
      have := (H.owners.inj ⟨A, hi, hpage d hd⟩ ⟨A, hi, he ▸ hpage d' hd'⟩).2
      omega)
  simpa using hcard

theorem AddrSpace.unmap_zero (A : AddrSpace) (v : Nat) : A.unmap v 0 = A := by
  have hm : A.map.unmap v 0 = A.map := by
    funext w
    exact if_neg (by omega)
  have hp : (fun w => if v ≤ w ∧ w < v + 0 then none else A.pages w) = A.pages := by
    funext w
    exact if_neg (by omega)
  rw [AddrSpace.unmap, hm, hp]

theorem World.vmUnmap (H : World reg arch k B Base W) (hw : reg.InWindow arch)
    (hi : W i = some A) {v n : Nat} (hv : PageRange arch A.base v n) (hlt : v + n < 2 ^ 52)
    (hheld : ∀ w, v ≤ w → w < v + n → A.pages w ≠ none) (hwhole : A.Whole B v n) :
    ∃ k' B', vmUnmap arch buddyPages k ⟨A.root, true⟩ (4096 * v) n true = .ok k' ∧
      World reg arch k' B' Base (Function.update W i (some (A.unmap v n))) ∧
      ReleasedSet B (fun t => ∃ w, v ≤ w ∧ w < v + n ∧ A.pages w = some t) B' ∧
      AgreeOn (reg.Other B' A.tables) k.mem k'.mem := by
  have hend : (wordAdd (4096 * v) (n * pageSize) - 4096 * v) / pageSize = n := by
    unfold wordAdd pageSize wordSize
    omega
  unfold Mm.vmUnmap
  rw [if_neg (by unfold pageSize; omega)]
  simp only
  rw [hend]
  exact H.unmapFree hw hi hv hlt hheld hwhole

theorem World.dealloc (H : World reg arch k B Base W) (hw : reg.InWindow arch)
    (hsize : reg.pages < 2 ^ 31) (hi : W i = some A) (old new : Nat) (hlt : new < old)
    (hold : old ≤ 2 ^ 64 - 4096)
    (hv : PageRange arch A.base (pageCeil new) (pageCeil old - pageCeil new))
    (hheld : ∀ w, pageCeil new ≤ w → w < pageCeil old → A.pages w ≠ none)
    (hwhole : A.Whole B (pageCeil new) (pageCeil old - pageCeil new)) :
    ∃ k' B', vmDealloc arch buddyPages k ⟨A.root, true⟩ old new = .ok (new, k') ∧
      World reg arch k' B' Base
        (Function.update W i (some (A.unmap (pageCeil new) (pageCeil old - pageCeil new)))) ∧
      ReleasedSet B (fun t => ∃ w, pageCeil new ≤ w ∧ w < pageCeil old ∧ A.pages w = some t)
      B' ∧
      AgreeOn (reg.Other B' A.tables) k.mem k'.mem := by
  have hmono : pageCeil new ≤ pageCeil old := by
    unfold pageCeil
    omega
  have hsum : pageCeil new + (pageCeil old - pageCeil new) = pageCeil old := by omega
  have hn : pageCeil old - pageCeil new ≤ reg.pages :=
    H.held_le hi (v := pageCeil new) fun w hl hu => hheld w hl (by omega)
  unfold vmDealloc
  rw [if_neg (by omega), pageRoundUp_pageCeil (by omega), pageRoundUp_pageCeil (by omega)]
  by_cases heq : pageCeil new < pageCeil old
  · have hint : intOfUlong ((4096 * pageCeil old - 4096 * pageCeil new) / pageSize) =
        pageCeil old - pageCeil new := by
      rw [← Nat.mul_sub, show pageSize = 4096 from rfl, Nat.mul_div_cancel_left _ (by decide),
        intOfUlong, if_pos (by omega)]
      omega
    obtain ⟨k', B', hrun, H', hrel, hkeep⟩ := H.vmUnmap hw hi (v := pageCeil new)
      (n := pageCeil old - pageCeil new) hv (by rw [hsum]; unfold pageCeil; omega)
      (fun w hl hu => hheld w hl (by omega)) hwhole
    rw [hsum] at hrel
    refine ⟨k', B', ?_, H', hrel, hkeep⟩
    simp only
    rw [if_pos (by omega), hint, hrun, ok_bind]
  · have hz : pageCeil old - pageCeil new = 0 := by omega
    rw [hz, A.unmap_zero, Function.update_eq_self_iff.mpr hi.symm]
    refine ⟨k, B, ?_, H, .refl ?_, fun _ _ => rfl⟩
    · simp only
      rw [if_neg (by omega)]
    · rintro t j - ⟨w, hl, hu, -⟩
      omega

/-! ### `vm_alloc` -/

/-- The space `A₀` with the `n` pages from `v` on mapped to blocks that were not in use, and with
more tables. -/
structure Extended (reg : Region) (arch : Arch) (B₀ : Blocks) (A₀ : AddrSpace) (B : Blocks)
    (A : AddrSpace) (v n flags : Nat) : Prop where
  root : A.root = A₀.root
  base : A.base = A₀.base
  sub : ∀ {l q a}, A₀.tables l q = some a → A.tables l q = some a
  used : ∀ {s o}, B₀ s = some ⟨o, true⟩ → B s = some ⟨o, true⟩
  table : ∀ {a}, IsTable A.tables a →
    IsTable A₀.tables a ∨ ∃ s, a = reg.addr s ∧ ∀ o, B₀ s ≠ some ⟨o, true⟩
  outside : ∀ w, w < v ∨ v + n ≤ w → A.map w = A₀.map w ∧ A.pages w = A₀.pages w
  clear : ∀ w, v ≤ w → w < v + n → A₀.map w = none
  inside : ∀ w, v ≤ w → w < v + n → ∃ p, A.pages w = some p ∧
    A.map w = some ⟨arch.toPhy (reg.addr p), flags⟩ ∧ Unused B₀ p
  whole : ∀ w s o, v ≤ w → w < v + n → A.pages w = some s → B s = some ⟨o, true⟩ →
    w + 2 ^ o ≤ v + n

namespace Extended

variable {B₀ : Blocks} {A₀ : AddrSpace} {v n flags : Nat}

theorem refl (B : Blocks) (A : AddrSpace) (v flags : Nat) : Extended reg arch B A B A v 0 flags :=
  ⟨rfl, rfl, id, id, .inl, fun _ _ => ⟨rfl, rfl⟩,
    fun _ hl hu => by omega, fun _ hl hu => by omega,
    fun _ _ _ hl hu => by omega⟩

theorem held (E : Extended reg arch B₀ A₀ B A v n flags) (w : Nat) (hl : v ≤ w)
    (hu : w < v + n) : A.pages w ≠ none := by
  obtain ⟨p, hp, -⟩ := E.inside w hl hu
  rw [hp]
  exact Option.some_ne_none p

omit [DecidableEq ι] in
/-- Bytes in use outside the tables stay so. -/
theorem other (E : Extended reg arch B₀ A₀ B A v n flags) (H : World reg arch k B Base W)
    {A' : AddrSpace} (hi : W i = some A') (hT : A'.tables = A.tables) {x : Nat}
    (hx : reg.Other B₀ A₀.tables x) : reg.Other B A.tables x := by
  obtain ⟨⟨t, o, ht, hl, hu⟩, hnt⟩ := hx
  rw [← hT]
  refine H.other_of_block hi (E.used ht) hl hu fun ha => ?_
  rw [hT] at ha
  rcases E.table ha with ha | ⟨s, he, hs⟩
  · refine hnt ⟨_, ha, hl, ?_⟩
    obtain ⟨l, q, hq⟩ := ha
    obtain ⟨s, he, hs⟩ := H.tableBlock hi (a := reg.addr t)
      ⟨l, q, by rw [hT]; exact E.sub hq⟩
    rw [← Region.addr_inj he, E.used ht] at hs
    cases hs
    simpa using hu
  · rw [← Region.addr_inj he] at hs
    exact hs o ht

end Extended

omit [DecidableEq ι] in
theorem World.target_page (H : World reg arch k B Base W) (hw : reg.InWindow arch)
    {s o d flags : Nat} (hs : B s = some ⟨o, true⟩) (hd : d < 2 ^ o) :
    PageMap.target arch (reg.addr s) flags d = ⟨arch.toPhy (reg.addr (s + d)), flags⟩ := by
  have hb := H.alloc.block_bound hs
  simp only at hb
  have hlt : reg.addr (s + d) + 4096 ≤ reg.mem + reg.size := Region.page_bound (by omega)
  have hend := reg.end_le
  have hadd : wordAdd (reg.addr s) (4096 * d) = reg.addr (s + d) := by
    unfold wordAdd wordSize
    simp only [Region.addr] at *
    omega
  have hwin := hw.windowed (reg.addr (s + d)) (by simp only [Region.addr]; omega) (by omega)
  have hal := reg.mem_aligned
  have hmod : arch.toPhy (reg.addr (s + d)) % 4096 = 0 := by
    rw [hwin.toPhy_mod]
    simp only [Region.addr]
    omega
  rw [PageMap.target, hadd, pageRoundDown_eq]
  congr 1
  omega

/-- `map_pages` of the pages of a block held outside. -/
theorem World.mapBlock (H : World reg arch k B Base W) (hw : reg.InWindow arch)
    (hi : W i = some A) {s o u flags : Nat} (hs : Base s o) (hf : LeafFlags arch flags)
    (hu : PageRange arch A.base u (2 ^ o)) :
    (∃ l, mapPages arch buddyPages k ⟨A.root, true⟩ (4096 * u) (4096 * 2 ^ o)
        (reg.addr s) flags = .error (.panic (walkFail l)) ∧ reg.room B < arch.top * 2 ^ o) ∨
      ∃ r k₂ B₂ T₂, mapPages arch buddyPages k ⟨A.root, true⟩ (4096 * u) (4096 * 2 ^ o)
          (reg.addr s) flags = .ok (r, k₂) ∧
        Grown (buddySource reg arch hw) k B A.tables k₂ B₂ T₂ ∧
        (r = true ↔ A.map.Clear u (u + 2 ^ o - 1)) ∧
        World reg arch k₂ B₂ Base (Function.update W i (some { A with
          tables := T₂
          map := A.map.map arch u (u + 2 ^ o - 1) (reg.addr s) flags })) ∧
        (r = true → World reg arch k₂ B₂ (fun t j => Base t j ∧ t ≠ s)
          (Function.update W i (some { A with
            tables := T₂
            map := A.map.map arch u (u + 2 ^ o - 1) (reg.addr s) flags
            pages := fun w =>
              if u ≤ w ∧ w < u + 2 ^ o then some (s + (w - u)) else A.pages w }))) ∧
        reg.room B ≤ reg.room B₂ + arch.top * 2 ^ o := by
  have hpos := Nat.two_pow_pos o
  have hB := H.owners.base hs
  have hlt : reg.addr s < 2 ^ 64 := by
    have hb := H.alloc.block_bound hB
    have : reg.addr s + 4096 ≤ reg.mem + reg.size :=
      Region.page_bound (by simp only at hb; omega)
    have := reg.end_le
    omega
  have hfirst : 4096 * u / 4096 = u := Nat.mul_div_cancel_left u (by decide)
  have hlast : (4096 * u + 4096 * 2 ^ o - 1) / 4096 = u + 2 ^ o - 1 := by omega
  have hcount : u + 2 ^ o - 1 - u + 1 = 2 ^ o := by omega
  have hfits := hu.fits
  have hspec := mapPages_spec (S := buddySource reg arch hw) (4096 * u)
    (4096 * 2 ^ o) hf (by omega) (by omega) (by rw [hfirst, hlast, hcount]; exact hu) hlt
    (H.space hi) (H.represents hi)
  rw [hfirst, hlast, hcount] at hspec
  rcases hspec with
      ⟨l, hrun, hroom⟩ | ⟨r, k₂, B₂, T₂, hrun, Sp₂, hg, hM₂, hr, hroom⟩
  · exact .inl ⟨l, hrun, hroom⟩
  have H₂ := H.grow hi Sp₂ hg hM₂ fun v p hp => by
    obtain ⟨f, hv⟩ := H.mapped hi hp
    rw [hv, PageMap.map_of_some hv]
  refine .inr ⟨r, k₂, B₂, T₂, hrun, hg, hr, H₂, fun htrue => ?_, hroom⟩
  have hclear := hr.mp htrue
  have H₃ := H₂.own (i := i) (A := { A with
      tables := T₂
      map := A.map.map arch u (u + 2 ^ o - 1) (reg.addr s) flags })
    (v := u) (Function.update_self ..) hs
    (fun w hl hu' => by
      cases hp : A.pages w with
      | none => rfl
      | some p =>
        obtain ⟨f, hv⟩ := H.mapped hi hp
        rw [hclear w hl (by omega)] at hv
        cases hv)
    (fun d hd => ⟨flags, by
      simp only
      rw [PageMap.map_clear hclear (by omega) (by omega), Nat.add_sub_cancel_left,
        H.target_page hw hB hd]⟩)
  rwa [Function.update_idem] at H₃

section Chunk

variable {B₀ : Blocks} {A₀ : AddrSpace} {v n flags s o : Nat} {T : Nat → Nat → Option Nat}

omit [DecidableEq ι] in
/-- More tables, on pages that were not in use. -/
theorem Extended.retable (E : Extended reg arch B₀ A₀ B A v n flags)
    (H : World reg arch k B Base W) (hi : W i = some A) (h' : reg.Alloc k'.pages k'.mem B')
    (hsub : ∀ {l q a}, A.tables l q = some a → T l q = some a)
    (hused : ∀ {t j}, B t = some ⟨j, true⟩ → B' t = some ⟨j, true⟩)
    (htab : ∀ {a}, IsTable T a →
      IsTable A.tables a ∨ ∃ t, a = reg.addr t ∧ ∀ j, B t ≠ some ⟨j, true⟩) :
    Extended reg arch B₀ A₀ B' { A with tables := T } v n flags where
  root := E.root
  base := E.base
  sub := fun h => hsub (E.sub h)
  used := fun h => hused (E.used h)
  table := by
    intro a ha
    rcases htab ha with ha | ⟨t, rfl, ht⟩
    · exact E.table ha
    · exact .inr ⟨t, rfl, fun j hj => ht j (E.used hj)⟩
  outside := E.outside
  clear := E.clear
  inside := E.inside
  whole := by
    intro w s j hl hu hp hs
    obtain ⟨t, o, d, ht, rfl, hd, -, -⟩ := H.owners.backed ⟨A, hi, hp⟩
    have hd0 := h'.inv.rep.part.start_eq (hused ht) hd hs
    subst hd0
    rw [Nat.add_zero, hused ht] at hs
    cases hs
    exact E.whole w t _ hl hu hp ht

/-- One more block, mapped after the others. -/
theorem Extended.block (E : Extended reg arch B₀ A₀ B { A with tables := T } v n flags)
    (h : reg.Alloc k.pages k.mem B) (hs : B s = some ⟨o, true⟩)
    (hfresh : ∀ j, B₀ s ≠ some ⟨j, true⟩)
    (hclear : A.map.Clear (v + n) (v + n + 2 ^ o - 1))
    (htarget : ∀ d < 2 ^ o, PageMap.target arch (reg.addr s) flags d =
      ⟨arch.toPhy (reg.addr (s + d)), flags⟩) :
    Extended reg arch B₀ A₀ B { A with
      tables := T
      map := A.map.map arch (v + n) (v + n + 2 ^ o - 1) (reg.addr s) flags
      pages := fun w => if v + n ≤ w ∧ w < v + n + 2 ^ o then some (s + (w - (v + n)))
        else A.pages w } v (n + 2 ^ o) flags where
  root := E.root
  base := E.base
  sub := E.sub
  used := E.used
  table := E.table
  outside := by
    intro w hw
    have hpos := Nat.two_pow_pos o
    simp only
    rw [PageMap.map_outside (by omega), if_neg (by omega)]
    exact E.outside w (by omega)
  clear := by
    intro w hl hu
    by_cases hw : w < v + n
    · exact E.clear w hl hw
    · rw [← (E.outside w (by omega)).1]
      exact hclear w (by omega) (by omega)
  inside := by
    intro w hl hu
    simp only
    by_cases hw : w < v + n
    · rw [PageMap.map_outside (by omega), if_neg (by omega)]
      exact E.inside w hl hw
    · refine ⟨s + (w - (v + n)), if_pos (by omega), ?_, fun t j hj => ?_⟩
      · rw [PageMap.map_clear hclear (by omega) (by omega), htarget _ (by omega)]
      · by_contra hc
        have := h.inv.rep.part.eq_of_mem hs (E.used hj) (p := s + (w - (v + n)))
          ⟨by omega, by simp only; omega⟩ ⟨by omega, by simp only; omega⟩
        subst this
        exact hfresh j hj
  whole := by
    intro w t j hl hu hp ht
    have hpos := Nat.two_pow_pos o
    simp only at hp
    by_cases hw : w < v + n
    · rw [if_neg (by omega)] at hp
      have := E.whole w t j hl hw hp ht
      omega
    · rw [if_pos (by omega)] at hp
      cases hp
      have hd0 := h.inv.rep.part.start_eq hs (d := w - (v + n)) (by simp only; omega) ht
      rw [hd0, Nat.add_zero, hs] at ht
      cases ht
      omega

omit [DecidableEq ι] in
theorem World.base_cancel (H : World reg arch k B Base W)
    (hfresh : ∀ j, B s ≠ some ⟨j, true⟩) :
    (fun t j => ((t = s ∧ j = o) ∨ Base t j) ∧ t ≠ s) = Base := by
  funext t j
  simp only [eq_iff_iff]
  constructor
  · rintro ⟨⟨rfl, -⟩ | hb, hne⟩
    · exact absurd rfl hne
    · exact hb
  · intro hb
    refine ⟨.inr hb, ?_⟩
    rintro rfl
    exact hfresh j (H.owners.base hb)

/-- The block `s` of `2 ^ o` pages of zeros, mapped from `u` on. -/
structure Chunk (reg : Region) (B : Blocks) (A : AddrSpace) (B' : Blocks) (A' : AddrSpace)
    (m' : Mem) (s u o : Nat) : Prop where
  used : ∀ {t j}, B t = some ⟨j, true⟩ → B' t = some ⟨j, true⟩
  block : B' s = some ⟨o, true⟩
  inside : ∀ d < 2 ^ o, A'.pages (u + d) = some (s + d)
  outside : ∀ w, w < u ∨ u + 2 ^ o ≤ w → A'.pages w = A.pages w
  zero : ∀ x, reg.addr s ≤ x → x < reg.addr s + 4096 * 2 ^ o → m' x = 0

/-- One turn of the loop of `vm_alloc` with the bit set: no block is left; or a table cannot
be added; or the block is mapped; or one of its pages is mapped already, and the block is
given back. -/
theorem World.allocChunk (H : World reg arch k B Base W) (hw : reg.InWindow arch)
    (hi : W i = some A) (E : Extended reg arch B₀ A₀ B A v n flags) (hf : LeafFlags arch flags)
    (ho : o ≤ 31) (hend : 2 ^ o ≤ reg.pages → PageRange arch A.base (v + n) (2 ^ o)) :
    (pmmAllocPages buddyPages k (2 ^ o) = .ok (none, k) ∧ ∀ s j, B s = some ⟨j, false⟩ →
      j < o) ∨ ∃ s k₁, pmmAllocPages buddyPages k (2 ^ o) = .ok (some (reg.addr s), k₁) ∧
        ((∃ l, mapPages arch buddyPages (clearPages k₁ (reg.addr s) (2 ^ o)) ⟨A.root, true⟩
            (4096 * (v + n)) (4096 * 2 ^ o) (reg.addr s) flags = .error (.panic (walkFail l)) ∧
            reg.room B < (arch.top + 1) * 2 ^ o) ∨
          (∃ k₂ B₂ A₂, mapPages arch buddyPages (clearPages k₁ (reg.addr s) (2 ^ o))
              ⟨A.root, true⟩ (4096 * (v + n)) (4096 * 2 ^ o) (reg.addr s) flags =
              .ok (true, k₂) ∧
            World reg arch k₂ B₂ Base (Function.update W i (some A₂)) ∧
            Extended reg arch B₀ A₀ B₂ A₂ v (n + 2 ^ o) flags ∧
            AgreeOn (reg.Other B A.tables) k.mem k₂.mem ∧
            Chunk reg B A B₂ A₂ k₂.mem s (v + n) o) ∨
          ∃ k₂ r k₃ B₃ T₃, mapPages arch buddyPages (clearPages k₁ (reg.addr s) (2 ^ o))
              ⟨A.root, true⟩ (4096 * (v + n)) (4096 * 2 ^ o) (reg.addr s) flags =
              .ok (false, k₂) ∧
            pmmFreePages buddyPages k₂ (reg.addr s) = .ok (r, k₃) ∧
            World reg arch k₃ B₃ Base (Function.update W i (some { A with
              tables := T₃
              map := A.map.map arch (v + n) (v + n + 2 ^ o - 1) (reg.addr s) flags })) ∧
            Extended reg arch B₀ A₀ B₃ { A with tables := T₃ } v n flags ∧
            ¬A.map.Clear (v + n) (v + n + 2 ^ o - 1) ∧
            AgreeOn (reg.Other B A.tables) k.mem k₃.mem) := by
  have hclog : Nat.clog 2 (2 ^ o) = o := Nat.clog_pow 2 o (by decide)
  rcases H.allocPages (Nat.two_pow_pos o) (Nat.pow_le_pow_right (by decide) ho) with
    ⟨hnone, hsmall⟩ | ⟨s, k₁, B₁, hrun₁, ha, H₁, hkeep₁⟩
  · rw [hclog] at hsmall
    exact .inl ⟨hnone, hsmall⟩
  rw [hclog] at ha H₁
  refine .inr ⟨s, k₁, hrun₁, ?_⟩
  have hB₁ : B₁ s = some ⟨o, true⟩ := (ha.used s o).mpr (.inl ⟨rfl, rfl⟩)
  have hmem : ∀ x, x < reg.addr s ∨ reg.addr s + 4096 * 2 ^ o ≤ x →
      (clearPages k₁ (reg.addr s) (2 ^ o)).mem x = k₁.mem x := fun x hx =>
    Mem.fill_outside (by unfold pageSize; omega)
  have H₁' : World reg arch (clearPages k₁ (reg.addr s) (2 ^ o)) B₁ _ W :=
    H₁.write_base (.inl ⟨rfl, rfl⟩) hmem
  have hkeep : AgreeOn (reg.Used B) k.mem (clearPages k₁ (reg.addr s) (2 ^ o)).mem := by
    intro x hx
    rw [hmem x (by_contra fun hc => ha.not_used H₁.alloc hx (by omega) (by omega)), hkeep₁ x hx]
  have hother : ∀ {x}, reg.Other B A.tables x → reg.Other B₁ A.tables x := by
    rintro x ⟨⟨t, j, ht, hl, hu⟩, hnt⟩
    exact ⟨⟨t, j, (ha.used t j).mpr (.inr ht), hl, hu⟩, hnt⟩
  have hsmall : 2 ^ o ≤ reg.pages := by
    have := H₁.alloc.block_bound hB₁
    simp only at this
    omega
  rcases H₁'.mapBlock hw hi (.inl ⟨rfl, rfl⟩) hf (hend hsmall) with
    ⟨l, hrun₂, hroom⟩ | ⟨r, k₂, B₂, T₂, hrun₂, hg, hr, H₂, H₂', -⟩
  · refine .inl ⟨l, hrun₂, ?_⟩
    have hunits := ha.units
    have hpos := Nat.two_pow_pos o
    unfold Region.room at hroom ⊢
    rw [Nat.add_mul, Nat.one_mul]
    omega
  right
  obtain ⟨ps, hps, htab⟩ := hg.grabs
  have hused₂ : ∀ {t j}, B₁ t = some ⟨j, true⟩ → B₂ t = some ⟨j, true⟩ := fun h =>
    (grabs_used hps _ _).mpr (.inl h)
  have htab₂ : ∀ {a}, IsTable T₂ a →
      IsTable A.tables a ∨ ∃ t, a = reg.addr t ∧ ∀ j, B t ≠ some ⟨j, true⟩ := by
    intro a ha'
    rcases (htab a).mp ha' with ha' | hp
    · exact .inl ha'
    · obtain ⟨t, rfl, ht⟩ := grabs_fresh hps hp
      exact .inr ⟨t, rfl, fun j hj => ht j ((ha.used t j).mpr (.inr hj))⟩
  have hkeep₂ : AgreeOn (reg.Other B A.tables) k.mem k₂.mem := by
    intro x hx
    rw [hg.keep x (hother hx), hkeep x hx.1]
  cases r with
  | true =>
    left
    have hclear := hr.mp rfl
    have E₂ := E.retable H hi H₂.alloc hg.sub (fun h => hused₂ ((ha.used _ _).mpr (.inr h)))
      htab₂
    have E₃ := E₂.block H₂.alloc (hused₂ hB₁) (fun j hj => ha.fresh j (E.used hj)) hclear
      fun d hd => H₁'.target_page hw hB₁ hd
    have H₃ := H₂' rfl
    rw [H.base_cancel ha.fresh] at H₃
    refine ⟨k₂, B₂, _, hrun₂, H₃, E₃, hkeep₂,
      fun h => hused₂ ((ha.used _ _).mpr (.inr h)),
      hused₂ hB₁, fun d hd => ?_, fun w hw => ?_, fun x hl hu => ?_⟩
    · simp only
      rw [if_pos (by omega), Nat.add_sub_cancel_left]
    · exact if_neg (by omega)
    · have hx : reg.Other B₁ A.tables x := H₁.other_of_block hi hB₁ hl hu fun ht =>
        H₁.owners.baseTable (.inl ⟨rfl, rfl⟩) ⟨A, hi, ht⟩
      rw [hg.keep x hx]
      exact Mem.fill_inside hl (by unfold pageSize; omega)
  | false =>
    right
    obtain ⟨r', k₃, B₃, hrun₃, hrel, H₃, hkeep₃⟩ :=
      H₂.freeBase hw (s := s) (.inl ⟨rfl, rfl⟩)
    rw [H.base_cancel ha.fresh] at H₃
    have hused₃ : ∀ {t j}, B t = some ⟨j, true⟩ → B₃ t = some ⟨j, true⟩ :=
        fun {t j} h => by
      refine (hrel.used t j).mpr ⟨hused₂ ((ha.used t j).mpr (.inr h)), ?_⟩
      rintro rfl
      exact ha.fresh j h
    refine ⟨k₂, r', k₃, B₃, T₂, hrun₂, hrun₃, H₃,
      E.retable H hi H₃.alloc hg.sub hused₃ htab₂, mt hr.mpr (by simp), fun x hx => ?_⟩
    obtain ⟨⟨t, j, ht, hl, hu⟩, -⟩ := id hx
    rw [hkeep₃ x ⟨t, j, hused₃ ht, hl, hu⟩, hkeep₂ x hx]

end Chunk

end

end OsKernel.Mm

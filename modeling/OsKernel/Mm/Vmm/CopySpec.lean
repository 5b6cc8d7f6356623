import OsKernel.Mm.Vmm.AllocSpec

/-! What a call of `vm_copy` leaves in the two address spaces: a copy of each page of the range on a
page that was free, or, where the allocator has no page left, the new space as it was. -/

namespace OsKernel.Mm

open Lib Hsai Lib.BuddySystem BuddyAllocator

/-- A byte that is in use or outside the region, and not in the tables `T`. -/
def Region.Kept (reg : Region) (B : Blocks) (T : Nat → Nat → Option Nat) (x : Nat) : Prop :=
  (reg.Used B x ∨ reg.Far x) ∧ ¬TableByte T x

section

variable {reg : Region} {arch : Arch} {k k' : Kernel BuddyAllocator} {B B' : Blocks}
  {Base : Nat → Nat → Prop} {ι : Type} {W : Spaces ι} {i j : ι} {A A' Ai : AddrSpace}
  {v n : Nat}

/-- `k_pmm.alloc_page` keeps the memory outside the region. -/
theorem pmmAllocPage_far (h : reg.Alloc k.pages k.mem B) {r : Option Nat}
    (hrun : pmmAllocPage buddyPages k = .ok (r, k')) : AgreeOn reg.Far k.mem k'.mem := by
  obtain ⟨r₁, b₁, m₁, hrun₁, -, hcase⟩ := h.alloc Nat.one_pos (by decide)
  have hfar := h.alloc_far Nat.one_pos (by decide) hrun₁
  have hrun₂ : buddyPages.allocPages k.pages k.mem 1 = .ok (r₁, b₁, m₁) := hrun₁
  unfold pmmAllocPage at hrun
  rw [hrun₂, ok_bind] at hrun
  rcases hcase with ⟨rfl, -⟩ | ⟨s, B', rfl, h', ha⟩
  · cases hrun
    exact hfar
  · cases hrun
    rw [Nat.clog_one_right] at ha
    have hb := h'.block_bound ((ha.used s 0).mpr (.inl ⟨rfl, rfl⟩))
    intro x hx
    have hap := hx.apart (s := s) (n := 1) hb
    rw [← hfar x hx]
    exact Mem.fill_outside (by unfold pageSize; omega)

/-- What `vm_copy` is called with: two address spaces and a range of pages that the old one maps to
memory in use and the new one does not map. -/
structure CopyCall (reg : Region) (arch : Arch) (k : Kernel BuddyAllocator) (B : Blocks)
    (Base : Nat → Nat → Prop) (W : Spaces ι) (i j : ι) (Ai A : AddrSpace) (v n : Nat) :
      Prop where
  world : World reg arch k B Base W
  window : reg.InWindow arch
  ne : i ≠ j
  old : W i = some Ai
  new : W j = some A
  oldRange : PageRange arch Ai.base v n
  newRange : PageRange arch A.base v n
  mapped : ∀ w, v ≤ w → w < v + n → Ai.map w ≠ none
  clear : ∀ w, v ≤ w → w < v + n → A.map w = none
  source : ∀ w mp x, v ≤ w → w < v + n → Ai.map w = some mp → arch.toVir mp.page ≤ x →
    x < arch.toVir mp.page + 4096 → reg.Kept B A.tables x

/-- The new space `A` with the first `n` pages from `v` on copied. -/
structure Copied (reg : Region) (arch : Arch) (Ai : AddrSpace) (k₀ : Kernel BuddyAllocator)
    (B₀ : Blocks) (A₀ : AddrSpace) (k : Kernel BuddyAllocator) (B : Blocks) (A : AddrSpace)
    (v n : Nat) : Prop where
  root : A.root = A₀.root
  base : A.base = A₀.base
  grown : Extended reg arch B₀ A₀ B { A₀ with tables := A.tables } v 0 0
  outside : ∀ w, w < v ∨ v + n ≤ w → A.map w = A₀.map w ∧ A.pages w = A₀.pages w
  inside : ∀ w, v ≤ w → w < v + n → ∃ p mp, Ai.map w = some mp ∧ A.pages w = some p ∧
    A.map w = some ⟨arch.toPhy (reg.addr p), mp.flags⟩ ∧ Unused B₀ p ∧
    B p = some ⟨0, true⟩ ∧
    ∀ d < 4096, k.mem (reg.addr p + d) = k₀.mem (arch.toVir mp.page + d)
  keep : AgreeOn (reg.Kept B₀ A₀.tables) k₀.mem k.mem

theorem Copied.refl (k : Kernel BuddyAllocator) (B : Blocks) (A : AddrSpace) (v : Nat) :
    Copied reg arch Ai k B A k B A v 0 :=
  ⟨rfl, rfl, .refl B A v 0, fun _ _ => ⟨rfl, rfl⟩, fun _ hl hu => by omega, fun _ _ => rfl⟩

/-- More tables, and more blocks in use. -/
theorem Extended.more {B₀ B₂ : Blocks} {A₀ : AddrSpace} {T T' : Nat → Nat → Option Nat}
    {f : Nat} (E : Extended reg arch B₀ A₀ B { A₀ with tables := T } v 0 f)
    (hsub : ∀ {l q a}, T l q = some a → T' l q = some a)
    (hused : ∀ {t o}, B t = some ⟨o, true⟩ → B₂ t = some ⟨o, true⟩)
    (htab : ∀ {a}, IsTable T' a → IsTable T a ∨ ∃ t, a = reg.addr t ∧ ∀ o,
      B t ≠ some ⟨o, true⟩) :
    Extended reg arch B₀ A₀ B₂ { A₀ with tables := T' } v 0 f where
  root := rfl
  base := rfl
  sub := fun h => hsub (E.sub h)
  used := fun h => hused (E.used h)
  table := by
    intro a ha
    rcases htab ha with ha | ⟨t, rfl, ht⟩
    · exact E.table ha
    · exact .inr ⟨t, rfl, fun o ho => ht o (E.used ho)⟩
  outside := fun _ _ => ⟨rfl, rfl⟩
  clear := fun _ hl hu => by omega
  inside := fun _ hl hu => by omega
  whole := fun _ _ _ hl hu => by omega

section Turn

variable [DecidableEq ι] {k₀ : Kernel BuddyAllocator} {B₀ : Blocks} {A₀ : AddrSpace}
  {m : Nat}

/-- The page that the next turn copies. -/
theorem CopyCall.walk_old (C : CopyCall reg arch k₀ B₀ Base W i j Ai A₀ v n)
    (H : World reg arch k B Base (Function.update W j (some A))) {w : Nat} (hl : v ≤ w)
    (hu : w < v + n) : ∃ pte mp, Ai.map w = some mp ∧ mp.Ok arch ∧
      walk arch buddyPages k ⟨Ai.root, true⟩ (4096 * w) false = .ok (pte, k) ∧ pte ≠ 0 ∧
      pteData k.mem pte = mp.data arch := by
  have hi : Function.update W j (some A) i = some Ai := by rw [Function.update_of_ne C.ne, C.old]
  obtain ⟨mp, hmp⟩ := Option.ne_none_iff_exists'.mp (C.mapped w hl hu)
  obtain ⟨pte, hpte, hdata⟩ := (H.represents hi).leafPte hmp
  refine ⟨pte, mp, hmp, ((H.represents hi).of_some hmp).2, ?_, (H.tables hi).leafPte_pos hpte,
    hdata⟩
  exact walk_find_ok (H.tables hi) (by rw [Nat.mul_div_cancel_left w (by decide)]; exact hpte)

omit [DecidableEq ι] in
/-- A byte that is kept stays so while pages are copied. -/
theorem Copied.kept {W' : Spaces ι} (St : Copied reg arch Ai k₀ B₀ A₀ k B A v m)
    (H : World reg arch k B Base W') (hj : W' j = some A) {x : Nat}
    (hx : reg.Kept B₀ A₀.tables x) : reg.Kept B A.tables x := by
  obtain ⟨hx | hx, hnt⟩ := hx
  · have := St.grown.other H hj rfl ⟨hx, hnt⟩
    exact ⟨.inl this.1, this.2⟩
  · refine ⟨.inr hx, ?_⟩
    rintro ⟨a, ha, hl, hu⟩
    obtain ⟨s, rfl, hs⟩ := H.tableBlock hj ha
    have := hx.apart (H.alloc.block_bound hs)
    simp only [pow_zero] at this
    omega

/-- A page taken for the copy of the next page of the range, filled and mapped. -/
theorem CopyCall.page (C : CopyCall reg arch k₀ B₀ Base W i j Ai A₀ v n)
    (H : World reg arch k B Base (Function.update W j (some A)))
    (St : Copied reg arch Ai k₀ B₀ A₀ k B A v m) (hm : m < n) {mp : Mapping} {s : Nat}
    {k₁ : Kernel BuddyAllocator} {B₁ : Blocks} (hmp : Ai.map (v + m) = some mp)
    (hok : mp.Ok arch)
    (hrun₁ : pmmAllocPage buddyPages k = .ok (some (reg.addr s), k₁))
    (ha : Allocated reg.pages B s 0 B₁)
    (H₁ : World reg arch k₁ B₁ (fun t o => (t = s ∧ o = 0) ∨ Base t o)
      (Function.update W j (some A)))
    (hkeep₁ : AgreeOn (reg.Used B) k.mem k₁.mem) :
    (∃ f, mapPages arch buddyPages
        { k₁ with mem := k₁.mem.copy (reg.addr s) (arch.toVir mp.page) pageSize }
        ⟨A₀.root, true⟩
        (4096 * (v + m)) pageSize (reg.addr s) mp.flags = .error f ∧ reg.room B ≤ arch.top) ∨
      ∃ k' B' A', mapPages arch buddyPages
          { k₁ with mem := k₁.mem.copy (reg.addr s) (arch.toVir mp.page) pageSize }
          ⟨A₀.root, true⟩
          (4096 * (v + m)) pageSize (reg.addr s) mp.flags = .ok (true, k') ∧
        World reg arch k' B' Base (Function.update W j (some A')) ∧
        Copied reg arch Ai k₀ B₀ A₀ k' B' A' v (m + 1) ∧
        reg.room B ≤ reg.room B' + arch.top + 1 := by
  have hj : Function.update W j (some A) j = some A := Function.update_self ..
  have hB₁ : B₁ s = some ⟨0, true⟩ := (ha.used s 0).mpr (.inl ⟨rfl, rfl⟩)
  have hb := H₁.alloc.block_bound hB₁
  simp only [pow_zero] at hb
  generalize hk₂ :
    ({ k₁ with mem := k₁.mem.copy (reg.addr s) (arch.toVir mp.page) pageSize } :
    Kernel BuddyAllocator) = k₂
  have hcopy : ∀ x, x < reg.addr s ∨ reg.addr s + 4096 ≤ x → k₂.mem x = k₁.mem x :=
      fun x hx => by
    rw [← hk₂]
    exact Mem.copy_outside (by unfold pageSize; omega)
  have H₂ : World reg arch k₂ B₁ (fun t o => (t = s ∧ o = 0) ∨ Base t o)
      (Function.update W j (some A)) := by
    rw [← hk₂]
    exact H₁.write_base (.inl ⟨rfl, rfl⟩) fun x hx => by
      have := hcopy x (by simpa using hx)
      rwa [← hk₂] at this
  -- bytes that are kept before the turn
  have hkept : ∀ x, reg.Kept B A.tables x → k₂.mem x = k.mem x := by
    rintro x ⟨hx | hx, -⟩
    · rw [hcopy x (by_contra fun hc => ha.not_used H₁.alloc hx (by omega)
        (by simpa using by omega)), hkeep₁ x hx]
    · rw [hcopy x (by simpa using hx.apart (s := s) (n := 1) hb),
        pmmAllocPage_far H.alloc hrun₁ x hx]
  have hrange : PageRange arch A.base (v + m) (2 ^ 0) := by
    rw [St.base]
    exact C.newRange.sub (by omega) (by omega)
  have hlt : reg.addr s < 2 ^ 64 := by
    have hs : s < reg.pages := by omega
    have := Region.page_bound hs
    have := reg.end_le
    omega
  have hclear : A.map.Clear (v + m) (v + m + 2 ^ 0 - 1) := by
    intro w hl hu
    rw [(St.outside w (by omega)).1]
    exact C.clear w (by omega) (by omega)
  have hunits := Region.room_of_alloc ha
  rcases H₂.mapBlock C.window hj (s := s) (o := 0) (.inl ⟨rfl, rfl⟩) hok.flags hrange with
    ⟨l, hrun, hroom⟩ | ⟨r, k₃, B₃, T₃, hrun, hg, hr, -, H₃, hroom⟩
  · rw [St.root] at hrun
    refine .inl ⟨_, hrun, ?_⟩
    simp only [pow_zero, Nat.mul_one] at hroom
    omega
  obtain rfl : r = true := hr.mpr hclear
  have H₃' := H₃ rfl
  rw [H.base_cancel ha.fresh, Function.update_idem] at H₃'
  have hfar := H₂.mapPages_far C.window hj hlt (Nat.two_pow_pos 0) hok.flags hrange hrun
  rw [St.root] at hrun
  obtain ⟨ps, hps, htab⟩ := hg.grabs
  have hused : ∀ {t o}, B t = some ⟨o, true⟩ → B₃ t = some ⟨o, true⟩ := fun h =>
    (grabs_used hps _ _).mpr (.inl ((ha.used _ _).mpr (.inr h)))
  have hB₃ : B₃ s = some ⟨0, true⟩ := (grabs_used hps _ _).mpr (.inl hB₁)
  -- bytes that are kept before the call of `map_pages`
  have hmapKeep : ∀ x, reg.Used B₁ x → ¬TableByte A.tables x → k₃.mem x = k₂.mem x :=
      fun x hx hnt =>
    hg.keep x ⟨hx, hnt⟩
  refine .inr ⟨k₃, B₃, _, hrun, H₃', ⟨St.root, St.base, ?_, fun w hw => ?_, fun w hl hu => ?_,
    fun x hx => ?_⟩, ?_⟩
  · refine St.grown.more hg.sub hused fun {a} hta => ?_
    rcases (htab a).mp hta with hta | hp
    · exact .inl hta
    · obtain ⟨t, rfl, ht⟩ := grabs_fresh hps hp
      exact .inr ⟨t, rfl, fun o ho => ht o ((ha.used t o).mpr (.inr ho))⟩
  · simp only
    rw [PageMap.map_outside (by omega), if_neg (by omega)]
    exact St.outside w (by omega)
  · simp only
    by_cases hw : w < v + m
    · obtain ⟨p, mp', hmp', hp, hmap, hfresh, hBp, hbytes⟩ := St.inside w hl hw
      rw [PageMap.map_outside (by omega), if_neg (by omega)]
      refine ⟨p, mp', hmp', hp, hmap, hfresh, hused hBp, fun d hd => ?_⟩
      have hx : reg.Other B A.tables (reg.addr p + d) :=
        H.other_page hj hj hp (by omega) (by omega)
      obtain ⟨⟨t, o, ht, hlx, hux⟩, hnt⟩ := id hx
      rw [hmapKeep _ ⟨t, o, (ha.used t o).mpr (.inr ht), hlx, hux⟩ hnt,
        hkept _ ⟨.inl hx.1, hnt⟩, hbytes d hd]
    · obtain rfl : w = v + m := by omega
      refine ⟨s, mp, hmp, ?_, ?_, ?_, hB₃, fun d hd => ?_⟩
      · rw [if_pos (by omega), Nat.sub_self, Nat.add_zero]
      · rw [PageMap.map_clear hclear (Nat.le_refl _) (by omega), Nat.sub_self,
          H₂.target_page C.window hB₁ (Nat.two_pow_pos 0), Nat.add_zero]
      · intro t o ht
        by_contra hc
        have := H₁.alloc.inv.rep.part.eq_of_mem hB₁
          ((ha.used t o).mpr (.inr (St.grown.used ht))) (p := s) ⟨by omega, by simp⟩
          ⟨by omega, by simp only; omega⟩
        subst this
        exact ha.fresh o (St.grown.used ht)
      · have hsrc := C.source (v + m) mp (arch.toVir mp.page + d) (by omega)
          (by omega) hmp (by omega) (by omega)
        have hsrc' := (St.kept H hj hsrc).1
        have hk₁ : k₁.mem (arch.toVir mp.page + d) = k.mem (arch.toVir mp.page + d) := by
          rcases hsrc' with hx | hx
          · exact hkeep₁ _ hx
          · exact pmmAllocPage_far H.alloc hrun₁ _ hx
        have hx : reg.Other B₁ A.tables (reg.addr s + d) :=
          H₁.other_of_block hj hB₁ (by omega) (by simpa using hd) fun ht =>
          H₁.owners.baseTable (.inl ⟨rfl, rfl⟩) ⟨A, hj, ht⟩
        rw [hmapKeep _ hx.1 hx.2, ← hk₂]
        simp only
        rw [Mem.copy_inside (by omega) (by unfold pageSize; omega), Nat.add_sub_cancel_left, hk₁,
          St.keep _ hsrc]
  · have hx' := St.kept H hj hx
    rw [← St.keep x hx, ← hkept x hx']
    obtain ⟨hx' | hx', hnt⟩ := hx'
    · obtain ⟨t, o, ht, hlx, hux⟩ := hx'
      exact hmapKeep x ⟨t, o, (ha.used t o).mpr (.inr ht), hlx, hux⟩ hnt
    · exact hfar x hx'
  · simp only [pow_zero, Nat.mul_one] at hroom
    omega

/-- One turn of the loop of `vm_copy`: the entry is not present or a table cannot be added; or there
is no page left; or the page is copied. -/
theorem CopyCall.turn (C : CopyCall reg arch k₀ B₀ Base W i j Ai A₀ v n)
    (H : World reg arch k B Base (Function.update W j (some A)))
    (St : Copied reg arch Ai k₀ B₀ A₀ k B A v m) (hm : m < n) (start rest : Nat) :
    (∃ f, vmCopyLoop arch buddyPages ⟨Ai.root, true⟩ ⟨A₀.root, true⟩ start (rest + 1) k
        (4096 * (v + m)) = .error f ∧ (reg.room B ≤ arch.top ∨
          ∃ mp, Ai.map (v + m) = some mp ∧ arch.isPresent mp.flags = false)) ∨
      (reg.room B = 0 ∧ vmCopyLoop arch buddyPages ⟨Ai.root, true⟩ ⟨A₀.root, true⟩
          start (rest + 1) k (4096 * (v + m)) = (do
        let k ← vmUnmap arch buddyPages k ⟨A₀.root, true⟩ start
          ((4096 * (v + m) - start) / pageSize) true
        .ok (-1, k))) ∨
      ∃ k' B' A', World reg arch k' B' Base (Function.update W j (some A')) ∧
        Copied reg arch Ai k₀ B₀ A₀ k' B' A' v (m + 1) ∧
        vmCopyLoop arch buddyPages ⟨Ai.root, true⟩ ⟨A₀.root, true⟩ start (rest + 1) k
            (4096 * (v + m)) =
          vmCopyLoop arch buddyPages ⟨Ai.root, true⟩ ⟨A₀.root, true⟩ start rest k'
            (wordAdd (4096 * (v + m)) pageSize) ∧
        reg.room B ≤ reg.room B' + arch.top + 1 := by
  obtain ⟨pte, mp, hmp, hok, hwalk, hnz, hdata⟩ :=
    C.walk_old H (w := v + m) (by omega) (by omega)
  have hj : Function.update W j (some A) j = some A := Function.update_self ..
  rw [vmCopyLoop, hwalk, ok_bind]
  simp only [if_neg hnz, hdata, hok.isPresent, hok.toPa, hok.getFlags]
  split
  · rename_i hpresent
    exact .inl ⟨_, rfl, .inr ⟨mp, hmp, by simpa using hpresent⟩⟩
  rcases H.allocPage with ⟨hnone, hroom⟩ | ⟨s, k₁, B₁, hrun₁, ha, H₁, hkeep₁⟩
  · rw [hnone, ok_bind]
    exact .inr (.inl ⟨hroom, rfl⟩)
  rw [hrun₁, ok_bind]
  simp only
  rcases C.page H St hm hmp hok hrun₁ ha H₁ hkeep₁ with
    ⟨f, hf, hroom⟩ | ⟨k', B', A', hmap, H', St', hroom⟩
  · rw [hf, error_bind]
    exact .inl ⟨f, rfl, .inl hroom⟩
  · rw [hmap, ok_bind]
    simp only [if_true]
    exact .inr (.inr ⟨k', B', A', H', St', rfl, hroom⟩)

/-- The pages copied so far are given back. -/
theorem CopyCall.undo (C : CopyCall reg arch k₀ B₀ Base W i j Ai A₀ v n)
    (H : World reg arch k B Base (Function.update W j (some A)))
    (St : Copied reg arch Ai k₀ B₀ A₀ k B A v m) (hm : m ≤ n) (hlt : v + m < 2 ^ 52) :
    ∃ k' B', vmUnmap arch buddyPages k ⟨A₀.root, true⟩ (4096 * v)
        ((4096 * (v + m) - 4096 * v) / pageSize) true = .ok k' ∧
      World reg arch k' B' Base (Function.update W j (some { A₀ with tables := A.tables })) ∧
      Extended reg arch B₀ A₀ B' { A₀ with tables := A.tables } v 0 0 ∧
      AgreeOn (reg.Other B₀ A₀.tables) k₀.mem k'.mem := by
  have hj : Function.update W j (some A) j = some A := Function.update_self ..
  have hcount : (4096 * (v + m) - 4096 * v) / pageSize = m := by
    unfold pageSize
    omega
  have hpages₀ : ∀ w, v ≤ w → w < v + n → A₀.pages w = none := by
    intro w hl hu
    cases hp : A₀.pages w with
    | none => rfl
    | some p =>
      obtain ⟨f, hf⟩ := C.world.mapped C.new hp
      rw [C.clear w hl hu] at hf
      cases hf
  have hspace : A.unmap v m = { A₀ with tables := A.tables } := by
    have hmap : A.map.unmap v m = A₀.map := by
      funext w
      unfold PageMap.unmap
      split
      · exact (C.clear w (by omega) (by omega)).symm
      · exact (St.outside w (by omega)).1
    have hpages : (fun w => if v ≤ w ∧ w < v + m then none else A.pages w) = A₀.pages := by
      funext w
      split
      · exact (hpages₀ w (by omega) (by omega)).symm
      · exact (St.outside w (by omega)).2
    simp only [AddrSpace.unmap, hmap, hpages, St.root, St.base]
  obtain ⟨k', B', hrun, H', hrel, hkeep⟩ := H.vmUnmap C.window hj (v := v) (n := m)
    (by rw [St.base]; exact C.newRange.sub (Nat.le_refl v) (by omega)) hlt
    (fun w hl hu => by
      obtain ⟨p, -, -, hp, -⟩ := St.inside w hl hu
      rw [hp]
      exact Option.some_ne_none p)
    (fun w s o d hl hu hp hs hd _ => by
      obtain ⟨p, -, -, hp', -, -, hBp, -⟩ := St.inside w hl hu
      rw [hp] at hp'
      cases hp'
      rw [hs] at hBp
      cases hBp
      simp only [pow_zero] at hd
      omega)
  rw [hspace, Function.update_idem] at H'
  have hused : ∀ {s o}, B₀ s = some ⟨o, true⟩ → B' s = some ⟨o, true⟩ := by
    intro s o hs
    refine (hrel.used s o).mpr ⟨St.grown.used hs, ?_⟩
    rintro ⟨w, hl, hu, hp⟩
    obtain ⟨p, -, -, hp', -, hfresh, -⟩ := St.inside w hl hu
    rw [hp] at hp'
    cases hp'
    exact hfresh.not_start o hs
  have E : Extended reg arch B₀ A₀ B' { A₀ with tables := A.tables } v 0 0 :=
    ⟨rfl, rfl, St.grown.sub, hused, St.grown.table, fun _ _ => ⟨rfl, rfl⟩,
      fun _ hl hu => by omega,
      fun _ hl hu => by omega, fun _ _ _ hl hu => by omega⟩
  refine ⟨k', B', ?_, H', E, fun x hx => ?_⟩
  · rw [hcount, ← St.root]
    exact hrun
  · rw [hkeep x (E.other H' (Function.update_self ..) rfl hx), St.keep x ⟨.inl hx.1, hx.2⟩]

/-- The loop of `vm_copy` from the page `m` of the range on. -/
theorem CopyCall.loop (C : CopyCall reg arch k₀ B₀ Base W i j Ai A₀ v n)
    (hlt : v + n < 2 ^ 52) (rest : Nat) (hrest : m + rest = n)
    (H : World reg arch k B Base (Function.update W j (some A)))
    (St : Copied reg arch Ai k₀ B₀ A₀ k B A v m) {r : Int}
    (hrun : vmCopyLoop arch buddyPages ⟨Ai.root, true⟩ ⟨A₀.root, true⟩ (4096 * v) rest k
      (4096 * (v + m)) = .ok (r, k')) :
    (r = 0 ∧ ∃ B' A', World reg arch k' B' Base (Function.update W j (some A')) ∧
        Copied reg arch Ai k₀ B₀ A₀ k' B' A' v n) ∨
      (r = -1 ∧ ∃ B' T', World reg arch k' B' Base
          (Function.update W j (some { A₀ with tables := T' })) ∧
        Extended reg arch B₀ A₀ B' { A₀ with tables := T' } v 0 0 ∧
        AgreeOn (reg.Other B₀ A₀.tables) k₀.mem k'.mem) := by
  induction rest generalizing m k B A with
  | zero =>
    obtain rfl : m = n := by omega
    cases hrun
    exact .inl ⟨rfl, B, A, H, St⟩
  | succ rest ih =>
    rcases C.turn H St (by omega) (4096 * v) rest with
      ⟨f, hf, -⟩ | ⟨-, hnone⟩ | ⟨k₁, B₁, A₁, H₁, St₁, hnext, -⟩
    · rw [hf] at hrun
      cases hrun
    · obtain ⟨k₁, B₁, hback, H₁, E₁, hkeep⟩ := C.undo H St (by omega) (by omega)
      rw [hnone, hback, ok_bind] at hrun
      cases hrun
      exact .inr ⟨rfl, B₁, A.tables, H₁, E₁, hkeep⟩
    · have hva : wordAdd (4096 * (v + m)) pageSize = 4096 * (v + (m + 1)) := by
        unfold wordAdd wordSize pageSize
        omega
      rw [hnext, hva] at hrun
      exact ih (by omega) H₁ St₁ hrun

end Turn

end

/-! ### The two results -/

/-- The pages of the range are copied, and nothing else has changed. -/
structure VmCopied (reg : Region) (arch : Arch) (oldPt newPt : PageTable) (oldBase newBase : Nat)
    (T : Nat → Nat → Option Nat) (k k' : Kernel BuddyAllocator) (v n : Nat) : Prop where
  /-- A new page with the flags and the contents of the old one. -/
  copied : ∀ w, v ≤ w → w < v + n → ∃ p,
    arch.isValid (entryOf arch buddyPages k' newPt (4096 * w)) = true ∧
    arch.toPa (entryOf arch buddyPages k' newPt (4096 * w)) = arch.toPhy (reg.addr p) ∧
    arch.getFlags (entryOf arch buddyPages k' newPt (4096 * w)) =
      arch.getFlags (entryOf arch buddyPages k oldPt (4096 * w)) ∧
    Unused k.blocks p ∧ k'.blocks p = some ⟨0, true⟩ ∧ ∀ d < 4096,
      k'.mem (reg.addr p + d) =
      k.mem (arch.toVir (arch.toPa (entryOf arch buddyPages k oldPt (4096 * w))) + d)
  distinct : ∀ w w', v ≤ w → w < v + n → v ≤ w' → w' < v + n →
    arch.toPa (entryOf arch buddyPages k' newPt (4096 * w)) =
      arch.toPa (entryOf arch buddyPages k' newPt (4096 * w')) → w = w'
  oldEntries : ∀ w, InSpan arch oldBase w →
    entryOf arch buddyPages k' oldPt (4096 * w) = entryOf arch buddyPages k oldPt (4096 * w)
  newEntries : ∀ w, InSpan arch newBase w → w < v ∨ v + n ≤ w →
    entryOf arch buddyPages k' newPt (4096 * w) = entryOf arch buddyPages k newPt (4096 * w)
  contents : AgreeOn (reg.Kept k.blocks T) k.mem k'.mem

/-- The leaf entries of both page tables and the blocks in use other than tables are those from
before. -/
structure VmCopyUndone (reg : Region) (arch : Arch) (oldPt newPt : PageTable)
    (oldBase newBase : Nat) (T : Nat → Nat → Option Nat) (k k' : Kernel BuddyAllocator) :
      Prop where
  undone : VmAllocUndone reg arch newPt newBase k k'
  oldEntries : ∀ w, InSpan arch oldBase w →
    entryOf arch buddyPages k' oldPt (4096 * w) = entryOf arch buddyPages k oldPt (4096 * w)
  contents : AgreeOn (reg.Other k.blocks T) k.mem k'.mem

/-- What `vm_copy` should do: copy the range and return 0, or undo everything and return -1. -/
def VmCopyExact (reg : Region) (arch : Arch) (Ai A : AddrSpace) (k k' : Kernel BuddyAllocator)
    (v n : Nat) (r : Int) : Prop :=
  (r = 0 ∧ VmCopied reg arch ⟨Ai.root, true⟩ ⟨A.root, true⟩ Ai.base A.base A.tables k k' v
    n) ∨ (r = -1 ∧ VmCopyUndone reg arch ⟨Ai.root, true⟩ ⟨A.root, true⟩ Ai.base A.base
      A.tables k k')

section

variable {reg : Region} {arch : Arch} {k k' : Kernel BuddyAllocator} {B B' : Blocks}
  {Base : Nat → Nat → Prop} {ι : Type} [DecidableEq ι] {W : Spaces ι} {i j : ι}
  {A A' Ai : AddrSpace} {v n : Nat} {r : Int}

theorem CopyCall.old_entries (C : CopyCall reg arch k B Base W i j Ai A v n)
    (H' : World reg arch k' B' Base (Function.update W j (some A'))) {w : Nat}
    (hw : InSpan arch Ai.base w) : entryOf arch buddyPages k' ⟨Ai.root, true⟩ (4096 * w) =
      entryOf arch buddyPages k ⟨Ai.root, true⟩ (4096 * w) := by
  have hi : Function.update W j (some A') i = some Ai := by rw [Function.update_of_ne C.ne, C.old]
  rw [H'.entryOf_data hi hw, C.world.entryOf_data C.old hw]

theorem Copied.vmCopied (C : CopyCall reg arch k B Base W i j Ai A v n)
    (H' : World reg arch k' B' Base (Function.update W j (some A')))
    (St : Copied reg arch Ai k B A k' B' A' v n) :
    VmCopied reg arch ⟨Ai.root, true⟩ ⟨A.root, true⟩ Ai.base A.base A.tables k k' v n := by
  have hj : Function.update W j (some A') j = some A' := Function.update_self ..
  have hB : k.blocks = B := C.world.alloc.inv.rep.blocks_eq
  have hB' : k'.blocks = B' := H'.alloc.inv.rep.blocks_eq
  have hnew : ∀ w, InSpan arch A.base w → entryOf arch buddyPages k' ⟨A.root, true⟩
      (4096 * w) = ((A'.map w).map (·.data arch)).getD 0 := fun w hw => by
    rw [← St.root, H'.entryOf_data hj (by rw [St.base]; exact hw)]
  have hpage : ∀ w, v ≤ w → w < v + n → ∃ p mp, Ai.map w = some mp ∧
      A'.pages w = some p ∧ entryOf arch buddyPages k' ⟨A.root, true⟩ (4096 * w) =
        Mapping.data arch ⟨arch.toPhy (reg.addr p), mp.flags⟩ ∧
      Mapping.Ok arch ⟨arch.toPhy (reg.addr p), mp.flags⟩ ∧ Unused B p ∧
      B' p = some ⟨0, true⟩ ∧
      ∀ d < 4096, k'.mem (reg.addr p + d) = k.mem (arch.toVir mp.page + d) := by
    intro w hl hu
    obtain ⟨p, mp, hmp, hp, hmap, hfresh, hBp, hbytes⟩ := St.inside w hl hu
    refine ⟨p, mp, hmp, hp, ?_, ((H'.represents hj).of_some hmap).2, hfresh, hBp, hbytes⟩
    rw [hnew w (C.newRange.inSpan hl hu), hmap]
    rfl
  refine ⟨fun w hl hu => ?_, fun w w' hl hu hl' hu' he => ?_, fun w hw => C.old_entries H' hw,
    fun w hw hout => ?_, ?_⟩
  · obtain ⟨p, mp, hmp, -, hentry, hok, hfresh, hBp, hbytes⟩ := hpage w hl hu
    have hold : entryOf arch buddyPages k ⟨Ai.root, true⟩ (4096 * w) = mp.data arch := by
      rw [C.world.entryOf_data C.old (C.oldRange.inSpan hl hu), hmp]
      rfl
    have hok₀ := ((C.world.represents C.old).of_some hmp).2
    refine ⟨p, ?_, ?_, ?_, by rw [hB]; exact hfresh, by rw [hB']; exact hBp, fun d hd => ?_⟩
    · rw [hentry, hok.isValid]
    · rw [hentry, hok.toPa]
    · rw [hentry, hok.getFlags, hold, hok₀.getFlags]
    · rw [hold, hok₀.toPa, hbytes d hd]
  · obtain ⟨p, mp, -, hp, hentry, hok, -⟩ := hpage w hl hu
    obtain ⟨p', mp', -, hp', hentry', hok', -⟩ := hpage w' hl' hu'
    rw [hentry, hentry', hok.toPa, hok'.toPa] at he
    simp only at he
    have hpp : p = p' := by
      have h1 := toVir_page C.window (H'.page_lt hj hp)
      have h2 := toVir_page C.window (H'.page_lt hj hp')
      rw [he, h2] at h1
      exact (Region.addr_inj h1).symm
    subst hpp
    exact (H'.owners.inj ⟨A', hj, hp⟩ ⟨A', hj, hp'⟩).2
  · rw [hnew w hw, C.world.entryOf_data C.new hw, (St.outside w hout).1]
  · rw [hB]
    exact St.keep

/-- `vm_copy` copies the range and returns 0, or undoes everything and returns -1, unless the end of
the range is the end of the 64-bit address space: then the loop does not run. -/
theorem vmCopy_exact_iff (C : CopyCall reg arch k B Base W i j Ai A v n)
    (hrun : vmCopy arch buddyPages k ⟨Ai.root, true⟩ ⟨A.root, true⟩ (4096 * v) (4096 * n) =
      .ok (r, k')) :
    VmCopyExact reg arch Ai A k k' v n r ↔ n = 0 ∨ 4096 * v + 4096 * n < 2 ^ 64 := by
  have hfits := C.newRange.fits
  have hWj : World reg arch k B Base (Function.update W j (some A)) := by
    rw [Function.update_eq_self_iff.mpr C.new.symm]
    exact C.world
  have hal : ∀ x, isPageAlign (4096 * x) = true := fun x => isPageAlign_iff.mpr (by omega)
  unfold vmCopy at hrun
  simp only [hal, Bool.not_true, Bool.false_eq_true, if_false] at hrun
  by_cases hlt : 4096 * v + 4096 * n < 2 ^ 64
  · refine iff_of_true ?_ (.inr hlt)
    have hcount : (wordAdd (4096 * v) (4096 * n) - 4096 * v) / pageSize = n := by
      unfold wordAdd wordSize pageSize
      omega
    rw [hcount] at hrun
    rcases C.loop (by omega) n (m := 0) (by omega) hWj (.refl k B A v) hrun with
      ⟨hr, B', A', H', St⟩ | ⟨hr, B', T', H', E, hkeep⟩
    · exact .inl ⟨hr, St.vmCopied C H'⟩
    · have hB : k.blocks = B := C.world.alloc.inv.rep.blocks_eq
      have CA : AllocCall reg arch k B Base W j A v n :=
        ⟨C.world, C.window, C.new, C.newRange, by omega⟩
      refine .inr ⟨hr, (E.undone_iff CA H').mpr fun _ _ => rfl, fun w hw => C.old_entries H' hw,
        ?_⟩
      rw [hB]
      exact hkeep
  · have hcount : (wordAdd (4096 * v) (4096 * n) - 4096 * v) / pageSize = 0 := by
      unfold wordAdd wordSize pageSize
      omega
    rw [hcount] at hrun
    cases hrun
    rcases Nat.eq_zero_or_pos n with rfl | hpos
    · exact iff_of_true (.inl ⟨rfl, (Copied.refl k B A v).vmCopied C hWj⟩) (.inl rfl)
    · refine iff_of_false ?_ (by omega)
      rintro (⟨-, hc⟩ | ⟨hr, -⟩)
      · obtain ⟨p, hval, -⟩ := hc.copied v (Nat.le_refl v) (by omega)
        rw [C.world.entryOf_data C.new (C.newRange.inSpan (Nat.le_refl v) (by omega)),
          C.clear v (Nat.le_refl v) (by omega)] at hval
        simp at hval
      · cases hr

end

/-- Two address spaces on the sample region: the old one holds the page `v`, the new one
is empty. -/
theorem sample_pair (v : Nat) (hv : v < 2 ^ 52) : ∃ k B Base W Ai A,
    CopyCall sampleRegion .riscv k B Base W true false Ai A v 1 ∧ 3 ≤ sampleRegion.room B ∧
      ∀ mp, Ai.map v = some mp → Arch.isPresent .riscv mp.flags = true := by
  obtain ⟨k₀, B₀, h, hroom₀⟩ := sample_alloc
  have H₀ : World sampleRegion .riscv k₀ B₀ (fun s o => B₀ s = some ⟨o, true⟩)
      fun _ : Bool => none :=
    ⟨h,
      by simp, by simp, by simp, by simp, .bare (by simp [Spaces.Tab]) (by simp [Spaces.Page])⟩
  have hrange : PageRange .riscv v v 1 :=
    ⟨Nat.le_refl v, Nat.add_le_add_left (by decide) v, by omega⟩
  rcases H₀.create sampleRegion_inWindow (i := true) rfl v with
    ⟨-, h0⟩ | ⟨p, k₁, B₁, T₁, -, H₁, -, hroom₁, -⟩
  · omega
  rcases H₁.create sampleRegion_inWindow (i := false) (by simp) v with
    ⟨-, h0⟩ | ⟨q, k₂, B₂, T₂, -, H₂, -, hroom₂, -⟩
  · omega
  rcases H₂.allocPage with ⟨-, h0⟩ | ⟨s, k₃, B₃, -, ha, H₃, -⟩
  · omega
  have hroom₃ := Region.room_of_alloc ha
  have hf := leafFlags_vmAlloc .riscv false true true
  rcases H₃.mapBlock sampleRegion_inWindow (i := true)
      (A := ⟨p, v, T₁, fun _ => none, fun _ => none⟩) (by simp) (s := s) (o := 0)
      (.inl ⟨rfl, rfl⟩) hf
      hrange with
    ⟨l, -, hlt⟩ | ⟨r, k₄, B₄, T₄, -, -, hr, -, H₄, hroom₄⟩
  · simp only [show Arch.top .riscv = 2 from rfl, pow_zero] at hlt
    omega
  simp only [show Arch.top .riscv = 2 from rfl, pow_zero] at hroom₄
  have H := H₄ (hr.mpr fun _ _ _ => rfl)
  have hmap : PageMap.map (fun _ => none) .riscv v (v + 2 ^ 0 - 1) (sampleRegion.addr s)
      (vmAllocFlags .riscv false true true) v =
        some ⟨Arch.toPhy .riscv (sampleRegion.addr s), vmAllocFlags .riscv false true true⟩ :=
          by
    rw [PageMap.map_clear (fun _ _ _ => rfl) (Nat.le_refl v) (by omega), Nat.sub_self,
      H₃.target_page sampleRegion_inWindow ((ha.used s 0).mpr (.inl ⟨rfl, rfl⟩))
      (Nat.two_pow_pos 0),
      Nat.add_zero]
  generalize hAi : ({ root := p, base := v, tables := T₄, map := _, pages := _ } : AddrSpace) =
    Ai at H
  have hAmap : Ai.map v = some ⟨Arch.toPhy .riscv (sampleRegion.addr s),
      vmAllocFlags .riscv false true true⟩ := by
    rw [← hAi]
    exact hmap
  have hApage : Ai.pages v = some s := by
    rw [← hAi]
    simp
  have hAbase : Ai.base = v := by rw [← hAi]
  have hnew : Function.update (Function.update (Function.update (fun _ : Bool => none) true
      (some ⟨p, v, T₁, fun _ => none, fun _ => none⟩)) false
      (some ⟨q, v, T₂, fun _ => none, fun _ => none⟩)) true (some Ai) false =
        some ⟨q, v, T₂, fun _ => none, fun _ => none⟩ := by
    rw [Function.update_of_ne (by decide), Function.update_self]
  refine ⟨k₄, B₄, _, _, Ai, ⟨q, v, T₂, fun _ => none, fun _ => none⟩,
    ⟨H, sampleRegion_inWindow,
    by decide, Function.update_self .., hnew, by rw [hAbase]; exact hrange, hrange,
    fun w hl hu => ?_,
    fun _ _ _ => rfl, fun w mp x hl hu hmp hlx hux => ?_⟩, by omega, fun mp hmp => ?_⟩
  · rw [show w = v by omega, hAmap]
    exact Option.some_ne_none _
  · rw [show w = v by omega, hAmap] at hmp
    cases hmp
    have hs := H.page_lt (Function.update_self ..) hApage
    rw [toVir_page sampleRegion_inWindow hs] at hlx hux
    have := H.other_page hnew (Function.update_self ..) hApage hlx hux
    exact ⟨.inl this.1, this.2⟩
  · rw [hAmap] at hmp
    cases hmp
    exact (by decide : Arch.isPresent .riscv (vmAllocFlags .riscv false true true) = true)

/-- One page at 0x10000 is copied. -/
theorem vmCopy_exact_iff_sample : ∃ k k' Ai A,
    vmCopy .riscv buddyPages k ⟨Ai.root, true⟩ ⟨A.root, true⟩ 0x10000 0x1000 =
      .ok (0, k') ∧ VmCopyExact sampleRegion .riscv Ai A k k' 16 1 0 := by
  obtain ⟨k, B, Base, W, Ai, A, C, hroom, hpresent⟩ := sample_pair 16 (by decide)
  have hW : World sampleRegion .riscv k B Base (Function.update W false (some A)) := by
    rw [Function.update_eq_self_iff.mpr C.new.symm]
    exact C.world
  have hrun : ∃ k', vmCopy .riscv buddyPages k ⟨Ai.root, true⟩
      ⟨A.root, true⟩ 0x10000 0x1000 = .ok (0, k') := by
    rcases C.turn hW (.refl k B A 16) Nat.one_pos (4096 * 16) 0 with
      ⟨f, -, hlow | ⟨mp, hmp, hnot⟩⟩ | ⟨hzero, -⟩ | ⟨k', -, -, -, -, hnext, -⟩
    · simp only [show Arch.top .riscv = 2 from rfl] at hlow
      omega
    · rw [hpresent mp hmp] at hnot
      cases hnot
    · omega
    · exact ⟨k', hnext⟩
  obtain ⟨k', hrun⟩ := hrun
  exact ⟨k, k', Ai, A, hrun, (vmCopy_exact_iff C hrun).mpr (.inr (by decide))⟩

/-- The last page of the 64-bit address space is not copied. -/
theorem vmCopy_end_wraps : ∃ k B Base W Ai A,
    CopyCall sampleRegion .riscv k B Base W true false Ai A (2 ^ 52 - 1) 1 ∧
      vmCopy .riscv buddyPages k ⟨Ai.root, true⟩ ⟨A.root, true⟩ (4096 * (2 ^ 52 - 1))
        (4096 * 1) = .ok (0, k) ∧
      ¬VmCopyExact sampleRegion .riscv Ai A k k (2 ^ 52 - 1) 1 0 := by
  obtain ⟨k, B, Base, W, Ai, A, C, -⟩ := sample_pair (2 ^ 52 - 1) (by decide)
  refine ⟨k, B, Base, W, Ai, A, C, rfl, ?_⟩
  rintro (⟨-, hc⟩ | ⟨hr, -⟩)
  · obtain ⟨p, hval, -⟩ := hc.copied (2 ^ 52 - 1) (Nat.le_refl _) (by decide)
    rw [C.world.entryOf_data C.new (C.newRange.inSpan (Nat.le_refl _) (by decide)),
      C.clear (2 ^ 52 - 1) (Nat.le_refl _) (by decide)] at hval
    simp at hval
  · cases hr

end OsKernel.Mm

import OsKernel.Mm.Vmm.World

/-! How blocks change hands: new tables, blocks handed out, mapped and released. -/

namespace OsKernel.Mm

open Lib Hsai Lib.BuddySystem BuddyAllocator

section

variable {reg : Region} {arch : Arch} {hw : reg.InWindow arch} {k k' : Kernel BuddyAllocator}
  {B B' : Blocks} {Base : Nat → Nat → Prop} {ι : Type} {W : Spaces ι} {i : ι} {A : AddrSpace}

theorem grabs_used {ps : List Nat} (h : (buddySource reg arch hw).Grabs B ps B') (t j : Nat) :
    B' t = some ⟨j, true⟩ ↔ B t = some ⟨j, true⟩ ∨ (j = 0 ∧ reg.addr t ∈ ps) := by
  induction h with
  | nil => simp
  | cons hp _ ih =>
    obtain ⟨s, rfl, -, -, ha⟩ := hp
    have hst : reg.addr t = reg.addr s ↔ t = s := ⟨Region.addr_inj, fun h => by rw [h]⟩
    rw [ih, ha.used, List.mem_cons, hst]
    tauto

theorem grabs_fresh {ps : List Nat} (h : (buddySource reg arch hw).Grabs B ps B') {p : Nat}
    (hp : p ∈ ps) : ∃ s, p = reg.addr s ∧ ∀ j, B s ≠ some ⟨j, true⟩ := by
  induction h with
  | nil => cases hp
  | cons hg _ ih =>
    obtain ⟨s, rfl, -, -, ha⟩ := hg
    rcases List.mem_cons.mp hp with rfl | hp
    · exact ⟨s, rfl, ha.fresh⟩
    · obtain ⟨t, rfl, ht⟩ := ih hp
      exact ⟨t, rfl, fun j hj => ht j ((ha.used t j).mpr (.inr hj))⟩

/-- The bytes of a new block were not in use. -/
theorem Allocated.not_used {s o x : Nat} (ha : Allocated reg.pages B s o B')
    {b' : BuddyAllocator} {m' : Mem} (h' : reg.Alloc b' m' B') (hx : reg.Used B x)
    (hl : reg.addr s ≤ x)
    (hu : x < reg.addr s + 4096 * 2 ^ o) : False := by
  obtain ⟨t, j, ht, hl', hu'⟩ := hx
  have := h'.inv.rep.part.eq_of_mem ((ha.used s o).mpr (.inl ⟨rfl, rfl⟩))
    ((ha.used t j).mpr (.inr ht)) (Region.addr_page hl hu) (Region.addr_page hl' hu')
  subst this
  exact ha.fresh j ht

/-- The `n` pages from `v` on are no longer mapped nor held. -/
def AddrSpace.unmap (A : AddrSpace) (v n : Nat) : AddrSpace :=
  { A with
    map := A.map.unmap v n
    pages := fun w => if v ≤ w ∧ w < v + n then none else A.pages w }

/-- The blocks whose first page is one of the `n` pages from `v` on have no page mapped after
them. -/
def AddrSpace.Whole (A : AddrSpace) (B : Blocks) (v n : Nat) : Prop :=
  ∀ w s o d, v ≤ w → w < v + n → A.pages w = some s → B s = some ⟨o, true⟩ →
    d < 2 ^ o → A.pages (w + d) = some (s + d) → w + d < v + n

namespace World

/-- One space with more tables, seen from another page number on, and with other mappings of pages
that it does not hold. -/
theorem grow [DecidableEq ι] (H : World reg arch k B Base W) (hi : W i = some A)
    {T' : Nat → Nat → Option Nat} {b : Nat} {M' : PageMap}
    (Sp : Space (buddySource reg arch hw) k' B' A.root T')
    (hg : Grown (buddySource reg arch hw) k B A.tables k' B' T')
    (hM : Represents arch k'.mem T' b M') (hown : ∀ v p, A.pages v = some p → M' v = A.map v) :
    World reg arch k' B' Base
      (Function.update W i (some { A with base := b, tables := T', map := M' })) := by
  obtain ⟨ps, hps, htab⟩ := hg.grabs
  have hkeep : ∀ {j A'}, j ≠ i → W j = some A' →
      AgreeOn (TableByte A'.tables) k.mem k'.mem :=
    fun hne hj x hx => hg.keep x (H.other_table hi hj hne hx)
  have hpage : Spaces.Page (Function.update W i
      (some { A with base := b, tables := T', map := M' })) = W.Page := by
    funext j v p
    by_cases hj : j = i
    · subst hj
      simp [Spaces.Page, hi]
    · simp [Spaces.Page, Function.update_of_ne hj]
  refine ⟨Sp.inv, fun {j A'} hj => ?_, fun {j A'} hj => ?_, fun {j A' a} hj ha => ?_,
    fun {j A' v p} hj hp => ?_, ?_⟩
  · rcases Spaces.update_eq hj with ⟨rfl, rfl⟩ | ⟨hne, hj⟩
    · exact Sp.tables
    · exact (H.tables hj).congr (hkeep hne hj)
  · rcases Spaces.update_eq hj with ⟨rfl, rfl⟩ | ⟨hne, hj⟩
    · exact hM
    · exact (H.represents hj).congr (Tables.leaf_congr (hkeep hne hj))
  · rcases Spaces.update_eq hj with ⟨rfl, rfl⟩ | ⟨hne, hj⟩
    · rcases (htab a).mp ha with ha | ha
      · exact H.tableAddr hi ha
      · obtain ⟨s, rfl, -⟩ := grabs_fresh hps ha
        exact ⟨s, rfl⟩
    · exact H.tableAddr hj ha
  · rcases Spaces.update_eq hj with ⟨rfl, rfl⟩ | ⟨hne, hj⟩
    · simp only at hp ⊢
      rw [hown v p hp]
      exact H.mapped hi hp
    · exact H.mapped hj hp
  · rw [hpage]
    refine H.owners.addTables (i := i) (N := fun s => reg.addr s ∈ ps) Sp.inv.inv.rep.part
      (grabs_used hps) (fun t j ht => ?_) fun j t => ?_
    · obtain ⟨s, he, hs⟩ := grabs_fresh hps ht
      rw [Region.addr_inj he]
      exact hs j
    · by_cases hj : j = i
      · subst hj
        simp [Spaces.Tab, hi, htab]
      · simp [Spaces.Tab, hj]

/-- `vm_create`: one more space, with one table and nothing mapped. -/
theorem create [DecidableEq ι] (H : World reg arch k B Base W) (hw : reg.InWindow arch)
    (hi : W i = none) (base : Nat) :
    (vmCreate buddyPages k = .error (.panic "vmm: no mem to create vm space.") ∧
        reg.room B = 0) ∨
      ∃ p k' B' T', vmCreate buddyPages k = .ok (⟨p, true⟩, k') ∧
        World reg arch k' B' Base (Function.update W i
          (some ⟨p, base, T', fun _ => none, fun _ => none⟩)) ∧
        (∀ {s o}, B s = some ⟨o, true⟩ → B' s = some ⟨o, true⟩) ∧
        reg.room B ≤ reg.room B' + 1 ∧
        AgreeOn (reg.Used B) k.mem k'.mem := by
  rcases vmCreate_spec (S := buddySource reg arch hw) H.alloc with
    h | ⟨p, k', B', T', hrun, Sp, hgrab, htab, hkeep, hM⟩
  · exact .inl h
  obtain ⟨s, rfl, hs, -, ha⟩ := id hgrab
  have hne : ∀ {j A'}, W j = some A' → j ≠ i := by
    rintro j A' hj rfl
    rw [hi] at hj
    cases hj
  have hkeepT : ∀ {j A'}, W j = some A' → AgreeOn (TableByte A'.tables) k.mem k'.mem :=
    fun hj x hx => hkeep x (H.table_used hj hx)
  have hpage : Spaces.Page (Function.update W i
      (some ⟨reg.addr s, base, T', fun _ => none, fun _ => none⟩)) = W.Page := by
    funext j v p
    by_cases hj : j = i
    · subst hj
      simp [Spaces.Page, hi]
    · simp [Spaces.Page, Function.update_of_ne hj]
  refine .inr ⟨_, k', B', T', hrun, ⟨Sp.inv, fun {j A'} hj => ?_, fun {j A'} hj => ?_,
    fun {j A' a} hj hta => ?_, fun {j A' v p} hj hp => ?_, ?_⟩,
    fun h => (ha.used _ _).mpr (.inr h), (buddySource reg arch hw).room_grab hgrab, hkeep⟩
  · rcases Spaces.update_eq hj with ⟨rfl, rfl⟩ | ⟨-, hj⟩
    · exact Sp.tables
    · exact (H.tables hj).congr (hkeepT hj)
  · rcases Spaces.update_eq hj with ⟨rfl, rfl⟩ | ⟨-, hj⟩
    · exact hM base
    · exact (H.represents hj).congr (Tables.leaf_congr (hkeepT hj))
  · rcases Spaces.update_eq hj with ⟨rfl, rfl⟩ | ⟨-, hj⟩
    · exact ⟨s, (htab a).mp hta⟩
    · exact H.tableAddr hj hta
  · rcases Spaces.update_eq hj with ⟨rfl, rfl⟩ | ⟨-, hj⟩
    · cases hp
    · exact H.mapped hj hp
  · rw [hpage]
    refine H.owners.addTables (i := i) (N := fun t => t = s) Sp.inv.inv.rep.part (fun t o => ?_)
      (fun t o ht => ht ▸ ha.fresh o) fun j t => ?_
    · rw [ha.used, or_comm, and_comm (a := t = s)]
    · by_cases hj : j = i
      · subst hj
        have hst : reg.addr t = reg.addr s ↔ t = s := ⟨Region.addr_inj, fun h => by rw [h]⟩
        simp [Spaces.Tab, hi, htab, hst]
      · simp [Spaces.Tab, hj]

/-- `k_pmm.alloc_pages`: no block, or a new block held outside. -/
theorem allocPages (H : World reg arch k B Base W) {count : Nat} (hpos : 0 < count)
    (hc : count ≤ 2 ^ 31) :
    (pmmAllocPages buddyPages k count = .ok (none, k) ∧
        ∀ s j, B s = some ⟨j, false⟩ → j < Nat.clog 2 count) ∨
      ∃ s k' B', pmmAllocPages buddyPages k count = .ok (some (reg.addr s), k') ∧
        Allocated reg.pages B s (Nat.clog 2 count) B' ∧
        World reg arch k' B' (fun t j => (t = s ∧ j = Nat.clog 2 count) ∨ Base t j) W ∧
        AgreeOn (reg.Used B) k.mem k'.mem := by
  obtain ⟨r, b', m', hrun, hkeep, hcase⟩ := H.alloc.alloc hpos hc
  have hrun' : buddyPages.allocPages k.pages k.mem count = .ok (r, b', m') := hrun
  unfold pmmAllocPages
  rw [hrun', ok_bind]
  rcases hcase with ⟨rfl, rfl, rfl, hsmall⟩ | ⟨s, B', rfl, h', ha⟩
  · exact .inl ⟨rfl, hsmall⟩
  · have hle : count ≤ 2 ^ Nat.clog 2 count := Nat.le_pow_clog (by decide) count
    have hcnt : ((count : Int) % 2 ^ 32).toNat = count := by omega
    have hfill : ∀ x, x < reg.addr s ∨ reg.addr s + 4096 * 2 ^ Nat.clog 2 count ≤ x →
        fillPages m' (reg.addr s) count x = m' x := by
      intro x hx
      unfold fillPages
      rw [hcnt]
      have : (reg.addr s + count * pageSize) % wordSize ≤ reg.addr s + count * pageSize :=
        Nat.mod_le _ _
      unfold pageSize at *
      exact Mem.fill_outside (by omega)
    have hW : World reg arch ⟨b', m'⟩ B' _ W :=
      H.rebase h' (H.owners.take h'.inv.rep.part ha.used ha.fresh) fun hi x hx =>
        hkeep x (H.table_used hi hx)
    refine .inr ⟨s, _, B', rfl, ha, hW.write_base (.inl ⟨rfl, rfl⟩) hfill, fun x hx => ?_⟩
    rw [← hkeep x hx]
    exact hfill x (by_contra fun hc => ha.not_used h' hx (by omega) (by omega))

/-- `k_pmm.alloc_page`: no page is left, or a new page held outside. -/
theorem allocPage (H : World reg arch k B Base W) :
    (pmmAllocPage buddyPages k = .ok (none, k) ∧ reg.room B = 0) ∨
      ∃ s k' B', pmmAllocPage buddyPages k = .ok (some (reg.addr s), k') ∧
        Allocated reg.pages B s 0 B' ∧
        World reg arch k' B' (fun t j => (t = s ∧ j = 0) ∨ Base t j) W ∧
        AgreeOn (reg.Used B) k.mem k'.mem := by
  obtain ⟨r, b', m', hrun, hkeep, hcase⟩ := H.alloc.alloc Nat.one_pos (by decide)
  have hrun' : buddyPages.allocPages k.pages k.mem 1 = .ok (r, b', m') := hrun
  unfold pmmAllocPage
  rw [hrun', ok_bind]
  rcases hcase with ⟨rfl, rfl, rfl, hsmall⟩ | ⟨s, B', rfl, h', ha⟩
  · exact .inl ⟨rfl, H.alloc.room_eq_zero fun s j hs => absurd (hsmall s j hs) (by simp)⟩
  · rw [Nat.clog_one_right] at ha
    have hfill : ∀ x, x < reg.addr s ∨ reg.addr s + 4096 * 2 ^ 0 ≤ x →
        fillJunk m' (reg.addr s) x = m' x := fun x hx =>
      Mem.fill_outside (by unfold pageSize; omega)
    have hW : World reg arch ⟨b', m'⟩ B' _ W :=
      H.rebase h' (H.owners.take h'.inv.rep.part ha.used ha.fresh) fun hi x hx =>
        hkeep x (H.table_used hi hx)
    refine .inr ⟨s, _, B', rfl, ha, hW.write_base (.inl ⟨rfl, rfl⟩) hfill, fun x hx => ?_⟩
    rw [← hkeep x hx]
    exact hfill x (by_contra fun hc => ha.not_used h' hx (by omega) (by omega))

/-- A block held outside whose pages a space has just mapped. -/
theorem own [DecidableEq ι] (H : World reg arch k B Base W) (hi : W i = some A) {v s o : Nat}
    (hs : Base s o) (hclear : ∀ w, v ≤ w → w < v + 2 ^ o → A.pages w = none)
    (hmap : ∀ d, d < 2 ^ o → ∃ f,
      A.map (v + d) = some ⟨arch.toPhy (reg.addr (s + d)), f⟩) :
    World reg arch k B (fun t j => Base t j ∧ t ≠ s) (Function.update W i (some { A with
      pages := fun w => if v ≤ w ∧ w < v + 2 ^ o then some (s + (w - v))
        else A.pages w })) := by
  generalize hA' : ({ A with
    pages := fun w => if v ≤ w ∧ w < v + 2 ^ o then some (s + (w - v)) else A.pages w } :
    AddrSpace) = A'
  have htab : Spaces.Tab (Function.update W i (some A')) reg = W.Tab reg := by
    funext j t
    by_cases hj : j = i
    · subst hj
      simp [Spaces.Tab, hi, ← hA']
    · simp [Spaces.Tab, Function.update_of_ne hj]
  refine ⟨H.alloc, fun {j A''} hj => ?_, fun {j A''} hj => ?_, fun {j A'' a} hj ha => ?_,
    fun {j A'' w p} hj hp => ?_, ?_⟩
  · rcases Spaces.update_eq hj with ⟨rfl, rfl⟩ | ⟨-, hj⟩
    · subst hA'
      exact (H.tables hi :)
    · exact H.tables hj
  · rcases Spaces.update_eq hj with ⟨rfl, rfl⟩ | ⟨-, hj⟩
    · subst hA'
      exact (H.represents hi :)
    · exact H.represents hj
  · rcases Spaces.update_eq hj with ⟨rfl, rfl⟩ | ⟨-, hj⟩
    · subst hA'
      exact H.tableAddr hi ha
    · exact H.tableAddr hj ha
  · rcases Spaces.update_eq hj with ⟨rfl, rfl⟩ | ⟨-, hj⟩
    · subst hA'
      simp only at hp ⊢
      split at hp
      · rename_i hw
        obtain ⟨f, hf⟩ := hmap (w - v) (by omega)
        rw [Nat.add_sub_cancel' hw.1] at hf
        cases hp
        exact ⟨f, hf⟩
      · exact H.mapped hi hp
    · exact H.mapped hj hp
  · rw [htab]
    refine H.owners.own (i := i) (v := v) H.alloc.inv.rep.part hs ?_ (fun _ _ => Iff.rfl) ?_
    · rintro d p hd ⟨A₁, h₁, hp⟩
      rw [hi] at h₁
      cases h₁
      rw [hclear (v + d) (by omega) (by omega)] at hp
      cases hp
    · intro j w p
      by_cases hj : j = i
      · subst hj
        simp only [Spaces.Page, Function.update_self, hi, Option.some.injEq, exists_eq_left',
          ← hA', true_and]
        by_cases hw : v ≤ w ∧ w < v + 2 ^ o
        · rw [if_pos hw, hclear w hw.1 hw.2]
          constructor
          · intro he
            cases he
            exact .inr ⟨w - v, by omega, by omega, rfl⟩
          · rintro (he | ⟨d, hd, rfl, rfl⟩)
            · cases he
            · rw [Nat.add_sub_cancel_left]
        · rw [if_neg hw]
          exact ⟨.inl, fun h => h.elim id fun ⟨d, hd, he, _⟩ => by omega⟩
      · simp [Spaces.Page, hj]

/-- `k_pmm.free_pages` of a block held outside. -/
theorem freeBase (H : World reg arch k B Base W) (hw : reg.InWindow arch) {s o : Nat}
    (hs : Base s o) :
    ∃ r k' B', pmmFreePages buddyPages k (reg.addr s) = .ok (r, k') ∧
      ReleasedSet B (· = s) B' ∧ World reg arch k' B' (fun t j => Base t j ∧ t ≠ s) W ∧
      AgreeOn (reg.Used B') k.mem k'.mem := by
  have hB := H.owners.base hs
  have hlt := H.alloc.block_bound hB
  have hpos := Nat.two_pow_pos o
  obtain ⟨r, k', B', hrun, h', hrel, hkeep⟩ := pmmFree_page H.alloc hw (p := s)
    (by simp only at hlt; omega) (.inr ⟨o, hB⟩)
  have hO : Owners B' (fun t j => Base t j ∧ t ≠ s) (W.Tab reg) W.Page :=
    H.owners.drop hrel.used (by rintro t rfl; exact ⟨o, hs⟩) fun _ _ => Iff.rfl
  refine ⟨r, k', B', hrun, hrel, H.rebase h' hO ?_, hkeep⟩
  rintro i A hi x ⟨a, ha, hl, hu⟩
  obtain ⟨t, rfl⟩ := H.tableAddr hi ha
  exact hkeep x ⟨t, 0, hO.table ⟨A, hi, ha⟩, hl, by simpa using hu⟩

/-- The loop of `vm_unmap` with release over pages that a space holds. -/
theorem unmapFree [DecidableEq ι] (H : World reg arch k B Base W) (hw : reg.InWindow arch)
    (hi : W i = some A) {n v : Nat} (hv : PageRange arch A.base v n) (hlt : v + n < 2 ^ 52)
    (hheld : ∀ w, v ≤ w → w < v + n → A.pages w ≠ none) (hwhole : A.Whole B v n) :
    ∃ k' B', unmapLoop arch buddyPages ⟨A.root, true⟩ true n k (4096 * v) = .ok k' ∧
      World reg arch k' B' Base (Function.update W i (some (A.unmap v n))) ∧
      ReleasedSet B (fun t => ∃ w, v ≤ w ∧ w < v + n ∧ A.pages w = some t) B' ∧
      AgreeOn (reg.Other B' A.tables) k.mem k'.mem := by
  have hpage : ∀ w, v ≤ w → w < v + n → A.pages w = some ((A.pages w).getD 0) := by
    intro w hl hu
    obtain ⟨p, hp⟩ := Option.ne_none_iff_exists'.mp (hheld w hl hu)
    rw [hp]
    rfl
  have hP := H.alloc.inv.rep.part
  obtain ⟨k', B', hrun, Sp', hM', hrel, hkeep⟩ := unmapFree_spec hw
    (fun w => (A.pages w).getD 0) (fun w => ((A.map w).map Mapping.flags).getD 0) n v
    (H.space hi) (H.represents hi) hv hlt
    (fun w hl hu => by
      obtain ⟨f, hf⟩ := H.mapped hi (hpage w hl hu)
      rw [hf]
      exact ⟨rfl, H.page_lt hi (hpage w hl hu)⟩)
    (fun w w' hl hu hl' hu' he => (H.owners.inj ⟨A, hi, hpage w hl hu⟩
      ⟨A, hi, he ▸ hpage w' hl' hu'⟩).2)
    (fun w hl hu => by
      have hp : W.Page i w ((A.pages w).getD 0) := ⟨A, hi, hpage w hl hu⟩
      exact (H.owners.page_start hP hp).imp id fun h =>
        ⟨h, fun ht => H.owners.pageTable hp ⟨A, hi, ht⟩⟩)
    (fun a ha => H.tableBlock hi ha)
  have hR : ∀ t, (∃ w, v ≤ w ∧ w < v + n ∧ t = (A.pages w).getD 0) ↔
      ∃ w, v ≤ w ∧ w < v + n ∧ A.pages w = some t := by
    refine fun t => exists_congr fun w => and_congr_right fun hl => and_congr_right fun hu => ?_
    constructor
    · rintro rfl
      exact hpage w hl hu
    · intro h
      rw [h]
      rfl
  simp only [hR] at hrel
  have hkeepT : ∀ {j A'}, j ≠ i → W j = some A' →
      AgreeOn (TableByte A'.tables) k.mem k'.mem := by
    intro j A' hne hj x hx
    refine hkeep x ⟨?_, (H.other_table hi hj hne hx).2⟩
    obtain ⟨a, ha, hl, hu⟩ := hx
    obtain ⟨s, rfl, hs⟩ := H.tableBlock hj ha
    refine ⟨s, 0, (hrel.used s 0).mpr ⟨hs, ?_⟩, hl, by simpa using hu⟩
    rintro ⟨w, -, -, hp⟩
    exact H.owners.pageTable ⟨A, hi, hp⟩ ⟨A', hj, ha⟩
  have htab : Spaces.Tab (Function.update W i (some (A.unmap v n))) reg = W.Tab reg := by
    funext j t
    by_cases hj : j = i
    · subst hj
      simp [Spaces.Tab, hi, AddrSpace.unmap]
    · simp [Spaces.Tab, Function.update_of_ne hj]
  refine ⟨k', B', hrun, ⟨Sp'.inv, fun {j A'} hj => ?_, fun {j A'} hj => ?_,
    fun {j A' a} hj ha => ?_, fun {j A' w p} hj hp => ?_, ?_⟩, hrel, hkeep⟩
  · rcases Spaces.update_eq hj with ⟨rfl, rfl⟩ | ⟨hne, hj⟩
    · exact Sp'.tables
    · exact (H.tables hj).congr (hkeepT hne hj)
  · rcases Spaces.update_eq hj with ⟨rfl, rfl⟩ | ⟨hne, hj⟩
    · exact hM'
    · exact (H.represents hj).congr (Tables.leaf_congr (hkeepT hne hj))
  · rcases Spaces.update_eq hj with ⟨rfl, rfl⟩ | ⟨-, hj⟩
    · exact H.tableAddr hi ha
    · exact H.tableAddr hj ha
  · rcases Spaces.update_eq hj with ⟨rfl, rfl⟩ | ⟨-, hj⟩
    · simp only [AddrSpace.unmap, PageMap.unmap] at hp ⊢
      by_cases hw' : v ≤ w ∧ w < v + n
      · rw [if_pos hw'] at hp
        cases hp
      · rw [if_neg hw'] at hp ⊢
        exact H.mapped hi hp
    · exact H.mapped hj hp
  · rw [htab]
    refine H.owners.release (R := fun j w => j = i ∧ v ≤ w ∧ w < v + n) (fun t o => ?_) ?_ ?_
    · rw [hrel.used]
      refine and_congr_right fun _ => not_congr ⟨?_, ?_⟩
      · rintro ⟨w, hl, hu, hp⟩
        exact ⟨i, w, ⟨rfl, hl, hu⟩, A, hi, hp⟩
      · rintro ⟨j, w, ⟨rfl, hl, hu⟩, A', hA', hp⟩
        rw [hi] at hA'
        cases hA'
        exact ⟨w, hl, hu, hp⟩
    · rintro j w s o d ⟨rfl, hl, hu⟩ ⟨A₁, h₁, hp⟩ hs hd ⟨A₂, h₂, hp'⟩
      rw [hi] at h₁ h₂
      cases h₁
      cases h₂
      exact ⟨rfl, by omega, hwhole w s o d hl hu hp hs hd hp'⟩
    · intro j w p
      by_cases hj : j = i
      · subst hj
        simp only [Spaces.Page, Function.update_self, hi, Option.some.injEq, exists_eq_left',
          AddrSpace.unmap, true_and]
        by_cases hw' : v ≤ w ∧ w < v + n
        · simp [hw']
        · simp [hw']
      · simp [Spaces.Page, hj]

end World

end

end OsKernel.Mm

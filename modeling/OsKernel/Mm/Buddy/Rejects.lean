import OsKernel.Mm.Buddy.Source

/-! `k_pmm.free_pages` over the buddy allocator: it takes the status of the allocator for a count of
pages that it fills. -/

namespace OsKernel.Mm

open Lib Hsai Lib.BuddySystem BuddyAllocator

/-- The number of bytes that `_fill_pages` writes. -/
def fillLength (pages : Nat) (cnt : Int) : Nat :=
  (pages + (cnt % 2 ^ 32).toNat * pageSize) % wordSize - pages

theorem fillPages_eq (m : Mem) (pages : Nat) (cnt : Int) :
    fillPages m pages cnt = m.fill pages (fillLength pages cnt) 0 := rfl

theorem fillPages_nothing (m : Mem) {pages : Nat} {cnt : Int} (h : fillLength pages cnt = 0) :
    fillPages m pages cnt = m := by
  rw [fillPages_eq, h]
  exact funext fun x => Mem.fill_outside (by omega)

theorem fillLength_zero {pages : Nat} (h : pages < 2 ^ 64) : fillLength pages 0 = 0 := by
  simp only [fillLength, pageSize, wordSize]
  omega

/-- A negative status fills nothing only where the end of the pages wraps around. -/
theorem fillLength_neg {pages n : Nat} (h : pages < 2 ^ 64) (h0 : 0 < n) (hn : n < 2 ^ 31) :
    fillLength pages (-n) = 0 ↔ 2 ^ 64 ≤ pages + (2 ^ 32 - n) * 4096 := by
  have hmod : ((-n : Int) % 2 ^ 32).toNat = 2 ^ 32 - n := by omega
  simp only [fillLength, hmod, pageSize, wordSize]
  omega

/-- The bytes that a free may write: those of the freed block, and the list heads, the headers of
the free blocks and the info bytes. -/
def FreedByte (st : BuddyState) (ptr x : Nat) : Prop :=
  NodeByte st.alloc (st.alloc.blocks st.mem) x ∨
    ∃ s k, ptr = st.alloc.pageAddr s ∧ st.alloc.blocks st.mem s = some ⟨k, true⟩ ∧
      ptr ≤ x ∧ x < ptr + 4096 * 2 ^ k

/-- A call that the allocator rejects writes nothing, and one that it accepts only what it may. -/
structure FreeSafe (st : BuddyState) (ptr : Nat) : Prop where
  rejected : ∀ status b m, st.alloc.freePages st.mem ptr = .ok (status, b, m) → status < 0 →
    (ptr ≠ 0 → fillLength ptr status = 0) ∧
      ∃ r, pmmFreePages buddyPages ⟨st.alloc, st.mem⟩ ptr = .ok (r, ⟨st.alloc, st.mem⟩)
  accepted : ∀ status b m r k, st.alloc.freePages st.mem ptr = .ok (status, b, m) →
    0 ≤ status → pmmFreePages buddyPages ⟨st.alloc, st.mem⟩ ptr = .ok (r, k) →
      ∀ x, ¬FreedByte st ptr x → k.mem x = st.mem x

/-- What `free_pages` of the allocator returns and writes. -/
inductive FreeStatus (st : BuddyState) (ptr : Nat) : Int × BuddyAllocator × Mem → Prop
  | null (h : ptr = 0) : FreeStatus st ptr (-1, st.alloc, st.mem)
  | unaligned (h0 : ptr ≠ 0) (h : ptr % 4096 ≠ 0) : FreeStatus st ptr (-2, st.alloc, st.mem)
  | inside (h0 : ptr ≠ 0) : FreeStatus st ptr (0, st.alloc, st.mem)
  | again {s k : Nat} (h0 : ptr ≠ 0) (hs : ptr = st.alloc.pageAddr s)
      (h : st.alloc.blocks st.mem s = some ⟨k, false⟩) :
      FreeStatus st ptr (-3, st.alloc, st.mem)
  | released {s k : Nat} {b : BuddyAllocator} {m : Mem} (h0 : ptr ≠ 0)
      (hs : ptr = st.alloc.pageAddr s) (h : st.alloc.blocks st.mem s = some ⟨k, true⟩)
      (keeps : KeepsNodes st.alloc (mark (st.alloc.blocks st.mem) s k false) st.mem m) :
      FreeStatus st ptr (0, b, m)

/-- No block starts at the page of the pointer, or the pointer is past the info bytes. -/
theorem Region.Holds.free_inside {reg : Region} {st : BuddyState} (H : reg.Holds st) {ptr : Nat}
    (h0 : ptr ≠ 0) (hal : ptr % 4096 = 0) {r : Int × BuddyAllocator × Mem}
    (hrun : st.alloc.freePages st.mem ptr = .ok r)
    (hnone : st.alloc.getInfoIndex ptr < st.alloc.infosSize →
      st.alloc.blocks st.mem (st.alloc.getInfoIndex ptr) = none) : r = (0, st.alloc, st.mem) := by
  have halign : isPageAlign ptr = true := isPageAlign_iff.mpr hal
  unfold freePages at hrun
  rw [if_neg h0, halign, if_neg (by decide)] at hrun
  by_cases hidx : st.alloc.getInfoIndex ptr < st.alloc.infosSize
  · have hinfo : st.alloc.getInfo st.mem (st.alloc.getInfoIndex ptr) = ⟨0, false, false⟩ := by
      unfold getInfo
      rw [H.inv.rep.info _ hidx (by simp), hnone hidx]
      decide
    simp only [kassert_pos hidx, ok_bind, hinfo, if_true] at hrun
    exact (Except.ok.inj hrun).symm
  · simp only [kassert, hidx, if_false, error_bind] at hrun
    cases hrun

theorem Region.Holds.free_status {reg : Region} {st : BuddyState} (H : reg.Holds st) {ptr : Nat}
    (hptr : ptr < 2 ^ 64) {r : Int × BuddyAllocator × Mem}
    (hrun : st.alloc.freePages st.mem ptr = .ok r) :
    FreeStatus st ptr r := by
  have I := H.inv
  by_cases h0 : ptr = 0
  · rw [freePages, if_pos h0] at hrun
    cases hrun
    exact .null h0
  by_cases hal : ptr % 4096 = 0
  swap
  · have hno : isPageAlign ptr = false := by
      rw [Bool.eq_false_iff, ne_eq, isPageAlign_iff]
      exact hal
    rw [freePages, if_neg h0, hno, if_pos (by decide)] at hrun
    cases hrun
    exact .unaligned h0 hal
  have hmem := I.rep.layout.aligned
  by_cases hlow : st.alloc.memAddr ≤ ptr
  · obtain ⟨s, hs⟩ : ∃ s, ptr = st.alloc.pageAddr s :=
      ⟨(ptr - st.alloc.memAddr) / 4096, by simp only [pageAddr]; omega⟩
    subst hs
    by_cases hlt : s < st.alloc.infosSize
    · obtain ⟨r', hrun', hcase, hkeep⟩ := freePages_spec I.rep I.coalesced I.maxOrder
        (fun hA hl hu => I.belongArea_eq hA hl hu) hlt hptr h0
      obtain rfl : r = r' := by
        rw [hrun] at hrun'
        exact Except.ok.inj hrun'
      cases hcase with
      | inside hs => exact .inside h0
      | again hs => exact .again h0 rfl hs
      | released rep hno free keeps => exact .released h0 rfl free.held (hkeep _ free.held)
    · have hidx : st.alloc.getInfoIndex (st.alloc.pageAddr s) = s := by
        unfold getInfoIndex
        rw [wordSub_of_le hlow hptr]
        simp only [pageAddr, pageSize]
        omega
      rw [H.free_inside h0 hal hrun fun h => absurd (hidx ▸ h) hlt]
      exact .inside h0
  · -- the index of a pointer before the region is past all managed pages
    have hidx : reg.pages ≤ st.alloc.getInfoIndex ptr := by
      have hpages := reg.infos_le.2.2.2
      have hend := reg.end_le
      rw [H.memAddr] at hlow
      unfold getInfoIndex wordSub
      rw [H.memAddr]
      simp only [wordSize, pageSize]
      omega
    rw [H.free_inside h0 hal hrun fun _ => ?_]
    · exact .inside h0
    · cases hB : st.alloc.blocks st.mem (st.alloc.getInfoIndex ptr) with
      | none => rfl
      | some blk =>
        have := I.rep.block_lt hB
        omega

/-- A free writes what it may, unless it is rejected and the pages that the status counts do not
wrap around. -/
theorem free_safe_iff (reg : Region) (st : BuddyState) (h : reg.Reachable st) (ptr : Nat)
    (hptr : ptr < 2 ^ 64) : FreeSafe st ptr ↔ (ptr ≠ 0 →
      (ptr % 4096 ≠ 0 → 2 ^ 64 ≤ ptr + (2 ^ 32 - 2) * 4096) ∧
      ∀ s k, ptr = st.alloc.pageAddr s → st.alloc.blocks st.mem s = some ⟨k, false⟩ →
        2 ^ 64 ≤ ptr + (2 ^ 32 - 3) * 4096) := by
  have H := h.holds
  constructor
  · intro hsafe h0
    constructor
    · intro hal
      have hno : isPageAlign ptr = false := by
        rw [Bool.eq_false_iff, ne_eq, isPageAlign_iff]
        exact hal
      have hrun : st.alloc.freePages st.mem ptr = .ok (-2, st.alloc, st.mem) := by
        rw [freePages, if_neg h0, hno, if_pos (by decide)]
      exact (fillLength_neg hptr (by decide) (by decide)).mp
        ((hsafe.rejected _ _ _ hrun (by decide)).1 h0)
    · rintro s k rfl hs
      obtain ⟨r, b, m, hrun, hcase⟩ := H.inv.free (H.inv.rep.info_lt hs) hptr h0
      rcases hcase with ⟨hnone, -⟩ | ⟨j, -, rfl, -, -⟩ | ⟨j, B', -, -, hrel, -⟩
      · rw [hs] at hnone
        cases hnone
      · exact (fillLength_neg hptr (by decide) (by decide)).mp
          ((hsafe.rejected _ _ _ hrun (by decide)).1 h0)
      · have hheld := hrel.held
        rw [hs] at hheld
        cases hheld
  · intro hcond
    have hpmm : ∀ {status b m}, ptr ≠ 0 →
        st.alloc.freePages st.mem ptr = .ok (status, b, m) →
        pmmFreePages buddyPages ⟨st.alloc, st.mem⟩ ptr =
          .ok (0, ⟨b, fillPages m ptr status⟩) := by
      intro status b m h0 hrun
      unfold pmmFreePages
      rw [if_neg h0]
      change (st.alloc.freePages st.mem ptr >>= _) = _
      rw [hrun, ok_bind]
    constructor
    · intro status b m hrun hneg
      have hst := H.free_status hptr hrun
      generalize hr : (status, b, m) = r at hst
      cases hst with
      | null h0 =>
        cases hr
        refine ⟨fun hne => absurd h0 hne, -1, ?_⟩
        rw [pmmFreePages, if_pos h0]
      | unaligned h0 hal =>
        cases hr
        have hfill : fillLength ptr (-2) = 0 :=
          (fillLength_neg (n := 2) hptr (by decide) (by decide)).mpr ((hcond h0).1 hal)
        refine ⟨fun _ => hfill, 0, ?_⟩
        rw [hpmm h0 hrun, fillPages_nothing _ hfill]
      | again h0 hs hB =>
        cases hr
        have hfill : fillLength ptr (-3) = 0 :=
          (fillLength_neg (n := 3) hptr (by decide) (by decide)).mpr ((hcond h0).2 _ _ hs hB)
        refine ⟨fun _ => hfill, 0, ?_⟩
        rw [hpmm h0 hrun, fillPages_nothing _ hfill]
      | inside h0 =>
        cases hr
        exact absurd hneg (by decide)
      | released h0 hs hB keeps =>
        cases hr
        exact absurd hneg (by decide)
    · intro status b m r k hrun hpos hret x hx
      have hst := H.free_status hptr hrun
      generalize hr : (status, b, m) = r' at hst
      cases hst with
      | null h0 =>
        cases hr
        exact absurd hpos (by decide)
      | unaligned h0 hal =>
        cases hr
        exact absurd hpos (by decide)
      | again h0 hs hB =>
        cases hr
        exact absurd hpos (by decide)
      | inside h0 =>
        cases hr
        rw [hpmm h0 hrun, fillPages_nothing _ (fillLength_zero hptr)] at hret
        cases hret
        rfl
      | @released s j _ _ h0 hs hB keeps =>
        cases hr
        rw [hpmm h0 hrun, fillPages_nothing _ (fillLength_zero hptr)] at hret
        cases hret
        refine keeps x fun hn => hx ?_
        have hpow := Nat.two_pow_pos j
        rcases hn with hinfo | ⟨y, hy | ⟨t, i, ht, rfl⟩, hl, hu⟩
        · exact .inl (.inl hinfo)
        · exact .inl (.inr ⟨y, .inl hy, hl, hu⟩)
        · rw [mark_apply] at ht
          split at ht
          · rename_i he
            subst he
            exact .inr ⟨t, j, hs, hB, by omega, by omega⟩
          · exact .inl (.inr ⟨_, .inr ⟨t, i, ht, rfl⟩, hl, hu⟩)

/-- A pointer into a page is rejected, and four gigapages from it on are overwritten. -/
theorem rejected_free_fills : ∃ st, sampleRegion.Reachable st ∧ ¬FreeSafe st 0x80000001 := by
  obtain ⟨st, h⟩ := sampleRegion.exists_reachable
  refine ⟨st, h, fun hsafe => ?_⟩
  have hrun : st.alloc.freePages st.mem 0x80000001 = .ok (-2, st.alloc, st.mem) := rfl
  exact absurd ((hsafe.rejected _ _ _ hrun (by decide)).1 (by decide)) (by decide)

/-- A block of four pages is released, and by its second page. -/
theorem free_safe_sample : ∃ st s, sampleRegion.Reachable st ∧
    st.alloc.blocks st.mem s = some ⟨2, true⟩ ∧ FreeSafe st (st.alloc.pageAddr s) ∧
    FreeSafe st (st.alloc.pageAddr (s + 1)) := by
  obtain ⟨st, s, t, h, hused⟩ := sampleRegion_held
  have hs : st.alloc.blocks st.mem s = some ⟨2, true⟩ := (hused s 2).mpr (.inl ⟨rfl, rfl⟩)
  have R := h.holds.inv.rep
  have hend := R.block_le hs
  have hmem : st.alloc.memAddr = 0x80000000 := h.holds.memAddr
  have hpages : sampleRegion.pages = 99 := by decide
  simp only [hpages] at hend
  -- No block in the four pages is free.
  have hsafe : ∀ p, s ≤ p → p < s + 4 → FreeSafe st (st.alloc.pageAddr p) := by
    intro p hl hu
    refine (free_safe_iff sampleRegion st h _ (by simp only [pageAddr]; omega)).mpr fun _ =>
      ⟨fun hal => absurd ?_ hal, fun q k hq hfree => ?_⟩
    · simp only [pageAddr]
      omega
    · obtain rfl : p = q := by
        simp only [pageAddr] at hq
        omega
      have hself := R.part.eq_of_mem hs hfree (p := p) ⟨hl, hu⟩
        ⟨Nat.le_refl p, Nat.lt_add_of_pos_right (Nat.two_pow_pos k)⟩
      rw [← hself, hs] at hfree
      cases hfree
  exact ⟨st, s, h, hs, hsafe s (Nat.le_refl s) (by omega), hsafe (s + 1) (by omega) (by omega)⟩

end OsKernel.Mm

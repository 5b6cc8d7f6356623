import OsKernel.Mm.Buddy.System

/-! What the invariant says of every reachable state of the allocator: the three encodings of the
blocks agree, and free buddies are always merged. -/

namespace OsKernel.Mm

open Lib Hsai Lib.BuddySystem BuddyAllocator

/-- The info bytes, the free lists and the headers describe one partition `B` of the managed
pages. -/
structure Region.Consistent (reg : Region) (st : BuddyState) (B : Blocks) : Prop where
  managed : st.alloc.memAddr = reg.mem ∧ st.alloc.memSize = 4096 * reg.pages ∧
    st.alloc.allocInfos = reg.mem + 4096 * reg.pages ∧
    st.alloc.allocInfos + st.alloc.infosSize = reg.mem + reg.size
  fits : ∀ {s blk}, B s = some blk →
    ∃ a o, (binaryAreas reg.pages 64).mem a o ∧ Fits a o s blk.order
  cover : ∀ p, p < reg.pages ↔ ∃ s blk, B s = some blk ∧ s ≤ p ∧ p < s + 2 ^ blk.order
  apart : ∀ {s blk t blk'}, B s = some blk → B t = some blk' → s < t →
    s + 2 ^ blk.order ≤ t
  info : ∀ p < st.alloc.infosSize, st.alloc.getInfo st.mem p =
    match B p with
    | none => ⟨0, false, false⟩
    | some blk => ⟨blk.order, true, blk.used⟩
  lists : ∀ k < 33, ∃ l, Ring (getField st.mem .next) (getField st.mem .prev)
      (st.alloc.listHead k) l ∧
    ∀ x, x ∈ l ↔ ∃ s, x = st.alloc.pageAddr s ∧ B s = some ⟨k, false⟩
  header : ∀ {s k}, B s = some ⟨k, false⟩ →
    getField st.mem .areaSize (st.alloc.pageAddr s) = 4096 * 2 ^ k
  disjoint : ∀ {s k t j}, B s = some ⟨k, true⟩ → B t = some ⟨j, true⟩ → s ≠ t →
    st.alloc.pageAddr s + 4096 * 2 ^ k ≤ st.alloc.pageAddr t ∨
      st.alloc.pageAddr t + 4096 * 2 ^ j ≤ st.alloc.pageAddr s
  table : ∀ {s k}, B s = some ⟨k, true⟩ →
    st.alloc.pageAddr s + 4096 * 2 ^ k ≤ st.alloc.allocInfos
  size : st.alloc.allocSize = 4096 * ∑ p ∈ Finset.range reg.pages, weight (B p)

theorem Region.pages_mod (reg : Region) : reg.pages % 2 ^ 64 = reg.pages := by
  have h1 := reg.pages_lt
  obtain ⟨-, -, -, hsum⟩ := reg.infos_le
  exact Nat.mod_eq_of_lt (by omega)

theorem Region.Holds.consistent {reg : Region} {st : BuddyState} (H : reg.Holds st) :
    reg.Consistent st (st.alloc.blocks st.mem) := by
  have hR := H.inv.rep
  have hL := hR.layout
  obtain ⟨-, -, -, hsum⟩ := reg.infos_le
  have hinf : st.alloc.allocInfos = reg.mem + 4096 * reg.pages := by rw [hL.infos, H.memAddr]
  refine ⟨⟨H.memAddr, H.inv.memSize, hinf, by rw [hinf, H.infosSize]; omega⟩, hR.part.fits,
    fun p => ⟨fun hp => ?_, ?_⟩, hR.part.apart, fun p hp => ?_, fun k hk => ?_,
    fun hs => (hR.header hs).2, fun {s k t j} hs ht hne => ?_, fun {s k} hs => ?_, H.inv.size⟩
  · obtain ⟨a, o, hA, hl, hu⟩ := binaryAreas_cover (N := reg.pages) (k := 64) (p := p)
      (by rw [reg.pages_mod]; exact hp)
    exact hR.part.cover hA hl hu
  · rintro ⟨s, blk, hs, -, hu⟩
    have := hR.block_le hs
    omega
  · cases hB : st.alloc.blocks st.mem p with
    | none =>
      unfold getInfo
      rw [hR.info p hp (by simp), hB]
      decide
    | some blk => exact hR.getInfo_eq hB (by simp)
  · obtain ⟨l, hl⟩ := hR.lists k hk
    exact ⟨l, hl.1, fun x => by simpa using hl.2 x⟩
  · simp only [pageAddr]
    rcases Nat.lt_or_gt_of_ne hne with hlt | hlt
    · have := hR.part.apart hs ht hlt
      simp only at this
      omega
    · have := hR.part.apart ht hs hlt
      simp only at this
      omega
  · have := hR.block_le hs
    rw [hL.infos]
    simp only [pageAddr] at this ⊢
    omega

/-! ### A region -/

/-- A region of 100 pages at 2 GiB, with the object in the page before it. -/
def sampleRegion : Region where
  mem := 0x80000000
  size := 100 * 4096
  nodes := 0x7ffff000
  mem_aligned := by decide
  size_aligned := by decide
  size_ge := by decide
  pages_lt := by decide
  end_le := by decide
  nodes_le := by decide
  apart := by decide

/-- The state after the constructor is reachable, and no block is in use. -/
theorem Region.exists_fresh (reg : Region) : ∃ st, reg.Reachable st ∧
    ∀ s k, st.alloc.blocks st.mem s ≠ some ⟨k, true⟩ := by
  obtain ⟨b, m', B, hb, I, hB, -⟩ := make_inv reg fun _ => 0
  refine ⟨⟨b, m'⟩, ⟨_, b, m', hb, .refl⟩, fun s k hs => ?_⟩
  simp only [I.rep.blocks_eq] at hs
  have hfree := ((hB s _).mp hs).2
  cases hfree

theorem Region.exists_reachable (reg : Region) : ∃ st, reg.Reachable st := by
  obtain ⟨st, h, -⟩ := reg.exists_fresh
  exact ⟨st, h⟩

theorem Region.Reachable.step {reg : Region} {st st' : BuddyState} (h : reg.Reachable st)
    (hs : reg.Step st st') : reg.Reachable st' := by
  obtain ⟨m, b₀, m₀, hmake, hrun⟩ := h
  exact ⟨m, b₀, m₀, hmake, hrun.tail hs⟩

/-- An allocation from the area of 64 pages. -/
theorem Region.Reachable.sample_alloc {st : BuddyState} (h : sampleRegion.Reachable st)
    {count q : Nat} (hpos : 0 < count) (hc : count ≤ 2 ^ 31) (hf : Fits 35 6 q (Nat.clog 2 count))
    (hun : ∀ p, q ≤ p → p < q + 2 ^ Nat.clog 2 count → ¬InUse (st.alloc.blocks st.mem) p) :
    ∃ s st', sampleRegion.Reachable st' ∧
      (∀ j, st.alloc.blocks st.mem s ≠ some ⟨j, true⟩) ∧
      ∀ t j, st'.alloc.blocks st'.mem t = some ⟨j, true⟩ ↔
        (t = s ∧ j = Nat.clog 2 count) ∨ st.alloc.blocks st.mem t = some ⟨j, true⟩ := by
  have hA : (binaryAreas sampleRegion.pages 64).mem 35 6 := ⟨by decide, by decide, by decide⟩
  obtain ⟨s, b, m, hrun, -, ha⟩ := h.holds.alloc_some hpos hc hA hf hun
  exact ⟨s, ⟨b, m⟩, h.step (.alloc hpos hc hrun), ha.fresh, ha.used⟩

/-- A single page is allocated beside a block of four pages and two single pages. -/
theorem Region.Reachable.sample_page {st : BuddyState} (h : sampleRegion.Reachable st) {s t u : Nat}
    (hused : ∀ x j, st.alloc.blocks st.mem x = some ⟨j, true⟩ →
      (x = s ∧ j = 2) ∨ ((x = t ∨ x = u) ∧ j = 0)) :
    ∃ v st', sampleRegion.Reachable st' ∧
      (∀ j, st.alloc.blocks st.mem v ≠ some ⟨j, true⟩) ∧
      ∀ x j, st'.alloc.blocks st'.mem x = some ⟨j, true⟩ ↔
        (x = v ∧ j = 0) ∨ st.alloc.blocks st.mem x = some ⟨j, true⟩ := by
  obtain ⟨q, hl, hu, hs, ht, hu'⟩ : ∃ q, 35 ≤ q ∧ q < 45 ∧ ¬(s ≤ q ∧ q < s + 4) ∧
      q ≠ t ∧ q ≠ u := by
    by_contra hno
    push Not at hno
    have h35 := hno 35
    have h36 := hno 36
    have h40 := hno 40
    have h41 := hno 41
    have h44 := hno 44
    omega
  have hclog : Nat.clog 2 1 = 0 := Nat.clog_one_right 2
  obtain ⟨v, st', h', hfresh, hv⟩ := h.sample_alloc (q := q) Nat.one_pos (by decide)
    (by rw [hclog]; exact ⟨hl, Nat.one_dvd _, by omega⟩) (by
      rw [hclog]
      rintro p hp hp' ⟨x, j, hx, hxl, hxu⟩
      obtain rfl : p = q := by omega
      rcases hused x j hx with ⟨rfl, rfl⟩ | ⟨rfl | rfl, rfl⟩ <;> omega)
  rw [hclog] at hv
  exact ⟨v, st', h', hfresh, hv⟩

/-- A block in use is released. -/
theorem Region.Reachable.sample_free {st : BuddyState} (h : sampleRegion.Reachable st) {s k : Nat}
    (hs : st.alloc.blocks st.mem s = some ⟨k, true⟩) :
    ∃ st', sampleRegion.Reachable st' ∧
      ∀ t j, st'.alloc.blocks st'.mem t = some ⟨j, true⟩ ↔
        t ≠ s ∧ st.alloc.blocks st.mem t = some ⟨j, true⟩ := by
  obtain ⟨b, m, hrun, -, hused⟩ := h.holds.free_held (by decide) hs
  have hlt := h.holds.inv.rep.block_lt hs
  have hpages : sampleRegion.pages = 99 := by decide
  have haddr : st.alloc.pageAddr s = 0x80000000 + 4096 * s := by
    rw [pageAddr, h.holds.memAddr]
    rfl
  have hsize : sampleRegion.mem + sampleRegion.size = 0x80000000 + 100 * 4096 := rfl
  have hmem : sampleRegion.mem = 0x80000000 := rfl
  exact ⟨⟨b, m⟩, h.step (.free (by omega) (by omega) (by omega) hrun), hused⟩

/-- Blocks of 4 pages, 1 page and 1 page are allocated, and the last is released. -/
theorem sampleRegion_held : ∃ st s t, sampleRegion.Reachable st ∧
    ∀ x j, st.alloc.blocks st.mem x = some ⟨j, true⟩ ↔ (x = s ∧ j = 2) ∨
      (x = t ∧ j = 0) := by
  obtain ⟨st₀, h₀, hnone⟩ := sampleRegion.exists_fresh
  have hclog : Nat.clog 2 3 = 2 :=
    le_antisymm ((Nat.clog_le_iff_le_pow (by decide)).mpr (by decide))
      (Nat.succ_le_of_lt ((Nat.lt_clog_iff_pow_lt (by decide)).mpr (by decide)))
  obtain ⟨s, st₁, h₁, -, hs⟩ :=
    h₀.sample_alloc (q := 35) (show 0 < 3 by decide) (by decide)
    (by rw [hclog]; exact ⟨Nat.le_refl 35, by decide, by decide⟩) (by
      rintro p - - ⟨x, j, hx, -⟩
      exact hnone x j hx)
  rw [hclog] at hs
  obtain ⟨t, st₂, h₂, -, ht⟩ := h₁.sample_page (s := s) (t := 0) (u := 0) fun x j hx =>
    .inl (((hs x j).mp hx).resolve_right (hnone x j))
  have ht' : ∀ x j, st₂.alloc.blocks st₂.mem x = some ⟨j, true⟩ ↔
      (x = s ∧ j = 2) ∨ (x = t ∧ j = 0) := by
    intro x j
    rw [ht, hs]
    simp only [hnone x j, or_false]
    exact or_comm
  obtain ⟨u, st₃, h₃, hfresh, hu⟩ :=
      h₂.sample_page (s := s) (t := t) (u := t) fun x j hx => by
    rcases (ht' x j).mp hx with h | h
    · exact .inl h
    · exact .inr ⟨.inl h.1, h.2⟩
  obtain ⟨st₄, h₄, hfree⟩ := h₃.sample_free ((hu u 0).mpr (.inl ⟨rfl, rfl⟩))
  refine ⟨st₄, s, t, h₄, fun x j => ?_⟩
  rw [hfree, hu, ← ht']
  constructor
  · rintro ⟨hne, ⟨he, -⟩ | hx⟩
    · exact absurd he hne
    · exact hx
  · refine fun hx => ⟨?_, .inr hx⟩
    rintro rfl
    exact hfresh j hx

/-! ### Reachable states -/

/-- In every reachable state the encodings agree, and every call returns. -/
theorem reachable_consistent (reg : Region) (st : BuddyState) (h : reg.Reachable st) :
    reg.Consistent st (st.alloc.blocks st.mem) ∧
      (∀ count, 0 < count → count ≤ 2 ^ 31 → ∃ r, st.alloc.allocPages st.mem count =
        .ok r) ∧
      ∀ ptr, ptr % 4096 = 0 → reg.mem ≤ ptr → ptr < reg.mem + reg.size →
        ∃ r, st.alloc.freePages st.mem ptr = .ok r :=
  ⟨h.holds.consistent, fun _ => h.holds.alloc_ok, fun _ => h.holds.free_ok⟩

theorem reachable_consistent_sample : ∃ st s t, sampleRegion.Reachable st ∧
    st.alloc.blocks st.mem s = some ⟨2, true⟩ ∧
    st.alloc.blocks st.mem t = some ⟨0, true⟩ ∧
    sampleRegion.Consistent st (st.alloc.blocks st.mem) := by
  obtain ⟨st, s, t, h, hused⟩ := sampleRegion_held
  exact ⟨st, s, t, h, (hused s 2).mpr (.inl ⟨rfl, rfl⟩),
    (hused t 0).mpr (.inr ⟨rfl, rfl⟩), (reachable_consistent sampleRegion st h).1⟩

/-- Free buddies are merged in every reachable state: with no block in use the blocks are the
areas, and an allocation fails only where no aligned run of its size is free. -/
theorem reachable_coalesced (reg : Region) (st : BuddyState) (h : reg.Reachable st) :
    (∀ a o s k, (binaryAreas reg.pages 64).mem a o → Fits a o s k → k < o →
      ¬(st.alloc.blocks st.mem s = some ⟨k, false⟩ ∧
        st.alloc.blocks st.mem (buddy a s k) = some ⟨k, false⟩)) ∧
    ((∀ s blk, st.alloc.blocks st.mem s = some blk → blk.used = false) →
      ∀ s k, st.alloc.blocks st.mem s = some ⟨k, false⟩ ↔
      (binaryAreas reg.pages 64).mem s k) ∧
    ∀ count r b' m', 0 < count → count ≤ 2 ^ 31 →
      st.alloc.allocPages st.mem count = .ok (r, b', m') →
      (reg.mem ≠ 0 → r ≠ some 0) ∧
      (r = none → ∀ a o q, (binaryAreas reg.pages 64).mem a o →
        Fits a o q (Nat.clog 2 count) →
          ¬FreeRun (st.alloc.blocks st.mem) q (Nat.clog 2 count)) := by
  have H := h.holds
  have hpart := H.inv.rep.part
  refine ⟨fun a o s k hA hf hk hboth => ?_, fun hun s k => ⟨fun hs => ?_, fun hA => ?_⟩,
    fun count r b' m' hpos hc hrun => ?_⟩
  · exact H.inv.coalesced hA hf hk (by simp) (by simp) hboth.1 hboth.2
  · obtain ⟨a, o, hA, hf⟩ := hpart.fits hs
    have ha := area_block_of_unused hpart H.inv.coalesced (hun _ _) hA
    have hin := hf.inside
    have hpos := Nat.two_pow_pos k
    simp only at hin
    obtain rfl := hpart.eq_of_mem ha hs (p := s) ⟨hf.start, by simp only; omega⟩
      ⟨Nat.le_refl s, by simp only; omega⟩
    rw [ha] at hs
    cases hs
    exact hA
  · exact area_block_of_unused hpart H.inv.coalesced (hun _ _) hA
  · obtain ⟨r₁, b₁, m₁, hrun₁, hcase⟩ := H.inv.alloc hpos hc
    obtain ⟨rfl, -, -⟩ : r = r₁ ∧ b' = b₁ ∧ m' = m₁ := by
      rw [hrun] at hrun₁
      simpa using hrun₁
    rcases hcase with ⟨rfl, -, -, hsmall⟩ | ⟨s, B', rfl, -⟩
    · refine ⟨by simp, fun _ a o q hA hf hrunq => ?_⟩
      obtain ⟨s, blk, hs, hused, hge, -⟩ :=
        exists_block_of_freeRun hpart H.inv.coalesced hA hf hrunq
      obtain ⟨k, u⟩ := blk
      simp only at hused hge
      subst hused
      have := hsmall s k hs
      omega
    · refine ⟨fun hm he => hm ?_, by simp⟩
      rw [← H.memAddr]
      simp only [pageAddr, Option.some.injEq] at he
      omega

theorem reachable_coalesced_sample : ∃ st s t, sampleRegion.Reachable st ∧
    st.alloc.blocks st.mem s = some ⟨2, true⟩ ∧
    st.alloc.blocks st.mem t = some ⟨0, true⟩ ∧
    ∀ a o s k, (binaryAreas sampleRegion.pages 64).mem a o → Fits a o s k → k < o →
      ¬(st.alloc.blocks st.mem s = some ⟨k, false⟩ ∧
        st.alloc.blocks st.mem (buddy a s k) = some ⟨k, false⟩) := by
  obtain ⟨st, s, t, h, hused⟩ := sampleRegion_held
  exact ⟨st, s, t, h, (hused s 2).mpr (.inl ⟨rfl, rfl⟩),
    (hused t 0).mpr (.inr ⟨rfl, rfl⟩), (reachable_coalesced sampleRegion st h).1⟩

end OsKernel.Mm

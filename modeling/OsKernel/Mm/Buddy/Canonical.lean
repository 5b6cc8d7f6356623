import OsKernel.Mm.Buddy.Source

/-! The free blocks depend on the pages in use alone, not on how the calls came to them: two
histories with the same pages in use have the same free blocks, and releasing what was allocated, in
any order, gives back the blocks from before. -/

namespace OsKernel.Mm

open Lib Hsai Lib.BuddySystem BuddyAllocator

namespace BuddyState

/-- The blocks that the info bytes of a state describe. -/
def blocks (st : BuddyState) : Blocks := st.alloc.blocks st.mem

/-- A run of `alloc_pages`, with the pointers that are not null. -/
def allocAll : BuddyState → List Nat → Except Fault (List Nat × BuddyState)
  | st, [] => .ok ([], st)
  | st, count :: counts => do
    let (r, b, m) ← st.alloc.allocPages st.mem count
    let (ptrs, st) ← allocAll ⟨b, m⟩ counts
    return (r.toList ++ ptrs, st)

/-- A run of `free_pages`. -/
def freeAll : BuddyState → List Nat → Except Fault BuddyState
  | st, [] => .ok st
  | st, ptr :: ptrs => do
    let (_, b, m) ← st.alloc.freePages st.mem ptr
    freeAll ⟨b, m⟩ ptrs

end BuddyState

namespace Region

variable {reg : Region} {st st' : BuddyState}

theorem Holds.pageAddr_eq (H : reg.Holds st) (s : Nat) : st.alloc.pageAddr s = reg.addr s := by
  rw [pageAddr, H.memAddr, addr]

/-- States with the same blocks in use have the same blocks, and the same number of bytes in use. -/
theorem Holds.blocks_eq (H : reg.Holds st) (H' : reg.Holds st')
    (hsame : ∀ s k, st.blocks s = some ⟨k, true⟩ ↔ st'.blocks s = some ⟨k, true⟩) :
    st.blocks = st'.blocks ∧ st.alloc.allocSize = st'.alloc.allocSize := by
  have hB : st.blocks = st'.blocks :=
    blocks_of_used H.inv.rep.part H'.inv.rep.part H.inv.coalesced H'.inv.coalesced hsame
  refine ⟨hB, ?_⟩
  rw [H.inv.size, H'.inv.size]
  exact congrArg (fun B => 4096 * usedUnits reg.pages B) hB

/-- One `alloc_pages` puts at most one block more in use. -/
theorem Holds.allocOne (H : reg.Holds st) {count : Nat} (hpos : 0 < count) (hc : count ≤ 2 ^ 31) :
    ∃ r b m, st.alloc.allocPages st.mem count = .ok (r, b, m) ∧ reg.Holds ⟨b, m⟩ ∧
      ((r = none ∧ (BuddyState.mk b m).blocks = st.blocks) ∨
        ∃ s k, r = some (reg.addr s) ∧
          Allocated reg.pages st.blocks s k (BuddyState.mk b m).blocks) := by
  obtain ⟨r, b, m, hrun, hcase⟩ := H.inv.alloc hpos hc
  refine ⟨r, b, m, hrun, ?_⟩
  rcases hcase with ⟨rfl, rfl, rfl, -⟩ | ⟨s, B', rfl, I, ha, -, hb⟩
  · exact ⟨H, .inl ⟨rfl, rfl⟩⟩
  · obtain ⟨H', hblocks⟩ := H.of_keeps I hb
    have hB : (BuddyState.mk b m).blocks = B' := hblocks
    refine ⟨H', .inr ⟨s, Nat.clog 2 count, ?_, ?_⟩⟩
    · rw [H.pageAddr_eq]
    · rw [hB]
      exact ha

/-- One `free_pages` of a block in use takes that block alone out of use. -/
theorem Holds.freeOne (H : reg.Holds st) (hmem : 0 < reg.mem) {s k : Nat}
    (hs : st.blocks s = some ⟨k, true⟩) :
    ∃ b m, st.alloc.freePages st.mem (reg.addr s) = .ok (0, b, m) ∧ reg.Holds ⟨b, m⟩ ∧
      ∀ t j, (BuddyState.mk b m).blocks t = some ⟨j, true⟩ ↔ t ≠ s ∧
        st.blocks t = some ⟨j, true⟩ := by
  rw [← H.pageAddr_eq]
  exact H.free_held hmem hs

/-- Releasing the blocks at `starts` takes these out of use and no other. -/
theorem Holds.freeAll (H : reg.Holds st) (hmem : 0 < reg.mem) {starts : List Nat}
    (hnodup : starts.Nodup) (hheld : ∀ s ∈ starts, ∃ k, st.blocks s = some ⟨k, true⟩) :
    ∃ st', st.freeAll (starts.map reg.addr) = .ok st' ∧ reg.Holds st' ∧
      ∀ t j, st'.blocks t = some ⟨j, true⟩ ↔ t ∉ starts ∧
        st.blocks t = some ⟨j, true⟩ := by
  induction starts generalizing st with
  | nil => exact ⟨st, rfl, H, by simp⟩
  | cons s starts ih =>
    obtain ⟨hs, hrest⟩ := List.nodup_cons.mp hnodup
    obtain ⟨k, hk⟩ := hheld s List.mem_cons_self
    obtain ⟨b, m, hrun, H', hused⟩ := H.freeOne hmem hk
    have hheld' : ∀ t ∈ starts, ∃ j, (BuddyState.mk b m).blocks t = some ⟨j, true⟩ := by
      intro t ht
      obtain ⟨j, hj⟩ := hheld t (List.mem_cons_of_mem s ht)
      exact ⟨j, (hused t j).mpr ⟨fun he => hs (he ▸ ht), hj⟩⟩
    obtain ⟨st', hrun', H'', hused'⟩ := ih H' hrest hheld'
    refine ⟨st', ?_, H'', fun t j => ?_⟩
    · rw [List.map_cons, BuddyState.freeAll, hrun]
      exact hrun'
    · rw [hused', hused, List.mem_cons, not_or, ← and_assoc, and_comm (a := t ∉ starts)]

/-- A run of allocations puts the blocks at its pointers in use and no other. -/
theorem Holds.allocAll (H : reg.Holds st) {counts : List Nat}
    (hcounts : ∀ count ∈ counts, 0 < count ∧ count ≤ 2 ^ 31) :
    ∃ (starts : List Nat) (st' : BuddyState),
      st.allocAll counts = .ok (starts.map reg.addr, st') ∧ reg.Holds st' ∧ starts.Nodup ∧
      (∀ s ∈ starts, ∃ k, st'.blocks s = some ⟨k, true⟩) ∧
      ∀ t j, st.blocks t = some ⟨j, true⟩ ↔ t ∉ starts ∧
        st'.blocks t = some ⟨j, true⟩ := by
  induction counts generalizing st with
  | nil => exact ⟨[], st, rfl, H, List.nodup_nil, by simp, by simp⟩
  | cons count counts ih =>
    obtain ⟨hpos, hc⟩ := hcounts count List.mem_cons_self
    obtain ⟨r, b, m, hrun, H', hcase⟩ := H.allocOne hpos hc
    obtain ⟨starts, st', hrun', H'', hnodup, hheld, hback⟩ :=
      ih H' fun c hm => hcounts c (List.mem_cons_of_mem count hm)
    have hall : st.allocAll (count :: counts) = .ok (r.toList ++ starts.map reg.addr, st') := by
      rw [BuddyState.allocAll, hrun]
      change (do
        let x ← BuddyState.allocAll ⟨b, m⟩ counts
        return (r.toList ++ x.1, x.2)) = _
      rw [hrun']
      rfl
    rcases hcase with ⟨rfl, hB⟩ | ⟨s, k, rfl, ha⟩
    · refine ⟨starts, st', hall, H'', hnodup, hheld, fun t j => ?_⟩
      rw [← hB]
      exact hback t j
    · have hs := (ha.used s k).mpr (.inl ⟨rfl, rfl⟩)
      obtain ⟨hnot, hs'⟩ := (hback s k).mp hs
      refine ⟨s :: starts, st', hall, H'', List.nodup_cons.mpr ⟨hnot, hnodup⟩, ?_,
        fun t j => ?_⟩
      · intro t ht
        rcases List.mem_cons.mp ht with rfl | ht
        · exact ⟨k, hs'⟩
        · exact hheld t ht
      · rw [List.mem_cons, not_or, and_assoc, ← hback, ha.used]
        constructor
        · intro ht
          refine ⟨?_, .inr ht⟩
          rintro rfl
          exact ha.fresh j ht
        · rintro ⟨hne, ⟨he, -⟩ | ht⟩
          · exact absurd he hne
          · exact ht

end Region

/-- Two reachable states with the same pages in use have the same free blocks, in the same lists. -/
theorem free_blocks_canonical (reg : Region) (st st' : BuddyState) (h : reg.Reachable st)
    (h' : reg.Reachable st') (hsame : ∀ p, InUse st.blocks p ↔ InUse st'.blocks p) (s k : Nat) :
    st.blocks s = some ⟨k, false⟩ ↔ st'.blocks s = some ⟨k, false⟩ := by
  have I := h.holds.inv
  have I' := h'.holds.inv
  constructor
  · exact free_of_inUse I.rep.part I'.rep.part I.coalesced I'.coalesced hsame
  · exact free_of_inUse I'.rep.part I.rep.part I'.coalesced I.coalesced fun p => (hsame p).symm

/-- Beside two blocks in use, two single pages are allocated and released, in one order and in the
other. -/
theorem free_blocks_canonical_sample : ∃ st st' s, sampleRegion.Reachable st ∧
    sampleRegion.Reachable st' ∧ st.blocks s = some ⟨2, true⟩ ∧
    st'.blocks s = some ⟨2, true⟩ ∧
    ∀ x k, st.blocks x = some ⟨k, false⟩ ↔ st'.blocks x = some ⟨k, false⟩ := by
  obtain ⟨st₀, s, t, h₀, hused⟩ := sampleRegion_held
  obtain ⟨v, st₁, h₁, hv, hused₁⟩ :=
      h₀.sample_page (s := s) (t := t) (u := t) fun x j hx => by
    rcases (hused x j).mp hx with h | h
    · exact .inl h
    · exact .inr ⟨.inl h.1, h.2⟩
  obtain ⟨w, st₂, h₂, hw, hused₂⟩ :=
      h₁.sample_page (s := s) (t := t) (u := v) fun x j hx => by
    rw [hused₁, hused] at hx
    rcases hx with h | h | h
    · exact .inr ⟨.inr h.1, h.2⟩
    · exact .inl h
    · exact .inr ⟨.inl h.1, h.2⟩
  have hvw : v ≠ w := by
    rintro rfl
    exact hw 0 ((hused₁ v 0).mpr (.inl ⟨rfl, rfl⟩))
  have hv₂ : st₂.blocks v = some ⟨0, true⟩ :=
    (hused₂ v 0).mpr (.inr ((hused₁ v 0).mpr (.inl ⟨rfl, rfl⟩)))
  have hw₂ : st₂.blocks w = some ⟨0, true⟩ := (hused₂ w 0).mpr (.inl ⟨rfl, rfl⟩)
  -- Both orders leave the blocks that were in use before.
  obtain ⟨st₃, h₃, hused₃⟩ := h₂.sample_free hv₂
  obtain ⟨st₄, h₄, hused₄⟩ := h₃.sample_free ((hused₃ w 0).mpr ⟨hvw.symm, hw₂⟩)
  obtain ⟨st₅, h₅, hused₅⟩ := h₂.sample_free hw₂
  obtain ⟨st₆, h₆, hused₆⟩ := h₅.sample_free ((hused₅ v 0).mpr ⟨hvw, hv₂⟩)
  have hsame : ∀ x j, st₄.blocks x = some ⟨j, true⟩ ↔
      st₆.blocks x = some ⟨j, true⟩ := by
    intro x j
    rw [BuddyState.blocks, hused₄, hused₃, BuddyState.blocks, hused₆, hused₅]
    exact and_left_comm
  have hs₆ : st₆.blocks s = some ⟨2, true⟩ := by
    have hs : st₀.blocks s = some ⟨2, true⟩ := (hused s 2).mpr (.inl ⟨rfl, rfl⟩)
    refine (hused₆ s 2).mpr ⟨?_,
      (hused₅ s 2).mpr ⟨?_, (hused₂ s 2).mpr (.inr ((hused₁ s 2).mpr (.inr hs)))⟩⟩
    · rintro rfl
      exact hv 2 hs
    · rintro rfl
      exact hw 2 ((hused₁ s 2).mpr (.inr hs))
  refine ⟨st₄, st₆, s, h₄, h₆, (hsame s 2).mpr hs₆, hs₆, fun x k => ?_⟩
  refine free_blocks_canonical sampleRegion st₄ st₆ h₄ h₆ (fun p => ?_) x k
  simp only [InUse, hsame]

/-- After any run of allocations, releasing its pointers in any order gives the blocks and the
number of bytes in use from before the run. -/
theorem alloc_free_restores (reg : Region) (hmem : 0 < reg.mem) (st : BuddyState)
    (h : reg.Reachable st) (counts : List Nat)
    (hcounts : ∀ count ∈ counts, 0 < count ∧ count ≤ 2 ^ 31) :
    ∃ ptrs st₁, st.allocAll counts = .ok (ptrs, st₁) ∧ ∀ order, order.Perm ptrs →
      ∃ st₂, st₁.freeAll order = .ok st₂ ∧ st₂.blocks = st.blocks ∧
        st₂.alloc.allocSize = st.alloc.allocSize := by
  obtain ⟨starts, st₁, hrun, H, hnodup, hheld, hback⟩ := h.holds.allocAll hcounts
  refine ⟨_, st₁, hrun, fun order hperm => ?_⟩
  obtain ⟨starts', rfl, hperm'⟩ :
      Relation.Comp (· = List.map reg.addr ·) List.Perm order starts := by
    rw [List.eq_map_comp_perm]
    exact hperm
  have hheld' : ∀ s ∈ starts', ∃ k, st₁.blocks s = some ⟨k, true⟩ := fun s hs =>
    hheld s (hperm'.mem_iff.mp hs)
  obtain ⟨st₂, hfree, H', hused⟩ := H.freeAll hmem (hperm'.nodup_iff.mpr hnodup) hheld'
  refine ⟨st₂, hfree, H'.blocks_eq h.holds fun s k => ?_⟩
  rw [hused, hback, hperm'.mem_iff]

theorem alloc_free_restores_sample : ∃ st, sampleRegion.Reachable st ∧
    ∃ ptrs st₁, st.allocAll [3, 1, 16] = .ok (ptrs, st₁) ∧ ∀ order, order.Perm ptrs →
      ∃ st₂, st₁.freeAll order = .ok st₂ ∧ st₂.blocks = st.blocks ∧
        st₂.alloc.allocSize = st.alloc.allocSize := by
  obtain ⟨st, h⟩ := sampleRegion.exists_reachable
  exact ⟨st, h, alloc_free_restores sampleRegion (by decide) st h [3, 1, 16] (by decide)⟩

end OsKernel.Mm

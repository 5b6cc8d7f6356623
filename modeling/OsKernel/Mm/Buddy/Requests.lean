import OsKernel.Mm.Buddy.Consistency

/-! `alloc_pages` for every count: which calls end, which lists they look at, and when they give the
null pointer. -/

namespace OsKernel.Mm

open Lib Hsai Lib.BuddySystem BuddyAllocator

namespace BuddyAllocator

variable (b : BuddyAllocator)

/-- The orders of the lists at which the search looks. -/
def findOrders (m : Mem) : Nat → Nat → List Nat
  | 0, _ => []
  | n + 1, i => i :: if b.hasNodes m i then [] else findOrders m n (i + 1)

/-- The orders of the lists at which `alloc_pages` looks, from which it takes a node, and into which
its splits put one. -/
def listOrders (m : Mem) (count : Nat) : List Nat :=
  if count = 0 then []
  else
    match orderFor count 32 0 with
    | .error _ => []
    | .ok order =>
      let tried := b.findOrders m (b.buddyMaxOrder + 1 - order) order
      match b.findList m (b.buddyMaxOrder + 1 - order) order with
      | none => tried
      | some i =>
        if getField (b.popNode m i).2 .magic (b.popNode m i).1 ≠ buddyNodeMagic then tried ++ [i]
        else tried ++ i :: (List.range (i - order)).map (order + ·)

end BuddyAllocator

/-- `alloc_pages` ends without an undefined shift, it uses no list above the largest order, and it
gives the null pointer and changes nothing where no free block is large enough. -/
structure AllocTotal (st : BuddyState) (count : Nat) : Prop where
  ends : ∃ r, st.alloc.allocPages st.mem count = .ok r
  orders : ∀ k ∈ st.alloc.listOrders st.mem count, k ≤ st.alloc.buddyMaxOrder
  full : (∀ s k, st.alloc.blocks st.mem s = some ⟨k, false⟩ →
    2 ^ k < 2 ^ Nat.clog 2 count) →
    st.alloc.allocPages st.mem count = .ok (none, st.alloc, st.mem)

theorem mem_findOrders {b : BuddyAllocator} {m : Mem} {n i k : Nat} (h : k ∈ b.findOrders m n i) :
    k < i + n := by
  induction n generalizing i with
  | zero => cases h
  | succ n ih =>
    rw [findOrders] at h
    rcases List.mem_cons.mp h with rfl | h
    · omega
    · split at h
      · cases h
      · have := ih h
        omega

/-- No list above the largest order is used. -/
theorem listOrders_le {b : BuddyAllocator} {m : Mem} {count k : Nat}
    (h : k ∈ b.listOrders m count) : k ≤ b.buddyMaxOrder := by
  unfold listOrders at h
  split at h
  · cases h
  split at h
  · cases h
  · rename_i order _
    have htried : k ∈ b.findOrders m (b.buddyMaxOrder + 1 - order) order →
        k ≤ b.buddyMaxOrder := by
      intro hk
      cases hn : b.buddyMaxOrder + 1 - order with
      | zero =>
        rw [hn] at hk
        cases hk
      | succ n =>
        have := mem_findOrders hk
        omega
    simp only at h
    split at h
    · exact htried h
    · rename_i i hfind
      obtain ⟨hl, hu, -⟩ := findList_some hfind
      split at h
      · rcases List.mem_append.mp h with hk | hk
        · exact htried hk
        · rw [List.mem_singleton] at hk
          omega
      · rcases List.mem_append.mp h with hk | hk
        · exact htried hk
        · rcases List.mem_cons.mp hk with rfl | hk
          · omega
          · obtain ⟨j, hj, rfl⟩ := List.mem_map.mp hk
            have := List.mem_range.mp hj
            omega

/-- Where no free block is large enough, the search finds no list. -/
theorem Region.Holds.alloc_full {reg : Region} {st : BuddyState} (H : reg.Holds st) {count : Nat}
    (hpos : 0 < count) (hc : count ≤ 2 ^ 31)
    (hfull : ∀ s k, st.alloc.blocks st.mem s = some ⟨k, false⟩ →
      2 ^ k < 2 ^ Nat.clog 2 count) :
    st.alloc.allocPages st.mem count = .ok (none, st.alloc, st.mem) := by
  have hof : orderFor count 32 0 = .ok (Nat.clog 2 count) :=
    orderFor_eq 32 0 (Nat.zero_le _) (by have := clog_lt hc; omega)
  unfold allocPages
  rw [if_neg (by omega), hof, ok_bind]
  cases hfind : st.alloc.findList st.mem (st.alloc.buddyMaxOrder + 1 - Nat.clog 2 count)
      (Nat.clog 2 count) with
  | none => rfl
  | some i =>
    obtain ⟨hl, hu, hn⟩ := findList_some hfind
    have hmax := H.inv.maxOrder_lt
    obtain ⟨s, -, hs, -⟩ := H.inv.rep.first_node (by omega) hn
    have hlt := (Nat.pow_lt_pow_iff_right (by decide : 1 < 2)).mp (hfull s i hs)
    omega

/-- The calls that do what they shall are those for at most `2 ^ 31` pages. -/
theorem alloc_total_iff (reg : Region) (st : BuddyState) (h : reg.Reachable st) (count : Nat) :
    AllocTotal st count ↔ count ≤ 2 ^ 31 := by
  constructor
  · rintro ⟨⟨r, hrun⟩, -, -⟩
    by_contra hlt
    have hlow : ∀ j, 0 ≤ j → j < 0 + 32 → 2 ^ j < count := by
      intro j _ hj
      have := Nat.pow_le_pow_right (show 0 < 2 by decide) (show j ≤ 31 by omega)
      omega
    rw [allocPages, if_neg (by omega), orderFor_error 32 0 hlow] at hrun
    cases hrun
  · intro hc
    have H := h.holds
    rcases Nat.eq_zero_or_pos count with rfl | hpos
    · have hzero : st.alloc.allocPages st.mem 0 = .ok (none, st.alloc, st.mem) := by
        rw [allocPages, if_pos rfl]
      exact ⟨⟨_, hzero⟩, fun k => listOrders_le, fun _ => hzero⟩
    · exact ⟨H.alloc_ok hpos hc, fun k => listOrders_le, H.alloc_full hpos hc⟩

theorem alloc_total_sample : ∃ st, sampleRegion.Reachable st ∧ AllocTotal st (2 ^ 31) := by
  obtain ⟨st, h⟩ := sampleRegion.exists_reachable
  exact ⟨st, h, (alloc_total_iff sampleRegion st h (2 ^ 31)).mpr (Nat.le_refl _)⟩

/-- A request of `2 ^ 51` pages, as that for the largest `i64` of bytes, shifts by 32. -/
theorem alloc_shifts_too_far : ∃ st, sampleRegion.Reachable st ∧ ¬AllocTotal st (2 ^ 51) := by
  obtain ⟨st, h⟩ := sampleRegion.exists_reachable
  refine ⟨st, h, ?_⟩
  rintro ⟨⟨r, hrun⟩, -, -⟩
  have hlow : ∀ j, 0 ≤ j → j < 0 + 32 → 2 ^ j < 2 ^ 51 := fun j _ hj =>
    Nat.pow_lt_pow_right (by decide) (by omega)
  rw [allocPages, if_neg (by decide), orderFor_error 32 0 hlow] at hrun
  cases hrun

end OsKernel.Mm

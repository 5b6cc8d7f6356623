import Mathlib.Data.Nat.Log
import OsKernel.Mm.Buddy.SplitMerge

/-! `alloc_pages` over the block map: it takes the first free block that is large enough, splits it
down to the order of the request and marks it used, and it fails only where every free block is
smaller than the request. -/

namespace OsKernel.Mm

open Lib Hsai Lib.BuddySystem BuddyAllocator

/-- The same blocks in use. -/
def SameUsed (B B' : Blocks) : Prop :=
  ∀ t k, B' t = some ⟨k, true⟩ ↔ B t = some ⟨k, true⟩

/-- `B'` has the block of order `k` at `s` in use besides those in use in `B`. -/
structure Allocated (N : Nat) (B : Blocks) (s k : Nat) (B' : Blocks) : Prop where
  fresh : ∀ j, B s ≠ some ⟨j, true⟩
  used : ∀ t j, B' t = some ⟨j, true⟩ ↔ (t = s ∧ j = k) ∨ B t = some ⟨j, true⟩
  units : usedUnits N B' = usedUnits N B + 2 ^ k

theorem SameUsed.refl (B : Blocks) : SameUsed B B := fun _ _ => Iff.rfl

theorem SameUsed.trans {B B' B'' : Blocks} (h : SameUsed B B') (h' : SameUsed B' B'') :
    SameUsed B B'' :=
  fun t k => (h' t k).trans (h t k)

theorem SameUsed.weight {B B' : Blocks} (h : SameUsed B B') (t : Nat) :
    weight (B' t) = weight (B t) := by
  have key : ∀ x y : Option Block, (∀ k, x = some ⟨k, true⟩ ↔ y = some ⟨k, true⟩) →
      BuddySystem.weight x = BuddySystem.weight y := by
    intro x y hxy
    rcases x with _ | ⟨k, _ | _⟩ <;> rcases y with _ | ⟨j, _ | _⟩ <;>
      simp_all [BuddySystem.weight]
  exact key _ _ (h t)

theorem SameUsed.units {B B' : Blocks} (h : SameUsed B B') (N : Nat) :
    usedUnits N B' = usedUnits N B :=
  Finset.sum_congr rfl fun t _ => h.weight t

theorem sameUsed_split {B : Blocks} {s k : Nat} (hs : B s = some ⟨k + 1, false⟩)
    (hup : B (s + 2 ^ k) = none) : SameUsed B (split B s k) := by
  intro t j
  rw [split_apply]
  split
  · rename_i he
    rcases he with rfl | rfl
    · simp [hup]
    · simp [hs]
  · rfl

namespace Rep

variable {b : BuddyAllocator} {N : Nat} {A : Areas} {m : Mem} {B : Blocks} {s k : Nat}

/-- The splits of `alloc_pages`. -/
theorem splitTo {order : Nat} (n : Nat) (R : Rep b N A m B {s})
    (hs : B s = some ⟨order + n, false⟩) (hno : NoFreeBuddies A B (some s)) :
    ∃ B', Rep b N A (b.splitTo m (b.pageAddr s) order n) B' {s} ∧
      B' s = some ⟨order, false⟩ ∧ Keeps b B m (b.splitTo m (b.pageAddr s) order n) ∧
      NoFreeBuddies A B' (some s) ∧
      SameUsed B B' ∧ ∀ x, FreeByte b B' x → FreeByte b B x := by
  induction n generalizing m B with
  | zero => exact ⟨B, R, hs, Keeps.refl m, hno, SameUsed.refl B, fun _ => id⟩
  | succ n ih =>
    have hstep : b.splitTo m (b.pageAddr s) order (n + 1) = b.splitTo
        (b.splitNode m (order + n + 1) (b.pageAddr s)).2 (b.pageAddr s) order n := by
      rw [BuddyAllocator.splitTo]
    rw [hstep]
    obtain ⟨R', hkeep⟩ := R.splitNode hs
    have hlower : split B s (order + n) s = some ⟨order + n, false⟩ := by simp [split_apply]
    have hpos := Nat.two_pow_pos (order + n)
    have hnone : B (s + 2 ^ (order + n)) = none := by
      apply R.none_inside hs
      · omega
      · simp only [← Nat.add_assoc, pow_succ]
        omega
    obtain ⟨B', R'', hB', hkeep', hno', hsame, hsub⟩ := ih R' hlower (hno.split R.part hs)
    refine ⟨B', R'', hB', ?_, hno', (sameUsed_split hs hnone).trans hsame,
      fun x hx => freeByte_split hs (hsub x hx)⟩
    exact hkeep.trans (hkeep'.mono fun x => freeByte_split hs)

theorem hasNodes_iff {Lim : Set Nat} (R : Rep b N A m B Lim) (hk : k < 33) :
    b.hasNodes m k = true ↔ ∃ s, B s = some ⟨k, false⟩ ∧ s ∉ Lim := by
  obtain ⟨l, hl⟩ := R.lists k hk
  unfold hasNodes
  rw [bne_iff_ne, ne_eq, hl.1.next_head_eq_iff]
  constructor
  · intro hne
    obtain ⟨x, hx⟩ := List.exists_mem_of_ne_nil l hne
    obtain ⟨s, -, hs⟩ := (hl.2 x).mp hx
    exact ⟨s, hs⟩
  · rintro ⟨s, hs⟩ rfl
    exact List.not_mem_nil ((hl.2 _).mpr ⟨s, rfl, hs⟩)

/-- The node that `_pop_node` takes. -/
theorem first_node {Lim : Set Nat} (R : Rep b N A m B Lim) (hk : k < 33)
    (hn : b.hasNodes m k = true) :
    ∃ s, getField m .next (b.listHead k) = b.pageAddr s ∧ B s = some ⟨k, false⟩ ∧
      s ∉ Lim := by
  obtain ⟨l, hl⟩ := R.lists k hk
  unfold hasNodes at hn
  rcases List.mem_cons.mp hl.1.next_head_mem with he | hmem
  · simp [he] at hn
  · obtain ⟨s, he, hs⟩ := (hl.2 _).mp hmem
    exact ⟨s, he, hs⟩

end Rep

theorem findList_some {b : BuddyAllocator} {m : Mem} {n i j : Nat}
    (h : b.findList m n i = some j) : i ≤ j ∧ j < i + n ∧ b.hasNodes m j = true := by
  induction n generalizing i with
  | zero => cases h
  | succ n ih =>
    unfold findList at h
    split at h
    · rename_i hn
      obtain rfl : i = j := by simpa using h
      exact ⟨Nat.le_refl i, by omega, hn⟩
    · obtain ⟨hl, hu, hn⟩ := ih h
      exact ⟨by omega, by omega, hn⟩

theorem findList_none {b : BuddyAllocator} {m : Mem} {n i j : Nat} (h : b.findList m n i = none)
    (hl : i ≤ j) (hu : j < i + n) : b.hasNodes m j = false := by
  induction n generalizing i with
  | zero => omega
  | succ n ih =>
    unfold findList at h
    split at h
    · cases h
    · rename_i hn
      rcases Nat.eq_or_lt_of_le hl with rfl | hlt
      · simpa using hn
      · exact ih h hlt (by omega)

theorem orderFor_eq {count : Nat} (n i : Nat) (hlow : i ≤ Nat.clog 2 count)
    (hup : Nat.clog 2 count < i + n) : orderFor count n i = .ok (Nat.clog 2 count) := by
  induction n generalizing i with
  | zero => omega
  | succ n ih =>
    unfold orderFor
    split
    · rename_i hle
      have := (Nat.clog_le_iff_le_pow (by decide)).mpr hle
      rw [Nat.le_antisymm hlow this]
    · rename_i hlt
      have : i ≠ Nat.clog 2 count := by
        rintro rfl
        exact hlt (Nat.le_pow_clog (by decide) count)
      exact ih (i + 1) (by omega) (by omega)

theorem orderFor_error {count : Nat} (n i : Nat)
    (h : ∀ j, i ≤ j → j < i + n → 2 ^ j < count) :
    orderFor count n i = .error (.undefined "1U << 32") := by
  induction n generalizing i with
  | zero => rfl
  | succ n ih =>
    have hi := h i (Nat.le_refl i) (by omega)
    rw [orderFor, if_neg (by omega)]
    exact ih (i + 1) fun j hl hu => h j (by omega) (by omega)

/-- The order of a request is below 32. -/
theorem clog_lt {count : Nat} (hc : count ≤ 2 ^ 31) : Nat.clog 2 count < 32 :=
  Nat.lt_succ_of_le ((Nat.clog_le_iff_le_pow (by decide)).mpr hc)

/-- The record with another `_alloc_size` describes the same memory. -/
theorem Rep.withAllocSize {b : BuddyAllocator} {N : Nat} {A : Areas} {m : Mem} {B : Blocks}
    {Lim : Set Nat} (R : Rep b N A m B Lim) (n : Nat) :
    Rep { b with allocSize := n } N A m B Lim :=
  ⟨⟨R.layout.pos, R.layout.pages_lt, R.layout.aligned, R.layout.infos, R.layout.infos_ge,
    R.layout.end_le, R.layout.heads_le, R.layout.apart⟩, R.bound, R.part, R.info, R.lists,
    R.header⟩

/-- The result of `alloc_pages` for `count` pages from a state whose blocks are `B`. -/
inductive AllocResult (b : BuddyAllocator) (N : Nat) (A : Areas) (m : Mem) (B : Blocks)
    (order : Nat) : Option Nat × BuddyAllocator × Mem → Prop
  | none (hsmall : ∀ {s k}, B s = some ⟨k, false⟩ → k < order) :
      AllocResult b N A m B order (none, b, m)
  | some {s : Nat} {m' : Mem} {B' : Blocks} (rep : Rep b N A m' B' ∅)
      (coalesced : NoFreeBuddies A B' none) (alloc : Allocated N B s order B')
      (keeps : Keeps b B m m') :
      AllocResult b N A m B order
        (some (b.pageAddr s), { b with allocSize := b.allocSize + 2 ^ order * 4096 }, m')

theorem allocPages_spec {b : BuddyAllocator} {N : Nat} {A : Areas} {m : Mem} {B : Blocks}
    {count : Nat} (R : Rep b N A m B ∅) (hno : NoFreeBuddies A B none)
    (hmax : ∀ {a o}, A.mem a o → o ≤ b.buddyMaxOrder) (hlt : b.buddyMaxOrder < 33)
    (hpos : 0 < count) (hc : count ≤ 2 ^ 31) :
    ∃ r, b.allocPages m count = .ok r ∧ AllocResult b N A m B (Nat.clog 2 count) r := by
  have horder : ∀ {s blk}, B s = some blk → blk.order ≤ b.buddyMaxOrder := by
    intro s blk hs
    obtain ⟨a, o, hA, hf⟩ := R.part.fits hs
    exact Nat.le_trans hf.order_le (hmax hA)
  have hof : orderFor count 32 0 = .ok (Nat.clog 2 count) :=
    orderFor_eq 32 0 (Nat.zero_le _) (by have := clog_lt hc; omega)
  unfold allocPages
  rw [if_neg (by omega), hof, ok_bind]
  cases hfind : b.findList m (b.buddyMaxOrder + 1 - Nat.clog 2 count) (Nat.clog 2 count) with
  | none =>
    refine ⟨_, rfl, .none fun {s k} hs => ?_⟩
    by_contra hge
    have hk := horder hs
    simp only at hk
    have := findList_none (j := k) hfind (by omega) (by omega)
    have hn := (R.hasNodes_iff (k := k) (by omega)).mpr ⟨s, hs, by simp⟩
    rw [this] at hn
    cases hn
  | some i =>
    obtain ⟨hl, hu, hn⟩ := findList_some hfind
    obtain ⟨s, hnode, hs, hlim⟩ := R.first_node (by omega) hn
    obtain ⟨Rr, hkeep⟩ := R.remove hs hlim
    obtain ⟨n, rfl⟩ : ∃ n, i = Nat.clog 2 count + n := ⟨i - Nat.clog 2 count, by omega⟩
    rw [show insert s (∅ : Set Nat) = {s} by simp] at Rr
    have hmagic := (Rr.header hs).1
    obtain ⟨B', R', hB', hkeep', hno', hsame, hsub⟩ := Rr.splitTo n hs hno.limbo
    obtain ⟨Ru, hkeepu⟩ := R'.markUsed hB'
    have hfreeB : ∀ j, B s ≠ some ⟨j, true⟩ := by simp [hs]
    simp only [popNode, hnode, hmagic, ne_eq, not_true_eq_false, if_false,
      Nat.add_sub_cancel_left]
    refine ⟨_, rfl, .some Ru hno'.mark_used ⟨hfreeB, fun t j => ?_, ?_⟩
      (hkeep.keeps.trans (hkeep'.trans (hkeepu.mono hsub)))⟩
    · rw [mark_apply]
      split
      · rename_i he
        subst he
        simp [hs, eq_comm]
      · rename_i he
        simp [he, hsame t j]
    · have := usedUnits_update B' (some ⟨Nat.clog 2 count, true⟩) (R'.block_lt hB')
      rw [hB', hsame.units N] at this
      simpa [BuddySystem.weight, BuddySystem.mark] using this

end OsKernel.Mm

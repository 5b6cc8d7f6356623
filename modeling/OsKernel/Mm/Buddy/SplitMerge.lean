import OsKernel.Mm.Buddy.Invariant

/-! Splitting a block that has been taken out of its list, and merging it with a free buddy: the
memory operations of `_split_node` and of one turn of the loop in `free_pages` carry the invariant
from a block map to the split or merged one. -/

namespace OsKernel.Mm

open Lib Hsai Lib.BuddySystem BuddyAllocator

theorem freeByte_split {b : BuddyAllocator} {B : Blocks} {s k x : Nat}
    (hs : B s = some ⟨k + 1, false⟩) (h : FreeByte b (split B s k) x) : FreeByte b B x := by
  rcases h with h | h | ⟨t, j, ht, hl, hu⟩
  · exact .inl h
  · exact .inr (.inl h)
  · have hpos := Nat.two_pow_pos k
    have hpow := pow_succ 2 k
    refine .inr (.inr ?_)
    rw [split_apply] at ht
    split at ht
    · cases ht
      refine ⟨s, k + 1, hs, ?_, ?_⟩ <;> simp only [pageAddr] at * <;> omega
    · exact ⟨t, j, ht, hl, hu⟩

/-- A merge has no new starts. -/
theorem freeNode_merge {b : BuddyAllocator} {B : Blocks} {s k x : Nat}
    (hs : B s = some ⟨k, false⟩) (h : FreeNode b (merge B s k) x) : FreeNode b B x := by
  rcases h with h | ⟨t, j, hj, rfl⟩
  · exact .inl h
  · rw [merge_apply] at hj
    split at hj
    · cases hj
    · split at hj
      · rename_i he
        exact .inr ⟨s, k, hs, by rw [he]⟩
      · exact .inr ⟨t, j, hj, rfl⟩

namespace Rep

variable {b : BuddyAllocator} {N : Nat} {A : Areas} {m : Mem} {B : Blocks} {s t k : Nat}

/-- No block starts inside another. -/
theorem none_inside {Lim : Set Nat} (R : Rep b N A m B Lim) {blk : Block} (hs : B s = some blk)
    (hl : s < t) (hu : t < s + 2 ^ blk.order) : B t = none := by
  cases ht : B t with
  | none => rfl
  | some c =>
    have := R.part.apart hs ht hl
    omega

/-- The fields after the two halves of a block get their headers. -/
theorem halveNode_fields (R : Rep b N A m B {s}) (hs : B s = some ⟨k + 1, false⟩) {y : Nat}
    {f : NodeField} (hy : b.IsNode N y) :
    getField (halveNode m (b.pageAddr s) (b.pageAddr (s + 2 ^ k))) f y =
      if (b.pageAddr s = y ∨ b.pageAddr (s + 2 ^ k) = y) ∧ (f = .magic ∨ f = .areaSize) then
        nodeValue buddyNodeMagic (4096 * 2 ^ k) 0 0 f else getField m f y := by
  have hL := R.layout
  have hle := R.block_le hs
  have hpos := Nat.two_pow_pos k
  have hpow := pow_succ 2 k
  have hsize := R.size_lt hs
  simp only at hle hsize
  have hx := hL.node_page (R.block_lt hs)
  have hx1 := hL.node_page (s := s + 2 ^ k) (by omega)
  have hhalf : 4096 * 2 ^ (k + 1) / 2 = 4096 * 2 ^ k := by omega
  unfold halveNode
  simp only [(R.header hs).2, hhalf]
  rw [hL.getField_setField hx hy (by omega), hL.getField_setField hx1 hy (by omega),
    hL.getField_setField hx1 hy (by decide), hL.getField_setField hx hy (by decide)]
  cases f <;> simp [nodeValue] <;> grind

/-- `_split_node` of the block taken out: the upper half is listed, the lower half stays out. -/
theorem splitNode (R : Rep b N A m B {s}) (hs : B s = some ⟨k + 1, false⟩) :
    Rep b N A (b.splitNode m (k + 1) (b.pageAddr s)).2 (split B s k) {s} ∧
      Keeps b B m (b.splitNode m (k + 1) (b.pageAddr s)).2 := by
  have hL := R.layout
  have hle := R.block_le hs
  have hpos := Nat.two_pow_pos k
  have hpow := pow_succ 2 k
  simp only at hle
  have hinlist : b.pageAddr s + getField m .areaSize (b.pageAddr s) / 2 =
      b.pageAddr (s + 2 ^ k) := by
    rw [(R.header hs).2]
    simp only [pageAddr]
    omega
  have hnone : B (s + 2 ^ k) = none := R.none_inside hs (by omega) (by simp only; omega)
  have hpart := R.part.split hs
  have hupper : split B s k (s + 2 ^ k) = some ⟨k, false⟩ := by simp [split_apply]
  have hlower : split B s k s = some ⟨k, false⟩ := by simp [split_apply]
  have hhalve : Rep b N A (halveNode m (b.pageAddr s) (b.pageAddr (s + 2 ^ k))) (split B s k)
      {s, s + 2 ^ k} := by
    refine R.relabel hpart (fun t j => ?_) (fun x f hf hx => ?_) (fun p hp hpl => ?_)
      (fun t j ht => ?_)
    · rw [split_apply]
      split
      · rename_i he
        rcases he with rfl | rfl
        · simp [hnone]
        · simp
      · rename_i he
        push Not at he
        simp [he.1, he.2]
    · rw [R.halveNode_fields hs, if_neg (by rcases hf with rfl | rfl <;> simp)]
      rcases hx with ⟨j, hj, rfl⟩ | ⟨t, j, ht, -, rfl⟩
      · exact hL.node_head hj
      · exact R.isNode (freeNode_page ht)
    · simp only [Set.mem_insert_iff, Set.mem_singleton_iff, not_or] at hpl
      have hx := hL.node_page (R.block_lt hs)
      have hx1 := hL.node_page (s := s + 2 ^ k) (by omega)
      unfold halveNode
      rw [hL.setField_info hx hp, hL.setField_info hx1 hp, hL.setField_info hx1 hp,
        hL.setField_info hx hp, split_apply, if_neg (by omega)]
      exact R.info p hp (by simpa using hpl.1)
    · have hty : b.IsNode N (b.pageAddr t) := by
        rw [split_apply] at ht
        split at ht
        · exact hL.node_page (by omega)
        · exact R.isNode (freeNode_page ht)
      rw [R.halveNode_fields hs hty, R.halveNode_fields hs hty]
      rw [split_apply] at ht
      split at ht
      · rename_i he
        cases ht
        rcases he with rfl | rfl <;> simp [nodeValue]
      · rename_i he
        push Not at he
        have h1 : b.pageAddr s ≠ b.pageAddr t := fun e => he.2 (Layout.page_inj e).symm
        have h2 : b.pageAddr (s + 2 ^ k) ≠ b.pageAddr t := fun e => he.1 (Layout.page_inj e).symm
        simp only [h1, h2, or_self, false_and, if_false]
        exact R.header ht
  obtain ⟨hins, hkeep⟩ := hhalve.insert hupper (by simp)
  have hsplit : (b.splitNode m (k + 1) (b.pageAddr s)).2 = b.recordInfo (b.insertNode
      (halveNode m (b.pageAddr s) (b.pageAddr (s + 2 ^ k))) (b.pageAddr (s + 2 ^ k)) k)
      (b.pageAddr (s + 2 ^ k)) k false true := by
    unfold BuddyAllocator.splitNode
    rw [if_neg (by omega), if_neg (by simp [(R.header hs).2, pageSize]), hinlist]
    rfl
  rw [hsplit]
  refine ⟨?_, ?_⟩
  · have hset : ({s, s + 2 ^ k} : Set Nat) \ {s + 2 ^ k} = {s} := by
      ext p
      simp only [Set.mem_sdiff, Set.mem_insert_iff, Set.mem_singleton_iff]
      omega
    rwa [hset] at hins
  · refine Keeps.mono (Keeps.trans ?_ hkeep.keeps) fun x => freeByte_split hs
    have hn : FreeNode b (split B s k) (b.pageAddr s) := freeNode_page hlower
    have hn1 : FreeNode b (split B s k) (b.pageAddr (s + 2 ^ k)) := freeNode_page hupper
    exact (((hn.setField m).trans (hn1.setField _)).trans
      ((hn1.setField _).trans (hn.setField _))).keeps

/-- One merge in `free_pages`, after the buddy has been removed from its list: the upper block's
info byte is cleared and the lower block takes both. -/
theorem combineNode (R : Rep b N A m B {s, s + 2 ^ k}) {a o : Nat} (hA : A.mem a o)
    (hf : Fits a o s (k + 1)) (hs : B s = some ⟨k, false⟩)
    (ht : B (s + 2 ^ k) = some ⟨k, false⟩) :
    (combineNode (b.recordInfo m (b.pageAddr (s + 2 ^ k)) 0 false false) (b.pageAddr s)
        (b.pageAddr (s + 2 ^ k))).1 = 0 ∧
      Rep b N A (combineNode (b.recordInfo m (b.pageAddr (s + 2 ^ k)) 0 false false)
        (b.pageAddr s) (b.pageAddr (s + 2 ^ k))).2 (merge B s k) {s} ∧
      KeepsNodes b B m (combineNode (b.recordInfo m (b.pageAddr (s + 2 ^ k)) 0 false false)
        (b.pageAddr s) (b.pageAddr (s + 2 ^ k))).2 := by
  have hL := R.layout
  have hpos := Nat.two_pow_pos k
  have hpow := pow_succ 2 k
  have hti := R.info_lt ht
  have hx := R.isNode (freeNode_page hs)
  have hx1 := R.isNode (freeNode_page ht)
  have hsize : 4096 * 2 ^ k * 2 < 2 ^ 64 := by
    have h1 := R.bound hA
    have h2 := hf.inside
    have h3 := hL.pages_lt
    omega
  have hinfo : ∀ {f y}, b.IsNode N y →
      getField (b.recordInfo m (b.pageAddr (s + 2 ^ k)) 0 false false) f y = getField m f y := by
    intro f y hy
    rw [R.recordInfo_eq ht]
    exact hL.getField_setInfo hy hti
  have hcomb : BuddyAllocator.combineNode (b.recordInfo m (b.pageAddr (s + 2 ^ k)) 0 false false)
      (b.pageAddr s) (b.pageAddr (s + 2 ^ k)) = (0, setNode (setNode (b.recordInfo m
        (b.pageAddr (s + 2 ^ k)) 0 false false) (b.pageAddr (s + 2 ^ k)) buddyUnusedMagic 0 0 0)
        (b.pageAddr s) buddyNodeMagic (4096 * 2 ^ k * 2) 0 0) := by
    unfold BuddyAllocator.combineNode
    rw [hinfo hx, hinfo hx1, (R.header hs).2, (R.header ht).2, if_neg (by simp)]
  have hset : ∀ {f y}, b.IsNode N y → b.pageAddr s ≠ y → b.pageAddr (s + 2 ^ k) ≠ y →
      getField (setNode (setNode (b.recordInfo m (b.pageAddr (s + 2 ^ k)) 0 false false)
        (b.pageAddr (s + 2 ^ k)) buddyUnusedMagic 0 0 0) (b.pageAddr s) buddyNodeMagic
        (4096 * 2 ^ k * 2) 0 0) f y = getField m f y := by
    intro f y hy h1 h2
    rw [hL.getField_setNode hx hy (by decide) hsize (by decide) (by decide), if_neg h1,
      hL.getField_setNode hx1 hy (by decide) (by decide) (by decide) (by decide), if_neg h2,
      hinfo hy]
  rw [hcomb]
  refine ⟨rfl, R.relabel (R.part.merge hA hf hs ht) (fun t' j => ?_) (fun x f _ hx' => ?_)
    (fun p hp hpl => ?_) (fun t' j ht' => ?_), ?_⟩
  · rw [merge_apply]
    split
    · rename_i he
      simp [he]
    · split
      · rename_i he
        simp [he]
      · rename_i he1 he2
        simp [he1, he2]
  · rcases hx' with ⟨j, hj, rfl⟩ | ⟨t', j, ht', hlim, rfl⟩
    · exact hset (hL.node_head hj) (hL.head_ne_page hj (R.block_lt hs)).symm
        (hL.head_ne_page hj (R.block_lt ht)).symm
    · simp only [Set.mem_insert_iff, Set.mem_singleton_iff, not_or] at hlim
      exact hset (R.isNode (freeNode_page ht')) (fun he => hlim.1 (Layout.page_inj he).symm)
        (fun he => hlim.2 (Layout.page_inj he).symm)
  · have hps : p ≠ s := by simpa using hpl
    dsimp only
    rw [hL.setNode_info hx hp, hL.setNode_info hx1 hp, R.recordInfo_eq ht, setInfo_apply,
      merge_apply, if_neg hps]
    split
    · rfl
    · rename_i he
      exact R.info p hp (by simp [hps, he])
  · rw [merge_apply] at ht'
    split at ht'
    · cases ht'
    · split at ht'
      · rename_i he
        cases ht'
        subst he
        rw [hL.getField_setNode hx hx (by decide) hsize (by decide) (by decide),
          hL.getField_setNode hx hx (by decide) hsize (by decide) (by decide), if_pos rfl,
          if_pos rfl]
        exact ⟨rfl, by simp only [nodeValue]; omega⟩
      · rename_i he1 he2
        have hy := R.isNode (freeNode_page (b := b) ht')
        have h1 : b.pageAddr s ≠ b.pageAddr t' := fun e => he2 (Layout.page_inj e).symm
        have h2 : b.pageAddr (s + 2 ^ k) ≠ b.pageAddr t' := fun e => he1 (Layout.page_inj e).symm
        rw [hset hy h1 h2, hset hy h1 h2]
        exact R.header ht'
  · rw [R.recordInfo_eq ht]
    exact (keeps_setInfo hti).trans (((freeNode_page ht).setNode _).trans
      ((freeNode_page hs).setNode _))

end Rep

end OsKernel.Mm

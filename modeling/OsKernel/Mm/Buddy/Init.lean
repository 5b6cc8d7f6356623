import OsKernel.Mm.Buddy.Free

/-! The constructor.  The page count in binary gives the areas, one for each set bit, the smallest
first; the loop over the bits keeps the invariant for the areas made so far, each of them one free
block. -/

namespace OsKernel.Mm

open Lib Hsai Lib.BuddySystem BuddyAllocator

/-- The fields that the invariant does not read may change. -/
theorem Rep.withMeta {b : BuddyAllocator} {N : Nat} {A : Areas} {m : Mem} {B : Blocks}
    {Lim : Set Nat} (R : Rep b N A m B Lim) (maxOrder : Nat) (desc : List BuddyDesc) :
    Rep { b with buddyMaxOrder := maxOrder, areaDesc := desc } N A m B Lim :=
  ⟨⟨R.layout.pos, R.layout.pages_lt, R.layout.aligned, R.layout.infos, R.layout.infos_ge,
    R.layout.end_le, R.layout.heads_le, R.layout.apart⟩, R.bound, R.part, R.info, R.lists,
    R.header⟩

theorem resetNodes_info {b : BuddyAllocator} {N : Nat} (hL : Layout b N) {m : Mem} {p : Nat}
    (hp : p < b.infosSize) (n i : Nat) (hn : i + n ≤ 33) :
    b.resetNodes m n i (b.allocInfos + p) = m (b.allocInfos + p) := by
  induction n generalizing m i with
  | zero => rfl
  | succ n ih =>
    unfold resetNodes
    rw [ih (i + 1) (by omega), hL.setNode_info (hL.node_head (by omega)) hp]

theorem resetNodes_head {b : BuddyAllocator} {N : Nat} (hL : Layout b N) {m : Mem} {f : NodeField}
    {k : Nat} (hk : k < 33) (n i : Nat) (hn : i + n ≤ 33) :
    getField (b.resetNodes m n i) f (b.listHead k) = if i ≤ k ∧ k < i + n then
      nodeValue buddyUnusedMagic 0 (b.listHead k) (b.listHead k) f
      else getField m f (b.listHead k) := by
  induction n generalizing m i with
  | zero => rw [if_neg (by omega)]; rfl
  | succ n ih =>
    have hi := hL.node_head (k := i) (by omega)
    have hlt := hL.node_lt hi
    unfold resetNodes
    rw [ih (i + 1) (by omega), hL.getField_setNode hi (hL.node_head hk) (by decide) (by decide)
      (by omega) (by omega)]
    by_cases hik : i = k
    · subst hik
      rw [if_neg (by omega), if_pos rfl, if_pos (by omega)]
    · have hne : b.listHead i ≠ b.listHead k := fun he => hik (Layout.head_inj he)
      rw [if_neg hne]
      by_cases h : i + 1 ≤ k ∧ k < i + 1 + n
      · rw [if_pos h, if_pos (by omega)]
      · rw [if_neg h, if_neg (by omega)]

/-- After the info bytes are cleared and the heads reset there are no blocks. -/
theorem Rep.reset {b : BuddyAllocator} {N : Nat} (hL : Layout b N) {m : Mem}
    (hm : ∀ p < b.infosSize, m (b.allocInfos + p) = 0) :
    Rep b N (binaryAreas N 0) (b.resetNodes m 33 0) (fun _ => none) ∅ := by
  refine ⟨hL, fun h => absurd h.1 (by omega), ⟨fun h => ?_, fun h => ?_, fun h => ?_⟩,
    fun p hp _ => ?_, fun k hk => ⟨[], .nil ?_ ?_, fun x => ?_⟩, fun h => ?_⟩
  · cases h
  · exact absurd h.1 (by omega)
  · cases h
  · rw [resetNodes_info hL hp 33 0 (by omega), hm p hp]
    rfl
  · rw [resetNodes_head hL hk 33 0 (by omega), if_pos (by omega)]
    rfl
  · rw [resetNodes_head hL hk 33 0 (by omega), if_pos (by omega)]
    rfl
  · simp
  · cases h

/-- The state after the areas below bit `k` have been made. -/
structure AreasMade (N k : Nat) (b : BuddyAllocator) (m : Mem) (B : Blocks) : Prop where
  rep : Rep b N (binaryAreas N k) m B ∅
  blocks : ∀ s blk, B s = some blk ↔ (binaryAreas N k).mem s blk.order ∧ blk.used = false
  maxOrder : ∀ {a o}, (binaryAreas N k).mem a o → o ≤ b.buddyMaxOrder
  maxOrder_lt : b.buddyMaxOrder < 33
  desc : ∀ bd, bd ∈ b.areaDesc ↔
    ∃ a o, (binaryAreas N k).mem a o ∧ bd = ⟨b.pageAddr a, 4096 * 2 ^ o⟩

theorem AreasMade.skip {N k : Nat} {b : BuddyAllocator} {m : Mem} {B : Blocks}
    (h : AreasMade N k b m B) (hbit : N.testBit k = false) : AreasMade N (k + 1) b m B := by
  have hA : ∀ a o, (binaryAreas N (k + 1)).mem a o ↔ (binaryAreas N k).mem a o := by
    intro a o
    simp [binaryAreas_succ, hbit]
  have hB : ∀ s blk, B s = some blk ↔
      (binaryAreas N (k + 1)).mem s blk.order ∧ blk.used = false := by
    intro s blk
    rw [h.blocks, hA]
  refine ⟨?_, hB, fun hm => h.maxOrder ((hA _ _).mp hm), h.maxOrder_lt, fun bd => ?_⟩
  · exact h.rep.relabelAreas (fun hm => h.rep.bound ((hA _ _).mp hm)) (partition_areas hB)
      (fun _ _ => Iff.rfl) (fun _ _ _ _ => rfl) h.rep.info (fun _ _ => h.rep.header)
  · simp only [h.desc, hA]

/-- One area more: a header, an insertion and an info byte. -/
theorem AreasMade.add {N k : Nat} {b : BuddyAllocator} {m : Mem} {B : Blocks}
    (h : AreasMade N k b m B) (hbit : N.testBit k = true) :
    let m' := setNode m (b.pageAddr (N % 2 ^ k)) buddyNodeMagic (4096 * 2 ^ k) 0 0
    let m'' := b.recordInfo (b.insertNode m' (b.pageAddr (N % 2 ^ k)) k) (b.pageAddr (N % 2 ^ k)) k
      false true
    let b' := { b with
      buddyMaxOrder := k
      areaDesc := b.areaDesc ++ [⟨b.pageAddr (N % 2 ^ k), 4096 * 2 ^ k⟩] }
    AreasMade N (k + 1) b' m'' (Function.update B (N % 2 ^ k) (some ⟨k, false⟩)) := by
  intro m' m'' b'
  have hL := h.rep.layout
  have hpos := Nat.two_pow_pos k
  have hle : N % 2 ^ k + 2 ^ k ≤ N :=
    Nat.le_trans (binaryAreas_bound (k := k + 1) ⟨by omega, hbit, rfl⟩) (Nat.mod_le _ _)
  have hlt : k < 33 := by
    have := hL.pages_lt
    have h2 : 2 ^ k < 2 ^ 33 := by omega
    exact (Nat.pow_lt_pow_iff_right (by decide)).mp h2
  have hx := hL.node_page (s := N % 2 ^ k) (by omega)
  have hsize : 4096 * 2 ^ k < 2 ^ 64 := by
    have := hL.pages_lt
    omega
  have hnew : ∀ o, ¬(binaryAreas N k).mem (N % 2 ^ k) o := by
    intro o hA
    have := binaryAreas_bound hA
    have := Nat.two_pow_pos o
    omega
  have hnone : B (N % 2 ^ k) = none := by
    cases hB : B (N % 2 ^ k) with
    | none => rfl
    | some blk => exact absurd ((h.blocks _ _).mp hB).1 (hnew _)
  have hB : ∀ s blk, Function.update B (N % 2 ^ k) (some ⟨k, false⟩) s = some blk ↔
      (binaryAreas N (k + 1)).mem s blk.order ∧ blk.used = false := by
    intro s blk
    rw [binaryAreas_succ, Function.update_apply]
    split
    · rename_i he
      subst he
      obtain ⟨o, u⟩ := blk
      simp [hnew, hbit, eq_comm]
    · rename_i he
      simp [he, h.blocks]
  have hget : ∀ {f y}, b.IsNode N y → getField m' f y = if b.pageAddr (N % 2 ^ k) = y then
      nodeValue buddyNodeMagic (4096 * 2 ^ k) 0 0 f else getField m f y := fun hy =>
    hL.getField_setNode hx hy (by decide) hsize (by decide) (by decide)
  have hother : ∀ {s j}, B s = some ⟨j, false⟩ →
      b.pageAddr (N % 2 ^ k) ≠ b.pageAddr s := by
    intro s j hs he
    rw [← Layout.page_inj he, hnone] at hs
    cases hs
  have hR : Rep b N (binaryAreas N (k + 1)) m'
      (Function.update B (N % 2 ^ k) (some ⟨k, false⟩)) {N % 2 ^ k} := by
    refine h.rep.relabelAreas
      (fun hm => Nat.le_trans (binaryAreas_bound hm) (Nat.mod_le _ _)) (partition_areas hB)
      (fun s j => ?_) (fun x f _ hx' => ?_) (fun p hp hpl => ?_) (fun s j hs => ?_)
    · rw [Function.update_apply]
      split
      · rename_i he
        simp [he, hnone]
      · rename_i he
        simp [he]
    · rcases hx' with ⟨j, hj, rfl⟩ | ⟨s, j, hs, -, rfl⟩
      · rw [hget (hL.node_head hj), if_neg (hL.head_ne_page hj (by omega)).symm]
      · rw [hget (h.rep.isNode (Rep.freeNode_page hs)), if_neg (hother hs)]
    · have hne : p ≠ N % 2 ^ k := by simpa using hpl
      have hm : m' (b.allocInfos + p) = m (b.allocInfos + p) := hL.setNode_info hx hp
      rw [Function.update_of_ne hne, hm]
      exact h.rep.info p hp (by simp)
    · rw [Function.update_apply] at hs
      split at hs
      · rename_i he
        cases hs
        rw [he, hget hx, hget hx, if_pos rfl, if_pos rfl]
        exact ⟨rfl, rfl⟩
      · have hy := h.rep.isNode (Rep.freeNode_page (b := b) hs)
        rw [hget hy, hget hy, if_neg (hother hs), if_neg (hother hs)]
        exact h.rep.header hs
  obtain ⟨Ri, -⟩ := hR.insert (s := N % 2 ^ k) (k := k) (by simp) (by simp)
  rw [Set.sdiff_self] at Ri
  refine ⟨Ri.withMeta _ _, hB, fun {a o} hm => ?_, hlt, fun bd => ?_⟩
  · exact Nat.le_of_lt_succ hm.1
  · simp only [b', List.mem_append, List.mem_singleton, h.desc, binaryAreas_succ]
    constructor
    · rintro (⟨a, o, hA, rfl⟩ | rfl)
      · exact ⟨a, o, .inl hA, rfl⟩
      · exact ⟨_, _, .inr ⟨hbit, rfl, rfl⟩, rfl⟩
    · rintro ⟨a, o, hA | ⟨-, rfl, rfl⟩, rfl⟩
      · exact .inl ⟨a, o, hA, rfl⟩
      · exact .inr rfl

/-- The loop of the constructor, from bit `k` to bit `k + n`; it changes no other field. -/
theorem initAreas_made {N : Nat} (n k : Nat) {b : BuddyAllocator} {m : Mem} {B : Blocks}
    (h : AreasMade N k b m B) :
    ∃ b' m' B', initAreas N n k b m (b.pageAddr (N % 2 ^ k)) = (b', m') ∧
      AreasMade N (k + n) b' m' B' ∧ b'.memAddr = b.memAddr ∧ b'.memSize = b.memSize ∧
      b'.buddyNodes = b.buddyNodes ∧ b'.allocInfos = b.allocInfos ∧
      b'.infosSize = b.infosSize ∧ b'.allocSize = b.allocSize := by
  induction n generalizing k b m B with
  | zero => exact ⟨b, m, B, rfl, h, rfl, rfl, rfl, rfl, rfl, rfl⟩
  | succ n ih =>
    have hnext : N % 2 ^ (k + 1) = N % 2 ^ k + 2 ^ k * (N.testBit k).toNat := mod_two_pow_succ N k
    unfold initAreas
    rw [show k + (n + 1) = k + 1 + n by omega]
    cases hbit : N.testBit k with
    | false =>
      simp only [hbit, Bool.toNat_false, Nat.mul_zero, Nat.add_zero] at hnext
      obtain ⟨b', m', B', he, hrest⟩ := ih (k + 1) (h.skip hbit)
      rw [hnext] at he
      rw [if_neg (by simp), he]
      exact ⟨b', m', B', rfl, hrest⟩
    | true =>
      simp only [hbit, Bool.toNat_true, Nat.mul_one] at hnext
      have hadd := h.add hbit
      have hsz : getField (b.recordInfo (b.insertNode (setNode m (b.pageAddr (N % 2 ^ k))
          buddyNodeMagic (4096 * 2 ^ k) 0 0) (b.pageAddr (N % 2 ^ k)) k) (b.pageAddr (N % 2 ^ k)) k
          false true) .areaSize (b.pageAddr (N % 2 ^ k)) = 4096 * 2 ^ k :=
        (hadd.rep.header (s := N % 2 ^ k) (k := k) (by simp)).2
      have hstart : b.pageAddr (N % 2 ^ k) + 4096 * 2 ^ k = b.pageAddr (N % 2 ^ k + 2 ^ k) := by
        simp only [pageAddr]
        omega
      obtain ⟨b', m', B', he, hrest⟩ := ih (k + 1) hadd
      rw [hnext] at he
      change initAreas N n (k + 1) _ _ (b.pageAddr (N % 2 ^ k + 2 ^ k)) = _ at he
      rw [if_pos rfl]
      simp only [pageSize, hsz, hstart]
      exact ⟨b', m', B', he, hrest⟩

end OsKernel.Mm

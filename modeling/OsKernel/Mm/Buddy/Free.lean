import OsKernel.Mm.Buddy.Alloc

/-! `free_pages` over the block map.  Only the address of the first page of a block in use has an
effect: the block is merged with its free buddies as far as they go, and no address becomes the
start of a block. -/

namespace OsKernel.Mm

open Lib Hsai Lib.BuddySystem BuddyAllocator

/-- `B'` has the block of order `k` at `s` no longer in use, and no new starts of blocks. -/
structure Released (N : Nat) (B : Blocks) (s k : Nat) (B' : Blocks) : Prop where
  held : B s = some ⟨k, true⟩
  used : ∀ t j, B' t = some ⟨j, true⟩ ↔ t ≠ s ∧ B t = some ⟨j, true⟩
  starts : ∀ t, B t = none → B' t = none
  units : usedUnits N B' + 2 ^ k = usedUnits N B

theorem BuddyInfo.ofByte_toByte (i : BuddyInfo) (h : i.order < 64) :
    BuddyInfo.ofByte i.toByte = i := by
  obtain ⟨order, area, use⟩ := i
  simp only at h
  unfold BuddyInfo.toByte BuddyInfo.ofByte
  rw [UInt8.toNat_ofNat_of_lt' (by cases area <;> cases use <;> simp [UInt8.size] <;> omega)]
  simp only [BuddyInfo.mk.injEq]
  cases area <;> cases use <;> simp <;> omega

/-- The XOR of `_get_buddy_node` is the buddy in pages. -/
theorem getBuddyNode_eq {b : BuddyAllocator} {m : Mem} {a s k : Nat} {n : Nat} (ha : a ≤ s)
    (hsize : getField m .areaSize (b.pageAddr s) = 4096 * 2 ^ k) :
    getBuddyNode m ⟨b.pageAddr a, n⟩ (b.pageAddr s) = b.pageAddr (buddy a s k) := by
  have hoff : b.pageAddr s - b.pageAddr a = (s - a) <<< 12 := by
    rw [Nat.shiftLeft_eq]
    simp only [pageAddr]
    omega
  have hsz : 4096 * 2 ^ k = (2 ^ k) <<< 12 := by
    rw [Nat.shiftLeft_eq]
    omega
  unfold getBuddyNode
  rw [hsize, hoff, hsz, ← Nat.shiftLeft_xor_distrib, Nat.shiftLeft_eq]
  simp only [pageAddr, buddy, BuddySystem.flip]
  omega

theorem sameUsed_merge {B : Blocks} {s k : Nat} (hs : B s = some ⟨k, false⟩)
    (ht : B (s + 2 ^ k) = some ⟨k, false⟩) : SameUsed B (merge B s k) := by
  intro t j
  rw [merge_apply]
  split
  · rename_i he
    simp [he, ht]
  · split
    · rename_i he
      simp [he, hs]
    · rfl

theorem merge_none {B : Blocks} {s k t : Nat} (hs : B s = some ⟨k, false⟩) (ht : B t = none) :
    merge B s k t = none := by
  have hts : t ≠ s := by
    rintro rfl
    rw [hs] at ht
    cases ht
  rw [merge_apply, if_neg hts]
  split
  · rfl
  · exact ht

namespace Rep

variable {b : BuddyAllocator} {N : Nat} {A : Areas} {m : Mem} {B : Blocks} {s k a o : Nat}

theorem getInfo_eq {Lim : Set Nat} (R : Rep b N A m B Lim) {blk : Block} (hs : B s = some blk)
    (hlim : s ∉ Lim) : b.getInfo m s = ⟨blk.order, true, blk.used⟩ := by
  have hk := R.order_lt hs
  unfold getInfo
  rw [R.info s (R.info_lt hs) hlim, hs]
  exact BuddyInfo.ofByte_toByte _ (by simp only; omega)

theorem isInUse_eq {Lim : Set Nat} (R : Rep b N A m B Lim) {blk : Block} (hs : B s = some blk)
    (hlim : s ∉ Lim) : b.isInUse m (b.pageAddr s) = blk.used := by
  unfold isInUse
  rw [R.layout.infoIndex (R.block_lt hs), R.getInfo_eq hs hlim]

/-- One merge of the block out of its list with its free buddy. -/
theorem mergeStep (R : Rep b N A m B {s}) (hA : A.mem a o) (hf : Fits a o s k)
    (hs : B s = some ⟨k, false⟩) (hko : k < o) (hb : B (buddy a s k) = some ⟨k, false⟩)
    (hno : NoFreeBuddies A B (some s)) :
    let lo := min s (buddy a s k)
    let m' := b.recordInfo (removeNode m (b.pageAddr (buddy a s k))) (b.pageAddr (lo + 2 ^ k)) 0
      false false
    ∃ m'', BuddyAllocator.combineNode m' (b.pageAddr lo) (b.pageAddr (lo + 2 ^ k)) = (0, m'') ∧
      Rep b N A m'' (merge B lo k) {lo} ∧ KeepsNodes b B m m'' ∧ SameUsed B (merge B lo k) ∧
      NoFreeBuddies A (merge B lo k) (some lo) ∧ Fits a o lo (k + 1) ∧
      (∀ x, FreeNode b (merge B lo k) x → FreeNode b B x) ∧
      ∀ t, B t = none → merge B lo k t = none := by
  intro lo m'
  have hpos := Nat.two_pow_pos k
  have hcase := buddy_cases hf.start hf.aligned
  have hne : buddy a s k ≠ s := by omega
  obtain ⟨Rr, hkeep⟩ := R.remove hb (by simpa using hne)
  -- the two buddies are `lo` and `lo + 2 ^ k`, in one order or the other
  have hpair : (lo = s ∧ lo + 2 ^ k = buddy a s k) ∨ (lo = buddy a s k ∧ lo + 2 ^ k = s) := by
    omega
  have hlo : B lo = some ⟨k, false⟩ := by
    rcases hpair with ⟨h, -⟩ | ⟨h, -⟩ <;> rw [h] <;> assumption
  have hhi : B (lo + 2 ^ k) = some ⟨k, false⟩ := by
    rcases hpair with ⟨-, h⟩ | ⟨-, h⟩ <;> rw [h] <;> assumption
  have hlim : ({buddy a s k, s} : Set Nat) = {lo, lo + 2 ^ k} := by
    rcases hpair with ⟨h1, h2⟩ | ⟨h1, h2⟩ <;> rw [h2, h1]
    exact Set.pair_comm _ _
  rw [hlim] at Rr
  have hpar : Fits a o lo (k + 1) := hf.parent hko
  obtain ⟨hret, Rc, hkeepc⟩ := Rr.combineNode hA hpar hlo hhi
  change (BuddyAllocator.combineNode m' _ _).1 = 0 at hret
  generalize hr : BuddyAllocator.combineNode m' (b.pageAddr lo) (b.pageAddr (lo + 2 ^ k)) = r at *
  obtain ⟨ret, m''⟩ := r
  subst hret
  exact ⟨m'', rfl, Rc, hkeep.trans hkeepc, sameUsed_merge hlo hhi,
    hno.merge (by omega), hpar, fun x => freeNode_merge hlo, fun t => merge_none hlo⟩

/-- The loop of `free_pages`: it stops at a block that is its whole area or whose buddy is no free
block of its size. -/
theorem mergeLoop (n : Nat) (hA : A.mem a o) (R : Rep b N A m B {s}) (hf : Fits a o s k)
    (hs : B s = some ⟨k, false⟩) (hno : NoFreeBuddies A B (some s)) (hn : o < k + n) :
    ∃ m' s' k' B', b.mergeLoop ⟨b.pageAddr a, 4096 * 2 ^ o⟩ n m (b.pageAddr s) k =
        .ok (m', b.pageAddr s', k') ∧
      Rep b N A m' B' {s'} ∧ B' s' = some ⟨k', false⟩ ∧ KeepsNodes b B m m' ∧
      NoFreeBuddies A B' none ∧ SameUsed B B' ∧ (∀ x, FreeNode b B' x → FreeNode b B x) ∧
      ∀ t, B t = none → B' t = none := by
  have hko := hf.order_le
  induction n generalizing m B s k with
  | zero => omega
  | succ n ih =>
    have hsize := (R.header hs).2
    unfold BuddyAllocator.mergeLoop
    by_cases hwhole : k = o
    · subst hwhole
      rw [if_pos hsize]
      exact ⟨m, s, k, B, rfl, R, hs, KeepsNodes.refl m, hno.release hA hf hs (by omega),
        SameUsed.refl B, fun _ => id, fun _ => id⟩
    have hklt : k < o := by omega
    have hsne : getField m .areaSize (b.pageAddr s) ≠ 4096 * 2 ^ o := by
      rw [hsize]
      intro he
      have := Nat.pow_right_injective (Nat.le_refl 2) (Nat.eq_of_mul_eq_mul_left (by decide) he)
      omega
    rw [if_neg hsne]
    simp only
    rw [getBuddyNode_eq hf.start hsize]
    obtain ⟨c, hc, hle⟩ := R.part.buddy_block hA hf hs hklt
    simp only at hc hle
    have hpos := Nat.two_pow_pos k
    have hcase := buddy_cases hf.start hf.aligned
    have hlim : buddy a s k ∉ ({s} : Set Nat) := by
      simp only [Set.mem_singleton_iff]
      omega
    rw [R.isInUse_eq hc hlim]
    by_cases hb : B (buddy a s k) = some ⟨k, false⟩
    · rw [hb] at hc
      cases hc
      obtain ⟨m'', hcomb, R', hkeep, hsame, hno', hf', hsub, hstarts⟩ :=
        R.mergeStep hA hf hs hklt hb hno
      rw [if_neg (by simp), if_neg (by rw [hsize, (R.header hb).2]; simp)]
      have hmain : (if b.pageAddr (buddy a s k) < b.pageAddr s then b.pageAddr (buddy a s k)
          else b.pageAddr s) = b.pageAddr (min s (buddy a s k)) := by
        rcases hcase with ⟨-, he⟩ | ⟨-, he⟩
        · rw [if_neg (by simp only [pageAddr]; omega), Nat.min_eq_left (by omega)]
        · rw [if_pos (by simp only [pageAddr]; omega), Nat.min_eq_right (by omega)]
      have hother : (if b.pageAddr (buddy a s k) < b.pageAddr s then b.pageAddr s
          else b.pageAddr (buddy a s k)) = b.pageAddr (min s (buddy a s k) + 2 ^ k) := by
        rcases hcase with ⟨-, he⟩ | ⟨-, he⟩
        · rw [if_neg (by simp only [pageAddr]; omega), Nat.min_eq_left (by omega), he]
        · rw [if_pos (by simp only [pageAddr]; omega), Nat.min_eq_right (by omega), ← he]
      rw [hmain, hother]
      simp only [hcomb, kassert, Int.le_refl, if_true]
      rw [ok_bind]
      have hlo : merge B (min s (buddy a s k)) k (min s (buddy a s k)) =
          some ⟨k + 1, false⟩ := by
        rw [merge_apply, if_neg (by omega), if_pos rfl]
      obtain ⟨m3, s3, k3, B3, hrun, R3, hs3, hkeep3, hno3, hsame3, hsub3, hstarts3⟩ :=
        ih R' hf' hlo hno' (by omega) hf'.order_le
      exact ⟨m3, s3, k3, B3, hrun, R3, hs3, hkeep.trans (hkeep3.mono hsub), hno3,
        hsame.trans hsame3, fun x hx => hsub x (hsub3 x hx),
        fun t ht => hstarts3 t (hstarts t ht)⟩
    · -- the buddy is in use or split: the block stays as it is
      have hdone : ∃ m' s' k' B', (Except.ok (m, b.pageAddr s, k) : Except Fault _) =
            .ok (m', b.pageAddr s', k') ∧
          Rep b N A m' B' {s'} ∧ B' s' = some ⟨k', false⟩ ∧ KeepsNodes b B m m' ∧
          NoFreeBuddies A B' none ∧ SameUsed B B' ∧
          (∀ x, FreeNode b B' x → FreeNode b B x) ∧
          ∀ t, B t = none → B' t = none :=
        ⟨m, s, k, B, rfl, R, hs, KeepsNodes.refl m, hno.release hA hf hs (fun _ => hb),
          SameUsed.refl B, fun _ => id, fun _ => id⟩
      obtain ⟨j, used⟩ := c
      cases used with
      | true => simpa using hdone
      | false =>
        have hjk : j ≠ k := by
          rintro rfl
          exact hb hc
        have hdiff : getField m .areaSize (b.pageAddr s) ≠
            getField m .areaSize (b.pageAddr (buddy a s k)) := by
          rw [hsize, (R.header hc).2]
          intro he
          exact hjk (Nat.pow_right_injective (Nat.le_refl 2)
            (Nat.eq_of_mul_eq_mul_left (by decide) he)).symm
        rw [if_neg (by simp), if_pos hdiff]
        exact hdone

end Rep

/-- The result of `free_pages` of the page `s` of the region, from a state whose blocks are `B`. -/
inductive FreeResult (b : BuddyAllocator) (N : Nat) (A : Areas) (m : Mem) (B : Blocks) (s : Nat) :
    Int × BuddyAllocator × Mem → Prop
  | inside (hs : B s = none) : FreeResult b N A m B s (0, b, m)
  | again {k : Nat} (hs : B s = some ⟨k, false⟩) : FreeResult b N A m B s (-3, b, m)
  | released {k : Nat} {m' : Mem} {B' : Blocks} (rep : Rep b N A m' B' ∅)
      (coalesced : NoFreeBuddies A B' none) (free : Released N B s k B')
      (keeps : Keeps b (mark B s k false) m m') :
      FreeResult b N A m B s
        (0, { b with allocSize := wordSub b.allocSize (2 ^ k * 4096) }, m')

theorem freePages_spec {b : BuddyAllocator} {N : Nat} {A : Areas} {m : Mem} {B : Blocks} {s : Nat}
    (R : Rep b N A m B ∅) (hno : NoFreeBuddies A B none)
    (hmax : ∀ {a o}, A.mem a o → o ≤ b.buddyMaxOrder)
    (hbel : ∀ {a o p}, A.mem a o → a ≤ p → p < a + 2 ^ o →
      b.belongArea (b.pageAddr p) = some ⟨b.pageAddr a, 4096 * 2 ^ o⟩)
    (hs : s < b.infosSize) (hlt : b.pageAddr s < 2 ^ 64) (hnull : b.pageAddr s ≠ 0) :
    ∃ r, b.freePages m (b.pageAddr s) = .ok r ∧ FreeResult b N A m B s r ∧
      ∀ k, B s = some ⟨k, true⟩ → KeepsNodes b (mark B s k false) m r.2.2 := by
  have hidx : b.getInfoIndex (b.pageAddr s) = s := by
    unfold getInfoIndex
    rw [wordSub_of_le (by simp only [pageAddr]; omega) hlt]
    simp only [pageAddr, pageSize]
    omega
  have halign : isPageAlign (b.pageAddr s) = true := by
    have := R.layout.aligned
    rw [isPageAlign_iff]
    simp only [pageAddr]
    omega
  unfold freePages
  rw [if_neg hnull, halign, if_neg (by simp)]
  simp only [hidx]
  rw [kassert, if_pos (by simpa using hs), ok_bind]
  cases hB : B s with
  | none =>
    have hinfo : b.getInfo m s = ⟨0, false, false⟩ := by
      unfold getInfo
      rw [R.info s hs (by simp), hB]
      decide
    simp only [hinfo, if_true]
    exact ⟨_, rfl, .inside hB, fun k hk => by cases hk⟩
  | some blk =>
    obtain ⟨k, used⟩ := blk
    have hinfo := R.getInfo_eq hB (by simp)
    simp only at hinfo
    cases used with
    | false =>
      simp only [hinfo, Bool.true_eq_false, if_false, if_true]
      exact ⟨_, rfl, .again hB, fun k hk => by cases hk⟩
    | true =>
      obtain ⟨a, o, hA, hf⟩ := R.part.fits hB
      simp only at hf
      have hk : k ≤ b.buddyMaxOrder := Nat.le_trans hf.order_le (hmax hA)
      have hpos := Nat.two_pow_pos k
      have hin := hf.inside
      simp only [hinfo, Bool.true_eq_false, if_false]
      rw [kassert, if_pos (by simpa using hk), ok_bind, hbel hA hf.start (by omega)]
      obtain ⟨R1, hkeep1⟩ := R.markFree hB (i := ⟨k, true, false⟩)
      have hfree : mark B s k false s = some ⟨k, false⟩ := by simp [mark_apply]
      have hno1 : NoFreeBuddies A (mark B s k false) (some s) := hno.mark_limbo
      have ho : o < k + 64 := by
        have := R.layout.pages_lt
        have hb := R.bound hA
        have h2 : 2 ^ o < 2 ^ 33 := by omega
        have := (Nat.pow_lt_pow_iff_right (by decide : 1 < 2)).mp h2
        omega
      obtain ⟨m2, s2, k2, B2, hrun, R2, hs2, hkeep2, hno2, hsame, hsub, hstarts⟩ :=
        R1.mergeLoop 64 hA hf hfree hno1 ho
      simp only [pageSize]
      rw [hrun, ok_bind]
      obtain ⟨R3, hkeep3⟩ := R2.insert hs2 (by simp)
      rw [Set.sdiff_self] at R3
      have hkeep := hkeep1.trans (hkeep2.trans (hkeep3.mono hsub))
      refine ⟨_, rfl, .released R3 hno2 ⟨hB, fun t j => ?_, fun t ht => ?_, ?_⟩ hkeep.keeps,
        fun j hj => by cases hj; exact hkeep⟩
      · rw [hsame t j, mark_apply]
        split
        · rename_i he
          simp [he]
        · rename_i he
          simp [he]
      · apply hstarts
        rw [mark_apply, if_neg]
        · exact ht
        · rintro rfl
          rw [hB] at ht
          cases ht
      · have := usedUnits_update B (some ⟨k, false⟩) (R.block_lt hB)
        rw [hB] at this
        rw [hsame.units]
        simpa [BuddySystem.weight, BuddySystem.mark] using this

end OsKernel.Mm

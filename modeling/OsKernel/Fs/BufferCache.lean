import OsKernel.Fs.Buffer
import OsKernel.Lib.Ring

/-! The buffer cache is transparent: a read gives what the sector holds logically, through any run
of reads, modifications, pins and releases. -/

namespace OsKernel.Fs

open Lib

/-! ### The division of a sector number -/

theorem offsetFromLba_eq (lba : Nat) : offsetFromLba lba = lba % 8 := by
  have hmask : lbaOffsetMask = 2 ^ 3 - 1 := by decide
  rw [offsetFromLba, hmask, Nat.and_two_pow_sub_one_eq_mod, Nat.shiftRight_zero]
  omega

theorem tagNumFromLba_eq {lba : Nat} (h : lba < 2 ^ 41) :
    tagNumFromLba lba % 2 ^ 32 = lba / 512 := by
  have hmask : lbaTagNumMask >>> 9 = 2 ^ 45 - 1 := by decide
  rw [tagNumFromLba, Nat.shiftRight_and_distrib, hmask, Nat.and_two_pow_sub_one_eq_mod,
    Nat.shiftRight_eq_div_pow]
  omega

theorem and_mask_shiftLeft (x w k : Nat) :
    x &&& (2 ^ w - 1) <<< k = x / 2 ^ k % 2 ^ w * 2 ^ k := by
  rw [← Nat.shiftRight_eq_div_pow, ← Nat.and_two_pow_sub_one_eq_mod, ← Nat.shiftLeft_eq]
  apply Nat.eq_of_testBit_eq
  intro i
  simp only [Nat.testBit_and, Nat.testBit_shiftLeft, Nat.testBit_shiftRight]
  by_cases hi : k ≤ i
  · simp [hi]
  · simp [hi]

theorem lbaBlkAlign_eq {lba : Nat} (h : lba < 2 ^ 41) : lbaBlkAlign lba = lba / 8 * 8 := by
  have hmask : 2 ^ 64 - 1 - lbaOffsetMask = (2 ^ 61 - 1) <<< 3 := by decide
  rw [lbaBlkAlign, hmask, and_mask_shiftLeft]
  omega

/-- The first sector of a buffer, from its tag and its block. -/
theorem lbaFromTagBlkOff_eq {tag blk : Nat} (ht : tag < 2 ^ 32) (hb : blk < 64) :
    lbaFromTagBlkOff tag blk 0 = 8 * (64 * tag + blk) := by
  have htag : tag <<< 9 % 2 ^ 64 &&& lbaTagNumMask = tag <<< 9 := by
    have hmask : lbaTagNumMask = (2 ^ 45 - 1) <<< 9 := by decide
    rw [hmask, and_mask_shiftLeft, Nat.shiftLeft_eq]
    omega
  have hblk : blk <<< 3 % 2 ^ 64 &&& lbaBlkNumMask = blk <<< 3 := by
    have hmask : lbaBlkNumMask = (2 ^ 6 - 1) <<< 3 := by decide
    rw [hmask, and_mask_shiftLeft, Nat.shiftLeft_eq]
    omega
  have hlt : blk <<< 3 < 2 ^ 9 := by
    rw [Nat.shiftLeft_eq]
    omega
  rw [lbaFromTagBlkOff, htag, hblk, Nat.zero_shiftLeft, Nat.zero_mod, Nat.zero_and, Nat.or_zero,
    ← Nat.shiftLeft_add_eq_or_of_lt hlt, Nat.shiftLeft_eq, Nat.shiftLeft_eq]
  omega

/-! ### The LRU list -/

/-- The buffers of a block from the most to the least recently released. -/
def BufferBlock.Order (b : BufferBlock) (l : List (Fin maxBufferPerBlock)) : Prop :=
  l.Perm (List.finRange maxBufferPerBlock) ∧ Ring b.next b.prev none (l.map some)

namespace BufferBlock

/-- The loop along the links of a ring looks at its members in order. -/
theorem nodeLoop_spec {link back : Node → Node} {found : Fin maxBufferPerBlock → Bool} :
    ∀ (ys xs : List (Fin maxBufferPerBlock)) (fuel : Nat),
      Ring link back none ((xs ++ ys).map some) → ys.length ≤ fuel →
      nodeLoop link found fuel ((ys.map some ++ [none]).head (by simp)) = .ok (ys.find? found) := by
  intro ys
  induction ys with
  | nil =>
    intro xs fuel _ _
    unfold nodeLoop
    rfl
  | cons y ys ih =>
    intro xs fuel hr hfuel
    obtain ⟨fuel, rfl⟩ : ∃ f, fuel = f + 1 := ⟨fuel - 1, by simp at hfuel; omega⟩
    have hlink : link (some y) = (ys.map some ++ [none]).head (by simp) := by
      rw [List.map_append, List.map_cons] at hr
      exact hr.around.2.2.2.1
    have hrest := ih (xs ++ [y]) fuel (by simpa using hr) (by simpa using hfuel)
    simp only [List.map_cons, List.cons_append, List.head_cons, nodeLoop, List.find?_cons]
    cases found y with
    | true => rfl
    | false =>
      simp only [Bool.false_eq_true, if_false]
      rw [hlink, hrest]

variable {b : BufferBlock} {l : List (Fin maxBufferPerBlock)}

theorem Order.length (h : b.Order l) : l.length = maxBufferPerBlock := by
  rw [h.1.length_eq, List.length_finRange]

theorem Order.mem (h : b.Order l) (i : Fin maxBufferPerBlock) : i ∈ l :=
  h.1.mem_iff.mpr (List.mem_finRange i)

theorem ring_head {link back : Node → Node} (hr : Ring link back none (l.map some)) :
    link none = (l.map some ++ [none]).head (by simp) := by
  rw [hr.next_head]
  cases l <;> rfl

theorem Order.searchBuffer (h : b.Order l) (dev : Int) (tag : Nat) :
    b.searchBuffer dev tag =
      .ok (l.find? fun i => b.device i = dev ∧ b.tagNumber i = tag) := by
  unfold BufferBlock.searchBuffer
  rw [ring_head h.2]
  exact nodeLoop_spec l [] _ h.2 h.length.le

theorem Order.allocBuffer (h : b.Order l) :
    b.allocBuffer = .ok (l.reverse.find? fun i => b.refCnt i = 0) := by
  have hring : Ring b.prev b.next none (l.reverse.map some) := by
    rw [List.map_reverse]
    exact h.2.reverse
  unfold BufferBlock.allocBuffer
  rw [ring_head hring]
  refine nodeLoop_spec l.reverse [] _ hring ?_
  rw [List.length_reverse, h.length]

/-- The list after a node that is not in it is put behind the head. -/
theorem ring_insertFirst {i : Fin maxBufferPerBlock} (h : Ring b.next b.prev none (l.map some))
    (hi : i ∉ l) : Ring (b.insertFirst i).next (b.insertFirst i).prev none
      ((i :: l).map some) := by
  have hmem : some i ∉ none :: l.map some := by simpa using hi
  have hne : b.next none ≠ some i := fun he => hmem (he ▸ h.next_head_mem)
  refine h.insert hmem ?_ ?_ ?_ ?_ ?_ ?_
  · simp [insertFirst]
  · simp [insertFirst, hne.symm]
  · simp [insertFirst]
  · simp [insertFirst]
  · intro x hx
    have hxi : x ≠ some i := fun he => hmem (List.mem_cons_of_mem _ (he ▸ hx))
    have hxn : x ≠ none := fun he => h.notMem (he ▸ hx)
    simp [insertFirst, hxi, hxn]
  · intro x hx hxn
    have hxi : x ≠ some i := fun he => hmem (he ▸ hx)
    simp [insertFirst, hxi, hxn]

/-- The list after one of its nodes is taken out. -/
theorem ring_unlink {i : Fin maxBufferPerBlock} (h : Ring b.next b.prev none (l.map some))
    (hi : i ∈ l) : Ring (b.unlink i).next (b.unlink i).prev none ((l.erase i).map some) := by
  have hmem : some i ∈ l.map some := List.mem_map_of_mem hi
  have hne := h.next_ne hmem
  have hprev : Function.update b.prev (b.next (some i)) (b.prev (some i)) (some i) =
      b.prev (some i) := Function.update_of_ne hne.symm _ _
  have herase : (l.erase i).map some = (l.map some).erase (some i) :=
    List.map_erase (Option.some_injective _) l
  refine herase ▸ h.remove hmem ?_ ?_ ?_ ?_
  · simp [unlink, hprev]
  · simp [unlink]
  · intro x _ _ hx
    simp [unlink, hprev, hx]
  · intro x _ _ hx
    simp [unlink, hx]

/-- The list after the release of the last reference to a buffer. -/
theorem Order.moveFirst (h : b.Order l) (i : Fin maxBufferPerBlock) :
    ((b.unlink i).insertFirst i).Order (i :: l.erase i) := by
  have hi := h.mem i
  refine ⟨(List.perm_cons_erase hi).symm.trans h.1, ?_⟩
  refine ring_insertFirst (ring_unlink h.2 hi) ?_
  exact (h.1.nodup_iff.mpr (List.nodup_finRange _)).not_mem_erase

theorem foldl_insertFirst : ∀ (xs : List (Fin maxBufferPerBlock)) (b : BufferBlock)
    (l : List (Fin maxBufferPerBlock)), Ring b.next b.prev none (l.map some) → (xs ++ l).Nodup →
      Ring (xs.foldl insertFirst b).next (xs.foldl insertFirst b).prev none
        ((xs.reverse ++ l).map some) := by
  intro xs
  induction xs with
  | nil =>
    intro b l h _
    exact h
  | cons x xs ih =>
    intro b l h hnd
    rw [List.foldl_cons, List.reverse_cons, List.append_assoc]
    rw [List.cons_append, List.nodup_cons, List.mem_append, not_or] at hnd
    refine ih _ _ (ring_insertFirst h hnd.1.2) ?_
    refine List.nodup_append.mpr ⟨(List.nodup_append.mp hnd.2).1, ?_, ?_⟩
    · exact List.nodup_cons.mpr ⟨hnd.1.2, (List.nodup_append.mp hnd.2).2.1⟩
    · intro a ha c hc
      rcases List.mem_cons.mp hc with rfl | hc
      · rintro rfl
        exact hnd.1.1 ha
      · exact (List.nodup_append.mp hnd.2).2.2 a ha c hc

/-- Insertion changes the links only. -/
theorem foldl_insertFirst_fields (xs : List (Fin maxBufferPerBlock)) (b : BufferBlock) :
    xs.foldl insertFirst b = { b with
      next := (xs.foldl insertFirst b).next
      prev := (xs.foldl insertFirst b).prev } := by
  induction xs generalizing b with
  | nil => rfl
  | cons x xs ih =>
    rw [List.foldl_cons, ih]
    rfl

theorem init_order (data : Fin maxBufferPerBlock → Nat → UInt8) (next prev : Node → Node) :
    (BufferBlock.init data next prev).Order (List.finRange maxBufferPerBlock).reverse := by
  refine ⟨List.reverse_perm _, ?_⟩
  unfold init
  have h := foldl_insertFirst (List.finRange maxBufferPerBlock) (l := [])
    { validMap := fun _ => false
      dirtyMap := fun _ => false
      diskOwnMap := fun _ => false
      device := fun _ => 0
      refCnt := fun _ => 0
      tagNumber := fun _ => 2 ^ 64 - 1
      next := Function.update next none none
      prev := Function.update prev none none
      data } (Ring.nil (by simp) (by simp)) (by simpa using List.nodup_finRange _)
  simpa using h

theorem init_fields (data : Fin maxBufferPerBlock → Nat → UInt8) (next prev : Node → Node) :
    BufferBlock.init data next prev =
      { validMap := fun _ => false
        dirtyMap := fun _ => false
        diskOwnMap := fun _ => false
        device := fun _ => 0
        refCnt := fun _ => 0
        tagNumber := fun _ => 2 ^ 64 - 1
        next := (BufferBlock.init data next prev).next
        prev := (BufferBlock.init data next prev).prev
        data } := foldl_insertFirst_fields _ _

end BufferBlock

/-! ### The invariant -/

@[simp] theorem Cache.set_pool (c : Cache) (blk b : Fin blockPerPool)
    (f : BufferBlock → BufferBlock) :
    (c.set blk f).pool b = if b = blk then f (c.pool blk) else c.pool b := by
  simp only [Cache.set, Function.update_apply]

/-- The address of the first byte of a buffer's page on its device. -/
def pageStart (tag : Nat) (blk : Fin blockPerPool) : Nat := 4096 * (64 * tag + blk)

/-- What the calls keep. -/
structure CacheInv (r : CacheRun) : Prop where
  order : ∀ blk, ∃ l, (r.cache.pool blk).Order l
  own : ∀ blk i, (r.cache.pool blk).diskOwnMap i = false
  valid_or : ∀ blk i, (r.cache.pool blk).validMap i = true ∨
    (r.cache.pool blk).tagNumber i = 2 ^ 64 - 1
  tag_lt : ∀ blk i, (r.cache.pool blk).validMap i = true →
    (r.cache.pool blk).tagNumber i < 2 ^ 32
  uniq : ∀ blk i j, (r.cache.pool blk).validMap i = true →
    (r.cache.pool blk).validMap j = true →
    (r.cache.pool blk).device i = (r.cache.pool blk).device j →
    (r.cache.pool blk).tagNumber i = (r.cache.pool blk).tagNumber j → i = j
  dirty_valid : ∀ blk i, (r.cache.pool blk).dirtyMap i = true →
    (r.cache.pool blk).validMap i = true
  cached : ∀ blk i, (r.cache.pool blk).validMap i = true → ∀ x < 4096,
    (r.cache.pool blk).data i x = r.logical ((r.cache.pool blk).device i)
      (pageStart ((r.cache.pool blk).tagNumber i) blk + x)
  clean : ∀ d blk tag, (∀ i, (r.cache.pool blk).device i = d →
      (r.cache.pool blk).tagNumber i = tag → (r.cache.pool blk).dirtyMap i = false) →
    ∀ x < 4096, r.cache.disk d (pageStart tag blk + x) = r.logical d (pageStart tag blk + x)
  count : ∀ blk i, (r.cache.pool blk).refCnt i =
    (r.refs.countP fun ref => ref.blk = blk ∧ ref.idx = i : Nat)
  held : ∀ ref ∈ r.refs, ref.lba < 2 ^ 41 ∧ ref.blk.val = ref.lba / 8 % 64 ∧
    ref.start = 512 * (ref.lba % 8) ∧ (r.cache.pool ref.blk).validMap ref.idx = true ∧
    (r.cache.pool ref.blk).device ref.idx = ref.dev ∧
    (r.cache.pool ref.blk).tagNumber ref.idx = ref.lba / 512
  source : ∀ blk i, (r.cache.pool blk).validMap i = true → lastRead blk i r.cache.ops =
    some ((r.cache.pool blk).device i, 8 * (64 * (r.cache.pool blk).tagNumber i + blk))
  writes : ∀ post d lba blk i pre, r.cache.ops = post ++ .write d lba blk i :: pre →
    lastRead blk i pre = some (d, lba)

namespace CacheInv

variable {r r' : CacheRun} {isBlock : Int → Bool}

theorem init (data : Fin blockPerPool → Fin maxBufferPerBlock → Nat → UInt8)
    (next prev : Fin blockPerPool → Node → Node) (disk : Int → Nat → UInt8) :
    CacheInv ⟨Cache.init data next prev disk, disk, []⟩ := by
  have hpool : ∀ blk, (Cache.init data next prev disk).pool blk =
      BufferBlock.init (data blk) (next blk) (prev blk) := fun _ => rfl
  have hfields : ∀ blk, _ := fun blk => BufferBlock.init_fields (data blk) (next blk) (prev blk)
  have hvalid : ∀ blk i, ((Cache.init data next prev disk).pool blk).validMap i = false := by
    intro blk i
    rw [hpool, hfields]
  refine ⟨fun blk => ⟨_, BufferBlock.init_order ..⟩, ?_, ?_, ?_, ?_, ?_, ?_,
    fun _ _ _ _ _ _ => rfl, ?_, ?_, ?_, ?_⟩
  · intro blk i
    rw [hpool, hfields]
  · intro blk i
    rw [hpool, hfields]
    exact Or.inr rfl
  · intro blk i hv
    rw [hvalid] at hv
    cases hv
  · intro blk i j hv
    rw [hvalid] at hv
    cases hv
  · intro blk i hd
    rw [hpool, hfields] at hd
    cases hd
  · intro blk i hv
    rw [hvalid] at hv
    cases hv
  · intro blk i
    rw [hpool, hfields]
    rfl
  · intro ref href
    cases href
  · intro blk i hv
    rw [hvalid] at hv
    cases hv
  · intro post d lba blk i pre hops
    cases post <;> cases hops

/-- A step that changes the list and the reference counts only. -/
theorem frame (h : CacheInv r) (horder : ∀ blk, ∃ l, (r'.cache.pool blk).Order l)
    (hsame : ∀ blk, (r'.cache.pool blk).validMap = (r.cache.pool blk).validMap ∧
      (r'.cache.pool blk).dirtyMap = (r.cache.pool blk).dirtyMap ∧
      (r'.cache.pool blk).diskOwnMap = (r.cache.pool blk).diskOwnMap ∧
      (r'.cache.pool blk).device = (r.cache.pool blk).device ∧
      (r'.cache.pool blk).tagNumber = (r.cache.pool blk).tagNumber ∧
      (r'.cache.pool blk).data = (r.cache.pool blk).data)
    (hdisk : r'.cache.disk = r.cache.disk) (hops : r'.cache.ops = r.cache.ops)
    (hlogical : r'.logical = r.logical)
    (hcount : ∀ blk i, (r'.cache.pool blk).refCnt i =
      (r'.refs.countP fun ref => ref.blk = blk ∧ ref.idx = i : Nat))
    (hrefs : ∀ ref ∈ r'.refs, ref ∈ r.refs ∨ ref.lba < 2 ^ 41 ∧
      ref.blk.val = ref.lba / 8 % 64 ∧ ref.start = 512 * (ref.lba % 8) ∧
      (r.cache.pool ref.blk).validMap ref.idx = true ∧
      (r.cache.pool ref.blk).device ref.idx = ref.dev ∧
      (r.cache.pool ref.blk).tagNumber ref.idx = ref.lba / 512) : CacheInv r' := by
  have hv := fun blk => (hsame blk).1
  have hd := fun blk => (hsame blk).2.1
  have ho := fun blk => (hsame blk).2.2.1
  have hdev := fun blk => (hsame blk).2.2.2.1
  have ht := fun blk => (hsame blk).2.2.2.2.1
  have hdata := fun blk => (hsame blk).2.2.2.2.2
  refine ⟨horder, ?_, ?_, ?_, ?_, ?_, ?_, ?_, hcount, ?_, ?_, ?_⟩
  · simpa only [ho] using h.own
  · simpa only [hv, ht] using h.valid_or
  · simpa only [hv, ht] using h.tag_lt
  · simpa only [hv, hdev, ht] using h.uniq
  · simpa only [hv, hd] using h.dirty_valid
  · simpa only [hv, hdata, hlogical, hdev, ht] using h.cached
  · simpa only [hdisk, hlogical, hdev, ht, hd] using h.clean
  · intro ref href
    simp only [hv, hdev, ht]
    exact (hrefs ref href).elim (h.held ref) id
  · simpa only [hv, hdev, ht, hops] using h.source
  · simpa only [hops] using h.writes

/-- One more reference to a buffer. -/
theorem count_cons (h : CacheInv r) (ref : Ref) (blk : Fin blockPerPool)
    (i : Fin maxBufferPerBlock) :
    ((ref :: r.refs).countP fun q => q.blk = blk ∧ q.idx = i : Nat) =
      if blk = ref.blk ∧ i = ref.idx then (r.cache.pool blk).refCnt i + 1
      else (r.cache.pool blk).refCnt i := by
  rw [h.count, List.countP_cons]
  by_cases hb : blk = ref.blk ∧ i = ref.idx
  · rw [if_pos hb, if_pos (by simp [hb.1, hb.2])]
    rfl
  · rw [if_neg hb, if_neg fun hq => hb ?_]
    · rfl
    · exact And.imp Eq.symm Eq.symm (of_decide_eq_true hq)

/-- One reference less. -/
theorem count_erase (h : CacheInv r) {ref : Ref} (href : ref ∈ r.refs) (blk : Fin blockPerPool)
    (i : Fin maxBufferPerBlock) :
    ((r.refs.erase ref).countP fun q => q.blk = blk ∧ q.idx = i : Nat) =
      if blk = ref.blk ∧ i = ref.idx then (r.cache.pool blk).refCnt i - 1
      else (r.cache.pool blk).refCnt i := by
  have hcount := ((List.perm_cons_erase href).countP_eq
    fun q => decide (q.blk = blk ∧ q.idx = i)).symm
  rw [List.countP_cons] at hcount
  rw [h.count]
  by_cases hb : blk = ref.blk ∧ i = ref.idx
  · rw [if_pos (by simp [hb.1, hb.2])] at hcount
    rw [if_pos hb]
    omega
  · rw [if_neg fun hq => hb (And.imp Eq.symm Eq.symm (of_decide_eq_true hq))] at hcount
    rw [if_neg hb]
    omega

theorem refCnt_update (c : Cache) (ref : Ref) (z : Int) (blk : Fin blockPerPool)
    (i : Fin maxBufferPerBlock) :
    ((c.set ref.blk fun b =>
        { b with refCnt := Function.update b.refCnt ref.idx (b.refCnt ref.idx + z) }).pool
      blk).refCnt i = if blk = ref.blk ∧ i = ref.idx then (c.pool blk).refCnt i + z
        else (c.pool blk).refCnt i := by
  rw [Cache.set_pool]
  by_cases hb : blk = ref.blk
  · subst hb
    by_cases hi : i = ref.idx
    · simp [hi]
    · simp [hi]
  · simp [hb]

/-- A change of the reference count of a buffer in the cache. -/
theorem recount (h : CacheInv r) {ref : Ref} {z : Int} {refs : List Ref}
    (hcount : ∀ blk i, (refs.countP fun q => q.blk = blk ∧ q.idx = i : Nat) =
      if blk = ref.blk ∧ i = ref.idx then (r.cache.pool blk).refCnt i + z
      else (r.cache.pool blk).refCnt i)
    (hrefs : ∀ q ∈ refs, q ∈ r.refs ∨ q.lba < 2 ^ 41 ∧ q.blk.val = q.lba / 8 % 64 ∧
      q.start = 512 * (q.lba % 8) ∧ (r.cache.pool q.blk).validMap q.idx = true ∧
      (r.cache.pool q.blk).device q.idx = q.dev ∧
      (r.cache.pool q.blk).tagNumber q.idx = q.lba / 512) :
    CacheInv ⟨r.cache.set ref.blk fun b =>
      { b with refCnt := Function.update b.refCnt ref.idx (b.refCnt ref.idx + z) },
      r.logical, refs⟩ := by
  refine h.frame ?_ ?_ rfl rfl rfl ?_ hrefs
  · intro blk
    obtain ⟨l, hl⟩ := h.order blk
    refine ⟨l, ?_⟩
    rw [Cache.set_pool]
    split
    · rename_i hb
      subst hb
      exact hl
    · exact hl
  · intro blk
    rw [Cache.set_pool]
    split
    · rename_i hb
      subst hb
      exact ⟨rfl, rfl, rfl, rfl, rfl, rfl⟩
    · exact ⟨rfl, rfl, rfl, rfl, rfl, rfl⟩
  · intro blk i
    rw [refCnt_update, hcount]

/-- The order of the references does not matter. -/
theorem perm (h : CacheInv r) {refs : List Ref} (hp : r.refs.Perm refs) :
    CacheInv ⟨r.cache, r.logical, refs⟩ :=
  ⟨h.order, h.own, h.valid_or, h.tag_lt, h.uniq, h.dirty_valid, h.cached, h.clean,
    fun blk i => (h.count blk i).trans (by rw [hp.countP_eq]),
    fun ref href => h.held ref (hp.mem_iff.mpr href), h.source, h.writes⟩

theorem pin (h : CacheInv r) {ref : Ref} (href : ref ∈ r.refs) :
    CacheInv ⟨r.cache.pinBuffer ref.toBuffer, r.logical, ref :: r.refs⟩ := by
  refine h.recount (z := 1) (fun blk i => h.count_cons ref blk i) fun q hq => Or.inl ?_
  rcases List.mem_cons.mp hq with rfl | hq
  · exact href
  · exact hq

theorem unpin (h : CacheInv r) {ref : Ref} (href : ref ∈ r.refs) :
    CacheInv ⟨r.cache.unpinBuffer ref.toBuffer, r.logical, r.refs.erase ref⟩ :=
  h.recount (z := -1) (fun blk i => h.count_erase href blk i) fun _ hq =>
    Or.inl (List.mem_of_mem_erase hq)

/-- A release differs from `unpin` by the list only. -/
theorem release_pool (c : Cache) (buf : Buffer) (blk : Fin blockPerPool) :
    ∃ next prev, (c.releaseBufferSync buf).pool blk =
      { (c.unpinBuffer buf).pool blk with next, prev } := by
  simp only [Cache.releaseBufferSync, Cache.unpinBuffer, Cache.set_pool]
  by_cases hb : blk = buf.blk
  · rw [if_pos hb, if_pos hb]
    split
    · exact ⟨_, _, rfl⟩
    · exact ⟨_, _, rfl⟩
  · rw [if_neg hb, if_neg hb]
    exact ⟨_, _, rfl⟩

theorem release (h : CacheInv r) {ref : Ref} (href : ref ∈ r.refs) :
    CacheInv ⟨r.cache.releaseBufferSync ref.toBuffer, r.logical, r.refs.erase ref⟩ := by
  have hsame := release_pool r.cache ref.toBuffer
  refine (h.unpin href).frame ?_ ?_ rfl rfl rfl ?_ fun q hq => Or.inl hq
  · intro blk
    obtain ⟨l, hl⟩ := h.order blk
    simp only [Cache.releaseBufferSync, Cache.set_pool]
    split
    · rename_i hb
      rw [← hb]
      split
      · refine ⟨_, BufferBlock.Order.moveFirst (l := l) ?_ _⟩
        exact hl
      · exact ⟨l, hl⟩
    · exact ⟨l, hl⟩
  · intro blk
    obtain ⟨next, prev, he⟩ := hsame blk
    simp only [he, and_self]
  · intro blk i
    obtain ⟨next, prev, he⟩ := hsame blk
    simp only [he]
    exact (h.unpin href).count blk i

theorem pageStart_inj {tag tag' : Nat} {blk blk' : Fin blockPerPool} {x y : Nat} (hx : x < 4096)
    (hy : y < 4096) (h : pageStart tag blk + x = pageStart tag' blk' + y) :
    tag = tag' ∧ blk = blk' ∧ x = y := by
  have hb := blk.isLt
  have hb' := blk'.isLt
  simp only [pageStart, blockPerPool] at *
  refine ⟨by omega, Fin.ext (by omega), by omega⟩

/-- The sector of a reference in the page of its buffer. -/
theorem sector_in_page {lba : Nat} {blk : Fin blockPerPool} (hblk : blk.val = lba / 8 % 64) :
    512 * lba = pageStart (lba / 512) blk + 512 * (lba % 8) := by
  simp only [pageStart]
  omega

theorem modify (h : CacheInv r) {ref : Ref} (href : ref ∈ r.refs)
    (bytes : Fin defaultSectorSize → UInt8) :
    CacheInv ⟨r.cache.modify ref.toBuffer bytes, writeSector r.logical ref.dev ref.lba bytes,
      r.refs⟩ := by
  obtain ⟨hlba, hblk, hstart, hvalid, hdev, htag⟩ := h.held ref href
  have hsector := sector_in_page hblk
  have hpool : ∀ b, ∃ data dirty, (r.cache.modify ref.toBuffer bytes).pool b =
      { r.cache.pool b with data, dirtyMap := dirty } := by
    intro b
    simp only [Cache.modify, Cache.set_pool]
    split
    · rename_i hb
      rw [← hb]
      exact ⟨_, _, rfl⟩
    · exact ⟨_, _, rfl⟩
  have hdirty : ∀ b i, ((r.cache.modify ref.toBuffer bytes).pool b).dirtyMap i = true ↔
      b = ref.blk ∧ i = ref.idx ∨ (r.cache.pool b).dirtyMap i = true := by
    intro b i
    simp only [Cache.modify, Cache.set_pool]
    by_cases hb : b = ref.blk
    · subst hb
      by_cases hi : i = ref.idx
      · simp [hi]
      · simp [hi]
    · simp [hb]
  have hv : ∀ b, ((r.cache.modify ref.toBuffer bytes).pool b).validMap =
      (r.cache.pool b).validMap := by
    intro b
    obtain ⟨_, _, he⟩ := hpool b
    rw [he]
  have hd : ∀ b, ((r.cache.modify ref.toBuffer bytes).pool b).device =
      (r.cache.pool b).device := by
    intro b
    obtain ⟨_, _, he⟩ := hpool b
    rw [he]
  have ht : ∀ b, ((r.cache.modify ref.toBuffer bytes).pool b).tagNumber =
      (r.cache.pool b).tagNumber := by
    intro b
    obtain ⟨_, _, he⟩ := hpool b
    rw [he]
  -- No other page of the devices is written.
  have hother : ∀ d tag b x, x < 4096 →
      ¬(d = ref.dev ∧ tag = ref.lba / 512 ∧ b = ref.blk) →
      writeSector r.logical ref.dev ref.lba bytes d (pageStart tag b + x) =
        r.logical d (pageStart tag b + x) := by
    intro d tag b x hx hne
    unfold writeSector
    rw [dif_neg]
    rintro ⟨rfl, hl, hu⟩
    simp only [defaultSectorSize] at hl hu
    obtain ⟨h1, h2, -⟩ := pageStart_inj (y := pageStart tag b + x - 512 * ref.lba +
      512 * (ref.lba % 8)) hx (by omega)
      (show pageStart tag b + x = pageStart (ref.lba / 512) ref.blk + _ by omega)
    exact hne ⟨rfl, h1, h2⟩
  refine ⟨?_, ?_, ?_, ?_, ?_, ?_, ?_, ?_, ?_, ?_, ?_, h.writes⟩
  · intro b
    obtain ⟨l, hl⟩ := h.order b
    obtain ⟨_, _, he⟩ := hpool b
    refine ⟨l, ?_⟩
    simp only [he]
    exact hl
  · intro b i
    obtain ⟨_, _, he⟩ := hpool b
    simp only [he]
    exact h.own b i
  · simpa only [hv, ht] using h.valid_or
  · simpa only [hv, ht] using h.tag_lt
  · simpa only [hv, hd, ht] using h.uniq
  · intro b i hi
    simp only [hv]
    rcases (hdirty b i).mp hi with ⟨rfl, rfl⟩ | hi
    · exact hvalid
    · exact h.dirty_valid b i hi
  · intro b i hi x hx
    simp only [hv, hd, ht] at hi ⊢
    by_cases hb : b = ref.blk ∧ i = ref.idx
    · obtain ⟨rfl, rfl⟩ := hb
      have hold := h.cached ref.blk ref.idx hi x hx
      rw [hdev, htag] at hold ⊢
      have hoff : pageStart (ref.lba / 512) ref.blk + x - 512 * ref.lba = x - ref.start := by omega
      have hle : 512 * ref.lba ≤ pageStart (ref.lba / 512) ref.blk + x ↔
        ref.start ≤ x := by omega
      simp only [Cache.modify, Cache.set_pool, if_true, Function.update_self, writeSector]
      by_cases hin : ref.start ≤ x ∧ x - ref.start < defaultSectorSize
      · have hin' : True ∧ defaultSectorSize * ref.lba ≤
            pageStart (ref.lba / 512) ref.blk + x ∧ pageStart (ref.lba / 512) ref.blk + x -
              defaultSectorSize * ref.lba < defaultSectorSize := by
          refine ⟨trivial, hle.mpr hin.1, ?_⟩
          show pageStart (ref.lba / 512) ref.blk + x - 512 * ref.lba < _
          rw [hoff]
          exact hin.2
        rw [dif_pos hin, dif_pos hin']
        exact congrArg bytes (Fin.ext hoff.symm)
      · rw [dif_neg hin, dif_neg, hold]
        rintro ⟨-, hl, hu⟩
        refine hin ⟨hle.mp hl, ?_⟩
        rw [← hoff]
        exact hu
    · rw [hother]
      · rw [← h.cached b i hi x hx]
        simp only [Cache.modify, Cache.set_pool]
        split
        · rename_i hbb
          subst hbb
          have hii : i ≠ ref.idx := fun hii => hb ⟨rfl, hii⟩
          simp [hii]
        · rfl
      · exact hx
      · rintro ⟨hdi, hti, rfl⟩
        exact hb ⟨rfl, h.uniq ref.blk i ref.idx hi hvalid (hdi.trans hdev.symm)
          (hti.trans htag.symm)⟩
  · intro d b tag hclean x hx
    simp only [hd, ht] at hclean
    have hne : ¬(d = ref.dev ∧ tag = ref.lba / 512 ∧ b = ref.blk) := by
      rintro ⟨rfl, rfl, rfl⟩
      have := hclean ref.idx hdev htag
      rw [(hdirty _ _).mpr (Or.inl ⟨rfl, rfl⟩)] at this
      cases this
    refine Eq.trans (h.clean d b tag (fun i hdi hti => ?_) x hx) (hother d tag b x hx hne).symm
    have := hclean i hdi hti
    rw [← Bool.not_eq_true, hdirty, not_or] at this
    simpa using this.2
  · intro b i
    obtain ⟨_, _, he⟩ := hpool b
    simp only [he]
    exact h.count b i
  · simpa only [hv, hd, ht] using h.held
  · intro b i hi
    simp only [hv, hd, ht] at hi ⊢
    exact h.source b i hi

/-- What the read of another page into the buffer `i` leaves behind. -/
structure Refilled (c t : Cache) (blk : Fin blockPerPool) (i : Fin maxBufferPerBlock) (dev : Int)
    (tag lba : Nat) : Prop where
  other : ∀ b, b ≠ blk → t.pool b = c.pool b
  links : (t.pool blk).next = (c.pool blk).next ∧ (t.pool blk).prev = (c.pool blk).prev
  valid : (t.pool blk).validMap = Function.update (c.pool blk).validMap i true
  dirty : (t.pool blk).dirtyMap = Function.update (c.pool blk).dirtyMap i false
  own : (t.pool blk).diskOwnMap = Function.update (c.pool blk).diskOwnMap i false
  device : (t.pool blk).device = Function.update (c.pool blk).device i dev
  tagNumber : (t.pool blk).tagNumber = Function.update (c.pool blk).tagNumber i tag
  refCnt : (t.pool blk).refCnt = Function.update (c.pool blk).refCnt i 1
  dataOther : ∀ j, j ≠ i → (t.pool blk).data j = (c.pool blk).data j
  dataSelf : ∀ x < 4096, (t.pool blk).data i x = c.disk dev (512 * lba + x)
  disk : t.disk = c.disk
  ops : t.ops = .read dev lba blk i :: c.ops

theorem assign_fill (c : Cache) (blk : Fin blockPerPool) (i : Fin maxBufferPerBlock) (dev : Int)
    (tag lba : Nat) (hdirty : (c.pool blk).dirtyMap i = false) :
    Refilled c ((c.assign blk i dev tag).fill blk i dev lba) blk i dev tag lba := by
  have hvalid : ((c.assign blk i dev tag).pool blk).validMap i = false := by
    simp [Cache.assign]
  unfold Cache.fill
  rw [if_neg (by simp [hvalid])]
  refine ⟨?_, ?_, ?_, ?_, ?_, ?_, ?_, ?_, ?_, ?_, rfl, rfl⟩
  · intro b hb
    simp [Cache.readBlocks, Cache.assign, hb]
  · simp [Cache.readBlocks, Cache.assign]
  · simp [Cache.readBlocks, Cache.assign]
  · simp [Cache.readBlocks, Cache.assign, ← hdirty]
  · simp [Cache.readBlocks, Cache.assign]
  · simp [Cache.readBlocks, Cache.assign]
  · simp [Cache.readBlocks, Cache.assign]
  · simp [Cache.readBlocks, Cache.assign]
  · intro j hj
    simp [Cache.readBlocks, Cache.assign, hj]
  · intro x hx
    simp [Cache.readBlocks, Cache.assign, Cache.set, hx, defaultBufferSize, defaultSectorSize]

/-- What a write-back does to the buffers. -/
theorem writeBack_pool (c : Cache) (blk b : Fin blockPerPool) (i : Fin maxBufferPerBlock) :
    ∃ own, (∀ j, (c.pool b).diskOwnMap j = false → own j = false) ∧
      (c.writeBack blk i).pool b =
      { c.pool b with
        dirtyMap := fun j => if b = blk ∧ j = i then false else (c.pool b).dirtyMap j
        diskOwnMap := own } := by
  unfold Cache.writeBack
  split
  · by_cases hb : b = blk
    · subst hb
      refine ⟨Function.update (c.pool b).diskOwnMap i false, fun j hj => ?_, ?_⟩
      · rw [Function.update_apply]
        split
        · rfl
        · exact hj
      · have hdirty : (fun j => if b = b ∧ j = i then false else (c.pool b).dirtyMap j) =
            Function.update (c.pool b).dirtyMap i false := by
          funext j
          simp [Function.update_apply]
        rw [hdirty]
        simp [Cache.writeBlocks]
    · refine ⟨(c.pool b).diskOwnMap, fun _ h => h, ?_⟩
      simp [Cache.writeBlocks, hb]
  · rename_i hclean
    refine ⟨(c.pool b).diskOwnMap, fun _ h => h, ?_⟩
    have hdirty : (fun j => if b = blk ∧ j = i then false else (c.pool b).dirtyMap j) =
        (c.pool b).dirtyMap := by
      funext j
      split
      · rename_i hj
        rw [hj.1, hj.2]
        simpa using hclean
      · rfl
    rw [hdirty]

/-- What the write-back of a dirty buffer does to the devices. -/
theorem writeBack_disk {c : Cache} {blk : Fin blockPerPool} {i : Fin maxBufferPerBlock}
    (hdirty : (c.pool blk).dirtyMap i = true) : (c.writeBack blk i).disk =
      (c.writeBlocks ((c.pool blk).device i) (lbaFromTagBlkOff ((c.pool blk).tagNumber i) blk 0)
        blk i).disk := by
  unfold Cache.writeBack
  rw [if_pos hdirty]
  simp [Cache.writeBlocks, Cache.set]

/-- A write-back keeps the invariant: the page of a dirty buffer goes to where it was read from. -/
theorem writeBack (h : CacheInv r) (blk : Fin blockPerPool) (i : Fin maxBufferPerBlock) :
    CacheInv ⟨r.cache.writeBack blk i, r.logical, r.refs⟩ := by
  cases hdirty : (r.cache.pool blk).dirtyMap i with
  | false =>
    have hwb : r.cache.writeBack blk i = r.cache := by
      unfold Cache.writeBack
      exact if_neg (by simp [hdirty])
    rw [hwb]
    exact h
  | true =>
    have hv := h.dirty_valid blk i hdirty
    set w := lbaFromTagBlkOff ((r.cache.pool blk).tagNumber i) blk 0 with hwdef
    have hw : w = 8 * (64 * (r.cache.pool blk).tagNumber i + blk) :=
      lbaFromTagBlkOff_eq (h.tag_lt blk i hv) blk.isLt
    have hstart : defaultSectorSize * w = pageStart ((r.cache.pool blk).tagNumber i) blk := by
      rw [hw]
      simp only [defaultSectorSize, pageStart]
      omega
    have hdisk : (r.cache.writeBack blk i).disk =
        (r.cache.writeBlocks ((r.cache.pool blk).device i) w blk i).disk := writeBack_disk hdirty
    have hops : (r.cache.writeBack blk i).ops =
        .write ((r.cache.pool blk).device i) w blk i :: r.cache.ops := by
      unfold Cache.writeBack
      rw [if_pos hdirty]
      simp [Cache.writeBlocks, Cache.set, hwdef]
    -- Only the dirty bit of the buffer changes.
    have hsame : ∀ b, ((r.cache.writeBack blk i).pool b).validMap = (r.cache.pool b).validMap ∧
        ((r.cache.writeBack blk i).pool b).device = (r.cache.pool b).device ∧
        ((r.cache.writeBack blk i).pool b).tagNumber = (r.cache.pool b).tagNumber ∧
        ((r.cache.writeBack blk i).pool b).refCnt = (r.cache.pool b).refCnt ∧
        ((r.cache.writeBack blk i).pool b).data = (r.cache.pool b).data ∧
        (∀ j, ((r.cache.writeBack blk i).pool b).diskOwnMap j = false) ∧
        (∀ j, ((r.cache.writeBack blk i).pool b).dirtyMap j =
          if b = blk ∧ j = i then false else (r.cache.pool b).dirtyMap j) ∧
        ∃ l, ((r.cache.writeBack blk i).pool b).Order l := by
      intro b
      obtain ⟨own, hown, hpool⟩ := writeBack_pool r.cache blk b i
      obtain ⟨l, hl⟩ := h.order b
      rw [hpool]
      exact ⟨rfl, rfl, rfl, rfl, rfl, fun j => hown j (h.own b j), fun _ => rfl, l, hl⟩
    refine ⟨fun b => (hsame b).2.2.2.2.2.2.2, fun b => (hsame b).2.2.2.2.2.1, ?_, ?_, ?_,
      fun b j hj => ?_, ?_,
      fun d b tag hclean x hx => ?_, ?_, ?_, fun b j hj => ?_, fun post d l b j pre hpre => ?_⟩
    · simpa only [hsame] using h.valid_or
    · simpa only [hsame] using h.tag_lt
    · simpa only [hsame] using h.uniq
    · simp only [hsame] at hj ⊢
      split at hj
      · cases hj
      · exact h.dirty_valid b j hj
    · simpa only [hsame] using h.cached
    · simp only [hsame] at hclean
      simp only [hdisk, Cache.writeBlocks, hstart]
      split
      · -- The page that is written back.
        rename_i hin
        obtain ⟨rfl, hl, hu⟩ := hin
        obtain ⟨rfl, rfl, hxx⟩ := pageStart_inj (y := pageStart tag b + x -
          pageStart ((r.cache.pool blk).tagNumber i) blk) hx
          (by simp only [defaultBufferSize] at hu; omega)
          (show pageStart tag b + x = pageStart ((r.cache.pool blk).tagNumber i) blk + _ by omega)
        rw [← hxx]
        exact h.cached _ i hv x hx
      · rename_i hout
        refine h.clean d b tag (fun j hdj htj => ?_) x hx
        by_cases hj : b = blk ∧ j = i
        · obtain ⟨rfl, rfl⟩ := hj
          refine absurd ⟨hdj.symm, ?_⟩ hout
          rw [htj]
          simp only [defaultBufferSize]
          omega
        · have := hclean j hdj htj
          rwa [if_neg hj] at this
    · simpa only [hsame] using h.count
    · simpa only [hsame] using h.held
    · simp only [hsame] at hj ⊢
      simp only [hops, lastRead]
      exact h.source b j hj
    · simp only [hops] at hpre
      cases post with
      | nil =>
        cases hpre
        rw [h.source blk i hv, hw]
      | cons op post => exact h.writes post d l b j pre (List.cons.inj hpre).2

/-- The invariant after a miss. -/
theorem refill (h : CacheInv r) {t : Cache} {blk : Fin blockPerPool} {i : Fin maxBufferPerBlock}
    {dev : Int} {lba : Nat} (hlba : lba < 2 ^ 41) (hblk : blk.val = lba / 8 % 64)
    (R : Refilled r.cache t blk i dev (lba / 512) (lba / 8 * 8))
    (hmiss : ∀ j, ¬((r.cache.pool blk).device j = dev ∧
      (r.cache.pool blk).tagNumber j = lba / 512))
    (hfree : (r.cache.pool blk).refCnt i = 0) (hdirty : (r.cache.pool blk).dirtyMap i = false) :
    CacheInv ⟨t, r.logical, ⟨⟨blk, i, 512 * (lba % 8)⟩, dev, lba⟩ :: r.refs⟩ := by
  -- A buffer of the new state is the one that was refilled, or as before.
  have hcase : ∀ b j, b = blk ∧ j = i ∨ ¬(b = blk ∧ j = i) ∧
      (t.pool b).validMap j = (r.cache.pool b).validMap j ∧
      (t.pool b).dirtyMap j = (r.cache.pool b).dirtyMap j ∧
      (t.pool b).diskOwnMap j = (r.cache.pool b).diskOwnMap j ∧
      (t.pool b).device j = (r.cache.pool b).device j ∧
      (t.pool b).tagNumber j = (r.cache.pool b).tagNumber j ∧
      (t.pool b).refCnt j = (r.cache.pool b).refCnt j ∧
      (t.pool b).data j = (r.cache.pool b).data j := by
    intro b j
    by_cases hb : b = blk
    · subst hb
      by_cases hj : j = i
      · exact Or.inl ⟨rfl, hj⟩
      · refine Or.inr ⟨fun hc => hj hc.2, ?_⟩
        rw [R.valid, R.dirty, R.own, R.device, R.tagNumber, R.refCnt, R.dataOther j hj]
        simp [hj]
    · refine Or.inr ⟨fun hc => hb hc.1, ?_⟩
      rw [R.other b hb]
      simp
  have hself : (t.pool blk).validMap i = true ∧ (t.pool blk).dirtyMap i = false ∧
      (t.pool blk).diskOwnMap i = false ∧ (t.pool blk).device i = dev ∧
      (t.pool blk).tagNumber i = lba / 512 ∧ (t.pool blk).refCnt i = 1 := by
    rw [R.valid, R.dirty, R.own, R.device, R.tagNumber, R.refCnt]
    simp
  obtain ⟨hv, hd, ho, hdev, ht, href⟩ := hself
  have hpage : lba / 8 * 8 = 8 * (64 * (lba / 512) + blk) := by omega
  have hnone : ∀ ref ∈ r.refs, ¬(ref.blk = blk ∧ ref.idx = i) := by
    have hzero := h.count blk i
    rw [hfree] at hzero
    have hzero' : r.refs.countP (fun ref => decide (ref.blk = blk ∧ ref.idx = i)) = 0 := by omega
    intro ref hmem hc
    exact List.countP_eq_zero.mp hzero' ref hmem (decide_eq_true hc)
  have hnew : ∀ j, j ≠ i → ¬((t.pool blk).device j = dev ∧
      (t.pool blk).tagNumber j = lba / 512) := by
    intro j hj
    rcases hcase blk j with ⟨-, hc⟩ | ⟨-, -, -, -, h4, h5, -⟩
    · exact absurd hc hj
    · rw [h4, h5]
      exact hmiss j
  refine ⟨?_, ?_, ?_, ?_, ?_, ?_, ?_, ?_, ?_, ?_, ?_, ?_⟩
  · intro b
    obtain ⟨l, hl⟩ := h.order b
    refine ⟨l, hl.1, ?_⟩
    by_cases hb : b = blk
    · subst hb
      rw [R.links.1, R.links.2]
      exact hl.2
    · simp only [R.other b hb]
      exact hl.2
  · intro b j
    rcases hcase b j with ⟨rfl, rfl⟩ | ⟨-, -, -, h3, -⟩
    · exact ho
    · exact h3.trans (h.own b j)
  · intro b j
    rcases hcase b j with ⟨rfl, rfl⟩ | ⟨-, h1, -, -, -, h5, -⟩
    · exact Or.inl hv
    · simp only [h1, h5]
      exact h.valid_or b j
  · intro b j hj
    rcases hcase b j with ⟨rfl, rfl⟩ | ⟨-, h1, -, -, -, h5, -⟩
    · simp only [ht]
      omega
    · simp only [h1, h5] at hj ⊢
      exact h.tag_lt b j hj
  · intro b j k hj hk hdjk htjk
    simp only at hj hk hdjk htjk
    by_cases hb : b = blk
    · subst hb
      by_cases hji : j = i
      · by_cases hki : k = i
        · rw [hji, hki]
        · subst hji
          rw [hdev] at hdjk
          rw [ht] at htjk
          exact absurd ⟨hdjk.symm, htjk.symm⟩ (hnew k hki)
      · by_cases hki : k = i
        · subst hki
          rw [hdev] at hdjk
          rw [ht] at htjk
          exact absurd ⟨hdjk, htjk⟩ (hnew j hji)
        · rcases hcase b j with ⟨-, hc⟩ | ⟨-, h1, -, -, h4, h5, -⟩
          · exact absurd hc hji
          rcases hcase b k with ⟨-, hc⟩ | ⟨-, g1, -, -, g4, g5, -⟩
          · exact absurd hc hki
          rw [h1] at hj
          rw [g1] at hk
          rw [h4, g4] at hdjk
          rw [h5, g5] at htjk
          exact h.uniq b j k hj hk hdjk htjk
    · rw [R.other b hb] at hj hk hdjk htjk
      exact h.uniq b j k hj hk hdjk htjk
  · intro b j hj
    rcases hcase b j with ⟨rfl, rfl⟩ | ⟨-, h1, h2, -⟩
    · exact hv
    · simp only [h1, h2] at hj ⊢
      exact h.dirty_valid b j hj
  · intro b j hj x hx
    rcases hcase b j with ⟨rfl, rfl⟩ | ⟨-, h1, -, -, h4, h5, -, h7⟩
    · simp only [hdev, ht, R.dataSelf x hx]
      have haddr : 512 * (lba / 8 * 8) + x = pageStart (lba / 512) b + x := by
        simp only [pageStart]
        omega
      rw [haddr]
      exact h.clean dev b (lba / 512) (fun k hdk htk => absurd ⟨hdk, htk⟩ (hmiss k)) x hx
    · simp only [h1, h4, h5, h7] at hj ⊢
      exact h.cached b j hj x hx
  · intro d b tag hclean x hx
    simp only [R.disk]
    refine h.clean d b tag (fun j hdj htj => ?_) x hx
    rcases hcase b j with ⟨rfl, rfl⟩ | ⟨-, -, h2, -, h4, h5, -⟩
    · exact hdirty
    · rw [← h2]
      exact hclean j (h4.trans hdj) (h5.trans htj)
  · intro b j
    rw [h.count_cons]
    simp only
    rcases hcase b j with ⟨rfl, rfl⟩ | ⟨hne, -, -, -, -, -, h6, -⟩
    · rw [if_pos ⟨rfl, rfl⟩, hfree, href]
      rfl
    · rw [if_neg hne, h6]
  · intro ref hmem
    rcases List.mem_cons.mp hmem with rfl | hmem
    · exact ⟨hlba, hblk, rfl, hv, hdev, ht⟩
    · rcases hcase ref.blk ref.idx with hc | ⟨-, h1, -, -, h4, h5, -⟩
      · exact absurd hc (hnone ref hmem)
      · simp only [h1, h4, h5]
        exact h.held ref hmem
  · intro b j hj
    simp only [R.ops, lastRead]
    rcases hcase b j with ⟨rfl, rfl⟩ | ⟨hne, h1, -, -, h4, h5, -⟩
    · rw [if_pos ⟨rfl, rfl⟩, hdev, ht, hpage]
    · simp only [h1, h4, h5] at hj ⊢
      rw [if_neg fun hc => hne ⟨hc.1.symm, hc.2.symm⟩]
      exact h.source b j hj
  · intro post d l b j pre hops
    simp only [R.ops] at hops
    cases post with
    | nil => cases hops
    | cons op post => exact h.writes post d l b j pre (List.cons.inj hops).2

/-- A buffer for a sector below `2 ^ 41` has been read. -/
theorem valid_of_tag (h : CacheInv r) {blk : Fin blockPerPool} {i : Fin maxBufferPerBlock}
    {lba : Nat} (hlba : lba < 2 ^ 41) (htag : (r.cache.pool blk).tagNumber i = lba / 512) :
    (r.cache.pool blk).validMap i = true := by
  refine (h.valid_or blk i).resolve_right ?_
  rw [htag]
  omega

/-- One more reference to the buffer of a sector. -/
theorem share (h : CacheInv r) {blk : Fin blockPerPool} {i : Fin maxBufferPerBlock} {dev : Int}
    {lba : Nat} (hlba : lba < 2 ^ 41) (hblk : blk.val = lba / 8 % 64)
    (hdev : (r.cache.pool blk).device i = dev)
    (htag : (r.cache.pool blk).tagNumber i = lba / 512) :
    CacheInv ⟨r.cache.set blk fun b =>
      { b with refCnt := Function.update b.refCnt i (b.refCnt i + 1) }, r.logical,
      ⟨⟨blk, i, 512 * (lba % 8)⟩, dev, lba⟩ :: r.refs⟩ := by
  refine h.recount (z := 1)
    (fun b j => h.count_cons ⟨⟨blk, i, 512 * (lba % 8)⟩, dev, lba⟩ b j) ?_
  intro q hq
  rcases List.mem_cons.mp hq with rfl | hq
  · exact Or.inr ⟨hlba, hblk, rfl, h.valid_of_tag hlba htag, hdev, htag⟩
  · exact Or.inl hq

/-- A hit takes one more reference to the buffer. -/
theorem hit (h : CacheInv r) {blk : Fin blockPerPool} {i : Fin maxBufferPerBlock} {dev : Int}
    {lba : Nat} (hlba : lba < 2 ^ 41) (hblk : blk.val = lba / 8 % 64)
    (hdev : (r.cache.pool blk).device i = dev)
    (htag : (r.cache.pool blk).tagNumber i = lba / 512) :
    ∃ c, ((r.cache.set blk fun b =>
        { b with refCnt := Function.update b.refCnt i (b.refCnt i + 1) }).fill blk i dev
          (lba / 8 * 8)) = c ∧
      CacheInv ⟨c, r.logical, ⟨⟨blk, i, 512 * (lba % 8)⟩, dev, lba⟩ :: r.refs⟩ ∧
      ∀ b j, (c.pool b).device j = (r.cache.pool b).device j ∧
        (c.pool b).tagNumber j = (r.cache.pool b).tagNumber j := by
  have hfill : (r.cache.set blk fun b =>
      { b with refCnt := Function.update b.refCnt i (b.refCnt i + 1) }).fill blk i dev
        (lba / 8 * 8) = r.cache.set blk fun b =>
      { b with refCnt := Function.update b.refCnt i (b.refCnt i + 1) } := by
    unfold Cache.fill
    exact if_pos (by simpa using h.valid_of_tag hlba htag)
  refine ⟨_, hfill, h.share hlba hblk hdev htag, ?_⟩
  intro b j
  rw [Cache.set_pool]
  split
  · rename_i hb
    rw [hb]
    exact ⟨rfl, rfl⟩
  · exact ⟨rfl, rfl⟩

/-- A miss evicts a buffer without a reference, which is written back if it is dirty. -/
theorem miss (h : CacheInv r) {blk : Fin blockPerPool} {i : Fin maxBufferPerBlock} {dev : Int}
    {lba : Nat} (hlba : lba < 2 ^ 41) (hblk : blk.val = lba / 8 % 64)
    (hmiss : ∀ j, ¬((r.cache.pool blk).device j = dev ∧
      (r.cache.pool blk).tagNumber j = lba / 512))
    (hfree : (r.cache.pool blk).refCnt i = 0) :
    ∃ c, (((r.cache.writeBack blk i).assign blk i dev (lba / 512)).fill blk i dev
        (lba / 8 * 8)) = c ∧
      CacheInv ⟨c, r.logical, ⟨⟨blk, i, 512 * (lba % 8)⟩, dev, lba⟩ :: r.refs⟩ ∧
      ∀ b j, ¬(b = blk ∧ j = i) → (c.pool b).device j = (r.cache.pool b).device j ∧
        (c.pool b).tagNumber j = (r.cache.pool b).tagNumber j := by
  obtain ⟨_, -, hpool⟩ := writeBack_pool r.cache blk blk i
  have hsame : ∀ b, ((r.cache.writeBack blk i).pool b).device = (r.cache.pool b).device ∧
      ((r.cache.writeBack blk i).pool b).tagNumber = (r.cache.pool b).tagNumber := by
    intro b
    obtain ⟨_, -, hb⟩ := writeBack_pool r.cache blk b i
    rw [hb]
    exact ⟨rfl, rfl⟩
  have hclean : ((r.cache.writeBack blk i).pool blk).dirtyMap i = false := by
    rw [hpool]
    exact if_pos ⟨rfl, rfl⟩
  have R := assign_fill (r.cache.writeBack blk i) blk i dev (lba / 512) (lba / 8 * 8) hclean
  refine ⟨_, rfl, (h.writeBack blk i).refill hlba hblk R (fun j => ?_)
    (by rw [hpool]; exact hfree) hclean,
    fun b j hne => ?_⟩
  · simp only [hsame]
    exact hmiss j
  · rw [← (hsame b).1, ← (hsame b).2]
    by_cases hb : b = blk
    · subst hb
      have hj : j ≠ i := fun hj => hne ⟨rfl, hj⟩
      rw [R.device, R.tagNumber]
      simp [hj]
    · rw [R.other b hb]
      exact ⟨rfl, rfl⟩

theorem read (h : CacheInv r) {dev : Int} {lba : Nat} (hdev : isBlock dev = true)
    (hlba : lba < 2 ^ 41)
    (hfree : ∃ i, (r.cache.pool ⟨blkNumFromLba lba, blkNumFromLba_lt lba⟩).refCnt i = 0) :
    ∃ buf c, r.cache.readSync isBlock dev lba = .ok (some buf, c) ∧
      CacheInv ⟨c, r.logical, ⟨buf, dev, lba⟩ :: r.refs⟩ ∧
      ∀ b j, 0 < (r.cache.pool b).refCnt j → (c.pool b).device j = (r.cache.pool b).device j ∧
        (c.pool b).tagNumber j = (r.cache.pool b).tagNumber j := by
  set blk : Fin blockPerPool := ⟨blkNumFromLba lba, blkNumFromLba_lt lba⟩ with hb
  have hblk : blk.val = lba / 8 % 64 := blkNumFromLba_eq lba
  obtain ⟨l, hl⟩ := h.order blk
  unfold Cache.readSync Cache.findBuffer
  rw [if_pos hdev]
  simp only [← hb, tagNumFromLba_eq hlba, hl.searchBuffer, hl.allocBuffer, ok_bind,
    lbaBlkAlign_eq hlba, offsetFromLba_eq, defaultSectorSize]
  cases hfind : l.find? fun i => (r.cache.pool blk).device i = dev ∧
      (r.cache.pool blk).tagNumber i = lba / 512 with
  | some i =>
    have hi := List.find?_some hfind
    simp only [decide_eq_true_eq] at hi
    obtain ⟨c, hc, hinv, hsame⟩ := h.hit hlba hblk hi.1 hi.2
    simp only [kassert_pos (h.own blk i), ok_bind]
    exact ⟨⟨blk, i, 512 * (lba % 8)⟩, c, by rw [← hc]; rfl, hinv, fun b j _ => hsame b j⟩
  | none =>
    have hmiss : ∀ j, ¬((r.cache.pool blk).device j = dev ∧
        (r.cache.pool blk).tagNumber j = lba / 512) := by
      intro j
      simpa using List.find?_eq_none.mp hfind j (hl.mem j)
    obtain ⟨k, hk⟩ := hfree
    cases halloc : l.reverse.find? fun i => (r.cache.pool blk).refCnt i = 0 with
    | none =>
      have := List.find?_eq_none.mp halloc k (List.mem_reverse.mpr (hl.mem k))
      simp [hk] at this
    | some i =>
      have hi := List.find?_some halloc
      simp only [decide_eq_true_eq] at hi
      obtain ⟨c, hc, hinv, hsame⟩ := h.miss hlba hblk hmiss hi
      refine ⟨⟨blk, i, 512 * (lba % 8)⟩, c, by rw [← hc]; rfl, hinv, fun b j hpos => ?_⟩
      refine hsame b j ?_
      rintro ⟨rfl, rfl⟩
      omega

theorem step (h : CacheInv r) (hs : CacheStep isBlock r r') : CacheInv r' ∧
    ∀ b j, 0 < (r.cache.pool b).refCnt j →
      (r'.cache.pool b).device j = (r.cache.pool b).device j ∧
      (r'.cache.pool b).tagNumber j = (r.cache.pool b).tagNumber j := by
  -- A call other than a read changes no tag.
  have hset : ∀ {c : Cache} {blk : Fin blockPerPool} {f : BufferBlock → BufferBlock},
      c = r.cache.set blk f → (∀ b, (f b).device = b.device ∧
        (f b).tagNumber = b.tagNumber) →
      ∀ b j, 0 < (r.cache.pool b).refCnt j → (c.pool b).device j = (r.cache.pool b).device j ∧
        (c.pool b).tagNumber j = (r.cache.pool b).tagNumber j := by
    intro c blk f hc hf b j _
    rw [hc, Cache.set_pool]
    split
    · rename_i hb
      rw [hb, (hf _).1, (hf _).2]
      exact ⟨rfl, rfl⟩
    · exact ⟨rfl, rfl⟩
  cases hs with
  | read hdev hlba hfree hrun =>
    obtain ⟨buf, c, hrun', hinv, hsame⟩ := h.read hdev hlba hfree
    rw [hrun] at hrun'
    cases hrun'
    exact ⟨hinv, hsame⟩
  | modify bytes href =>
    exact ⟨h.modify href bytes, hset (Cache.modify.eq_1 ..) fun _ => ⟨rfl, rfl⟩⟩
  | pin href => exact ⟨h.pin href, hset (Cache.pinBuffer.eq_1 ..) fun _ => ⟨rfl, rfl⟩⟩
  | unpin href => exact ⟨h.unpin href, hset (Cache.unpinBuffer.eq_1 ..) fun _ => ⟨rfl, rfl⟩⟩
  | release href =>
    refine ⟨h.release href, hset (Cache.releaseBufferSync.eq_1 ..) fun b => ?_⟩
    simp only
    split
    · exact ⟨rfl, rfl⟩
    · exact ⟨rfl, rfl⟩

theorem reach (h : CacheReach isBlock r) : CacheInv r := by
  induction h with
  | init data next prev disk => exact init data next prev disk
  | step _ hs ih => exact (ih.step hs).1

/-- A buffer that has just been read holds its sector. -/
theorem sector (h : CacheInv r) {ref : Ref} (href : ref ∈ r.refs) {j : Nat} (hj : j < 512) :
    (r.cache.pool ref.blk).data ref.idx (ref.start + j) =
      r.logical ref.dev (512 * ref.lba + j) := by
  obtain ⟨-, hblk, hstart, hvalid, hdev, htag⟩ := h.held ref href
  rw [h.cached ref.blk ref.idx hvalid _ (by omega), hdev, htag, sector_in_page hblk, hstart,
    Nat.add_assoc]

end CacheInv

/-- In every state of a run: a read of a sector gives its logical contents, the LRU list of each
block has each of its buffers once, no two valid buffers of a block stand for one page, no step
gives away a buffer with references, and every write-back went to the sectors that the buffer was
read from. -/
theorem cache_transparent {isBlock : Int → Bool} {r : CacheRun} (h : CacheReach isBlock r) :
    (∀ dev lba, isBlock dev = true → lba < 2 ^ 41 →
      (∃ i, (r.cache.pool ⟨blkNumFromLba lba, blkNumFromLba_lt lba⟩).refCnt i = 0) →
      ∃ buf c, r.cache.readSync isBlock dev lba = .ok (some buf, c) ∧
        ∀ j < 512, (c.pool buf.blk).data buf.idx (buf.start + j) =
        r.logical dev (512 * lba + j)) ∧
    (∀ blk, ∃ l, (r.cache.pool blk).Order l) ∧
    (∀ blk i j, (r.cache.pool blk).validMap i = true → (r.cache.pool blk).validMap j = true →
      (r.cache.pool blk).device i = (r.cache.pool blk).device j →
      (r.cache.pool blk).tagNumber i = (r.cache.pool blk).tagNumber j → i = j) ∧
    (∀ r', CacheStep isBlock r r' → ∀ blk i, 0 < (r.cache.pool blk).refCnt i →
      (r'.cache.pool blk).device i = (r.cache.pool blk).device i ∧
      (r'.cache.pool blk).tagNumber i = (r.cache.pool blk).tagNumber i) ∧
    (∀ post dev lba blk i pre, r.cache.ops = post ++ .write dev lba blk i :: pre →
      lastRead blk i pre = some (dev, lba)) := by
  have hinv := CacheInv.reach h
  refine ⟨?_, hinv.order, hinv.uniq, fun r' hs => (hinv.step hs).2, hinv.writes⟩
  intro dev lba hdev hlba hfree
  obtain ⟨buf, c, hrun, hnew, -⟩ := hinv.read hdev hlba hfree
  exact ⟨buf, c, hrun, fun j hj => hnew.sector List.mem_cons_self hj⟩

/-- A cache as it is set up: nobody has a reference. -/
theorem CacheReach.exists_idle (isBlock : Int → Bool) :
    ∃ r, CacheReach isBlock r ∧ r.refs = [] :=
  ⟨_, .init (fun _ _ _ => 0) (fun _ n => n) (fun _ n => n) fun _ _ => 7, rfl⟩

theorem CacheInv.idle {r : CacheRun} (h : CacheInv r) (hrefs : r.refs = []) (blk i) :
    (r.cache.pool blk).refCnt i = 0 := by
  rw [h.count, hrefs, List.countP_nil]
  rfl

/-- A byte of a sector that was filled with one value. -/
theorem writeSector_fill (disk : Int → Nat → UInt8) (dev : Int) (lba : Nat) (v : UInt8)
    {j : Nat} (hj : j < 512) : writeSector disk dev lba (fun _ => v) dev (512 * lba + j) = v := by
  unfold writeSector defaultSectorSize
  rw [dif_pos ⟨rfl, by omega, by omega⟩]

/-- Sector 9 of a device is read, filled with fives, and read again. -/
theorem cache_transparent_sample : ∃ r buf c, CacheReach (fun _ => true) r ∧
    r.cache.readSync (fun _ => true) 1 9 = .ok (some buf, c) ∧
    (c.pool buf.blk).data buf.idx (buf.start + 3) = 5 := by
  obtain ⟨r₀, h₀, hrefs⟩ := CacheReach.exists_idle (fun _ => true)
  have hzero := (CacheInv.reach h₀).idle hrefs ⟨blkNumFromLba 9, blkNumFromLba_lt 9⟩ 0
  obtain ⟨buf, c, hrun, -⟩ := (cache_transparent h₀).1 1 9 rfl (by omega) ⟨0, hzero⟩
  have h₁ := h₀.step (.read rfl (by omega) ⟨0, hzero⟩ hrun)
  have h₂ := h₁.step (.modify (fun _ => 5) List.mem_cons_self)
  have hfree : ∃ i, buf.idx ≠ i := by
    by_cases hi : buf.idx = 0
    · exact ⟨1, by rw [hi]; decide⟩
    · exact ⟨0, hi⟩
  obtain ⟨i, hi⟩ := hfree
  obtain ⟨buf', c', hrun', hdata⟩ := (cache_transparent h₂).1 1 9 rfl (by omega) ⟨i, by
    rw [(CacheInv.reach h₂).count]
    simp [hi, hrefs]⟩
  refine ⟨_, buf', c', h₂, hrun', ?_⟩
  rw [hdata 3 (by omega)]
  exact writeSector_fill r₀.logical 1 9 5 (show 3 < 512 by omega)

end OsKernel.Fs

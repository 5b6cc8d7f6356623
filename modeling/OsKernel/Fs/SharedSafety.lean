import OsKernel.Fs.SharedShadow

/-! Runs of a shared cache in which no process is disturbed. -/

namespace OsKernel.Fs

theorem refOf_eq (dev : Int) (lba : Nat) (idx : Fin maxBufferPerBlock) :
    refOf dev lba idx = ⟨⟨blkOf lba, idx, 512 * (lba % 8)⟩, dev, lba⟩ := by
  simp only [refOf, offsetFromLba_eq, defaultSectorSize]

@[simp] theorem Cache.set_disk (c : Cache) (blk : Fin blockPerPool)
    (f : BufferBlock → BufferBlock) : (c.set blk f).disk = c.disk := rfl

namespace Shadow

variable {α : Type} [Fintype α] {s s' : SharedCache α} {r : CacheRun} {p q : α}
  {blk : Fin blockPerPool} {idx : Fin maxBufferPerBlock} {dev : Int} {lba : Nat}

/-- A buffer that the disk does not own has no transfer. -/
theorem free_of_own (h : Shadow s r) (hown : (s.cache.pool blk).diskOwnMap idx = false) (p : α) :
    (s.phase p).buffer ≠ some (blk, idx) := by
  intro hb
  rw [(h.good p).owned hb] at hown
  cases hown

/-- The page of a buffer that is being read. -/
theorem filling_page (h : Shadow s r) (hf : Filling s.cache r.cache dev lba idx) {x : Nat}
    (hx : x < 4096) : s.cache.disk dev (512 * (lba / 8 * 8) + x) =
      (r.cache.pool (blkOf lba)).data idx x := by
  have haddr : 512 * (lba / 8 * 8) + x = pageStart (lba / 512) (blkOf lba) + x := by
    simp only [pageStart, blkOf_val]
    omega
  rw [h.inv.cached _ _ hf.valid x hx, hf.device, hf.tagNumber, haddr, ← h.disk]
  refine h.inv.clean dev _ _ (fun j hd ht => ?_) x hx
  -- A dirty buffer for the page would be this one.
  cases hdirty : (r.cache.pool (blkOf lba)).dirtyMap j with
  | false => rfl
  | true =>
    have hj := h.inv.uniq _ j idx (h.inv.dirty_valid _ j hdirty) hf.valid (hd.trans hf.device.symm)
      (ht.trans hf.tagNumber.symm)
    rw [hj, hf.clean'] at hdirty
    cases hdirty

theorem mem_refs (h : Shadow s r) {ref : Ref} (hmem : (p, ref) ∈ s.handed) : ref ∈ r.refs :=
  h.refs.mem_iff.mpr (List.mem_append_left _ (List.mem_map_of_mem hmem))

/-- A buffer that a process has got has no transfer. -/
theorem free_of_handed (h : Shadow s r) {ref : Ref} (hmem : (p, ref) ∈ s.handed) (q : α) :
    (s.phase q).buffer ≠ some (ref.blk, ref.idx) := by
  intro hb
  have hcount := h.inv.count ref.blk ref.idx
  rw [h.refs.countP_eq, SharedCache.refs, List.countP_append] at hcount
  have hpos : 0 < (s.handed.map Prod.snd).countP fun q =>
      decide (q.blk = ref.blk ∧ q.idx = ref.idx) :=
    List.countP_pos_iff.mpr ⟨ref, List.mem_map_of_mem hmem, by simp⟩
  rcases (h.good q).refCnt hb with hzero | ⟨hone, ref', href', hblk, hidx⟩
  · omega
  · have hpos' : 0 < (Finset.univ.toList.filterMap fun p => (s.phase p).ref).countP
        fun q => decide (q.blk = ref.blk ∧ q.idx = ref.idx) :=
      List.countP_pos_iff.mpr ⟨ref',
        List.mem_filterMap.mpr ⟨q, by simp, href'⟩, by simp [hblk, hidx]⟩
    omega

theorem order (h : Shadow s r) (blk : Fin blockPerPool) : ∃ l, (s.cache.pool blk).Order l := by
  obtain ⟨l, hl⟩ := h.inv.order blk
  refine ⟨l, hl.1, ?_⟩
  rw [← (h.links blk).1, ← (h.links blk).2]
  exact hl.2

/-- A dirty buffer of the other cache is dirty in the shared one. -/
theorem dirty (h : Shadow s r) {b : Fin blockPerPool} {i : Fin maxBufferPerBlock}
    (hdirty : (r.cache.pool b).dirtyMap i = true) : (s.cache.pool b).dirtyMap i = true ∧
      ∀ x < 4096, (s.cache.pool b).data i x = (r.cache.pool b).data i x := by
  by_cases hfree : ∀ p, (s.phase p).buffer ≠ some (b, i)
  · have hsame := h.settled b i hfree
    exact ⟨hsame.dirty.trans hdirty, hsame.data⟩
  · obtain ⟨p, hp⟩ := not_forall_not.mp hfree
    exact (h.good p).dirty hp hdirty

theorem start (data : Fin blockPerPool → Fin maxBufferPerBlock → Nat → UInt8)
    (next prev : Fin blockPerPool → Node → Node) (disk : Int → Nat → UInt8) :
    Shadow (⟨Cache.init data next prev disk, fun _ => .idle, [], disk⟩ : SharedCache α)
      ⟨Cache.init data next prev disk, disk, []⟩ := by
  refine ⟨CacheInv.init data next prev disk, ⟨nofun, nofun⟩, rfl, ?_, rfl, .refl _,
    fun _ _ => ⟨rfl, rfl, rfl⟩,
    fun _ i _ => .refl _ i, fun _ => trivial⟩
  simp [SharedCache.refs, GetPhase.ref]

/-- A process writes to a buffer that it has. -/
theorem modify (h : Shadow s r) {ref : Ref} (bytes : Fin defaultSectorSize → UInt8)
    (hmem : (p, ref) ∈ s.handed) : Shadow { s with
      cache := s.cache.modify ref.toBuffer bytes
      logical := writeSector s.logical ref.dev ref.lba bytes }
      ⟨r.cache.modify ref.toBuffer bytes, writeSector r.logical ref.dev ref.lba bytes,
        r.refs⟩ := by
  have hsame := h.settled _ _ (h.free_of_handed hmem)
  refine h.move (h.inv.modify (h.mem_refs hmem) bytes) h.phases (by rw [h.logical]) h.refs h.disk
    (h.links.both (Cache.modify_links _ _ _) (Cache.modify_links _ _ _))
    (Cache.modify_same _ _ _ _ _)
    (Cache.modify_same _ _ _ _ _) ?_ (fun _ => ?_) fun q =>
    .inl ⟨rfl, h.free_of_handed hmem q, ?_⟩
  · simpa [Cache.modify] using h.fields ref.blk ref.idx
  · simp only [Cache.modify, Cache.set_pool, if_true]
    refine ⟨hsame.valid,
      by simp, hsame.own, hsame.device, hsame.tagNumber, hsame.refCnt, fun x hx => ?_⟩
    simp only [Function.update_self, hsame.data x hx]
  · simp only [Cache.modify, Cache.set_pool, if_true]
    exact (h.good q).pending_ne ref.blk ref.idx

/-- A process releases a buffer. -/
theorem release [DecidableEq α] (h : Shadow s r) {ref : Ref} (hmem : (p, ref) ∈ s.handed) :
    Shadow
      { s with
        cache := s.cache.releaseBufferSync ref.toBuffer
        handed := s.handed.erase (p, ref) }
      ⟨r.cache.releaseBufferSync ref.toBuffer, r.logical, r.refs.erase ref⟩ := by
  obtain ⟨hd, ht, href⟩ := h.fields ref.blk ref.idx
  have hsame := h.settled _ _ (h.free_of_handed hmem)
  obtain ⟨_, _, hpool⟩ := CacheInv.release_pool s.cache ref.toBuffer ref.blk
  obtain ⟨_, _, hpool'⟩ := CacheInv.release_pool r.cache ref.toBuffer ref.blk
  refine h.move (h.inv.release (h.mem_refs hmem)) h.phases h.logical ?_ h.disk
    (h.links.release ref.toBuffer href) (Cache.release_same _ _ _ _) (Cache.release_same _ _ _ _)
    ?_ (fun _ => ?_)
    fun q => .inl ⟨rfl, h.free_of_handed hmem q, ?_⟩
  · have hperm := ((List.perm_cons_erase hmem).map Prod.snd).append_right
      (Finset.univ.toList.filterMap fun p => (s.phase p).ref)
    have hrefs := (h.refs.trans hperm).erase ref
    rw [List.map_cons, List.cons_append, List.erase_cons_head] at hrefs
    exact hrefs
  · rw [hpool, hpool']
    simpa [Cache.unpinBuffer, href] using ⟨hd, ht⟩
  · rw [hpool, hpool']
    simp only [Cache.unpinBuffer, Cache.set_pool, if_true]
    exact ⟨hsame.valid, hsame.dirty, hsame.own, hsame.device,
      hsame.tagNumber, by simp [href], hsame.data⟩
  · rw [hpool']
    simp only [Cache.unpinBuffer, Cache.set_pool, if_true]
    exact (h.good q).pending_ne ref.blk ref.idx

variable [DecidableEq α]

/-- A process hits a buffer. -/
theorem hit (h : Shadow s r) (hlba : lba < 2 ^ 41) (hidle : s.phase p = .idle)
    (hdev : (s.cache.pool (blkOf lba)).device idx = dev)
    (htag : (s.cache.pool (blkOf lba)).tagNumber idx = lba / 512)
    (hown : (s.cache.pool (blkOf lba)).diskOwnMap idx = false) :
    ∃ r', Shadow (s.readOrHand p (s.cache.addRef (blkOf lba) idx) dev lba idx) r' := by
  obtain ⟨hd, ht, href⟩ := h.fields (blkOf lba) idx
  have hsame := h.settled _ _ (h.free_of_own hown)
  have hvalid := h.inv.valid_of_tag hlba (ht.trans htag)
  have hhand : s.readOrHand p (s.cache.addRef (blkOf lba) idx) dev lba idx =
      s.hand p (s.cache.addRef (blkOf lba) idx) dev lba idx := by
    unfold SharedCache.readOrHand
    refine if_pos ?_
    simpa [Cache.addRef] using hsame.valid.trans hvalid
  rw [hhand]
  refine ⟨⟨r.cache.addRef (blkOf lba) idx, r.logical, refOf dev lba idx :: r.refs⟩,
    h.movePhase (φ := .idle) ?_ rfl h.logical ?_ h.disk
    (h.links.both (Cache.addRef_links _ _ _) (Cache.addRef_links _ _ _))
    (Cache.addRef_same _ _ _) (Cache.addRef_same _ _ _) ?_ (fun _ => ?_) trivial nofun
    (by rw [hidle]; nofun)
    (fun q _ => h.free_of_own hown q) nofun fun q _ => ?_⟩
  · rw [refOf_eq]
    exact h.inv.share hlba (blkOf_val lba) (hd.trans hdev) (ht.trans htag)
  · have hphase : Function.update s.phase p .idle = s.phase := by
      rw [← hidle, Function.update_eq_self]
    unfold SharedCache.refs SharedCache.hand
    rw [hphase]
    exact h.refs.cons _
  · simp [SharedCache.hand, Cache.addRef, hd, ht, href]
  · simp only [SharedCache.hand, Cache.addRef, Cache.set_pool, if_true]
    exact ⟨hsame.valid, hsame.dirty, hsame.own, hsame.device,
      hsame.tagNumber, by simp [href], hsame.data⟩
  · simp only [Cache.addRef, Cache.set_pool, if_true]
    exact (h.good q).pending_ne (blkOf lba) idx

/-- A process evicts a dirty buffer. -/
theorem evict (h : Shadow s r) (hlba : lba < 2 ^ 41) (hidle : s.phase p = .idle)
    (hmiss : ∀ j, ¬((s.cache.pool (blkOf lba)).device j = dev ∧
      (s.cache.pool (blkOf lba)).tagNumber j = lba / 512))
    (hfree : (s.cache.pool (blkOf lba)).refCnt idx = 0)
    (hown : (s.cache.pool (blkOf lba)).diskOwnMap idx = false)
    (hdirty : (s.cache.pool (blkOf lba)).dirtyMap idx = true)
    (hpend : ∀ q, (s.phase q).pending ≠ some (blkOf lba, dev, tagNumFromLba lba % 2 ^ 32)) :
    Shadow (s.wait p (s.cache.setDiskOwn (blkOf lba) idx true) (.writing dev lba idx
      ((s.cache.pool (blkOf lba)).device idx)
      (lbaFromTagBlkOff ((s.cache.pool (blkOf lba)).tagNumber idx) (blkOf lba) 0))) r := by
  obtain ⟨hd, ht, href⟩ := h.fields (blkOf lba) idx
  have hsame := h.settled _ _ (h.free_of_own hown)
  refine h.movePhase h.inv rfl h.logical ?_ h.disk
    (h.links.both (Cache.setDiskOwn_links _ _ _ _) (.refl _))
    (Cache.setDiskOwn_same _ _ _ _) (.refl _ _ _) ?_ nofun ?_ (fun x hx => ?_)
    (by rw [hidle]; nofun)
    (fun q _ => h.free_of_own hown q) (fun q _ k hk => ?_) fun q _ => (h.good q).pending_ne _ _
  · rw [SharedCache.refs_wait _ (by rw [hidle]; rfl)]
    exact h.refs
  · simp [SharedCache.wait, Cache.setDiskOwn, hd, ht, href]
  · simp only [GetPhase.Good, SharedCache.wait, Cache.setDiskOwn, Cache.set_pool, if_true]
    refine ⟨⟨hlba, fun j hj => ?_, href.trans hfree, by simp⟩, hdirty,
      hsame.dirty.symm.trans hdirty, hsame.data, hd.symm, by rw [ht]⟩
    rw [(h.fields _ j).1, (h.fields _ j).2.1] at hj
    exact hmiss j hj
  · exact (Option.some.inj hx).symm
  · rw [← hk]
    exact hpend q

/-- A process takes a clean buffer for the page of its sector, where `c` is the cache with the
buffer clean. -/
theorem refill (h : Shadow s r) {c : Cache} (hlba : lba < 2 ^ 41)
    (hc : s.cache.SameBut c (blkOf lba) idx) (hlinks : s.cache.SameLinks c)
    (hdisk : c.disk = s.cache.disk)
    (hclean : (c.pool (blkOf lba)).dirtyMap idx = false)
    (hclean' : (r.cache.pool (blkOf lba)).dirtyMap idx = false)
    (hmiss : ∀ j, ¬((r.cache.pool (blkOf lba)).device j = dev ∧
      (r.cache.pool (blkOf lba)).tagNumber j = lba / 512))
    (hfree : (r.cache.pool (blkOf lba)).refCnt idx = 0) (href : (s.phase p).ref = none)
    (hp : ∀ x, (s.phase p).buffer = some x → x = (blkOf lba, idx))
    (hother : ∀ q, q ≠ p → (s.phase q).buffer ≠ some (blkOf lba, idx))
    (hpend : ∀ q, q ≠ p → (s.phase q).pending ≠
      some (blkOf lba, dev, tagNumFromLba lba % 2 ^ 32)) :
    ∃ r', Shadow (s.readOrHand p (c.assign (blkOf lba) idx dev (tagNumFromLba lba % 2 ^ 32))
      dev lba idx) r' := by
  have hwait : s.readOrHand p (c.assign (blkOf lba) idx dev (tagNumFromLba lba % 2 ^ 32))
      dev lba idx = s.wait p ((c.assign (blkOf lba) idx dev (lba / 512)).setDiskOwn (blkOf lba)
        idx true) (.reading dev lba idx) := by
    unfold SharedCache.readOrHand
    rw [tagNumFromLba_eq hlba]
    exact if_neg (by simp [Cache.assign])
  have R := CacheInv.assign_fill r.cache (blkOf lba) idx dev (lba / 512) (lba / 8 * 8) hclean'
  have hinv := h.inv.refill hlba (blkOf_val lba) R hmiss hfree hclean'
  rw [← refOf_eq] at hinv
  rw [hwait]
  refine ⟨_, h.movePhase hinv rfl h.logical ?_ ?_ ?_
    ((hc.trans (Cache.assign_same _ _ _ _ _)).trans
    (Cache.setDiskOwn_same _ _ _ _)) R.sameBut ?_ (fun hb => by cases hb)
    ?_ (fun x hx => (Option.some.inj hx).symm)
    hp hother (fun q hq k hk => by cases hk) fun q hq => ?_⟩
  · exact (h.refs.cons _).trans (SharedCache.refs_read _ href rfl).symm
  · exact R.disk.trans (h.disk.trans hdisk.symm)
  · exact h.links.both ((hlinks.trans (Cache.assign_links _ _ _ _ _)).trans
      (Cache.setDiskOwn_links _ _ _ _)) R.sameLinks
  · rw [R.device, R.tagNumber, R.refCnt]
    simp [SharedCache.wait, Cache.setDiskOwn, Cache.assign]
  · refine ⟨hlba, ?_, ?_, ?_, ?_, ?_, ?_, ?_⟩
    · simp [R.device]
    · simp [R.tagNumber]
    · simp [R.refCnt]
    · simp [SharedCache.wait, Cache.setDiskOwn]
    · simp [R.valid]
    · simpa [SharedCache.wait, Cache.setDiskOwn, Cache.assign] using hclean
    · simp [R.dirty]
  · rw [R.device, R.tagNumber, Function.update_self, Function.update_self,
      ← tagNumFromLba_eq hlba]
    exact hpend q hq

/-- The old page of a buffer is written. -/
theorem write (h : Shadow s r) {wdev : Int} {wlba : Nat}
    (hphase : s.phase p = .writing dev lba idx wdev wlba) :
    ∃ r', Shadow (s.wait p (s.cache.writeBlocks wdev wlba (blkOf lba) idx) (.written dev lba idx))
      r' := by
  have hgood := h.good p
  rw [hphase] at hgood
  obtain ⟨he, hdirty, hdirty', hdata, rfl, rfl⟩ := hgood
  obtain ⟨hd, ht, href⟩ := h.fields (blkOf lba) idx
  have hother : ∀ q, q ≠ p → (s.phase q).buffer ≠ some (blkOf lba, idx) := fun q hq hb =>
    hq (h.phases.apart q p _ hb (by rw [hphase]; rfl))
  obtain ⟨own, -, hpool⟩ := CacheInv.writeBack_pool r.cache (blkOf lba) (blkOf lba) idx
  refine ⟨_, h.movePhase (h.inv.writeBack (blkOf lba) idx) rfl h.logical ?_ ?_
    (h.links.both (.refl _) (Cache.writeBack_links _ _ _)) (fun b i _ => .refl _ i)
    (Cache.writeBack_same _ _ _ h.inv.own) ?_ nofun ?_ (fun x hx => (Option.some.inj hx).symm)
    ?_ hother
    (fun q hq k hk hk' => ?_) fun q _ => ?_⟩
  · rw [SharedCache.refs_wait _ (by rw [hphase]; rfl)]
    exact h.refs
  · rw [CacheInv.writeBack_disk hdirty']
    funext d x
    simp only [SharedCache.wait, Cache.writeBlocks, h.disk]
    split
    · rename_i hin
      exact (hdata _ (by simp only [defaultBufferSize] at hin; omega)).symm
    · rfl
  · rw [hpool]
    exact h.fields (blkOf lba) idx
  · refine ⟨⟨he.lba_lt, ?_, ?_, he.own⟩, ?_⟩
    · rw [hpool]
      exact he.miss
    · rw [hpool]
      exact he.free
    · rw [hpool]
      exact if_pos ⟨rfl, rfl⟩
  · rw [hphase]
    exact fun x hx => (Option.some.inj hx).symm
  · exact hq (h.phases.pending q p k hk' (by rw [hphase]; exact hk))
  · simp only [hpool]
    exact (h.good q).pending_ne _ _

/-- The lock is taken after a write-back. -/
theorem endWrite (h : Shadow s r) (hphase : s.phase p = .written dev lba idx) :
    ∃ r', Shadow (s.readOrHand p ((s.cache.endWrite (blkOf lba) idx).assign (blkOf lba) idx dev
      (tagNumFromLba lba % 2 ^ 32)) dev lba idx) r' := by
  have hgood := h.good p
  rw [hphase] at hgood
  obtain ⟨he, hclean⟩ := hgood
  refine h.refill he.lba_lt (Cache.endWrite_same _ _ _) (Cache.endWrite_links _ _ _)
    rfl (by simp [Cache.endWrite]) hclean he.miss he.free (by rw [hphase]; rfl)
      ?_ (fun q hq hb => ?_) fun q hq hk => ?_
  · rw [hphase]
    exact fun x hx => (Option.some.inj hx).symm
  · exact hq (h.phases.apart q p _ hb (by rw [hphase]; rfl))
  · exact hq (h.phases.pending q p _ hk (by rw [hphase]; rfl))

theorem read (h : Shadow s r) (hphase : s.phase p = .reading dev lba idx) :
    Shadow (s.wait p (s.cache.readBlocks dev (lbaBlkAlign lba) (blkOf lba) idx)
      (.readDone dev lba idx)) r := by
  have hf : Filling s.cache r.cache dev lba idx := by
    have hgood := h.good p
    rwa [hphase] at hgood
  refine h.movePhase h.inv rfl h.logical ?_ h.disk
    (h.links.both (Cache.readBlocks_links _ _ _ _ _) (.refl _)) (Cache.readBlocks_same _ _ _ _ _)
    (.refl _ _ _) ?_
    nofun ?_ (fun x hx => (Option.some.inj hx).symm) ?_ (fun q hq hb => ?_) nofun
    fun q _ => (h.good q).pending_ne _ _
  · rw [SharedCache.refs_wait _ (by rw [hphase]; rfl)]
    exact h.refs
  · simpa [SharedCache.wait, Cache.readBlocks] using h.fields (blkOf lba) idx
  · refine ⟨⟨hf.lba_lt, hf.device, hf.tagNumber, hf.refCnt, ?_, hf.valid, ?_, hf.clean'⟩,
      fun x hx => ?_⟩
    · simpa [SharedCache.wait, Cache.readBlocks] using hf.own
    · simpa [SharedCache.wait, Cache.readBlocks] using hf.clean
    · rw [← h.filling_page hf hx, ← lbaBlkAlign_eq hf.lba_lt]
      simp [SharedCache.wait, Cache.readBlocks, defaultBufferSize, defaultSectorSize, hx]
  · rw [hphase]
    exact fun x hx => (Option.some.inj hx).symm
  · exact hq (h.phases.apart q p _ hb (by rw [hphase]; rfl))

theorem endRead (h : Shadow s r) (hphase : s.phase p = .readDone dev lba idx) :
    Shadow (s.hand p (s.cache.endRead (blkOf lba) idx) dev lba idx) r := by
  have hgood := h.good p
  rw [hphase] at hgood
  obtain ⟨hf, hdata⟩ := hgood
  obtain ⟨hd, ht, href⟩ := h.fields (blkOf lba) idx
  refine h.movePhase h.inv rfl h.logical
    (h.refs.trans (SharedCache.refs_hand _ (by rw [hphase]; rfl))) h.disk
    (h.links.both (Cache.endRead_links _ _ _) (.refl _)) (Cache.endRead_same _ _ _)
    (.refl _ _ _) ?_ (fun _ => ?_)
    trivial nofun ?_ (fun q hq hb => ?_) nofun fun q _ => (h.good q).pending_ne _ _
  · simp [SharedCache.hand, Cache.endRead, hd, ht, href]
  · simp only [SharedCache.hand, Cache.endRead, Cache.set_pool, if_true]
    exact ⟨by simp [hf.valid], by simp [hf.clean, hf.clean'], by simp [h.inv.own], hd.symm,
      ht.symm, href.symm, hdata⟩
  · rw [hphase]
    exact fun x hx => (Option.some.inj hx).symm
  · exact hq (h.phases.apart q p _ hb (by rw [hphase]; rfl))

/-- A process that is not disturbed gets its buffer, or waits for a transfer. -/
theorem get (h : Shadow s r) (hidle : s.phase p = .idle) (hok : Undisturbed s (.get p dev lba)) :
    ∃ s' r', s.getBuffer p dev lba = .ok s' ∧ Shadow s' r' := by
  obtain ⟨hlba, hhit, hmiss⟩ := hok
  obtain ⟨l, hl⟩ := h.order (blkOf lba)
  rw [hl.searchBuffer, tagNumFromLba_eq hlba] at hhit hmiss
  rw [hl.allocBuffer] at hmiss
  unfold SharedCache.getBuffer
  simp only [hl.searchBuffer, hl.allocBuffer, ok_bind, tagNumFromLba_eq hlba]
  cases hfind : l.find? fun i => (s.cache.pool (blkOf lba)).device i = dev ∧
      (s.cache.pool (blkOf lba)).tagNumber i = lba / 512 with
  | some i =>
    have hi := List.find?_some hfind
    simp only [decide_eq_true_eq] at hi
    have hown := hhit i (by rw [hfind])
    obtain ⟨r', hr'⟩ := h.hit hlba hidle hi.1 hi.2 hown
    simp only [kassert_pos hown, ok_bind]
    exact ⟨_, r', rfl, hr'⟩
  | none =>
    obtain ⟨⟨k, hk⟩, hown, hpend⟩ := hmiss (by rw [hfind])
    have hnone : ∀ j, ¬((s.cache.pool (blkOf lba)).device j = dev ∧
        (s.cache.pool (blkOf lba)).tagNumber j = lba / 512) := by
      intro j
      simpa using List.find?_eq_none.mp hfind j (hl.mem j)
    cases halloc : l.reverse.find? fun i => (s.cache.pool (blkOf lba)).refCnt i = 0 with
    | none =>
      have := List.find?_eq_none.mp halloc k (List.mem_reverse.mpr (hl.mem k))
      simp [hk] at this
    | some i =>
      have hfree := List.find?_some halloc
      simp only [decide_eq_true_eq] at hfree
      have hi := hown i (by rw [halloc])
      rw [← tagNumFromLba_eq hlba] at hpend
      cases hdirty : (s.cache.pool (blkOf lba)).dirtyMap i with
      | true => exact ⟨_, r, if_pos hdirty, h.evict hlba hidle hnone hfree hi hdirty hpend⟩
      | false =>
        obtain ⟨hd, ht, href⟩ := h.fields (blkOf lba) i
        have hsame := h.settled _ _ (h.free_of_own hi)
        have hnone' : ∀ j, ¬((r.cache.pool (blkOf lba)).device j = dev ∧
            (r.cache.pool (blkOf lba)).tagNumber j = lba / 512) := fun j hj =>
          hnone j (by simpa [h.fields] using hj)
        obtain ⟨r', hr'⟩ := h.refill (p := p) hlba (.refl _ _ _) (.refl _) rfl hdirty
          (hsame.dirty.symm.trans hdirty) hnone' (href.trans hfree)
          (by rw [hidle]; rfl) (by rw [hidle]; intro x hx; cases hx) (fun q _ => h.free_of_own hi q)
          fun q _ => hpend q
        rw [tagNumFromLba_eq hlba] at hr'
        exact ⟨_, r', if_neg (by simp [hdirty]), hr'⟩

theorem step {isBlock : Int → Bool} {e : SharedEvent α} (h : Shadow s r) (hok : Undisturbed s e)
    (hstep : SharedStep isBlock e s s') : ∃ r', Shadow s' r' := by
  cases hstep with
  | get _ hidle hrun =>
    obtain ⟨s'', r', hrun', hr'⟩ := h.get hidle hok
    rw [hrun] at hrun'
    cases hrun'
    exact ⟨r', hr'⟩
  | write hphase => exact h.write hphase
  | endWrite hphase => exact h.endWrite hphase
  | read hphase => exact ⟨r, h.read hphase⟩
  | endRead hphase => exact ⟨r, h.endRead hphase⟩
  | modify hmem => exact ⟨_, h.modify _ hmem⟩
  | release hmem => exact ⟨_, h.release hmem⟩

theorem run {isBlock : Int → Bool} (h : SharedRun isBlock Undisturbed s) : ∃ r, Shadow s r := by
  induction h with
  | start data next prev disk => exact ⟨_, start data next prev disk⟩
  | step _ hok hstep ih =>
    obtain ⟨r, hr⟩ := ih
    exact hr.step hok hstep

theorem safe {isBlock : Int → Bool} (h : Shadow s r) : SharedSafe isBlock Undisturbed s := by
  refine ⟨fun _ hidle hok => ?_, fun {p q ref ref'} hmem hmem' hb hi => ?_,
    fun {p ref} hmem => ?_,
    fun d blk tag x hx => ?_⟩
  · obtain ⟨s', -, hrun, -⟩ := h.get hidle hok
    exact ⟨s', hrun⟩
  · obtain ⟨hlba, -, -, -, hdev, htag⟩ := h.inv.held ref (h.mem_refs hmem)
    obtain ⟨hlba', -, -, -, hdev', htag'⟩ := h.inv.held ref' (h.mem_refs hmem')
    rw [hb, hi] at hdev htag
    rw [tagNumFromLba_eq hlba, tagNumFromLba_eq hlba']
    exact ⟨hdev.symm.trans hdev', htag.symm.trans htag'⟩
  · obtain ⟨-, -, hstart, hvalid, -, -⟩ := h.inv.held ref (h.mem_refs hmem)
    have hsame := h.settled _ _ (h.free_of_handed hmem)
    refine ⟨hsame.valid.trans hvalid, hsame.own.trans (h.inv.own _ _), fun j hj => ?_⟩
    rw [hsame.data _ (by omega), ← h.logical]
    exact h.inv.sector (h.mem_refs hmem) hj
  · by_cases hclean : ∀ i, (r.cache.pool blk).device i = d →
        (r.cache.pool blk).tagNumber i = tag → (r.cache.pool blk).dirtyMap i = false
    · rw [← h.disk, ← h.logical]
      exact .inl (h.inv.clean d blk tag hclean x hx)
    · push Not at hclean
      obtain ⟨i, hd, ht, hdirty⟩ := hclean
      rw [ne_eq, Bool.not_eq_false] at hdirty
      obtain ⟨hd', ht', -⟩ := h.fields blk i
      obtain ⟨hds, hdata⟩ := h.dirty hdirty
      refine .inr ⟨i, hd'.symm.trans hd, ht'.symm.trans ht, hds, ?_⟩
      rw [hdata x hx, h.inv.cached blk i (h.inv.dirty_valid blk i hdirty) x hx, hd, ht, h.logical]

end Shadow

/-- In every run in which no process is disturbed: no assertion fails, a buffer is returned for one
device and tag at a time and after it has been read, and nothing that was written is lost. -/
theorem shared_safe {α : Type} [Fintype α] [DecidableEq α] {isBlock : Int → Bool}
    {s : SharedCache α} (h : SharedRun isBlock Undisturbed s) :
      SharedSafe isBlock Undisturbed s := by
  obtain ⟨r, hr⟩ := Shadow.run h
  exact hr.safe

/-- A new cache with two users. -/
def newPair : SharedCache Bool :=
  ⟨Cache.init (fun _ _ _ => 0) (fun _ n => n) (fun _ n => n) fun _ _ => 7, fun _ => .idle, [],
    fun _ _ => 7⟩

theorem newPair_fields (blk : Fin blockPerPool) (i : Fin maxBufferPerBlock) :
    (newPair.cache.pool blk).refCnt i = 0 ∧ (newPair.cache.pool blk).tagNumber i = 2 ^ 64 - 1 ∧
      (newPair.cache.pool blk).diskOwnMap i = false ∧
        (newPair.cache.pool blk).dirtyMap i = false := by
  have hpool : newPair.cache.pool blk = BufferBlock.init (fun _ _ => 0) (fun n => n) fun n => n :=
    rfl
  rw [hpool, BufferBlock.init_fields]
  exact ⟨rfl, rfl, rfl, rfl⟩

theorem newPair_order (blk : Fin blockPerPool) : ∃ l, (newPair.cache.pool blk).Order l :=
  ⟨_, BufferBlock.init_order _ _ _⟩

/-- The first sectors of a device are not in a new block of buffers. -/
theorem newPair_search {blk : Fin blockPerPool} {l : List (Fin maxBufferPerBlock)} :
    (l.find? fun i =>
    (newPair.cache.pool blk).device i = 0 ∧ (newPair.cache.pool blk).tagNumber i = 0) = none := by
  refine List.find?_eq_none.mpr fun i _ => ?_
  rw [(newPair_fields _ i).2.1]
  simp

section

variable {s : SharedCache Bool} {lba : Nat} (hlba : lba < 512)
  (hpool : s.cache.pool (blkOf lba) = newPair.cache.pool (blkOf lba))

include hlba hpool

theorem new_undisturbed (p : Bool) (hpending : ∀ q, (s.phase q).pending = none) :
    Undisturbed s (.get p 0 lba) := by
  refine ⟨by omega, fun i _ => ?_, fun _ => ⟨⟨0, ?_⟩, fun i _ => ?_, fun q => ?_⟩⟩
  · rw [hpool]
    exact (newPair_fields _ i).2.2.1
  · rw [hpool]
    exact (newPair_fields _ 0).1
  · rw [hpool]
    exact (newPair_fields _ i).2.2.1
  · rw [hpending q]
    exact (Option.some_ne_none _).symm

theorem new_get (p : Bool) : ∃ i, s.getBuffer p 0 lba = .ok (s.wait p
    ((s.cache.assign (blkOf lba) i 0 0).setDiskOwn (blkOf lba) i true) (.reading 0 lba i)) := by
  obtain ⟨l, hl⟩ := newPair_order (blkOf lba)
  rw [← hpool] at hl
  have htag : tagNumFromLba lba % 2 ^ 32 = 0 := by
    rw [tagNumFromLba_eq (by omega), Nat.div_eq_of_lt hlba]
  have hsearch := @newPair_search (blkOf lba) l
  rw [← hpool] at hsearch
  have hfields := newPair_fields (blkOf lba)
  rw [← hpool] at hfields
  cases halloc : l.reverse.find? fun i => (s.cache.pool (blkOf lba)).refCnt i = 0 with
  | none =>
    have := List.find?_eq_none.mp halloc 0 (List.mem_reverse.mpr (hl.mem 0))
    simp [hfields] at this
  | some i =>
    refine ⟨i, ?_⟩
    have hread : s.readOrHand p (s.cache.assign (blkOf lba) i 0 0) 0 lba i = s.wait p
        ((s.cache.assign (blkOf lba) i 0 0).setDiskOwn (blkOf lba) i true) (.reading 0 lba i) :=
      if_neg (by simp [Cache.assign])
    unfold SharedCache.getBuffer
    simp only [htag, hl.searchBuffer, hsearch, hl.allocBuffer, halloc, ok_bind, hread]
    exact if_neg (by simp [hfields])

end

/-- The first process waits for its sector. -/
def firstReads (i : Fin maxBufferPerBlock) : SharedCache Bool :=
  newPair.wait true ((newPair.cache.assign (blkOf 0) i 0 0).setDiskOwn (blkOf 0) i true)
    (.reading 0 0 i)

/-- Another sector has another block of buffers. -/
theorem firstReads_pool (i : Fin maxBufferPerBlock) :
    (firstReads i).cache.pool (blkOf 8) = newPair.cache.pool (blkOf 8) := by
  have hne : blkOf 8 ≠ blkOf 0 := by decide
  simp only [firstReads, SharedCache.wait, Cache.setDiskOwn, Cache.assign, Cache.set_pool,
    if_neg hne]

/-- Two processes read sectors at the same time, and one of them writes to its sector before the
other has got its own. -/
theorem shared_safe_sample : ∃ s : SharedCache Bool, ∃ i j,
    SharedRun (fun _ => true) Undisturbed s ∧
    s.handed = [(true, refOf 0 0 i), (false, refOf 0 8 j)] ∧ s.logical 0 4096 = 1 ∧
    SharedSafe (fun _ => true) Undisturbed s := by
  have h₀ : SharedRun (fun _ => true) Undisturbed newPair := .start _ _ _ _
  obtain ⟨i, hget⟩ := @new_get newPair 0 (by decide) rfl true
  have h₁ : SharedRun (fun _ => true) Undisturbed (firstReads i) :=
    h₀.step (new_undisturbed (by decide) rfl true fun _ => rfl) (.get rfl rfl hget)
  obtain ⟨j, hget'⟩ := @new_get (firstReads i) 8 (by decide) (firstReads_pool i) false
  have hpending : ∀ q, ((firstReads i).phase q).pending = none := by
    intro q
    cases q <;> rfl
  have hok : Undisturbed (firstReads i) (.get false 0 8) :=
    new_undisturbed (by decide) (firstReads_pool i) false hpending
  have h₂ := h₁.step hok (.get rfl rfl hget')
  have h₃ := h₂.step (e := .read false) trivial (.read rfl)
  have h₄ := h₃.step (e := .read true) trivial (.read rfl)
  have h₅ := h₄.step (e := .endRead false) trivial (.endRead rfl)
  have h₆ := h₅.step (e := .modify false (refOf 0 8 j) fun _ => 1)
    trivial (.modify List.mem_cons_self)
  have h₇ := h₆.step (e := .endRead true) trivial (.endRead rfl)
  refine ⟨_, i, j, h₇, rfl, ?_, shared_safe h₇⟩
  change writeSector newPair.logical 0 8 (fun _ => 1) 0 4096 = 1
  exact dif_pos ⟨rfl, by decide, by decide⟩

/-- A process asks for a sector while another one reads it. -/
theorem occupied_hit : ¬∀ s : SharedCache Bool, SharedRun (fun _ => true) (fun _ _ => True) s →
    SharedSafe (fun _ => true) (fun _ _ => True) s := by
  intro H
  obtain ⟨i, hget⟩ := @new_get newPair 0 (by decide) rfl true
  have h₀ : SharedRun (fun _ => true) (fun _ _ => True) newPair := .start _ _ _ _
  have h₁ := h₀.step (e := .get true 0 0) trivial (.get rfl rfl hget)
  obtain ⟨s', hrun⟩ := @(H _ h₁).progress false 0 0 rfl rfl trivial
  set c := (newPair.cache.assign (blkOf 0) i 0 0).setDiskOwn (blkOf 0) i true with hc
  obtain ⟨l, hl⟩ := newPair_order (blkOf 0)
  have hlinks := (Cache.assign_links newPair.cache (blkOf 0) i 0 0).trans
    (Cache.setDiskOwn_links _ (blkOf 0) i true) (blkOf 0)
  have hlc : (c.pool (blkOf 0)).Order l := ⟨hl.1, by rw [hlinks.1, hlinks.2]; exact hl.2⟩
  have htag : tagNumFromLba 0 % 2 ^ 32 = 0 := tagNumFromLba_eq (by omega)
  have hself : (c.pool (blkOf 0)).device i = 0 ∧ (c.pool (blkOf 0)).tagNumber i = 0 ∧
      (c.pool (blkOf 0)).diskOwnMap i = true := by
    simp [hc, Cache.setDiskOwn, Cache.assign]
  unfold SharedCache.getBuffer at hrun
  simp only [htag, SharedCache.wait, hlc.searchBuffer, ok_bind] at hrun
  cases hfind : l.find? fun i => (c.pool (blkOf 0)).device i = 0 ∧
    (c.pool (blkOf 0)).tagNumber i = 0 with
  | none =>
    have := List.find?_eq_none.mp hfind i (hl.mem i)
    simp [hself] at this
  | some j =>
    have hj := List.find?_some hfind
    simp only [decide_eq_true_eq] at hj
    -- The buffer that is being read is the only one for the sector.
    have hij : j = i := by
      by_contra hne
      have htagj : (c.pool (blkOf 0)).tagNumber j = 2 ^ 64 - 1 := by
        simpa [hc, Cache.setDiskOwn, Cache.assign, hne] using (newPair_fields (blkOf 0) j).2.1
      rw [htagj] at hj
      exact absurd hj.2 (by decide)
    rw [hij] at hfind
    rw [hfind] at hrun
    simp [kassert, hself] at hrun

end OsKernel.Fs

import OsKernel.Fs.SharedBuffer
import OsKernel.Lib.RefCount

/-! The shared cache is compared with one that serves one process at a time: there a buffer that is
being evicted still has its old page, and one that is being read has its new page already. -/

namespace OsKernel.Fs

theorem blkOf_val (lba : Nat) : (blkOf lba).val = lba / 8 % 64 := blkNumFromLba_eq lba

/-- The buffer `i` of two blocks is the same but for its place in the list. -/
structure BufferBlock.SameAt (b b' : BufferBlock) (i : Fin maxBufferPerBlock) : Prop where
  valid : b'.validMap i = b.validMap i
  dirty : b'.dirtyMap i = b.dirtyMap i
  own : b'.diskOwnMap i = b.diskOwnMap i
  device : b'.device i = b.device i
  tagNumber : b'.tagNumber i = b.tagNumber i
  refCnt : b'.refCnt i = b.refCnt i
  data : ∀ x < 4096, b'.data i x = b.data i x

theorem BufferBlock.SameAt.refl (b : BufferBlock) (i : Fin maxBufferPerBlock) : b.SameAt b i :=
  ⟨rfl, rfl, rfl, rfl, rfl, rfl, fun _ _ => rfl⟩

theorem BufferBlock.SameAt.symm {b b' : BufferBlock} {i : Fin maxBufferPerBlock}
    (h : b.SameAt b' i) : b'.SameAt b i :=
  ⟨h.valid.symm, h.dirty.symm, h.own.symm, h.device.symm, h.tagNumber.symm, h.refCnt.symm,
    fun x hx => (h.data x hx).symm⟩

theorem BufferBlock.SameAt.trans {b b' b'' : BufferBlock} {i : Fin maxBufferPerBlock}
    (h : b.SameAt b' i) (h' : b'.SameAt b'' i) : b.SameAt b'' i :=
  ⟨h'.valid.trans h.valid, h'.dirty.trans h.dirty, h'.own.trans h.own, h'.device.trans h.device,
    h'.tagNumber.trans h.tagNumber, h'.refCnt.trans h.refCnt, fun x hx =>
    (h'.data x hx).trans (h.data x hx)⟩

/-- Two caches agree on all buffers but one. -/
def Cache.SameBut (c c' : Cache) (blk : Fin blockPerPool) (idx : Fin maxBufferPerBlock) : Prop :=
  ∀ b i, ¬(b = blk ∧ i = idx) → (c.pool b).SameAt (c'.pool b) i

theorem Cache.sameBut_set {c : Cache} {blk : Fin blockPerPool} {idx : Fin maxBufferPerBlock}
    {f : BufferBlock → BufferBlock}
    (hf : ∀ i, i ≠ idx → (c.pool blk).SameAt (f (c.pool blk)) i) :
    c.SameBut (c.set blk f) blk idx := by
  intro b i hne
  rw [Cache.set_pool]
  split
  · rename_i hb
    subst hb
    exact hf i fun hi => hne ⟨rfl, hi⟩
  · exact .refl _ i

theorem Cache.SameBut.trans {c c' c'' : Cache} {blk : Fin blockPerPool}
    {idx : Fin maxBufferPerBlock} (h : c.SameBut c' blk idx) (h' : c'.SameBut c'' blk idx) :
      c.SameBut c'' blk idx :=
  fun b i hne => (h b i hne).trans (h' b i hne)

theorem Cache.SameBut.refl (c : Cache) (blk : Fin blockPerPool) (idx : Fin maxBufferPerBlock) :
    c.SameBut c blk idx := fun _ i _ => .refl _ i

/-- The lists of two caches are the same. -/
def Cache.SameLinks (c c' : Cache) : Prop :=
  ∀ b, (c'.pool b).next = (c.pool b).next ∧ (c'.pool b).prev = (c.pool b).prev

theorem Cache.SameLinks.refl (c : Cache) : c.SameLinks c := fun _ => ⟨rfl, rfl⟩

theorem Cache.SameLinks.trans {c c' c'' : Cache} (h : c.SameLinks c') (h' : c'.SameLinks c'') :
    c.SameLinks c'' :=
  fun b => ⟨(h' b).1.trans (h b).1, (h' b).2.trans (h b).2⟩

/-- Two changes that leave the lists alone. -/
theorem Cache.SameLinks.both {c c' d d' : Cache} (h : c.SameLinks c') (hd : c.SameLinks d)
    (hd' : c'.SameLinks d') : d.SameLinks d' :=
  fun b => ⟨(hd' b).1.trans ((h b).1.trans (hd b).1.symm),
    (hd' b).2.trans ((h b).2.trans (hd b).2.symm)⟩

theorem Cache.sameLinks_set (c : Cache) (blk : Fin blockPerPool) {f : BufferBlock → BufferBlock}
    (hf : ∀ b, (f b).next = b.next ∧ (f b).prev = b.prev) : c.SameLinks (c.set blk f) := by
  intro b
  rw [Cache.set_pool]
  split
  · rename_i hb
    rw [hb]
    exact hf _
  · exact ⟨rfl, rfl⟩

/-- A buffer is released in two caches. -/
theorem Cache.SameLinks.release {c c' : Cache} (h : c.SameLinks c') (buf : Buffer)
    (href : (c'.pool buf.blk).refCnt buf.idx = (c.pool buf.blk).refCnt buf.idx) :
    (c.releaseBufferSync buf).SameLinks (c'.releaseBufferSync buf) := by
  intro b
  simp only [Cache.releaseBufferSync, Cache.set_pool]
  by_cases hb : b = buf.blk
  · subst hb
    simp only [if_true, Function.update_self, href]
    split
    · simp only [BufferBlock.insertFirst, BufferBlock.unlink, h buf.blk, and_self]
    · exact h buf.blk
  · simp only [if_neg hb]
    exact h b

section SameBut

variable (c : Cache) (blk : Fin blockPerPool) (idx : Fin maxBufferPerBlock)

theorem Cache.setDiskOwn_same (v : Bool) : c.SameBut (c.setDiskOwn blk idx v) blk idx :=
  sameBut_set fun i hi => ⟨rfl, rfl, by simp [hi], rfl, rfl, rfl, fun _ _ => rfl⟩

theorem Cache.endWrite_same : c.SameBut (c.endWrite blk idx) blk idx :=
  sameBut_set fun i hi => ⟨rfl, by simp [hi], by simp [hi], rfl, rfl, rfl, fun _ _ => rfl⟩

theorem Cache.endRead_same : c.SameBut (c.endRead blk idx) blk idx :=
  sameBut_set fun i hi => ⟨by simp [hi], rfl, by simp [hi], rfl, rfl, rfl, fun _ _ => rfl⟩

theorem Cache.addRef_same : c.SameBut (c.addRef blk idx) blk idx :=
  sameBut_set fun i hi => ⟨rfl, rfl, rfl, rfl, rfl, by simp [hi], fun _ _ => rfl⟩

theorem Cache.assign_same (dev : Int) (tag : Nat) : c.SameBut (c.assign blk idx dev tag) blk idx :=
  sameBut_set fun i hi =>
    ⟨by simp [hi], rfl, rfl, by simp [hi], by simp [hi], by simp [hi], fun _ _ => rfl⟩

theorem Cache.readBlocks_same (dev : Int) (lba : Nat) :
    c.SameBut (c.readBlocks dev lba blk idx) blk idx :=
  fun b i hne => sameBut_set (c := c)
    (f := fun b => { b with data := Function.update b.data idx _ })
    (fun i hi => ⟨rfl, rfl, rfl, rfl, rfl, rfl, fun _ _ => by simp [hi]⟩) b i hne

theorem Cache.modify_same (start : Nat) (bytes : Fin defaultSectorSize → UInt8) :
    c.SameBut (c.modify ⟨blk, idx, start⟩ bytes) blk idx :=
  sameBut_set fun i hi => ⟨rfl, by simp [hi], rfl, rfl, rfl, rfl, fun _ _ => by simp [hi]⟩

theorem Cache.release_same (start : Nat) :
    c.SameBut (c.releaseBufferSync ⟨blk, idx, start⟩) blk idx := by
  intro b i hne
  have hunpin : c.SameBut (c.unpinBuffer ⟨blk, idx, start⟩) blk idx :=
    sameBut_set fun i hi => ⟨rfl, rfl, rfl, rfl, rfl, by simp [hi], fun _ _ => rfl⟩
  obtain ⟨_, _, hpool⟩ := CacheInv.release_pool c ⟨blk, idx, start⟩ b
  rw [hpool]
  have h := hunpin b i hne
  exact ⟨h.valid, h.dirty, h.own, h.device, h.tagNumber, h.refCnt, h.data⟩

theorem Cache.setDiskOwn_links (v : Bool) : c.SameLinks (c.setDiskOwn blk idx v) :=
  sameLinks_set c blk fun _ => ⟨rfl, rfl⟩

theorem Cache.endWrite_links : c.SameLinks (c.endWrite blk idx) :=
  sameLinks_set c blk fun _ => ⟨rfl, rfl⟩

theorem Cache.endRead_links : c.SameLinks (c.endRead blk idx) :=
  sameLinks_set c blk fun _ => ⟨rfl, rfl⟩

theorem Cache.addRef_links : c.SameLinks (c.addRef blk idx) :=
  sameLinks_set c blk fun _ => ⟨rfl, rfl⟩

theorem Cache.assign_links (dev : Int) (tag : Nat) : c.SameLinks (c.assign blk idx dev tag) :=
  sameLinks_set c blk fun _ => ⟨rfl, rfl⟩

theorem Cache.readBlocks_links (dev : Int) (lba : Nat) :
    c.SameLinks (c.readBlocks dev lba blk idx) :=
  fun b => sameLinks_set c blk (f := fun b => { b with data := Function.update b.data idx _ })
    (fun _ => ⟨rfl, rfl⟩) b

theorem Cache.modify_links (buf : Buffer) (bytes : Fin defaultSectorSize → UInt8) :
    c.SameLinks (c.modify buf bytes) :=
  sameLinks_set c buf.blk fun _ => ⟨rfl, rfl⟩

theorem CacheInv.Refilled.sameLinks {c t : Cache} {blk : Fin blockPerPool}
    {idx : Fin maxBufferPerBlock} {dev : Int} {tag lba : Nat}
    (R : CacheInv.Refilled c t blk idx dev tag lba) :
    c.SameLinks t := by
  intro b
  by_cases hb : b = blk
  · subst hb
    exact R.links
  · rw [R.other b hb]
    exact ⟨rfl, rfl⟩

theorem CacheInv.Refilled.sameBut {c t : Cache} {blk : Fin blockPerPool}
    {idx : Fin maxBufferPerBlock} {dev : Int} {tag lba : Nat}
    (R : CacheInv.Refilled c t blk idx dev tag lba) :
    c.SameBut t blk idx := by
  intro b i hne
  by_cases hb : b = blk
  · subst hb
    have hi : i ≠ idx := fun hi => hne ⟨rfl, hi⟩
    exact ⟨by simp [R.valid, hi], by simp [R.dirty, hi], by simp [R.own, hi],
      by simp [R.device, hi], by simp [R.tagNumber, hi], by simp [R.refCnt, hi],
      fun x _ => by rw [R.dataOther i hi]⟩
  · rw [R.other b hb]
    exact .refl _ i

theorem Cache.writeBack_links : c.SameLinks (c.writeBack blk idx) := by
  intro b
  obtain ⟨_, -, hpool⟩ := CacheInv.writeBack_pool c blk b idx
  rw [hpool]
  exact ⟨rfl, rfl⟩

theorem Cache.writeBack_same (hown : ∀ b i, (c.pool b).diskOwnMap i = false) :
    c.SameBut (c.writeBack blk idx) blk idx := by
  intro b i hne
  obtain ⟨own, hown', hpool⟩ := CacheInv.writeBack_pool c blk b idx
  rw [hpool]
  exact ⟨rfl, if_neg hne, (hown' i (hown b i)).trans (hown b i).symm, rfl, rfl, rfl,
    fun _ _ => rfl⟩

end SameBut

namespace GetPhase

/-- The buffer for which a transfer is going on. -/
def buffer : GetPhase → Option (Fin blockPerPool × Fin maxBufferPerBlock)
  | idle => none
  | writing _ lba idx _ _ | written _ lba idx | reading _ lba idx | readDone _ lba idx =>
    some (blkOf lba, idx)

/-- The reference that the process will get. -/
def ref : GetPhase → Option Ref
  | reading dev lba idx | readDone dev lba idx => some (refOf dev lba idx)
  | idle | writing .. | written .. => none

end GetPhase

/-- A buffer that is being evicted for the sector `lba`: nobody has it, and no buffer of the other
cache `cr` is for the new page. -/
structure Evicting (cs cr : Cache) (dev : Int) (lba : Nat) (idx : Fin maxBufferPerBlock) :
    Prop where
  lba_lt : lba < 2 ^ 41
  miss : ∀ j, ¬((cr.pool (blkOf lba)).device j = dev ∧
    (cr.pool (blkOf lba)).tagNumber j = lba / 512)
  free : (cr.pool (blkOf lba)).refCnt idx = 0
  own : (cs.pool (blkOf lba)).diskOwnMap idx = true

/-- A buffer that is being read for the sector `lba`: the other cache has the page already. -/
structure Filling (cs cr : Cache) (dev : Int) (lba : Nat) (idx : Fin maxBufferPerBlock) : Prop where
  lba_lt : lba < 2 ^ 41
  device : (cr.pool (blkOf lba)).device idx = dev
  tagNumber : (cr.pool (blkOf lba)).tagNumber idx = lba / 512
  refCnt : (cr.pool (blkOf lba)).refCnt idx = 1
  own : (cs.pool (blkOf lba)).diskOwnMap idx = true
  valid : (cr.pool (blkOf lba)).validMap idx = true
  clean : (cs.pool (blkOf lba)).dirtyMap idx = false
  clean' : (cr.pool (blkOf lba)).dirtyMap idx = false

/-- How a buffer with a transfer differs from the one of the other cache. -/
def GetPhase.Good (cs cr : Cache) : GetPhase → Prop
  | idle => True
  | writing dev lba idx wdev wlba => Evicting cs cr dev lba idx ∧
      (cs.pool (blkOf lba)).dirtyMap idx = true ∧ (cr.pool (blkOf lba)).dirtyMap idx = true ∧
      (∀ x < 4096, (cs.pool (blkOf lba)).data idx x = (cr.pool (blkOf lba)).data idx x) ∧
      wdev = (cr.pool (blkOf lba)).device idx ∧
      wlba = lbaFromTagBlkOff ((cr.pool (blkOf lba)).tagNumber idx) (blkOf lba) 0
  | written dev lba idx => Evicting cs cr dev lba idx ∧ (cr.pool (blkOf lba)).dirtyMap idx = false
  | reading dev lba idx => Filling cs cr dev lba idx
  | readDone dev lba idx => Filling cs cr dev lba idx ∧
      ∀ x < 4096, (cs.pool (blkOf lba)).data idx x = (cr.pool (blkOf lba)).data idx x

section Frame

variable {cs cr cs' cr' : Cache} {blk : Fin blockPerPool} {idx i : Fin maxBufferPerBlock}
  {dev : Int}
  {lba : Nat}

theorem Evicting.frame (h : Evicting cs cr dev lba i) (hs : cs.SameBut cs' blk idx)
    (hr : cr.SameBut cr' blk idx) (hne : ¬(blkOf lba = blk ∧ i = idx))
    (hnew : blkOf lba = blk →
      ¬((cr'.pool blk).device idx = dev ∧ (cr'.pool blk).tagNumber idx = lba / 512)) :
    Evicting cs' cr' dev lba i := by
  refine ⟨h.lba_lt, fun j hj => ?_, (hr _ _ hne).refCnt.trans h.free,
    (hs _ _ hne).own.trans h.own⟩
  by_cases hx : blkOf lba = blk ∧ j = idx
  · obtain ⟨hb, rfl⟩ := hx
    rw [hb] at hj
    exact hnew hb hj
  · rw [(hr _ _ hx).device, (hr _ _ hx).tagNumber] at hj
    exact h.miss j hj

theorem Filling.frame (h : Filling cs cr dev lba i) (hs : cs.SameBut cs' blk idx)
    (hr : cr.SameBut cr' blk idx) (hne : ¬(blkOf lba = blk ∧ i = idx)) :
      Filling cs' cr' dev lba i := by
  have ss := hs _ _ hne
  have sr := hr _ _ hne
  exact ⟨h.lba_lt, sr.device.trans h.device, sr.tagNumber.trans h.tagNumber,
    sr.refCnt.trans h.refCnt, ss.own.trans h.own, sr.valid.trans h.valid, ss.dirty.trans h.clean,
    sr.dirty.trans h.clean'⟩

/-- The pages in two caches, after a change to other buffers. -/
theorem sameData_frame (h : ∀ x < 4096,
    (cs.pool (blkOf lba)).data i x = (cr.pool (blkOf lba)).data i x)
    (hs : cs.SameBut cs' blk idx) (hr : cr.SameBut cr' blk idx)
    (hne : ¬(blkOf lba = blk ∧ i = idx)) :
    ∀ x < 4096, (cs'.pool (blkOf lba)).data i x = (cr'.pool (blkOf lba)).data i x := by
  intro x hx
  rw [(hs _ _ hne).data x hx, (hr _ _ hne).data x hx]
  exact h x hx

/-- A change to a buffer does not disturb a transfer for another one. -/
theorem GetPhase.Good.frame {φ : GetPhase} (h : φ.Good cs cr) (hs : cs.SameBut cs' blk idx)
    (hr : cr.SameBut cr' blk idx) (hne : φ.buffer ≠ some (blk, idx))
    (hnew : φ.pending ≠ some (blk, (cr'.pool blk).device idx, (cr'.pool blk).tagNumber idx)) :
    φ.Good cs' cr' := by
  have hkey : ∀ {dev lba}, lba < 2 ^ 41 →
      φ.pending = some (blkOf lba, dev, tagNumFromLba lba % 2 ^ 32) →
      blkOf lba = blk → ¬((cr'.pool blk).device idx = dev ∧
        (cr'.pool blk).tagNumber idx = lba / 512) := by
    rintro dev lba hlba hp hb ⟨hd, ht⟩
    rw [hd, ht, hp, hb, tagNumFromLba_eq hlba] at hnew
    exact hnew rfl
  cases φ with
  | idle => trivial
  | writing dev lba i wdev wlba =>
    have hx : ¬(blkOf lba = blk ∧ i = idx) := fun hx => hne (by rw [buffer, hx.1, hx.2])
    obtain ⟨he, hds, hdr, hdata, hdev, hlba⟩ := h
    refine ⟨he.frame hs hr hx (hkey he.lba_lt rfl), (hs _ _ hx).dirty.trans hds,
      (hr _ _ hx).dirty.trans hdr, sameData_frame hdata hs hr hx, ?_, ?_⟩
    · rw [(hr _ _ hx).device, hdev]
    · rw [(hr _ _ hx).tagNumber, hlba]
  | written dev lba i =>
    have hx : ¬(blkOf lba = blk ∧ i = idx) := fun hx => hne (by rw [buffer, hx.1, hx.2])
    exact ⟨h.1.frame hs hr hx (hkey h.1.lba_lt rfl), (hr _ _ hx).dirty.trans h.2⟩
  | reading dev lba i =>
    have hx : ¬(blkOf lba = blk ∧ i = idx) := fun hx => hne (by rw [buffer, hx.1, hx.2])
    exact Filling.frame h hs hr hx
  | readDone dev lba i =>
    have hx : ¬(blkOf lba = blk ∧ i = idx) := fun hx => hne (by rw [buffer, hx.1, hx.2])
    exact ⟨h.1.frame hs hr hx, sameData_frame h.2 hs hr hx⟩

/-- No buffer is for a page that is pending. -/
theorem GetPhase.Good.pending_ne {φ : GetPhase} (h : φ.Good cs cr) (blk : Fin blockPerPool)
    (idx : Fin maxBufferPerBlock) :
    φ.pending ≠ some (blk, (cr.pool blk).device idx, (cr.pool blk).tagNumber idx) := by
  have hkey : ∀ {dev lba i}, Evicting cs cr dev lba i →
      some (blkOf lba, dev, tagNumFromLba lba % 2 ^ 32) ≠
      some (blk, (cr.pool blk).device idx, (cr.pool blk).tagNumber idx) := by
    intro dev lba i he hp
    simp only [Option.some.injEq, Prod.mk.injEq] at hp
    obtain ⟨rfl, hd, ht⟩ := hp
    rw [tagNumFromLba_eq he.lba_lt] at ht
    exact he.miss idx ⟨hd.symm, ht.symm⟩
  cases φ with
  | writing dev lba i wdev wlba => exact hkey h.1
  | written dev lba i => exact hkey h.1
  | idle => nofun
  | reading dev lba i => nofun
  | readDone dev lba i => nofun

/-- A buffer with a transfer belongs to the disk. -/
theorem GetPhase.Good.owned {φ : GetPhase} (h : φ.Good cs cr) (hb : φ.buffer = some (blk, i)) :
    (cs.pool blk).diskOwnMap i = true := by
  cases φ with
  | idle => cases hb
  | writing dev lba j wdev wlba =>
    cases hb
    exact h.1.own
  | written dev lba j =>
    cases hb
    exact h.1.own
  | reading dev lba j =>
    cases hb
    exact Filling.own h
  | readDone dev lba j =>
    cases hb
    exact h.1.own

/-- Nobody has a buffer with a transfer but the process that reads it. -/
theorem GetPhase.Good.refCnt {φ : GetPhase} (h : φ.Good cs cr) (hb : φ.buffer = some (blk, i)) :
    (cr.pool blk).refCnt i = 0 ∨
      (cr.pool blk).refCnt i = 1 ∧ ∃ ref, φ.ref = some ref ∧ ref.blk = blk ∧
        ref.idx = i := by
  cases φ with
  | idle => cases hb
  | writing dev lba j wdev wlba =>
    cases hb
    exact .inl h.1.free
  | written dev lba j =>
    cases hb
    exact .inl h.1.free
  | reading dev lba j =>
    cases hb
    exact .inr ⟨Filling.refCnt h, _, rfl, rfl, rfl⟩
  | readDone dev lba j =>
    cases hb
    exact .inr ⟨h.1.refCnt, _, rfl, rfl, rfl⟩

/-- A buffer with a transfer that is dirty in the other cache. -/
theorem GetPhase.Good.dirty {φ : GetPhase} (h : φ.Good cs cr) (hb : φ.buffer = some (blk, i))
    (hdirty : (cr.pool blk).dirtyMap i = true) : (cs.pool blk).dirtyMap i = true ∧
      ∀ x < 4096, (cs.pool blk).data i x = (cr.pool blk).data i x := by
  cases φ with
  | idle => cases hb
  | writing dev lba j wdev wlba =>
    cases hb
    exact ⟨h.2.1, h.2.2.2.1⟩
  | written dev lba j =>
    cases hb
    rw [h.2] at hdirty
    cases hdirty
  | reading dev lba j =>
    cases hb
    rw [Filling.clean' h] at hdirty
    cases hdirty
  | readDone dev lba j =>
    cases hb
    rw [h.1.clean'] at hdirty
    cases hdirty

end Frame

/-- The references of a shared cache: those that were returned, and those of the reads that
go on. -/
noncomputable def SharedCache.refs {α : Type} [Fintype α] (s : SharedCache α) : List Ref :=
  s.handed.map Prod.snd ++ Finset.univ.toList.filterMap fun p => (s.phase p).ref

/-- Two transfers are for different buffers, and two evictions for different pages. -/
structure Phases {α : Type} (phase : α → GetPhase) : Prop where
  apart : ∀ p q x, (phase p).buffer = some x → (phase q).buffer = some x → p = q
  pending : ∀ p q k, (phase p).pending = some k → (phase q).pending = some k → p = q

theorem Phases.update {α : Type} [DecidableEq α] {phase : α → GetPhase} {p : α}
    (h : Phases phase)
    {φ : GetPhase}
    (hb : ∀ q, q ≠ p → ∀ x, φ.buffer = some x → (phase q).buffer ≠ some x)
    (hk : ∀ q, q ≠ p → ∀ k, φ.pending = some k → (phase q).pending ≠ some k) :
    Phases (Function.update phase p φ) := by
  refine ⟨fun q q' x hq hq' => ?_, fun q q' k hq hq' => ?_⟩
  · rw [Function.update_apply] at hq hq'
    split at hq
    · split at hq'
      · simp only [*]
      · exact absurd hq' (hb q' ‹_› x hq)
    · split at hq'
      · exact absurd hq (hb q ‹_› x hq')
      · exact h.apart q q' x hq hq'
  · rw [Function.update_apply] at hq hq'
    split at hq
    · split at hq'
      · simp only [*]
      · exact absurd hq' (hk q' ‹_› k hq)
    · split at hq'
      · exact absurd hq (hk q ‹_› k hq')
      · exact h.pending q q' k hq hq'

section Refs

variable {α : Type} [Fintype α] [DecidableEq α] {s : SharedCache α} {p : α} {φ : GetPhase}

namespace SharedCache

theorem refs_wait (c : Cache) (href : φ.ref = (s.phase p).ref) :
    (s.wait p c φ).refs = s.refs := by
  unfold SharedCache.refs SharedCache.wait
  congr 1
  refine List.filterMap_congr fun q _ => ?_
  simp only
  by_cases hq : q = p
  · rw [hq, Function.update_self, href]
  · rw [Function.update_of_ne hq]

/-- A read starts. -/
theorem refs_read (c : Cache) {x : Ref} (hp : (s.phase p).ref = none) (hφ : φ.ref = some x) :
    (s.wait p c φ).refs.Perm (x :: s.refs) := by
  unfold SharedCache.refs SharedCache.wait
  have hnew : (Finset.univ.toList.filterMap fun q => (Function.update s.phase p φ q).ref).Perm
      (x :: Finset.univ.toList.filterMap fun q => (s.phase q).ref) := by
    refine RefCount.filterMap_perm (p := p) (Finset.nodup_toList _) (by simp) hp ?_ fun q hq => ?_
    · rw [Function.update_self]
      exact hφ
    · rw [Function.update_of_ne hq]
  exact (hnew.append_left _).trans List.perm_middle

/-- The buffer of a read is returned. -/
theorem refs_hand (c : Cache) {dev : Int} {lba : Nat} {idx : Fin maxBufferPerBlock}
    (hp : (s.phase p).ref = some (refOf dev lba idx)) :
      s.refs.Perm (s.hand p c dev lba idx).refs := by
  have hback : ((s.wait p c .idle).wait p c (s.phase p)).refs = s.refs := by
    unfold SharedCache.refs SharedCache.wait
    simp only [Function.update_idem, Function.update_eq_self]
  rw [← hback]
  refine refs_read (s := s.wait p c .idle) c ?_ hp
  simp only [SharedCache.wait, Function.update_self]
  rfl

end SharedCache

end Refs

/-- The cache with one user after the other that has done what the shared one will have done. -/
structure Shadow {α : Type} [Fintype α] (s : SharedCache α) (r : CacheRun) : Prop where
  inv : CacheInv r
  phases : Phases s.phase
  logical : r.logical = s.logical
  refs : r.refs.Perm s.refs
  disk : r.cache.disk = s.cache.disk
  links : s.cache.SameLinks r.cache
  fields : ∀ b i, (r.cache.pool b).device i = (s.cache.pool b).device i ∧
    (r.cache.pool b).tagNumber i = (s.cache.pool b).tagNumber i ∧
    (r.cache.pool b).refCnt i = (s.cache.pool b).refCnt i
  settled : ∀ b i, (∀ p, (s.phase p).buffer ≠ some (b, i)) →
    (r.cache.pool b).SameAt (s.cache.pool b) i
  good : ∀ p, (s.phase p).Good s.cache r.cache

namespace Shadow

variable {α : Type} [Fintype α] {s s' : SharedCache α} {r r' : CacheRun} {p q : α}
  {blk : Fin blockPerPool} {idx : Fin maxBufferPerBlock} {dev : Int} {lba : Nat}

/-- A step that changes one buffer, and the phase of processes that have no transfer for
another one. -/
theorem move (h : Shadow s r) (inv : CacheInv r') (phases : Phases s'.phase)
    (logical : r'.logical = s'.logical) (refs : r'.refs.Perm s'.refs)
    (disk : r'.cache.disk = s'.cache.disk)
    (links : s'.cache.SameLinks r'.cache)
    (hs : s.cache.SameBut s'.cache blk idx) (hr : r.cache.SameBut r'.cache blk idx)
    (hfields : (r'.cache.pool blk).device idx = (s'.cache.pool blk).device idx ∧
      (r'.cache.pool blk).tagNumber idx = (s'.cache.pool blk).tagNumber idx ∧
      (r'.cache.pool blk).refCnt idx = (s'.cache.pool blk).refCnt idx)
    (hsettled : (∀ p, (s'.phase p).buffer ≠ some (blk, idx)) →
      (r'.cache.pool blk).SameAt (s'.cache.pool blk) idx)
    (hphase : ∀ p, s'.phase p = s.phase p ∧ (s.phase p).buffer ≠ some (blk, idx) ∧
        (s.phase p).pending ≠ some (blk, (r'.cache.pool blk).device idx,
          (r'.cache.pool blk).tagNumber idx) ∨
      (s'.phase p).Good s'.cache r'.cache ∧ ∀ x, (s.phase p).buffer = some x →
      x = (blk, idx)) :
    Shadow s' r' := by
  refine ⟨inv, phases, logical, refs, disk, links, fun b i => ?_, fun b i hfree => ?_,
    fun p => ?_⟩
  · by_cases hx : b = blk ∧ i = idx
    · obtain ⟨rfl, rfl⟩ := hx
      exact hfields
    · rw [(hs b i hx).device, (hs b i hx).tagNumber, (hs b i hx).refCnt, (hr b i hx).device,
        (hr b i hx).tagNumber, (hr b i hx).refCnt]
      exact h.fields b i
  · by_cases hx : b = blk ∧ i = idx
    · obtain ⟨rfl, rfl⟩ := hx
      exact hsettled hfree
    · have hold : ∀ p, (s.phase p).buffer ≠ some (b, i) := by
        intro p hp
        rcases hphase p with ⟨he, -⟩ | ⟨-, ho⟩
        · exact hfree p (he ▸ hp)
        · have := ho _ hp
          simp only [Prod.mk.injEq] at this
          exact hx this
      exact ((hr b i hx).symm.trans (h.settled b i hold)).trans (hs b i hx)
  · rcases hphase p with ⟨he, hb, hk⟩ | ⟨hg, -⟩
    · rw [he]
      exact (h.good p).frame hs hr hb hk
    · exact hg

section Transfer

variable [DecidableEq α]

/-- A step of `p` that changes the buffer of its transfer. -/
theorem movePhase (h : Shadow s r) {φ : GetPhase} (inv : CacheInv r')
    (hupdate : s'.phase = Function.update s.phase p φ) (logical : r'.logical = s'.logical)
    (refs : r'.refs.Perm s'.refs) (disk : r'.cache.disk = s'.cache.disk)
    (links : s'.cache.SameLinks r'.cache)
    (hs : s.cache.SameBut s'.cache blk idx) (hr : r.cache.SameBut r'.cache blk idx)
    (hfields : (r'.cache.pool blk).device idx = (s'.cache.pool blk).device idx ∧
      (r'.cache.pool blk).tagNumber idx = (s'.cache.pool blk).tagNumber idx ∧
      (r'.cache.pool blk).refCnt idx = (s'.cache.pool blk).refCnt idx)
    (hsettled : φ.buffer = none → (r'.cache.pool blk).SameAt (s'.cache.pool blk) idx)
    (hgood : φ.Good s'.cache r'.cache) (hφ : ∀ x, φ.buffer = some x → x = (blk, idx))
    (hp : ∀ x, (s.phase p).buffer = some x → x = (blk, idx))
    (hother : ∀ q, q ≠ p → (s.phase q).buffer ≠ some (blk, idx))
    (hpend : ∀ q, q ≠ p → ∀ k, φ.pending = some k → (s.phase q).pending ≠ some k)
    (hkey : ∀ q, q ≠ p → (s.phase q).pending ≠
      some (blk, (r'.cache.pool blk).device idx, (r'.cache.pool blk).tagNumber idx)) :
        Shadow s' r' := by
  refine h.move inv ?_ logical refs disk links hs hr hfields ?_ fun q => ?_
  · rw [hupdate]
    refine h.phases.update (fun q hq x hx => ?_) hpend
    rw [hφ x hx]
    exact hother q hq
  · intro hfree
    have hpfree := hfree p
    rw [hupdate, Function.update_self] at hpfree
    refine hsettled ?_
    cases hb : φ.buffer with
    | none => rfl
    | some x => exact absurd (hφ x hb ▸ hb) hpfree
  · rw [hupdate]
    by_cases hq : q = p
    · subst hq
      rw [Function.update_self]
      exact .inr ⟨hgood, hp⟩
    · rw [Function.update_of_ne hq]
      exact .inl ⟨rfl, hother q hq, hkey q hq⟩

end Transfer

end Shadow

end OsKernel.Fs

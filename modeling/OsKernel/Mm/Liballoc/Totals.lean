import Mathlib.Data.Nat.ModEq
import OsKernel.Mm.Liballoc.Safety

/-! The totals that `print_heap_usage` shows, over whole runs.  `free` of the last block of a
chunk takes the chunk's bytes off `_cached_size`, but leaves those of its tag in `_used_size`
and `_meta_size`. -/

namespace OsKernel.Mm.Liballoc

open Lib

variable {σ : Type} {src : PageSource σ} {N k : Nat} {h : LAllocator} {s : σ}

/-- The bytes of all chunks. -/
def LAllocator.sizes (h : LAllocator) : Nat := (h.chunks.map LTagMajor.size).sum

/-- The bytes of all tags and blocks. -/
def LAllocator.bytes (h : LAllocator) : Nat := (h.chunks.map LTagMajor.bytes).sum

/-- The number of tags of chunks and blocks. -/
def LAllocator.tags (h : LAllocator) : Nat := h.chunks.length + h.blocks.length

/-- The totals after `k` chunks have been given back. -/
structure Totals (h : LAllocator) (k : Nat) : Prop where
  cachSize : h.cachSize = h.sizes % 2 ^ 64
  usedSize : h.usedSize = (h.bytes + sizeofMajor * k) % 2 ^ 64
  metaSize : h.metaSize = (sizeofMajor * (h.tags + k)) % 2 ^ 64

/-- The runs in which `k` chunks have been given back. -/
inductive ReachedAfter (src : PageSource σ) (N : Nat) : Nat → LAllocator × σ → Prop
  | init (magic : Nat → Nat) (s : σ) : ReachedAfter src N 0 (.init magic, s)
  | step {k : Nat} {x y : LAllocator × σ} : ReachedAfter src N k x → HeapStep src N x y →
      ReachedAfter src N (k + (x.1.chunks.length - y.1.chunks.length)) y

theorem Totals.init (magic : Nat → Nat) : Totals (.init magic) 0 := by
  refine ⟨?_, ?_, ?_⟩ <;>
    simp [LAllocator.init, LAllocator.sizes, LAllocator.bytes, LAllocator.tags, LAllocator.blocks]

/-- Forty bytes for each of `k` do not change a word just where `2 ^ 61` divides `k`. -/
theorem add_tags_mod_iff (a k : Nat) : (a + sizeofMajor * k) % 2 ^ 64 = a % 2 ^ 64 ↔
    2 ^ 61 ∣ k := by
  have hsplit : sizeofMajor * k = 2 ^ 3 * (5 * k) := by
    unfold sizeofMajor
    omega
  have hpow : 2 ^ 64 = 2 ^ 3 * 2 ^ 61 := by decide
  constructor
  · intro heq
    have hdvd : 2 ^ 64 ∣ sizeofMajor * k := by
      have := (Nat.modEq_iff_dvd' (Nat.le_add_right a (sizeofMajor * k))).mp heq.symm
      rwa [Nat.add_sub_cancel_left] at this
    rw [hsplit, hpow] at hdvd
    have hfive := Nat.dvd_of_mul_dvd_mul_left (by decide) hdvd
    exact (Nat.Coprime.pow_left 61 (by decide : Nat.Coprime 2 5)).dvd_of_dvd_mul_left hfive
  · rintro ⟨j, rfl⟩
    have hmul : sizeofMajor * (2 ^ 61 * j) = 2 ^ 64 * (5 * j) := by
      unfold sizeofMajor
      omega
    rw [hmul, Nat.add_mul_mod_self_left]

theorem ReachedAfter.reached {x : LAllocator × σ} (hr : ReachedAfter src N k x) :
    Reached src N x := by
  induction hr with
  | init magic s => exact .init magic s
  | step _ hstep ih => exact .step ih hstep

/-- The totals are those of the heap, and no more than the chunks. -/
theorem Totals.of_eq {h' : LAllocator} (T : Totals h k) (hcach : h'.cachSize = h.cachSize)
    (hused : h'.usedSize = h.usedSize) (hmeta : h'.metaSize = h.metaSize)
    (hchunks : h'.chunks = h.chunks) :
    Totals h' k := by
  refine ⟨?_, ?_, ?_⟩
  · rw [hcach, T.cachSize, LAllocator.sizes, LAllocator.sizes, hchunks]
  · rw [hused, T.usedSize, LAllocator.bytes, LAllocator.bytes, hchunks]
  · rw [hmeta, T.metaSize, LAllocator.tags, LAllocator.tags, LAllocator.blocks, LAllocator.blocks,
      hchunks]

section

variable {before behind : List LTagMajor} {maj maj' : LTagMajor}

/-- The sums of a heap in which one chunk is replaced. -/
theorem sums_replace (hl : h.chunks = before ++ maj :: behind) (h' : LAllocator)
    (hl' : h'.chunks = before ++ maj' :: behind) :
    h'.sizes + maj.size = h.sizes + maj'.size ∧ h'.bytes + maj.bytes = h.bytes + maj'.bytes ∧
      h'.tags + maj.minors.length = h.tags + maj'.minors.length := by
  unfold LAllocator.sizes LAllocator.bytes LAllocator.tags LAllocator.blocks
  rw [hl, hl']
  simp only [List.map_append, List.map_cons, List.sum_append, List.sum_cons, List.length_append,
    List.length_cons, List.flatMap_append, List.flatMap_cons]
  omega

/-- The sums of a heap without one of the chunks. -/
theorem sums_drop (hl : h.chunks = before ++ maj :: behind) (h' : LAllocator)
    (hl' : h'.chunks = before ++ behind) :
    h'.sizes + maj.size = h.sizes ∧ h'.bytes + maj.bytes = h.bytes ∧
      h'.tags + maj.minors.length + 1 = h.tags := by
  unfold LAllocator.sizes LAllocator.bytes LAllocator.tags LAllocator.blocks
  rw [hl, hl']
  simp only [List.map_append, List.map_cons, List.sum_append, List.sum_cons, List.length_append,
    List.length_cons, List.flatMap_append, List.flatMap_cons]
  omega

end

/-- A chunk with one block more. -/
theorem grow_bytes {maj : LTagMajor} {before behind : List LTagMinor} {tag size req : Nat}
    (hb : BlockSize size req) (hmins : maj.minors = before ++ behind) :
    (maj.grow (before ++ newMinor tag size req :: behind) size).bytes =
      maj.bytes + (size + sizeofMinor) := by
  unfold LTagMajor.bytes
  rw [hmins]
  simp only [LTagMajor.grow, List.map_append, List.map_cons, List.sum_append, List.sum_cons,
    newMinor_span hb]
  omega

/-- A chunk with one block less. -/
theorem remove_bytes {maj : LTagMajor} {n : Nat} (ok : ChunkOk maj n) {min : LTagMinor}
    (hmin : min ∈ maj.minors) :
    maj.bytes = (maj.remove min.addr min.size).bytes + (min.size + sizeofMinor) ∧
      maj.minors.length = (maj.remove min.addr min.size).minors.length + 1 := by
  obtain ⟨before, behind, hmins, hleft, -⟩ := ok.remove hmin
  unfold LTagMajor.bytes
  rw [hleft, hmins]
  simp only [List.map_append, List.map_cons, List.sum_append, List.sum_cons, List.length_append,
    List.length_cons, LTagMinor.span]
  omega

theorem u64Add_mod (a b : Nat) : u64Add (a % 2 ^ 64) b = (a + b) % 2 ^ 64 := by
  rw [u64Add, Nat.mod_add_mod]

theorem u64Sub_mod (a b : Nat) : u64Sub ((a + b) % 2 ^ 64) b = a % 2 ^ 64 := by
  unfold u64Sub
  omega

theorem withBlock_fields (h : LAllocator) (b : Option Nat) (l : List LTagMajor) (tag size : Nat) :
    ({ h with bestBet := b }.withBlock l tag size).chunks = l ∧
      ({ h with bestBet := b }.withBlock l tag size).cachSize = h.cachSize ∧
      ({ h with bestBet := b }.withBlock l tag size).usedSize =
      u64Add h.usedSize (size + sizeofMinor) ∧
      ({ h with bestBet := b }.withBlock l tag size).metaSize = u64Add h.metaSize sizeofMinor :=
  ⟨rfl, rfl, rfl, rfl⟩

theorem withoutBlock_fields (h : LAllocator) (b : Option Nat) (l : List LTagMajor)
    (tag size : Nat) : ({ h with bestBet := b }.withoutBlock l tag size).chunks = l ∧
      ({ h with bestBet := b }.withoutBlock l tag size).cachSize = h.cachSize ∧
      ({ h with bestBet := b }.withoutBlock l tag size).usedSize =
      u64Sub h.usedSize (size + sizeofMinor) ∧
      ({ h with bestBet := b }.withoutBlock l tag size).metaSize = u64Sub h.metaSize sizeofMinor :=
  ⟨rfl, rfl, rfl, rfl⟩

theorem withChunk_fields (h : LAllocator) (b : Option Nat) (size : Nat) :
    ({ h with bestBet := b }.withChunk size).cachSize = u64Add h.cachSize size ∧
      ({ h with bestBet := b }.withChunk size).usedSize = u64Add h.usedSize sizeofMajor ∧
      ({ h with bestBet := b }.withChunk size).metaSize = u64Add h.metaSize sizeofMajor :=
  ⟨rfl, rfl, rfl⟩

theorem withoutChunk_fields (h : LAllocator) (l : List LTagMajor) (addr size : Nat) :
    (h.withoutChunk l addr size).chunks = l ∧
      (h.withoutChunk l addr size).cachSize = u64Sub h.cachSize size ∧
      (h.withoutChunk l addr size).usedSize = h.usedSize ∧
      (h.withoutChunk l addr size).metaSize = h.metaSize :=
  ⟨rfl, rfl, rfl, rfl⟩

/-- The totals of a heap with one block more. -/
theorem Totals.addBlock (T : Totals h k) {h' : LAllocator} {size : Nat}
    (hcach : h'.cachSize = h.cachSize)
    (hused : h'.usedSize = u64Add h.usedSize (size + sizeofMinor))
    (hmeta : h'.metaSize = u64Add h.metaSize sizeofMinor) (hsizes : h'.sizes = h.sizes)
    (hbytes : h'.bytes = h.bytes + (size + sizeofMinor)) (htags : h'.tags = h.tags + 1) :
    Totals h' k := by
  refine ⟨?_, ?_, ?_⟩
  · rw [hcach, T.cachSize, hsizes]
  · rw [hused, T.usedSize, u64Add_mod, hbytes]
    congr 1
    omega
  · rw [hmeta, T.metaSize, u64Add_mod, htags]
    congr 1
    unfold sizeofMajor sizeofMinor
    omega

/-- The totals of a heap with one chunk more and a block in it. -/
theorem Totals.addChunk (T : Totals h k) {h' : LAllocator} {size chunk : Nat}
    (hcach : h'.cachSize = u64Add h.cachSize chunk)
    (hused : h'.usedSize = u64Add (u64Add h.usedSize sizeofMajor) (size + sizeofMinor))
    (hmeta : h'.metaSize = u64Add (u64Add h.metaSize sizeofMajor) sizeofMinor)
    (hsizes : h'.sizes = h.sizes + chunk)
    (hbytes : h'.bytes = h.bytes + (sizeofMajor + (size + sizeofMinor)))
    (htags : h'.tags = h.tags + 2) :
    Totals h' k := by
  refine ⟨?_, ?_, ?_⟩
  · rw [hcach, T.cachSize, u64Add_mod, hsizes]
  · rw [hused, T.usedSize, u64Add_mod, u64Add_mod, hbytes]
    congr 1
    omega
  · rw [hmeta, T.metaSize, u64Add_mod, u64Add_mod, htags]
    congr 1
    unfold sizeofMajor sizeofMinor
    omega

/-- The totals of a heap with one block less, and perhaps its chunk. -/
theorem Totals.dropBlock (T : Totals h k) {h' : LAllocator} {size k' : Nat}
    (hcach : h'.cachSize = h'.sizes % 2 ^ 64)
    (hused : h'.usedSize = u64Sub h.usedSize (size + sizeofMinor))
    (hmeta : h'.metaSize = u64Sub h.metaSize sizeofMinor)
    (hbytes : h.bytes + sizeofMajor * k = h'.bytes + sizeofMajor * k' + (size + sizeofMinor))
    (htags : h.tags + k = h'.tags + k' + 1) : Totals h' k' := by
  refine ⟨hcach, ?_, ?_⟩
  · rw [hused, T.usedSize, hbytes, u64Sub_mod]
  · rw [hmeta, T.metaSize, htags, Nat.mul_add, Nat.mul_one]
    exact u64Sub_mod _ _

theorem Outcome.totals {size req : Nat} {run : MallocRun σ} (I : HeapInv src N h s)
    (T : Totals h k) (hout : Outcome src h s size req run) (hb : BlockSize size req) :
    Totals run.heap k ∧ h.chunks.length ≤ run.heap.chunks.length := by
  cases hout with
  | @placed before behind maj maj' tag b visits hl hroom hp hbest =>
    obtain ⟨n, -, -, ok⟩ := I.chunks maj (by rw [hl]; simp)
    obtain ⟨mbefore, mbehind, hmins, rfl, ok'⟩ := place_some ok hb hroom hp
    have hbytes := @grow_bytes maj mbefore mbehind tag size req hb hmins
    have hlen : (maj.grow (mbefore ++ newMinor tag size req :: mbehind) size).minors.length =
        maj.minors.length + 1 := by
      rw [hmins]
      simp only [LTagMajor.grow, List.length_append, List.length_cons]
      omega
    generalize hnew : maj.grow (mbefore ++ newMinor tag size req :: mbehind) size = new at *
    have hsize : new.size = maj.size := by
      rw [← hnew]
      rfl
    obtain ⟨hchunks, hcach, hused, hmeta⟩ :=
      withBlock_fields h b (before ++ new :: behind) tag size
    generalize LAllocator.withBlock { h with bestBet := b } (before ++ new :: behind) tag size =
      h' at *
    obtain ⟨hsizes, hbytes', htags⟩ := sums_replace hl h' hchunks
    have T' : Totals h' k := T.addBlock hcach hused hmeta (by omega) (by omega) (by omega)
    refine ⟨T', ?_⟩
    rw [hchunks, hl, List.length_append, List.length_append, List.length_cons, List.length_cons]
  | @fresh a s' b visits hall halloc hbest =>
    have hnew : ((newChunk a size).grow [newMinor (a + sizeofMajor) size req] size).bytes =
        sizeofMajor + (size + sizeofMinor) :=
      @grow_bytes (newChunk a size) [] [] (a + sizeofMajor) size req hb rfl
    have hsize : ((newChunk a size).grow [newMinor (a + sizeofMajor) size req] size).size =
        (newChunk a size).size := rfl
    have hlen : ((newChunk a size).grow [newMinor (a + sizeofMajor) size req] size).minors.length =
      1 := rfl
    obtain ⟨hcach₀, hused₀, hmeta₀⟩ := withChunk_fields h b (newChunk a size).size
    generalize (newChunk a size).grow [newMinor (a + sizeofMajor) size req] size = new at *
    generalize (newChunk a size).size = chunk at *
    generalize LAllocator.withChunk { h with bestBet := b } chunk = h₀ at *
    obtain ⟨hchunks, hcach, hused, hmeta⟩ :=
      withBlock_fields h₀ h₀.bestBet (h.chunks ++ [new])
      (a + sizeofMajor) size
    change LAllocator.chunks (h₀.withBlock _ _ _) = _ at hchunks
    change LAllocator.cachSize (h₀.withBlock _ _ _) = _ at hcach
    change LAllocator.usedSize (h₀.withBlock _ _ _) = _ at hused
    change LAllocator.metaSize (h₀.withBlock _ _ _) = _ at hmeta
    generalize h₀.withBlock (h.chunks ++ [new]) (a + sizeofMajor) size = h' at *
    rw [hcach₀] at hcach
    rw [hused₀] at hused
    rw [hmeta₀] at hmeta
    refine ⟨T.addChunk hcach hused hmeta ?_ ?_ ?_, ?_⟩
    · rw [LAllocator.sizes, LAllocator.sizes, hchunks, List.map_append, List.sum_append,
        List.map_singleton, List.sum_singleton, hsize]
    · rw [LAllocator.bytes, LAllocator.bytes, hchunks, List.map_append, List.sum_append,
        List.map_singleton, List.sum_singleton, hnew]
    · rw [LAllocator.tags, LAllocator.tags, LAllocator.blocks, LAllocator.blocks, hchunks,
        List.flatMap_append, List.flatMap_singleton, List.length_append, List.length_append, hlen,
        List.length_singleton]
      omega
    · rw [hchunks, List.length_append]
      exact Nat.le_add_right _ _
  | refused => exact ⟨T.of_eq rfl rfl rfl rfl, Nat.le_refl _⟩

theorem Freed.totals {ptr : Nat} {r : LAllocator × σ} (I : HeapInv src N h s) (T : Totals h k)
    (hr : Freed src h s ptr r) : Totals r.1 (k + (h.chunks.length - r.1.chunks.length)) := by
  cases hr with
  | nothing =>
    rw [Nat.sub_self]
    exact T
  | @block before behind maj min b hl hmin htag hleft hb =>
    obtain ⟨n, -, -, ok⟩ := I.chunks maj (by rw [hl]; simp)
    obtain ⟨hbytes, hlen⟩ := remove_bytes ok hmin
    have hsize : (maj.remove min.addr min.size).size = maj.size := rfl
    obtain ⟨hchunks, hcach, hused, hmeta⟩ := withoutBlock_fields h b
      (before ++ maj.remove min.addr min.size :: behind) min.addr min.size
    simp only
    generalize LAllocator.withoutBlock { h with bestBet := b }
      (before ++ maj.remove min.addr min.size :: behind) min.addr min.size = h' at *
    generalize maj.remove min.addr min.size = left at *
    obtain ⟨hsizes, hbytes', htags⟩ := sums_replace hl h' hchunks
    have hsame : h.chunks.length - h'.chunks.length = 0 := by
      rw [hchunks, hl, List.length_append, List.length_append, List.length_cons, List.length_cons,
        Nat.sub_self]
    have hkept : h'.cachSize = h'.sizes % 2 ^ 64 := by
      rw [hcach, T.cachSize, show h.sizes = h'.sizes by omega]
    have T' : Totals h' k := T.dropBlock hkept hused hmeta (by omega) (by omega)
    rw [hsame]
    exact T'
  | @chunk before behind maj min hl hmin htag hempty =>
    obtain ⟨n, -, -, ok⟩ := I.chunks maj (by rw [hl]; simp)
    obtain ⟨hbytes, hlen⟩ := remove_bytes ok hmin
    have hleft : (maj.remove min.addr min.size).bytes = sizeofMajor := by
      rw [LTagMajor.bytes, hempty]
      rfl
    rw [hempty, List.length_nil] at hlen
    obtain ⟨-, hcach₀, hused₀, hmeta₀⟩ := withoutBlock_fields h h.bestBet
      (before ++ maj.remove min.addr min.size :: behind) min.addr min.size
    change LAllocator.cachSize (h.withoutBlock _ _ _) = _ at hcach₀
    change LAllocator.usedSize (h.withoutBlock _ _ _) = _ at hused₀
    change LAllocator.metaSize (h.withoutBlock _ _ _) = _ at hmeta₀
    simp only
    generalize h.withoutBlock (before ++ maj.remove min.addr min.size :: behind) min.addr min.size =
      h₀ at *
    obtain ⟨hchunks, hcach, hused, hmeta⟩ :=
      withoutChunk_fields h₀ (before ++ behind) maj.addr maj.size
    generalize h₀.withoutChunk (before ++ behind) maj.addr maj.size = h' at *
    obtain ⟨hsizes, hbytes', htags⟩ := sums_drop hl h' hchunks
    have hone : h.chunks.length - h'.chunks.length = 1 := by
      rw [hchunks, hl, List.length_append, List.length_append, List.length_cons]
      omega
    rw [hone]
    refine T.dropBlock ?_ (hused.trans hused₀) (hmeta.trans hmeta₀) ?_ (by omega)
    · rw [hcach, hcach₀, T.cachSize, ← hsizes, u64Sub_mod]
    · unfold sizeofMajor at *
      omega

theorem HeapStep.totals {x y : LAllocator × σ} (hN : N ≤ 2 ^ 20) (hstep : HeapStep src N x y)
    (I : HeapInv src N x.1 x.2) (T : Totals x.1 k) :
    Totals y.1 (k + (x.1.chunks.length - y.1.chunks.length)) := by
  cases hstep with
  | @malloc h s fuel reqSize run hsize hrun =>
    by_cases hreq : 0 < reqSize
    · have hb := @sizeAlign_block reqSize.toNat (by omega) (hsize.trans hN)
      obtain ⟨T', hle⟩ := (malloc_outcome I hN hsize hrun hreq).totals I T hb
      rw [Nat.sub_eq_zero_of_le hle]
      exact T'
    · rw [Liballoc.malloc, if_pos (by omega)] at hrun
      cases hrun
      rw [Nat.sub_self]
      exact T
  | free hptr hrun => exact (free_cases hrun).totals I T
  | store hkeep =>
    rw [Nat.sub_self]
    exact T.of_eq rfl rfl rfl rfl
  | other hkeep =>
    rw [Nat.sub_self]
    exact T

theorem ReachedAfter.totals {x : LAllocator × σ} (hN : N ≤ 2 ^ 20)
    (hr : ReachedAfter src N k x) : Totals x.1 k := by
  induction hr with
  | init magic s => exact .init magic
  | step hprev hstep ih => exact hstep.totals hN (hprev.reached.inv hN) ih

/-- In a run in which `k` chunks have been given back `_cached_size` counts the bytes of the chunks;
and `_used_size` counts those of the tags and blocks, and `_meta_size` those of the tags, just where
`2 ^ 61` divides `k`. -/
theorem heap_totals (hr : ReachedAfter src (2 ^ 20) k (h, s)) : Totals h k ∧
    (h.usedSize = h.bytes % 2 ^ 64 ↔ 2 ^ 61 ∣ k) ∧
    (h.metaSize = sizeofMajor * h.tags % 2 ^ 64 ↔ 2 ^ 61 ∣ k) := by
  have T : Totals h k := hr.totals (Nat.le_refl _)
  refine ⟨T, ?_, ?_⟩
  · rw [T.usedSize]
    exact add_tags_mod_iff _ _
  · rw [T.metaSize, Nat.mul_add]
    exact add_tags_mod_iff _ _

/-- After the first block has been given back, with its chunk, 40 bytes are left in the totals. -/
theorem heap_totals_sample : ∃ run r,
    malloc sampleSource 1 (.init fun _ => 0) (fun _ => false) 8 = .ok (some run) ∧
      free sampleSource run.heap run.source 4176 = .ok r ∧ Totals r.1 1 ∧
      r.1.usedSize ≠ r.1.bytes % 2 ^ 64 := by
  obtain ⟨run, r, hrun, hfree, hone, hnone, hptr⟩ : ∃ run r,
      malloc sampleSource 1 (.init fun _ => 0) (fun _ => false) 8 = .ok (some run) ∧
        free sampleSource run.heap run.source 4176 = .ok r ∧ run.heap.chunks.length = 1 ∧
        r.1.chunks.length = 0 ∧ FreeOk run.heap 4176 :=
    ⟨_, _, rfl, rfl, rfl, rfl,
      .inr (.inr ⟨_, List.mem_cons_self, _, List.mem_cons_self, rfl⟩)⟩
  have hfirst : ReachedAfter sampleSource (2 ^ 20) 0 (run.heap, run.source) := by
    have := ReachedAfter.step (.init (fun _ => 0) fun _ => false)
      (.malloc (N := 2 ^ 20) (by decide) hrun)
    rwa [hone] at this
  have hsecond : ReachedAfter sampleSource (2 ^ 20) 1 (r.1, r.2) := by
    have := hfirst.step (.free hptr hfree)
    rwa [hone, hnone] at this
  obtain ⟨T, hused, -⟩ := heap_totals hsecond
  exact ⟨run, r, hrun, hfree, T, fun h => absurd (hused.mp h) (by decide)⟩

end OsKernel.Mm.Liballoc

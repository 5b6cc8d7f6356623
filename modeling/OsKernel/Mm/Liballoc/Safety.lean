import Mathlib.Data.List.Nodup
import OsKernel.Mm.Liballoc.Complete

/-! What the clients of the heap see: the pointers that are in use, each with the number of bytes
asked for.  `malloc` adds one that overlaps nothing, `free` takes one away, and no other call or
store changes them. -/

namespace OsKernel.Mm.Liballoc

open Lib

variable {σ : Type} {src : PageSource σ} {N : Nat} {h : LAllocator} {s : σ}

/-- The tags of all blocks. -/
def LAllocator.blocks (h : LAllocator) : List LTagMinor := h.chunks.flatMap LTagMajor.minors

/-- The pointers that `malloc` has given and `free` has not got back, with the bytes asked for. -/
def LAllocator.live (h : LAllocator) (ptr : Nat) : Option Nat :=
  (h.blocks.find? fun min => min.addr + sizeofMinor = ptr).map LTagMinor.reqSize

theorem mem_blocks {min : LTagMinor} : min ∈ h.blocks ↔ ∃ maj ∈ h.chunks,
    min ∈ maj.minors := by
  rw [LAllocator.blocks, List.mem_flatMap]

/-- The tag of a block, and where it is in its chunk. -/
theorem HeapInv.block (I : HeapInv src N h s) {min : LTagMinor} (hmin : min ∈ h.blocks) :
    ∃ maj ∈ h.chunks, ∃ n, src.held s maj.addr = some n ∧ ChunkOk maj n ∧ MinorOk min ∧
      maj.addr + sizeofMajor ≤ min.addr ∧ min.addr + min.span ≤ maj.addr + 4096 * n := by
  obtain ⟨maj, hmaj, hin⟩ := mem_blocks.mp hmin
  obtain ⟨n, hheld, -, ok⟩ := I.chunks maj hmaj
  exact ⟨maj, hmaj, n, hheld, ok, ok.minors min hin, ok.minor_lt hin⟩

theorem HeapInv.chunk_eq (I : HeapInv src N h s) {maj maj' : LTagMajor} (hm : maj ∈ h.chunks)
    (hm' : maj' ∈ h.chunks) (heq : maj.addr = maj'.addr) : maj = maj' :=
  List.inj_on_of_nodup_map I.nodup hm hm' heq

/-- Two blocks with their tags are apart. -/
theorem HeapInv.blocks_apart (I : HeapInv src N h s) {min min' : LTagMinor}
    (hmin : min ∈ h.blocks) (hmin' : min' ∈ h.blocks) :
    min = min' ∨ min.addr + min.span ≤ min'.addr ∨ min'.addr + min'.span ≤ min.addr := by
  obtain ⟨maj, hmaj, hin⟩ := mem_blocks.mp hmin
  obtain ⟨maj', hmaj', hin'⟩ := mem_blocks.mp hmin'
  by_cases heq : maj.addr = maj'.addr
  · obtain rfl := I.chunk_eq hmaj hmaj' heq
    obtain ⟨n, -, -, ok⟩ := I.chunks maj hmaj
    have hpair := ok.laid.pairwise
    obtain ⟨before, behind, hl⟩ := List.append_of_mem hin
    rw [hl, List.pairwise_append, List.pairwise_cons] at hpair
    rw [hl, List.mem_append, List.mem_cons] at hin'
    rcases hin' with hb | rfl | hb
    · exact .inr (.inr (hpair.2.2 min' hb min List.mem_cons_self))
    · exact .inl rfl
    · exact .inr (.inl (hpair.2.1.1 min' hb))
  · exact .inr (I.tags_ne hmaj hmaj' heq hin hin')

/-- A pointer in use is behind the tag of a block. -/
theorem HeapInv.live_iff (I : HeapInv src N h s) {ptr n : Nat} :
    h.live ptr = some n ↔ ∃ min ∈ h.blocks, min.addr + sizeofMinor = ptr ∧
      min.reqSize = n := by
  unfold LAllocator.live
  rw [Option.map_eq_some_iff]
  constructor
  · rintro ⟨min, hfind, rfl⟩
    exact ⟨min, List.mem_of_find?_eq_some hfind, by simpa using List.find?_some hfind, rfl⟩
  · rintro ⟨min, hmin, rfl, rfl⟩
    cases hfind : h.blocks.find? fun m => m.addr + sizeofMinor = min.addr + sizeofMinor with
    | none =>
      have := List.find?_eq_none.mp hfind min hmin
      simp at this
    | some m =>
      have hm := List.mem_of_find?_eq_some hfind
      have haddr : m.addr = min.addr := by simpa using List.find?_some hfind
      have h1 := span_pos m
      have h2 := span_pos min
      rcases I.blocks_apart hm hmin with rfl | hap | hap
      · exact ⟨m, rfl, rfl⟩
      · omega
      · omega

theorem HeapInv.live_none_iff (I : HeapInv src N h s) {ptr : Nat} :
    h.live ptr = none ↔ ∀ min ∈ h.blocks, min.addr + sizeofMinor ≠ ptr := by
  rw [Option.eq_none_iff_forall_ne_some]
  constructor
  · intro hno min hmin hptr
    exact hno min.reqSize (I.live_iff.mpr ⟨min, hmin, hptr, rfl⟩)
  · intro hno n hn
    obtain ⟨min, hmin, hptr, -⟩ := I.live_iff.mp hn
    exact hno min hmin hptr

/-! ### What the clients may rely on -/

/-- The bytes of the blocks in use, their tags and the tags of the chunks. -/
structure BlocksSafe (src : PageSource σ) (h : LAllocator) (s : σ) : Prop where
  /-- A block is aligned, not empty, and inside the pages of a chunk, behind both tags. -/
  inside : ∀ ptr n, h.live ptr = some n → ptr % 8 = 0 ∧ 0 < n ∧ ∃ maj ∈ h.chunks,
    ∃ pages, src.held s maj.addr = some pages ∧ maj.addr + sizeofMajor + sizeofMinor ≤ ptr ∧
      ptr + n ≤ maj.addr + 4096 * pages
  /-- Between two blocks there is room for the tag of the upper one. -/
  apart : ∀ ptr n ptr' n', h.live ptr = some n → h.live ptr' = some n' → ptr ≠ ptr' →
    ptr + n + sizeofMinor ≤ ptr' ∨ ptr' + n' + sizeofMinor ≤ ptr
  /-- No block overlaps the tag of a chunk. -/
  chunkTag : ∀ ptr n maj, h.live ptr = some n → maj ∈ h.chunks →
    ptr + n ≤ maj.addr ∨ maj.addr + sizeofMajor + sizeofMinor ≤ ptr

theorem HeapInv.safe (I : HeapInv src N h s) : BlocksSafe src h s := by
  have htags := tags
  refine ⟨fun ptr n hn => ?_, fun ptr n ptr' n' hn hn' hne => ?_, fun ptr n maj hn hmaj => ?_⟩
  · obtain ⟨min, hmin, rfl, rfl⟩ := I.live_iff.mp hn
    obtain ⟨maj, hmaj, pages, hheld, ok, mok, hlo, hhi⟩ := I.block hmin
    have hal := mok.aligned
    have hreq := mok.req
    unfold LTagMinor.span at hhi
    exact ⟨by omega, hreq.1, maj, hmaj, pages, hheld, by omega, by omega⟩
  · obtain ⟨min, hmin, rfl, rfl⟩ := I.live_iff.mp hn
    obtain ⟨min', hmin', rfl, rfl⟩ := I.live_iff.mp hn'
    obtain ⟨_, _, _, _, _, mok, _⟩ := I.block hmin
    obtain ⟨_, _, _, _, _, mok', _⟩ := I.block hmin'
    have hreq := mok.req
    have hreq' := mok'.req
    unfold LTagMinor.span at *
    rcases I.blocks_apart hmin hmin' with rfl | hap | hap
    · exact absurd rfl hne
    · unfold LTagMinor.span at hap
      left
      omega
    · unfold LTagMinor.span at hap
      right
      omega
  · obtain ⟨min, hmin, rfl, rfl⟩ := I.live_iff.mp hn
    obtain ⟨maj', hmaj', pages, hheld, ok, mok, hlo, hhi⟩ := I.block hmin
    have hreq := mok.req
    unfold LTagMinor.span at hhi
    by_cases heq : maj.addr = maj'.addr
    · right
      omega
    · obtain ⟨n', hheld', -, ok'⟩ := I.chunks maj hmaj
      have hsize : maj.addr + sizeofMajor ≤ maj.addr + 4096 * n' := by
        have := (src.held_run hheld').1
        omega
      rcases src.apart hheld' hheld heq with hap | hap
      · right
        have := (src.held_run hheld').1
        omega
      · left
        omega

/-- In every reachable state the blocks in use are safe. -/
theorem heap_blocks_safe (hr : Reached src (2 ^ 20) (h, s)) : BlocksSafe src h s :=
  (hr.inv (Nat.le_refl _)).safe

/-- The heap after requests for 8 and 24 bytes, and the pointers of these. -/
theorem sampleSource_blocks : ∃ r₁ r₂,
    malloc sampleSource 1 (.init fun _ => 0) (fun _ => false) 8 = .ok (some r₁) ∧
      malloc sampleSource 3 r₁.heap r₁.source 24 = .ok (some r₂) ∧
      r₁.ptr = some 4176 ∧ r₂.ptr = some 4224 ∧
      r₂.heap.live 4176 = some 8 ∧ r₂.heap.live 4224 = some 24 ∧
      Reached sampleSource (2 ^ 20) (r₂.heap, r₂.source) := by
  obtain ⟨r₁, r₂, h₁, h₂, hp₁, hp₂, hl₁, hl₂⟩ : ∃ r₁ r₂,
      malloc sampleSource 1 (.init fun _ => 0) (fun _ => false) 8 = .ok (some r₁) ∧
        malloc sampleSource 3 r₁.heap r₁.source 24 = .ok (some r₂) ∧
        r₁.ptr = some 4176 ∧ r₂.ptr = some 4224 ∧
        r₂.heap.live 4176 = some 8 ∧ r₂.heap.live 4224 = some 24 :=
    ⟨_, _, rfl, rfl, rfl, rfl, rfl, rfl⟩
  have hr₁ : Reached sampleSource (2 ^ 20) (r₁.heap, r₁.source) :=
    .step (.init _ _) (.malloc (by decide) h₁)
  exact ⟨r₁, r₂, h₁, h₂, hp₁, hp₂, hl₁, hl₂,
    hr₁.step (.malloc (by decide) h₂)⟩

theorem heap_blocks_safe_sample : ∃ h s, h.live 4176 = some 8 ∧ h.live 4224 = some 24 ∧
    BlocksSafe sampleSource h s := by
  obtain ⟨-, r₂, -, -, -, -, hl₁, hl₂, hr⟩ := sampleSource_blocks
  exact ⟨r₂.heap, r₂.source, hl₁, hl₂, heap_blocks_safe hr⟩

/-! ### The calls -/

/-- `malloc` adds a block behind a tag that was none. -/
theorem Outcome.blocks {size req : Nat} {run : MallocRun σ} (I : HeapInv src N h s)
    (I' : HeapInv src N run.heap run.source) (hout : Outcome src h s size req run)
    (hb : BlockSize size req) :
    (run.ptr = none ∧ run.heap.blocks = h.blocks) ∨ ∃ tag,
      run.ptr = some (tag + sizeofMinor) ∧ (∀ min ∈ h.blocks, min.addr ≠ tag) ∧
      ∀ min, min ∈ run.heap.blocks ↔ min ∈ h.blocks ∨ min = newMinor tag size req := by
  cases hout with
  | @placed before behind maj maj' tag b visits hl hroom hp hbest =>
    obtain ⟨n, -, -, ok⟩ := I.chunks maj (by rw [hl]; simp)
    obtain ⟨mbefore, mbehind, hmins, hmaj', ok'⟩ := place_some ok hb hroom hp
    have hnew : newMinor tag size req ∈ maj'.minors :=
      (place_minors ok hb hroom hp).mpr (.inr rfl)
    have hpos := span_pos (newMinor tag size req)
    have haddr : (newMinor tag size req).addr = tag := newMinor_addr
    refine .inr ⟨tag, rfl, fun min hmin => ?_, fun min => ?_⟩
    · obtain ⟨c, hc, hin⟩ := mem_blocks.mp hmin
      have hspan := span_pos min
      by_cases heq : c.addr = maj.addr
      · -- in the same chunk the tags are laid out one behind the other
        obtain rfl := I.chunk_eq hc (by rw [hl]; simp) heq
        have hpair := ok'.laid.pairwise
        rw [hmaj'] at hpair
        simp only [LTagMajor.grow] at hpair
        rw [List.pairwise_append, List.pairwise_cons] at hpair
        rw [hmins] at hin
        rcases List.mem_append.mp hin with hin | hin
        · have := hpair.2.2 min hin _ List.mem_cons_self
          omega
        · have := hpair.2.1.1 min hin
          omega
      · have hc' : c ∈ before ++ maj' :: behind := by
          rw [hl] at hc
          simp only [List.mem_append, List.mem_cons] at hc ⊢
          rcases hc with hc | rfl | hc
          · exact .inl hc
          · exact absurd rfl heq
          · exact .inr (.inr hc)
        have := I'.tags_ne hc' (List.mem_append_right _ List.mem_cons_self)
          (by rw [place_addr hp]; exact heq) hin hnew
        omega
    have hchunks : ({ h with bestBet := b }.withBlock (before ++ maj' :: behind) tag size).blocks =
        (before ++ maj' :: behind).flatMap LTagMajor.minors := rfl
    rw [hchunks, LAllocator.blocks, hl]
    simp only [List.flatMap_append, List.flatMap_cons, List.mem_append, place_minors ok hb hroom hp]
    tauto
  | @fresh a s' b visits hall halloc hbest =>
    have hpages : 16 ≤ chunkPages size := Nat.le_max_right _ _
    obtain ⟨hnone, hheld⟩ := src.alloc_some (by omega) halloc
    refine .inr ⟨a + sizeofMajor, rfl, fun min hmin => ?_, fun min => ?_⟩
    · obtain ⟨c, hc, hin⟩ := mem_blocks.mp hmin
      have hne : c.addr ≠ a := by
        intro heq
        obtain ⟨n, hn, -⟩ := I.chunks c hc
        rw [heq, hnone] at hn
        cases hn
      have := I'.tags_ne (List.mem_append_left _ hc)
        (List.mem_append_right _ (List.mem_singleton.mpr rfl))
        (by rw [grow_addr, newChunk_addr]; exact hne) hin (List.mem_singleton.mpr rfl)
      have hspan := span_pos min
      have hpos := span_pos (newMinor (a + sizeofMajor) size req)
      have haddr : (newMinor (a + sizeofMajor) size req).addr = a + sizeofMajor := newMinor_addr
      omega
    have hchunks : (({ h with bestBet := b }.withChunk (newChunk a size).size).withBlock
        (h.chunks ++ [(newChunk a size).grow [newMinor (a + sizeofMajor) size req] size])
        (a + sizeofMajor) size).blocks =
        (h.chunks ++ [(newChunk a size).grow [newMinor (a + sizeofMajor) size req] size]).flatMap
          LTagMajor.minors := rfl
    rw [hchunks, LAllocator.blocks]
    simp only [List.flatMap_append, List.flatMap_cons, List.flatMap_nil, List.append_nil,
      List.mem_append, LTagMajor.grow, List.mem_singleton]
  | refused => exact .inl ⟨rfl, rfl⟩

/-- `free` takes the block of its pointer away. -/
theorem Freed.blocks {ptr : Nat} {r : LAllocator × σ} (I : HeapInv src N h s)
    (hr : Freed src h s ptr r) : r = (h, s) ∨ ∃ min ∈ h.blocks,
      min.addr = ptr - sizeofMinor ∧ ∀ m, m ∈ r.1.blocks ↔ m ∈ h.blocks ∧
        m.addr ≠ min.addr := by
  have hrest : ∀ {before behind : List LTagMajor} {maj : LTagMajor} {min m : LTagMinor},
      h.chunks = before ++ maj :: behind → min ∈ maj.minors →
      m ∈ before.flatMap LTagMajor.minors ∨ m ∈ behind.flatMap LTagMajor.minors →
      m.addr ≠ min.addr := by
    intro before behind maj min m hl hmin hm
    obtain ⟨c, hc, hmc⟩ : ∃ c ∈ before ++ behind, m ∈ c.minors := by
      simp only [List.mem_flatMap] at hm
      rcases hm with ⟨c, hc, hmc⟩ | ⟨c, hc, hmc⟩
      · exact ⟨c, List.mem_append_left _ hc, hmc⟩
      · exact ⟨c, List.mem_append_right _ hc, hmc⟩
    have hcin : c ∈ h.chunks := by
      rw [hl]
      simp only [List.mem_append, List.mem_cons] at hc ⊢
      tauto
    have hapart := I.tags_ne hcin (by rw [hl]; simp) (I.addr_ne hl hc) hmc hmin
    have h1 := span_pos m
    have h2 := span_pos min
    omega
  have hmem : ∀ {maj : LTagMajor} {min m : LTagMinor},
      m ∈ (maj.remove min.addr min.size).minors ↔ m ∈ maj.minors ∧ m.addr ≠ min.addr := by
    intro maj min m
    change m ∈ maj.minors.filter (·.addr ≠ min.addr) ↔ _
    rw [List.mem_filter]
    simp
  cases hr with
  | nothing => exact .inl rfl
  | @block before behind maj min b hl hmin htag hleft hb =>
    refine .inr ⟨min, mem_blocks.mpr ⟨maj, by rw [hl]; simp, hmin⟩, htag, fun m => ?_⟩
    have hchunks :
        ({ h with bestBet := b }.withoutBlock (before ++ maj.remove min.addr min.size :: behind)
        min.addr min.size).blocks =
        (before ++ maj.remove min.addr min.size :: behind).flatMap LTagMajor.minors := rfl
    have hother := hrest (m := m) hl hmin
    simp only
    rw [hchunks, LAllocator.blocks, hl]
    simp only [List.flatMap_append, List.flatMap_cons, List.mem_append, hmem]
    tauto
  | @chunk before behind maj min hl hmin htag hempty =>
    refine .inr ⟨min, mem_blocks.mpr ⟨maj, by rw [hl]; simp, hmin⟩, htag, fun m => ?_⟩
    have hchunks : ((h.withoutBlock (before ++ maj.remove min.addr min.size :: behind) min.addr
        min.size).withoutChunk (before ++ behind) maj.addr maj.size).blocks =
        (before ++ behind).flatMap LTagMajor.minors := rfl
    have hother := hrest (m := m) hl hmin
    have hgone : m ∈ maj.minors → m.addr = min.addr := by
      intro hm
      by_contra hne
      have := hmem.mpr ⟨hm, hne⟩
      rw [hempty] at this
      cases this
    simp only
    rw [hchunks, LAllocator.blocks, hl]
    simp only [List.flatMap_append, List.flatMap_cons, List.mem_append]
    tauto

/-- `free` returns for every pointer that its caller may give it. -/
theorem HeapInv.free_ok (I : HeapInv src N h s) {ptr : Nat} (hptr : FreeOk h ptr) :
    ∃ r, free src h s ptr = .ok r := by
  by_cases hnull : ptr = 0
  · exact ⟨_, by rw [free, if_pos hnull]⟩
  by_cases hmagic : h.magic (ptr - sizeofMinor) = liballocMagic
  · obtain ⟨maj, hmaj, min, hmin, htag⟩ : ∃ maj ∈ h.chunks, ∃ min ∈ maj.minors,
        min.addr = ptr - sizeofMinor := by
      rcases hptr with h0 | hno | hin
      · exact absurd h0 hnull
      · exact absurd hmagic hno
      · exact hin
    cases hfind : findTag h.chunks (ptr - sizeofMinor) with
    | none =>
      obtain ⟨i, hi⟩ := List.getElem?_of_mem hmaj
      have hno := List.findSome?_eq_none_iff.mp hfind (maj, i) (List.mem_zipIdx_iff_getElem?.mpr hi)
      have hmins := List.find?_eq_none.mp (Option.map_eq_none_iff.mp hno) min hmin
      simp [htag] at hmins
    | some found =>
      obtain ⟨i, maj', min'⟩ := found
      obtain ⟨before, behind, hl, hi, -, -⟩ := findTag_some hfind
      have hbest : ∀ b, h.bestBet = some b → ∃ best,
          (h.chunks.set i (maj'.remove (ptr - sizeofMinor) min'.size)).find? (·.addr = b) =
            some best := by
        intro b hb
        rw [← Option.isSome_iff_exists, List.find?_isSome]
        obtain ⟨c, hc, rfl⟩ := List.mem_map.mp (I.best b hb)
        rw [hi, hl, List.set_append_right _ _ (Nat.le_refl _), Nat.sub_self, List.set_cons_zero]
        rw [hl] at hc
        rcases List.mem_append.mp hc with hc | hc
        · exact ⟨c, List.mem_append_left _ hc, by simp⟩
        rcases List.mem_cons.mp hc with rfl | hc
        · exact ⟨_, List.mem_append_right _ List.mem_cons_self, by simp [LTagMajor.remove]⟩
        · exact ⟨c, List.mem_append_right _ (List.mem_cons_of_mem _ hc), by simp⟩
      unfold free
      rw [if_neg hnull]
      simp only [hmagic, ne_eq, not_true_eq_false, if_false, hfind]
      split
      · rw [withoutBlock_best]
        cases hb : h.bestBet with
        | none => exact ⟨_, rfl⟩
        | some b =>
          obtain ⟨best, hfound⟩ := hbest b hb
          simp only [withoutBlock_chunks, hfound]
          split
          · exact ⟨_, rfl⟩
          · exact ⟨_, rfl⟩
      · exact ⟨_, rfl⟩
  · exact ⟨_, by rw [free, if_neg hnull, if_pos hmagic]⟩

/-- The heap does to the pointers in use what its clients expect of it. -/
structure HeapRefines (src : PageSource σ) (h : LAllocator) (s : σ) : Prop where
  malloc : ∀ reqSize : Int, chunkPages (sizeAlign reqSize.toNat) ≤ 2 ^ 20 →
    ∃ run, (∀ fuel, 2 * h.chunks.length + 1 ≤ fuel →
      malloc src fuel h s reqSize = .ok (some run)) ∧
      ((run.ptr = none ∧ run.heap.live = h.live) ∨ ∃ ptr, run.ptr = some ptr ∧
        0 < reqSize ∧ h.live ptr = none ∧
        run.heap.live = Function.update h.live ptr (some reqSize.toNat))
  free : ∀ ptr, FreeOk h ptr → ∃ r, free src h s ptr = .ok r ∧
    r.1.live = Function.update h.live ptr none

theorem HeapInv.malloc_live (I : HeapInv src N h s) {size req : Nat} {run : MallocRun σ}
    (hout : Outcome src h s size req run) (hb : BlockSize size req) (hN : N ≤ 2 ^ 20)
    (hsize : chunkPages size ≤ N) :
    (run.ptr = none ∧ run.heap.live = h.live) ∨ ∃ ptr, run.ptr = some ptr ∧
      h.live ptr = none ∧ run.heap.live = Function.update h.live ptr (some req) := by
  have I' := hout.inv I hN hsize hb
  rcases hout.blocks I I' hb with ⟨hnone, hsame⟩ | ⟨tag, hptr, hfresh, hblocks⟩
  · refine .inl ⟨hnone, ?_⟩
    funext ptr
    rw [LAllocator.live, LAllocator.live, hsame]
  · have hreq : (newMinor tag size req).reqSize = req :=
      Nat.mod_eq_of_lt (Nat.lt_of_le_of_lt hb.req.2 hb.lt)
    have hnone : h.live (tag + sizeofMinor) = none :=
      I.live_none_iff.mpr fun min hmin heq => hfresh min hmin (Nat.add_right_cancel heq)
    refine .inr ⟨tag + sizeofMinor, hptr, hnone, ?_⟩
    funext ptr
    apply Option.ext
    intro n
    rw [Function.update_apply, I'.live_iff]
    split
    · rename_i heq
      constructor
      · rintro ⟨min, hmin, hat, rfl⟩
        rcases (hblocks min).mp hmin with hold | rfl
        · exact absurd (Nat.add_right_cancel (hat.trans heq)) (hfresh min hold)
        · exact congrArg some hreq.symm
      · rintro ⟨⟩
        exact ⟨_, (hblocks _).mpr (.inr rfl), heq.symm, hreq⟩
    · rename_i hne
      rw [I.live_iff]
      constructor
      · rintro ⟨min, hmin, hat, hn⟩
        rcases (hblocks min).mp hmin with hold | rfl
        · exact ⟨min, hold, hat, hn⟩
        · exact absurd hat.symm hne
      · rintro ⟨min, hmin, hat, hn⟩
        exact ⟨min, (hblocks min).mpr (.inl hmin), hat, hn⟩

/-- A tag that `free` finds is dead afterwards. -/
theorem free_magic {ptr : Nat} {r : LAllocator × σ} (hnull : ptr ≠ 0)
    (hmagic : h.magic (ptr - sizeofMinor) = liballocMagic) (hrun : free src h s ptr = .ok r) :
    r.1.magic (ptr - sizeofMinor) = liballocDead := by
  have hdead : ∀ (l : List LTagMajor) (size : Nat),
      (h.withoutBlock l (ptr - sizeofMinor) size).magic (ptr - sizeofMinor) = liballocDead :=
    fun l size => Function.update_self ..
  unfold free at hrun
  rw [if_neg hnull] at hrun
  simp only [hmagic, ne_eq, not_true_eq_false, if_false] at hrun
  cases hfind : findTag h.chunks (ptr - sizeofMinor) with
  | none =>
    rw [hfind] at hrun
    cases hrun
  | some found =>
    obtain ⟨i, maj, min⟩ := found
    have hd := hdead (h.chunks.set i (maj.remove (ptr - sizeofMinor) min.size)) min.size
    rw [hfind] at hrun
    simp only at hrun
    split at hrun
    · split at hrun
      · cases hrun
        exact hd
      split at hrun
      · cases hrun
      split at hrun
      · cases hrun
        exact hd
      · cases hrun
        exact hd
    · cases hrun
      exact hd

theorem HeapInv.free_live (I : HeapInv src N h s) {ptr : Nat}
    {r : LAllocator × σ} (hrun : free src h s ptr = .ok r) :
    r.1.live = Function.update h.live ptr none := by
  have htags := tags
  have hfreed := free_cases hrun
  have I' := hfreed.inv I
  funext p
  apply Option.ext
  intro n
  rw [Function.update_apply]
  rcases hfreed.blocks I with rfl | ⟨min, hmin, htag, hblocks⟩
  · split
    · rename_i heq
      subst heq
      -- nothing has been freed, so there was no tag in front of the pointer
      have hnone : h.live p = none := by
        rw [I.live_none_iff]
        rintro min hmin rfl
        obtain ⟨maj, hmaj, hin⟩ := mem_blocks.mp hmin
        have hmagic := I.magic maj hmaj min hin
        have hsub : min.addr + sizeofMinor - sizeofMinor = min.addr := Nat.add_sub_cancel ..
        have hdead := free_magic (by omega) (by rw [hsub]; exact hmagic) hrun
        rw [hsub, hmagic] at hdead
        exact absurd hdead (by decide)
      rw [hnone]
    · rfl
  · obtain ⟨maj, -, k, hheld, -, -, hlo, -⟩ := I.block hmin
    have hpos := (src.held_run hheld).2.1
    rw [I'.live_iff]
    split
    · rename_i heq
      constructor
      · rintro ⟨m, hm, hat, rfl⟩
        exact absurd (by omega) ((hblocks m).mp hm).2
      · intro hn
        cases hn
    · rename_i hne
      rw [I.live_iff]
      constructor
      · rintro ⟨m, hm, hat, hn⟩
        exact ⟨m, ((hblocks m).mp hm).1, hat, hn⟩
      · rintro ⟨m, hm, hat, hn⟩
        refine ⟨m, (hblocks m).mpr ⟨hm, fun heq => hne ?_⟩, hat, hn⟩
        omega

theorem HeapInv.refines (I : HeapInv src (2 ^ 20) h s) : HeapRefines src h s := by
  refine ⟨fun reqSize hsize => ?_, fun ptr hptr => ?_⟩
  · by_cases hreq : 0 < reqSize
    · obtain ⟨run, hrun, hout, -⟩ := malloc_spec I hreq hsize
      have hb := @sizeAlign_block reqSize.toNat (by omega) hsize
      refine ⟨run, hrun, ?_⟩
      rcases I.malloc_live hout hb (Nat.le_refl _) hsize with hnone | ⟨ptr, hptr, hfresh, hlive⟩
      · exact .inl hnone
      · exact .inr ⟨ptr, hptr, hreq, hfresh, hlive⟩
    · refine ⟨⟨none, h, s, [], []⟩, fun fuel _ => ?_, .inl ⟨rfl, rfl⟩⟩
      rw [malloc, if_pos (by omega)]
  · obtain ⟨r, hrun⟩ := I.free_ok hptr
    exact ⟨r, hrun, I.free_live hrun⟩

/-- In every reachable state `malloc` and `free` end and do what their clients expect. -/
theorem heap_refines_map (hr : Reached src (2 ^ 20) (h, s)) : HeapRefines src h s :=
  (hr.inv (Nat.le_refl _)).refines

/-- The heap after two requests and the release of the first block. -/
theorem heap_refines_map_sample : ∃ (h h' : LAllocator) (s s' : Fin 2 → Bool),
    h.live 4176 = some 8 ∧ h.live 4224 = some 24 ∧ free sampleSource h s 4176 = .ok (h', s') ∧
      h'.live 4176 = none ∧ h'.live 4224 = some 24 ∧
      HeapRefines sampleSource h s ∧ HeapRefines sampleSource h' s' := by
  obtain ⟨r₁, r₂, h₁, h₂, hp₁, hp₂, hl₁, hl₂, hr⟩ := sampleSource_blocks
  have I := hr.inv (Nat.le_refl _)
  obtain ⟨min, hmin, htag, -⟩ := I.live_iff.mp hl₁
  obtain ⟨maj, hmaj, hin⟩ := mem_blocks.mp hmin
  have hok : FreeOk r₂.heap 4176 := .inr (.inr ⟨maj, hmaj, min, hin, by omega⟩)
  have hmap := heap_refines_map hr
  obtain ⟨r, hfree, hlive⟩ := hmap.free 4176 hok
  refine ⟨r₂.heap, r.1, r₂.source, r.2, hl₁, hl₂, hfree, ?_, ?_, hmap,
    heap_refines_map (hr.step (.free hok hfree))⟩
  · rw [hlive, Function.update_self]
  · rw [hlive, Function.update_of_ne (by decide), hl₂]

end OsKernel.Mm.Liballoc

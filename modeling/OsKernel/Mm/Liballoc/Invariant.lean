import OsKernel.Mm.Liballoc.Search

/-! What holds of the heap between the calls, and what `malloc` and `free` do to it. -/

namespace OsKernel.Mm.Liballoc

open Lib

variable {σ : Type} {src : PageSource σ} {N : Nat} {h : LAllocator} {s : σ}

/-- A heap whose chunks have at most `N` pages. -/
structure HeapInv (src : PageSource σ) (N : Nat) (h : LAllocator) (s : σ) : Prop where
  chunks : ∀ maj ∈ h.chunks, ∃ n, src.held s maj.addr = some n ∧ n ≤ N ∧ ChunkOk maj n
  used : ∀ maj ∈ h.chunks, maj.minors ≠ []
  nodup : (addrs h).Nodup
  best : ∀ x, h.bestBet = some x → x ∈ addrs h
  magic : ∀ maj ∈ h.chunks, ∀ min ∈ maj.minors, h.magic min.addr = liballocMagic

theorem sizeAlign_block {req : Nat} (hreq : 0 < req)
    (hsize : chunkPages (sizeAlign req) ≤ 2 ^ 20) :
    BlockSize (sizeAlign req) req := by
  have htags := tags
  unfold chunkPages at hsize
  unfold sizeAlign at *
  exact ⟨by omega, ⟨hreq, by omega⟩, by omega⟩

/-! ### `malloc` -/

theorem looking_start (hb : ∀ x, h.bestBet = some x → x ∈ addrs h) (pos : Nat) (bet : Bool)
    (best : Nat) : Looking h s ⟨h, s, pos, bet, best, [], []⟩ :=
  ⟨⟨h.bestBet, rfl, hb⟩, rfl, rfl⟩

/-- The search begins at the first chunk or at the best bet. -/
theorem startSearch_ok (hb : ∀ x, h.bestBet = some x → x ∈ addrs h) (size : Nat) :
    ∃ st, startSearch size h s [] = .ok st ∧ Looking h s st ∧ st.visits = [] ∧
      ((st.pos = 0 ∧ st.startedBet = false) ∨ (st.startedBet = true ∧ ∃ before c behind,
        h.chunks = before ++ c :: behind ∧ st.pos = before.length ∧
          h.bestBet = some c.addr)) := by
  have hlook := looking_start (s := s) hb
  unfold startSearch
  cases hbest : h.bestBet with
  | none => exact ⟨_, rfl, hlook _ _ _, rfl, .inl ⟨rfl, rfl⟩⟩
  | some b =>
    obtain ⟨c, hc, hcb⟩ := List.mem_map.mp (hb b hbest)
    have hfind : (h.chunks.find? (·.addr = b)).isSome := by
      rw [List.find?_isSome]
      exact ⟨c, hc, by simpa using hcb⟩
    have hidx : (h.chunks.findIdx? (·.addr = b)).isSome := by
      rw [List.findIdx?_isSome, List.any_eq_true]
      exact ⟨c, hc, by simpa using hcb⟩
    obtain ⟨maj, hmaj⟩ := Option.isSome_iff_exists.mp hfind
    obtain ⟨i, hi⟩ := Option.isSome_iff_exists.mp hidx
    simp only [hmaj, hi]
    split
    · refine ⟨_, rfl, hlook _ _ _, rfl, .inr ⟨rfl, ?_⟩⟩
      obtain ⟨hlt, hat, -⟩ := List.findIdx?_eq_some_iff_getElem.mp hi
      refine ⟨h.chunks.take i, h.chunks[i], h.chunks.drop (i + 1), ?_, ?_, ?_⟩
      · rw [List.getElem_cons_drop, List.take_append_drop]
      · rw [List.length_take, Nat.min_eq_left (by omega)]
      · rw [of_decide_eq_true hat]
    · exact ⟨_, rfl, hlook _ _ _, rfl, .inl ⟨rfl, rfl⟩⟩

/-- The search in a heap that has got its first chunk. -/
def rootState (h : LAllocator) (a size : Nat) (s' : σ) : SearchState σ where
  heap := { h.withChunk (newChunk a size).size with chunks := [newChunk a size] }
  source := s'
  pos := 0
  startedBet := false
  bestSize := 0
  visits := []
  asked := [some a]

theorem rootState_new (hc : h.chunks = []) (hno : h.bestBet = none) (a size : Nat) (s' : σ) :
    AtNew h a size s' (rootState h a size s') := by
  refine ⟨⟨h.bestBet, ?_, fun x hx => ?_⟩, rfl, rfl, by rw [hc]; rfl⟩
  · change { h.withChunk (newChunk a size).size with chunks := [newChunk a size] } =
      { h.withChunk (newChunk a size).size with chunks := h.chunks ++ [newChunk a size] }
    rw [hc, List.nil_append]
  · rw [hno] at hx
    cases hx

theorem startSearch_root (hno : h.bestBet = none) (a size : Nat) (s' : σ) :
    startSearch size { h.withChunk (newChunk a size).size with chunks := [newChunk a size] }
      s' [some a] = .ok (rootState h a size s') := by
  have hbest : ∀ h' : LAllocator, h'.bestBet = none → startSearch size h' s' [some a] =
      .ok ⟨h', s', 0, false, 0, [], [some a]⟩ := by
    intro h' hno'
    unfold startSearch
    rw [hno']
  apply hbest
  change (h.withChunk (newChunk a size).size).bestBet = none
  rw [withChunk_best, hno]

/-- The chunks at which `malloc` looks: those from the best bet on, and then those from the first
one on, each as far as it goes. -/
def VisitsTwice (h : LAllocator) (run : MallocRun σ) : Prop :=
  ∃ front bet root, run.visits = bet ++ root ∧ front ++ bet <+: addrs run.heap ∧
    (bet = [] ∨ bet.head? = h.bestBet) ∧ root <+: addrs run.heap

/-- `malloc` ends, and its loop takes at most two turns for each chunk and one more. -/
theorem malloc_spec (I : HeapInv src N h s) {reqSize : Int} (hreq : 0 < reqSize)
    (hsize : chunkPages (sizeAlign reqSize.toNat) ≤ 2 ^ 20) :
    ∃ run, (∀ fuel, 2 * h.chunks.length + 1 ≤ fuel →
      malloc src fuel h s reqSize = .ok (some run)) ∧
      Outcome src h s (sizeAlign reqSize.toNat) reqSize.toNat run ∧ VisitsTwice h run := by
  have hnot : ¬reqSize ≤ 0 := by omega
  cases hchunks : h.chunks with
  | nil =>
    have hno : h.bestBet = none := by
      cases hbest : h.bestBet with
      | none => rfl
      | some b =>
        have := I.best b hbest
        rw [addrs, hchunks] at this
        cases this
    have hnone : ∀ maj ∈ h.chunks, Refuses maj (sizeAlign reqSize.toNat) reqSize.toNat := by
      rw [hchunks]
      simp
    rcases halloc : src.allocPages s (chunkPages (sizeAlign reqSize.toNat)) with ⟨_ | a, s'⟩
    · refine ⟨⟨none, h, s', [], [none]⟩, fun fuel _ => ?_, .refused hnone halloc I.best, [],
        [], [], rfl, List.nil_prefix, .inl rfl, List.nil_prefix⟩
      unfold malloc
      simp only [if_neg hnot, hchunks, allocateNewChunk_none halloc]
    · have hnew := rootState_new hchunks hno a (sizeAlign reqSize.toNat) s'
      have hplace := newChunk_place a (sizeAlign reqSize.toNat) reqSize.toNat
      refine ⟨((rootState h a (sizeAlign reqSize.toNat) s').look
        (newChunk a (sizeAlign reqSize.toNat))).placed
        ((newChunk a (sizeAlign reqSize.toNat)).grow
          [newMinor (a + sizeofMajor) (sizeAlign reqSize.toNat) reqSize.toNat]
          (sizeAlign reqSize.toNat))
        (a + sizeofMajor) (sizeAlign reqSize.toNat), fun fuel hfuel => ?_,
        hnew.look.placed hnone halloc,
        [], [], [a], ?_, List.nil_prefix, .inl rfl, ?_⟩
      · obtain ⟨fuel, rfl⟩ : ∃ f, fuel = f + 1 := ⟨fuel - 1, by omega⟩
        unfold malloc
        simp only [if_neg hnot, hchunks, allocateNewChunk_some halloc, newChunk_addr]
        rw [startSearch_root hno, ok_bind,
          search_done (turn_placed hnew.maj_eq (newChunk_diff _ hsize) hplace)]
      · have hvisits : (rootState h a (sizeAlign reqSize.toNat) s').visits = [] := rfl
        rw [placed_visits, look_visits, hvisits, newChunk_addr]
      · rw [hnew.look.addrs_placed rfl, addrs, hchunks]
        exact List.prefix_refl _
  | cons c rest =>
    have hmalloc : ∀ fuel, malloc src fuel h s reqSize = (do
        let st ← startSearch (sizeAlign reqSize.toNat) h s []
        .ok (search src (sizeAlign reqSize.toNat) reqSize.toNat fuel st)) := by
      intro fuel
      unfold malloc
      rw [if_neg hnot, hchunks]
    obtain ⟨st, hstart, hst, hvisits, hcase⟩ :=
      startSearch_ok (s := s) I.best (sizeAlign reqSize.toNat)
    simp only [hmalloc, hstart, ok_bind]
    rcases hcase with ⟨hpos, hbet⟩ | ⟨hbet, before, c', behind, hl, hpos, hbest⟩
    · obtain ⟨run, hrun, hout, root, hroot, hpre⟩ :=
        search_root hsize (c :: rest) [] (by simp) hchunks
        (by simp) hst hpos hbet
      refine ⟨run, fun fuel hfuel => ?_, hout, [], [], root, ?_, ?_, .inl rfl, hpre⟩
      · rw [hrun fuel (by omega)]
      · rw [hroot, hvisits]
      · exact List.nil_prefix
    · obtain ⟨run, hrun, hout, bet, root, hroot, hpre, hhead, hroot'⟩ :=
        search_bet hsize (c' :: behind) before (by simp) hl hst hpos hbet
      refine ⟨run, fun fuel hfuel => ?_, hout, before.map LTagMajor.addr, bet, root, ?_, hpre,
        .inr ?_, hroot'⟩
      · have hlen := congrArg List.length hl
        rw [hchunks, List.length_append] at hlen
        rw [hrun fuel (by rw [hchunks]; omega)]
      · rw [hroot, hvisits]
        rfl
      · rw [hhead, hbest]
        rfl

/-! ### The heap after `malloc` -/

theorem newChunk_ok {a size : Nat} (ha : a % 4096 = 0) (hsize : chunkPages size ≤ 2 ^ 20) :
    ChunkOk (newChunk a size) (chunkPages size) := by
  have htags := tags
  have hpages : 16 ≤ chunkPages size := Nat.le_max_right _ _
  have haddr := newChunk_addr a size
  refine ⟨?_, hsize, by omega, rfl, ?_, fun min hmin => by cases hmin⟩
  · rw [Nat.mul_comm]
    rfl
  · change _ ≤ _
    omega

theorem place_minors {maj maj' : LTagMajor} {n size req tag : Nat} (ok : ChunkOk maj n)
    (hb : BlockSize size req) (hroom : size + sizeofMinor ≤ maj.diff)
    (hp : maj.place size req = some (maj', tag)) {min : LTagMinor} :
    min ∈ maj'.minors ↔ min ∈ maj.minors ∨ min = newMinor tag size req := by
  obtain ⟨before, behind, hmins, rfl, -⟩ := place_some ok hb hroom hp
  rw [hmins]
  simp only [LTagMajor.grow, List.mem_append, List.mem_cons]
  tauto

theorem Outcome.inv {size req : Nat} {run : MallocRun σ} (I : HeapInv src N h s)
    (hout : Outcome src h s size req run) (hN : N ≤ 2 ^ 20) (hsize : chunkPages size ≤ N)
    (hb : BlockSize size req) : HeapInv src N run.heap run.source := by
  cases hout with
  | @placed before behind maj maj' tag b visits hl hroom hp hbest =>
    have hmem : maj ∈ h.chunks := by
      rw [hl]
      simp
    obtain ⟨n, hheld, hn, ok⟩ := I.chunks maj hmem
    obtain ⟨_, _, -, -, ok'⟩ := place_some ok hb hroom hp
    have haddrs : addrs (({ h with bestBet := b }.withBlock (before ++ maj' :: behind) tag size)) =
        addrs h := by
      rw [addrs_withBlock, addrs, hl, List.map_append, List.map_append, List.map_cons,
        List.map_cons, place_addr hp]
    have hold : ∀ c ∈ before ++ maj' :: behind, c = maj' ∨ c ∈ h.chunks := by
      intro c hc
      rw [hl]
      simp only [List.mem_append, List.mem_cons] at hc ⊢
      tauto
    refine ⟨fun c hc => ?_, fun c hc => ?_, haddrs ▸ I.nodup, fun x hx => haddrs ▸ hbest x hx,
      fun c hc min hmin => ?_⟩
    · rcases hold c hc with rfl | hc
      · exact ⟨n, by rw [place_addr hp]; exact hheld, hn, ok'⟩
      · exact I.chunks c hc
    · rcases hold c hc with rfl | hc
      · exact List.ne_nil_of_mem ((place_minors ok hb hroom hp).mpr (.inr rfl))
      · exact I.used c hc
    · have hupd : Function.update h.magic tag liballocMagic min.addr = liballocMagic := by
        rw [Function.update_apply]
        split
        · rfl
        rename_i hne
        rcases hold c hc with rfl | hc
        · rcases (place_minors ok hb hroom hp).mp hmin with hmin | rfl
          · exact I.magic maj hmem min hmin
          · exact absurd rfl hne
        · exact I.magic c hc min hmin
      exact hupd
  | @fresh a s' b visits hall halloc hbest =>
    have hpages : 16 ≤ chunkPages size := Nat.le_max_right _ _
    obtain ⟨hnone, hheld⟩ := src.alloc_some (by omega) halloc
    have hat : src.held s' a = some (chunkPages size) := by
      rw [hheld, Function.update_self]
    obtain ⟨-, -, hal, -⟩ := src.held_run hat
    have okNew := newChunk_ok hal (hsize.trans hN)
    have hroom := newChunk_diff a (hsize.trans hN)
    have hplace := newChunk_place a size req
    obtain ⟨_, _, -, -, ok⟩ := place_some okNew hb hroom hplace
    have hne : ∀ c ∈ h.chunks, c.addr ≠ a := by
      intro c hc heq
      obtain ⟨n, hn, -⟩ := I.chunks c hc
      rw [heq, hnone] at hn
      cases hn
    have haddrs := addrs_withBlock ({ h with bestBet := b }.withChunk (newChunk a size).size)
      (h.chunks ++ [(newChunk a size).grow [newMinor (a + sizeofMajor) size req] size])
      (a + sizeofMajor) size
    rw [List.map_append, List.map_cons, List.map_nil, grow_addr, newChunk_addr] at haddrs
    refine ⟨fun c hc => ?_, fun c hc => ?_, ?_, fun x hx => ?_, fun c hc min hmin => ?_⟩
    · rcases List.mem_append.mp hc with hc | hc
      · obtain ⟨n, hn, hrest⟩ := I.chunks c hc
        exact ⟨n, by rw [hheld, Function.update_of_ne (hne c hc)]; exact hn, hrest⟩
      · rw [List.mem_singleton.mp hc]
        exact ⟨_, hat, hsize, ok⟩
    · rcases List.mem_append.mp hc with hc | hc
      · exact I.used c hc
      · rw [List.mem_singleton.mp hc]
        exact List.cons_ne_nil _ _
    · simp only
      rw [haddrs, List.nodup_append]
      refine ⟨I.nodup, by simp, fun x hx y hy => ?_⟩
      obtain ⟨c, hc, rfl⟩ := List.mem_map.mp hx
      rw [List.mem_singleton.mp hy]
      exact hne c hc
    · simp only
      rw [haddrs, List.mem_append, List.mem_singleton]
      rw [withBlock_best, withChunk_best] at hx
      exact hbest x hx
    · rw [withBlock_magic, withChunk_magic, Function.update_apply]
      split
      · rfl
      rename_i hother
      rcases List.mem_append.mp hc with hc | hc
      · exact I.magic c hc min hmin
      · rw [List.mem_singleton.mp hc] at hmin
        rw [List.mem_singleton.mp hmin] at hother
        exact absurd rfl hother
  | refused hall halloc hbest =>
    have hheld := src.alloc_none halloc
    refine ⟨fun c hc => ?_, I.used, I.nodup, hbest, I.magic⟩
    obtain ⟨n, hn⟩ := I.chunks c hc
    exact ⟨n, by rw [hheld]; exact hn.1, hn.2⟩

/-! ### `free` -/

theorem findTag_some {chunks : List LTagMajor} {tag i : Nat} {maj : LTagMajor} {min : LTagMinor}
    (h : findTag chunks tag = some (i, maj, min)) :
    ∃ before behind, chunks = before ++ maj :: behind ∧ i = before.length ∧
      min ∈ maj.minors ∧ min.addr = tag := by
  obtain ⟨⟨c, j⟩, hmem, hfind⟩ := List.exists_of_findSome?_eq_some h
  obtain ⟨m, hm, heq⟩ := Option.map_eq_some_iff.mp hfind
  cases heq
  have hat := List.mem_zipIdx_iff_getElem?.mp hmem
  obtain ⟨hlt, hget⟩ := List.getElem?_eq_some_iff.mp hat
  simp only at hlt hget
  refine ⟨chunks.take i, chunks.drop (i + 1), ?_, ?_, List.mem_of_find?_eq_some hm, ?_⟩
  · rw [← hget, List.getElem_cons_drop, List.take_append_drop]
  · rw [List.length_take, Nat.min_eq_left (by omega)]
  · simpa using List.find?_some hm

/-- What `free` has done when it returns. -/
inductive Freed (src : PageSource σ) (h : LAllocator) (s : σ) (ptr : Nat) : LAllocator × σ →
    Prop
  | nothing : Freed src h s ptr (h, s)
  | block {before behind : List LTagMajor} {maj : LTagMajor} {min : LTagMinor} {b : Option Nat}
      (hl : h.chunks = before ++ maj :: behind) (hmin : min ∈ maj.minors)
      (htag : min.addr = ptr - sizeofMinor) (hleft : (maj.remove min.addr min.size).minors ≠ [])
      (hb : b = h.bestBet ∨ b = some maj.addr) :
      Freed src h s ptr ({ h with bestBet := b }.withoutBlock
        (before ++ maj.remove min.addr min.size :: behind) min.addr min.size, s)
  | chunk {before behind : List LTagMajor} {maj : LTagMajor} {min : LTagMinor}
      (hl : h.chunks = before ++ maj :: behind) (hmin : min ∈ maj.minors)
      (htag : min.addr = ptr - sizeofMinor) (hempty : (maj.remove min.addr min.size).minors = []) :
      Freed src h s ptr
        ((h.withoutBlock (before ++ maj.remove min.addr min.size :: behind)
          min.addr min.size).withoutChunk (before ++ behind) maj.addr maj.size,
          src.freePages s maj.addr)

theorem withoutBlock_chunks (h : LAllocator) (l : List LTagMajor) (tag size : Nat) :
    (h.withoutBlock l tag size).chunks = l := rfl

theorem withoutBlock_best (h : LAllocator) (l : List LTagMajor) (tag size : Nat) :
    (h.withoutBlock l tag size).bestBet = h.bestBet := by
  have hmk : ∀ c b x y z m,
      ((⟨c, b, x, y, z, m⟩ : LAllocator).withoutBlock l tag size).bestBet = b :=
    fun _ _ _ _ _ _ => rfl
  cases h
  exact hmk ..

theorem withoutChunk_best (h : LAllocator) (l : List LTagMajor) (addr size : Nat) :
    (h.withoutChunk l addr size).bestBet = if h.bestBet = some addr then none else h.bestBet := rfl

theorem free_cases {ptr : Nat} {r : LAllocator × σ} (hrun : free src h s ptr = .ok r) :
    Freed src h s ptr r := by
  unfold free at hrun
  simp only at hrun
  split at hrun
  · cases hrun
    exact .nothing
  split at hrun
  · cases hrun
    exact .nothing
  cases hfind : findTag h.chunks (ptr - sizeofMinor) with
  | none =>
    rw [hfind] at hrun
    cases hrun
  | some x =>
    obtain ⟨i, maj, min⟩ := x
    rw [hfind] at hrun
    obtain ⟨before, behind, hl, rfl, hmin, htag⟩ := findTag_some hfind
    have hset : h.chunks.set before.length (maj.remove (ptr - sizeofMinor) min.size) =
        before ++ maj.remove (ptr - sizeofMinor) min.size :: behind := by
      rw [hl, List.set_append_right _ _ (Nat.le_refl _), Nat.sub_self, List.set_cons_zero]
    simp only [hset] at hrun
    rw [← htag] at hrun
    have hkeep : (maj.remove min.addr min.size).minors ≠ [] → Freed src h s ptr (h.withoutBlock
        (before ++ maj.remove min.addr min.size :: behind) min.addr min.size, s) :=
      fun hleft => .block hl hmin htag hleft (.inl rfl)
    split at hrun
    · rename_i hleft
      split at hrun
      · cases hrun
        exact hkeep hleft
      split at hrun
      · cases hrun
      split at hrun
      · cases hrun
        exact .block hl hmin htag hleft (.inr rfl)
      · cases hrun
        exact hkeep hleft
    · rename_i hempty
      have herase : (h.withoutBlock (before ++ maj.remove min.addr min.size :: behind) min.addr
          min.size).chunks.eraseIdx before.length = before ++ behind := by
        rw [withoutBlock_chunks, List.eraseIdx_append_of_length_le (Nat.le_refl _), Nat.sub_self,
          List.eraseIdx_cons_zero]
      rw [herase] at hrun
      cases hrun
      exact .chunk hl hmin htag (not_not.mp hempty)

/-- Tags of two chunks are at two addresses. -/
theorem HeapInv.tags_ne (I : HeapInv src N h s) {maj maj' : LTagMajor} {min min' : LTagMinor}
    (hm : maj ∈ h.chunks) (hm' : maj' ∈ h.chunks) (hne : maj.addr ≠ maj'.addr)
    (hmin : min ∈ maj.minors)
    (hmin' : min' ∈ maj'.minors) :
    min.addr + min.span ≤ min'.addr ∨ min'.addr + min'.span ≤ min.addr := by
  have htags := tags
  obtain ⟨n, hheld, -, ok⟩ := I.chunks maj hm
  obtain ⟨n', hheld', -, ok'⟩ := I.chunks maj' hm'
  have hin := ok.minor_lt hmin
  have hin' := ok'.minor_lt hmin'
  rcases src.apart hheld hheld' hne with hapart | hapart
  · left
    omega
  · right
    omega

theorem HeapInv.addr_ne (I : HeapInv src N h s) {before behind : List LTagMajor} {maj c : LTagMajor}
    (hl : h.chunks = before ++ maj :: behind) (hc : c ∈ before ++ behind) :
      c.addr ≠ maj.addr := by
  have hnodup := I.nodup
  rw [addrs, hl, List.map_append, List.map_cons, List.nodup_append, List.nodup_cons] at hnodup
  rcases List.mem_append.mp hc with hc | hc
  · exact hnodup.2.2 _ (List.mem_map_of_mem hc) _ List.mem_cons_self
  · intro heq
    exact hnodup.2.1.1 (heq ▸ List.mem_map_of_mem hc)

theorem span_pos (min : LTagMinor) : 0 < min.span := by
  have htags := tags
  unfold LTagMinor.span
  omega

theorem Freed.inv {ptr : Nat} {r : LAllocator × σ} (I : HeapInv src N h s)
    (hr : Freed src h s ptr r) : HeapInv src N r.1 r.2 := by
  cases hr with
  | nothing => exact I
  | @block before behind maj min b hl hmin htag hleft hb =>
    have hmem : maj ∈ h.chunks := by
      rw [hl]
      simp
    obtain ⟨n, hheld, hn, ok⟩ := I.chunks maj hmem
    obtain ⟨mbefore, mbehind, hmins, hmins', ok'⟩ := ok.remove hmin
    have haddrs : addrs ({ h with bestBet := b }.withoutBlock
        (before ++ maj.remove min.addr min.size :: behind) min.addr min.size) = addrs h := by
      change List.map _ (before ++ maj.remove min.addr min.size :: behind) = _
      rw [addrs, hl, List.map_append, List.map_append, List.map_cons, List.map_cons]
      rfl
    have hold : ∀ c ∈ before ++ maj.remove min.addr min.size :: behind,
        c = maj.remove min.addr min.size ∨ (c ∈ h.chunks ∧ c.addr ≠ maj.addr) := by
      intro c hc
      have hother := fun hc => I.addr_ne hl (c := c) hc
      rw [hl]
      simp only [List.mem_append, List.mem_cons] at hc hother ⊢
      tauto
    refine ⟨fun c hc => ?_, fun c hc => ?_, haddrs ▸ I.nodup, fun x hx => ?_,
      fun c hc m hm => ?_⟩
    · rcases hold c hc with rfl | hc
      · exact ⟨n, hheld, hn, ok'⟩
      · exact I.chunks c hc.1
    · rcases hold c hc with rfl | hc
      · exact hleft
      · exact I.used c hc.1
    · rw [haddrs]
      have hx' : b = some x := hx
      rcases hb with rfl | rfl
      · exact I.best x hx'
      · cases hx'
        exact List.mem_map_of_mem hmem
    · have hne : m.addr ≠ min.addr ∧ h.magic m.addr = liballocMagic := by
        rcases hold c hc with rfl | ⟨hc, hne⟩
        · have hfilter : m ∈ maj.minors.filter (·.addr ≠ min.addr) := hm
          rw [List.mem_filter] at hfilter
          exact ⟨by simpa using hfilter.2, I.magic maj hmem m hfilter.1⟩
        · have hapart := I.tags_ne hc hmem hne hm hmin
          have h1 := span_pos m
          have h2 := span_pos min
          exact ⟨by omega, I.magic c hc m hm⟩
      have hupd : Function.update h.magic min.addr liballocDead m.addr = liballocMagic := by
        rw [Function.update_of_ne hne.1]
        exact hne.2
      exact hupd
  | @chunk before behind maj min hl hmin htag hempty =>
    have hmem : maj ∈ h.chunks := by
      rw [hl]
      simp
    have hold : ∀ c ∈ before ++ behind, c ∈ h.chunks ∧ c.addr ≠ maj.addr := by
      intro c hc
      refine ⟨?_, I.addr_ne hl hc⟩
      rw [hl]
      simp only [List.mem_append, List.mem_cons] at hc ⊢
      tauto
    refine ⟨fun c hc => ?_, fun c hc => I.used c (hold c hc).1, ?_, fun x hx => ?_,
      fun c hc m hm => ?_⟩
    · obtain ⟨hc, hne⟩ := hold c hc
      obtain ⟨n, hheld, hrest⟩ := I.chunks c hc
      exact ⟨n, by rw [src.free_held, Function.update_of_ne hne]; exact hheld, hrest⟩
    · have hnodup := I.nodup
      rw [addrs, hl] at hnodup
      exact hnodup.sublist (by simp [addrs, LAllocator.withoutChunk])
    · rw [withoutChunk_best, withoutBlock_best] at hx
      split at hx
      · cases hx
      rename_i hne
      obtain ⟨c, hc, rfl⟩ := List.mem_map.mp (I.best x hx)
      rw [hl] at hc
      have hc' : c ∈ before ++ behind := by
        simp only [List.mem_append, List.mem_cons] at hc ⊢
        rcases hc with hc | rfl | hc
        · exact .inl hc
        · exact absurd hx hne
        · exact .inr hc
      exact List.mem_map_of_mem hc'
    · obtain ⟨hc, hne⟩ := hold c hc
      have hapart := I.tags_ne hc hmem hne hm hmin
      have h1 := span_pos m
      have h2 := span_pos min
      have hupd : Function.update h.magic min.addr liballocDead m.addr = liballocMagic := by
        rw [Function.update_of_ne (by omega)]
        exact I.magic c hc m hm
      exact hupd

/-! ### Runs -/

/-- A heap without chunks. -/
def LAllocator.init (magic : Nat → Nat) : LAllocator := ⟨[], none, 0, 0, 0, magic⟩

/-- The address is null, or of a block in use, or no tag is in front of it. -/
def FreeOk (h : LAllocator) (ptr : Nat) : Prop :=
  ptr = 0 ∨ h.magic (ptr - sizeofMinor) ≠ liballocMagic ∨
    ∃ maj ∈ h.chunks, ∃ min ∈ maj.minors, min.addr = ptr - sizeofMinor

/-- What can happen to the heap and the base allocator: the two calls, stores apart from the tags in
use, and calls of the base allocator for others.  Requests are not for more than `N` pages. -/
inductive HeapStep (src : PageSource σ) (N : Nat) : LAllocator × σ → LAllocator × σ → Prop
  | malloc {h : LAllocator} {s : σ} {fuel : Nat} {reqSize : Int} {run : MallocRun σ}
      (hsize : chunkPages (sizeAlign reqSize.toNat) ≤ N)
      (hrun : malloc src fuel h s reqSize = .ok (some run)) :
      HeapStep src N (h, s) (run.heap, run.source)
  | free {h : LAllocator} {s : σ} {ptr : Nat} {r : LAllocator × σ} (hptr : FreeOk h ptr)
      (hrun : free src h s ptr = .ok r) : HeapStep src N (h, s) r
  | store {h : LAllocator} {s : σ} {magic : Nat → Nat}
      (hkeep : ∀ maj ∈ h.chunks, ∀ min ∈ maj.minors, magic min.addr = h.magic min.addr) :
      HeapStep src N (h, s) ({ h with magic }, s)
  | other {h : LAllocator} {s s' : σ}
      (hkeep : ∀ maj ∈ h.chunks, src.held s' maj.addr = src.held s maj.addr) :
      HeapStep src N (h, s) (h, s')

/-- The states that are reached from an empty heap. -/
inductive Reached (src : PageSource σ) (N : Nat) : LAllocator × σ → Prop
  | init (magic : Nat → Nat) (s : σ) : Reached src N (.init magic, s)
  | step {x y : LAllocator × σ} : Reached src N x → HeapStep src N x y → Reached src N y

theorem search_mono {size req fuel fuel' : Nat} {st : SearchState σ} {run : MallocRun σ}
    (hrun : search src size req fuel st = some run) (hle : fuel ≤ fuel') :
    search src size req fuel' st = some run := by
  induction fuel generalizing fuel' st with
  | zero => cases hrun
  | succ fuel ih =>
    obtain ⟨fuel', rfl⟩ : ∃ f, fuel' = f + 1 := ⟨fuel' - 1, by omega⟩
    rw [search] at hrun ⊢
    cases hturn : turn src size req st with
    | done r =>
      rw [hturn] at hrun
      exact hrun
    | next st' =>
      rw [hturn] at hrun
      exact ih hrun (by omega)

/-- More turns do not change what a call does. -/
theorem malloc_mono {fuel fuel' : Nat} {reqSize : Int} {run : MallocRun σ}
    (hrun : malloc src fuel h s reqSize = .ok (some run)) (hle : fuel ≤ fuel') :
    malloc src fuel' h s reqSize = .ok (some run) := by
  have hsearch : ∀ (size : Nat) (st : Except Fault (SearchState σ)),
      (do let st ← st; .ok (search src size reqSize.toNat fuel st)) = Except.ok (some run) →
      (do let st ← st; .ok (search src size reqSize.toNat fuel' st)) = Except.ok (some run) := by
    intro size st hst
    cases st with
    | error e => cases hst
    | ok st => exact congrArg Except.ok (search_mono (Except.ok.inj hst) hle)
  unfold malloc at *
  split at hrun
  · rename_i hreq
    rw [if_pos hreq]
    exact hrun
  rename_i hreq
  rw [if_neg hreq]
  cases hchunks : h.chunks with
  | nil =>
    rw [hchunks] at hrun
    rcases halloc : allocateNewChunk src h s (sizeAlign reqSize.toNat) with ⟨_ | new, h', s'⟩
    · simp only [halloc] at hrun ⊢
      exact hrun
    · simp only [halloc] at hrun ⊢
      exact hsearch _ _ hrun
  | cons c rest =>
    rw [hchunks] at hrun
    exact hsearch _ _ hrun

/-- A call of `malloc` that has ended. -/
theorem malloc_outcome (I : HeapInv src N h s) (hN : N ≤ 2 ^ 20) {fuel : Nat} {reqSize : Int}
    {run : MallocRun σ} (hsize : chunkPages (sizeAlign reqSize.toNat) ≤ N)
    (hrun : malloc src fuel h s reqSize = .ok (some run)) (hreq : 0 < reqSize) :
    Outcome src h s (sizeAlign reqSize.toNat) reqSize.toNat run := by
  obtain ⟨run', hrun', hout, -⟩ := malloc_spec I hreq (hsize.trans hN)
  have hmore := malloc_mono hrun (Nat.le_add_right fuel (2 * h.chunks.length + 1))
  rw [hrun' _ (by omega)] at hmore
  cases hmore
  exact hout

theorem HeapStep.inv {x y : LAllocator × σ} (hN : N ≤ 2 ^ 20) (hstep : HeapStep src N x y)
    (I : HeapInv src N x.1 x.2) : HeapInv src N y.1 y.2 := by
  cases hstep with
  | @malloc h s fuel reqSize run hsize hrun =>
    by_cases hreq : 0 < reqSize
    · have hpos : 0 < reqSize.toNat := by omega
      have hb := sizeAlign_block hpos (hsize.trans hN)
      exact (malloc_outcome I hN hsize hrun hreq).inv I hN hsize hb
    · unfold Liballoc.malloc at hrun
      rw [if_pos (by omega)] at hrun
      cases hrun
      exact I
  | free hptr hrun => exact (free_cases hrun).inv I
  | store hkeep =>
    exact ⟨I.chunks, I.used, I.nodup, I.best,
      fun c hc m hm => (hkeep c hc m hm).trans (I.magic c hc m hm)⟩
  | other hkeep =>
    refine ⟨fun c hc => ?_, I.used, I.nodup, I.best, I.magic⟩
    rw [hkeep c hc]
    exact I.chunks c hc

theorem Reached.inv {x : LAllocator × σ} (hN : N ≤ 2 ^ 20) (hr : Reached src N x) :
    HeapInv src N x.1 x.2 := by
  induction hr with
  | init magic s =>
    refine ⟨?_, ?_, List.nodup_nil, ?_, ?_⟩ <;> simp [LAllocator.init]
  | step _ hstep ih => exact hstep.inv hN ih

end OsKernel.Mm.Liballoc

import OsKernel.Mm.Liballoc.Chunk

/-! The search of `malloc` over the chunks: it ends, and it tells where the block goes. -/

namespace OsKernel.Mm.Liballoc

variable {σ : Type} {src : PageSource σ}

/-- A block goes to none of the gaps of a chunk. -/
def Refuses (maj : LTagMajor) (size req : Nat) : Prop :=
  maj.diff < size + sizeofMinor ∨ maj.place size req = none

def addrs (h : LAllocator) : List Nat := h.chunks.map LTagMajor.addr

/-- What `malloc` has done at its end. -/
inductive Outcome (src : PageSource σ) (h : LAllocator) (s : σ) (size req : Nat) :
    MallocRun σ → Prop
  | placed {before behind : List LTagMajor} {maj maj' : LTagMajor} {tag : Nat} {b : Option Nat}
      {visits : List Nat} (hl : h.chunks = before ++ maj :: behind)
      (hroom : size + sizeofMinor ≤ maj.diff) (hp : maj.place size req = some (maj', tag))
      (hb : ∀ x, b = some x → x ∈ addrs h) :
      Outcome src h s size req ⟨some (tag + sizeofMinor),
        { h with bestBet := b }.withBlock (before ++ maj' :: behind) tag size, s, visits, []⟩
  | fresh {a : Nat} {s' : σ} {b : Option Nat} {visits : List Nat}
      (hall : ∀ maj ∈ h.chunks, Refuses maj size req)
      (halloc : src.allocPages s (chunkPages size) = (some a, s'))
      (hb : ∀ x, b = some x → x ∈ addrs h ∨ x = a) :
      Outcome src h s size req ⟨some (a + sizeofMajor + sizeofMinor),
        ({ h with bestBet := b }.withChunk (newChunk a size).size).withBlock
          (h.chunks ++ [(newChunk a size).grow [newMinor (a + sizeofMajor) size req] size])
          (a + sizeofMajor) size, s', visits, [some a]⟩
  | refused {s' : σ} {b : Option Nat} {visits : List Nat}
      (hall : ∀ maj ∈ h.chunks, Refuses maj size req)
      (halloc : src.allocPages s (chunkPages size) = (none, s'))
      (hb : ∀ x, b = some x → x ∈ addrs h) :
      Outcome src h s size req ⟨none, { h with bestBet := b }, s', visits, [none]⟩

/-! ### A new chunk -/

theorem newChunk_diff (a : Nat) {size : Nat} (h : chunkPages size ≤ 2 ^ 20) :
    size + sizeofMinor ≤ (newChunk a size).diff := by
  have htags := tags
  unfold newChunk LTagMajor.diff uintSub
  unfold chunkPages at *
  simp only
  omega

theorem newChunk_addr (a size : Nat) : (newChunk a size).addr = a := rfl

theorem withChunk_chunks (h : LAllocator) (size : Nat) : (h.withChunk size).chunks = h.chunks := by
  have hmk : ∀ c b x y z m, ((⟨c, b, x, y, z, m⟩ : LAllocator).withChunk size).chunks = c :=
    fun _ _ _ _ _ _ => rfl
  cases h
  exact hmk ..

theorem withChunk_best (h : LAllocator) (size : Nat) : (h.withChunk size).bestBet = h.bestBet := by
  have hmk : ∀ c b x y z m, ((⟨c, b, x, y, z, m⟩ : LAllocator).withChunk size).bestBet = b :=
    fun _ _ _ _ _ _ => rfl
  cases h
  exact hmk ..

theorem withChunk_magic (h : LAllocator) (size : Nat) : (h.withChunk size).magic = h.magic := by
  have hmk : ∀ c b x y z m, ((⟨c, b, x, y, z, m⟩ : LAllocator).withChunk size).magic = m :=
    fun _ _ _ _ _ _ => rfl
  cases h
  exact hmk ..

theorem withBlock_best (h : LAllocator) (l : List LTagMajor) (tag size : Nat) :
    (h.withBlock l tag size).bestBet = h.bestBet := by
  have hmk :
      ∀ c b x y z m, ((⟨c, b, x, y, z, m⟩ : LAllocator).withBlock l tag size).bestBet = b :=
    fun _ _ _ _ _ _ => rfl
  cases h
  exact hmk ..

theorem withBlock_magic (h : LAllocator) (l : List LTagMajor) (tag size : Nat) :
    (h.withBlock l tag size).magic = Function.update h.magic tag liballocMagic := rfl

theorem grow_addr (maj : LTagMajor) (minors : List LTagMinor) (size : Nat) :
    (maj.grow minors size).addr = maj.addr := by
  have hmk : ∀ a x y l, ((⟨a, x, y, l⟩ : LTagMajor).grow minors size).addr = a :=
    fun _ _ _ _ => rfl
  cases maj
  exact hmk ..

theorem newChunk_place (a size req : Nat) : (newChunk a size).place size req =
    some ((newChunk a size).grow [newMinor (a + sizeofMajor) size req] size, a + sizeofMajor) :=
  place_fresh rfl

theorem allocateNewChunk_none {h : LAllocator} {s s' : σ} {size : Nat}
    (ha : src.allocPages s (chunkPages size) = (none, s')) :
    allocateNewChunk src h s size = (none, h, s') := by
  unfold allocateNewChunk
  rw [ha]

theorem allocateNewChunk_some {h : LAllocator} {s s' : σ} {size a : Nat}
    (ha : src.allocPages s (chunkPages size) = (some a, s')) :
    allocateNewChunk src h s size =
      (some (newChunk a size), h.withChunk (newChunk a size).size, s') := by
  unfold allocateNewChunk
  rw [ha]

/-! ### One turn -/

/-- A state of the search in the heap `h`: only the best bet may be another one. -/
structure Looking (h : LAllocator) (s : σ) (st : SearchState σ) : Prop where
  heap : ∃ b, st.heap = { h with bestBet := b } ∧ ∀ x, b = some x → x ∈ addrs h
  source : st.source = s
  asked : st.asked = []

section

variable {h : LAllocator} {s : σ} {st : SearchState σ} {size req : Nat} {maj : LTagMajor}

/-- The state in which a turn looks at `maj`. -/
def SearchState.look (st : SearchState σ) (maj : LTagMajor) : SearchState σ :=
  (st.visit maj).better maj

@[simp] theorem look_pos : (st.look maj).pos = st.pos := by
  unfold SearchState.look SearchState.better
  split <;> rfl

@[simp] theorem look_startedBet : (st.look maj).startedBet = st.startedBet := by
  unfold SearchState.look SearchState.better
  split <;> rfl

@[simp] theorem look_visits : (st.look maj).visits = st.visits ++ [maj.addr] := by
  unfold SearchState.look SearchState.better
  split <;> rfl

@[simp] theorem look_asked : (st.look maj).asked = st.asked := by
  unfold SearchState.look SearchState.better
  split <;> rfl

@[simp] theorem look_source : (st.look maj).source = st.source := by
  unfold SearchState.look SearchState.better
  split <;> rfl

theorem look_heap (st : SearchState σ) (maj : LTagMajor) : ∃ b,
    (st.look maj).heap = { st.heap with bestBet := b } ∧
    (b = st.heap.bestBet ∨ b = some maj.addr) := by
  unfold SearchState.look SearchState.better
  split
  · exact ⟨_, rfl, .inr rfl⟩
  · exact ⟨_, rfl, .inl rfl⟩

theorem placed_visits (st : SearchState σ) (maj : LTagMajor) (tag size : Nat) :
    (st.placed maj tag size).visits = st.visits := rfl

theorem Looking.chunks (hst : Looking h s st) : st.heap.chunks = h.chunks := by
  obtain ⟨b, hheap, -⟩ := hst.heap
  rw [hheap]

theorem Looking.look (hst : Looking h s st) (hm : maj ∈ h.chunks) :
    Looking h s (st.look maj) := by
  refine ⟨?_, look_source.trans hst.source, look_asked.trans hst.asked⟩
  obtain ⟨b, hheap, hb⟩ := hst.heap
  obtain ⟨b', hlook, hb'⟩ := look_heap st maj
  refine ⟨b', by rw [hlook, hheap], fun x hx => ?_⟩
  rcases hb' with rfl | rfl
  · rw [hheap] at hx
    exact hb x hx
  · cases hx
    exact List.mem_map_of_mem hm

theorem Looking.move (hst : Looking h s st) (pos : Nat) (started : Bool) :
    Looking h s { st with pos := pos, startedBet := started } :=
  ⟨hst.heap, hst.source, hst.asked⟩

theorem look_maj (hm : st.maj = some maj) : (st.look maj).maj = some maj := by
  obtain ⟨b, hheap, -⟩ := look_heap st maj
  unfold SearchState.maj at *
  rw [look_pos, hheap]
  exact hm

theorem turn_eq (hm : st.maj = some maj) : turn src size req st =
    if maj.diff < size + sizeofMinor then
      match moveOn src size (st.look maj) with
      | .stop st => .done st.exhausted
      | .chunk st => .next st
      | .fresh st =>
        match st.maj with
        | none => .done st.exhausted
        | some new => blockCases src size req (st.visit new)
    else blockCases src size req (st.look maj) := by
  unfold turn
  rw [hm]
  rfl

theorem blockCases_placed {maj' : LTagMajor} {tag : Nat} (hm : st.maj = some maj)
    (hp : maj.place size req = some (maj', tag)) :
    blockCases src size req st = .done (st.placed maj' tag size) := by
  unfold blockCases
  simp only [hm, hp]

theorem blockCases_none (hm : st.maj = some maj) (hp : maj.place size req = none) :
    blockCases src size req st =
      match moveOn src size st with
      | .stop st => .done st.exhausted
      | .chunk st => .next st
      | .fresh st => .next st := by
  unfold blockCases
  cases moveOn src size st <;> simp only [hm, hp]

/-- A turn at a chunk that takes the block. -/
theorem turn_placed {maj' : LTagMajor} {tag : Nat} (hm : st.maj = some maj)
    (hroom : size + sizeofMinor ≤ maj.diff) (hp : maj.place size req = some (maj', tag)) :
    turn src size req st = .done ((st.look maj).placed maj' tag size) := by
  rw [turn_eq hm, if_neg (by omega)]
  exact blockCases_placed (look_maj hm) hp

/-- A turn at a chunk that refuses the block goes where `moveOn` leads. -/
theorem turn_chunk {st' : SearchState σ} (hm : st.maj = some maj) (hr : Refuses maj size req)
    (hmove : moveOn src size (st.look maj) = .chunk st') : turn src size req st = .next st' := by
  rw [turn_eq hm]
  split
  · simp only [hmove]
  · rename_i hdiff
    rw [blockCases_none (look_maj hm) (hr.resolve_left hdiff)]
    simp only [hmove]

theorem turn_stop {st' : SearchState σ} (hm : st.maj = some maj) (hr : Refuses maj size req)
    (hmove : moveOn src size (st.look maj) = .stop st') :
      turn src size req st = .done st'.exhausted := by
  rw [turn_eq hm]
  split
  · simp only [hmove]
  · rename_i hdiff
    rw [blockCases_none (look_maj hm) (hr.resolve_left hdiff)]
    simp only [hmove]

/-- A new chunk is looked at in the same turn or in the next one. -/
theorem turn_fresh {st' : SearchState σ} {new : LTagMajor} (hm : st.maj = some maj)
    (hr : Refuses maj size req) (hmove : moveOn src size (st.look maj) = .fresh st')
    (hnew : st'.maj = some new) : turn src size req st = blockCases src size req (st'.visit new) ∨
      turn src size req st = .next st' := by
  rw [turn_eq hm]
  split
  · left
    simp only [hmove, hnew]
  · rename_i hdiff
    right
    rw [blockCases_none (look_maj hm) (hr.resolve_left hdiff)]
    simp only [hmove]

/-! ### Where `moveOn` leads -/

theorem moveOn_next (src : PageSource σ) (size : Nat) (st : SearchState σ)
    (h : st.pos + 1 < st.heap.chunks.length) :
    moveOn src size st = .chunk { st with pos := st.pos + 1 } := if_pos h

variable (src) in
theorem moveOn_root (h : ¬st.pos + 1 < st.heap.chunks.length) (hbet : st.startedBet = true) :
    moveOn src size st = .chunk { st with pos := 0, startedBet := false } := by
  unfold moveOn
  rw [if_neg h, if_pos hbet]

theorem moveOn_stop (h : ¬st.pos + 1 < st.heap.chunks.length) (hbet : st.startedBet = false)
    {s' : σ} (ha : src.allocPages st.source (chunkPages size) = (none, s')) :
    moveOn src size st = .stop { st with source := s', asked := st.asked ++ [none] } := by
  unfold moveOn
  rw [if_neg h, if_neg (by rw [hbet]; decide), allocateNewChunk_none ha]

/-- The state at a new chunk at `a`. -/
def SearchState.toNew (st : SearchState σ) (a size : Nat) (s' : σ) : SearchState σ :=
  { st with
    heap :=
      { st.heap.withChunk (newChunk a size).size with
        chunks := st.heap.chunks ++ [newChunk a size] }
    source := s'
    pos := st.pos + 1
    asked := st.asked ++ [some a] }

variable (src) in
theorem moveOn_fresh (h : ¬st.pos + 1 < st.heap.chunks.length) (hbet : st.startedBet = false)
    {s' : σ}
    {a : Nat} (ha : src.allocPages st.source (chunkPages size) = (some a, s')) :
    moveOn src size st = .fresh (st.toNew a size s') := by
  unfold moveOn SearchState.toNew
  rw [if_neg h, if_neg (by rw [hbet]; decide), allocateNewChunk_some ha]
  simp only [withChunk_chunks, newChunk_addr]

/-! ### The ends of a search -/

theorem Looking.placed {before behind : List LTagMajor} {maj' : LTagMajor} {tag : Nat}
    (hst : Looking h s st) (hl : h.chunks = before ++ maj :: behind) (hpos : st.pos = before.length)
    (hroom : size + sizeofMinor ≤ maj.diff) (hp : maj.place size req = some (maj', tag)) :
    Outcome src h s size req (st.placed maj' tag size) := by
  obtain ⟨b, hheap, hb⟩ := hst.heap
  have hset : st.heap.chunks.set st.pos maj' = before ++ maj' :: behind := by
    rw [hst.chunks, hl, hpos, List.set_append_right _ _ (Nat.le_refl _), Nat.sub_self,
      List.set_cons_zero]
  unfold SearchState.placed
  rw [hset, hheap, hst.source, hst.asked]
  exact .placed hl hroom hp hb

theorem Looking.stopped {s' : σ} (hst : Looking h s st)
    (hall : ∀ maj ∈ h.chunks, Refuses maj size req)
    (ha : src.allocPages s (chunkPages size) = (none, s')) :
    Outcome src h s size req { st with source := s', asked := st.asked ++ [none] }.exhausted := by
  obtain ⟨b, hheap, hb⟩ := hst.heap
  unfold SearchState.exhausted
  simp only
  rw [hheap, hst.asked]
  exact .refused hall ha hb

theorem withBlock_chunks (h : LAllocator) (l l' : List LTagMajor) (tag size : Nat) :
    { h with chunks := l }.withBlock l' tag size = h.withBlock l' tag size := rfl

/-- The state in which the search looks at a new chunk, for a list that ends in it. -/
structure AtNew (h : LAllocator) (a size : Nat) (s' : σ) (st : SearchState σ) : Prop where
  heap : ∃ b, st.heap = { { h with bestBet := b }.withChunk (newChunk a size).size with
      chunks := h.chunks ++ [newChunk a size] } ∧ ∀ x, b = some x → x ∈ addrs h ∨ x = a
  source : st.source = s'
  asked : st.asked = [some a]
  pos : st.pos = h.chunks.length

theorem Looking.toNew (hst : Looking h s st) (hpos : st.pos + 1 = h.chunks.length) (a size : Nat)
    (s' : σ) : AtNew h a size s' (st.toNew a size s') := by
  obtain ⟨b, hheap, hb⟩ := hst.heap
  refine ⟨⟨b, ?_, fun x hx => .inl (hb x hx)⟩, rfl, ?_, hpos⟩
  · unfold SearchState.toNew
    rw [hheap]
  · unfold SearchState.toNew
    rw [hst.asked]
    rfl

theorem AtNew.maj_eq {a : Nat} {s' : σ} (hst : AtNew h a size s' st) :
    st.maj = some (newChunk a size) := by
  obtain ⟨b, hheap, -⟩ := hst.heap
  unfold SearchState.maj
  rw [hheap, hst.pos]
  simp

theorem AtNew.visit {a : Nat} {s' : σ} (hst : AtNew h a size s' st) :
    AtNew h a size s' (st.visit (newChunk a size)) :=
  ⟨hst.heap, hst.source, hst.asked, hst.pos⟩

theorem AtNew.look {a : Nat} {s' : σ} (hst : AtNew h a size s' st) :
    AtNew h a size s' (st.look (newChunk a size)) := by
  refine ⟨?_, look_source.trans hst.source, look_asked.trans hst.asked, look_pos.trans hst.pos⟩
  obtain ⟨b, hheap, hb⟩ := hst.heap
  obtain ⟨b', hlook, hb'⟩ := look_heap st (newChunk a size)
  refine ⟨b', ?_, fun x hx => ?_⟩
  · rw [hlook, hheap]
    rfl
  · rcases hb' with rfl | rfl
    · rw [hheap] at hx
      exact hb x hx
    · cases hx
      exact .inr rfl

theorem AtNew.addrs_placed {a : Nat} {s' : σ} (hst : AtNew h a size s' st) {maj' : LTagMajor}
    (hm : maj'.addr = a) (tag : Nat) : addrs (st.placed maj' tag size).heap = addrs h ++ [a] := by
  obtain ⟨b, hheap, -⟩ := hst.heap
  change List.map _ (st.heap.chunks.set st.pos maj') = _
  rw [hheap, hst.pos]
  simp only [List.set_append_right _ _ (Nat.le_refl _), Nat.sub_self, List.set_cons_zero]
  rw [List.map_append, List.map_cons, List.map_nil, hm]
  rfl

theorem AtNew.placed {a : Nat} {s' : σ} (hst : AtNew h a size s' st)
    (hall : ∀ maj ∈ h.chunks, Refuses maj size req)
    (ha : src.allocPages s (chunkPages size) = (some a, s')) :
    Outcome src h s size req (st.placed
      ((newChunk a size).grow [newMinor (a + sizeofMajor) size req] size)
      (a + sizeofMajor) size) := by
  obtain ⟨b, hheap, hb⟩ := hst.heap
  unfold SearchState.placed
  rw [hheap, hst.pos, hst.source, hst.asked, withBlock_chunks]
  simp only [List.set_append_right _ _ (Nat.le_refl _), Nat.sub_self, List.set_cons_zero]
  exact .fresh hall ha hb

/-! ### The whole search -/

theorem search_done {run : MallocRun σ} (hturn : turn src size req st = .done run) (fuel : Nat) :
    search src size req (fuel + 1) st = some run := by
  rw [search, hturn]

theorem search_next {st' : SearchState σ} (hturn : turn src size req st = .next st') (fuel : Nat) :
    search src size req (fuel + 1) st = search src size req fuel st' := by
  rw [search, hturn]

/-- From the last chunk, which refuses the block, to a new one. -/
theorem search_fresh {st' : SearchState σ} {a : Nat} {s' : σ} (hsize : chunkPages size ≤ 2 ^ 20)
    (hm : st.maj = some maj) (hr : Refuses maj size req)
    (hmove : moveOn src size (st.look maj) = .fresh st') (hnew : AtNew h a size s' st') :
    ∃ X, AtNew h a size s' X ∧ X.visits = st'.visits ++ [a] ∧ ∀ fuel, 2 ≤ fuel →
      search src size req fuel st = some (X.placed
        ((newChunk a size).grow [newMinor (a + sizeofMajor) size req] size)
          (a + sizeofMajor) size) := by
  have hplace := newChunk_place a size req
  rcases turn_fresh hm hr hmove hnew.maj_eq with hturn | hturn
  · refine ⟨st'.visit (newChunk a size), hnew.visit, rfl, fun fuel hfuel => ?_⟩
    obtain ⟨fuel, rfl⟩ : ∃ f, fuel = f + 1 := ⟨fuel - 1, by omega⟩
    exact search_done (hturn.trans (blockCases_placed hnew.visit.maj_eq hplace)) _
  · refine ⟨st'.look (newChunk a size), hnew.look, look_visits, fun fuel hfuel => ?_⟩
    obtain ⟨fuel, rfl⟩ : ∃ f, fuel = f + 2 := ⟨fuel - 2, by omega⟩
    rw [search_next hturn]
    exact search_done (turn_placed hnew.maj_eq (newChunk_diff _ hsize) hplace) _

theorem Looking.maj_eq {before behind : List LTagMajor} (hst : Looking h s st)
    (hl : h.chunks = before ++ maj :: behind) (hpos : st.pos = before.length) :
      st.maj = some maj := by
  unfold SearchState.maj
  rw [hst.chunks, hl, hpos]
  simp

theorem not_refuses (hr : ¬Refuses maj size req) :
    size + sizeofMinor ≤ maj.diff ∧ ∃ maj' tag, maj.place size req = some (maj', tag) := by
  unfold Refuses at hr
  push Not at hr
  obtain ⟨⟨maj', tag⟩, hp⟩ := Option.ne_none_iff_exists'.mp hr.2
  exact ⟨hr.1, maj', tag, hp⟩

theorem place_addr {maj' : LTagMajor} {tag : Nat} (hp : maj.place size req = some (maj', tag)) :
    maj'.addr = maj.addr := by
  unfold LTagMajor.place at hp
  simp only at hp
  split at hp
  · cases hp
    rfl
  · split at hp
    · cases hp
      rfl
    · obtain ⟨r, -, hr⟩ := Option.map_eq_some_iff.mp hp
      cases hr
      rfl

/-- A turn at a chunk that takes the block ends the search. -/
theorem search_placed {before behind : List LTagMajor} (hst : Looking h s st)
    (hl : h.chunks = before ++ maj :: behind) (hpos : st.pos = before.length)
    (hr : ¬Refuses maj size req) :
    ∃ run, (∀ fuel, 1 ≤ fuel → search src size req fuel st = some run) ∧
      Outcome src h s size req run ∧ run.visits = st.visits ++ [maj.addr] ∧
        addrs run.heap = addrs h := by
  obtain ⟨hroom, maj', tag, hp⟩ := not_refuses hr
  have hmem : maj ∈ h.chunks := by
    rw [hl]
    simp
  have hlook := hst.look hmem
  refine ⟨(st.look maj).placed maj' tag size, fun fuel hfuel => ?_, ?_, look_visits, ?_⟩
  · obtain ⟨fuel, rfl⟩ : ∃ f, fuel = f + 1 := ⟨fuel - 1, by omega⟩
    exact search_done (turn_placed (hst.maj_eq hl hpos) hroom hp) _
  · exact hlook.placed hl (look_pos.trans hpos) hroom hp
  · have hset : (st.look maj).heap.chunks.set (st.look maj).pos maj' = before ++
        maj' :: behind := by
      rw [hlook.chunks, hl, look_pos, hpos, List.set_append_right _ _ (Nat.le_refl _), Nat.sub_self,
        List.set_cons_zero]
    change List.map _ ((st.look maj).heap.chunks.set (st.look maj).pos maj') = _
    rw [hset, addrs, hl, List.map_append, List.map_append, List.map_cons, List.map_cons,
      place_addr hp]

/-- The search from a chunk on, without a best bet. -/
theorem search_root (hsize : chunkPages size ≤ 2 ^ 20) (rest before : List LTagMajor)
    (hrest : rest ≠ []) (hl : h.chunks = before ++ rest)
    (hbefore : ∀ c ∈ before, Refuses c size req)
    (hst : Looking h s st) (hpos : st.pos = before.length) (hbet : st.startedBet = false) :
    ∃ run, (∀ fuel, rest.length + 1 ≤ fuel → search src size req fuel st = some run) ∧
      Outcome src h s size req run ∧ ∃ root, run.visits = st.visits ++ root ∧
        before.map LTagMajor.addr ++ root <+: addrs run.heap := by
  induction rest generalizing before st with
  | nil => exact absurd rfl hrest
  | cons c rest ih =>
    have hm := hst.maj_eq hl hpos
    have hmem : c ∈ h.chunks := by
      rw [hl]
      simp
    have hlook := hst.look hmem
    by_cases hr : Refuses c size req
    · have hbefore' : ∀ d ∈ before ++ [c], Refuses d size req := by
        intro d hd
        rcases List.mem_append.mp hd with hd | hd
        · exact hbefore d hd
        · rwa [List.mem_singleton.mp hd]
      cases rest with
      | nil =>
        -- the last chunk
        have hlast : ¬(st.look c).pos + 1 < (st.look c).heap.chunks.length := by
          rw [hlook.chunks, hl, look_pos, hpos]
          simp
        have hbet' : (st.look c).startedBet = false := look_startedBet.trans hbet
        have hall : ∀ d ∈ h.chunks, Refuses d size req := by
          rw [hl]
          exact hbefore'
        rcases halloc : src.allocPages s (chunkPages size) with ⟨_ | a, s'⟩
        · have hturn := turn_stop hm hr
            (moveOn_stop hlast hbet' (by rw [hlook.source]; exact halloc))
          refine ⟨_, fun fuel hfuel => ?_, hlook.stopped hall halloc, [c.addr], look_visits, ?_⟩
          · obtain ⟨fuel, rfl⟩ : ∃ f, fuel = f + 1 := ⟨fuel - 1, by omega⟩
            exact search_done hturn _
          · have haddrs : addrs (st.look c).heap = before.map LTagMajor.addr ++ [c.addr] := by
              rw [addrs, hlook.chunks, hl, List.map_append, List.map_cons, List.map_nil]
            exact haddrs ▸ List.prefix_refl _
        · have hmove := moveOn_fresh src hlast hbet' (by rw [hlook.source]; exact halloc)
          have hnew := hlook.toNew (by rw [look_pos, hpos, hl]; simp) a size s'
          obtain ⟨X, hX, hvisits, hrun⟩ := search_fresh hsize hm hr hmove hnew
          refine ⟨_, fun fuel hfuel => hrun fuel (by simpa using hfuel), hX.placed hall halloc,
            [c.addr, a], ?_, ?_⟩
          · change X.visits = _
            rw [hvisits]
            change (st.look c).visits ++ [a] = _
            rw [look_visits, List.append_assoc]
            rfl
          · have hm' : ((newChunk a size).grow [newMinor (a + sizeofMajor) size req] size).addr =
              a := rfl
            rw [hX.addrs_placed hm', addrs, hl]
            simp
      | cons d rest =>
        have hmove := moveOn_next src size (st.look c) (by
          rw [hlook.chunks, hl, look_pos, hpos]
          simp)
        obtain ⟨run, hrun, hout, root, hvisits, hpre⟩ := ih (before ++ [c]) (by simp)
          (by rw [hl]; simp) hbefore' (hlook.move ((st.look c).pos + 1) (st.look c).startedBet)
          (by simp [hpos]) (look_startedBet.trans hbet)
        refine ⟨run, fun fuel hfuel => ?_, hout, c.addr :: root, ?_, ?_⟩
        · obtain ⟨fuel, rfl⟩ : ∃ f, fuel = f + 1 := ⟨fuel - 1, by omega⟩
          rw [search_next (turn_chunk hm hr hmove)]
          exact hrun fuel (by simpa using hfuel)
        · rw [hvisits]
          simp
        · simpa using hpre
    · obtain ⟨run, hrun, hout, hvisits, haddrs⟩ := search_placed hst hl hpos hr
      refine ⟨run, fun fuel hfuel => hrun fuel (by omega), hout, [c.addr], hvisits, ?_⟩
      rw [haddrs, addrs, hl]
      exact ⟨rest.map LTagMajor.addr, by simp⟩

theorem addrs_withBlock (h : LAllocator) (l : List LTagMajor) (tag size : Nat) :
    addrs (h.withBlock l tag size) = l.map LTagMajor.addr := rfl

/-- The heap keeps the places of its chunks, or gets one more at the end. -/
theorem Outcome.addrs_eq {run : MallocRun σ} (hout : Outcome src h s size req run) :
    addrs h <+: addrs run.heap := by
  cases hout with
  | placed hl hroom hp hb =>
    refine ⟨[], ?_⟩
    rw [List.append_nil, addrs_withBlock, addrs, hl, List.map_append, List.map_append,
      List.map_cons, List.map_cons, place_addr hp]
  | fresh hall halloc hb =>
    rw [addrs_withBlock, List.map_append]
    exact List.prefix_append _ _
  | refused hall halloc hb => exact List.prefix_refl _

/-- The search from the best bet on, which begins again at the first chunk. -/
theorem search_bet (hsize : chunkPages size ≤ 2 ^ 20) (rest before : List LTagMajor)
    (hrest : rest ≠ []) (hl : h.chunks = before ++ rest) (hst : Looking h s st)
    (hpos : st.pos = before.length)
    (hbet : st.startedBet = true) :
    ∃ run, (∀ fuel, rest.length + h.chunks.length + 1 ≤ fuel →
      search src size req fuel st = some run) ∧ Outcome src h s size req run ∧ ∃ bet root,
        run.visits = st.visits ++ bet ++ root ∧ before.map LTagMajor.addr ++ bet <+:
        addrs run.heap ∧
        bet.head? = rest.head?.map LTagMajor.addr ∧ root <+: addrs run.heap := by
  induction rest generalizing before st with
  | nil => exact absurd rfl hrest
  | cons c rest ih =>
    have hm := hst.maj_eq hl hpos
    have hmem : c ∈ h.chunks := by
      rw [hl]
      simp
    have hlook := hst.look hmem
    by_cases hr : Refuses c size req
    · cases rest with
      | nil =>
        -- all over again
        have hlast : ¬(st.look c).pos + 1 < (st.look c).heap.chunks.length := by
          rw [hlook.chunks, hl, look_pos, hpos]
          simp
        have hturn := turn_chunk hm hr (moveOn_root src hlast (look_startedBet.trans hbet))
        obtain ⟨run, hrun, hout, root, hvisits, hpre⟩ := search_root hsize h.chunks []
          (List.ne_nil_of_mem hmem) rfl (by simp) (hlook.move 0 false) rfl rfl
        refine ⟨run, fun fuel hfuel => ?_, hout, [c.addr], root, ?_, ?_, rfl, hpre⟩
        · obtain ⟨fuel, rfl⟩ : ∃ f, fuel = f + 1 := ⟨fuel - 1, by omega⟩
          rw [search_next hturn]
          exact hrun fuel (by simp at hfuel; omega)
        · rw [hvisits]
          change (st.look c).visits ++ root = _
          rw [look_visits]
        · have haddrs : addrs h = before.map LTagMajor.addr ++ [c.addr] := by
            rw [addrs, hl, List.map_append, List.map_cons, List.map_nil]
          exact haddrs ▸ hout.addrs_eq
      | cons d rest =>
        have hmove := moveOn_next src size (st.look c) (by
          rw [hlook.chunks, hl, look_pos, hpos]
          simp)
        obtain ⟨run, hrun, hout, bet, root, hvisits, hpre, -, hroot⟩ :=
          ih (before ++ [c]) (by simp) (by rw [hl]; simp)
          (hlook.move ((st.look c).pos + 1) (st.look c).startedBet) (by simp [hpos])
          (look_startedBet.trans hbet)
        refine ⟨run, fun fuel hfuel => ?_, hout, c.addr :: bet, root, ?_, ?_, rfl, hroot⟩
        · obtain ⟨fuel, rfl⟩ : ∃ f, fuel = f + 1 := ⟨fuel - 1, by omega⟩
          rw [search_next (turn_chunk hm hr hmove)]
          exact hrun fuel (by simp at hfuel ⊢; omega)
        · rw [hvisits]
          simp
        · simpa using hpre
    · obtain ⟨run, hrun, hout, hvisits, haddrs⟩ := search_placed hst hl hpos hr
      refine ⟨run, fun fuel hfuel => hrun fuel (by omega), hout, [c.addr],
        [], by simpa using hvisits, ?_, rfl, List.nil_prefix⟩
      rw [haddrs, addrs, hl]
      exact ⟨rest.map LTagMajor.addr, by simp⟩

end

end OsKernel.Mm.Liballoc

import OsKernel.Mm.Vmm.Freewalk
import OsKernel.Mm.Vmm.Range

/-! `freewalk` over tables of any shape: the pages that it passes to `k_pmm.free_pages`, one after
the other. -/

namespace OsKernel.Mm

open Lib Hsai Lib.BuddySystem BuddyAllocator

section

variable {σ : Type} (arch : Arch) (V : VirtualPageAllocator σ)

/-- One entry of the table at `base`, where `walk` is the recursive call. -/
def freewalkEntry (walk : Kernel σ → Nat → Except Fault (Kernel σ × List Nat)) (base : Nat)
    (r : Kernel σ × List Nat) (i : Nat) : Except Fault (Kernel σ × List Nat) :=
  let data := pteData r.1.mem (getPte arch base i)
  if arch.isValid data && arch.isDirPage data then do
    let c ← walk r.1 (arch.toVir (arch.toPa data))
    .ok (pteClearData c.1 (base + 8 * i), r.2 ++ c.2)
  else .ok r

/-- `freewalk` with the pages that it passes to `free_pages`, in this order. -/
def freewalkCalls : Nat → Kernel σ → Nat → Except Fault (Kernel σ × List Nat)
  | 0, _, _ => .error (.undefined "freewalk below the last level")
  | depth + 1, k, base => do
    let r ← (List.range 512).foldlM (freewalkEntry arch (freewalkCalls depth) base) (k, [])
    let f ← pmmFreePages V r.1 base
    .ok (f.2, r.2 ++ [base])

/-- The table that an entry of the table at `base` refers to. -/
def nextTable (m : Mem) (base i : Nat) : Nat :=
  arch.toVir (arch.toPa (pteData m (getPte arch base i)))

/-- An entry that refers to a table. -/
def IsDirEntry (m : Mem) (base i : Nat) : Prop :=
  arch.isValid (pteData m (getPte arch base i)) = true ∧
    arch.isDirPage (pteData m (getPte arch base i)) = true

/-- The entries `p`, one after the other from the table at `a` on, lead to the table at `b`. -/
inductive TablePath (m : Mem) : Nat → List Nat → Nat → Prop
  | here (a : Nat) : TablePath m a [] a
  | entry {a i b : Nat} {p : List Nat} (hi : i < 512) (hdir : IsDirEntry arch m a i)
      (h : TablePath m (nextTable arch m a i) p b) : TablePath m a (i :: p) b

/-- The tables from `root` on form a tree without valid leaf entries. -/
structure TableTree (m : Mem) (root : Nat) : Prop where
  distinct : ∀ {p q a}, TablePath arch m root p a → TablePath arch m root q a → p = q
  noLeaf : ∀ {p a i}, TablePath arch m root p a → i < 512 →
    arch.isValid (pteData m (getPte arch a i)) = true →
    arch.isDirPage (pteData m (getPte arch a i)) = true

end

section

variable {σ : Type} {arch : Arch} {V : VirtualPageAllocator σ} {m m' : Mem} {a b i d : Nat}
  {p q : List Nat}

/-- Without the calls it is `freewalk`. -/
theorem freewalkCalls_fst (d : Nat) (k : Kernel σ) (a : Nat) :
    (freewalkCalls arch V d k a).map Prod.fst = freewalkFrom arch V d k a := by
  induction d generalizing k a with
  | zero => rfl
  | succ d ih =>
    rw [freewalkCalls, freewalkFrom]
    have hloop : ∀ (l : List Nat) (k : Kernel σ) (calls : List Nat),
        (l.foldlM (freewalkEntry arch (freewalkCalls arch V d) a) (k, calls)).map Prod.fst =
        l.foldlM (fun k i =>
          let data := pteData k.mem (getPte arch a i)
          if arch.isValid data && arch.isDirPage data then do
            let k ← freewalkFrom arch V d k (arch.toVir (arch.toPa data))
            .ok (pteClearData k (a + 8 * i))
          else .ok k) k := by
      intro l
      induction l with
      | nil => exact fun _ _ => rfl
      | cons i l ihl =>
        intro k calls
        simp only [List.foldlM_cons, freewalkEntry]
        split
        · rw [← ih]
          cases hrun : freewalkCalls arch V d k
            (arch.toVir (arch.toPa (pteData k.mem (getPte arch a i)))) with
          | error e => rfl
          | ok c => exact ihl _ _
        · exact ihl _ _
    have h := hloop (List.range 512) k []
    rw [← h]
    cases hrun : (List.range 512).foldlM (freewalkEntry arch (freewalkCalls arch V d) a)
      (k, []) with
    | error e => rfl
    | ok r =>
      simp only [Except.map, ok_bind]
      cases pmmFreePages V r.1 a with
      | error e => rfl
      | ok f => rfl

/-- A walk that ends does the same with more levels. -/
theorem freewalkCalls_mono {d d' : Nat} (hd : d ≤ d') {k : Kernel σ} {r : Kernel σ × List Nat}
    (h : freewalkCalls arch V d k a = .ok r) : freewalkCalls arch V d' k a = .ok r := by
  induction d generalizing d' k a r with
  | zero => cases h
  | succ d ih =>
    obtain ⟨d', rfl⟩ : ∃ e, d' = e + 1 := ⟨d' - 1, by omega⟩
    rw [freewalkCalls] at h ⊢
    obtain ⟨r₁, hloop, hfree⟩ := bind_eq_ok.mp h
    have hentry : ∀ {r i r'}, freewalkEntry arch (freewalkCalls arch V d) a r i = .ok r' →
        freewalkEntry arch (freewalkCalls arch V d') a r i = .ok r' := by
      intro r i r' hr
      unfold freewalkEntry at hr ⊢
      simp only at hr ⊢
      split
      · next hdir =>
        rw [if_pos hdir] at hr
        obtain ⟨c, hc, hr⟩ := bind_eq_ok.mp hr
        rw [ih (by omega) hc, ok_bind]
        exact hr
      · next hdir =>
        rw [if_neg hdir] at hr
        exact hr
    have hloop' : ∀ (l : List Nat) {r r' : Kernel σ × List Nat},
        l.foldlM (freewalkEntry arch (freewalkCalls arch V d) a) r = .ok r' →
        l.foldlM (freewalkEntry arch (freewalkCalls arch V d') a) r = .ok r' := by
      intro l
      induction l with
      | nil => exact fun h => h
      | cons i l ihl =>
        intro r r' h
        rw [List.foldlM_cons] at h ⊢
        obtain ⟨r₂, he, hl⟩ := bind_eq_ok.mp h
        rw [hentry he, ok_bind]
        exact ihl hl
    rw [hloop' _ hloop, ok_bind]
    exact hfree

theorem IsDirEntry.congr (h : pteData m' (getPte arch a i) = pteData m (getPte arch a i)) :
    IsDirEntry arch m' a i ↔ IsDirEntry arch m a i := by
  unfold IsDirEntry
  rw [h]

theorem nextTable_congr (h : pteData m' (getPte arch a i) = pteData m (getPte arch a i)) :
    nextTable arch m' a i = nextTable arch m a i := by
  unfold nextTable
  rw [h]

/-- Where the tables below `a` have the same entries in another memory, they are the tables below
it there. -/
theorem TablePath.congr (hsame : ∀ p b i, TablePath arch m a p b → i < 512 →
    pteData m' (getPte arch b i) = pteData m (getPte arch b i)) :
    TablePath arch m' a p b ↔ TablePath arch m a p b := by
  constructor
  · intro h
    induction h with
    | here a => exact .here a
    | @entry a i b p hi hdir h ih =>
      have hdata := hsame [] a i (.here a) hi
      have hdir' := (IsDirEntry.congr hdata).mp hdir
      rw [nextTable_congr hdata] at ih
      exact .entry hi hdir' (ih fun q c j hq hj => hsame (i :: q) c j (.entry hi hdir' hq) hj)
  · intro h
    induction h with
    | here a => exact .here a
    | @entry a i b p hi hdir h ih =>
      have hdata := hsame [] a i (.here a) hi
      refine .entry hi ((IsDirEntry.congr hdata).mpr hdir) ?_
      rw [nextTable_congr hdata]
      exact ih fun q c j hq hj => hsame (i :: q) c j (.entry hi hdir hq) hj

/-- A table on the way. -/
theorem TablePath.take (h : TablePath arch m a p b) (j : Nat) : ∃ c,
    TablePath arch m a (p.take j) c := by
  induction h generalizing j with
  | here a => exact ⟨a, by rw [List.take_nil]; exact .here a⟩
  | @entry a i b p hi hdir h ih =>
    cases j with
    | zero => exact ⟨a, .here a⟩
    | succ j =>
      obtain ⟨c, hc⟩ := ih j
      exact ⟨c, .entry hi hdir hc⟩

namespace TableTree

/-- The tables below an entry. -/
theorem next (T : TableTree arch m a) (hi : i < 512) (hdir : IsDirEntry arch m a i) :
    TableTree arch m (nextTable arch m a i) :=
  ⟨fun hp hq => List.tail_eq_of_cons_eq (T.distinct (.entry hi hdir hp) (.entry hi hdir hq)),
    fun hp => T.noLeaf (.entry hi hdir hp)⟩

theorem congr (T : TableTree arch m a) (hsame : ∀ p b i, TablePath arch m a p b → i < 512 →
    pteData m' (getPte arch b i) = pteData m (getPte arch b i)) : TableTree arch m' a := by
  constructor
  · intro p q b hp hq
    exact T.distinct ((TablePath.congr hsame).mp hp) ((TablePath.congr hsame).mp hq)
  · intro p b i hp hi hval
    have hp' := (TablePath.congr hsame).mp hp
    rw [hsame p b i hp' hi] at hval ⊢
    exact T.noLeaf hp' hi hval

end TableTree

end

section

variable {reg : Region} {arch : Arch} {k k₁ : Kernel BuddyAllocator} {B B₁ : Blocks} {a n : Nat}
  {S S' keepOut : Nat → Prop} {calls calls' : List Nat}

/-- The pages in `S`, each passed to `free_pages` once, are not in use any more, and no byte in use
outside `keepOut` has changed. -/
structure FreedOnce (reg : Region) (k : Kernel BuddyAllocator) (B : Blocks)
    (S keepOut : Nat → Prop) (r : Kernel BuddyAllocator × List Nat) (B' : Blocks) : Prop where
  alloc : reg.Alloc r.1.pages r.1.mem B'
  once : r.2.Nodup
  mem : ∀ b, b ∈ r.2 ↔ S b
  used : ∀ t o, B' t = some ⟨o, true⟩ ↔ B t = some ⟨o, true⟩ ∧ ¬S (reg.addr t)
  keep : AgreeOn (fun x => reg.Used B' x ∧ ¬keepOut x) k.mem r.1.mem

/-- A single page in use. -/
def HeldPage (reg : Region) (B : Blocks) (b : Nat) : Prop :=
  ∃ s, b = reg.addr s ∧ B s = some ⟨0, true⟩

theorem HeldPage.getPte (hw : reg.InWindow arch) (h : reg.Alloc k.pages k.mem B)
    (hb : HeldPage reg B a) {j : Nat} (hj : j < 512) : Mm.getPte arch a j = a + 8 * j := by
  obtain ⟨s, rfl, hs⟩ := hb
  have hlt := h.block_bound hs
  simp only [Nat.pow_zero] at hlt
  exact Region.getPte_addr hw (by omega) hj

/-- Two pages in use that have a byte in common. -/
theorem HeldPage.eq_of_mem (h : reg.Alloc k.pages k.mem B) {b x : Nat} (ha : HeldPage reg B a)
    (hb : HeldPage reg B b) (hax : a ≤ x ∧ x < a + 4096) (hbx : b ≤ x ∧ x < b + 4096) :
      a = b := by
  obtain ⟨s, rfl, hs⟩ := ha
  obtain ⟨t, rfl, ht⟩ := hb
  rw [h.inv.rep.part.eq_of_mem hs ht (Region.addr_page (k := 0) hax.1 (by simpa using hax.2))
    (Region.addr_page (k := 0) hbx.1 (by simpa using hbx.2))]

namespace FreedOnce

theorem refl (h : reg.Alloc k.pages k.mem B) (hS : ∀ b, ¬S b) :
    FreedOnce reg k B S keepOut (k, []) B :=
  ⟨h, List.nodup_nil, fun b =>
    ⟨fun hb => absurd hb List.not_mem_nil, fun hb => absurd hb (hS b)⟩,
    fun _ _ => ⟨fun ht => ⟨ht, hS _⟩, And.left⟩, fun _ _ => rfl⟩

theorem congr {r : Kernel BuddyAllocator × List Nat} {keepOut' : Nat → Prop}
    (F : FreedOnce reg k B S keepOut r B₁) (hS : ∀ b, S b ↔ S' b)
    (hk : ∀ x, keepOut x → keepOut' x) :
    FreedOnce reg k B S' keepOut' r B₁ := by
  obtain rfl : S = S' := funext fun b => propext (hS b)
  exact ⟨F.alloc, F.once, F.mem, F.used,
    fun x hx => F.keep x ⟨hx.1, fun h => hx.2 (hk x h)⟩⟩

/-- A page that is not freed stays as it was. -/
theorem held {r : Kernel BuddyAllocator × List Nat} (F : FreedOnce reg k B S keepOut r B₁)
    (ha : HeldPage reg B a) (hS : ¬S a) : HeldPage reg B₁ a := by
  obtain ⟨s, rfl, hs⟩ := ha
  exact ⟨s, rfl, (F.used s 0).mpr ⟨hs, hS⟩⟩

theorem used_page (ha : HeldPage reg B a) {x : Nat} (hl : a ≤ x) (hu : x < a + 4096) :
    reg.Used B x := by
  obtain ⟨s, rfl, hs⟩ := ha
  exact ⟨s, 0, hs, hl, by simpa using hu⟩

theorem used_sub {r : Kernel BuddyAllocator × List Nat} (F : FreedOnce reg k B S keepOut r B₁)
    {x : Nat} (hx : reg.Used B₁ x) : reg.Used B x := by
  obtain ⟨t, o, ht, hl, hu⟩ := hx
  exact ⟨t, o, ((F.used t o).mp ht).1, hl, hu⟩

/-- The entries of a page that is not freed, where they may not have changed, are those
of before. -/
theorem pteData {r : Kernel BuddyAllocator × List Nat} (F : FreedOnce reg k B S keepOut r B₁)
    (ha : HeldPage reg B a) (hS : ¬S a) (hn : n < 512)
    (hk : ∀ x, a + 8 * n ≤ x → x < a + 8 * n + 8 → ¬keepOut x) :
    Mm.pteData r.1.mem (a + 8 * n) = Mm.pteData k.mem (a + 8 * n) :=
  Tables.pteData_congr fun x hl hu =>
    F.keep x ⟨used_page (F.held ha hS) (by omega) (by omega), hk x hl hu⟩

theorem append {B₂ : Blocks} {k₂ : Kernel BuddyAllocator}
    (F : FreedOnce reg k B S keepOut (k₁, calls) B₁)
    (F' : FreedOnce reg k₁ B₁ S' (fun _ => False) (k₂, calls') B₂)
    (hdisj : ∀ b, S b → ¬S' b) :
    FreedOnce reg k B (fun b => S b ∨ S' b) keepOut (k₂, calls ++ calls') B₂ := by
  refine ⟨F'.alloc, ?_, fun b => ?_, fun t o => ?_, fun x hx => ?_⟩
  · refine List.Nodup.append F.once F'.once fun b hb hb' => ?_
    exact hdisj b ((F.mem b).mp hb) ((F'.mem b).mp hb')
  · rw [List.mem_append]
    exact or_congr (F.mem b) (F'.mem b)
  · rw [F'.used, F.used, not_or, and_assoc]
  · rw [F'.keep x ⟨hx.1, id⟩]
    exact F.keep x ⟨F'.used_sub hx.1, hx.2⟩

/-- A store in a page that is in use. -/
theorem write {m : Mem} (F : FreedOnce reg k B S keepOut (k₁, calls) B₁)
    (ha : HeldPage reg B₁ a) (hm : ∀ x, x < a ∨ a + 4096 ≤ x → m x = k₁.mem x)
    (hk : ∀ x, ¬keepOut x → m x = k₁.mem x) :
    FreedOnce reg k B S keepOut ({ k₁ with mem := m }, calls) B₁ := by
  refine ⟨F.alloc.frame fun x hx => hm x ?_, F.once, F.mem, F.used, fun x hx => ?_⟩
  · by_contra hc
    exact hx (used_page ha (by omega) (by omega))
  · exact (hk x hx.2).trans (F.keep x hx)

/-- The table itself is passed to `free_pages` after the tables below it. -/
theorem free (hw : reg.InWindow arch)
    (F : FreedOnce reg k B S (EntryBytes a 512) (k₁, calls) B₁)
    (ha : HeldPage reg B a) (hS : ¬S a) :
    ∃ r k₂ B₂, pmmFreePages buddyPages k₁ a = .ok (r, k₂) ∧
      FreedOnce reg k B (fun b => S b ∨ b = a) (fun _ => False) (k₂, calls ++ [a]) B₂ := by
  obtain ⟨s, rfl, hs⟩ := ha
  have hs₁ : B₁ s = some ⟨0, true⟩ := (F.used s 0).mpr ⟨hs, hS⟩
  have hlt := F.alloc.block_bound hs₁
  simp only [Nat.pow_zero] at hlt
  obtain ⟨r, k₂, B₂, hrun, hal, hrel, hkeep⟩ :=
    pmmFree_page F.alloc hw (p := s) (by omega) (.inr ⟨0, hs₁⟩)
  refine ⟨r, k₂, B₂, hrun, hal, ?_, fun b => ?_, fun t o => ?_, fun x hx => ?_⟩
  · refine List.Nodup.append F.once (List.nodup_singleton _) fun b hb hb' => ?_
    rw [List.mem_singleton.mp hb'] at hb
    exact hS ((F.mem _).mp hb)
  · rw [List.mem_append, List.mem_singleton]
    exact or_congr (F.mem b) Iff.rfl
  · rw [hrel.used, F.used, not_or, and_assoc]
    refine and_congr Iff.rfl (and_congr Iff.rfl
      (not_congr ⟨fun h => by rw [h], Region.addr_inj⟩))
  · rw [hkeep x hx.1]
    refine F.keep x ⟨hrel.used_of hx.1, fun hin => ?_⟩
    -- no byte of the table is in use any more
    obtain ⟨t, o, ht, hl, hu⟩ := hx.1
    obtain ⟨ht', hts⟩ := (hrel.used t o).mp ht
    refine hts (F.alloc.inv.rep.part.eq_of_mem ht' hs₁ (Region.addr_page hl hu)
      (Region.addr_page (k := 0) hin.1 ?_))
    have := hin.2
    simpa using this

end FreedOnce

/-- The tables below the first `n` entries of the table at `a`. -/
def EntryTables (arch : Arch) (m : Mem) (a n b : Nat) : Prop :=
  ∃ i < n, ∃ p, TablePath arch m a (i :: p) b

theorem entryTables_succ {m : Mem} {b : Nat} :
    EntryTables arch m a (n + 1) b ↔ EntryTables arch m a n b ∨ ∃ p,
      TablePath arch m a (n :: p) b := by
  constructor
  · rintro ⟨i, hi, p, h⟩
    by_cases hin : i = n
    · subst hin
      exact .inr ⟨p, h⟩
    · exact .inl ⟨i, by omega, p, h⟩
  · rintro (⟨i, hi, p, h⟩ | ⟨p, h⟩)
    · exact ⟨i, by omega, p, h⟩
    · exact ⟨n, by omega, p, h⟩

/-- The tables from `a` on form a tree of single pages in use. -/
structure HeldTree (reg : Region) (arch : Arch) (k : Kernel BuddyAllocator) (B : Blocks) (a : Nat) :
    Prop where
  alloc : reg.Alloc k.pages k.mem B
  tree : TableTree arch k.mem a
  held : ∀ {p b}, TablePath arch k.mem a p b → HeldPage reg B b

namespace HeldTree

/-- A table is not below itself. -/
theorem not_below (T : HeldTree reg arch k B a) : ¬EntryTables arch k.mem a n a := by
  rintro ⟨i, -, p, h⟩
  cases T.tree.distinct h (.here a)

/-- The tables below an entry, after those below the entries before it have been freed. -/
theorem next (hw : reg.InWindow arch) (T : HeldTree reg arch k B a)
    (F : FreedOnce reg k B (EntryTables arch k.mem a n) (EntryBytes a n) (k₁, calls) B₁)
    (hn : n < 512)
    (hdir : IsDirEntry arch k.mem a n) :
    HeldTree reg arch k₁ B₁ (nextTable arch k.mem a n) ∧
      ∀ p b, TablePath arch k₁.mem (nextTable arch k.mem a n) p b ↔
        TablePath arch k.mem (nextTable arch k.mem a n) p b := by
  have hfree : ∀ {p b}, TablePath arch k.mem (nextTable arch k.mem a n) p b →
      ¬EntryTables arch k.mem a n b := by
    rintro p b hp ⟨i, hi, q, hq⟩
    have := T.tree.distinct (.entry hn hdir hp) hq
    have := (List.cons.inj this).1
    omega
  have hheld : ∀ {p b}, TablePath arch k.mem (nextTable arch k.mem a n) p b →
      HeldPage reg B b := fun hp =>
    T.held (.entry hn hdir hp)
  have hne : ∀ {p b}, TablePath arch k.mem (nextTable arch k.mem a n) p b → b ≠ a := by
    rintro p b hp rfl
    cases T.tree.distinct (.entry hn hdir hp) (.here b)
  have hsame : ∀ p b i, TablePath arch k.mem (nextTable arch k.mem a n) p b → i < 512 →
      pteData k₁.mem (getPte arch b i) = pteData k.mem (getPte arch b i) := by
    intro p b i hp hi
    rw [(hheld hp).getPte hw T.alloc hi]
    refine F.pteData (hheld hp) (hfree hp) hi fun x hl hu hx => hne hp ?_
    have h1 := hx.1
    have h2 := hx.2
    exact HeldPage.eq_of_mem (x := x) T.alloc (hheld hp) (T.held (.here a)) ⟨by omega, by omega⟩
      ⟨h1, by omega⟩
  refine ⟨⟨F.alloc, (T.tree.next hn hdir).congr hsame, fun hp => ?_⟩,
    fun p b => TablePath.congr hsame⟩
  have hp' := (TablePath.congr hsame).mp hp
  exact F.held (hheld hp') (hfree hp')

/-- The first `n` entries of a table, where `walk` frees what is below an entry. -/
theorem entries (hw : reg.InWindow arch) (T : HeldTree reg arch k B a)
    (walk : Kernel BuddyAllocator → Nat → Except Fault (Kernel BuddyAllocator × List Nat))
    (hwalk : ∀ i k₁ B₁, i < 512 → IsDirEntry arch k.mem a i →
      HeldTree reg arch k₁ B₁ (nextTable arch k.mem a i) →
      (∀ p b, TablePath arch k₁.mem (nextTable arch k.mem a i) p b ↔
        TablePath arch k.mem (nextTable arch k.mem a i) p b) →
      ∃ r B₂, walk k₁ (nextTable arch k.mem a i) = .ok r ∧
        FreedOnce reg k₁ B₁ (fun b => ∃ p,
          TablePath arch k₁.mem (nextTable arch k.mem a i) p b)
          (fun _ => False) r B₂) (hn : n ≤ 512) :
    ∃ r B', (List.range n).foldlM (freewalkEntry arch walk a) (k, []) = .ok r ∧
      FreedOnce reg k B (EntryTables arch k.mem a n) (EntryBytes a n) r B' := by
  induction n with
  | zero =>
    exact ⟨_, B, rfl, .refl T.alloc fun b ⟨i, hi, _⟩ => absurd hi (Nat.not_lt_zero i)⟩
  | succ n ih =>
    obtain ⟨⟨k₁, calls⟩, B₁, hrun, F⟩ := ih (by omega)
    have ha := T.held (.here a)
    have hpte := ha.getPte hw T.alloc (show n < 512 by omega)
    have hdata : pteData k₁.mem (getPte arch a n) = pteData k.mem (getPte arch a n) := by
      rw [hpte]
      refine F.pteData ha T.not_below (by omega) fun x hl _ hx => ?_
      have := hx.2
      omega
    rw [List.range_succ, List.foldlM_append, hrun, ok_bind, List.foldlM_cons]
    simp only [freewalkEntry, hdata]
    by_cases hdir : IsDirEntry arch k.mem a n
    · obtain ⟨T₁, hsame⟩ := T.next hw F (by omega) hdir
      obtain ⟨⟨k₂, calls'⟩, B₂, hrun', F'⟩ :=
        hwalk n k₁ B₁ (by omega) hdir T₁ hsame
      have hboth : (arch.isValid (pteData k.mem (getPte arch a n)) &&
          arch.isDirPage (pteData k.mem (getPte arch a n))) = true := by
        rw [hdir.1, hdir.2, Bool.and_self]
      have hsub : ∀ b, (∃ p, TablePath arch k₁.mem (nextTable arch k.mem a n) p b) ↔
          ∃ p, TablePath arch k.mem a (n :: p) b := by
        intro b
        refine exists_congr fun p =>
          (hsame p b).trans ⟨fun h => .entry (by omega) hdir h, fun h => ?_⟩
        cases h with
        | entry _ _ h => exact h
      have hdisj : ∀ b, EntryTables arch k.mem a n b → ¬∃ p,
          TablePath arch k.mem a (n :: p) b := by
        rintro b ⟨i, hi, q, hq⟩ ⟨p, hp⟩
        have := (List.cons.inj (T.tree.distinct hq hp)).1
        omega
      have F₂ : FreedOnce reg k B (EntryTables arch k.mem a (n + 1)) (EntryBytes a (n + 1))
          (k₂, calls ++ calls') B₂ :=
        (F.append (F'.congr hsub fun _ => id) hdisj).congr (fun b => entryTables_succ.symm)
          fun x hx => ⟨hx.1, by have := hx.2; omega⟩
      have hmem : ∀ x, x < a + 8 * n ∨ a + 8 * n + 8 ≤ x →
          (pteClearData k₂ (a + 8 * n)).mem x = k₂.mem x := fun x hx => Mem.write_outside hx
      rw [if_pos hboth, show arch.toVir (arch.toPa (pteData k.mem (getPte arch a n))) =
        nextTable arch k.mem a n from rfl, hrun', ok_bind]
      refine ⟨_, B₂, rfl, F₂.write (F₂.held ha T.not_below) (fun x hx => hmem x (by omega))
          fun x hx =>
        hmem x ?_⟩
      by_contra hc
      exact hx ⟨by omega, by omega⟩
    · have hboth : (arch.isValid (pteData k.mem (getPte arch a n)) &&
          arch.isDirPage (pteData k.mem (getPte arch a n))) = false := by
        rw [Bool.eq_false_iff]
        exact fun h => hdir (Bool.and_eq_true_iff.mp h)
      rw [hboth]
      refine ⟨_, B₁, rfl, F.congr (fun b => ?_) fun x hx =>
        ⟨hx.1, by have := hx.2; omega⟩⟩
      rw [entryTables_succ]
      refine ⟨.inl, fun h => h.resolve_right ?_⟩
      rintro ⟨p, hp⟩
      cases hp with
      | entry _ h _ => exact hdir h

/-- `freewalk` of one table, with as many levels as there are below it. -/
theorem walk (hw : reg.InWindow arch) (d : Nat) (T : HeldTree reg arch k B a)
    (hd : ∀ p b, TablePath arch k.mem a p b → p.length < d) :
    ∃ r B', freewalkCalls arch buddyPages d k a = .ok r ∧
      FreedOnce reg k B (fun b => ∃ p, TablePath arch k.mem a p b) (fun _ => False) r B' := by
  induction d generalizing k B a with
  | zero => exact absurd (hd [] a (.here a)) (Nat.not_lt_zero _)
  | succ d ih =>
    obtain ⟨⟨k₁, calls⟩, B₁, hrun, F⟩ := T.entries hw (freewalkCalls arch buddyPages d)
      (fun i k₁ B₁ hi hdir T₁ hsame => ih T₁ fun p b hp => by
        have := hd (i :: p) b (.entry hi hdir ((hsame p b).mp hp))
        simpa using this) (Nat.le_refl 512)
    obtain ⟨r, k₂, B₂, hfree, F₂⟩ := F.free hw (T.held (.here a)) T.not_below
    refine ⟨_, B₂, ?_, F₂.congr (fun b => ?_) fun _ => id⟩
    · rw [freewalkCalls, hrun, ok_bind, hfree, ok_bind]
    · constructor
      · rintro (⟨i, -, p, hp⟩ | rfl)
        · exact ⟨i :: p, hp⟩
        · exact ⟨[], .here b⟩
      · rintro ⟨p, hp⟩
        cases hp with
        | here => exact .inr rfl
        | entry hi hdir h => exact .inl ⟨_, hi, _, .entry hi hdir h⟩

/-- The entries that lead to a table are fewer than the pages of the region. -/
theorem length_lt (T : HeldTree reg arch k B a) {p : List Nat} {b : Nat}
    (hp : TablePath arch k.mem a p b) : p.length < reg.pages := by
  -- the tables on the way are pairwise different
  have hway : ∀ j : Fin (p.length + 1), ∃ s : Fin reg.pages,
      TablePath arch k.mem a (p.take j) (reg.addr s) := by
    intro j
    obtain ⟨c, hc⟩ := hp.take j
    obtain ⟨s, rfl, hs⟩ := T.held hc
    have hlt := T.alloc.block_bound hs
    simp only [Nat.pow_zero] at hlt
    exact ⟨⟨s, by omega⟩, hc⟩
  choose page hpage using hway
  have hinj : Function.Injective page := by
    intro i j hij
    have hi := hpage i
    rw [hij] at hi
    have hlen := congrArg List.length (T.tree.distinct hi (hpage j))
    simp only [List.length_take] at hlen
    apply Fin.ext
    omega
  have hcard := Fintype.card_le_of_injective page hinj
  rw [Fintype.card_fin, Fintype.card_fin] at hcard
  exact hcard

end HeldTree

/-- `freewalk` of a tree of tables without valid leaf entries: it ends, passes each table to
`free_pages` once and nothing else, and afterwards exactly the tables are not in use any more. -/
theorem freewalk_once (reg : Region) (arch : Arch) (hw : reg.InWindow arch)
    (k : Kernel BuddyAllocator) (B : Blocks) (root : Nat) (T : HeldTree reg arch k B root) :
    ∃ k' calls, (∀ depth, reg.pages ≤ depth →
        freewalkCalls arch buddyPages depth k root = .ok (k', calls) ∧
        freewalkFrom arch buddyPages depth k root = .ok k') ∧
      calls.Nodup ∧ (∀ a, a ∈ calls ↔ ∃ p, TablePath arch k.mem root p a) ∧
      ∃ B', reg.Alloc k'.pages k'.mem B' ∧
        ∀ t o, B' t = some ⟨o, true⟩ ↔ B t = some ⟨o, true⟩ ∧
          reg.addr t ∉ calls := by
  obtain ⟨⟨k', calls⟩, B', hrun, F⟩ := T.walk hw reg.pages fun p b hp => T.length_lt hp
  refine ⟨k', calls, fun depth hd => ?_, F.once, F.mem, B', F.alloc, fun t o => ?_⟩
  · have hdeep := freewalkCalls_mono hd hrun
    refine ⟨hdeep, ?_⟩
    rw [← freewalkCalls_fst, hdeep]
    rfl
  · rw [F.used, F.mem]

end

/-! ### The tables of a space that maps nothing -/

section

variable {reg : Region} {arch : Arch} {k : Kernel BuddyAllocator} {B : Blocks}
  {Base : Nat → Nat → Prop} {ι : Type}
  {W : Spaces ι} {i : ι} {A : AddrSpace} {T : Nat → Nat → Option Nat} {m : Mem}
  {root l q a b : Nat}
  {p p' : List Nat}

/-- The page number that the entries `p` lead to, from the prefix `q` on. -/
def pathPrefix (q : Nat) (p : List Nat) : Nat := p.foldl (fun q i => 512 * q + i) q

theorem TablePath.index_lt (h : TablePath arch m a p b) : ∀ i ∈ p, i < 512 := by
  induction h with
  | here a => exact fun i hi => absurd hi List.not_mem_nil
  | entry hi hdir h ih => exact List.forall_mem_cons.mpr ⟨hi, ih⟩

theorem pathPrefix_inj (hp : ∀ i ∈ p, i < 512) (hp' : ∀ i ∈ p', i < 512)
    (hlen : p.length = p'.length) (h : pathPrefix q p = pathPrefix q p') : p = p' := by
  induction p using List.reverseRecOn generalizing p' with
  | nil =>
    rw [List.length_nil] at hlen
    exact (List.eq_nil_of_length_eq_zero hlen.symm).symm
  | append_singleton p i ih =>
    rcases List.eq_nil_or_concat p' with rfl | ⟨p', j, rfl⟩
    · simp at hlen
    · rw [List.concat_eq_append] at *
      simp only [pathPrefix, List.foldl_append, List.foldl_cons, List.foldl_nil] at h
      have hi := hp i (by simp)
      have hj := hp' j (by simp)
      have hlast : i = j := by omega
      have hinit := ih (fun x hx => hp x (by simp [hx])) (fun x hx => hp' x (by simp [hx]))
        (by simpa using hlen) (show pathPrefix q p = pathPrefix q p' by unfold pathPrefix; omega)
      rw [hinit, hlast]

/-- The entry for a table refers to it. -/
theorem Tables.isDirEntry (H : Tables arch m root T) {j : Nat} (ha : T (l + 1) q = some a)
    (hj : j < 512) (hb : T l (512 * q + j) = some b) : IsDirEntry arch m a j := by
  have hpte : getPte arch a j = a + 8 * j :=
    ((H.page ha).2.2.2.add (H.page ha).1 (by omega)).pteAddr
  have hchild := H.radix.dir ha hj
  rw [hb] at hchild
  unfold IsDirEntry
  rw [hpte]
  by_cases hval : arch.isValid (pteData m (a + 8 * j)) = true
  · exact ⟨hval, H.dir ha hj hval⟩
  · unfold dirEntry at hchild
    simp only at hchild
    rw [if_neg hval] at hchild
    cases hchild

/-- The tables that the entries lead to are those of the levels below. -/
theorem Tables.path_table (H : Tables arch m root T)
    (hleaf : ∀ {q a i}, T 0 q = some a → i < 512 → ¬IsDirEntry arch m a i)
    (ha : T l q = some a)
    (hp : TablePath arch m a p b) : p.length ≤ l ∧
      T (l - p.length) (pathPrefix q p) = some b := by
  induction hp generalizing l q with
  | here a => exact ⟨Nat.zero_le l, ha⟩
  | @entry a i b p hi hdir hp ih =>
    cases l with
    | zero => exact absurd hdir (hleaf ha hi)
    | succ l =>
      have hchild := H.radix.dir ha hi
      have hwin := (H.page ha).2.2.2
      have hpte : getPte arch a i = a + 8 * i :=
        (hwin.add (H.page ha).1 (by omega)).pteAddr
      have hval := hdir.1
      rw [hpte] at hval
      unfold dirEntry at hchild
      simp only at hchild
      rw [if_pos hval, ← hpte] at hchild
      obtain ⟨hle, hT⟩ := ih hchild.symm
      refine ⟨by rw [List.length_cons]; omega, ?_⟩
      rw [List.length_cons, Nat.add_sub_add_right]
      exact hT

/-- The tables of a space that maps nothing form a tree without valid leaf entries. -/
theorem World.heldTree (H : World reg arch k B Base W) (hi : W i = some A) (hb : A.base = 0)
    (hmap : ∀ v, A.map v = none) : HeldTree reg arch k B A.root := by
  have HT := H.tables hi
  have hvalid : ∀ {q a j}, A.tables 0 q = some a → j < 512 →
      arch.isValid (pteData k.mem (getPte arch a j)) = false := by
    intro q a j ha hj
    have hpte : getPte arch a j = a + 8 * j :=
      ((HT.page ha).2.2.2.add (HT.page ha).1 (by omega)).pteAddr
    have hleaf : leafPte A.tables (512 * q + j) = some (a + 8 * j) := by
      simp [leafPte, show (512 * q + j) / 512 =
        q by omega, show (512 * q + j) % 512 = j by omega, ha]
    have hlt : 512 * q + j < arch.vaPages := by
      have hq := (HT.radix.below_root ha).2
      rw [Nat.sub_zero] at hq
      have := Nat.lt_of_div_eq_zero (Nat.pow_pos (by decide)) hq
      have hpow : arch.vaPages = 512 ^ arch.top * 512 := Nat.pow_succ ..
      omega
    have hR := (H.represents hi).of_none (hmap (512 * q + j)) ⟨by omega, by omega⟩
    rw [Nat.mod_eq_of_lt hlt, leafData_of_pte hleaf] at hR
    rw [hpte, hR, Arch.isValid_zero]
  have hleaf : ∀ {q a j}, A.tables 0 q = some a → j < 512 → ¬IsDirEntry arch k.mem a j := by
    intro q a j ha hj hdir
    have := hvalid ha hj
    rw [hdir.1] at this
    cases this
  refine ⟨H.alloc, ⟨fun {p p' b} hp hp' => ?_, fun {p b j} hp hj hval => ?_⟩,
    fun {p b} hp => ?_⟩
  · obtain ⟨hle, hT⟩ := HT.path_table hleaf HT.radix.root hp
    obtain ⟨hle', hT'⟩ := HT.path_table hleaf HT.radix.root hp'
    obtain ⟨hlevel, hpre⟩ := HT.radix.inj hT hT'
    exact pathPrefix_inj hp.index_lt hp'.index_lt (by omega) hpre
  · obtain ⟨hle, hT⟩ := HT.path_table hleaf HT.radix.root hp
    generalize arch.top - p.length = l at hT
    cases l with
    | zero =>
      rw [hvalid hT hj] at hval
      cases hval
    | succ l =>
      have hpte : getPte arch b j = b + 8 * j :=
        ((HT.page hT).2.2.2.add (HT.page hT).1 (by omega)).pteAddr
      rw [hpte] at hval ⊢
      exact HT.dir hT hj hval
  · obtain ⟨hle, hT⟩ := HT.path_table hleaf HT.radix.root hp
    obtain ⟨s, rfl⟩ := H.tableAddr hi ⟨_, _, hT⟩
    exact ⟨s, rfl, H.owners.table ⟨A, hi, _, _, hT⟩⟩

/-- A space on the sample region in which a page has been mapped and unmapped. -/
theorem freewalk_once_sample : ∃ (k : Kernel BuddyAllocator) (B : Blocks) (root : Nat),
    (∃ p a, TablePath .riscv k.mem root p a ∧ a ≠ root) ∧
    ∃ k' calls, (∀ depth, sampleRegion.pages ≤ depth →
        freewalkCalls .riscv buddyPages depth k root = .ok (k', calls) ∧
        freewalkFrom .riscv buddyPages depth k root = .ok k') ∧
      calls.Nodup ∧ (∀ a, a ∈ calls ↔ ∃ p, TablePath .riscv k.mem root p a) ∧
      ∃ B', sampleRegion.Alloc k'.pages k'.mem B' ∧
        ∀ t o, B' t = some ⟨o, true⟩ ↔ B t = some ⟨o, true⟩ ∧
          sampleRegion.addr t ∉ calls := by
  obtain ⟨k₀, B₀, -, hroom₀, H₀⟩ := sample_world
  rcases H₀.create sampleRegion_inWindow (i := ()) rfl 0 with
      ⟨-, h0⟩ | ⟨root, k₁, B₁, T, -, H₁, -, hle, -⟩
  · omega
  rw [Spaces.update_unit] at H₁
  have hrange : PageRange .riscv 0 5 1 := ⟨by decide, by decide, by decide⟩
  obtain ⟨k₂, B₂, A, -, H₂, E⟩ :=
    H₁.allocOne sampleRegion_inWindow (i := ()) rfl false true true 0x6000
    (v := 5) hrange rfl (by simp only [Arch.top]; omega)
  rw [Spaces.update_unit] at H₂
  obtain ⟨q, hq, hmap, -⟩ := E.inside 5 (by decide) (by decide)
  have hbase : A.base = 0 := E.base
  have hheld : ∀ w, 5 ≤ w → w < 5 + 1 → A.pages w ≠ none := by
    intro w hl hu
    obtain rfl : w = 5 := by omega
    rw [hq]
    exact Option.some_ne_none q
  have hwhole : A.Whole B₂ 5 1 := by
    intro w s o d hl hu hs hB hd _
    have := E.whole w s o hl hu hs hB
    omega
  obtain ⟨k, B, -, H, -⟩ :=
    H₂.vmUnmap sampleRegion_inWindow (i := ()) rfl (hbase.symm ▸ hrange)
    (by decide) hheld hwhole
  rw [Spaces.update_unit] at H
  have hnone : ∀ v, (A.unmap 5 1).map v = none := by
    intro v
    show A.map.unmap 5 1 v = none
    by_cases hv : 5 ≤ v ∧ v < 5 + 1
    · exact if_pos hv
    · rw [PageMap.unmap, if_neg hv]
      exact (E.outside v (by omega)).1
  have HT := H.tables (i := ()) rfl
  -- the page that was mapped had a table
  obtain ⟨pte, hpte, -⟩ := (H₂.represents (i := ()) rfl).leafPte hmap
  obtain ⟨a₀, ha₀, -⟩ := Option.map_eq_some_iff.mp hpte
  obtain ⟨a₁, ha₁⟩ := HT.radix.closed ha₀ (by decide)
  have hdir : IsDirEntry .riscv k.mem A.root 0 :=
    HT.isDirEntry (l := 1) (q := 0) HT.radix.root (show 0 < 512 by decide) ha₁
  have htree := H.heldTree (i := ()) rfl hbase hnone
  refine ⟨k, B, A.root, ⟨[0], _, .entry (by decide) hdir (.here _), fun heq => ?_⟩,
    freewalk_once sampleRegion .riscv sampleRegion_inWindow k B A.root htree⟩
  have hself : TablePath .riscv k.mem A.root [0] A.root :=
    .entry (by decide) hdir (by rw [heq]; exact .here A.root)
  cases htree.tree.distinct hself (.here A.root)

end

end OsKernel.Mm

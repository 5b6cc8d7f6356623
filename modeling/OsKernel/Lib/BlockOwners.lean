import OsKernel.Lib.BuddySystem

/-! Who holds the blocks in use of a partition.  Each of them is held outside (`Base`), or is one
unit that a space `i` keeps as a table (`Tab i`), or holds units that a space maps: `Page i v p`
says that the space `i` maps the number `v` to the unit `p`.  The units of one block are mapped in
order, so whoever maps a unit of a block maps its first unit too. -/

namespace OsKernel.Lib.BuddySystem

structure Owners {ι : Type} (B : Blocks) (Base : Nat → Nat → Prop) (Tab : ι → Nat → Prop)
    (Page : ι → Nat → Nat → Prop) : Prop where
  table : ∀ {i s}, Tab i s → B s = some ⟨0, true⟩
  tableApart : ∀ {i j s}, Tab i s → Tab j s → i = j
  backed : ∀ {i v p}, Page i v p →
    ∃ s k d, B s = some ⟨k, true⟩ ∧ p = s + d ∧ d < 2 ^ k ∧ d ≤ v ∧ Page i (v - d) s
  pageTable : ∀ {i j v p}, Page i v p → ¬Tab j p
  inj : ∀ {i j v w p}, Page i v p → Page j w p → i = j ∧ v = w
  fn : ∀ {i v p q}, Page i v p → Page i v q → p = q
  base : ∀ {s k}, Base s k → B s = some ⟨k, true⟩
  baseTable : ∀ {s k i}, Base s k → ¬Tab i s
  basePage : ∀ {s k i v}, Base s k → ¬Page i v s
  cover : ∀ {s k}, B s = some ⟨k, true⟩ → Base s k ∨ (∃ i, Tab i s) ∨ ∃ i v,
    Page i v s

variable {ι : Type} {A : Areas} {B B' : Blocks} {Base Base' : Nat → Nat → Prop}
  {Tab Tab' : ι → Nat → Prop} {Page Page' : ι → Nat → Nat → Prop}

/-- A unit inside a block is the start of no block. -/
theorem Partition.start_eq (P : Partition A B) {s d : Nat} {b c : Block} (hs : B s = some b)
    (hd : d < 2 ^ b.order) (ht : B (s + d) = some c) : d = 0 := by
  have := P.eq_of_mem hs ht (p := s + d) ⟨by omega, by omega⟩
    ⟨by omega, by have := Nat.two_pow_pos c.order; omega⟩
  omega

/-- The unit `p` is in no block in use. -/
def Unused (B : Blocks) (p : Nat) : Prop :=
  ∀ t k, B t = some ⟨k, true⟩ → p < t ∨ t + 2 ^ k ≤ p

theorem Unused.not_start {p : Nat} (h : Unused B p) (k : Nat) : B p ≠ some ⟨k, true⟩ := by
  intro hp
  have := h p k hp
  have := Nat.two_pow_pos k
  omega

namespace Owners

/-- All blocks in use are held outside. -/
theorem bare (hT : ∀ i s, ¬Tab i s) (hP : ∀ i v p, ¬Page i v p) :
    Owners B (fun s k => B s = some ⟨k, true⟩) Tab Page where
  table := fun h => absurd h (hT _ _)
  tableApart := fun h => absurd h (hT _ _)
  backed := fun h => absurd h (hP _ _ _)
  pageTable := fun h => absurd h (hP _ _ _)
  inj := fun h => absurd h (hP _ _ _)
  fn := fun h => absurd h (hP _ _ _)
  base := id
  baseTable := fun _ => hT _ _
  basePage := fun _ => hP _ _ _
  cover := .inl

/-- A unit that is mapped starts no block, or a block in use. -/
theorem page_start (O : Owners B Base Tab Page) (P : Partition A B) {i : ι} {v p : Nat}
    (h : Page i v p) : B p = none ∨ ∃ k, B p = some ⟨k, true⟩ := by
  obtain ⟨s, k, d, hs, rfl, hd, -, -⟩ := O.backed h
  cases ht : B (s + d) with
  | none => exact .inl rfl
  | some c =>
    have hd0 := P.start_eq hs hd ht
    subst hd0
    rw [Nat.add_zero] at ht
    rw [hs] at ht
    cases ht
    exact .inr ⟨k, rfl⟩

/-- Blocks in use whose first unit the allocator has just handed out as tables of `i`. -/
theorem addTables (O : Owners B Base Tab Page) (P' : Partition A B') {i : ι}
    {N : Nat → Prop}
    (hused : ∀ t k, B' t = some ⟨k, true⟩ ↔ B t = some ⟨k, true⟩ ∨ (k = 0 ∧ N t))
    (hfresh : ∀ t k, N t → B t ≠ some ⟨k, true⟩)
    (htab : ∀ j t, Tab' j t ↔ Tab j t ∨ (j = i ∧ N t)) : Owners B' Base Tab' Page where
  table := by
    intro j s h
    rcases (htab j s).mp h with h | ⟨-, h⟩
    · exact (hused s 0).mpr (.inl (O.table h))
    · exact (hused s 0).mpr (.inr ⟨rfl, h⟩)
  tableApart := by
    intro j j' s h h'
    rcases (htab j s).mp h with h | ⟨rfl, h⟩ <;>
      rcases (htab j' s).mp h' with h' | ⟨rfl, h'⟩
    · exact O.tableApart h h'
    · exact absurd (O.table h) (hfresh s 0 h')
    · exact absurd (O.table h') (hfresh s 0 h)
    · rfl
  backed := by
    intro j v p h
    obtain ⟨s, k, d, hs, hp, hd, hv, hpg⟩ := O.backed h
    exact ⟨s, k, d, (hused s k).mpr (.inl hs), hp, hd, hv, hpg⟩
  pageTable := by
    intro j j' v p h h'
    rcases (htab j' p).mp h' with h' | ⟨-, hN⟩
    · exact O.pageTable h h'
    · obtain ⟨s, k, d, hs, rfl, hd, -, -⟩ := O.backed h
      have hd0 := P'.start_eq ((hused s k).mpr (.inl hs)) hd ((hused _ 0).mpr (.inr ⟨rfl, hN⟩))
      subst hd0
      exact hfresh s k hN hs
  inj := O.inj
  fn := O.fn
  base := fun h => (hused _ _).mpr (.inl (O.base h))
  baseTable := by
    intro s k j h h'
    rcases (htab j s).mp h' with h' | ⟨-, hN⟩
    · exact O.baseTable h h'
    · exact hfresh s k hN (O.base h)
  basePage := O.basePage
  cover := by
    intro s k h
    rcases (hused s k).mp h with h | ⟨-, hN⟩
    · rcases O.cover h with h | ⟨j, h⟩ | h
      · exact .inl h
      · exact .inr (.inl ⟨j, (htab j s).mpr (.inl h)⟩)
      · exact .inr (.inr h)
    · exact .inr (.inl ⟨i, (htab i s).mpr (.inr ⟨rfl, hN⟩)⟩)

/-- A block that is handed out to a holder outside. -/
theorem take (O : Owners B Base Tab Page) (P' : Partition A B') {s k : Nat}
    (hused : ∀ t j, B' t = some ⟨j, true⟩ ↔ (t = s ∧ j = k) ∨ B t = some ⟨j, true⟩)
    (hfresh : ∀ j, B s ≠ some ⟨j, true⟩) :
    Owners B' (fun t j => (t = s ∧ j = k) ∨ Base t j) Tab Page where
  table := fun h => (hused _ _).mpr (.inr (O.table h))
  tableApart := O.tableApart
  backed := by
    intro j v p h
    obtain ⟨t, o, d, ht, hp, hd, hv, hpg⟩ := O.backed h
    exact ⟨t, o, d, (hused t o).mpr (.inr ht), hp, hd, hv, hpg⟩
  pageTable := O.pageTable
  inj := O.inj
  fn := O.fn
  base := by
    rintro t j (h | h)
    · exact (hused t j).mpr (.inl h)
    · exact (hused t j).mpr (.inr (O.base h))
  baseTable := by
    rintro t j i (⟨rfl, rfl⟩ | h)
    · exact fun ht => hfresh 0 (O.table ht)
    · exact O.baseTable h
  basePage := by
    rintro t j i v (⟨rfl, rfl⟩ | h)
    · intro hp
      obtain ⟨s, o, d, hs, rfl, hd, -, -⟩ := O.backed hp
      have hd0 := P'.start_eq ((hused s o).mpr (.inr hs)) hd ((hused _ j).mpr (.inl ⟨rfl, rfl⟩))
      subst hd0
      exact hfresh o hs
    · exact O.basePage h
  cover := by
    intro t j h
    rcases (hused t j).mp h with h | h
    · exact .inl (.inl h)
    · rcases O.cover h with h | h
      · exact .inl (.inr h)
      · exact .inr h

/-- A block held outside becomes the units that `i` maps from `v` on. -/
theorem own (O : Owners B Base Tab Page) (P : Partition A B) {i : ι} {v s k : Nat}
    (hs : Base s k) (hclear : ∀ d p, d < 2 ^ k → ¬Page i (v + d) p)
    (hbase : ∀ t j, Base' t j ↔ Base t j ∧ t ≠ s)
    (hpage : ∀ j w p, Page' j w p ↔
      Page j w p ∨ (j = i ∧ ∃ d, d < 2 ^ k ∧ w = v + d ∧ p = s + d)) :
    Owners B Base' Tab Page' := by
  have hB := O.base hs
  -- no unit of the block was mapped
  have hnone : ∀ {j w d}, d < 2 ^ k → ¬Page j w (s + d) := by
    intro j w d hd h
    obtain ⟨t, o, e, ht, he, heo, -, hp⟩ := O.backed h
    have hst := P.eq_of_mem hB ht (p := s + d) ⟨by omega, by simp only; omega⟩
      ⟨by omega, by simp only; omega⟩
    subst hst
    exact O.basePage hs hp
  exact {
    table := O.table
    tableApart := O.tableApart
    backed := by
      intro j w p h
      rcases (hpage j w p).mp h with h | ⟨rfl, d, hd, rfl, rfl⟩
      · obtain ⟨t, o, e, ht, hp, he, hv, hpg⟩ := O.backed h
        exact ⟨t, o, e, ht, hp, he, hv, (hpage _ _ _).mpr (.inl hpg)⟩
      · refine ⟨s, k, d, hB, rfl,
          hd, by omega, (hpage _ _ _).mpr (.inr ⟨rfl, 0, ?_, by omega, rfl⟩)⟩
        exact Nat.two_pow_pos k
    pageTable := by
      intro j j' w p h ht
      rcases (hpage j w p).mp h with h | ⟨rfl, d, hd, rfl, rfl⟩
      · exact O.pageTable h ht
      · have hd0 := P.start_eq hB hd (O.table ht)
        subst hd0
        exact O.baseTable hs ht
    inj := by
      intro j j' w w' p h h'
      rcases (hpage j w p).mp h with h | ⟨rfl, d, hd, rfl, rfl⟩ <;>
        rcases (hpage j' w' _).mp h' with h' | ⟨rfl, d', hd', rfl, he⟩
      · exact O.inj h h'
      · subst he
        exact absurd h (hnone hd')
      · exact absurd h' (hnone hd)
      · exact ⟨rfl, by omega⟩
    fn := by
      intro j w p q h h'
      rcases (hpage j w p).mp h with h | ⟨rfl, d, hd, rfl, rfl⟩ <;>
        rcases (hpage j _ q).mp h' with h' | ⟨hj, d', hd', he, rfl⟩
      · exact O.fn h h'
      · subst hj he
        exact absurd h (hclear d' p hd')
      · exact absurd h' (hclear d q hd)
      · omega
    base := fun h => O.base ((hbase _ _).mp h).1
    baseTable := fun h => O.baseTable ((hbase _ _).mp h).1
    basePage := by
      intro t j i' w h hp
      obtain ⟨hb, hne⟩ := (hbase t j).mp h
      rcases (hpage i' w t).mp hp with hp | ⟨rfl, d, hd, rfl, rfl⟩
      · exact O.basePage hb hp
      · have hd0 := P.start_eq hB hd (O.base hb)
        subst hd0
        exact hne rfl
    cover := by
      intro t j h
      rcases O.cover h with hb | ht | ⟨i', w, hp⟩
      · by_cases hts : t = s
        · refine .inr (.inr ⟨i, v, (hpage _ _ _).mpr (.inr ⟨rfl, 0, ?_, rfl, by omega⟩)⟩)
          exact Nat.two_pow_pos k
        · exact .inl ((hbase t j).mpr ⟨hb, hts⟩)
      · exact .inr (.inl ht)
      · exact .inr (.inr ⟨i', w, (hpage _ _ _).mpr (.inl hp)⟩) }

/-- The blocks held outside that start in `R` are released. -/
theorem drop (O : Owners B Base Tab Page) {R : Nat → Prop}
    (hused : ∀ t j, B' t = some ⟨j, true⟩ ↔ B t = some ⟨j, true⟩ ∧ ¬R t)
    (hR : ∀ t, R t → ∃ k, Base t k) (hbase : ∀ t j, Base' t j ↔ Base t j ∧ ¬R t) :
    Owners B' Base' Tab Page where
  table := fun h => (hused _ _).mpr ⟨O.table h, fun hr => by
    obtain ⟨k, hb⟩ := hR _ hr
    exact O.baseTable hb h⟩
  tableApart := O.tableApart
  backed := by
    intro i v p h
    obtain ⟨s, k, d, hs, hp, hd, hv, hpg⟩ := O.backed h
    refine ⟨s, k, d, (hused s k).mpr ⟨hs, fun hr => ?_⟩, hp, hd, hv, hpg⟩
    obtain ⟨o, hb⟩ := hR _ hr
    exact O.basePage hb hpg
  pageTable := O.pageTable
  inj := O.inj
  fn := O.fn
  base := fun h => (hused _ _).mpr ⟨O.base ((hbase _ _).mp h).1, ((hbase _ _).mp h).2⟩
  baseTable := fun h => O.baseTable ((hbase _ _).mp h).1
  basePage := fun h => O.basePage ((hbase _ _).mp h).1
  cover := by
    intro s k h
    obtain ⟨hs, hr⟩ := (hused s k).mp h
    rcases O.cover hs with hb | h
    · exact .inl ((hbase s k).mpr ⟨hb, hr⟩)
    · exact .inr h

/-- The units in `R` are no longer mapped, and the blocks whose first unit was one of them are
released; no other unit of such a block stays mapped. -/
theorem release (O : Owners B Base Tab Page) {R : ι → Nat → Prop}
    (hused : ∀ t j, B' t = some ⟨j, true⟩ ↔
      B t = some ⟨j, true⟩ ∧ ¬∃ i v, R i v ∧ Page i v t)
    (hwhole : ∀ {i v s k d}, R i v → Page i v s → B s = some ⟨k, true⟩ → d < 2 ^ k →
      Page i (v + d) (s + d) → R i (v + d))
    (hpage : ∀ i v p, Page' i v p ↔ Page i v p ∧ ¬R i v) : Owners B' Base Tab Page' where
  table := fun h => (hused _ _).mpr ⟨O.table h, fun ⟨_, _, _, hp⟩ => O.pageTable hp h⟩
  tableApart := O.tableApart
  backed := by
    intro i v p h
    obtain ⟨hp, hr⟩ := (hpage i v p).mp h
    obtain ⟨s, k, d, hs, rfl, hd, hv, hpg⟩ := O.backed hp
    have hstart : ¬R i (v - d) := by
      intro hr'
      have hrd := hwhole hr' hpg hs hd (by rw [Nat.sub_add_cancel hv]; exact hp)
      rw [Nat.sub_add_cancel hv] at hrd
      exact hr hrd
    refine ⟨s, k, d, (hused s k).mpr ⟨hs, ?_⟩, rfl, hd, hv,
      (hpage _ _ _).mpr ⟨hpg, hstart⟩⟩
    rintro ⟨j, w, hr', hw⟩
    obtain ⟨rfl, rfl⟩ := O.inj hpg hw
    exact hstart hr'
  pageTable := fun h => O.pageTable ((hpage _ _ _).mp h).1
  inj := fun h h' => O.inj ((hpage _ _ _).mp h).1 ((hpage _ _ _).mp h').1
  fn := fun h h' => O.fn ((hpage _ _ _).mp h).1 ((hpage _ _ _).mp h').1
  base := fun h => (hused _ _).mpr ⟨O.base h, fun ⟨_, _, _, hp⟩ => O.basePage h hp⟩
  baseTable := O.baseTable
  basePage := fun h hp => O.basePage h ((hpage _ _ _).mp hp).1
  cover := by
    intro s k h
    obtain ⟨hs, hr⟩ := (hused s k).mp h
    rcases O.cover hs with hb | ht | ⟨i, v, hp⟩
    · exact .inl hb
    · exact .inr (.inl ht)
    · exact .inr (.inr ⟨i, v, (hpage _ _ _).mpr ⟨hp, fun hr' => hr ⟨i, v, hr', hp⟩⟩⟩)

/-- The space `i` no longer keeps the units that it maps: their blocks are held outside. -/
theorem disown (O : Owners B Base Tab Page) {i : ι}
    (hbase : ∀ s k, Base' s k ↔ Base s k ∨ (B s = some ⟨k, true⟩ ∧ ∃ v, Page i v s))
    (hpage : ∀ j v p, Page' j v p ↔ Page j v p ∧ j ≠ i) : Owners B Base' Tab Page' where
  table := O.table
  tableApart := O.tableApart
  backed := by
    intro j v p h
    obtain ⟨hp, hj⟩ := (hpage j v p).mp h
    obtain ⟨s, k, d, hs, he, hd, hv, hpg⟩ := O.backed hp
    exact ⟨s, k, d, hs, he, hd, hv, (hpage _ _ _).mpr ⟨hpg, hj⟩⟩
  pageTable := fun h => O.pageTable ((hpage _ _ _).mp h).1
  inj := fun h h' => O.inj ((hpage _ _ _).mp h).1 ((hpage _ _ _).mp h').1
  fn := fun h h' => O.fn ((hpage _ _ _).mp h).1 ((hpage _ _ _).mp h').1
  base := by
    intro s k h
    rcases (hbase s k).mp h with h | ⟨h, -⟩
    · exact O.base h
    · exact h
  baseTable := by
    intro s k j h
    rcases (hbase s k).mp h with h | ⟨-, v, h⟩
    · exact O.baseTable h
    · exact O.pageTable h
  basePage := by
    intro s k j w h hp
    obtain ⟨hp, hj⟩ := (hpage j w s).mp hp
    rcases (hbase s k).mp h with h | ⟨-, v, h⟩
    · exact O.basePage h hp
    · exact hj (O.inj hp h).1
  cover := by
    intro s k h
    rcases O.cover h with hb | ht | ⟨j, v, hp⟩
    · exact .inl ((hbase s k).mpr (.inl hb))
    · exact .inr (.inl ht)
    · by_cases hj : j = i
      · subst hj
        exact .inl ((hbase s k).mpr (.inr ⟨h, v, hp⟩))
      · exact .inr (.inr ⟨j, v, (hpage j v s).mpr ⟨hp, hj⟩⟩)

/-- The tables of the space `i` are held outside. -/
theorem untable (O : Owners B Base Tab Page) {i : ι}
    (hbase : ∀ s k, Base' s k ↔ Base s k ∨ (k = 0 ∧ Tab i s))
    (htab : ∀ j s, Tab' j s ↔ Tab j s ∧ j ≠ i) : Owners B Base' Tab' Page where
  table := fun h => O.table ((htab _ _).mp h).1
  tableApart := fun h h' => O.tableApart ((htab _ _).mp h).1 ((htab _ _).mp h').1
  backed := O.backed
  pageTable := fun h h' => O.pageTable h ((htab _ _).mp h').1
  inj := O.inj
  fn := O.fn
  base := by
    intro s k h
    rcases (hbase s k).mp h with hb | ⟨rfl, ht⟩
    · exact O.base hb
    · exact O.table ht
  baseTable := by
    intro s k j h ht
    obtain ⟨ht, hj⟩ := (htab j s).mp ht
    rcases (hbase s k).mp h with h | ⟨-, h⟩
    · exact O.baseTable h ht
    · exact hj (O.tableApart ht h)
  basePage := by
    intro s k j v h hp
    rcases (hbase s k).mp h with h | ⟨-, h⟩
    · exact O.basePage h hp
    · exact O.pageTable hp h
  cover := by
    intro s k h
    rcases O.cover h with hb | ⟨j, ht⟩ | hp
    · exact .inl ((hbase s k).mpr (.inl hb))
    · by_cases hj : j = i
      · subst hj
        have hk := O.table ht
        rw [h] at hk
        cases hk
        exact .inl ((hbase s 0).mpr (.inr ⟨rfl, ht⟩))
      · exact .inr (.inl ⟨j, (htab j s).mpr ⟨ht, hj⟩⟩)
    · exact .inr (.inr hp)

end Owners

end OsKernel.Lib.BuddySystem

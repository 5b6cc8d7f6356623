import OsKernel.Mm.Vmm.Transfer

/-! `freewalk` over all address spaces: the tables of a space go back to the allocator, and the
pages that it still maps are held by nobody. -/

namespace OsKernel.Mm

open Lib Hsai Lib.BuddySystem BuddyAllocator

/-- The tables at and below the one at level `l` for the prefix `q` are single pages held outside,
with the entries that `T` says. -/
structure LooseTables (reg : Region) (arch : Arch) (m : Mem) (Base : Nat → Nat → Prop)
    (T : Nat → Nat → Option Nat) (l q : Nat) : Prop where
  block : ∀ {l' q' a}, RadixTable.Below 512 l q l' q' → T l' q' = some a →
    ∃ s, a = reg.addr s ∧ Base s 0
  child : ∀ {l' q' a i}, RadixTable.Below 512 l q (l' + 1) q' → T (l' + 1) q' = some a →
    i < 512 → dirEntry arch m a i = T l' (512 * q' + i)
  dir : ∀ {l' q' a i}, RadixTable.Below 512 l q (l' + 1) q' → T (l' + 1) q' = some a →
    i < 512 → arch.isValid (pteData m (a + 8 * i)) = true →
    arch.isDirPage (pteData m (a + 8 * i)) = true
  leaf : ∀ {q' a i}, RadixTable.Below 512 l q 0 q' → T 0 q' = some a → i < 512 →
    arch.isValid (pteData m (a + 8 * i)) = true → arch.isDirPage (pteData m (a + 8 * i)) = false

/-- The page `t` is a table at or below the one at level `l` for the prefix `q`. -/
def TableBelow (reg : Region) (T : Nat → Nat → Option Nat) (l q t : Nat) : Prop :=
  ∃ l' q', RadixTable.Below 512 l q l' q' ∧ T l' q' = some (reg.addr t)

/-- The page `t` is a table below one of the first `n` entries. -/
def TableUnder (reg : Region) (T : Nat → Nat → Option Nat) (l q n t : Nat) : Prop :=
  ∃ i < n, TableBelow reg T l (512 * q + i) t

section

variable {reg : Region} {arch : Arch} {k k' : Kernel BuddyAllocator} {B B' : Blocks}
  {Base Base' : Nat → Nat → Prop} {ι : Type} {W : Spaces ι} {i : ι} {A : AddrSpace}
  {T : Nat → Nat → Option Nat} {m m' : Mem} {l q a n t : Nat}

theorem tableBelow_zero (ha : T 0 q = some a) :
    TableBelow reg T 0 q t ↔ reg.addr t = a := by
  constructor
  · rintro ⟨l', q', hb, ht⟩
    obtain ⟨rfl, rfl⟩ := hb.level_zero
    rw [ha] at ht
    exact (Option.some.inj ht).symm
  · rintro rfl
    exact ⟨0, q, .refl 512 0 q, ha⟩

theorem tableBelow_succ (ha : T (l + 1) q = some a) :
    TableBelow reg T (l + 1) q t ↔ reg.addr t = a ∨ TableUnder reg T l q 512 t := by
  constructor
  · rintro ⟨l', q', hb, ht⟩
    rcases (RadixTable.below_succ (by decide)).mp hb with ⟨rfl, rfl⟩ | ⟨i, hi, hb⟩
    · rw [ha] at ht
      exact .inl (Option.some.inj ht).symm
    · exact .inr ⟨i, hi, l', q', hb, ht⟩
  · rintro (rfl | ⟨i, hi, l', q', hb, ht⟩)
    · exact ⟨l + 1, q, .refl 512 _ q, ha⟩
    · exact ⟨l', q', (RadixTable.below_succ (by decide)).mpr (.inr ⟨i, hi, hb⟩), ht⟩

namespace LooseTables

/-- The tables below an entry, in another memory with the same bytes there. -/
theorem entry (L : LooseTables reg arch m Base T (l + 1) q) (hn : n < 512)
    (hBase : ∀ s, Base s 0 → TableBelow reg T l (512 * q + n) s → Base' s 0)
    (hm : ∀ s, Base s 0 → TableBelow reg T l (512 * q + n) s →
      ∀ x, reg.addr s ≤ x → x < reg.addr s + 4096 → m' x = m x) :
    LooseTables reg arch m' Base' T l (512 * q + n) := by
  have hup : ∀ {l' q'}, RadixTable.Below 512 l (512 * q + n) l' q' →
      RadixTable.Below 512 (l + 1) q l' q' := fun hb =>
    (RadixTable.below_succ (by decide)).mpr (.inr ⟨n, hn, hb⟩)
  have hdata : ∀ {l' q' a i}, RadixTable.Below 512 l (512 * q + n) l' q' → T l' q' = some a →
      i < 512 → pteData m' (a + 8 * i) = pteData m (a + 8 * i) := by
    intro l' q' a i hb ha hi
    obtain ⟨s, rfl, hs⟩ := L.block (hup hb) ha
    exact Tables.pteData_congr fun y hl hu =>
      hm s hs ⟨l', q', hb, ha⟩ y (by omega) (by omega)
  constructor
  · intro l' q' a hb ha
    obtain ⟨s, rfl, hs⟩ := L.block (hup hb) ha
    exact ⟨s, rfl, hBase s hs ⟨l', q', hb, ha⟩⟩
  · intro l' q' a i hb ha hi
    rw [← L.child (hup hb) ha hi]
    unfold dirEntry
    rw [hdata hb ha hi]
  · intro l' q' a i hb ha hi
    rw [hdata hb ha hi]
    exact L.dir (hup hb) ha hi
  · intro q' a i hb ha hi
    rw [hdata hb ha hi]
    exact L.leaf (hup hb) ha hi

end LooseTables

/-- The single pages in `R`, which were held outside, have been given back, and no byte in use
outside `keepOut` has changed. -/
structure GivenBack (reg : Region) (arch : Arch) (W : Spaces ι) (k : Kernel BuddyAllocator)
    (B : Blocks) (Base : Nat → Nat → Prop) (R keepOut : Nat → Prop)
    (k' : Kernel BuddyAllocator)
    (B' : Blocks) : Prop where
  world : World reg arch k' B' (fun s o => Base s o ∧ ¬R s) W
  used : ∀ t o, B' t = some ⟨o, true⟩ ↔ B t = some ⟨o, true⟩ ∧ ¬R t
  keep : AgreeOn (fun x => reg.Used B' x ∧ ¬keepOut x) k.mem k'.mem

namespace GivenBack

variable {R R' keepOut keepOut' : Nat → Prop} {k'' : Kernel BuddyAllocator} {B'' : Blocks}

theorem refl (H : World reg arch k B Base W) (hR : ∀ t, ¬R t) :
    GivenBack reg arch W k B Base R keepOut k B := by
  refine ⟨?_, fun t o => ⟨fun h => ⟨h, hR t⟩, And.left⟩, fun _ _ => rfl⟩
  have : (fun s o => Base s o ∧ ¬R s) = Base := by
    funext s o
    simp [hR s]
  rwa [this]

theorem used_sub (G : GivenBack reg arch W k B Base R keepOut k' B') {x : Nat}
    (hx : reg.Used B' x) : reg.Used B x := by
  obtain ⟨t, o, ht, hl, hu⟩ := hx
  exact ⟨t, o, ((G.used t o).mp ht).1, hl, hu⟩

theorem trans (G : GivenBack reg arch W k B Base R keepOut k' B')
    (G' : GivenBack reg arch W k' B' (fun s o => Base s o ∧ ¬R s) R' keepOut k'' B'') :
    GivenBack reg arch W k B Base (fun t => R t ∨ R' t) keepOut k'' B'' := by
  refine ⟨?_, fun t o => ?_, fun x hx => ?_⟩
  · have : (fun s o => Base s o ∧ ¬(R s ∨ R' s)) = fun s o => (Base s o ∧ ¬R s) ∧
        ¬R' s := by
      funext s o
      rw [not_or, and_assoc]
    rw [this]
    exact G'.world
  · rw [G'.used, G.used, not_or, and_assoc]
  · rw [G'.keep x hx, G.keep x ⟨G'.used_sub hx.1, hx.2⟩]

theorem congr (G : GivenBack reg arch W k B Base R keepOut k' B') (hR : ∀ t, R t ↔ R' t)
    (hk : ∀ x, keepOut x → keepOut' x) : GivenBack reg arch W k B Base R' keepOut' k' B' := by
  obtain rfl : R = R' := funext fun t => propext (hR t)
  exact ⟨G.world, G.used, fun x hx => G.keep x ⟨hx.1, fun h => hx.2 (hk x h)⟩⟩

end GivenBack

/-- The bytes of the first `n` entries of the table at `a`. -/
def EntryBytes (a n x : Nat) : Prop := a ≤ x ∧ x < a + 8 * n

theorem Region.getPte_addr (hw : reg.InWindow arch) {s j : Nat} (hs : s < reg.pages)
    (hj : j < 512) : getPte arch (reg.addr s) j = reg.addr s + 8 * j := by
  have hb := Region.page_bound hs
  have hal := reg.mem_aligned
  have hwin := hw.windowed (reg.addr s) (by simp only [Region.addr]; omega) (by omega)
  exact (hwin.add (by simp only [Region.addr]; omega) (by omega)).pteAddr

/-- The table itself is given back after what is below it. -/
theorem GivenBack.table {R : Nat → Prop} {s : Nat} (hw : reg.InWindow arch)
    (G : GivenBack reg arch W k B Base R (EntryBytes (reg.addr s) 512) k' B') (hs : Base s 0)
    (hR : ¬R s) :
    ∃ r k'' B'', pmmFreePages buddyPages k' (reg.addr s) = .ok (r, k'') ∧
      GivenBack reg arch W k B Base (fun t => R t ∨ t = s) (fun _ => False) k'' B'' := by
  obtain ⟨r, k'', B'', hrun, hrel, H, hkeep⟩ :=
    G.world.freeBase hw (s := s) (o := 0) ⟨hs, hR⟩
  have hB' := G.world.owners.base (s := s) (k := 0) ⟨hs, hR⟩
  refine ⟨r, k'', B'', hrun, ?_, fun t o => ?_, fun x hx => ?_⟩
  · have : (fun t o => Base t o ∧ ¬(R t ∨ t = s)) = fun t o => (Base t o ∧ ¬R t) ∧
        t ≠ s := by
      funext t o
      rw [not_or, and_assoc]
    rw [this]
    exact H
  · rw [hrel.used, G.used, not_or, and_assoc]
  · rw [hkeep x hx.1]
    refine G.keep x ⟨hrel.used_of hx.1, fun hin => ?_⟩
    -- no byte of the table is in use any more
    obtain ⟨t, o, ht, hl, hu⟩ := hx.1
    obtain ⟨ht', hts⟩ := (hrel.used t o).mp ht
    refine hts (G.world.alloc.inv.rep.part.eq_of_mem ht' hB' (Region.addr_page hl hu)
      (Region.addr_page (k := 0) hin.1 ?_))
    have := hin.2
    simpa using this

/-- The entries of a table in `freewalk`, after `n` of them, where `step` is the recursive call. -/
theorem World.freewalk_entries (H : World reg arch k B Base W) (hw : reg.InWindow arch) {s : Nat}
    (hs : Base s 0) (under : Nat → Nat → Prop)
    (step : Kernel BuddyAllocator → Nat → Except Fault (Kernel BuddyAllocator))
    (hunder : ∀ n, ¬under n s)
    (hturn : ∀ n k₁ B₁, n < 512 →
      GivenBack reg arch W k B Base (fun t => ∃ i < n, under i t) (EntryBytes (reg.addr s) n)
      k₁ B₁ →
      (arch.isValid (pteData k.mem (reg.addr s + 8 * n)) &&
          arch.isDirPage (pteData k.mem (reg.addr s + 8 * n))) = false ∧ (∀ t, ¬under n t) ∨
        (arch.isValid (pteData k.mem (reg.addr s + 8 * n)) &&
          arch.isDirPage (pteData k.mem (reg.addr s + 8 * n))) = true ∧
        ∃ k₂ B₂, step k₁ (arch.toVir (arch.toPa (pteData k.mem (reg.addr s + 8 * n)))) =
          .ok k₂ ∧ GivenBack reg arch W k₁ B₁ (fun t o => Base t o ∧ ¬∃ i < n,
            under i t) (under n) (fun _ => False) k₂ B₂) :
    ∃ k' B', (List.range 512).foldlM (fun k i =>
        let data := pteData k.mem (getPte arch (reg.addr s) i)
        if arch.isValid data && arch.isDirPage data then do
          let k ← step k (arch.toVir (arch.toPa data))
          .ok (pteClearData k (reg.addr s + 8 * i))
        else .ok k) k = .ok k' ∧
      GivenBack reg arch W k B Base (fun t => ∃ i < 512, under i t) (EntryBytes (reg.addr s) 512)
        k' B' := by
  have hlt : s < reg.pages := by
    have := H.alloc.block_bound (H.owners.base hs)
    simp only [Nat.pow_zero] at this
    omega
  have hloop := foldlM_rule (f := fun k i =>
        let data := pteData k.mem (getPte arch (reg.addr s) i)
        if arch.isValid data && arch.isDirPage data then do
          let k ← step k (arch.toVir (arch.toPa data))
          .ok (pteClearData k (reg.addr s + 8 * i))
        else .ok k)
    (P := fun rest k₁ => ∃ n B₁, rest = List.range' n (512 - n) ∧ n ≤ 512 ∧
      GivenBack reg arch W k B Base (fun t => ∃ i < n, under i t) (EntryBytes (reg.addr s) n)
      k₁ B₁)
    ?_ (List.range 512) k ⟨0, B, ?_, by omega, .refl H fun t => ?_⟩
  · obtain ⟨k', hrun, n, B', hrest, hn, G⟩ := hloop
    have hn' : n = 512 := by
      by_contra hne
      rw [show 512 - n = 512 - n - 1 + 1 by omega, List.range'_succ] at hrest
      cases hrest
    subst hn'
    exact ⟨k', B', hrun, G⟩
  · rintro x rest k₁ ⟨n, B₁, hrest, hn, G⟩
    have hn' : n < 512 := by
      by_contra hge
      rw [show 512 - n = 0 by omega] at hrest
      cases hrest
    rw [show 512 - n = 512 - (n + 1) + 1 by omega, List.range'_succ] at hrest
    obtain ⟨rfl, rfl⟩ := List.cons.inj hrest
    -- the entry is as it was at the start
    have hB₁ : B₁ s = some ⟨0, true⟩ :=
      G.world.owners.base ⟨hs, fun ⟨i, _, h⟩ => hunder i h⟩
    have hdata : pteData k₁.mem (reg.addr s + 8 * x) = pteData k.mem (reg.addr s + 8 * x) :=
      Tables.pteData_congr fun y hl hu => G.keep y
        ⟨⟨s, 0, hB₁, by omega, by rw [Nat.pow_zero]; omega⟩, fun hin => by
          have := hin.2
          omega⟩
    have hsplit : ∀ t, (∃ i < x + 1, under i t) ↔ (∃ i < x, under i t) ∨ under x t := by
      intro t
      constructor
      · rintro ⟨i, hi, h⟩
        by_cases hix : i = x
        · exact .inr (hix ▸ h)
        · exact .inl ⟨i, by omega, h⟩
      · rintro (⟨i, hi, h⟩ | h)
        · exact ⟨i, by omega, h⟩
        · exact ⟨x, by omega, h⟩
    simp only [Region.getPte_addr hw hlt hn', hdata]
    rcases hturn x k₁ B₁ hn' G with ⟨hval, hnone⟩ | ⟨hval, k₂, B₂, hstep, G₂⟩
    · simp only [hval, Bool.false_eq_true, if_false]
      refine ⟨k₁, rfl, x + 1, B₁, rfl, by omega, G.congr (fun t => ?_) fun y hy => ?_⟩
      · rw [hsplit]
        exact ⟨.inl, fun h => h.resolve_right (hnone t)⟩
      · exact ⟨hy.1, by have := hy.2; omega⟩
    · simp only [hval, if_true]
      rw [hstep, ok_bind]
      have G₃ : GivenBack reg arch W k B Base (fun t => ∃ i < x + 1, under i t)
          (EntryBytes (reg.addr s) (x + 1)) k₂ B₂ :=
        (G.trans (G₂.congr (fun _ => Iff.rfl) fun _ h => h.elim)).congr
          (fun t => (hsplit t).symm) fun y hy => ⟨hy.1, by have := hy.2; omega⟩
      have hs₃ : Base s 0 ∧ ¬∃ i < x + 1, under i s :=
        ⟨hs, fun ⟨i, _, h⟩ => hunder i h⟩
      have hout : ∀ y, y < reg.addr s + 8 * x ∨ reg.addr s + 8 * x + 8 ≤ y →
          (pteClearData k₂ (reg.addr s + 8 * x)).mem y = k₂.mem y := fun y hy =>
        Mem.write_outside hy
      refine ⟨_, rfl, x + 1, B₂,
        rfl, by omega, G₃.world.write_base hs₃ fun y hy => hout y ?_,
        G₃.used, fun y hy => ?_⟩
      · rw [Nat.pow_zero] at hy
        omega
      · rw [hout y, G₃.keep y hy]
        by_contra hc
        exact hy.2 ⟨by omega, by omega⟩
  · rw [List.range_eq_range']
  · rintro ⟨i, hi, -⟩
    omega

/-- `freewalk` of one table: it and the tables below it are given back. -/
theorem World.freewalkFrom_spec (hw : reg.InWindow arch) {child : Nat → Nat → Option Nat}
    {root : Nat} (Rad : RadixTable 512 arch.top child root T) (l : Nat) (hl : l ≤ arch.top)
    (H : World reg arch k B Base W) (L : LooseTables reg arch k.mem Base T l q)
    (ha : T l q = some a) :
    ∃ k' B', freewalkFrom arch buddyPages (l + 1) k a = .ok k' ∧
      GivenBack reg arch W k B Base (TableBelow reg T l q) (fun _ => False) k' B' := by
  induction l generalizing q a k B Base with
  | zero =>
    obtain ⟨s, rfl, hs⟩ := L.block (.refl 512 0 q) ha
    obtain ⟨k₁, B₁, hrun, G⟩ := H.freewalk_entries hw hs (fun _ _ => False)
      (freewalkFrom arch buddyPages 0) (fun _ => id) fun n k₁ B₁ hn _ => by
        refine .inl ⟨?_, fun _ => id⟩
        by_cases hval : arch.isValid (pteData k.mem (reg.addr s + 8 * n)) = true
        · rw [L.leaf (.refl 512 0 q) ha hn hval, Bool.and_false]
        · rw [Bool.eq_false_iff.mpr hval, Bool.false_and]
    obtain ⟨r, k₂, B₂, hfree, G₂⟩ := G.table hw hs (by simp)
    refine ⟨k₂, B₂, ?_, G₂.congr (fun t => ?_) fun _ => id⟩
    · rw [freewalkFrom, hrun, ok_bind, hfree, ok_bind]
    · rw [tableBelow_zero ha]
      constructor
      · rintro (⟨-, -, h⟩ | rfl)
        · exact h.elim
        · rfl
      · exact fun h => .inr (Region.addr_inj h)
  | succ l ih =>
    obtain ⟨s, rfl, hs⟩ := L.block (.refl 512 _ q) ha
    have hself : ∀ n, ¬TableBelow reg T l (512 * q + n) s := by
      rintro n ⟨l', q', hb, ht⟩
      have := (Rad.inj ht ha).1
      have := hb.1
      omega
    obtain ⟨k₁, B₁, hrun, G⟩ := H.freewalk_entries hw hs
      (fun n t => TableBelow reg T l (512 * q + n) t)
      (freewalkFrom arch buddyPages (l + 1)) hself fun n k₁ B₁ hn G => by
        have hchild := L.child (.refl 512 _ q) ha hn
        unfold dirEntry at hchild
        simp only at hchild
        by_cases hval : arch.isValid (pteData k.mem (reg.addr s + 8 * n)) = true
        · right
          rw [if_pos hval] at hchild
          refine ⟨by rw [hval, L.dir (.refl 512 _ q) ha hn hval, Bool.and_self], ?_⟩
          refine ih (by omega) G.world
              (L.entry hn (fun t ht hbelow => ?_) fun t ht hbelow x hx hx' =>
            ?_) hchild.symm
          · -- the tables below this entry are not below an entry before it
            refine ⟨ht, ?_⟩
            rintro ⟨i, hi, l₁, q₁, hb₁, ht₁⟩
            obtain ⟨l₂, q₂, hb₂, ht₂⟩ := hbelow
            obtain ⟨rfl, rfl⟩ := Rad.inj ht₁ ht₂
            have := hb₁.entry_eq hb₂
            omega
          · refine G.keep x ⟨⟨t, 0, (G.used t 0).mpr ⟨H.owners.base ht, ?_⟩,
              hx, by simpa using hx'⟩,
              fun hin => ?_⟩
            · rintro ⟨i, hi, l₁, q₁, hb₁, ht₁⟩
              obtain ⟨l₂, q₂, hb₂, ht₂⟩ := hbelow
              obtain ⟨rfl, rfl⟩ := Rad.inj ht₁ ht₂
              have := hb₁.entry_eq hb₂
              omega
            · have hts := H.alloc.inv.rep.part.eq_of_mem (H.owners.base ht) (H.owners.base hs)
                (Region.addr_page (k := 0) hx (by simpa using hx'))
                (Region.addr_page (k := 0)
                  hin.1 (by have := hin.2; simp only [Nat.pow_zero]; omega))
              rw [hts] at hbelow
              exact hself n hbelow
        · left
          rw [if_neg hval] at hchild
          refine ⟨by rw [Bool.eq_false_iff.mpr hval, Bool.false_and], ?_⟩
          rintro t ⟨l', q', hb, ht⟩
          obtain ⟨b, hb'⟩ := Rad.above hb (by omega) ht
          rw [← hchild] at hb'
          cases hb'
    obtain ⟨r, k₂, B₂, hfree, G₂⟩ := G.table hw hs fun ⟨n, _, h⟩ => hself n h
    refine ⟨k₂, B₂, ?_, G₂.congr (fun t => ?_) fun _ => id⟩
    · rw [freewalkFrom, hrun, ok_bind, hfree, ok_bind]
    · rw [tableBelow_succ ha, or_comm]
      refine or_congr ⟨fun h => by rw [h], Region.addr_inj⟩ Iff.rfl

/-! ### A space that is given up -/

/-- The pages of a space that nobody releases any more. -/
def AddrSpace.Lost (A : AddrSpace) (B : Blocks) (s o : Nat) : Prop :=
  B s = some ⟨o, true⟩ ∧ ∃ v, A.pages v = some s

/-- A space gives up the pages that it maps, but not its tables. -/
theorem World.disown [DecidableEq ι] (H : World reg arch k B Base W) (hi : W i = some A) :
    World reg arch k B (fun s o => Base s o ∨ A.Lost B s o)
      (Function.update W i (some { A with pages := fun _ => none })) := by
  have htab : Spaces.Tab (Function.update W i (some { A with pages := fun _ => none })) reg =
      W.Tab reg := by
    funext j t
    by_cases hj : j = i
    · subst hj
      simp [Spaces.Tab, hi]
    · simp [Spaces.Tab, Function.update_of_ne hj]
  refine ⟨H.alloc, fun {j A'} hj => ?_, fun {j A'} hj => ?_, fun {j A' a} hj ha => ?_,
    fun {j A' v p} hj hp => ?_, ?_⟩
  · rcases Spaces.update_eq hj with ⟨rfl, rfl⟩ | ⟨-, hj⟩
    · exact (H.tables hi :)
    · exact H.tables hj
  · rcases Spaces.update_eq hj with ⟨rfl, rfl⟩ | ⟨-, hj⟩
    · exact (H.represents hi :)
    · exact H.represents hj
  · rcases Spaces.update_eq hj with ⟨rfl, rfl⟩ | ⟨-, hj⟩
    · exact H.tableAddr hi ha
    · exact H.tableAddr hj ha
  · rcases Spaces.update_eq hj with ⟨rfl, rfl⟩ | ⟨-, hj⟩
    · cases hp
    · exact H.mapped hj hp
  · rw [htab]
    refine H.owners.disown (i := i) (fun s o => ?_) fun j v p => ?_
    · simp [AddrSpace.Lost, Spaces.Page, hi]
    · by_cases hj : j = i
      · subst hj
        simp [Spaces.Page]
      · simp [Spaces.Page, hj]

/-- A space without pages gives up its tables. -/
theorem World.untable [DecidableEq ι] (H : World reg arch k B Base W) (hi : W i = some A)
    (hpages : ∀ v, A.pages v = none) :
    World reg arch k B (fun s o => Base s o ∨ (o = 0 ∧ IsTable A.tables (reg.addr s)))
      (Function.update W i none) := by
  have hpage : Spaces.Page (Function.update W i none) = W.Page := by
    funext j v p
    by_cases hj : j = i
    · subst hj
      simp [Spaces.Page, hi, hpages]
    · simp [Spaces.Page, Function.update_of_ne hj]
  have hne : ∀ {j A'}, Function.update W i none j = some A' → W j = some A' := by
    intro j A' hj
    by_cases hji : j = i
    · subst hji
      rw [Function.update_self] at hj
      cases hj
    · rwa [Function.update_of_ne hji] at hj
  refine ⟨H.alloc, fun hj => H.tables (hne hj), fun hj => H.represents (hne hj),
    fun hj => H.tableAddr (hne hj), fun hj => H.mapped (hne hj), ?_⟩
  rw [hpage]
  refine H.owners.untable (i := i) (fun s o => ?_) fun j t => ?_
  · simp [Spaces.Tab, hi]
  · by_cases hj : j = i
    · subst hj
      simp [Spaces.Tab]
    · simp [Spaces.Tab, hj]

/-- The tables of a space as tables held outside. -/
theorem World.looseTables (H : World reg arch k B Base W) (hi : W i = some A) (hb : A.base = 0)
    (hBase : ∀ s, IsTable A.tables (reg.addr s) → Base' s 0) :
    LooseTables reg arch k.mem Base' A.tables arch.top 0 := by
  have HT := H.tables hi
  constructor
  · intro l q a _ ha
    obtain ⟨s, rfl⟩ := H.tableAddr hi ⟨l, q, ha⟩
    exact ⟨s, rfl, hBase s ⟨l, q, ha⟩⟩
  · exact fun _ ha hj => HT.radix.dir ha hj
  · exact fun _ ha hj => HT.dir ha hj
  · intro q a j hbelow ha hj hval
    -- the leaf entry of the page number `512 * q + j`
    have hdiv : (512 * q + j) / 512 = q := by omega
    have hmod : (512 * q + j) % 512 = j := by omega
    have hlt : 512 * q + j < arch.vaPages := by
      have hq := hbelow.2
      rw [Nat.sub_zero] at hq
      have := Nat.lt_of_div_eq_zero (Nat.pow_pos (by decide)) hq
      have hpow : arch.vaPages = 512 ^ arch.top * 512 := Nat.pow_succ ..
      omega
    have hpte : leafPte A.tables (512 * q + j) = some (a + 8 * j) := by
      simp [leafPte, hdiv, hmod, ha]
    have hR := H.represents hi (512 * q + j)
    rw [Nat.mod_eq_of_lt hlt, leafData_of_pte hpte] at hR
    cases hM : A.map (512 * q + j) with
    | none =>
      rw [hM] at hR
      simp only at hR
      rw [hR ⟨by omega, by omega⟩, Arch.isValid_zero] at hval
      cases hval
    | some mp =>
      rw [hM] at hR
      rw [hR.2.1]
      exact hR.2.2.isDirPage

/-- `freewalk` of the tables of a space: the tables are given back, and the pages that it maps still
are lost. -/
theorem World.freewalk [DecidableEq ι] (H : World reg arch k B Base W) (hw : reg.InWindow arch)
    (hi : W i = some A) (hb : A.base = 0) :
    ∃ k' B', freewalk arch buddyPages k ⟨A.root, true⟩ = .ok k' ∧
      World reg arch k' B' (fun s o => Base s o ∨ A.Lost B s o) (Function.update W i none) ∧
      (∀ t o, B' t = some ⟨o, true⟩ ↔ B t = some ⟨o, true⟩ ∧
        ¬IsTable A.tables (reg.addr t)) ∧
      AgreeOn (reg.Used B') k.mem k'.mem := by
  have H₁ := H.disown hi
  have hi₁ : Function.update W i (some { A with pages := fun _ => none }) i =
      some { A with pages := fun _ => none } := Function.update_self ..
  have H₂ := H₁.untable hi₁ fun _ => rfl
  rw [Function.update_idem] at H₂
  have hL : LooseTables reg arch k.mem (fun s o => (Base s o ∨ A.Lost B s o) ∨
      (o = 0 ∧ IsTable A.tables (reg.addr s))) A.tables arch.top 0 :=
    H.looseTables hi hb fun s h => .inr ⟨rfl, h⟩
  have Rad := (H.tables hi).radix
  obtain ⟨k', B', hrun, G⟩ := H₂.freewalkFrom_spec hw Rad arch.top (Nat.le_refl _) hL Rad.root
  have hR : ∀ t, TableBelow reg A.tables arch.top 0 t ↔ IsTable A.tables (reg.addr t) := by
    intro t
    constructor
    · rintro ⟨l, q, -, ht⟩
      exact ⟨l, q, ht⟩
    · rintro ⟨l, q, ht⟩
      exact ⟨l, q, Rad.below_root ht, ht⟩
  refine ⟨k', B', hrun, ?_, fun t o => by rw [G.used, hR], fun x hx => G.keep x ⟨hx, id⟩⟩
  have hW := G.world
  have : (fun s o => ((Base s o ∨ A.Lost B s o) ∨ (o = 0 ∧ IsTable A.tables (reg.addr s))) ∧
      ¬TableBelow reg A.tables arch.top 0 s) = fun s o => Base s o ∨ A.Lost B s o := by
    funext s o
    rw [hR, eq_iff_iff]
    constructor
    · rintro ⟨h | ⟨-, h⟩, hn⟩
      · exact h
      · exact absurd h hn
    · intro h
      refine ⟨.inl h, fun ht => ?_⟩
      rcases h with h | ⟨-, v, hp⟩
      · exact H.owners.baseTable h ⟨A, hi, ht⟩
      · exact H.owners.pageTable ⟨A, hi, hp⟩ ⟨A, hi, ht⟩
  rwa [this] at hW

end

end OsKernel.Mm

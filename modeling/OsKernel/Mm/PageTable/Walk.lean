import OsKernel.Mm.PageTable.Tables

/-! The walk over the tables: without allocation it ends at the leaf entry or panics where a table
is missing; with allocation it adds the missing tables, and no leaf entry and no byte in use outside
the tables changes. -/

namespace OsKernel.Mm

open Lib Hsai

variable {σ G : Type} {V : VirtualPageAllocator σ} {arch : Arch}

theorem PageSource.Grabs.fresh {S : PageSource V arch G} {g g' : G} {ps : List Nat}
    (h : S.Grabs g ps g') {p x : Nat} (hp : p ∈ ps) (hl : p ≤ x) (hu : x < p + 4096) :
    ¬S.held g x := by
  induction h with
  | nil => cases hp
  | cons hg _ ih =>
    rcases List.mem_cons.mp hp with rfl | hp
    · exact S.fresh hg x hl hu
    · exact fun hx => ih hp ((S.held_grab hg x).mpr (.inl hx))

/-- The tables of one address space, all of them pages handed out by the allocator. -/
structure Space (S : PageSource V arch G) (k : Kernel σ) (g : G) (root : Nat)
    (T : Nat → Nat → Option Nat) : Prop where
  inv : S.inv k.pages k.mem g
  tables : Tables arch k.mem root T
  held : ∀ x, TableByte T x → S.held g x

/-- More tables, on new pages; no byte in use outside the tables has changed. -/
structure Grown (S : PageSource V arch G) (k : Kernel σ) (g : G) (T : Nat → Nat → Option Nat)
    (k' : Kernel σ) (g' : G) (T' : Nat → Nat → Option Nat) : Prop where
  grabs : ∃ ps, S.Grabs g ps g' ∧ ∀ a, IsTable T' a ↔ IsTable T a ∨ a ∈ ps
  sub : ∀ {l q a}, T l q = some a → T' l q = some a
  keep : AgreeOn (fun x => S.held g x ∧ ¬TableByte T x) k.mem k'.mem

/-- The same leaf entries. -/
def SameLeaves (m : Mem) (T : Nat → Nat → Option Nat) (m' : Mem)
    (T' : Nat → Nat → Option Nat) : Prop :=
  ∀ v, leafData m' T' v = leafData m T v

namespace Grown

variable {S : PageSource V arch G} {k k' k'' : Kernel σ} {g g' g'' : G}
  {T T' T'' : Nat → Nat → Option Nat}

theorem refl (k : Kernel σ) (g : G) (T : Nat → Nat → Option Nat) : Grown S k g T k g T :=
  ⟨⟨[], .nil, by simp⟩, id, fun _ _ => rfl⟩

/-- A byte in use outside the tables stays so. -/
theorem other (h : Grown S k g T k' g' T') {x : Nat} (hx : S.held g x ∧ ¬TableByte T x) :
    S.held g' x ∧ ¬TableByte T' x := by
  obtain ⟨ps, hps, htab⟩ := h.grabs
  refine ⟨(hps.held x).mpr (.inl hx.1), ?_⟩
  rintro ⟨a, ha, hl, hu⟩
  rcases (htab a).mp ha with ha | ha
  · exact hx.2 ⟨a, ha, hl, hu⟩
  · exact hps.fresh ha hl hu hx.1

theorem trans (h : Grown S k g T k' g' T') (h' : Grown S k' g' T' k'' g'' T'') :
    Grown S k g T k'' g'' T'' := by
  obtain ⟨ps, hps, htab⟩ := h.grabs
  obtain ⟨qs, hqs, htab'⟩ := h'.grabs
  refine ⟨⟨ps ++ qs, hps.append hqs, fun a => ?_⟩, fun ha => h'.sub (h.sub ha),
    fun x hx => ?_⟩
  · rw [htab', htab, List.mem_append, or_assoc]
  · rw [h'.keep x (h.other hx), h.keep x hx]

theorem leafPte (h : Grown S k g T k' g' T') {v pte : Nat} (hv : Mm.leafPte T v = some pte) :
    Mm.leafPte T' v = some pte := by
  obtain ⟨a, ha, rfl⟩ := Option.map_eq_some_iff.mp hv
  simp [Mm.leafPte, h.sub ha]

end Grown

/-! ### One level -/

section Level

variable {S : PageSource V arch G} {k : Kernel σ} {g : G} {root : Nat}
  {T : Nat → Nat → Option Nat} {l q a i : Nat}

theorem walkToNextLevel_some (H : Tables arch k.mem root T) {c : Nat} (alloc : Bool)
    (ha : T (l + 1) q = some a) (hi : i < 512) (hc : T l (512 * q + i) = some c) :
    walkToNextLevel arch V k (getPte arch a i) alloc = .ok (some c, k) := by
  have hdir := H.radix.dir ha hi
  rw [hc] at hdir
  rw [H.getPte_eq ha hi]
  unfold dirEntry at hdir
  unfold walkToNextLevel
  simp only at hdir
  split at hdir
  · rename_i hv
    rw [if_pos hv]
    rw [Option.some.inj hdir]
  · cases hdir

theorem walkToNextLevel_invalid (H : Tables arch k.mem root T) (ha : T (l + 1) q = some a)
    (hi : i < 512) (hc : T l (512 * q + i) = none) :
    arch.isValid (pteData k.mem (a + 8 * i)) = false := by
  have hdir := H.radix.dir ha hi
  rw [hc] at hdir
  unfold dirEntry at hdir
  simp only at hdir
  split at hdir
  · cases hdir
  · rename_i hv
    simpa using hv

theorem walkToNextLevel_none (H : Tables arch k.mem root T) (ha : T (l + 1) q = some a)
    (hi : i < 512) (hc : T l (512 * q + i) = none) :
    walkToNextLevel arch V k (getPte arch a i) false = .ok (none, k) := by
  unfold walkToNextLevel
  rw [H.getPte_eq ha hi, walkToNextLevel_invalid H ha hi hc]
  rfl

/-- The directory entry for a page refers to it. -/
theorem dirEntry_page {p : Nat} (hal : p % 4096 = 0) (hlt : p < 2 ^ 64) (hw : arch.Windowed p) :
    let d := arch.setData (pageRoundDown (arch.toPhy p) ||| arch.mapDirPageFlags)
    d < 2 ^ 64 ∧ arch.isValid d = true ∧ arch.toVir (arch.toPa d) = p ∧
      arch.isDirPage d = true := by
  have hmod : arch.toPhy p % 4096 = 0 := by rw [hw.toPhy_mod, hal]
  have hdown : pageRoundDown (arch.toPhy p) = arch.toPhy p := by
    rw [pageRoundDown_eq]
    omega
  have hphys : arch.toPhy p < arch.physLimit := Arch.toPhy_lt hlt
  intro d
  have hf : arch.IsFlags arch.mapDirPageFlags := Arch.isFlags_dir
  have hflags : arch.getFlags d = arch.mapDirPageFlags :=
    Arch.getFlags_setData (by rw [hdown]; exact hmod) (by rw [hdown]; exact hphys) hf
  refine ⟨?_, ?_, ?_, ?_⟩
  · exact Arch.setData_lt (by rw [hdown]; exact hmod) (by rw [hdown]; exact hphys) hf
  · rw [← Arch.isValid_getFlags, hflags]
    exact Arch.isValid_dir
  · rw [Arch.toPa_setData (by rw [hdown]; exact hmod) (by rw [hdown]; exact hphys) hf, hdown]
    exact hw
  · rw [← Arch.isDirPage_getFlags, hflags]
    exact Arch.isDirPage_dir

/-- The new table of `_walk_to_next_level`: the page is cleared and the entry set. -/
theorem Space.addTable (Sp : Space S k g root T) {k' : Kernel σ} {g' : G} {p : Nat}
    (ha : T (l + 1) q = some a) (hi : i < 512) (hc : T l (512 * q + i) = none)
    (hgrab : S.grab g p g') (hinv : S.inv k'.pages k'.mem g')
    (hkeep : AgreeOn (S.held g) k.mem k'.mem) :
    let k'' := pteSetData arch (clearPage k' p) (a + 8 * i)
      (pageRoundDown (arch.toPhy p) ||| arch.mapDirPageFlags)
    Space S k'' g' root (RadixTable.attach T l (512 * q + i) p) ∧
      Grown S k g T k'' g' (RadixTable.attach T l (512 * q + i) p) ∧
      SameLeaves k.mem T k''.mem (RadixTable.attach T l (512 * q + i) p) := by
  intro k''
  obtain ⟨hal, hnz, hle, hw⟩ := S.page hgrab
  have hfresh := S.fresh hgrab
  obtain ⟨hdlt, hdv, hdp, hdd⟩ := dirEntry_page hal (by omega) hw
  have H := Sp.tables
  obtain ⟨haa, -, -, -⟩ := H.page ha
  have hbyte : ∀ {l' q' a' x}, T l' q' = some a' → a' ≤ x → x < a' + 4096 → S.held g x :=
    fun ha' hl hu => Sp.held _ ⟨_, ⟨_, _, ha'⟩, hl, hu⟩
  -- the new page is apart from every table
  have hnew : ∀ l' q', T l' q' ≠ some p := fun l' q' ha' =>
    hfresh p (Nat.le_refl p) (by omega) (hbyte ha' (Nat.le_refl p) (by omega))
  have hread : ∀ {l' q' a' j}, T l' q' = some a' → j < 512 → (a' ≠ a ∨ j ≠ i) →
      pteData k''.mem (a' + 8 * j) = pteData k.mem (a' + 8 * j) := by
    intro l' q' a' j ha' hj hne
    have hap := H.entry_apart ha ha' hi hj hne
    refine Tables.pteData_congr fun y hl hu => ?_
    have hy : S.held g y := hbyte ha' (by omega) (by omega)
    have hyp : y < p ∨ p + 4096 ≤ y := by
      by_contra hc
      exact hfresh y (by omega) (by omega) hy
    rw [← hkeep y hy]
    exact (Mem.write_outside (by omega)).trans (Mem.fill_outside hyp)
  have hzero : ∀ j < 512, pteData k''.mem (p + 8 * j) = 0 := by
    intro j hj
    have hap : a + 8 * i + 8 ≤ p + 8 * j ∨ p + 8 * j + 8 ≤ a + 8 * i := by
      have : a ≠ p := fun he => hnew _ _ (he ▸ ha)
      omega
    exact (Mem.read_write_apart hap).trans
      (Mem.read_fill_zero (by omega) (by unfold pageSize; omega))
  have hset : pteData k''.mem (a + 8 * i) =
      arch.setData (pageRoundDown (arch.toPhy p) ||| arch.mapDirPageFlags) :=
    (Mem.read_write_same _ _ _ _).trans (Nat.mod_eq_of_lt (by simpa using hdlt))
  have hradix : RadixTable 512 arch.top (dirEntry arch k''.mem) root
      (RadixTable.attach T l (512 * q + i) p) := by
    refine H.radix.attach_table ha hi hc hnew ?_ (fun j hj => ?_) (fun ha' hj hne => ?_)
    · unfold dirEntry
      simp only [hset, hdv, if_true, hdp]
    · unfold dirEntry
      simp only [hzero j hj, Arch.isValid_zero, Bool.false_eq_true, if_false]
    · unfold dirEntry
      simp only [hread ha' hj hne]
  have htab : ∀ b, IsTable (RadixTable.attach T l (512 * q + i) p) b ↔ IsTable T b ∨
      b ∈ [p] := by
    intro b
    constructor
    · rintro ⟨l', q', hb⟩
      rcases RadixTable.attach_cases hb with ⟨-, -, rfl⟩ | hb
      · exact .inr (by simp)
      · exact .inl ⟨l', q', hb⟩
    · rintro (⟨l', q', hb⟩ | hb)
      · exact ⟨l', q', RadixTable.attach_of_some hc hb⟩
      · rw [List.mem_singleton.mp hb]
        exact ⟨_, _, RadixTable.attach_self⟩
  have hheld := S.held_grab hgrab
  have hdir : ∀ {l' q' a' j}, RadixTable.attach T l (512 * q + i) p (l' + 1) q' = some a' →
      j < 512 → arch.isValid (pteData k''.mem (a' + 8 * j)) = true →
      arch.isDirPage (pteData k''.mem (a' + 8 * j)) = true := by
    intro l' q' a' j ha' hj hval
    rcases RadixTable.attach_cases ha' with ⟨-, -, rfl⟩ | ha'
    · rw [hzero j hj, Arch.isValid_zero] at hval
      cases hval
    · by_cases hne : a' ≠ a ∨ j ≠ i
      · rw [hread ha' hj hne] at hval ⊢
        exact H.dir ha' hj hval
      · push Not at hne
        rw [hne.1, hne.2, hset]
        exact hdd
  refine ⟨⟨S.frame hinv fun x hx => ?_, ⟨hradix, hdir, fun hb => ?_⟩, fun x hx => ?_⟩,
    ⟨⟨[p], .cons hgrab .nil, htab⟩, RadixTable.attach_of_some hc, fun x hx => ?_⟩, fun v =>
    ?_⟩
  · have hx' := mt (hheld x).mpr hx
    push Not at hx'
    have hxa : x < a ∨ a + 4096 ≤ x := by
      by_contra hc
      exact hx'.1 (hbyte ha (by omega) (by omega))
    exact (Mem.write_outside (by omega)).trans (Mem.fill_outside (by unfold pageSize; omega))
  · rcases RadixTable.attach_cases hb with ⟨-, -, rfl⟩ | hb
    · exact ⟨hal, hnz, hle, hw⟩
    · exact H.page hb
  · obtain ⟨b, hb, hl, hu⟩ := hx
    rcases (htab b).mp hb with hb | hb
    · exact (hheld x).mpr (.inl (Sp.held x ⟨b, hb, hl, hu⟩))
    · rw [List.mem_singleton.mp hb] at hl hu
      exact (hheld x).mpr (.inr ⟨hl, hu⟩)
  · have hxa : x < a ∨ a + 4096 ≤ x := by
      by_contra hc
      exact hx.2 ⟨a, ⟨_, _, ha⟩, by omega, by omega⟩
    have hxp : x < p ∨ p + 4096 ≤ x := by
      by_contra hc
      exact hfresh x (by omega) (by omega) hx.1
    rw [← hkeep x hx.1]
    exact (Mem.write_outside (by omega)).trans (Mem.fill_outside hxp)
  · have hv : v % 512 < 512 := Nat.mod_lt _ (by decide)
    cases hT : T 0 (v / 512) with
    | some b =>
      have h1 : leafPte T v = some (b + 8 * (v % 512)) := by simp [leafPte, hT]
      have h2 : leafPte (RadixTable.attach T l (512 * q + i) p) v = some (b + 8 * (v % 512)) := by
        simp [leafPte, RadixTable.attach_of_some hc hT]
      rw [leafData_of_pte h1, leafData_of_pte h2]
      refine hread hT hv (.inl ?_)
      rintro rfl
      have := (H.radix.inj hT ha).1
      omega
    | none =>
      have h1 : leafPte T v = none := by simp [leafPte, hT]
      rw [leafData_of_none h1]
      cases hT' : RadixTable.attach T l (512 * q + i) p 0 (v / 512) with
      | none =>
        exact leafData_of_none (by simp [leafPte, hT'])
      | some b =>
        have h2 : leafPte (RadixTable.attach T l (512 * q + i) p) v =
            some (b + 8 * (v % 512)) := by simp [leafPte, hT']
        rw [leafData_of_pte h2]
        rcases RadixTable.attach_cases hT' with ⟨-, -, rfl⟩ | hb
        · exact hzero _ hv
        · rw [hT] at hb
          cases hb

/-- `_walk_to_next_level` with allocation: it fails only where no page is left. -/
theorem walkToNextLevel_alloc (Sp : Space S k g root T) (ha : T (l + 1) q = some a) (hi : i < 512) :
    (∃ k', walkToNextLevel arch V k (getPte arch a i) true = .ok (none, k') ∧ S.room g = 0) ∨
      ∃ c k' g' T', walkToNextLevel arch V k (getPte arch a i) true = .ok (some c, k') ∧
        Space S k' g' root T' ∧ Grown S k g T k' g' T' ∧ SameLeaves k.mem T k'.mem T' ∧
        T' l (512 * q + i) = some c ∧ S.room g ≤ S.room g' + 1 := by
  cases hc : T l (512 * q + i) with
  | some c =>
    exact .inr ⟨c, k, g, T, walkToNextLevel_some Sp.tables true ha hi hc, Sp, .refl k g T,
      fun _ => rfl, hc, Nat.le_succ _⟩
  | none =>
    unfold walkToNextLevel
    rw [Sp.tables.getPte_eq ha hi, walkToNextLevel_invalid Sp.tables ha hi hc, if_neg (by simp),
      if_neg (by simp)]
    rcases PageSource.allocPage Sp.inv with
      ⟨k', hrun, -, -, hroom⟩ | ⟨p, k', g', hrun, hgrab, hinv, hkeep⟩
    · rw [hrun, ok_bind]
      exact .inl ⟨_, rfl, hroom⟩
    · rw [hrun, ok_bind]
      obtain ⟨Sp', hgrown, hleaf⟩ := Sp.addTable ha hi hc hgrab hinv hkeep
      exact .inr ⟨p, _, g', _, rfl, Sp', hgrown, hleaf, RadixTable.attach_self,
        S.room_grab hgrab⟩

end Level

/-! ### The whole walk -/

/-- The prefix of `va` for the table at a level. -/
def tablePrefix (l va : Nat) : Nat := va / 2 ^ (12 + 9 * (l + 1))

theorem tablePrefix_succ (l va : Nat) :
    512 * tablePrefix (l + 1) va + pgNum (l + 1) va = tablePrefix l va := by
  unfold tablePrefix
  rw [pgNum_eq, show 2 ^ (12 + 9 * (l + 1 + 1)) = 2 ^ (12 + 9 * (l + 1)) * 512 by ring,
    ← Nat.div_div_eq_div_mul]
  omega

theorem tablePrefix_top {va : Nat} (h : va < 2 ^ arch.vaBits) : tablePrefix arch.top va = 0 :=
  Nat.div_eq_of_lt h

theorem pgNum_lt (l va : Nat) : pgNum l va < 512 := by
  rw [pgNum_eq]
  exact Nat.mod_lt _ (by decide)

theorem tablePrefix_zero (va : Nat) : va / 4096 / 512 = tablePrefix 0 va := by
  rw [tablePrefix, Nat.div_div_eq_div_mul]
  norm_num

/-- The last table of the walk has the leaf entry of the page. -/
theorem leafPte_of_prefix {T : Nat → Nat → Option Nat} {va a : Nat}
    (h : T 0 (tablePrefix 0 va) = some a) :
    leafPte T (va / 4096) = some (a + 8 * pgNum 0 va) := by
  have h2 : va / 4096 % 512 = pgNum 0 va := by
    rw [pgNum_eq]
    norm_num
  simp [leafPte, tablePrefix_zero, h2, h]

section Walk

variable {S : PageSource V arch G} {k : Kernel σ} {g : G} {root : Nat}
  {T : Nat → Nat → Option Nat} {va : Nat}

theorem walkFrom_find (H : Tables arch k.mem root T) (l : Nat) {a : Nat}
    (ha : T l (tablePrefix l va) = some a) :
    (∃ j, walkFrom arch V va false l k a = .error (.panic (walkFail j)) ∧
        leafPte T (va / 4096) = none) ∨
      ∃ pte, walkFrom arch V va false l k a = .ok (pte, k) ∧
        leafPte T (va / 4096) = some pte := by
  induction l generalizing a with
  | zero =>
    right
    refine ⟨_, ?_, leafPte_of_prefix ha⟩
    rw [walkFrom, H.getPte_eq ha (pgNum_lt 0 va)]
  | succ l ih =>
    rw [walkFrom]
    have hstep := tablePrefix_succ l va
    cases hc : T l (tablePrefix l va) with
    | some c =>
      rw [walkToNextLevel_some H false ha (pgNum_lt _ va) (by rw [hstep]; exact hc), ok_bind]
      exact ih hc
    | none =>
      rw [walkToNextLevel_none H ha (pgNum_lt _ va) (by rw [hstep]; exact hc), ok_bind]
      refine .inl ⟨_, rfl, ?_⟩
      -- nothing is below a missing table
      have hbelow : ∀ j, j ≤ l → T j (tablePrefix j va) = none := by
        intro j hj
        induction hj using Nat.decreasingInduction with
        | self => exact hc
        | of_succ j hj ihj =>
          rw [← tablePrefix_succ]
          have htop := (H.radix.range ha).1
          exact H.radix.none_below ihj (by omega) (pgNum_lt _ va)
      simp [leafPte, tablePrefix_zero, hbelow 0 (by omega)]

theorem walkFrom_alloc (Sp : Space S k g root T) (l : Nat) {a : Nat}
    (ha : T l (tablePrefix l va) = some a) :
    (∃ j, walkFrom arch V va true l k a = .error (.panic (walkFail j)) ∧ S.room g < l) ∨
      ∃ pte k' g' T', walkFrom arch V va true l k a = .ok (pte, k') ∧ Space S k' g' root T' ∧
        Grown S k g T k' g' T' ∧ SameLeaves k.mem T k'.mem T' ∧
        leafPte T' (va / 4096) = some pte ∧ S.room g ≤ S.room g' + l := by
  induction l generalizing k g T a with
  | zero =>
    refine .inr ⟨_, k, g, T, ?_, Sp, .refl k g T, fun _ => rfl, leafPte_of_prefix ha,
      Nat.le_refl _⟩
    rw [walkFrom, Sp.tables.getPte_eq ha (pgNum_lt 0 va)]
  | succ l ih =>
    rw [walkFrom]
    rcases walkToNextLevel_alloc Sp ha (pgNum_lt (l + 1) va) with
      ⟨k', hrun, hroom⟩ | ⟨c, k', g', T', hrun, Sp', hgrown, hleaf, hc, hroom⟩
    · rw [hrun, ok_bind]
      exact .inl ⟨_, rfl, by omega⟩
    · rw [hrun, ok_bind]
      rw [tablePrefix_succ] at hc
      rcases ih Sp' hc with
        ⟨j, hrest, hlt⟩ | ⟨pte, k'', g'', T'', hrest, Sp'', hgrown', hleaf', hpte, hle⟩
      · exact .inl ⟨j, hrest, by omega⟩
      · exact .inr ⟨pte, k'', g'', T'', hrest, Sp'', hgrown.trans hgrown',
          fun v => (hleaf' v).trans (hleaf v), hpte, by omega⟩

theorem pgNum_mod {l : Nat} (hl : l ≤ arch.top) (va : Nat) :
    pgNum l (va % 2 ^ arch.vaBits) = pgNum l va := by
  have hsplit : 2 ^ arch.vaBits = 2 ^ (12 + 9 * l) * (512 * 2 ^ (9 * (arch.top - l))) := by
    rw [show (512 : Nat) = 2 ^ 9 from rfl, ← pow_add, ← pow_add, Arch.vaBits]
    congr 1
    omega
  rw [pgNum_eq, pgNum_eq, hsplit, Nat.mod_mul_right_div_self,
    Nat.mod_mod_of_dvd _ (Nat.dvd_mul_right ..)]

/-- The walk tells apart only the bits of the page numbers of its levels. -/
theorem walkFrom_mod (V : VirtualPageAllocator σ) (va : Nat) (alloc : Bool) {l : Nat}
    (hl : l ≤ arch.top) (k : Kernel σ) (a : Nat) :
    walkFrom arch V (va % 2 ^ arch.vaBits) alloc l k a = walkFrom arch V va alloc l k a := by
  induction l generalizing k a with
  | zero => rw [walkFrom, walkFrom, pgNum_mod hl]
  | succ l ih =>
    simp only [walkFrom, pgNum_mod hl, ih (by omega)]

theorem walk_mod (V : VirtualPageAllocator σ) (k : Kernel σ) (pt : PageTable) (va : Nat)
    (alloc : Bool) : walk arch V k pt va alloc = walk arch V k pt (va % 2 ^ arch.vaBits) alloc := by
  unfold walk
  rw [walkFrom_mod V va alloc (Nat.le_refl _)]

theorem vpn_mod (arch : Arch) (va : Nat) :
    va % 2 ^ arch.vaBits / 4096 = va / 4096 % arch.vaPages := by
  rw [Arch.two_pow_vaBits, Nat.mod_mul_right_div_self]

/-- `walk` without allocation. -/
theorem walk_find (H : Tables arch k.mem root T) (va : Nat) :
    (∃ j, walk arch V k ⟨root, true⟩ va false = .error (.panic (walkFail j)) ∧
        leafPte T (va / 4096 % arch.vaPages) = none) ∨
      ∃ pte, walk arch V k ⟨root, true⟩ va false = .ok (pte, k) ∧
        leafPte T (va / 4096 % arch.vaPages) = some pte := by
  rw [walk_mod, ← vpn_mod]
  exact walkFrom_find H arch.top
    (by rw [tablePrefix_top (Nat.mod_lt _ (Nat.two_pow_pos _))]; exact H.radix.root)

/-- `walk` with allocation: it panics only where the allocator has too few pages left. -/
theorem walk_alloc (Sp : Space S k g root T) (va : Nat) :
    (∃ j, walk arch V k ⟨root, true⟩ va true = .error (.panic (walkFail j)) ∧
        S.room g < arch.top) ∨
      ∃ pte k' g' T', walk arch V k ⟨root, true⟩ va true = .ok (pte, k') ∧
        Space S k' g' root T' ∧ Grown S k g T k' g' T' ∧ SameLeaves k.mem T k'.mem T' ∧
        leafPte T' (va / 4096 % arch.vaPages) = some pte ∧ S.room g ≤ S.room g' + arch.top := by
  rw [walk_mod, ← vpn_mod]
  exact walkFrom_alloc Sp arch.top
    (by rw [tablePrefix_top (Nat.mod_lt _ (Nat.two_pow_pos _))]; exact Sp.tables.radix.root)

theorem walk_find_ok (H : Tables arch k.mem root T) {pte : Nat}
    (h : leafPte T (va / 4096 % arch.vaPages) = some pte) :
    walk arch V k ⟨root, true⟩ va false = .ok (pte, k) := by
  rcases walk_find (V := V) H va with ⟨j, -, hn⟩ | ⟨pte', hrun, he⟩
  · rw [hn] at h
    cases h
  · rw [he] at h
    cases h
    exact hrun

theorem walkFrom_state {va level base pte : Nat} {k k' : Kernel σ}
    (h : walkFrom arch V va false level k base = .ok (pte, k')) : k' = k := by
  induction level generalizing base with
  | zero =>
    cases h
    rfl
  | succ level ih =>
    rw [walkFrom, walkToNextLevel] at h
    split at h
    · rw [ok_bind] at h
      exact ih h
    · cases h

/-- `walk` without allocation changes nothing. -/
theorem walk_state {va pte : Nat} {pt : PageTable} {k k' : Kernel σ}
    (h : walk arch V k pt va false = .ok (pte, k')) : k' = k := by
  unfold walk at h
  split at h
  · cases h
    rfl
  · exact walkFrom_state h

end Walk

end OsKernel.Mm

import OsKernel.Lib.RadixTable
import OsKernel.Mm.PageSource
import OsKernel.Mm.PageTable.Model

/-! The page tables in memory as a radix tree.  `T` names the tables by level and prefix; the leaf
entry of the page number `v` is the entry `v % 512` of the table at level 0 for the prefix
`v / 512`. -/

namespace OsKernel.Mm

open Lib Hsai

/-- The table that the directory entry `i` of the table at `base` refers to. -/
def dirEntry (arch : Arch) (m : Mem) (base i : Nat) : Option Nat :=
  let data := pteData m (base + 8 * i)
  if arch.isValid data then some (arch.toVir (arch.toPa data)) else none

structure Tables (arch : Arch) (m : Mem) (root : Nat) (T : Nat → Nat → Option Nat) : Prop where
  radix : RadixTable 512 arch.top (dirEntry arch m) root T
  dir : ∀ {l q a i}, T (l + 1) q = some a → i < 512 →
    arch.isValid (pteData m (a + 8 * i)) = true → arch.isDirPage (pteData m (a + 8 * i)) = true
  page : ∀ {l q a}, T l q = some a → a % 4096 = 0 ∧ a ≠ 0 ∧ a + 4096 ≤ 2 ^ 64 ∧
    arch.Windowed a

/-- The table at `a` is one of the tables. -/
def IsTable (T : Nat → Nat → Option Nat) (a : Nat) : Prop := ∃ l q, T l q = some a

/-- The bytes of the tables. -/
def TableByte (T : Nat → Nat → Option Nat) (x : Nat) : Prop :=
  ∃ a, IsTable T a ∧ a ≤ x ∧ x < a + 4096

/-- The address of the leaf entry of a page number. -/
def leafPte (T : Nat → Nat → Option Nat) (v : Nat) : Option Nat :=
  (T 0 (v / 512)).map fun a => a + 8 * (v % 512)

/-- The data of the leaf entry of a page number, zero where there is no table for it. -/
def leafData (m : Mem) (T : Nat → Nat → Option Nat) (v : Nat) : Nat :=
  match leafPte T v with
  | none => 0
  | some pte => pteData m pte

theorem leafData_of_pte {m : Mem} {T : Nat → Nat → Option Nat} {v pte : Nat}
    (h : leafPte T v = some pte) : leafData m T v = pteData m pte := by
  unfold leafData
  rw [h]

theorem leafData_of_none {m : Mem} {T : Nat → Nat → Option Nat} {v : Nat}
    (h : leafPte T v = none) : leafData m T v = 0 := by
  unfold leafData
  rw [h]

namespace Tables

variable {arch : Arch} {m m' : Mem} {root : Nat} {T : Nat → Nat → Option Nat} {l q a i : Nat}

theorem getPte_eq (H : Tables arch m root T) (ha : T l q = some a) (hi : i < 512) :
    getPte arch a i = a + 8 * i := by
  obtain ⟨hal, -, -, hw⟩ := H.page ha
  exact (hw.add hal (by omega)).pteAddr

/-- Entries of different tables, or different entries of one, are apart. -/
theorem entry_apart (H : Tables arch m root T) {l' q' a' i' : Nat} (ha : T l q = some a)
    (ha' : T l' q' = some a') (hi : i < 512) (hi' : i' < 512) (hne : a' ≠ a ∨ i' ≠ i) :
    a + 8 * i + 8 ≤ a' + 8 * i' ∨ a' + 8 * i' + 8 ≤ a + 8 * i := by
  have h1 := (H.page ha).1
  have h2 := (H.page ha').1
  omega

/-- A table has the same entries in a memory with the same bytes there. -/
theorem pteData_congr {x : Nat} (h : ∀ y, x ≤ y → y < x + 8 → m' y = m y) :
    pteData m' x = pteData m x :=
  Mem.read_congr fun y hl hu => h y hl hu

theorem congr (H : Tables arch m root T) (h : AgreeOn (TableByte T) m m') :
    Tables arch m' root T := by
  have hdata : ∀ {l q a i}, T l q = some a → i < 512 →
      pteData m' (a + 8 * i) = pteData m (a + 8 * i) := fun {_ _ a _} ha hi =>
    pteData_congr fun y hl hu => h y ⟨a, ⟨_, _, ha⟩, by omega, by omega⟩
  refine ⟨H.radix.congr fun {l q a i} ha hi => ?_, fun {l q a i} ha hi => ?_, H.page⟩
  · unfold dirEntry
    rw [hdata ha hi]
  · rw [hdata ha hi]
    exact H.dir ha hi

theorem leaf_congr (h : AgreeOn (TableByte T) m m') (v : Nat) :
    leafData m' T v = leafData m T v := by
  cases hv : T 0 (v / 512) with
  | none => simp [leafData, leafPte, hv]
  | some a =>
    have hp : leafPte T v = some (a + 8 * (v % 512)) := by simp [leafPte, hv]
    rw [leafData_of_pte hp, leafData_of_pte hp]
    exact pteData_congr fun y hl hu => h y ⟨a, ⟨_, _, hv⟩, by omega, by omega⟩

/-- Two page numbers have one leaf entry only if they are equal. -/
theorem leafPte_inj (H : Tables arch m root T) {v v' pte : Nat} (h : leafPte T v = some pte)
    (h' : leafPte T v' = some pte) : v = v' := by
  obtain ⟨a, ha, he⟩ := Option.map_eq_some_iff.mp h
  obtain ⟨a', ha', he'⟩ := Option.map_eq_some_iff.mp h'
  have hn := mt (fun hne => H.entry_apart ha ha' (Nat.mod_lt v (by decide : 0 < 512))
    (Nat.mod_lt v' (by decide : 0 < 512)) hne) (by omega)
  push Not at hn
  have hq := (H.radix.inj ha (hn.1 ▸ ha')).2
  omega

/-- A store to the leaf entry of a page number changes that entry alone. -/
theorem write_leaf (H : Tables arch m root T) {v pte d : Nat} (h : leafPte T v = some pte)
    (hd : d < 2 ^ 64) :
    Tables arch (m.write pte 8 d) root T ∧
      ∀ w, leafData (m.write pte 8 d) T w = if w = v then d else leafData m T w := by
  obtain ⟨a, ha, rfl⟩ := Option.map_eq_some_iff.mp h
  have hv : v % 512 < 512 := Nat.mod_lt _ (by decide)
  have hdir : ∀ {l q a' i}, T (l + 1) q = some a' → i < 512 →
      pteData (m.write (a + 8 * (v % 512)) 8 d) (a' + 8 * i) = pteData m (a' + 8 * i) := by
    intro l q a' i ha' hi
    have hne : a' ≠ a := by
      rintro rfl
      have := (H.radix.inj ha ha').1
      omega
    exact Mem.read_write_apart (H.entry_apart ha ha' hv hi (.inl hne))
  refine ⟨⟨H.radix.congr fun {l q a' i} ha' hi => ?_, fun {l q a' i} ha' hi => ?_, H.page⟩,
    fun w => ?_⟩
  · unfold dirEntry
    rw [hdir ha' hi]
  · rw [hdir ha' hi]
    exact H.dir ha' hi
  · split
    · rename_i he
      subst he
      rw [leafData_of_pte h, pteData, Mem.read_write_same, Nat.mod_eq_of_lt (by simpa using hd)]
    · rename_i he
      cases hw : leafPte T w with
      | none => rw [leafData_of_none hw, leafData_of_none hw]
      | some pte' =>
        rw [leafData_of_pte hw, leafData_of_pte hw]
        obtain ⟨a', ha', rfl⟩ := Option.map_eq_some_iff.mp hw
        have hne : a' ≠ a ∨ w % 512 ≠ v % 512 := by
          by_contra hc
          push Not at hc
          exact he (H.leafPte_inj hw (by rw [hc.1, hc.2]; exact h))
        exact Mem.read_write_apart (H.entry_apart ha ha' hv (Nat.mod_lt _ (by decide)) hne)

/-- The bytes of a leaf entry are bytes of a table. -/
theorem leaf_byte {v pte x : Nat} (h : leafPte T v = some pte) (hl : pte ≤ x) (hu : x < pte + 8) :
    TableByte T x := by
  obtain ⟨a, ha, rfl⟩ := Option.map_eq_some_iff.mp h
  have : v % 512 < 512 := Nat.mod_lt _ (by decide)
  exact ⟨a, ⟨_, _, ha⟩, by omega, by omega⟩

theorem leafPte_pos (H : Tables arch m root T) {v pte : Nat} (h : leafPte T v = some pte) :
    pte ≠ 0 := by
  obtain ⟨a, ha, rfl⟩ := Option.map_eq_some_iff.mp h
  have := (H.page ha).2.1
  omega

end Tables

end OsKernel.Mm

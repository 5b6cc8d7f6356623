import OsKernel.Lib.BlockOwners
import OsKernel.Mm.Vmm.Release

/-! All address spaces on one buddy allocator.  Each block in use is a table of one address space,
or holds pages that one address space maps, or is held outside all of them. -/

namespace OsKernel.Mm

open Lib Hsai Lib.BuddySystem BuddyAllocator

/-- One address space: its tables, the first of the page numbers it is used with, what they map, and
the page of the region that it holds for each page number. -/
structure AddrSpace where
  root : Nat
  base : Nat
  tables : Nat → Nat → Option Nat
  map : PageMap
  pages : Nat → Option Nat

/-- The address spaces, by the index of their process. -/
abbrev Spaces (ι : Type) := ι → Option AddrSpace

namespace Spaces

variable {ι : Type} (W : Spaces ι)

/-- The page `s` is a table of the space `i`. -/
def Tab (reg : Region) (i : ι) (s : Nat) : Prop :=
  ∃ A, W i = some A ∧ IsTable A.tables (reg.addr s)

/-- The space `i` holds the page `p` for the page number `v`. -/
def Page (i : ι) (v p : Nat) : Prop := ∃ A, W i = some A ∧ A.pages v = some p

end Spaces

structure World (reg : Region) (arch : Arch) (k : Kernel BuddyAllocator) (B : Blocks)
    (Base : Nat → Nat → Prop) {ι : Type} (W : Spaces ι) : Prop where
  alloc : reg.Alloc k.pages k.mem B
  tables : ∀ {i A}, W i = some A → Tables arch k.mem A.root A.tables
  represents : ∀ {i A}, W i = some A → Represents arch k.mem A.tables A.base A.map
  tableAddr : ∀ {i A a}, W i = some A → IsTable A.tables a → ∃ s, a = reg.addr s
  mapped : ∀ {i A v p}, W i = some A → A.pages v = some p →
    ∃ f, A.map v = some ⟨arch.toPhy (reg.addr p), f⟩
  owners : Owners B Base (W.Tab reg) W.Page

section

variable {reg : Region} {arch : Arch} {hw : reg.InWindow arch} {k k' : Kernel BuddyAllocator}
  {B B' : Blocks} {Base Base' : Nat → Nat → Prop} {ι : Type} {W : Spaces ι} {i j : ι}
  {A A' : AddrSpace}

theorem Region.addr_inj {s t : Nat} (h : reg.addr s = reg.addr t) : s = t := by
  simp only [Region.addr] at h
  omega

/-- The byte `x` of the page of a block is in use. -/
theorem Region.used_page {s o d x : Nat} (hs : B s = some ⟨o, true⟩) (hd : d < 2 ^ o)
    (hl : reg.addr (s + d) ≤ x) (hu : x < reg.addr (s + d) + 4096) : reg.Used B x := by
  refine ⟨s, o, hs, ?_, ?_⟩ <;> simp only [Region.addr] at * <;> omega

theorem Spaces.update_eq [DecidableEq ι] {W : Spaces ι} {i j : ι} {A' A'' : AddrSpace}
    (h : Function.update W i (some A') j = some A'') :
    (j = i ∧ A'' = A') ∨ (j ≠ i ∧ W j = some A'') := by
  by_cases hj : j = i
  · subst hj
    rw [Function.update_self] at h
    exact .inl ⟨rfl, (Option.some.inj h).symm⟩
  · rw [Function.update_of_ne hj] at h
    exact .inr ⟨hj, h⟩

namespace World

theorem tableBlock (H : World reg arch k B Base W) (hi : W i = some A) {a : Nat}
    (ha : IsTable A.tables a) : ∃ s, a = reg.addr s ∧ B s = some ⟨0, true⟩ := by
  obtain ⟨s, rfl⟩ := H.tableAddr hi ha
  exact ⟨s, rfl, H.owners.table ⟨A, hi, ha⟩⟩

theorem table_used (H : World reg arch k B Base W) (hi : W i = some A) {x : Nat}
    (hx : TableByte A.tables x) : reg.Used B x := by
  obtain ⟨a, ha, hl, hu⟩ := hx
  obtain ⟨s, rfl, hs⟩ := H.tableBlock hi ha
  exact ⟨s, 0, hs, hl, by simpa using hu⟩

theorem space (H : World reg arch k B Base W) (hi : W i = some A) :
    Space (buddySource reg arch hw) k B A.root A.tables :=
  ⟨H.alloc, H.tables hi, fun _ hx => H.table_used hi hx⟩

/-- A byte of a block in use other than the tables of a space. -/
theorem other_of_block (H : World reg arch k B Base W) (hi : W i = some A) {s o x : Nat}
    (hs : B s = some ⟨o, true⟩) (hl : reg.addr s ≤ x) (hu : x < reg.addr s + 4096 * 2 ^ o)
    (hnt : ¬IsTable A.tables (reg.addr s)) : reg.Other B A.tables x := by
  refine ⟨⟨s, o, hs, hl, hu⟩, ?_⟩
  rintro ⟨a, ha, hl', hu'⟩
  obtain ⟨t, rfl, ht⟩ := H.tableBlock hi ha
  have := H.alloc.inv.rep.part.eq_of_mem hs ht (Region.addr_page hl hu)
    (Region.addr_page (k := 0) hl' (by simpa using hu'))
  subst this
  exact hnt ha

/-- The tables of another space. -/
theorem other_table (H : World reg arch k B Base W) (hi : W i = some A) (hj : W j = some A')
    (hne : j ≠ i) {x : Nat} (hx : TableByte A'.tables x) : reg.Other B A.tables x := by
  obtain ⟨a, ha, hl, hu⟩ := hx
  obtain ⟨s, rfl, hs⟩ := H.tableBlock hj ha
  exact H.other_of_block hi hs hl (by simpa using hu) fun ht =>
    hne (H.owners.tableApart ⟨A', hj, ha⟩ ⟨A, hi, ht⟩)

/-- A page that a space holds is in a block in use, and no space has it as a table. -/
theorem page_block (H : World reg arch k B Base W) (hj : W j = some A') {v p : Nat}
    (hp : A'.pages v = some p) : ∃ s o d, B s = some ⟨o, true⟩ ∧ p = s + d ∧ d < 2 ^ o ∧
      ∀ i A, W i = some A → ¬IsTable A.tables (reg.addr s) := by
  obtain ⟨s, o, d, hs, hpd, hd, -, hstart⟩ := H.owners.backed ⟨A', hj, hp⟩
  exact ⟨s, o, d, hs, hpd, hd, fun i A hi ht => H.owners.pageTable hstart ⟨A, hi, ht⟩⟩

theorem page_lt (H : World reg arch k B Base W) (hj : W j = some A') {v p : Nat}
    (hp : A'.pages v = some p) : p < reg.pages := by
  obtain ⟨s, o, d, hs, rfl, hd, -⟩ := H.page_block hj hp
  have := H.alloc.block_bound hs
  simp only at this
  omega

/-- The bytes of a page that some space holds. -/
theorem other_page (H : World reg arch k B Base W) (hi : W i = some A) (hj : W j = some A')
    {v p x : Nat} (hp : A'.pages v = some p) (hl : reg.addr p ≤ x) (hu : x < reg.addr p + 4096) :
    reg.Other B A.tables x := by
  obtain ⟨s, o, d, hs, rfl, hd, hnt⟩ := H.page_block hj hp
  obtain ⟨-, -, hl', hu'⟩ : reg.Used B x ∧ True ∧ reg.addr s ≤ x ∧
      x < reg.addr s + 4096 * 2 ^ o := by
    refine ⟨Region.used_page hs hd hl hu, trivial, ?_, ?_⟩ <;> simp only [Region.addr] at * <;>
      omega
  exact H.other_of_block hi hs hl' hu' (hnt i A hi)

/-- Stores outside the tables, in blocks in use. -/
theorem frame (H : World reg arch k B Base W) {m : Mem}
    (hm : AgreeOn (fun x => ¬reg.Used B x ∨ ∃ i A, W i = some A ∧ TableByte A.tables x)
      k.mem m) :
    World reg arch { k with mem := m } B Base W := by
  have htab : ∀ {i A}, W i = some A → AgreeOn (TableByte A.tables) k.mem m :=
    fun hi x hx => hm x (.inr ⟨_, _, hi, hx⟩)
  exact ⟨H.alloc.frame fun x hx => hm x (.inl hx), fun hi => (H.tables hi).congr (htab hi),
    fun hi => (H.represents hi).congr (Tables.leaf_congr (htab hi)), H.tableAddr, H.mapped,
    H.owners⟩

/-- Stores in one block held outside. -/
theorem write_base (H : World reg arch k B Base W) {s o : Nat} (hs : Base s o) {m : Mem}
    (hm : AgreeOn (fun x => x < reg.addr s ∨ reg.addr s + 4096 * 2 ^ o ≤ x) k.mem m) :
    World reg arch { k with mem := m } B Base W := by
  have hB := H.owners.base hs
  refine H.frame fun x hx => hm x ?_
  by_contra hc
  rcases hx with hx | ⟨i, A, hi, hx⟩
  · exact hx ⟨s, o, hB, by omega, by omega⟩
  · have := H.other_of_block hi hB (x := x) (by omega) (by omega) fun ht =>
      H.owners.baseTable hs ⟨A, hi, ht⟩
    exact this.2 hx

/-- Other blocks, with the bytes of the tables unchanged. -/
theorem rebase (H : World reg arch k B Base W) (h : reg.Alloc k'.pages k'.mem B')
    (hO : Owners B' Base' (W.Tab reg) W.Page)
    (hkeep : ∀ {i A}, W i = some A → AgreeOn (TableByte A.tables) k.mem k'.mem) :
    World reg arch k' B' Base' W :=
  ⟨h, fun hi => (H.tables hi).congr (hkeep hi),
    fun hi => (H.represents hi).congr (Tables.leaf_congr (hkeep hi)), H.tableAddr, H.mapped, hO⟩

end World

end

end OsKernel.Mm

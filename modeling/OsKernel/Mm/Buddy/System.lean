import Mathlib.Logic.Relation
import OsKernel.Mm.Buddy.Init

/-! The allocator over whole runs: the constructor establishes the invariant, allocations, releases
and the clients' own stores keep it, and what it says of every reachable state. -/

namespace OsKernel.Mm

open Lib Hsai Lib.BuddySystem BuddyAllocator

/-! ### The invariant between operations -/

namespace BuddyAllocator

/-- The blocks that the info bytes describe. -/
def blocks (b : BuddyAllocator) (m : Mem) : Blocks := fun p =>
  if p < b.infosSize ∧ (b.getInfo m p).areaFlag = true then
    some ⟨(b.getInfo m p).order, (b.getInfo m p).inUse⟩
  else none

structure Inv (b : BuddyAllocator) (N : Nat) (m : Mem) (B : Blocks) : Prop where
  rep : Rep b N (binaryAreas N 64) m B ∅
  coalesced : NoFreeBuddies (binaryAreas N 64) B none
  maxOrder : ∀ {a o}, (binaryAreas N 64).mem a o → o ≤ b.buddyMaxOrder
  maxOrder_lt : b.buddyMaxOrder < 33
  desc : ∀ bd, bd ∈ b.areaDesc ↔
    ∃ a o, (binaryAreas N 64).mem a o ∧ bd = ⟨b.pageAddr a, 4096 * 2 ^ o⟩
  size : b.allocSize = 4096 * usedUnits N B
  memSize : b.memSize = 4096 * N
  table : N + b.infosSize / 4096 ≤ b.infosSize

end BuddyAllocator

variable {b : BuddyAllocator} {N : Nat} {A : Areas} {m m' : Mem} {B : Blocks}

theorem Rep.blocks_eq (R : Rep b N A m B ∅) : b.blocks m = B := by
  funext p
  unfold blocks
  by_cases hp : p < b.infosSize
  · cases hB : B p with
    | none =>
      have hinfo : b.getInfo m p = ⟨0, false, false⟩ := by
        unfold getInfo
        rw [R.info p hp (by simp), hB]
        decide
      rw [if_neg (by simp [hinfo])]
    | some blk =>
      have hinfo := R.getInfo_eq hB (by simp)
      rw [if_pos ⟨hp, by simp [hinfo]⟩, hinfo]
  · rw [if_neg (by omega)]
    cases hB : B p with
    | none => rfl
    | some blk => exact absurd (R.info_lt hB) hp

/-- A node that the allocator may write has the same fields in a memory with the same free bytes. -/
theorem FreeNode.getField_congr {x : Nat} {f : NodeField} (hx : FreeNode b B x)
    (h : AgreeOn (FreeByte b B) m m') : getField m' f x = getField m f x := by
  have hf := f.offset_lt
  refine Mem.read_congr fun y hl hu => h y ?_
  rcases hx with ⟨k, hk, rfl⟩ | ⟨s, k, hs, rfl⟩
  · left
    simp only [listHead] at hl hu
    omega
  · have := Nat.two_pow_pos k
    exact .inr (.inr ⟨s, k, hs, by omega, by omega⟩)

/-- Stores outside the allocator's bytes keep the invariant. -/
theorem Rep.frame (R : Rep b N A m B ∅) (h : AgreeOn (FreeByte b B) m m') :
    Rep b N A m' B ∅ := by
  refine R.relabel R.part (fun _ _ => Iff.rfl) (fun x f _ hx => ?_) (fun p hp hpl => ?_)
    (fun s k hs => ?_)
  · refine FreeNode.getField_congr ?_ h
    rcases hx with ⟨k, hk, rfl⟩ | ⟨s, k, hs, -, rfl⟩
    · exact Rep.freeNode_head hk
    · exact Rep.freeNode_page hs
  · rw [h _ (.inr (.inl ⟨by omega, by omega⟩))]
    exact R.info p hp hpl
  · have hx : FreeNode b B (b.pageAddr s) := Rep.freeNode_page hs
    rw [hx.getField_congr h, hx.getField_congr h]
    exact R.header hs

namespace BuddyAllocator.Inv

theorem frame (I : b.Inv N m B) (h : AgreeOn (FreeByte b B) m m') : b.Inv N m' B :=
  { I with rep := I.rep.frame h }

theorem belongArea_eq (I : b.Inv N m B) {a o p : Nat} (hA : (binaryAreas N 64).mem a o)
    (hl : a ≤ p) (hu : p < a + 2 ^ o) :
    b.belongArea (b.pageAddr p) = some ⟨b.pageAddr a, 4096 * 2 ^ o⟩ := by
  unfold belongArea
  have hmem : (⟨b.pageAddr a, 4096 * 2 ^ o⟩ : BuddyDesc) ∈ b.areaDesc :=
    (I.desc _).mpr ⟨a, o, hA, rfl⟩
  have hin : ¬b.pageAddr p < b.pageAddr a ∧ ¬b.pageAddr a + 4096 * 2 ^ o ≤ b.pageAddr p := by
    simp only [pageAddr]
    omega
  cases hfind : b.areaDesc.find? _ with
  | none =>
    have := List.find?_eq_none.mp hfind _ hmem
    simp [hin] at this
  | some bd =>
    obtain ⟨a', o', hA', rfl⟩ := (I.desc bd).mp (List.mem_of_find?_eq_some hfind)
    have hp := List.find?_some hfind
    have hp' : ¬b.pageAddr p < b.pageAddr a' ∧
        ¬b.pageAddr a' + 4096 * 2 ^ o' ≤ b.pageAddr p := by
      simpa using hp
    simp only [pageAddr] at hp'
    obtain ⟨rfl, rfl⟩ := (binaryAreas N 64).eq_of_mem hA hA' ⟨hl, hu⟩
      ⟨by omega, by omega⟩
    rfl

/-- The bytes in use are counted by a word. -/
theorem size_lt (I : b.Inv N m B) : b.allocSize < 2 ^ 64 := by
  have h1 := I.rep.part.usedUnits_le I.rep.bound
  have h2 := I.rep.layout.pages_lt
  rw [I.size]
  omega

/-- Two records that differ in `_alloc_size` alone. -/
theorem withAllocSize (I : b.Inv N m B) {B' : Blocks} {n : Nat}
    (rep : Rep b N (binaryAreas N 64) m' B' ∅) (hno : NoFreeBuddies (binaryAreas N 64) B' none)
    (hn : n = 4096 * usedUnits N B') : Inv { b with allocSize := n } N m' B' :=
  ⟨rep.withAllocSize n, hno, I.maxOrder, I.maxOrder_lt, I.desc, hn, I.memSize, I.table⟩

/-- What `alloc_pages` does to the blocks. -/
theorem alloc (I : b.Inv N m B) {count : Nat} (hpos : 0 < count) (hc : count ≤ 2 ^ 31) :
    ∃ r b' m', b.allocPages m count = .ok (r, b', m') ∧
      ((r = none ∧ b' = b ∧ m' = m ∧ ∀ s k, B s = some ⟨k, false⟩ →
        k < Nat.clog 2 count) ∨ ∃ s B', r = some (b.pageAddr s) ∧ b'.Inv N m' B' ∧
          Allocated N B s (Nat.clog 2 count) B' ∧ Keeps b B m m' ∧
          b' = { b with allocSize := b'.allocSize }) := by
  obtain ⟨⟨r, b', m'⟩, hrun, hr⟩ :=
    allocPages_spec I.rep I.coalesced I.maxOrder I.maxOrder_lt hpos hc
  refine ⟨r, b', m', hrun, ?_⟩
  cases hr with
  | none hsmall => exact .inl ⟨rfl, rfl, rfl, fun s k => hsmall⟩
  | @some s _ B' rep hno alloc keeps =>
    refine .inr ⟨s, B', rfl, I.withAllocSize rep hno ?_, alloc, keeps, rfl⟩
    rw [I.size, alloc.units, Nat.mul_add, Nat.mul_comm (2 ^ _)]

/-- What `free_pages` does to the blocks, at the pages of the region. -/
theorem free (I : b.Inv N m B) {s : Nat} (hs : s < b.infosSize) (hlt : b.pageAddr s < 2 ^ 64)
    (hnull : b.pageAddr s ≠ 0) :
    ∃ r b' m', b.freePages m (b.pageAddr s) = .ok (r, b', m') ∧
      ((B s = none ∧ r = 0 ∧ b' = b ∧ m' = m) ∨
        (∃ k, B s = some ⟨k, false⟩ ∧ r = -3 ∧ b' = b ∧ m' = m) ∨
        ∃ k B', r = 0 ∧ b'.Inv N m' B' ∧ Released N B s k B' ∧
          Keeps b (mark B s k false) m m' ∧ b' = { b with allocSize := b'.allocSize }) := by
  obtain ⟨⟨r, b', m'⟩, hrun, hr, -⟩ := freePages_spec I.rep I.coalesced I.maxOrder
    (fun hA hl hu => I.belongArea_eq hA hl hu) hs hlt hnull
  refine ⟨r, b', m', hrun, ?_⟩
  cases hr with
  | inside hs => exact .inl ⟨hs, rfl, rfl, rfl⟩
  | again hs => exact .inr (.inl ⟨_, hs, rfl, rfl, rfl⟩)
  | @released k _ B' rep hno free keeps =>
    refine .inr (.inr ⟨k, B', rfl, I.withAllocSize rep hno ?_, free, keeps, rfl⟩)
    have hu := free.units
    have hsz := I.size
    rw [wordSub_of_le (by omega) I.size_lt]
    omega

end BuddyAllocator.Inv

/-! ### Runs -/

/-- The memory handed to the constructor and the address of the list heads of the object. -/
structure Region where
  mem : Nat
  size : Nat
  nodes : Nat
  mem_aligned : mem % 4096 = 0
  size_aligned : size % 4096 = 0
  size_ge : 64 * 4096 ≤ size
  pages_lt : size / 4096 < 2 ^ 33
  end_le : mem + size ≤ 2 ^ 64
  nodes_le : nodes + 1056 ≤ 2 ^ 64
  apart : nodes + 1056 ≤ mem ∨ mem + size ≤ nodes

/-- The number of managed pages: those of the region without the info bytes. -/
def Region.pages (reg : Region) : Nat := (reg.size - pageRoundUp (reg.size / 4096)) / 4096

theorem Region.infos_le (reg : Region) : pageRoundUp (reg.size / 4096) < reg.size ∧
    reg.size / 4096 ≤ pageRoundUp (reg.size / 4096) ∧
    pageRoundUp (reg.size / 4096) % 4096 = 0 ∧
    reg.size = 4096 * reg.pages + pageRoundUp (reg.size / 4096) := by
  have h1 := reg.size_ge
  have h2 := reg.pages_lt
  have h3 := reg.size_aligned
  unfold Region.pages
  rw [pageRoundUp_eq (by omega)]
  omega

/-- The constructor establishes the invariant. -/
theorem make_inv (reg : Region) (m : Mem) :
    ∃ b m' B, make m reg.nodes reg.mem reg.size = .ok (b, m') ∧ b.Inv reg.pages m' B ∧
      (∀ s blk, B s = some blk ↔
        (binaryAreas reg.pages 64).mem s blk.order ∧ blk.used = false) ∧
      b.memAddr = reg.mem ∧ b.buddyNodes = reg.nodes ∧
      b.infosSize = pageRoundUp (reg.size / 4096) := by
  have h1 := reg.size_ge
  have h2 := reg.pages_lt
  have h3 := reg.size_aligned
  have h4 := reg.end_le
  have h5 := reg.apart
  obtain ⟨hlt, hge, hal, hsum⟩ := reg.infos_le
  have hN : reg.pages < 2 ^ 33 := by omega
  let b₀ : BuddyAllocator :=
    { memAddr := reg.mem, memSize := reg.size - pageRoundUp (reg.size / 4096),
      buddyNodes := reg.nodes, buddyMaxOrder := 0, areaDesc := [],
      allocInfos := reg.mem + reg.size - pageRoundUp (reg.size / 4096),
      infosSize := pageRoundUp (reg.size / 4096), allocSize := 0 }
  have hL : Layout b₀ reg.pages := by
    refine ⟨by omega, hN, reg.mem_aligned, ?_, ?_, ?_, reg.nodes_le, ?_⟩ <;>
      simp only [b₀] <;> omega
  have hR := Rep.reset hL (m := m.fill b₀.allocInfos b₀.infosSize 0) fun p hp =>
    Mem.fill_inside (by omega) (by omega)
  have hmade : AreasMade reg.pages 0 b₀
      (b₀.resetNodes (m.fill b₀.allocInfos b₀.infosSize 0) 33 0)
      (fun _ => none) := by
    refine ⟨hR, fun s blk => ?_, fun h => absurd h.1 (by omega), by simp [b₀], fun bd => ?_⟩
    · simp [binaryAreas_mem]
    · simp [binaryAreas_mem, b₀]
  obtain ⟨b, m', B, hrun, hdone, hmem, hms, hnodes, hinf, his, has⟩ := initAreas_made 64 0 hmade
  rw [Nat.zero_add] at hdone
  have hstart : b₀.pageAddr (reg.pages % 2 ^ 0) = reg.mem := by simp [pageAddr, b₀, Nat.mod_one]
  rw [hstart] at hrun
  have hfree : usedUnits reg.pages B = 0 := by
    refine Finset.sum_eq_zero fun p _ => ?_
    cases hB : B p with
    | none => rfl
    | some blk =>
      obtain ⟨k, u⟩ := blk
      have hu := ((hdone.blocks p _).mp hB).2
      simp only at hu
      rw [hu]
      rfl
  refine ⟨b, m', B, ?_, ⟨hdone.rep, noFreeBuddies_areas hdone.blocks, hdone.maxOrder,
    hdone.maxOrder_lt, hdone.desc, ?_, ?_, ?_⟩, hdone.blocks, hmem, hnodes, his⟩
  · have e1 : reg.mem % pageSize = 0 := reg.mem_aligned
    have e2 : 64 * pageSize ≤ reg.size := h1
    have e3 : reg.size % pageSize = 0 := h3
    unfold make
    rw [kassert_pos e1, ok_bind, kassert_pos e2, ok_bind, kassert_pos e3, ok_bind]
    exact congrArg Except.ok hrun
  · rw [has, hfree]
  · rw [hms]
    simp only [b₀]
    omega
  · rw [his]
    simp only [b₀]
    omega

/-- The allocator object and the memory. -/
structure BuddyState where
  alloc : BuddyAllocator
  mem : Mem

/-- A call of the allocator, or stores by its clients: anywhere but in the list heads, the info
bytes and the free blocks. -/
inductive Region.Step (reg : Region) : BuddyState → BuddyState → Prop
  | alloc {b b' : BuddyAllocator} {m m' : Mem} {count : Nat} {r : Option Nat} (hpos : 0 < count)
      (hc : count ≤ 2 ^ 31) (h : b.allocPages m count = .ok (r, b', m')) :
      reg.Step ⟨b, m⟩ ⟨b', m'⟩
  | free {b b' : BuddyAllocator} {m m' : Mem} {ptr : Nat} {r : Int} (hal : ptr % 4096 = 0)
      (hl : reg.mem ≤ ptr) (hu : ptr < reg.mem + reg.size)
      (h : b.freePages m ptr = .ok (r, b', m')) :
      reg.Step ⟨b, m⟩ ⟨b', m'⟩
  | write {b : BuddyAllocator} {m m' : Mem} (h : AgreeOn (FreeByte b (b.blocks m)) m m') :
      reg.Step ⟨b, m⟩ ⟨b, m'⟩

/-- The states that runs from the constructor reach. -/
def Region.Reachable (reg : Region) (st : BuddyState) : Prop :=
  ∃ m b₀ m₀, make m reg.nodes reg.mem reg.size = .ok (b₀, m₀) ∧
    Relation.ReflTransGen reg.Step ⟨b₀, m₀⟩ st

/-- The invariant of a state over the region. -/
structure Region.Holds (reg : Region) (st : BuddyState) : Prop where
  inv : st.alloc.Inv reg.pages st.mem (st.alloc.blocks st.mem)
  memAddr : st.alloc.memAddr = reg.mem
  infosSize : st.alloc.infosSize = pageRoundUp (reg.size / 4096)

theorem Region.Holds.of_inv {reg : Region} {b : BuddyAllocator} {m : Mem} {B : Blocks}
    (I : b.Inv reg.pages m B) (hmem : b.memAddr = reg.mem)
    (hinf : b.infosSize = pageRoundUp (reg.size / 4096)) : reg.Holds ⟨b, m⟩ :=
  ⟨by simpa only [I.rep.blocks_eq] using I, hmem, hinf⟩

/-- A page-aligned address of the region is the address of a page with an info byte. -/
theorem Region.Holds.page {reg : Region} {st : BuddyState} (H : reg.Holds st) {ptr : Nat}
    (hal : ptr % 4096 = 0) (hl : reg.mem ≤ ptr) (hu : ptr < reg.mem + reg.size) :
    ∃ s, ptr = st.alloc.pageAddr s ∧ s < st.alloc.infosSize ∧ ptr < 2 ^ 64 := by
  have h1 := reg.mem_aligned
  have h2 := reg.end_le
  obtain ⟨-, hge, -, -⟩ := reg.infos_le
  have h3 := H.infosSize
  have h4 := reg.size_aligned
  refine ⟨(ptr - reg.mem) / 4096, ?_, ?_, by omega⟩
  · simp only [pageAddr, H.memAddr]
    omega
  · omega

theorem Region.Holds.alloc_ok {reg : Region} {st : BuddyState} (H : reg.Holds st) {count : Nat}
    (hpos : 0 < count) (hc : count ≤ 2 ^ 31) : ∃ r,
      st.alloc.allocPages st.mem count = .ok r := by
  obtain ⟨r, b', m', hrun, -⟩ := H.inv.alloc hpos hc
  exact ⟨_, hrun⟩

theorem Region.Holds.free_ok {reg : Region} {st : BuddyState} (H : reg.Holds st) {ptr : Nat}
    (hal : ptr % 4096 = 0) (hl : reg.mem ≤ ptr) (hu : ptr < reg.mem + reg.size) :
    ∃ r, st.alloc.freePages st.mem ptr = .ok r := by
  by_cases hnull : ptr = 0
  · exact ⟨_, by rw [freePages, if_pos hnull]⟩
  · obtain ⟨s, rfl, hs, hlt⟩ := H.page hal hl hu
    obtain ⟨r, b', m', hrun, -⟩ := H.inv.free hs hlt hnull
    exact ⟨_, hrun⟩

/-- A call that keeps the invariant, for the blocks that it leaves. -/
theorem Region.Holds.of_keeps {reg : Region} {st : BuddyState} (H : reg.Holds st)
    {b : BuddyAllocator}
    {m : Mem} {B : Blocks} (I : b.Inv reg.pages m B)
    (hb : b = { st.alloc with allocSize := b.allocSize }) :
    reg.Holds ⟨b, m⟩ ∧ b.blocks m = B := by
  refine ⟨.of_inv I ?_ ?_, I.rep.blocks_eq⟩
  · rw [hb]
    exact H.memAddr
  · rw [hb]
    exact H.infosSize

/-- An allocation gives a block where no page of an aligned run of its size is in use. -/
theorem Region.Holds.alloc_some {reg : Region} {st : BuddyState} (H : reg.Holds st)
    {count a o q : Nat} (hpos : 0 < count) (hc : count ≤ 2 ^ 31)
    (hA : (binaryAreas reg.pages 64).mem a o)
    (hf : Fits a o q (Nat.clog 2 count))
    (hun : ∀ p, q ≤ p → p < q + 2 ^ Nat.clog 2 count → ¬InUse (st.alloc.blocks st.mem) p) :
    ∃ s b m, st.alloc.allocPages st.mem count = .ok (some (st.alloc.pageAddr s), b, m) ∧
      reg.Holds ⟨b, m⟩ ∧
      Allocated reg.pages (st.alloc.blocks st.mem) s (Nat.clog 2 count) (b.blocks m) := by
  obtain ⟨r, b, m, hrun, hcase⟩ := H.inv.alloc hpos hc
  rcases hcase with ⟨-, -, -, hsmall⟩ | ⟨s, B', rfl, I, ha, -, hb⟩
  · have hfree := freeRun_of_unused H.inv.rep.part hA hf hun
    obtain ⟨s, ⟨k, used⟩, hs, hused, hge, -⟩ :=
      exists_block_of_freeRun H.inv.rep.part H.inv.coalesced hA hf hfree
    simp only at hused hge
    subst hused
    have := hsmall s k hs
    omega
  · obtain ⟨H', hB⟩ := H.of_keeps I hb
    exact ⟨s, b, m, hrun, H', by rw [hB]; exact ha⟩

/-- A release of a block in use takes that block alone out of use. -/
theorem Region.Holds.free_held {reg : Region} {st : BuddyState} (H : reg.Holds st)
    (hmem : 0 < reg.mem)
    {s k : Nat} (hs : st.alloc.blocks st.mem s = some ⟨k, true⟩) :
    ∃ b m, st.alloc.freePages st.mem (st.alloc.pageAddr s) = .ok (0, b, m) ∧
      reg.Holds ⟨b, m⟩ ∧ ∀ t j, b.blocks m t = some ⟨j, true⟩ ↔ t ≠ s ∧
        st.alloc.blocks st.mem t = some ⟨j, true⟩ := by
  obtain ⟨-, hge, -, hsum⟩ := reg.infos_le
  have hend := reg.end_le
  have hlt := H.inv.rep.block_lt hs
  have hinf := H.infosSize
  have haddr : st.alloc.pageAddr s = reg.mem + 4096 * s := by rw [pageAddr, H.memAddr]
  obtain ⟨r, b, m, hrun, hcase⟩ := H.inv.free (s := s) (by omega) (by omega) (by omega)
  rcases hcase with ⟨hnone, -⟩ | ⟨j, hfree, -⟩ | ⟨j, B', rfl, I, hr, -, hb⟩
  · exact absurd (hnone.symm.trans hs) (by simp)
  · exact absurd (hfree.symm.trans hs) (by simp)
  · obtain ⟨H', hB⟩ := H.of_keeps I hb
    refine ⟨b, m, hrun, H', fun t i => ?_⟩
    rw [hB]
    exact hr.used t i

theorem Region.Holds.step {reg : Region} {st st' : BuddyState} (H : reg.Holds st)
    (h : reg.Step st st') : reg.Holds st' := by
  cases h with
  | @alloc b b' m m' count r hpos hc h =>
    obtain ⟨r₁, b₁, m₁, hrun, hcase⟩ := H.inv.alloc hpos hc
    obtain ⟨rfl, rfl, rfl⟩ : r = r₁ ∧ b' = b₁ ∧ m' = m₁ := by
      rw [h] at hrun
      simpa using hrun
    rcases hcase with ⟨-, rfl, rfl, -⟩ | ⟨s, B', -, I, -, -, hb⟩
    · exact H
    · exact .of_inv I (by rw [hb]; exact H.memAddr) (by rw [hb]; exact H.infosSize)
  | @free b b' m m' ptr r hal hl hu h =>
    by_cases hnull : ptr = 0
    · rw [freePages, if_pos hnull] at h
      obtain ⟨-, rfl, rfl⟩ : -1 = r ∧ b = b' ∧ m = m' := by simpa using h
      exact H
    · obtain ⟨s, rfl, hs, hlt⟩ := H.page hal hl hu
      obtain ⟨r₁, b₁, m₁, hrun, hcase⟩ := H.inv.free hs hlt hnull
      obtain ⟨rfl, rfl, rfl⟩ : r = r₁ ∧ b' = b₁ ∧ m' = m₁ := by
        rw [h] at hrun
        simpa using hrun
      rcases hcase with ⟨-, -, rfl, rfl⟩ | ⟨k, -, -, rfl, rfl⟩ | ⟨k, B', -, I, -, -, hb⟩
      · exact H
      · exact H
      · exact .of_inv I (by rw [hb]; exact H.memAddr) (by rw [hb]; exact H.infosSize)
  | write h => exact .of_inv (H.inv.frame h) H.memAddr H.infosSize

theorem Region.Reachable.holds {reg : Region} {st : BuddyState} (h : reg.Reachable st) :
    reg.Holds st := by
  obtain ⟨m, b₀, m₀, hmake, hrun⟩ := h
  induction hrun with
  | refl =>
    obtain ⟨b, m', B, hb, I, -, hmem, -, hinf⟩ := make_inv reg m
    obtain ⟨rfl, rfl⟩ : b = b₀ ∧ m' = m₀ := by
      rw [hb] at hmake
      simpa using hmake
    exact .of_inv I hmem hinf
  | tail _ hstep ih => exact ih.step hstep

end OsKernel.Mm

import OsKernel.Mm.Buddy.Consistency
import OsKernel.Mm.PageSource

/-! The buddy allocator as the page allocator of `k_pmm`: its blocks are the abstract state of a
source of pages. -/

namespace OsKernel.Mm

open Lib Hsai Lib.BuddySystem BuddyAllocator

/-- `BuddyAllocator` as a `VirtualPageAllocator`. -/
def buddyPages : VirtualPageAllocator BuddyAllocator where
  allocPages b m count := b.allocPages m count
  freePages b m ptr := b.freePages m ptr

/-- The region is in the kernel's window and does not hold the null pointer. -/
structure Region.InWindow (reg : Region) (arch : Arch) : Prop where
  pos : 0 < reg.mem
  windowed : ∀ x, reg.mem ≤ x → x < reg.mem + reg.size → arch.Windowed x

namespace Region

variable (reg : Region)

/-- The address of a page. -/
def addr (s : Nat) : Nat := reg.mem + 4096 * s

/-- The bytes of the blocks in use. -/
def Used (B : Blocks) (x : Nat) : Prop :=
  ∃ s k, B s = some ⟨k, true⟩ ∧ reg.addr s ≤ x ∧ x < reg.addr s + 4096 * 2 ^ k

/-- The allocator `b` of the region, with blocks `B`. -/
structure Alloc (b : BuddyAllocator) (m : Mem) (B : Blocks) : Prop where
  inv : b.Inv reg.pages m B
  memAddr : b.memAddr = reg.mem
  nodes : b.buddyNodes = reg.nodes
  infosSize : b.infosSize = pageRoundUp (reg.size / 4096)

/-- The pages that are in no block in use. -/
def room (B : Blocks) : Nat := reg.pages - usedUnits reg.pages B

variable {reg} {b : BuddyAllocator} {m m' : Mem} {B B' : Blocks} {s k x : Nat}

theorem Alloc.pageAddr_eq (h : reg.Alloc b m B) (s : Nat) : b.pageAddr s = reg.addr s := by
  simp only [BuddyAllocator.pageAddr, addr, h.memAddr]

/-- The page of a byte in a block. -/
theorem addr_page (hl : reg.addr s ≤ x) (hu : x < reg.addr s + 4096 * 2 ^ k) :
    s ≤ (x - reg.mem) / 4096 ∧ (x - reg.mem) / 4096 < s + 2 ^ k := by
  simp only [addr] at hl hu
  omega

/-- The allocator never writes to a block in use. -/
theorem Alloc.used_not_free (h : reg.Alloc b m B) (hx : reg.Used B x) : ¬FreeByte b B x := by
  obtain ⟨s, k, hs, hl, hu⟩ := hx
  have hL := h.inv.rep.layout
  have hle := h.inv.rep.block_le hs
  have hpos := Nat.two_pow_pos k
  simp only at hle
  have hmem := h.memAddr
  have hinf := hL.infos
  have hap := hL.apart
  simp only [addr] at hl hu
  rintro (⟨h1, h2⟩ | ⟨h1, h2⟩ | ⟨t, j, ht, h1, h2⟩)
  · omega
  · omega
  · rw [h.pageAddr_eq] at h1 h2
    have hp := addr_page h1 h2
    have hl' : reg.addr s ≤ x := by
      simp only [addr]
      omega
    have hq := addr_page (k := k) hl' (by simp only [addr]; omega)
    have := h.inv.rep.part.eq_of_mem hs ht hq hp
    subst this
    rw [hs] at ht
    cases ht

theorem Alloc.frame (h : reg.Alloc b m B) (hm : AgreeOn (fun x => ¬reg.Used B x) m m') :
    reg.Alloc b m' B :=
  ⟨h.inv.frame fun x hx => hm x fun hu => h.used_not_free hu hx, h.memAddr, h.nodes,
    h.infosSize⟩

/-- A page in use of the region. -/
theorem Alloc.block_bound (h : reg.Alloc b m B) {blk : Block} (hs : B s = some blk) :
    s + 2 ^ blk.order ≤ reg.pages := h.inv.rep.block_le hs

theorem page_bound (hs : s < reg.pages) : reg.addr s + 4096 ≤ reg.mem + reg.size := by
  obtain ⟨-, -, -, hsum⟩ := reg.infos_le
  simp only [addr]
  omega

/-- What `alloc_pages` does, in terms of the blocks in use. -/
theorem Alloc.alloc (h : reg.Alloc b m B) {count : Nat} (hpos : 0 < count) (hc : count ≤ 2 ^ 31) :
    ∃ r b' m', b.allocPages m count = .ok (r, b', m') ∧ AgreeOn (reg.Used B) m m' ∧
      ((r = none ∧ b' = b ∧ m' = m ∧ ∀ s k, B s = some ⟨k, false⟩ →
        k < Nat.clog 2 count) ∨ ∃ s B', r = some (reg.addr s) ∧ reg.Alloc b' m' B' ∧
          Allocated reg.pages B s (Nat.clog 2 count) B') := by
  obtain ⟨r, b', m', hrun, hcase⟩ := h.inv.alloc hpos hc
  refine ⟨r, b', m', hrun, ?_⟩
  rcases hcase with ⟨rfl, rfl, rfl, hsmall⟩ | ⟨s, B', rfl, I, ha, hkeep, hb⟩
  · exact ⟨fun _ _ => rfl, .inl ⟨rfl, rfl, rfl, hsmall⟩⟩
  · refine ⟨fun x hx => hkeep x (h.used_not_free hx),
      .inr ⟨s, B', by rw [h.pageAddr_eq], ?_, ha⟩⟩
    exact ⟨I,
      by rw [hb]; exact h.memAddr, by rw [hb]; exact h.nodes, by rw [hb]; exact h.infosSize⟩

/-- One page is taken. -/
theorem room_of_alloc (h : Allocated reg.pages B s 0 B') : reg.room B ≤ reg.room B' + 1 := by
  have hunits := h.units
  unfold room
  rw [Nat.pow_zero] at hunits
  omega

/-- With no free block every page is in use. -/
theorem Alloc.room_eq_zero (h : reg.Alloc b m B) (hfree : ∀ s k, B s ≠ some ⟨k, false⟩) :
    reg.room B = 0 := by
  refine Nat.sub_eq_zero_of_le (le_usedUnits fun p hp => ?_)
  obtain ⟨a, o, hA, hl, hu⟩ := binaryAreas_cover (N := reg.pages) (k := 64) (p := p)
    (by rw [reg.pages_mod]; exact hp)
  obtain ⟨s, ⟨k, u⟩, hs, hl', hu'⟩ := h.inv.rep.part.cover hA hl hu
  cases u with
  | false => exact absurd hs (hfree s k)
  | true => exact ⟨s, k, hs, hl', hu'⟩

/-- What `free_pages` does at a page of the region, in terms of the blocks in use. -/
theorem Alloc.free (h : reg.Alloc b m B) (hw : 0 < reg.mem) (hs : s < reg.pages) :
    ∃ r b' m', b.freePages m (reg.addr s) = .ok (r, b', m') ∧
      ((B s = none ∧ r = 0 ∧ b' = b ∧ m' = m) ∨
        (∃ k, B s = some ⟨k, false⟩ ∧ r = -3 ∧ b' = b ∧ m' = m) ∨
        ∃ k B', r = 0 ∧ reg.Alloc b' m' B' ∧ Released reg.pages B s k B' ∧
          AgreeOn (reg.Used B') m m') := by
  obtain ⟨-, hge, -, hsum⟩ := reg.infos_le
  have hend := reg.end_le
  have hb := page_bound hs
  have hinf := h.infosSize
  have hpa := h.pageAddr_eq s
  obtain ⟨r, b', m', hrun, hcase⟩ := h.inv.free (s := s) (by omega) (by omega)
    (by rw [hpa, addr]; omega)
  rw [hpa] at hrun
  refine ⟨r, b', m', hrun, ?_⟩
  rcases hcase with h0 | h3 | ⟨k, B', rfl, I, hr, hkeep, hb'⟩
  · exact .inl h0
  · exact .inr (.inl h3)
  · refine .inr (.inr ⟨k, B', rfl, ?_, hr, fun x hx => hkeep x ?_⟩)
    · exact ⟨I, by rw [hb']; exact h.memAddr, by rw [hb']; exact h.nodes,
        by rw [hb']; exact h.infosSize⟩
    · -- a block still in use is apart from the one released
      obtain ⟨t, j, ht, hl, hu⟩ := hx
      obtain ⟨hts, htB⟩ := (hr.used t j).mp ht
      have hnf := h.used_not_free (x := x) ⟨t, j, htB, hl, hu⟩
      rintro (h1 | h1 | ⟨t', j', ht', h1, h2⟩)
      · exact hnf (.inl h1)
      · exact hnf (.inr (.inl h1))
      · rw [mark_apply] at ht'
        split at ht'
        · rename_i he
          cases ht'
          subst he
          rw [h.pageAddr_eq] at h1 h2
          exact hts (h.inv.rep.part.eq_of_mem htB hr.held (addr_page hl hu) (addr_page h1 h2))
        · exact hnf (.inr (.inr ⟨t', j', ht', h1, h2⟩))

end Region

/-- The pages of the buddy allocator. -/
def buddySource (reg : Region) (arch : Arch) (hw : reg.InWindow arch) :
    PageSource buddyPages arch Blocks where
  inv b m B := reg.Alloc b m B
  held B x := reg.Used B x
  room B := reg.room B
  grab B p B' := ∃ s, p = reg.addr s ∧ s < reg.pages ∧
    Partition (binaryAreas reg.pages 64) B' ∧ Allocated reg.pages B s 0 B'
  page := by
    rintro B p B' ⟨s, rfl, hs, -, -⟩
    have h1 := reg.mem_aligned
    have h2 := reg.end_le
    have h3 := Region.page_bound hs
    have h4 := hw.pos
    refine ⟨by simp only [Region.addr]; omega, by simp only [Region.addr]; omega, by omega,
      hw.windowed _ (by simp only [Region.addr]; omega) (by omega)⟩
  fresh := by
    rintro B p B' ⟨s, rfl, hs, P, ha⟩ x hl hu ⟨t, k, ht, hl', hu'⟩
    have ht' := (ha.used t k).mpr (.inr ht)
    have hs' := (ha.used s 0).mpr (.inl ⟨rfl, rfl⟩)
    have := P.eq_of_mem hs' ht' (Region.addr_page hl (by simpa using hu)) (Region.addr_page hl' hu')
    subst this
    exact ha.fresh k ht
  held_grab := by
    rintro B p B' ⟨s, rfl, hs, -, ha⟩ x
    constructor
    · rintro ⟨t, k, ht, hl, hu⟩
      rcases (ha.used t k).mp ht with ⟨rfl, rfl⟩ | ht
      · exact .inr ⟨hl, by simpa using hu⟩
      · exact .inl ⟨t, k, ht, hl, hu⟩
    · rintro (⟨t, k, ht, hl, hu⟩ | ⟨hl, hu⟩)
      · exact ⟨t, k, (ha.used t k).mpr (.inr ht), hl, hu⟩
      · exact ⟨s, 0, (ha.used s 0).mpr (.inl ⟨rfl, rfl⟩), hl, by simpa using hu⟩
  room_grab := by
    rintro B p B' ⟨s, rfl, hs, -, ha⟩
    exact Region.room_of_alloc ha
  alloc := by
    intro b m B h
    obtain ⟨r, b', m', hrun, hkeep, hcase⟩ := h.alloc Nat.one_pos (by decide)
    refine ⟨r, b', m', hrun, hkeep, ?_, ?_⟩
    · rintro rfl
      rcases hcase with ⟨-, rfl, rfl, hsmall⟩ | ⟨s, B', he, -⟩
      · exact ⟨h, h.room_eq_zero fun s k hs => absurd (hsmall s k hs) (by simp)⟩
      · cases he
    · rintro p rfl
      rcases hcase with ⟨he, -⟩ | ⟨s, B', he, h', ha⟩
      · cases he
      · cases he
        rw [Nat.clog_one_right] at ha
        have hs := (ha.used s 0).mpr (.inl ⟨rfl, rfl⟩)
        exact ⟨B', ⟨s, rfl, h'.inv.rep.block_lt hs, h'.inv.rep.part, ha⟩, h'⟩
  frame := fun h hm => h.frame hm

end OsKernel.Mm

import OsKernel.Mm.Vmm.Range

/-! What a call of `vm_alloc` leaves: after a success the pages of the range, each block of
zeros at the place of its bit of the page count, and after a failure the leaf entries and blocks
from before. -/

namespace OsKernel.Mm

open Lib Hsai Lib.BuddySystem BuddyAllocator

/-! ### Memory outside the region -/

/-- A byte of neither the region nor the list heads of its allocator. -/
def Region.Far (reg : Region) (x : Nat) : Prop :=
  (x < reg.mem ∨ reg.mem + reg.size ≤ x) ∧ (x < reg.nodes ∨ reg.nodes + 1056 ≤ x)

section

variable {reg : Region} {b b' : BuddyAllocator} {m m' : Mem} {B B' : Blocks}

/-- A byte of a page of the region is not far. -/
theorem Region.Far.apart {x s n : Nat} (hx : reg.Far x) (hs : s + n ≤ reg.pages) :
    x < reg.addr s ∨ reg.addr s + 4096 * n ≤ x := by
  obtain ⟨-, -, -, hsum⟩ := reg.infos_le
  obtain ⟨hr, -⟩ := hx
  simp only [Region.addr]
  omega

theorem Region.Alloc.far_not_free (h : reg.Alloc b m B) {x : Nat} (hx : reg.Far x) :
    ¬FreeByte b B x := by
  obtain ⟨-, -, -, hsum⟩ := reg.infos_le
  have hinf := h.inv.rep.layout.infos
  have hmem := h.memAddr
  have hnodes := h.nodes
  have hsize := h.infosSize
  rintro (⟨h1, h2⟩ | ⟨h1, h2⟩ | ⟨t, j, ht, h1, h2⟩)
  · obtain ⟨-, hn⟩ := hx
    omega
  · obtain ⟨hr, -⟩ := hx
    omega
  · have := hx.apart (h.block_bound ht)
    rw [h.pageAddr_eq] at h1 h2
    simp only at this
    omega

theorem Region.Alloc.alloc_far (h : reg.Alloc b m B) {count : Nat} (hpos : 0 < count)
    (hc : count ≤ 2 ^ 31) {r : Option Nat} (hrun : b.allocPages m count = .ok (r, b', m')) :
    AgreeOn reg.Far m m' := by
  obtain ⟨r₁, b₁, m₁, hrun₁, hcase⟩ := h.inv.alloc hpos hc
  rw [hrun] at hrun₁
  cases hrun₁
  rcases hcase with ⟨-, -, rfl, -⟩ | ⟨s, B', -, -, -, hkeep, -⟩
  · exact fun _ _ => rfl
  · exact fun x hx => hkeep x (h.far_not_free hx)

/-- `k_pmm.alloc_pages` keeps the memory outside the region. -/
theorem pmmAllocPages_far {k k' : Kernel BuddyAllocator} (h : reg.Alloc k.pages k.mem B)
    {count : Nat} (hpos : 0 < count) (hc : count ≤ 2 ^ 31) {r : Option Nat}
    (hrun : pmmAllocPages buddyPages k count = .ok (r, k')) : AgreeOn reg.Far k.mem k'.mem := by
  obtain ⟨r₁, b₁, m₁, hrun₁, -, hcase⟩ := h.alloc hpos hc
  have hfar := h.alloc_far hpos hc hrun₁
  have hrun₂ : buddyPages.allocPages k.pages k.mem count = .ok (r₁, b₁, m₁) := hrun₁
  unfold pmmAllocPages at hrun
  rw [hrun₂, ok_bind] at hrun
  rcases hcase with ⟨rfl, -⟩ | ⟨s, B', rfl, h', ha⟩
  · cases hrun
    exact hfar
  · cases hrun
    have hle : count ≤ 2 ^ Nat.clog 2 count := Nat.le_pow_clog (by decide) count
    have hcnt : ((count : Int) % 2 ^ 32).toNat = count := by omega
    have hb := h'.block_bound ((ha.used s _).mpr (.inl ⟨rfl, rfl⟩))
    intro x hx
    have hmod : (reg.addr s + count * pageSize) % wordSize ≤ reg.addr s + count * pageSize :=
      Nat.mod_le _ _
    have hap := hx.apart (s := s) (n := count) (by simp only at hb; omega)
    rw [← hfar x hx]
    simp only [fillPages]
    rw [hcnt]
    unfold pageSize at *
    exact Mem.fill_outside (by omega)

end

/-- The pages of the buddy allocator, with the bytes outside the region as bytes that no call
changes. -/
def farSource (reg : Region) (arch : Arch) (hw : reg.InWindow arch) :
    PageSource buddyPages arch Blocks where
  inv := (buddySource reg arch hw).inv
  held B x := reg.Used B x ∨ reg.Far x
  room := (buddySource reg arch hw).room
  grab := (buddySource reg arch hw).grab
  page := (buddySource reg arch hw).page
  fresh := by
    rintro B p B' hg x hl hu (hx | hx)
    · exact (buddySource reg arch hw).fresh hg x hl hu hx
    · obtain ⟨s, rfl, hs, -⟩ := hg
      have := hx.apart (s := s) (n := 1) (by omega)
      omega
  held_grab := by
    intro B p B' hg x
    have := (buddySource reg arch hw).held_grab hg x
    change reg.Used B' x ↔ reg.Used B x ∨ _ at this
    tauto
  room_grab := (buddySource reg arch hw).room_grab
  alloc := by
    intro b m B h
    obtain ⟨r, b', m', hrun, hkeep, hcase⟩ := (buddySource reg arch hw).alloc h
    refine ⟨r, b', m', hrun, ?_, hcase⟩
    rintro x (hx | hx)
    · exact hkeep x hx
    · exact Region.Alloc.alloc_far h Nat.one_pos (by decide) hrun x hx
  frame := by
    intro b m B m' h hm
    have hfree : b.Inv reg.pages m' B := h.inv.frame fun x hx => hm x fun hc => by
      rcases hc with hc | hc
      · exact Region.Alloc.used_not_free h hc hx
      · exact Region.Alloc.far_not_free h hc hx
    exact ⟨hfree, h.memAddr, h.nodes, h.infosSize⟩

section

variable {reg : Region} {arch : Arch} {k k' : Kernel BuddyAllocator} {B B' : Blocks}
  {Base : Nat → Nat → Prop} {ι : Type} {W : Spaces ι} {i : ι} {A : AddrSpace}

/-- `map_pages` keeps the memory outside the region. -/
theorem World.mapPages_far (H : World reg arch k B Base W) (hw : reg.InWindow arch)
    (hi : W i = some A) {u n pa flags : Nat} {r : Bool} (hpa : pa < 2 ^ 64) (hn : 0 < n)
    (hf : LeafFlags arch flags) (hu : PageRange arch A.base u n)
    (hrun : mapPages arch buddyPages k ⟨A.root, true⟩ (4096 * u) (4096 * n) pa flags =
      .ok (r, k')) :
    AgreeOn reg.Far k.mem k'.mem := by
  have hfirst : 4096 * u / 4096 = u := Nat.mul_div_cancel_left u (by decide)
  have hlast : (4096 * u + 4096 * n - 1) / 4096 = u + n - 1 := by omega
  have hcount : u + n - 1 - u + 1 = n := by omega
  have hfits := hu.fits
  have Sp : Space (farSource reg arch hw) k B A.root A.tables :=
    ⟨H.alloc, H.tables hi, fun x hx => .inl (H.table_used hi hx)⟩
  rcases mapPages_spec (4096 * u) (4096 * n) hf (by omega) (by omega)
    (by rw [hfirst, hlast, hcount]; exact hu) hpa Sp (H.represents hi) with
    ⟨l, he, -⟩ | ⟨r', k₂, B₂, T₂, hrun₂, -, hg, -⟩
  · rw [hrun] at he
    cases he
  · rw [hrun] at hrun₂
    cases hrun₂
    refine fun x hx => hg.keep x ⟨.inr hx, ?_⟩
    rintro ⟨a, ha, hl, hu'⟩
    obtain ⟨s, rfl, hs⟩ := H.tableBlock hi ha
    have := hx.apart (H.alloc.block_bound hs)
    simp only [pow_zero] at this
    omega

end

/-! ### A success -/

/-- For each bit of the page count below `j` one block of zeros, at the place that the bits below it
give. -/
def Chunks (reg : Region) (B : Blocks) (A : AddrSpace) (m : Mem) (v n j : Nat) : Prop :=
  ∀ c < j, n.testBit c = true → ∃ s, B s = some ⟨c, true⟩ ∧
    (∀ d < 2 ^ c, A.pages (v + n % 2 ^ c + d) = some (s + d)) ∧
    ∀ x, reg.addr s ≤ x → x < reg.addr s + 4096 * 2 ^ c → m x = 0

section

variable {reg : Region} {arch : Arch} {k k' : Kernel BuddyAllocator} {B B' : Blocks}
  {Base : Nat → Nat → Prop} {ι : Type} [DecidableEq ι] {W : Spaces ι} {i : ι}
  {A A' : AddrSpace}
  {B₀ : Blocks} {A₀ : AddrSpace} {v n j flags : Nat}

theorem ok_bind_zero {α : Type} {x : Except Fault (α × Kernel BuddyAllocator)} {r : Nat}
    (h : (x >>= fun d => .ok (0, d.2)) = .ok (r, k')) : r = 0 := by
  cases x with
  | error f => cases h
  | ok d =>
    cases h
    rfl

theorem Chunks.skip (h : Chunks reg B A k.mem v n j) (hbit : n.testBit j = false) :
    Chunks reg B A k.mem v n (j + 1) := by
  intro c hc hb
  by_cases hcj : c = j
  · rw [hcj, hbit] at hb
    cases hb
  · exact h c (by omega) hb

omit [DecidableEq ι] in
/-- One more block. -/
theorem Chunks.block {s : Nat} (H : World reg arch k B Base W) (hi : W i = some A)
    (h : Chunks reg B A k.mem v n j) (hkeep : AgreeOn (reg.Other B A.tables) k.mem k'.mem)
    (hc : Chunk reg B A B' A' k'.mem s (v + n % 2 ^ j) j) :
    Chunks reg B' A' k'.mem v n (j + 1) := by
  intro c hcj hb
  rcases Nat.lt_or_eq_of_le (Nat.le_of_lt_succ hcj) with hlt | rfl
  · obtain ⟨t, ht, hpages, hzero⟩ := h c hlt hb
    have hbefore := mod_two_pow_apart hb hlt
    have hstart := hpages 0 (Nat.two_pow_pos c)
    refine ⟨t, hc.used ht, fun d hd => ?_, fun x hl hu => ?_⟩
    · rw [hc.outside _ (by omega), hpages d hd]
    · rw [hkeep x (H.other_of_block hi ht hl hu fun htab =>
        H.owners.pageTable ⟨A, hi, hstart⟩ ⟨A, hi, htab⟩), hzero x hl hu]
  · exact ⟨s, hc.block, hc.inside, hc.zero⟩

theorem bit_lt {c : Nat} (hn : n < 2 ^ j) (hbit : n.testBit c = true) : c < j := by
  by_contra hc
  have hle : 2 ^ j ≤ 2 ^ c := Nat.pow_le_pow_right (by decide) (by omega)
  rw [Nat.testBit_lt_two_pow (by omega)] at hbit
  cases hbit

omit [DecidableEq ι] in
/-- No bit of the page count is left. -/
theorem Chunks.full {m : Mem} (h : Chunks reg B A m v n j) (hlt : n < 2 ^ j) :
    Chunks reg B A m v n 64 := by
  intro c _ hb
  exact h c (bit_lt hlt hb) hb

omit [DecidableEq ι] in
/-- A block that is allocated, cleared and mapped is in the region. -/
theorem World.allocChunk_far (H : World reg arch k B Base W) (hw : reg.InWindow arch)
    (hi : W i = some A) {s o u : Nat} {k₁ : Kernel BuddyAllocator} {r : Bool} (ho : o ≤ 31)
    (hf : LeafFlags arch flags) (hu : PageRange arch A.base u (2 ^ o))
    (hrun₁ : pmmAllocPages buddyPages k (2 ^ o) = .ok (some (reg.addr s), k₁))
    (hrun₂ : mapPages arch buddyPages (clearPages k₁ (reg.addr s) (2 ^ o)) ⟨A.root, true⟩
      (4096 * u) (4096 * 2 ^ o) (reg.addr s) flags = .ok (r, k')) :
        AgreeOn reg.Far k.mem k'.mem := by
  have hpos := Nat.two_pow_pos o
  have hle : 2 ^ o ≤ 2 ^ 31 := Nat.pow_le_pow_right (by decide) ho
  have hfar := pmmAllocPages_far H.alloc hpos hle hrun₁
  rcases H.allocPages hpos hle with ⟨hnone, -⟩ | ⟨s', k₁', B₁, hsome, ha, H₁, -⟩
  · rw [hrun₁] at hnone
    cases hnone
  rw [hrun₁] at hsome
  obtain ⟨he, rfl⟩ : reg.addr s = reg.addr s' ∧ k₁ = k₁' := by simpa using hsome
  obtain rfl := Region.addr_inj he
  rw [Nat.clog_pow 2 o (by decide)] at ha H₁
  have hb := H₁.alloc.block_bound ((ha.used s o).mpr (.inl ⟨rfl, rfl⟩))
  simp only at hb
  have hlt : reg.addr s < 2 ^ 64 := by
    have hs : s < reg.pages := by omega
    have := Region.page_bound hs
    have := reg.end_le
    omega
  have hclear : ∀ x, x < reg.addr s ∨ reg.addr s + 4096 * 2 ^ o ≤ x →
      (clearPages k₁ (reg.addr s) (2 ^ o)).mem x = k₁.mem x := fun x hx =>
    Mem.fill_outside (by unfold pageSize; omega)
  have H₁' : World reg arch (clearPages k₁ (reg.addr s) (2 ^ o)) B₁ _ W :=
    H₁.write_base (.inl ⟨rfl, rfl⟩) hclear
  intro x hx
  rw [H₁'.mapPages_far hw hi hlt hpos hf hu hrun₂ x hx, hclear x (hx.apart hb), hfar x hx]

/-! ### The turns of the loop -/

/-- The loop of `vm_alloc` for `npg` pages at `oa`, called at `k₀`, comes to the turn `j` with the
kernel `k`: each bit below `j` that is set has had its block taken and mapped. -/
inductive AllocTurns (arch : Arch) (pt : PageTable) (e w u : Bool) (oa npg : Nat)
    (k₀ : Kernel BuddyAllocator) : Kernel BuddyAllocator → Nat → Prop
  | start : AllocTurns arch pt e w u oa npg k₀ k₀ 0
  | skip {k : Kernel BuddyAllocator} {j : Nat} (h : AllocTurns arch pt e w u oa npg k₀ k j)
      (hle : 2 ^ j ≤ npg) (hbit : npg.testBit j = false) :
      AllocTurns arch pt e w u oa npg k₀ k (j + 1)
  | block {k k₁ k₂ : Kernel BuddyAllocator} {j mem : Nat}
      (h : AllocTurns arch pt e w u oa npg k₀ k j) (hbit : npg.testBit j = true)
      (halloc : pmmAllocPages buddyPages k (2 ^ j) = .ok (some mem, k₁))
      (hmap : vmAllocMap arch buddyPages e w u (clearPages k₁ mem (2 ^ j)) pt
        (wordAdd oa (4096 * (npg % 2 ^ j))) (4096 * 2 ^ j) mem = .ok (true, k₂)) :
      AllocTurns arch pt e w u oa npg k₀ k₂ (j + 1)

section Turns

variable {pt : PageTable} {e w u : Bool} {oa npg : Nat} {k₀ k₁ : Kernel BuddyAllocator}

theorem mod_two_pow_of_set (hbit : npg.testBit j = true) :
    npg % 2 ^ (j + 1) = npg % 2 ^ j + 2 ^ j := by
  rw [mod_two_pow_succ, hbit, Bool.toNat_true, Nat.mul_one]

theorem mod_two_pow_of_unset (hbit : npg.testBit j = false) :
    npg % 2 ^ (j + 1) = npg % 2 ^ j := by
  rw [mod_two_pow_succ, hbit, Bool.toNat_false, Nat.mul_zero, Nat.add_zero]

theorem le_of_bit (hbit : npg.testBit j = true) : npg % 2 ^ j + 2 ^ j ≤ npg := by
  rw [← mod_two_pow_of_set hbit]
  exact Nat.mod_le _ _

/-- The turn of a bit that is set. -/
theorem vmAllocLoop_set {newSz hasAlloc : Nat} (hbit : npg.testBit j = true) (hj : j < 64) :
    vmAllocLoop arch buddyPages pt e w u oa npg newSz (64 - j) k j hasAlloc = (do
      let r ← pmmAllocPages buddyPages k (2 ^ j)
      match r.1 with
      | none => do
        let d ← vmDealloc arch buddyPages r.2 pt (wordAdd oa hasAlloc) oa
        .ok (0, d.2)
      | some mem => do
        let f ← vmAllocMap arch buddyPages e w u (clearPages r.2 mem (2 ^ j)) pt
          (wordAdd oa hasAlloc) (4096 * 2 ^ j) mem
        if f.1 then
          vmAllocLoop arch buddyPages pt e w u oa npg newSz (64 - (j + 1)) f.2 (j + 1)
            (hasAlloc + 4096 * 2 ^ j)
        else do
          let g ← pmmFreePages buddyPages f.2 mem
          let d ← vmDealloc arch buddyPages g.2 pt (wordAdd oa hasAlloc) oa
          .ok (0, d.2)) := by
  have hle := le_of_bit hbit
  rw [show 64 - j = 64 - (j + 1) + 1 by omega, vmAllocLoop, if_neg (by omega), hbit, if_pos rfl]
  rfl

/-- The loop is as far from its end as the turn says. -/
theorem AllocTurns.run (h : AllocTurns arch pt e w u oa npg k₀ k j) (hn : npg < 2 ^ 64)
    (newSz : Nat) : j ≤ 64 ∧
      vmAllocLoop arch buddyPages pt e w u oa npg newSz 64 k₀ 0 0 =
        vmAllocLoop arch buddyPages pt e w u oa npg newSz (64 - j) k j (4096 * (npg % 2 ^ j)) := by
  induction h with
  | start => exact ⟨by omega, by rw [pow_zero, Nat.mod_one]⟩
  | @skip k j _ hle hbit ih =>
    have hj : j < 64 := by
      by_contra hc
      have : 2 ^ 64 ≤ 2 ^ j := Nat.pow_le_pow_right (by decide) (by omega)
      omega
    refine ⟨by omega, ih.2.trans ?_⟩
    rw [show 64 - j = 64 - (j + 1) + 1 by omega, vmAllocLoop, if_neg (by omega), hbit,
      if_neg (by simp), mod_two_pow_of_unset hbit]
  | @block k k₁ k₂ j mem _ hbit halloc hmap ih =>
    have hj := bit_lt hn hbit
    refine ⟨by omega, ih.2.trans ?_⟩
    rw [vmAllocLoop_set hbit hj, halloc, ok_bind]
    simp only
    rw [hmap, ok_bind]
    simp only [if_true]
    rw [mod_two_pow_of_set hbit, Nat.mul_add]

/-- The loop ends where no bit is left. -/
theorem AllocTurns.stop {newSz hasAlloc fuel : Nat} (hend : npg < 2 ^ j) :
    vmAllocLoop arch buddyPages pt e w u oa npg newSz fuel k j hasAlloc = .ok (newSz, k) := by
  cases fuel with
  | zero => rfl
  | succ fuel => rw [vmAllocLoop, if_pos hend]

/-- The turn at which the loop ends: no bit is left, or the block of the bit cannot be taken and
mapped. -/
theorem AllocTurns.last (arch : Arch) (pt : PageTable) (e w u : Bool) (oa : Nat)
    (k₀ : Kernel BuddyAllocator) (hn : npg < 2 ^ 64) :
    ∃ k j, AllocTurns arch pt e w u oa npg k₀ k j ∧ (npg < 2 ^ j ∨ (npg.testBit j = true ∧
      ¬∃ mem k₁ k₂, pmmAllocPages buddyPages k (2 ^ j) = .ok (some mem, k₁) ∧
        vmAllocMap arch buddyPages e w u (clearPages k₁ mem (2 ^ j)) pt
          (wordAdd oa (4096 * (npg % 2 ^ j))) (4096 * 2 ^ j) mem = .ok (true, k₂))) := by
  -- by induction on the turns that are left
  suffices hfrom : ∀ fuel k j, fuel + j = 64 → AllocTurns arch pt e w u oa npg k₀ k j →
      ∃ k j, AllocTurns arch pt e w u oa npg k₀ k j ∧
        (npg < 2 ^ j ∨ (npg.testBit j = true ∧ ¬∃ mem k₁ k₂,
          pmmAllocPages buddyPages k (2 ^ j) = .ok (some mem, k₁) ∧
          vmAllocMap arch buddyPages e w u (clearPages k₁ mem (2 ^ j)) pt
            (wordAdd oa (4096 * (npg % 2 ^ j))) (4096 * 2 ^ j) mem = .ok (true, k₂))) from
    hfrom 64 k₀ 0 rfl .start
  intro fuel
  induction fuel with
  | zero =>
    intro k j hj h
    rw [Nat.zero_add] at hj
    subst hj
    exact ⟨k, 64, h, .inl hn⟩
  | succ fuel ih =>
    intro k j hj h
    by_cases hstop : npg < 2 ^ j
    · exact ⟨k, j, h, .inl hstop⟩
    cases hbit : npg.testBit j with
    | false => exact ih k (j + 1) (by omega) (h.skip (by omega) hbit)
    | true =>
      by_cases hgo : ∃ mem k₁ k₂, pmmAllocPages buddyPages k (2 ^ j) =
          .ok (some mem, k₁) ∧ vmAllocMap arch buddyPages e w u (clearPages k₁ mem (2 ^ j)) pt
            (wordAdd oa (4096 * (npg % 2 ^ j))) (4096 * 2 ^ j) mem = .ok (true, k₂)
      · obtain ⟨mem, k₁, k₂, halloc, hmap⟩ := hgo
        exact ih k₂ (j + 1) (by omega) (h.block hbit halloc hmap)
      · exact ⟨k, j, h, .inr ⟨hbit, hgo⟩⟩

end Turns

/-- The state of the loop of `vm_alloc` at the turn `j`. -/
structure AtTurn (reg : Region) (arch : Arch) (Base : Nat → Nat → Prop) (W : Spaces ι) (i : ι)
    (k₀ : Kernel BuddyAllocator) (B₀ : Blocks) (A₀ : AddrSpace) (v npg flags j : Nat)
    (k : Kernel BuddyAllocator) (B : Blocks) (A : AddrSpace) : Prop where
  world : World reg arch k B Base (Function.update W i (some A))
  ext : Extended reg arch B₀ A₀ B A v (npg % 2 ^ j) flags
  keep : AgreeOn (reg.Other B₀ A₀.tables) k₀.mem k.mem
  far : AgreeOn reg.Far k₀.mem k.mem
  chunks : Chunks reg B A k.mem v npg j

/-- What `vm_alloc` is called with: an address space and a range of pages that are told apart. -/
structure AllocCall (reg : Region) (arch : Arch) (k : Kernel BuddyAllocator) (B : Blocks)
    (Base : Nat → Nat → Prop) (W : Spaces ι) (i : ι) (A : AddrSpace) (v npg : Nat) :
      Prop where
  world : World reg arch k B Base W
  window : reg.InWindow arch
  space : W i = some A
  range : PageRange arch A.base v npg
  fits : v + npg < 2 ^ 52

section Turn

variable {e w u : Bool} {npg : Nat} {k₀ : Kernel BuddyAllocator}

omit [DecidableEq ι] in
theorem AllocCall.addr (C : AllocCall reg arch k₀ B₀ Base W i A₀ v npg) (j : Nat) :
    wordAdd (4096 * v) (4096 * (npg % 2 ^ j)) = 4096 * (v + npg % 2 ^ j) := by
  have := C.fits
  have := Nat.mod_le npg (2 ^ j)
  unfold wordAdd wordSize
  omega

/-- The turn of a bit that is set: the block is too large; or there is none; or a table cannot be
added; or the block is mapped; or one of its pages is mapped already. -/
theorem AllocCall.turn (C : AllocCall reg arch k₀ B₀ Base W i A₀ v npg)
    (T : AtTurn reg arch Base W i k₀ B₀ A₀ v npg (vmAllocFlags arch e w u) j k B A)
    (hbit : npg.testBit j = true) :
    (∃ f, pmmAllocPages buddyPages k (2 ^ j) = .error f) ∨
      pmmAllocPages buddyPages k (2 ^ j) = .ok (none, k) ∨
      ∃ s k₁, pmmAllocPages buddyPages k (2 ^ j) = .ok (some (reg.addr s), k₁) ∧
        ((∃ f, vmAllocMap arch buddyPages e w u (clearPages k₁ (reg.addr s) (2 ^ j))
            ⟨A₀.root, true⟩ (wordAdd (4096 * v) (4096 * (npg % 2 ^ j))) (4096 * 2 ^ j)
            (reg.addr s) = .error f) ∨
          (∃ k₂ B₂ A₂, vmAllocMap arch buddyPages e w u
              (clearPages k₁ (reg.addr s) (2 ^ j))
              ⟨A₀.root, true⟩ (wordAdd (4096 * v) (4096 * (npg % 2 ^ j))) (4096 * 2 ^ j)
              (reg.addr s) = .ok (true, k₂) ∧
            AtTurn reg arch Base W i k₀ B₀ A₀ v npg (vmAllocFlags arch e w u)
            (j + 1) k₂ B₂ A₂) ∨
          ∃ k₂ r k₃ B₃ T₃, vmAllocMap arch buddyPages e w u
              (clearPages k₁ (reg.addr s) (2 ^ j))
              ⟨A₀.root, true⟩ (wordAdd (4096 * v) (4096 * (npg % 2 ^ j))) (4096 * 2 ^ j)
              (reg.addr s) = .ok (false, k₂) ∧
            pmmFreePages buddyPages k₂ (reg.addr s) = .ok (r, k₃) ∧
            World reg arch k₃ B₃ Base (Function.update W i (some { A with
              tables := T₃
              map := A.map.map arch (v + npg % 2 ^ j) (v + npg % 2 ^ j + 2 ^ j - 1) (reg.addr s)
                (vmAllocFlags arch e w u) })) ∧
            Extended reg arch B₀ A₀ B₃ { A with tables := T₃ } v (npg % 2 ^ j)
              (vmAllocFlags arch e w u) ∧
            ¬A.map.Clear (v + npg % 2 ^ j) (v + npg % 2 ^ j + 2 ^ j - 1)) := by
  have hi : Function.update W i (some A) i = some A := Function.update_self ..
  have hle := le_of_bit hbit
  have hroot : A.root = A₀.root := T.ext.root
  have hbase : A.base = A₀.base := T.ext.base
  have hf := leafFlags_vmAlloc arch e w u
  have hnext : PageRange arch A.base (v + npg % 2 ^ j) (2 ^ j) := by
    rw [hbase]
    exact C.range.sub (by omega) (by omega)
  by_cases hj : 32 ≤ j
  · exact .inl ⟨_, pmmAllocPages_large k (Nat.pow_le_pow_right (by decide) hj)⟩
  simp only [C.addr, vmAllocMap_eq, ← hroot]
  right
  rcases T.world.allocChunk C.window hi T.ext hf (by omega) fun _ => hnext with
    ⟨hnone, -⟩ | ⟨s, k₁, hrun₁,
      ⟨l, hrun₂, -⟩ | ⟨k₂, B₂, A₂, hrun₂, H₂, E₂, hkeep₂, hc⟩ |
      ⟨k₂, r, k₃, B₃, T₃, hrun₂, hrun₃, H₃, E₃, hclear, -⟩⟩
  · exact .inl hnone
  · exact .inr ⟨s, k₁, hrun₁, .inl ⟨_, hrun₂⟩⟩
  · rw [Function.update_idem] at H₂
    refine .inr ⟨s, k₁, hrun₁,
      .inr (.inl ⟨k₂, B₂, A₂, hrun₂, H₂, ?_, fun x hx => ?_,
      fun x hx => ?_, T.chunks.block T.world hi hkeep₂ hc⟩)⟩
    · rw [mod_two_pow_of_set hbit]
      exact E₂
    · rw [hkeep₂ x (T.ext.other T.world hi rfl hx), T.keep x hx]
    · rw [T.world.allocChunk_far C.window hi (by omega) hf hnext hrun₁ hrun₂ x hx, T.far x hx]
  · rw [Function.update_idem] at H₃
    exact .inr ⟨s, k₁, hrun₁,
      .inr (.inr ⟨k₂, r, k₃, B₃, T₃, hrun₂, hrun₃, H₃, E₃, hclear⟩)⟩

theorem AllocCall.atTurn (C : AllocCall reg arch k₀ B₀ Base W i A₀ v npg)
    (h : AllocTurns arch ⟨A₀.root, true⟩ e w u (4096 * v) npg k₀ k j) :
    ∃ B A, AtTurn reg arch Base W i k₀ B₀ A₀ v npg (vmAllocFlags arch e w u) j k B A := by
  induction h with
  | start =>
    refine ⟨B₀, A₀, ?_, ?_, fun _ _ => rfl, fun _ _ => rfl,
      fun c hc => absurd hc (by omega)⟩
    · rw [Function.update_eq_self_iff.mpr C.space.symm]
      exact C.world
    · rw [pow_zero, Nat.mod_one]
      exact .refl ..
  | skip _ _ hbit ih =>
    obtain ⟨B, A, T⟩ := ih
    exact ⟨B, A, T.world, by rw [mod_two_pow_of_unset hbit]; exact T.ext, T.keep, T.far,
      T.chunks.skip hbit⟩
  | @block k k₁ k₂ j mem _ hbit halloc hmap ih =>
    obtain ⟨B, A, T⟩ := ih
    rcases C.turn T hbit with ⟨f, hf⟩ | hnone | ⟨s, k₁', halloc', ⟨f, hf⟩ |
      ⟨k₂', B₂, A₂, hmap', T₂⟩ | ⟨k₂', r, k₃, B₃, T₃, hmap', -⟩⟩
    · rw [halloc] at hf
      cases hf
    · rw [halloc] at hnone
      cases hnone
    all_goals
      rw [halloc] at halloc'
      cases halloc'
    · rw [hmap] at hf
      cases hf
    · rw [hmap] at hmap'
      cases hmap'
      exact ⟨B₂, A₂, T₂⟩
    · rw [hmap] at hmap'
      cases hmap'

/-- A loop that returns a size has come to its end. -/
theorem AllocCall.done (C : AllocCall reg arch k₀ B₀ Base W i A₀ v npg) {newSz r : Nat}
    (hr : r ≠ 0) (hrun : vmAllocLoop arch buddyPages ⟨A₀.root, true⟩ e w u (4096 * v)
      npg newSz 64 k₀ 0 0 = .ok (r, k')) :
    r = newSz ∧ ∃ j B' A', npg < 2 ^ j ∧
      AtTurn reg arch Base W i k₀ B₀ A₀ v npg (vmAllocFlags arch e w u) j k' B' A' := by
  have hn : npg < 2 ^ 64 := by
    have := C.fits
    omega
  obtain ⟨k, j, hturns, hlast⟩ :=
    AllocTurns.last arch ⟨A₀.root, true⟩ e w u (4096 * v) k₀ hn
  obtain ⟨hj, hcont⟩ := hturns.run hn newSz
  obtain ⟨B, A, T⟩ := C.atTurn hturns
  rw [hcont] at hrun
  rcases hlast with hend | ⟨hbit, hstuck⟩
  · rw [AllocTurns.stop hend] at hrun
    cases hrun
    exact ⟨rfl, j, B, A, hend, T⟩
  rw [vmAllocLoop_set hbit (bit_lt hn hbit)] at hrun
  rcases C.turn T hbit with ⟨f, hf⟩ | hnone | ⟨s, k₁, halloc,
    ⟨f, hf⟩ | ⟨k₂, B₂, A₂, hmap, -⟩ |
    ⟨k₂, r', k₃, B₃, T₃, hmap, hfree, -⟩⟩
  · rw [hf, error_bind] at hrun
    cases hrun
  · rw [hnone, ok_bind] at hrun
    exact absurd (ok_bind_zero hrun) hr
  all_goals
    rw [halloc, ok_bind] at hrun
    simp only at hrun
  · rw [hf, error_bind] at hrun
    cases hrun
  · exact absurd ⟨_, _, _, halloc, hmap⟩ hstuck
  · rw [hmap, ok_bind] at hrun
    simp only [Bool.false_eq_true, if_false] at hrun
    rw [hfree, ok_bind] at hrun
    exact absurd (ok_bind_zero hrun) hr

end Turn

/-- The pages of all blocks are the pages of the range, each in one block. -/
theorem chunk_cover {w : Nat} (hn : n < 2 ^ 64) (hl : v ≤ w) (hu : w < v + n) :
    ∃ c, n.testBit c = true ∧ v + n % 2 ^ c ≤ w ∧ w < v + n % 2 ^ c + 2 ^ c := by
  obtain ⟨a, o, hA, hl', hu'⟩ := binaryAreas_cover (N := n) (k := 64) (p := w - v)
    (by rw [Nat.mod_eq_of_lt hn]; omega)
  obtain ⟨-, hbit, rfl⟩ := binaryAreas_mem.mp hA
  exact ⟨o, hbit, by omega, by omega⟩

/-- `vm_alloc` has mapped the `n` pages from `v` on. -/
structure VmAllocated (reg : Region) (arch : Arch) (k : Kernel BuddyAllocator) (B : Blocks)
    (A : AddrSpace) (k' : Kernel BuddyAllocator) (B' : Blocks) (A' : AddrSpace) (v n flags : Nat) :
    Prop where
  /-- Each page of the range is mapped to a page of zeros that was free. -/
  mapped : ∀ w, v ≤ w → w < v + n → ∃ p, A'.pages w = some p ∧
    entryOf arch buddyPages k' ⟨A.root, true⟩ (4096 * w) =
      Mapping.data arch ⟨arch.toPhy (reg.addr p), flags⟩ ∧
    Unused B p ∧ ∀ x, reg.addr p ≤ x → x < reg.addr p + 4096 → k'.mem x = 0
  distinct : ∀ w w' p, A'.pages w = some p → A'.pages w' = some p → w = w'
  /-- Each bit of the page count has its block, at the place that the bits below it give. -/
  block : ∀ c, n.testBit c = true → ∃ s, B' s = some ⟨c, true⟩ ∧
    ∀ d < 2 ^ c, A'.pages (v + n % 2 ^ c + d) = some (s + d)
  cover : ∀ w, v ≤ w → w < v + n →
    ∃ c, n.testBit c = true ∧ v + n % 2 ^ c ≤ w ∧ w < v + n % 2 ^ c + 2 ^ c
  /-- The blocks in use are those from before, these blocks, and tables. -/
  used : ∀ s c, B' s = some ⟨c, true⟩ ↔ B s = some ⟨c, true⟩ ∨
    (n.testBit c = true ∧ A'.pages (v + n % 2 ^ c) = some s) ∨
    (c = 0 ∧ IsTable A'.tables (reg.addr s))
  /-- Nothing else of the address space has changed. -/
  entries : ∀ w, InSpan arch A.base w → w < v ∨ v + n ≤ w →
    entryOf arch buddyPages k' ⟨A.root, true⟩ (4096 * w) =
      entryOf arch buddyPages k ⟨A.root, true⟩ (4096 * w)
  pages : ∀ w, w < v ∨ v + n ≤ w → A'.pages w = A.pages w
  contents : ∀ w p x, A.pages w = some p → reg.addr p ≤ x → x < reg.addr p + 4096 →
    k'.mem x = k.mem x
  keep : ∀ x, reg.Used B x ∨ reg.Far x → ¬TableByte A.tables x → k'.mem x = k.mem x

omit [DecidableEq ι] in
/-- The leaf entry of a page number that is told apart. -/
theorem World.entryOf_data (H : World reg arch k B Base W) (hi : W i = some A) {w : Nat}
    (hw : InSpan arch A.base w) : entryOf arch buddyPages k ⟨A.root, true⟩ (4096 * w) =
      ((A.map w).map (·.data arch)).getD 0 := by
  rw [(H.tables hi).entryOf_eq, Nat.mul_div_cancel_left w (by decide)]
  cases hM : A.map w with
  | none => exact (H.represents hi).of_none hM hw
  | some mp => exact ((H.represents hi).of_some hM).1

/-- The blocks in use after a success. -/
theorem Extended.used_iff (H : World reg arch k B₀ Base W) (hi : W i = some A₀)
    (H' : World reg arch k' B' Base (Function.update W i (some A')))
    (E : Extended reg arch B₀ A₀ B' A' v n flags) (hn : n < 2 ^ 64)
    (hchunks : Chunks reg B' A' k'.mem v n 64) (s c : Nat) :
    B' s = some ⟨c, true⟩ ↔ B₀ s = some ⟨c, true⟩ ∨
      (n.testBit c = true ∧ A'.pages (v + n % 2 ^ c) = some s) ∨
      (c = 0 ∧ IsTable A'.tables (reg.addr s)) := by
  have hi' : Function.update W i (some A') i = some A' := Function.update_self ..
  constructor
  · intro hs
    rcases H'.owners.cover hs with hb | ⟨j, A'', hj, ht⟩ | ⟨j, w, A'', hj, hp⟩
    · exact .inl (H.owners.base hb)
    · rcases Spaces.update_eq hj with ⟨rfl, rfl⟩ | ⟨-, hj⟩
      · rw [H'.owners.table ⟨_, hi', ht⟩] at hs
        cases hs
        exact .inr (.inr ⟨rfl, ht⟩)
      · have hB := H.owners.table ⟨_, hj, ht⟩
        rw [E.used hB] at hs
        cases hs
        exact .inl hB
    · -- the page is the first of its block
      by_cases hin : j = i ∧ v ≤ w ∧ w < v + n
      · obtain ⟨rfl, hl, hu⟩ := hin
        rw [hi'] at hj
        cases hj
        obtain ⟨c', hbit, hl', hu'⟩ := chunk_cover hn hl hu
        obtain ⟨t, ht, hpages, -⟩ := hchunks c' (bit_lt hn hbit) hbit
        have hw := hpages (w - (v + n % 2 ^ c')) (by omega)
        rw [Nat.add_sub_cancel' hl', hp] at hw
        cases hw
        have hd0 := H'.alloc.inv.rep.part.start_eq ht (d := w - (v + n % 2 ^ c')) (by
          simp only
          omega) hs
        rw [hd0, Nat.add_zero] at hs hp ⊢
        rw [ht] at hs
        cases hs
        rw [show w = v + n % 2 ^ c by omega] at hp
        exact .inr (.inl ⟨hbit, hp⟩)
      · have hold : W.Page j w s := by
          rcases Spaces.update_eq hj with ⟨rfl, rfl⟩ | ⟨-, hj⟩
          · have hout : w < v ∨ v + n ≤ w := by
              by_contra hc
              exact hin ⟨rfl, by omega, by omega⟩
            exact ⟨A₀, hi, by rw [← (E.outside w hout).2]; exact hp⟩
          · exact ⟨A'', hj, hp⟩
        obtain ⟨t, o, d, ht, rfl, hd, -, -⟩ := H.owners.backed hold
        have hd0 := H'.alloc.inv.rep.part.start_eq (E.used ht) hd hs
        subst hd0
        rw [Nat.add_zero] at hs ⊢
        rw [E.used ht] at hs
        cases hs
        exact .inl ht
  · rintro (hs | ⟨hbit, hp⟩ | ⟨rfl, ht⟩)
    · exact E.used hs
    · obtain ⟨t, ht, hpages, -⟩ := hchunks c (bit_lt hn hbit) hbit
      have h0 := hpages 0 (Nat.two_pow_pos c)
      rw [Nat.add_zero, hp] at h0
      cases h0
      exact ht
    · exact H'.owners.table ⟨A', hi', ht⟩

/-- The page count of a call, and its loop. -/
theorem vmAlloc_eq {pt : PageTable} {oldSz newSz : Nat} (e w u : Bool) (hle : oldSz ≤ newSz)
    (hlt : newSz ≤ 2 ^ 64 - 4096) :
    vmAlloc arch buddyPages k pt oldSz newSz e w u =
      vmAllocLoop arch buddyPages pt e w u (4096 * pageCeil oldSz)
        (pageCeil newSz - pageCeil oldSz) newSz 64 k 0 0 := by
  have hmono : pageCeil oldSz ≤ pageCeil newSz := pageCeil_mono hle
  have hlast : pageCeil newSz < 2 ^ 52 := by
    unfold pageCeil
    omega
  have hn : wordSub (4096 * pageCeil newSz) (4096 * pageCeil oldSz) / pageSize =
      pageCeil newSz - pageCeil oldSz := by
    rw [wordSub_of_le (by omega) (by omega), ← Nat.mul_sub, show pageSize = 4096 from rfl,
      Nat.mul_div_cancel_left _ (by decide)]
  unfold Mm.vmAlloc
  rw [if_neg (by omega), pageRoundUp_pageCeil (by omega), pageRoundUp_pageCeil (by omega)]
  simp only
  rw [hn]

omit [DecidableEq ι] in
/-- A call for a range of page numbers that are told apart. -/
theorem World.allocCall (H : World reg arch k B Base W) (hw : reg.InWindow arch)
    (hi : W i = some A) {oldSz newSz : Nat} (hle : oldSz ≤ newSz) (hlt : newSz ≤ 2 ^ 64 - 4096)
    (hend : PageRange arch A.base (pageCeil oldSz) (pageCeil newSz - pageCeil oldSz)) :
    AllocCall reg arch k B Base W i A (pageCeil oldSz) (pageCeil newSz - pageCeil oldSz) := by
  refine ⟨H, hw, hi, hend, ?_⟩
  have := pageCeil_mono hle
  have hlast : pageCeil newSz < 2 ^ 52 := by
    unfold pageCeil
    omega
  omega

/-- What the loop has mapped at its end. -/
theorem AtTurn.allocated (C : AllocCall reg arch k B Base W i A v n) (hlt : n < 2 ^ j)
    (T : AtTurn reg arch Base W i k B A v n flags j k' B' A') :
    VmAllocated reg arch k B A k' B' A' v n flags := by
  have hi' : Function.update W i (some A') i = some A' := Function.update_self ..
  have H := C.world
  have hi := C.space
  have H' := T.world
  have E : Extended reg arch B A B' A' v n flags := by
    have := T.ext
    rwa [Nat.mod_eq_of_lt hlt] at this
  have hroot : A'.root = A.root := E.root
  have hbase : A'.base = A.base := E.base
  have hn : n < 2 ^ 64 := by
    have := C.fits
    omega
  refine ⟨fun w hl hu => ?_, fun w w' p hp hp' => ?_, fun c hbit => ?_,
    fun w hl hu => chunk_cover hn hl hu, E.used_iff H hi H' hn (T.chunks.full hlt),
    fun w hs hout => ?_, fun w hout => (E.outside w hout).2, fun w p x hp hl hu => ?_,
    fun x hx hnt => ?_⟩
  · obtain ⟨p, hp, hmap, hfresh⟩ := E.inside w hl hu
    refine ⟨p, hp, ?_, hfresh, fun x hlx hux => ?_⟩
    · rw [← hroot, H'.entryOf_data hi' (by rw [hbase]; exact C.range.inSpan hl hu), hmap]
      rfl
    · obtain ⟨c, hbit, hlc, huc⟩ := chunk_cover hn hl hu
      obtain ⟨s, -, hpages, hzero⟩ := T.chunks c (bit_lt hlt hbit) hbit
      have hps := hpages (w - (v + n % 2 ^ c)) (by omega)
      rw [Nat.add_sub_cancel' hlc, hp] at hps
      cases hps
      refine hzero x ?_ ?_ <;> simp only [Region.addr] at * <;> omega
  · exact (H'.owners.inj ⟨A', hi', hp⟩ ⟨A', hi', hp'⟩).2
  · obtain ⟨s, hs, hpages, -⟩ := T.chunks c (bit_lt hlt hbit) hbit
    exact ⟨s, hs, hpages⟩
  · rw [H.entryOf_data hi hs, ← hroot, H'.entryOf_data hi' (by rw [hbase]; exact hs),
      (E.outside w hout).1]
  · exact T.keep x (H.other_page hi hi hp hl hu)
  · rcases hx with hx | hx
    · exact T.keep x ⟨hx, hnt⟩
    · exact T.far x hx

/-- A call of `vm_alloc` that returns a size has mapped every page of the range to a new page of
zeros, in one block for each bit of the page count, and has changed nothing else. -/
theorem vmAlloc_success (H : World reg arch k B Base W) (hw : reg.InWindow arch)
    (hi : W i = some A) (e w u : Bool) {oldSz newSz r : Nat} (hle : oldSz ≤ newSz)
    (hlt : newSz ≤ 2 ^ 64 - 4096)
    (hend : PageRange arch A.base (pageCeil oldSz) (pageCeil newSz - pageCeil oldSz))
    (hrun : vmAlloc arch buddyPages k ⟨A.root, true⟩ oldSz newSz e w u = .ok (r, k'))
    (hr : r ≠ 0) :
    r = newSz ∧ ∃ B' A', World reg arch k' B' Base (Function.update W i (some A')) ∧
      VmAllocated reg arch k B A k' B' A' (pageCeil oldSz) (pageCeil newSz - pageCeil oldSz)
        (vmAllocFlags arch e w u) := by
  have C := H.allocCall hw hi hle hlt hend
  rw [vmAlloc_eq e w u hle hlt] at hrun
  obtain ⟨hsz, j, B', A', hj, T⟩ := C.done hr hrun
  exact ⟨hsz, B', A', T.world, T.allocated C hj⟩

end

/-- One page on the sample region. -/
theorem vmAlloc_success_sample : ∃ k k' B A B' A',
    vmAlloc .riscv buddyPages k ⟨A.root, true⟩ 0x10000 0x11000 false true true =
      .ok (0x11000, k') ∧ VmAllocated sampleRegion .riscv k B A k' B' A' 16 1
        (vmAllocFlags .riscv false true true) := by
  obtain ⟨pt, k, B, Base, A, -, I, hclear, hroom⟩ := sample_range 0x10000
  have hrange : PageRange .riscv A.base 16 1 :=
    ⟨by rw [I.base]; decide, by rw [I.base]; decide, by decide⟩
  obtain ⟨k', -, -, hrun, -⟩ := I.world.allocOne sampleRegion_inWindow (i := ()) rfl
    false true true 0x11000 hrange (hclear 16) hroom
  have hgrow : vmAlloc .riscv buddyPages k ⟨A.root, true⟩ 0x10000 0x11000 false true true =
      .ok (0x11000, k') := by
    rw [← hrun]
    rfl
  have hold : pageCeil 0x10000 = 16 := by decide
  have hnew : pageCeil 0x11000 - pageCeil 0x10000 = 1 := by decide
  obtain ⟨-, B', A', -, hA⟩ :=
    vmAlloc_success I.world sampleRegion_inWindow (i := ()) rfl false true
    true (by decide) (by decide) (by rw [hnew, hold]; exact hrange) hgrow (by decide)
  rw [hnew, hold] at hA
  exact ⟨k, k', B, A, B', A', hgrow, hA⟩

/-! ### A failure -/

section

variable {reg : Region} {arch : Arch} {k k' : Kernel BuddyAllocator} {B B' : Blocks}
  {Base : Nat → Nat → Prop} {ι : Type} [DecidableEq ι] {W : Spaces ι} {i : ι}
  {A A' : AddrSpace}
  {B₀ : Blocks} {A₀ : AddrSpace} {v n j flags : Nat}

/-- The leaf entries and the blocks in use other than tables are those from before. -/
structure VmAllocUndone (reg : Region) (arch : Arch) (pt : PageTable) (base : Nat)
    (k k' : Kernel BuddyAllocator) : Prop where
  entries : ∀ w, InSpan arch base w → entryOf arch buddyPages k' pt (4096 * w) =
    entryOf arch buddyPages k pt (4096 * w)
  blocks : ∀ T T', Tables arch k.mem pt.baseAddr T → Tables arch k'.mem pt.baseAddr T' →
    ∀ s c, (k'.blocks s = some ⟨c, true⟩ ∧ ¬IsTable T' (reg.addr s)) ↔
      (k.blocks s = some ⟨c, true⟩ ∧ ¬IsTable T (reg.addr s))

/-- The first mapped page of the `n` pages from `v` on is in the block of the bit `c`, after its
first page. -/
def PageMap.StopsInside (M : PageMap) (v n c : Nat) : Prop :=
  n.testBit c = true ∧ ∃ d, 0 < d ∧ d < 2 ^ c ∧
    (∀ w, v ≤ w → w < v + n % 2 ^ c + d → M w = none) ∧
    M (v + n % 2 ^ c + d) ≠ none

/-- The blocks of the bits below `c` can be taken and mapped, and then a block for the bit `c` can
be taken. -/
def BlockReached (arch : Arch) (pt : PageTable) (e w u : Bool) (oa npg : Nat)
    (k : Kernel BuddyAllocator) (c : Nat) : Prop :=
  ∃ k₁ mem k₂, AllocTurns arch pt e w u oa npg k k₁ c ∧
    pmmAllocPages buddyPages k₁ (2 ^ c) = .ok (some mem, k₂)

section Failure

variable {e w u : Bool} {npg newSz r : Nat} {k₀ : Kernel BuddyAllocator}
  {T' : Nat → Nat → Option Nat} {M' : PageMap}

omit [DecidableEq ι] in
/-- The blocks in use other than tables, where the space holds the pages that it held. -/
theorem Extended.leafBlocks (C : AllocCall reg arch k₀ B₀ Base W i A₀ v npg) {W' : Spaces ι}
    (H' : World reg arch k' B' Base W') (hi' : W' i = some { A₀ with tables := T', map := M' })
    (hother : ∀ j, j ≠ i → W' j = W j)
    (E : Extended reg arch B₀ A₀ B' { A₀ with tables := T' } v 0 flags) (s c : Nat) :
    (B' s = some ⟨c, true⟩ ∧ ¬IsTable T' (reg.addr s)) ↔
      (B₀ s = some ⟨c, true⟩ ∧ ¬IsTable A₀.tables (reg.addr s)) := by
  have H := C.world
  have hi := C.space
  constructor
  · rintro ⟨hs, hnt⟩
    have hnt₀ : ¬IsTable A₀.tables (reg.addr s) := fun ⟨l, q, hq⟩ =>
      hnt ⟨l, q, E.sub hq⟩
    refine ⟨?_, hnt₀⟩
    rcases H'.owners.cover hs with hb | ⟨j, A, hj, ht⟩ | ⟨j, w, A, hj, hp⟩
    · exact H.owners.base hb
    · by_cases hji : j = i
      · rw [hji, hi'] at hj
        cases hj
        exact absurd ht hnt
      · rw [hother j hji] at hj
        have hB := H.owners.table ⟨A, hj, ht⟩
        rw [E.used hB] at hs
        cases hs
        exact hB
    · have hold : W.Page j w s := by
        by_cases hji : j = i
        · rw [hji, hi'] at hj
          cases hj
          exact hji ▸ ⟨A₀, hi, hp⟩
        · rw [hother j hji] at hj
          exact ⟨A, hj, hp⟩
      obtain ⟨t, o, d, ht, rfl, hd, -, -⟩ := H.owners.backed hold
      have hd0 := H'.alloc.inv.rep.part.start_eq (E.used ht) hd hs
      subst hd0
      rw [Nat.add_zero] at hs ⊢
      rw [E.used ht] at hs
      cases hs
      exact ht
  · rintro ⟨hs, hnt⟩
    refine ⟨E.used hs, fun ht => ?_⟩
    rcases E.table ht with ht | ⟨t, he, hfresh⟩
    · exact hnt ht
    · rw [← Region.addr_inj he] at hfresh
      exact hfresh c hs

/-- Two sets of tables of one page table are the same. -/
theorem Tables.isTable_iff {m : Mem} {root a : Nat} {T T' : Nat → Nat → Option Nat}
    (h : Tables arch m root T) (h' : Tables arch m root T') : IsTable T a ↔ IsTable T' a :=
  ⟨fun ⟨l, q, hq⟩ => ⟨l, q, h.radix.unique h'.radix (by decide) hq⟩,
    fun ⟨l, q, hq⟩ => ⟨l, q, h'.radix.unique h.radix (by decide) hq⟩⟩

/-- A leaf entry determines the mapping. -/
theorem Represents.entry_inj {m m' : Mem} {T T' : Nat → Nat → Option Nat} {base x : Nat}
    {M M' : PageMap} (h : Represents arch m T base M) (h' : Represents arch m' T' base M')
    (he : ((M' x).map (·.data arch)).getD 0 = ((M x).map (·.data arch)).getD 0) : M' x = M x := by
  cases hM : M x with
  | none =>
    cases hM' : M' x with
    | none => rfl
    | some mp' =>
      have hval := (h'.of_some hM').2.isValid
      rw [hM, hM'] at he
      simp only [Option.map_some, Option.getD_some, Option.map_none, Option.getD_none] at he
      rw [he] at hval
      cases hval
  | some mp =>
    have hok := (h.of_some hM).2
    cases hM' : M' x with
    | none =>
      have hval := hok.isValid
      rw [hM, hM'] at he
      simp only [Option.map_some, Option.getD_some, Option.map_none, Option.getD_none] at he
      rw [← he] at hval
      cases hval
    | some mp' =>
      have hok' := (h'.of_some hM').2
      rw [hM, hM'] at he
      simp only [Option.map_some, Option.getD_some] at he
      have hpage := hok'.toPa
      have hflags := hok'.getFlags
      rw [he, hok.toPa] at hpage
      rw [he, hok.getFlags] at hflags
      cases mp
      cases mp'
      simp only at hpage hflags
      rw [hpage, hflags]

/-- The pages and the blocks are those from before where a call has failed; the leaf entries are
where the mappings are. -/
theorem Extended.undone_iff (C : AllocCall reg arch k₀ B₀ Base W i A₀ v npg)
    (H' : World reg arch k' B' Base
      (Function.update W i (some { A₀ with tables := T', map := M' })))
    (E : Extended reg arch B₀ A₀ B' { A₀ with tables := T' } v 0 flags) :
    VmAllocUndone reg arch ⟨A₀.root, true⟩ A₀.base k₀ k' ↔
      ∀ x, InSpan arch A₀.base x → M' x = A₀.map x := by
  have hi' : Function.update W i (some { A₀ with tables := T', map := M' }) i =
      some { A₀ with tables := T', map := M' } := Function.update_self ..
  have hent : ∀ x, InSpan arch A₀.base x →
      entryOf arch buddyPages k' ⟨A₀.root, true⟩ (4096 * x) =
        ((M' x).map (·.data arch)).getD 0 := fun x hx => H'.entryOf_data hi' hx
  have hB : k₀.blocks = B₀ := C.world.alloc.inv.rep.blocks_eq
  have hB' : k'.blocks = B' := H'.alloc.inv.rep.blocks_eq
  have hT' : Tables arch k'.mem A₀.root T' := H'.tables hi'
  constructor
  · intro hU x hx
    have he := hU.entries x hx
    rw [hent x hx, C.world.entryOf_data C.space hx] at he
    exact (C.world.represents C.space).entry_inj (H'.represents hi') he
  · intro hM
    refine ⟨fun x hx => ?_, fun T₁ T₂ h₁ h₂ s c => ?_⟩
    · rw [hent x hx, C.world.entryOf_data C.space hx, hM x hx]
    · rw [hB, hB', h₁.isTable_iff (C.world.tables C.space), h₂.isTable_iff hT']
      exact E.leafBlocks C H' hi' (fun j hj => Function.update_of_ne hj _ _) s c

omit [DecidableEq ι] in
theorem AllocCall.clear_pages (C : AllocCall reg arch k₀ B₀ Base W i A₀ v npg) (x : Nat)
    (hx : A₀.map x = none) : A₀.pages x = none := by
  cases hp : A₀.pages x with
  | none => rfl
  | some p =>
    obtain ⟨f, hf⟩ := C.world.mapped C.space hp
    rw [hx] at hf
    cases hf

/-- The turn at which no block is left for the bit: everything is undone. -/
theorem AllocCall.noBlock (C : AllocCall reg arch k₀ B₀ Base W i A₀ v npg)
    (hsize : reg.pages < 2 ^ 31)
    (T : AtTurn reg arch Base W i k₀ B₀ A₀ v npg (vmAllocFlags arch e w u) j k B A)
    (hbit : npg.testBit j = true) (hnone : pmmAllocPages buddyPages k (2 ^ j) = .ok (none, k))
    (hrun : vmAllocLoop arch buddyPages ⟨A₀.root, true⟩ e w u (4096 * v) npg newSz (64 - j)
      k j (4096 * (npg % 2 ^ j)) = .ok (r, k')) :
    VmAllocUndone reg arch ⟨A₀.root, true⟩ A₀.base k₀ k' := by
  have hlt := C.fits
  have hj := bit_lt (j := 64) (by omega) hbit
  have hle := le_of_bit hbit
  rw [vmAllocLoop_set hbit hj, hnone, ok_bind, C.addr] at hrun
  simp only at hrun
  obtain ⟨r', k'', B', hback, H', E', -⟩ := World.rollback (A := A) (T := A.tables) (M := A.map)
    C.window hsize T.ext T.world C.clear_pages (C.range.sub (Nat.le_refl v) (by omega)) (by omega)
  rw [hback, ok_bind] at hrun
  cases hrun
  refine (E'.undone_iff C H').mpr fun x _ => ?_
  rw [T.ext.unmap_map]

/-- The turn at which a page of the block is mapped already: everything is undone but the mappings
of the pages before it in the block. -/
theorem AllocCall.noMap (C : AllocCall reg arch k₀ B₀ Base W i A₀ v npg)
    (hsize : reg.pages < 2 ^ 31)
    (T : AtTurn reg arch Base W i k₀ B₀ A₀ v npg (vmAllocFlags arch e w u) j k B A)
    (hbit : npg.testBit j = true) {mem : Nat} {k₁ : Kernel BuddyAllocator}
    (hsome : pmmAllocPages buddyPages k (2 ^ j) = .ok (some mem, k₁))
    (hclear : ¬A.map.Clear (v + npg % 2 ^ j) (v + npg % 2 ^ j + 2 ^ j - 1))
    (hrun : vmAllocLoop arch buddyPages ⟨A₀.root, true⟩ e w u (4096 * v) npg newSz (64 - j)
      k j (4096 * (npg % 2 ^ j)) = .ok (r, k')) :
    VmAllocUndone reg arch ⟨A₀.root, true⟩ A₀.base k₀ k' ↔
      A.map (v + npg % 2 ^ j) ≠ none := by
  have hlt := C.fits
  have hj := bit_lt (j := 64) (by omega) hbit
  have hle := le_of_bit hbit
  have hpos := Nat.two_pow_pos j
  rw [vmAllocLoop_set hbit hj] at hrun
  rcases C.turn T hbit with ⟨f, hf⟩ | hnone | ⟨s, k₁', halloc,
    ⟨f, hf⟩ | ⟨k₂, B₂, A₂, hmap, T₂⟩ |
    ⟨k₂, r', k₃, B₃, T₃, hmap, hfree, H₃, E₃, -⟩⟩
  · rw [hsome] at hf
    cases hf
  · rw [hsome] at hnone
    cases hnone
  all_goals
    rw [halloc, ok_bind] at hrun
    simp only at hrun
  · rw [hf, error_bind] at hrun
    cases hrun
  · refine absurd (fun x hl hu => ?_) hclear
    rw [(T.ext.outside x (by omega)).1]
    refine T₂.ext.clear x (by omega) ?_
    rw [mod_two_pow_of_set hbit]
    omega
  · rw [hmap, ok_bind] at hrun
    simp only [Bool.false_eq_true, if_false] at hrun
    rw [hfree, ok_bind, C.addr] at hrun
    obtain ⟨r'', k'', B', hback, H', E', -⟩ :=
      World.rollback (A := A) (T := T₃) C.window hsize E₃ H₃
      C.clear_pages (C.range.sub (Nat.le_refl v) (by omega)) (by omega)
    rw [hback, ok_bind] at hrun
    cases hrun
    rw [E'.undone_iff C H']
    constructor
    · intro hM hnone
      have hx := hM (v + npg % 2 ^ j) (C.range.inSpan (by omega) (by omega))
      rw [PageMap.unmap, if_neg (by omega), ← (T.ext.outside _ (by omega)).1, hnone, PageMap.map,
        if_pos] at hx
      · cases hx
      · refine ⟨Nat.le_refl _, by omega, fun x hl hu => ?_⟩
        rw [show x = v + npg % 2 ^ j by omega]
        exact hnone
    · intro hsome' x _
      obtain ⟨mp, hmp⟩ := Option.ne_none_iff_exists'.mp hsome'
      rw [PageMap.map_stuck hmp, T.ext.unmap_map]

end Failure

/-- A call of `vm_alloc` that returns 0 has undone everything, unless it has come to a block with a
mapped page after its first page. -/
theorem vmAlloc_undone_iff (H : World reg arch k B Base W) (hw : reg.InWindow arch)
    (hsize : reg.pages < 2 ^ 31) (hi : W i = some A) (e w u : Bool) {oldSz newSz : Nat}
    (hle : oldSz ≤ newSz) (hlt : newSz ≤ 2 ^ 64 - 4096)
    (hend : PageRange arch A.base (pageCeil oldSz) (pageCeil newSz - pageCeil oldSz))
    (hrun : vmAlloc arch buddyPages k ⟨A.root, true⟩ oldSz newSz e w u = .ok (0, k')) :
    VmAllocUndone reg arch ⟨A.root, true⟩ A.base k k' ↔
      ∀ c, A.map.StopsInside (pageCeil oldSz) (pageCeil newSz - pageCeil oldSz) c →
        ¬BlockReached arch ⟨A.root, true⟩ e w u (4096 * pageCeil oldSz)
          (pageCeil newSz - pageCeil oldSz) k c := by
  have C := H.allocCall hw hi hle hlt hend
  rw [vmAlloc_eq e w u hle hlt] at hrun
  have hpos : newSz = 0 → pageCeil newSz - pageCeil oldSz = 0 := by
    rintro rfl
    unfold pageCeil
    omega
  generalize pageCeil newSz - pageCeil oldSz = n at *
  generalize pageCeil oldSz = v at *
  have hfits := C.fits
  have hn : n < 2 ^ 64 := by omega
  constructor
  · rintro hU c ⟨hbit, d, hd0, hdc, hbefore, hd⟩ ⟨k₁, mem, k₂, hturns, hsome⟩
    obtain ⟨B₁, A₁, T⟩ := C.atTurn hturns
    have hout : ∀ x, v + n % 2 ^ c ≤ x → A₁.map x = A.map x := fun x hx =>
      (T.ext.outside x (.inr hx)).1
    rw [(hturns.run hn newSz).2] at hrun
    refine (C.noMap hsize T hbit hsome (fun hclear => hd ?_) hrun).mp hU ?_
    · rw [← hout _ (by omega)]
      exact hclear _ (by omega) (by omega)
    · rw [hout _ (Nat.le_refl _)]
      exact hbefore _ (by omega) (by omega)
  · intro hcond
    obtain ⟨k₁, j, hturns, hlast⟩ :=
      AllocTurns.last arch ⟨A.root, true⟩ e w u (4096 * v) k hn
    obtain ⟨B₁, A₁, T⟩ := C.atTurn hturns
    obtain ⟨hj, hcont⟩ := hturns.run hn newSz
    rcases hlast with hend | ⟨hbit, hstuck⟩
    · rw [hcont, AllocTurns.stop hend] at hrun
      cases hrun
      rw [hpos rfl] at hcont
      rw [AllocTurns.stop (by decide),
        AllocTurns.stop (by rw [hpos rfl] at hend; exact hend)] at hcont
      cases hcont
      exact ⟨fun _ _ => rfl, fun T₁ T₂ h₁ h₂ s c => by rw [h₁.isTable_iff h₂]⟩
    · have hle' := le_of_bit hbit
      rw [hcont] at hrun
      rcases C.turn T hbit with ⟨f, hf⟩ | hnone | ⟨s, k₂, halloc,
        ⟨f, hf⟩ | ⟨k₃, B₂, A₂, hmap, -⟩ |
        ⟨k₃, r', k₄, B₃, T₃, hmap, -, -, -, hclear⟩⟩
      · rw [vmAllocLoop_set hbit (bit_lt hn hbit), hf, error_bind] at hrun
        cases hrun
      · exact C.noBlock hsize T hbit hnone hrun
      · rw [vmAllocLoop_set hbit (bit_lt hn hbit), halloc, ok_bind] at hrun
        simp only at hrun
        rw [hf, error_bind] at hrun
        cases hrun
      · exact absurd ⟨_, _, _, halloc, hmap⟩ hstuck
      · refine (C.noMap hsize T hbit halloc hclear hrun).mpr fun hnone => ?_
        obtain ⟨d, hd0, hdl, hmin, hd⟩ := PageMap.first_mapped hnone hclear
        have hout : ∀ x, v + n % 2 ^ j ≤ x → A₁.map x = A.map x := fun x hx =>
          (T.ext.outside x (.inr hx)).1
        refine hcond j ⟨hbit, d, hd0, by omega, fun x hl hu => ?_, ?_⟩
          ⟨k₁, _, k₂, hturns, halloc⟩
        · by_cases hx : x < v + n % 2 ^ j
          · exact T.ext.clear x hl hx
          · rw [← hout x (by omega)]
            exact hmin x (by omega) hu
        · rw [← hout _ (by omega)]
          exact hd

end

/-- Blocks of two pages are left while few pages are in use. -/
theorem sample_block {k : Kernel BuddyAllocator} {B : Blocks}
    (h : sampleRegion.Alloc k.pages k.mem B) (hroom : 90 ≤ sampleRegion.room B) :
    ∃ s j, B s = some ⟨j, false⟩ ∧ 1 ≤ j := by
  have hpages : sampleRegion.pages = 99 := by decide
  unfold Region.room at hroom
  refine exists_free_block (N := sampleRegion.pages) (a := 35) (o := 6) h.inv.rep.part
    h.inv.coalesced ?_ (by rw [hpages]; decide) (by decide) (by omega)
  rw [hpages, binaryAreas_mem]
  decide

/-- A page table whose page 17 is mapped and whose page 16 is not, and the call of `vm_alloc` for
these two pages: it takes a block of two pages, maps the first of them and fails at the second. -/
theorem sample_stuck : ∃ k B Base A k',
    World sampleRegion .riscv k B Base (fun _ : Unit => some A) ∧
    A.base = 0 ∧ A.map.StopsInside 16 2 1 ∧
    BlockReached .riscv ⟨A.root, true⟩ false true true (4096 * 16) 2 k 1 ∧
    vmAlloc .riscv buddyPages k ⟨A.root, true⟩ 0x10000 0x12000 false true true =
      .ok (0, k') := by
  obtain ⟨k₀, B₀, -, hroom₀, H₀⟩ := sample_world
  rcases H₀.create sampleRegion_inWindow (i := ()) rfl 0 with
    ⟨-, h0⟩ | ⟨p, k₁, B₁, T₁, -, H₁, -, hroom₁, -⟩
  · omega
  rw [Spaces.update_unit] at H₁
  rcases H₁.allocPage with ⟨-, h0⟩ | ⟨s, k₂, B₂, -, ha, H₂, -⟩
  · omega
  have hroom₂ := Region.room_of_alloc ha
  have hf := leafFlags_vmAlloc .riscv false true true
  have hrange : PageRange .riscv 0 17 1 := ⟨by decide, by decide, by decide⟩
  rcases H₂.mapBlock sampleRegion_inWindow (i := ()) rfl (s := s) (o := 0) (.inl ⟨rfl, rfl⟩)
    hf hrange with ⟨l, -, hlt⟩ | ⟨r, k₃, B₃, T₃, -, -, hr, -, H₃, hroom₃⟩
  · simp only [show Arch.top .riscv = 2 from rfl, pow_zero] at hlt
    omega
  simp only [show Arch.top .riscv = 2 from rfl, pow_zero] at hroom₃
  have H := H₃ (hr.mpr fun _ _ _ => rfl)
  rw [Spaces.update_unit] at H
  have hmapped : PageMap.map (fun _ => none) .riscv 17 (17 + 2 ^ 0 - 1) (sampleRegion.addr s)
      (vmAllocFlags .riscv false true true) 17 ≠ none := by
    rw [PageMap.map_clear (fun _ _ _ => rfl) (by decide) (by decide)]
    exact Option.some_ne_none _
  have hclear : ∀ x < 17, PageMap.map (fun _ => none) .riscv 17 (17 + 2 ^ 0 - 1)
      (sampleRegion.addr s) (vmAllocFlags .riscv false true true) x = none := fun x hx =>
    PageMap.map_outside (.inl hx)
  generalize hA : ({ root := p, base := 0, tables := T₃, map := _, pages := _ } : AddrSpace) =
    A at H
  have hmap : A.map 17 ≠ none ∧ ∀ x < 17, A.map x = none := by
    rw [← hA]
    exact ⟨hmapped, hclear⟩
  have hbase : A.base = 0 := by rw [← hA]
  rcases H.allocChunk sampleRegion_inWindow (i := ()) rfl (.refl B₃ A 16 _) hf (o := 1)
      (by decide) (fun _ => ⟨by rw [hbase]; decide, by rw [hbase]; decide, by decide⟩) with
    ⟨-, hsmall⟩ | ⟨t, k₄, hrun₄, ⟨l, -, hlt⟩ | ⟨k₅, B₅, A₅, -, -, E₅, -⟩ |
      ⟨k₅, r', k₆, B₆, T₆, hrun₅, hrun₆, -⟩⟩
  · obtain ⟨t, j, ht, hj⟩ := sample_block H.alloc (by omega)
    exact absurd (hsmall t j ht) (by omega)
  · simp only [show Arch.top .riscv = 2 from rfl] at hlt
    omega
  · exact absurd (E₅.clear 17 (by decide) (by decide)) hmap.1
  · refine ⟨k₃, B₃, _, A, k₆, H, hbase,
      ⟨by decide, 1, by decide, by decide, fun x _ hx => ?_, ?_⟩,
      ⟨k₃, _, k₄, .skip .start (by decide) (by decide), hrun₄⟩, ?_⟩
    · exact hmap.2 x (by simpa using hx)
    · exact hmap.1
    · rw [vmAlloc_eq false true true (by decide) (by decide)]
      change vmAllocLoop .riscv buddyPages ⟨A.root, true⟩ false true true (4096 * 16)
        2 0x12000 64 k₃ 0 0 = _
      rw [vmAllocLoop, if_neg (by decide), if_neg (by decide), vmAllocLoop, if_neg (by decide),
        if_pos (by decide), hrun₄, ok_bind]
      simp only [vmAllocMap_eq]
      have hva : wordAdd (4096 * 16) 0 = 4096 * (16 + 0) := by decide
      rw [hva, show pageSize * 2 ^ 1 = 4096 * 2 ^ 1 from rfl, hrun₅, ok_bind]
      simp only [Bool.false_eq_true, if_false]
      rw [hrun₆, ok_bind]
      rfl

/-- The failed call leaves the first page mapped, to the block that it has given back. -/
theorem vmAlloc_leaves_mapping : ∃ k B Base A k',
    World sampleRegion .riscv k B Base (fun _ : Unit => some A) ∧
      PageRange .riscv A.base 16 2 ∧
      vmAlloc .riscv buddyPages k ⟨A.root, true⟩ 0x10000 0x12000 false true true =
      .ok (0, k') ∧
      ¬VmAllocUndone sampleRegion .riscv ⟨A.root, true⟩ A.base k k' := by
  obtain ⟨k, B, Base, A, k', H, hbase, ⟨hbit, d, hd0, hd2, hbefore, hd⟩,
    ⟨k₁, mem, k₂, hturns, hsome⟩, hrun⟩ := sample_stuck
  have hrange : PageRange .riscv A.base 16 2 :=
    ⟨by rw [hbase]; decide, by rw [hbase]; decide, by decide⟩
  have C : AllocCall sampleRegion .riscv k B Base (fun _ : Unit => some A) () A 16 2 :=
    ⟨H, sampleRegion_inWindow, rfl, hrange, by decide⟩
  refine ⟨k, B, Base, A, k', H, hrange, hrun, fun hU => ?_⟩
  obtain ⟨B₁, A₁, T⟩ := C.atTurn hturns
  have hout : ∀ x, 16 ≤ x → A₁.map x = A.map x := fun x hx => (T.ext.outside x (.inr hx)).1
  rw [vmAlloc_eq false true true (by decide) (by decide)] at hrun
  change vmAllocLoop .riscv buddyPages ⟨A.root, true⟩ false true true (4096 * 16) 2 0x12000 64 k
    0 0 = _ at hrun
  rw [(hturns.run (by decide) 0x12000).2] at hrun
  refine (C.noMap (by decide) T hbit hsome (fun hclear => hd ?_) hrun).mp hU ?_
  · rw [← hout _ (by omega)]
    exact hclear _ (by omega) (by omega)
  · rw [hout _ (by decide)]
    exact hbefore _ (by decide) (by omega)

theorem vmAlloc_undone_iff_sample : ∃ (k : Kernel BuddyAllocator) (A : AddrSpace)
    (k' : Kernel BuddyAllocator),
      vmAlloc .riscv buddyPages k ⟨A.root, true⟩ 0x10000 0x12000 false true true =
      .ok (0, k') ∧ (VmAllocUndone sampleRegion .riscv ⟨A.root, true⟩ A.base k k' ↔
        ∀ c, A.map.StopsInside 16 2 c →
          ¬BlockReached .riscv ⟨A.root, true⟩ false true true (4096 * 16) 2 k c) := by
  obtain ⟨k, B, Base, A, k', H, hbase, -, -, hrun⟩ := sample_stuck
  exact ⟨k, A, k', hrun, vmAlloc_undone_iff H sampleRegion_inWindow (by decide)
    (i := ()) rfl false true true (by decide) (by decide)
    ⟨by rw [hbase]; decide, by rw [hbase]; decide, by decide⟩ hrun⟩

end OsKernel.Mm

import OsKernel.Mm.Liballoc.Safety
import OsKernel.Mm.Vmm.Range
import OsKernel.Mm.Vmm.Transfer

/-! The kernel heap over `k_pmm`: the chunks of the heap are blocks of the buddy allocator.  No byte
of a block of the heap or of a tag is one that the buddy allocator writes, no byte of a block is one
of a tag, where the heap writes, and what is stored in a block stays. -/

namespace OsKernel.Mm

open Lib Hsai Lib.BuddySystem BuddyAllocator

variable {reg : Region} {k k' : Kernel BuddyAllocator}

theorem Region.Alloc.of_blocks {b : BuddyAllocator} {m : Mem} {B : Blocks} (h : reg.Alloc b m B) :
    b.blocks m = B := h.inv.rep.blocks_eq

/-- `k_pmm.alloc_pages` for any count. -/
theorem pmmAllocPages_spec (h : reg.Alloc k.pages k.mem k.blocks) {n : Nat} {r : Option Nat}
    (hrun : pmmAllocPages buddyPages k n = .ok (r, k')) :
    reg.Alloc k'.pages k'.mem k'.blocks ∧ AgreeOn (reg.Used k.blocks) k.mem k'.mem ∧
      ((r = none ∧ k'.blocks = k.blocks) ∨ ∃ s, r = some (reg.addr s) ∧ 0 < n ∧
        Allocated reg.pages k.blocks s (Nat.clog 2 n) k'.blocks) := by
  rcases Nat.eq_zero_or_pos n with rfl | hpos
  · have hzero : pmmAllocPages buddyPages k 0 = .ok (none, k) := rfl
    rw [hzero] at hrun
    cases hrun
    exact ⟨h, fun _ _ => rfl, .inl ⟨rfl, rfl⟩⟩
  by_cases hc : n ≤ 2 ^ 31
  · obtain ⟨r₁, b', m', hcall, hkeep, hcase⟩ := h.alloc hpos hc
    have hcall' : buddyPages.allocPages k.pages k.mem n = .ok (r₁, b', m') := hcall
    unfold pmmAllocPages at hrun
    rw [hcall', ok_bind] at hrun
    rcases hcase with ⟨rfl, rfl, rfl, -⟩ | ⟨s, B', rfl, h', ha⟩
    · cases hrun
      exact ⟨h, hkeep, .inl ⟨rfl, rfl⟩⟩
    · cases hrun
      have hle : n ≤ 2 ^ Nat.clog 2 n := Nat.le_pow_clog (by decide) n
      have hcnt : ((n : Int) % 2 ^ 32).toNat = n := by omega
      have hfill : ∀ x, x < reg.addr s ∨ reg.addr s + 4096 * 2 ^ Nat.clog 2 n ≤ x →
          fillPages m' (reg.addr s) n x = m' x := by
        intro x hx
        unfold fillPages
        rw [hcnt]
        have : (reg.addr s + n * pageSize) % wordSize ≤ reg.addr s + n * pageSize :=
          Nat.mod_le _ _
        unfold pageSize at *
        exact Mem.fill_outside (by omega)
      have hnew : reg.Alloc b' (fillPages m' (reg.addr s) n) B' := by
        refine h'.frame fun x hx => hfill x ?_
        by_contra hin
        exact hx ⟨s, _, (ha.used s _).mpr (.inl ⟨rfl, rfl⟩), by omega, by omega⟩
      have hB : (⟨b', fillPages m' (reg.addr s) n⟩ : Kernel BuddyAllocator).blocks = B' :=
        hnew.of_blocks
      refine ⟨by rw [hB]; exact hnew, fun x hx => ?_,
        .inr ⟨s, rfl, hpos, by rw [hB]; exact ha⟩⟩
      rw [← hkeep x hx]
      exact hfill x (by_contra fun hin => ha.not_used h' hx (by omega) (by omega))
  · have hlow : ∀ j, 0 ≤ j → j < 0 + 32 → 2 ^ j < n := by
      intro j _ hj
      have := Nat.pow_le_pow_right (show 0 < 2 by decide) (show j ≤ 31 by omega)
      omega
    have hfault : buddyPages.allocPages k.pages k.mem n = .error (.undefined "1U << 32") := by
      change k.pages.allocPages k.mem n = _
      rw [BuddyAllocator.allocPages, if_neg (by omega), orderFor_error 32 0 hlow]
      rfl
    unfold pmmAllocPages at hrun
    rw [hfault] at hrun
    cases hrun

/-- `k_pmm.free_pages` of a block in use. -/
theorem pmmFreePages_spec (h : reg.Alloc k.pages k.mem k.blocks) (hmem : 0 < reg.mem) {s j : Nat}
    (hs : k.blocks s = some ⟨j, true⟩) :
    ∃ k', pmmFreePages buddyPages k (reg.addr s) = .ok (0, k') ∧
      reg.Alloc k'.pages k'.mem k'.blocks ∧ AgreeOn (reg.Used k'.blocks) k.mem k'.mem ∧
      ∀ t i, k'.blocks t = some ⟨i, true⟩ ↔ t ≠ s ∧
        k.blocks t = some ⟨i, true⟩ := by
  have hlt := h.inv.rep.block_lt hs
  have hpage := Region.page_bound hlt
  have hend := reg.end_le
  have haddr : reg.addr s = reg.mem + 4096 * s := rfl
  obtain ⟨r, b', m', hcall, hcase⟩ := h.free hmem hlt
  have hcall' : buddyPages.freePages k.pages k.mem (reg.addr s) = .ok (r, b', m') := hcall
  rcases hcase with ⟨hnone, -⟩ | ⟨i, hfree, -⟩ | ⟨i, B', rfl, h', hr, hkeep⟩
  · exact absurd (hnone.symm.trans hs) (by simp)
  · exact absurd (hfree.symm.trans hs) (by simp)
  · have hfill : fillPages m' (reg.addr s) 0 = m' := by
      funext x
      unfold fillPages
      have hzero :
          (reg.addr s + ((0 : Int) % 2 ^ 32).toNat * pageSize) % wordSize - reg.addr s = 0 := by
        have hcnt : ((0 : Int) % 2 ^ 32).toNat * pageSize = 0 := rfl
        rw [hcnt, Nat.add_zero]
        exact Nat.sub_eq_zero_of_le (Nat.mod_le _ _)
      rw [hzero]
      exact Mem.fill_outside (by omega)
    have hB : (⟨b', m'⟩ : Kernel BuddyAllocator).blocks = B' := h'.of_blocks
    refine ⟨⟨b', m'⟩, ?_, by rw [hB]; exact h', by rw [hB]; exact hkeep, fun t i => ?_⟩
    · unfold pmmFreePages
      rw [if_neg (by omega), hcall', ok_bind, hfill]
    · rw [hB]
      exact hr.used t i

/-! ### The base allocator of the heap -/

/-- The state of `k_pmm`, with the runs of pages that the heap has got from it. -/
structure HeapPages (reg : Region) where
  kernel : Kernel BuddyAllocator
  held : Nat → Option Nat
  alloc : reg.Alloc kernel.pages kernel.mem kernel.blocks
  used : ∀ a n, held a = some n → 0 < n ∧ ∃ s, a = reg.addr s ∧
    kernel.blocks s = some ⟨Nat.clog 2 n, true⟩

namespace HeapPages

variable (x : HeapPages reg)

/-- `k_pmm.alloc_pages`; a call that does not return is taken for one without pages. -/
def allocPages (n : Nat) : Option Nat × HeapPages reg :=
  match hrun : pmmAllocPages buddyPages x.kernel n with
  | .error _ => (none, x)
  | .ok (none, k) => (none, ⟨k, x.held, (pmmAllocPages_spec x.alloc hrun).1, by
      obtain ⟨-, -, hcase⟩ := pmmAllocPages_spec x.alloc hrun
      rcases hcase with ⟨-, hB⟩ | ⟨s, he, -⟩
      · rw [hB]
        exact x.used
      · cases he⟩)
  | .ok (some a, k) => (some a, ⟨k, Function.update x.held a (some n),
      (pmmAllocPages_spec x.alloc hrun).1, by
      obtain ⟨-, -, hcase⟩ := pmmAllocPages_spec x.alloc hrun
      rcases hcase with ⟨he, -⟩ | ⟨s, he, hpos, ha⟩
      · cases he
      cases he
      intro a' n' ha'
      rw [Function.update_apply] at ha'
      split at ha'
      · rename_i heq
        cases ha'
        exact ⟨hpos, s, heq, (ha.used s _).mpr (.inl ⟨rfl, rfl⟩)⟩
      · obtain ⟨hpos', s', rfl, hs'⟩ := x.used a' n' ha'
        exact ⟨hpos', s', rfl, (ha.used s' _).mpr (.inr hs')⟩⟩)

/-- `k_pmm.free_pages` of a run that the heap has got. -/
def freePages (hmem : 0 < reg.mem) (a : Nat) : HeapPages reg :=
  match hheld : x.held a with
  | none => x
  | some n =>
    match hrun : pmmFreePages buddyPages x.kernel a with
    | .error _ => x
    | .ok (_, k) => ⟨k, Function.update x.held a none, by
        obtain ⟨-, s, rfl, hs⟩ := x.used a n hheld
        obtain ⟨k', hrun', hk', -⟩ := pmmFreePages_spec x.alloc hmem hs
        rw [hrun] at hrun'
        cases hrun'
        exact hk', by
        obtain ⟨-, s, rfl, hs⟩ := x.used a n hheld
        obtain ⟨k', hrun', -, -, hused⟩ := pmmFreePages_spec x.alloc hmem hs
        rw [hrun] at hrun'
        cases hrun'
        intro a' n' ha'
        rw [Function.update_apply] at ha'
        split at ha'
        · cases ha'
        · rename_i hne
          obtain ⟨hpos', s', rfl, hs'⟩ := x.used a' n' ha'
          exact ⟨hpos', s', rfl, (hused s' _).mpr ⟨fun he => hne (he ▸ rfl), hs'⟩⟩⟩

variable {x}

/-- What a call of `k_pmm.alloc_pages` does to the runs of the heap and to the memory. -/
theorem allocPages_spec {x' : HeapPages reg} {n : Nat} {r : Option Nat}
    (hcall : x.allocPages n = (r, x')) :
      AgreeOn (reg.Used x.kernel.blocks) x.kernel.mem x'.kernel.mem ∧
      ((r = none ∧ x'.held = x.held) ∨ ∃ a, r = some a ∧ x.held a = none ∧
        x'.held = Function.update x.held a (some n)) := by
  unfold allocPages at hcall
  split at hcall
  · cases hcall
    exact ⟨fun _ _ => rfl, .inl ⟨rfl, rfl⟩⟩
  · rename_i k hrun
    cases hcall
    exact ⟨(pmmAllocPages_spec x.alloc hrun).2.1, .inl ⟨rfl, rfl⟩⟩
  · rename_i a k hrun
    cases hcall
    obtain ⟨-, hkeep, hcase⟩ := pmmAllocPages_spec x.alloc hrun
    refine ⟨hkeep, .inr ⟨a, rfl, ?_, rfl⟩⟩
    rcases hcase with ⟨he, -⟩ | ⟨s, he, hpos, ha⟩
    · cases he
    cases he
    cases hheld : x.held (reg.addr s) with
    | none => rfl
    | some m =>
      obtain ⟨-, t, hst, ht⟩ := x.used _ m hheld
      obtain rfl := Region.addr_inj hst
      exact absurd ht (ha.fresh _)

/-- What a call of `k_pmm.free_pages` does. -/
theorem freePages_spec (hmem : 0 < reg.mem) (a : Nat) :
    (x.freePages hmem a).held = Function.update x.held a none ∧
      AgreeOn (reg.Used (x.freePages hmem a).kernel.blocks) x.kernel.mem
        (x.freePages hmem a).kernel.mem := by
  unfold freePages
  split
  · rename_i hheld
    refine ⟨?_, fun _ _ => rfl⟩
    rw [← hheld, Function.update_eq_self]
  · rename_i n hheld
    obtain ⟨-, s, rfl, hs⟩ := x.used a n hheld
    obtain ⟨k', hrun', -, hkeep, -⟩ := pmmFreePages_spec x.alloc hmem hs
    split
    · rename_i e hrun
      rw [hrun] at hrun'
      cases hrun'
    · rename_i r k hrun
      rw [hrun] at hrun'
      cases hrun'
      exact ⟨rfl, hkeep⟩

/-- The pages of a run lie in a block in use. -/
theorem held_used {a n b : Nat} (h : x.held a = some n) (hl : a ≤ b) (hu : b < a + 4096 * n) :
    reg.Used x.kernel.blocks b := by
  obtain ⟨-, s, rfl, hs⟩ := x.used a n h
  have hle : n ≤ 2 ^ Nat.clog 2 n := Nat.le_pow_clog (by decide) n
  exact ⟨s, _, hs, hl, by omega⟩

end HeapPages

/-- `k_pmm` as the base allocator of the heap. -/
def heapSource (reg : Region) (hmem : 0 < reg.mem) : Liballoc.PageSource (HeapPages reg) where
  allocPages x n := x.allocPages n
  freePages x a := x.freePages hmem a
  held x := x.held
  held_run := by
    intro x a n h
    obtain ⟨hpos, s, rfl, hs⟩ := x.used a n h
    have hle : n ≤ 2 ^ Nat.clog 2 n := Nat.le_pow_clog (by decide) n
    have hblock := x.alloc.inv.rep.block_le hs
    have hal := reg.mem_aligned
    have hend := reg.end_le
    obtain ⟨-, -, -, hsum⟩ := reg.infos_le
    simp only [Region.addr] at *
    exact ⟨hpos, by omega, by omega, by omega⟩
  apart := by
    intro x a b n m ha hb hne
    obtain ⟨-, s, rfl, hs⟩ := x.used a n ha
    obtain ⟨-, t, rfl, ht⟩ := x.used b m hb
    have hn : n ≤ 2 ^ Nat.clog 2 n := Nat.le_pow_clog (by decide) n
    have hm : m ≤ 2 ^ Nat.clog 2 m := Nat.le_pow_clog (by decide) m
    have hst : s ≠ t := fun he => hne (he ▸ rfl)
    have hpart := x.alloc.inv.rep.part
    simp only [Region.addr]
    rcases Nat.lt_or_gt_of_ne hst with hlt | hlt
    · have := hpart.apart hs ht hlt
      simp only at this
      left
      omega
    · have := hpart.apart ht hs hlt
      simp only at this
      right
      omega
  alloc_some := by
    intro x x' n a _ hcall
    obtain ⟨-, ⟨he, -⟩ | ⟨b, he, hnone, hheld⟩⟩ := HeapPages.allocPages_spec hcall
    · cases he
    · cases he
      exact ⟨hnone, hheld⟩
  alloc_none := by
    intro x x' n hcall
    obtain ⟨-, ⟨-, hheld⟩ | ⟨b, he, -⟩⟩ := HeapPages.allocPages_spec hcall
    · exact hheld
    · cases he
  free_held x a := (HeapPages.freePages_spec hmem a).1

open Liballoc

variable {h h' : LAllocator} {x x' : HeapPages reg} {hmem : 0 < reg.mem} {N : Nat}

/-- A byte of a tag, of a chunk or of a block: the heap itself writes no other. -/
def TagByte (h : LAllocator) (b : Nat) : Prop :=
  (∃ maj ∈ h.chunks, maj.addr ≤ b ∧ b < maj.addr + sizeofMajor) ∨
    ∃ min ∈ h.blocks, min.addr ≤ b ∧ b < min.addr + sizeofMinor

/-- A byte of a block of the heap is in a block of the page allocator that is in use. -/
theorem live_used (I : HeapInv (heapSource reg hmem) N h x) {ptr n b : Nat}
    (hlive : h.live ptr = some n) (hl : ptr ≤ b) (hu : b < ptr + n) :
      reg.Used x.kernel.blocks b := by
  obtain ⟨-, -, maj, -, pages, hheld, hlo, hhi⟩ := I.safe.inside ptr n hlive
  exact HeapPages.held_used hheld (by omega) (by omega)

/-- So is a byte of a tag. -/
theorem tag_used (I : HeapInv (heapSource reg hmem) N h x) {b : Nat} (htag : TagByte h b) :
    reg.Used x.kernel.blocks b := by
  have htags := tags
  rcases htag with ⟨maj, hmaj, hl, hu⟩ | ⟨min, hmin, hl, hu⟩
  · obtain ⟨n, hheld, -, -⟩ := I.chunks maj hmaj
    have hpos := (x.used _ _ hheld).1
    exact HeapPages.held_used hheld hl (by omega)
  · obtain ⟨maj, -, n, hheld, -, -, hlo, hhi⟩ := I.block hmin
    unfold LTagMinor.span at hhi
    exact HeapPages.held_used hheld (by omega) (by omega)

/-- A byte of a block is not one of a tag. -/
theorem live_not_tag (I : HeapInv (heapSource reg hmem) N h x) {ptr n b : Nat}
    (hlive : h.live ptr = some n) (hl : ptr ≤ b) (hu : b < ptr + n) : ¬TagByte h b := by
  have htags := tags
  rintro (⟨maj, hmaj, hl', hu'⟩ | ⟨min', hmin', hl', hu'⟩)
  · rcases I.safe.chunkTag ptr n maj hlive hmaj with hap | hap <;> omega
  · obtain ⟨min, hmin, rfl, rfl⟩ := I.live_iff.mp hlive
    obtain ⟨-, -, -, -, -, ok, -⟩ := I.block hmin
    have hreq := ok.req.2
    rcases I.blocks_apart hmin hmin' with rfl | hap | hap
    · omega
    · unfold LTagMinor.span at hap
      omega
    · unfold LTagMinor.span at hap
      omega

/-- Whatever a call has stored in the tags that were there before it or are there after it, the
bytes of the blocks that are in use in both states are the same. -/
def BlocksKept (h : LAllocator) (x : HeapPages reg) (h' : LAllocator) (x' : HeapPages reg) : Prop :=
  ∀ m, AgreeOn (fun b => ¬TagByte h b ∧ ¬TagByte h' b) x'.kernel.mem m →
    ∀ ptr n, h.live ptr = some n → h'.live ptr = some n → ∀ b, ptr ≤ b → b < ptr + n →
      m b = x.kernel.mem b

/-- It is enough that the page allocator has changed none of these bytes. -/
theorem BlocksKept.of_pages (I : HeapInv (heapSource reg hmem) N h x)
    (I' : HeapInv (heapSource reg hmem) N h' x')
      (hkeep : ∀ ptr n, h.live ptr = some n → h'.live ptr = some n →
      ∀ b, ptr ≤ b → b < ptr + n → x'.kernel.mem b = x.kernel.mem b) :
        BlocksKept h x h' x' :=
  fun _ hm ptr n hlive hlive' b hl hu =>
    (hm b ⟨live_not_tag I hlive hl hu, live_not_tag I' hlive' hl hu⟩).trans
      (hkeep ptr n hlive hlive' b hl hu)

/-- Stores to blocks of the page allocator that are in use leave it as it was. -/
theorem HeapPages.stored {m : Mem}
    (hm : AgreeOn (fun b => ¬reg.Used x.kernel.blocks b) x.kernel.mem m) :
    ∃ x' : HeapPages reg, x'.kernel = ⟨x.kernel.pages, m⟩ ∧ x'.held = x.held := by
  have ha : reg.Alloc x.kernel.pages m x.kernel.blocks := x.alloc.frame hm
  have hB : (⟨x.kernel.pages, m⟩ : Kernel BuddyAllocator).blocks = x.kernel.blocks :=
    ha.of_blocks
  exact ⟨⟨⟨x.kernel.pages, m⟩, x.held, by rw [hB]; exact ha, by rw [hB]; exact x.used⟩,
    rfl, rfl⟩

/-- In every reachable state of the heap over `k_pmm`: no byte of a block in use or of a tag is
one that the page allocator writes, and no byte of a block in use is one of a tag; stores to
tags and blocks lead to a reachable state; and `malloc` and `free` end and change no byte of the
other blocks. -/
theorem kernel_heap_keeps_blocks (hmem : 0 < reg.mem)
    (hr : Reached (heapSource reg hmem) (2 ^ 20) (h, x)) :
    (∀ b, (∃ ptr n, h.live ptr = some n ∧ ptr ≤ b ∧ b < ptr + n) →
      ¬TagByte h b ∧ ¬FreeByte x.kernel.pages x.kernel.blocks b) ∧
    (∀ b, TagByte h b → ¬FreeByte x.kernel.pages x.kernel.blocks b) ∧
    (∀ m, AgreeOn (fun b => ¬TagByte h b ∧ ¬∃ ptr n, h.live ptr = some n ∧ ptr ≤ b ∧
        b < ptr + n) x.kernel.mem m →
      ∃ x' : HeapPages reg, x'.kernel = ⟨x.kernel.pages, m⟩ ∧ x'.held = x.held ∧
        Reached (heapSource reg hmem) (2 ^ 20) (h, x')) ∧
    (∀ reqSize : Int, chunkPages (sizeAlign reqSize.toNat) ≤ 2 ^ 20 →
      ∃ run, malloc (heapSource reg hmem) (2 * h.chunks.length + 1) h x reqSize =
        .ok (some run) ∧ BlocksKept h x run.heap run.source) ∧
    ∀ ptr, FreeOk h ptr → ∃ r, free (heapSource reg hmem) h x ptr = .ok r ∧
      BlocksKept h x r.1 r.2 := by
  have I := hr.inv (Nat.le_refl _)
  have R := I.refines
  refine ⟨?_, fun b htag => x.alloc.used_not_free (tag_used I htag), fun m hm => ?_,
    fun reqSize hsize => ?_, fun ptr hptr => ?_⟩
  · rintro b ⟨ptr, n, hlive, hl, hu⟩
    exact ⟨live_not_tag I hlive hl hu, x.alloc.used_not_free (live_used I hlive hl hu)⟩
  · obtain ⟨x', hkernel, hheld⟩ := HeapPages.stored (x := x) (m := m) fun b hb => by
      refine hm b ⟨fun htag => hb (tag_used I htag), ?_⟩
      rintro ⟨ptr, n, hlive, hl, hu⟩
      exact hb (live_used I hlive hl hu)
    exact ⟨x', hkernel, hheld, hr.step (.other fun maj _ => congrFun hheld maj.addr)⟩
  · obtain ⟨run, hrun, -⟩ := R.malloc reqSize hsize
    have I' : HeapInv (heapSource reg hmem) (2 ^ 20) run.heap run.source :=
      (hr.step (.malloc hsize (hrun _ (Nat.le_refl _)))).inv (Nat.le_refl _)
    refine ⟨run, hrun _ (Nat.le_refl _), .of_pages I I' fun ptr n hlive _ b hl hu => ?_⟩
    have hused := live_used I hlive hl hu
    by_cases hreq : 0 < reqSize
    · have hout := malloc_outcome I (Nat.le_refl _) hsize (hrun _ (Nat.le_refl _)) hreq
      cases hout with
      | placed => rfl
      | fresh _ halloc => exact (HeapPages.allocPages_spec halloc).1 b hused
      | refused _ halloc => exact (HeapPages.allocPages_spec halloc).1 b hused
    · have hnone := hrun _ (Nat.le_refl _)
      rw [malloc, if_pos (by omega)] at hnone
      cases hnone
      rfl
  · obtain ⟨r, hrun, -⟩ := R.free ptr hptr
    have hfreed := free_cases hrun
    have I' := hfreed.inv I
    refine ⟨r, hrun, .of_pages I I' fun p n _ hlive' b hl hu => ?_⟩
    have hused := live_used I' hlive' hl hu
    cases hfreed with
    | nothing => rfl
    | block => rfl
    | chunk => exact (HeapPages.freePages_spec hmem _).2 b hused

/-- The page allocator has a run of pages if it has a free block as large. -/
theorem HeapPages.allocPages_some {n s j : Nat} (hpos : 0 < n) (hc : n ≤ 2 ^ 31)
    (hfree : x.kernel.blocks s = some ⟨j, false⟩) (hj : Nat.clog 2 n ≤ j) :
    ∃ a x', x.allocPages n = (some a, x') := by
  obtain ⟨r, b, m, hcall, -, hcase⟩ := x.alloc.alloc hpos hc
  have hcall' : buddyPages.allocPages x.kernel.pages x.kernel.mem n = .ok (r, b, m) := hcall
  rcases hcase with ⟨-, -, -, hsmall⟩ | ⟨s', B', rfl, -⟩
  · have := hsmall s j hfree
    omega
  have hrun' : ∃ k, pmmAllocPages buddyPages x.kernel n = .ok (some (reg.addr s'), k) := by
    unfold pmmAllocPages
    rw [hcall', ok_bind]
    exact ⟨_, rfl⟩
  obtain ⟨k, hrun'⟩ := hrun'
  unfold allocPages
  split
  · rename_i hrun
    rw [hrun] at hrun'
    cases hrun'
  · rename_i hrun
    rw [hrun] at hrun'
    cases hrun'
  · exact ⟨_, _, rfl⟩

/-- The heap in a region of 100 pages: a block of 8 bytes is in use, and 24 bytes are asked for. -/
theorem kernel_heap_keeps_blocks_sample :
    ∃ (h : LAllocator) (x : HeapPages sampleRegion) (ptr : Nat) (run : MallocRun _),
      h.live ptr = some 8 ∧ run.heap.live ptr = some 8 ∧
      malloc (heapSource sampleRegion (by decide)) (2 * h.chunks.length + 1) h x 24 =
      .ok (some run) ∧
      BlocksKept h x run.heap run.source := by
  obtain ⟨b, m', B, -, I, hB, haddr, hnodes, hinf⟩ := make_inv sampleRegion fun _ => 0
  have hblocks : Kernel.blocks ⟨b, m'⟩ = B := I.rep.blocks_eq
  have ha : sampleRegion.Alloc b m' (Kernel.blocks ⟨b, m'⟩) := by
    rw [hblocks]
    exact ⟨I, haddr, hnodes, hinf⟩
  let x : HeapPages sampleRegion := ⟨⟨b, m'⟩, fun _ => none, ha, fun _ _ h => nomatch h⟩
  have hfree : x.kernel.blocks 35 = some ⟨6, false⟩ := by
    have harea : (binaryAreas sampleRegion.pages 64).mem 35 6 :=
      ⟨by decide, by decide, by decide⟩
    have hx : x.kernel.blocks = B := hblocks
    rw [hx]
    exact (hB 35 ⟨6, false⟩).mpr ⟨harea, rfl⟩
  have hinit : Reached (heapSource sampleRegion (by decide)) (2 ^ 20) (.init (fun _ => 0), x) :=
    .init _ x
  have hinv := hinit.inv (Nat.le_refl _)
  -- The first request gets a chunk.
  obtain ⟨run₁, hrun₁, hcase₁⟩ := hinv.refines.malloc 8 (by decide)
  have hrun := hrun₁ _ (Nat.le_refl _)
  have hsome : run₁.ptr ≠ none := by
    have hout := malloc_outcome hinv (Nat.le_refl _) (by decide) hrun (by decide)
    cases hout with
    | placed => simp
    | fresh => simp
    | refused _ halloc =>
      obtain ⟨a, x', hcall⟩ := HeapPages.allocPages_some (n := 16) (by decide) (by decide) hfree
        ((Nat.clog_le_iff_le_pow (by decide)).mpr (by decide))
      have hnone : x.allocPages 16 = (none, _) := halloc
      rw [hcall] at hnone
      cases hnone
  obtain ⟨ptr, -, -, -, hlive⟩ := hcase₁.resolve_left fun h => hsome h.1
  have hlive₁ : run₁.heap.live ptr = some 8 := by
    rw [hlive, Function.update_self]
    rfl
  -- The second request leaves its block alone.
  have hr := hinit.step (.malloc (by decide) hrun)
  obtain ⟨-, -, -, hmalloc, -⟩ := kernel_heap_keeps_blocks (by decide) hr
  obtain ⟨run₂, hrun₂, hkept⟩ := hmalloc 24 (by decide)
  obtain ⟨run', hrun', hcase₂⟩ := (hr.inv (Nat.le_refl _)).refines.malloc 24 (by decide)
  have hsame := (hrun' _ (Nat.le_refl _)).symm.trans hrun₂
  cases hsame
  refine ⟨run₁.heap, run₁.source, ptr, run₂, hlive₁, ?_, hrun₂, hkept⟩
  rcases hcase₂ with ⟨-, hl⟩ | ⟨ptr', -, -, hnone, hl⟩
  · rw [hl, hlive₁]
  · have hne : ptr ≠ ptr' := by
      rintro rfl
      rw [hlive₁] at hnone
      cases hnone
    rw [hl, Function.update_of_ne hne, hlive₁]

end OsKernel.Mm

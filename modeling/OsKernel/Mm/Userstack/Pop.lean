import OsKernel.Mm.Userstack.Runs

/-! Pops after pushes.  A pop moves up, but `_update_cache` takes the page below an aligned address,
so a pop that goes past the end of the cached page comes back to that end for ever. -/

namespace OsKernel.Mm

open Lib Hsai Lib.BuddySystem BuddyAllocator

namespace UserstackStream

variable {σ : Type} (arch : Arch) (V : VirtualPageAllocator σ)

/-- Pushes of ranges, one after the other. -/
def pushAll (k : Kernel σ) (s : UserstackStream) : List (List UInt8) →
    Except Fault (UserstackStream × Kernel σ)
  | [] => .ok (s, k)
  | buf :: bufs => do
    let r ← s.push arch V k buf
    pushAll r.2 r.1 bufs

/-- Pops of the given lengths, with the bytes that each of them writes to its buffer. -/
def popAll (k : Kernel σ) (s : UserstackStream) : List Nat →
    Except Fault (UserstackStream × List (List UInt8))
  | [] => .ok (s, [])
  | len :: lens => do
    let r ← s.pop arch V k len
    let q ← popAll k r.1 lens
    .ok (q.1, r.2 :: q.2)

/-- The pushes of `bufs` and then the pops in reverse order end, give back the bytes and restore the
stack pointer. -/
def PopsUndo (k : Kernel σ) (s : UserstackStream) (bufs : List (List UInt8)) : Prop :=
  ∃ s₁ k₁ s₂, s.pushAll arch V k bufs = .ok (s₁, k₁) ∧
    s₁.popAll arch V k₁ (bufs.reverse.map List.length) = .ok (s₂, bufs.reverse) ∧
    s₂.sp = s.sp

end UserstackStream

section

variable {reg : Region} {arch : Arch} {k k₀ k' : Kernel BuddyAllocator} {B : Blocks}
  {Base : Nat → Nat → Prop} {ι : Type} {W : Spaces ι} {i : ι} {A : AddrSpace}
  {base top P : Nat} {s s' : UserstackStream}

/-! ### Bounds -/

/-- The pages of the stack are distinct, so there are no more of them than a page table maps. -/
theorem StackSpace.size_le (C : StackSpace reg arch k B Base W i A base top) :
    top - base ≤ 2 ^ 48 := by
  have hbits : 4096 * arch.vaPages ≤ 2 ^ 48 := by cases arch <;> decide
  have hpos := Arch.vaPages_pos arch
  have hne := C.stack.nonempty
  by_contra hlt
  have h0 : Reached base (top - base) 0 := ⟨by omega, by omega⟩
  have h1 : Reached base (top - base) arch.vaPages := ⟨by omega, by omega⟩
  have hfits := C.stack.fits
  have hdown := pageRoundDown_eq base
  have hsame : copyPage base 0 / 4096 % arch.vaPages =
      copyPage base arch.vaPages / 4096 % arch.vaPages := by
    have hp0 : copyPage base 0 / 4096 = base / 4096 := by
      rw [copyPage_zero (by omega)]
      omega
    have hp1 : copyPage base arch.vaPages / 4096 = base / 4096 + arch.vaPages := by
      unfold copyPage wordAdd wordSize
      omega
    rw [hp0, hp1, Nat.add_mod_right]
  have := C.stack.range.distinct 0 arch.vaPages h0 h1 (by
    rw [C.world.entryOf C.space C.zero, C.world.entryOf C.space C.zero, hsame])
  omega

theorem StackSpace.pageLoc_le (C : StackSpace reg arch k B Base W i A base top)
    (hP : StackPage base top P) :
    pageLoc arch buddyPages k ⟨A.root, true⟩ P + 4096 ≤ reg.mem + reg.size := by
  obtain ⟨mp, hmp, -, hloc⟩ := C.world.leafPage C.space C.zero (C.leaf hP)
  rw [hloc]
  cases hp : A.pages (P / 4096 % arch.vaPages) with
  | some q =>
    obtain ⟨f, hf⟩ := C.world.mapped C.space hp
    rw [hmp] at hf
    cases hf
    have hq := C.world.page_lt C.space hp
    rw [toVir_page C.window hq]
    exact Region.page_bound hq
  | none =>
    have := ((C.owned _ mp hmp).resolve_left (not_not.mpr hp)).1
    omega

/-! ### One pop -/

/-- The loop at the end of the cached page. -/
theorem StackSpace.popLoop_stuck (C : StackSpace reg arch k B Base W i A base top)
    (hmem : reg.mem + reg.size ≤ 10 * 2 ^ 60) (hpt : s.pt = ⟨A.root, true⟩)
    (hc : Cached arch buddyPages k ⟨A.root, true⟩ base top s P) (hsp : s.sp = P + 4096)
    (htop : s.sp ≤ top) {len : Nat} (hpos : 0 < len) (hlen : len ≤ 2 ^ 48) (turns : Nat)
    (buf : List UInt8) (pos : Nat) :
    s.popLoop arch buddyPages k turns buf pos len =
      .error (.undefined "operator>> does not end") := by
  induction turns generalizing buf pos with
  | zero => rfl
  | succ turns ih =>
    have hle := C.pageLoc_le hc.page
    have hfirst := hc.first
    have hptr := hc.ptr
    have hfits := C.stack.fits
    have hal := hc.page.aligned
    have hlow := hc.page.low
    have hend : wordAdd s.cacheBegin pageSize = s.cachePtr := by
      unfold wordAdd wordSize pageSize
      omega
    have hadd : wordAdd s.cachePtr len = s.cachePtr + len := by
      unfold wordAdd wordSize
      omega
    have hzero : wordSub s.cachePtr s.cachePtr = 0 := by
      unfold wordSub wordSize
      omega
    have hsp0 : wordAdd s.sp 0 = s.sp := wordAdd_zero (by omega)
    rw [UserstackStream.popLoop, if_neg (by omega), hend, hadd, if_neg (by omega)]
    simp only [hzero, hsp0]
    -- the same page again
    have hlow : base < s.sp := by omega
    obtain ⟨-, hrun⟩ := C.updateCache hpt hlow htop
    have hdown := pageRoundDown_eq (s.sp - 1)
    have hP : pageRoundDown (s.sp - 1) = P := by omega
    rw [hP, ← hptr, ← hfirst] at hrun
    have hlen0 : wordSub len 0 = len := by
      unfold wordSub wordSize
      omega
    have hsame : s.updateCache arch buddyPages k s.sp = .ok s := hrun
    rw [show ({ s with sp := s.sp } : UserstackStream) = s from rfl, hsame, ok_bind, hlen0]
    exact ih _ _

/-- A pop within the cached page. -/
theorem StackSpace.pop_in (C : StackSpace reg arch k B Base W i A base top)
    (hmem : reg.mem + reg.size ≤ 10 * 2 ^ 60)
    (I : OnStack arch buddyPages k ⟨A.root, true⟩ base top s)
    (hc : Cached arch buddyPages k ⟨A.root, true⟩ base top s P) {len : Nat}
    (hsp : s.sp = 0 → len = 0)
    (hin : s.sp + len ≤ P + 4096) :
    ∃ s', s.pop arch buddyPages k len = .ok (s', k.mem.view
        (fun d => userLoc arch buddyPages k ⟨A.root, true⟩ (s.sp + d)) len) ∧
        s'.sp = s.sp + len ∧
      OnStack arch buddyPages k ⟨A.root, true⟩ base top s' ∧
      Cached arch buddyPages k ⟨A.root, true⟩ base top s' P := by
  have hle := C.pageLoc_le hc.page
  have hfits := C.stack.fits
  have htop := C.stack.aligned
  have hal := hc.page.aligned
  have hPtop := hc.page.high
  have hlow := I.low
  have hclow := hc.low
  unfold UserstackStream.pop
  by_cases h0 : s.sp = 0
  · obtain rfl := hsp h0
    rw [if_pos h0]
    exact ⟨_, rfl, rfl, I.setErrno _, hc.page, hc.low, hc.high, hc.first, hc.ptr⟩
  have hadd : wordAdd s.sp len = s.sp + len := by
    unfold wordAdd wordSize
    omega
  rw [if_neg h0, if_neg (by rw [hadd, I.stackEnd]; omega), UserstackStream.popLoop]
  by_cases hlen : len = 0
  · subst hlen
    rw [if_pos rfl]
    exact ⟨_, rfl, rfl, I.setErrno _, hc.page, hc.low, hc.high, hc.first, hc.ptr⟩
  · have hptr := hc.ptr
    have hend : wordAdd s.cacheBegin pageSize =
        pageLoc arch buddyPages k ⟨A.root, true⟩ P + 4096 := by
      rw [hc.first]
      unfold wordAdd wordSize pageSize
      omega
    have haddp : wordAdd s.cachePtr len = s.cachePtr + len := by
      unfold wordAdd wordSize
      omega
    rw [if_neg hlen, hend, haddp, if_pos (by omega), hadd]
    have hc' : Cached arch buddyPages k ⟨A.root, true⟩ base top
        { s with sp := s.sp + len, cachePtr := s.cachePtr + len, errno := .ok } P := by
      refine ⟨hc.page, by simp only; omega, hin, hc.first, ?_⟩
      simp only [hptr]
      omega
    refine ⟨{ s with sp := s.sp + len, cachePtr := s.cachePtr + len, errno := .ok }, ?_, rfl,
      ⟨I.stackBase, I.stackEnd, I.table, by simp only; omega, by simp only; omega, P, hc'⟩,
      hc'⟩
    rw [List.take_nil, List.nil_append, Mem.view_load fun d hd => ?_]
    rw [userLoc_eq hal (by omega) (by omega), hptr]
    omega

/-- A pop past the end of the cached page does not end, whatever number of turns it is given. -/
theorem StackSpace.popLoop_out (C : StackSpace reg arch k B Base W i A base top)
    (hmem : reg.mem + reg.size ≤ 10 * 2 ^ 60)
    (I : OnStack arch buddyPages k ⟨A.root, true⟩ base top s)
    (hc : Cached arch buddyPages k ⟨A.root, true⟩ base top s P) {len : Nat}
    (hout : P + 4096 < s.sp + len) (hlen : s.sp + len ≤ top) (turns : Nat) (buf : List UInt8)
    (pos : Nat) :
    s.popLoop arch buddyPages k turns buf pos len =
      .error (.undefined "operator>> does not end") := by
  cases turns with
  | zero => rfl
  | succ turns =>
    have hle := C.pageLoc_le hc.page
    have hfits := C.stack.fits
    have hsize := C.size_le
    have hal := hc.page.aligned
    have hclow := hc.low
    have hhigh := hc.high
    have hlow := I.low
    have hptr := hc.ptr
    have hfirst := hc.first
    have hend : wordAdd s.cacheBegin pageSize =
        pageLoc arch buddyPages k ⟨A.root, true⟩ P + 4096 := by
      rw [hc.first]
      unfold wordAdd wordSize pageSize
      omega
    have haddp : wordAdd s.cachePtr len = s.cachePtr + len := by
      unfold wordAdd wordSize
      omega
    have hl : wordSub (pageLoc arch buddyPages k ⟨A.root, true⟩ P + 4096) s.cachePtr =
        P + 4096 - s.sp := by
      rw [wordSub_of_le (by omega) (by omega)]
      omega
    have hsp' : wordAdd s.sp (P + 4096 - s.sp) = P + 4096 := by
      unfold wordAdd wordSize
      omega
    rw [UserstackStream.popLoop, if_neg (by omega), hend, haddp, if_neg (by omega)]
    simp only [hl, hsp']
    obtain ⟨s₁, hrun, hs₁, hc₁⟩ :=
      C.updateCache_cached (s := { s with sp := P + 4096 }) I.table
      (by have := hc.page.low; simp only; omega) (by simp only; omega)
    have hdown := pageRoundDown_eq (P + 4096 - 1)
    have hP : pageRoundDown (P + 4096 - 1) = P := by omega
    simp only [hP] at hc₁ hrun
    have hsub : wordSub len (P + 4096 - s.sp) = len - (P + 4096 - s.sp) := by
      rw [wordSub_of_le (by omega) (by omega)]
    have hsp₁ : s₁.sp = P + 4096 := by rw [hs₁]
    rw [hrun, ok_bind, hsub]
    exact C.popLoop_stuck hmem (by rw [hs₁]; exact I.table) hc₁ hsp₁ (by omega) (by omega)
      (by omega) turns _ _

theorem StackSpace.pop_out (C : StackSpace reg arch k B Base W i A base top)
    (hmem : reg.mem + reg.size ≤ 10 * 2 ^ 60)
    (I : OnStack arch buddyPages k ⟨A.root, true⟩ base top s)
    (hc : Cached arch buddyPages k ⟨A.root, true⟩ base top s P) {len : Nat} (hsp : s.sp ≠ 0)
    (hout : P + 4096 < s.sp + len) (hlen : s.sp + len ≤ top) :
    s.pop arch buddyPages k len = .error (.undefined "operator>> does not end") := by
  have hfits := C.stack.fits
  have hadd : wordAdd s.sp len = s.sp + len := by
    unfold wordAdd wordSize
    omega
  unfold UserstackStream.pop
  rw [if_neg hsp, if_neg (by rw [hadd, I.stackEnd]; omega)]
  exact C.popLoop_out hmem I hc hout hlen _ _ _

/-! ### Sequences -/

/-- The number of bytes of all buffers. -/
def total (bufs : List (List UInt8)) : Nat := bufs.flatten.length

theorem total_cons (buf : List UInt8) (bufs : List (List UInt8)) :
    total (buf :: bufs) = buf.length + total bufs := by
  simp [total]

theorem total_reverse (bufs : List (List UInt8)) : total bufs.reverse = total bufs := by
  induction bufs with
  | nil => rfl
  | cons buf bufs ih =>
    rw [total_cons, ← ih]
    simp [total]
    omega

/-- Empty pushes leave all but the error code as it is. -/
theorem OnStack.pushAll_empty (bufs : List (List UInt8))
    (I : OnStack arch buddyPages k ⟨A.root, true⟩ base top s) (hsp : s.sp < 2 ^ 64)
    (h0 : total bufs = 0) :
    ∃ e, s.pushAll arch buddyPages k bufs = .ok ({ s with errno := e }, k) := by
  induction bufs generalizing s with
  | nil => exact ⟨s.errno, rfl⟩
  | cons buf bufs ih =>
    rw [total_cons] at h0
    obtain rfl : buf = [] := List.length_eq_zero_iff.mp (by omega)
    have hone : ∃ e, s.push arch buddyPages k [] = .ok ({ s with errno := e }, k) := by
      unfold UserstackStream.push
      split
      · exact ⟨_, rfl⟩
      · have hlow := I.low
        rw [if_neg (by
          rw [List.length_nil, wordSub_of_le (Nat.zero_le _) hsp, I.stackBase]
          omega)]
        exact ⟨_, rfl⟩
    obtain ⟨e, hone⟩ := hone
    obtain ⟨e', hrest⟩ := ih (I.setErrno e) hsp (by omega)
    refine ⟨e', ?_⟩
    rw [UserstackStream.pushAll, hone, ok_bind, hrest]

/-- The pushes, with the page that the cache is in after them. -/
theorem StackSpace.pushAll (bufs : List (List UInt8))
    (C : StackSpace reg arch k B Base W i A base top)
    (I : OnStack arch buddyPages k ⟨A.root, true⟩ base top s)
    (hfit : base + total bufs ≤ s.sp) :
    ∃ s' k', s.pushAll arch buddyPages k bufs = .ok (s', k') ∧
      StackSpace reg arch k' B Base W i A base top ∧
      Pushed arch A base top k s bufs.reverse.flatten s' k' ∧
      (0 < total bufs →
        Cached arch buddyPages k' ⟨A.root, true⟩ base top s' (pageRoundDown s'.sp)) := by
  induction bufs generalizing k s with
  | nil =>
    exact ⟨s, k, rfl, C, ⟨rfl, I, .refl _ _ _ (Nat.le_refl _)⟩,
      fun h => absurd h (by decide)⟩
  | cons buf bufs ih =>
    rw [total_cons] at hfit
    have hhigh := I.high
    have hfits := C.stack.fits
    have hroom : base + buf.length ≤ s.sp := by omega
    obtain ⟨s₁, k₁, hrun₁, C₁, hp₁, hpage₁⟩ := C.push_fits I hroom
    have hsp₁ := hp₁.sp
    obtain ⟨s', k', hrun, C', hp, hpage⟩ := ih C₁ hp₁.stack (by omega)
    have hlen : bufs.reverse.flatten.length = total bufs := total_reverse bufs
    have hcons : (buf :: bufs).reverse.flatten = bufs.reverse.flatten ++ buf := by simp
    refine ⟨s', k', ?_, C', ?_, fun hpos => ?_⟩
    · rw [UserstackStream.pushAll, hrun₁, ok_bind, hrun]
    · rw [hcons]
      exact hp₁.trans hp C C₁ hhigh (by omega)
    · by_cases h0 : 0 < total bufs
      · exact hpage h0
      · -- the pushes after this one are empty
        obtain ⟨e, hempty⟩ := hp₁.stack.pushAll_empty bufs (by omega) (by omega)
        rw [hempty] at hrun
        cases hrun
        rw [total_cons] at hpos
        have hc := hpage₁ (by omega)
        exact ⟨hc.page, hc.low, hc.high, hc.first, hc.ptr⟩

/-- Pops that stay in the cached page. -/
theorem StackSpace.popAll_in (bufs : List (List UInt8))
    (C : StackSpace reg arch k B Base W i A base top)
    (hmem : reg.mem + reg.size ≤ 10 * 2 ^ 60)
    (I : OnStack arch buddyPages k ⟨A.root, true⟩ base top s)
    (hc : Cached arch buddyPages k ⟨A.root, true⟩ base top s P)
    (hsp : s.sp = 0 → total bufs = 0) (hin : s.sp + total bufs ≤ P + 4096)
    (hbytes : ∀ d < total bufs, k.mem (userLoc arch buddyPages k ⟨A.root, true⟩ (s.sp + d)) =
      bufs.flatten.getD d 0) :
    ∃ s', s.popAll arch buddyPages k (bufs.map List.length) = .ok (s', bufs) ∧
      s'.sp = s.sp + total bufs := by
  induction bufs generalizing s with
  | nil => exact ⟨s, rfl, rfl⟩
  | cons buf bufs ih =>
    rw [total_cons] at hsp hin hbytes ⊢
    have hpage : s.sp + buf.length ≤ P + 4096 := by omega
    obtain ⟨s₁, hrun₁, hsp₁, I₁, hc₁⟩ := C.pop_in hmem I hc
      (fun h => by have := hsp h; omega) hpage
    have hview : k.mem.view (fun d => userLoc arch buddyPages k ⟨A.root, true⟩ (s.sp + d))
        buf.length = buf := by
      refine Mem.view_eq fun d hd => ?_
      rw [hbytes d (by omega), List.flatten_cons, List.getD_eq_getElem?_getD,
        List.getD_eq_getElem?_getD, List.getElem?_append_left hd]
    obtain ⟨s', hrun, hsp'⟩ := ih I₁ hc₁ (fun h => by have := hsp (by omega); omega)
        (by omega) (by
      intro d hd
      rw [hsp₁, Nat.add_assoc, hbytes (buf.length + d) (by omega), List.flatten_cons,
        List.getD_eq_getElem?_getD, List.getD_eq_getElem?_getD,
        List.getElem?_append_right (by omega), Nat.add_sub_cancel_left])
    refine ⟨s', ?_, by omega⟩
    rw [List.map_cons, UserstackStream.popAll, hrun₁, ok_bind, hrun, ok_bind, hview]

/-- Pops that go past the end of the cached page do not end. -/
theorem StackSpace.popAll_out (lens : List Nat) (C : StackSpace reg arch k B Base W i A base top)
    (hmem : reg.mem + reg.size ≤ 10 * 2 ^ 60)
    (I : OnStack arch buddyPages k ⟨A.root, true⟩ base top s)
    (hc : Cached arch buddyPages k ⟨A.root, true⟩ base top s P) (hsp : s.sp ≠ 0)
    (hout : P + 4096 < s.sp + lens.sum) (htop : s.sp + lens.sum ≤ top) :
    s.popAll arch buddyPages k lens = .error (.undefined "operator>> does not end") := by
  induction lens generalizing s with
  | nil =>
    have := hc.high
    simp only [List.sum_nil] at hout
    omega
  | cons len lens ih =>
    rw [List.sum_cons] at hout htop
    by_cases hin : s.sp + len ≤ P + 4096
    · obtain ⟨s₁, hrun₁, hsp₁, I₁, hc₁⟩ :=
        C.pop_in hmem I hc (fun h => absurd h hsp) hin
      rw [UserstackStream.popAll, hrun₁, ok_bind, ih I₁ hc₁ (by omega) (by omega) (by omega),
        error_bind]
    · rw [UserstackStream.popAll, C.pop_out hmem I hc hsp (by omega) (by omega), error_bind]

/-- Pops with the stack pointer at zero give nothing. -/
theorem popAll_notOpen (lens : List Nat) (h0 : s.sp = 0) :
    ∃ s', s.popAll arch buddyPages k lens = .ok (s', lens.map fun _ => []) := by
  induction lens generalizing s with
  | nil => exact ⟨s, rfl⟩
  | cons len lens ih =>
    obtain ⟨s', hrun⟩ := ih (s := { s with errno := .notOpen }) h0
    refine ⟨s', ?_⟩
    rw [UserstackStream.popAll, UserstackStream.pop, if_pos h0, ok_bind]
    simp only [hrun, ok_bind, List.map_cons]

theorem total_nil (lens : List Nat) : total (lens.map fun _ => []) = 0 := by
  induction lens with
  | nil => rfl
  | cons len lens ih => rw [List.map_cons, total_cons, ih, List.length_nil]

theorem sum_lengths (bufs : List (List UInt8)) : (bufs.map List.length).sum = total bufs := by
  rw [total, List.length_flatten]

/-- Pops undo pushes in one page, and no others. -/
theorem StackSpace.popsUndo_iff (C : StackSpace reg arch k B Base W i A base top)
    (hmem : reg.mem + reg.size ≤ 10 * 2 ^ 60)
    (I : OnStack arch buddyPages k ⟨A.root, true⟩ base top s) (bufs : List (List UInt8))
    (hfit : base + total bufs ≤ s.sp) :
    s.PopsUndo arch buddyPages k bufs ↔
      total bufs ≤ (s.sp - 1) % 4096 + 1 ∧ (total bufs = 0 ∨ total bufs < s.sp) := by
  obtain ⟨s₁, k₁, hpush, C₁, hp, hpage⟩ := C.pushAll bufs I hfit
  have hlen : bufs.reverse.flatten.length = total bufs := total_reverse bufs
  have hsp₁ := hp.sp
  rw [hlen] at hsp₁
  have hhigh := I.high
  have hdown := pageRoundDown_eq s₁.sp
  constructor
  · rintro ⟨s₁', k₁', s₂, hpush', hpop, hsp₂⟩
    rw [hpush] at hpush'
    cases hpush'
    by_cases h0 : total bufs = 0
    · exact ⟨by omega, .inl h0⟩
    have hzero : s₁.sp ≠ 0 := by
      intro hz
      obtain ⟨s', hnone⟩ : ∃ s',
          s₁.popAll arch buddyPages k₁ (bufs.reverse.map List.length) =
          .ok (s', (bufs.reverse.map List.length).map fun _ => []) := popAll_notOpen _ hz
      rw [hnone] at hpop
      injection hpop with hpop
      have hbufs := (Prod.mk.inj hpop).2
      refine h0 ?_
      rw [← total_reverse, ← hbufs, total_nil]
    refine ⟨?_, .inr (by omega)⟩
    by_contra hlt
    rw [C₁.popAll_out _ hmem hp.stack (hpage (by omega)) hzero] at hpop
    · cases hpop
    · rw [sum_lengths, total_reverse]
      omega
    · rw [sum_lengths, total_reverse]
      omega
  · rintro ⟨hone, hzero⟩
    have hbytes : ∀ d < total bufs.reverse,
        k₁.mem (userLoc arch buddyPages k₁ ⟨A.root, true⟩
        (s₁.sp + d)) = bufs.reverse.flatten.getD d 0 := by
      intro d hd
      rw [total_reverse] at hd
      rw [C.userLoc_congr C₁, hp.bytes.inside _ (by omega) (by omega), hlen]
      congr 1
      omega
    have hcached : ∃ P, Cached arch buddyPages k₁ ⟨A.root, true⟩ base top s₁ P ∧
        s₁.sp + total bufs.reverse ≤ P + 4096 := by
      rw [total_reverse]
      by_cases h0 : total bufs = 0
      · obtain ⟨P, hc⟩ := hp.stack.cached
        have := hc.high
        exact ⟨P, hc, by omega⟩
      · exact ⟨_, hpage (by omega), by omega⟩
    obtain ⟨P, hc, hin⟩ := hcached
    obtain ⟨s₂, hpop, hsp₂⟩ := C₁.popAll_in bufs.reverse hmem hp.stack hc
      (by rw [total_reverse]; omega) hin hbytes
    refine ⟨s₁, k₁, s₂, hpush, hpop, ?_⟩
    rw [total_reverse] at hsp₂
    omega

/-- In every state that pushes and moves reach, pops in reverse order undo pushes that fit exactly
if all the bytes are in one page, and the stack pointer does not come down to zero. -/
theorem userstack_pops_iff (reg : Region) (arch : Arch) (k₀ : Kernel BuddyAllocator) (B : Blocks)
    (Base : Nat → Nat → Prop) (W : Spaces ι) (i : ι) (A : AddrSpace) (base top : Nat)
    (C : StackSpace reg arch k₀ B Base W i A base top) (hmem : reg.mem + reg.size ≤ 10 * 2 ^ 60)
    (k : Kernel BuddyAllocator) (s : UserstackStream)
    (hrun : StackRun arch ⟨A.root, true⟩ base top k₀ k s) (bufs : List (List UInt8))
    (hfit : base + total bufs ≤ s.sp) :
    s.PopsUndo arch buddyPages k bufs ↔
      total bufs ≤ (s.sp - 1) % 4096 + 1 ∧ (total bufs = 0 ∨ total bufs < s.sp) := by
  obtain ⟨C', I⟩ := hrun.onStack C
  exact C'.popsUndo_iff hmem I bufs hfit

end

/-- Two pushes in one page of the sample stack are undone. -/
theorem userstack_pops_iff_sample : ∃ (k : Kernel BuddyAllocator) (s : UserstackStream),
    s.sp = 0x11000 ∧ s.PopsUndo .riscv buddyPages k [[1, 2, 3], [4, 5, 6, 7]] := by
  obtain ⟨k, B, Base, A, C⟩ := sample_stack 0 16 (by decide) (by decide)
  obtain ⟨s, hopen, hsp, -⟩ := C.openStack
  refine ⟨k, s, hsp, ?_⟩
  refine (userstack_pops_iff sampleRegion .riscv k B Base _ () A _ _ C (by decide) k s
    (.opened hopen) [[1, 2, 3], [4, 5, 6, 7]] ?_).mpr ?_
  · rw [hsp]
    decide
  · rw [hsp]
    decide

/-- Pushes of a page and of one byte more, on a stack of two pages: the second pop does not end. -/
theorem userstack_pop_hangs : ∃ (k₀ k : Kernel BuddyAllocator) (B : Blocks)
    (Base : Nat → Nat → Prop) (A : AddrSpace) (s s₁ : UserstackStream),
    StackSpace sampleRegion .riscv k₀ B Base (fun _ : Unit => some A) () A 0x10000 0x12000 ∧
      (UserstackStream.new 0x10000 0x2000 ⟨A.root, true⟩).openStack .riscv buddyPages k₀ =
      .ok s ∧
      s.pushAll .riscv buddyPages k₀ [List.replicate 4096 7, [1]] = .ok (s₁, k) ∧
      s₁.popAll .riscv buddyPages k [1, 4096] =
        .error (.undefined "operator>> does not end") := by
  obtain ⟨k₀, B, Base, A, C⟩ := sample_stack 1 16 (by decide) (by decide)
  obtain ⟨s, hopen, hsp, I⟩ := C.openStack
  have htotal : total [List.replicate 4096 7, [1]] = 4097 := by
    rw [total_cons, total_cons, List.length_replicate]
    rfl
  obtain ⟨s₁, k, hpush, C₁, hp, hpage⟩ := C.pushAll [List.replicate 4096 7, [1]] I
    (by rw [htotal, hsp]; decide)
  have hsp₁ : s₁.sp = 0x10FFF := by
    have hlen := total_reverse [List.replicate 4096 7, [1]]
    rw [htotal, total] at hlen
    rw [hp.sp, hsp, hlen]
    rfl
  have hc := hpage (by rw [htotal]; decide)
  rw [hsp₁, show pageRoundDown 0x10FFF = 0x10000 from rfl] at hc
  refine ⟨k₀, k, B, Base, A, s, s₁, C, hopen, hpush, ?_⟩
  exact C₁.popAll_out [1, 4096] (by decide) hp.stack hc (by rw [hsp₁]; decide)
    (by rw [hsp₁]; decide) (by rw [hsp₁]; decide)

end OsKernel.Mm

import OsKernel.Mm.Userstack.Model
import OsKernel.Mm.Vmm.RoundTrip

/-! What `UserstackStream` stores.  The cache is in some page of the stack that has the stack
pointer in it or at its end; a push goes down page by page, and every byte of it lands at the
physical address of its user address. -/

namespace OsKernel.Mm

open Lib Hsai Lib.BuddySystem BuddyAllocator

section

variable {σ : Type} (arch : Arch) (V : VirtualPageAllocator σ) (k : Kernel σ) (pt : PageTable)

/-- The kernel's address of the page at the user address `a`. -/
def pageLoc (a : Nat) : Nat := arch.toVir (arch.toPa (entryOf arch V k pt a))

/-- A user stack from `base` to `top`: its pages are mapped for the user, and the kernel's addresses
of them exceed its size. -/
structure UserStack (base top : Nat) : Prop where
  nonempty : base < top
  aligned : top % 4096 = 0
  fits : top < 2 ^ 64
  range : UserRange arch V k pt base (top - base)
  above : ∀ j, Reached base (top - base) j → top - base < pageLoc arch V k pt (copyPage base j)

/-- `P` is a page with bytes of the stack. -/
structure StackPage (base top P : Nat) : Prop where
  aligned : P % 4096 = 0
  low : base < P + 4096
  high : P < top

/-- The cache of the stream is in the page `P`, and at the stack pointer. -/
structure Cached (base top : Nat) (s : UserstackStream) (P : Nat) : Prop where
  page : StackPage base top P
  low : P ≤ s.sp
  high : s.sp ≤ P + 4096
  first : s.cacheBegin = pageLoc arch V k pt P
  ptr : s.cachePtr = pageLoc arch V k pt P + (s.sp - P)

/-- An open stream on the stack. -/
structure OnStack (base top : Nat) (s : UserstackStream) : Prop where
  stackBase : s.stackBase = base
  stackEnd : s.stackEnd = top
  table : s.pt = pt
  low : base ≤ s.sp
  high : s.sp ≤ top
  cached : ∃ P, Cached arch V k pt base top s P

end

/-- A user stack in one of the address spaces on the region. -/
structure StackSpace (reg : Region) (arch : Arch) (k : Kernel BuddyAllocator) (B : Blocks)
    (Base : Nat → Nat → Prop) {ι : Type} (W : Spaces ι) (i : ι) (A : AddrSpace)
    (base top : Nat) :
    Prop where
  window : reg.InWindow arch
  world : World reg arch k B Base W
  space : W i = some A
  zero : A.base = 0
  owned : A.Owned reg arch
  stack : UserStack arch buddyPages k ⟨A.root, true⟩ base top

section

variable {reg : Region} {arch : Arch} {k k' : Kernel BuddyAllocator} {B : Blocks}
  {Base : Nat → Nat → Prop} {ι : Type} {W : Spaces ι} {i : ι} {A : AddrSpace}
  {base top P : Nat} {s s' : UserstackStream}

/-! ### The pages of the stack -/

theorem StackPage.reached (h : StackPage base top P) (hne : base < top) (hlt : top < 2 ^ 64) :
    ∃ j, Reached base (top - base) j ∧ copyPage base j = P := by
  obtain ⟨hal, hlow, hhigh⟩ := h
  have hdown := pageRoundDown_eq base
  refine ⟨(P - pageRoundDown base) / 4096, ⟨by omega, by omega⟩, ?_⟩
  unfold copyPage wordAdd wordSize
  omega

/-- The address of a byte in the page `P`. -/
theorem userLoc_eq {V : VirtualPageAllocator BuddyAllocator} {pt : PageTable} {a : Nat}
    (hP : P % 4096 = 0) (hl : P ≤ a) (hu : a < P + 4096) :
    userLoc arch V k pt a = pageLoc arch V k pt P + (a - P) := by
  have hdown := pageRoundDown_eq a
  unfold userLoc pageLoc
  rw [show pageRoundDown a = P by omega, show a % 4096 = a - P by omega]

theorem toVir_or {pa off : Nat} (hpa : pa % 4096 = 0) (hoff : off < 4096)
    (hlt : pa < arch.physLimit) : arch.toVir (pa ||| off) = arch.toVir pa + off := by
  have hor : pa ||| off = pa + off := by
    have := Nat.two_pow_add_eq_or_of_lt (i := 12) hoff (pa / 4096)
    rw [show 2 ^ 12 * (pa / 4096) = pa by omega] at this
    exact this.symm
  rw [hor]
  cases arch with
  | riscv => rfl
  | loongarch =>
    simp only [Arch.physLimit] at hlt
    rw [Arch.toVir_loongarch, Arch.toVir_loongarch]
    omega

/-! ### Pages of a user -/

section

variable (H : World reg arch k B Base W) (hw : reg.InWindow arch) (hi : W i = some A)
  (hb : A.base = 0) (ho : A.Owned reg arch)

include H hi hb

/-- The mapping of a page of the user. -/
theorem World.leafPage (hleaf : UserLeaf arch buddyPages k ⟨A.root, true⟩ P) :
    ∃ mp, A.map (P / 4096 % arch.vaPages) = some mp ∧ mp.Ok arch ∧
      pageLoc arch buddyPages k ⟨A.root, true⟩ P = arch.toVir mp.page := by
  obtain ⟨mp, hmp, hok, hentry⟩ := H.validLeaf hi hb hleaf.1
  refine ⟨mp, hmp, hok, ?_⟩
  unfold pageLoc
  rw [hentry, hok.toPa]

theorem World.pageLoc_mod (hleaf : UserLeaf arch buddyPages k ⟨A.root, true⟩ P) :
    pageLoc arch buddyPages k ⟨A.root, true⟩ P % 4096 = 0 := by
  obtain ⟨mp, -, hok, hloc⟩ := H.leafPage hi hb hleaf
  rw [hloc]
  exact toVir_mod hok.aligned

include hw ho

/-- No page is at the end of the address space: the pages of the region are followed by their info
bytes. -/
theorem World.pageLoc_lt (hleaf : UserLeaf arch buddyPages k ⟨A.root, true⟩ P) :
    pageLoc arch buddyPages k ⟨A.root, true⟩ P + 4096 < 2 ^ 64 := by
  obtain ⟨mp, hmp, -, hloc⟩ := H.leafPage hi hb hleaf
  obtain ⟨-, hinfos, -, hsum⟩ := reg.infos_le
  have hend := reg.end_le
  have hge := reg.size_ge
  rw [hloc]
  cases hp : A.pages (P / 4096 % arch.vaPages) with
  | some q =>
    obtain ⟨f, hf⟩ := H.mapped hi hp
    rw [hmp] at hf
    cases hf
    have hq := H.page_lt hi hp
    rw [toVir_page hw hq]
    simp only [Region.addr]
    omega
  | none =>
    have := ((ho _ mp hmp).resolve_left (not_not.mpr hp)).1
    omega

/-- Stores in a page of the user. -/
theorem World.storeLeaf (hleaf : UserLeaf arch buddyPages k ⟨A.root, true⟩ P) {p : Nat}
    {l : List UInt8} (hl : pageLoc arch buddyPages k ⟨A.root, true⟩ P ≤ p)
    (hu : p + l.length ≤ pageLoc arch buddyPages k ⟨A.root, true⟩ P + 4096) :
    World reg arch { k with mem := k.mem.store p l } B Base W := by
  obtain ⟨mp, hmp, hok, hloc⟩ := H.leafPage hi hb hleaf
  rw [hloc] at hl hu
  exact H.storeMapped hw hi ho hmp fun x hx => Mem.store_outside (by omega)

end

namespace StackSpace

theorem leaf (C : StackSpace reg arch k B Base W i A base top) (hP : StackPage base top P) :
    UserLeaf arch buddyPages k ⟨A.root, true⟩ P := by
  obtain ⟨j, hj, rfl⟩ := hP.reached C.stack.nonempty C.stack.fits
  exact C.stack.range.leaf j hj

theorem size_lt (C : StackSpace reg arch k B Base W i A base top) (hP : StackPage base top P) :
    top - base < pageLoc arch buddyPages k ⟨A.root, true⟩ P := by
  obtain ⟨j, hj, rfl⟩ := hP.reached C.stack.nonempty C.stack.fits
  exact C.stack.above j hj

theorem pageLoc_lt (C : StackSpace reg arch k B Base W i A base top) (hP : StackPage base top P) :
    pageLoc arch buddyPages k ⟨A.root, true⟩ P + 4096 < 2 ^ 64 :=
  C.world.pageLoc_lt C.window C.space C.zero C.owned (C.leaf hP)

theorem pageLoc_mod (C : StackSpace reg arch k B Base W i A base top) (hP : StackPage base top P) :
    pageLoc arch buddyPages k ⟨A.root, true⟩ P % 4096 = 0 :=
  C.world.pageLoc_mod C.space C.zero (C.leaf hP)

/-- Different bytes of the stack are at different addresses. -/
theorem loc_inj (C : StackSpace reg arch k B Base W i A base top) {a b : Nat} (ha : base ≤ a)
    (ha' : a < top) (hb : base ≤ b) (hb' : b < top)
    (h : userLoc arch buddyPages k ⟨A.root, true⟩ a =
      userLoc arch buddyPages k ⟨A.root, true⟩ b) : a = b := by
  have hfits := C.stack.fits
  have hadd : ∀ x, base ≤ x → x < top → wordAdd base (x - base) = x := by
    intro x hl hu
    unfold wordAdd wordSize
    omega
  have := C.world.userLoc_inj C.space C.zero C.stack.range (d := a - base) (e := b - base)
    (by omega) (by omega) (by rw [hadd a ha ha', hadd b hb hb', h])
  omega

theorem pageLoc_congr (C : StackSpace reg arch k B Base W i A base top)
    (C' : StackSpace reg arch k' B Base W i A base top) :
    pageLoc arch buddyPages k' ⟨A.root, true⟩ =
      pageLoc arch buddyPages k ⟨A.root, true⟩ := by
  unfold pageLoc
  rw [C.world.entryOf_congr C'.world C.space C.zero]

theorem userLoc_congr (C : StackSpace reg arch k B Base W i A base top)
    (C' : StackSpace reg arch k' B Base W i A base top) :
    userLoc arch buddyPages k' ⟨A.root, true⟩ = userLoc arch buddyPages k ⟨A.root, true⟩ :=
  C.world.userLoc_congr C'.world C.space C.zero

/-- Stores in a page of the stack. -/
theorem store (C : StackSpace reg arch k B Base W i A base top) (hP : StackPage base top P)
    {p : Nat} {l : List UInt8} (hl : pageLoc arch buddyPages k ⟨A.root, true⟩ P ≤ p)
    (hu : p + l.length ≤ pageLoc arch buddyPages k ⟨A.root, true⟩ P + 4096) :
    StackSpace reg arch { k with mem := k.mem.store p l } B Base W i A base top := by
  have H := C.world.storeLeaf C.window C.space C.zero C.owned (C.leaf hP) hl hu
  refine ⟨C.window, H, C.space, C.zero, C.owned, C.stack.nonempty, C.stack.aligned, C.stack.fits,
    C.stack.range.congr C.world H C.space C.zero, ?_⟩
  unfold pageLoc
  rw [C.world.entryOf_congr H C.space C.zero]
  exact C.stack.above

end StackSpace

/-- `walk_addr` at a user leaf. -/
theorem World.walkAddr_user (H : World reg arch k B Base W) (hi : W i = some A) (hb : A.base = 0)
    {va : Nat} (hu : UserLeaf arch buddyPages k ⟨A.root, true⟩ (pageRoundDown va)) :
    ∃ pa, walkAddr arch buddyPages k ⟨A.root, true⟩ va = .ok pa ∧
      arch.toVir pa = userLoc arch buddyPages k ⟨A.root, true⟩ va := by
  obtain ⟨mp, hmp, hok, hentry⟩ := H.validLeaf hi hb hu.1
  have hdown := pageRoundDown_eq va
  have hmod : va &&& (pageSize - 1) = va % 4096 := by
    rw [show pageSize - 1 = 2 ^ 12 - 1 from rfl, Nat.and_two_pow_sub_one_eq_mod]
  rw [show pageRoundDown va / 4096 = va / 4096 by omega] at hmp
  rcases walk_find (V := buddyPages) (H.tables hi) va with
      ⟨l, hrun, hnone⟩ | ⟨pte, hrun, hpte⟩
  · obtain ⟨pte, hpte, -⟩ := (H.represents hi).leafPte hmp
    rw [Nat.mod_mod, hnone] at hpte
    cases hpte
  have hpos := (H.tables hi).leafPte_pos hpte
  have hpd : pteData k.mem pte = mp.data arch := by
    have he := H.entryOf hi hb va
    unfold Mm.entryOf at he
    rw [hrun, hmp] at he
    exact he
  have hs := hu.2
  rw [hentry] at hs
  refine ⟨mp.page ||| va % 4096, ?_, ?_⟩
  · rw [walkAddr, hrun, ok_bind]
    simp only [if_neg hpos, hpd, hok.isValid, hs, hmod, hok.toPa, Bool.not_true,
      Bool.false_eq_true, if_false]
  · rw [toVir_or hok.aligned (Nat.mod_lt _ (by decide)) hok.lt, userLoc, hentry, hok.toPa]

/-! ### The cache -/

/-- `_update_cache` at an address of the stack: the page of the byte below it. -/
theorem StackSpace.updateCache (C : StackSpace reg arch k B Base W i A base top)
    {s : UserstackStream} {va : Nat} (hpt : s.pt = ⟨A.root, true⟩) (hl : base < va)
    (hu : va ≤ top) :
    StackPage base top (pageRoundDown (va - 1)) ∧
      s.updateCache arch buddyPages k va = .ok { s with
        cacheBegin := pageLoc arch buddyPages k ⟨A.root, true⟩ (pageRoundDown (va - 1))
        cachePtr := pageLoc arch buddyPages k ⟨A.root, true⟩ (pageRoundDown (va - 1)) +
          (va - pageRoundDown (va - 1)) } := by
  have hdown := pageRoundDown_eq (va - 1)
  have hfits := C.stack.fits
  have hP : StackPage base top (pageRoundDown (va - 1)) := ⟨by omega, by omega, by omega⟩
  refine ⟨hP, ?_⟩
  have hmod := C.pageLoc_mod hP
  have hle := C.pageLoc_lt hP
  unfold UserstackStream.updateCache
  by_cases hal : va % 4096 = 0
  · rw [if_pos (isPageAlign_iff.mpr hal), hpt]
    have hsub : wordSub va pageSize = pageRoundDown (va - 1) := by
      rw [wordSub_of_le (by unfold pageSize; omega) (by omega)]
      unfold pageSize
      omega
    have hdd : pageRoundDown (pageRoundDown (va - 1)) = pageRoundDown (va - 1) := by
      have := pageRoundDown_eq (pageRoundDown (va - 1))
      omega
    have hleaf : UserLeaf arch buddyPages k ⟨A.root, true⟩
        (pageRoundDown (pageRoundDown (va - 1))) := by
      rw [hdd]
      exact C.leaf hP
    obtain ⟨pa, hwalk, hpa⟩ := C.world.walkAddr_user C.space C.zero hleaf
    rw [userLoc_eq hP.aligned (Nat.le_refl _) (by omega), Nat.sub_self, Nat.add_zero] at hpa
    have hadd : wordAdd (pageLoc arch buddyPages k ⟨A.root, true⟩ (pageRoundDown (va - 1)))
        pageSize = pageLoc arch buddyPages k ⟨A.root, true⟩ (pageRoundDown (va - 1)) +
          (va - pageRoundDown (va - 1)) := by
      rw [show va - pageRoundDown (va - 1) = 4096 by omega]
      unfold wordAdd wordSize pageSize
      omega
    rw [hsub, hwalk, ok_bind]
    simp only [hpa, hadd]
  · rw [if_neg (by rw [isPageAlign_iff]; exact hal), hpt]
    have hdv : pageRoundDown va = pageRoundDown (va - 1) := by
      have := pageRoundDown_eq va
      omega
    have hleaf : UserLeaf arch buddyPages k ⟨A.root, true⟩ (pageRoundDown va) := by
      rw [hdv]
      exact C.leaf hP
    obtain ⟨pa, hwalk, hpa⟩ := C.world.walkAddr_user C.space C.zero hleaf
    rw [userLoc_eq hP.aligned (by omega) (by omega)] at hpa
    have hround : pageRoundDown
        (pageLoc arch buddyPages k ⟨A.root, true⟩ (pageRoundDown (va - 1)) +
        (va - pageRoundDown (va - 1))) =
        pageLoc arch buddyPages k ⟨A.root, true⟩ (pageRoundDown (va - 1)) := by
      have := pageRoundDown_eq (pageLoc arch buddyPages k ⟨A.root, true⟩
        (pageRoundDown (va - 1)) + (va - pageRoundDown (va - 1)))
      omega
    rw [hwalk, ok_bind]
    simp only [hpa, hround]

/-- The cache after `_update_cache` at the stack pointer. -/
theorem StackSpace.updateCache_cached (C : StackSpace reg arch k B Base W i A base top)
    {s : UserstackStream} (hpt : s.pt = ⟨A.root, true⟩) (hl : base < s.sp) (hu : s.sp ≤ top) :
    ∃ s', s.updateCache arch buddyPages k s.sp = .ok s' ∧
      s' = { s with cacheBegin := s'.cacheBegin, cachePtr := s'.cachePtr } ∧
      Cached arch buddyPages k ⟨A.root, true⟩ base top s' (pageRoundDown (s.sp - 1)) := by
  have hdown := pageRoundDown_eq (s.sp - 1)
  obtain ⟨hP, hrun⟩ := C.updateCache hpt hl hu
  exact ⟨_, hrun, rfl, hP, by simp only; omega, by simp only; omega, rfl, rfl⟩

/-! ### The loop -/

/-- The bytes `buf` are pushed: exactly the user bytes below the old stack pointer are stored. -/
structure Pushed (arch : Arch) (A : AddrSpace) (base top : Nat) (k : Kernel BuddyAllocator)
    (s : UserstackStream) (buf : List UInt8) (s' : UserstackStream) (k' : Kernel BuddyAllocator) :
    Prop where
  sp : s'.sp = s.sp - buf.length
  stack : OnStack arch buddyPages k' ⟨A.root, true⟩ base top s'
  bytes : Mem.Stored k.mem (userLoc arch buddyPages k ⟨A.root, true⟩)
    (fun a => buf.getD (a - (s.sp - buf.length)) 0) (s.sp - buf.length) s.sp k'.mem

/-- The part of a push that fits in the cached page. -/
theorem StackSpace.pushPage (C : StackSpace reg arch k B Base W i A base top)
    (hc : Cached arch buddyPages k ⟨A.root, true⟩ base top s P) {l : List UInt8}
    (hl : l.length ≤ s.sp - P) (hfit : base + l.length ≤ s.sp) :
    StackSpace reg arch { k with mem := k.mem.store (s.cachePtr - l.length) l } B Base W i A base
      top ∧ Mem.Stored k.mem (userLoc arch buddyPages k ⟨A.root, true⟩)
        (fun a => l.getD (a - (s.sp - l.length)) 0) (s.sp - l.length) s.sp
        (k.mem.store (s.cachePtr - l.length) l) := by
  have hlow := hc.low
  have hhigh := hc.high
  rw [hc.ptr]
  refine ⟨C.store hc.page (by omega) (by omega), .store (by omega) (fun a hla hua => ?_)
    fun a hla hua => rfl⟩
  rw [userLoc_eq hc.page.aligned (by omega) (by omega)]
  omega

theorem StackSpace.pushLoop (turns : Nat) (buf : List UInt8)
    (C : StackSpace reg arch k B Base W i A base top)
    (I : OnStack arch buddyPages k ⟨A.root, true⟩ base top s)
    (hc : Cached arch buddyPages k ⟨A.root, true⟩ base top s P)
    (hfit : base + buf.length ≤ s.sp)
    (hturns : buf.length + (if s.sp = P then 2 else 1) ≤ turns) :
    ∃ s' k', s.pushLoop arch buddyPages turns k buf = .ok (s', k') ∧
      StackSpace reg arch k' B Base W i A base top ∧ Pushed arch A base top k s buf s' k' ∧
      (0 < buf.length →
        Cached arch buddyPages k' ⟨A.root, true⟩ base top s' (pageRoundDown s'.sp)) := by
  induction turns generalizing k s P buf with
  | zero => split at hturns <;> omega
  | succ turns ih =>
    have hfits := C.stack.fits
    have hlow := hc.low
    have hhigh := hc.high
    have hsize := C.size_lt hc.page
    have hlt := C.pageLoc_lt hc.page
    have hsp := I.high
    have hbase := I.low
    rw [UserstackStream.pushLoop]
    by_cases h0 : buf.length = 0
    · rw [if_pos h0]
      refine ⟨_, k, rfl, C, ⟨by simp only; omega, ?_, .refl _ _ _ (by omega)⟩,
        fun h => by omega⟩
      exact ⟨I.stackBase, I.stackEnd, I.table, I.low, I.high, P, hc.page, hc.low, hc.high,
        hc.first, hc.ptr⟩
    rw [if_neg h0]
    have hsub : wordSub s.cachePtr buf.length = s.cachePtr - buf.length :=
      wordSub_of_le (by rw [hc.ptr]; omega) (by rw [hc.ptr]; omega)
    have hsub' : wordSub s.sp buf.length = s.sp - buf.length :=
      wordSub_of_le (by omega) (by omega)
    by_cases hin : buf.length ≤ s.sp - P
    · -- the rest fits in the page
      rw [if_pos (by rw [hsub, hc.first, hc.ptr]; omega), hsub, hsub']
      obtain ⟨C', hst⟩ := C.pushPage hc hin hfit
      have hc' : Cached arch buddyPages { k with mem := k.mem.store (s.cachePtr - buf.length) buf }
          ⟨A.root, true⟩ base top
          { s with cachePtr := s.cachePtr - buf.length, sp := s.sp - buf.length, errno := .ok }
            P := by
        refine ⟨hc.page, by simp only; omega, by simp only; omega, ?_, ?_⟩ <;>
          rw [C.pageLoc_congr C']
        · exact hc.first
        · simp only [hc.ptr]
          omega
      refine ⟨_, _, rfl, C', ⟨rfl, ⟨I.stackBase, I.stackEnd, I.table, by simp only; omega,
        by simp only; omega, P, hc'⟩, hst⟩, fun _ => ?_⟩
      have hdown := pageRoundDown_eq (s.sp - buf.length)
      have hal := hc.page.aligned
      simp only at hc' ⊢
      rwa [show pageRoundDown (s.sp - buf.length) = P by omega]
    · rw [if_neg (by rw [hsub, hc.first, hc.ptr]; omega),
        if_neg (by rw [hc.first, hc.ptr]; omega)]
      have hl : s.cachePtr - s.cacheBegin = s.sp - P := by
        rw [hc.first, hc.ptr]
        omega
      have hsubl : wordSub s.sp (s.sp - P) = P := by
        rw [wordSub_of_le (by omega) (by omega)]
        omega
      have hdrop : (buf.drop (buf.length - (s.sp - P))).length = s.sp - P := by
        rw [List.length_drop]
        omega
      have htake : (buf.take (buf.length - (s.sp - P))).length = buf.length - (s.sp - P) := by
        rw [List.length_take]
        omega
      have hfirst : s.cachePtr - (s.sp - P) = s.cacheBegin := by
        rw [hc.first, hc.ptr]
        omega
      obtain ⟨C₁, hst₁⟩ := C.pushPage hc (l := buf.drop (buf.length - (s.sp - P)))
        (by omega) (by omega)
      rw [hdrop, hfirst] at C₁ hst₁
      -- the cache moves on to the page below
      obtain ⟨s₁, hrun₁, hs₁, hc₁⟩ := C₁.updateCache_cached
        (s := { s with cachePtr := s.cacheBegin, sp := P }) I.table (by simp only; omega)
        (by simp only; omega)
      have hsp₁ : s₁.sp = P := by rw [hs₁]
      have hdown := pageRoundDown_eq (P - 1)
      have hal := hc.page.aligned
      have I₁ : OnStack arch buddyPages
          { k with mem := k.mem.store s.cacheBegin (buf.drop (buf.length - (s.sp - P))) }
          ⟨A.root, true⟩ base top s₁ := by
        refine ⟨?_, ?_, ?_, by omega, by omega, _, hc₁⟩ <;> rw [hs₁]
        · exact I.stackBase
        · exact I.stackEnd
        · exact I.table
      obtain ⟨s', k', hrun, C', hp, hpage⟩ :=
        ih (buf.take (buf.length - (s.sp - P))) C₁ I₁ hc₁
        (by omega) (by
          simp only at hc₁ ⊢
          rw [hsp₁, if_neg (by omega), htake]
          split at hturns <;> omega)
      refine ⟨s', k', ?_, C', ⟨by rw [hp.sp, hsp₁, htake]; omega, hp.stack, ?_⟩,
        fun _ => hpage (by omega)⟩
      · simp only [hl, hsubl]
        simp only at hrun₁
        rw [hrun₁, ok_bind]
        exact hrun
      · -- the bytes of this page, and then those of the pages below
        have hbytes := hp.bytes
        rw [hsp₁, htake, C.userLoc_congr C₁] at hbytes
        have hlen : P - (buf.length - (s.sp - P)) = s.sp - buf.length := by omega
        rw [hlen] at hbytes
        have hup : Mem.Stored k.mem (userLoc arch buddyPages k ⟨A.root, true⟩)
            (fun a => buf.getD (a - (s.sp - buf.length)) 0) P s.sp
            (k.mem.store s.cacheBegin (buf.drop (buf.length - (s.sp - P)))) := by
          rw [show s.sp - (s.sp - P) = P by omega] at hst₁
          refine hst₁.congr fun a hla hua => ?_
          rw [List.getD_eq_getElem?_getD, List.getD_eq_getElem?_getD, List.getElem?_drop]
          congr 2
          omega
        have hdn : Mem.Stored (k.mem.store s.cacheBegin (buf.drop (buf.length - (s.sp - P))))
            (userLoc arch buddyPages k ⟨A.root, true⟩)
            (fun a => buf.getD (a - (s.sp - buf.length)) 0) (s.sp - buf.length) P k'.mem := by
          refine hbytes.congr fun a hla hua => ?_
          rw [List.getD_eq_getElem?_getD, List.getD_eq_getElem?_getD,
            List.getElem?_take_of_lt (by omega)]
        refine hup.prepend hdn (fun a b ha ha' hb hb' he => ?_) (by omega) (by omega)
        have := C.loc_inj (by omega) (by omega) (by omega) (by omega) he
        omega

/-! ### The operators -/

theorem OnStack.setErrno (I : OnStack arch buddyPages k ⟨A.root, true⟩ base top s)
    (e : RetCode) : OnStack arch buddyPages k ⟨A.root, true⟩
      base top { s with errno := e } := by
  obtain ⟨P, hc⟩ := I.cached
  exact ⟨I.stackBase, I.stackEnd, I.table, I.low, I.high, P, hc.page, hc.low, hc.high, hc.first,
    hc.ptr⟩

theorem StackSpace.push_fits (C : StackSpace reg arch k B Base W i A base top)
    (I : OnStack arch buddyPages k ⟨A.root, true⟩ base top s) {buf : List UInt8}
    (hfit : base + buf.length ≤ s.sp) :
    ∃ s' k', s.push arch buddyPages k buf = .ok (s', k') ∧
      StackSpace reg arch k' B Base W i A base top ∧ Pushed arch A base top k s buf s' k' ∧
      (0 < buf.length →
        Cached arch buddyPages k' ⟨A.root, true⟩ base top s' (pageRoundDown s'.sp)) := by
  unfold UserstackStream.push
  by_cases h0 : s.sp = 0
  · rw [if_pos h0]
    exact ⟨_, k, rfl, C, ⟨by simp only; omega, I.setErrno _, .refl _ _ _ (by omega)⟩,
      fun h => by omega⟩
  · obtain ⟨P, hc⟩ := I.cached
    have hhigh := I.high
    have hfits := C.stack.fits
    rw [if_neg h0, if_neg (by rw [wordSub_of_le (by omega) (by omega), I.stackBase]; omega)]
    exact C.pushLoop (2 * buf.length + 2) buf I hc hfit (by split <;> omega)

theorem StackSpace.push_refused (C : StackSpace reg arch k B Base W i A base top)
    (I : OnStack arch buddyPages k ⟨A.root, true⟩ base top s) {buf : List UInt8}
    (hle : buf.length ≤ s.sp) (hfit : s.sp < base + buf.length) :
    s.push arch buddyPages k buf = .ok ({ s with errno := .noMem }, k) := by
  have hlow := I.low
  have hhigh := I.high
  have hfits := C.stack.fits
  unfold UserstackStream.push
  rw [if_neg (by omega), if_pos (by rw [wordSub_of_le hle (by omega), I.stackBase]; omega)]

/-- Two pushes one after the other push the second bytes below the first. -/
theorem Pushed.trans {s₁ : UserstackStream} {k₁ : Kernel BuddyAllocator} {buf rest : List UInt8}
    (hp₁ : Pushed arch A base top k s buf s₁ k₁)
    (hp : Pushed arch A base top k₁ s₁ rest s' k')
    (C : StackSpace reg arch k B Base W i A base top)
    (C₁ : StackSpace reg arch k₁ B Base W i A base top) (hsp : s.sp ≤ top)
    (hfit : base + (rest.length + buf.length) ≤ s.sp) :
    Pushed arch A base top k s (rest ++ buf) s' k' := by
  have hsp₁ := hp₁.sp
  have hlen : s.sp - buf.length - rest.length = s.sp - (rest.length + buf.length) := by omega
  have hbytes := hp.bytes
  rw [hsp₁, hlen, C.userLoc_congr C₁] at hbytes
  refine ⟨?_, hp.stack, ?_⟩
  · rw [hp.sp, hsp₁, List.length_append]
    omega
  rw [List.length_append]
  have hup : Mem.Stored k.mem (userLoc arch buddyPages k ⟨A.root, true⟩)
      (fun a => (rest ++ buf).getD (a - (s.sp - (rest.length + buf.length))) 0)
      (s.sp - buf.length) s.sp k₁.mem := by
    refine hp₁.bytes.congr fun a hla hua => ?_
    rw [List.getD_eq_getElem?_getD, List.getD_eq_getElem?_getD,
      List.getElem?_append_right (by omega)]
    congr 2
    omega
  have hdn : Mem.Stored k₁.mem (userLoc arch buddyPages k ⟨A.root, true⟩)
      (fun a => (rest ++ buf).getD (a - (s.sp - (rest.length + buf.length))) 0)
      (s.sp - (rest.length + buf.length)) (s.sp - buf.length) k'.mem := by
    refine hbytes.congr fun a hla hua => ?_
    rw [List.getD_eq_getElem?_getD, List.getD_eq_getElem?_getD,
      List.getElem?_append_left (by omega)]
  refine hup.prepend hdn (fun a b ha ha' hb hb' he => ?_) (by omega) (by omega)
  have := C.loc_inj (by omega) (by omega) (by omega) (by omega) he
  omega

/-- Pushes of characters that fit. -/
theorem StackSpace.pushChars_fits (cs : List UInt8)
    (C : StackSpace reg arch k B Base W i A base top)
    (I : OnStack arch buddyPages k ⟨A.root, true⟩ base top s)
    (hfit : base + cs.length ≤ s.sp) :
    ∃ s' k', s.pushChars arch buddyPages k cs = .ok (s', k') ∧
      StackSpace reg arch k' B Base W i A base top ∧
      Pushed arch A base top k s cs.reverse s' k' := by
  induction cs generalizing k s with
  | nil => exact ⟨s, k, rfl, C, rfl, I, .refl _ _ _ (Nat.le_refl _)⟩
  | cons c cs ih =>
    rw [List.length_cons] at hfit
    have hone : base + [c].length ≤ s.sp := by
      rw [List.length_singleton]
      omega
    obtain ⟨s₁, k₁, hrun₁, C₁, hp₁, -⟩ := C.push_fits I hone
    have hsp₁ : s₁.sp = s.sp - 1 := hp₁.sp
    obtain ⟨s', k', hrun, C', hp⟩ := ih C₁ hp₁.stack (by omega)
    refine ⟨s', k', ?_, C', ?_⟩
    · rw [UserstackStream.pushChars, hrun₁, ok_bind, hrun]
    · rw [List.reverse_cons]
      refine hp₁.trans hp C C₁ I.high ?_
      rw [List.length_reverse, List.length_singleton]
      omega

/-- Pushes of characters that may not fit: the first ones are pushed. -/
theorem StackSpace.pushChars_any (cs : List UInt8) (C : StackSpace reg arch k B Base W i A base top)
    (I : OnStack arch buddyPages k ⟨A.root, true⟩ base top s) :
    ∃ s' k', s.pushChars arch buddyPages k cs = .ok (s', k') ∧
      StackSpace reg arch k' B Base W i A base top ∧
      OnStack arch buddyPages k' ⟨A.root, true⟩ base top s' := by
  induction cs generalizing k s with
  | nil => exact ⟨s, k, rfl, C, I⟩
  | cons c cs ih =>
    have hlow := I.low
    have hone : ∃ s₁ k₁, s.push arch buddyPages k [c] = .ok (s₁, k₁) ∧
        StackSpace reg arch k₁ B Base W i A base top ∧
        OnStack arch buddyPages k₁ ⟨A.root, true⟩ base top s₁ := by
      by_cases hfit : base + 1 ≤ s.sp
      · have hfit' : base + [c].length ≤ s.sp := hfit
        obtain ⟨s₁, k₁, hrun, C₁, hp, -⟩ := C.push_fits I hfit'
        exact ⟨s₁, k₁, hrun, C₁, hp.stack⟩
      · by_cases h0 : s.sp = 0
        · refine ⟨_, k, ?_, C, I.setErrno .notOpen⟩
          rw [UserstackStream.push, if_pos h0]
        · refine ⟨_, k, C.push_refused I ?_ ?_, C, I.setErrno .noMem⟩
          · rw [List.length_singleton]
            omega
          · rw [List.length_singleton]
            omega
    obtain ⟨s₁, k₁, hrun₁, C₁, I₁⟩ := hone
    obtain ⟨s', k', hrun, C', I'⟩ := ih C₁ I₁
    refine ⟨s', k', ?_, C', I'⟩
    rw [UserstackStream.pushChars, hrun₁, ok_bind, hrun]

theorem StackSpace.addMove (C : StackSpace reg arch k B Base W i A base top)
    (I : OnStack arch buddyPages k ⟨A.root, true⟩ base top s) {move : Nat}
    (hl : base < wordAdd s.sp move) (hu : wordAdd s.sp move ≤ top) :
    ∃ s', s.addMove arch buddyPages k move = .ok s' ∧ s'.sp = wordAdd s.sp move ∧
      OnStack arch buddyPages k ⟨A.root, true⟩ base top s' := by
  obtain ⟨P, hc⟩ := I.cached
  have hfits := C.stack.fits
  have hlt := C.pageLoc_lt hc.page
  have hlow := hc.low
  have hhigh := hc.high
  have hend : wordAdd s.cacheBegin pageSize =
      pageLoc arch buddyPages k ⟨A.root, true⟩ P + 4096 := by
    rw [hc.first]
    unfold wordAdd wordSize pageSize
    omega
  unfold UserstackStream.addMove
  simp only [hend]
  split
  case isTrue h =>
    -- the target is in the cached page
    rw [hc.first, hc.ptr] at h
    obtain ⟨hl₁, hu₁⟩ := h
    have hal := hc.page.aligned
    have htop := C.stack.aligned
    have hPtop := hc.page.high
    have hsp : wordAdd s.sp move =
        P + (wordAdd s.cachePtr move - pageLoc arch buddyPages k ⟨A.root, true⟩ P) := by
      rw [hc.ptr]
      unfold wordAdd wordSize at *
      omega
    refine ⟨_, rfl, rfl, I.stackBase, I.stackEnd,
      I.table, by simp only; omega, hu, P, hc.page, ?_, ?_,
      hc.first, ?_⟩ <;> simp only [hsp] <;> rw [hc.ptr] <;> omega
  case isFalse h =>
    obtain ⟨s', hrun, hs', hc'⟩ :=
      C.updateCache_cached (s := { s with sp := wordAdd s.sp move })
      I.table hl hu
    refine ⟨s', hrun, by rw [hs'], ?_⟩
    have hsp' : s'.sp = wordAdd s.sp move := by rw [hs']
    refine ⟨?_, ?_, ?_, by omega, by omega, _, hc'⟩ <;> rw [hs']
    · exact I.stackBase
    · exact I.stackEnd
    · exact I.table

/-- `open` puts the stack pointer at the end of the stack. -/
theorem StackSpace.openStack (C : StackSpace reg arch k B Base W i A base top) :
    ∃ s, (UserstackStream.new base (top - base) ⟨A.root, true⟩).openStack arch buddyPages k =
      .ok s ∧ s.sp = top ∧ OnStack arch buddyPages k ⟨A.root, true⟩ base top s := by
  have hne := C.stack.nonempty
  have hfits := C.stack.fits
  have htop : wordAdd base (top - base) = top := by
    unfold wordAdd wordSize
    omega
  obtain ⟨s', hrun, hs', hc'⟩ := C.updateCache_cached
    (s := { UserstackStream.new base (top - base) ⟨A.root, true⟩ with sp := top }) rfl hne
    (Nat.le_refl top)
  have hsp' : s'.sp = top := by rw [hs']
  refine ⟨s', ?_, hsp', ?_⟩
  · simp only [UserstackStream.new, htop] at hrun
    simp only [UserstackStream.openStack, UserstackStream.new, htop]
    exact hrun
  · refine ⟨?_, ?_, ?_, by omega, by omega, _, hc'⟩ <;> rw [hs']
    · rfl
    · exact htop
    · rfl

end

end OsKernel.Mm

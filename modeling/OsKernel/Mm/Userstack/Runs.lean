import OsKernel.Mm.Userstack.Push
import OsKernel.Mm.Vmm.AllocSpec

/-! All sequences of pushes and moves on a user stack.  The check for room in `operator<<` subtracts
the length from the stack pointer without a look at their order, so a scalar that is larger than the
stack pointer passes it. -/

namespace OsKernel.Mm

open Lib Hsai Lib.BuddySystem BuddyAllocator

/-- The operators of the stream: a scalar is pushed as its bytes, and a string as the bytes before
its NUL. -/
inductive StackOp where
  | range (buf : List UInt8)
  | scalar (buf : List UInt8)
  | cstr (str : List UInt8)
  | string (str : List UInt8)
  | add (move : Nat)
  | sub (move : Nat)

namespace StackOp

section

variable {σ : Type} (arch : Arch) (V : VirtualPageAllocator σ)

def exec (k : Kernel σ) (s : UserstackStream) :
    StackOp → Except Fault (UserstackStream × Kernel σ)
  | range buf => s.push arch V k buf
  | scalar buf => s.push arch V k buf
  | cstr str => s.pushCStr arch V k str
  | string str => s.pushString arch V k str
  | add move => do
    let s ← s.addMove arch V k move
    .ok (s, k)
  | sub move => do
    let s ← s.subMove arch V k move
    .ok (s, k)

end

/-- The stack pointer that a move goes to. -/
def target (s : UserstackStream) : StackOp → Nat
  | add move => wordAdd s.sp move
  | sub move => wordAdd s.sp (wordSub 0 move)
  | _ => s.sp

/-- The operators that a caller may use: a range is at most as long as the stack pointer is high,
and a move stays in the stack. -/
def Legal (base top : Nat) (s : UserstackStream) (op : StackOp) : Prop :=
  match op with
  | range buf => buf.length ≤ s.sp
  | add _ => base < op.target s ∧ op.target s ≤ top
  | sub _ => base < op.target s ∧ op.target s ≤ top
  | _ => True

/-- A scalar is at most as large as the stack pointer is high. -/
def Guarded (s : UserstackStream) : StackOp → Prop
  | scalar buf => buf.length ≤ s.sp
  | _ => True

/-- What an operator has to do: a push that fits stores exactly its bytes below the stack pointer, a
range or a scalar that does not fit is refused, and a move changes the stack pointer alone. -/
def Sound (arch : Arch) (A : AddrSpace) (base top : Nat) (k : Kernel BuddyAllocator)
    (s s' : UserstackStream) (k' : Kernel BuddyAllocator) (op : StackOp) : Prop :=
  match op with
  | range buf => (base + buf.length ≤ s.sp → Pushed arch A base top k s buf s' k') ∧
      (s.sp < base + buf.length → s' = { s with errno := .noMem } ∧ k' = k)
  | scalar buf => (base + buf.length ≤ s.sp → Pushed arch A base top k s buf s' k') ∧
      (s.sp < base + buf.length → s' = { s with errno := .noMem } ∧ k' = k)
  | cstr str => base + (str.length + 1) ≤ s.sp →
      Pushed arch A base top k s (str ++ [0]) s' k'
  | string str => base + (str.length + 1) ≤ s.sp →
      Pushed arch A base top k s (str ++ [0]) s' k'
  | add _ => s'.sp = op.target s ∧ k' = k
  | sub _ => s'.sp = op.target s ∧ k' = k

end StackOp

/-- The states that are reached from `open` with operators that a caller may use and that meet the
condition. -/
inductive StackRun (arch : Arch) (pt : PageTable) (base top : Nat) (k₀ : Kernel BuddyAllocator) :
    Kernel BuddyAllocator → UserstackStream → Prop
  | opened {s : UserstackStream}
      (h : (UserstackStream.new base (top - base) pt).openStack arch buddyPages k₀ = .ok s) :
      StackRun arch pt base top k₀ k₀ s
  | step {k k' : Kernel BuddyAllocator} {s s' : UserstackStream} {op : StackOp}
      (h : StackRun arch pt base top k₀ k s) (hlegal : op.Legal base top s)
      (hguard : op.Guarded s)
      (hexec : op.exec arch buddyPages k s = .ok (s', k')) : StackRun arch pt base top k₀ k' s'

/-- `_cache_ptr` is at the physical location of the stack pointer, in its own page or one past the
end of the page before it. -/
def Designates (arch : Arch) (A : AddrSpace) (k : Kernel BuddyAllocator) (s : UserstackStream) :
    Prop :=
  s.cachePtr = userLoc arch buddyPages k ⟨A.root, true⟩ s.sp ∨
    (0 < s.sp ∧ s.sp % 4096 = 0 ∧
      s.cachePtr = userLoc arch buddyPages k ⟨A.root, true⟩ (s.sp - 1) + 1)

section

variable {reg : Region} {arch : Arch} {k k₀ k' : Kernel BuddyAllocator} {B : Blocks}
  {Base : Nat → Nat → Prop} {ι : Type} {W : Spaces ι} {i : ι} {A : AddrSpace}
  {base top P : Nat} {s s' : UserstackStream}

theorem OnStack.designates (I : OnStack arch buddyPages k ⟨A.root, true⟩ base top s) :
    Designates arch A k s := by
  obtain ⟨P, hc⟩ := I.cached
  have hal := hc.page.aligned
  have hlow := hc.low
  have hhigh := hc.high
  by_cases hlt : s.sp < P + 4096
  · left
    rw [hc.ptr, userLoc_eq hal hlow hlt]
  · right
    refine ⟨by omega, by omega, ?_⟩
    rw [hc.ptr, userLoc_eq (P := P) hal (by omega) (by omega)]
    omega

theorem StackSpace.push_sound (C : StackSpace reg arch k B Base W i A base top)
    (I : OnStack arch buddyPages k ⟨A.root, true⟩ base top s) {buf : List UInt8}
    (hle : buf.length ≤ s.sp) :
    ∃ s' k', s.push arch buddyPages k buf = .ok (s', k') ∧
      StackSpace reg arch k' B Base W i A base top ∧
      OnStack arch buddyPages k' ⟨A.root, true⟩ base top s' ∧
      (base + buf.length ≤ s.sp → Pushed arch A base top k s buf s' k') ∧
      (s.sp < base + buf.length → s' = { s with errno := .noMem } ∧ k' = k) := by
  by_cases hfit : base + buf.length ≤ s.sp
  · obtain ⟨s', k', hrun, C', hp, -⟩ := C.push_fits I hfit
    exact ⟨s', k', hrun, C', hp.stack, fun _ => hp, fun h => by omega⟩
  · exact ⟨_, k, C.push_refused I hle (by omega), C, I.setErrno _, fun h => absurd h hfit,
      fun _ => ⟨rfl, rfl⟩⟩

theorem StackSpace.pushChars_sound (C : StackSpace reg arch k B Base W i A base top)
    (I : OnStack arch buddyPages k ⟨A.root, true⟩ base top s) (str : List UInt8) :
    ∃ s' k', s.pushChars arch buddyPages k (str ++ [0]).reverse = .ok (s', k') ∧
      StackSpace reg arch k' B Base W i A base top ∧
      OnStack arch buddyPages k' ⟨A.root, true⟩ base top s' ∧
      (base + (str.length + 1) ≤ s.sp → Pushed arch A base top k s (str ++ [0]) s' k') := by
  by_cases hfit : base + (str.length + 1) ≤ s.sp
  · obtain ⟨s', k', hrun, C', hp⟩ :=
      C.pushChars_fits (str ++ [0]).reverse I (by simpa using hfit)
    rw [List.reverse_reverse] at hp
    exact ⟨s', k', hrun, C', hp.stack, fun _ => hp⟩
  · obtain ⟨s', k', hrun, C', I'⟩ := C.pushChars_any (str ++ [0]).reverse I
    exact ⟨s', k', hrun, C', I', fun h => absurd h hfit⟩

/-- An `eastl::string` is pushed as a C string is. -/
theorem pushString_eq (arch : Arch) (k : Kernel BuddyAllocator) (s : UserstackStream)
    (str : List UInt8) : s.pushString arch buddyPages k str = s.pushCStr arch buddyPages k str := by
  unfold UserstackStream.pushString UserstackStream.pushCStr
  rw [List.reverse_append]
  rfl

/-- One operator. -/
theorem StackSpace.exec_sound (C : StackSpace reg arch k B Base W i A base top)
    (I : OnStack arch buddyPages k ⟨A.root, true⟩ base top s) {op : StackOp}
    (hlegal : op.Legal base top s) (hguard : op.Guarded s) :
    ∃ s' k', op.exec arch buddyPages k s = .ok (s', k') ∧
      StackSpace reg arch k' B Base W i A base top ∧
      OnStack arch buddyPages k' ⟨A.root, true⟩ base top s' ∧
      op.Sound arch A base top k s s' k' := by
  cases op with
  | range buf => exact C.push_sound I hlegal
  | scalar buf => exact C.push_sound I hguard
  | cstr str => exact C.pushChars_sound I str
  | string str =>
    simp only [StackOp.exec, pushString_eq]
    exact C.pushChars_sound I str
  | add move =>
    obtain ⟨s', hrun, hsp, I'⟩ := C.addMove I hlegal.1 hlegal.2
    refine ⟨s', k, ?_, C, I', hsp, rfl⟩
    rw [StackOp.exec, hrun, ok_bind]
  | sub move =>
    obtain ⟨s', hrun, hsp, I'⟩ := C.addMove I hlegal.1 hlegal.2
    refine ⟨s', k, ?_, C, I', hsp, rfl⟩
    rw [StackOp.exec, UserstackStream.subMove, hrun, ok_bind]

theorem StackRun.onStack (C : StackSpace reg arch k₀ B Base W i A base top)
    (h : StackRun arch ⟨A.root, true⟩ base top k₀ k s) :
    StackSpace reg arch k B Base W i A base top ∧
      OnStack arch buddyPages k ⟨A.root, true⟩ base top s := by
  induction h with
  | opened h =>
    obtain ⟨s', hrun, -, I⟩ := C.openStack
    rw [hrun] at h
    cases h
    exact ⟨C, I⟩
  | step h hlegal hguard hexec ih =>
    obtain ⟨C₁, I₁⟩ := ih
    obtain ⟨s', k', hrun, C', I', -⟩ := C₁.exec_sound I₁ hlegal hguard
    rw [hrun] at hexec
    cases hexec
    exact ⟨C', I'⟩

/-- In every state that the operators reach, the cache is at the stack pointer, and every operator
that a caller may use does what it has to do, if no scalar is larger than the stack pointer. -/
theorem userstack_pushes (reg : Region) (arch : Arch) (k₀ : Kernel BuddyAllocator) (B : Blocks)
    (Base : Nat → Nat → Prop) (W : Spaces ι) (i : ι) (A : AddrSpace) (base top : Nat)
    (C : StackSpace reg arch k₀ B Base W i A base top) :
    (∃ s, (UserstackStream.new base (top - base) ⟨A.root, true⟩).openStack arch buddyPages
        k₀ = .ok s ∧ s.sp = top) ∧
      ∀ k s, StackRun arch ⟨A.root, true⟩ base top k₀ k s →
        Designates arch A k s ∧ ∀ op : StackOp, op.Legal base top s → op.Guarded s →
          ∃ s' k', op.exec arch buddyPages k s = .ok (s', k') ∧
            op.Sound arch A base top k s s' k' := by
  refine ⟨?_, fun k s h => ?_⟩
  · obtain ⟨s, hrun, hsp, -⟩ := C.openStack
    exact ⟨s, hrun, hsp⟩
  · obtain ⟨C', I⟩ := h.onStack C
    refine ⟨I.designates, fun op hlegal hguard => ?_⟩
    obtain ⟨s', k', hrun, -, -, hs⟩ := C'.exec_sound I hlegal hguard
    exact ⟨s', k', hrun, hs⟩

end

/-- A stack of a few pages on the sample region. -/
theorem sample_stack (o v : Nat) (ho : o ≤ 5) (hv : v + 2 ^ o ≤ 2 ^ 27) :
    ∃ (k : Kernel BuddyAllocator) (B : Blocks) (Base : Nat → Nat → Prop) (A : AddrSpace),
      StackSpace sampleRegion .riscv k B Base (fun _ : Unit => some A) () A (4096 * v)
        (4096 * (v + 2 ^ o)) := by
  have hpow := Nat.two_pow_pos o
  have hpow2 : 2 ^ o ≤ 2 ^ 5 := Nat.pow_le_pow_right (by decide) ho
  obtain ⟨k₀, B₀, -, hroom, H₀⟩ := sample_world
  rcases H₀.create sampleRegion_inWindow (i := ()) rfl 0 with
    ⟨-, h0⟩ | ⟨p, k₁, B₁, T, -, H₁, -, hle, -⟩
  · omega
  rw [Spaces.update_unit] at H₁
  have hspan : 2 ^ 27 ≤ 0 + Arch.vaPages .riscv := by decide
  rcases H₁.allocChunk sampleRegion_inWindow (i := ()) rfl (.refl B₁ _ v _)
      (leafFlags_vmAlloc .riscv false true true) (o := o) (by omega)
      (fun _ => ⟨Nat.zero_le _, Nat.le_trans hv hspan, by omega⟩) with
    ⟨-, hsmall⟩ | ⟨s, k₂, -, ⟨l, -, hlt⟩ | ⟨k, B, A, -, H, E, -⟩ |
      ⟨-, -, -, -, -, -, -, -, -, hc, -⟩⟩
  · have hpages : sampleRegion.pages = 99 := by decide
    have hused : usedUnits sampleRegion.pages B₁ < 2 ^ (6 - 5) := by
      unfold Region.room at hroom hle
      omega
    obtain ⟨t, j, ht, hj⟩ := exists_free_block (a := 35) (o := 6) H₁.alloc.inv.rep.part
      H₁.alloc.inv.coalesced (by rw [hpages, binaryAreas_mem]; decide) (by rw [hpages]; decide)
      (by decide) hused
    exact absurd (hsmall t j ht) (by omega)
  · simp only [show Arch.top .riscv = 2 from rfl] at hlt
    omega
  · rw [Spaces.update_unit] at H
    rw [Nat.zero_add] at E
    have hpages : ∀ w, v ≤ w → w < v + 2 ^ o → ∃ q, A.pages w = some q ∧
        (⟨Arch.toPhy .riscv (sampleRegion.addr q), vmAllocFlags .riscv false true true⟩ :
          Mapping).Ok .riscv ∧
        Mm.entryOf .riscv buddyPages k ⟨A.root, true⟩ (4096 * w) = Mapping.data .riscv
          ⟨Arch.toPhy .riscv (sampleRegion.addr q), vmAllocFlags .riscv false true true⟩ := by
      intro w hl hu
      obtain ⟨q, hq, hmap, -⟩ := E.inside w hl hu
      refine ⟨q, hq, ((H.represents (i := ()) rfl).of_some hmap).2, ?_⟩
      rw [H.entryOf (i := ()) rfl E.base, Nat.mul_div_cancel_left w (by decide),
        Nat.mod_eq_of_lt (by omega), hmap]
      rfl
    have hreach : ∀ j, Reached (4096 * v) (4096 * (v + 2 ^ o) - 4096 * v) j →
        v + j < v + 2 ^ o ∧ copyPage (4096 * v) j = 4096 * (v + j) := by
      intro j hj
      obtain ⟨-, hj⟩ := hj
      have hdown := pageRoundDown_eq (4096 * v)
      refine ⟨by omega, ?_⟩
      unfold copyPage wordAdd wordSize
      omega
    refine ⟨k, B, _, A, sampleRegion_inWindow, H, rfl, E.base, fun w mp hmp => .inl ?_, by omega,
      by omega, by omega, ⟨fun j hj => ?_, fun l j hl hj he => ?_⟩, fun j hj => ?_⟩
    · by_cases hw : v ≤ w ∧ w < v + 2 ^ o
      · obtain ⟨q, hq, -⟩ := hpages w hw.1 hw.2
        rw [hq]
        exact Option.some_ne_none q
      · rw [(E.outside w (by omega)).1] at hmp
        cases hmp
    · obtain ⟨hlt, hpage⟩ := hreach j hj
      obtain ⟨q, -, hok, hentry⟩ := hpages (v + j) (by omega) hlt
      rw [hpage]
      refine ⟨?_, ?_⟩
      · unfold ValidLeaf
        rw [hentry, hok.isValid]
      · rw [hentry, hok.isSuperPlv]
        exact show Arch.isSuperPlv .riscv (vmAllocFlags .riscv false true true) = false by decide
    · obtain ⟨hlt, hpage⟩ := hreach l hl
      obtain ⟨hlt', hpage'⟩ := hreach j hj
      obtain ⟨q, hq, hok, hentry⟩ := hpages (v + l) (by omega) hlt
      obtain ⟨q', hq', hok', hentry'⟩ := hpages (v + j) (by omega) hlt'
      rw [hpage, hpage', hentry, hentry', hok.toPa, hok'.toPa] at he
      have hqq : q = q' := Region.addr_inj he
      rw [← hqq] at hq'
      have := (H.owners.inj (i := ()) (j := ()) ⟨A, rfl, hq⟩ ⟨A, rfl, hq'⟩).2
      omega
    · obtain ⟨hlt, hpage⟩ := hreach j hj
      obtain ⟨q, hq, hok, hentry⟩ := hpages (v + j) (by omega) hlt
      rw [hpage, pageLoc, hentry, hok.toPa,
        toVir_page sampleRegion_inWindow (H.page_lt (j := ()) rfl hq)]
      simp only [Region.addr, show sampleRegion.mem = 0x80000000 from rfl]
      omega
  · exact absurd (fun _ _ _ => rfl) hc

/-- A scalar of eight bytes on a new stack. -/
theorem userstack_pushes_sample : ∃ (k₀ k : Kernel BuddyAllocator) (A : AddrSpace)
    (s s' : UserstackStream),
        (UserstackStream.new 0x10000 0x1000 ⟨A.root, true⟩).openStack .riscv
        buddyPages k₀ = .ok s ∧
      StackOp.exec .riscv buddyPages k₀ s (.scalar [1, 2, 3, 4, 5, 6, 7, 8]) = .ok (s', k) ∧
      s'.sp = 0x10FF8 := by
  obtain ⟨k₀, B, Base, A, C⟩ := sample_stack 0 16 (by decide) (by decide)
  obtain ⟨⟨s, hopen, hsp⟩, hruns⟩ :=
    userstack_pushes sampleRegion .riscv k₀ B Base _ () A _ _ C
  obtain ⟨s', k', hrun, hs⟩ :=
    (hruns k₀ s (.opened hopen)).2 (.scalar [1, 2, 3, 4, 5, 6, 7, 8])
    trivial (by rw [StackOp.Guarded, hsp]; decide)
  refine ⟨k₀, k', A, s, s', hopen, hrun, ?_⟩
  rw [(hs.1 (by rw [hsp]; decide)).sp, hsp]
  rfl

/-- The loop of `operator<<` ends without an error code. -/
theorem pushLoop_errno {σ : Type} {V : VirtualPageAllocator σ} {arch : Arch} (turns : Nat)
    {k k' : Kernel σ} {s s' : UserstackStream} {buf : List UInt8}
    (h : s.pushLoop arch V turns k buf = .ok (s', k')) : s'.errno = .ok := by
  induction turns generalizing k s buf with
  | zero => cases h
  | succ turns ih =>
    rw [UserstackStream.pushLoop] at h
    split at h
    · cases h
      rfl
    split at h
    · cases h
      rfl
    split at h
    · cases h
    obtain ⟨s₁, -, h⟩ := bind_eq_ok.mp h
    exact ih h

/-- On a stack at address zero with four bytes left, a scalar of eight bytes is not refused. -/
theorem userstack_scalar_passes : ∃ (k₀ : Kernel BuddyAllocator) (B : Blocks)
    (Base : Nat → Nat → Prop) (A : AddrSpace) (s : UserstackStream),
    StackSpace sampleRegion .riscv k₀ B Base (fun _ : Unit => some A) () A 0 4096 ∧
      StackRun .riscv ⟨A.root, true⟩ 0 4096 k₀ k₀ s ∧ s.sp = 4 ∧
      (StackOp.scalar [1, 2, 3, 4, 5, 6, 7, 8]).Legal 0 4096 s ∧
      ¬∃ s' k', StackOp.exec .riscv buddyPages k₀ s (.scalar [1, 2, 3, 4, 5, 6, 7, 8]) =
          .ok (s', k') ∧
        (StackOp.scalar [1, 2, 3, 4, 5, 6, 7, 8]).Sound .riscv A 0 4096 k₀ s s' k' := by
  obtain ⟨k₀, B, Base, A, C⟩ := sample_stack 0 0 (by decide) (by decide)
  obtain ⟨s₀, hopen, hsp₀, I⟩ := C.openStack
  have htarget : wordAdd s₀.sp (2 ^ 64 - 4092) = 4 := by
    rw [hsp₀]
    rfl
  have hlow : 4096 * 0 < wordAdd s₀.sp (2 ^ 64 - 4092) := by
    rw [htarget]
    decide
  obtain ⟨s, hrun, hsp, -⟩ := C.addMove I hlow (by rw [htarget]; decide)
  rw [htarget] at hsp
  have hlegal : (StackOp.add (2 ^ 64 - 4092)).Legal (4096 * 0) (4096 * (0 + 2 ^ 0)) s₀ := by
    simp only [StackOp.Legal, StackOp.target, htarget]
    decide
  have hexec : (StackOp.add (2 ^ 64 - 4092)).exec .riscv buddyPages k₀ s₀ = .ok (s, k₀) := by
    rw [StackOp.exec, hrun, ok_bind]
  refine ⟨k₀, B, Base, A, s, C, .step (.opened hopen) hlegal trivial hexec, hsp, trivial, ?_⟩
  rintro ⟨s', k', hpush, hs⟩
  have herr : s'.errno = .noMem := by
    rw [(hs.2 (by rw [hsp]; decide)).1]
  have hbase : s.stackBase = 0 := by
    obtain ⟨-, I'⟩ := StackRun.onStack C (.step (.opened hopen) hlegal trivial hexec)
    exact I'.stackBase
  simp only [StackOp.exec, UserstackStream.push] at hpush
  rw [if_neg (by rw [hsp]; decide), if_neg (by rw [hbase]; exact Nat.not_lt_zero _)] at hpush
  rw [pushLoop_errno _ hpush] at herr
  cases herr

end OsKernel.Mm

import OsKernel.Pm.ExecStack

/-! The alignment of the stack pointer that `execve` gives to the program. -/

namespace OsKernel.Pm

open Lib Hsai Mm

section

variable {σ : Type} {arch : Arch} {V : VirtualPageAllocator σ}

theorem walkAddr_lt {k : Kernel σ} {pt : PageTable} {va pa : Nat}
    (h : walkAddr arch V k pt va = .ok pa) : pa < 2 ^ 64 := by
  obtain ⟨r, -, h⟩ := bind_eq_ok.mp h
  have hoff : va &&& (pageSize - 1) < 2 ^ 64 := Nat.lt_of_le_of_lt Nat.and_le_right (by decide)
  have hpa : arch.toPa (pteData r.2.mem r.1) < 2 ^ 64 := by
    cases arch with
    | riscv => exact Nat.mod_lt _ (by decide)
    | loongarch => exact Nat.lt_of_le_of_lt Nat.and_le_right (by decide)
  simp only at h
  split at h
  · obtain rfl := Except.ok.inj h
    decide
  split at h
  · obtain rfl := Except.ok.inj h
    decide
  split at h
  · obtain rfl := Except.ok.inj h
    decide
  · obtain rfl := Except.ok.inj h
    exact Nat.or_lt_two_pow hpa hoff

theorem toVir_lt {pa : Nat} (h : pa < 2 ^ 64) : arch.toVir pa < 2 ^ 64 := by
  cases arch with
  | riscv => exact h
  | loongarch =>
    exact Nat.or_lt_two_pow (Nat.lt_of_le_of_lt Nat.and_le_right (by decide)) (by decide)

variable {k : Kernel σ} {s s' : UserstackStream}

theorem updateCache_keeps {va : Nat} (h : s.updateCache arch V k va = .ok s') :
    s'.cachePtr < 2 ^ 64 ∧ s'.sp = s.sp := by
  unfold UserstackStream.updateCache at h
  split at h
  · obtain ⟨pa, -, h⟩ := bind_eq_ok.mp h
    obtain rfl := Except.ok.inj h
    exact ⟨Nat.mod_lt _ (by decide), rfl⟩
  · obtain ⟨pa, hpa, h⟩ := bind_eq_ok.mp h
    obtain rfl := Except.ok.inj h
    exact ⟨toVir_lt (walkAddr_lt hpa), rfl⟩

theorem wordSub_add {a b : Nat} (hb : b ≤ 2 ^ 64) : (wordSub a b + b) % 2 ^ 64 = a % 2 ^ 64 := by
  unfold wordSub wordSize
  omega

/-- A loop that ends has moved the stack pointer by the bytes that were left. -/
theorem pushLoop_down {turns : Nat} {buf : List UInt8} {r : UserstackStream × Kernel σ}
    (h : UserstackStream.pushLoop arch V turns k s buf = .ok r) (hbuf : buf.length ≤ 2 ^ 63)
    (hptr : s.cachePtr < 2 ^ 64) :
    r.1.cachePtr < 2 ^ 64 ∧ (r.1.sp + buf.length) % 2 ^ 64 = s.sp % 2 ^ 64 := by
  induction turns generalizing k s buf with
  | zero => cases h
  | succ turns ih =>
    unfold UserstackStream.pushLoop at h
    split at h
    · next hnil =>
      obtain rfl := Except.ok.inj h
      exact ⟨hptr, by rw [hnil, Nat.add_zero]⟩
    split at h
    · obtain rfl := Except.ok.inj h
      exact ⟨Nat.mod_lt _ (by decide), wordSub_add (by omega)⟩
    split at h
    · cases h
    · next hlow hbegin =>
      have hshort : s.cachePtr - s.cacheBegin ≤ buf.length := by
        by_contra hlong
        rw [wordSub_of_le (by omega) hptr] at hlow
        omega
      obtain ⟨s₁, hcache, h⟩ := bind_eq_ok.mp h
      obtain ⟨hptr₁, hsp₁⟩ := updateCache_keeps hcache
      have hlen : (buf.take (buf.length - (s.cachePtr - s.cacheBegin))).length =
          buf.length - (s.cachePtr - s.cacheBegin) := by
        rw [List.length_take]
        omega
      obtain ⟨hptr', hsp'⟩ := ih h (by omega) hptr₁
      refine ⟨hptr', ?_⟩
      have hdown := wordSub_add (a := s.sp) (b := s.cachePtr - s.cacheBegin) (by omega)
      rw [hlen, hsp₁] at hsp'
      simp only at hsp'
      omega

/-- A push that succeeds has moved the stack pointer by its length. -/
theorem push_down {buf : List UInt8} {r : UserstackStream × Kernel σ}
    (h : s.push arch V k buf = .ok r) (hbuf : buf.length ≤ 2 ^ 63) (hptr : s.cachePtr < 2 ^ 64) :
    r.1.cachePtr < 2 ^ 64 ∧ (r.1.errno = .ok →
      (r.1.sp + buf.length) % 2 ^ 64 = s.sp % 2 ^ 64) := by
  unfold UserstackStream.push at h
  split at h
  · obtain rfl := Except.ok.inj h
    exact ⟨hptr, fun h => nomatch h⟩
  split at h
  · obtain rfl := Except.ok.inj h
    exact ⟨hptr, fun h => nomatch h⟩
  · exact ⟨(pushLoop_down h hbuf hptr).1, fun _ => (pushLoop_down h hbuf hptr).2⟩

theorem pushChars_ptr {cs : List UInt8} {r : UserstackStream × Kernel σ}
    (h : UserstackStream.pushChars arch V k s cs = .ok r) (hptr : s.cachePtr < 2 ^ 64) :
    r.1.cachePtr < 2 ^ 64 := by
  induction cs generalizing k s with
  | nil =>
    obtain rfl := Except.ok.inj h
    exact hptr
  | cons c cs ih =>
    obtain ⟨r₁, hpush, h⟩ := bind_eq_ok.mp h
    exact ih h (push_down hpush (by simp) hptr).1

theorem subMove_ptr {move : Nat} (h : s.subMove arch V k move = .ok s') :
    s'.cachePtr < 2 ^ 64 ∧ s'.sp = wordAdd s.sp (wordSub 0 move) := by
  unfold UserstackStream.subMove UserstackStream.addMove at h
  simp only at h
  split at h
  · obtain rfl := Except.ok.inj h
    exact ⟨Nat.mod_lt _ (by decide), rfl⟩
  · exact updateCache_keeps h

theorem pushUnchecked_ptr {bufs : List (List UInt8)} {r : UserstackStream × Kernel σ}
    (h : pushUnchecked arch V k s bufs = .ok r) (hbufs : ∀ buf ∈ bufs, buf.length ≤ 2 ^ 63)
    (hptr : s.cachePtr < 2 ^ 64) : r.1.cachePtr < 2 ^ 64 := by
  induction bufs generalizing k s with
  | nil =>
    obtain rfl := Except.ok.inj h
    exact hptr
  | cons buf bufs ih =>
    obtain ⟨r₁, hpush, h⟩ := bind_eq_ok.mp h
    exact ih h (fun b hb => hbufs b (List.mem_cons_of_mem _ hb))
      (push_down hpush (hbufs buf List.mem_cons_self) hptr).1

/-- Pushes that all succeed, each of `n` bytes. -/
theorem pushChecked_down {n : Nat} (hn : n ≤ 16) {bufs : List (List UInt8)}
    {r : UserstackStream × Kernel σ} (h : pushChecked arch V k s bufs = .ok (some r))
    (hbufs : ∀ buf ∈ bufs, buf.length = n)
    (hptr : s.cachePtr < 2 ^ 64) :
    r.1.cachePtr < 2 ^ 64 ∧ (r.1.sp + n * bufs.length) % 2 ^ 64 = s.sp % 2 ^ 64 := by
  induction bufs generalizing k s with
  | nil =>
    obtain rfl := Option.some.inj (Except.ok.inj h)
    exact ⟨hptr, rfl⟩
  | cons buf bufs ih =>
    obtain ⟨r₁, hpush, h⟩ := bind_eq_ok.mp h
    have hlen := hbufs buf List.mem_cons_self
    obtain ⟨hptr₁, hdown⟩ := push_down hpush (by omega) hptr
    split at h
    · cases h
    · next hok =>
      obtain ⟨hptr', hrest⟩ := ih h (fun b hb => hbufs b (List.mem_cons_of_mem _ hb)) hptr₁
      have hfirst := hdown (not_not.mp hok)
      rw [hlen] at hfirst
      refine ⟨hptr', ?_⟩
      rw [List.length_cons, Nat.mul_succ]
      omega

theorem pushStrings_length {base : Nat} {ptrs : List Nat} {strs : List (List UInt8)}
    {r : List Nat × UserstackStream × Kernel σ}
    (h : pushStrings arch V base k s ptrs strs = .ok (some r))
    (hptr : s.cachePtr < 2 ^ 64) :
    r.2.1.cachePtr < 2 ^ 64 ∧ r.1.length = ptrs.length + strs.length + 1 := by
  induction strs generalizing k s ptrs with
  | nil =>
    unfold pushStrings at h
    split at h
    · obtain rfl := Option.some.inj (Except.ok.inj h)
      exact ⟨hptr, by simp⟩
    · cases h
  | cons str strs ih =>
    unfold pushStrings at h
    split at h
    · cases h
    obtain ⟨s₁, hmove, h⟩ := bind_eq_ok.mp h
    split at h
    · cases h
    obtain ⟨r₁, hpush, h⟩ := bind_eq_ok.mp h
    split at h
    · cases h
    · obtain ⟨hptr', hlen⟩ := ih h (pushChars_ptr hpush (subMove_ptr hmove).1)
      refine ⟨hptr', ?_⟩
      rw [hlen, List.length_append, List.length_singleton, List.length_cons]
      omega

theorem orGiveUp_some {α β : Type} {x : Except Fault (Option α)}
    {f : α → Except Fault (Option β)} {b : β} : orGiveUp x f = .ok (some b) ↔ ∃ a,
      x = .ok (some a) ∧ f a = .ok (some b) := by
  unfold orGiveUp
  rw [bind_eq_ok]
  constructor
  · rintro ⟨r, hx, h⟩
    cases r with
    | none => cases Except.ok.inj h
    | some a => exact ⟨a, hx, h⟩
  · rintro ⟨a, hx, h⟩
    exact ⟨some a, hx, h⟩

@[simp] theorem wordBytes_length (v : Nat) : (wordBytes v).length = 8 := by simp [wordBytes]

theorem auxv_length {ph : ProgramHeaders} {rd : Nat} : ∀ buf ∈ auxv ph rd, buf.length = 16 := by
  have haux : ∀ t v, (auxBytes t v).length = 16 := fun t v => by simp [auxBytes]
  unfold auxv
  intro buf hbuf
  split at hbuf
  · simp only [List.mem_append, List.mem_cons, List.not_mem_nil, or_false] at hbuf
    rcases hbuf with (rfl | rfl | rfl | rfl | rfl) | rfl <;> exact haux _ _
  · simp only [List.append_nil, List.mem_append, List.mem_cons, List.not_mem_nil, or_false] at hbuf
    rcases hbuf with rfl | rfl <;> exact haux _ _

theorem openStack_ptr (h : s.openStack arch V k = .ok s') : s'.cachePtr < 2 ^ 64 :=
  (updateCache_keeps h).1

theorem aligned_move (sp : Nat) : wordAdd sp (wordSub 0 (sp % 16)) % 16 = 0 := by
  unfold wordAdd wordSub wordSize
  omega

/-- Behind the alignment there are an even number of words for the vector, the pointers with two
nulls, and the number of arguments. -/
theorem execStack_sp {pt : PageTable} {ph : ProgramHeaders} {argv envs : List (List UInt8)}
    {r : UserstackStream × Kernel σ} (h : execStack arch V k pt ph argv envs = .ok (some r)) :
    (r.1.sp + 8 * (argv.length + envs.length + 3)) % 16 = 0 := by
  obtain ⟨s₀, hopen, h⟩ := bind_eq_ok.mp h
  obtain ⟨r₁, hrandom, h⟩ := bind_eq_ok.mp h
  have hptr₁ := pushUnchecked_ptr hrandom (by simp [randomWords]) (openStack_ptr hopen)
  obtain ⟨⟨uenvp, s₂, k₂⟩, henv, h⟩ := orGiveUp_some.mp h
  obtain ⟨hptr₂, hlen₂⟩ := pushStrings_length henv hptr₁
  obtain ⟨⟨uargv, s₃, k₃⟩, harg, h⟩ := orGiveUp_some.mp h
  obtain ⟨-, hlen₃⟩ := pushStrings_length harg hptr₂
  obtain ⟨s₄, hmove, h⟩ := bind_eq_ok.mp h
  obtain ⟨hptr₄, hsp₄⟩ := subMove_ptr hmove
  obtain ⟨⟨s₅, k₅⟩, haux, h⟩ := orGiveUp_some.mp h
  obtain ⟨hptr₅, hsp₅⟩ := pushChecked_down (Nat.le_refl 16) haux auxv_length hptr₄
  obtain ⟨⟨s₆, k₆⟩, henvp, h⟩ := orGiveUp_some.mp h
  obtain ⟨hptr₆, hsp₆⟩ := pushChecked_down (n := 8) (by decide) henvp (by simp) hptr₅
  obtain ⟨⟨s₇, k₇⟩, hargv, h⟩ := orGiveUp_some.mp h
  obtain ⟨hptr₇, hsp₇⟩ := pushChecked_down (n := 8) (by decide) hargv (by simp) hptr₆
  obtain ⟨-, hsp₈⟩ := pushChecked_down (n := 8) (by decide) h (by simp) hptr₇
  have haligned := aligned_move s₃.sp
  simp only [List.length_map, List.length_reverse, List.length_nil,
    List.length_singleton] at hlen₂ hlen₃ hsp₅ hsp₆ hsp₇ hsp₈ hsp₄
  rw [hlen₂] at hsp₆
  rw [hlen₃] at hsp₇
  rw [← hsp₄] at haligned
  omega

/-- The stack pointer in the trap frame is the last one of the stream. -/
theorem execFrame_sp (m : Mem) (trapframe entry sp : Nat) :
    (execFrame arch m trapframe entry sp).read (trapframe + arch.trapFrameSp) 8 = sp % 2 ^ 64 := by
  have hapart : trapframe + arch.trapFrameA1 + 8 ≤ trapframe + arch.trapFrameSp ∨
      trapframe + arch.trapFrameSp + 8 ≤ trapframe + arch.trapFrameA1 := by
    cases arch with
    | riscv => exact .inr (by simp [Arch.trapFrameA1, Arch.trapFrameSp])
    | loongarch => exact .inr (by simp [Arch.trapFrameA1, Arch.trapFrameSp])
  rw [execFrame, setTrapFrameArg1, Mem.read_write_apart hapart, setTrapFrameUserSp,
    Mem.read_write_same,
    show 256 ^ 8 = 2 ^ 64 by norm_num]

end

/-- The stack pointer that a successful `execve` stores is a multiple of 16 if and only if the
number of arguments and strings of the environment is odd. -/
theorem execve_aligned_iff {σ : Type} (arch : Arch) (V : VirtualPageAllocator σ) (k : Kernel σ)
    (pt : PageTable) (ph : ProgramHeaders) (argv envs : List (List UInt8))
    (r : UserstackStream × Kernel σ)
    (h : execStack arch V k pt ph argv envs = .ok (some r)) (trapframe entry : Nat) :
    (execFrame arch r.2.mem trapframe entry r.1.sp).read (trapframe + arch.trapFrameSp) 8 % 16 =
      0 ↔ (argv.length + envs.length) % 2 = 1 := by
  have hsp := execStack_sp h
  rw [execFrame_sp]
  omega

/-! A stack on tables in the pages 1 to 3, where the entry `i` of the last table is for the page `4
+ i`. -/

def stackWord (w : Nat) : Nat :=
  if w / 4096 = 1 then 2 * 1024 + 1
  else if w / 4096 = 2 then 3 * 1024 + 1
  else if w / 4096 = 3 then (4 + w % 4096 / 8) * 1024 + 223
  else 0

def stackKernel : Kernel Unit :=
  ⟨(), fun a => UInt8.ofNat (stackWord (a / 8 * 8) / 256 ^ (a % 8))⟩

def noPages : VirtualPageAllocator Unit where
  allocPages a m _ := .ok (none, a, m)
  freePages a m _ := .ok (0, a, m)

def sampleStack (argv envs : List (List UInt8)) :
    Except Fault (Option (UserstackStream × Kernel Unit)) :=
  execStack .riscv noPages stackKernel ⟨4096, true⟩ ⟨0x5000, 56, 3⟩ argv envs

/-- The last stack pointer, where `execve` succeeds. -/
def lastSp (x : Except Fault (Option (UserstackStream × Kernel Unit))) : Option Nat :=
  match x with
  | .ok (some r) => some r.1.sp
  | _ => none

theorem lastSp_some {x : Except Fault (Option (UserstackStream × Kernel Unit))} {sp : Nat}
    (h : lastSp x = some sp) : ∃ r, x = .ok (some r) ∧ r.1.sp = sp := by
  unfold lastSp at h
  split at h
  · exact ⟨_, rfl, Option.some.inj h⟩
  · cases h

/-- One argument, and no environment. -/
theorem execve_aligned_sample : ∃ r, sampleStack [[97]] [] = .ok (some r) ∧
    (execFrame .riscv r.2.mem 0 0 r.1.sp).read (0 + Arch.riscv.trapFrameSp) 8 % 16 = 0 := by
  obtain ⟨r, hrun, -⟩ := lastSp_some
    (show lastSp (sampleStack [[97]] []) = some 68719468368 by decide +kernel)
  exact ⟨r, hrun, (execve_aligned_iff .riscv noPages stackKernel ⟨4096, true⟩
    ⟨0x5000, 56, 3⟩ [[97]] [] r hrun 0 0).mpr rfl⟩

/-- One argument, and one string of the environment. -/
theorem execve_misaligned : ∃ r, sampleStack [[97]] [[98]] = .ok (some r) ∧
    r.1.sp = 68719468344 ∧ (execFrame .riscv r.2.mem 0 0 r.1.sp).read (0 + Arch.riscv.trapFrameSp)
      8 % 16 = 8 := by
  obtain ⟨r, hrun, hsp⟩ := lastSp_some
    (show lastSp (sampleStack [[97]] [[98]]) = some 68719468344 by decide +kernel)
  refine ⟨r, hrun, hsp, ?_⟩
  rw [execFrame_sp, hsp]
  norm_num

end OsKernel.Pm

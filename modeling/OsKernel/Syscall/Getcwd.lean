import OsKernel.Fs.Path
import OsKernel.Syscall.CopyoutBytes
import OsKernel.Syscall.Transfer

/-! `_sys_getcwd`: the name of the working directory goes to a buffer of the kernel without a bound,
and from there to the user without a look at the size that the user gave. -/

namespace OsKernel.Syscall

open Fs Mm Hsai

/-! ### The call -/

def charByte (ch : Char) : UInt8 := UInt8.ofNat ch.toNat

section

variable {T : DirTree}

/-- `ProcessManager::getcwd`: the bytes that it stores from `out_buf` on.  It returns
their number. -/
def getcwd (s : Cwd T) : List UInt8 := s.cwdName.map charByte ++ [0]

/-- What one call does. -/
structure GetcwdRun (σ : Type) where
  /-- The size did not make it return at once. -/
  accepted : Bool
  /-- The number of bytes stored from the start of `cwd` on. -/
  written : Nat
  copied : List UInt8
  /-- The address that it returns, or `none` for -1. -/
  result : Except Fault (Option Nat × Kernel σ)

variable {σ : Type} (arch : Arch) (V : VirtualPageAllocator σ)

/-- `_sys_getcwd`, with `char cwd[256]` on the stack. -/
def sysGetcwd (s : Cwd T) (k : Kernel σ) (pt : PageTable) (buf size : Nat) : GetcwdRun σ :=
  if 256 ≤ intOf size then ⟨false, 0, [], .ok (none, k)⟩
  else
    let cwd := getcwd s
    if 256 < cwd.length then ⟨true, cwd.length, [], .error (.undefined "cwd")⟩
    else
      ⟨true, cwd.length, copyoutBytes arch V pt cwd.length k buf cwd, do
        let r ← copyout arch V k pt buf cwd
        .ok (if r.1 < 0 then none else some buf, r.2)⟩

/-- What a caller with a buffer of `size` bytes may rely on. -/
structure GetcwdSafe (s : Cwd T) (size : Nat) (run : GetcwdRun σ) : Prop where
  written : run.written ≤ 256
  copied : run.copied.length ≤ size
  whole : ∀ va k', run.result = .ok (some va, k') → run.copied = s.cwdName.map charByte ++ [0]
  accepted : s.cwdName.length + 1 ≤ size → run.accepted = true

end

/-! ### `_sys_getcwd` -/

section

variable {σ : Type} {arch : Arch} {V : VirtualPageAllocator σ} {T : DirTree}

theorem getcwd_length (s : Cwd T) : (getcwd s).length = s.cwdName.length + 1 := by
  rw [getcwd, List.length_append, List.length_map, List.length_singleton]

/-- A size of 256 or more, as an `int`, is refused, which is right if the name does not fit in it.
For the other sizes the name has to fit in the buffer of the kernel, and in that of the user too
unless the copy is cut short. -/
def GetcwdFits (arch : Arch) (V : VirtualPageAllocator σ) (s : Cwd T) (k : Kernel σ)
    (pt : PageTable) (buf size : Nat) : Prop :=
  (256 ≤ intOf size ∧ size < s.cwdName.length + 1) ∨
    (intOf size < 256 ∧ s.cwdName.length + 1 ≤ 256 ∧
      (s.cwdName.length + 1 ≤ size ∨ CutShort arch V k pt buf size (getcwd s)))

/-- Whatever the calls of `chdir` have made of the working directory. -/
theorem getcwd_respects_iff (s : Cwd T) (k : Kernel σ) (pt : PageTable) (buf size : Nat) :
    GetcwdSafe s size (sysGetcwd arch V s k pt buf size) ↔ GetcwdFits arch V s k pt buf size := by
  have hlen := getcwd_length s
  rw [sysGetcwd]
  split
  · rename_i hbig
    constructor
    · intro h
      refine .inl ⟨hbig, ?_⟩
      by_contra hfit
      exact absurd (h.accepted (by omega)) Bool.false_ne_true
    · rintro (⟨-, hsmall⟩ | ⟨hlt, -⟩)
      · refine ⟨Nat.zero_le _, Nat.zero_le _, ?_, fun h => by omega⟩
        intro va k' h
        cases h
      · omega
  rename_i hsmall
  simp only
  split
  · rename_i hover
    constructor
    · intro h
      have hw : (getcwd s).length ≤ 256 := h.written
      omega
    · rintro (⟨hbig, -⟩ | ⟨-, hfit, -⟩)
      · exact absurd hbig hsmall
      · omega
  rename_i hroom
  have hcopied := copyoutBytes_le_iff arch V k pt buf
    (p := getcwd s) (by omega) size
  rw [hlen] at hcopied
  constructor
  · intro h
    refine .inr ⟨by omega, by omega, hcopied.mp ?_⟩
    rw [← hlen]
    exact h.copied
  · rintro (⟨hbig, -⟩ | ⟨-, -, hfit⟩)
    · exact absurd hbig hsmall
    refine ⟨Nat.not_lt.mp hroom, ?_, ?_, fun _ => rfl⟩
    · rw [hlen]
      exact hcopied.mpr hfit
    · intro va k' h
      obtain ⟨⟨r, k₁⟩, hrun, hres⟩ := bind_eq_ok.mp h
      simp only [Except.ok.injEq, Prod.mk.injEq] at hres
      have hr : 0 ≤ r := by
        by_contra hneg
        rw [if_pos (by omega)] at hres
        cases hres.1
      exact copyoutBytes_all _ (Nat.le_refl _) hr hrun

end

def sampleCwd : Cwd sampleTree := ⟨SampleDir.a, ['/', 'a', '/']⟩

/-- After `chdir` to `a`, a buffer of 256 bytes is refused although the name needs four. -/
theorem getcwd_refused : ChdirRun sampleTree (fun _ _ => True) ⟨SampleDir.root, ['/']⟩
    sampleCwd ∧ ¬GetcwdSafe sampleCwd 256
      (sysGetcwd .riscv ⟨fun a m _ => .ok (none, a, m), fun a m _ => .ok (0, a, m)⟩
      sampleCwd (⟨(), fun _ => 0⟩ : Kernel Unit) ⟨0, true⟩ 0 256) := by
  have hstep : chdir sampleTree ⟨SampleDir.root, ['/']⟩ ['a'] = .ok (0, sampleCwd) := rfl
  refine ⟨.step .start trivial hstep, fun h => ?_⟩
  have hfit : sampleCwd.cwdName.length + 1 ≤ 256 := by decide
  exact absurd (h.accepted hfit) (by decide)

end OsKernel.Syscall

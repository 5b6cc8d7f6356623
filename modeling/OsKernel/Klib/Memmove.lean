import Mathlib.Tactic.Ring
import OsKernel.Lib.ByteMemory

/-! `memmove` of `klib.cc`: the loop copies from the last byte down, whatever the ranges are, and
its pointers are words. -/

namespace OsKernel.Klib

open Lib

/-- The address `i` bytes after `a`. -/
def ptrAdd (a i : Nat) : Nat := (a + i) % 2 ^ 64

/-- `p--`. -/
def ptrDec (p : Nat) : Nat := (p + (2 ^ 64 - 1)) % 2 ^ 64

/-- The loop of `memmove`, or `none` where it has not ended after `fuel` turns. -/
def memmoveLoop (src : Nat) : Nat → Mem → Nat → Nat → Option Mem
  | 0, _, _, _ => none
  | fuel + 1, m, i, j =>
    if src ≤ i then memmoveLoop src fuel (Function.update m j (m i)) (ptrDec i) (ptrDec j)
    else some m

/-- `memmove`, which returns `dst`. -/
def memmove (fuel : Nat) (m : Mem) (dst src n : Nat) : Option Mem :=
  if n ≤ 0 then some m
  else memmoveLoop src fuel m (ptrAdd src (n - 1)) (ptrAdd dst (n - 1))

/-- The `n` bytes at `dst` are those that were at `src`, and no other byte has changed. -/
structure Moved (m m' : Mem) (dst src n : Nat) : Prop where
  inside : ∀ i < n, m' (ptrAdd dst i) = m (ptrAdd src i)
  outside : ∀ x, (∀ i < n, x ≠ ptrAdd dst i) → m' x = m x

/-- Where the bytes are the right ones after all: nothing is moved; or `src` is not the null
pointer, and either the range at `src` ends in the address space and the bytes that lie in both
ranges, with `dst` before `src`, repeat with the distance of the ranges; or it does not end there
and the bytes are at `dst` already. -/
def MemmoveExact (m : Mem) (dst src n : Nat) : Prop :=
  n = 0 ∨ src ≠ 0 ∧
    if src + n ≤ 2 ^ 64 then
      ∀ i, i + (src + 2 ^ 64 - dst) % 2 ^ 64 < n →
        m (ptrAdd src i) = m (ptrAdd src (i + (src + 2 ^ 64 - dst) % 2 ^ 64))
    else ∀ i < n, m (ptrAdd dst i) = m (ptrAdd src i)

/-- The memory after the copies of the bytes `n - 1` down to 0. -/
def copyDown (dst src : Nat) : Nat → Mem → Mem
  | 0, m => m
  | n + 1, m => copyDown dst src n (Function.update m (ptrAdd dst n) (m (ptrAdd src n)))

section

variable {m m' : Mem} {dst src n i j x fuel : Nat}

theorem ptrAdd_inj (hi : i < 2 ^ 64) (hj : j < 2 ^ 64) (h : ptrAdd dst i = ptrAdd dst j) :
    i = j := by
  unfold ptrAdd at h
  omega

/-- What is `i` bytes behind `src`, seen from `dst`. -/
theorem ptrAdd_distance (hdst : dst < 2 ^ 64) (i : Nat) :
    ptrAdd src i = ptrAdd dst (i + (src + 2 ^ 64 - dst) % 2 ^ 64) := by
  have hle : dst ≤ src + 2 ^ 64 := by omega
  unfold ptrAdd
  omega

theorem ptrDec_ptrAdd : ptrDec (ptrAdd dst (n + 1)) = ptrAdd dst n := by
  unfold ptrDec ptrAdd
  omega

/-! ### The loop -/

/-- The loop from the byte `n` of a range that ends in the address space. -/
theorem memmoveLoop_eq (hsrc : src ≠ 0) (hend : src + n < 2 ^ 64) (hfuel : n + 2 ≤ fuel) :
    memmoveLoop src fuel m (ptrAdd src n) (ptrAdd dst n) = some (copyDown dst src (n + 1) m) := by
  induction n generalizing m fuel with
  | zero =>
    obtain ⟨f, rfl⟩ : ∃ f, fuel = f + 2 := ⟨fuel - 2, by omega⟩
    have hfirst : ptrAdd src 0 = src := by
      unfold ptrAdd
      omega
    have hlast : ¬src ≤ ptrDec (ptrAdd src 0) := by
      unfold ptrDec ptrAdd
      omega
    rw [memmoveLoop, if_pos (by omega), memmoveLoop, if_neg hlast]
    rfl
  | succ n ih =>
    obtain ⟨f, rfl⟩ : ∃ f, fuel = f + 1 := ⟨fuel - 1, by omega⟩
    have hle : src ≤ ptrAdd src (n + 1) := by
      unfold ptrAdd
      omega
    rw [memmoveLoop, if_pos hle, ptrDec_ptrAdd, ptrDec_ptrAdd, ih (by omega) (by omega)]
    rfl

/-- A range that runs around the end of the address space ends the loop at once. -/
theorem memmoveLoop_around (hn : n < 2 ^ 64) (hsrc : src < 2 ^ 64) (hend : 2 ^ 64 < src + n) :
    memmoveLoop src (fuel + 1) m (ptrAdd src (n - 1)) j = some m := by
  have hlt : ¬src ≤ ptrAdd src (n - 1) := by
    unfold ptrAdd
    omega
  rw [memmoveLoop, if_neg hlt]

/-- No address is before the null pointer. -/
theorem memmoveLoop_null : memmoveLoop 0 fuel m i j = none := by
  induction fuel generalizing m i j with
  | zero => rfl
  | succ fuel ih =>
    rw [memmoveLoop, if_pos (Nat.zero_le i)]
    exact ih

theorem memmoveLoop_mono {fuel' : Nat} (hf : fuel ≤ fuel')
    (h : memmoveLoop src fuel m i j = some m') : memmoveLoop src fuel' m i j = some m' := by
  induction fuel generalizing fuel' m i j with
  | zero => cases h
  | succ fuel ih =>
    obtain ⟨f, rfl⟩ : ∃ f, fuel' = f + 1 := ⟨fuel' - 1, by omega⟩
    rw [memmoveLoop] at h ⊢
    split
    · next hle =>
      rw [if_pos hle] at h
      exact ih (by omega) h
    · next hgt =>
      rw [if_neg hgt] at h
      exact h

/-- The call ends in one memory at most. -/
theorem memmove_unique {fuel' : Nat} {m'' : Mem} (h : memmove fuel m dst src n = some m')
    (h' : memmove fuel' m dst src n = some m'') : m' = m'' := by
  unfold memmove at h h'
  split at h
  · next hn =>
    rw [if_pos hn] at h'
    exact Option.some.inj (h.symm.trans h')
  · next hn =>
    rw [if_neg hn] at h'
    have h1 := memmoveLoop_mono (Nat.le_max_left fuel fuel') h
    have h2 := memmoveLoop_mono (Nat.le_max_right fuel fuel') h'
    exact Option.some.inj (h1.symm.trans h2)

/-! ### The bytes -/

theorem copyDown_outside (hx : ∀ i < n, x ≠ ptrAdd dst i) : copyDown dst src n m x = m x := by
  induction n generalizing m with
  | zero => rfl
  | succ n ih =>
    rw [copyDown, ih fun i hi => hx i (by omega), Function.update_of_ne (hx n (by omega))]

/-- A byte is the byte that is copied before it to where it was read, if there is one. -/
theorem copyDown_inside {e : Nat} (hread : ∀ i, ptrAdd src i = ptrAdd dst (i + e)) (hne : e ≠ 0)
    (he : e < 2 ^ 64) (hn : n < 2 ^ 64) (hi : i < n) :
    copyDown dst src n m (ptrAdd dst i) =
      if i + e < n then copyDown dst src n m (ptrAdd dst (i + e)) else m (ptrAdd src i) := by
  induction n generalizing m with
  | zero => omega
  | succ n ih =>
    have hlast : copyDown dst src (n + 1) m (ptrAdd dst n) = m (ptrAdd src n) := by
      rw [copyDown, copyDown_outside, Function.update_self]
      intro i hi h
      have := ptrAdd_inj (by omega) (by omega) h
      omega
    by_cases hin : i = n
    · rw [hin, hlast, if_neg (by omega)]
    · rw [copyDown, ih (by omega) (by omega)]
      by_cases hlt : i + e < n
      · rw [if_pos hlt, if_pos (by omega)]
      · rw [if_neg hlt]
        by_cases heq : i + e = n
        · rw [if_pos (by omega), hread i, heq, Function.update_self, ← copyDown, hlast]
        · rw [if_neg (by omega), Function.update_of_ne]
          intro h
          rw [hread i] at h
          unfold ptrAdd at h
          omega

theorem copyDown_same (hsame : ∀ i < n, ptrAdd src i = ptrAdd dst i) :
    copyDown dst src n m = m := by
  induction n generalizing m with
  | zero => rfl
  | succ n ih =>
    rw [copyDown, hsame n (by omega), Function.update_eq_self, ih fun i hi => hsame i (by omega)]

/-- The copies are right if and only if the bytes in both ranges repeat. -/
theorem copyDown_moved {e : Nat} (hread : ∀ i, ptrAdd src i = ptrAdd dst (i + e))
    (he : e < 2 ^ 64) (hn : n < 2 ^ 64) :
    Moved m (copyDown dst src n m) dst src n ↔
      ∀ i, i + e < n → m (ptrAdd src i) = m (ptrAdd src (i + e)) := by
  by_cases hzero : e = 0
  · have hsame : ∀ i < n, ptrAdd src i = ptrAdd dst i := by
      intro i _
      rw [hread i, hzero, Nat.add_zero]
    rw [copyDown_same hsame, hzero]
    exact iff_of_true ⟨fun i hi => by rw [hsame i hi], fun _ _ => rfl⟩ fun _ _ => rfl
  · have hbyte := fun i (hi : i < n) => copyDown_inside (m := m) hread hzero he hn hi
    constructor
    · intro H i hi
      rw [← H.inside i (by omega), ← H.inside (i + e) hi, hbyte i (by omega), if_pos hi]
    · intro H
      refine ⟨fun i hi => ?_, fun x hx => copyDown_outside hx⟩
      -- the bytes at the end of the range first
      induction hd : n - i using Nat.strong_induction_on generalizing i with
      | _ d ih =>
        rw [hbyte i hi]
        split
        · next hlt => rw [ih (n - (i + e)) (by omega) (i + e) hlt rfl, H i hlt]
        · rfl

/-- `memmove` ends with the bytes moved if and only if the condition holds. -/
theorem memmove_moved_iff (m : Mem) (dst src n : Nat) (hdst : dst < 2 ^ 64) (hsrc : src < 2 ^ 64)
    (hn : n < 2 ^ 64) :
    (∃ fuel m', memmove fuel m dst src n = some m' ∧ Moved m m' dst src n) ↔
      MemmoveExact m dst src n := by
  unfold MemmoveExact
  rcases Nat.eq_zero_or_pos n with rfl | hpos
  · exact iff_of_true ⟨0, m, rfl, fun i hi => absurd hi (Nat.not_lt_zero i), fun _ _ => rfl⟩
      (.inl rfl)
  by_cases hnull : src = 0
  · refine iff_of_false ?_ (by omega)
    rintro ⟨fuel, m', h, -⟩
    rw [memmove, if_neg (by omega), hnull, memmoveLoop_null] at h
    cases h
  have hrun : ∀ {m'}, (∃ fuel, memmove fuel m dst src n = some m') →
      ((∃ fuel m', memmove fuel m dst src n = some m' ∧ Moved m m' dst src n) ↔
        Moved m m' dst src n) := by
    rintro m' ⟨fuel, h⟩
    refine ⟨?_, fun H => ⟨fuel, m', h, H⟩⟩
    rintro ⟨fuel', m'', h', H⟩
    rwa [memmove_unique h h']
  have hcond : ∀ P : Prop, n = 0 ∨ src ≠ 0 ∧ P ↔ P := fun P =>
    ⟨fun h => (h.resolve_left (by omega)).2, fun h => .inr ⟨hnull, h⟩⟩
  rw [hcond]
  split
  · next hend =>
    have hcall : memmove (n + 1) m dst src n = some (copyDown dst src n m) := by
      rw [memmove, if_neg (by omega), memmoveLoop_eq hnull (by omega) (by omega),
        show n - 1 + 1 = n by omega]
    rw [hrun ⟨_, hcall⟩]
    exact copyDown_moved (ptrAdd_distance hdst) (Nat.mod_lt _ (by decide)) hn
  · next hend =>
    have hcall : memmove 1 m dst src n = some m := by
      rw [memmove, if_neg (by omega), memmoveLoop_around hn hsrc (by omega)]
    rw [hrun ⟨_, hcall⟩]
    exact ⟨And.left ∘ fun H => ⟨H.inside, H.outside⟩, fun H => ⟨H, fun _ _ => rfl⟩⟩

theorem memmove_moved_iff_sample : ∃ fuel m',
    memmove fuel (fun x => UInt8.ofNat x) 0x1002 0x1000 5 = some m' ∧
    Moved (fun x => UInt8.ofNat x) m' 0x1002 0x1000 5 :=
  (memmove_moved_iff _ 0x1002 0x1000 5 (by decide) (by decide) (by decide)).mpr
    (.inr ⟨by decide, by
      rw [if_pos (by decide)]
      intro i hi
      omega⟩)

/-- Three bytes moved down by one: the last of them is at all three places. -/
theorem memmove_down : ¬∃ fuel m', memmove fuel (fun x => UInt8.ofNat x) 0x1000 0x1001 3 =
    some m' ∧ Moved (fun x => UInt8.ofNat x) m' 0x1000 0x1001 3 := by
  rintro ⟨fuel, m', h, H⟩
  have hrun : memmove 4 (fun x => UInt8.ofNat x) 0x1000 0x1001 3 =
      some (copyDown 0x1000 0x1001 3 fun x => UInt8.ofNat x) :=
      memmoveLoop_eq (by decide) (by decide) (by decide)
  rw [memmove_unique h hrun] at H
  exact absurd (H.inside 0 (by decide)) (by decide)

end

end OsKernel.Klib

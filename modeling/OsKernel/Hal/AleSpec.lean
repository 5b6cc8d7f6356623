import OsKernel.Hal.Ale
import OsKernel.Mm.Vmm.CopyFaults
import OsKernel.Mm.Vmm.RoundTrip
import Mathlib.Tactic.IntervalCases

/-! Which instructions the handler of unaligned accesses emulates.  The instruction word is
decoded once more as the architecture has it, and the effect of the handler is compared with that
of the instruction. -/

namespace OsKernel.Hal

open Lib Hsai Mm Lib.BuddySystem BuddyAllocator

/-! ### The instructions -/

/-- The instructions of the two encoding spaces, with the bytes of the access.  `preld` fetches
ahead and changes nothing; `fload` and `fstore` use a floating-point register. -/
inductive Access where
  | load (n : Nat) (signed : Bool)
  | store (n : Nat)
  | preld
  | fload (n : Nat)
  | fstore (n : Nat)

namespace Access

/-- The bytes from the address on; for `preld` those that its size field names. -/
def bytes : Access → Nat
  | load n _ => n
  | store n => n
  | preld => 8
  | fload n => n
  | fstore n => n

/-- The instruction in a word of the two encoding spaces. -/
def decode (w : Nat) : Option Access :=
  if w / 2 ^ 26 % 64 = 0b001001 then
    match w / 2 ^ 24 % 4 with
    | 0b00 => some (load 4 true)    -- ldptr.w
    | 0b01 => some (store 4)        -- stptr.w
    | 0b10 => some (load 8 true)    -- ldptr.d
    | _ => some (store 8)           -- stptr.d
  else if w / 2 ^ 26 % 64 = 0b001010 then
    match w / 2 ^ 22 % 16 with
    | 0b0000 => some (load 1 true)
    | 0b0001 => some (load 2 true)
    | 0b0010 => some (load 4 true)
    | 0b0011 => some (load 8 true)
    | 0b0100 => some (store 1)
    | 0b0101 => some (store 2)
    | 0b0110 => some (store 4)
    | 0b0111 => some (store 8)
    | 0b1000 => some (load 1 false)
    | 0b1001 => some (load 2 false)
    | 0b1010 => some (load 4 false)
    | 0b1011 => some preld
    | 0b1100 => some (fload 4)
    | 0b1101 => some (fstore 4)
    | 0b1110 => some (fload 8)
    | _ => some (fstore 8)
  else none

end Access

/-- The word encodes `ldptr.w`. -/
def IsLdptrW (w : Nat) : Prop := w / 2 ^ 26 % 64 = 0b001001 ∧ w / 2 ^ 24 % 4 = 0b00

instance (w : Nat) : Decidable (IsLdptrW w) := inferInstanceAs (Decidable (_ ∧ _))

/-- The register field. -/
def rdOf (w : Nat) : Nat := w % 32

/-- What the architecture puts in the register for the number in the `n` bytes. -/
def loadValue (n : Nat) (signed : Bool) (v : Nat) : BitVec 64 :=
  if signed then (BitVec.ofNat (8 * n) v).signExtend 64 else (BitVec.ofNat (8 * n) v).setWidth 64

section

variable {σ : Type} (V : VirtualPageAllocator σ) (k : Kernel σ) (pt : PageTable) (tf : TrapFrame)
  (badv : Nat)

/-- The number in the `n` user bytes at `badv`. -/
def userNat (n : Nat) : Nat := leNat (userView .loongarch V k pt badv n)

/-- The effect of the instruction on the trap frame and the memory, where all bytes of the access
are mapped; `fr` gives the floating-point registers. -/
structure Emulated (fr : Nat → BitVec 64) (w : Nat) (r : AleResult σ) : Prop where
  era : r.tf.era = tf.era + 4
  load : ∀ n signed, Access.decode w = some (.load n signed) → r.kernel = k ∧
    ∀ i < 32, getRegFromTrapFrame r.tf i =
      if i = rdOf w ∧ i ≠ 0 then loadValue n signed (userNat V k pt badv n)
        else getRegFromTrapFrame tf i
  store : ∀ n, Access.decode w = some (.store n) → r.tf.reg = tf.reg ∧
    Mem.Stored k.mem (fun d => userLoc .loongarch V k pt (wordAdd badv d))
      (fun d => (lowBytes (getRegFromTrapFrame tf (rdOf w)) n).getD d 0) 0 n r.kernel.mem
  preld : Access.decode w = some .preld → r.tf.reg = tf.reg ∧ r.kernel = k
  fload : ∀ n, Access.decode w = some (.fload n) → r.data = none ∧ r.tf.reg = tf.reg ∧
    r.kernel = k
  fstore : ∀ n, Access.decode w = some (.fstore n) → r.data = none ∧ r.tf.reg = tf.reg ∧
    Mem.Stored k.mem (fun d => userLoc .loongarch V k pt (wordAdd badv d))
      (fun d => (lowBytes (fr (rdOf w)) n).getD d 0) 0 n r.kernel.mem

/-- The bytes of the access of the instruction `w` are mapped. -/
def AccessMapped (w : Nat) : Prop :=
  ∃ a, Access.decode w = some a ∧ UserLeaves .loongarch V k pt badv a.bytes

/-- What is asked of the handler for the instruction `w`: a panic, or the effect of the instruction;
and where the address is not mapped, the registers as they were. -/
def AleRight (era w : Nat) : Prop :=
  (∃ message, handleAle V k pt tf badv era = .error (.panic message)) ∨
    ∃ r, handleAle V k pt tf badv era = .ok r ∧
      (AccessMapped V k pt badv w → ∀ fr, Emulated V k pt tf badv fr w r) ∧
      (¬AccessMapped V k pt badv w → ∀ i < 32,
        getRegFromTrapFrame r.tf i = getRegFromTrapFrame tf i)

/-! ### The condition -/

/-- `walk_addr` returns at all bytes of the access. -/
def AccessWalks (n : Nat) : Prop :=
  ∀ d < n, ∃ pa, walkAddr .loongarch V k pt (pageRoundDown (wordAdd badv d)) = .ok pa

/-- The place from which `copy_in` takes the byte at the user address `a`, mapped or not. -/
def seenLoc (a : Nat) : Nat :=
  match walkAddr .loongarch V k pt (pageRoundDown a) with
  | .ok pa => Arch.toVir .loongarch pa + a % 4096
  | .error _ => 0

/-- The number in the `n` bytes that `copy_in` takes from there. -/
def seenNat (n : Nat) : Nat := leNat (k.mem.view (fun d => seenLoc V k pt (wordAdd badv d)) n)

/-- The condition for a mapped access: `ldptr.w` leaves the upper half of the register, which must
be the sign of the word; `preld` is carried out as a load, which must change nothing; a
floating-point access is carried out with a general register. -/
def OkMapped (w : Nat) : Access → Prop
  | .load n _ => IsLdptrW w → rdOf w = 0 ∨ (getRegFromTrapFrame tf (rdOf w)).toNat / 2 ^ 32 =
      if userNat V k pt badv n < 2 ^ 31 then 0 else 2 ^ 32 - 1
  | .store _ => True
  | .preld => rdOf w = 0 ∨ (getRegFromTrapFrame tf (rdOf w)).toNat = userNat V k pt badv 8
  | .fload _ => False
  | .fstore _ => False

/-- The condition where the address is not mapped: a load whose walks all return must bring what the
register has. -/
def OkUnmapped (w : Nat) : Access → Prop
  | .load n signed => rdOf w = 0 ∨ ¬AccessWalks V k pt badv n ∨
      if IsLdptrW w then (getRegFromTrapFrame tf (rdOf w)).toNat % 2 ^ 32 = seenNat V k pt badv n
      else getRegFromTrapFrame tf (rdOf w) = loadValue n signed (seenNat V k pt badv n)
  | .preld => rdOf w = 0 ∨ ¬AccessWalks V k pt badv 8 ∨
      (getRegFromTrapFrame tf (rdOf w)).toNat = seenNat V k pt badv 8
  | _ => True

/-- The condition for the instruction `w`. -/
def AleOk (w : Nat) : Prop :=
  ∀ a, Access.decode w = some a →
    (UserLeaves .loongarch V k pt badv a.bytes → OkMapped V k pt tf badv w a) ∧
      (¬UserLeaves .loongarch V k pt badv a.bytes → OkUnmapped V k pt tf badv w a)

end

/-! ### Values -/

theorem leNat_lt (l : List UInt8) : leNat l < 2 ^ (8 * l.length) := by
  induction l with
  | nil => simp [leNat]
  | cons b l ih =>
    have hb := b.toNat_lt
    rw [leNat, List.length_cons, show 8 * (l.length + 1) = 8 * l.length + 8 from rfl, pow_add]
    omega

theorem toNat_patchLow (x : BitVec 64) {bytes : List UInt8} (hlen : bytes.length ≤ 8) :
    (patchLow x bytes).toNat =
      2 ^ (8 * bytes.length) * (x.toNat / 2 ^ (8 * bytes.length)) + leNat bytes := by
  have hlt := leNat_lt bytes
  have hle : 2 ^ (8 * bytes.length) ≤ 2 ^ 64 := Nat.pow_le_pow_right (by decide) (by omega)
  have hx : x.toNat / 2 ^ (8 * bytes.length) * 2 ^ (8 * bytes.length) < 2 ^ 64 :=
    Nat.lt_of_le_of_lt (Nat.div_mul_le_self _ _) x.isLt
  rw [patchLow, BitVec.toNat_or, BitVec.toNat_shiftLeft, BitVec.toNat_ushiftRight,
    BitVec.toNat_ofNat, Nat.shiftRight_eq_div_pow, Nat.shiftLeft_eq, Nat.mod_eq_of_lt hx,
    Nat.mod_eq_of_lt (a := leNat bytes) (by omega),
    Nat.mul_comm, Nat.two_pow_add_eq_or_of_lt hlt]

/-- The mask sets the upper bits. -/
theorem toNat_or_high {x : BitVec 64} {i c : Nat} (hx : x.toNat < 2 ^ i) (hc : 2 ^ i * c < 2 ^ 64) :
    (x ||| BitVec.ofNat 64 (2 ^ i * c)).toNat = 2 ^ i * c + x.toNat := by
  rw [BitVec.toNat_or, BitVec.toNat_ofNat, Nat.mod_eq_of_lt hc, Nat.or_comm,
    Nat.two_pow_add_eq_or_of_lt hx]

/-- The test of the sign bit. -/
theorem and_sign_ne_zero {x : BitVec 64} {i : Nat} (hx : x.toNat < 2 ^ (i + 1)) (hi : i < 64) :
    x &&& BitVec.twoPow 64 i ≠ 0#64 ↔ 2 ^ i ≤ x.toNat := by
  have hpos := Nat.two_pow_pos i
  have hne : BitVec.twoPow 64 i ≠ 0#64 := by
    intro h
    have := congrArg BitVec.toNat h
    rw [BitVec.toNat_twoPow_of_lt hi] at this
    simp at this
  rw [BitVec.and_twoPow, BitVec.getLsbD, Nat.testBit_eq_decide_div_mod_eq]
  rw [pow_succ] at hx
  rcases Nat.lt_or_ge x.toNat (2 ^ i) with h | h
  · simp [Nat.div_eq_of_lt h, h]
  · have : x.toNat / 2 ^ i = 1 := Nat.div_eq_of_lt_le (by omega) (by omega)
    simpa [this, h] using hne

theorem toNat_loadValue {n v : Nat} (signed : Bool) (hn : 1 ≤ n) (hn8 : n ≤ 8)
    (hv : v < 2 ^ (8 * n)) : (loadValue n signed v).toNat =
      v + if signed = true ∧ 2 ^ (8 * n - 1) ≤ v then 2 ^ 64 - 2 ^ (8 * n) else 0 := by
  have hle : 2 ^ (8 * n) ≤ 2 ^ 64 := Nat.pow_le_pow_right (by decide) (by omega)
  have hset : ((BitVec.ofNat (8 * n) v).setWidth 64).toNat = v := by
    rw [BitVec.toNat_setWidth, BitVec.toNat_ofNat, Nat.mod_eq_of_lt hv, Nat.mod_eq_of_lt (by omega)]
  cases signed with
  | false => simpa [loadValue] using hset
  | true =>
    simp only [loadValue, if_true, true_and]
    rw [BitVec.toNat_signExtend, hset, BitVec.msb_eq_decide, BitVec.toNat_ofNat,
      Nat.mod_eq_of_lt hv]
    simp

theorem extend_toNat {x t m : BitVec 64} {i c : Nat} (hx : x.toNat < 2 ^ (i + 1))
    (hc : 2 ^ (i + 1) * c < 2 ^ 64) (ht : x &&& t ≠ 0#64 ↔ 2 ^ i ≤ x.toNat)
    (hm : m = BitVec.ofNat 64 (2 ^ (i + 1) * c)) :
    (if x &&& t ≠ 0#64 then x ||| m else x).toNat = x.toNat + if 2 ^ i ≤ x.toNat then 2 ^
      (i + 1) * c else 0 := by
  subst hm
  by_cases h : 2 ^ i ≤ x.toNat
  · rw [if_pos (ht.mpr h), if_pos h, toNat_or_high hx hc, Nat.add_comm]
  · rw [if_neg (mt ht.mp h), if_neg h, Nat.add_zero]

theorem and_high_eq_zero {x : BitVec 64} {i c : Nat} (hx : x.toNat < 2 ^ i) :
    x &&& BitVec.ofNat 64 (2 ^ i * c) = 0#64 := by
  apply BitVec.eq_of_toNat_eq
  rw [BitVec.toNat_and, BitVec.toNat_ofNat, BitVec.toNat_ofNat]
  refine Nat.eq_of_testBit_eq fun j => ?_
  rw [Nat.testBit_and, Nat.testBit_mod_two_pow, Nat.testBit_two_pow_mul]
  rcases Nat.lt_or_ge j i with h | h
  · simp [Nat.not_le.mpr h]
  · rw [Nat.testBit_lt_two_pow (Nat.lt_of_lt_of_le hx (Nat.pow_le_pow_right (by decide) h))]
    simp

/-- The extension in the handler is the sign extension. -/
theorem aleExtend_eq {n v : Nat} (hn : n = 1 ∨ n = 2 ∨ n = 4 ∨ n = 8) (hv : v < 2 ^ (8 * n)) :
    aleExtend n (BitVec.ofNat 64 v) = loadValue n true v := by
  have hle : 2 ^ (8 * n) ≤ 2 ^ 64 := Nat.pow_le_pow_right (by decide) (by omega)
  have hx : (BitVec.ofNat 64 v).toNat = v := by rw [BitVec.toNat_ofNat, Nat.mod_eq_of_lt (by omega)]
  apply BitVec.eq_of_toNat_eq
  rw [toNat_loadValue true (by omega) (by omega) hv]
  rcases hn with rfl | rfl | rfl | rfl
  · have ht := and_sign_ne_zero (x := BitVec.ofNat 64 v) (i := 7) (by omega) (by decide)
    have h := extend_toNat (m := 0xFFFFFFFFFFFFFF00#64) (c := 2 ^ 56 - 1) (by omega)
      (by decide) ht (by decide)
    rw [hx, show BitVec.twoPow 64 7 = 0x80#64 by decide] at h
    simpa [aleExtend] using h
  · have ht := and_sign_ne_zero (x := BitVec.ofNat 64 v) (i := 15) (by omega) (by decide)
    have h := extend_toNat (m := 0xFFFFFFFFFFFF0000#64) (c := 2 ^ 48 - 1) (by omega)
      (by decide) ht (by decide)
    rw [hx, show BitVec.twoPow 64 15 = 0x8000#64 by decide] at h
    simpa [aleExtend] using h
  · have hmask : 0xFFFFFFFF80000000#64 = BitVec.twoPow 64 31 |||
      BitVec.ofNat 64 (2 ^ 32 * (2 ^ 32 - 1)) := by decide
    have ht : BitVec.ofNat 64 v &&& 0xFFFFFFFF80000000#64 ≠ 0#64 ↔
        2 ^ 31 ≤ (BitVec.ofNat 64 v).toNat := by
      rw [hmask, BitVec.and_or_distrib_left, and_high_eq_zero (by omega), BitVec.or_zero]
      exact and_sign_ne_zero (by omega) (by decide)
    have h := extend_toNat (m := 0xFFFFFFFF00000000#64) (c := 2 ^ 32 - 1) (by omega)
      (by decide) ht (by decide)
    rw [hx] at h
    simpa [aleExtend] using h
  · rw [aleExtend, hx]
    · simp
    all_goals simp


/-! ### Decoding -/

section

variable {σ : Type} {V : VirtualPageAllocator σ} {k : Kernel σ} {pt : PageTable} {tf : TrapFrame}
  {badv w : Nat}

/-- The value that the handler puts in the register. -/
def handledValue (tf : TrapFrame) (w n : Nat) (signed : Bool) (bytes : List UInt8) : BitVec 64 :=
  if w / 2 ^ 26 % 64 = 0b001001 then patchLow (getRegFromTrapFrame tf (rdOf w)) bytes
  else if signed then aleExtend n (patchLow 0 bytes)
  else patchLow 0 bytes

/-- The access that the handler makes for the instruction. -/
def handledAccess (V : VirtualPageAllocator σ) (k : Kernel σ) (pt : PageTable) (tf : TrapFrame)
    (badv w : Nat) : Access → Except Fault (AleResult σ)
  | .load n signed => aleLoad V k pt tf badv (rdOf w) n (handledValue tf w n signed)
  | .store n => aleStore V k pt tf badv (rdOf w) n
  | .preld => aleLoad V k pt tf badv (rdOf w) 8 (patchLow 0)
  | .fload n => aleStore V k pt tf badv (rdOf w) (if n = 4 then 1 else 4)
  | .fstore n => aleStore V k pt tf badv (rdOf w) (if n = 4 then 2 else 8)

theorem aleSwitch_eq (V : VirtualPageAllocator σ) (k : Kernel σ) (pt : PageTable) (tf : TrapFrame)
    (badv w : Nat) :
    match Access.decode w with
    | some a => aleSwitch V k pt tf badv w = handledAccess V k pt tf badv w a
    | none => ∃ message, aleSwitch V k pt tf badv w = .error (.panic message) := by
  have hmain : w >>> 26 &&& 0x3F = w / 2 ^ 26 % 64 := by
    rw [Nat.shiftRight_eq_div_pow, show 0x3F = 2 ^ 6 - 1 from rfl, Nat.and_two_pow_sub_one_eq_mod]
  have hrd : w &&& 0x1F = rdOf w := by
    rw [show 0x1F = 2 ^ 5 - 1 from rfl, Nat.and_two_pow_sub_one_eq_mod]
    rfl
  have hsub : w >>> 24 &&& 0x3 = w / 2 ^ 24 % 4 := by
    rw [Nat.shiftRight_eq_div_pow, show 0x3 = 2 ^ 2 - 1 from rfl, Nat.and_two_pow_sub_one_eq_mod]
  have hsub' : w >>> 22 &&& 0xF = w / 2 ^ 22 % 16 := by
    rw [Nat.shiftRight_eq_div_pow, show 0xF = 2 ^ 4 - 1 from rfl, Nat.and_two_pow_sub_one_eq_mod]
  unfold aleSwitch Access.decode
  simp only [hmain, hrd, hsub, hsub']
  by_cases h9 : w / 2 ^ 26 % 64 = 0b001001
  · have hlt : w / 2 ^ 24 % 4 < 4 := Nat.mod_lt _ (by decide)
    have hval : ∀ n, handledValue tf w n true = fun bytes =>
        patchLow (getRegFromTrapFrame tf (rdOf w)) bytes := by
      intro n
      funext bytes
      rw [handledValue, if_pos h9]
    rw [if_pos h9]
    simp only [h9]
    generalize w / 2 ^ 24 % 4 = sub at hlt ⊢
    interval_cases sub <;> simp [handledAccess, hval]
  · by_cases h10 : w / 2 ^ 26 % 64 = 0b001010
    · have hlt : w / 2 ^ 22 % 16 < 16 := Nat.mod_lt _ (by decide)
      have hval : ∀ n signed, handledValue tf w n signed = fun bytes =>
          if signed then aleExtend n (patchLow 0 bytes) else patchLow 0 bytes := by
        intro n signed
        funext bytes
        rw [handledValue, if_neg h9]
      rw [if_neg h9, if_pos h10]
      simp only [h10]
      generalize w / 2 ^ 22 % 16 = sub at hlt ⊢
      interval_cases sub <;> simp [handledAccess, hval]
    · rw [if_neg h9, if_neg h10]
      simp only [if_neg h9, if_neg h10]
      split_ifs <;> exact ⟨_, rfl⟩

theorem decode_load {n : Nat} {signed : Bool} (h : Access.decode w = some (.load n signed)) :
    (n = 1 ∨ n = 2 ∨ n = 4 ∨ n = 8) ∧
      (w / 2 ^ 26 % 64 = 0b001001 → signed = true ∧
        (IsLdptrW w ∧ n = 4 ∨ ¬IsLdptrW w ∧ n = 8)) := by
  unfold Access.decode at h
  split at h
  case isTrue h9 =>
    have hlt : w / 2 ^ 24 % 4 < 4 := Nat.mod_lt _ (by decide)
    unfold IsLdptrW
    generalize w / 2 ^ 24 % 4 = sub at h hlt ⊢
    interval_cases sub <;> simp at h <;> obtain ⟨rfl, rfl⟩ := h <;> simp
  case isFalse h9 =>
    refine ⟨?_, fun h => absurd h h9⟩
    split at h
    · have hlt : w / 2 ^ 22 % 16 < 16 := Nat.mod_lt _ (by decide)
      generalize w / 2 ^ 22 % 16 = sub at h hlt
      interval_cases sub <;> simp at h <;> omega
    · cases h

theorem patchLow_zero {bytes : List UInt8} (hlen : bytes.length ≤ 8) :
    patchLow 0 bytes = BitVec.ofNat 64 (leNat bytes) := by
  have hlt := leNat_lt bytes
  have hle : 2 ^ (8 * bytes.length) ≤ 2 ^ 64 := Nat.pow_le_pow_right (by decide) (by omega)
  apply BitVec.eq_of_toNat_eq
  rw [toNat_patchLow _ hlen, BitVec.toNat_ofNat, Nat.mod_eq_of_lt (by omega)]
  simp

/-- The loads and their values, apart from `ldptr.w`. -/
theorem handledValue_eq {n : Nat} {signed : Bool} {bytes : List UInt8}
    (h : Access.decode w = some (.load n signed))
    (hlen : bytes.length = n) (hw : ¬IsLdptrW w) :
      handledValue tf w n signed bytes = loadValue n signed (leNat bytes) := by
  obtain ⟨hn, h9⟩ := decode_load h
  have hlt := leNat_lt bytes
  rw [hlen] at hlt
  unfold handledValue
  split
  case isTrue hm =>
    -- `ldptr.d` replaces the whole register
    obtain ⟨rfl, hwn | ⟨-, rfl⟩⟩ := h9 hm
    · exact absurd hwn.1 hw
    · apply BitVec.eq_of_toNat_eq
      rw [toNat_patchLow _ (by omega), toNat_loadValue true (by decide) (by decide) hlt, hlen,
        Nat.div_eq_of_lt (BitVec.isLt _)]
      simp
  case isFalse hm =>
    rw [patchLow_zero (by omega)]
    cases signed with
    | true => rw [if_pos rfl, aleExtend_eq hn hlt]
    | false =>
      have hle : 2 ^ (8 * n) ≤ 2 ^ 64 := Nat.pow_le_pow_right (by decide) (by omega)
      apply BitVec.eq_of_toNat_eq
      rw [if_neg (by decide), toNat_loadValue false (by omega) (by omega) hlt, BitVec.toNat_ofNat,
        Nat.mod_eq_of_lt (by omega)]
      simp

/-- `ldptr.w` keeps the upper half of the register. -/
theorem handledValue_ldptrW (tf : TrapFrame) (signed : Bool) {bytes : List UInt8} (hw : IsLdptrW w)
    (hlen : bytes.length = 4) : (handledValue tf w 4 signed bytes).toNat =
      2 ^ 32 * ((getRegFromTrapFrame tf (rdOf w)).toNat / 2 ^ 32) + leNat bytes := by
  rw [handledValue, if_pos hw.1, toNat_patchLow _ (by omega), hlen]

/-! ### Registers -/

theorem TfReg.ofNum_inj : ∀ n < 32, ∀ m < 32, TfReg.ofNum n = TfReg.ofNum m →
    n = m := by decide

theorem TfReg.ofNum_none : ∀ n < 32, TfReg.ofNum n = none → n = 0 := by decide

/-- A store in a register changes this one and no other; register 0 stays zero. -/
theorem getReg_setReg {n i : Nat} (x : BitVec 64) (hn : n < 32) (hi : i < 32) :
    getRegFromTrapFrame (setRegFromTrapFrame tf n x) i = if i = n ∧ i ≠ 0 then x
      else getRegFromTrapFrame tf i := by
  unfold getRegFromTrapFrame setRegFromTrapFrame
  cases hr : TfReg.ofNum n with
  | none =>
    obtain rfl := TfReg.ofNum_none n hn hr
    rw [if_neg (by omega)]
  | some r =>
    simp only
    cases hs : TfReg.ofNum i with
    | none =>
      obtain rfl := TfReg.ofNum_none i hi hs
      simp
    | some s =>
      simp only
      have hi0 : i ≠ 0 := by
        rintro rfl
        cases hs
      by_cases he : i = n
      · subst he
        rw [hr] at hs
        cases hs
        rw [Function.update_self, if_pos ⟨rfl, hi0⟩]
      · have hne : s ≠ r := by
          rintro rfl
          exact he (TfReg.ofNum_inj i hi n hn (hs.trans hr.symm))
        rw [Function.update_of_ne hne, if_neg fun h => he h.1]

theorem setReg_era (tf : TrapFrame) (n : Nat) (x : BitVec 64) :
    (setRegFromTrapFrame tf n x).era = tf.era := by
  unfold setRegFromTrapFrame
  split <;> rfl

theorem setReg_reg_iff (tf : TrapFrame) {n : Nat} (x : BitVec 64) (hn : n < 32) :
    (setRegFromTrapFrame tf n x).reg = tf.reg ↔ n = 0 ∨ x = getRegFromTrapFrame tf n := by
  unfold setRegFromTrapFrame getRegFromTrapFrame
  cases hr : TfReg.ofNum n with
  | none => exact iff_of_true rfl (.inl (TfReg.ofNum_none n hn hr))
  | some r =>
    have hn0 : n ≠ 0 := by
      rintro rfl
      cases hr
    simp [Function.update_eq_self_iff, hn0]

/-- A store of `x` where `y` is asked for. -/
theorem setReg_exact_iff (tf : TrapFrame) {n : Nat} (x y : BitVec 64) (hn : n < 32) :
    (∀ i < 32, getRegFromTrapFrame (setRegFromTrapFrame tf n x) i =
      if i = n ∧ i ≠ 0 then y else getRegFromTrapFrame tf i) ↔ n = 0 ∨ x = y := by
  constructor
  · intro h
    by_cases h0 : n = 0
    · exact .inl h0
    · have := h n hn
      rw [getReg_setReg x hn hn, if_pos ⟨rfl, h0⟩, if_pos ⟨rfl, h0⟩] at this
      exact .inr this
  · rintro (rfl | rfl) i hi
    · rw [getReg_setReg x hn hi, if_neg (by omega), if_neg (by omega)]
    · exact getReg_setReg x hn hi

theorem setReg_same_iff {n : Nat} {x : BitVec 64} (hn : n < 32) :
    (∀ i < 32, getRegFromTrapFrame (setRegFromTrapFrame tf n x) i = getRegFromTrapFrame tf i) ↔
      n = 0 ∨ getRegFromTrapFrame tf n = x := by
  rw [eq_comm (b := x), ← setReg_exact_iff tf _ _ hn]
  refine forall₂_congr fun i _ => ?_
  by_cases h : i = n ∧ i ≠ 0
  · rw [if_pos h, h.1]
  · rw [if_neg h]

end

/-! ### Copies -/

section

variable {σ : Type} {V : VirtualPageAllocator σ} {k : Kernel σ} {pt : PageTable} {badv n : Nat}

theorem copyInLoop_walks {turns va len : Nat} {dst : List UInt8} {r : Int × List UInt8}
    (hva : va < 2 ^ 64) (hlen : len ≤ turns)
      (h : copyInLoop .loongarch V k pt turns va len dst = .ok r) : AccessWalks V k pt va len := by
  induction turns generalizing va len dst with
  | zero =>
    intro d hd
    omega
  | succ turns ih =>
    intro d hd
    rw [copyInLoop, if_neg (by omega)] at h
    simp only at h
    obtain ⟨pa, hpa, h⟩ := bind_eq_ok.mp h
    have hdown := pageRoundDown_eq va
    have hoff : va - pageRoundDown va = va % 4096 := by omega
    rw [Arch.toVir_loongarch, if_neg (by omega), hoff, next_page,
      show pageSize = 4096 from rfl] at h
    by_cases hin : d < 4096 - va % 4096
    · rw [page_of_add, show (va % 4096 + d) / 4096 = 0 by omega, copyPage_zero hva]
      exact ⟨pa, hpa⟩
    · have hwalks := ih (wordAdd_lt _ _) (by omega) h (d - (4096 - va % 4096)) (by omega)
      rwa [wordAdd_assoc, show 4096 - va % 4096 + (d - (4096 - va % 4096)) = d by omega] at hwalks

/-- `copy_in` takes the bytes from `seenLoc`, or a walk panics. -/
theorem copyIn_seen (hva : badv < 2 ^ 64) (h : AccessWalks V k pt badv n) :
    copyIn .loongarch V k pt badv n =
      .ok (0, k.mem.view (fun d => seenLoc V k pt (wordAdd badv d)) n) := by
  rw [copyIn, copyInLoop_view (seenLoc V k pt) _ _ hva (Nat.le_refl n), List.nil_append]
  intro d hd
  obtain ⟨pa, hpa⟩ := h d hd
  refine ⟨pa, hpa, ?_, ?_, ?_⟩
  · rw [Arch.toVir_loongarch]
    omega
  · rw [Arch.toVir_loongarch]
    omega
  · rw [seenLoc, hpa]

theorem copyIn_panics (hva : badv < 2 ^ 64) (h : ¬AccessWalks V k pt badv n) :
    ∃ message, copyIn .loongarch V k pt badv n = .error (.panic message) := by
  cases hr : copyIn .loongarch V k pt badv n with
  | ok r => exact absurd (copyInLoop_walks hva (Nat.le_refl n) hr) h
  | error e =>
    obtain ⟨message, rfl⟩ := copyInLoop_error hr
    exact ⟨message, rfl⟩

end

section

variable {reg : Region} {k : Kernel BuddyAllocator} {B : Blocks} {Base : Nat → Nat → Prop}
  {ι : Type} {W : Spaces ι}
  {i : ι} {A : AddrSpace} {badv n : Nat}

theorem mapped_readable (H : World reg .loongarch k B Base W) (hi : W i = some A) (hb : A.base = 0)
    (L : UserLeaves .loongarch buddyPages k ⟨A.root, true⟩ badv n) :
    ∀ d < n, Readable .loongarch buddyPages k ⟨A.root, true⟩ (wordAdd badv d) := by
  intro d hd
  refine H.readable hi hb ?_ (by rw [Arch.toVir_loongarch]; omega)
  rw [page_of_add]
  exact L _ (reached_of_lt hd)

theorem mapped_walks (H : World reg .loongarch k B Base W) (hi : W i = some A) (hb : A.base = 0)
    (L : UserLeaves .loongarch buddyPages k ⟨A.root, true⟩ badv n) :
      AccessWalks buddyPages k ⟨A.root, true⟩ badv n :=
  fun d hd => ⟨_, (mapped_readable H hi hb L d hd).walk⟩

/-- Where the access is mapped, `copy_in` takes the user bytes. -/
theorem mapped_seen (H : World reg .loongarch k B Base W) (hi : W i = some A) (hb : A.base = 0)
    (L : UserLeaves .loongarch buddyPages k ⟨A.root, true⟩ badv n) :
    k.mem.view (fun d => seenLoc buddyPages k ⟨A.root, true⟩ (wordAdd badv d)) n =
      userView .loongarch buddyPages k ⟨A.root, true⟩ badv n := by
  refine List.map_congr_left fun d hd => ?_
  simp only [seenLoc, (mapped_readable H hi hb L d (List.mem_range.mp hd)).walk]
  rfl

/-- A store of at most 8 bytes: two of them are at different addresses also where two pages of the
user have one frame. -/
theorem mapped_store (hw : reg.InWindow .loongarch) (H : World reg .loongarch k B Base W)
    (hi : W i = some A) (hb : A.base = 0) (ho : A.Owned reg .loongarch) (hva : badv < 2 ^ 64)
    {p : List UInt8} (hlen : p.length ≤ 8)
    (L : UserLeaves .loongarch buddyPages k ⟨A.root, true⟩ badv p.length) :
    ∃ k', copyout .loongarch buddyPages k ⟨A.root, true⟩ badv p = .ok (0, k') ∧
      Mem.Stored k.mem (fun d => userLoc .loongarch buddyPages k ⟨A.root, true⟩
        (wordAdd badv d)) (fun d => p.getD d 0) 0 p.length k'.mem := by
  obtain ⟨k', hrun, -, hst⟩ :=
      H.copyoutLoop_leaves hw p.length p hi hb ho hva (Nat.le_refl _) L (fun d e hd he heq => by
    obtain ⟨mp, -, hok, hentry⟩ := H.validLeaf hi hb (L _ (reached_of_lt hd)).1
    obtain ⟨mp', -, hok', hentry'⟩ := H.validLeaf hi hb (L _ (reached_of_lt he)).1
    unfold userLoc at heq
    rw [page_of_add, page_of_add, offset_of_add, offset_of_add, hentry, hentry', hok.toPa,
      hok'.toPa] at heq
    have hmod : Arch.toVir .loongarch mp.page % 4096 = 0 := toVir_mod hok.aligned
    have hmod' : Arch.toVir .loongarch mp'.page % 4096 = 0 := toVir_mod hok'.aligned
    omega) (fun j _ => by rw [Arch.toVir_loongarch]; omega)
  exact ⟨k', hrun, hst⟩

@[simp] theorem lowBytes_length (x : BitVec 64) (n : Nat) :
    (lowBytes x n).length = n := by simp [lowBytes]

theorem decode_bytes {w : Nat} {a : Access} (h : Access.decode w = some a) : a.bytes ≤ 8 := by
  unfold Access.decode at h
  split at h
  · split at h <;> cases h <;> decide
  · split at h
    · split at h <;> cases h <;> decide
    · cases h

theorem decode_float {w n : Nat} {a : Access} (h : Access.decode w = some a)
    (ha : a = .fload n ∨ a = .fstore n) : n = 4 ∨ n = 8 := by
  unfold Access.decode at h
  split at h
  · split at h <;> cases h <;> simp at ha
  · split at h
    · split at h <;> cases h <;> simp at ha <;> omega
    · cases h

end

/-! ### The handler -/

section

variable {reg : Region} {k : Kernel BuddyAllocator} {B : Blocks} {Base : Nat → Nat → Prop}
  {ι : Type} {W : Spaces ι}
  {i : ι} {A : AddrSpace} {tf : TrapFrame} {badv era w : Nat} {a : Access}

/-- The trap frame at the end of the handler. -/
def AleResult.advance {σ : Type} (r : AleResult σ) : AleResult σ :=
  { r with tf := { r.tf with era := r.tf.era + 4 } }

theorem handleAle_eq (tf : TrapFrame) (badv : Nat) (H : World reg .loongarch k B Base W)
    (hi : W i = some A) (hb : A.base = 0) (hera : era < 2 ^ 60)
    (hfetch : UserLeaves .loongarch buddyPages k ⟨A.root, true⟩ era 4)
    (hword : w = userNat buddyPages k ⟨A.root, true⟩ era 4) :
    handleAle buddyPages k ⟨A.root, true⟩ tf badv era =
      (aleSwitch buddyPages k ⟨A.root, true⟩ tf badv w >>= fun r => .ok r.advance) := by
  have hcode : copyIn .loongarch buddyPages k ⟨A.root, true⟩ era 4 =
      .ok (0, userView .loongarch buddyPages k ⟨A.root, true⟩ era 4) := by
    rw [copyIn, copyInLoop_bytes _ _ (by omega) (Nat.le_refl _) (mapped_readable H hi hb hfetch),
      List.nil_append]
  have hlen : (userView .loongarch buddyPages k ⟨A.root, true⟩ era 4).length = 4 :=
    Mem.view_length _ _ _
  unfold handleAle
  rw [if_neg (by rw [Nat.shiftRight_eq_div_pow]; omega), hcode, ok_bind]
  simp only [hlen, Nat.lt_irrefl, if_false]
  rw [hword]
  rfl

theorem rdOf_lt (w : Nat) : rdOf w < 32 := Nat.mod_lt _ (by decide)

/-- The result of a load, mapped or not. -/
theorem aleLoad_seen {σ : Type} {V : VirtualPageAllocator σ} {k : Kernel σ} {pt : PageTable}
    {n rd : Nat}
    {value : List UInt8 → BitVec 64} (hva : badv < 2 ^ 64) (h : AccessWalks V k pt badv n) :
    aleLoad V k pt tf badv rd n value = .ok ⟨setRegFromTrapFrame tf rd
      (value (k.mem.view (fun d => seenLoc V k pt (wordAdd badv d)) n)), k, some rd⟩ := by
  rw [aleLoad, copyIn_seen hva h, ok_bind]

theorem aleLoad_panics {σ : Type} {V : VirtualPageAllocator σ} {k : Kernel σ} {pt : PageTable}
    {n : Nat} (tf : TrapFrame) (rd : Nat) (value : List UInt8 → BitVec 64) (hva : badv < 2 ^ 64)
    (h : ¬AccessWalks V k pt badv n) :
    ∃ message, aleLoad V k pt tf badv rd n value = .error (.panic message) := by
  obtain ⟨message, hm⟩ := copyIn_panics hva h
  exact ⟨message, by rw [aleLoad, hm, error_bind]⟩

/-- A store panics, or it leaves the trap frame as it is. -/
theorem aleStore_frame {σ : Type} (V : VirtualPageAllocator σ) (k : Kernel σ) (pt : PageTable)
    (tf : TrapFrame) (badv rd n : Nat) :
    (∃ message, aleStore V k pt tf badv rd n = .error (.panic message)) ∨
      ∃ k', aleStore V k pt tf badv rd n = .ok ⟨tf, k', some rd⟩ := by
  unfold aleStore
  cases hr : copyout .loongarch V k pt badv (lowBytes (getRegFromTrapFrame tf rd) n) with
  | ok r => exact .inr ⟨r.2, rfl⟩
  | error e =>
    obtain ⟨message, rfl⟩ := copyoutLoop_error hr
    exact .inl ⟨message, rfl⟩

theorem aleStore_mapped (hw : reg.InWindow .loongarch) (H : World reg .loongarch k B Base W)
    (hi : W i = some A) (hb : A.base = 0) (ho : A.Owned reg .loongarch) (hva : badv < 2 ^ 64)
    (tf : TrapFrame) (rd : Nat) {n : Nat} (hn : n ≤ 8)
    (L : UserLeaves .loongarch buddyPages k ⟨A.root, true⟩ badv n) :
    ∃ k', aleStore buddyPages k ⟨A.root, true⟩ tf badv rd n = .ok ⟨tf, k', some rd⟩ ∧
      Mem.Stored k.mem (fun d => userLoc .loongarch buddyPages k ⟨A.root, true⟩
        (wordAdd badv d)) (fun d => (lowBytes (getRegFromTrapFrame tf rd) n).getD d 0)
          0 n k'.mem := by
  obtain ⟨k', hrun, hst⟩ :=
    mapped_store hw H hi hb ho hva (p := lowBytes (getRegFromTrapFrame tf rd) n)
    (by rwa [lowBytes_length]) (by rwa [lowBytes_length])
  rw [lowBytes_length] at hst
  exact ⟨k', by rw [aleStore, hrun, ok_bind], hst⟩

theorem right_of_panic {message : String}
    (h : handleAle buddyPages k ⟨A.root, true⟩ tf badv era = .error (.panic message)) :
    AleRight buddyPages k ⟨A.root, true⟩ tf badv era w := .inl ⟨message, h⟩

/-- Where the handler returns for a mapped access, it has to have the effect of the instruction. -/
theorem right_iff_mapped {r : AleResult BuddyAllocator} (hd : Access.decode w = some a)
    (L : UserLeaves .loongarch buddyPages k ⟨A.root, true⟩ badv a.bytes)
    (h : handleAle buddyPages k ⟨A.root, true⟩ tf badv era = .ok r) :
    AleRight buddyPages k ⟨A.root, true⟩ tf badv era w ↔
      ∀ fr, Emulated buddyPages k ⟨A.root, true⟩ tf badv fr w r := by
  have hm : AccessMapped buddyPages k ⟨A.root, true⟩ badv w := ⟨a, hd, L⟩
  unfold AleRight
  rw [h]
  constructor
  · rintro (⟨message, hp⟩ | ⟨r', hr', he, -⟩)
    · cases hp
    · cases hr'
      exact he hm
  · exact fun he => .inr ⟨r, rfl, fun _ => he, fun hn => absurd hm hn⟩

/-- Where it returns for an access that is not mapped, the registers have to be as before. -/
theorem right_iff_unmapped {r : AleResult BuddyAllocator} (hd : Access.decode w = some a)
    (L : ¬UserLeaves .loongarch buddyPages k ⟨A.root, true⟩ badv a.bytes)
    (h : handleAle buddyPages k ⟨A.root, true⟩ tf badv era = .ok r) :
    AleRight buddyPages k ⟨A.root, true⟩ tf badv era w ↔
      ∀ i < 32, getRegFromTrapFrame r.tf i = getRegFromTrapFrame tf i := by
  have hm : ¬AccessMapped buddyPages k ⟨A.root, true⟩ badv w := by
    rintro ⟨a', hd', L'⟩
    rw [hd] at hd'
    cases hd'
    exact L L'
  unfold AleRight
  rw [h]
  constructor
  · rintro (⟨message, hp⟩ | ⟨r', hr', -, he⟩)
    · cases hp
    · cases hr'
      exact he hm
  · exact fun he => .inr ⟨r, rfl, fun hn => absurd hn hm, fun _ => he⟩

/-- The right value of a load in the register. -/
theorem value_iff {n : Nat} {signed : Bool} {bytes : List UInt8}
    (hd : Access.decode w = some (.load n signed))
    (hlen : bytes.length = n) :
      handledValue tf w n signed bytes = loadValue n signed (leNat bytes) ↔
      (IsLdptrW w → (getRegFromTrapFrame tf (rdOf w)).toNat / 2 ^ 32 =
        if leNat bytes < 2 ^ 31 then 0 else 2 ^ 32 - 1) := by
  by_cases hw : IsLdptrW w
  · obtain ⟨rfl, hn | hn⟩ := (decode_load hd).2 hw.1
    · obtain rfl := hn.2
      have hlt := leNat_lt bytes
      rw [hlen] at hlt
      have hval := handledValue_ldptrW tf true hw hlen
      have hspec := toNat_loadValue true (by decide : 1 ≤ 4) (by decide) hlt
      rw [← BitVec.toNat_inj, hval, hspec, iff_true_intro hw, true_imp_iff]
      simp only [true_and]
      split <;> split <;> omega
    · exact absurd hw hn.1
  · exact iff_of_true (handledValue_eq hd hlen hw) fun h => absurd h hw

/-- A load that brings what the register has. -/
theorem value_same_iff {n : Nat} {signed : Bool} {bytes : List UInt8}
    (hd : Access.decode w = some (.load n signed))
    (hlen : bytes.length = n) :
      getRegFromTrapFrame tf (rdOf w) = handledValue tf w n signed bytes ↔
      if IsLdptrW w then (getRegFromTrapFrame tf (rdOf w)).toNat % 2 ^ 32 = leNat bytes
      else getRegFromTrapFrame tf (rdOf w) = loadValue n signed (leNat bytes) := by
  by_cases hw : IsLdptrW w
  · obtain ⟨rfl, hn | hn⟩ := (decode_load hd).2 hw.1
    · obtain rfl := hn.2
      have hval := handledValue_ldptrW tf true hw hlen
      rw [← BitVec.toNat_inj, hval, if_pos hw]
      omega
    · exact absurd hw hn.1
  · rw [if_neg hw, handledValue_eq hd hlen hw]

theorem handleAle_access (tf : TrapFrame) (badv : Nat) (H : World reg .loongarch k B Base W)
    (hi : W i = some A) (hb : A.base = 0) (hera : era < 2 ^ 60)
    (hfetch : UserLeaves .loongarch buddyPages k ⟨A.root, true⟩ era 4)
    (hword : w = userNat buddyPages k ⟨A.root, true⟩ era 4) (hd : Access.decode w = some a) :
    handleAle buddyPages k ⟨A.root, true⟩ tf badv era =
      (handledAccess buddyPages k ⟨A.root, true⟩ tf badv w a >>= fun r => .ok r.advance) := by
  have heq := aleSwitch_eq buddyPages k ⟨A.root, true⟩ tf badv w
  rw [hd] at heq
  rw [handleAle_eq tf badv H hi hb hera hfetch hword, heq]

/-- What is asked of the handler does not say more about an instruction than its own clause. -/
theorem emulated_load {σ : Type} {V : VirtualPageAllocator σ} {k k' : Kernel σ} {pt : PageTable}
    {n : Nat} {signed : Bool}
    {tf' : TrapFrame} {fr : Nat → BitVec 64} {data : Option Nat}
    (hd : Access.decode w = some (.load n signed)) :
    Emulated V k pt tf badv fr w ⟨tf', k', data⟩ ↔ tf'.era = tf.era + 4 ∧ k' = k ∧
      ∀ i < 32, getRegFromTrapFrame tf' i =
        if i = rdOf w ∧ i ≠ 0 then loadValue n signed (userNat V k pt badv n)
          else getRegFromTrapFrame tf i := by
  constructor
  · intro h
    exact ⟨h.era, h.load n signed hd⟩
  · rintro ⟨hera, hk, hregs⟩
    refine ⟨hera, fun n' signed' h' => ?_, fun n' h' => ?_, fun h' => ?_, fun n' h' => ?_,
      fun n' h' => ?_⟩ <;>
      rw [hd] at h' <;> cases h'
    exact ⟨hk, hregs⟩

theorem ale_mapped_load (H : World reg .loongarch k B Base W) (hi : W i = some A) (hb : A.base = 0)
    (hva : badv < 2 ^ 64)
    {n : Nat} {signed : Bool} (hrun : handleAle buddyPages k ⟨A.root, true⟩ tf badv era =
      (aleLoad buddyPages k ⟨A.root, true⟩ tf badv (rdOf w) n (handledValue tf w n signed)
        >>= fun r => .ok r.advance))
    (hd : Access.decode w = some (.load n signed))
    (L : UserLeaves .loongarch buddyPages k ⟨A.root, true⟩ badv n) :
    AleRight buddyPages k ⟨A.root, true⟩ tf badv era w ↔
      OkMapped buddyPages k ⟨A.root, true⟩ tf badv w (.load n signed) := by
  have hlen : (userView .loongarch buddyPages k ⟨A.root, true⟩ badv n).length = n :=
    Mem.view_length _ _ _
  rw [aleLoad_seen hva (mapped_walks H hi hb L), ok_bind, mapped_seen H hi hb L] at hrun
  have hregs := setReg_exact_iff tf (handledValue tf w n signed
    (userView .loongarch buddyPages k ⟨A.root, true⟩ badv n))
    (loadValue n signed (userNat buddyPages k ⟨A.root, true⟩ badv n)) (rdOf_lt w)
  rw [userNat, value_iff hd hlen] at hregs
  rw [right_iff_mapped hd L hrun]
  have hera := setReg_era tf (rdOf w) (handledValue tf w n signed
    (userView .loongarch buddyPages k ⟨A.root, true⟩ badv n))
  constructor
  · intro he hl
    have h := ((emulated_load hd).mp (he fun _ => 0)).2.2
    rcases hregs.mp h with h0 | hv
    · exact .inl h0
    · exact .inr (hv hl)
  · intro hok fr
    refine (emulated_load hd).mpr ⟨by rw [← hera], rfl, hregs.mpr ?_⟩
    by_cases hl : IsLdptrW w
    · exact (hok hl).imp_right fun h _ => h
    · exact .inr fun h => absurd h hl

theorem ale_mapped_store (hw : reg.InWindow .loongarch) (H : World reg .loongarch k B Base W)
    (hi : W i = some A) (hb : A.base = 0) (ho : A.Owned reg .loongarch) (hva : badv < 2 ^ 64)
    {n : Nat}
    (hrun : handleAle buddyPages k ⟨A.root, true⟩ tf badv era =
      (aleStore buddyPages k ⟨A.root, true⟩ tf badv (rdOf w) n >>= fun r => .ok r.advance))
    (hd : Access.decode w = some (.store n))
    (L : UserLeaves .loongarch buddyPages k ⟨A.root, true⟩ badv n) :
    AleRight buddyPages k ⟨A.root, true⟩ tf badv era w := by
  obtain ⟨k', hstore, hst⟩ := aleStore_mapped hw H hi hb ho hva tf (rdOf w) (decode_bytes hd)
    (n := n) L
  rw [hstore, ok_bind] at hrun
  rw [right_iff_mapped hd L hrun]
  intro fr
  refine ⟨rfl, fun n' signed' h' => ?_, fun n' h' => ?_, fun h' => ?_, fun n' h' => ?_,
    fun n' h' => ?_⟩ <;>
    rw [hd] at h' <;> cases h'
  exact ⟨rfl, hst⟩

theorem ale_mapped_preld (H : World reg .loongarch k B Base W) (hi : W i = some A) (hb : A.base = 0)
    (hva : badv < 2 ^ 64) (hrun : handleAle buddyPages k ⟨A.root, true⟩ tf badv era =
      (aleLoad buddyPages k ⟨A.root, true⟩ tf badv (rdOf w) 8 (patchLow 0) >>= fun r =>
        .ok r.advance))
    (hd : Access.decode w = some .preld)
    (L : UserLeaves .loongarch buddyPages k ⟨A.root, true⟩ badv 8) :
    AleRight buddyPages k ⟨A.root, true⟩ tf badv era w ↔
      OkMapped buddyPages k ⟨A.root, true⟩ tf badv w .preld := by
  have hlen : (userView .loongarch buddyPages k ⟨A.root, true⟩ badv 8).length = 8 :=
    Mem.view_length _ _ _
  have hlt := leNat_lt (userView .loongarch buddyPages k ⟨A.root, true⟩ badv 8)
  rw [hlen] at hlt
  rw [aleLoad_seen hva (mapped_walks H hi hb L), ok_bind, mapped_seen H hi hb L,
    patchLow_zero (by omega)] at hrun
  have hregs := setReg_reg_iff tf (BitVec.ofNat 64 (userNat buddyPages k ⟨A.root, true⟩ badv 8))
    (rdOf_lt w)
  rw [eq_comm (b := getRegFromTrapFrame tf (rdOf w)), ← BitVec.toNat_inj, BitVec.toNat_ofNat,
    userNat, Nat.mod_eq_of_lt hlt] at hregs
  rw [right_iff_mapped hd L hrun]
  constructor
  · intro he
    exact hregs.mp ((he fun _ => 0).preld hd).1
  · intro hok fr
    refine ⟨?_, fun n' signed' h' => ?_, fun n' h' => ?_, fun _ => ⟨hregs.mpr hok, rfl⟩,
      fun n' h' => ?_, fun n' h' => ?_⟩
    · exact congrArg (· + 4) (setReg_era tf _ _)
    all_goals
      rw [hd] at h'
      cases h'

/-- A floating-point access uses a general register. -/
theorem ale_mapped_float (hw : reg.InWindow .loongarch) (H : World reg .loongarch k B Base W)
    (hi : W i = some A) (hb : A.base = 0) (ho : A.Owned reg .loongarch) (hva : badv < 2 ^ 64)
    {n : Nat}
    (hrun : handleAle buddyPages k ⟨A.root, true⟩ tf badv era =
      (aleStore buddyPages k ⟨A.root, true⟩ tf badv (rdOf w) n >>= fun r => .ok r.advance))
    (hd : ∃ m, Access.decode w = some a ∧ (a = .fload m ∨ a = .fstore m)) (hn : n ≤ a.bytes)
    (L : UserLeaves .loongarch buddyPages k ⟨A.root, true⟩ badv a.bytes) :
    ¬AleRight buddyPages k ⟨A.root, true⟩ tf badv era w := by
  obtain ⟨m, hd, ha⟩ := hd
  have hle := decode_bytes hd
  obtain ⟨k', hstore, -⟩ := aleStore_mapped hw H hi hb ho hva tf (rdOf w) (hn.trans hle)
    (L.of_le hn)
  rw [hstore, ok_bind] at hrun
  rw [right_iff_mapped hd L hrun]
  intro he
  rcases ha with rfl | rfl
  · cases ((he fun _ => 0).fload m hd).1
  · cases ((he fun _ => 0).fstore m hd).1

theorem ale_unmapped_load (hva : badv < 2 ^ 64) {n : Nat} {value : List UInt8 → BitVec 64}
    (hrun : handleAle buddyPages k ⟨A.root, true⟩ tf badv era =
      (aleLoad buddyPages k ⟨A.root, true⟩ tf badv (rdOf w) n value >>= fun r => .ok r.advance))
    (hd : Access.decode w = some a)
    (L : ¬UserLeaves .loongarch buddyPages k ⟨A.root, true⟩ badv a.bytes) :
    AleRight buddyPages k ⟨A.root, true⟩ tf badv era w ↔
      rdOf w = 0 ∨ ¬AccessWalks buddyPages k ⟨A.root, true⟩ badv n ∨
        getRegFromTrapFrame tf (rdOf w) =
          value (k.mem.view (fun d => seenLoc buddyPages k ⟨A.root, true⟩ (wordAdd badv d))
          n) := by
  by_cases hwalks : AccessWalks buddyPages k ⟨A.root, true⟩ badv n
  · rw [aleLoad_seen hva hwalks, ok_bind] at hrun
    rw [right_iff_unmapped hd L hrun]
    simp only [hwalks, not_true, false_or]
    exact setReg_same_iff (rdOf_lt w)
  · obtain ⟨message, hp⟩ := aleLoad_panics tf (rdOf w) value hva hwalks
    rw [hp, error_bind] at hrun
    exact iff_of_true (right_of_panic hrun) (.inr (.inl hwalks))

theorem ale_unmapped_store {n : Nat} (hrun : handleAle buddyPages k ⟨A.root, true⟩ tf badv era =
      (aleStore buddyPages k ⟨A.root, true⟩ tf badv (rdOf w) n >>= fun r => .ok r.advance))
    (hd : Access.decode w = some a)
    (L : ¬UserLeaves .loongarch buddyPages k ⟨A.root, true⟩ badv a.bytes) :
    AleRight buddyPages k ⟨A.root, true⟩ tf badv era w := by
  rcases aleStore_frame buddyPages k ⟨A.root, true⟩ tf badv (rdOf w)
    n with ⟨message, hp⟩ | ⟨k', hs⟩
  · rw [hp, error_bind] at hrun
    exact right_of_panic hrun
  · rw [hs, ok_bind] at hrun
    rw [right_iff_unmapped hd L hrun]
    exact fun _ _ => rfl

theorem ale_mapped (hw : reg.InWindow .loongarch) (H : World reg .loongarch k B Base W)
    (hi : W i = some A) (hb : A.base = 0) (ho : A.Owned reg .loongarch) (hva : badv < 2 ^ 64)
    (hrun : handleAle buddyPages k ⟨A.root, true⟩ tf badv era =
      (handledAccess buddyPages k ⟨A.root, true⟩ tf badv w a >>= fun r => .ok r.advance))
    (hd : Access.decode w = some a)
    (L : UserLeaves .loongarch buddyPages k ⟨A.root, true⟩ badv a.bytes) :
    AleRight buddyPages k ⟨A.root, true⟩ tf badv era w ↔
      OkMapped buddyPages k ⟨A.root, true⟩ tf badv w a := by
  cases a with
  | load n signed => exact ale_mapped_load H hi hb hva hrun hd L
  | store n => exact iff_of_true (ale_mapped_store hw H hi hb ho hva hrun hd L) trivial
  | preld => exact ale_mapped_preld H hi hb hva hrun hd L
  | fload n =>
    refine iff_of_false (ale_mapped_float hw H hi hb ho hva hrun ⟨n, hd, .inl rfl⟩ ?_ L)
      fun h => h
    rcases decode_float hd (.inl rfl) with rfl | rfl <;> decide
  | fstore n =>
    refine iff_of_false (ale_mapped_float hw H hi hb ho hva hrun ⟨n, hd, .inr rfl⟩ ?_ L)
      fun h => h
    rcases decode_float hd (.inr rfl) with rfl | rfl <;> decide

theorem ale_unmapped (hva : badv < 2 ^ 64)
    (hrun : handleAle buddyPages k ⟨A.root, true⟩ tf badv era =
      (handledAccess buddyPages k ⟨A.root, true⟩ tf badv w a >>= fun r => .ok r.advance))
    (hd : Access.decode w = some a)
    (L : ¬UserLeaves .loongarch buddyPages k ⟨A.root, true⟩ badv a.bytes) :
    AleRight buddyPages k ⟨A.root, true⟩ tf badv era w ↔
      OkUnmapped buddyPages k ⟨A.root, true⟩ tf badv w a := by
  cases a with
  | load n signed =>
    rw [ale_unmapped_load hva hrun hd L, value_same_iff hd (Mem.view_length _ _ _)]
    rfl
  | preld =>
    have hlt :=
      leNat_lt (k.mem.view (fun d => seenLoc buddyPages k ⟨A.root, true⟩ (wordAdd badv d)) 8)
    rw [Mem.view_length] at hlt
    rw [ale_unmapped_load hva hrun hd L, patchLow_zero (by rw [Mem.view_length]),
      ← BitVec.toNat_inj, BitVec.toNat_ofNat, Nat.mod_eq_of_lt hlt]
    rfl
  | store n => exact iff_of_true (ale_unmapped_store hrun hd L) trivial
  | fload n => exact iff_of_true (ale_unmapped_store hrun hd L) trivial
  | fstore n => exact iff_of_true (ale_unmapped_store hrun hd L) trivial

/-- The handler of unaligned accesses does what is asked of it exactly under the condition. -/
theorem ale_emulates_iff (reg : Region) (hw : reg.InWindow .loongarch) (k : Kernel BuddyAllocator)
    (B : Blocks) (Base : Nat → Nat → Prop) (W : Spaces ι) (H : World reg .loongarch k B Base W)
    (i : ι) (A : AddrSpace)
    (hi : W i = some A) (hb : A.base = 0) (ho : A.Owned reg .loongarch) (tf : TrapFrame)
    (badv : Nat)
    (hva : badv < 2 ^ 64) (era : Nat) (hera : era < 2 ^ 60)
    (hfetch : UserLeaves .loongarch buddyPages k ⟨A.root, true⟩ era 4) (w : Nat)
    (hword : w = userNat buddyPages k ⟨A.root, true⟩ era 4) :
    AleRight buddyPages k ⟨A.root, true⟩ tf badv era w ↔
      AleOk buddyPages k ⟨A.root, true⟩ tf badv w := by
  cases hd : Access.decode w with
  | none =>
    have heq := aleSwitch_eq buddyPages k ⟨A.root, true⟩ tf badv w
    rw [hd] at heq
    obtain ⟨message, hp⟩ := heq
    have hrun := handleAle_eq tf badv H hi hb hera hfetch hword
    rw [hp, error_bind] at hrun
    refine iff_of_true (right_of_panic hrun) fun a ha => ?_
    rw [hd] at ha
    cases ha
  | some a =>
    have hrun := handleAle_access tf badv H hi hb hera hfetch hword hd
    have hok : AleOk buddyPages k ⟨A.root, true⟩ tf badv w ↔
        (UserLeaves .loongarch buddyPages k ⟨A.root, true⟩ badv a.bytes →
          OkMapped buddyPages k ⟨A.root, true⟩ tf badv w a) ∧
        (¬UserLeaves .loongarch buddyPages k ⟨A.root, true⟩ badv a.bytes →
          OkUnmapped buddyPages k ⟨A.root, true⟩ tf badv w a) := by
      simp [AleOk, hd]
    rw [hok]
    by_cases L : UserLeaves .loongarch buddyPages k ⟨A.root, true⟩ badv a.bytes
    · rw [ale_mapped hw H hi hb ho hva hrun hd L]
      simp [L]
    · rw [ale_unmapped hva hrun hd L]
      simp [L]

end

/-! ### A run -/

/-- A region in the direct window of LoongArch. -/
def windowRegion : Region where
  mem := 0x9000000080000000
  size := 100 * 4096
  nodes := 0x900000007ffff000
  mem_aligned := by decide
  size_aligned := sampleRegion.size_aligned
  size_ge := sampleRegion.size_ge
  pages_lt := sampleRegion.pages_lt
  end_le := by decide
  nodes_le := by decide
  apart := by decide

theorem windowRegion_inWindow : windowRegion.InWindow .loongarch where
  pos := by decide
  windowed := fun x hl hu => by
    have hm : windowRegion.mem = 0x9000000080000000 := rfl
    have hs : windowRegion.size = 100 * 4096 := rfl
    rw [Arch.windowed_iff]
    omega

/-- A page of the user at 0x10000 that starts with an instruction and data. -/
theorem sample_code (code : List UInt8) (hlen : code.length ≤ 4096) :
    ∃ (k : Kernel BuddyAllocator) (B : Blocks) (Base : Nat → Nat → Prop) (A : AddrSpace),
      World windowRegion .loongarch k B Base (fun _ : Unit => some A) ∧
      A.base = 0 ∧ A.Owned windowRegion .loongarch ∧
      (∀ va len, 0x10000 ≤ va → va + len ≤ 0x11000 →
        UserLeaves .loongarch buddyPages k ⟨A.root, true⟩ va len) ∧
      ∀ at_ n, at_ + n ≤ code.length →
        userNat buddyPages k ⟨A.root, true⟩ (0x10000 + at_) n =
          leNat ((code.drop at_).take n) := by
  obtain ⟨k, B, Base, A, q, H, hb, ho, -, hmap⟩ :=
    Region.new_user windowRegion_inWindow (by decide) 16 (by decide)
  have hok := ((H.represents (i := ()) rfl).of_some hmap).2
  have hentry : Mm.entryOf .loongarch buddyPages k ⟨A.root, true⟩ 0x10000 =
      Mapping.data .loongarch ⟨Arch.toPhy .loongarch (windowRegion.addr q),
        vmAllocFlags .loongarch false true true⟩ := by
    rw [H.entryOf (i := ()) rfl hb, show 0x10000 / 4096 % Arch.vaPages .loongarch = 16 from rfl,
      hmap]
    rfl
  have hleaves : ∀ va len, 0x10000 ≤ va → va + len ≤ 0x11000 →
      UserLeaves .loongarch buddyPages k ⟨A.root, true⟩ va len := by
    intro va len hl hu j hj
    have hpage : copyPage va j = 0x10000 := by
      have hdown := pageRoundDown_eq va
      unfold Reached at hj
      obtain rfl : j = 0 := by omega
      rw [copyPage_zero (by omega)]
      omega
    rw [hpage]
    refine ⟨?_, ?_⟩
    · unfold ValidLeaf
      rw [hentry, hok.isValid]
    · rw [hentry, hok.isSuperPlv]
      exact show Arch.isSuperPlv .loongarch (vmAllocFlags .loongarch false true true) =
        false by decide
  have L : UserLeaves .loongarch buddyPages k ⟨A.root, true⟩ 0x10000 code.length :=
    hleaves _ _ (Nat.le_refl _) (by omega)
  obtain ⟨k', -, H', hst⟩ :=
    H.copyoutLoop_leaves windowRegion_inWindow code.length code (i := ()) rfl hb ho (by decide)
    (Nat.le_refl _) L
    (fun d e hd he heq => by
      rw [userLoc_page (by decide) (by omega), userLoc_page (by decide) (by omega)] at heq
      omega)
    (fun j _ => by rw [Arch.toVir_loongarch]; omega)
  refine ⟨k', B, Base, A, H', hb, ho,
    fun va len hl hu => (hleaves va len hl hu).congr H H' (i := ()) rfl hb, fun at_ n hin => ?_⟩
  have hcount : ((code.drop at_).take n).length = n := by
    rw [List.length_take, List.length_drop]
    omega
  have hview := @Mem.view_eq k'.mem (fun d => userLoc .loongarch buddyPages k ⟨A.root, true⟩
    (wordAdd (0x10000 + at_) d)) ((code.drop at_).take n) fun d hd => by
      rw [hcount] at hd
      have hat := hst.inside (at_ + d) (Nat.zero_le _) (by omega)
      have hword : wordAdd (0x10000 + at_) d = wordAdd 0x10000 (at_ + d) := by
        rw [wordAdd, wordAdd, Nat.add_assoc]
      simp only [hword, hat, List.getD_eq_getElem?_getD, List.getElem?_take_of_lt hd,
        List.getElem?_drop]
  rw [hcount] at hview
  rw [userNat, userView, H.userLoc_congr H' (i := ()) rfl hb, hview]

/-- `ld.w $a0, $a1, 0` at an odd address, where the word is negative. -/
theorem ale_emulates_sample : ∃ (k : Kernel BuddyAllocator) (pt : PageTable),
    userNat buddyPages k pt 0x10000 4 = 0x288000A4 ∧
      userNat buddyPages k pt 0x10005 4 = 0x80030201 ∧
      AleRight buddyPages k pt ⟨fun r => if r = .a1 then 0x10005 else 0x1234567800000000,
        0x10000⟩ 0x10005 0x10000 0x288000A4 := by
  obtain ⟨k, B, Base, A, H, hb, ho, hleaves, hbytes⟩ :=
    sample_code [0xA4, 0x00, 0x80, 0x28, 0x00, 0x01, 0x02, 0x03, 0x80] (by decide)
  have hcode : userNat buddyPages k ⟨A.root, true⟩ 0x10000 4 = 0x288000A4 :=
    hbytes 0 4 (by decide)
  refine ⟨k, ⟨A.root, true⟩, hcode, hbytes 5 4 (by decide), ?_⟩
  refine (ale_emulates_iff windowRegion windowRegion_inWindow k B Base _ H () A rfl hb ho _ 0x10005
    (by decide) 0x10000 (by decide) (hleaves _ _ (by decide) (by decide)) 0x288000A4 hcode.symm).mpr
    ?_
  intro a ha
  cases ha
  exact ⟨fun _ hw => absurd hw (by decide),
    fun hn => absurd (hleaves 0x10005 4 (by decide) (by decide)) hn⟩

/-- `ldptr.w $a0, $a1, 0` at an odd address, with 0x1234567800000000 in `$a0`: the upper half of the
register stays. -/
theorem ale_ldptr_wrong : ∃ (k : Kernel BuddyAllocator) (pt : PageTable),
    userNat buddyPages k pt 0x10000 4 = 0x240000A4 ∧
      UserLeaves .loongarch buddyPages k pt 0x10000 4 ∧
      AccessMapped buddyPages k pt 0x10101 0x240000A4 ∧
      ¬AleRight buddyPages k pt ⟨fun _ => 0x1234567800000000, 0x10000⟩ 0x10101 0x10000
        0x240000A4 := by
  obtain ⟨k, B, Base, A, H, hb, ho, hleaves, hbytes⟩ :=
    sample_code [0xA4, 0x00, 0x00, 0x24] (by decide)
  have hcode : userNat buddyPages k ⟨A.root, true⟩ 0x10000 4 = 0x240000A4 :=
    hbytes 0 4 (by decide)
  have hd : Access.decode 0x240000A4 = some (.load 4 true) := rfl
  have L := hleaves 0x10101 4 (by decide) (by decide)
  have hfetch := hleaves 0x10000 4 (by decide) (by decide)
  have hrun := handleAle_access ⟨fun _ => 0x1234567800000000, 0x10000⟩ 0x10101 H (i := ())
    rfl hb (by decide) hfetch hcode.symm hd
  refine ⟨k, ⟨A.root, true⟩, hcode, hfetch, ⟨_, hd, L⟩, ?_⟩
  rw [ale_mapped windowRegion_inWindow H (i := ()) rfl hb ho (by decide) hrun hd L]
  intro hok
  rcases hok (by decide) with h0 | hupper
  · exact absurd h0 (by decide)
  · have hold : (getRegFromTrapFrame ⟨fun _ => 0x1234567800000000, 0x10000⟩
        (rdOf 0x240000A4)).toNat / 2 ^ 32 = 0x12345678 := rfl
    rw [hold] at hupper
    split at hupper <;> omega

end OsKernel.Hal

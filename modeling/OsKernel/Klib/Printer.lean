import Mathlib.Data.List.GetD
import Mathlib.Data.Nat.Digits.Lemmas
import OsKernel.Klib.Fault

/-! `Printer::print_number` and the conversions of `vbprintf` that call it.  What is put into the
buffer is the list of characters; the array `tmp` is the list of the characters stored in it so far,
the last digit first. -/

namespace OsKernel.Klib

/-- `print_flag`. -/
structure PrintFlag where
  zeroPad : Bool
  sign : Bool
  plus : Bool
  space : Bool
  left : Bool
  prefixed : Bool
  upper : Bool
  seperate : Bool
  deriving DecidableEq

/-- The qualifier of a conversion; `plain` is none at all. -/
inductive Qualifier where
  | plain
  | h
  | l
  | L
  | B
  deriving DecidableEq

/-- The bits of the integers in which `print_number` reads the sign of a number. -/
def Qualifier.bits : Qualifier → Nat
  | h => 16
  | l | L => 64
  | plain | B => 32

def lowerDigits : List Char :=
  ['0', '1', '2', '3', '4', '5', '6', '7', '8', '9', 'a', 'b', 'c', 'd', 'e', 'f']

def upperDigits : List Char :=
  ['0', '1', '2', '3', '4', '5', '6', '7', '8', '9', 'A', 'B', 'C', 'D', 'E', 'F']

/-- `digits[ d ]`. -/
def digitChar (upper : Bool) (d : Nat) : Char :=
  (if upper then upperDigits else lowerDigits).getD d '0'

/-- The sign that is printed, and the number after it. -/
def printSign (flag : PrintFlag) (qualifier : Qualifier) (num : Nat) : List Char × Nat :=
  if flag.sign then
    if 2 ^ (qualifier.bits - 1) ≤
      num % 2 ^ qualifier.bits then (['-'], (2 ^ 64 - num) % 2 ^ qualifier.bits)
    else (if flag.plus then ['+'] else if flag.space then [' '] else [], num)
  else ([], num)

/-- The prefix that is printed. -/
def printPrefix (flag : PrintFlag) (base : Nat) : List Char :=
  if flag.prefixed then
    if base = 2 then ['0', 'b'] else if base = 8 then ['0'] else if base = 16 then ['0', 'x']
      else []
  else []

/-- The bits of a number pushed into `tmp`, which has room for so many more. -/
def digitLoop (upper : Bool) (base : Nat) : Nat → Nat → List Char → Except Fault (List Char)
  | 0, num, tmp => if num = 0 then .ok tmp else .error (.undefined "tmp[ 64 ]")
  | room + 1, num, tmp =>
    if num = 0 then .ok tmp
    else digitLoop upper base room (num / base) (tmp ++ [digitChar upper (num % base)])

/-- The digits of a number in `tmp`, where zero has one as well. -/
def storeDigits (upper : Bool) (base num : Nat) : Except Fault (List Char) :=
  if num = 0 then .ok ['0'] else digitLoop upper base 64 num []

/-- The padding zeros pushed into `tmp`. -/
def padLoop : Nat → Int → List Char → Except Fault (List Char)
  | 0, numPad, tmp => if 0 < numPad then .error (.undefined "tmp[ 64 ]") else .ok tmp
  | room + 1, numPad, tmp =>
    if 0 < numPad then padLoop room (numPad - 1) (tmp ++ ['0']) else .ok tmp

/-- `tmp[ i ]`, where `tmp` is zero behind what has been stored. -/
def readTmp (tmp : List Char) (i : Nat) : Except Fault Char :=
  if i < 64 then .ok (tmp.getD i (Char.ofNat 0)) else .error (.undefined "tmp[ 64 ]")

/-- The loops that put `tmp[ n - 1 ]` down to `tmp[ 0 ]`. -/
def putLoop (seperate : Bool) (mod : Nat) (tmp : List Char) : Nat → Except Fault (List Char)
  | 0 => .ok []
  | i + 1 => do
    let c ← readTmp tmp i
    let rest ← putLoop seperate mod tmp i
    .ok (if seperate = true ∧ i % mod = mod - 1 then '_' :: c :: rest else c :: rest)

/-- The number in `tmp`: a first digit before which a `_` would be put is put without it. -/
def putTmp (seperate : Bool) (mod : Nat) (tmp : List Char) : Except Fault (List Char) :=
  match tmp.length with
  | 0 => .ok []
  | last + 1 =>
    if last % mod = mod - 1 then do
      let c ← readTmp tmp last
      let rest ← putLoop seperate mod tmp last
      .ok (c :: rest)
    else putLoop seperate mod tmp (last + 1)

/-- `print_number`. -/
def printNumber (num base : Nat) (flag : PrintFlag) (qualifier : Qualifier) (width : Int) :
    Except Fault (List Char) := do
  let zeroPad := flag.zeroPad && !flag.left
  let signed := printSign flag qualifier num
  let tmp ← storeDigits flag.upper base signed.2
  let pad : Int := width - tmp.length - (printPrefix flag base).length - signed.1.length
  let spacePad := if zeroPad then 0 else pad
  let numPad := if zeroPad then pad else 0
  let before := if flag.left then 0 else spacePad.toNat
  let after := if flag.left then spacePad.toNat else 0
  let tmp ← padLoop (64 - tmp.length) numPad tmp
  let body ← putTmp flag.seperate (if base = 10 then 3 else 4) tmp
  .ok (List.replicate before ' ' ++ signed.1 ++ printPrefix flag base ++ body ++
    List.replicate after ' ')

/-- A call of `print_number`. -/
structure NumberCall where
  num : Nat
  base : Nat
  flag : PrintFlag
  qualifier : Qualifier
  width : Int

/-- The number that is taken from the arguments, with the sign flag as it is then. -/
def argNumber (qualifier : Qualifier) (sign : Bool) (arg : Nat) : Nat :=
  match qualifier with
  | .l | .L => arg % 2 ^ 64
  | .h =>
    if sign = true ∧ 2 ^ 15 ≤ arg % 2 ^ 16 then arg % 2 ^ 16 + (2 ^ 64 - 2 ^ 16)
      else arg % 2 ^ 16
  | .B => arg % 2 ^ 8
  | .plain => arg % 2 ^ 32

/-- The conversions of `vbprintf` that print a number. -/
def vbprintfCall (fl : PrintFlag) (qualifier : Qualifier) (width : Int) (conv : Char) (arg : Nat) :
    Option NumberCall :=
  let number (base : Nat) (fl : PrintFlag) : Option NumberCall :=
    some ⟨argNumber qualifier fl.sign arg, base, fl, qualifier, width⟩
  match conv with
  | 'p' =>
      some ⟨arg % 2 ^ 64, 16, { fl with prefixed := true, zeroPad := true, seperate := true },
        qualifier,
      (if width < 0 then 16 else width) + 2⟩
  | 'B' =>
    some ⟨arg % 2 ^ 8, 16, ⟨true, false, false, false, false, false, true, false⟩, .B, 2⟩
  | 'b' => number 2 fl
  | 'o' => number 8 fl
  | 'X' => number 16 { fl with upper := true }
  | 'x' => number 16 fl
  | 'd' | 'i' => number 10 { fl with sign := true }
  | 'u' => number 10 fl
  | _ => none

/-- `vbprintf` passes the number for the qualifier, with this sign flag.  The flags of the format do
not set the sign flag, and no qualifier of a format is `B`. -/
def Passed (qualifier : Qualifier) (sign : Bool) (num : Nat) : Prop :=
  ∃ fl q width conv arg c, fl.sign = false ∧ q ≠ .B ∧
    vbprintfCall fl q width conv arg = some c ∧ c.qualifier = qualifier ∧ c.flag.sign = sign ∧
    c.num = num

/-! ### What the text says -/

/-- The integer that a number stands for: read as signed in the width of the qualifier with the
sign flag. -/
def numberValue (qualifier : Qualifier) (sign : Bool) (num : Nat) : Int :=
  if sign = true ∧ 2 ^ (qualifier.bits - 1) ≤ num % 2 ^ qualifier.bits then
    (num % 2 ^ qualifier.bits : Nat) - 2 ^ qualifier.bits
  else if sign then (num % 2 ^ qualifier.bits : Nat) else num

/-- The value of a digit. -/
def digitValue (c : Char) : Option Nat :=
  if '0' ≤ c ∧ c ≤ '9' then some (c.toNat - 48)
  else if 'A' ≤ c ∧ c ≤ 'F' then some (c.toNat - 55)
  else if 'a' ≤ c ∧ c ≤ 'f' then some (c.toNat - 87)
  else none

/-- The number that digits denote in a base, the first digit first. -/
def numeral (base : Nat) (cs : List Char) : Option Nat :=
  cs.foldlM (fun n c => (digitValue c).bind fun d => if d < base then some (n * base + d) else none)
    0

/-- The sign of a value: a minus, or what the flags ask for. -/
def signChars (flag : PrintFlag) (value : Int) : List Char :=
  if value < 0 then ['-']
  else if flag.sign then if flag.plus then ['+'] else if flag.space then [' '] else []
  else []

/-- What stands before the digits of a base where the flags ask for it. -/
def prefixChars (flag : PrintFlag) (base : Nat) : List Char :=
  match flag.prefixed, base with
  | true, 2 => ['0', 'b']
  | true, 8 => ['0']
  | true, 16 => ['0', 'x']
  | _, _ => []

/-- The text of a value: `before` spaces, the sign, the prefix, the digits with padding zeros and
`_`, and `after` spaces. -/
structure NumberText (base : Nat) (flag : PrintFlag) (width value : Int) (before after zeros : Nat)
    (digits body out : List Char) : Prop where
  parts : out = List.replicate before ' ' ++ signChars flag value ++ prefixChars flag base ++
    body ++ List.replicate after ' '
  spacesBefore : 0 < before → flag.left = false ∧ flag.zeroPad = false
  spacesAfter : 0 < after → flag.left = true
  padding : 0 < zeros → flag.left = false ∧ flag.zeroPad = true
  split : body.filter (· ≠ '_') = List.replicate zeros '0' ++ digits
  shortest : digits ≠ [] ∧ (digits.head? = some '0' → digits = ['0'])
  denotes : numeral base (body.filter (· ≠ '_')) = some value.natAbs
  first : body.head? ≠ some '_'
  apart : body.IsChain fun a b => ¬(a = '_' ∧ b = '_')
  length : flag.seperate = false →
    '_' ∉ body ∧ (out.length : Int) =
      max width ((signChars flag value).length + (prefixChars flag base).length +
      digits.length)

theorem printPrefix_eq (flag : PrintFlag) (base : Nat) :
    printPrefix flag base = prefixChars flag base := by
  unfold printPrefix prefixChars
  cases flag.prefixed with
  | false => rfl
  | true =>
    rw [if_pos rfl]
    split_ifs with h₂ h₈ h₁₆
    · subst h₂
      rfl
    · subst h₈
      rfl
    · subst h₁₆
      rfl
    · split
      · exact absurd rfl h₂
      · exact absurd rfl h₈
      · exact absurd rfl h₁₆
      · rfl

section

variable {base room num i mod d : Nat} {upper seperate : Bool} {tmp : List Char}

/-! ### The digits -/

theorem digitValue_digitChar (upper : Bool) (hd : d < 16) :
    digitValue (digitChar upper d) = some d := by
  cases upper <;> interval_cases d <;> decide

theorem digitChar_ne (hd : d < 16) : digitChar upper d ≠ '_' := by
  cases upper <;> interval_cases d <;> decide

theorem digitChar_zero : digitChar upper 0 = '0' := by cases upper <;> rfl

theorem digitChar_eq_zero (hd : d < 16) (h : digitChar upper d = '0') : d = 0 := by
  have hv := digitValue_digitChar upper hd
  rw [h] at hv
  exact (Option.some.inj hv).symm

/-- The digits are pushed last digit first. -/
theorem digitLoop_eq (hbase : 1 < base) (hnum : num < base ^ room) :
    digitLoop upper base room num tmp =
      .ok (tmp ++ (Nat.digits base num).map (digitChar upper)) := by
  induction room generalizing num tmp with
  | zero =>
    obtain rfl : num = 0 := by simpa using hnum
    rw [digitLoop, if_pos rfl, Nat.digits_zero, List.map_nil, List.append_nil]
  | succ room ih =>
    rw [digitLoop]
    split
    · next h => rw [h, Nat.digits_zero, List.map_nil, List.append_nil]
    · next h =>
      have hdiv : num / base < base ^ room := by
        rw [Nat.div_lt_iff_lt_mul (by omega), ← Nat.pow_succ]
        exact hnum
      rw [ih hdiv, Nat.digits_def' hbase (show 0 < num by omega), List.map_cons, List.append_assoc,
        List.singleton_append]

theorem padLoop_eq {numPad : Int} (h : numPad ≤ room) :
    padLoop room numPad tmp = .ok (tmp ++ List.replicate numPad.toNat '0') := by
  induction room generalizing numPad tmp with
  | zero =>
    rw [padLoop, if_neg (by omega), Int.toNat_of_nonpos (by omega), List.replicate_zero,
      List.append_nil]
  | succ room ih =>
    rw [padLoop]
    split
    · next hpos =>
      rw [ih (by omega), List.append_assoc, List.singleton_append, ← List.replicate_succ,
        show (numPad - 1).toNat + 1 = numPad.toNat by omega]
    · next hneg => rw [Int.toNat_of_nonpos (by omega), List.replicate_zero, List.append_nil]

/-- The number that the digits of a number denote, the last digit first. -/
theorem numeral_digits (hbase : base ≤ 16) (ds : List Nat) (hds : ∀ d ∈ ds, d < base) :
    numeral base (ds.map (digitChar upper)).reverse = some (Nat.ofDigits base ds) := by
  induction ds with
  | nil => rfl
  | cons d ds ih =>
    have hd := hds d List.mem_cons_self
    have hrest := ih fun e he => hds e (List.mem_cons_of_mem d he)
    unfold numeral at hrest ⊢
    rw [List.map_cons, List.reverse_cons, List.foldlM_append, hrest]
    simp only [Option.bind_eq_bind, Option.bind_some, List.foldlM_cons, List.foldlM_nil,
      digitValue_digitChar upper (show d < 16 by omega), if_pos hd]
    rw [Nat.ofDigits_cons]
    simp only [Option.pure_def]
    congr 1
    ring

/-! ### The separators -/

/-- What the loops put, where all reads are in `tmp`. -/
def separated (seperate : Bool) (mod : Nat) (tmp : List Char) : Nat → List Char
  | 0 => []
  | i + 1 =>
    if seperate = true ∧ i % mod = mod - 1 then
      '_' :: tmp.getD i (Char.ofNat 0) :: separated seperate mod tmp i
    else tmp.getD i (Char.ofNat 0) :: separated seperate mod tmp i

theorem putLoop_eq (hi : i ≤ 64) :
    putLoop seperate mod tmp i = .ok (separated seperate mod tmp i) := by
  induction i with
  | zero => rfl
  | succ i ih =>
    rw [putLoop, readTmp, if_pos (by omega), ok_bind, ih (by omega), ok_bind, separated]

/-- The first digit comes first, whatever its place. -/
theorem putTmp_eq (hlen : tmp.length = i + 1) (hi : i < 64) :
    putTmp seperate mod tmp = .ok (tmp.getD i (Char.ofNat 0) :: separated seperate mod tmp i) := by
  unfold putTmp
  rw [hlen]
  simp only
  split
  · rw [readTmp, if_pos hi, ok_bind, putLoop_eq (by omega), ok_bind]
  · next hplace => rw [putLoop_eq (by omega), separated, if_neg fun h => hplace h.2]

theorem getD_ne (htmp : ∀ c ∈ tmp, c ≠ '_') (hi : i < tmp.length) :
    tmp.getD i (Char.ofNat 0) ≠ '_' := by
  rw [List.getD_eq_getElem _ _ hi]
  exact htmp _ (List.getElem_mem hi)

/-- Without the separators the characters are those of `tmp` from the last one down. -/
theorem separated_filter (htmp : ∀ c ∈ tmp, c ≠ '_') (hi : i ≤ tmp.length) :
    (separated seperate mod tmp i).filter (· ≠ '_') = (tmp.take i).reverse := by
  induction i with
  | zero => rfl
  | succ i ih =>
    have hne := getD_ne htmp (show i < tmp.length by omega)
    have htake : (tmp.take (i + 1)).reverse =
        tmp.getD i (Char.ofNat 0) :: (tmp.take i).reverse := by
      rw [List.take_add_one, List.reverse_append, List.getD_eq_getElem _ _ (by omega),
        List.getElem?_eq_getElem (by omega)]
      rfl
    rw [separated, htake, ← ih (by omega)]
    split
    · rw [List.filter_cons_of_neg (by simp), List.filter_cons_of_pos (by simpa using hne)]
    · rw [List.filter_cons_of_pos (by simpa using hne)]

/-- A separator stands between two other characters. -/
theorem separated_apart (htmp : ∀ c ∈ tmp, c ≠ '_') (hi : i ≤ tmp.length) {c : Char}
    (hc : c ≠ '_') : (c :: separated seperate mod tmp i).IsChain fun a b =>
      ¬(a = '_' ∧ b = '_') := by
  induction i generalizing c with
  | zero => exact List.isChain_singleton c
  | succ i ih =>
    have hne := getD_ne htmp (show i < tmp.length by omega)
    have hrest := ih (by omega) hne
    rw [separated]
    split
    · exact List.isChain_cons_cons.mpr
        ⟨fun h => hc h.1, List.isChain_cons_cons.mpr ⟨fun h => hne h.2, hrest⟩⟩
    · exact List.isChain_cons_cons.mpr ⟨fun h => hc h.1, hrest⟩

theorem separated_off (hi : i ≤ tmp.length) :
    separated false mod tmp i = (tmp.take i).reverse := by
  induction i with
  | zero => rfl
  | succ i ih =>
    rw [separated, if_neg (by simp), ih (by omega), List.take_add_one, List.reverse_append,
      List.getD_eq_getElem _ _ (by omega), List.getElem?_eq_getElem (by omega)]
    rfl

end

/-! ### The sign -/

section

variable {q : Qualifier} {sign : Bool} {num base : Nat} {flag : PrintFlag}

theorem argNumber_lt (arg : Nat) : argNumber q sign arg < 2 ^ 64 := by
  unfold argNumber
  cases q with
  | h => simp only; split <;> omega
  | _ => simp only; omega

/-- A number with the sign flag that is not negative in its width has no bits above it. -/
theorem argNumber_low {arg : Nat} (hq : q ≠ .B)
    (hlow : argNumber q true arg % 2 ^ q.bits < 2 ^ (q.bits - 1)) :
    argNumber q true arg % 2 ^ q.bits = argNumber q true arg := by
  unfold argNumber at hlow ⊢
  cases q with
  | B => exact absurd rfl hq
  | h =>
    simp only [Qualifier.bits, true_and] at hlow ⊢
    split at hlow <;> split <;> omega
  | _ =>
    simp only [Qualifier.bits] at hlow ⊢
    omega

/-- What `vbprintf` passes is an `ulong`, and with the sign flag it is the number of a qualifier of
a format. -/
theorem Passed.cases (h : Passed q sign num) :
    num < 2 ^ 64 ∧ (sign = true → q ≠ .B ∧ ∃ arg, num = argNumber q true arg) := by
  obtain ⟨fl, q₀, width, conv, arg, c, hfl, hq₀, hcall, rfl, rfl, rfl⟩ := h
  have hnumber : ∀ {base f},
      some (⟨argNumber q₀ f.sign arg, base, f, q₀, width⟩ : NumberCall) = some c →
      c.num < 2 ^ 64 ∧ (c.flag.sign = true → c.qualifier ≠ .B ∧ ∃ arg,
        c.num = argNumber c.qualifier true arg) := by
    intro base f hc
    obtain rfl := Option.some.inj hc
    exact ⟨argNumber_lt arg, fun hs => ⟨hq₀, arg, by simp only at hs ⊢; rw [hs]⟩⟩
  unfold vbprintfCall at hcall
  simp only at hcall
  split at hcall
  · obtain rfl := Option.some.inj hcall
    exact ⟨Nat.mod_lt _ (by decide), fun hs => by rw [hfl] at hs; cases hs⟩
  · obtain rfl := Option.some.inj hcall
    exact ⟨show arg % 2 ^ 8 < 2 ^ 64 by omega, fun hs => by cases hs⟩
  · exact hnumber hcall
  · exact hnumber hcall
  · exact hnumber (f := { fl with upper := true }) hcall
  · exact hnumber hcall
  · exact hnumber (f := { fl with sign := true }) hcall
  · exact hnumber (f := { fl with sign := true }) hcall
  · exact hnumber hcall
  · cases hcall

/-- The sign and the number after it are those of the value. -/
theorem printSign_eq (h : Passed q flag.sign num) :
    printSign flag q num =
      (signChars flag (numberValue q flag.sign num), (numberValue q flag.sign num).natAbs) := by
  obtain ⟨hlt, hsigned⟩ := h.cases
  unfold printSign numberValue signChars
  cases hs : flag.sign with
  | false =>
    simp only [Bool.false_eq_true, if_false, false_and]
    rw [if_neg (by omega), Int.natAbs_natCast]
  | true =>
    obtain ⟨hq, arg, rfl⟩ := hsigned hs
    have hbits : q.bits = 16 ∨ q.bits = 32 ∨ q.bits = 64 := by cases q <;> simp [Qualifier.bits]
    simp only [if_true, true_and]
    by_cases hneg : 2 ^ (q.bits - 1) ≤ argNumber q true arg % 2 ^ q.bits
    · rw [if_pos hneg, if_pos hneg]
      generalize argNumber q true arg = num at hlt hneg
      rcases hbits with hb | hb | hb <;> rw [hb] at hneg ⊢ <;> rw [if_pos (by omega)] <;>
        congr 1 <;> omega
    · have hlow := argNumber_low hq (Nat.lt_of_not_le hneg)
      have hnonneg : ¬((argNumber q true arg : Nat) : Int) < 0 := by omega
      rw [if_neg hneg, if_neg hneg, hlow, if_neg hnonneg, Int.natAbs_natCast]

end

/-- The number after the sign is an `ulong`. -/
theorem numberValue_lt {q : Qualifier} {sign : Bool} {num : Nat} (h : num < 2 ^ 64) :
    (numberValue q sign num).natAbs < 2 ^ 64 := by
  have hbits : q.bits = 16 ∨ q.bits = 32 ∨ q.bits = 64 := by cases q <;> simp [Qualifier.bits]
  unfold numberValue
  rcases hbits with hb | hb | hb <;> rw [hb] <;> split <;>
    [skip; split; skip; split; skip; split] <;> omega

/-! ### The text -/

section

variable {base num i mod : Nat} {upper seperate : Bool} {tmp : List Char}

/-- The digits of a number in `tmp`: at least one, and none too many. -/
theorem digits_stored (upper : Bool) (hbase : 1 < base) (hnum : num < 2 ^ 64) :
    ∃ ds, storeDigits upper base num = .ok (ds.map (digitChar upper)) ∧
      ds ≠ [] ∧ ds.length ≤ 64 ∧ (∀ d ∈ ds, d < base) ∧ Nat.ofDigits base ds = num ∧
      (ds.getLast? = some 0 → ds = [0]) := by
  unfold storeDigits
  by_cases hzero : num = 0
  · refine ⟨[0], ?_, by simp, by simp, fun d hd => ?_, by simp [hzero], fun _ => rfl⟩
    · rw [if_pos hzero, List.map_cons, List.map_nil, digitChar_zero]
    · rw [List.mem_singleton.mp hd]
      omega
  · have hpow : num < base ^ 64 := Nat.lt_of_lt_of_le hnum (Nat.pow_le_pow_left hbase 64)
    refine ⟨Nat.digits base num, ?_, Nat.digits_ne_nil_iff_ne_zero.mpr hzero,
      (Nat.digits_length_le_iff hbase num).mpr hpow, fun d hd => Nat.digits_lt_base hbase hd,
      Nat.ofDigits_digits base num, fun hlast => ?_⟩
    · rw [if_neg hzero, digitLoop_eq hbase hpow, List.nil_append]
    · have hne : Nat.digits base num ≠ [] := Nat.digits_ne_nil_iff_ne_zero.mpr hzero
      rw [List.getLast?_eq_some_getLast hne] at hlast
      exact absurd (Option.some.inj hlast) (Nat.getLast_digit_ne_zero base hzero)

theorem body_filter (htmp : ∀ c ∈ tmp, c ≠ '_') (hlen : tmp.length = i + 1) :
    (tmp.getD i (Char.ofNat 0) :: separated seperate mod tmp i).filter (· ≠ '_') =
      tmp.reverse := by
  have hne := getD_ne htmp (show i < tmp.length by omega)
  have hlast : tmp.take i ++ [tmp.getD i (Char.ofNat 0)] = tmp := by
    have htake := List.take_add_one (l := tmp) (i := i)
    rw [List.take_of_length_le (by omega), List.getElem?_eq_getElem (by omega)] at htake
    rw [List.getD_eq_getElem _ _ (by omega)]
    exact htake.symm
  rw [List.filter_cons_of_pos (by simpa using hne), separated_filter htmp (by omega),
    ← List.reverse_concat, hlast]

end

/-- The digits `ds`, last digit first, with the zeros behind them and spaces on one side. -/
theorem numberText_of_digits (mod : Nat) (upper : Bool) {base : Nat} (hbase : base ≤ 16)
    {flag : PrintFlag} {width value pad : Int}
    {ds : List Nat} {zeros spaces i : Nat} (hne : ds ≠ []) (hlt : ∀ d ∈ ds, d < base)
    (hval : Nat.ofDigits base ds = value.natAbs) (hshort : ds.getLast? = some 0 → ds = [0])
    (hlen : ds.length + zeros = i + 1)
    (hpad : pad = width - ds.length - (prefixChars flag base).length -
      (signChars flag value).length)
    (hzeros : zeros = (if flag.zeroPad && !flag.left then pad else 0).toNat)
    (hspaces : spaces = (if flag.zeroPad && !flag.left then 0 else pad).toNat)
    {tmp body : List Char} (htmp : tmp = ds.map (digitChar upper) ++ List.replicate zeros '0')
    (hbody : body = tmp.getD i (Char.ofNat 0) :: separated flag.seperate mod tmp i) :
    NumberText base flag width value (if flag.left then 0 else spaces)
      (if flag.left then spaces else 0) zeros (ds.map (digitChar upper)).reverse body
      (List.replicate (if flag.left then 0 else spaces) ' ' ++ signChars flag value ++
        prefixChars flag base ++ body ++ List.replicate (if flag.left then spaces else 0) ' ') := by
  have hall : tmp = (ds ++ List.replicate zeros 0).map (digitChar upper) := by
    rw [htmp, List.map_append, List.map_replicate, digitChar_zero]
  have hpos : 0 < base := by
    obtain ⟨d, hd⟩ := List.exists_mem_of_ne_nil ds hne
    have := hlt d hd
    omega
  have hlt' : ∀ d ∈ ds ++ List.replicate zeros 0, d < base := by
    intro d hd
    rcases List.mem_append.mp hd with hd | hd
    · exact hlt d hd
    · rwa [(List.mem_replicate.mp hd).2]
  have hchars : ∀ c ∈ tmp, c ≠ '_' := by
    intro c hc
    rw [hall] at hc
    obtain ⟨d, hd, rfl⟩ := List.mem_map.mp hc
    exact digitChar_ne (by have := hlt' d hd; omega)
  have hcount : tmp.length = i + 1 := by
    rw [htmp, List.length_append, List.length_map, List.length_replicate, hlen]
  have hfilter : body.filter (· ≠ '_') = tmp.reverse := by
    rw [hbody]
    exact body_filter hchars hcount
  have hfirst := getD_ne hchars (show i < tmp.length by omega)
  constructor
  case parts => rfl
  case spacesBefore =>
    intro hb
    cases hleft : flag.left with
    | true => rw [hleft, if_pos rfl] at hb; omega
    | false =>
      cases hzp : flag.zeroPad with
      | true =>
        rw [hleft, hzp] at hspaces
        rw [hleft, if_neg (by simp), hspaces] at hb
        simp at hb
      | false => exact ⟨rfl, rfl⟩
  case spacesAfter =>
    intro ha
    cases hleft : flag.left with
    | true => rfl
    | false => rw [hleft, if_neg (by simp)] at ha; omega
  case padding =>
    intro hz
    cases hleft : flag.left with
    | true => rw [hzeros, hleft, Bool.not_true, Bool.and_false, if_neg (by simp)] at hz; simp at hz
    | false =>
      cases hzp : flag.zeroPad with
      | true => exact ⟨rfl, rfl⟩
      | false => rw [hzeros, hzp, Bool.false_and, if_neg (by simp)] at hz; simp at hz
  case split => rw [hfilter, htmp, List.reverse_append, List.reverse_replicate]
  case shortest =>
    refine ⟨by simpa using hne, fun hhead => ?_⟩
    rw [List.head?_reverse, List.getLast?_map] at hhead
    obtain ⟨d, hd, hzero⟩ := Option.map_eq_some_iff.mp hhead
    have hdlt := hlt d (List.mem_of_getLast? hd)
    rw [digitChar_eq_zero (by omega) hzero] at hd
    rw [hshort hd, List.map_cons, List.map_nil, digitChar_zero]
    rfl
  case denotes =>
    rw [hfilter, hall, numeral_digits hbase _ hlt', Nat.ofDigits_append_replicate_zero, hval]
  case first =>
    rw [hbody, List.head?_cons]
    exact fun h => hfirst (Option.some.inj h)
  case apart =>
    rw [hbody]
    exact separated_apart hchars (by omega) hfirst
  case length =>
    intro hsep
    have hplain : body = tmp.reverse := by
      rw [← hfilter, eq_comm, List.filter_eq_self, hbody, hsep, separated_off (by omega)]
      intro c hc
      rcases List.mem_cons.mp hc with rfl | hc
      · simpa using hfirst
      · simpa using hchars c (List.mem_of_mem_take (List.mem_reverse.mp hc))
    refine ⟨fun h => ?_, ?_⟩
    · rw [hplain, List.mem_reverse] at h
      exact hchars _ h rfl
    · simp only [hplain, List.length_append, List.length_replicate, List.length_reverse,
        List.length_map, hcount]
      rw [← hlen]
      cases hleft : flag.left <;> cases hzp : flag.zeroPad <;> rw [hleft, hzp] at hzeros hspaces <;>
        simp at hzeros hspaces ⊢ <;> omega

/-- For every base, qualifier and flags, every width up to 64 and every number that `vbprintf`
passes for the qualifier, `print_number` stays inside `tmp` and puts the text of the value. -/
theorem printNumber_text (base : Nat) (hbase : base ∈ [2, 8, 10, 16]) (qualifier : Qualifier)
    (flag : PrintFlag) (width : Int) (hl : -1 ≤ width) (hu : width ≤ 64) (num : Nat)
    (h : Passed qualifier flag.sign num) :
    ∃ out before after zeros digits body,
      printNumber num base flag qualifier width = .ok out ∧
      NumberText base flag width (numberValue qualifier flag.sign num) before after zeros digits
        body out := by
  obtain ⟨hbase1, hbase16⟩ : 1 < base ∧ base ≤ 16 := by
    simp only [List.mem_cons, List.not_mem_nil, or_false] at hbase
    omega
  have hsign := printSign_eq h
  have habs : (numberValue qualifier flag.sign num).natAbs < 2 ^ 64 := numberValue_lt h.cases.1
  generalize numberValue qualifier flag.sign num = value at hsign habs ⊢
  obtain ⟨ds, hstore, hne, hlen, hlt, hval, hshort⟩ := digits_stored flag.upper hbase1 habs
  have hone : 0 < ds.length := List.length_pos_of_ne_nil hne
  -- the zeros and the spaces that the width leaves
  obtain ⟨pad, hpad⟩ : ∃ pad : Int, pad = width - ds.length - (prefixChars flag base).length -
    (signChars flag value).length := ⟨_, rfl⟩
  obtain ⟨numPad, hnumPad⟩ : ∃ numPad : Int, numPad = if flag.zeroPad && !flag.left then pad
    else 0 := ⟨_, rfl⟩
  obtain ⟨spacePad, hspacePad⟩ : ∃ spacePad :
      Int, spacePad = if flag.zeroPad && !flag.left then 0 else pad :=
    ⟨_, rfl⟩
  have hroom : numPad ≤ ((64 - ds.length : Nat) : Int) := by
    rw [hnumPad]
    split <;> omega
  obtain ⟨i, hi⟩ : ∃ i, ds.length + numPad.toNat = i + 1 :=
    ⟨ds.length + numPad.toNat - 1, by omega⟩
  refine ⟨_, _, _, _, _, _, ?_,
    numberText_of_digits (if base = 10 then 3 else 4) flag.upper hbase16 hne hlt
    hval hshort hi hpad (congrArg Int.toNat hnumPad) (congrArg Int.toNat hspacePad) rfl rfl⟩
  unfold printNumber
  simp only [hsign, hstore, ok_bind, List.length_map, printPrefix_eq, ← hpad, ← hnumPad,
    ← hspacePad]
  rw [padLoop_eq hroom, ok_bind, putTmp_eq (by simpa using hi) (by omega), ok_bind]

/-- The most negative number of 32 bits, padded with zeros and separated. -/
theorem printNumber_text_sample : ∃ out before after zeros digits body,
    printNumber 0x80000000 10 ⟨true, true, false, false, false, false, true, true⟩ .plain 14 =
    .ok out ∧
    NumberText 10 ⟨true, true, false, false, false, false, true, true⟩
      14 (numberValue .plain true 0x80000000) before after zeros digits body out :=
  printNumber_text 10 (by decide) .plain ⟨true, true, false, false, false, false, true, true⟩
    14 (by decide) (by decide) 0x80000000
    ⟨⟨true, false, false, false, false, false, true, true⟩, .plain, 14, 'd', 0x80000000, _,
      rfl, by decide, rfl, rfl, rfl, rfl⟩

example : printNumber 0x80000000 10 ⟨true, true, false, false, false, false, true, true⟩
    .plain 14 = .ok ['-', '0', '_', '0', '0', '2', '_', '1', '4', '7', '_', '4', '8', '3', '_', '6',
      '4', '8'] := by decide

end OsKernel.Klib

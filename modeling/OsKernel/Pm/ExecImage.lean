import Mathlib.Data.List.TakeWhile
import OsKernel.Mm.Userstack.Lowered
import OsKernel.Pm.ExecAlign

/-! The stack of a new program as the program reads it.  Each string goes below the one
before it, the vectors of pointers go below all strings, and the stack pointer ends at the
number of arguments. -/

namespace OsKernel.Pm

open Lib Hsai Mm Lib.BuddySystem BuddyAllocator

/-! ### What a program reads -/

/-- What a program is started with. -/
structure ProgramStart where
  argc : Nat
  argv : List (List UInt8)
  envp : List (List UInt8)
  auxv : List (Nat × Nat)
  deriving DecidableEq

/-- What it finds at its stack pointer: both lists of pointers end at a null, and the vector behind
them at an entry of the type zero. -/
def programStart (m : Mem) (fuel sp : Nat) : ProgramStart :=
  let argv := m.words fuel (sp + 8)
  let envp := m.words fuel (sp + 8 + 8 * (argv.length + 1))
  { argc := m.read sp 8
    argv := argv.map (m.cstring fuel)
    envp := envp.map (m.cstring fuel)
    auxv := m.pairs fuel (sp + 8 + 8 * (argv.length + 1) + 8 * (envp.length + 1)) }

/-- The auxiliary vector in the order of its addresses, without its end. -/
def auxEntries (ph : ProgramHeaders) (rdPos : Nat) : List (Nat × Nat) :=
  [(25, rdPos)] ++
    if ph.phdr ≠ 0 then [(3, ph.phdr), (4, ph.phentsize), (5, ph.phnum), (6, pageSize)] else []

/-! ### Where the parts go -/

/-- The bytes that are left free so that the string begins at a multiple of 16. -/
def stringGap (hi : Nat) (str : List UInt8) : Nat := wordSub (wordSub hi str.length) 1 % 16

/-- The address of a string that is pushed at `hi`, if there is room for it above `base`. -/
def placeString (base hi : Nat) (str : List UInt8) : Option Nat :=
  if base + (stringGap hi str + ((cStr str).length + 1)) ≤ hi then
    some (hi - (stringGap hi str + ((cStr str).length + 1)))
  else none

/-- The addresses of strings that are pushed from `hi` on, and the stack pointer behind them. -/
def placeStrings (base : Nat) : Nat → List (List UInt8) → Option (List Nat × Nat)
  | hi, [] => some ([], hi)
  | hi, str :: rest => do
    let p ← placeString base hi str
    let r ← placeStrings base p rest
    some (p :: r.1, r.2)

/-- The bytes of the vectors and of the number of arguments. -/
def vectorSize (ph : ProgramHeaders) (argv envs : List (List UInt8)) : Nat :=
  16 * ((auxEntries ph 0).length + 1) + 8 * (envs.length + 1) + 8 * (argv.length + 1) + 8

/-- The stack pointer of the new program, if all fits on a stack from `base` to `top`. -/
def finalSp (base top : Nat) (ph : ProgramHeaders) (argv envs : List (List UInt8)) : Option Nat :=
  do
  let env ← placeStrings base (top - 32) envs
  let arg ← placeStrings base env.2 argv
  let vec := arg.2 - arg.2 % 16
  if base + vectorSize ph argv envs ≤ vec then some (vec - vectorSize ph argv envs) else none

/-- Strings at their addresses, between `lo` and `hi`. -/
def StringsAt (m : Mem) (lo hi : Nat) (ptrs : List Nat) (strs : List (List UInt8)) : Prop :=
  List.Forall₂ (fun p str => lo ≤ p ∧ p + ((cStr str).length + 1) ≤ hi ∧
    m.Holds p (cStr str ++ [0])) ptrs strs

theorem StringsAt.length {m : Mem} {lo hi : Nat} {ptrs : List Nat} {strs : List (List UInt8)}
    (h : StringsAt m lo hi ptrs strs) : ptrs.length = strs.length := List.Forall₂.length_eq h

theorem StringsAt.mono {m m' : Mem} {lo hi lo' hi' : Nat} {ptrs : List Nat}
    {strs : List (List UInt8)} (h : StringsAt m lo hi ptrs strs) (hlo : lo' ≤ lo)
    (hhi : hi ≤ hi')
    (heq : ∀ a, lo ≤ a → a < hi → m' a = m a) : StringsAt m' lo' hi' ptrs strs := by
  apply List.Forall₂.imp _ h
  rintro p str ⟨hl, hu, hat⟩
  refine ⟨hlo.trans hl, hu.trans hhi, hat.congr fun x hx hx' => heq x (by omega) ?_⟩
  rw [List.length_append, List.length_singleton] at hx'
  omega

theorem cStr_ne_zero (str : List UInt8) : ∀ b ∈ cStr str, b ≠ 0 := by
  intro b hb
  simpa using List.mem_takeWhile_imp hb

/-- A program reads the strings at their addresses. -/
theorem StringsAt.cstrings {m : Mem} {lo hi fuel : Nat} {ptrs : List Nat} {strs : List (List UInt8)}
    (h : StringsAt m lo hi ptrs strs) (hfuel : hi - lo ≤ fuel) :
    ptrs.map (m.cstring fuel) = strs.map cStr := by
  induction h with
  | nil => rfl
  | cons hp _ ih =>
    obtain ⟨hl, hu, hat⟩ := hp
    rw [List.map_cons, List.map_cons, ih, Mem.cstring_eq hat (cStr_ne_zero _) (by omega)]

/-- Strings above address zero have pointers that are no nulls. -/
theorem StringsAt.ptrs {m : Mem} {lo hi : Nat} {ptrs : List Nat} {strs : List (List UInt8)}
    (h : StringsAt m lo hi ptrs strs) (hlo : 0 < lo) (hhi : hi < 2 ^ 64) :
    ∀ p ∈ ptrs, p ≠ 0 ∧ p < 2 ^ 64 := by
  induction h with
  | nil => exact fun p hp => absurd hp List.not_mem_nil
  | cons hp _ ih =>
    obtain ⟨hl, hu, -⟩ := hp
    intro p hmem
    rcases List.mem_cons.mp hmem with rfl | hmem
    · exact ⟨by omega, by omega⟩
    · exact ih p hmem

theorem auxv_bytes (ph : ProgramHeaders) (rdPos : Nat) :
    (auxv ph rdPos).reverse.flatten = (auxEntries ph rdPos ++ [(0, 0)]).flatMap Mem.pairBytes := by
  unfold auxv auxEntries
  split
  · rfl
  · rfl

/-- What the pushes behind the strings leave, from the stack pointer on. -/
def vectorBytes (ph : ProgramHeaders) (rdPos : Nat) (envp argv : List Nat) (argc : Nat) :
    List UInt8 :=
  wordBytes argc ++ (argv.flatMap wordBytes ++
    (envp.flatMap wordBytes ++ (auxEntries ph rdPos ++ [(0, 0)]).flatMap Mem.pairBytes))

/-- A stack that is filled down to `sp`. -/
structure StackFilled (m : Mem) (top : Nat) (ph : ProgramHeaders) (argv envs : List (List UInt8))
    (sp : Nat) (argp envp : List Nat) : Prop where
  args : StringsAt m (sp + vectorSize ph argv envs) top argp argv
  envs : StringsAt m (sp + vectorSize ph argv envs) top envp envs
  vector : m.Holds sp (vectorBytes ph (top - 32) (envp ++ [0]) (argp ++ [0]) argv.length)
  random : m.Holds (top - 32) randomWords.reverse.flatten

theorem flatMap_length_const {β : Type} {f : β → List UInt8} {n : Nat}
    (hf : ∀ b, (f b).length = n) (bs : List β) : (bs.flatMap f).length = n * bs.length := by
  induction bs with
  | nil => rfl
  | cons b bs ih =>
    rw [List.flatMap_cons, List.length_append, hf, ih, List.length_cons]
    ring

theorem flatMap_wordBytes_length (ws : List Nat) : (ws.flatMap wordBytes).length = 8 * ws.length :=
  flatMap_length_const wordBytes_length ws

theorem flatten_reverse_length (bufs : List (List UInt8)) :
    bufs.reverse.flatten.length = bufs.flatten.length := by
  rw [List.length_flatten, List.length_flatten, List.map_reverse, List.sum_reverse]

theorem auxEntries_lt {ph : ProgramHeaders} {rdPos : Nat} (hrd : rdPos < 2 ^ 64)
    (hph : ph.phdr < 2 ^ 64 ∧ ph.phentsize < 2 ^ 64 ∧ ph.phnum < 2 ^ 64) :
    ∀ p ∈ auxEntries ph rdPos, p.1 ≠ 0 ∧ p.1 < 2 ^ 64 ∧ p.2 < 2 ^ 64 := by
  obtain ⟨hphdr, hent, hnum⟩ := hph
  have hpage : pageSize < 2 ^ 64 := by decide
  have hentry : ∀ t v : Nat, t ≠ 0 → t < 2 ^ 64 → v < 2 ^ 64 →
      (t, v).1 ≠ 0 ∧ (t, v).1 < 2 ^ 64 ∧ (t, v).2 < 2 ^ 64 := fun _ _ h h' h'' =>
      ⟨h, h', h''⟩
  intro p hp
  unfold auxEntries at hp
  split at hp
  · simp only [List.mem_append, List.mem_cons, List.not_mem_nil, or_false] at hp
    rcases hp with rfl | rfl | rfl | rfl | rfl
    · exact hentry _ _ (by decide) (by decide) hrd
    · exact hentry _ _ (by decide) (by decide) hphdr
    · exact hentry _ _ (by decide) (by decide) hent
    · exact hentry _ _ (by decide) (by decide) hnum
    · exact hentry _ _ (by decide) (by decide) hpage
  · simp only [List.append_nil, List.mem_singleton] at hp
    subst hp
    exact hentry _ _ (by decide) (by decide) hrd

/-- A program finds on a filled stack what it is started with. -/
theorem StackFilled.start {m : Mem} {top sp fuel : Nat} {ph : ProgramHeaders}
    {argv envs : List (List UInt8)}
    {argp envp : List Nat} (h : StackFilled m top ph argv envs sp argp envp) (hsp : 0 < sp)
    (htop : top < 2 ^ 64) (hargc : argv.length < 2 ^ 64)
    (hph : ph.phdr < 2 ^ 64 ∧ ph.phentsize < 2 ^ 64 ∧ ph.phnum < 2 ^ 64)
    (hfuel : top - sp ≤ fuel) (hargv : argv.length < fuel) (henvs : envs.length < fuel)
    (haux : 5 < fuel) :
    programStart m fuel sp =
      ⟨argv.length, argv.map cStr, envs.map cStr, auxEntries ph (top - 32)⟩ := by
  have hvec := h.vector
  obtain ⟨hc, hvec⟩ := Mem.holds_append.mp hvec
  obtain ⟨ha, hvec⟩ := Mem.holds_append.mp hvec
  obtain ⟨he, hx⟩ := Mem.holds_append.mp hvec
  rw [wordBytes_length] at ha he hx
  rw [flatMap_wordBytes_length, List.length_append, List.length_singleton] at he hx
  rw [flatMap_wordBytes_length, List.length_append, List.length_singleton] at hx
  have hcount : m.read sp 8 = argv.length := by
    have hread : m.read sp 8 = argv.length % 256 ^ 8 := Mem.Holds.read hc
    rw [hread, Nat.mod_eq_of_lt (by omega)]
  have hargs : m.words fuel (sp + 8) = argp :=
    Mem.words_eq ha (h.args.ptrs (by omega) htop) (by rw [h.args.length]; exact hargv)
  have henv : m.words fuel (sp + 8 + 8 * (argp.length + 1)) = envp :=
    Mem.words_eq he (h.envs.ptrs (by omega) htop) (by rw [h.envs.length]; exact henvs)
  have hlen : (auxEntries ph (top - 32)).length ≤ 5 := by
    unfold auxEntries
    split
    · exact Nat.le_refl 5
    · exact (by decide : 1 ≤ 5)
  have hpairs := Mem.pairs_eq hx (auxEntries_lt (by omega) hph) (Nat.lt_of_le_of_lt hlen haux)
  unfold programStart
  simp only [hargs, henv, hcount, hpairs]
  rw [h.args.cstrings (by omega), h.envs.cstrings (by omega)]

/-! ### The pushes -/

section

variable {reg : Region} {arch : Arch} {k : Kernel BuddyAllocator} {B : Blocks}
  {Base : Nat → Nat → Prop} {ι : Type} {W : Spaces ι} {i : ι} {A : AddrSpace}
  {base top : Nat} {s : UserstackStream} {str : List UInt8} {ptrs : List Nat}
  {bufs strs : List (List UInt8)}

theorem pushChecked_fits (C : StackSpace reg arch k B Base W i A base top)
    (I : OnStack arch buddyPages k ⟨A.root, true⟩ base top s) (hb : 0 < base)
    (bufs : List (List UInt8))
    (hfit : base + bufs.flatten.length ≤ s.sp) :
    ∃ s' k', pushChecked arch buddyPages k s bufs = .ok (some (s', k')) ∧
      s'.sp = s.sp - bufs.flatten.length ∧ Lowered reg arch B Base W i A base top k s s' k' ∧
      (userMem arch buddyPages k' ⟨A.root, true⟩).Holds s'.sp bufs.reverse.flatten := by
  induction bufs generalizing k s with
  | nil => exact ⟨s, k, rfl, rfl, .refl C I, .nil _ _⟩
  | cons buf bufs ih =>
    rw [List.flatten_cons, List.length_append] at hfit
    obtain ⟨s₁, k₁, hpush, herrno, hsp₁, h₁, hat₁⟩ :=
      C.push_lowered I hb buf (by omega)
    obtain ⟨s', k', hrun, hsp, h, hat⟩ := ih h₁.space h₁.stack (by omega)
    have hhigh := I.high
    refine ⟨s', k', ?_, ?_, h₁.trans h C, ?_⟩
    · rw [pushChecked, hpush, ok_bind]
      simp only [herrno, ne_eq, not_true_eq_false, if_false]
      exact hrun
    · rw [hsp, hsp₁, List.flatten_cons, List.length_append]
      omega
    · rw [List.reverse_cons, List.flatten_append, List.flatten_singleton]
      refine Mem.holds_append.mpr ⟨hat, ?_⟩
      rw [flatten_reverse_length, hsp, Nat.sub_add_cancel (by omega)]
      exact h.holds h₁.space hat₁ (Nat.le_refl _) (by omega)

theorem pushChecked_full (C : StackSpace reg arch k B Base W i A base top)
    (I : OnStack arch buddyPages k ⟨A.root, true⟩ base top s) (hb : 0 < base)
    (hbufs : ∀ buf ∈ bufs, buf.length ≤ base) (hfull : s.sp < base + bufs.flatten.length) :
    pushChecked arch buddyPages k s bufs = .ok none := by
  have hlow := I.low
  induction bufs generalizing k s with
  | nil => exact absurd hfull (Nat.not_lt.mpr hlow)
  | cons buf bufs ih =>
    have hlen := hbufs buf List.mem_cons_self
    by_cases hone : base + buf.length ≤ s.sp
    · rw [List.flatten_cons, List.length_append] at hfull
      obtain ⟨s₁, k₁, hpush, herrno, hsp₁, h₁, -⟩ := C.push_lowered I hb buf hone
      rw [pushChecked, hpush, ok_bind]
      simp only [herrno, ne_eq, not_true_eq_false, if_false]
      exact ih h₁.space h₁.stack (fun b hb' => hbufs b (List.mem_cons_of_mem _ hb')) (by omega)
        h₁.stack.low
    · rw [pushChecked, C.push_refused I (by omega) (by omega), ok_bind]
      rfl

/-- Two lists of pushes one after the other. -/
theorem pushChecked_append (bufs bufs' : List (List UInt8)) :
    pushChecked arch buddyPages k s (bufs ++ bufs') =
      orGiveUp (pushChecked arch buddyPages k s bufs) fun r =>
        pushChecked arch buddyPages r.2 r.1 bufs' := by
  induction bufs generalizing k s with
  | nil => rfl
  | cons buf bufs ih =>
    rw [List.cons_append, pushChecked, pushChecked]
    cases hpush : s.push arch buddyPages k buf with
    | error e => rfl
    | ok r =>
      rw [ok_bind, ok_bind]
      split
      · rfl
      · exact ih

/-- Pushes that all succeed do not need a look at the error. -/
theorem pushUnchecked_of_checked {r : UserstackStream × Kernel BuddyAllocator}
    (h : pushChecked arch buddyPages k s bufs = .ok (some r)) :
    pushUnchecked arch buddyPages k s bufs = .ok r := by
  induction bufs generalizing k s with
  | nil =>
    obtain rfl := Option.some.inj (Except.ok.inj h)
    rfl
  | cons buf bufs ih =>
    obtain ⟨r₁, hpush, h⟩ := bind_eq_ok.mp h
    split at h
    · cases h
    · rw [pushUnchecked, hpush, ok_bind]
      exact ih h

/-! ### The strings -/

theorem stringGap_lt (hi : Nat) (str : List UInt8) : stringGap hi str < 16 :=
  Nat.mod_lt _ (by decide)

/-- A string for which there is room. -/
theorem pushString_fits (C : StackSpace reg arch k B Base W i A base top)
    (I : OnStack arch buddyPages k ⟨A.root, true⟩ base top s) (hb : 0 < base)
    (hfit : base + (stringGap s.sp str + ((cStr str).length + 1)) ≤ s.sp) :
    ∃ s₁ s' k', s.subMove arch buddyPages k (stringGap s.sp str) = .ok s₁ ∧
      s₁.pushCStr arch buddyPages k (cStr str) = .ok (s', k') ∧ s'.errno = .ok ∧
      s'.sp = s.sp - (stringGap s.sp str + ((cStr str).length + 1)) ∧
      Lowered reg arch B Base W i A base top k s s' k' ∧
      (userMem arch buddyPages k' ⟨A.root, true⟩).Holds s'.sp (cStr str ++ [0]) := by
  obtain ⟨s₁, hmove, hsp₁, h₁⟩ := C.subMove_lowered I (stringGap s.sp str) (by omega)
  obtain ⟨s', k', hrun, herrno, hsp, h, hat⟩ := C.pushChars_lowered h₁.stack hb
    (cStr str ++ [0]).reverse (by simp) (by simp; omega)
  rw [List.reverse_reverse] at hat
  refine ⟨s₁, s', k', hmove, hrun, herrno, ?_, h₁.trans h C, hat⟩
  rw [hsp, hsp₁, List.length_reverse, List.length_append, List.length_singleton]
  omega

/-- A string for which there is none. -/
theorem pushString_full (C : StackSpace reg arch k B Base W i A base top)
    (I : OnStack arch buddyPages k ⟨A.root, true⟩ base top s) (hal : base % 4096 = 0)
    (htable : base / 4096 % 512 ≠ 0)
    (hfull : s.sp < base + (stringGap s.sp str + ((cStr str).length + 1))) :
    ∃ s₁ r, s.subMove arch buddyPages k (stringGap s.sp str) = .ok s₁ ∧
      s₁.pushCStr arch buddyPages k (cStr str) = .ok r ∧ r.1.errno = .noMem := by
  have hlow := I.low
  have hhigh := I.high
  have hfits := C.stack.fits
  have hgap := stringGap_lt s.sp str
  by_cases hroom : base + stringGap s.sp str < s.sp
  · obtain ⟨s₁, hmove, hsp₁, h₁⟩ := C.subMove_lowered I _ hroom
    obtain ⟨r, hrun, herrno⟩ := C.pushChars_full h₁.stack (by omega) (cStr str ++ [0]).reverse
      (by simp; omega)
    exact ⟨s₁, r, hmove, hrun, herrno⟩
  · obtain ⟨s₁, hmove, hsp₁, hbase⟩ :=
      C.subMove_low I hal htable (stringGap s.sp str) (by omega)
      (by omega)
    refine ⟨s₁, _, hmove, pushChars_refused (by omega) ?_ (by simp), rfl⟩
    rw [wordSub_of_le (by omega) (by omega), hbase]
    omega

theorem pushStrings_placed (C : StackSpace reg arch k B Base W i A base top)
    (I : OnStack arch buddyPages k ⟨A.root, true⟩ base top s) (hb : 0 < base) (ptrs : List Nat)
    (hlen : ptrs.length + strs.length < maxArg) {ps : List Nat} {lo : Nat}
    (hplace : placeStrings base s.sp strs = some (ps, lo)) :
    ∃ s' k', pushStrings arch buddyPages base k s ptrs strs =
      .ok (some (ptrs ++ ps ++ [0], s', k')) ∧ s'.sp = lo ∧
      Lowered reg arch B Base W i A base top k s s' k' ∧
      StringsAt (userMem arch buddyPages k' ⟨A.root, true⟩) lo s.sp ps strs := by
  induction strs generalizing k s ptrs ps with
  | nil =>
    cases hplace
    refine ⟨s, k, ?_, rfl, .refl C I, .nil⟩
    rw [pushStrings, if_pos (by simpa using hlen), List.append_nil]
  | cons str strs ih =>
    rw [List.length_cons] at hlen
    obtain ⟨p, hp, hplace⟩ := Option.bind_eq_some_iff.mp hplace
    obtain ⟨⟨ps', lo'⟩, hrest, hplace⟩ := Option.bind_eq_some_iff.mp hplace
    simp only [Option.some.injEq, Prod.mk.injEq] at hplace
    obtain ⟨rfl, rfl⟩ := hplace
    rw [placeString] at hp
    split at hp
    case isFalse => cases hp
    case isTrue hfit =>
      have hpos := Option.some.inj hp
      obtain ⟨s₁, s₂, k₂, hmove, hpush, herrno, hsp, h, hat⟩ :=
        pushString_fits C I hb hfit
      rw [hpos] at hsp
      rw [← hsp] at hrest
      obtain ⟨s', k', hrun, hlo, h', hstrs⟩ := ih h.space h.stack (ptrs ++ [s₂.sp])
        (by rw [List.length_append, List.length_singleton]; omega) hrest
      have hle := h'.le
      have hhigh := I.high
      refine ⟨s', k', ?_, hlo, h.trans h' C, .cons ⟨by omega, by omega, ?_⟩ ?_⟩
      · rw [pushStrings, if_neg (by omega)]
        simp only
        rw [show wordSub (wordSub s.sp str.length) 1 % 16 = stringGap s.sp str from rfl, hmove,
          ok_bind,
          if_neg (Nat.not_lt.mpr I.low), hpush, ok_bind]
        simp only [herrno, ne_eq, not_true_eq_false, if_false]
        rw [hrun, hsp, List.append_assoc, List.append_assoc, List.append_assoc]
        rfl
      · rw [← hsp]
        exact h'.holds h.space hat (Nat.le_refl _) (by
          rw [List.length_append, List.length_singleton]
          omega)
      · apply List.Forall₂.imp _ hstrs
        rintro q str' ⟨hl, hu, hq⟩
        exact ⟨hl, by omega, hq⟩

theorem pushStrings_full (C : StackSpace reg arch k B Base W i A base top)
    (I : OnStack arch buddyPages k ⟨A.root, true⟩ base top s) (hal : base % 4096 = 0)
    (htable : base / 4096 % 512 ≠ 0) (hlen : ptrs.length + strs.length < maxArg)
    (hplace : placeStrings base s.sp strs = none) :
    pushStrings arch buddyPages base k s ptrs strs = .ok none := by
  have hb : 0 < base := by omega
  induction strs generalizing k s ptrs with
  | nil => cases hplace
  | cons str strs ih =>
    rw [List.length_cons] at hlen
    rw [pushStrings, if_neg (by omega)]
    simp only
    rw [show wordSub (wordSub s.sp str.length) 1 % 16 = stringGap s.sp str from rfl]
    by_cases hfit : base + (stringGap s.sp str + ((cStr str).length + 1)) ≤ s.sp
    · obtain ⟨s₁, s₂, k₂, hmove, hpush, herrno, hsp, h, -⟩ := pushString_fits C I hb hfit
      rw [hmove, ok_bind, if_neg (Nat.not_lt.mpr I.low), hpush, ok_bind]
      simp only [herrno, ne_eq, not_true_eq_false, if_false]
      apply ih h.space h.stack (by rw [List.length_append, List.length_singleton]; omega)
      rw [placeStrings, placeString, if_pos hfit, ← hsp] at hplace
      cases hrest : placeStrings base s₂.sp strs with
      | none => rfl
      | some r =>
        simp only [bind, Option.bind, hrest] at hplace
        cases hplace
    · obtain ⟨s₁, r, hmove, hpush, herrno⟩ :=
        pushString_full C I hal htable (Nat.lt_of_not_le hfit)
      rw [hmove, ok_bind, if_neg (Nat.not_lt.mpr I.low), hpush, ok_bind]
      simp only [herrno, ne_eq, reduceCtorEq, not_false_eq_true, if_true]

/-! ### The whole stack -/

/-- The pushes behind the strings. -/
def vectorPushes (ph : ProgramHeaders) (rdPos : Nat) (envp argv : List Nat) (argc : Nat) :
    List (List UInt8) :=
  auxv ph rdPos ++ (envp.reverse.map wordBytes ++ (argv.reverse.map wordBytes ++ [wordBytes argc]))

theorem vectorPushes_bytes (ph : ProgramHeaders) (rdPos : Nat) (envp argv : List Nat) (argc : Nat) :
    (vectorPushes ph rdPos envp argv argc).reverse.flatten =
      vectorBytes ph rdPos envp argv argc := by
  have hwords : ∀ ws :
      List Nat, (ws.reverse.map wordBytes).reverse.flatten = ws.flatMap wordBytes := by
    intro ws
    rw [← List.map_reverse, List.reverse_reverse, List.flatMap_def]
  simp only [vectorPushes, vectorBytes, List.reverse_append, List.flatten_append, hwords,
    auxv_bytes, List.reverse_singleton, List.flatten_singleton, List.append_assoc]

theorem vectorPushes_le {ph : ProgramHeaders} {rdPos : Nat} {envp argv : List Nat} {argc : Nat} :
    ∀ buf ∈ vectorPushes ph rdPos envp argv argc, buf.length ≤ 16 := by
  intro buf hbuf
  simp only [vectorPushes, List.mem_append, List.mem_map, List.mem_singleton] at hbuf
  rcases hbuf with h | ⟨w, -, rfl⟩ | ⟨w, -, rfl⟩ | rfl
  · rw [auxv_length buf h]
  · simp
  · simp
  · simp

/-- The lowest address of the stack of a new program. -/
def stackBase : Nat := vmUstackEnd - defaultProcUstackPages * pageSize

theorem execStack_eq (pt : PageTable) (ph : ProgramHeaders) (argv envs : List (List UInt8)) :
    execStack arch buddyPages k pt ph argv envs = (do
      let s ← (UserstackStream.new stackBase (vmUstackEnd - stackBase) pt).openStack arch
        buddyPages k
      let r ← pushUnchecked arch buddyPages k s randomWords
      orGiveUp (pushStrings arch buddyPages stackBase r.2 r.1 [] envs) fun env =>
      orGiveUp (pushStrings arch buddyPages stackBase env.2.2 env.2.1 [] argv) fun arg => do
        let s ← arg.2.1.subMove arch buddyPages arg.2.2 (arg.2.1.sp % 16)
        pushChecked arch buddyPages arg.2.2 s (vectorPushes ph r.1.sp env.1 arg.1 argv.length)) :=
          by
  simp only [vectorPushes, pushChecked_append]
  rfl

/-- The stack after the random bytes. -/
theorem random_pushed (C : StackSpace reg arch k B Base W i A stackBase vmUstackEnd) :
    ∃ s s' k', (UserstackStream.new stackBase (vmUstackEnd - stackBase)
        ⟨A.root, true⟩).openStack arch buddyPages k = .ok s ∧ s.sp = vmUstackEnd ∧
      pushUnchecked arch buddyPages k s randomWords = .ok (s', k') ∧ s'.sp = vmUstackEnd - 32 ∧
      Lowered reg arch B Base W i A stackBase vmUstackEnd k s s' k' ∧
      (userMem arch buddyPages k' ⟨A.root, true⟩).Holds (vmUstackEnd - 32)
        randomWords.reverse.flatten := by
  obtain ⟨s, hopen, hsp, I⟩ := C.openStack
  have hlen : randomWords.flatten.length = 32 := by simp [randomWords]
  obtain ⟨s', k', hrun, hsp', h, hat⟩ := pushChecked_fits C I (by decide) randomWords (by
    rw [hlen, hsp]
    decide)
  rw [hlen, hsp] at hsp'
  rw [hsp'] at hat
  exact ⟨s, s', k', hopen, hsp, pushUnchecked_of_checked hrun, hsp', h, hat⟩

theorem vectorPushes_length (ph : ProgramHeaders) (rdPos : Nat) (envp argp : List Nat)
    {argv envs : List (List UInt8)} (henvp : envp.length = envs.length)
    (hargp : argp.length = argv.length) :
    (vectorPushes ph rdPos (envp ++ [0]) (argp ++ [0]) argv.length).flatten.length =
      vectorSize ph argv envs := by
  have haux : (auxEntries ph rdPos).length = (auxEntries ph 0).length := by
    unfold auxEntries
    split
    · rfl
    · rfl
  rw [← flatten_reverse_length, vectorPushes_bytes, vectorBytes, vectorSize]
  simp only [List.length_append, wordBytes_length, flatMap_wordBytes_length,
    flatMap_length_const Mem.pairBytes_length, List.length_singleton, haux, henvp, hargp]
  omega

/-- All fits on the stack. -/
theorem execStack_filled (C : StackSpace reg arch k B Base W i A stackBase vmUstackEnd)
    {ph : ProgramHeaders} {argv envs : List (List UInt8)} (hargv : argv.length < maxArg)
    (henvs : envs.length < maxArg) {sp : Nat}
    (hfinal : finalSp stackBase vmUstackEnd ph argv envs = some sp) :
    ∃ s k' argp envp, execStack arch buddyPages k ⟨A.root, true⟩ ph argv envs =
      .ok (some (s, k')) ∧ s.sp = sp ∧ stackBase ≤ sp ∧
      sp + vectorSize ph argv envs ≤ vmUstackEnd ∧
      StackFilled (userMem arch buddyPages k' ⟨A.root, true⟩) vmUstackEnd ph argv envs sp argp
      envp ∧
      ∀ x, (∀ a, sp ≤ a → a < vmUstackEnd →
        x ≠ userLoc arch buddyPages k ⟨A.root, true⟩ a) →
        k'.mem x = k.mem x := by
  obtain ⟨s₀, s₁, k₁, hopen, hsp₀, hrandom, hsp₁, h₁, hat₁⟩ := random_pushed C
  obtain ⟨⟨envp, lo⟩, henv, hfinal⟩ := Option.bind_eq_some_iff.mp hfinal
  obtain ⟨⟨argp, lo'⟩, harg, hfinal⟩ := Option.bind_eq_some_iff.mp hfinal
  simp only at harg hfinal
  split at hfinal
  case isFalse => cases hfinal
  case isTrue hfit =>
    obtain rfl := Option.some.inj hfinal
    rw [← hsp₁] at henv
    obtain ⟨s₂, k₂, hrun₂, hsp₂, h₂, hstrs₂⟩ :=
      pushStrings_placed h₁.space h₁.stack (by decide)
      [] (by simpa using henvs) henv
    rw [← hsp₂] at harg
    obtain ⟨s₃, k₃, hrun₃, hsp₃, h₃, hstrs₃⟩ :=
      pushStrings_placed h₂.space h₂.stack (by decide)
      [] (by simpa using hargv) harg
    have hpos : 0 < vectorSize ph argv envs := by
      unfold vectorSize
      omega
    obtain ⟨s₄, hrun₄, hsp₄, h₄⟩ :=
      h₃.space.subMove_lowered h₃.stack (s₃.sp % 16) (by omega)
    have hsize := vectorPushes_length ph s₁.sp envp argp hstrs₂.length hstrs₃.length
    obtain ⟨s₅, k₅, hrun₅, hsp₅, h₅, hat₅⟩ :=
      pushChecked_fits h₄.space h₄.stack (by decide)
      (vectorPushes ph s₁.sp (envp ++ [0]) (argp ++ [0]) argv.length) (by omega)
    rw [hsize] at hsp₅
    rw [vectorPushes_bytes, hsp₁] at hat₅
    have htop : vmUstackEnd - 32 ≤ vmUstackEnd := Nat.sub_le _ _
    have hle₂ := h₂.le
    have hle₃ := h₃.le
    have hsp : s₅.sp = lo' - lo' % 16 - vectorSize ph argv envs := by rw [hsp₅, hsp₄, hsp₃]
    have hdown₃ := h₃.trans (h₄.trans h₅ h₃.space) h₂.space
    refine ⟨s₅, k₅, argp, envp, ?_, hsp, by omega, by omega, ⟨?_, ?_, ?_, ?_⟩, ?_⟩
    · rw [execStack_eq, hopen, ok_bind, hrandom, ok_bind]
      refine orGiveUp_some.mpr ⟨_, hrun₂, orGiveUp_some.mpr ⟨_, hrun₃, ?_⟩⟩
      simp only
      rw [hrun₄, ok_bind]
      exact hrun₅
    · refine hstrs₃.mono (by omega) (by omega) fun a hl hu => ?_
      exact (h₄.trans h₅ h₃.space).above h₃.space (by omega) (by omega)
    · refine hstrs₂.mono (by omega) (by omega) fun a hl hu => ?_
      exact hdown₃.above h₂.space (by omega) (by omega)
    · rw [← hsp]
      exact hat₅
    · refine (h₂.trans hdown₃ h₁.space).holds h₁.space hat₁ (by omega) ?_
      rw [show randomWords.reverse.flatten.length = 32 by simp [randomWords]]
      decide
    · have hall := h₁.trans (h₂.trans hdown₃ h₁.space) C
      intro x hx
      apply hall.outside
      intro a hl hu
      exact hx a (by omega) (by omega)

/-- Something does not fit. -/
theorem execStack_full (C : StackSpace reg arch k B Base W i A stackBase vmUstackEnd)
    {ph : ProgramHeaders} {argv envs : List (List UInt8)} (hargv : argv.length < maxArg)
    (henvs : envs.length < maxArg) (hfinal : finalSp stackBase vmUstackEnd ph argv envs = none) :
    execStack arch buddyPages k ⟨A.root, true⟩ ph argv envs = .ok none := by
  have hal : stackBase % 4096 = 0 := by decide
  have htable : stackBase / 4096 % 512 ≠ 0 := by decide
  obtain ⟨s₀, s₁, k₁, hopen, hsp₀, hrandom, hsp₁, h₁, -⟩ := random_pushed C
  rw [execStack_eq, hopen, ok_bind, hrandom, ok_bind]
  simp only
  cases henv : placeStrings stackBase s₁.sp envs with
  | none =>
    rw [pushStrings_full h₁.space h₁.stack hal htable (by simpa using henvs) henv]
    rfl
  | some env =>
    obtain ⟨envp, lo⟩ := env
    obtain ⟨s₂, k₂, hrun₂, hsp₂, h₂, hstrs₂⟩ :=
      pushStrings_placed h₁.space h₁.stack (by decide)
      [] (by simpa using henvs) henv
    rw [hrun₂, orGiveUp, ok_bind]
    simp only
    cases harg : placeStrings stackBase s₂.sp argv with
    | none =>
      rw [pushStrings_full h₂.space h₂.stack hal htable (by simpa using hargv) harg]
      rfl
    | some arg =>
      obtain ⟨argp, lo'⟩ := arg
      obtain ⟨s₃, k₃, hrun₃, hsp₃, h₃, hstrs₃⟩ :=
        pushStrings_placed h₂.space h₂.stack (by decide)
        [] (by simpa using hargv) harg
      rw [hrun₃, orGiveUp, ok_bind]
      simp only
      have hsize := vectorPushes_length ph s₁.sp envp argp hstrs₂.length hstrs₃.length
      have hroom : ¬stackBase + vectorSize ph argv envs ≤ s₃.sp - s₃.sp % 16 := by
        intro hfit
        rw [finalSp, ← hsp₁, henv] at hfinal
        simp only [bind, Option.bind, ← hsp₂, harg] at hfinal
        rw [← hsp₃, if_pos hfit] at hfinal
        cases hfinal
      have hhigh := h₃.stack.high
      have hlow := h₃.stack.low
      by_cases habove : stackBase + s₃.sp % 16 < s₃.sp
      · obtain ⟨s₄, hrun₄, hsp₄, h₄⟩ := h₃.space.subMove_lowered h₃.stack _ habove
        rw [hrun₄, ok_bind]
        refine pushChecked_full h₄.space h₄.stack (by decide) (fun buf hbuf => ?_) ?_
        · exact (vectorPushes_le buf hbuf).trans (by decide)
        · rw [← hsize] at hroom
          rw [hsp₄]
          exact Nat.lt_of_not_le hroom
      · -- the stack is full up to its last 16 bytes
        obtain ⟨s₄, hrun₄, hsp₄, hbase⟩ := h₃.space.subMove_low h₃.stack hal htable
          (s₃.sp % 16) (by omega) (by omega)
        have hend : s₄.sp = stackBase := by
          have : stackBase % 16 = 0 := by decide
          omega
        rw [hrun₄, ok_bind, vectorPushes, auxv, List.append_assoc, List.append_assoc,
          List.singleton_append, pushChecked, UserstackStream.push, hend, hbase]
        rfl

/-- The stack of `execve` for fewer than 32 arguments and fewer than 32 strings of the environment.
It gives up exactly if they do not fit.  Otherwise the program finds at its stack pointer the
arguments, the environment and the auxiliary vector, with the random bytes where an entry says, and
only bytes of the stack have changed. -/
theorem exec_stack_starts (C : StackSpace reg arch k B Base W i A stackBase vmUstackEnd)
    (ph : ProgramHeaders) (hph : ph.phdr < 2 ^ 64 ∧ ph.phentsize < 2 ^ 64 ∧ ph.phnum < 2 ^ 64)
    (argv envs : List (List UInt8)) (hargv : argv.length < maxArg) (henvs : envs.length < maxArg) :
    ∃ res, execStack arch buddyPages k ⟨A.root, true⟩ ph argv envs = .ok res ∧
      res.map (·.1.sp) = finalSp stackBase vmUstackEnd ph argv envs ∧
      ∀ s k', res = some (s, k') →
        (∀ fuel, vmUstackEnd - stackBase ≤ fuel →
          programStart (userMem arch buddyPages k' ⟨A.root, true⟩) fuel s.sp =
            ⟨argv.length, argv.map cStr, envs.map cStr, auxEntries ph (vmUstackEnd - 32)⟩) ∧
        (userMem arch buddyPages k' ⟨A.root, true⟩).Holds (vmUstackEnd - 32)
        randomWords.reverse.flatten ∧
        ∀ x, (∀ a, s.sp ≤ a → a < vmUstackEnd →
          x ≠ userLoc arch buddyPages k ⟨A.root, true⟩ a) →
          k'.mem x = k.mem x := by
  cases hfinal : finalSp stackBase vmUstackEnd ph argv envs with
  | none => exact ⟨none, execStack_full C hargv henvs hfinal, rfl, fun s k' h => nomatch h⟩
  | some sp =>
    obtain ⟨s, k', argp, envp, hrun, rfl, hlow, hhigh, hfilled, houtside⟩ :=
      execStack_filled C hargv henvs hfinal
    have hroom : 64 < vmUstackEnd - stackBase := by decide
    have hmax : maxArg ≤ 64 := by decide
    refine ⟨_, hrun, rfl, fun s₁ k₁ h => ?_⟩
    obtain ⟨rfl, rfl⟩ : s = s₁ ∧ k' = k₁ := by simpa using h
    refine ⟨fun fuel hfuel => ?_, hfilled.random, houtside⟩
    apply hfilled.start _ (by decide) (by omega) hph (by omega) (by omega) (by omega) (by omega)
    exact Nat.lt_of_lt_of_le (by decide) hlow

end

/-- A program with one argument and one string in its environment. -/
theorem exec_stack_starts_sample : ∃ (k : Kernel BuddyAllocator) (pt : PageTable)
    (s : UserstackStream) (k' : Kernel BuddyAllocator),
      execStack .riscv buddyPages k pt ⟨0, 0, 0⟩ [[97]] [[98, 61]] = .ok (some (s, k')) ∧
      s.sp = vmUstackEnd - 136 ∧ programStart (userMem .riscv buddyPages k' pt) 131072 s.sp =
        ⟨1, [[97]], [[98, 61]], [(25, vmUstackEnd - 32)]⟩ := by
  have htop : 4096 * (2 ^ 24 - 34 + 2 ^ 5) = vmUstackEnd := by decide
  have hbase : 4096 * (2 ^ 24 - 34) = stackBase := by decide
  obtain ⟨k, B, Base, A, C⟩ := sample_stack 5 (2 ^ 24 - 34) (by decide) (by decide)
  rw [htop, hbase] at C
  obtain ⟨res, hrun, hsp, hstart⟩ :=
    exec_stack_starts C ⟨0, 0, 0⟩ (by decide) [[97]] [[98, 61]] (by decide)
    (by decide)
  have hfinal : finalSp stackBase vmUstackEnd ⟨0, 0, 0⟩ [[97]] [[98, 61]] =
    some (vmUstackEnd - 136) := by decide
  rw [hfinal] at hsp
  obtain ⟨⟨s, k'⟩, rfl, hend⟩ := Option.map_eq_some_iff.mp hsp
  exact ⟨k, _, s, k', hrun, hend, (hstart s k' rfl).1 131072 (by decide)⟩

end OsKernel.Pm

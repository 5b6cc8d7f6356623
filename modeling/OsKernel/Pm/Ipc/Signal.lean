import Mathlib.Data.List.Induction
import Mathlib.Logic.Function.Basic

/-! `rt_sigaction`: the table of signal actions of a process over any calls.  An action is whatever
the system's header makes it; `zero` is the one that `sigaction()` builds.  Copies from and to the
user are what they answer. -/

namespace OsKernel.Pm.Ipc

/-- The signals of the system's header that `sigAction` names. -/
def SIGRTMAX : Int := 64

def SIGKILL : Int := 9

def SIGQUIT : Int := 3

/-- A signal number that `sigAction` accepts. -/
def SignalOk (flag : Int) : Prop :=
  ¬(flag ≤ 0 ∨ SIGRTMAX ≤ flag ∨ flag = SIGKILL ∨ flag = SIGQUIT)

instance (flag : Int) : Decidable (SignalOk flag) := inferInstanceAs (Decidable (¬_))

variable {α : Type}

/-- `_sigactions` of a process. -/
abbrev SigTable (α : Type) := Nat → α

/-- The index of a signal in the table. -/
def sigIndex (flag : Int) : Nat := (flag - 1).toNat

/-- `sigAction`: what it returns, what `*oldact` holds then, and the table.  A null pointer
is `none`. -/
def sigAction (t : SigTable α) (flag : Int) (newact oldact : Option α) :
    Int × Option α × SigTable α :=
  if ¬SignalOk flag then (-1, oldact, t)
  else
    let old := oldact.map fun _ => t (sigIndex flag)
    match newact with
    | some a => (0, old, Function.update t (sigIndex flag) a)
    | none => (0, old, t)

/-- A call of `_sys_sigaction`: its arguments, what `copy_in` reads at `newactaddr` if it succeeds,
whether `copyout` succeeds, and what the kernel stack holds where `a_newact` and `a_oldact` lie. -/
structure SigactionCall (α : Type) where
  flag : Int
  newactaddr : Nat
  oldactaddr : Nat
  copyIn : Option α
  copyOut : Bool
  newactJunk : α
  oldactJunk : α

/-- What a call returns, what it copies to `oldactaddr`, and the table. -/
structure SigactionResult (α : Type) where
  ret : Int
  delivered : Option α
  table : SigTable α

/-- The end of `_sys_sigaction`. -/
def deliverOld (c : SigactionCall α) (r : Int × Option α × SigTable α) : SigactionResult α :=
  if r.1 = 0 ∧ c.oldactaddr ≠ 0 then
    if c.copyOut then ⟨r.1, r.2.1, r.2.2⟩ else ⟨-1, none, r.2.2⟩
  else ⟨r.1, none, r.2.2⟩

/-- `_sys_sigaction`. -/
def sysSigaction (zero : α) (t : SigTable α) (c : SigactionCall α) : SigactionResult α :=
  let oldact := if c.oldactaddr ≠ 0 then zero else c.oldactJunk
  if c.newactaddr ≠ 0 then
    match c.copyIn with
    | none => ⟨-1, none, t⟩
    | some newact =>
      let r := sigAction t c.flag (some newact) none
      deliverOld c (r.1, some oldact, r.2.2)
  else deliverOld c (sigAction t c.flag (some c.newactJunk) (some oldact))

/-- The table after the calls. -/
def sigTable (zero : α) (t : SigTable α) (cs : List (SigactionCall α)) : SigTable α :=
  cs.foldl (fun t c => (sysSigaction zero t c).table) t

/-! ### A faithful store -/

/-- The action that a call installs: a new one is given, it can be read, and the signal
is accepted. -/
def SigactionCall.installs (c : SigactionCall α) : Option α :=
  if c.newactaddr ≠ 0 ∧ SignalOk c.flag then c.copyIn else none

/-- The action last installed for each signal, or the initial one. -/
def lastInstalled (t : SigTable α) (cs : List (SigactionCall α)) : SigTable α :=
  cs.foldl (fun t c => match c.installs with
    | some a => Function.update t (sigIndex c.flag) a
    | none => t) t

/-- A call on the table `t`, where `now` holds the actions last installed: it delivers the action
last installed if it succeeds with an old pointer, leaves the table unchanged without a new pointer,
and never changes the action of another signal. -/
structure FaithfulCall (zero : α) (now t : SigTable α) (c : SigactionCall α) : Prop where
  delivers : (sysSigaction zero t c).ret = 0 → c.oldactaddr ≠ 0 →
    (sysSigaction zero t c).delivered = some (now (sigIndex c.flag))
  unchanged : c.newactaddr = 0 → (sysSigaction zero t c).table = t
  others : ∀ s, s ≠ sigIndex c.flag → (sysSigaction zero t c).table s = t s

/-- All calls, one after the other, find and leave the actions last installed. -/
def Faithful (zero : α) (t : SigTable α) (cs : List (SigactionCall α)) : Prop :=
  sigTable zero t cs = lastInstalled t cs ∧
    ∀ pre c post, cs = pre ++ c :: post →
      FaithfulCall zero (lastInstalled t pre) (sigTable zero t pre) c

/-- A call of an accepted signal that gives a new action and asks for no old one, or finds the
initial value as the old one; or that gives none where the kernel stack happens to hold the action
in the table. -/
def SigactionExact (zero : α) (t : SigTable α) (c : SigactionCall α) : Prop :=
  SignalOk c.flag →
    if c.newactaddr = 0 then c.newactJunk = t (sigIndex c.flag)
    else c.copyIn.isSome → c.oldactaddr ≠ 0 → c.copyOut = true → t (sigIndex c.flag) = zero

section

variable {zero : α} {t now : SigTable α} {c : SigactionCall α} {cs pre : List (SigactionCall α)}

@[simp] theorem deliverOld_table (c : SigactionCall α) (ret : Int) (old : Option α)
    (t : SigTable α) : (deliverOld c (ret, old, t)).table = t := by
  unfold deliverOld
  split
  · split <;> rfl
  · rfl

theorem deliverOld_refused {r : Int × Option α × SigTable α} (h : r.1 = -1) :
    (deliverOld c r).ret = -1 := by
  unfold deliverOld
  rw [if_neg (by omega), h]

theorem deliverOld_ret {r : Int × Option α × SigTable α} (h : r.1 = 0)
    (hold : c.oldactaddr ≠ 0) : (deliverOld c r).ret = 0 ↔ c.copyOut = true := by
  unfold deliverOld
  rw [if_pos ⟨h, hold⟩]
  split
  · next hc => exact iff_of_true h hc
  · next hc => exact iff_of_false (show ¬(-1 : Int) = 0 by decide) hc

theorem deliverOld_delivered {r : Int × Option α × SigTable α} (h : r.1 = 0)
    (hold : c.oldactaddr ≠ 0) (hc : c.copyOut = true) : (deliverOld c r).delivered = r.2.1 := by
  unfold deliverOld
  rw [if_pos ⟨h, hold⟩, if_pos hc]

theorem sigAction_refused {newact oldact : Option α} (h : ¬SignalOk c.flag) :
    sigAction t c.flag newact oldact = (-1, oldact, t) := if_pos h

theorem sigAction_some {a : α} {oldact : Option α} (h : SignalOk c.flag) :
    sigAction t c.flag (some a) oldact =
      (0, oldact.map fun _ => t (sigIndex c.flag), Function.update t (sigIndex c.flag) a) :=
  if_neg (not_not.mpr h)

/-- A refused signal changes nothing. -/
theorem sysSigaction_refused (h : ¬SignalOk c.flag) :
    (sysSigaction zero t c).table = t ∧ (sysSigaction zero t c).ret = -1 := by
  unfold sysSigaction
  simp only [sigAction_refused h]
  split
  · cases c.copyIn with
    | none => exact ⟨rfl, rfl⟩
    | some a => exact ⟨deliverOld_table .., deliverOld_refused rfl⟩
  · exact ⟨deliverOld_table .., deliverOld_refused rfl⟩

/-- Without a new action the one in the table is read, and what the kernel stack holds is stored. -/
theorem sysSigaction_null (h : SignalOk c.flag) (hnew : c.newactaddr = 0) :
    sysSigaction zero t c =
      deliverOld c (0, some (t (sigIndex c.flag)),
        Function.update t (sigIndex c.flag) c.newactJunk) := by
  unfold sysSigaction
  simp only [sigAction_some h]
  rw [if_neg (not_not.mpr hnew)]
  rfl

/-- With a new action it is stored, and the old one is not read. -/
theorem sysSigaction_new {a : α} (h : SignalOk c.flag) (hnew : c.newactaddr ≠ 0)
    (ha : c.copyIn = some a) : sysSigaction zero t c =
      deliverOld c (0, some (if c.oldactaddr ≠ 0 then zero else c.oldactJunk),
        Function.update t (sigIndex c.flag) a) := by
  unfold sysSigaction
  simp only [sigAction_some h, ha]
  rw [if_pos hnew]

theorem sysSigaction_unread (hnew : c.newactaddr ≠ 0) (ha : c.copyIn = none) :
    sysSigaction zero t c = ⟨-1, none, t⟩ := by
  unfold sysSigaction
  simp only [ha]
  rw [if_pos hnew]

/-- A call leaves the actions of all other signals. -/
theorem sysSigaction_others {s : Nat} (hs : s ≠ sigIndex c.flag) :
    (sysSigaction zero t c).table s = t s := by
  by_cases h : SignalOk c.flag
  · by_cases hnew : c.newactaddr = 0
    · rw [sysSigaction_null h hnew, deliverOld_table, Function.update_of_ne hs]
    · cases ha : c.copyIn with
      | none => rw [sysSigaction_unread hnew ha]
      | some a => rw [sysSigaction_new h hnew ha, deliverOld_table, Function.update_of_ne hs]
  · rw [(sysSigaction_refused h).1]

/-- A call that leaves the table where no new action is given installs what it should. -/
theorem sysSigaction_table (hnull : c.newactaddr = 0 → (sysSigaction zero t c).table = t) :
    (sysSigaction zero t c).table = lastInstalled t [c] := by
  unfold lastInstalled SigactionCall.installs
  simp only [List.foldl_cons, List.foldl_nil]
  by_cases hnew : c.newactaddr = 0
  · rw [if_neg fun h => h.1 hnew]
    exact hnull hnew
  · by_cases h : SignalOk c.flag
    · rw [if_pos ⟨hnew, h⟩]
      cases ha : c.copyIn with
      | none => rw [sysSigaction_unread hnew ha]
      | some a => rw [sysSigaction_new h hnew ha, deliverOld_table]
    · rw [if_neg fun hc => h hc.2]
      exact (sysSigaction_refused h).1

/-- One call is faithful if and only if the condition holds in the table that it finds. -/
theorem faithfulCall_iff : FaithfulCall zero t t c ↔ SigactionExact zero t c := by
  unfold SigactionExact
  by_cases h : SignalOk c.flag
  · refine Iff.trans ?_ (forall_prop_of_true h).symm
    by_cases hnew : c.newactaddr = 0
    · rw [if_pos hnew]
      constructor
      · intro H
        have htab := congrFun (H.unchanged hnew) (sigIndex c.flag)
        rwa [sysSigaction_null h hnew, deliverOld_table, Function.update_self] at htab
      · intro hjunk
        refine ⟨fun hret hold => ?_, fun _ => ?_, fun s hs => sysSigaction_others hs⟩
        · rw [sysSigaction_null h hnew] at hret ⊢
          exact deliverOld_delivered rfl hold ((deliverOld_ret rfl hold).mp hret)
        · rw [sysSigaction_null h hnew, deliverOld_table, hjunk, Function.update_eq_self]
    · rw [if_neg hnew]
      constructor
      · intro H hread hold hcopy
        obtain ⟨a, ha⟩ := Option.isSome_iff_exists.mp hread
        have hdel := H.delivers
        rw [sysSigaction_new h hnew ha] at hdel
        have hsome := hdel ((deliverOld_ret rfl hold).mpr hcopy) hold
        rw [deliverOld_delivered rfl hold hcopy, if_pos hold] at hsome
        exact (Option.some.inj hsome).symm
      · intro H
        refine ⟨fun hret hold => ?_, fun hz => absurd hz hnew,
          fun s hs => sysSigaction_others hs⟩
        cases ha : c.copyIn with
        | none =>
          rw [sysSigaction_unread hnew ha] at hret
          exact absurd hret (show ¬(-1 : Int) = 0 by decide)
        | some a =>
          rw [sysSigaction_new h hnew ha] at hret ⊢
          have hcopy := (deliverOld_ret rfl hold).mp hret
          rw [deliverOld_delivered rfl hold hcopy, if_pos hold, H (by rw [ha]; rfl) hold hcopy]
  · refine iff_of_true ?_ fun hok => absurd hok h
    refine ⟨fun hret _ => ?_, fun _ => (sysSigaction_refused h).1,
      fun s hs => sysSigaction_others hs⟩
    rw [(sysSigaction_refused h).2] at hret
    exact absurd hret (by decide)

theorem sigTable_snoc : sigTable zero t (pre ++ [c]) =
    (sysSigaction zero (sigTable zero t pre) c).table := by
  simp [sigTable]

theorem lastInstalled_snoc : lastInstalled t (pre ++ [c]) =
    lastInstalled (lastInstalled t pre) [c] := by
  simp [lastInstalled]

/-- While no call without a new action changes the table, it holds the actions last installed. -/
theorem sigTable_eq (H : ∀ pre c post, cs = pre ++ c :: post → c.newactaddr = 0 →
    (sysSigaction zero (sigTable zero t pre) c).table = sigTable zero t pre) :
    sigTable zero t cs = lastInstalled t cs := by
  induction cs using List.reverseRecOn with
  | nil => rfl
  | append_singleton cs c ih =>
    have hinit := ih fun pre d post hcs => H pre d (post ++ [c]) (by rw [hcs]; simp)
    rw [sigTable_snoc, lastInstalled_snoc, sysSigaction_table (H cs c [] rfl), hinit]

/-- The calls are faithful if and only if each of them meets the condition in the table that
it finds. -/
theorem sigaction_faithful_iff (zero : α) (t : SigTable α) (cs : List (SigactionCall α)) :
    Faithful zero t cs ↔
      ∀ pre c post, cs = pre ++ c :: post → SigactionExact zero (sigTable zero t pre) c := by
  -- what comes before a call is faithful to its own end
  have hprefix : ∀ {pre c post}, cs = pre ++ c :: post →
      (∀ pre c post, cs = pre ++ c :: post → c.newactaddr = 0 →
        (sysSigaction zero (sigTable zero t pre) c).table = sigTable zero t pre) →
      sigTable zero t pre = lastInstalled t pre := by
    rintro pre c post rfl H
    exact sigTable_eq fun pre' d post' hpre => H pre' d (post' ++ c :: post) (by rw [hpre]; simp)
  constructor
  · rintro ⟨-, H⟩ pre c post hcs
    have hnow := hprefix hcs fun pre c post hcs => (H pre c post hcs).unchanged
    have hcall := H pre c post hcs
    rw [← hnow] at hcall
    exact faithfulCall_iff.mp hcall
  · intro H
    have hnull : ∀ pre c post, cs = pre ++ c :: post → c.newactaddr = 0 →
        (sysSigaction zero (sigTable zero t pre) c).table = sigTable zero t pre :=
          fun pre c post hcs =>
      (faithfulCall_iff.mpr (H pre c post hcs)).unchanged
    refine ⟨sigTable_eq hnull, fun pre c post hcs => ?_⟩
    rw [← hprefix hcs hnull]
    exact faithfulCall_iff.mpr (H pre c post hcs)

end

/-- A new action is installed, and the next call asks for it with another new one: it is told that
the initial action was there. -/
theorem sigaction_old_lost : ¬Faithful 0 (fun _ => 0)
    [⟨2, 0x1000, 0, some 7, true, 0, 0⟩, ⟨2, 0x1000, 0x2000, some 8, true, 0, 0⟩] := by
  rintro ⟨-, H⟩
  have hcall := (H [⟨2, 0x1000, 0, some 7, true, 0, 0⟩]
    ⟨2, 0x1000, 0x2000, some 8, true, 0, 0⟩ [] rfl).delivers
    (by decide) (by decide)
  exact absurd hcall (by decide)

end OsKernel.Pm.Ipc

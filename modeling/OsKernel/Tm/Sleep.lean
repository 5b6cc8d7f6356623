import Mathlib.Logic.Relation
import Mathlib.Tactic.Ring

/-! `sleep_from_tv` of the timer manager: one process that sleeps, and the clock interrupts and
wakeups that come between its steps.  The lock is held from the test of the loop to the sleep or
the return. -/

namespace OsKernel.Tm

/-- Where the process is in `sleep_n_ticks`: before it takes the lock, at the test of the loop with
the lock held, in `sleep` until it is woken, or back with a result. -/
inductive SleepPc where
  | entry
  | test (tickTmp : Nat)
  | asleep (tickTmp : Nat) (woken : Bool)
  | done (ret : Int)
  deriving DecidableEq

/-- The tick counter, the ticks counted since the entry, and the process. -/
structure SleepState where
  ticks : Nat
  counted : Nat
  killed : Bool
  pc : SleepPc
  deriving DecidableEq

/-- A value stored in an `int`. -/
def toInt (n : Nat) : Int :=
  if n % 2 ^ 32 < 2 ^ 31 then (n % 2 ^ 32 : Nat) else (n % 2 ^ 32 : Nat) - 2 ^ 32

/-- The state in which `sleep_n_ticks( n )` is entered. -/
def sleepNTicks (n : Int) (ticks : Nat) (killed : Bool) : SleepState :=
  ⟨ticks, 0, killed, if n < 0 then .done (-1) else .entry⟩

/-- The test of the loop, up to the sleep or the return. -/
def sleepTest (n : Int) (s : SleepState) (tickTmp : Nat) : SleepPc :=
  if ((s.ticks + 2 ^ 64 - tickTmp) % 2 ^ 64 : Nat) < n then
    if s.killed then .done (-2) else .asleep tickTmp false
  else .done 0

/-- The process after a wakeup of its channel. -/
def SleepPc.wakeup : SleepPc → SleepPc
  | asleep tickTmp _ => asleep tickTmp true
  | pc => pc

/-- The lock is held by the process. -/
def SleepPc.Holds : SleepPc → Prop
  | test _ => True
  | _ => False

/-- The steps of the process in `sleep_n_ticks( n )`, of the clock and of others. -/
inductive SleepStep (n : Int) : SleepState → SleepState → Prop
  | acquire {s : SleepState} (h : s.pc = .entry) : SleepStep n s { s with pc := .test s.ticks }
  | test {s : SleepState} {tickTmp : Nat} (h : s.pc = .test tickTmp) :
      SleepStep n s { s with pc := sleepTest n s tickTmp }
  | resume {s : SleepState} {tickTmp : Nat} (h : s.pc = .asleep tickTmp true) :
      SleepStep n s { s with pc := .test tickTmp }
  | clock {s : SleepState} (h : ¬s.pc.Holds) :
      SleepStep n s
        { s with ticks := (s.ticks + 1) % 2 ^ 64, counted := s.counted + 1, pc := s.pc.wakeup }
  | wakeup {s : SleepState} : SleepStep n s { s with pc := s.pc.wakeup }
  | kill {s : SleepState} : SleepStep n s { s with killed := true, pc := s.pc.wakeup }

/-- The number of ticks that `sleep_from_tv` asks for, with the constants of the machine and what
`usec_to_time_stamp` gives. -/
def tvTicks (mainFrequence cyclesPerTick tvSec usecCycles : Nat) : Nat :=
  (tvSec * mainFrequence % 2 ^ 64 + usecCycles) % 2 ^ 64 / cyclesPerTick

/-- A run of `sleep_from_tv`, from `ticks` on the counter to a state. -/
def SleepFromTv (mainFrequence cyclesPerTick tvSec usecCycles ticks : Nat) (killed : Bool)
    (s : SleepState) : Prop :=
  let n := toInt (tvTicks mainFrequence cyclesPerTick tvSec usecCycles)
  Relation.ReflTransGen (SleepStep n) (sleepNTicks n ticks killed) s

/-- The ticks that a time of `tvSec` seconds and `tvUsec` microseconds takes, rounded up. -/
def requestedTicks (mainFrequence cyclesPerTick tvSec tvUsec : Nat) : Nat :=
  ((tvSec * 1000000 + tvUsec) * mainFrequence + (1000000 * cyclesPerTick - 1)) /
    (1000000 * cyclesPerTick)

section

variable {n : Int} {s s' : SleepState} {t₀ : Nat} {killed : Bool}

/-- What holds of a sleep that was entered with `t₀` ticks. -/
structure SleepInv (n : Int) (t₀ : Nat) (s : SleepState) : Prop where
  ticks : s.ticks = (t₀ + s.counted) % 2 ^ 64
  start : ∀ tickTmp, s.pc = .test tickTmp ∨ (∃ woken, s.pc = .asleep tickTmp woken) →
    ∃ c ≤ s.counted, tickTmp = (t₀ + c) % 2 ^ 64
  slept : s.pc = .done 0 → n ≤ s.counted

theorem SleepInv.enter (ht : t₀ < 2 ^ 64) : SleepInv n t₀ (sleepNTicks n t₀ killed) := by
  refine ⟨?_, ?_, ?_⟩
  · simp only [sleepNTicks]
    omega
  · rintro tickTmp (h | ⟨woken, h⟩) <;> simp only [sleepNTicks] at h <;> split at h <;> cases h
  · intro h
    simp only [sleepNTicks] at h ⊢
    split at h <;> cases h

/-- A wakeup says nothing new. -/
theorem SleepInv.wakeup (h : SleepInv n t₀ s) {s' : SleepState}
    (hticks : s'.ticks = (t₀ + s'.counted) % 2 ^ 64) (hc : s.counted ≤ s'.counted)
    (hpc : s'.pc = s.pc.wakeup) : SleepInv n t₀ s' := by
  refine ⟨hticks, ?_, ?_⟩
  · intro tickTmp hp
    rw [hpc] at hp
    obtain ⟨c, hle, hstart⟩ := h.start tickTmp (by
      cases hs : s.pc with
      | entry => simp [hs, SleepPc.wakeup] at hp
      | test t =>
        simp only [hs, SleepPc.wakeup] at hp
        simpa using hp
      | asleep t woken =>
        simp only [hs, SleepPc.wakeup] at hp
        obtain h | ⟨w, h⟩ := hp
        · cases h
        · cases h
          exact .inr ⟨woken, rfl⟩
      | done ret => simp [hs, SleepPc.wakeup] at hp)
    exact ⟨c, hle.trans hc, hstart⟩
  · intro hd
    have hdone : s.pc = .done 0 := by
      rw [hpc] at hd
      cases hs : s.pc with
      | done ret => rwa [hs] at hd
      | _ => rw [hs] at hd; cases hd
    have := h.slept hdone
    omega

theorem SleepInv.step (h : SleepInv n t₀ s) (hs : SleepStep n s s') : SleepInv n t₀ s' := by
  cases hs with
  | acquire hpc =>
    refine ⟨h.ticks, fun tickTmp hp => ?_, fun hd => by cases hd⟩
    rcases hp with hp | ⟨woken, hp⟩
    · cases hp
      exact ⟨s.counted, Nat.le_refl _, h.ticks⟩
    · cases hp
  | @test tickTmp hpc =>
    obtain ⟨c, hle, hstart⟩ := h.start tickTmp (.inl hpc)
    have hticks := h.ticks
    refine ⟨hticks, fun t hp => ?_, fun hd => ?_⟩
    · simp only [sleepTest] at hp
      obtain rfl : t = tickTmp := by
        split at hp
        · split at hp
          · simp at hp
          · simpa [eq_comm] using hp
        · simp at hp
      exact ⟨c, hle, hstart⟩
    · simp only [sleepTest] at hd ⊢
      split at hd
      · split at hd <;> cases hd
      · omega
  | @resume tickTmp hpc =>
    refine ⟨h.ticks, fun t hp => ?_, fun hd => by cases hd⟩
    rcases hp with hp | ⟨woken, hp⟩
    · cases hp
      exact h.start _ (.inr ⟨true, hpc⟩)
    · cases hp
  | clock hfree =>
    refine h.wakeup ?_ (Nat.le_succ _) rfl
    have := h.ticks
    simp only
    omega
  | wakeup => exact h.wakeup h.ticks (Nat.le_refl _) rfl
  | kill => exact h.wakeup h.ticks (Nat.le_refl _) rfl

theorem SleepInv.run (h : SleepInv n t₀ s) (hs : Relation.ReflTransGen (SleepStep n) s s') :
    SleepInv n t₀ s' := by
  induction hs with
  | refl => exact h
  | tail _ hstep ih => exact ih.step hstep

/-- Ticks may come one at a time, each with a test of the loop. -/
theorem reaches_test {k : Nat} (ht : t₀ < 2 ^ 64) (hk : k < 2 ^ 64) (hn : (k : Int) ≤ n) :
    Relation.ReflTransGen (SleepStep n) (sleepNTicks n t₀ false)
      ⟨(t₀ + k) % 2 ^ 64, k, false, .test t₀⟩ := by
  have hnonneg : ¬n < 0 := by omega
  induction k with
  | zero =>
    have hacquire := SleepStep.acquire (n := n) (s := sleepNTicks n t₀ false) (if_neg hnonneg)
    rw [Nat.add_zero, Nat.mod_eq_of_lt ht]
    exact .single hacquire
  | succ k ih =>
    have hasleep : sleepTest n ⟨(t₀ + k) % 2 ^ 64, k, false, .test t₀⟩ t₀ =
        .asleep t₀ false := by
      rw [sleepTest, if_pos (by simp only; omega), if_neg (by simp)]
    have hstep := SleepStep.test (n := n) (s := ⟨(t₀ + k) % 2 ^ 64, k, false, .test t₀⟩) rfl
    rw [hasleep] at hstep
    have hclock := SleepStep.clock (n := n)
      (s := ⟨(t₀ + k) % 2 ^ 64, k, false, .asleep t₀ false⟩) id
    have hresume := SleepStep.resume (n := n)
      (s := ⟨((t₀ + k) % 2 ^ 64 + 1) % 2 ^ 64, k + 1, false, .asleep t₀ true⟩) rfl
    have hticks : ((t₀ + k) % 2 ^ 64 + 1) % 2 ^ 64 = (t₀ + (k + 1)) % 2 ^ 64 := by omega
    have hrun := (((ih (by omega) (by omega)).tail hstep).tail hclock).tail hresume
    simp only [hticks] at hrun
    exact hrun

/-- A sleep may end as soon as it has lasted the ticks it was asked for. -/
theorem reaches_done (ht : t₀ < 2 ^ 64) (hn : 0 ≤ n) (hlt : n < 2 ^ 64) :
    Relation.ReflTransGen (SleepStep n) (sleepNTicks n t₀ false)
      ⟨(t₀ + n.toNat) % 2 ^ 64, n.toNat, false, .done 0⟩ := by
  have hdone :
      sleepTest n ⟨(t₀ + n.toNat) % 2 ^ 64, n.toNat, false, .test t₀⟩ t₀ = .done 0 := by
    rw [sleepTest, if_neg (by simp only; omega)]
  have hstep := SleepStep.test (n := n)
    (s := ⟨(t₀ + n.toNat) % 2 ^ 64, n.toNat, false, .test t₀⟩) rfl
  rw [hdone] at hstep
  exact (reaches_test ht (by omega) (by omega)).tail hstep

/-- A negative count is refused. -/
theorem not_done_of_neg (hn : n < 0)
    (hs : Relation.ReflTransGen (SleepStep n) (sleepNTicks n t₀ killed) s) :
    s.pc = .done (-1) := by
  induction hs with
  | refl => exact if_pos hn
  | tail _ hstep ih =>
    cases hstep with
    | acquire hpc => rw [ih] at hpc; cases hpc
    | test hpc => rw [ih] at hpc; cases hpc
    | resume hpc => rw [ih] at hpc; cases hpc
    | clock | wakeup | kill => simp only [ih, SleepPc.wakeup]

/-- In which cases the sleep lasts for `m` ticks whatever comes between its steps. -/
theorem sleeps_at_least_iff (n : Int) (m : Nat) (hlt : n < 2 ^ 64) :
    (∀ t₀ killed s, t₀ < 2 ^ 64 →
        Relation.ReflTransGen (SleepStep n) (sleepNTicks n t₀ killed) s →
        s.pc = .done 0 → m ≤ s.counted) ↔ n < 0 ∨ (m : Int) ≤ n := by
  constructor
  · intro H
    by_contra hcon
    rw [not_or, not_lt, not_le] at hcon
    have := H 0 false _ (by decide) (reaches_done (by decide) hcon.1 hlt) rfl
    simp only at this
    omega
  · rintro (hneg | hle) t₀ killed s ht hs hd
    · rw [not_done_of_neg hneg hs] at hd
      cases hd
    · have := ((SleepInv.enter ht).run hs).slept hd
      omega

theorem div_round_up {c p : Nat} (hp : 0 < p) : (c + (p - 1)) / p = if p ∣ c then c / p
    else c / p + 1 := by
  obtain ⟨q, r, hr, rfl⟩ : ∃ q r, r < p ∧ c = p * q + r :=
    ⟨c / p, c % p, Nat.mod_lt c hp, (Nat.div_add_mod c p).symm⟩
  rw [Nat.add_assoc, Nat.mul_add_div hp, Nat.mul_add_div hp, Nat.div_eq_of_lt hr, Nat.add_zero]
  have hdvd : p ∣ p * q + r ↔ p ∣ r := Nat.dvd_add_right (Nat.dvd_mul_right p q)
  rcases Nat.eq_zero_or_pos r with rfl | hpos
  · rw [if_pos (hdvd.mpr (Nat.dvd_zero p)), Nat.zero_add, Nat.div_eq_of_lt (by omega),
      Nat.add_zero]
  · rw [if_neg (mt hdvd.mp (Nat.not_dvd_of_pos_of_lt hpos hr)),
      show r + (p - 1) = p + (r - 1) by omega, Nat.add_div_left _ hp,
      Nat.div_eq_of_lt (by omega)]

/-- The count of ticks is not rounded down, or comes out negative as an `int`. -/
theorem le_toInt_iff {c p : Nat} (hp : 0 < p) :
    toInt (c / p) < 0 ∨ (((c + (p - 1)) / p : Nat) : Int) ≤ toInt (c / p) ↔
      2 ^ 31 ≤ c / p % 2 ^ 32 ∨ p ∣ c ∧ c / p < 2 ^ 31 := by
  rw [div_round_up hp]
  unfold toInt
  generalize c / p = q
  by_cases hdvd : p ∣ c
  · rw [if_pos hdvd]
    split <;> omega
  · rw [if_neg hdvd]
    split <;> omega

/-- The microseconds and the cycles are both exact, so the ticks asked for are the cycles
rounded up. -/
theorem requestedTicks_eq {freq cpt sec usec cycles : Nat} (hcpt : 0 < cpt)
    (hexact : cycles * 1000000 = usec * freq) :
    requestedTicks freq cpt sec usec = (sec * freq + cycles + (cpt - 1)) / cpt := by
  have hcycles : (sec * 1000000 + usec) * freq = 1000000 * (sec * freq + cycles) := by
    calc (sec * 1000000 + usec) * freq = 1000000 * (sec * freq) + usec * freq := by ring
      _ = 1000000 * (sec * freq + cycles) := by rw [← hexact]; ring
  have hround : (1000000 * (sec * freq + cycles) + (1000000 * cpt - 1)) / 1000000 =
      sec * freq + cycles + (cpt - 1) := by omega
  rw [requestedTicks, hcycles, ← Nat.div_div_eq_div_mul, hround]

/-- `sleep_from_tv` lasts as long as requested in all runs if and only if the cycles are whole ticks
and their number fits into an `int`, or the number comes out negative and the call is refused. -/
theorem sleepFromTv_lasts_iff (mainFrequence cyclesPerTick : Nat) (usecToTimeStamp : Nat → Nat)
    (tvSec tvUsec : Nat) (hcpt : 0 < cyclesPerTick)
    (hexact : usecToTimeStamp tvUsec * 1000000 = tvUsec * mainFrequence)
    (hfit : tvSec * mainFrequence + usecToTimeStamp tvUsec < 2 ^ 64) :
    (∀ ticks killed s, ticks < 2 ^ 64 →
        SleepFromTv mainFrequence cyclesPerTick tvSec (usecToTimeStamp tvUsec) ticks killed s →
        s.pc = .done 0 →
        requestedTicks mainFrequence cyclesPerTick tvSec tvUsec ≤ s.counted) ↔
      2 ^ 31 ≤ (tvSec * mainFrequence + usecToTimeStamp tvUsec) / cyclesPerTick % 2 ^ 32 ∨
        cyclesPerTick ∣ tvSec * mainFrequence + usecToTimeStamp tvUsec ∧
          (tvSec * mainFrequence + usecToTimeStamp tvUsec) / cyclesPerTick < 2 ^ 31 := by
  have hn : tvTicks mainFrequence cyclesPerTick tvSec (usecToTimeStamp tvUsec) =
      (tvSec * mainFrequence + usecToTimeStamp tvUsec) / cyclesPerTick := by
    rw [tvTicks, Nat.mod_eq_of_lt (show tvSec * mainFrequence < 2 ^ 64 by omega),
      Nat.mod_eq_of_lt hfit]
  have hlt : ∀ q, toInt q < 2 ^ 64 := by
    intro q
    unfold toInt
    split <;> omega
  rw [requestedTicks_eq hcpt hexact, ← le_toInt_iff hcpt, ← sleeps_at_least_iff _ _ (hlt _),
    ← hn]
  rfl

/-- With a tick of a million cycles a time of three ticks is slept. -/
theorem sleepFromTv_lasts_sample : requestedTicks 10000000 1000000 0 300000 = 3 ∧
    ∀ ticks killed s, ticks < 2 ^ 64 →
      SleepFromTv 10000000 1000000 0 (300000 * 10) ticks killed s → s.pc = .done 0 →
      requestedTicks 10000000 1000000 0 300000 ≤ s.counted :=
  ⟨by decide, (sleepFromTv_lasts_iff 10000000 1000000 (· * 10) 0 300000 (by decide) (by decide)
    (by decide)).mpr
    (.inr ⟨by decide, by decide⟩)⟩

/-- A time shorter than a tick is not slept at all. -/
theorem sleepFromTv_none : ¬∀ ticks killed s, ticks < 2 ^ 64 →
    SleepFromTv 10000000 1000000 0 (50000 * 10) ticks killed s → s.pc = .done 0 →
    requestedTicks 10000000 1000000 0 50000 ≤ s.counted := by
  intro H
  have hrun : SleepFromTv 10000000 1000000 0 (50000 * 10) 0 false ⟨0, 0, false, .done 0⟩ := by
    exact reaches_done (n := toInt (tvTicks 10000000 1000000 0 (50000 * 10))) (by decide)
      (by decide) (by decide)
  exact absurd (H 0 false _ (by decide) hrun rfl) (by decide)

end

end OsKernel.Tm

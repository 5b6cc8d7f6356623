import Mathlib.Data.List.Nodup
import OsKernel.Hsai.SpinLock

/-! Spin locks shared by several processors.  Each exchange on `_locked` is one step, and the steps
of the processors come in any order.  On each processor the depth of interrupt-off is the number of
locks that it holds or waits for, so no interrupt handler runs there while it does. -/

namespace OsKernel.Hsai

/-- The processors `κ` and the locks `ι`.  `waits` is the lock whose exchange a processor repeats.
`held` and `ena` are history: the locks whose `acquire` has returned and that have not been
released, and whether interrupts were on when the processor last called `acquire` at depth zero. -/
structure Smp (κ ι : Type) where
  cpu : κ → VirtualCpu
  locked : ι → Option κ
  waits : κ → Option ι
  held : κ → List ι
  ena : κ → Bool

namespace Smp

variable {κ ι : Type} [DecidableEq κ] [DecidableEq ι] (s : Smp κ ι)

/-- `SpinLock::acquire` up to its first exchange. -/
def acquire (c : κ) (l : ι) : Except Fault (Smp κ ι) :=
  if s.locked l = some c then .error (.panic "lock is already held.")
  else .ok
    { s with
      cpu := Function.update s.cpu c (s.cpu c).pushInterruptOff
      waits := Function.update s.waits c (some l)
      ena :=
        if (s.cpu c).numOff = 0 then Function.update s.ena c (s.cpu c).interruptible else s.ena }

/-- One exchange of the loop in `acquire`. -/
def spin (c : κ) (l : ι) : Smp κ ι :=
  if s.locked l = none then
    { s with
      locked := Function.update s.locked l (some c)
      waits := Function.update s.waits c none
      held := Function.update s.held c (l :: s.held c) }
  else s

/-- `SpinLock::release`: no other processor changes `_locked` of a lock that this one holds, so the
first exchange succeeds. -/
def release (c : κ) (l : ι) : Except Fault (Smp κ ι) :=
  if s.locked l = some c then do
    let cpu ← (s.cpu c).popInterruptOff
    return { s with
      locked := Function.update s.locked l none
      cpu := Function.update s.cpu c cpu
      held := Function.update s.held c ((s.held c).erase l) }
  else .error (.panic "lock is already released.")

/-- `_interrupt_on` and `_interrupt_off` outside of the locks, and traps. -/
def setInterruptible (c : κ) (on : Bool) : Smp κ ι :=
  { s with cpu := Function.update s.cpu c { s.cpu c with interruptible := on } }

/-- A step of one of the processors. -/
inductive Step : Smp κ ι → Except Fault (Smp κ ι) → Prop
  | acquire {s : Smp κ ι} {c : κ} {l : ι} (hidle : s.waits c = none) : Step s (s.acquire c l)
  | spin {s : Smp κ ι} {c : κ} {l : ι} (hwaits : s.waits c = some l) : Step s (.ok (s.spin c l))
  | release {s : Smp κ ι} {c : κ} {l : ι} (hidle : s.waits c = none) : Step s (s.release c l)
  | interrupts {s : Smp κ ι} {c : κ} {on : Bool} (hidle : s.waits c = none)
      (hoff : (s.cpu c).numOff = 0) : Step s (.ok (s.setInterruptible c on))

/-- All locks are free, and no processor has switched interrupts off. -/
structure Init (s : Smp κ ι) : Prop where
  numOff : ∀ c, (s.cpu c).numOff = 0
  locked : ∀ l, s.locked l = none
  waits : ∀ c, s.waits c = none
  held : ∀ c, s.held c = []

inductive Reached : Smp κ ι → Prop
  | init {s : Smp κ ι} (h : s.Init) : Reached s
  | step {s s' : Smp κ ι} (hr : Reached s) (h : Step s (.ok s')) : Reached s'

/-- What one processor knows of itself. -/
structure CpuInv (cpu : VirtualCpu) (held : List ι) (waits : Option ι) (ena : Bool) : Prop where
  nodup : held.Nodup
  depth : cpu.numOff = held.length + waits.toList.length
  off : 0 < cpu.numOff → cpu.interruptible = false
  ena : 0 < cpu.numOff → cpu.intEna = ena
  fresh : ∀ l, waits = some l → l ∉ held

structure Inv (s : Smp κ ι) : Prop where
  cpu : ∀ c, CpuInv (s.cpu c) (s.held c) (s.waits c) (s.ena c)
  locked : ∀ l c, s.locked l = some c ↔ l ∈ s.held c

omit [DecidableEq ι] [DecidableEq κ] in
theorem Init.inv (h : s.Init) : s.Inv := by
  refine ⟨fun c => ⟨?_, ?_, fun hpos => ?_, fun hpos => ?_, fun l hl => ?_⟩, fun l c => ?_⟩
  · rw [h.held]
    exact List.nodup_nil
  · rw [h.numOff, h.held, h.waits]
    rfl
  · rw [h.numOff] at hpos
    omega
  · rw [h.numOff] at hpos
    omega
  · rw [h.waits] at hl
    cases hl
  · rw [h.locked, h.held]
    simp

variable {s} {c : κ} {l : ι}

omit [DecidableEq ι] in
/-- `acquire` of a lock that is not held by the caller. -/
theorem Inv.acquire_ok (I : s.Inv) (hidle : s.waits c = none) (hl : l ∉ s.held c) :
    ∃ s', s.acquire c l = .ok s' ∧ s'.Inv := by
  refine ⟨_, if_neg (by rw [I.locked]; exact hl), fun d => ?_, I.locked⟩
  have hd := I.cpu d
  by_cases hdc : d = c
  · subst hdc
    have hdepth := hd.depth
    rw [hidle] at hdepth
    simp only [Function.update_self]
    refine ⟨hd.nodup, ?_, fun _ => rfl, fun _ => ?_, fun l' hl' => ?_⟩
    · simpa [VirtualCpu.pushInterruptOff] using hdepth
    · by_cases hzero : (s.cpu d).numOff = 0
      · simp [VirtualCpu.pushInterruptOff, hzero]
      · simpa [VirtualCpu.pushInterruptOff, hzero] using hd.ena (by omega)
    · cases hl'
      exact hl
  · have hena : (if (s.cpu c).numOff = 0 then Function.update s.ena c (s.cpu c).interruptible
        else s.ena) d = s.ena d := by
      split
      · exact Function.update_of_ne hdc ..
      · rfl
    simp only [Function.update_of_ne hdc, hena]
    exact hd

/-- One exchange. -/
theorem Inv.spin (I : s.Inv) (hwaits : s.waits c = some l) : (s.spin c l).Inv := by
  unfold Smp.spin
  split
  · rename_i hfree
    refine ⟨fun d => ?_, fun l' d => ?_⟩
    · have hd := I.cpu d
      by_cases hdc : d = c
      · subst hdc
        have hdepth := hd.depth
        rw [hwaits] at hdepth
        simp only [Function.update_self]
        refine ⟨List.nodup_cons.mpr ⟨hd.fresh l hwaits, hd.nodup⟩, ?_, hd.off, hd.ena,
          fun _ h => nomatch h⟩
        simpa using hdepth
      · simp only [Function.update_of_ne hdc]
        exact hd
    · simp only [Function.update_apply]
      by_cases hl' : l' = l
      · subst hl'
        rw [if_pos rfl]
        have hnone : ∀ e, l' ∉ s.held e := fun e he => by
          have := (I.locked l' e).mpr he
          rw [hfree] at this
          cases this
        by_cases hdc : d = c
        · simp [hdc]
        · simp [hdc, hnone d, Ne.symm hdc]
      · rw [if_neg hl', I.locked]
        by_cases hdc : d = c
        · simp [hdc, hl']
        · simp [hdc]
  · exact I

/-- `release` of a lock that the caller holds. -/
theorem Inv.release_ok (I : s.Inv) (hidle : s.waits c = none) (hl : l ∈ s.held c) :
    ∃ s', s.release c l = .ok s' ∧ s'.Inv ∧ s'.held c = (s.held c).erase l ∧
      (s'.cpu c).interruptible = (decide ((s.held c).erase l = []) && s.ena c) := by
  have hc := I.cpu c
  have hlocked : s.locked l = some c := (I.locked l c).mpr hl
  have hlen := List.length_pos_of_mem hl
  have herase := List.length_erase_of_mem hl
  have hdepth := hc.depth
  rw [hidle] at hdepth
  simp only [Option.toList_none, List.length_nil, Nat.add_zero] at hdepth
  have hpop : (s.cpu c).popInterruptOff = .ok
      { numOff := (s.cpu c).numOff - 1
        intEna := (s.cpu c).intEna
        interruptible := decide ((s.cpu c).numOff - 1 = 0) && (s.cpu c).intEna } := by
    rw [VirtualCpu.popInterruptOff, if_neg (by simp [hc.off (by omega)]), if_neg (by omega)]
  have hrun : s.release c l = .ok
      { s with
        locked := Function.update s.locked l none
        cpu := Function.update s.cpu c
          { numOff := (s.cpu c).numOff - 1
            intEna := (s.cpu c).intEna
            interruptible := decide ((s.cpu c).numOff - 1 = 0) && (s.cpu c).intEna }
        held := Function.update s.held c ((s.held c).erase l) } := by
    rw [Smp.release, if_pos hlocked, hpop]
    rfl
  refine ⟨_, hrun, ⟨fun d => ?_, fun l' d => ?_⟩, Function.update_self .., ?_⟩
  · have hd := I.cpu d
    by_cases hdc : d = c
    · subst hdc
      simp only [Function.update_self]
      refine ⟨hd.nodup.erase l, ?_, fun hpos => ?_, fun _ => hd.ena (by omega),
        fun l' hl' => ?_⟩
      · rw [hidle, herase, hdepth]
        rfl
      · simp only at hpos ⊢
        rw [decide_eq_false (by omega), Bool.false_and]
      · rw [hidle] at hl'
        cases hl'
    · simp only [Function.update_of_ne hdc]
      exact hd
  · simp only [Function.update_apply]
    by_cases hl' : l' = l
    · subst hl'
      rw [if_pos rfl]
      by_cases hdc : d = c
      · simp [hdc, hc.nodup.mem_erase_iff]
      · have hnot : l' ∉ s.held d := fun hd => by
          have := (I.locked l' d).mpr hd
          rw [hlocked] at this
          exact hdc (Option.some.inj this).symm
        simp [hdc, hnot]
    · rw [if_neg hl', I.locked]
      by_cases hdc : d = c
      · simp [hdc, hc.nodup.mem_erase_iff, hl']
      · simp [hdc]
  · simp only [Function.update_self]
    rw [hc.ena (by omega)]
    simp only [← List.length_eq_zero_iff, herase, hdepth]

theorem Inv.step {r : Except Fault (Smp κ ι)} (I : s.Inv) (h : Step s r) {s' : Smp κ ι}
    (hr : r = .ok s') : s'.Inv := by
  cases h with
  | @acquire c l hidle =>
    by_cases hl : l ∈ s.held c
    · rw [Smp.acquire, if_pos ((I.locked l c).mpr hl)] at hr
      cases hr
    · obtain ⟨s₁, hrun, I'⟩ := I.acquire_ok hidle hl
      rw [hrun] at hr
      cases hr
      exact I'
  | spin hwaits =>
    cases hr
    exact I.spin hwaits
  | @release c l hidle =>
    by_cases hl : l ∈ s.held c
    · obtain ⟨s₁, hrun, I', -⟩ := I.release_ok hidle hl
      rw [hrun] at hr
      cases hr
      exact I'
    · rw [Smp.release, if_neg (fun h => hl ((I.locked l c).mp h))] at hr
      cases hr
  | @interrupts c on hidle hoff =>
    cases hr
    refine ⟨fun d => ?_, I.locked⟩
    have hd := I.cpu d
    by_cases hdc : d = c
    · subst hdc
      simp only [setInterruptible, Function.update_self]
      exact ⟨hd.nodup, hd.depth, fun hpos => absurd hoff (Nat.ne_of_gt hpos),
        fun hpos => absurd hoff (Nat.ne_of_gt hpos), hd.fresh⟩
    · simp only [setInterruptible, Function.update_of_ne hdc]
      exact hd

theorem Reached.inv (hr : Reached s) : s.Inv := by
  induction hr with
  | init h => exact h.inv
  | step _ h ih => exact ih.step h rfl

/-- What the locks promise in a state. -/
structure LocksSafe (s : Smp κ ι) : Prop where
  /-- No two processors hold one lock. -/
  exclusive : ∀ l c d, l ∈ s.held c → l ∈ s.held d → c = d
  /-- No interrupt is taken by a processor that holds a lock or waits for one. -/
  masked : ∀ c, s.held c ≠ [] ∨ s.waits c ≠ none → (s.cpu c).interruptible = false
  /-- `acquire` fails just for a lock that the caller holds. -/
  acquires : ∀ c l, s.waits c = none →
    ((∃ s', s.acquire c l = .ok s') ↔ l ∉ s.held c)
  /-- An exchange gets the lock just where no processor holds it. -/
  gets : ∀ c l, s.waits c = some l → (l ∈ (s.spin c l).held c ↔ ∀ d, l ∉ s.held d)
  /-- `release` fails just for a lock that the caller does not hold.  With the last lock the
  interrupt flag from before the first comes back. -/
  releases : ∀ c l, s.waits c = none →
    ((∃ s', s.release c l = .ok s') ↔ l ∈ s.held c) ∧
    ∀ s', s.release c l = .ok s' →
      (s'.cpu c).interruptible = (decide ((s.held c).erase l = []) && s.ena c)

/-- In every order of the steps of any number of processors the locks keep what they promise. -/
theorem spin_locks_safe (hr : Reached s) : LocksSafe s := by
  have I := hr.inv
  refine ⟨fun l c d hc hd => ?_, fun c h => ?_, fun c l hidle => ?_, fun c l hwaits => ?_,
    fun c l hidle => ⟨⟨?_, fun hl => ?_⟩, fun s' hrun => ?_⟩⟩
  · have := (I.locked l c).mpr hc
    rw [(I.locked l d).mpr hd] at this
    exact (Option.some.inj this).symm
  · apply (I.cpu c).off
    rw [(I.cpu c).depth]
    rcases h with h | h
    · have := List.length_pos_of_ne_nil h
      omega
    · obtain ⟨l, hl⟩ := Option.ne_none_iff_exists'.mp h
      rw [hl]
      simp
  · constructor
    · rintro ⟨s', hrun⟩ hl
      rw [Smp.acquire, if_pos ((I.locked l c).mpr hl)] at hrun
      cases hrun
    · intro hl
      obtain ⟨s', hrun, -⟩ := I.acquire_ok hidle hl
      exact ⟨s', hrun⟩
  · unfold Smp.spin
    split
    · rename_i hfree
      refine ⟨fun _ d hd => ?_, fun _ => by simp⟩
      have := (I.locked l d).mpr hd
      rw [hfree] at this
      cases this
    · rename_i hbusy
      obtain ⟨d, hd⟩ := Option.ne_none_iff_exists'.mp hbusy
      exact ⟨fun hin => absurd hin ((I.cpu c).fresh l hwaits),
        fun hno => absurd ((I.locked l d).mp hd) (hno d)⟩
  · rintro ⟨s', hrun⟩
    by_contra hl
    rw [Smp.release, if_neg (fun h => hl ((I.locked l c).mp h))] at hrun
    cases hrun
  · obtain ⟨s', hrun, -⟩ := I.release_ok hidle hl
    exact ⟨s', hrun⟩
  · by_cases hl : l ∈ s.held c
    · obtain ⟨s₁, hrun₁, -, -, hint⟩ := I.release_ok hidle hl
      rw [hrun₁] at hrun
      cases hrun
      exact hint
    · rw [Smp.release, if_neg (fun h => hl ((I.locked l c).mp h))] at hrun
      cases hrun

/-- Two processors and one lock, with interrupts on. -/
def sampleSmp : Smp Bool Unit where
  cpu _ := ⟨0, false, true⟩
  locked _ := none
  waits _ := none
  held _ := []
  ena _ := false

/-- While one processor holds the lock the exchange of the other fails; after the release it
gets it. -/
theorem spin_locks_safe_sample : ∃ s s' : Smp Bool Unit,
    s.held true = [()] ∧ s.waits false = some () ∧ () ∉ (s.spin false ()).held false ∧
    LocksSafe s ∧
    s'.held true = [] ∧ (s'.cpu true).interruptible = true ∧ s'.held false = [()] ∧
      LocksSafe s' := by
  have h₀ : Reached sampleSmp :=
    .init ⟨fun _ => rfl, fun _ => rfl, fun _ => rfl, fun _ => rfl⟩
  obtain ⟨a, ha⟩ := ((spin_locks_safe h₀).acquires true () rfl).mpr List.not_mem_nil
  have h₁ : Reached a := h₀.step (ha ▸ .acquire rfl)
  cases ha
  have h₂ := h₁.step (.spin (c := true) (l := ()) rfl)
  obtain ⟨b, hb⟩ := ((spin_locks_safe h₂).acquires false () rfl).mpr List.not_mem_nil
  have h₃ : Reached b := h₂.step (hb ▸ .acquire rfl)
  cases hb
  have S₃ := spin_locks_safe h₃
  have hbusy := mt (S₃.gets false () rfl).mp fun hno => hno true List.mem_cons_self
  have h₄ := h₃.step (.spin (c := false) (l := ()) rfl)
  obtain ⟨d, hd⟩ := ((spin_locks_safe h₄).releases true () rfl).1.mpr List.mem_cons_self
  have h₅ : Reached d := h₄.step (hd ▸ .release rfl)
  cases hd
  have h₆ := h₅.step (.spin (c := false) (l := ()) rfl)
  exact ⟨_, _, rfl, rfl, hbusy, S₃, rfl, rfl, rfl, spin_locks_safe h₆⟩

end Smp

end OsKernel.Hsai

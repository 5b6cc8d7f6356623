import OsKernel.Pm.Reap

/-! A parent asleep in `wait( -1 )` and its zombie children.  `exit_proc` wakes the parent of the
process that exits; `reparent` hands zombies to the init process and wakes nobody. -/

namespace OsKernel.Pm

namespace Pool

variable {n : Nat} (s : Pool n)

/-- The process `p` sleeps on its own channel in `wait( -1 )`. -/
def AsleepInWait (p : Fin n) : Prop :=
  (s.procs p).state = .sleeping ∧ (s.procs p).chan = some p ∧
    ∃ childPid ≤ 0, (s.procs p).call = .wait childPid

/-- The process `p` sleeps in `wait( -1 )` and has a child that it could return. -/
def LostWakeup (p : Fin n) : Prop :=
  s.AsleepInWait p ∧ ∃ z, (s.procs z).parent = some p ∧ (s.procs z).state = .zombie

/-- The zombies that the exit of `p` hands to the init process meet it awake. -/
def HandsOver (init p : Fin n) : Prop :=
  (∀ z, (s.procs z).parent = some p → (s.procs z).state ≠ .zombie) ∨
    (s.procs p).parent = some init ∨ ¬ s.AsleepInWait init

end Pool

/-- The steps of `exit_proc` that lose no wakeup. -/
def wakesInit {n : Nat} (init : Fin n) (s : Pool n) : PoolEvent n → Prop
  | .exit p => s.HandsOver init p
  | .reap .. | .other => True

variable {n : Nat} {s s' : Pool n} {init : Fin n}

/-- No wakeup has been lost, and no process that can exit is its own parent. -/
structure Awake (init : Fin n) (s : Pool n) : Prop where
  none_lost : ∀ p, ¬ s.LostWakeup p
  parent_ne : ∀ p, p ≠ init → (s.procs p).parent ≠ some p

namespace Awake

theorem start : Awake init (Pool.start init) := by
  have hparent : ∀ p, ((Pool.start init).procs p).parent = none := by
    intro p
    simp only [Pool.start]
    split <;> rfl
  refine ⟨?_, ?_⟩
  · rintro p ⟨-, z, hz, -⟩
    rw [hparent] at hz
    cases hz
  · intro p _ hp
    rw [hparent] at hp
    cases hp

/-- A step that puts no process to sleep, makes no zombie and hands over no child. -/
theorem frame (h : Awake init s)
    (hasleep : ∀ p, s'.AsleepInWait p → s.AsleepInWait p)
    (hzombie : ∀ z, (s'.procs z).state = .zombie → (s.procs z).state = .zombie)
    (hparent : ∀ z, (s'.procs z).parent = (s.procs z).parent ∨ (s'.procs z).parent = none) :
    Awake init s' := by
  refine ⟨?_, ?_⟩
  · rintro p ⟨hp, z, hpar, hz⟩
    rcases hparent z with he | he
    · exact h.none_lost p ⟨hasleep p hp, z, he ▸ hpar, hzombie z hz⟩
    · rw [he] at hpar
      cases hpar
  · intro p hne hp
    rcases hparent p with he | he
    · exact h.parent_ne p hne (he ▸ hp)
    · rw [he] at hp
      cases hp

/-- A step that changes the process `p` alone. -/
theorem move (h : Awake init s) {p : Fin n} {f : Proc n → Proc n}
    (hasleep : (f (s.procs p)).state = .sleeping → (f (s.procs p)).chan = some p →
      (s.procs p).state = .sleeping ∧ (s.procs p).chan = some p ∧
        (f (s.procs p)).call = (s.procs p).call)
    (hzombie : (f (s.procs p)).state = .zombie → (s.procs p).state = .zombie)
    (hparent : (f (s.procs p)).parent = (s.procs p).parent ∨ (f (s.procs p)).parent = none) :
    Awake init (s.set p f) := by
  refine h.frame ?_ ?_ ?_
  · rintro q ⟨hstate, hchan, c, hc, hcall⟩
    rw [Pool.set_procs] at hstate hchan hcall
    split at hstate
    · rename_i hq
      subst hq
      rw [if_pos rfl] at hchan hcall
      obtain ⟨h1, h2, h3⟩ := hasleep hstate hchan
      exact ⟨h1, h2, c, hc, h3 ▸ hcall⟩
    · rename_i hq
      rw [if_neg hq] at hchan hcall
      exact ⟨hstate, hchan, c, hc, hcall⟩
  · intro q hq
    rw [Pool.set_procs] at hq
    split at hq
    · rename_i hqp
      rw [hqp]
      exact hzombie hq
    · exact hq
  · intro q
    rw [Pool.set_procs]
    split
    · rename_i hqp
      rw [hqp]
      exact hparent
    · exact Or.inl rfl

theorem congr (h : Awake init s) (hprocs : s'.procs = s.procs) : Awake init s' := by
  refine h.frame (fun p hp => ?_) (fun z hz => hprocs ▸ hz) fun z => Or.inl (by rw [hprocs])
  simpa only [Pool.AsleepInWait, hprocs] using hp

/-- The call of a running process ends or goes on. -/
theorem call (h : Awake init s) {p : Fin n} {c : Call n} (hp : (s.procs p).state = .running) :
    Awake init (s.set p fun q => { q with call := c }) := by
  refine h.move (fun hs _ => ?_) id (Or.inl rfl)
  rw [show ({ s.procs p with call := c } : Proc n).state = .running from hp] at hs
  cases hs

theorem freeproc (h : Awake init s) {np : Fin n} : Awake init (s.set np Proc.freeproc) :=
  h.move (fun hs _ => by cases hs) (fun hz => by cases hz) (Or.inr rfl)

/-- A running process takes a child that is no zombie. -/
theorem adopt (h : Awake init s) {p np : Fin n} (hp : (s.procs p).state = .running)
    (hne : p ≠ np) : Awake init (s.set np fun q => { q with parent := some p }) := by
  have hstate : ∀ q, ((s.set np fun q => { q with parent := some p }).procs q).state =
      (s.procs q).state ∧ ((s.set np fun q => { q with parent := some p }).procs q).chan =
      (s.procs q).chan ∧ ((s.set np fun q => { q with parent := some p }).procs q).call =
      (s.procs q).call := by
    intro q
    rw [Pool.set_procs]
    split
    · rename_i hq
      rw [hq]
      exact ⟨rfl, rfl, rfl⟩
    · exact ⟨rfl, rfl, rfl⟩
  refine ⟨?_, ?_⟩
  · rintro r ⟨⟨hs, hchan, c, hc, hcall⟩, z, hpar, hz⟩
    rw [(hstate r).1] at hs
    rw [(hstate r).2.1] at hchan
    rw [(hstate r).2.2] at hcall
    rw [(hstate z).1] at hz
    rw [Pool.set_procs] at hpar
    split at hpar
    · rw [← Option.some.inj hpar, hp] at hs
      cases hs
    · exact h.none_lost r ⟨⟨hs, hchan, c, hc, hcall⟩, z, hpar, hz⟩
  · intro r hri hr
    rw [Pool.set_procs] at hr
    split at hr
    · rename_i hq
      exact hne ((Option.some.inj hr).trans hq)
    · exact h.parent_ne r hri hr

/-- A process with no zombie child goes to sleep. -/
theorem sleep (h : Awake init s) {p : Fin n}
    (hkids : ∀ childPid ≤ 0, (s.procs p).call = .wait childPid →
      ∀ z, (s.procs z).parent = some p → (s.procs z).state ≠ .zombie) :
    Awake init (s.set p fun q => { q with locked := true, chan := some p, state := .sleeping }) :=
      by
  refine ⟨?_, ?_⟩
  · rintro r ⟨⟨hs, hchan, c, hc, hcall⟩, z, hpar, hz⟩
    rw [Pool.set_procs] at hs hchan hcall hpar hz
    have hzp : z ≠ p := by
      rintro rfl
      rw [if_pos rfl] at hz
      cases hz
    rw [if_neg hzp] at hpar hz
    by_cases hr : r = p
    · rw [if_pos hr] at hcall
      exact hkids c hc hcall z (hr ▸ hpar) hz
    · rw [if_neg hr] at hs hchan hcall
      exact h.none_lost r ⟨⟨hs, hchan, c, hc, hcall⟩, z, hpar, hz⟩
  · intro r hri hr
    rw [Pool.set_procs] at hr
    split at hr
    · rename_i hq
      exact h.parent_ne p (hq ▸ hri) (hq ▸ hr)
    · exact h.parent_ne r hri hr

theorem exit (h : Awake init s) {p : Fin n} {code : BitVec 32} (hinit : p ≠ init)
    (hok : s.HandsOver init p) : Awake init (s.exit init p code) := by
  have hother : ∀ q, q ≠ p → (s.exit init p code).procs q = s.orphan init p (s.procs q) := by
    intro q hq
    simp [Pool.exit, hq]
  have hparent : ∀ q, ((s.exit init p code).procs q).parent =
      if (s.procs q).parent = some p then some init else (s.procs q).parent := by
    intro q
    by_cases hq : q = p
    · subst hq
      simp [Pool.exit, Pool.orphan]
    · rw [hother q hq]
      rfl
  -- A process asleep after the step was asleep before it, and not on the channel of the parent.
  have hasleep : ∀ r, (s.exit init p code).AsleepInWait r →
      r ≠ p ∧ s.AsleepInWait r ∧ (s.procs p).parent ≠ some r := by
    rintro r ⟨hs, hchan, c, hc, hcall⟩
    have hrp : r ≠ p := by
      rintro rfl
      simp [Pool.exit] at hs
    rw [hother r hrp] at hs hchan hcall
    simp only [Pool.orphan] at hs hchan hcall
    split at hs
    · cases hs
    · rename_i hw
      refine ⟨hrp, ⟨hs, hchan, c, hc, hcall⟩, fun hpar => hw ⟨hs, by simp [hpar], ?_⟩⟩
      rw [hchan, hpar]
  refine ⟨?_, ?_⟩
  · rintro r ⟨hr, z, hpar, hz⟩
    obtain ⟨-, hr', hne⟩ := hasleep r hr
    rw [hparent] at hpar
    by_cases hzp : z = p
    · rw [hzp, if_neg (h.parent_ne p hinit)] at hpar
      exact hne hpar
    · have hz' : (s.procs z).state = .zombie := by
        rw [hother z hzp] at hz
        simp only [Pool.orphan] at hz
        split at hz
        · cases hz
        · exact hz
      split at hpar
      · -- The zombie has come to the init process.
        rename_i hzpar
        obtain rfl := Option.some.inj hpar
        rcases hok with hno | hpi | hawake
        · exact hno z hzpar hz'
        · exact hne hpi
        · exact hawake hr'
      · exact h.none_lost r ⟨hr', z, hpar, hz'⟩
  · intro r hri hr
    rw [hparent] at hr
    split at hr
    · exact hri (Option.some.inj hr).symm
    · exact h.parent_ne r hri hr

theorem step (h : Awake init s) (hinv : PoolInv s) {e : PoolEvent n} (hok : wakesInit init s e)
    (hs : PoolStep init s e s') : Awake init s' := by
  cases hs with
  | alloc p np hrun hcall hnp hlock =>
    have hu := Pool.allocSlot_unused hnp
    have hne : p ≠ np := by
      rintro rfl
      rw [hrun.1] at hu
      cases hu
    have h1 : Awake init (s.set np fun q =>
        { q with pid := s.curPid, state := .used, call := .none }) :=
      h.move (fun hs _ => by cases hs) (fun hz => by cases hz) (Or.inl rfl)
    exact (h1.call (c := .fork np) (by simpa [hne] using hrun.1)).congr rfl
  | allocFail p np hrun hcall hnp hlock => exact h.freeproc.congr rfl
  | forkFail p np hrun hcall =>
    obtain ⟨hne, -⟩ := hinv.fork_slot hrun (by rw [hcall]; rfl)
    exact (h.freeproc.call (by simpa [hne] using hrun.1)).congr rfl
  | forkParent p np hrun hcall =>
    obtain ⟨hne, -⟩ := hinv.fork_slot hrun (by rw [hcall]; rfl)
    exact (h.adopt hrun.1 hne).call (by simpa [hne] using hrun.1)
  | forkRun p np hrun hcall =>
    obtain ⟨hne, -⟩ := hinv.fork_slot hrun (by rw [hcall]; rfl)
    have h1 : Awake init (s.set np fun q => { q with state := .runnable }) :=
      h.move (fun hs _ => by cases hs) (fun hz => by cases hz) (Or.inl rfl)
    exact h1.call (by simpa [hne] using hrun.1)
  | exit p code hrun hcall hinit hlocks => exact h.exit hinit hok
  | switch p hlock hstack => exact h.move (fun hs hc => ⟨hs, hc, rfl⟩) id (Or.inl rfl)
  | waitCall p childPid hrun hcall hchild => exact h.call hrun.1
  | reap p np childPid hrun hcall hnp hlocks =>
    have hne := hrun.ne_of_zombie (Pool.zombieKid_spec hnp).2.1
    exact (h.freeproc.call (by simpa [hne] using hrun.1)).congr rfl
  | waitFault p np childPid hrun hcall hnp hlocks => exact h.call hrun.1
  | waitNone p childPid hrun hcall hnp hlocks hend => exact h.call hrun.1
  | waitSleep p childPid hrun hcall hnp hlocks hkids hkilled =>
    refine h.sleep fun c hc hcall' z hz => ?_
    rw [hcall] at hcall'
    obtain rfl := Call.wait.inj hcall'
    -- The scan of the pool has met every child.
    have hmem : z ∈ s.kids p childPid := Pool.mem_kids.mpr ⟨Or.inl hc, hz⟩
    simpa using List.find?_eq_none.mp hnp z hmem
  | yield p hrun => exact h.move (fun hs _ => by cases hs) (fun hz => by cases hz) (Or.inl rfl)
  | schedule p hstate hlock =>
    exact h.move (fun hs _ => by cases hs) (fun hz => by cases hz) (Or.inl rfl)
  | kill => exact h.move (fun hs hc => ⟨hs, hc, rfl⟩) id (Or.inl rfl)

end Awake

/-- An exit that hands a zombie to an init process asleep in `wait( -1 )` loses a wakeup. -/
theorem exit_loses {p : Fin n} {code : BitVec 32} (hrun : s.Running p) (hinit : p ≠ init)
    (h : ¬ s.HandsOver init p) : (s.exit init p code).LostWakeup init := by
  simp only [Pool.HandsOver, not_or, not_forall, not_not] at h
  obtain ⟨⟨z, hpar, hz⟩, hpi, hstate, hchan, c, hc, hcall⟩ := h
  have hzp : z ≠ p := (hrun.ne_of_zombie hz).symm
  refine ⟨⟨?_, ?_, c, hc, ?_⟩, z, ?_, ?_⟩
  · simp [Pool.exit, Pool.orphan, hinit.symm, hstate, hchan, Ne.symm hpi]
  · simp [Pool.exit, Pool.orphan, hinit.symm, hchan]
  · simp [Pool.exit, Pool.orphan, hinit.symm, hcall]
  · simp [Pool.exit, Pool.orphan, hzp, hpar]
  · simp [Pool.exit, Pool.orphan, hzp, hz]

/-- No wakeup is lost in a run where every process that exits has no zombie child, or is a child of
the init process, or leaves its zombies to an init process that is awake.  The next exit that is
not so loses one. -/
theorem no_lost_wakeup {n : Nat} {init : Fin n} {s : Pool n}
    (h : PoolReach init (wakesInit init) s) :
    (∀ p, ¬ s.LostWakeup p) ∧
    ∀ p s', PoolStep init s (.exit p) s' → ¬ s.HandsOver init p → s'.LostWakeup init := by
  have hboth : PoolInv s ∧ Awake init s := by
    induction h with
    | start => exact ⟨PoolInv.start, Awake.start⟩
    | step _ hok hs ih => exact ⟨ih.1.step hs, ih.2.step ih.1 hok hs⟩
  refine ⟨hboth.2.none_lost, fun p s' hs hno => ?_⟩
  cases hs with
  | exit p code hrun hcall hinit hlocks => exact exit_loses hrun hinit hno

/-- The init process, its child, grandchild and great-grandchild run, and the init process has gone
to sleep in `wait( -1 )`. -/
def fourGenerations : Pool 4 :=
  let run := fun q : Proc 4 => { q with state := .running, onStack := true, chan := none }
  (((((((((Pool.start 0).forked 0 1).set 1 run).forked 1 2).set 2 run).forked 2 3).set 3 run).set 0
    fun q => { q with call := .wait (-1) }).set 0
    fun q => { q with locked := true, chan := some 0, state := .sleeping }).set 0
    fun q => { q with locked := false, onStack := false }

theorem fourGenerations_reach (ok : Pool 4 → PoolEvent 4 → Prop) (hok : ∀ s, ok s .other) :
    PoolReach 0 ok fourGenerations := by
  have h0 : PoolReach (0 : Fin 4) ok (Pool.start 0) := PoolReach.start
  have h1 := h0.forked hok 0 1 ⟨rfl, rfl, rfl⟩ rfl (by decide) rfl (by decide)
  have h2 := h1.step (hok _) (PoolStep.schedule 1 rfl rfl)
  have h3 := h2.forked hok 1 2 ⟨rfl, rfl, rfl⟩ rfl (by decide) rfl (by decide)
  have h4 := h3.step (hok _) (PoolStep.schedule 2 rfl rfl)
  have h5 := h4.forked hok 2 3 ⟨rfl, rfl, rfl⟩ rfl (by decide) rfl (by decide)
  have h6 := h5.step (hok _) (PoolStep.schedule 3 rfl rfl)
  have h7 := h6.step (hok _) (PoolStep.waitCall 0 (-1) ⟨rfl, rfl, rfl⟩ rfl (by decide))
  have h8 := h7.step (hok _) (PoolStep.waitSleep 0 (-1) ⟨rfl, rfl, rfl⟩ rfl (by decide)
    (by decide) (by decide) rfl)
  exact h8.step (hok _) (PoolStep.switch 0 rfl rfl)

/-- The exit of the great-grandchild loses no wakeup. -/
theorem no_lost_wakeup_sample : (fourGenerations.exit 0 3 0).AsleepInWait 0 ∧
    ¬ (fourGenerations.exit 0 3 0).LostWakeup 0 := by
  have h := (fourGenerations_reach (wakesInit 0) fun _ => trivial).step (e := .exit 3)
    (Or.inl (by decide)) (PoolStep.exit 3 0 ⟨rfl, rfl, rfl⟩ rfl (by decide) (by decide))
  exact ⟨⟨rfl, rfl, -1, by decide, rfl⟩, (no_lost_wakeup h).1 0⟩

/-- The great-grandchild exits and then the grandchild: the zombie goes to the init process, which
sleeps on. -/
theorem reparented_zombie_unnoticed : ∃ s : Pool 4, PoolReach 0 (fun _ _ => True) s ∧
    s.LostWakeup 0 := by
  have h1 := (fourGenerations_reach (fun _ _ => True) fun _ => trivial).step trivial
    (PoolStep.exit 3 0 ⟨rfl, rfl, rfl⟩ rfl (by decide) (by decide))
  have h2 := h1.step trivial (PoolStep.switch 3 rfl rfl)
  have h3 := h2.step trivial (PoolStep.exit 2 0 ⟨rfl, rfl, rfl⟩ rfl (by decide) (by decide))
  exact ⟨_, h3, ⟨rfl, rfl, -1, by decide, rfl⟩, 3, rfl, rfl⟩

end OsKernel.Pm

import OsKernel.Pm.Scheduler

/-! One process and one lock pass through `swtch`. -/

namespace OsKernel.Pm

open Hsai

variable {n : Nat} {s s' : Machine n} {init : Fin n}

/-- The context goes on with the interrupt state `ena`. -/
def Context.Ready (ena : Bool) : Context n → Prop
  | .forkRet => True
  | .yield intena | .sleep _ intena => intena = ena
  | .exit _ => False

/-- The processor runs code of `o`, or of the scheduler, with the locks `L`. -/
structure Runs (s : Machine n) (o : Option (Fin n)) (L : List (LockId n)) : Prop where
  cur : s.curProc = o
  running : ∀ q, (s.pool q).state = .running ↔ o = some q
  holds : s.cpu.Holds L
  ena : ∀ p, o = some p → L ≠ [] → s.cpu.intEna = s.ena p
  slot : ∀ p, o = some p → s.slot = p
  ready : ∀ p, (s.pool p).state = .runnable ∨ (s.pool p).state = .sleeping →
    (s.pool p).context.Ready (s.ena p)
  fresh : ∀ p, (s.pool p).state = .used → (s.pool p).context = .forkRet

/-- What the steps of the machine keep. -/
structure Handed (s : Machine n) : Prop where
  scheduler : s.control = .scheduler → Runs s none []
  toProc : ∀ p, s.control = .toProc p → Runs { s with cpu := { s.cpu with intEna := s.ena p } }
    (some p) [.proc p] ∧ (s.pool p).context.Ready (s.ena p)
  process : ∀ p, s.control = .process p → ∃ L, Runs s (some p) L
  toScheduler : ∀ p, s.control = .toScheduler p →
    Runs { s with curProc := none } none [.proc p] ∧
    s.curProc = some p ∧ s.slot = p

/-- Giving back a lock does not look at the pool. -/
theorem Machine.release_set {l : LockId n} {f : Pcb n → Pcb n} (h : s.release l = .ok s')
    (p : Fin n) : (s.set p f).release l = .ok (s'.set p f) := by
  unfold Machine.release at h
  obtain ⟨c, hc, hs⟩ := bind_eq_ok.mp h
  cases hs
  unfold Machine.release
  rw [show (s.set p f).cpu = s.cpu from rfl, hc]
  rfl

theorem Machine.locked_of_release {l : LockId n} (h : s.release l = .ok s') :
    s.cpu.locked l = true := by
  unfold Machine.release at h
  obtain ⟨c, hc, -⟩ := bind_eq_ok.mp h
  unfold CpuLocks.release at hc
  split at hc
  · assumption
  · cases hc

namespace Runs

variable {o : Option (Fin n)} {L : List (LockId n)} {l : LockId n}

/-- Taking a lock changes the locks and the history of the current process. -/
theorem acquire (h : Runs s o L) (hl : l ∉ L) : ∃ s', s.acquire l = .ok s' ∧
    Runs s' o (l :: L) ∧ s'.pool = s.pool ∧ s'.control = s.control ∧ s'.slot = s.slot ∧
    (∀ p, o ≠ some p ∨ L ≠ [] → s'.ena p = s.ena p) ∧
    (∀ p, o = some p → L = [] → s'.ena p = s.cpu.interruptible) := by
  obtain ⟨c, hrun, hholds, hintena⟩ := CpuLocks.acquire_spec h.holds hl
  have hdepth : s.cpu.numOff = 0 ↔ L = [] := by
    rw [h.holds.depth, List.length_eq_zero_iff]
  obtain ⟨ena, hok, hena, hena'⟩ : ∃ ena,
      s.acquire l = .ok { s with cpu := c, ena := ena } ∧
      (∀ p, (o = some p → L ≠ []) → ena p = s.ena p) ∧
      ∀ p, o = some p → L = [] → ena p = s.cpu.interruptible := by
    refine ⟨_, by unfold Machine.acquire; rw [hrun]; rfl, ?_, ?_⟩
    · intro p hp
      rw [h.cur]
      cases o with
      | none => rfl
      | some q =>
        simp only [hdepth]
        split
        · rename_i hL
          have hne : p ≠ q := fun hpq => hp (by rw [hpq]) hL
          rw [Function.update_of_ne hne]
        · rfl
    · intro p hp hL
      rw [h.cur, hp]
      simp only [hdepth, if_pos hL, Function.update_self]
  refine ⟨_, hok, ⟨h.cur, h.running, hholds, ?_, h.slot, ?_, h.fresh⟩, rfl, rfl, rfl, ?_,
    hena'⟩
  · intro p hp _
    show c.intEna = _
    rw [hintena]
    by_cases hL : L = []
    · rw [if_pos hL]
      exact (hena' p hp hL).symm
    · rw [if_neg hL, h.ena p hp hL]
      exact (hena p fun _ => hL).symm
  · intro p hp
    have hother : o ≠ some p := by
      -- The current process is running.
      intro ho
      have hrunning := (h.running p).mpr ho
      rcases hp with hp | hp <;> exact ProcState.noConfusion (hrunning.symm.trans hp)
    have he := hena p fun ho => absurd ho hother
    exact (congrArg (fun b => (s.pool p).context.Ready b) he).mpr (h.ready p hp)
  · intro p hp
    refine hena p fun ho => ?_
    exact hp.resolve_left (not_not.mpr ho)

theorem release (h : Runs s o L) (hl : l ∈ L) : ∃ s', s.release l = .ok s' ∧
    Runs s' o (L.erase l) ∧ s'.pool = s.pool ∧ s'.control = s.control ∧ s'.slot = s.slot ∧
    s'.ena = s.ena ∧ s'.cpu.intEna = s.cpu.intEna ∧
    s'.cpu.interruptible = (decide (L.erase l = []) && s.cpu.intEna) := by
  obtain ⟨c, hrun, hholds, hintena, hint⟩ := CpuLocks.release_spec h.holds hl
  have hok : s.release l = .ok { s with cpu := c } := by
    unfold Machine.release
    rw [hrun]
    rfl
  refine ⟨_, hok, ⟨h.cur, h.running, hholds, ?_, h.slot, h.ready, h.fresh⟩, rfl, rfl, rfl,
    rfl, hintena, hint⟩
  intro p hp _
  show c.intEna = _
  rw [hintena, h.ena p hp (List.ne_nil_of_mem hl)]

/-- A change of one process that keeps it off the processor and ready. -/
theorem set (h : Runs s o L) {p : Fin n} {f : Pcb n → Pcb n}
    (hrunning : (f (s.pool p)).state = .running ↔ (s.pool p).state = .running)
    (hready : (f (s.pool p)).state = .runnable ∨ (f (s.pool p)).state = .sleeping →
      (f (s.pool p)).context.Ready (s.ena p))
    (hfresh : (f (s.pool p)).state = .used → (f (s.pool p)).context = .forkRet) :
    Runs (s.set p f) o L := by
  refine ⟨h.cur, ?_, h.holds, h.ena, h.slot, ?_, ?_⟩
  · intro q
    rw [← h.running q]
    simp only [Machine.set, Function.update_apply]
    split
    · rename_i hq
      rw [hq, hrunning]
    · rfl
  · intro q
    simp only [Machine.set, Function.update_apply]
    split
    · rename_i hq
      rw [hq]
      exact hready
    · exact h.ready q
  · intro q
    simp only [Machine.set, Function.update_apply]
    split
    · exact hfresh
    · exact h.fresh q

/-- The functions that `wakeup` and `reparent` apply to each process. -/
def Quiet (f : Pcb n → Pcb n) : Prop :=
  ∀ q, (f q).context = q.context ∧
    ((f q).state = q.state ∨ q.state = .sleeping ∧ (f q).state = .runnable)

theorem set_quiet (h : Runs s o L) {f : Pcb n → Pcb n} (hf : Quiet f) (p : Fin n) :
    Runs (s.set p f) o L := by
  obtain ⟨hcontext, hstate⟩ := hf (s.pool p)
  refine h.set ?_ ?_ ?_
  · rcases hstate with he | ⟨hs, hr⟩
    · rw [he]
    · simp [hs, hr]
  · intro hrs
    rw [hcontext]
    apply h.ready p
    rcases hstate with he | ⟨hs, -⟩
    · rwa [he] at hrs
    · exact Or.inr hs
  · intro hu
    rw [hcontext]
    apply h.fresh p
    rcases hstate with he | ⟨-, hr⟩
    · rwa [he] at hu
    · rw [hr] at hu
      cases hu

/-- The loop over the locks of the processes, with none of them held before. -/
theorem eachLocked {f : Pcb n → Pcb n} (hf : Quiet f) (hL : ∀ p, LockId.proc p ∉ L) :
    ∀ (ps : List (Fin n)) {s : Machine n}, Runs s o L →
      ∃ s', Machine.eachLocked f ps s = .ok s' ∧ Runs s' o L ∧ s'.control = s.control ∧
        s'.slot = s.slot := by
  intro ps
  induction ps with
  | nil =>
    intro s h
    exact ⟨s, rfl, h, rfl, rfl⟩
  | cons p ps ih =>
    intro s h
    obtain ⟨s₁, hrun₁, h₁, -, hctl₁, hslot₁, -⟩ := h.acquire (hL p)
    obtain ⟨s₂, hrun₂, h₂, -, hctl₂, hslot₂, -⟩ :=
      (h₁.set_quiet hf p).release List.mem_cons_self
    rw [List.erase_cons_head] at h₂
    obtain ⟨s₃, hrun₃, h₃, hctl₃, hslot₃⟩ := ih h₂
    refine ⟨s₃, ?_, h₃, ?_, ?_⟩
    · rw [Machine.eachLocked, hrun₁, ok_bind, hrun₂, ok_bind, hrun₃]
    · rw [hctl₃, hctl₂]
      exact hctl₁
    · rw [hslot₃, hslot₂]
      exact hslot₁

theorem wakeup (h : Runs s o L) (hL : ∀ p, LockId.proc p ∉ L) (chan : Chan n) :
    ∃ s', s.wakeup chan = .ok s' ∧ Runs s' o L ∧ s'.control = s.control ∧
      s'.slot = s.slot := by
  refine eachLocked (fun q => ?_) hL _ h
  split
  · rename_i hq
    exact ⟨rfl, Or.inr ⟨hq.1, rfl⟩⟩
  · exact ⟨rfl, Or.inl rfl⟩

theorem reparent (h : Runs s o L) (hL : ∀ p, LockId.proc p ∉ L) (init p : Fin n) :
    ∃ s', s.reparent init p = .ok s' ∧ Runs s' o L ∧ s'.control = s.control ∧
      s'.slot = s.slot :=
  eachLocked (f := fun q => { q with parent := some init }) (fun _ => ⟨rfl, Or.inl rfl⟩) hL _ h

/-- `call_sched` of the current process with its own lock, after its state has changed. -/
theorem callSched {p : Fin n} (h : Runs s (some p) [.proc p]) (f : Pcb n → Pcb n)
    (K : Bool → Context n) (hrunning : (f (s.pool p)).state ≠ .running)
    (hused : (f (s.pool p)).state ≠ .used)
    (hK : (f (s.pool p)).state = .zombie ∨ ∀ b, (K b).Ready b) :
    ∃ s', (s.set p f).callSched p K = .ok s' ∧ Handed s' ∧ s'.control = .toScheduler p := by
  have hena := h.ena p rfl (List.cons_ne_nil _ _)
  have hpool : (s.set p f).pool p = f (s.pool p) := by simp [Machine.set]
  have hrun : (s.set p f).callSched p K = .ok
      { (s.set p f).set p fun q => { q with context := K s.cpu.intEna } with
        control := .toScheduler p } := by
    have hlocked : (s.set p f).cpu.locked (.proc p) = true :=
      (h.holds.locked _).mpr List.mem_cons_self
    have hdepth : (s.set p f).cpu.numOff = 1 := h.holds.depth
    have hoff : (s.set p f).cpu.interruptible = false := h.holds.off (List.cons_ne_nil _ _)
    unfold Machine.callSched
    rw [kassert_pos hlocked, ok_bind, kassert_pos hdepth, ok_bind, kassert_pos (by rwa [hpool]),
      ok_bind, kassert_pos hoff, ok_bind]
    rfl
  have hself : ∀ q, q = p → (((s.set p f).set p fun q =>
      { q with context := K s.cpu.intEna }).pool q) =
      { f (s.pool p) with context := K s.cpu.intEna } := by
    rintro q rfl
    simp [Machine.set]
  have hother : ∀ q, q ≠ p → (((s.set p f).set p fun q =>
      { q with context := K s.cpu.intEna }).pool q) = s.pool q := by
    intro q hq
    simp [Machine.set, hq]
  refine ⟨_, hrun, ⟨?_, ?_, ?_, ?_⟩, rfl⟩
  · intro hc
    cases hc
  · intro _ hc
    cases hc
  · intro _ hc
    cases hc
  intro p' hc
  obtain rfl := Control.toScheduler.inj hc
  refine ⟨⟨rfl, ?_, h.holds, ?_, ?_, ?_, ?_⟩, h.cur, h.slot p rfl⟩
  · intro q
    refine ⟨fun hq => ?_, fun hq => (by cases hq)⟩
    by_cases hqp : q = p
    · simp only [hself q hqp] at hq
      exact absurd hq hrunning
    · simp only [hother q hqp] at hq
      exact absurd (Option.some.inj ((h.running q).mp hq)).symm hqp
  · intro _ ho
    cases ho
  · intro _ ho
    cases ho
  · intro q hq
    by_cases hqp : q = p
    · simp only [hself q hqp] at hq ⊢
      rw [hqp]
      show (K s.cpu.intEna).Ready (s.ena p)
      rw [← hena]
      rcases hK with hz | hK
      · simp [hz] at hq
      · exact hK _
    · simp only [hother q hqp] at hq ⊢
      exact h.ready q hq
  · intro q hq
    by_cases hqp : q = p
    · simp only [hself q hqp] at hq
      exact absurd hq hused
    · simp only [hother q hqp] at hq ⊢
      exact h.fresh q hq

theorem handed {p : Fin n} (h : Runs s (some p) L) (hc : s.control = .process p) : Handed s := by
  refine ⟨?_, ?_, ?_, ?_⟩
  · intro hc'
    rw [hc] at hc'
    cases hc'
  · intro q hc'
    rw [hc] at hc'
    cases hc'
  · intro q hc'
    rw [hc] at hc'
    obtain rfl := Control.process.inj hc'
    exact ⟨L, h⟩
  · intro q hc'
    rw [hc] at hc'
    cases hc'

theorem handed_scheduler (h : Runs s none []) (hc : s.control = .scheduler) : Handed s := by
  refine ⟨fun _ => h, ?_, ?_, ?_⟩
  · intro q hc'
    rw [hc] at hc'
    cases hc'
  · intro q hc'
    rw [hc] at hc'
    cases hc'
  · intro q hc'
    rw [hc] at hc'
    cases hc'

theorem yield {p : Fin n} (h : Runs s (some p) []) :
    ∃ s', s.yield p = .ok s' ∧ Handed s' ∧ s'.control = .toScheduler p := by
  obtain ⟨s₁, hrun₁, h₁, -⟩ := h.acquire (l := .proc p) List.not_mem_nil
  obtain ⟨s₂, hrun₂, hH, hctl⟩ :=
    h₁.callSched (fun q => { q with state := .runnable }) .yield
    (by simp) (by simp) (Or.inr fun _ => rfl)
  refine ⟨s₂, ?_, hH, hctl⟩
  unfold Machine.yield
  rw [hrun₁, ok_bind]
  exact hrun₂

theorem sleep {p : Fin n} (h : Runs s (some p) [l]) (chan : Chan n) :
    ∃ s', s.sleep p chan l = .ok s' ∧ Handed s' ∧ s'.control = .toScheduler p := by
  by_cases hl : .proc p = l
  · subst hl
    obtain ⟨s₂, hrun₂, hH, hctl⟩ := h.callSched
      (fun q => { q with chan := some chan, state := .sleeping }) (.sleep (.proc p))
      (by simp) (by simp) (Or.inr fun _ => rfl)
    refine ⟨s₂, ?_, hH, hctl⟩
    unfold Machine.sleep
    rw [if_neg (not_not.mpr rfl), ok_bind]
    exact hrun₂
  · obtain ⟨s₁, hrun₁, h₁, -⟩ := h.acquire (l := .proc p) (by simpa using hl)
    obtain ⟨s₂, hrun₂, h₂, -⟩ := h₁.release (l := l) (by simp)
    rw [List.erase_cons_tail (by simpa using hl), List.erase_cons_head] at h₂
    obtain ⟨s₃, hrun₃, hH, hctl⟩ := h₂.callSched
      (fun q => { q with chan := some chan, state := .sleeping }) (.sleep l)
      (by simp) (by simp) (Or.inr fun _ => rfl)
    refine ⟨s₃, ?_, hH, hctl⟩
    unfold Machine.sleep
    rw [if_pos hl, hrun₁, ok_bind, hrun₂, ok_bind]
    exact hrun₃

theorem exitProc {p : Fin n} (h : Runs s (some p) []) (init : Fin n) :
    ∃ s', s.exitProc init p = .ok s' ∧ Handed s' ∧ s'.control = .toScheduler p := by
  have hL : ∀ q : Fin n, LockId.proc q ∉ [LockId.waitLock] := by simp
  obtain ⟨s₁, hrun₁, h₁, -⟩ := h.acquire (l := .waitLock) List.not_mem_nil
  obtain ⟨s₂, hrun₂, h₂, -⟩ := h₁.reparent hL init p
  have hwake : ∃ s₃, s₂.wakeupParent p = .ok s₃ ∧ Runs s₃ (some p) [.waitLock] := by
    unfold Machine.wakeupParent
    cases (s₂.pool p).parent with
    | none => exact ⟨s₂, rfl, h₂⟩
    | some parent =>
      obtain ⟨s₃, hrun₃, h₃, -⟩ := h₂.wakeup hL (.proc parent)
      exact ⟨s₃, hrun₃, h₃⟩
  obtain ⟨s₃, hrun₃, h₃⟩ := hwake
  obtain ⟨s₄, hrun₄, h₄, -⟩ := h₃.acquire (l := .proc p) (by simp)
  obtain ⟨s₅, hrun₅, h₅, -⟩ := h₄.release (l := .waitLock) (by simp)
  rw [List.erase_cons_tail (by simp), List.erase_cons_head] at h₅
  obtain ⟨s₆, hrun₆, hH, hctl⟩ :=
    h₅.callSched (fun q => { q with state := .zombie }) .exit
    (by simp) (by simp) (Or.inl rfl)
  refine ⟨s₆, ?_, hH, hctl⟩
  unfold Machine.exitProc
  rw [hrun₁, ok_bind, hrun₂, ok_bind, hrun₃, ok_bind, hrun₄, ok_bind]
  show ((s₄.set p fun q => { q with state := .zombie }).release .waitLock >>= _) = _
  rw [Machine.release_set hrun₅ p, ok_bind, hrun₆]

theorem allocLoop {p : Fin n} (memory : Bool) (hL : ∀ q, LockId.proc q ∉ L)
    (hpid : LockId.pidLock ∉ L) : ∀ (nps : List (Fin n)) {s : Machine n}, Runs s (some p) L →
      ∃ s', Machine.allocLoop memory nps s = .ok s' ∧ Runs s' (some p) L ∧
        s'.control = s.control := by
  intro nps
  induction nps with
  | nil =>
    intro s h
    exact ⟨s, rfl, h, rfl⟩
  | cons np nps ih =>
    intro s h
    obtain ⟨s₁, hrun₁, h₁, -, hctl₁, -⟩ := h.acquire (hL np)
    rw [Machine.allocLoop, hrun₁, ok_bind]
    by_cases hu : (s₁.pool np).state = .unused
    · rw [if_pos hu]
      obtain ⟨s₂, hrun₂, h₂, hpool₂, hctl₂, -⟩ :=
        h₁.acquire (l := .pidLock) (by simpa using hpid)
      obtain ⟨s₃, hrun₃, h₃, hpool₃, hctl₃, -⟩ :=
        h₂.release (l := .pidLock) List.mem_cons_self
      rw [List.erase_cons_head] at h₃
      rw [hrun₂, ok_bind, hrun₃, ok_bind]
      have hu₃ : (s₃.pool np).state = .unused := by rw [hpool₃, hpool₂, hu]
      cases memory with
      | true =>
        -- The two updates of the slot as one.
        have h₄ : Runs ((s₃.set np fun q =>
            { q with state := .used, priority := defaultProcPrio }).set np fun q =>
            { q with context := .forkRet }) (some p) (.proc np :: L) := by
          have := h₃.set (p := np) (f := fun q =>
            { q with state := .used, priority := defaultProcPrio, context := .forkRet })
            (by simp [hu₃]) (by simp) fun _ => rfl
          simpa [Machine.set] using this
        obtain ⟨s₅, hrun₅, h₅, -, hctl₅, -⟩ :=
          h₄.release (l := .proc np) List.mem_cons_self
        rw [List.erase_cons_head] at h₅
        refine ⟨{ s₅ with lastAllocProcGid := np }, ?_,
          ⟨h₅.cur, h₅.running, h₅.holds, h₅.ena, h₅.slot, h₅.ready, h₅.fresh⟩,
          ?_⟩
        · rw [if_pos rfl]
          simp only [hrun₅, ok_bind]
        exact hctl₅.trans (hctl₃.trans (hctl₂.trans hctl₁))
      | false =>
        have h₄ : Runs ((s₃.set np fun q =>
            { q with state := .used, priority := defaultProcPrio }).set np fun q =>
            { q with state := .unused, parent := none, chan := none }) (some p)
            (.proc np :: L) := by
          have := h₃.set (p := np) (f := fun q =>
            { q with state := .unused, priority := defaultProcPrio, parent := none, chan := none })
            (by simp [hu₃]) (by simp) (by simp)
          simpa [Machine.set] using this
        obtain ⟨s₅, hrun₅, h₅, -, hctl₅, -⟩ :=
          h₄.release (l := .proc np) List.mem_cons_self
        rw [List.erase_cons_head] at h₅
        refine ⟨s₅, by rw [if_neg Bool.false_ne_true]; exact hrun₅, h₅, ?_⟩
        exact hctl₅.trans (hctl₃.trans (hctl₂.trans hctl₁))
    · rw [if_neg hu]
      obtain ⟨s₂, hrun₂, h₂, -, hctl₂, -⟩ :=
        h₁.release (l := .proc np) List.mem_cons_self
      rw [List.erase_cons_head] at h₂
      obtain ⟨s₃, hrun₃, h₃, hctl₃⟩ := ih h₂
      exact ⟨s₃, by rw [hrun₂, ok_bind, hrun₃], h₃, hctl₃.trans (hctl₂.trans hctl₁)⟩

/-- The process goes on where `swtch` left it, with its own interrupt state. -/
theorem resume {p : Fin n} (h : Runs { s with cpu := { s.cpu with intEna := s.ena p } } (some p)
    [.proc p]) (hready : (s.pool p).context.Ready (s.ena p)) :
    ∃ s', s.resume p = .ok s' ∧ (∃ L, Runs s' (some p) L) ∧ s'.control = .process p ∧
      ((s.pool p).context = .forkRet ∨ s'.ena p = s.ena p ∧
        (s'.cpu.numOff = 0 → s'.cpu.interruptible = s.ena p)) := by
  unfold Machine.resume
  cases hctx : (s.pool p).context with
  | forkRet =>
    obtain ⟨c, hrun, hholds, -⟩ := CpuLocks.release_spec (c := s.cpu) (l := .proc p)
      ⟨h.holds.nodup, h.holds.locked, h.holds.depth, h.holds.off⟩ List.mem_cons_self
    rw [List.erase_cons_head] at hholds
    have hok : s.release (.proc p) = .ok { s with cpu := c } := by
      unfold Machine.release
      rw [hrun]
      rfl
    refine ⟨{ s with cpu := c, control := .process p }, by simp only [hok, ok_bind],
      ⟨[], ⟨h.cur, h.running, hholds, fun _ _ hne => absurd rfl hne, h.slot, h.ready, h.fresh⟩⟩,
      rfl, Or.inl rfl⟩
  | yield intena =>
    rw [hctx] at hready
    obtain rfl : intena = s.ena p := hready
    obtain ⟨s₁, hrun₁, h₁, -, -, -, hena₁, -, hint₁⟩ :=
      h.release (l := .proc p) List.mem_cons_self
    rw [List.erase_cons_head] at h₁ hint₁
    refine ⟨{ s₁ with control := .process p }, by simp only [hrun₁, ok_bind],
      ⟨[], ⟨h₁.cur, h₁.running, h₁.holds, h₁.ena, h₁.slot, h₁.ready,
        h₁.fresh⟩⟩, rfl,
      Or.inr ⟨by rw [hena₁], fun _ => ?_⟩⟩
    rw [hint₁]
    simp
  | sleep lock intena =>
    rw [hctx] at hready
    obtain rfl : intena = s.ena p := hready
    have h₀ := h.set (p := p) (f := fun q => { q with chan := none }) Iff.rfl
      (h.ready p) (h.fresh p)
    by_cases hl : .proc p = lock
    · simp only [if_neg (not_not.mpr hl), ok_bind]
      refine ⟨_, rfl, ⟨_, ⟨h₀.cur, h₀.running, h₀.holds, h₀.ena, h₀.slot,
        h₀.ready, h₀.fresh⟩⟩, rfl, Or.inr ⟨rfl, fun hz => ?_⟩⟩
      have hdepth : s.cpu.numOff = 1 := h.holds.depth
      exact absurd (hdepth.symm.trans hz) (by decide)
    · obtain ⟨s₁, hrun₁, h₁, -, -, -, hena₁, -, hint₁⟩ :=
        h₀.release List.mem_cons_self
      rw [List.erase_cons_head] at h₁ hint₁
      obtain ⟨s₂, hrun₂, h₂, -, -, -, -, hena₂⟩ :=
        h₁.acquire (l := lock) List.not_mem_nil
      simp only [if_pos (show ¬(.proc p = lock) from hl), hrun₁, ok_bind, hrun₂]
      refine ⟨_, rfl, ⟨_, ⟨h₂.cur, h₂.running, h₂.holds, h₂.ena, h₂.slot,
        h₂.ready, h₂.fresh⟩⟩, rfl, Or.inr ⟨?_, fun hz => ?_⟩⟩
      · rw [hena₂ p rfl rfl, hint₁]
        simp [Machine.set]
      · have hdepth : s₂.cpu.numOff = 1 := h₂.holds.depth
        exact absurd (hdepth.symm.trans hz) (by decide)
  | exit intena =>
    rw [hctx] at hready
    exact hready.elim

theorem getHighestPriority (h : Runs s none []) :
    ∃ s', s.getHighestPriority = .ok s' ∧ Runs s' none [] ∧ s'.pool = s.pool ∧
      s'.control = s.control ∧ s'.slot = s.slot := by
  obtain ⟨s₁, hrun₁, h₁, hpool₁, hctl₁, hslot₁, -⟩ :=
    h.acquire (l := .scheLock) List.not_mem_nil
  have h₂ : Runs { s₁ with priority := s₁.highestPriority } none [.scheLock] :=
    ⟨h₁.cur, h₁.running, h₁.holds, h₁.ena, h₁.slot, h₁.ready, h₁.fresh⟩
  obtain ⟨s₃, hrun₃, h₃, hpool₃, hctl₃, hslot₃, -⟩ :=
    h₂.release List.mem_cons_self
  rw [List.erase_cons_head] at h₃
  refine ⟨s₃, ?_, h₃, hpool₃.trans hpool₁, hctl₃.trans hctl₁,
    hslot₃.trans hslot₁⟩
  unfold Machine.getHighestPriority
  rw [hrun₁, ok_bind]
  exact hrun₃

/-- The switch of the scheduler to a process that is ready, with its lock taken. -/
theorem switch {p : Fin n} (h : Runs s none [.proc p]) (hp : (s.pool p).state = .runnable)
    (hslot : s.slot = p) :
    Handed { s.set p fun q => { q with state := .running } with
      curProc := some p
      control := .toProc p } := by
  have hother : ∀ q, q ≠ p →
      (s.set p fun q => { q with state := .running }).pool q = s.pool q := by
    intro q hq
    simp [Machine.set, hq]
  have hself : (s.set p fun q => { q with state := .running }).pool p =
      { s.pool p with state := .running } := by
    simp [Machine.set]
  have hrunning : ∀ q, (s.pool q).state ≠ .running := by
    intro q hq
    cases (h.running q).mp hq
  refine ⟨?_, ?_, ?_, ?_⟩
  · intro hc
    cases hc
  · intro p' hc
    obtain rfl := Control.toProc.inj hc
    refine ⟨⟨rfl, ?_, ⟨h.holds.nodup, h.holds.locked, h.holds.depth, h.holds.off⟩, ?_, ?_,
      ?_, ?_⟩, ?_⟩
    · intro q
      by_cases hq : q = p
      · simp only [hq, hself]
      · simp only [hother q hq, Option.some.injEq]
        exact ⟨fun hr => absurd hr (hrunning q), fun hpq => absurd hpq.symm hq⟩
    · intro q hq _
      rw [← Option.some.inj hq]
    · intro q hq
      rw [← Option.some.inj hq]
      exact hslot
    · intro q hq
      by_cases hqp : q = p
      · simp [hqp, hself] at hq
      · simp only [hother q hqp] at hq ⊢
        exact h.ready q hq
    · intro q hq
      by_cases hqp : q = p
      · simp [hqp, hself] at hq
      · simp only [hother q hqp] at hq ⊢
        exact h.fresh q hq
    · simp only [hself]
      exact h.ready p (Or.inl hp)
  · intro _ hc
    cases hc
  · intro _ hc
    cases hc

theorem schedule (h : Runs s none []) (hc : s.control = .scheduler) :
    ∃ s', s.schedule = .ok s' ∧ Handed s' ∧
      ∀ p, s'.control = .toProc p → (s.pool p).state = .runnable := by
  unfold Machine.schedule
  by_cases hslot : s.slot < n
  · rw [dif_pos hslot]
    have hprio : ∃ s₁, s.refreshPriority = .ok s₁ ∧ Runs s₁ none [] ∧
        s₁.pool = s.pool ∧ s₁.control = s.control ∧ s₁.slot = s.slot := by
      unfold Machine.refreshPriority
      split
      · exact h.getHighestPriority
      · exact ⟨s, rfl, h, rfl, rfl, rfl⟩
    obtain ⟨s₁, hrun₁, h₁, hpool₁, hctl₁, hslot₁⟩ := hprio
    rw [hc] at hctl₁
    simp only [hrun₁, ok_bind]
    split
    · refine ⟨_, rfl, handed_scheduler ⟨h₁.cur, h₁.running, h₁.holds, h₁.ena, ?_,
        h₁.ready, h₁.fresh⟩ hctl₁, ?_⟩
      · intro p hp
        cases hp
      · intro p hp
        rw [show _ = Control.scheduler from hctl₁] at hp
        cases hp
    · rename_i hpick
      rw [not_or, not_not] at hpick
      have h₂ : Runs { s₁ with needed := false } none [] :=
        ⟨h₁.cur, h₁.running, h₁.holds, h₁.ena, h₁.slot, h₁.ready, h₁.fresh⟩
      obtain ⟨s₃, hrun₃, h₃, hpool₃, -, hslot₃, -⟩ :=
        h₂.acquire (l := .proc ⟨s.slot, hslot⟩) List.not_mem_nil
      have hstate : (s₃.pool ⟨s.slot, hslot⟩).state = .runnable := by
        rw [hpool₃]
        exact hpick.1
      simp only [hrun₃, ok_bind, if_pos hstate]
      refine ⟨_, rfl, h₃.switch hstate (hslot₃.trans hslot₁), ?_⟩
      intro p hp
      obtain rfl := Control.toProc.inj hp
      rw [← hpool₁]
      exact hpick.1
  · rw [dif_neg hslot]
    refine ⟨_, rfl, handed_scheduler ⟨h.cur, h.running, ⟨h.holds.nodup, h.holds.locked,
      h.holds.depth, fun hne => absurd rfl hne⟩, h.ena, ?_, h.ready, h.fresh⟩ hc, ?_⟩
    · intro p hp
      cases hp
    · intro p hp
      rw [show _ = Control.scheduler from hc] at hp
      cases hp

theorem scheduled {p : Fin n} (h : Runs { s with curProc := none } none [.proc p])
    (hslot : s.slot = p) :
    ∃ s', s.scheduled = .ok s' ∧ Handed s' ∧ s'.control = .scheduler := by
  obtain ⟨s₁, hrun₁, h₁, -⟩ := h.release List.mem_cons_self
  rw [List.erase_cons_head] at h₁
  have hlt : s.slot < n := by
    rw [hslot]
    exact p.isLt
  have hp : (⟨s.slot, hlt⟩ : Fin n) = p := Fin.ext hslot
  unfold Machine.scheduled
  rw [dif_pos hlt]
  simp only [hp, hrun₁, ok_bind]
  refine ⟨_, rfl, handed_scheduler ⟨h₁.cur, h₁.running, h₁.holds, h₁.ena, ?_,
    h₁.ready, h₁.fresh⟩ rfl, rfl⟩
  intro q hq
  cases hq

theorem clockIntr (h : Runs s none []) (hc : s.control = .scheduler) (k : Nat) (chan : Chan n) :
    ∃ s', s.clockIntr (.other k) chan = .ok s' ∧ Handed s' ∧ s'.control = .scheduler := by
  have h₀ : Runs { s with cpu := { s.cpu with interruptible := false } } none [] :=
    ⟨h.cur, h.running, ⟨h.holds.nodup, h.holds.locked, h.holds.depth, fun _ => rfl⟩, h.ena,
      h.slot, h.ready, h.fresh⟩
  obtain ⟨s₁, hrun₁, h₁, -, hctl₁, -⟩ := h₀.acquire (l := .other k) List.not_mem_nil
  obtain ⟨s₂, hrun₂, h₂, hctl₂, -⟩ := h₁.wakeup (by simp) chan
  obtain ⟨s₃, hrun₃, h₃, -, hctl₃, -⟩ := h₂.release List.mem_cons_self
  rw [List.erase_cons_head] at h₃
  have hctl : s₃.control = .scheduler := by rw [hctl₃, hctl₂, hctl₁, hc]
  unfold Machine.clockIntr
  simp only [hrun₁, ok_bind, hrun₂, hrun₃]
  exact ⟨_, rfl, handed_scheduler ⟨h₃.cur, h₃.running,
    ⟨h₃.holds.nodup, h₃.holds.locked, h₃.holds.depth, fun hne => absurd rfl hne⟩,
    h₃.ena, h₃.slot, h₃.ready, h₃.fresh⟩ hctl, hctl⟩

theorem reap {p np : Fin n} (h : Runs s (some p) L) (hnp : (s.pool np).state = .zombie)
    (hwait : LockId.waitLock ∉ L) (hlock : LockId.proc np ∉ L) :
    ∃ s', s.reap np = .ok s' ∧ Runs s' (some p) L ∧ s'.control = s.control := by
  obtain ⟨s₁, hrun₁, h₁, hpool₁, hctl₁, -⟩ := h.acquire hwait
  obtain ⟨s₂, hrun₂, h₂, hpool₂, hctl₂, -⟩ :=
    h₁.acquire (l := .proc np) (by simpa using hlock)
  have hz : (s₂.pool np).state = .zombie := by rw [hpool₂, hpool₁, hnp]
  have h₃ := h₂.set (p := np)
    (f := fun q => { q with state := .unused, parent := none, chan := none })
    (by simp [hz]) (by simp) (by simp)
  obtain ⟨s₄, hrun₄, h₄, -, hctl₄, -⟩ := h₃.release List.mem_cons_self
  rw [List.erase_cons_head] at h₄
  obtain ⟨s₅, hrun₅, h₅, -, hctl₅, -⟩ := h₄.release List.mem_cons_self
  rw [List.erase_cons_head] at h₅
  unfold Machine.reap
  simp only [hrun₁, ok_bind, hrun₂, hrun₄, hrun₅]
  exact ⟨s₅, rfl, h₅, hctl₅.trans (hctl₄.trans (hctl₂.trans hctl₁))⟩

theorem setParent {p : Fin n} (np : Fin n) (h : Runs s (some p) L) (hwait : LockId.waitLock ∉ L) :
    ∃ s', s.setParent p np = .ok s' ∧ Runs s' (some p) L ∧ s'.control = s.control := by
  obtain ⟨s₁, hrun₁, h₁, -, hctl₁, -⟩ := h.acquire hwait
  have h₂ := h₁.set_quiet (f := fun q => { q with parent := some p })
    (fun _ => ⟨rfl, Or.inl rfl⟩) np
  obtain ⟨s₃, hrun₃, h₃, -, hctl₃, -⟩ := h₂.release List.mem_cons_self
  rw [List.erase_cons_head] at h₃
  unfold Machine.setParent
  simp only [hrun₁, ok_bind, hrun₃]
  exact ⟨s₃, rfl, h₃, hctl₃.trans hctl₁⟩

end Runs

namespace Handed

theorem boot (intEna interruptible : Bool) (priority : Int) (ena : Fin n → Bool) :
    Handed (Machine.boot init intEna interruptible priority ena) := by
  refine Runs.handed_scheduler ⟨rfl, ?_, ⟨List.nodup_nil, by simp [Machine.boot], rfl,
    fun hne => absurd rfl hne⟩, ?_, ?_, fun _ _ => trivial, fun _ _ => rfl⟩ rfl
  · intro q
    refine ⟨fun hq => ?_, fun hq => (by cases hq)⟩
    simp only [Machine.boot] at hq
    split at hq <;> cases hq
  · intro p hp
    cases hp
  · intro p hp
    cases hp

/-- A step of the current process that does not switch. -/
theorem stays {p : Fin n} {L : List (LockId n)} (h : Runs s' (some p) L)
    (hc : s'.control = .process p) :
    Handed s' ∧ ∀ q, s'.control = .toProc q → (s.pool q).state = .runnable := by
  refine ⟨h.handed hc, fun q hq => ?_⟩
  rw [hc] at hq
  cases hq

/-- A step of the current process that switches to the scheduler. -/
theorem leaves {p : Fin n} (h : Handed s' ∧ s'.control = .toScheduler p) :
    Handed s' ∧ ∀ q, s'.control = .toProc q → (s.pool q).state = .runnable := by
  refine ⟨h.1, fun q hq => ?_⟩
  rw [h.2] at hq
  cases hq

theorem next (h : Handed s) {r : Except Fault (Machine n)} (hr : Next init s r) :
    ∃ s', r = .ok s' ∧ Handed s' ∧ ∀ p, s'.control = .toProc p →
      (s.pool p).state = .runnable := by
  have hfree : ∀ {L : List (LockId n)} {o : Option (Fin n)} (_ : Runs s o L) {l : LockId n},
      s.cpu.locked l = false → l ∉ L := by
    intro L o hR l hl hmem
    rw [(hR.holds.locked l).mpr hmem] at hl
    cases hl
  cases hr with
  | schedule hc => exact (h.scheduler hc).schedule hc
  | clockIntr k chan hc hint =>
    obtain ⟨s', hrun, hH, hctl⟩ := (h.scheduler hc).clockIntr hc k chan
    refine ⟨s', hrun, hH, fun p hp => ?_⟩
    rw [hctl] at hp
    cases hp
  | scheduled p hc =>
    obtain ⟨hR, -, hslot⟩ := h.toScheduler p hc
    obtain ⟨s', hrun, hH, hctl⟩ := hR.scheduled hslot
    refine ⟨s', hrun, hH, fun q hq => ?_⟩
    rw [hctl] at hq
    cases hq
  | resume p hc =>
    obtain ⟨hR, hready⟩ := h.toProc p hc
    obtain ⟨s', hrun, ⟨L, h'⟩, hctl, -⟩ := hR.resume hready
    exact ⟨s', hrun, stays h' hctl⟩
  | yield p hc hno =>
    obtain ⟨L, hR⟩ := h.process p hc
    obtain rfl : L = [] := List.eq_nil_iff_forall_not_mem.mpr fun l => hfree hR (hno l)
    obtain ⟨s', hrun, hH⟩ := hR.yield
    exact ⟨s', hrun, leaves hH⟩
  | sleep p chan lock hc hheld =>
    obtain ⟨L, hR⟩ := h.process p hc
    have hperm : L.Perm [lock] := by
      refine (List.perm_ext_iff_of_nodup hR.holds.nodup (List.nodup_singleton _)).mpr fun l => ?_
      rw [← hR.holds.locked, hheld, List.mem_singleton]
    obtain rfl : L = [lock] := List.perm_singleton.mp hperm
    obtain ⟨s', hrun, hH⟩ := hR.sleep chan
    exact ⟨s', hrun, leaves hH⟩
  | wakeup p chan hc hno =>
    obtain ⟨L, hR⟩ := h.process p hc
    obtain ⟨s', hrun, h', hctl, -⟩ := hR.wakeup (fun q => hfree hR (hno q)) chan
    exact ⟨s', hrun, stays h' (hctl.trans hc)⟩
  | allocProc p memory hc hno hpid =>
    obtain ⟨L, hR⟩ := h.process p hc
    obtain ⟨s', hrun, h', hctl⟩ := Runs.allocLoop memory (fun q => hfree hR (hno q))
      (hfree hR hpid) _ hR
    exact ⟨s', hrun, stays h' (hctl.trans hc)⟩
  | setParent p np hc hnp hno =>
    obtain ⟨L, hR⟩ := h.process p hc
    obtain ⟨s', hrun, h', hctl⟩ := hR.setParent np (hfree hR hno)
    exact ⟨s', hrun, stays h' (hctl.trans hc)⟩
  | forkFail p np hc hnp =>
    obtain ⟨L, hR⟩ := h.process p hc
    exact ⟨_, rfl, stays (hR.set (by simp [hnp]) (by simp) (by simp)) hc⟩
  | forkRun p np hc hnp =>
    obtain ⟨L, hR⟩ := h.process p hc
    refine ⟨_, rfl, stays (hR.set (by simp [hnp]) (fun _ => ?_) (by simp)) hc⟩
    simp only [hR.fresh np hnp]
    trivial
  | exit p hc hinit hno =>
    obtain ⟨L, hR⟩ := h.process p hc
    obtain rfl : L = [] := List.eq_nil_iff_forall_not_mem.mpr fun l => hfree hR (hno l)
    obtain ⟨s', hrun, hH⟩ := hR.exitProc init
    exact ⟨s', hrun, leaves hH⟩
  | reap p np hc hnp hwait hlock =>
    obtain ⟨L, hR⟩ := h.process p hc
    obtain ⟨s', hrun, h', hctl⟩ := hR.reap hnp (hfree hR hwait) (hfree hR hlock)
    exact ⟨s', hrun, stays h' (hctl.trans hc)⟩
  | acquire p l hc hno =>
    obtain ⟨L, hR⟩ := h.process p hc
    obtain ⟨s', hrun, h', -, hctl, -⟩ := hR.acquire (hfree hR hno)
    exact ⟨s', hrun, stays h' (hctl.trans hc)⟩
  | release p l hc hheld =>
    obtain ⟨L, hR⟩ := h.process p hc
    obtain ⟨s', hrun, h', -, hctl, -⟩ := hR.release ((hR.holds.locked l).mp hheld)
    exact ⟨s', hrun, stays h' (hctl.trans hc)⟩
  | interrupt p on hc hoff =>
    obtain ⟨L, hR⟩ := h.process p hc
    obtain rfl : L = [] := List.length_eq_zero_iff.mp (hR.holds.depth.symm.trans hoff)
    exact ⟨_, rfl, stays ⟨hR.cur, hR.running,
      ⟨hR.holds.nodup, hR.holds.locked, hR.holds.depth,
      fun hne => absurd rfl hne⟩, hR.ena, hR.slot, hR.ready, hR.fresh⟩ hc⟩

theorem reach (h : MachineReach init s) : Handed s := by
  induction h with
  | boot intEna interruptible priority ena => exact boot intEna interruptible priority ena
  | step _ hs ih =>
    obtain ⟨s', hrun, hH, -⟩ := ih.next hs
    cases hrun
    exact hH

/-- A running process is the current one. -/
theorem cur_of_running (h : Handed s) {p : Fin n} (hp : (s.pool p).state = .running) :
    s.curProc = some p := by
  cases hc : s.control with
  | scheduler => cases ((h.scheduler hc).running p).mp hp
  | toProc q =>
    have hR := (h.toProc q hc).1
    exact hR.cur.trans ((hR.running p).mp hp)
  | process q =>
    obtain ⟨L, hR⟩ := h.process q hc
    exact hR.cur.trans ((hR.running p).mp hp)
  | toScheduler q => cases ((h.toScheduler q hc).1.running p).mp hp

end Handed

/-- In every state of a run on one processor: a running process is the current one; at `swtch`, in
either direction, the lock of the process is the one lock held; nothing that may run next panics or
fails an assertion, and the scheduler switches to runnable processes alone; the last release of a
process sets interrupts as they were at its first acquire, also after it was switched out. -/
theorem scheduler_handover {n : Nat} {init : Fin n} {s : Machine n} (h : MachineReach init s) :
    (∀ p, (s.pool p).state = .running → s.curProc = some p) ∧
    (∀ p, s.control = .toProc p ∨ s.control = .toScheduler p →
      s.curProc = some p ∧ (∀ l, s.cpu.locked l = true ↔ l = .proc p) ∧
      s.cpu.numOff = 1) ∧
    (∀ r, Next init s r → ∃ s', r = .ok s' ∧
      ∀ p, s'.control = .toProc p → (s.pool p).state = .runnable) ∧
    (∀ p, s.control = .process p → (0 < s.cpu.numOff → s.cpu.intEna = s.ena p) ∧
      ∀ l s', s.release l = .ok s' → s'.cpu.numOff = 0 → s'.cpu.interruptible = s.ena p) ∧
    (∀ p s', s.control = .toProc p → (s.pool p).context ≠ .forkRet → s.resume p = .ok s' →
      s'.ena p = s.ena p ∧ (s'.cpu.numOff = 0 → s'.cpu.interruptible = s.ena p)) := by
  have hH := Handed.reach h
  refine ⟨fun p hp => hH.cur_of_running hp, ?_, ?_, ?_, ?_⟩
  · rintro p (hc | hc)
    · obtain ⟨hR, -⟩ := hH.toProc p hc
      refine ⟨hR.cur, fun l => ?_, hR.holds.depth⟩
      exact (hR.holds.locked l).trans List.mem_singleton
    · obtain ⟨hR, hcur, -⟩ := hH.toScheduler p hc
      refine ⟨hcur, fun l => ?_, hR.holds.depth⟩
      exact (hR.holds.locked l).trans List.mem_singleton
  · intro r hr
    obtain ⟨s', hrun, -, hrunnable⟩ := hH.next hr
    exact ⟨s', hrun, hrunnable⟩
  · intro p hc
    obtain ⟨L, hR⟩ := hH.process p hc
    refine ⟨fun hpos => hR.ena p rfl ?_, ?_⟩
    · rw [hR.holds.depth] at hpos
      exact List.ne_nil_of_length_pos hpos
    · intro l s' hrun hzero
      have hmem : l ∈ L := by
        rw [← hR.holds.locked]
        exact Machine.locked_of_release hrun
      obtain ⟨s₁, hrun₁, h₁, -, -, -, -, -, hint⟩ := hR.release hmem
      rw [hrun] at hrun₁
      cases hrun₁
      have hnil : L.erase l = [] := List.length_eq_zero_iff.mp (h₁.holds.depth.symm.trans hzero)
      rw [hint, hnil, hR.ena p rfl (List.ne_nil_of_mem hmem)]
      rfl
  · intro p s' hc hctx hrun
    obtain ⟨hR, hready⟩ := hH.toProc p hc
    obtain ⟨s₁, hrun₁, -, -, hcase⟩ := hR.resume hready
    rw [hrun] at hrun₁
    cases hrun₁
    exact hcase.resolve_left hctx

/-- The scheduler switches to the init process for the first time. -/
theorem scheduler_handover_sample : ∃ s : Machine 1, MachineReach 0 s ∧
    s.control = .toProc 0 ∧ s.curProc = some 0 ∧ s.cpu.numOff = 1 := by
  have h₀ : MachineReach (0 : Fin 1) (Machine.boot 0 true true 0 fun _ => false) := .boot ..
  have h₁ := h₀.step (Next.schedule rfl)
  have h₂ := h₁.step (Next.schedule rfl)
  obtain ⟨hcur, -, hdepth⟩ := (scheduler_handover h₂).2.1 0 (Or.inl rfl)
  exact ⟨_, h₂, rfl, hcur, hdepth⟩

end OsKernel.Pm

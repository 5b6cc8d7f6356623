import OsKernel.Klib.Fault
import OsKernel.Pm.Reap

/-! `kill`, which takes the pid for a place in the pool. -/

namespace OsKernel.Pm

namespace Pool

variable {n : Nat} (s : Pool n)

/-- `ProcessManager::kill`. -/
def kill (pid sig : Int) : Except Fault (Int × Pool n) :=
  if sig = 0 then .ok (0, s)
  else if sig = 15 then
    if h : 0 ≤ pid ∧ pid < n then
      .ok (0, s.set ⟨pid.toNat, by omega⟩ fun q => { q with killed := true })
    else .error (.undefined "write past the process pool")
  else .ok (0, s)

/-- `_sys_kill`. -/
def sysKill (pid sig : Int) : Except Fault (Int × Pool n) :=
  if sig < 0 ∨ 64 < sig then .ok (-3, s) else s.kill pid sig

/-- The process that `prlimit64` selects for a pid that is not 0. -/
def selected (pid : Int) : Option (Fin n) :=
  (List.finRange n).find? fun p => ((s.procs p).pid : Int) = pid

/-- A process that is in use has the pid. -/
def Names (pid : Int) (p : Fin n) : Prop :=
  (s.procs p).state ≠ .unused ∧ ((s.procs p).pid : Int) = pid

/-- The process with the pid is marked, and no other; without one there is an error, and
nothing changes. -/
def KillsNamed (pid : Int) (r : Except Fault (Int × Pool n)) : Prop :=
  (∀ p, s.Names pid p → ∃ code, 0 ≤ code ∧
    r = .ok (code, s.set p fun q => { q with killed := true })) ∧
    ((∀ p, ¬s.Names pid p) → ∃ code, code < 0 ∧ r = .ok (code, s))

variable {s} {init : Fin n} {ok : Pool n → PoolEvent n → Prop}

theorem set_killed_eq {p q : Fin n}
    (h : s.set p (fun x => { x with killed := true }) = s.set q fun x => { x with killed := true })
    (hne : p ≠ q) :
    (s.procs p).killed = true ∧ (s.procs q).killed = true := by
  have hp := congrArg (fun s => (s.procs p).killed) h
  have hq := congrArg (fun s => (s.procs q).killed) h
  simp only [set_procs, if_pos, if_neg hne, if_neg hne.symm] at hp hq
  exact ⟨hp.symm, hq⟩

theorem set_killed_self {p : Fin n} (h : (s.procs p).killed = true) :
    s.set p (fun x => { x with killed := true }) = s := by
  have hproc : { s.procs p with killed := true } = s.procs p := by rw [← h]
  rw [set, hproc, Function.update_eq_self]

/-- Signal 15 for a pid that is a place of the pool. -/
theorem kill_place (q : Fin n) :
    s.kill q 15 = .ok (0, s.set q fun x => { x with killed := true }) := by
  rw [kill, if_neg (by decide), if_pos rfl, dif_pos ⟨Int.natCast_nonneg _, by omega⟩]
  rfl

theorem kill_outside {pid : Int} (h : ¬(0 ≤ pid ∧ pid < n)) : ∃ e,
    s.kill pid 15 = .error e :=
  ⟨_, by rw [kill, if_neg (by decide), if_pos rfl, dif_neg h]⟩

/-- A place that is free after a step was free before, with the same pid, or was freed by it. -/
theorem step_unused {e : PoolEvent n} {s' : Pool n} (hs : PoolStep init s e s') (q : Fin n)
    (hq : (s'.procs q).state = .unused) :
    (s'.procs q).pid = 0 ∨ ((s.procs q).state = .unused ∧ (s'.procs q).pid = (s.procs q).pid) :=
      by
  cases hs with
  | exit p code hrun hcall hinit hlocks =>
    simp only [exit, orphan] at hq ⊢
    split at hq
    · cases hq
    · next hne =>
      rw [if_neg hne]
      simp only at hq ⊢
      split at hq
      · cases hq
      · exact .inr ⟨hq, trivial⟩
  | _ =>
    simp only [alloc, allocFail, forkFail, reap, set_procs, Proc.freeproc] at hq ⊢
    split_ifs at hq ⊢ <;> simp_all [Running]

/-- A free place of the pool has the pid 0. -/
theorem unused_pid (h : PoolReach init ok s) (q : Fin n) (hq : (s.procs q).state = .unused) :
    (s.procs q).pid = 0 := by
  induction h generalizing q with
  | start =>
    simp only [start] at hq ⊢
    split at hq
    · cases hq
    · next hne => rw [if_neg hne]
  | step h hok hs ih =>
    rcases step_unused hs q hq with hfree | ⟨hold, hpid⟩
    · exact hfree
    · rw [hpid, ih q hold]

/-- `prlimit64` selects the process that is named. -/
theorem Names.selected (h : PoolReach init ok s) {pid : Int} (hpid : pid ≠ 0) {p : Fin n}
    (hp : s.Names pid p) : s.selected pid = some p := by
  cases hsel : s.selected pid with
  | none =>
    have hno := List.find?_eq_none.mp hsel p (List.mem_finRange p)
    exact absurd hp.2 (by simpa using hno)
  | some q =>
    have hq : ((s.procs q).pid : Int) = pid := by simpa using List.find?_some hsel
    have hused : (s.procs q).state ≠ .unused := fun hfree => by
      rw [unused_pid h q hfree] at hq
      exact hpid hq.symm
    exact congrArg some ((PoolInv.reach h).pid_inj q p hused hp.1 (by have := hp.2; omega))

/-- The pids of the processes in use tell them apart. -/
theorem Names.unique (h : PoolReach init ok s) {pid : Int} {p q : Fin n} (hp : s.Names pid p)
    (hq : s.Names pid q) : p = q :=
  (PoolInv.reach h).pid_inj p q hp.1 hq.1 (by have := hp.2; have := hq.2; omega)

end Pool

open Pool in
/-- `kill( pid, 15 )` marks the process with the pid if and only if there is one, and it is at the
place `pid` of the pool, or both that one and the one at the place `pid` are marked already. -/
theorem kill_named_iff {n : Nat} {init : Fin n} {ok : Pool n → PoolEvent n → Prop} {s : Pool n}
    (h : PoolReach init ok s) (pid : Int) :
    s.KillsNamed pid (s.sysKill pid 15) ↔ ∃ p q : Fin n, s.Names pid p ∧ (q : Int) = pid ∧
      (q = p ∨ (s.procs p).killed = true ∧ (s.procs q).killed = true) := by
  have hsys : s.sysKill pid 15 = s.kill pid 15 := if_neg (by decide)
  rw [hsys]
  constructor
  · rintro ⟨hnamed, hnone⟩
    by_cases hex : ∃ p, s.Names pid p
    · obtain ⟨p, hp⟩ := hex
      obtain ⟨code, -, hrun⟩ := hnamed p hp
      by_cases hin : 0 ≤ pid ∧ pid < n
      · obtain ⟨q, rfl⟩ : ∃ q : Fin n, (q : Int) = pid :=
          ⟨⟨pid.toNat, by omega⟩, by simp [hin.1]⟩
        refine ⟨p, q, hp, rfl, ?_⟩
        rw [kill_place] at hrun
        have hset := congrArg Prod.snd (Except.ok.inj hrun)
        by_cases hne : q = p
        · exact .inl hne
        · exact .inr (set_killed_eq hset hne).symm
      · obtain ⟨e, he⟩ := kill_outside (s := s) hin
        rw [he] at hrun
        cases hrun
    · obtain ⟨code, hneg, hrun⟩ := hnone (not_exists.mp hex)
      by_cases hin : 0 ≤ pid ∧ pid < n
      · obtain ⟨q, rfl⟩ : ∃ q : Fin n, (q : Int) = pid :=
          ⟨⟨pid.toNat, by omega⟩, by simp [hin.1]⟩
        rw [kill_place] at hrun
        have hcode := congrArg Prod.fst (Except.ok.inj hrun)
        simp only at hcode
        omega
      · obtain ⟨e, he⟩ := kill_outside (s := s) hin
        rw [he] at hrun
        cases hrun
  · rintro ⟨p, q, hp, rfl, hplace⟩
    refine ⟨fun p' hp' => ⟨0, Int.le_refl 0, ?_⟩, fun hnone => absurd hp (hnone p)⟩
    obtain rfl := hp.unique h hp'
    rw [kill_place]
    rcases hplace with rfl | ⟨hkp, hkq⟩
    · rfl
    · rw [set_killed_self hkp, set_killed_self hkq]

/-- The init process is at the place of its pid. -/
theorem kill_named_sample :
    (Pool.start (1 : Fin 2)).KillsNamed 1 ((Pool.start (1 : Fin 2)).sysKill 1 15) :=
  (kill_named_iff (show PoolReach 1 (fun _ _ => True) (Pool.start (1 : Fin 2)) from .start) 1).mpr
    ⟨1, 1, ⟨by decide, by decide⟩, by decide, .inl rfl⟩

/-- The init process is at the place 0, and its pid is 1: the place 1, which is free, is marked. -/
theorem kill_marks_free_place : PoolReach (0 : Fin 2) (fun _ _ => True) (Pool.start 0) ∧
    (Pool.start (0 : Fin 2)).Names 1 0 ∧
    (∃ s', (Pool.start (0 : Fin 2)).sysKill 1 15 = .ok (0, s') ∧ (s'.procs 0).killed = false ∧
      (s'.procs 1).killed = true ∧ (s'.procs 1).state = .unused) ∧
    ¬(Pool.start (0 : Fin 2)).KillsNamed 1 ((Pool.start (0 : Fin 2)).sysKill 1 15) := by
  have hnames : (Pool.start (0 : Fin 2)).Names 1 0 := ⟨by decide, by decide⟩
  refine ⟨PoolReach.start, hnames, ⟨_, rfl, rfl, rfl, rfl⟩, fun h => ?_⟩
  obtain ⟨code, -, hrun⟩ := h.1 0 hnames
  have hmark : false = true := congrArg (fun r => (r.2.procs 0).killed) (Except.ok.inj hrun)
  cases hmark

end OsKernel.Pm

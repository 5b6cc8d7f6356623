import OsKernel.Lib.ParentForest
import OsKernel.Pm.Reap

/-! The parent pointers of the pool form a forest: a process is younger than its parent, and a
process that exits leaves its children to the init process, which is the oldest. -/

namespace OsKernel.Pm
open ParentForest

namespace Pool

variable {n : Nat} (s : Pool n)

/-- The parent pointers of the pool. -/
def up (p : Fin n) : Option (Fin n) := (s.procs p).parent

/-- The parent pointers form a forest of processes that are in use. -/
structure Forest : Prop where
  acyclic : Acyclic s.up
  unused : ∀ p, (s.procs p).state = .unused → s.up p = none
  used : ∀ p q, s.up p = some q → (s.procs q).state ≠ .unused

end Pool

variable {n : Nat} {s s' : Pool n} {init : Fin n}

/-- The order of the pids in the pool. -/
structure Ranked (init : Fin n) (s : Pool n) : Prop where
  older : ∀ p q, (s.procs p).parent = some q → (s.procs q).pid < (s.procs p).pid
  live : ∀ p q, (s.procs p).parent = some q → (s.procs q).state.live = true
  unused : ∀ p, (s.procs p).state = .unused → (s.procs p).parent = none
  slot : ∀ p np, (s.procs p).call.slot = some np → (s.procs p).pid < (s.procs np).pid
  init_pid : (s.procs init).pid = 1
  init_live : (s.procs init).state.live = true
  young : ∀ p, p ≠ init → (s.procs p).state ≠ .unused → 1 < (s.procs p).pid
  curPid : 1 < s.curPid

namespace Ranked

theorem start : Ranked init (Pool.start init) := by
  have hparent : ∀ p, ((Pool.start init).procs p).parent = none := by
    intro p
    simp only [Pool.start]
    split <;> rfl
  have hslot : ∀ p, ((Pool.start init).procs p).call.slot = none := by
    intro p
    simp only [Pool.start]
    split <;> rfl
  refine ⟨?_, ?_, fun p _ => hparent p, ?_, ?_, ?_, ?_, ?_⟩
  · intro p q h
    rw [hparent] at h
    cases h
  · intro p q h
    rw [hparent] at h
    cases h
  · intro p np h
    rw [hslot] at h
    cases h
  · simp [Pool.start]
  · simp [Pool.start, ProcState.live]
  · intro p hp hu
    simp [Pool.start, hp] at hu
  · simp [Pool.start]

theorem not_parent (h : Ranked init s) {p q : Fin n} (hq : (s.procs q).state.live = false) :
    (s.procs p).parent ≠ some q := by
  intro hp
  rw [h.live p q hp] at hq
  cases hq

/-- A step that keeps the pids and the parents, and the live processes live. -/
theorem frame (h : Ranked init s) (hcur : s'.curPid = s.curPid)
    (hpid : ∀ q, (s'.procs q).pid = (s.procs q).pid)
    (hparent : ∀ q, (s'.procs q).parent = (s.procs q).parent)
    (hlive : ∀ q, (s.procs q).state.live = true → (s'.procs q).state.live = true)
    (hunused : ∀ q, (s'.procs q).state = .unused ↔ (s.procs q).state = .unused)
    (hslot : ∀ q np, (s'.procs q).call.slot = some np → (s.procs q).call.slot = some np) :
    Ranked init s' := by
  refine ⟨?_, ?_, ?_, ?_, ?_, hlive init h.init_live, ?_, hcur ▸ h.curPid⟩
  · intro p q hp
    rw [hpid, hpid]
    exact h.older p q (hparent p ▸ hp)
  · intro p q hp
    exact hlive q (h.live p q (hparent p ▸ hp))
  · intro p hp
    rw [hparent]
    exact h.unused p ((hunused p).mp hp)
  · intro p np hp
    rw [hpid, hpid]
    exact h.slot p np (hslot p np hp)
  · rw [hpid]
    exact h.init_pid
  · intro p hp hu
    rw [hpid]
    exact h.young p hp (mt (hunused p).mpr hu)

/-- A step of one process. -/
theorem move (h : Ranked init s) {p : Fin n} {f : Proc n → Proc n}
    (hpid : (f (s.procs p)).pid = (s.procs p).pid)
    (hparent : (f (s.procs p)).parent = (s.procs p).parent)
    (hstate : (f (s.procs p)).state = (s.procs p).state ∨
      (f (s.procs p)).state.live = true ∧ (s.procs p).state ≠ .unused)
    (hslot : (f (s.procs p)).call.slot = (s.procs p).call.slot ∨
      (f (s.procs p)).call.slot = none) : Ranked init (s.set p f) := by
  have hlive : (s.procs p).state.live = true → (f (s.procs p)).state.live = true := by
    intro hl
    rcases hstate with he | ⟨he, -⟩
    · rwa [he]
    · exact he
  have hunused : (f (s.procs p)).state = .unused ↔ (s.procs p).state = .unused := by
    rcases hstate with he | ⟨he, hu⟩
    · rw [he]
    · exact ⟨fun hu' => (by rw [hu'] at he; cases he), fun hu' => absurd hu' hu⟩
  refine h.frame rfl ?_ ?_ ?_ ?_ ?_
  · intro q
    rw [Pool.set_procs]
    split
    · rename_i hq
      rw [hq, hpid]
    · rfl
  · intro q
    rw [Pool.set_procs]
    split
    · rename_i hq
      rw [hq, hparent]
    · rfl
  · intro q
    rw [Pool.set_procs]
    split
    · rename_i hq
      rw [hq]
      exact hlive
    · exact id
  · intro q
    rw [Pool.set_procs]
    split
    · rename_i hq
      rw [hq]
      exact hunused
    · rfl
  · intro q np
    rw [Pool.set_procs]
    split
    · rename_i hq
      rw [hq]
      intro hs
      rcases hslot with he | he
      · rwa [he] at hs
      · rw [he] at hs
        cases hs
    · exact id

/-- `freeproc` of a slot without children, that no other process has taken for a `fork`. -/
theorem freeproc (h : Ranked init s) (np : Fin n) (hnp : (s.procs np).state.live = false)
    (hslot : ∀ q, (s.procs q).call.slot ≠ some np) : Ranked init (s.set np Proc.freeproc) := by
  have hinit : init ≠ np := by
    rintro rfl
    rw [h.init_live] at hnp
    cases hnp
  refine ⟨?_, ?_, ?_, ?_, ?_, ?_, ?_, h.curPid⟩
  · intro p q hp
    rw [Pool.set_procs] at hp
    split at hp
    · cases hp
    · rename_i hpn
      have hqn : q ≠ np := fun hq => h.not_parent hnp (hq ▸ hp)
      simpa [hpn, hqn] using h.older p q hp
  · intro p q hp
    rw [Pool.set_procs] at hp
    split at hp
    · cases hp
    · have hqn : q ≠ np := fun hq => h.not_parent hnp (hq ▸ hp)
      simpa [hqn] using h.live p q hp
  · intro p hp
    rw [Pool.set_procs] at hp ⊢
    split
    · rfl
    · rename_i hpn
      rw [if_neg hpn] at hp
      exact h.unused p hp
  · intro p k hk
    rw [Pool.set_procs] at hk
    split at hk
    · cases hk
    · rename_i hpn
      have hkn : k ≠ np := fun hkn => hslot p (hkn ▸ hk)
      simpa [hpn, hkn] using h.slot p k hk
  · simpa [hinit] using h.init_pid
  · simpa [hinit] using h.init_live
  · intro p hp hu
    rw [Pool.set_procs] at hu ⊢
    split at hu
    · exact absurd rfl hu
    · rename_i hpn
      rw [if_neg hpn]
      exact h.young p hp hu

theorem congr (h : Ranked init s) (hprocs : s'.procs = s.procs) (hcur : s.curPid ≤ s'.curPid) :
    Ranked init s' := by
  refine ⟨?_, ?_, ?_, ?_, ?_, ?_, ?_, h.curPid.trans_le hcur⟩
  all_goals rw [hprocs]
  · exact h.older
  · exact h.live
  · exact h.unused
  · exact h.slot
  · exact h.init_pid
  · exact h.init_live
  · exact h.young

/-- The slot `np` is taken for a `fork` of `p`. -/
theorem alloc (h : Ranked init s) (hinv : PoolInv s) {p np : Fin n}
    (hp : (s.procs p).state = .running) (hnp : (s.procs np).state = .unused) :
    Ranked init (s.alloc p np) := by
  have hne : p ≠ np := by
    rintro rfl
    rw [hp] at hnp
    cases hnp
  have hinit : init ≠ np := by
    rintro rfl
    have hl := h.init_live
    rw [hnp] at hl
    cases hl
  -- The new pid is above all others, and nothing points to the new slot.
  have hparent : ∀ q, ((s.alloc p np).procs q).parent = (s.procs q).parent := by
    intro q
    by_cases hqp : q = p
    · simp [Pool.alloc, hqp, hne]
    · by_cases hqn : q = np <;> simp [Pool.alloc, hqp, hqn, hne.symm]
  have hpid : ∀ q, q ≠ np → ((s.alloc p np).procs q).pid = (s.procs q).pid := by
    intro q hqn
    by_cases hqp : q = p <;> simp [Pool.alloc, hqp, hqn, hne]
  have hnew : ((s.alloc p np).procs np).pid = s.curPid := by simp [Pool.alloc, hne.symm]
  have hstate : ∀ q, q ≠ np → ((s.alloc p np).procs q).state = (s.procs q).state := by
    intro q hqn
    by_cases hqp : q = p <;> simp [Pool.alloc, hqp, hqn, hne]
  have hnot : ∀ q r, (s.procs q).parent = some r → q ≠ np ∧ r ≠ np := by
    intro q r hq
    refine ⟨?_, ?_⟩
    · rintro rfl
      rw [h.unused q hnp] at hq
      cases hq
    · rintro rfl
      exact h.not_parent (by rw [hnp]; rfl) hq
  refine ⟨?_, ?_, ?_, ?_, ?_, ?_, ?_, h.curPid.trans (Nat.lt_succ_self _)⟩
  · intro q r hq
    rw [hparent] at hq
    obtain ⟨hqn, hrn⟩ := hnot q r hq
    rw [hpid q hqn, hpid r hrn]
    exact h.older q r hq
  · intro q r hq
    rw [hparent] at hq
    rw [hstate r (hnot q r hq).2]
    exact h.live q r hq
  · intro q hq
    rw [hparent]
    by_cases hqn : q = np
    · exact h.unused q (hqn ▸ hnp)
    · exact h.unused q (hstate q hqn ▸ hq)
  · intro q k hk
    by_cases hqp : q = p
    · subst hqp
      obtain rfl : np = k := by simpa [Pool.alloc, Call.slot] using hk
      rw [hpid q hne, hnew]
      exact hinv.pid_lt q (by simp [hp])
    · by_cases hqn : q = np
      · subst hqn
        simp [Pool.alloc, hqp, Call.slot] at hk
      · have hk' : (s.procs q).call.slot = some k := by simpa [Pool.alloc, hqp, hqn] using hk
        have hkn : k ≠ np := by
          rintro rfl
          rw [(hinv.slot_used q k hk').1] at hnp
          cases hnp
        rw [hpid q hqn, hpid k hkn]
        exact h.slot q k hk'
  · rw [hpid init hinit]
    exact h.init_pid
  · rw [hstate init hinit]
    exact h.init_live
  · intro q hq hu
    by_cases hqn : q = np
    · rw [hqn, hnew]
      exact h.curPid
    · rw [hpid q hqn]
      exact h.young q hq (hstate q hqn ▸ hu)

/-- A `fork` of `p` becomes the parent of its slot. -/
theorem adopt (h : Ranked init s) {p np : Fin n} (hp : (s.procs p).state = .running)
    (hnp : (s.procs np).state = .used) (hslot : (s.procs p).call.slot = some np) :
    Ranked init (s.set np fun q => { q with parent := some p }) := by
  have hpid : ∀ q, ((s.set np fun q => { q with parent := some p }).procs q).pid =
      (s.procs q).pid := by
    intro q
    by_cases hq : q = np <;> simp [hq]
  have hstate : ∀ q, ((s.set np fun q => { q with parent := some p }).procs q).state =
      (s.procs q).state := by
    intro q
    by_cases hq : q = np <;> simp [hq]
  refine ⟨?_, ?_, ?_, ?_, ?_, ?_, ?_, h.curPid⟩
  · intro q r hq
    rw [hpid, hpid]
    rw [Pool.set_procs] at hq
    split at hq
    · rename_i hqn
      obtain rfl : p = r := Option.some.inj hq
      rw [hqn]
      exact h.slot p np hslot
    · exact h.older q r hq
  · intro q r hq
    rw [hstate]
    rw [Pool.set_procs] at hq
    split at hq
    · obtain rfl : p = r := Option.some.inj hq
      rw [hp]
      rfl
    · exact h.live q r hq
  · intro q hq
    rw [hstate] at hq
    have hqn : q ≠ np := by
      rintro rfl
      rw [hnp] at hq
      cases hq
    simpa [hqn] using h.unused q hq
  · intro q k hk
    rw [hpid, hpid]
    refine h.slot q k ?_
    by_cases hqn : q = np <;> simpa [hqn] using hk
  · rw [hpid]
    exact h.init_pid
  · rw [hstate]
    exact h.init_live
  · intro q hq hu
    rw [hpid]
    exact h.young q hq (hstate q ▸ hu)

/-- The process `p` exits, and the init process becomes the parent of its children. -/
theorem exit (h : Ranked init s) {p : Fin n} {code : BitVec 32} (hinit : p ≠ init)
    (hp : (s.procs p).state = .running) : Ranked init (s.exit init p code) := by
  have hpid : ∀ q, ((s.exit init p code).procs q).pid = (s.procs q).pid := by
    intro q
    by_cases hq : q = p <;> simp [Pool.exit, Pool.orphan, hq]
  have hparent : ∀ q, ((s.exit init p code).procs q).parent =
      if (s.procs q).parent = some p then some init else (s.procs q).parent := by
    intro q
    by_cases hq : q = p <;> simp [Pool.exit, Pool.orphan, hq]
  have hslot : ∀ q, ((s.exit init p code).procs q).call = (s.procs q).call := by
    intro q
    by_cases hq : q = p <;> simp [Pool.exit, Pool.orphan, hq]
  have hlive : ∀ q, q ≠ p → (s.procs q).state.live = true →
      ((s.exit init p code).procs q).state.live = true := by
    intro q hq hl
    simp only [Pool.exit, Pool.orphan, if_neg hq]
    split
    · rfl
    · exact hl
  have hunused : ∀ q, ((s.exit init p code).procs q).state = .unused →
      (s.procs q).state = .unused := by
    intro q hu
    by_cases hq : q = p
    · simp [Pool.exit, hq] at hu
    · simp only [Pool.exit, Pool.orphan, if_neg hq] at hu
      split at hu
      · cases hu
      · exact hu
  have hold := h.young p hinit (by simp [hp])
  refine ⟨?_, ?_, ?_, ?_, ?_, hlive init hinit.symm h.init_live, ?_, h.curPid⟩
  · intro q r hq
    rw [hpid, hpid]
    rw [hparent] at hq
    split at hq
    · rename_i hqp
      obtain rfl : init = r := Option.some.inj hq
      have hqp := h.older q p hqp
      rw [h.init_pid]
      omega
    · exact h.older q r hq
  · intro q r hq
    rw [hparent] at hq
    split at hq
    · obtain rfl : init = r := Option.some.inj hq
      exact hlive init hinit.symm h.init_live
    · rename_i hqp
      exact hlive r (fun hr => hqp (hr ▸ hq)) (h.live q r hq)
  · intro q hq
    rw [hparent, h.unused q (hunused q hq)]
    simp
  · intro q k hk
    rw [hpid, hpid]
    exact h.slot q k (hslot q ▸ hk)
  · rw [hpid]
    exact h.init_pid
  · intro q hq hu
    rw [hpid]
    refine h.young q hq fun hu' => hu ?_
    have hqp : q ≠ p := by
      rintro rfl
      rw [hp] at hu'
      cases hu'
    simp [Pool.exit, Pool.orphan, hqp, hu']

theorem step (h : Ranked init s) (hinv : PoolInv s) {e : PoolEvent n} (hs : PoolStep init s e s') :
    Ranked init s' := by
  cases hs with
  | alloc p np hrun hcall hnp hlock => exact h.alloc hinv hrun.1 (Pool.allocSlot_unused hnp)
  | allocFail p np hrun hcall hnp hlock =>
    have hu := Pool.allocSlot_unused hnp
    refine (h.freeproc np (by rw [hu]; rfl) fun q hq => ?_).congr rfl (Nat.le_succ _)
    rw [(hinv.slot_used q np hq).1] at hu
    cases hu
  | forkFail p np hrun hcall =>
    obtain ⟨hne, hu, hslot⟩ := hinv.fork_slot hrun (by rw [hcall]; rfl)
    have h1 : Ranked init (s.set p fun q => { q with call := .none }) :=
      h.move rfl rfl (Or.inl rfl) (Or.inr rfl)
    have h2 := h1.freeproc np (by simp [hne.symm, hu, ProcState.live]) fun q hq => ?_
    · refine h2.congr ?_ (Nat.le_refl _)
      funext q
      by_cases hqp : q = p <;> by_cases hqn : q = np <;> simp_all [Pool.forkFail]
    · by_cases hqp : q = p
      · simp [hqp, Call.slot] at hq
      · exact hqp (hslot q (by simpa [hqp] using hq))
  | forkParent p np hrun hcall =>
    obtain ⟨hne, hu, -⟩ := hinv.fork_slot hrun (by rw [hcall]; rfl)
    exact (h.adopt hrun.1 hu (by rw [hcall]; rfl)).move rfl rfl (Or.inl rfl)
      (Or.inl (by simp [hne, hcall, Call.slot]))
  | forkRun p np hrun hcall =>
    obtain ⟨-, hu, -⟩ := hinv.fork_slot hrun (by rw [hcall]; rfl)
    have h1 : Ranked init (s.set np fun q => { q with state := .runnable }) :=
      h.move rfl rfl (Or.inr ⟨rfl, by simp [hu]⟩) (Or.inl rfl)
    exact h1.move rfl rfl (Or.inl rfl) (Or.inr rfl)
  | exit p code hrun hcall hinit hlocks => exact h.exit hinit hrun.1
  | switch p hlock hstack => exact h.move rfl rfl (Or.inl rfl) (Or.inl rfl)
  | waitCall p childPid hrun hcall hchild => exact h.move rfl rfl (Or.inl rfl) (Or.inr rfl)
  | reap p np childPid hrun hcall hnp hlocks =>
    have hz := (Pool.zombieKid_spec hnp).2.1
    have h1 := h.freeproc np (by rw [hz]; rfl) fun q hq => ?_
    · have h2 : Ranked init ((s.set np Proc.freeproc).set p fun q => { q with call := .none }) :=
        h1.move rfl rfl (Or.inl rfl) (Or.inr rfl)
      exact h2.congr rfl (Nat.le_refl _)
    · rw [(hinv.slot_used q np hq).1] at hz
      cases hz
  | waitFault p np childPid hrun hcall hnp hlocks => exact h.move rfl rfl (Or.inl rfl) (Or.inr rfl)
  | waitNone p childPid hrun hcall hnp hlocks hend =>
    exact h.move rfl rfl (Or.inl rfl) (Or.inr rfl)
  | waitSleep p childPid hrun hcall hnp hlocks hkids hkilled =>
    exact h.move rfl rfl (Or.inr ⟨rfl, by simp [hrun.1]⟩) (Or.inl rfl)
  | yield p hrun => exact h.move rfl rfl (Or.inr ⟨rfl, by simp [hrun.1]⟩) (Or.inl rfl)
  | schedule p hstate hlock =>
    exact h.move rfl rfl (Or.inr ⟨rfl, by simp [hstate]⟩) (Or.inl rfl)
  | kill => exact h.move rfl rfl (Or.inl rfl) (Or.inl rfl)

theorem forest (h : Ranked init s) : s.Forest := by
  refine ⟨Acyclic.of_lt (fun p => (s.procs p).pid) h.older, h.unused, fun p q hp hq => ?_⟩
  have hl := h.live p q hp
  rw [hq] at hl
  cases hl

end Ranked

/-- The parent pointers form a forest in every state of a run. -/
theorem PoolReach.forest {ok : Pool n → PoolEvent n → Prop} (h : PoolReach init ok s) :
    s.Forest := by
  have hboth : PoolInv s ∧ Ranked init s := by
    induction h with
    | start => exact ⟨PoolInv.start, Ranked.start⟩
    | step _ _ hs ih => exact ⟨ih.1.step hs, ih.2.step ih.1 hs⟩
  exact hboth.2.forest

end OsKernel.Pm

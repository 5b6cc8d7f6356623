import OsKernel.Pm.Lifetime

/-! Every exited child is returned by one `wait` of its parent, after it has left its kernel
stack. -/

namespace OsKernel.Pm

/-- The process takes part in scheduling. -/
def ProcState.live : ProcState → Bool
  | .sleeping | .runnable | .running => true
  | .unused | .used | .zombie => false

/-- The slot that a `fork` in progress has taken. -/
def Call.slot {n : Nat} : Call n → Option (Fin n)
  | .fork np | .forked np => some np
  | .none | .wait _ => Option.none

variable {n : Nat} {s s' : Pool n} {init : Fin n}

@[simp] theorem Pool.set_procs (p q : Fin n) (f : Proc n → Proc n) :
    (s.set p f).procs q = if q = p then f (s.procs p) else s.procs q := by
  simp only [Pool.set, Function.update_apply]

theorem Pool.allocSlot_unused {np : Fin n} (h : s.allocSlot = some np) :
    (s.procs np).state = .unused := by
  simpa using List.find?_some h

theorem Pool.mem_kids {p q : Fin n} {childPid : Int} : q ∈ s.kids p childPid ↔
    (childPid ≤ 0 ∨ (s.procs q).pid = childPid) ∧ (s.procs q).parent = some p := by
  simp [Pool.kids]

theorem Pool.zombieKid_spec {p np : Fin n} {childPid : Int} (h : s.zombieKid p childPid = some np) :
    np ∈ s.kids p childPid ∧ (s.procs np).state = .zombie ∧ (s.procs np).parent = some p := by
  have hmem := List.mem_of_find?_eq_some h
  exact ⟨hmem, by simpa using List.find?_some h, (Pool.mem_kids.mp hmem).2⟩

theorem Pool.Running.ne_of_zombie {p np : Fin n} (h : s.Running p)
    (hz : (s.procs np).state = .zombie) : p ≠ np := by
  rintro rfl
  rw [h.1] at hz
  cases hz

/-- What the steps of the pool keep.  A pid is a lifetime: it is in use, or it is in `freed`. -/
structure PoolInv (s : Pool n) : Prop where
  pid_inj : ∀ p q, (s.procs p).state ≠ .unused → (s.procs q).state ≠ .unused →
    (s.procs p).pid = (s.procs q).pid → p = q
  pid_lt : ∀ p, (s.procs p).state ≠ .unused → (s.procs p).pid < s.curPid
  pid_kept : ∀ p, (s.procs p).state ≠ .unused → (s.procs p).pid ∉ s.freed
  freed_lt : ∀ k ∈ s.freed, k < s.curPid
  freed_nodup : s.freed.Nodup
  exits_nodup : (s.exits.map Prod.fst).Nodup
  exits_where : ∀ e ∈ s.exits, e.1 ∈ s.reaps.map Reap.pid ∨
    ∃ z, (s.procs z).state = .zombie ∧ (s.procs z).pid = e.1
  zombie_exit : ∀ z, (s.procs z).state = .zombie →
    ∃ code, ((s.procs z).pid, code) ∈ s.exits ∧ (s.procs z).xstate = code <<< 8
  zombie_stack : ∀ z, (s.procs z).state = .zombie → (s.procs z).onStack = true →
    (s.procs z).locked = true
  reaps_freed : (s.reaps.map Reap.pid).Sublist s.freed
  reaps_exit : ∀ r ∈ s.reaps, ∃ code, (r.pid, code) ∈ s.exits ∧ r.status = code <<< 8
  slot_used : ∀ p np, (s.procs p).call.slot = some np →
    (s.procs np).state = .used ∧ (s.procs p).state.live = true
  slot_inj : ∀ p q np, (s.procs p).call.slot = some np → (s.procs q).call.slot = some np →
    p = q

namespace PoolInv

theorem start : PoolInv (Pool.start init) := by
  have hstate : ∀ p, ((Pool.start init).procs p).state ≠ .unused → p = init := by
    intro p hp
    by_contra hne
    exact hp (by simp [Pool.start, hne])
  have hzombie : ∀ p, ((Pool.start init).procs p).state ≠ .zombie := by
    intro p hp
    simp only [Pool.start] at hp
    split at hp <;> cases hp
  have hslot : ∀ p, ((Pool.start init).procs p).call.slot = none := by
    intro p
    simp only [Pool.start]
    split <;> rfl
  refine ⟨fun p q hp hq _ => (hstate p hp).trans (hstate q hq).symm, ?_, ?_, ?_, ?_, ?_, ?_,
    fun z hz => absurd hz (hzombie z), fun z hz => absurd hz (hzombie z), ?_, ?_, ?_, ?_⟩
  · intro p hp
    simp [hstate p hp, Pool.start]
  · intro p _
    simp [Pool.start]
  · simp [Pool.start]
  · simp [Pool.start]
  · simp [Pool.start]
  · simp [Pool.start]
  · simp [Pool.start]
  · simp [Pool.start]
  · intro p np h
    rw [hslot p] at h
    cases h
  · intro p q np h
    rw [hslot p] at h
    cases h

/-- The pid of a process that has not exited is not in the history. -/
theorem not_exited (h : PoolInv s) {p : Fin n} (hu : (s.procs p).state ≠ .unused)
    (hz : (s.procs p).state ≠ .zombie) : (s.procs p).pid ∉ s.exits.map Prod.fst := by
  intro hmem
  obtain ⟨e, he, hpid⟩ := List.mem_map.mp hmem
  rcases h.exits_where e he with hr | ⟨z, hstate, hz'⟩
  · exact h.pid_kept p hu (hpid ▸ h.reaps_freed.subset hr)
  · have := h.pid_inj z p (by simp [hstate]) hu (hz'.trans hpid)
    exact hz (this ▸ hstate)

/-- A step that moves processes between the states of scheduling and writes no history. -/
theorem frame (h : PoolInv s) (hcur : s'.curPid = s.curPid) (hexits : s'.exits = s.exits)
    (hreaps : s'.reaps = s.reaps) (hfreed : s'.freed = s.freed)
    (hpid : ∀ q, (s'.procs q).pid = (s.procs q).pid)
    (hxstate : ∀ q, (s'.procs q).xstate = (s.procs q).xstate)
    (hstate : ∀ q, (s'.procs q).state = (s.procs q).state ∨
      (s'.procs q).state.live = true ∧
        ((s.procs q).state = .used ∨ (s.procs q).state.live = true))
    (hstack : ∀ q, (s'.procs q).onStack = true → (s.procs q).state = .zombie →
      (s.procs q).onStack = true ∧ (s'.procs q).locked = (s.procs q).locked)
    (hslot : ∀ q np, (s'.procs q).call.slot = some np →
      (s.procs q).call.slot = some np ∧ (s'.procs np).state = (s.procs np).state) :
    PoolInv s' := by
  have hused : ∀ q, (s'.procs q).state ≠ .unused → (s.procs q).state ≠ .unused := by
    intro q hq
    rcases hstate q with he | ⟨-, he | he⟩
    · exact he ▸ hq
    · simp [he]
    · intro hu
      simp [hu, ProcState.live] at he
  have hzombie : ∀ q, (s'.procs q).state = .zombie ↔ (s.procs q).state = .zombie := by
    intro q
    rcases hstate q with he | ⟨hl, he⟩
    · rw [he]
    · refine ⟨fun hz => ?_, fun hz => ?_⟩
      · simp [hz, ProcState.live] at hl
      · simp [hz, ProcState.live] at he
  refine ⟨?_, ?_, ?_, ?_, ?_, ?_, ?_, ?_, ?_, ?_, ?_, ?_, ?_⟩
  · intro p q hp hq
    rw [hpid, hpid]
    exact h.pid_inj p q (hused p hp) (hused q hq)
  · intro p hp
    rw [hpid, hcur]
    exact h.pid_lt p (hused p hp)
  · intro p hp
    rw [hpid, hfreed]
    exact h.pid_kept p (hused p hp)
  · rw [hfreed, hcur]
    exact h.freed_lt
  · rw [hfreed]
    exact h.freed_nodup
  · rw [hexits]
    exact h.exits_nodup
  · intro e he
    rw [hexits] at he
    simpa only [hreaps, hzombie, hpid] using h.exits_where e he
  · intro z hz
    rw [hpid, hexits, hxstate]
    exact h.zombie_exit z ((hzombie z).mp hz)
  · intro z hz hs
    have hz' := (hzombie z).mp hz
    obtain ⟨hs', hl⟩ := hstack z hs hz'
    rw [hl]
    exact h.zombie_stack z hz' hs'
  · rw [hreaps, hfreed]
    exact h.reaps_freed
  · rw [hreaps, hexits]
    exact h.reaps_exit
  · intro p np hp
    obtain ⟨hp', hst⟩ := hslot p np hp
    obtain ⟨hu, hl⟩ := h.slot_used p np hp'
    refine ⟨hst.trans hu, ?_⟩
    rcases hstate p with he | ⟨hl', -⟩
    · rw [he]
      exact hl
    · exact hl'
  · intro p q np hp hq
    exact h.slot_inj p q np (hslot p np hp).1 (hslot q np hq).1

/-- `freeproc` of a slot that no `fork` holds, where `reaps` becomes `R`. -/
theorem free (h : PoolInv s) {p np : Fin n} {R : List Reap} (hne : p ≠ np)
    (hR : (s.procs np).state = .used ∧ R = s.reaps ∨
      (s.procs np).state = .zombie ∧ R = s.reaps ++ [⟨(s.procs np).pid, (s.procs np).xstate⟩])
    (hslot : ∀ q, q ≠ p → (s.procs q).call.slot ≠ some np) :
    PoolInv { (s.set np Proc.freeproc).set p fun q => { q with call := .none } with
      reaps := R
      freed := s.freed ++ [(s.procs np).pid] } := by
  have hnp : (s.procs np).state ≠ .unused := by
    rcases hR with ⟨hu, -⟩ | ⟨hu, -⟩ <;> simp [hu]
  -- Every slot but `np` is as before, apart from the call of `p`.
  set t : Pool n := { (s.set np Proc.freeproc).set p fun q => { q with call := .none } with
      reaps := R
      freed := s.freed ++ [(s.procs np).pid] } with ht
  have hprocs : ∀ q, t.procs q = if q = p then { s.procs p with call := .none } else
      if q = np then (s.procs np).freeproc else s.procs q := by
    intro q
    by_cases hq : q = p
    · simp [ht, hq, hne]
    · simp [ht, hq]
  have hother : ∀ q, (t.procs q).state ≠ .unused → q ≠ np ∧
      (s.procs q).state ≠ .unused ∧ (t.procs q).pid = (s.procs q).pid := by
    intro q hq
    rw [hprocs] at hq ⊢
    by_cases hqp : q = p
    · subst hqp
      rw [if_pos rfl] at hq ⊢
      exact ⟨hne, hq, rfl⟩
    · rw [if_neg hqp] at hq ⊢
      by_cases hqn : q = np
      · rw [if_pos hqn] at hq
        exact absurd rfl hq
      · rw [if_neg hqn] at hq ⊢
        exact ⟨hqn, hq, rfl⟩
  have hsame : ∀ q, q ≠ np → (t.procs q).state = (s.procs q).state ∧
      (t.procs q).pid = (s.procs q).pid ∧ (t.procs q).xstate = (s.procs q).xstate ∧
      (t.procs q).onStack = (s.procs q).onStack ∧ (t.procs q).locked = (s.procs q).locked := by
    intro q hq
    rw [hprocs]
    by_cases hqp : q = p
    · subst hqp
      simp
    · simp [hqp, hq]
  have hcall : ∀ q k, (t.procs q).call.slot = some k →
      q ≠ p ∧ q ≠ np ∧ (s.procs q).call.slot = some k := by
    intro q k hk
    rw [hprocs] at hk
    by_cases hqp : q = p
    · rw [if_pos hqp] at hk
      cases hk
    · rw [if_neg hqp] at hk
      by_cases hqn : q = np
      · rw [if_pos hqn] at hk
        cases hk
      · rw [if_neg hqn] at hk
        exact ⟨hqp, hqn, hk⟩
  refine ⟨?_, ?_, ?_, ?_, ?_, h.exits_nodup, ?_, ?_, ?_, ?_, ?_, ?_, ?_⟩
  · intro a b ha hb hab
    obtain ⟨-, ha', hpa⟩ := hother a ha
    obtain ⟨-, hb', hpb⟩ := hother b hb
    exact h.pid_inj a b ha' hb' (by rw [← hpa, ← hpb, hab])
  · intro a ha
    obtain ⟨-, ha', hpa⟩ := hother a ha
    rw [hpa]
    exact h.pid_lt a ha'
  · intro a ha hmem
    obtain ⟨hne', ha', hpa⟩ := hother a ha
    rcases List.mem_append.mp hmem with hmem | hmem
    · exact h.pid_kept a ha' (hpa ▸ hmem)
    · exact hne' (h.pid_inj a np ha' hnp (hpa ▸ List.mem_singleton.mp hmem))
  · intro k hk
    rcases List.mem_append.mp hk with hk | hk
    · exact h.freed_lt k hk
    · rw [List.mem_singleton.mp hk]
      exact h.pid_lt np hnp
  · refine List.nodup_append.mpr ⟨h.freed_nodup, List.nodup_singleton _, ?_⟩
    intro a ha b hb hab
    rw [hab, List.mem_singleton.mp hb] at ha
    exact h.pid_kept np hnp ha
  · intro e he
    rcases h.exits_where e he with hr | ⟨z, hz, hze⟩
    · left
      rcases hR with ⟨-, rfl⟩ | ⟨-, rfl⟩
      · exact hr
      · rw [ht, List.map_append]
        exact List.mem_append_left _ hr
    · by_cases hzn : z = np
      · rcases hR with ⟨hu, -⟩ | ⟨-, rfl⟩
        · rw [hzn, hu] at hz
          cases hz
        · left
          simp [ht, ← hze, hzn]
      · obtain ⟨hst, hpid, -⟩ := hsame z hzn
        exact Or.inr ⟨z, hst.trans hz, hpid.trans hze⟩
  · intro z hz
    obtain ⟨hzn, -, -⟩ := hother z (by simp [hz])
    obtain ⟨hst, hpid, hx, -⟩ := hsame z hzn
    rw [hpid, hx]
    exact h.zombie_exit z (hst ▸ hz)
  · intro z hz hs
    obtain ⟨hzn, -, -⟩ := hother z (by simp [hz])
    obtain ⟨hst, -, -, hstack, hlock⟩ := hsame z hzn
    rw [hlock]
    exact h.zombie_stack z (hst ▸ hz) (hstack ▸ hs)
  · rcases hR with ⟨-, rfl⟩ | ⟨-, rfl⟩
    · exact h.reaps_freed.trans (List.sublist_append_left _ _)
    · simpa [ht] using h.reaps_freed.append (List.Sublist.refl [(s.procs np).pid])
  · rcases hR with ⟨-, rfl⟩ | ⟨hz, rfl⟩
    · exact h.reaps_exit
    · intro r hr
      rcases List.mem_append.mp hr with hr | hr
      · exact h.reaps_exit r hr
      · rw [List.mem_singleton.mp hr]
        exact h.zombie_exit np hz
  · intro a k hk
    obtain ⟨hap, han, hk'⟩ := hcall a k hk
    obtain ⟨hu, hl⟩ := h.slot_used a k hk'
    have hkn : k ≠ np := fun hkn => hslot a hap (hkn ▸ hk')
    exact ⟨(hsame k hkn).1.trans hu, (hsame a han).1 ▸ hl⟩
  · intro a b k ha hb
    exact h.slot_inj a b k (hcall a k ha).2.2 (hcall b k hb).2.2

theorem alloc (h : PoolInv s) {p np : Fin n} (hp : (s.procs p).state.live = true)
    (hnp : (s.procs np).state = .unused) (hcall : (s.procs p).call.slot = none) :
    PoolInv (s.alloc p np) := by
  have hne : p ≠ np := by
    rintro rfl
    simp [hnp, ProcState.live] at hp
  have hprocs : ∀ q, (s.alloc p np).procs q = if q = p then { s.procs p with call := .fork np }
      else
      if q = np then { s.procs np with pid := s.curPid, state := .used, call := .none } else
        s.procs q := by
    intro q
    by_cases hq : q = p
    · simp [Pool.alloc, hq, hne]
    · simp [Pool.alloc, hq]
  have hself : ((s.alloc p np).procs np).pid = s.curPid ∧
      ((s.alloc p np).procs np).state = .used := by
    rw [hprocs, if_neg hne.symm, if_pos rfl]
    exact ⟨rfl, rfl⟩
  have hsame : ∀ q, q ≠ np → ((s.alloc p np).procs q).state = (s.procs q).state ∧
      ((s.alloc p np).procs q).pid = (s.procs q).pid ∧
      ((s.alloc p np).procs q).xstate = (s.procs q).xstate ∧
      ((s.alloc p np).procs q).onStack = (s.procs q).onStack ∧
      ((s.alloc p np).procs q).locked = (s.procs q).locked := by
    intro q hq
    rw [hprocs]
    by_cases hqp : q = p
    · subst hqp
      simp
    · simp [hqp, hq]
  have hzombie : ∀ z, ((s.alloc p np).procs z).state = .zombie → z ≠ np := by
    rintro z hz rfl
    rw [hself.2] at hz
    cases hz
  have hslot : ∀ q k, ((s.alloc p np).procs q).call.slot = some k →
      q = p ∧ k = np ∨ q ≠ p ∧ q ≠ np ∧ k ≠ np ∧
        (s.procs q).call.slot = some k := by
    intro q k hk
    rw [hprocs] at hk
    by_cases hqp : q = p
    · rw [if_pos hqp] at hk
      exact Or.inl ⟨hqp, (Option.some.inj hk).symm⟩
    · rw [if_neg hqp] at hk
      by_cases hqn : q = np
      · rw [if_pos hqn] at hk
        cases hk
      · rw [if_neg hqn] at hk
        refine Or.inr ⟨hqp, hqn, ?_, hk⟩
        rintro rfl
        rw [(h.slot_used q k hk).1] at hnp
        cases hnp
  refine ⟨?_, ?_, ?_, ?_, h.freed_nodup, h.exits_nodup, ?_, ?_, ?_, h.reaps_freed, h.reaps_exit,
    ?_, ?_⟩
  · intro a b ha hb hab
    by_cases han : a = np <;> by_cases hbn : b = np
    · rw [han, hbn]
    · obtain ⟨hst, hpid, -⟩ := hsame b hbn
      have := h.pid_lt b (hst ▸ hb)
      rw [han, hself.1, hpid] at hab
      omega
    · obtain ⟨hst, hpid, -⟩ := hsame a han
      have := h.pid_lt a (hst ▸ ha)
      rw [hbn, hself.1, hpid] at hab
      omega
    · obtain ⟨hsta, hpa, -⟩ := hsame a han
      obtain ⟨hstb, hpb, -⟩ := hsame b hbn
      exact h.pid_inj a b (hsta ▸ ha) (hstb ▸ hb) (by rw [← hpa, ← hpb, hab])
  · intro a ha
    show _ < s.curPid + 1
    by_cases han : a = np
    · rw [han, hself.1]
      omega
    · obtain ⟨hst, hpid, -⟩ := hsame a han
      have := h.pid_lt a (hst ▸ ha)
      omega
  · intro a ha hmem
    by_cases han : a = np
    · rw [han, hself.1] at hmem
      have := h.freed_lt _ hmem
      omega
    · obtain ⟨hst, hpid, -⟩ := hsame a han
      exact h.pid_kept a (hst ▸ ha) (hpid ▸ hmem)
  · intro k hk
    exact Nat.lt_succ_of_lt (h.freed_lt k hk)
  · intro e he
    refine (h.exits_where e he).imp id ?_
    rintro ⟨z, hz, hze⟩
    have hzn : z ≠ np := by
      rintro rfl
      rw [hnp] at hz
      cases hz
    obtain ⟨hst, hpid, -⟩ := hsame z hzn
    exact ⟨z, hst.trans hz, hpid.trans hze⟩
  · intro z hz
    obtain ⟨hst, hpid, hx, -⟩ := hsame z (hzombie z hz)
    rw [hpid, hx]
    exact h.zombie_exit z (hst ▸ hz)
  · intro z hz hs
    obtain ⟨hst, -, -, hstack, hlock⟩ := hsame z (hzombie z hz)
    rw [hlock]
    exact h.zombie_stack z (hst ▸ hz) (hstack ▸ hs)
  · intro a k hk
    rcases hslot a k hk with ⟨rfl, rfl⟩ | ⟨-, han, hkn, hk'⟩
    · exact ⟨hself.2, (hsame a hne).1 ▸ hp⟩
    · obtain ⟨hu, hl⟩ := h.slot_used a k hk'
      exact ⟨(hsame k hkn).1.trans hu, (hsame a han).1 ▸ hl⟩
  · intro a b k ha hb
    rcases hslot a k ha with ⟨rfl, hkn⟩ | ⟨-, -, hkn, ha'⟩
    · rcases hslot b k hb with ⟨rfl, -⟩ | ⟨-, -, hkn', -⟩
      · rfl
      · exact absurd hkn hkn'
    · rcases hslot b k hb with ⟨-, hkn'⟩ | ⟨-, -, -, hb'⟩
      · exact absurd hkn' hkn
      · exact h.slot_inj a b k ha' hb'

theorem allocFail (h : PoolInv s) {np : Fin n} (hnp : (s.procs np).state = .unused) :
    PoolInv (s.allocFail np) := by
  have hprocs : ∀ q, (s.allocFail np).procs q =
      if q = np then (s.procs np).freeproc else s.procs q := by
    intro q
    simp [Pool.allocFail]
  have hsame : ∀ q, ((s.allocFail np).procs q).state ≠ .unused →
      (s.allocFail np).procs q = s.procs q := by
    intro q hq
    rw [hprocs] at hq ⊢
    by_cases hqn : q = np
    · rw [if_pos hqn] at hq
      exact absurd rfl hq
    · rw [if_neg hqn]
  have hback : ∀ q, (s.procs q).state ≠ .unused → (s.allocFail np).procs q = s.procs q := by
    intro q hq
    rw [hprocs, if_neg]
    rintro rfl
    exact hq hnp
  have hslot : ∀ q k, ((s.allocFail np).procs q).call.slot = some k →
      (s.procs q).call.slot = some k := by
    intro q k hk
    rw [hprocs] at hk
    by_cases hqn : q = np
    · rw [if_pos hqn] at hk
      cases hk
    · rwa [if_neg hqn] at hk
  refine ⟨?_, ?_, ?_, ?_, ?_, h.exits_nodup, ?_, ?_, ?_,
    h.reaps_freed.trans (List.sublist_append_left _ _), h.reaps_exit, ?_, ?_⟩
  · intro a b ha hb hab
    have hsa := hsame a ha
    have hsb := hsame b hb
    rw [hsa] at ha hab
    rw [hsb] at hb hab
    exact h.pid_inj a b ha hb hab
  · intro a ha
    have hsa := hsame a ha
    rw [hsa] at ha ⊢
    exact Nat.lt_succ_of_lt (h.pid_lt a ha)
  · intro a ha hmem
    have hsa := hsame a ha
    rw [hsa] at ha hmem
    rcases List.mem_append.mp hmem with hmem | hmem
    · exact h.pid_kept a ha hmem
    · exact absurd (List.mem_singleton.mp hmem) (h.pid_lt a ha).ne
  · intro k hk
    rcases List.mem_append.mp hk with hk | hk
    · exact Nat.lt_succ_of_lt (h.freed_lt k hk)
    · rw [List.mem_singleton.mp hk]
      exact Nat.lt_succ_self _
  · refine List.nodup_append.mpr ⟨h.freed_nodup, List.nodup_singleton _, ?_⟩
    intro a ha b hb hab
    rw [List.mem_singleton.mp hb] at hab
    exact absurd hab (h.freed_lt a ha).ne
  · intro e he
    refine (h.exits_where e he).imp id ?_
    rintro ⟨z, hz, hze⟩
    refine ⟨z, ?_⟩
    rw [hback z (by simp [hz])]
    exact ⟨hz, hze⟩
  · intro z hz
    have hsz := hsame z (by simp [hz])
    rw [hsz] at hz ⊢
    exact h.zombie_exit z hz
  · intro z hz hs
    have hsz := hsame z (by simp [hz])
    rw [hsz] at hz hs ⊢
    exact h.zombie_stack z hz hs
  · intro a k hk
    obtain ⟨hu, hl⟩ := h.slot_used a k (hslot a k hk)
    rw [hback k (by simp [hu]), hback a (by intro ha; simp [ha, ProcState.live] at hl)]
    exact ⟨hu, hl⟩
  · intro a b k ha hb
    exact h.slot_inj a b k (hslot a k ha) (hslot b k hb)

theorem exit (h : PoolInv s) {p : Fin n} {code : BitVec 32} (hp : (s.procs p).state = .running)
    (hcall : (s.procs p).call.slot = none) : PoolInv (s.exit init p code) := by
  have hself : ((s.exit init p code).procs p).state = .zombie ∧
      ((s.exit init p code).procs p).pid = (s.procs p).pid ∧
      ((s.exit init p code).procs p).xstate = code <<< 8 ∧
      ((s.exit init p code).procs p).locked = true ∧
      ((s.exit init p code).procs p).call = (s.procs p).call := by
    simp [Pool.exit, Pool.orphan]
  have hother : ∀ q, q ≠ p → (s.exit init p code).procs q = s.orphan init p (s.procs q) := by
    intro q hq
    simp [Pool.exit, hq]
  have hstate : ∀ q, q ≠ p → ((s.exit init p code).procs q).state = (s.procs q).state ∨
      (s.procs q).state = .sleeping ∧ ((s.exit init p code).procs q).state = .runnable := by
    intro q hq
    rw [hother q hq]
    simp only [Pool.orphan]
    split
    · rename_i hw
      exact Or.inr ⟨hw.1, rfl⟩
    · exact Or.inl rfl
  have hpid : ∀ q, ((s.exit init p code).procs q).pid = (s.procs q).pid := by
    intro q
    by_cases hq : q = p
    · rw [hq, hself.2.1]
    · rw [hother q hq]
      rfl
  have hused : ∀ q, ((s.exit init p code).procs q).state ≠ .unused →
      (s.procs q).state ≠ .unused := by
    intro q hq
    by_cases hqp : q = p
    · simp [hqp, hp]
    · rcases hstate q hqp with he | ⟨he, -⟩
      · exact he ▸ hq
      · simp [he]
  have hzombie : ∀ q, q ≠ p → (((s.exit init p code).procs q).state = .zombie ↔
      (s.procs q).state = .zombie) := by
    intro q hq
    rcases hstate q hq with he | ⟨hs, hr⟩
    · rw [he]
    · rw [hs, hr]
      simp
  have hfresh := h.not_exited (p := p) (by simp [hp]) (by simp [hp])
  have hslot : ∀ q k, ((s.exit init p code).procs q).call.slot = some k →
      q ≠ p ∧ (s.procs q).call.slot = some k := by
    intro q k hk
    by_cases hq : q = p
    · rw [hq, hself.2.2.2.2, hcall] at hk
      cases hk
    · rw [hother q hq] at hk
      exact ⟨hq, hk⟩
  refine ⟨?_, ?_, ?_, h.freed_lt, h.freed_nodup, ?_, ?_, ?_, ?_, h.reaps_freed, ?_, ?_, ?_⟩
  · intro a b ha hb
    rw [hpid, hpid]
    exact h.pid_inj a b (hused a ha) (hused b hb)
  · intro a ha
    rw [hpid]
    exact h.pid_lt a (hused a ha)
  · intro a ha
    rw [hpid]
    exact h.pid_kept a (hused a ha)
  · have : (s.exit init p code).exits.map Prod.fst =
        s.exits.map Prod.fst ++ [(s.procs p).pid] := by simp [Pool.exit]
    rw [this]
    refine List.nodup_append.mpr ⟨h.exits_nodup, List.nodup_singleton _, ?_⟩
    intro a ha b hb hab
    rw [hab, List.mem_singleton.mp hb] at ha
    exact hfresh ha
  · intro e he
    rcases List.mem_append.mp he with he | he
    · refine (h.exits_where e he).imp id ?_
      rintro ⟨z, hz, hze⟩
      have hzp : z ≠ p := by
        rintro rfl
        rw [hp] at hz
        cases hz
      exact ⟨z, (hzombie z hzp).mpr hz, (hpid z).trans hze⟩
    · rw [List.mem_singleton.mp he]
      exact Or.inr ⟨p, hself.1, hself.2.1⟩
  · intro z hz
    by_cases hzp : z = p
    · refine ⟨code, ?_, ?_⟩
      · rw [hzp, hself.2.1]
        exact List.mem_append_right _ (List.mem_singleton.mpr rfl)
      · rw [hzp, hself.2.2.1]
    · obtain ⟨c, hmem, hx⟩ := h.zombie_exit z ((hzombie z hzp).mp hz)
      rw [hother z hzp]
      exact ⟨c, List.mem_append_left _ hmem, hx⟩
  · intro z hz hs
    by_cases hzp : z = p
    · rw [hzp, hself.2.2.2.1]
    · have hz' := (hzombie z hzp).mp hz
      rw [hother z hzp] at hs ⊢
      exact h.zombie_stack z hz' hs
  · intro r hr
    obtain ⟨c, hmem, hst⟩ := h.reaps_exit r hr
    exact ⟨c, List.mem_append_left _ hmem, hst⟩
  · intro a k hk
    obtain ⟨hap, hk'⟩ := hslot a k hk
    obtain ⟨hu, hl⟩ := h.slot_used a k hk'
    have hkp : k ≠ p := by
      rintro rfl
      rw [hp] at hu
      cases hu
    refine ⟨?_, ?_⟩
    · rcases hstate k hkp with he | ⟨hs, -⟩
      · exact he.trans hu
      · rw [hs] at hu
        cases hu
    · rcases hstate a hap with he | ⟨-, hr⟩
      · rw [he]
        exact hl
      · rw [hr]
        rfl
  · intro a b k ha hb
    exact h.slot_inj a b k (hslot a k ha).2 (hslot b k hb).2

/-- A step that changes the process `p` alone, within the states of scheduling. -/
theorem move (h : PoolInv s) {p : Fin n} {f : Proc n → Proc n}
    (hpid : (f (s.procs p)).pid = (s.procs p).pid)
    (hxstate : (f (s.procs p)).xstate = (s.procs p).xstate)
    (hstate : (f (s.procs p)).state = (s.procs p).state ∨
      (f (s.procs p)).state.live = true ∧ (s.procs p).state.live = true)
    (hstack : (f (s.procs p)).onStack = true → (s.procs p).state = .zombie →
      (s.procs p).onStack = true ∧ (f (s.procs p)).locked = (s.procs p).locked)
    (hslot : (f (s.procs p)).call.slot = (s.procs p).call.slot ∨
      (f (s.procs p)).call.slot = none) : PoolInv (s.set p f) := by
  refine h.frame rfl rfl rfl rfl ?_ ?_ ?_ ?_ ?_
  · intro q
    rw [Pool.set_procs]
    split
    · rename_i hq
      rw [hq, hpid]
    · rfl
  · intro q
    rw [Pool.set_procs]
    split
    · rename_i hq
      rw [hq, hxstate]
    · rfl
  · intro q
    rw [Pool.set_procs]
    split
    · rename_i hq
      rw [hq]
      exact hstate.imp id fun hl => ⟨hl.1, Or.inr hl.2⟩
    · exact Or.inl rfl
  · intro q hs hz
    rw [Pool.set_procs] at hs ⊢
    split at hs
    · rename_i hq
      subst hq
      rw [if_pos rfl]
      exact hstack hs hz
    · rename_i hq
      rw [if_neg hq]
      exact ⟨hs, rfl⟩
  · intro q np hq
    have hq' : (s.procs q).call.slot = some np := by
      rw [Pool.set_procs] at hq
      split at hq
      · rename_i hqp
        rcases hslot with he | he
        · rw [hqp, ← he, hq]
        · rw [he] at hq
          cases hq
      · exact hq
    refine ⟨hq', ?_⟩
    -- The slot of a `fork` is `used`, so it is not the process that moves.
    obtain ⟨hu, -⟩ := h.slot_used q np hq'
    rw [Pool.set_procs]
    split
    · rename_i hnp
      rcases hstate with he | ⟨-, hl⟩
      · rw [he, hnp]
      · rw [← hnp, hu] at hl
        cases hl
    · rfl

/-- The process in a `fork` goes on and takes the slot `np` with it. -/
theorem forkStep (h : PoolInv s) {p np : Fin n} {f : Proc n → Proc n} {c : Call n}
    (hne : p ≠ np) (hnp : (s.procs np).state = .used)
    (hslot : ∀ q, (s.procs q).call.slot = some np → q = p)
    (hpid : (f (s.procs np)).pid = (s.procs np).pid)
    (hxstate : (f (s.procs np)).xstate = (s.procs np).xstate)
    (hcall : (f (s.procs np)).call.slot = (s.procs np).call.slot)
    (hstate : (f (s.procs np)).state = (s.procs np).state ∧
        c.slot = (s.procs p).call.slot ∨
      (f (s.procs np)).state.live = true ∧ c.slot = none) :
    PoolInv ((s.set np f).set p fun q => { q with call := c }) := by
  have hprocs : ∀ q, ((s.set np f).set p fun q => { q with call := c }).procs q =
      if q = p then { s.procs p with call := c } else
        if q = np then f (s.procs np) else s.procs q := by
    intro q
    by_cases hq : q = p
    · simp [hq, hne]
    · simp [hq]
  refine h.frame rfl rfl rfl rfl ?_ ?_ ?_ ?_ ?_
  · intro q
    rw [hprocs]
    by_cases hqp : q = p
    · simp [hqp]
    · by_cases hqn : q = np
      · rw [if_neg hqp, if_pos hqn, hqn, hpid]
      · simp [hqp, hqn]
  · intro q
    rw [hprocs]
    by_cases hqp : q = p
    · simp [hqp]
    · by_cases hqn : q = np
      · rw [if_neg hqp, if_pos hqn, hqn, hxstate]
      · simp [hqp, hqn]
  · intro q
    rw [hprocs]
    by_cases hqp : q = p
    · simp [hqp]
    · by_cases hqn : q = np
      · rw [if_neg hqp, if_pos hqn, hqn]
        exact hstate.imp And.left fun hl => ⟨hl.1, Or.inl hnp⟩
      · simp [hqp, hqn]
  · intro q hs hz
    have hqn : q ≠ np := by
      rintro rfl
      rw [hnp] at hz
      cases hz
    rw [hprocs] at hs ⊢
    by_cases hqp : q = p
    · subst hqp
      rw [if_pos rfl] at hs ⊢
      exact ⟨hs, rfl⟩
    · rw [if_neg hqp, if_neg hqn] at hs ⊢
      exact ⟨hs, rfl⟩
  · intro q k hk
    have hk' : (s.procs q).call.slot = some k := by
      rw [hprocs] at hk
      by_cases hqp : q = p
      · rw [if_pos hqp] at hk
        rcases hstate with ⟨-, hc⟩ | ⟨-, hc⟩
        · rw [hqp, ← hc, ← hk]
        · rw [show ({ s.procs p with call := c } : Proc n).call.slot = none from hc] at hk
          cases hk
      · rw [if_neg hqp] at hk
        by_cases hqn : q = np
        · rw [if_pos hqn, hcall] at hk
          rw [hqn, hk]
        · rwa [if_neg hqn] at hk
    refine ⟨hk', ?_⟩
    rw [hprocs]
    by_cases hkp : k = p
    · simp [hkp]
    · by_cases hkn : k = np
      · rw [if_neg hkp, if_pos hkn, hkn]
        rcases hstate with ⟨he, -⟩ | ⟨-, hc⟩
        · exact he
        · -- The call of `p` has ended, and no other `fork` has this slot.
          have hqp := hslot q (hkn ▸ hk')
          rw [hprocs, if_pos hqp] at hk
          rw [show ({ s.procs p with call := c } : Proc n).call.slot = none from hc] at hk
          cases hk
      · simp [hkp, hkn]

/-- A running process in a `fork` owns the slot it has taken. -/
theorem fork_slot (h : PoolInv s) {p np : Fin n} (hrun : s.Running p)
    (hcall : (s.procs p).call.slot = some np) : p ≠ np ∧ (s.procs np).state = .used ∧
      ∀ q, (s.procs q).call.slot = some np → q = p := by
  obtain ⟨hu, -⟩ := h.slot_used p np hcall
  refine ⟨?_, hu, fun q hq => h.slot_inj q p np hq hcall⟩
  rintro rfl
  rw [hrun.1] at hu
  cases hu

theorem step (h : PoolInv s) {e : PoolEvent n} (hs : PoolStep init s e s') : PoolInv s' := by
  cases hs with
  | alloc p np hrun hcall hnp hlock =>
    exact h.alloc (by rw [hrun.1]; rfl) (Pool.allocSlot_unused hnp) (by rw [hcall]; rfl)
  | allocFail p np hrun hcall hnp hlock =>
    exact h.allocFail (Pool.allocSlot_unused hnp)
  | forkFail p np hrun hcall =>
    obtain ⟨hne, hu, hslot⟩ := h.fork_slot hrun (by rw [hcall]; rfl)
    exact h.free hne (Or.inl ⟨hu, rfl⟩) fun q hq hs => hq (hslot q hs)
  | forkParent p np hrun hcall =>
    obtain ⟨hne, hu, hslot⟩ := h.fork_slot hrun (by rw [hcall]; rfl)
    exact h.forkStep hne hu hslot rfl rfl rfl (Or.inl ⟨rfl, by rw [hcall]; rfl⟩)
  | forkRun p np hrun hcall =>
    obtain ⟨hne, hu, hslot⟩ := h.fork_slot hrun (by rw [hcall]; rfl)
    exact h.forkStep hne hu hslot rfl rfl rfl (Or.inr ⟨rfl, rfl⟩)
  | exit p code hrun hcall hinit hlocks => exact h.exit hrun.1 (by rw [hcall]; rfl)
  | switch p hlock hstack =>
    exact h.move rfl rfl (Or.inl rfl) (fun hs _ => by cases hs) (Or.inl rfl)
  | waitCall p childPid hrun hcall hchild =>
    exact h.move rfl rfl (Or.inl rfl) (fun hs _ => ⟨hs, rfl⟩) (Or.inr rfl)
  | reap p np childPid hrun hcall hnp hlocks =>
    have hz := (Pool.zombieKid_spec hnp).2.1
    refine h.free (hrun.ne_of_zombie hz) (Or.inr ⟨hz, rfl⟩) fun q _ hs => ?_
    rw [(h.slot_used q np hs).1] at hz
    cases hz
  | waitFault p np childPid hrun hcall hnp hlocks =>
    exact h.move rfl rfl (Or.inl rfl) (fun hs _ => ⟨hs, rfl⟩) (Or.inr rfl)
  | waitNone p childPid hrun hcall hnp hlocks hend =>
    exact h.move rfl rfl (Or.inl rfl) (fun hs _ => ⟨hs, rfl⟩) (Or.inr rfl)
  | waitSleep p childPid hrun hcall hnp hlocks hkids hkilled =>
    exact h.move rfl rfl (Or.inr ⟨rfl, by rw [hrun.1]; rfl⟩)
      (fun _ hz => by rw [hrun.1] at hz; cases hz) (Or.inl rfl)
  | yield p hrun =>
    exact h.move rfl rfl (Or.inr ⟨rfl, by rw [hrun.1]; rfl⟩)
      (fun _ hz => by rw [hrun.1] at hz; cases hz) (Or.inl rfl)
  | schedule p hstate hlock =>
    exact h.move rfl rfl (Or.inr ⟨rfl, by rw [hstate]; rfl⟩)
      (fun _ hz => by rw [hstate] at hz; cases hz) (Or.inl rfl)
  | kill => exact h.move rfl rfl (Or.inl rfl) (fun hs _ => ⟨hs, rfl⟩) (Or.inl rfl)

theorem reach {ok : Pool n → PoolEvent n → Prop} (h : PoolReach init ok s) : PoolInv s := by
  induction h with
  | start => exact start
  | step _ _ hs ih => exact ih.step hs

end PoolInv

/-- A step other than a `wait` that returns a child frees no process that has exited. -/
theorem PoolInv.step_history (h : PoolInv s) {e : PoolEvent n} (hs : PoolStep init s e s') :
    (∃ p np, e = .reap p np (s.procs np).pid (s.procs np).xstate ∧
      (s.procs np).parent = some p ∧ (s.procs np).state = .zombie ∧
      (s.procs np).onStack = false ∧ (s'.procs np).state = .unused ∧
      s'.reaps = s.reaps ++ [⟨(s.procs np).pid, (s.procs np).xstate⟩] ∧
      s'.freed = s.freed ++ [(s.procs np).pid]) ∨
    (∀ p np pid status, e ≠ .reap p np pid status) ∧ s'.reaps = s.reaps ∧
      ∀ x ∈ s'.exits, x.1 ∈ s'.freed → x.1 ∈ s.freed := by
  cases hs with
  | reap p np childPid hrun hcall hnp hlocks =>
    obtain ⟨hkid, hz, hpar⟩ := Pool.zombieKid_spec hnp
    have hne := hrun.ne_of_zombie hz
    have hstack : (s.procs np).onStack = false := by
      by_contra hon
      have hlock := h.zombie_stack np hz (by simpa using hon)
      rw [hlocks np hkid le_rfl] at hlock
      cases hlock
    refine Or.inl ⟨p, np, rfl, hpar, hz, hstack, ?_, rfl, rfl⟩
    simp [Pool.reap, Proc.freeproc, hne.symm]
  | allocFail p np hrun hcall hnp hlock =>
    refine Or.inr ⟨by simp, rfl, fun x hx hfreed => ?_⟩
    rcases List.mem_append.mp hfreed with hfreed | hfreed
    · exact hfreed
    · -- The pid is new.
      have hlt : x.1 < s.curPid := by
        rcases h.exits_where x hx with hr | ⟨z, hz, hze⟩
        · exact h.freed_lt _ (h.reaps_freed.subset hr)
        · rw [← hze]
          exact h.pid_lt z (by simp [hz])
      exact absurd (List.mem_singleton.mp hfreed) hlt.ne
  | forkFail p np hrun hcall =>
    refine Or.inr ⟨by simp, rfl, fun x hx hfreed => ?_⟩
    rcases List.mem_append.mp hfreed with hfreed | hfreed
    · exact hfreed
    · obtain ⟨-, hu, -⟩ := h.fork_slot hrun (by rw [hcall]; rfl)
      have hfresh := h.not_exited (p := np) (by simp [hu]) (by simp [hu])
      rw [← List.mem_singleton.mp hfreed] at hfresh
      exact absurd (List.mem_map_of_mem hx) hfresh
  | exit p code hrun hcall hinit hlocks => exact Or.inr ⟨by simp, rfl, fun _ _ hx => hx⟩
  | alloc => exact Or.inr ⟨by simp, rfl, fun _ _ hx => hx⟩
  | forkParent => exact Or.inr ⟨by simp, rfl, fun _ _ hx => hx⟩
  | forkRun => exact Or.inr ⟨by simp, rfl, fun _ _ hx => hx⟩
  | switch => exact Or.inr ⟨by simp, rfl, fun _ _ hx => hx⟩
  | waitCall => exact Or.inr ⟨by simp, rfl, fun _ _ hx => hx⟩
  | waitFault => exact Or.inr ⟨by simp, rfl, fun _ _ hx => hx⟩
  | waitNone => exact Or.inr ⟨by simp, rfl, fun _ _ hx => hx⟩
  | waitSleep => exact Or.inr ⟨by simp, rfl, fun _ _ hx => hx⟩
  | yield => exact Or.inr ⟨by simp, rfl, fun _ _ hx => hx⟩
  | schedule => exact Or.inr ⟨by simp, rfl, fun _ _ hx => hx⟩
  | kill => exact Or.inr ⟨by simp, rfl, fun _ _ hx => hx⟩

/-- In every state of a run, and in every step from it: a process exits once and is returned by at
most one `wait`, with `exit code << 8`; that `wait` is its parent's, frees its slot, and comes after
it has left its kernel stack; no other step frees it. -/
theorem wait_reaps_once {n : Nat} {init : Fin n} {s : Pool n}
    (h : PoolReach init (fun _ _ => True) s) :
    (s.exits.map Prod.fst).Nodup ∧ (s.reaps.map Reap.pid).Nodup ∧ s.freed.Nodup ∧
    (∀ r ∈ s.reaps, ∃ code, (r.pid, code) ∈ s.exits ∧ r.status = code <<< 8) ∧
    (∀ e ∈ s.exits, e.1 ∈ s.freed ↔ e.1 ∈ s.reaps.map Reap.pid) ∧
    ∀ e s', PoolStep init s e s' →
      (∃ p np, e = .reap p np (s.procs np).pid (s.procs np).xstate ∧
        (s.procs np).parent = some p ∧ (s.procs np).state = .zombie ∧
        (s.procs np).onStack = false ∧ (s'.procs np).state = .unused ∧
        s'.reaps = s.reaps ++ [⟨(s.procs np).pid, (s.procs np).xstate⟩] ∧
        s'.freed = s.freed ++ [(s.procs np).pid]) ∨
      (∀ p np pid status, e ≠ .reap p np pid status) ∧ s'.reaps = s.reaps ∧
        ∀ x ∈ s'.exits, x.1 ∈ s'.freed → x.1 ∈ s.freed := by
  have hinv := PoolInv.reach h
  refine ⟨hinv.exits_nodup, hinv.reaps_freed.nodup hinv.freed_nodup, hinv.freed_nodup,
    hinv.reaps_exit, ?_, fun e s' hs => hinv.step_history hs⟩
  intro e he
  refine ⟨fun hf => ?_, fun hr => hinv.reaps_freed.subset hr⟩
  rcases hinv.exits_where e he with hr | ⟨z, hz, hze⟩
  · exact hr
  · exact absurd (hze ▸ hf) (hinv.pid_kept z (by simp [hz]))

/-- The init process has forked a child, which has exited with code 7. -/
def childExited : Pool 2 :=
  (((Pool.start 0).forked 0 1).set 1 fun q =>
    { q with state := .running, onStack := true, chan := none }).exit 0 1 7

/-- The child has switched away and the init process is in `wait( -1 )`. -/
def childAwaited : Pool 2 :=
  (childExited.set 1 fun q => { q with locked := false, onStack := false }).set 0
    fun q => { q with call := .wait (-1) }

theorem childAwaited_reach : PoolReach 0 (fun _ _ => True) childAwaited := by
  have h0 : PoolReach (0 : Fin 2) (fun _ _ => True) (Pool.start 0) := PoolReach.start
  have h1 := h0.forked (fun _ => trivial) 0 1 ⟨rfl, rfl, rfl⟩ rfl (by decide) rfl (by decide)
  have h2 := h1.step trivial (PoolStep.schedule 1 rfl rfl)
  have h3 := h2.step trivial (PoolStep.exit 1 7 ⟨rfl, rfl, rfl⟩ rfl (by decide) (by decide))
  have h4 := h3.step trivial (PoolStep.switch 1 rfl rfl)
  exact h4.step trivial (PoolStep.waitCall 0 (-1) ⟨rfl, rfl, rfl⟩ rfl (by decide))

theorem wait_reaps_once_sample : (childAwaited.reap 0 1).reaps.map Reap.status = [0x700] ∧
    ((childAwaited.reap 0 1).reaps.map Reap.pid).Nodup := by
  have h := childAwaited_reach.step trivial (PoolStep.reap 0 1 (-1) ⟨rfl, rfl, rfl⟩ rfl
    (by decide) (by decide))
  exact ⟨rfl, (wait_reaps_once h).2.1⟩

end OsKernel.Pm

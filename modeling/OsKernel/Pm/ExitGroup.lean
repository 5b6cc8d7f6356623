import OsKernel.Klib.Fault
import OsKernel.Pm.ProcForest
import OsKernel.Pm.Wakeup

/-! The loop of `exit_group`, which looks for the descendants of the caller by climbing from each
slot of the pool towards the root, and gives back every chain that ends at the caller. -/

namespace OsKernel.Pm
open ParentForest

namespace Pool

variable {n : Nat} (s : Pool n)

/-- `freeproc` of the process `p`. -/
def release (p : Fin n) : Pool n :=
  { s.set p Proc.freeproc with freed := s.freed ++ [(s.procs p).pid] }

/-- `visit[ gid ] = 1`. -/
def mark (n : Nat) (visit : Nat → Bool) (gid : Nat) : Except Fault (Nat → Bool) :=
  if gid < n then .ok (Function.update visit gid true)
  else .error (.undefined "visit: write out of bounds")

/-- The climb of `exit_group` from `p`, where `stk` has room for `room` more pointers.  It says
whether it ended below `cp`. -/
def climb (cp : Fin n) (room : Nat) (p : Fin n) (visit : Nat → Bool) (stk : List (Fin n)) :
    Except Fault (Bool × (Nat → Bool) × List (Fin n)) :=
  match s.up p with
  | none => .ok (false, visit, stk)
  | some q =>
    if q = cp then .ok (true, visit, stk)
    else
      match room with
      | 0 => .error (.undefined "stk: write out of bounds")
      | room + 1 => do
        let visit ← mark n visit q
        climb cp room q visit (q :: stk)

/-- The body of the loop of `exit_group` for the slot `i`. -/
def exitGroupSlot (cp : Fin n) (r : Pool n × (Nat → Bool)) (i : Fin n) :
    Except Fault (Pool n × (Nat → Bool)) :=
  if (r.1.procs i).state = .unused then .ok r
  else if r.2 i then .ok r
  else do
    let visit ← mark n r.2 i
    let c ← r.1.climb cp (n + 9) i visit [i]
    return (if c.1 then c.2.2.foldl release r.1 else r.1, c.2.1)

/-- What `exit_group` of `cp` does under `_wait_lock`. -/
def exitGroup (cp : Fin n) : Except Fault (Pool n) := do
  let r ← (List.finRange n).foldlM (exitGroupSlot cp) (s, fun _ => false)
  return r.1

/-- The process `i` is a proper descendant of `cp`. -/
def Descends (cp i : Fin n) : Prop := Relation.TransGen (Up s.up) i cp

/-- The pool `s'` is `s` without the descendants of `cp`. -/
structure Cleared (cp : Fin n) (s' : Pool n) : Prop where
  gone : ∀ i, s.Descends cp i → (s'.procs i).state = .unused
  kept : ∀ i, ¬ s.Descends cp i → s'.procs i = s.procs i
  parents : ∀ i q, (s'.procs i).state ≠ .unused → s'.up i = some q →
    (s'.procs q).state ≠ .unused

/-- Each child of `cp` heads one line of descent, whose last process has the smallest slot. -/
def InLine (cp : Fin n) : Prop :=
  ∀ t, s.up t = some cp → ∃ j, ∀ i, Below s.up i t → Below s.up j i ∧ j ≤ i

/-- The process `i` is the smallest slot of the line of descent from the child `t` of `cp`. -/
def Leads (cp t i : Fin n) : Prop :=
  s.up t = some cp ∧ Below s.up i t ∧ ∀ m, Below s.up m t → i ≤ m

/-- The process `i` is given back in the first `k` turns of the loop. -/
def Freed (cp : Fin n) (k : Nat) (i : Fin n) : Prop :=
  ∃ j t, j.val < k ∧ s.Leads cp t j ∧ Below s.up j i ∧ Below s.up i t

end Pool

variable {n : Nat} {s : Pool n} {cp : Fin n}

theorem Proc.freeproc_freeproc (p : Proc n) : p.freeproc.freeproc = p.freeproc := rfl

theorem mark_eq (visit : Nat → Bool) (p : Fin n) :
    Pool.mark n visit p = .ok (Function.update visit p true) :=
  if_pos p.isLt

theorem climb_eq {p : Fin n} {l : List (Fin n)} {b : Bool} (h : Line s.up cp p l b) :
    ∀ {room visit stk}, l.length ≤ room → s.climb cp room p visit stk =
      .ok (b, l.foldl (fun v q => Function.update v q.val true) visit, l.reverse ++ stk) := by
  induction h with
  | root hroot =>
    intro room visit stk _
    rw [Pool.climb, hroot]
    rfl
  | found hcp =>
    intro room visit stk _
    rw [Pool.climb, hcp]
    simp
  | @up p q l b hup hne _ ih =>
    intro room visit stk hroom
    obtain ⟨room, rfl⟩ : ∃ r, room = r + 1 := ⟨room - 1, by simp at hroom; omega⟩
    rw [Pool.climb, hup]
    simp only [if_neg hne, mark_eq, ok_bind]
    rw [ih (by simpa using hroom)]
    simp

theorem foldl_release (l : List (Fin n)) (s : Pool n) (i : Fin n) :
    (l.foldl Pool.release s).procs i = if i ∈ l then (s.procs i).freeproc else s.procs i := by
  induction l generalizing s with
  | nil => simp
  | cons p l ih =>
    rw [List.foldl_cons, ih]
    by_cases hip : i = p
    · subst hip
      simp [Pool.release, Proc.freeproc_freeproc]
    · simp [Pool.release, hip]

theorem foldl_mark (l : List (Fin n)) (visit : Nat → Bool) (g : Nat) :
    l.foldl (fun v q => Function.update v q.val true) visit g = true ↔
      visit g = true ∨ ∃ q ∈ l, q.val = g := by
  induction l generalizing visit with
  | nil => simp
  | cons p l ih =>
    rw [List.foldl_cons, ih, Function.update_apply]
    by_cases hg : g = p.val
    · simp [hg]
    · simp [hg, Ne.symm hg]

namespace Pool

/-- The slots that have not had their turn do not change what leads a line of descent. -/
theorem Leads.not_freed (hac : Acyclic s.up) {t i m : Fin n} (h : s.Leads cp t i)
    (hm : Below s.up m t) : ¬ s.Freed cp i m := by
  rintro ⟨j, t', hj, ⟨hcp, hjt, -⟩, -, hm'⟩
  obtain rfl := hac.child_unique hm h.1 hm' hcp
  exact absurd (h.2.2 j hjt) (Fin.not_le.mpr hj)

theorem Freed.mono {k k' : Nat} {i : Fin n} (h : s.Freed cp k i) (hk : k ≤ k') :
    s.Freed cp k' i := by
  obtain ⟨j, t, hj, h⟩ := h
  exact ⟨j, t, hj.trans_le hk, h⟩

/-- The turn of a slot gives back the line from it, if it leads one. -/
theorem freed_succ {i m : Fin n} : s.Freed cp (i + 1) m ↔
    s.Freed cp i m ∨ ∃ t, s.Leads cp t i ∧ Below s.up i m ∧ Below s.up m t := by
  constructor
  · rintro ⟨j, t, hj, h⟩
    rcases Nat.lt_succ_iff_lt_or_eq.mp hj with hj | hj
    · exact Or.inl ⟨j, t, hj, h⟩
    · obtain rfl := Fin.ext hj
      exact Or.inr ⟨t, h⟩
  · rintro (h | ⟨t, h⟩)
    · exact h.mono (Nat.le_succ _)
    · exact ⟨i, t, Nat.lt_succ_self _, h⟩

/-- A line of descent with a slot below `k` has its leader below `k`. -/
theorem freed_of_below {k : Nat} {t m : Fin n} (ht : s.up t = some cp) (hm : Below s.up m t)
    (hk : m.val < k) : s.Freed cp k t := by
  obtain ⟨j, hj, hmin⟩ := WellFounded.has_min (wellFounded_lt (α := Fin n))
    {j | Below s.up j t} ⟨m, hm⟩
  refine ⟨j, t, ?_, ⟨ht, hj, fun i hi => Fin.not_lt.mp (hmin i hi)⟩, hj,
    Relation.ReflTransGen.refl⟩
  exact lt_of_le_of_lt (Fin.not_lt.mp (hmin m hm)) hk

end Pool

/-- The state of the loop of `exit_group` before the turn of the slot `k`. -/
structure Progress (s : Pool n) (cp : Fin n) (k : Nat) (r : Pool n × (Nat → Bool)) : Prop where
  freed : ∀ i, s.Freed cp k i → r.1.procs i = (s.procs i).freeproc
  kept : ∀ i, ¬ s.Freed cp k i → r.1.procs i = s.procs i
  visited : ∀ i : Fin n, r.2 i = true → ∀ t, s.up t = some cp → Below s.up i t →
    ∃ j : Fin n, j.val < k ∧ Below s.up j t

namespace Progress

variable {k : Nat} {r : Pool n × (Nat → Bool)}

theorem start : Progress s cp 0 (s, fun _ => false) :=
  ⟨fun _ ⟨_, _, hj, _⟩ => absurd hj (Nat.not_lt_zero _), fun _ _ => rfl,
    fun _ h => by cases h⟩

theorem up_freed (h : Progress s cp k r) {i : Fin n} (hi : s.Freed cp k i) : r.1.up i = none := by
  rw [Pool.up, h.freed i hi]
  rfl

theorem up_kept (h : Progress s cp k r) {i : Fin n} (hi : ¬ s.Freed cp k i) :
    r.1.up i = s.up i := by
  rw [Pool.up, h.kept i hi]
  rfl

theorem up_sub (h : Progress s cp k r) (p q : Fin n) (hup : r.1.up p = some q) :
    s.up p = some q := by
  by_cases hp : s.Freed cp k p
  · rw [h.up_freed hp] at hup
    cases hup
  · rwa [h.up_kept hp] at hup

theorem below_sub (h : Progress s cp k r) {p q : Fin n} (hb : Below r.1.up p q) :
    Below s.up p q :=
  Relation.ReflTransGen.mono h.up_sub _ _ hb

/-- What is below `t` is below it still when none of it has been given back. -/
theorem below_kept (h : Progress s cp k r) {p q t : Fin n}
    (hkept : ∀ m, Below s.up m t → ¬ s.Freed cp k m) (hpq : Below s.up p q)
    (hqt : Below s.up q t) : Below r.1.up p q := by
  induction hpq using Relation.ReflTransGen.head_induction_on with
  | refl => exact Relation.ReflTransGen.refl
  | @head a c hup hcq ih =>
    have ha : Below s.up a t := Relation.ReflTransGen.head hup (hcq.trans hqt)
    exact Relation.ReflTransGen.head ((h.up_kept (hkept a ha)).trans hup) ih

/-- The turn of a slot that leads no line of descent. -/
theorem skip (h : Progress s cp k r) {i : Fin n} (hk : i.val = k)
    (hlead : ∀ t, ¬ s.Leads cp t i) : Progress s cp (k + 1) r := by
  subst hk
  have hiff : ∀ m, s.Freed cp (i + 1) m ↔ s.Freed cp i m := by
    intro m
    rw [Pool.freed_succ]
    exact ⟨fun hm => hm.resolve_right fun ⟨t, ht, _⟩ => hlead t ht, Or.inl⟩
  refine ⟨fun m hm => h.freed m ((hiff m).mp hm), fun m hm => h.kept m (mt (hiff m).mpr hm), ?_⟩
  intro m hm t ht hmt
  obtain ⟨j, hj, hjt⟩ := h.visited m hm t ht hmt
  exact ⟨j, hj.trans (Nat.lt_succ_self _), hjt⟩

/-- The climb from a slot marks it and what it passes. -/
theorem marked (h : Progress s cp k r) {i m : Fin n} {l : List (Fin n)} {b : Bool}
    (hline : Line r.1.up cp i l b)
    (hm : l.foldl (fun v q => Function.update v q.val true) (Function.update r.2 i true) m = true) :
    r.2 m = true ∨ Below s.up i m := by
  have hmem : ∀ q ∈ i :: l, Below s.up i q := fun q hq => h.below_sub (hline.mem_below q hq)
  rcases (foldl_mark l _ _).mp hm with hm | ⟨q, hq, hqm⟩
  · rw [Function.update_apply] at hm
    split at hm
    · rename_i hmi
      exact Or.inr (Fin.ext hmi ▸ Relation.ReflTransGen.refl)
    · exact Or.inl hm
  · obtain rfl := Fin.ext hqm
    exact Or.inr (hmem q (List.mem_cons_of_mem _ hq))

/-- The marks of a climb from `i` are on lines of descent that have had the turn of `i`. -/
theorem visited_succ (h : Progress s cp k r) {i : Fin n} (hk : i.val = k) {l : List (Fin n)}
    {b : Bool} (hline : Line r.1.up cp i l b) (m : Fin n)
    (hm : l.foldl (fun v q => Function.update v q.val true) (Function.update r.2 i true) m = true)
    (t : Fin n) (ht : s.up t = some cp) (hmt : Below s.up m t) :
    ∃ j : Fin n, j.val < k + 1 ∧ Below s.up j t := by
  rcases h.marked hline hm with hm | him
  · obtain ⟨j, hj, hjt⟩ := h.visited m hm t ht hmt
    exact ⟨j, hj.trans (Nat.lt_succ_self _), hjt⟩
  · exact ⟨i, by omega, him.trans hmt⟩

/-- The turn of a slot whose climb ends below `cp`: it leads a line of descent. -/
theorem found (h : Progress s cp k r) (hac : Acyclic s.up) {i : Fin n} (hk : i.val = k)
    {l : List (Fin n)} (hline : Line r.1.up cp i l true) :
    Progress s cp (k + 1) ((l.reverse ++ [i]).foldl Pool.release r.1,
      l.foldl (fun v q => Function.update v q.val true) (Function.update r.2 i true)) := by
  obtain ⟨t, hit, htop, hmem⟩ := hline.exists_child (hac.mono h.up_sub)
  have ht : s.up t = some cp := h.up_sub t cp htop
  -- A smaller slot in the line would have had `t` given back.
  have hlead : s.Leads cp t i := by
    refine ⟨ht, h.below_sub hit, fun m hm => Fin.not_lt.mp fun hlt => ?_⟩
    rw [h.up_freed (Pool.freed_of_below ht hm (hk ▸ hlt))] at htop
    cases htop
  have hkept : ∀ m, Below s.up m t → ¬ s.Freed cp k m :=
    fun m hm => hk ▸ hlead.not_freed hac hm
  have hiff : ∀ m, m ∈ l.reverse ++ [i] ↔ Below s.up i m ∧ Below s.up m t := by
    intro m
    have h1 : m ∈ l.reverse ++ [i] ↔ m ∈ i :: l := by simp [or_comm]
    rw [h1, hmem m]
    refine ⟨fun hm => ⟨h.below_sub hm.1, h.below_sub hm.2⟩, fun hm => ⟨?_, ?_⟩⟩
    · exact h.below_kept hkept hm.1 hm.2
    · exact h.below_kept hkept hm.2 Relation.ReflTransGen.refl
  subst hk
  refine ⟨fun m hm => ?_, fun m hm => ?_, h.visited_succ rfl hline⟩
  · rw [foldl_release]
    rcases Pool.freed_succ.mp hm with hm | ⟨t', ht', him, hmt⟩
    · rw [h.freed m hm]
      split <;> rfl
    · have htt : t' = t := hac.child_unique ht'.2.1 ht'.1 hlead.2.1 ht
      rw [if_pos ((hiff m).mpr ⟨him, htt ▸ hmt⟩), h.kept m (hkept m (htt ▸ hmt))]
  · have hnot := mt Pool.freed_succ.mpr hm
    rw [foldl_release, if_neg fun hm => hnot (Or.inr ⟨t, hlead, (hiff m).mp hm⟩)]
    exact h.kept m fun hm => hnot (Or.inl hm)

/-- The turn of a slot whose climb ends at a root: no line of descent starts there. -/
theorem not_leads (h : Progress s cp k r) (hac : Acyclic s.up) {i : Fin n} (hk : i.val = k)
    {l : List (Fin n)} (hline : Line r.1.up cp i l false) (t : Fin n) : ¬ s.Leads cp t i := by
  intro hlead
  have hkept : ∀ m, Below s.up m t → ¬ s.Freed cp k m :=
    fun m hm => hk ▸ hlead.not_freed hac hm
  have hit := h.below_kept hkept hlead.2.1 Relation.ReflTransGen.refl
  refine hline.not_found hit ?_
  rw [h.up_kept (hkept t Relation.ReflTransGen.refl)]
  exact hlead.1

theorem step (hs : s.Forest) {i : Fin n} (h : Progress s cp i r) :
    ∃ r', Pool.exitGroupSlot cp r i = .ok r' ∧ Progress s cp (i + 1) r' := by
  unfold Pool.exitGroupSlot
  split
  · rename_i hunused
    refine ⟨r, rfl, h.skip rfl fun t hlead => ?_⟩
    rw [h.kept i (hlead.not_freed hs.acyclic hlead.2.1)] at hunused
    have hroot := hs.unused i hunused
    rcases Relation.ReflTransGen.cases_head hlead.2.1 with hit | ⟨q, hup, -⟩
    · rw [hit, hlead.1] at hroot
      cases hroot
    · rw [Up, hroot] at hup
      cases hup
  · split
    · rename_i hvisit
      refine ⟨r, rfl, h.skip rfl fun t hlead => ?_⟩
      obtain ⟨j, hj, hjt⟩ := h.visited i hvisit t hlead.1 hlead.2.1
      exact absurd (hlead.2.2 j hjt) (Fin.not_le.mpr hj)
    · have hac := hs.acyclic.mono h.up_sub
      obtain ⟨l, b, hline⟩ := hac.exists_line cp i
      have hlen : l.length ≤ n + 9 := by
        have := hline.length_lt hac
        rw [Fintype.card_fin] at this
        omega
      simp only [mark_eq, ok_bind, climb_eq hline hlen]
      refine ⟨_, rfl, ?_⟩
      cases b with
      | true => exact h.found hs.acyclic rfl hline
      | false =>
        have hskip := h.skip rfl (h.not_leads hs.acyclic rfl hline)
        exact ⟨hskip.freed, hskip.kept, h.visited_succ rfl hline⟩

/-- The whole loop. -/
theorem run (cp : Fin n) (hs : s.Forest) : ∃ r, (List.finRange n).foldlM (Pool.exitGroupSlot cp)
    (s, fun _ => false) = .ok r ∧ Progress s cp n r := by
  -- The turns left to take are those of the slots from `k` on.
  have key : ∀ (l : List (Fin n)) (k : Nat) (r : Pool n × (Nat → Bool)),
      l.map Fin.val = List.range' k (n - k) → k ≤ n → Progress s cp k r →
      ∃ r', l.foldlM (Pool.exitGroupSlot cp) r = .ok r' ∧ Progress s cp n r' := by
    intro l
    induction l with
    | nil =>
      intro k r hl hk h
      obtain rfl : k = n := by
        have := congrArg List.length hl
        simp at this
        omega
      exact ⟨r, rfl, h⟩
    | cons i l ih =>
      intro k r hl hk h
      obtain ⟨m, hm⟩ : ∃ m, n - k = m + 1 := by
        have := congrArg List.length hl
        simp at this
        exact ⟨l.length, by omega⟩
      rw [hm, List.map_cons, List.range'_succ] at hl
      obtain ⟨hik, hl⟩ := List.cons.inj hl
      subst hik
      obtain ⟨r', hrun, h'⟩ := h.step hs
      rw [List.foldlM_cons, hrun, ok_bind]
      exact ih (i + 1) r' (by rw [hl, show n - (i + 1) = m by omega]) (by omega) h'
  refine key _ 0 _ ?_ (Nat.zero_le n) Progress.start
  rw [List.map_coe_finRange_eq_range, List.range_eq_range', Nat.sub_zero]

end Progress

/-- A proper descendant of `cp` is below one of its children. -/
theorem descends_iff {i : Fin n} :
    s.Descends cp i ↔ ∃ t, Below s.up i t ∧ s.up t = some cp :=
  Relation.TransGen.tail'_iff

theorem Pool.Freed.descends {k : Nat} {i : Fin n} (h : s.Freed cp k i) : s.Descends cp i := by
  obtain ⟨j, t, -, hlead, -, hit⟩ := h
  exact descends_iff.mpr ⟨t, hit, hlead.1⟩

/-- The loop gives back all descendants if and only if they are in line. -/
theorem freed_all_iff (hac : Acyclic s.up) :
    (∀ i, s.Descends cp i → s.Freed cp n i) ↔ s.InLine cp := by
  constructor
  · intro h t ht
    obtain ⟨j, t', -, hlead, -, htt⟩ :=
      h t (descends_iff.mpr ⟨t, Relation.ReflTransGen.refl, ht⟩)
    obtain rfl := hac.child_unique Relation.ReflTransGen.refl ht htt hlead.1
    refine ⟨j, fun i hi => ⟨?_, hlead.2.2 i hi⟩⟩
    obtain ⟨j', t', -, hlead', hji, hit⟩ := h i (descends_iff.mpr ⟨t, hi, ht⟩)
    obtain rfl := hac.child_unique hi ht hit hlead'.1
    have hjj : j' = j :=
      Fin.le_antisymm (hlead'.2.2 j hlead.2.1) (hlead.2.2 j' hlead'.2.1)
    exact hjj ▸ hji
  · intro h i hi
    obtain ⟨t, hit, ht⟩ := descends_iff.mp hi
    obtain ⟨j, hj⟩ := h t ht
    have hjt := (hj t Relation.ReflTransGen.refl).1
    exact ⟨j, t, j.isLt, ⟨ht, hjt, fun m hm => (hj m hm).2⟩, (hj i hit).1, hit⟩

/-- A descendant is in use. -/
theorem Pool.Forest.descends_used (hs : s.Forest) {i : Fin n} (h : s.Descends cp i) :
    (s.procs i).state ≠ .unused := by
  intro hu
  obtain ⟨q, hup, -⟩ := Relation.TransGen.head'_iff.mp h
  rw [Up, hs.unused i hu] at hup
  cases hup

/-- What the loop leaves is the pool without the descendants if and only if all were given back. -/
theorem Progress.cleared_iff (hs : s.Forest) {r : Pool n × (Nat → Bool)}
    (h : Progress s cp n r) :
    s.Cleared cp r.1 ↔ ∀ i, s.Descends cp i → s.Freed cp n i := by
  constructor
  · intro hc i hi
    by_contra hno
    have hgone := hc.gone i hi
    rw [h.kept i hno] at hgone
    exact hs.descends_used hi hgone
  · intro hall
    have hgone : ∀ i, s.Descends cp i → (r.1.procs i).state = .unused := by
      intro i hi
      rw [h.freed i (hall i hi)]
      rfl
    have hkept : ∀ i, ¬ s.Descends cp i → r.1.procs i = s.procs i :=
      fun i hi => h.kept i fun hf => hi hf.descends
    refine ⟨hgone, hkept, fun i q hu hup => ?_⟩
    have hi : ¬ s.Descends cp i := fun hi => hu (hgone i hi)
    have hup : s.up i = some q := h.up_sub i q hup
    have hq : ¬ s.Descends cp q := fun hq => hi (Relation.TransGen.head hup hq)
    rw [hkept q hq]
    exact hs.used i q hup

/-- `exit_group` always ends its loop without a write outside of `stk` or `visit`, and it removes
exactly the descendants of its caller if and only if, below each child of the caller, they are one
line of descent whose last process has the smallest slot. -/
theorem exit_group_clears_iff {n : Nat} {s : Pool n} (cp : Fin n) (hs : s.Forest) :
    (∃ s', s.exitGroup cp = .ok s') ∧
    ((∃ s', s.exitGroup cp = .ok s' ∧ s.Cleared cp s') ↔ s.InLine cp) := by
  obtain ⟨r, hrun, hprog⟩ := Progress.run cp hs
  have heq : s.exitGroup cp = .ok r.1 := by
    rw [Pool.exitGroup, hrun, ok_bind]
    rfl
  refine ⟨⟨_, heq⟩, ?_⟩
  rw [← freed_all_iff hs.acyclic, ← hprog.cleared_iff hs, heq]
  constructor
  · rintro ⟨s', he, hc⟩
    obtain rfl := Except.ok.inj he
    exact hc
  · exact fun hc => ⟨r.1, rfl, hc⟩

/-- Children that have no children of their own are in line. -/
theorem inLine_of_leaves (h : ∀ t, s.up t = some cp → ∀ i, s.up i ≠ some t) :
    s.InLine cp := by
  refine fun t ht => ⟨t, fun i hi => ?_⟩
  rcases Relation.ReflTransGen.cases_tail hi with rfl | ⟨q, -, hup⟩
  · exact ⟨Relation.ReflTransGen.refl, Fin.le_refl _⟩
  · exact absurd hup (h t ht q)

/-- The grandchild of the init process has one child, and removes it. -/
theorem exit_group_clears_sample : fourGenerations.Descends 2 3 ∧
    ∃ s', fourGenerations.exitGroup 2 = .ok s' ∧ fourGenerations.Cleared 2 s' := by
  have hs := (fourGenerations_reach (fun _ _ => True) fun _ => trivial).forest
  refine ⟨Relation.TransGen.single rfl, ?_⟩
  exact (exit_group_clears_iff 2 hs).2.mpr (inLine_of_leaves (by decide))

/-- The child of the init process removes its own child, and leaves the grandchild with a pointer to
an unused slot. -/
theorem exit_group_leaves_orphan : ∃ s : Pool 4, PoolReach 0 (fun _ _ => True) s ∧
    s.Running 1 ∧ s.Descends 1 3 ∧ ∃ s', s.exitGroup 1 = .ok s' ∧
      (s'.procs 3).state = .running ∧ s'.up 3 = some 2 ∧ (s'.procs 2).state = .unused := by
  refine ⟨fourGenerations, fourGenerations_reach _ fun _ => trivial, ⟨rfl, rfl, rfl⟩, ?_,
    ?_⟩
  · exact Relation.TransGen.tail (Relation.TransGen.single (b := 2) rfl) rfl
  · exact ⟨_, rfl, rfl, rfl, rfl⟩

end OsKernel.Pm

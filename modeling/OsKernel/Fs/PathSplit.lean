import Mathlib.Data.List.Pairwise
import OsKernel.Fs.Path

/-! The names that `pathbuild` finds are the longest stretches of a string without a slash.  The
loop is at a place of the string, with the stretches before it found. -/

namespace OsKernel.Fs

variable {s : Str} {st : SplitState} {pos : Nat}

/-- There is a character other than a slash. -/
def NameAt (s : Str) (i : Nat) : Prop := ∃ ch, s[i]? = some ch ∧ ch ≠ '/'

/-- The `n` characters from `a` on have no slash, and neither side can have one more of them. -/
structure MaximalRun (s : Str) (a n : Nat) : Prop where
  pos : 0 < n
  chars : ∀ i, a ≤ i → i < a + n → NameAt s i
  left : 0 < a → ¬NameAt s (a - 1)
  right : ¬NameAt s (a + n)

theorem NameAt.lt {i : Nat} (h : NameAt s i) : i < s.length := by
  obtain ⟨ch, hch, -⟩ := h
  exact (List.getElem?_eq_some_iff.mp hch).1

theorem nameAt_iff {i : Nat} {ch : Char} (h : s[i]? = some ch) : NameAt s i ↔ ch ≠ '/' := by
  refine ⟨fun ⟨c, hc, hne⟩ => ?_, fun hne => ⟨ch, h, hne⟩⟩
  rw [h] at hc
  exact Option.some.inj hc ▸ hne

theorem MaximalRun.start_le {a n a' n' i : Nat} (h : MaximalRun s a n) (h' : MaximalRun s a' n')
    (hu : i < a + n) (hl' : a' ≤ i) : a' ≤ a := by
  by_contra hlt
  exact h'.left (by omega) (h.chars (a' - 1) (by omega) (by omega))

theorem MaximalRun.stop_le {a n a' n' i : Nat} (h : MaximalRun s a n) (h' : MaximalRun s a' n')
    (hl : a ≤ i) (hu' : i < a' + n') : a + n ≤ a' + n' := by
  by_contra hlt
  exact h'.right (h.chars (a' + n') (by omega) (by omega))

/-- Two stretches that meet are one. -/
theorem MaximalRun.unique {a n a' n' i : Nat} (h : MaximalRun s a n) (h' : MaximalRun s a' n')
    (hl : a ≤ i) (hu : i < a + n) (hl' : a' ≤ i) (hu' : i < a' + n') : a = a' ∧ n = n' := by
  have h₁ := h.start_le h' hu hl'
  have h₂ := h'.start_le h hu' hl
  have h₃ := h.stop_le h' hl hu'
  have h₄ := h'.stop_le h hl' hu
  omega

/-! ### The loop -/

namespace SplitState

theorem loop_append (l l' : Str) (i : Nat) (st : SplitState) :
    loop (l ++ l') i st = loop l' (i + l.length) (loop l i st) := by
  induction l generalizing i st with
  | nil => rfl
  | cons ch l ih =>
    rw [List.cons_append, loop, loop, ih, List.length_cons, Nat.add_assoc, Nat.add_comm 1]

/-- The variables before the character `i`. -/
def before (s : Str) (i : Nat) : SplitState := loop (s.take i) 0 init

theorem before_succ {i : Nat} {ch : Char} (h : s[i]? = some ch) :
    before s (i + 1) = (before s i).step i ch := by
  obtain ⟨hlt, hch⟩ := List.getElem?_eq_some_iff.mp h
  have htake : s.take (i + 1) = s.take i ++
    [ch] := by rw [List.take_succ_eq_append_getElem hlt, hch]
  rw [before, htake, loop_append, loop, loop, List.length_take, Nat.min_eq_left (Nat.le_of_lt hlt),
    Nat.zero_add]
  rfl

end SplitState

/-- What `ind` has of the string before a place: the stretches that have ended, and one up to
the place. -/
structure RunInv (s : Str) (pos : Nat) (st : SplitState) : Prop where
  rep : st.rep = false ↔ 0 < pos ∧ NameAt s (pos - 1)
  ended : ∀ j < st.dirnum, MaximalRun s (st.ind j).1 (st.ind j).2 ∧
    (st.ind j).1 + (st.ind j).2 < pos
  current : st.rep = false → 0 < (st.ind st.dirnum).2 ∧
    (st.ind st.dirnum).1 + (st.ind st.dirnum).2 = pos ∧
    (∀ i, (st.ind st.dirnum).1 ≤ i → i < pos → NameAt s i) ∧
    (0 < (st.ind st.dirnum).1 → ¬NameAt s ((st.ind st.dirnum).1 - 1)) ∧
    ∀ j < st.dirnum, (st.ind j).1 + (st.ind j).2 < (st.ind st.dirnum).1
  order : ∀ j k, j < k → k < st.dirnum → (st.ind j).1 + (st.ind j).2 < (st.ind k).1
  fresh : ∀ j, st.count ≤ j → (st.ind j).2 = 0
  all : ∀ i < pos, NameAt s i → ∃ j < st.count, (st.ind j).1 ≤ i ∧
    i < (st.ind j).1 + (st.ind j).2
  count : st.count ≤ pos

namespace RunInv

theorem start : RunInv s 0 .init := by
  refine ⟨by simp [SplitState.init], fun j hj => absurd hj (Nat.not_lt_zero j),
    fun h => by simp [SplitState.init] at h,
    fun j k _ hk => absurd hk (Nat.not_lt_zero k), fun _ _ => rfl, fun i hi =>
    absurd hi (Nat.not_lt_zero i), ?_⟩
  exact Nat.le_refl 0

theorem slash (h : RunInv s pos st) (hch : s[pos]? = some '/') :
    RunInv s (pos + 1) (st.step pos '/') := by
  have hnot : ¬NameAt s pos := by rw [nameAt_iff hch]; exact fun hne => hne rfl
  have hall : ∀ i < pos + 1, NameAt s i → i < pos := fun i hi hname => by
    rcases Nat.lt_succ_iff_lt_or_eq.mp hi with hlt | rfl
    · exact hlt
    · exact absurd hname hnot
  unfold SplitState.step
  rw [if_pos rfl]
  cases hrep : st.rep with
  | true =>
    have hcount : st.count = st.dirnum := by simp [SplitState.count, hrep]
    rw [if_pos rfl]
    refine ⟨by simp [hrep,
      hnot], fun j hj => ⟨(h.ended j hj).1, Nat.lt_succ_of_lt (h.ended j hj).2⟩,
      fun hf => (by rw [hrep] at hf; cases hf), h.order, h.fresh, fun i hi hname =>
      h.all i (hall i hi hname) hname,
      Nat.le_succ_of_le h.count⟩
  | false =>
    obtain ⟨hpos, hend, hchars, hleft, hbelow⟩ := h.current hrep
    have hcount : st.count = st.dirnum + 1 := by simp [SplitState.count, hrep]
    have hrun : MaximalRun s (st.ind st.dirnum).1 (st.ind st.dirnum).2 :=
      ⟨hpos, fun i hl hu => hchars i hl (by omega), hleft, by rw [hend]; exact hnot⟩
    simp only [Bool.false_eq_true, if_false]
    refine ⟨by simp [hnot], fun j hj => ?_, fun hf => by simp at hf, fun j k hjk hk => ?_,
      fun j hj => ?_,
      fun i hi hname => ?_, ?_⟩
    · rcases Nat.lt_succ_iff_lt_or_eq.mp hj with hlt | rfl
      · exact ⟨(h.ended j hlt).1, Nat.lt_succ_of_lt (h.ended j hlt).2⟩
      · exact ⟨hrun, by simp only; omega⟩
    · rcases Nat.lt_succ_iff_lt_or_eq.mp hk with hlt | rfl
      · exact h.order j k hjk hlt
      · exact hbelow j hjk
    · simp only [SplitState.count, if_true] at hj
      exact h.fresh j (by omega)
    · simp only [SplitState.count, if_true]
      rw [← hcount]
      exact h.all i (hall i hi hname) hname
    · have := h.count
      simp only [SplitState.count, if_true]
      omega

theorem char (h : RunInv s pos st) {ch : Char} (hch : s[pos]? = some ch) (hne : ch ≠ '/') :
    RunInv s (pos + 1) (st.step pos ch) := by
  have hname : NameAt s pos := (nameAt_iff hch).mpr hne
  obtain ⟨st', hst⟩ : ∃ st', st' = st.step pos ch := ⟨_, rfl⟩
  rw [← hst]
  have hdirnum : st'.dirnum = st.dirnum := by
    rw [hst]
    unfold SplitState.step
    rw [if_neg hne]
    split <;> rfl
  have hrep' : st'.rep = false := by
    rw [hst]
    unfold SplitState.step
    rw [if_neg hne]
    split
    · rfl
    · next h => simpa using h
  have hold : ∀ j, j ≠ st.dirnum → st'.ind j = st.ind j := fun j hj => by
    rw [hst]
    unfold SplitState.step
    rw [if_neg hne]
    split
    · simp only [Function.update_of_ne hj]
    · simp only [Function.update_of_ne hj]
  -- the stretch up to the place, which starts here or goes on
  have hcur : st'.ind st.dirnum =
      (if st.rep then pos else (st.ind st.dirnum).1, (st.ind st.dirnum).2 + 1) := by
    rw [hst]
    unfold SplitState.step
    rw [if_neg hne]
    cases st.rep with
    | true => simp
    | false => simp
  have hcount' : st'.count = st.dirnum + 1 := by simp [SplitState.count, hrep', hdirnum]
  have hle := h.count
  have hstart : (st.ind st.dirnum).2 + (st'.ind st.dirnum).1 = pos ∧
      (∀ i, (st'.ind st.dirnum).1 ≤ i → i < pos → NameAt s i) ∧
      (0 < (st'.ind st.dirnum).1 → ¬NameAt s ((st'.ind st.dirnum).1 - 1)) ∧
      ∀ j < st.dirnum, (st.ind j).1 + (st.ind j).2 < (st'.ind st.dirnum).1 := by
    rw [hcur]
    cases hrep : st.rep with
    | true =>
      have hcount : st.count = st.dirnum := by simp [SplitState.count, hrep]
      simp only [if_true]
      refine ⟨by rw [h.fresh _ (by omega)]; omega, fun i hl hu => by omega, fun hpos hprev => ?_,
        fun j hj => (h.ended j hj).2⟩
      have := h.rep.mpr ⟨hpos, hprev⟩
      rw [hrep] at this
      cases this
    | false =>
      obtain ⟨hpos, hend, hchars, hleft, hbelow⟩ := h.current hrep
      simp only [Bool.false_eq_true, if_false]
      exact ⟨by omega, hchars, hleft, hbelow⟩
  obtain ⟨hend, hchars, hleft, hbelow⟩ := hstart
  have hlen : (st'.ind st.dirnum).2 = (st.ind st.dirnum).2 + 1 := by rw [hcur]
  refine ⟨by simp [hrep',
    hname], fun j hj => ?_, fun _ => ?_, fun j k hjk hk => ?_, fun j hj => ?_, fun i hi hn => ?_,
    ?_⟩
  · rw [hdirnum] at hj
    rw [hold j (by omega)]
    exact ⟨(h.ended j hj).1, Nat.lt_succ_of_lt (h.ended j hj).2⟩
  · rw [hdirnum, hlen]
    refine ⟨by omega, by omega, fun i hl hu => ?_, hleft, fun j hj => ?_⟩
    · rcases Nat.lt_succ_iff_lt_or_eq.mp hu with hlt | rfl
      · exact hchars i hl hlt
      · exact hname
    · rw [hold j (by omega)]
      exact hbelow j hj
  · rw [hdirnum] at hk
    rw [hold j (by omega), hold k (by omega)]
    exact h.order j k hjk hk
  · rw [hcount'] at hj
    rw [hold j (by omega)]
    refine h.fresh j (Nat.le_trans ?_ hj)
    unfold SplitState.count
    split <;> omega
  · rw [hcount']
    rcases Nat.lt_succ_iff_lt_or_eq.mp hi with hlt | rfl
    · obtain ⟨j, hj, hl, hu⟩ := h.all i hlt hn
      by_cases hjd : j = st.dirnum
      · subst hjd
        refine ⟨st.dirnum, Nat.lt_succ_self _, ?_, by omega⟩
        cases hrep : st.rep with
        | true =>
          have hcount : st.count = st.dirnum := by simp [SplitState.count, hrep]
          omega
        | false =>
          rw [hcur, hrep]
          exact hl
      · have hcount : st.count ≤ st.dirnum + 1 := by
          unfold SplitState.count
          split <;> omega
        refine ⟨j, by omega, ?_⟩
        rw [hold j hjd]
        exact ⟨hl, hu⟩
    · exact ⟨st.dirnum, Nat.lt_succ_self _, by omega, by omega⟩
  · rw [hcount']
    cases hrep : st.rep with
    | true =>
      have hcount : st.count = st.dirnum := by simp [SplitState.count, hrep]
      omega
    | false =>
      have hcount : st.count = st.dirnum + 1 := by simp [SplitState.count, hrep]
      omega

/-- The loop before any place of the string. -/
theorem before (hpos : pos ≤ s.length) : RunInv s pos (.before s pos) := by
  induction pos with
  | zero => exact .start
  | succ pos ih =>
    have hget : s[pos]? = some s[pos] := List.getElem?_eq_getElem hpos
    rw [SplitState.before_succ hget]
    by_cases hch : s[pos] = '/'
    · rw [hch] at hget ⊢
      exact (ih (Nat.le_of_lt hpos)).slash hget
    · exact (ih (Nat.le_of_lt hpos)).char hget hch

end RunInv

/-! ### The names -/

/-- The loop finds exactly the stretches, from left to right. -/
theorem splitNames_runs (s : Str) : ∃ runs : List (Nat × Nat),
    splitNames s = runs.map (fun r => substr s r.1 r.2) ∧
    runs.Pairwise (fun r r' => r.1 + r.2 < r'.1) ∧ ∀ a n, (a, n) ∈ runs ↔
      MaximalRun s a n := by
  have h := RunInv.before (s := s) (Nat.le_refl s.length)
  have hend : SplitState.before s s.length = SplitState.loop s 0 .init := by
    rw [SplitState.before, List.take_length]
  rw [hend] at h
  obtain ⟨st, hst⟩ : ∃ st, st = SplitState.loop s 0 .init := ⟨_, rfl⟩
  rw [← hst] at h
  have hout : ¬NameAt s s.length := fun hname => absurd hname.lt (Nat.lt_irrefl _)
  have hrun : ∀ j < st.count, MaximalRun s (st.ind j).1 (st.ind j).2 := fun j hj => by
    by_cases hlt : j < st.dirnum
    · exact (h.ended j hlt).1
    · cases hrep : st.rep with
      | true =>
        simp only [SplitState.count, hrep, if_true] at hj
        exact absurd hj hlt
      | false =>
        simp only [SplitState.count, hrep, Bool.false_eq_true, if_false] at hj
        obtain rfl : j = st.dirnum := by omega
        obtain ⟨hpos, hstop, hchars, hleft, -⟩ := h.current hrep
        exact ⟨hpos, fun i hl hu => hchars i hl (by omega), hleft, by rw [hstop]; exact hout⟩
  have horder : ∀ j k, j < k → k < st.count → (st.ind j).1 + (st.ind j).2 < (st.ind k).1 :=
      fun j k hjk hk => by
    by_cases hlt : k < st.dirnum
    · exact h.order j k hjk hlt
    · cases hrep : st.rep with
      | true =>
        simp only [SplitState.count, hrep, if_true] at hk
        exact absurd hk hlt
      | false =>
        simp only [SplitState.count, hrep, Bool.false_eq_true, if_false] at hk
        obtain rfl : k = st.dirnum := by omega
        exact (h.current hrep).2.2.2.2 j hjk
  refine ⟨(List.range st.count).map st.ind, ?_, ?_,
    fun a n => ⟨fun hmem => ?_, fun hmax => ?_⟩⟩
  · rw [splitNames, ← hst, List.map_map]
    rfl
  · rw [List.pairwise_map]
    exact List.pairwise_lt_range.imp_of_mem fun {j k} _ hk hjk =>
      horder j k hjk (List.mem_range.mp hk)
  · obtain ⟨j, hj, heq⟩ := List.mem_map.mp hmem
    have := hrun j (List.mem_range.mp hj)
    rwa [heq] at this
  · have hname := hmax.chars a (Nat.le_refl a) (Nat.lt_add_of_pos_right hmax.pos)
    obtain ⟨j, hj, hl, hu⟩ := h.all a hname.lt hname
    obtain ⟨h₁, h₂⟩ := (hrun j hj).unique hmax hl hu (Nat.le_refl a)
      (Nat.lt_add_of_pos_right hmax.pos)
    exact List.mem_map.mpr ⟨j, List.mem_range.mpr hj, Prod.ext h₁ h₂⟩

/-- The names joined by slashes. -/
def joinNames : List Str → Str
  | [] => []
  | [n] => n
  | n :: m :: ns => n ++ '/' :: joinNames (m :: ns)

theorem components_join {ns : List Str} (hns : ∀ n ∈ ns, n ≠ [] ∧ '/' ∉ n) :
    components (joinNames ns) = ns := by
  induction ns with
  | nil => rfl
  | cons n ns ih =>
    obtain ⟨hn, hslash⟩ := hns n List.mem_cons_self
    cases ns with
    | nil =>
      have h : componentsFrom [] (n ++ []) = componentsFrom ([] ++ n) [] :=
        componentsFrom_append hslash
      rw [List.append_nil, List.nil_append, componentsFrom, if_neg hn] at h
      exact h
    | cons m ns =>
      have hrest := ih fun k hk => hns k (List.mem_cons_of_mem _ hk)
      rw [joinNames, components, componentsFrom_append hslash, List.nil_append, componentsFrom,
        if_pos rfl, if_neg hn]
      exact congrArg (n :: ·) hrest

/-- `pathbuild` of a string that is not empty finds exactly the names in it, joined they are found
again, `ind` is accessed inside its length only, and the walk starts at the root or at the directory
that is given. -/
theorem pathbuild_exact (T : DirTree) (cwd : T.Dir) (base : Option T.Dir) (pathname : Str)
    (hne : pathname ≠ []) : (∃ runs : List (Nat × Nat),
      (pathbuild T cwd base pathname).dirname = runs.map (fun r => substr pathname r.1 r.2) ∧
      runs.Pairwise (fun r r' => r.1 + r.2 < r'.1) ∧ ∀ a n, (a, n) ∈ runs ↔
      MaximalRun pathname a n) ∧
    splitNames (joinNames (pathbuild T cwd base pathname).dirname) =
    (pathbuild T cwd base pathname).dirname ∧
    (∀ i < pathname.length, (SplitState.before pathname i).dirnum < pathname.length) ∧
    (SplitState.before pathname pathname.length).count ≤ pathname.length ∧
    (pathbuild T cwd base pathname).base = if pathname.head? = some '/' then T.root
      else base.getD cwd := by
  have hnames : (pathbuild T cwd base pathname).dirname = splitNames pathname := by
    cases pathname with
    | nil => exact absurd rfl hne
    | cons ch s => rfl
  rw [hnames]
  refine ⟨splitNames_runs pathname, ?_, fun i hi => ?_, (RunInv.before (Nat.le_refl _)).count,
    ?_⟩
  · rw [splitNames_eq, splitNames_eq]
    exact components_join fun n hn => componentsFrom_mem List.not_mem_nil hn
  · have hcount := (RunInv.before (Nat.le_of_lt hi)).count
    have hle : (SplitState.before pathname i).dirnum ≤ (SplitState.before pathname i).count := by
      unfold SplitState.count
      split <;> omega
    omega
  · cases pathname with
    | nil => exact absurd rfl hne
    | cons ch s =>
      by_cases hch : ch = '/'
      · subst hch
        rfl
      · simp [pathbuild, hch]

/-- The names of `//a/bc/`. -/
theorem pathbuild_exact_sample :
    (pathbuild sampleTree sampleTree.root none ['/', '/', 'a', '/', 'b', 'c', '/']).dirname =
      [['a'], ['b', 'c']] ∧
    splitNames (joinNames (pathbuild sampleTree sampleTree.root none ['/', '/', 'a', '/', 'b', 'c',
      '/']).dirname) = [['a'], ['b', 'c']] := by
  refine ⟨by decide, ?_⟩
  rw [(pathbuild_exact sampleTree sampleTree.root none ['/', '/', 'a', '/', 'b', 'c', '/']
    (by decide)).2.1]
  decide

end OsKernel.Fs

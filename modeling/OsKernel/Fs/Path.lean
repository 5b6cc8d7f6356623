import Mathlib.Data.List.Induction
import Mathlib.Logic.Function.Basic
import OsKernel.Klib.Fault

/-! `Path` and `chdir`: a path is split at its slashes, walked from a directory to a dentry, and
turned into a string of its own by `AbsolutePath`.  Two dentries of one directory are one
directory here. -/

namespace OsKernel.Fs

abbrev Str := List Char

abbrev dot : Str := ['.']

abbrev dotdot : Str := ['.', '.']

/-- A component of a path that is not `.` or `..`. -/
def Proper (n : Str) : Prop := n ≠ dot ∧ n ≠ dotdot

instance (n : Str) : Decidable (Proper n) := inferInstanceAs (Decidable (_ ∧ _))

/-- The directories.  Mounting puts the root of another file system under the name and the parent of
the mount point, so that there is one tree. -/
structure DirTree where
  Dir : Type
  root : Dir
  /-- `getParent`; the root has the null pointer. -/
  parent : Dir → Option Dir
  rName : Dir → Str
  entrySearch : Dir → Str → Option Dir
  depth : Dir → Nat
  root_iff : ∀ d, parent d = none ↔ d = root
  depth_parent : ∀ d e, parent e = some d → depth e = depth d + 1
  entrySearch_iff : ∀ d e n, Proper n →
    (entrySearch d n = some e ↔ parent e = some d ∧ rName e = n)
  names : ∀ d e, parent e = some d → rName e ≠ [] ∧ '/' ∉ rName e ∧ Proper (rName e)

/-! ### The path -/

/-- The variables of the loop of `pathbuild`; `ind` has the start and the length of each name. -/
structure SplitState where
  rep : Bool
  dirnum : Nat
  ind : Nat → Nat × Nat

namespace SplitState

def init : SplitState := ⟨true, 0, fun _ => (0, 0)⟩

def step (st : SplitState) (i : Nat) (ch : Char) : SplitState :=
  if ch = '/' then
    if st.rep then st else { st with rep := true, dirnum := st.dirnum + 1 }
  else
    let ind := Function.update st.ind st.dirnum ((st.ind st.dirnum).1, (st.ind st.dirnum).2 + 1)
    if st.rep then
      { st with rep := false, ind := Function.update ind st.dirnum (i, (ind st.dirnum).2) }
    else { st with ind }

def loop : Str → Nat → SplitState → SplitState
  | [], _, st => st
  | ch :: s, i, st => loop s (i + 1) (st.step i ch)

/-- The number of names, with one that the end of the string ends. -/
def count (st : SplitState) : Nat := if st.rep then st.dirnum else st.dirnum + 1

end SplitState

def substr (s : Str) (pos n : Nat) : Str := (s.drop pos).take n

/-- The names that `pathbuild` finds. -/
def splitNames (pathname : Str) : List Str :=
  let st := SplitState.loop pathname 0 .init
  (List.range st.count).map fun i => substr pathname (st.ind i).1 (st.ind i).2

variable (T : DirTree)

structure Path where
  base : T.Dir
  pathname : Str
  dirname : List Str

/-- `pathbuild`, for a process with the working directory `cwd`. -/
def pathbuild (cwd : T.Dir) (base : Option T.Dir) (pathname : Str) : Path T :=
  match pathname with
  | [] => ⟨cwd, pathname, []⟩
  | ch :: _ => ⟨if ch = '/' then T.root else base.getD cwd, pathname, splitNames pathname⟩

/-- The loop of `AbsolutePath` up to the root. -/
def namesUp : Nat → T.Dir → List Str → List Str
  | 0, _, absname => absname
  | fuel + 1, entry, absname =>
    match T.parent entry with
    | none => absname
    | some e => namesUp fuel e (T.rName entry :: absname)

/-- `absname`, before its names are joined. -/
def Path.absname (p : Path T) : List Str := namesUp T (T.depth p.base) p.base p.dirname

/-- The loop of `AbsolutePath` over the names. -/
def absLoop : List Str → Str → Str
  | [], pathAbs => pathAbs
  | n :: ns, pathAbs =>
    if n = dot ∨ n = dotdot then absLoop ns pathAbs
    else if ns.head? = some dotdot then absLoop ns pathAbs
    else absLoop ns (pathAbs ++ '/' :: n)

/-- An empty string becomes the root. -/
def orRoot (s : Str) : Str := if s = [] then ['/'] else s

def Path.absolutePath (p : Path T) : Str := orRoot (absLoop p.absname [])

/-- The loop of `pathSearch` over the names that are left.  No dentry is its file system's mount
point. -/
def searchLoop (parent : Bool) : List Str → Option T.Dir → Except Fault (Option T.Dir)
  | [], entry => .ok entry
  | _ :: _, none => .error (.undefined "null dentry")
  | n :: ns, some entry =>
    if parent = true ∧ ns = [] then .ok (some entry)
    else if n = dot then searchLoop parent ns (some entry)
    else if n = dotdot then searchLoop parent ns (T.parent entry)
    else
      match T.entrySearch entry n with
      | some it => searchLoop parent ns (some it)
      | none => .ok none

def Path.pathSearch (p : Path T) (parent : Bool) : Except Fault (Option T.Dir) :=
  if p.pathname = ['/'] then .ok (some T.root) else searchLoop T parent p.dirname (some p.base)

/-! ### The working directory -/

structure Cwd where
  cwd : T.Dir
  cwdName : Str

/-- `ProcessManager::chdir`, with its result. -/
def chdir (s : Cwd T) (path : Str) : Except Fault (Int × Cwd T) := do
  let pt := pathbuild T s.cwd none path
  match ← pt.pathSearch T false with
  | none => return (-1, s)
  | some dentry =>
    let name := pt.absolutePath T
    return (0, ⟨dentry, if name.getLast? = some '/' then name else name ++ ['/']⟩)

/-- The path is found from the root. -/
def resolve (path : Str) : Except Fault (Option T.Dir) :=
  (pathbuild T T.root none path).pathSearch T false

/-! ### The names between the slashes -/

/-- The names of a string after the characters `cur` of an unfinished one. -/
def componentsFrom : Str → Str → List Str
  | cur, [] => if cur = [] then [] else [cur]
  | cur, ch :: s =>
    if ch = '/' then
      if cur = [] then componentsFrom [] s else cur :: componentsFrom [] s
    else componentsFrom (cur ++ [ch]) s

/-- The names between the slashes. -/
def components (s : Str) : List Str := componentsFrom [] s

/-- What the loop of `pathbuild` has found in the part `pre` of the string: the names `done`, and
the characters `cur` of an unfinished one. -/
structure SplitInv (whole pre : Str) (st : SplitState) (done : List Str) (cur : Str) : Prop where
  rep : st.rep = true ↔ cur = []
  dirnum : st.dirnum = done.length
  found : ∀ j n, done[j]? = some n → substr whole (st.ind j).1 (st.ind j).2 = n
  fresh : ∀ j, st.dirnum < j → (st.ind j).2 = 0
  length : (st.ind st.dirnum).2 = cur.length
  start : cur ≠ [] → (st.ind st.dirnum).1 + cur.length = pre.length
  suffix : cur <:+ pre

namespace SplitInv

variable {whole pre s cur : Str} {st : SplitState} {done : List Str} {ch : Char}

/-- The unfinished name is where `ind` says. -/
theorem current (h : SplitInv whole pre st done cur) (hw : whole = pre ++ s) (hc : cur ≠ []) :
    substr whole (st.ind st.dirnum).1 (st.ind st.dirnum).2 = cur := by
  obtain ⟨p, rfl⟩ := h.suffix
  have hstart := h.start hc
  rw [List.length_append] at hstart
  have hp : (st.ind st.dirnum).1 = p.length := by omega
  rw [substr, h.length, hp, hw, List.append_assoc, List.drop_left, List.take_left]

theorem slash (h : SplitInv whole pre st done cur) (hw : whole = pre ++ '/' :: s) :
    SplitInv whole (pre ++ ['/']) (st.step pre.length '/')
      (if cur = [] then done else done ++ [cur]) [] := by
  unfold SplitState.step
  rw [if_pos rfl]
  by_cases hc : cur = []
  · rw [if_pos (h.rep.mpr hc), if_pos hc]
    refine ⟨by simp [h.rep.mpr hc], h.dirnum, h.found, h.fresh, ?_, fun h => absurd rfl h,
      List.nil_suffix⟩
    rw [h.length, hc]
  · rw [if_neg (fun hr => hc (h.rep.mp hr)), if_neg hc]
    refine ⟨by simp, by simp [h.dirnum], fun j n hj => ?_,
      fun j hj => h.fresh j (by simp at hj; omega),
      h.fresh _ (by simp), fun h => absurd rfl h, List.nil_suffix⟩
    rcases Nat.lt_trichotomy j done.length with hlt | heq | hgt
    · rw [List.getElem?_append_left hlt] at hj
      exact h.found j n hj
    · rw [heq, List.getElem?_concat_length, Option.some.injEq] at hj
      rw [heq, ← h.dirnum, ← hj]
      exact h.current hw hc
    · rw [List.getElem?_eq_none (by simp; omega)] at hj
      cases hj

theorem char (h : SplitInv whole pre st done cur) (hch : ch ≠ '/') :
    SplitInv whole (pre ++ [ch]) (st.step pre.length ch) done (cur ++ [ch]) := by
  have hne : ∀ {j}, j ≠ st.dirnum → (st.step pre.length ch).ind j = st.ind j := by
    intro j hj
    unfold SplitState.step
    rw [if_neg hch]
    split
    · simp only [Function.update_of_ne hj]
    · simp only [Function.update_of_ne hj]
  have hdirnum : (st.step pre.length ch).dirnum = st.dirnum := by
    unfold SplitState.step
    rw [if_neg hch]
    split
    · rfl
    · rfl
  have hlength : ((st.step pre.length ch).ind st.dirnum).2 = cur.length + 1 := by
    unfold SplitState.step
    rw [if_neg hch]
    split
    · simp [h.length]
    · simp [h.length]
  refine ⟨?_, hdirnum.trans h.dirnum, fun j n hj => ?_, fun j hj => ?_, ?_, fun _ => ?_, ?_⟩
  · refine ⟨fun hr => ?_, fun h => absurd h (by simp)⟩
    unfold SplitState.step at hr
    rw [if_neg hch] at hr
    split at hr
    · cases hr
    · rename_i hrep
      exact absurd hr hrep
  · have hlt : j < done.length := (List.getElem?_eq_some_iff.mp hj).1
    have hjd : j ≠ st.dirnum := by
      rw [h.dirnum]
      omega
    rw [hne hjd]
    exact h.found j n hj
  · rw [hdirnum] at hj
    rw [hne (by omega)]
    exact h.fresh j hj
  · rw [hdirnum, hlength, List.length_append, List.length_singleton]
  · rw [hdirnum, List.length_append, List.length_append, List.length_singleton]
    unfold SplitState.step
    rw [if_neg hch]
    by_cases hc : cur = []
    · rw [if_pos (h.rep.mpr hc)]
      simp [hc]
    · rw [if_neg (fun hr => hc (h.rep.mp hr))]
      have := h.start hc
      simp only [Function.update_self]
      omega
  · obtain ⟨p, rfl⟩ := h.suffix
    exact ⟨p, by simp⟩

theorem names_done (h : SplitInv whole pre st done cur) :
    (List.range done.length).map (fun i => substr whole (st.ind i).1 (st.ind i).2) = done := by
  refine List.ext_getElem (by simp) fun j _ hj => ?_
  rw [List.getElem_map, List.getElem_range]
  exact h.found j _ (List.getElem?_eq_getElem hj)

/-- The loop over the rest of the string finds the rest of the names. -/
theorem loop (h : SplitInv whole pre st done cur) (hw : whole = pre ++ s) :
    ∃ st', SplitState.loop s pre.length st = st' ∧
      (List.range st'.count).map (fun i => substr whole (st'.ind i).1 (st'.ind i).2) =
        done ++ componentsFrom cur s := by
  induction s generalizing pre st done cur with
  | nil =>
    refine ⟨st, rfl, ?_⟩
    unfold SplitState.count componentsFrom
    by_cases hc : cur = []
    · rw [if_pos (h.rep.mpr hc), if_pos hc, List.append_nil, h.dirnum, h.names_done]
    · rw [if_neg (fun hr => hc (h.rep.mp hr)), if_neg hc, List.range_succ, List.map_append,
        List.map_singleton, h.current hw hc, h.dirnum, h.names_done]
  | cons ch s ih =>
    by_cases hch : ch = '/'
    · subst hch
      obtain ⟨st', hst, hnames⟩ := ih (h.slash hw) (by rw [hw, List.append_assoc]; rfl)
      refine ⟨st', ?_, ?_⟩
      · rw [SplitState.loop, ← hst, List.length_append, List.length_singleton]
      · rw [hnames, componentsFrom, if_pos rfl]
        split
        · rfl
        · rw [List.append_assoc]
          rfl
    · obtain ⟨st', hst, hnames⟩ := ih (h.char hch) (by rw [hw, List.append_assoc]; rfl)
      refine ⟨st', ?_, ?_⟩
      · rw [SplitState.loop, ← hst, List.length_append, List.length_singleton]
      · rw [hnames, componentsFrom, if_neg hch]

end SplitInv

theorem splitNames_eq (s : Str) : splitNames s = components s := by
  have h : SplitInv s [] .init [] [] :=
    ⟨by simp [SplitState.init], rfl, nofun, fun _ _ => rfl, rfl, fun h => absurd rfl h,
      List.nil_suffix⟩
  obtain ⟨st, hst, hnames⟩ := h.loop rfl
  rw [splitNames, show SplitState.loop s 0 .init = st from hst]
  exact hnames

/-- A name is not empty and has no slash. -/
theorem componentsFrom_mem {cur s : Str} {n : Str} (hcur : '/' ∉ cur)
    (hn : n ∈ componentsFrom cur s) : n ≠ [] ∧ '/' ∉ n := by
  induction s generalizing cur with
  | nil =>
    unfold componentsFrom at hn
    split at hn
    · cases hn
    · rw [List.mem_singleton.mp hn]
      exact ⟨‹_›, hcur⟩
  | cons ch s ih =>
    unfold componentsFrom at hn
    split at hn
    · split at hn
      · exact ih List.not_mem_nil hn
      · rcases List.mem_cons.mp hn with rfl | hn
        · exact ⟨‹_›, hcur⟩
        · exact ih List.not_mem_nil hn
    · refine ih ?_ hn
      rw [List.mem_append, List.mem_singleton, not_or]
      exact ⟨hcur, Ne.symm ‹_›⟩

/-- The names with a slash before each. -/
def render (ns : List Str) : Str := ns.flatMap fun n => '/' :: n

theorem componentsFrom_append {cur n s : Str} (hn : '/' ∉ n) :
    componentsFrom cur (n ++ s) = componentsFrom (cur ++ n) s := by
  induction n generalizing cur with
  | nil => rw [List.nil_append, List.append_nil]
  | cons ch n ih =>
    rw [List.mem_cons, not_or] at hn
    rw [List.cons_append, componentsFrom, if_neg (Ne.symm hn.1), ih hn.2, List.append_assoc]
    rfl

/-- The names of a string of names are these names. -/
theorem components_render {ns : List Str} (hns : ∀ n ∈ ns, n ≠ [] ∧ '/' ∉ n) :
    components (render ns ++ ['/']) = ns := by
  have H : ∀ cur : Str, componentsFrom cur (render ns ++ ['/']) =
      if cur = [] then ns else cur :: ns := by
    induction ns with
    | nil =>
      intro cur
      simp only [render, List.flatMap_nil, List.nil_append, componentsFrom, if_true]
    | cons n ns ih =>
      obtain ⟨hn, hslash⟩ := hns n List.mem_cons_self
      intro cur
      have hrec : componentsFrom [] (n ++ (render ns ++ ['/'])) = n :: ns := by
        rw [componentsFrom_append hslash, List.nil_append,
          ih (fun m hm => hns m (List.mem_cons_of_mem _ hm)) n, if_neg hn]
      have hstep : render (n :: ns) ++ ['/'] = '/' :: (n ++ (render ns ++ ['/'])) := by
        simp [render]
      rw [hstep, componentsFrom, if_pos rfl, hrec]
  exact H []

/-! ### The canonical form -/

/-- One more component: `..` takes the last name away. -/
def pushName (st : List Str) (n : Str) : List Str :=
  if n = dot then st else if n = dotdot then st.dropLast else st ++ [n]

/-- The components, processed from left to right. -/
def canonical (ns : List Str) : List Str := ns.foldl pushName []

theorem canonical_concat (ns : List Str) (n : Str) :
    canonical (ns ++ [n]) = pushName (canonical ns) n := by
  simp only [canonical, List.foldl_append, List.foldl_cons, List.foldl_nil]

theorem pushName_proper {n : Str} (h : Proper n) (st : List Str) : pushName st n = st ++ [n] := by
  rw [pushName, if_neg h.1, if_neg h.2]

theorem foldl_pushName {ns : List Str} (h : ∀ n ∈ ns, Proper n) (st : List Str) :
    ns.foldl pushName st = st ++ ns := by
  induction ns generalizing st with
  | nil => simp
  | cons n ns ih =>
    rw [List.foldl_cons, ih (fun m hm => h m (List.mem_cons_of_mem _ hm)),
      pushName_proper (h n List.mem_cons_self), List.append_assoc]
    rfl

/-- The names that the loop of `AbsolutePath` keeps. -/
def kept : List Str → List Str
  | [] => []
  | n :: ns =>
    if n = dot ∨ n = dotdot then kept ns
    else if ns.head? = some dotdot then kept ns
    else n :: kept ns

theorem absLoop_eq (ns : List Str) (s : Str) : absLoop ns s = s ++ render (kept ns) := by
  induction ns generalizing s with
  | nil => simp [absLoop, kept, render]
  | cons n ns ih =>
    unfold absLoop kept
    split
    · exact ih s
    · split
      · exact ih s
      · rw [ih]
        simp [render]

theorem kept_mem {ns : List Str} {n : Str} (h : n ∈ kept ns) : n ∈ ns ∧ Proper n := by
  induction ns with
  | nil => cases h
  | cons m ns ih =>
    unfold kept at h
    split at h
    · exact ⟨List.mem_cons_of_mem _ (ih h).1, (ih h).2⟩
    · rename_i hm
      split at h
      · exact ⟨List.mem_cons_of_mem _ (ih h).1, (ih h).2⟩
      · rcases List.mem_cons.mp h with rfl | h
        · exact ⟨List.mem_cons_self, not_or.mp hm⟩
        · exact ⟨List.mem_cons_of_mem _ (ih h).1, (ih h).2⟩

theorem kept_concat {n : Str} (hn : n ≠ dotdot) (ns : List Str) :
    kept (ns ++ [n]) = kept ns ++ kept [n] := by
  induction ns with
  | nil => rfl
  | cons m ns ih =>
    have hhead : (ns ++ [n]).head? = some dotdot ↔ ns.head? = some dotdot := by
      cases ns with
      | nil => simp [hn]
      | cons _ _ => simp
    rw [List.cons_append]
    by_cases hm : m = dot ∨ m = dotdot
    · rw [kept, if_pos hm, kept, if_pos hm, ih]
    · by_cases hh : ns.head? = some dotdot
      · rw [kept, if_neg hm, if_pos (hhead.mpr hh), kept, if_neg hm, if_pos hh, ih]
      · rw [kept, if_neg hm, if_neg (fun h => hh (hhead.mp h)), kept, if_neg hm, if_neg hh, ih]
        rfl

/-- The last component is a name. -/
def EndsInName (ns : List Str) : Prop := ∃ n, ns.getLast? = some n ∧ Proper n

theorem kept_singleton {n : Str} (hn : Proper n) : kept [n] = [n] := by
  rw [kept, if_neg (not_or.mpr hn), if_neg (by simp)]
  rfl

theorem EndsInName.concat {ns : List Str} (h : EndsInName ns) :
    ∃ ns' n, Proper n ∧ kept ns = kept ns' ++ [n] ∧ canonical ns = canonical ns' ++ [n] := by
  obtain ⟨n, hlast, hn⟩ := h
  obtain ⟨ns', rfl⟩ := List.getLast?_eq_some_iff.mp hlast
  refine ⟨ns', n, hn, ?_, ?_⟩
  · rw [kept_concat hn.2, kept_singleton hn]
  · rw [canonical_concat, pushName_proper hn]

/-- A `..` takes a name away if it stands right behind it, and nothing otherwise. -/
theorem kept_dotdot (ns : List Str) :
    (EndsInName ns → kept (ns ++ [dotdot]) = (kept ns).dropLast) ∧
      (¬EndsInName ns → kept (ns ++ [dotdot]) = kept ns) := by
  induction ns with
  | nil => exact ⟨fun ⟨n, h, _⟩ => (by cases h), fun _ => rfl⟩
  | cons m ns ih =>
    cases ns with
    | nil =>
      by_cases hm : Proper m
      · refine ⟨fun _ => ?_, fun h => absurd ⟨m, rfl, hm⟩ h⟩
        rw [kept_singleton hm, List.singleton_append, kept, if_neg (not_or.mpr hm),
          if_pos (show [dotdot].head? = some dotdot from rfl)]
        rfl
      · have hm' : m = dot ∨ m = dotdot := by
          rw [Proper, not_and_or, not_not, not_not] at hm
          exact hm
        refine ⟨fun ⟨n, h, hn⟩ => ?_, fun _ => ?_⟩
        · cases h
          exact absurd hn hm
        · have hk : kept [m] = [] := by
            rw [kept, if_pos hm']
            rfl
          rw [List.singleton_append, kept, if_pos hm', hk]
          rfl
    | cons k ns =>
      have hends : EndsInName (m :: k :: ns) ↔ EndsInName (k :: ns) := by
        unfold EndsInName
        rw [List.getLast?_cons_cons]
      rw [hends, List.cons_append]
      by_cases hm : m = dot ∨ m = dotdot
      · rw [kept, if_pos hm, kept, if_pos hm]
        exact ih
      · by_cases hh : k = dotdot
        · rw [kept, if_neg hm, if_pos (by simp [hh]), kept, if_neg hm, if_pos (by simp [hh])]
          exact ih
        · rw [kept, if_neg hm, if_neg (by simp [hh]), kept, if_neg hm, if_neg (by simp [hh])]
          refine ⟨fun h => ?_, fun h => ?_⟩
          · obtain ⟨ns', n, -, hk, -⟩ := h.concat
            rw [ih.1 h, hk, List.dropLast_cons_of_ne_nil (by simp)]
          · rw [ih.2 h]

/-- Every `..` stands right behind a name, or where there is nothing to take away. -/
def Cancels (ns : List Str) : Prop :=
  ∀ pre post, ns = pre ++ dotdot :: post → EndsInName pre ∨ canonical pre = []

theorem cancels_concat (ns : List Str) (n : Str) :
    Cancels (ns ++ [n]) ↔ Cancels ns ∧
      (n = dotdot → EndsInName ns ∨ canonical ns = []) := by
  refine ⟨fun h => ⟨fun pre post hsplit => h pre (post ++ [n]) (by rw [hsplit]; simp), fun hn =>
    h ns [] (by rw [hn])⟩, fun ⟨h, hlast⟩ pre post hsplit => ?_⟩
  rcases List.eq_nil_or_concat post with rfl | ⟨post, m, rfl⟩
  · obtain ⟨rfl, hn⟩ := List.append_inj' hsplit rfl
    exact hlast (List.singleton_inj.mp hn)
  · refine h pre post ?_
    rw [List.concat_eq_append, ← List.cons_append, ← List.append_assoc] at hsplit
    exact (List.append_inj' hsplit rfl).1

/-- Where the condition fails, too many names are kept. -/
theorem kept_canonical (ns : List Str) : (Cancels ns → kept ns = canonical ns) ∧
    (¬Cancels ns → (canonical ns).length < (kept ns).length) := by
  induction ns using List.reverseRecOn with
  | nil => exact ⟨fun _ => rfl, fun h => absurd (fun pre post h => by simp at h) h⟩
  | append_singleton ns n ih =>
    rw [cancels_concat, canonical_concat]
    by_cases hdd : n = dotdot
    · subst hdd
      have hpush : pushName (canonical ns) dotdot = (canonical ns).dropLast := by
        rw [pushName, if_neg (by decide), if_pos rfl]
      rw [hpush]
      by_cases hends : EndsInName ns
      · -- Both sides lose the name.
        obtain ⟨ns', m, -, hk, hc⟩ := hends.concat
        rw [(kept_dotdot ns).1 hends]
        refine ⟨fun h => by rw [ih.1 h.1], fun h => ?_⟩
        have hlt := ih.2 fun h' => h ⟨h', fun _ => .inl hends⟩
        rw [hk, hc, List.length_append, List.length_append] at hlt
        rw [hk, hc, List.dropLast_concat, List.dropLast_concat]
        omega
      · rw [(kept_dotdot ns).2 hends]
        refine ⟨fun h => ?_, fun h => ?_⟩
        · have hnil := (h.2 rfl).resolve_left hends
          rw [ih.1 h.1, hnil]
          rfl
        · rw [List.length_dropLast]
          by_cases hc : Cancels ns
          · have hne : canonical ns ≠ [] := fun h' => h ⟨hc, fun _ => .inr h'⟩
            have hpos := List.length_pos_iff.mpr hne
            rw [ih.1 hc]
            omega
          · have := ih.2 hc
            omega
    · rw [kept_concat hdd]
      simp only [hdd, false_imp_iff, and_true]
      by_cases hd : n = dot
      · subst hd
        have hk : kept [dot] = [] := rfl
        rw [hk, List.append_nil, pushName, if_pos rfl]
        exact ih
      · rw [kept_singleton ⟨hd, hdd⟩, pushName_proper ⟨hd, hdd⟩]
        refine ⟨fun h => by rw [ih.1 h], fun h => ?_⟩
        have := ih.2 h
        rw [List.length_append, List.length_append]
        omega

theorem kept_eq_iff (ns : List Str) : kept ns = canonical ns ↔ Cancels ns := by
  refine ⟨fun h => ?_, (kept_canonical ns).1⟩
  by_contra hc
  have := (kept_canonical ns).2 hc
  rw [h] at this
  omega

/-! ### The walk -/

variable {T}

/-- The names from the root to a directory. -/
def namesOf (T : DirTree) (d : T.Dir) : List Str := namesUp T (T.depth d) d []

theorem namesUp_append (n : Nat) (d : T.Dir) (ns : List Str) :
    namesUp T n d ns = namesUp T n d [] ++ ns := by
  induction n generalizing d ns with
  | zero => rfl
  | succ n ih =>
    unfold namesUp
    cases T.parent d with
    | none => rfl
    | some e =>
      simp only
      rw [ih e (T.rName d :: ns), ih e [T.rName d], List.append_assoc]
      rfl

theorem absname_eq (p : Path T) : p.absname T = namesOf T p.base ++ p.dirname := namesUp_append ..

theorem namesOf_root : namesOf T T.root = [] := by
  unfold namesOf
  cases T.depth T.root with
  | zero => rfl
  | succ n => rw [namesUp, (T.root_iff T.root).mpr rfl]

theorem namesOf_child {d e : T.Dir} (h : T.parent e = some d) :
    namesOf T e = namesOf T d ++ [T.rName e] := by
  unfold namesOf
  rw [T.depth_parent d e h, namesUp, h]
  exact namesUp_append ..

/-- A property of the root that passes on to children holds of all directories. -/
theorem DirTree.induction {motive : T.Dir → Prop} (root : motive T.root)
    (child : ∀ d e, T.parent e = some d → motive d → motive e) (e : T.Dir) : motive e := by
  generalize hn : T.depth e = n
  induction n generalizing e with
  | zero =>
    cases hp : T.parent e with
    | none => exact (T.root_iff e).mp hp ▸ root
    | some d => exact absurd (T.depth_parent d e hp) (by omega)
  | succ n ih =>
    cases hp : T.parent e with
    | none => exact (T.root_iff e).mp hp ▸ root
    | some d =>
      have := T.depth_parent d e hp
      exact child d e hp (ih d (by omega))

theorem namesOf_names (e : T.Dir) :
    ∀ n ∈ namesOf T e, (n ≠ [] ∧ '/' ∉ n) ∧ Proper n := by
  induction e using DirTree.induction with
  | root =>
    rw [namesOf_root]
    exact nofun
  | child d e h ih =>
    intro n hn
    rw [namesOf_child h, List.mem_append, List.mem_singleton] at hn
    rcases hn with hn | rfl
    · exact ih n hn
    · obtain ⟨hne, hslash, hproper⟩ := T.names d e h
      exact ⟨⟨hne, hslash⟩, hproper⟩

/-- The walk ends where the components lead. -/
theorem searchLoop_names {ns : List Str} {d e : T.Dir}
    (h : searchLoop T false ns (some d) = .ok (some e)) :
    namesOf T e = ns.foldl pushName (namesOf T d) := by
  induction ns generalizing d with
  | nil =>
    cases h
    rfl
  | cons n ns ih =>
    rw [searchLoop, if_neg (by simp)] at h
    rw [List.foldl_cons]
    by_cases hdot : n = dot
    · rw [if_pos hdot] at h
      rw [pushName, if_pos hdot]
      exact ih h
    rw [if_neg hdot] at h
    by_cases hdd : n = dotdot
    · rw [if_pos hdd] at h
      rw [pushName, if_neg hdot, if_pos hdd]
      cases hp : T.parent d with
      | none =>
        rw [hp] at h
        cases ns with
        | nil => cases h
        | cons _ _ => cases h
      | some d' =>
        rw [hp] at h
        rw [ih h, namesOf_child hp, List.dropLast_concat]
    · rw [if_neg hdd] at h
      cases hs : T.entrySearch d n with
      | none =>
        rw [hs] at h
        cases h
      | some d' =>
        rw [hs] at h
        obtain ⟨hp, hname⟩ := (T.entrySearch_iff d d' n ⟨hdot, hdd⟩).mp hs
        rw [ih h, namesOf_child hp, hname, pushName_proper ⟨hdot, hdd⟩]

/-- Every directory is found under its names. -/
theorem searchLoop_namesOf (e : T.Dir) (ns : List Str) :
    searchLoop T false (namesOf T e ++ ns) (some T.root) = searchLoop T false ns (some e) := by
  induction e using DirTree.induction generalizing ns with
  | root => rw [namesOf_root, List.nil_append]
  | child d e h ih =>
    obtain ⟨-, -, hproper⟩ := T.names d e h
    rw [namesOf_child h, List.append_assoc, ih, List.singleton_append, searchLoop, if_neg (by simp),
      if_neg hproper.1, if_neg hproper.2, (T.entrySearch_iff d e _ hproper).mpr ⟨h, rfl⟩]

/-- The directory from which a path is walked. -/
def baseOf (T : DirTree) (cwd : T.Dir) (path : Str) : T.Dir := (pathbuild T cwd none path).base

theorem dirname_eq (cwd : T.Dir) (path : Str) :
    (pathbuild T cwd none path).dirname = components path := by
  unfold pathbuild
  cases path with
  | nil => rfl
  | cons ch s => exact splitNames_eq _

/-- `pathSearch` is the walk of the components; its case for `/` changes nothing. -/
theorem pathSearch_eq (cwd : T.Dir) (path : Str) :
    (pathbuild T cwd none path).pathSearch T false =
      searchLoop T false (components path) (some (baseOf T cwd path)) := by
  have hpath : (pathbuild T cwd none path).pathname = path := by
    unfold pathbuild
    cases path with
    | nil => rfl
    | cons _ _ => rfl
  rw [Path.pathSearch, hpath, dirname_eq]
  split
  · rename_i h
    subst h
    rfl
  · rfl

theorem resolve_eq (path : Str) :
    resolve T path = searchLoop T false (components path) (some T.root) := by
  have hbase : baseOf T T.root path = T.root := by
    unfold baseOf pathbuild
    cases path with
    | nil => rfl
    | cons ch _ =>
      simp only [Option.getD_none]
      exact ite_self _
  rw [resolve, pathSearch_eq, hbase]

/-! ### `chdir` -/

/-- The components from the root on: the names of the directory from which the path is walked, and
those of the path. -/
def allNames (T : DirTree) (cwd : T.Dir) (path : Str) : List Str :=
  namesOf T (baseOf T cwd path) ++ components path

theorem absolutePath_eq (cwd : T.Dir) (path : Str) :
    (pathbuild T cwd none path).absolutePath T = orRoot (render (kept (allNames T cwd path))) := by
  rw [Path.absolutePath, absLoop_eq, absname_eq, dirname_eq]
  rfl

theorem allNames_names (cwd : T.Dir) (path : Str) : ∀ n ∈ allNames T cwd path, n ≠ [] ∧
    '/' ∉ n := by
  intro n hn
  rcases List.mem_append.mp hn with hn | hn
  · exact (namesOf_names _ n hn).1
  · exact componentsFrom_mem List.not_mem_nil hn

theorem kept_allNames (cwd : T.Dir) (path : Str) :
    ∀ n ∈ kept (allNames T cwd path), (n ≠ [] ∧ '/' ∉ n) ∧ Proper n := by
  intro n hn
  exact ⟨allNames_names cwd path n (kept_mem hn).1, (kept_mem hn).2⟩

/-- The slash that `chdir` adds. -/
theorem withSlash_eq {ns : List Str} (hns : ∀ n ∈ ns, n ≠ [] ∧ '/' ∉ n) :
    (if (orRoot (render ns)).getLast? = some '/' then orRoot (render ns)
      else orRoot (render ns) ++ ['/']) = render ns ++ ['/'] := by
  rcases List.eq_nil_or_concat ns with rfl | ⟨ns, n, rfl⟩
  · rfl
  · obtain ⟨hn, hslash⟩ := hns n (by simp)
    obtain ⟨m, c, rfl⟩ := (List.eq_nil_or_concat n).resolve_left hn
    have hr : render (ns.concat (m.concat c)) = render ns ++ '/' :: m ++ [c] := by simp [render]
    have hne : render (ns.concat (m.concat c)) ≠ [] := by
      rw [hr]
      simp
    have hlast : (render (ns.concat (m.concat c))).getLast? ≠ some '/' := by
      rw [hr, List.getLast?_concat]
      intro h
      cases h
      simp at hslash
    rw [orRoot, if_neg hne, if_neg hlast]

/-- What a `chdir` that succeeds leaves. -/
theorem chdir_ok {s s' : Cwd T} {path : Str} (h : chdir T s path = .ok (0, s')) :
    namesOf T s'.cwd = canonical (allNames T s.cwd path) ∧
      s'.cwdName = render (kept (allNames T s.cwd path)) ++ ['/'] := by
  unfold chdir at h
  simp only [pathSearch_eq, absolutePath_eq] at h
  cases hs : searchLoop T false (components path) (some (baseOf T s.cwd path)) with
  | error f =>
    rw [hs] at h
    cases h
  | ok r =>
    rw [hs, ok_bind] at h
    cases r with
    | none => cases h
    | some d =>
      cases h
      refine ⟨?_, withSlash_eq fun n hn => (kept_allNames s.cwd path n hn).1⟩
      rw [searchLoop_names hs, canonical, allNames, List.foldl_append,
        foldl_pushName (fun n hn => (namesOf_names _ n hn).2), List.nil_append]

/-- A string of names is found exactly where its names lead. -/
theorem resolve_render_iff {ns : List Str}
    (hns : ∀ n ∈ ns, (n ≠ [] ∧ '/' ∉ n) ∧ Proper n) (e : T.Dir) :
    resolve T (render ns ++ ['/']) = .ok (some e) ↔ ns = namesOf T e := by
  rw [resolve_eq, components_render fun n hn => (hns n hn).1]
  refine ⟨fun h => ?_, fun h => ?_⟩
  · rw [searchLoop_names h, namesOf_root, foldl_pushName fun n hn => (hns n hn).2, List.nil_append]
  · rw [h]
    have := searchLoop_namesOf e []
    rw [List.append_nil] at this
    exact this

/-- The processes' `chdir` calls that meet a condition, from a start on. -/
inductive ChdirRun (T : DirTree) (Ok : Cwd T → Str → Prop) (s₀ : Cwd T) : Cwd T → Prop
  | start : ChdirRun T Ok s₀ s₀
  | step {s s' : Cwd T} {path : Str} {r : Int} : ChdirRun T Ok s₀ s → Ok s path →
      chdir T s path = .ok (r, s') → ChdirRun T Ok s₀ s'

/-- What the recorded name of a working directory should be. -/
structure Named (T : DirTree) (s : Cwd T) : Prop where
  resolves : resolve T s.cwdName = .ok (some s.cwd)
  proper : ∀ n ∈ components s.cwdName, n ≠ dot ∧ n ≠ dotdot
  slash : s.cwdName.getLast? = some '/'

theorem chdir_result {s s' : Cwd T} {path : Str} {r : Int} (h : chdir T s path = .ok (r, s')) :
    r = 0 ∨ s' = s := by
  unfold chdir at h
  simp only at h
  cases hs : (pathbuild T s.cwd none path).pathSearch T false with
  | error f =>
    rw [hs] at h
    cases h
  | ok d =>
    rw [hs, ok_bind] at h
    cases d with
    | none =>
      cases h
      exact .inr rfl
    | some d =>
      cases h
      exact .inl rfl

/-- The name that a `chdir` leaves is right exactly where every `..` stands right behind a name, or
where there is nothing to take away. -/
theorem named_iff {s s' : Cwd T} {path : Str} (h : chdir T s path = .ok (0, s')) :
    Named T s' ↔ Cancels (allNames T s.cwd path) := by
  obtain ⟨hcwd, hname⟩ := chdir_ok h
  have hkept := kept_allNames (T := T) s.cwd path
  rw [← kept_eq_iff, ← hcwd, ← resolve_render_iff hkept s'.cwd, ← hname]
  refine ⟨fun h => h.resolves, fun h => ⟨h, ?_, ?_⟩⟩
  · rw [hname, components_render fun n hn => (hkept n hn).1]
    exact fun n hn => (hkept n hn).2
  · rw [hname, List.getLast?_concat]

theorem orRoot_render_inj {ns ms : List Str} (hns : ∀ n ∈ ns, n ≠ [] ∧ '/' ∉ n)
    (hms : ∀ n ∈ ms, n ≠ [] ∧ '/' ∉ n) (h : orRoot (render ns) = orRoot (render ms)) :
      ns = ms := by
  have hslash : render ns ++ ['/'] = render ms ++ ['/'] := by
    rw [← withSlash_eq hns, ← withSlash_eq hms, h]
  rw [← components_render hns, ← components_render hms, hslash]

theorem canonical_mem {ns : List Str} {n : Str} (h : n ∈ canonical ns) : n ∈ ns := by
  induction ns using List.reverseRecOn with
  | nil => exact h
  | append_singleton ns m ih =>
    rw [canonical_concat, pushName] at h
    split at h
    · exact List.mem_append_left _ (ih h)
    · split at h
      · exact List.mem_append_left _ (ih (List.dropLast_subset _ h))
      · rcases List.mem_append.mp h with h | h
        · exact List.mem_append_left _ (ih h)
        · exact List.mem_append_right _ h

theorem absolutePath_iff (cwd : T.Dir) (path : Str) :
    (pathbuild T cwd none path).absolutePath T =
      orRoot (render (canonical (allNames T cwd path))) ↔
      Cancels (allNames T cwd path) := by
  rw [absolutePath_eq, ← kept_eq_iff]
  refine ⟨fun h => ?_, fun h => by rw [h]⟩
  exact orRoot_render_inj (fun n hn => (kept_allNames cwd path n hn).1)
    (fun n hn => allNames_names cwd path n (canonical_mem hn)) h

/-- In every run of calls whose paths cancel only what stands right behind, the name resolves to the
working directory.  There and in every other call, the name and the absolute path are right exactly
for such a path. -/
theorem cwd_named {s₀ s : Cwd T} (h₀ : resolve T s₀.cwdName = .ok (some s₀.cwd))
    (hrun : ChdirRun T (fun s path => Cancels (allNames T s.cwd path)) s₀ s) :
    resolve T s.cwdName = .ok (some s.cwd) ∧
      (∀ path s', chdir T s path = .ok (0, s') →
        (Named T s' ↔ Cancels (allNames T s.cwd path))) ∧
      ∀ path, (pathbuild T s.cwd none path).absolutePath T =
          orRoot (render (canonical (allNames T s.cwd path))) ↔
            Cancels (allNames T s.cwd path) := by
  refine ⟨?_, fun path s' => named_iff, absolutePath_iff s.cwd⟩
  induction hrun with
  | start => exact h₀
  | step _ hok hstep ih =>
    rcases chdir_result hstep with rfl | rfl
    · exact ((named_iff hstep).mpr hok).resolves
    · exact ih

/-- The root, `/a` and `/a/b`. -/
inductive SampleDir where
  | root
  | a
  | b
  deriving DecidableEq

def sampleTree : DirTree where
  Dir := SampleDir
  root := .root
  parent
    | .root => none
    | .a => some .root
    | .b => some .a
  rName
    | .root => ['/']
    | .a => ['a']
    | .b => ['b']
  entrySearch d n :=
    if d = .root ∧ n = ['a'] then some .a else if d = .a ∧ n = ['b'] then some .b else none
  depth
    | .root => 0
    | .a => 1
    | .b => 2
  root_iff d := by cases d <;> simp
  depth_parent d e h := by
    cases e with
    | root => cases h
    | a => cases h; rfl
    | b => cases h; rfl
  entrySearch_iff d e n _ := by
    by_cases ha : n = ['a']
    · subst ha
      cases d <;> cases e <;> simp
    · by_cases hb : n = ['b']
      · subst hb
        cases d <;> cases e <;> simp
      · cases d <;> cases e <;> simp [ha, hb, Ne.symm ha, Ne.symm hb]
  names d e h := by
    cases e with
    | root => cases h
    | a => decide
    | b => decide

/-- At the root, after `chdir` to `a`. -/
theorem cwd_named_sample :
    ∃ s, ChdirRun sampleTree (fun s path => Cancels (allNames sampleTree s.cwd path))
        ⟨.root, ['/']⟩ s ∧ s.cwdName = ['/', 'a', '/'] ∧
      resolve sampleTree s.cwdName = .ok (some s.cwd) := by
  have hstep : chdir sampleTree ⟨.root, ['/']⟩ ['a'] = .ok (0, ⟨.a, ['/', 'a', '/']⟩) := rfl
  have hcancels : Cancels (allNames sampleTree .root ['a']) := (kept_eq_iff _).mp (by decide)
  have hrun : ChdirRun sampleTree (fun s path => Cancels (allNames sampleTree s.cwd path))
      ⟨.root, ['/']⟩ ⟨.a, ['/', 'a', '/']⟩ := .step .start hcancels hstep
  exact ⟨_, hrun, rfl, (cwd_named rfl hrun).1⟩

/-- `a/b/../..` leads to the root, but the name says `/a/`. -/
theorem dotdot_dotdot_kept : ∃ s s' : Cwd sampleTree,
    resolve sampleTree s.cwdName = .ok (some s.cwd) ∧
    chdir sampleTree s ['a', '/', 'b', '/', '.', '.', '/', '.', '.'] = .ok (0, s') ∧
    ¬Named sampleTree s' := by
  refine ⟨⟨.root, ['/']⟩, ⟨.root, ['/', 'a', '/']⟩, rfl, rfl, fun h => ?_⟩
  have hr : resolve sampleTree ['/', 'a', '/'] = .ok (some .a) := rfl
  have := hr.symm.trans h.resolves
  cases this

end OsKernel.Fs

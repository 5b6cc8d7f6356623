import OsKernel.Pm.DentryRuns

/-! `unlink` records its path, as a string, in a list that `open` asks for the string of its own
path; the dentry and the file stay as they are.  A path is a name of the tree for this module's
statements: the names of the dentry that it leads to, from the root on. -/

namespace OsKernel.Pm
open Fs

/-- A leading `./` is cut off. -/
def stripDotSlash : Str → Str
  | '.' :: '/' :: path => path
  | path => path

def procInterrupts : Str :=
  ['/', 'p', 'r', 'o', 'c', '/', 'i', 'n', 't', 'e', 'r', 'r', 'u', 'p', 't', 's']

/-- The tables with the `_unlink_list` of `k_file_table`. -/
structure UnlinkTables (ι : Type) where
  files : CwdTables ι
  unlinkList : List Str

namespace UnlinkTables

variable {ι : Type} (fs : Inodes ι) (t : UnlinkTables ι) (p : Fin numProcess)

/-- `unlink`; the path is not looked up. -/
def unlink (fd : Int) (path : Str) : Int × UnlinkTables ι :=
  if fd = atFdcwd then
    if path = [] then (-1, t)
    else if stripDotSlash path = procInterrupts then (-1, t)
    else (0, { t with unlinkList := t.unlinkList ++ [stripDotSlash path] })
  else (-1, t)

/-- `open`, with a new object at `f`.  With `O_CREAT` the first string of the list that is equal to
the path is removed, and the file is opened as it is. -/
def openFile (f : Nat) (dirFd : Int) (path : Str) (creat : Bool) :
    Except Fault (Int × UnlinkTables ι) := do
  let base ← t.files.pathBase p dirFd path
  let (r, files) ← t.files.walk fs base path false
  if path = [] then return (-1, { t with files })
  match r with
  | some d =>
    if stripDotSlash path ∈ t.unlinkList then
      if creat = false then return (-1, { t with files })
      let o := files.openDentry fs p f d
      return (o.1, ⟨o.2, t.unlinkList.erase (stripDotSlash path)⟩)
    else
      let o := files.openDentry fs p f d
      return (o.1, { t with files := o.2 })
  | none =>
    if creat = false then return (-1, { t with files })
    let (par, files) ← files.walk fs base path true
    match par with
    | none => return (-1, { t with files })
    | some par =>
      match (splitNames path).getLast? with
      | none => .error (.undefined "dirname: read out of bounds")
      | some name =>
        let (r, cache) ← files.cache.entryCreate fs par name
        match r with
        | none => return (-1, { t with files := { files with cache } })
        | some d =>
          let o := ({ files with cache } : CwdTables ι).openDentry fs p f d
          return (o.1, { t with files := o.2 })

end UnlinkTables

/-! ### Names -/

/-- The names from the root to a dentry. -/
def dentryNames {ι : Type} (c : DentryCache ι) : Nat → Did → List Str
  | 0, _ => []
  | fuel + 1, d =>
    match (c.den d).parent with
    | none => []
    | some p => dentryNames c fuel p ++ [(c.den d).name]

namespace CwdTables

variable {ι : Type} (fs : Inodes ι) (t : CwdTables ι) (p : Fin numProcess)

/-- Where a path starts, what it leads to and the tables after the walk. -/
def search (dirFd : Int) (path : Str) : Except Fault (Did × Option Did × CwdTables ι) := do
  let base ← t.pathBase p dirFd path
  let (r, t) ← t.walk fs base path false
  return (base, r, t)

/-- The inode of the dentry that a path leads to. -/
def found (dirFd : Int) (path : Str) : Option ι :=
  match t.search fs p dirFd path with
  | .ok (_, some d, t) => some (t.cache.den d).node
  | _ => none

/-- The name that a path stands for, of a file that exists or of one that could be made there. -/
def pathName (dirFd : Int) (path : Str) : Option (List Str) :=
  if path = [] then none
  else
    match t.search fs p dirFd path with
    | .error _ => none
    | .ok (_, some d, t) => some (dentryNames t.cache maxDentryNum d)
    | .ok (base, none, t) =>
      match t.walk fs base path true with
      | .ok (some par, t) =>
        (splitNames path).getLast?.map fun n => dentryNames t.cache maxDentryNum par ++ [n]
      | _ => none

end CwdTables

/-! ### Calls -/

inductive NameCall where
  | openAt (p : Fin numProcess) (f : Nat) (dirFd : Int) (path : Str) (creat : Bool)
  | unlink (p : Fin numProcess) (fd : Int) (path : Str)
  | chdir (p : Fin numProcess) (path : Str)

/-- The tables, and the names that are unlinked and not re-created, each with the string that it was
unlinked by. -/
structure NameState (ι : Type) where
  t : UnlinkTables ι
  unlinked : List (Str × List Str)

namespace NameState

variable {ι : Type} (fs : Inodes ι) (s : NameState ι)

/-- The name is unlinked. -/
def Unlinked (n : Option (List Str)) : Prop := ∃ e ∈ s.unlinked, some e.2 = n

/-- A call, with its result.  What is unlinked is the name that the path of a successful `unlink`
stands for, until an `open` with `O_CREAT` of a path for that name succeeds. -/
def call : NameCall → Except Fault (Int × NameState ι)
  | .openAt p f dirFd path creat => do
    let (r, t) ← s.t.openFile fs p f dirFd path creat
    let name := s.t.files.pathName fs p dirFd path
    return (r, ⟨t, if creat = true ∧ 0 ≤ r then s.unlinked.filter fun e => some e.2 ≠ name
      else s.unlinked⟩)
  | .unlink p fd path =>
    let r := s.t.unlink fd path
    match s.t.files.pathName fs p fd path with
    | none => .ok (r.1, { s with t := r.2 })
    | some n =>
      .ok (r.1, ⟨r.2, if r.1 = 0 then s.unlinked ++ [(stripDotSlash path, n)] else s.unlinked⟩)
  | .chdir p path => do
    let (r, files) ← s.t.files.chdir fs p path
    return (r, { s with t := { s.t with files } })

/-- What the calls shall do, for files with the contents `contents`.  An `open` of an unlinked name
fails without `O_CREAT`; with it, it succeeds, the name is not unlinked any more and the contents
are not the old ones; the other calls of `open` are those of a kernel without the list. -/
def Meets (contents : ι → List UInt8) : NameCall → Prop
  | .openAt p f dirFd path creat =>
    let name := s.t.files.pathName fs p dirFd path
    (s.Unlinked name → creat = false → ∃ s', s.call fs (.openAt p f dirFd path creat) =
      .ok (-1, s') ∧ s'.unlinked = s.unlinked) ∧
    (s.Unlinked name → creat = true → ∃ r s' d, s.call fs (.openAt p f dirFd path creat) =
      .ok (r, s') ∧ 0 ≤ r ∧ ¬s'.Unlinked name ∧ s'.t.files.dentry f = some d ∧
      contents (s'.t.files.cache.den d).node = []) ∧
    (¬s.Unlinked name → (s.call fs (.openAt p f dirFd path creat)).map
      (fun r => (r.1, r.2.t.files)) = s.t.files.openAt fs p f dirFd path creat)
  | _ => True

/-- The condition.  A path that leads to a file is spelled as in the `unlink` of its name and of no
other name.  The file of an `unlink` exists and is not unlinked.  An `open` with `O_CREAT` of an
unlinked name leads to its old file, which has no contents, and finds a free descriptor. -/
def Ok (contents : ι → List UInt8) : NameCall → Prop
  | .openAt p _ dirFd path creat =>
    let name := s.t.files.pathName fs p dirFd path
    (∀ node, s.t.files.found fs p dirFd path = some node →
      ∀ e ∈ s.unlinked, e.1 = stripDotSlash path ↔ some e.2 = name) ∧
    (creat = true → s.Unlinked name →
      (∃ node, s.t.files.found fs p dirFd path = some node ∧ contents node = []) ∧
        ∃ i, (s.t.files.tables.procs p).ofile i = none)
  | .unlink p fd path =>
    (s.t.unlink fd path).1 = 0 → (∃ node, s.t.files.found fs p fd path = some node) ∧
      ¬s.Unlinked (s.t.files.pathName fs p fd path)
  | .chdir _ _ => True

end NameState

/-- The states of runs whose calls all meet a condition. -/
inductive NameRun {ι : Type} (fs : Inodes ι) (Ok : NameState ι → NameCall → Prop) :
    NameState ι → Prop
  | start (t : CwdTables ι) : NameRun fs Ok ⟨⟨t, []⟩, []⟩
  | call {s s' : NameState ι} {e : NameCall} {r : Int} (h : NameRun fs Ok s) (hok : Ok s e)
      (hs : s.call fs e = .ok (r, s')) : NameRun fs Ok s'

/-! ### `open` with and without the list -/

section

variable {ι : Type} {fs : Inodes ι} {t : UnlinkTables ι} {p : Fin numProcess} {f : Nat}
  {dirFd : Int}
  {path : Str} {creat : Bool}

theorem CwdTables.search_ok {u u' : CwdTables ι} {base : Did} {r : Option Did}
    (h : u.search fs p dirFd path = .ok (base, r, u')) :
    u.pathBase p dirFd path = .ok base ∧ u.walk fs base path false = .ok (r, u') := by
  unfold CwdTables.search at h
  obtain ⟨b, hb, h⟩ := bind_eq_ok.mp h
  obtain ⟨⟨r', v⟩, hw, h⟩ := bind_eq_ok.mp h
  cases h
  exact ⟨hb, hw⟩

/-- Where the list is not asked, or does not have the path, it makes no difference. -/
theorem UnlinkTables.openFile_eq (h : path = [] ∨ t.files.found fs p dirFd path = none ∨
      stripDotSlash path ∉ t.unlinkList) :
    t.openFile fs p f dirFd path creat =
      (t.files.openAt fs p f dirFd path creat).map fun r => (r.1, { t with files := r.2 }) := by
  unfold UnlinkTables.openFile CwdTables.openAt
  cases hb : t.files.pathBase p dirFd path with
  | error e => rfl
  | ok base =>
    simp only [ok_bind]
    cases hw : t.files.walk fs base path false with
    | error e => rfl
    | ok r =>
      obtain ⟨r, files⟩ := r
      simp only [ok_bind]
      by_cases hp : path = []
      · rw [if_pos hp, if_pos hp]
        rfl
      · rw [if_neg hp, if_neg hp]
        cases r with
        | some d =>
          have hfound : t.files.found fs p dirFd path ≠ none := by
            simp only [CwdTables.found, CwdTables.search, hb, hw, ok_bind]
            exact Option.some_ne_none _
          have hlist := (h.resolve_left hp).resolve_left hfound
          simp only [if_neg hlist]
          rfl
        | none =>
          cases creat with
          | false => rfl
          | true =>
            simp only [Bool.true_eq_false, if_false]
            cases hpar : files.walk fs base path true with
            | error e => rfl
            | ok par =>
              obtain ⟨par, files'⟩ := par
              simp only [ok_bind]
              cases par with
              | none => rfl
              | some par =>
                simp only
                cases (splitNames path).getLast? with
                | none => rfl
                | some name =>
                  simp only
                  cases files'.cache.entryCreate fs par name with
                  | error e => rfl
                  | ok r =>
                    obtain ⟨r, cache⟩ := r
                    cases r <;> rfl

/-- A path that leads to a file, and is in the list. -/
theorem UnlinkTables.openFile_listed {base d : Did} {files : CwdTables ι} (hp : path ≠ [])
    (hs : t.files.search fs p dirFd path = .ok (base, some d, files))
    (hlist : stripDotSlash path ∈ t.unlinkList) :
    t.openFile fs p f dirFd path creat =
      if creat = false then .ok (-1, { t with files })
      else .ok ((files.openDentry fs p f d).1,
        ⟨(files.openDentry fs p f d).2, t.unlinkList.erase (stripDotSlash path)⟩) := by
  obtain ⟨hb, hw⟩ := CwdTables.search_ok hs
  unfold UnlinkTables.openFile
  rw [hb, ok_bind, hw, ok_bind]
  simp only [if_neg hp, if_pos hlist]
  rfl

/-- `unlink` fails, or it adds a string to the list. -/
theorem UnlinkTables.unlink_cases (t : UnlinkTables ι) (fd : Int) (path : Str) :
    t.unlink fd path = (-1, t) ∨ path ≠ [] ∧
      t.unlink fd path = (0, { t with unlinkList := t.unlinkList ++ [stripDotSlash path] }) := by
  unfold UnlinkTables.unlink
  split
  · split
    · exact .inl rfl
    · next hp =>
      split
      · exact .inl rfl
      · exact .inr ⟨hp, rfl⟩
  · exact .inl rfl

/-- The end of `open`, where a descriptor is free. -/
theorem CwdTables.openDentry_free {u : CwdTables ι} {d : Did} {i : Fin maxOpenFiles}
    (hi : (u.tables.procs p).ofile i = none) :
    0 ≤ (u.openDentry fs p f d).1 ∧ (u.openDentry fs p f d).2.dentry f = some d ∧
      ((u.openDentry fs p f d).2.cache.den d).node = (u.cache.den d).node := by
  refine ⟨?_, ?_, ?_⟩
  · simp only [CwdTables.openDentry]
    exact allocFd_of_free i hi
  · simp [CwdTables.openDentry, CwdTables.newFile]
  · simp [CwdTables.openDentry, CwdTables.newFile, DentryCache.dup, DentryCache.set]

theorem CwdTables.walk_tables {u u' : CwdTables ι} {base : Did} {parent : Bool} {r : Option Did}
    (h : u.walk fs base path parent = .ok (r, u')) : u'.tables = u.tables := by
  unfold CwdTables.walk at h
  obtain ⟨⟨r', c⟩, -, h⟩ := bind_eq_ok.mp h
  cases h
  rfl

theorem CwdTables.found_some {u : CwdTables ι} {node : ι}
    (h : u.found fs p dirFd path = some node) : ∃ base d u',
      u.search fs p dirFd path = .ok (base, some d, u') ∧ (u'.cache.den d).node = node := by
  unfold CwdTables.found at h
  split at h
  · next base d u' hs =>
    cases h
    exact ⟨base, d, u', hs, rfl⟩
  · cases h

/-- A path that leads to a file has a name. -/
theorem CwdTables.pathName_some {u : CwdTables ι} {node : ι}
    (h : u.found fs p dirFd path = some node) (hp : path ≠ []) : ∃ n,
      u.pathName fs p dirFd path = some n := by
  obtain ⟨base, d, u', hs, -⟩ := CwdTables.found_some h
  unfold CwdTables.pathName
  rw [if_neg hp, hs]
  exact ⟨_, rfl⟩

end

/-! ### Runs -/

/-- The strings of some names are those that the key tells apart, so that the first string is the
one of its name. -/
theorem erase_spelled {l : List (Str × List Str)} {a : Str} {n : Option (List Str)}
    (hkey : ∀ e ∈ l, e.1 = a ↔ some e.2 = n) (hnodup : (l.map Prod.snd).Nodup) :
    (l.map Prod.fst).erase a = (l.filter fun e => some e.2 ≠ n).map Prod.fst := by
  induction l with
  | nil => rfl
  | cons e l ih =>
    rw [List.map_cons, List.nodup_cons] at hnodup
    have hhead := hkey e List.mem_cons_self
    by_cases he : e.1 = a
    · have hn := hhead.mp he
      have hrest : ∀ x ∈ l, some x.2 ≠ n := by
        intro x hx hxn
        rw [← hn, Option.some.injEq] at hxn
        exact hnodup.1 (List.mem_map.mpr ⟨x, hx, hxn⟩)
      rw [List.map_cons, he, List.erase_cons_head, List.filter_cons_of_neg (by simp [hn]),
        List.filter_eq_self.mpr fun x hx => by simpa using hrest x hx]
    · have hn := fun h => he (hhead.mpr h)
      rw [List.map_cons, List.erase_cons_tail (by simpa using he),
        List.filter_cons_of_pos (by simpa using hn), List.map_cons,
        ih (fun x hx => hkey x (List.mem_cons_of_mem _ hx)) hnodup.2]

namespace NameState

variable {ι : Type} {fs : Inodes ι} {contents : ι → List UInt8} {s s' : NameState ι}
  {e : NameCall}

/-- The list has the strings of the unlinked names, each of which is unlinked once. -/
structure Inv (s : NameState ι) : Prop where
  list : s.t.unlinkList = s.unlinked.map Prod.fst
  nodup : (s.unlinked.map Prod.snd).Nodup

section

variable {p : Fin numProcess} {f : Nat} {dirFd : Int} {path : Str} {creat : Bool}

theorem Unlinked.name {n : Option (List Str)} (h : s.Unlinked n) : n ≠ none := by
  obtain ⟨x, -, hx⟩ := h
  rw [← hx]
  exact fun h => nomatch h

/-- A name that is unlinked is that of a path. -/
theorem Unlinked.path_ne (h : s.Unlinked (s.t.files.pathName fs p dirFd path)) : path ≠ [] := by
  rintro rfl
  exact h.name rfl

/-- The list has the string of a path exactly where its name is unlinked. -/
theorem Inv.listed (I : s.Inv) (hkey : ∀ x ∈ s.unlinked, x.1 = stripDotSlash path ↔
      some x.2 = s.t.files.pathName fs p dirFd path) :
    stripDotSlash path ∈ s.t.unlinkList ↔ s.Unlinked (s.t.files.pathName fs p dirFd path) := by
  rw [I.list, List.mem_map]
  constructor
  · rintro ⟨x, hx, he⟩
    exact ⟨x, hx, (hkey x hx).mp he⟩
  · rintro ⟨x, hx, he⟩
    exact ⟨x, hx, (hkey x hx).mpr he⟩

/-- An `open` of a name that is not unlinked does not find its string in the list. -/
theorem Inv.unaffected (I : s.Inv) (hok : s.Ok fs contents (.openAt p f dirFd path creat))
    (hu : ¬s.Unlinked (s.t.files.pathName fs p dirFd path)) :
    s.t.openFile fs p f dirFd path creat =
      (s.t.files.openAt fs p f dirFd path creat).map fun r => (r.1, { s.t with files := r.2 }) := by
  refine UnlinkTables.openFile_eq ?_
  cases hf : s.t.files.found fs p dirFd path with
  | none => exact .inr (.inl rfl)
  | some node =>
    right
    right
    intro hlist
    exact hu ((I.listed (hok.1 node hf)).mp hlist)

/-- An `open` without `O_CREAT` of a name that is unlinked. -/
theorem Inv.refused (I : s.Inv) (hok : s.Ok fs contents (.openAt p f dirFd path false))
    (hu : s.Unlinked (s.t.files.pathName fs p dirFd path)) :
    ∃ files, s.t.openFile fs p f dirFd path false = .ok (-1, { s.t with files }) := by
  have hp := hu.path_ne
  cases hf : s.t.files.found fs p dirFd path with
  | some node =>
    obtain ⟨base, d, files, hs, -⟩ := CwdTables.found_some hf
    refine ⟨files, ?_⟩
    rw [UnlinkTables.openFile_listed hp hs ((I.listed (hok.1 node hf)).mpr hu)]
    rfl
  | none =>
    -- the file is not found, so that the list is not asked
    have hname := hu.name
    rw [UnlinkTables.openFile_eq (.inr (.inl hf))]
    cases hs : s.t.files.search fs p dirFd path with
    | error e =>
      rw [CwdTables.pathName, if_neg hp, hs] at hname
      exact absurd rfl hname
    | ok r =>
      obtain ⟨base, r, files⟩ := r
      cases r with
      | some d =>
        simp only [CwdTables.found, hs] at hf
        cases hf
      | none =>
        obtain ⟨hb, hw⟩ := CwdTables.search_ok hs
        refine ⟨files, ?_⟩
        rw [CwdTables.openAt, hb, ok_bind, hw, ok_bind]
        simp only [if_neg hp]
        rfl

/-- An `open` with `O_CREAT` of a name that is unlinked. -/
theorem Inv.recreated (I : s.Inv) (hok : s.Ok fs contents (.openAt p f dirFd path true))
    (hu : s.Unlinked (s.t.files.pathName fs p dirFd path)) :
    ∃ r files d, s.t.openFile fs p f dirFd path true =
        .ok (r, ⟨files, s.t.unlinkList.erase (stripDotSlash path)⟩) ∧ 0 ≤ r ∧
      files.dentry f = some d ∧ contents (files.cache.den d).node = [] := by
  obtain ⟨⟨node, hf, hempty⟩, i, hi⟩ := hok.2 rfl hu
  obtain ⟨base, d, files, hs, hnode⟩ := CwdTables.found_some hf
  have hlist := (I.listed (hok.1 node hf)).mpr hu
  rw [← CwdTables.walk_tables (CwdTables.search_ok hs).2] at hi
  obtain ⟨hr, hden, hsame⟩ : 0 ≤ (files.openDentry fs p f d).1 ∧
      (files.openDentry fs p f d).2.dentry f = some d ∧
      ((files.openDentry fs p f d).2.cache.den d).node = (files.cache.den d).node :=
    CwdTables.openDentry_free hi
  refine ⟨_, _, d, ?_, hr, hden, ?_⟩
  · rw [UnlinkTables.openFile_listed hu.path_ne hs hlist]
    rfl
  · rw [hsame, hnode]
    exact hempty

/-- The calls of `open` do what they shall. -/
theorem Inv.meets (I : s.Inv) (hok : s.Ok fs contents e) : s.Meets fs contents e := by
  cases e with
  | unlink p fd path => trivial
  | chdir p path => trivial
  | openAt p f dirFd path creat =>
    refine ⟨fun hu hc => ?_, fun hu hc => ?_, fun hu => ?_⟩
    · subst hc
      obtain ⟨files, hrun⟩ := I.refused hok hu
      refine ⟨⟨{ s.t with files }, s.unlinked⟩, ?_, rfl⟩
      rw [call, hrun, ok_bind]
      rfl
    · subst hc
      obtain ⟨r, files, d, hrun, hr, hden, hempty⟩ := I.recreated hok hu
      refine ⟨r, ⟨⟨files, s.t.unlinkList.erase (stripDotSlash path)⟩,
        s.unlinked.filter fun x => some x.2 ≠ s.t.files.pathName fs p dirFd path⟩, d, ?_, hr,
        ?_, hden,
        hempty⟩
      · rw [call, hrun, ok_bind]
        simp only [true_and, if_pos hr]
        rfl
      · rintro ⟨x, hx, hn⟩
        have := (List.mem_filter.mp hx).2
        simp [hn] at this
    · rw [call, I.unaffected hok hu]
      cases s.t.files.openAt fs p f dirFd path creat <;> rfl

/-- A call that meets the condition keeps the list and the names together. -/
theorem Inv.call {r : Int} (I : s.Inv) (hok : s.Ok fs contents e) (hs : s.call fs e = .ok (r, s')) :
    s'.Inv := by
  cases e with
  | chdir p path =>
    obtain ⟨⟨r', files⟩, -, hs⟩ := bind_eq_ok.mp hs
    cases hs
    exact ⟨I.list, I.nodup⟩
  | unlink p fd path =>
    rcases s.t.unlink_cases fd path with hrun | ⟨hp, hrun⟩
    · simp only [NameState.call, hrun] at hs
      split at hs
      · cases hs
        exact I
      · cases hs
        exact I
    · obtain ⟨⟨node, hf⟩, hu⟩ := hok (by rw [hrun])
      obtain ⟨n, hn⟩ := CwdTables.pathName_some hf hp
      simp only [NameState.call, hrun, hn, if_true] at hs
      cases hs
      rw [hn] at hu
      refine ⟨?_, ?_⟩
      · simp [I.list]
      · simp only [List.map_append, List.map_singleton]
        refine (List.perm_append_singleton _ _).nodup_iff.mpr
          (List.nodup_cons.mpr ⟨?_, I.nodup⟩)
        intro hm
        obtain ⟨x, hx, he⟩ := List.mem_map.mp hm
        exact hu ⟨x, hx, congrArg some he⟩
  | openAt p f dirFd path creat =>
    obtain ⟨⟨r', t'⟩, hrun, hs⟩ := bind_eq_ok.mp hs
    cases hs
    by_cases hu : s.Unlinked (s.t.files.pathName fs p dirFd path)
    · cases creat with
      | false =>
        obtain ⟨files, hrun'⟩ := I.refused hok hu
        rw [hrun] at hrun'
        cases hrun'
        exact ⟨I.list, I.nodup⟩
      | true =>
        obtain ⟨r', files, d, hrun', hr, -⟩ := I.recreated hok hu
        rw [hrun] at hrun'
        cases hrun'
        obtain ⟨⟨node, hf, -⟩, -⟩ := hok.2 rfl hu
        rw [if_pos ⟨rfl, hr⟩]
        refine ⟨?_, I.nodup.sublist (List.filter_sublist.map _)⟩
        rw [I.list]
        exact erase_spelled (hok.1 node hf) I.nodup
    · have hself : (s.unlinked.filter fun x => some x.2 ≠ s.t.files.pathName fs p dirFd path) =
          s.unlinked := by
        refine List.filter_eq_self.mpr fun x hx => ?_
        exact decide_eq_true fun hn => hu ⟨x, hx, hn⟩
      rw [I.unaffected hok hu] at hrun
      cases ho : s.t.files.openAt fs p f dirFd path creat with
      | error e =>
        rw [ho] at hrun
        cases hrun
      | ok o =>
        rw [ho] at hrun
        cases hrun
        rw [hself, ite_self]
        exact ⟨I.list, I.nodup⟩

end

end NameState

theorem NameRun.inv {ι : Type} {fs : Inodes ι} {contents : ι → List UInt8} {s : NameState ι}
    (h : NameRun fs (fun s e => s.Ok fs contents e) s) : s.Inv := by
  induction h with
  | start t => exact ⟨rfl, List.nodup_nil⟩
  | call _ hok hs ih => exact ih.call hok hs

/-- In every run whose calls meet the condition, the next call that meets it does what it shall: an
unlinked name is not opened until it is re-created, and no other name is affected. -/
theorem unlink_named {ι : Type} {fs : Inodes ι} {contents : ι → List UInt8} {s : NameState ι}
    (hrun : NameRun fs (fun s e => s.Ok fs contents e) s) {e : NameCall}
    (hok : s.Ok fs contents e) :
    s.Meets fs contents e := hrun.inv.meets hok

/-! ### A file `a` -/

def fileInodes : Inodes Nat where
  lookup _ _ := none
  mknode _ _ := none
  rDev _ := -1
  filetype i := if i = 2 then .normal else .direct

/-- The place of the dentry of `a`. -/
def didA : Did := ⟨1, by unfold maxDentryNum; decide⟩

/-- A root with the file `a`. -/
def fileCache : DentryCache Nat where
  den d := if d = didA then ⟨['a'], ∅, 2, some 0, 1⟩
    else ⟨['/'], (∅ : Children).insert ['a'] didA, 0, none, 1⟩
  freeList := []
  root := 0

def fileTables : CwdTables Nat := (CwdTables.empty fileCache).setState 0 .running

theorem fileTables_search {path : Str} (hsplit : splitNames path = [['a']])
    (hbase : fileTables.pathBase 0 atFdcwd path = .ok 0) :
    fileTables.search fileInodes 0 atFdcwd path = .ok (0, some didA, fileTables) := by
  have hne : (0 : Did) ≠ didA := by
    intro h
    have := congrArg Fin.val h
    simp [didA] at this
  have hden : fileCache.den 0 = ⟨['/'], (∅ : Children).insert ['a'] didA, 0, none, 1⟩ := by
    simp only [fileCache, if_neg hne]
  have hsearch : fileCache.entrySearch fileInodes 0 ['a'] = .ok (some didA, fileCache) := by
    rw [DentryCache.entrySearch, hden]
    simp only [AList.lookup_insert]
  have hwalk : fileTables.walk fileInodes 0 path false = .ok (some didA, fileTables) := by
    rw [CwdTables.walk, hsplit, DentryCache.pathSearch, if_neg (by simp), if_neg (by decide),
      if_neg (by decide)]
    rw [show fileTables.cache = fileCache from rfl, hsearch]
    rfl
  rw [CwdTables.search, hbase, ok_bind, hwalk]
  rfl

/-- Two ways to spell the name of the file. -/
theorem fileTables_found {path : Str} (h : path = ['a'] ∨ path = ['/', 'a']) :
    fileTables.search fileInodes 0 atFdcwd path = .ok (0, some didA, fileTables) ∧
      fileTables.found fileInodes 0 atFdcwd path = some 2 ∧
      fileTables.pathName fileInodes 0 atFdcwd path =
        some (dentryNames fileCache maxDentryNum didA) ∧
      ∀ t, (⟨fileTables, t⟩ : UnlinkTables Nat).unlink atFdcwd path =
        (0, ⟨fileTables, t ++ [path]⟩) := by
  have hs : fileTables.search fileInodes 0 atFdcwd path = .ok (0, some didA, fileTables) := by
    rcases h with rfl | rfl
    · exact fileTables_search ((splitNames_eq _).trans (by decide)) rfl
    · exact fileTables_search ((splitNames_eq _).trans (by decide)) rfl
  have hnode : (fileTables.cache.den didA).node = 2 := by
    rw [show fileTables.cache = fileCache from rfl]
    simp [fileCache]
  refine ⟨hs, ?_, ?_, ?_⟩
  · rw [CwdTables.found, hs]
    simp only [hnode]
  · rcases h with rfl | rfl <;> rw [CwdTables.pathName, if_neg (by decide), hs] <;> rfl
  · intro t
    rcases h with rfl | rfl <;> rfl

/-- After `unlink( "/a" )` the file is not opened without `O_CREAT`, and is opened with it. -/
theorem unlink_named_sample : ∃ s, NameRun fileInodes (fun s e => s.Ok fileInodes (fun _ => []) e)
    s ∧ s.t.unlinkList = [['/', 'a']] ∧
    (∃ s', s.call fileInodes (.openAt 0 20 atFdcwd ['/', 'a'] false) = .ok (-1, s')) ∧
    ∃ r s', s.call fileInodes (.openAt 0 20 atFdcwd ['/', 'a'] true) = .ok (r, s') ∧
      0 ≤ r := by
  obtain ⟨hs, hf, hn, hu⟩ := fileTables_found (.inr rfl)
  have hrun : NameRun fileInodes (fun s e => s.Ok fileInodes (fun _ => []) e)
      ⟨⟨fileTables, [['/', 'a']]⟩,
        [(['/', 'a'], dentryNames fileCache maxDentryNum didA)]⟩ := by
    refine .call (.start fileTables) (e := .unlink 0 atFdcwd ['/', 'a']) (r := 0) ?_ ?_
    · refine fun _ => ⟨⟨2, hf⟩, ?_⟩
      rintro ⟨x, hx, -⟩
      cases hx
    · simp only [NameState.call, hn, hu]
      rfl
  have hspelled : ∀ x ∈ [((['/', 'a'] : Str), dentryNames fileCache maxDentryNum didA)],
      x.1 = stripDotSlash ['/', 'a'] ↔
        some x.2 = fileTables.pathName fileInodes 0 atFdcwd ['/', 'a'] := by
    intro x hx
    rw [List.mem_singleton] at hx
    rw [hx, hn]
    exact iff_of_true rfl rfl
  have hold :
      (⟨⟨fileTables, [['/', 'a']]⟩,
      [(['/', 'a'], dentryNames fileCache maxDentryNum didA)]⟩ :
      NameState Nat).Unlinked (fileTables.pathName fileInodes 0 atFdcwd ['/', 'a']) :=
    ⟨_, List.mem_singleton.mpr rfl, hn.symm⟩
  refine ⟨_, hrun, rfl, ?_, ?_⟩
  · obtain ⟨s', hcall, -⟩ := (unlink_named hrun (e := .openAt 0 20 atFdcwd ['/', 'a'] false)
      ⟨fun _ _ => hspelled, fun h => nomatch h⟩).1 hold rfl
    exact ⟨s', hcall⟩
  · obtain ⟨r, s', -, hcall, hr, -⟩ :=
      (unlink_named hrun (e := .openAt 0 20 atFdcwd ['/', 'a'] true)
      ⟨fun _ _ => hspelled, fun _ _ => ⟨⟨2, hf, rfl⟩, ⟨0, by decide⟩, rfl⟩⟩).2.1
      hold rfl
    exact ⟨r, s', hcall, hr⟩

/-- After `unlink( "a" )` in the root, `open( "/a" )` opens the file. -/
theorem unlinked_opens : ∃ s, NameRun fileInodes (fun _ _ => True) s ∧
    ¬s.Meets fileInodes (fun _ => []) (.openAt 0 20 atFdcwd ['/', 'a'] false) := by
  obtain ⟨-, -, hn, hu⟩ := fileTables_found (.inl rfl)
  obtain ⟨hs', hf', hn', -⟩ := fileTables_found (.inr rfl)
  have hrun : NameRun fileInodes (fun _ _ => True)
      ⟨⟨fileTables, [['a']]⟩, [(['a'], dentryNames fileCache maxDentryNum didA)]⟩ := by
    refine .call (.start fileTables) (e := .unlink 0 atFdcwd ['a']) (r := 0) trivial ?_
    simp only [NameState.call, hn, hu]
    rfl
  refine ⟨_, hrun, fun hm => ?_⟩
  obtain ⟨s', hcall, -⟩ := hm.1 ⟨_, List.mem_singleton.mpr rfl, hn'.symm⟩ rfl
  have hopen : (⟨fileTables, [['a']]⟩ : UnlinkTables Nat).openFile fileInodes 0 20 atFdcwd
      ['/', 'a'] false = (fileTables.openAt fileInodes 0 20 atFdcwd ['/', 'a'] false).map fun r =>
        (r.1, ⟨r.2, [['a']]⟩) :=
    UnlinkTables.openFile_eq (.inr (.inr (by decide)))
  obtain ⟨hb, hw⟩ := CwdTables.search_ok hs'
  rw [CwdTables.openAt, hb, ok_bind, hw, ok_bind] at hopen
  simp only [if_neg (show (['/', 'a'] : Str) ≠ [] by decide), pure, Except.pure,
    Except.map] at hopen
  obtain ⟨hr, -⟩ : 0 ≤ (fileTables.openDentry fileInodes 0 20 didA).1 ∧ _ :=
    CwdTables.openDentry_free (i := ⟨0, by decide⟩) rfl
  rw [NameState.call, hopen] at hcall
  obtain ⟨⟨r, t⟩, hr', hcall⟩ := bind_eq_ok.mp hcall
  have hfst := (Prod.mk.inj (Except.ok.inj hr')).1
  have hminus := (Prod.mk.inj (Except.ok.inj hcall)).1
  omega

end OsKernel.Pm

import OsKernel.Klib.Fault
import OsKernel.Lib.RefCount

/-! The file objects that descriptors and memory areas point to, with their reference counts, and
the pipes behind them.  An object is known by its address; an address without an object may be given
to a new one. -/

namespace OsKernel.Fs

/-- `FileTypes`. -/
inductive FileTypes where
  | none
  | pipe
  | device
  | direct
  | normal
  | symlink
  deriving DecidableEq

/-- The class of a file object: `normal_file`, `device_file`, or the `pipe_file` of an end of the
pipe `id`. -/
inductive FileClass where
  | normal
  | device
  | pipe (id : Nat) (isWrite : Bool)
  deriving DecidableEq

structure File where
  cls : FileClass
  filetype : FileTypes
  refcnt : Nat
  flCloexec : Bool
  alwaysOn : Bool

/-- The ends of a `Pipe` that are open. -/
structure PipeEnds where
  readIsOpen : Bool
  writeIsOpen : Bool

def PipeEnds.isOpen (e : PipeEnds) (isWrite : Bool) : Bool :=
  if isWrite then e.writeIsOpen else e.readIsOpen

/-- The pipe after `Pipe::close`, which deletes it when it closes the last end. -/
def PipeEnds.close (e : PipeEnds) (isWrite : Bool) : Option PipeEnds :=
  let e := if isWrite then { e with writeIsOpen := false } else { e with readIsOpen := false }
  if !e.readIsOpen && !e.writeIsOpen then none else some e

structure FileStore where
  files : Nat → Option File
  pipes : Nat → Option PipeEnds

namespace FileStore

variable (st : FileStore)

/-- `Pipe::close`. -/
def closePipe (id : Nat) (isWrite : Bool) : Except Fault FileStore :=
  match st.pipes id with
  | none => .error (.undefined "use of a deleted pipe")
  | some e => .ok { st with pipes := Function.update st.pipes id (e.close isWrite) }

/-- `delete this`, with the destructor of the class. -/
def delete (f : Nat) (o : File) : Except Fault FileStore :=
  let st := { st with files := Function.update st.files f none }
  match o.cls with
  | .pipe id isWrite => st.closePipe id isWrite
  | .normal | .device => .ok st

/-- `free_file`. -/
def freeFile (f : Nat) : Except Fault FileStore :=
  match st.files f with
  | none => .error (.undefined "use of a deleted file")
  | some o =>
    let o := { o with refcnt := (o.refcnt + 2 ^ 32 - 1) % 2 ^ 32 }
    if o.refcnt = 0 then st.delete f o
    else .ok { st with files := Function.update st.files f (some o) }

/-- `dup`, and the plain `refcnt++`. -/
def dup (f : Nat) : Except Fault FileStore :=
  match st.files f with
  | none => .error (.undefined "use of a deleted file")
  | some o =>
    .ok { st with
      files := Function.update st.files f (some { o with refcnt := (o.refcnt + 1) % 2 ^ 32 }) }

/-- A new object at the address `f`: its constructor calls `dup`. -/
def create (f : Nat) (cls : FileClass) (filetype : FileTypes) : FileStore :=
  { st with files := Function.update st.files f (some ⟨cls, filetype, 1, false, false⟩) }

/-- `Pipe::alloc` of a new pipe at `id`, with its two files. -/
def createPipe (id f0 f1 : Nat) : FileStore :=
  (({ st with pipes := Function.update st.pipes id (some ⟨true, true⟩) } : FileStore).create f0
    (.pipe id false) .pipe).create f1 (.pipe id true) .pipe

/-- The reference counts of the objects. -/
def cnt (f : Nat) : Option Nat := (st.files f).map File.refcnt

/-- An end of the pipe `id` is open. -/
def EndOpen (id : Nat) (isWrite : Bool) : Prop :=
  ∃ e, st.pipes id = some e ∧ e.isOpen isWrite = true

/-- An end of a pipe is open while it has a file, and it has one file. -/
structure PipesInv : Prop where
  opened : ∀ id w, st.EndOpen id w ↔ ∃ f o, st.files f = some o ∧ o.cls = .pipe id w
  single : ∀ f f' o o' id w, st.files f = some o → st.files f' = some o' →
    o.cls = .pipe id w → o'.cls = .pipe id w → f = f'
  type : ∀ f o id w, st.files f = some o → o.cls = .pipe id w → o.filetype = .pipe

/-- Every object of `st'` was in `st`, with the same class and type. -/
def Keeps (st st' : FileStore) : Prop :=
  ∀ f o', st'.files f = some o' →
    ∃ o, st.files f = some o ∧ o'.cls = o.cls ∧ o'.filetype = o.filetype

end FileStore

variable {st : FileStore} {f : Nat} {o : File}

theorem PipeEnds.close_open (e : PipeEnds) (w w' : Bool) :
    (∃ e', e.close w = some e' ∧ e'.isOpen w' = true) ↔ e.isOpen w' = true ∧ w' ≠ w := by
  obtain ⟨r, wr⟩ := e
  cases r <;> cases wr <;> cases w <;> cases w' <;> simp [PipeEnds.close, PipeEnds.isOpen]

namespace FileStore

theorem closePipe_spec {id : Nat} {w : Bool} (h : st.EndOpen id w) :
    ∃ st', st.closePipe id w = .ok st' ∧ st'.files = st.files ∧
      ∀ id' w', st'.EndOpen id' w' ↔ st.EndOpen id' w' ∧ ¬ (id' = id ∧ w' = w) := by
  obtain ⟨e, he, -⟩ := h
  refine ⟨{ st with pipes := Function.update st.pipes id (e.close w) }, ?_, rfl,
    fun id' w' => ?_⟩
  · rw [closePipe, he]
  · by_cases hid : id' = id
    · subst hid
      simp only [EndOpen, Function.update_self, he, Option.some.injEq, exists_eq_left', true_and]
      exact e.close_open w w'
    · simp [EndOpen, hid]

theorem Keeps.refl : st.Keeps st := fun _ o h => ⟨o, h, rfl, rfl⟩

/-- The counts after the object at `f` is replaced. -/
theorem cnt_update (v : Option File) (pipes : Nat → Option PipeEnds) :
    (⟨Function.update st.files f v, pipes⟩ : FileStore).cnt =
      Function.update st.cnt f (v.map File.refcnt) := by
  funext g
  by_cases hg : g = f
  · subst hg
    simp [cnt]
  · simp [cnt, hg]

/-- An object changes, but not its class and type. -/
theorem PipesInv.replace (h : st.PipesInv) (hf : st.files f = some o) (o' : File)
    (hcls : o'.cls = o.cls) (htype : o'.filetype = o.filetype) :
    ({ st with files := Function.update st.files f (some o') } : FileStore).PipesInv ∧
    st.Keeps { st with files := Function.update st.files f (some o') } := by
  have hold : ∀ g o₁, Function.update st.files f (some o') g = some o₁ →
      ∃ o, st.files g = some o ∧ o₁.cls = o.cls ∧ o₁.filetype = o.filetype := by
    intro g o₁ hg
    by_cases hgf : g = f
    · subst hgf
      rw [Function.update_self] at hg
      obtain rfl := Option.some.inj hg
      exact ⟨o, hf, hcls, htype⟩
    · rw [Function.update_of_ne hgf] at hg
      exact ⟨o₁, hg, rfl, rfl⟩
  refine ⟨⟨fun id w => ?_, ?_, ?_⟩, hold⟩
  · refine (h.opened id w).trans ⟨?_, ?_⟩
    · rintro ⟨g, o', hg, hc⟩
      by_cases hgf : g = f
      · subst hgf
        rw [hf] at hg
        obtain rfl := Option.some.inj hg
        exact ⟨g, _, Function.update_self .., hcls ▸ hc⟩
      · exact ⟨g, o', (Function.update_of_ne hgf ..).trans hg, hc⟩
    · rintro ⟨g, o', hg, hc⟩
      obtain ⟨o, ho, hcls, -⟩ := hold g o' hg
      exact ⟨g, o, ho, hcls ▸ hc⟩
  · intro g g' o₁ o₂ id w h₁ h₂ hc₁ hc₂
    obtain ⟨o₁', ho₁, hcls₁, -⟩ := hold g o₁ h₁
    obtain ⟨o₂', ho₂, hcls₂, -⟩ := hold g' o₂ h₂
    exact h.single g g' _ _ id w ho₁ ho₂ (hcls₁ ▸ hc₁) (hcls₂ ▸ hc₂)
  · intro g o' id w hg hc
    obtain ⟨o, ho, hcls, ht⟩ := hold g o' hg
    rw [ht]
    exact h.type g o id w ho (hcls ▸ hc)

theorem PipesInv.dup (h : st.PipesInv) (hf : st.files f = some o) (hlt : o.refcnt + 1 < 2 ^ 32) :
    ∃ st', st.dup f = .ok st' ∧ st'.PipesInv ∧ st.Keeps st' ∧
      st'.cnt = Function.update st.cnt f (some (o.refcnt + 1)) := by
  obtain ⟨hinv, hkeeps⟩ := h.replace hf { o with refcnt := (o.refcnt + 1) % 2 ^ 32 } rfl rfl
  refine ⟨_, by rw [FileStore.dup, hf], hinv, hkeeps, ?_⟩
  rw [cnt_update, Nat.mod_eq_of_lt hlt]
  rfl

/-- An object is deleted, and with it the end of a pipe. -/
theorem PipesInv.delete (h : st.PipesInv) (hf : st.files f = some o) (k : Nat) :
    ∃ st', st.delete f { o with refcnt := k } = .ok st' ∧ st'.PipesInv ∧ st.Keeps st' ∧
      st'.cnt = Function.update st.cnt f none := by
  have hkeeps : ∀ g o', Function.update st.files f none g = some o' →
      g ≠ f ∧ st.files g = some o' := by
    intro g o' hg
    by_cases hgf : g = f
    · rw [hgf, Function.update_self] at hg
      cases hg
    · exact ⟨hgf, by rwa [Function.update_of_ne hgf] at hg⟩
  -- The store that is left has the invariant once its ends are those of the files that are left.
  have build : ∀ st' : FileStore, st'.files = Function.update st.files f none →
      (∀ id w, st'.EndOpen id w ↔ st.EndOpen id w ∧ o.cls ≠ .pipe id w) →
      st'.PipesInv ∧ st.Keeps st' ∧ st'.cnt = Function.update st.cnt f none := by
    intro st' hfiles hends
    refine ⟨⟨fun id w => ?_, ?_, ?_⟩, ?_, ?_⟩
    · rw [hends, h.opened id w, hfiles]
      constructor
      · rintro ⟨⟨g, o', hg, hc⟩, hne⟩
        have hgf : g ≠ f := by
          rintro rfl
          rw [hf] at hg
          obtain rfl := Option.some.inj hg
          exact hne hc
        exact ⟨g, o', by rwa [Function.update_of_ne hgf], hc⟩
      · rintro ⟨g, o', hg, hc⟩
        obtain ⟨hgf, hg⟩ := hkeeps g o' hg
        exact ⟨⟨g, o', hg, hc⟩, fun he => hgf (h.single g f o' o id w hg hf hc he)⟩
    · intro g g' o₁ o₂ id w h₁ h₂
      rw [hfiles] at h₁ h₂
      exact h.single g g' o₁ o₂ id w (hkeeps g o₁ h₁).2 (hkeeps g' o₂ h₂).2
    · intro g o' id w hg
      rw [hfiles] at hg
      exact h.type g o' id w (hkeeps g o' hg).2
    · intro g o' hg
      rw [hfiles] at hg
      exact ⟨o', (hkeeps g o' hg).2, rfl, rfl⟩
    · have hst : st' = ⟨Function.update st.files f none, st'.pipes⟩ := by rw [← hfiles]
      rw [hst, cnt_update]
      rfl
  unfold FileStore.delete
  cases hc : o.cls with
  | normal =>
    exact ⟨_, rfl, build _ rfl fun id w => by simp [hc, EndOpen]⟩
  | device =>
    exact ⟨_, rfl, build _ rfl fun id w => by simp [hc, EndOpen]⟩
  | pipe id w =>
    have hopen : ({ st with files := Function.update st.files f none } : FileStore).EndOpen id w :=
      (h.opened id w).mpr ⟨f, o, hf, hc⟩
    obtain ⟨st', hrun, hfiles, hends⟩ := closePipe_spec hopen
    refine ⟨st', hrun, build st' hfiles fun id' w' => (hends id' w').trans ?_⟩
    have hne : o.cls ≠ .pipe id' w' ↔ ¬ (id' = id ∧ w' = w) := by
      rw [hc]
      simp [eq_comm]
    rw [hne]
    rfl

theorem PipesInv.freeFile (h : st.PipesInv) (hf : st.files f = some o) (hpos : 0 < o.refcnt)
    (hlt : o.refcnt < 2 ^ 32) :
    ∃ st', st.freeFile f = .ok st' ∧ st'.PipesInv ∧ st.Keeps st' ∧
      st'.cnt = Function.update st.cnt f
        (if o.refcnt = 1 then none else some (o.refcnt - 1)) := by
  have hdec : (o.refcnt + 2 ^ 32 - 1) % 2 ^ 32 = o.refcnt - 1 := by omega
  unfold FileStore.freeFile
  rw [hf]
  simp only [hdec]
  by_cases h1 : o.refcnt = 1
  · rw [if_pos (by omega), if_pos h1]
    exact h.delete hf _
  · obtain ⟨hinv, hkeeps⟩ := h.replace hf { o with refcnt := o.refcnt - 1 } rfl rfl
    rw [if_neg (by omega), if_neg h1]
    refine ⟨_, rfl, hinv, hkeeps, ?_⟩
    rw [cnt_update]
    rfl

/-- A new object that is not the file of a pipe, or is the one file of an end. -/
theorem PipesInv.create (h : st.PipesInv) (hf : st.files f = none) {cls : FileClass}
    {filetype : FileTypes} {pipes : Nat → Option PipeEnds}
    (hpipes : ∀ id w, (⟨st.files, pipes⟩ : FileStore).EndOpen id w ↔
      st.EndOpen id w ∨ cls = .pipe id w)
    (hnew : ∀ id w, cls = .pipe id w → ¬ st.EndOpen id w ∧ filetype = .pipe) :
    ((⟨st.files, pipes⟩ : FileStore).create f cls filetype).PipesInv := by
  have hcases : ∀ g o', ((⟨st.files, pipes⟩ : FileStore).create f cls filetype).files g =
      some o' → g = f ∧ o'.cls = cls ∧ o'.filetype = filetype ∨ st.files g = some o' := by
    intro g o' hg
    by_cases hgf : g = f
    · subst hgf
      simp only [FileStore.create, Function.update_self, Option.some.injEq] at hg
      exact Or.inl ⟨rfl, hg ▸ rfl, hg ▸ rfl⟩
    · exact Or.inr (by simpa [FileStore.create, hgf] using hg)
  refine ⟨fun id w => ?_, ?_, ?_⟩
  · refine (hpipes id w).trans ⟨?_, ?_⟩
    · rintro (hopen | hc)
      · obtain ⟨g, o', hg, hc⟩ := (h.opened id w).mp hopen
        have hgf : g ≠ f := by
          rintro rfl
          rw [hf] at hg
          cases hg
        exact ⟨g, o', by simpa [FileStore.create, hgf] using hg, hc⟩
      · exact ⟨f, _, Function.update_self .., hc⟩
    · rintro ⟨g, o', hg, hc⟩
      rcases hcases g o' hg with ⟨-, hcls, -⟩ | hg
      · exact Or.inr (hcls ▸ hc)
      · exact Or.inl ((h.opened id w).mpr ⟨g, o', hg, hc⟩)
  · intro g g' o₁ o₂ id w h₁ h₂ hc₁ hc₂
    rcases hcases g o₁ h₁ with ⟨hg, hcls₁, -⟩ | hold₁
    · rcases hcases g' o₂ h₂ with ⟨hg', -, -⟩ | hold₂
      · exact hg.trans hg'.symm
      · exact absurd ((h.opened id w).mpr ⟨g', o₂, hold₂, hc₂⟩)
          (hnew id w (hcls₁ ▸ hc₁)).1
    · rcases hcases g' o₂ h₂ with ⟨-, hcls₂, -⟩ | hold₂
      · exact absurd ((h.opened id w).mpr ⟨g, o₁, hold₁, hc₁⟩)
          (hnew id w (hcls₂ ▸ hc₂)).1
      · exact h.single g g' o₁ o₂ id w hold₁ hold₂ hc₁ hc₂
  · intro g o' id w hg hc
    rcases hcases g o' hg with ⟨-, hcls, ht⟩ | hg
    · rw [ht]
      exact (hnew id w (hcls ▸ hc)).2
    · exact h.type g o' id w hg hc

end FileStore

end OsKernel.Fs

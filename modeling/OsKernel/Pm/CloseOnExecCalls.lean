import OsKernel.Pm.CloseOnExec

/-! Close-on-exec as a property of a descriptor: each descriptor has a mark of its own in the
specification.  Here: after which calls the marks are still what `execve` closes. -/

namespace OsKernel.Pm
open Fs Hsai RefCount

/-- A call on descriptors.  A new object is at `f`, and `fork` is given the slot `np`. -/
inductive FdCall where
  | openFile (p : Fin numProcess) (f : Nat) (dev : Int) (filetype : FileTypes)
  | dup (p : Fin numProcess) (oldfd : Int)
  | dup2 (p : Fin numProcess) (oldfd fd : Int)
  | dupFd (p : Fin numProcess) (oldfd arg : Int)
  | dupFdCloexec (p : Fin numProcess) (oldfd arg : Int)
  | setFd (p : Fin numProcess) (fd : Int) (arg : Nat)
  | close (p : Fin numProcess) (fd : Int)
  | fork (p np : Fin numProcess)
  | execve (p : Fin numProcess) (segPages : Nat)

/-- The close-on-exec marks of the descriptors. -/
abbrev Marks : Type := Fd → Bool

/-- The marks after that of the descriptor `v` is set to `b`; no descriptor if `v` is an error. -/
def Marks.set (m : Marks) (p : Fin numProcess) (v : Int) (b : Bool) : Marks :=
  match fdIndex v with
  | none => m
  | some i => Function.update m (p, i) b

/-- The descriptor `fd` is open and marked. -/
def Marks.get (m : Marks) (p : Fin numProcess) (fd : Int) : Bool :=
  (fdIndex fd).elim false fun i => m (p, i)

namespace FdCall

/-- The process that makes the call. -/
def proc : FdCall → Fin numProcess
  | openFile p .. | dup p .. | dup2 p .. | dupFd p .. | dupFdCloexec p .. | setFd p .. | close p ..
  | fork p .. | execve p .. => p

/-- The call, with its result; that of `fork` and `execve` is not looked at. -/
def run (t : Tables) : FdCall → Except Fault (Int × Tables)
  | openFile p f dev filetype => .ok (t.openFile p f dev filetype)
  | dup p oldfd => t.dup p oldfd
  | dup2 p oldfd fd => t.dup2 p oldfd fd
  | dupFd p oldfd arg => t.fcntlDupFd p oldfd arg
  | dupFdCloexec p oldfd arg => t.fcntlDupFdCloexec p oldfd arg
  | setFd p fd arg => t.fcntlSetFdTo p fd arg
  | close p fd => t.close p fd
  | fork p np => do
    let t ← t.fork p np
    return (0, t)
  | execve p segPages => do
    let t ← t.execve p segPages
    return (0, t)

/-- The caller runs, a new object is where none is, and `fork` is given an unused slot. -/
def Legal (t : Tables) (c : FdCall) : Prop :=
  (t.procs c.proc).state.live = true ∧
    match c with
    | openFile _ f _ _ => t.store.files f = none
    | fork _ np => (t.procs np).state = .unused
    | _ => True

/-- The marks after the call has returned `v`: a new descriptor has none, unless it is asked for,
and the marks of a process are copied by `fork` and dropped, with their descriptors, by `execve`. -/
def mark (v : Int) (m : Marks) : FdCall → Marks
  | openFile p .. | dup p .. | dupFd p .. => m.set p v false
  | dup2 p oldfd fd => if fd = oldfd then m else m.set p v false
  | dupFdCloexec p .. => m.set p v true
  | setFd p fd arg => if v = 0 then m.set p fd (arg % 2 = 1) else m
  | close p fd => m.set p fd false
  | fork p np => fun x => if x.1 = np then m (p, x.2) else m x
  | execve p _ => fun x => x.1 ≠ p && m x

theorem mark_openFile (v : Int) (m : Marks) (p : Fin numProcess) (f : Nat) (dev : Int)
    (filetype : FileTypes) : (openFile p f dev filetype).mark v m = m.set p v false := rfl

theorem mark_dup (v : Int) (m : Marks) (p : Fin numProcess) (oldfd : Int) :
    (dup p oldfd).mark v m = m.set p v false := rfl

theorem mark_dup2 (v : Int) (m : Marks) (p : Fin numProcess) (oldfd fd : Int) :
    (dup2 p oldfd fd).mark v m = if fd = oldfd then m else m.set p v false := rfl

theorem mark_dupFd (v : Int) (m : Marks) (p : Fin numProcess) (oldfd arg : Int) :
    (dupFd p oldfd arg).mark v m = m.set p v false := rfl

theorem mark_dupFdCloexec (v : Int) (m : Marks) (p : Fin numProcess) (oldfd arg : Int) :
    (dupFdCloexec p oldfd arg).mark v m = m.set p v true := rfl

theorem mark_setFd (v : Int) (m : Marks) (p : Fin numProcess) (fd : Int) (arg : Nat) :
    (setFd p fd arg).mark v m = if v = 0 then m.set p fd (arg % 2 = 1) else m := rfl

/-- A marked descriptor is not duplicated without its mark, and none is marked whose object has
descriptors that are not, or belongs to the three files that are never closed.  A mark is not
cleared, `F_DUPFD_CLOEXEC` finds a descriptor, and `dup2` is given one in range. -/
def Meets (t : Tables) (m : Marks) : FdCall → Prop
  | openFile .. | close .. | fork .. | execve .. => True
  | dup p oldfd => m.get p oldfd = true → ∀ i, t.fdFile (p, i) ≠ none
  | dup2 p oldfd fd => ∀ f, t.getOpenFile p oldfd = some f → fd ≠ oldfd →
      m.get p oldfd = false ∧ (fdIndex fd).isSome
  | dupFd p oldfd arg => m.get p oldfd = true → 0 ≤ arg →
      ∀ i : Fin maxOpenFiles, arg ≤ i.val → t.fdFile (p, i) ≠ none
  | dupFdCloexec p oldfd arg => ∀ f, t.getOpenFile p oldfd = some f →
      (0 ≤ arg ∧ ∃ i : Fin maxOpenFiles, arg ≤ i.val ∧ t.fdFile (p, i) = none) ∧
      ∀ x, t.fdFile x = some f → m x = true
  | setFd p fd arg => ∀ f, t.getOpenFile p fd = some f →
      if arg % 2 = 1 then
        (∀ x, t.fdFile x = some f → m x = true ∨ (x.1 = p ∧ fdIndex fd = some x.2)) ∧
        ∀ o, t.store.files f = some o → o.alwaysOn = false
      else m.get p fd = false

/-- A failed `F_DUPFD` of a negative descriptor takes a reference that is never dropped; the count
of the object is far from its end. -/
def Bounded (t : Tables) : FdCall → Prop
  | dupFd p oldfd arg => arg < 0 → ∀ f o, t.getOpenFile p oldfd = some f →
      t.store.files f = some o → o.refcnt < 2 ^ 31
  | _ => True

end FdCall

/-- An `execve` of a process closes its marked descriptors, and leaves the others and those of the
other processes. -/
def ExecCloses (t : Tables) (m : Marks) : Prop :=
  ∀ p segPages, (t.procs p).state.live = true → ∃ t', t.execve p segPages = .ok t' ∧
    (∀ i, (t.fdFile (p, i) ≠ none ∧ t'.fdFile (p, i) = none) ↔ m (p, i) = true) ∧
    (∀ i, m (p, i) = false → t'.fdFile (p, i) = t.fdFile (p, i)) ∧
    ∀ x : Fd, x.1 ≠ p → t'.fdFile x = t.fdFile x

/-- The runs of calls that meet `C`, from the start of the init process, with the marks. -/
inductive FdReach (init : Fin numProcess) (C : Tables → Marks → FdCall → Prop) :
    Tables → Marks → Prop
  | start (sz f0 f1 f2 : Nat) (hsz : pageSize ≤ sz) (h01 : f0 ≠ f1) (h02 : f0 ≠ f2)
      (h12 : f1 ≠ f2) : FdReach init C (Tables.start init sz f0 f1 f2) fun _ => false
  | step {t t' : Tables} {m : Marks} {v : Int} (h : FdReach init C t m) (c : FdCall)
      (hl : c.Legal t) (hc : C t m c) (hrun : c.run t = .ok (v, t')) :
      FdReach init C t' (c.mark v m)

/-- What the calls keep: only a live process has descriptors. -/
structure FdInv (t : Tables) : Prop where
  counted : Counted t
  owner : ∀ x f, t.fdFile x = some f → (t.procs x.1).state.live = true

/-- What is known of a call: it returns, and the marks after it are what `execve` closes when it
meets the condition; or it does not return. -/
def Outcome (c : FdCall) (t : Tables) : Prop :=
  (∃ v t', c.run t = .ok (v, t') ∧ FdInv t' ∧
    (c.Meets t t.closes ↔ c.mark v t.closes = t'.closes) ∧
    ∀ x, c.mark v t.closes x ≠ t'.closes x → t'.fdFile x ≠ none) ∨
  (∃ e, c.run t = .error e) ∧ ¬ c.Meets t t.closes

variable {t t' : Tables} {p np : Fin numProcess} {f : Nat} {fd : Fin maxOpenFiles}

theorem fdIndex_val (fd : Fin maxOpenFiles) : fdIndex (fd.val : Int) = some fd := by
  have hlt : (fd.val : Int) < maxOpenFiles := by exact_mod_cast fd.isLt
  simp [fdIndex, hlt]

theorem fdIndex_some {v : Int} (h : fdIndex v = some fd) : v = fd.val :=
  FilesInv.fdIndex_inj h (fdIndex_val fd)

theorem fdIndex_neg {v : Int} (h : v < 0) : fdIndex v = none := by
  rw [fdIndex, dif_neg (by omega)]

@[simp] theorem Marks.set_val (m : Marks) (b : Bool) :
    m.set p (fd.val : Int) b = Function.update m (p, fd) b := by
  rw [Marks.set, fdIndex_val]

/-- An error is not a descriptor. -/
theorem Marks.set_error (m : Marks) (b : Bool) : m.set p (-1) b = m := by
  rw [Marks.set, fdIndex_neg (by decide)]

theorem Tables.getOpenFile_some {v : Int} (h : t.getOpenFile p v = some f) :
    ∃ i, v = i.val ∧ fdIndex v = some i ∧ t.fdFile (p, i) = some f := by
  obtain ⟨i, hidx, hi⟩ := Option.bind_eq_some_iff.mp h
  exact ⟨i, fdIndex_some hidx, hidx, hi⟩

/-- A descriptor that is not open is not closed. -/
theorem Tables.closes_get_none {v : Int} (h : t.getOpenFile p v = none) :
    Marks.get t.closes p v = false := by
  rw [Marks.get]
  cases hi : fdIndex v with
  | none => rfl
  | some i =>
    rw [Tables.getOpenFile, hi] at h
    exact Tables.closes_none h

theorem Tables.allocFd_cases :
    (∃ i, t.fdFile (p, i) = none ∧ t.allocFd p f = ((i.val : Int), t.setFd p i (some f))) ∨
    (∀ i, t.fdFile (p, i) ≠ none) ∧ t.allocFd p f = (-1, t) := by
  unfold Tables.allocFd
  split
  · rename_i i hfind
    exact Or.inl ⟨i, by simpa [Tables.fdFile] using List.find?_some hfind, rfl⟩
  · rename_i hnone
    exact Or.inr ⟨fun i => by
      simpa [Tables.fdFile] using List.find?_eq_none.mp hnone i (List.mem_finRange i), rfl⟩

namespace FdInv

/-- One descriptor of a live process changes. -/
theorem owner_setFd (h : FdInv t) (hp : (t.procs p).state.live = true) {st' : FileStore}
    {v : Option Nat} (x : Fd) (g : Nat)
    (hx : (({ t with store := st' } : Tables).setFd p fd v).fdFile x = some g) :
    ((({ t with store := st' } : Tables).setFd p fd v).procs x.1).state.live = true := by
  rw [Tables.state_setFd]
  by_cases he : x.1 = p
  · rw [he]
    exact hp
  · rw [Tables.fdFile_setFd, Function.update_of_ne fun hxe => he (congrArg Prod.fst hxe)] at hx
    exact h.owner x g hx

theorem drop (h : FdInv t) (hp : (t.procs p).state.live = true) (hfd : t.fdFile (p, fd) = some f) :
    ∃ st', t.freeFile f = .ok { t with store := st' } ∧
      FdInv (({ t with store := st' } : Tables).setFd p fd none) ∧
      (({ t with store := st' } : Tables).setFd p fd none).closes =
        Function.update t.closes (p, fd) false := by
  obtain ⟨st', hrun, hcount, hcl⟩ := h.counted.drop hfd
  exact ⟨st', hrun, ⟨hcount, h.owner_setFd hp⟩, hcl⟩

theorem share (h : FdInv t) (hp : (t.procs p).state.live = true) (hfd : t.fdFile (p, fd) = none)
    {y : Fd} (hy : t.fdFile y = some f) :
    ∃ t', (t.setFd p fd (some f)).dupFile f = .ok t' ∧ FdInv t' ∧
      t'.fdFile = Function.update t.fdFile (p, fd) (some f) ∧
      t'.closes = Function.update t.closes (p, fd) (t.closes y) := by
  obtain ⟨st', hrun, hcount, hcl⟩ := h.counted.share hfd hy
  refine ⟨_, ?_, ⟨hcount, h.owner_setFd hp⟩, Tables.fdFile_setFd .., hcl⟩
  have hrun' : (t.setFd p fd (some f)).store.dup f = .ok st' := hrun
  rw [Tables.dupFile, hrun', ok_bind]
  rfl

end FdInv

namespace Outcome

variable {c : FdCall} {v : Int}

/-- A call that is always right. -/
theorem right (hrun : c.run t = .ok (v, t')) (hinv : FdInv t') (hmeets : c.Meets t t.closes)
    (hmark : c.mark v t.closes = t'.closes) : Outcome c t :=
  Or.inl ⟨v, t', hrun, hinv, iff_of_true hmeets hmark, fun x hx => absurd (congrFun hmark x) hx⟩

/-- A call that has given the descriptor `fd` the flag `b'` and should have given it `b`. -/
theorem one {b b' : Bool} (hrun : c.run t = .ok (v, t')) (hinv : FdInv t')
    (hfile : t'.fdFile (p, fd) ≠ none) (hcl : t'.closes = Function.update t.closes (p, fd) b')
    (hmark : c.mark v t.closes = Function.update t.closes (p, fd) b)
    (hmeets : c.Meets t t.closes ↔ b = b') : Outcome c t := by
  refine Or.inl ⟨v, t', hrun, hinv, ?_, fun x hx => ?_⟩
  · rw [hmark, hcl, hmeets]
    exact (Function.update_injective t.closes (p, fd)).eq_iff.symm
  · by_cases he : x = (p, fd)
    · rw [he]
      exact hfile
    · rw [hmark, hcl, Function.update_of_ne he, Function.update_of_ne he] at hx
      exact absurd rfl hx

end Outcome

namespace FdInv

theorem openFile (h : FdInv t) {dev : Int} {filetype : FileTypes}
    (hp : (t.procs p).state.live = true) (hf : t.store.files f = none) :
    Outcome (.openFile p f dev filetype) t := by
  have hcls : ∀ id w, (if 0 ≤ dev ∧ dev < 1024 then FileClass.device else .normal) ≠
      .pipe id w := by
    intro id w
    split <;> simp
  generalize hc : (if 0 ≤ dev ∧ dev < 1024 then FileClass.device else .normal) = cls at hcls
  have hrun : ∀ r, ({ t with store := t.store.create f cls filetype } : Tables).allocFd p f =
      r → (FdCall.openFile p f dev filetype).run t = .ok r := by
    rintro r rfl
    rw [← hc]
    rfl
  rcases Tables.allocFd_cases (p := p) (f := f)
    (t := { t with store := t.store.create f cls filetype }) with
        ⟨i, hi, halloc⟩ | ⟨-, halloc⟩
  · obtain ⟨hcount, hcl⟩ := h.counted.new (show t.fdFile (p, i) = none from hi)
      hf hcls filetype
    refine .right (hrun _ halloc) ⟨hcount, h.owner_setFd hp⟩ trivial ?_
    rw [hcl]
    rw [FdCall.mark_openFile, Marks.set_val]
  · refine .right (hrun _ halloc) ⟨?_, h.owner⟩ trivial ?_
    · exact h.counted.replace rfl hcls fun hpos => absurd (h.counted.refs_none hf) (by omega)
    · rw [FdCall.mark_openFile, Marks.set_error]
      have hcl : ({ t with store := t.store.create f cls filetype } : Tables).closes = t.closes :=
        Tables.closes_congr rfl fun _ g _ => Counted.closes_create hf
      exact hcl.symm

theorem dup (h : FdInv t) {oldfd : Int} (hp : (t.procs p).state.live = true) :
    Outcome (.dup p oldfd) t := by
  cases hold : t.getOpenFile p oldfd with
  | none =>
    refine .right (v := -1) (by simp only [FdCall.run, Tables.dup, hold]) h (fun hm => ?_)
      (by rw [FdCall.mark_dup, Marks.set_error])
    rw [Tables.closes_get_none hold] at hm
    cases hm
  | some f =>
    obtain ⟨j, -, hj, hfile⟩ := Tables.getOpenFile_some hold
    rcases Tables.allocFd_cases (t := t) (p := p)
      (f := f) with ⟨i, hi, halloc⟩ | ⟨hfull, halloc⟩
    · obtain ⟨t', hdup, hinv, hfd, hcl⟩ := h.share hp hi hfile
      have hnn : ¬ (i.val : Int) < 0 := Int.not_lt.mpr (Int.natCast_nonneg _)
      have hmark : FdCall.mark i.val t.closes (.dup p oldfd) =
          Function.update t.closes (p, i) false := by
        rw [FdCall.mark_dup, Marks.set_val]
      refine .one ?_ hinv (by rw [hfd, Function.update_self]; exact nofun) hcl hmark ?_
      · simp only [FdCall.run, Tables.dup, hold, halloc, hnn, if_false, hdup, ok_bind]
        rfl
      · simp only [FdCall.Meets, Marks.get, hj, Option.elim]
        constructor
        · intro hm
          by_contra hne
          exact hm (by simpa using Ne.symm hne) i hi
        · intro he hm
          rw [← he] at hm
          cases hm
    · refine .right (v := -1) ?_ h (fun _ => hfull) (by rw [FdCall.mark_dup, Marks.set_error])
      simp only [FdCall.run, Tables.dup, hold, halloc]
      rfl

/-- `close` of a live process. -/
theorem closeFd (h : FdInv t) {v : Int} (hp : (t.procs p).state.live = true) :
    ∃ r t', t.close p v = .ok (r, t') ∧ FdInv t' ∧
      t'.closes = Marks.set t.closes p v false ∧
      (∀ q, (t'.procs q).state = (t.procs q).state) ∧
      ∀ x, t'.fdFile x = if x.1 = p ∧ fdIndex v = some x.2 then none else t.fdFile x := by
  unfold Tables.close Marks.set
  cases hi : fdIndex v with
  | none =>
    refine ⟨-1, t, rfl, h, rfl, fun _ => rfl, fun x => ?_⟩
    rw [if_neg (fun hx => nomatch hx.2)]
  | some i =>
    cases hf : (t.procs p).ofile i with
    | none =>
      refine ⟨0, t, by simp only [hf], h, ?_, fun _ => rfl, fun x => ?_⟩
      · have hno : t.closes (p, i) = false := Tables.closes_none hf
        simp only [← hno, Function.update_eq_self]
      · split
        · rename_i hx
          obtain ⟨rfl, hx⟩ := hx
          obtain rfl := Option.some.inj hx
          exact hf
        · rfl
    | some f =>
      obtain ⟨st', hfree, hinv, hcl⟩ := h.drop hp hf
      refine ⟨0, _, by simp only [hf, hfree, ok_bind]; rfl, hinv, hcl,
        fun q => Tables.state_setFd _, fun x => ?_⟩
      rw [Tables.fdFile_setFd]
      by_cases hx : x = (p, i)
      · rw [hx, Function.update_self, if_pos ⟨rfl, rfl⟩]
      · rw [Function.update_of_ne hx,
          if_neg fun hn => hx (Prod.ext hn.1 (Option.some.inj hn.2).symm)]
        rfl

theorem close (h : FdInv t) {v : Int} (hp : (t.procs p).state.live = true) :
    Outcome (.close p v) t := by
  obtain ⟨r, t', hrun, hinv, hcl, -⟩ := h.closeFd hp (v := v)
  exact .right hrun hinv trivial hcl.symm

theorem dup2 (h : FdInv t) {oldfd v : Int} (hp : (t.procs p).state.live = true) :
    Outcome (.dup2 p oldfd v) t := by
  cases hold : t.getOpenFile p oldfd with
  | none =>
    refine .right (v := -1) (by simp only [FdCall.run, Tables.dup2, hold]) h (fun f hf => ?_) ?_
    · rw [hold] at hf
      cases hf
    · rw [FdCall.mark_dup2, Marks.set_error, ite_self]
  | some f =>
    obtain ⟨j, -, hj, hfile⟩ := Tables.getOpenFile_some hold
    by_cases hne : v = oldfd
    · refine .right (v := v) (by simp only [FdCall.run, Tables.dup2, hold, hne, if_true]) h
        (fun f _ hvo => absurd hne hvo) ?_
      rw [FdCall.mark_dup2, if_pos hne]
    cases hi : fdIndex v with
    | none =>
      refine Or.inr ⟨⟨.undefined "_ofile: read out of bounds", ?_⟩, fun hm => ?_⟩
      · simp only [FdCall.run, Tables.dup2, hold, hne, hi, if_true, if_false]
      · have hsome := (hm f hold hne).2
        rw [hi] at hsome
        cases hsome
    | some i =>
      obtain ⟨r, t₁, hclose, hinv₁, hcl₁, hstate, hfd₁⟩ := h.closeFd hp (v := v)
      have hij : ¬ fdIndex v = some j := fun he => hne (FilesInv.fdIndex_inj he hj)
      have hfree : t₁.fdFile (p, i) = none := by rw [hfd₁, if_pos ⟨rfl, hi⟩]
      have hfile₁ : t₁.fdFile (p, j) =
        some f := by rw [hfd₁, if_neg fun hn => hij hn.2, hfile]
      obtain ⟨t', hdup, hinv, hfd, hcl⟩ := hinv₁.share ((hstate p).symm ▸ hp) hfree hfile₁
      have hset : ∀ b, Marks.set t.closes p v b = Function.update t.closes (p, i) b := by
        intro b
        rw [Marks.set, hi]
      have hcj : t₁.closes (p, j) = t.closes (p, j) := by
        have hji : ((p, j) : Fd) ≠ (p, i) :=
          fun he => hij (hi.trans (congrArg some (Prod.mk.inj he).2.symm))
        rw [hcl₁, hset, Function.update_of_ne hji]
      have hcl' : t'.closes = Function.update t.closes (p, i) (t.closes (p, j)) := by
        rw [hcl, hcj, hcl₁, hset, Function.update_idem]
      have hnn : ¬ v < 0 := fun hlt => by rw [fdIndex_neg hlt] at hi; cases hi
      have halloc : t₁.allocFdAt p f v = (v, t₁.setFd p i (some f)) := by
        rw [Tables.allocFdAt, hi]
        exact if_pos hfree
      have hmark : FdCall.mark v t.closes (.dup2 p oldfd v) =
          Function.update t.closes (p, i) false := by
        rw [FdCall.mark_dup2, if_neg hne, hset]
      refine .one ?_ hinv (by rw [hfd, Function.update_self]; exact nofun) hcl' hmark ?_
      · simp only [FdCall.run, Tables.dup2, hold, hne, hi, reduceCtorEq, if_false, hclose, ok_bind,
          halloc, hnn, hdup]
        rfl
      · constructor
        · intro hm
          have hno := (hm f hold hne).1
          rw [Marks.get, hj] at hno
          exact hno.symm
        · intro he f' _ _
          rw [Marks.get, hj, hi]
          exact ⟨he.symm, rfl⟩

/-- The loop of `F_DUPFD` from a descriptor that is not negative. -/
theorem dupFdFrom (h : FdInv t) (hp : (t.procs p).state.live = true) {y : Fd}
    (hy : t.fdFile y = some f) : ∀ (left : Nat) (i : Int), 0 ≤ i →
      (∃ (j : Fin maxOpenFiles) (t' : Tables), i ≤ j.val ∧ t.fdFile (p, j) = none ∧
        t.dupFdFrom p f left i = .ok ((j.val : Int), t') ∧ FdInv t' ∧
        t'.fdFile = Function.update t.fdFile (p, j) (some f) ∧
        t'.closes = Function.update t.closes (p, j) (t.closes y)) ∨
      t.dupFdFrom p f left i = .ok (-1, t) ∧
        ∀ j : Fin maxOpenFiles, i ≤ j.val → (j.val : Int) < i + left →
          t.fdFile (p, j) ≠ none := by
  intro left
  induction left with
  | zero => exact fun i _ => Or.inr ⟨rfl, fun j hle hlt => absurd hlt (by push_cast; omega)⟩
  | succ left ih =>
    intro i hi
    by_cases hfree : ∃ j, fdIndex i = some j ∧ t.fdFile (p, j) = none
    · obtain ⟨j, hj, hnone⟩ := hfree
      obtain ⟨t', hdup, hinv, hfd, hcl⟩ := h.share hp hnone hy
      have halloc : t.allocFdAt p f i = (i, t.setFd p j (some f)) := by
        rw [Tables.allocFdAt, hj]
        exact if_pos hnone
      obtain rfl := fdIndex_some hj
      refine Or.inl ⟨j, t', le_refl _, hnone, ?_, hinv, hfd, hcl⟩
      simp only [Tables.dupFdFrom, halloc, if_true, hdup, ok_bind]
      rfl
    · have halloc : t.allocFdAt p f i = (-1, t) := by
        unfold Tables.allocFdAt
        cases hj : fdIndex i with
        | none => rfl
        | some j => exact if_neg fun hnone => hfree ⟨j, hj, hnone⟩
      have hnext : t.dupFdFrom p f (left + 1) i = t.dupFdFrom p f left (i + 1) := by
        have hne : ¬ (-1 : Int) = i := by omega
        simp only [Tables.dupFdFrom, halloc, hne, if_false]
      rw [hnext]
      refine (ih (i + 1) (by omega)).imp ?_ ?_
      · rintro ⟨j, t', hle, hrest⟩
        exact ⟨j, t', by omega, hrest⟩
      · rintro ⟨hrun, hfull⟩
        refine ⟨hrun, fun j hle hlt hnone => ?_⟩
        by_cases hij : i = j.val
        · exact hfree ⟨j, hij ▸ fdIndex_val j, hnone⟩
        · exact hfull j (by omega) (by push_cast at hlt ⊢; omega) hnone

/-- The loop from a negative descriptor stops at `-1`, which is what `alloc_fd` gives there. -/
theorem dupFdFrom_neg : ∀ (left : Nat) (i : Int), i < 0 → 0 ≤ i + left →
    t.dupFdFrom p f left i = (do
      let t ← t.dupFile f
      return (-1, t)) := by
  intro left
  induction left with
  | zero => exact fun i hi hle => absurd hle (by push_cast; omega)
  | succ left ih =>
    intro i hi hle
    have halloc : t.allocFdAt p f i = (-1, t) := by rw [Tables.allocFdAt, fdIndex_neg hi]
    by_cases hend : i = -1
    · subst hend
      simp only [Tables.dupFdFrom, halloc, if_true]
    · have hne : ¬ (-1 : Int) = i := fun he => hend he.symm
      simp only [Tables.dupFdFrom, halloc, hne, if_false]
      exact ih (i + 1) (by omega) (by push_cast at hle; omega)

/-- A reference that no descriptor has is taken. -/
theorem leak (h : FdInv t) {o : File} (hy : t.fdFile (p, fd) = some f)
    (ho : t.store.files f = some o) (hlt : o.refcnt < 2 ^ 31) :
    ∃ t', t.dupFile f = .ok t' ∧ FdInv t' ∧ t'.closes = t.closes := by
  obtain ⟨o', ho', hle, -⟩ := h.counted.file hy
  obtain rfl := Option.some.inj (ho.symm.trans ho')
  refine ⟨{ t with store := { t.store with
    files := Function.update t.store.files f (some { o with refcnt := o.refcnt + 1 }) } },
    by rw [Tables.dupFile, FileStore.dup_eq ho (by omega), ok_bind]; rfl, ⟨?_, h.owner⟩, ?_⟩
  · refine h.counted.replace rfl (h.counted.noPipe f o · · ho) fun _ => ⟨?_, ?_⟩
    · show _ ≤ o.refcnt + 1
      omega
    · show o.refcnt + 1 ≤ _
      omega
  · refine Tables.closes_congr rfl fun _ g _ => ?_
    rw [FileStore.closes_update]
    split
    · rename_i hgf
      rw [hgf, FileStore.closes, ho]
      rfl
    · rfl

theorem dupFd (h : FdInv t) {oldfd arg : Int} (hp : (t.procs p).state.live = true)
    (hb : FdCall.Bounded t (.dupFd p oldfd arg)) : Outcome (.dupFd p oldfd arg) t := by
  cases hold : t.getOpenFile p oldfd with
  | none =>
    refine .right (v := -1) (by simp only [FdCall.run, Tables.fcntlDupFd, hold]) h (fun hm => ?_)
      (by rw [FdCall.mark_dupFd, Marks.set_error])
    rw [Tables.closes_get_none hold] at hm
    cases hm
  | some f =>
    obtain ⟨j, -, hj, hfile⟩ := Tables.getOpenFile_some hold
    have hrun : (FdCall.dupFd p oldfd arg).run t =
        t.dupFdFrom p f (maxOpenFiles - arg).toNat arg := by
      simp only [FdCall.run, Tables.fcntlDupFd, hold]
    by_cases hneg : arg < 0
    · obtain ⟨o, ho, -⟩ := h.counted.file hfile
      obtain ⟨t', hdup, hinv, hcl⟩ := h.leak hfile ho (hb hneg f o hold ho)
      refine .right (v := -1) ?_ hinv (fun _ hle => absurd hneg (Int.not_lt.mpr hle)) ?_
      · rw [hrun, dupFdFrom_neg _ _ hneg (by unfold maxOpenFiles; omega), hdup, ok_bind]
        rfl
      · rw [hcl]
        rw [FdCall.mark_dupFd, Marks.set_error]
    · rcases h.dupFdFrom hp hfile (maxOpenFiles - arg).toNat arg (by omega) with
        ⟨i, t', hle, hi, hloop, hinv, hfd, hcl⟩ | ⟨hloop, hfull⟩
      · have hmark : FdCall.mark i.val t.closes (.dupFd p oldfd arg) =
            Function.update t.closes (p, i) false := by
          rw [FdCall.mark_dupFd, Marks.set_val]
        refine .one (hrun.trans hloop) hinv (by rw [hfd, Function.update_self]; exact nofun)
          hcl hmark ?_
        simp only [FdCall.Meets, Marks.get, hj, Option.elim]
        constructor
        · intro hm
          by_contra hne
          exact hm (by simpa using Ne.symm hne) (by omega) i hle hi
        · intro he hm
          rw [← he] at hm
          cases hm
      · refine .right (hrun.trans hloop) h (fun _ _ i hi => hfull i hi ?_)
          (by rw [FdCall.mark_dupFd, Marks.set_error])
        have hlt : (i.val : Int) < maxOpenFiles := by exact_mod_cast i.isLt
        omega


/-- One descriptor is marked, and the descriptors of `F` get the flag `b`. -/
theorem flag_iff {m cl cl' : Marks} {y : Fd} {F : Fd → Prop} [DecidablePred F] {b : Bool}
    (hy : F y) (hcl' : cl' = fun x => if F x then b else cl x)
    (hcl : ∀ x, x ≠ y → cl x = m x) :
    (Function.update m y true = cl' ↔ b = true ∧ ∀ x, F x → m x = true ∨ x = y) ∧
      ∀ x, Function.update m y true x ≠ cl' x → F x := by
  subst hcl'
  refine ⟨⟨fun he => ?_, ?_⟩, fun x hne => ?_⟩
  · have hb : b = true := by
      have := congrFun he y
      rw [Function.update_self, if_pos hy] at this
      exact this.symm
    refine ⟨hb, fun x hx => or_iff_not_imp_right.mpr fun hxy => ?_⟩
    have := congrFun he x
    rw [Function.update_of_ne hxy, if_pos hx, hb] at this
    exact this
  · rintro ⟨rfl, hall⟩
    funext x
    by_cases hxy : x = y
    · rw [hxy, Function.update_self, if_pos hy]
    · rw [Function.update_of_ne hxy]
      by_cases hx : F x
      · rw [if_pos hx, (hall x hx).resolve_right hxy]
      · rw [if_neg hx, hcl x hxy]
  · by_contra hx
    have hxy : x ≠ y := fun he => hx (he ▸ hy)
    rw [Function.update_of_ne hxy] at hne
    exact hne ((hcl x hxy).symm.trans (if_neg hx).symm)

theorem dupFdCloexec (h : FdInv t) {oldfd arg : Int} (hp : (t.procs p).state.live = true) :
    Outcome (.dupFdCloexec p oldfd arg) t := by
  cases hold : t.getOpenFile p oldfd with
  | none =>
    refine .right (v := -1) (by simp only [FdCall.run, Tables.fcntlDupFdCloexec, hold]) h
      (fun f hf => ?_) (by rw [FdCall.mark_dupFdCloexec, Marks.set_error])
    rw [hold] at hf
    cases hf
  | some f =>
    obtain ⟨j, -, hj, hfile⟩ := Tables.getOpenFile_some hold
    -- Where no descriptor is found, the file of `-1` is a null pointer.
    have hnull : ∀ t', t.dupFdFrom p f (maxOpenFiles - arg).toNat arg = .ok (-1, t') →
        (FdCall.dupFdCloexec p oldfd arg).run t = .error (.undefined "null file") := by
      intro t' hloop
      have hnone : t'.getOpenFile p (-1) =
        none := by rw [Tables.getOpenFile, fdIndex_neg (by decide)]; rfl
      simp only [FdCall.run, Tables.fcntlDupFdCloexec, hold, hloop, ok_bind, hnone]
    by_cases hneg : arg < 0
    · obtain ⟨o, ho, -, -, -, hlt⟩ := h.counted.file hfile
      refine Or.inr ⟨⟨_, hnull { t with store := { t.store with
        files := Function.update t.store.files f (some { o with refcnt := o.refcnt + 1 }) } } ?_⟩,
        fun hm => absurd (hm f hold).1.1 (Int.not_le.mpr hneg)⟩
      rw [dupFdFrom_neg _ _ hneg (by unfold maxOpenFiles; omega), Tables.dupFile,
        FileStore.dup_eq ho hlt]
      rfl
    · rcases h.dupFdFrom hp hfile (maxOpenFiles - arg).toNat arg (by omega) with
        ⟨i, t', hle, hi, hloop, hinv, hfd, hcl⟩ | ⟨hloop, hfull⟩
      · have hfile' : t'.fdFile (p, i) = some f := by rw [hfd, Function.update_self]
        obtain ⟨o, st', ho, hst, hcount, hflag⟩ := hinv.counted.setCloexec hfile'
        have hopen : t'.getOpenFile p i.val = some f := by
          rw [Tables.getOpenFile, fdIndex_val]
          exact hfile'
        have hji : ((p, j) : Fd) ≠ (p, i) := by
          intro he
          rw [he, hi] at hfile
          cases hfile
        have hold' : ∀ x, x ≠ (p, i) → t'.closes x = t.closes x := by
          intro x hx
          rw [hcl, Function.update_of_ne hx]
        obtain ⟨hiff, hne⟩ := flag_iff (F := fun x => t'.fdFile x = some f) hfile' hflag hold'
        have hmark : FdCall.mark i.val t.closes (.dupFdCloexec p oldfd arg) =
            Function.update t.closes (p, i) true := by
          rw [FdCall.mark_dupFdCloexec, Marks.set_val]
        have hown : ∀ x g, ({ t' with store := st' } : Tables).fdFile x = some g →
            (t'.procs x.1).state.live = true := hinv.owner
        refine Or.inl ⟨i.val, { t' with store := st' }, ?_, ⟨hcount, hown⟩, ?_,
          fun x hx => ?_⟩
        · simp only [FdCall.run, Tables.fcntlDupFdCloexec, hold, hloop, ok_bind, hopen, ho, hst]
        · rw [hmark, hiff]
          constructor
          · intro hm
            have hall := (hm f hold).2
            -- The old descriptor is marked, so its object is not one that stays.
            have hcj : t'.closes (p, j) = true := (hold' _ hji).trans (hall _ hfile)
            have hfj : t'.fdFile (p, j) = some f := by rw [hfd, Function.update_of_ne hji, hfile]
            rw [Tables.closes, hfj, Option.elim, FileStore.closes, ho, Option.elim, File.closes,
              Bool.and_eq_true] at hcj
            refine ⟨hcj.2, fun x hx => or_iff_not_imp_right.mpr fun hxi => hall x ?_⟩
            rwa [hfd, Function.update_of_ne hxi] at hx
          · rintro ⟨-, hall⟩ f' hf'
            obtain rfl := Option.some.inj (hold.symm.trans hf')
            refine ⟨⟨by omega, i, hle, hi⟩, fun x hx => ?_⟩
            have hxi : x ≠ (p, i) := by
              rintro rfl
              rw [hi] at hx
              cases hx
            exact (hall x (by rwa [hfd, Function.update_of_ne hxi])).resolve_right hxi
        · rw [hmark] at hx
          have hxf : t'.fdFile x = some f := hne x hx
          show t'.fdFile x ≠ none
          rw [hxf]
          exact Option.some_ne_none f
      · refine Or.inr ⟨⟨_, hnull t hloop⟩, fun hm => ?_⟩
        obtain ⟨-, i, hle, hi⟩ := (hm f hold).1
        have hlt : (i.val : Int) < maxOpenFiles := by exact_mod_cast i.isLt
        exact hfull i hle (by omega) hi

theorem setFd (h : FdInv t) {v : Int} {arg : Nat} : Outcome (.setFd p v arg) t := by
  cases hold : t.getOpenFile p v with
  | none =>
    refine .right (v := -1) (by simp only [FdCall.run, Tables.fcntlSetFdTo, hold]) h
      (fun f hf => ?_) (by rw [FdCall.mark_setFd]; rfl)
    rw [hold] at hf
    cases hf
  | some f =>
    obtain ⟨i, rfl, hi, hfile⟩ := Tables.getOpenFile_some hold
    by_cases harg : arg % 2 = 1
    · obtain ⟨o, st', ho, hst, hcount, hflag⟩ := h.counted.setCloexec hfile
      obtain ⟨hiff, hne⟩ := flag_iff (F := fun x => t.fdFile x = some f) hfile hflag fun _ _ =>
        rfl
      have hmark : FdCall.mark 0 t.closes (.setFd p i.val arg) =
          Function.update t.closes (p, i) true := by
        rw [FdCall.mark_setFd, if_pos rfl, Marks.set_val, decide_eq_true harg]
      refine Or.inl ⟨0, { t with store := st' }, ?_, ⟨hcount, h.owner⟩, ?_, fun x hx => ?_⟩
      · simp only [FdCall.run, Tables.fcntlSetFdTo, hold, harg, if_true, Tables.fcntlSetFd, ho,
          hst]
      · rw [hmark, hiff]
        have hx : ∀ x : Fd, (x.1 = p ∧ fdIndex (i.val : Int) = some x.2) ↔ x = (p, i) := by
          intro x
          rw [hi, Option.some.injEq, eq_comm (a := i)]
          exact ⟨fun he => Prod.ext he.1 he.2, fun he => he ▸ ⟨rfl, rfl⟩⟩
        simp only [FdCall.Meets, harg, if_true, hx]
        constructor
        · intro hm
          obtain ⟨hall, hon⟩ := hm f hold
          exact ⟨by rw [hon o ho]; rfl, hall⟩
        · rintro ⟨hon, hall⟩ f' hf'
          obtain rfl := Option.some.inj (hold.symm.trans hf')
          refine ⟨hall, fun o' ho' => ?_⟩
          obtain rfl := Option.some.inj (ho.symm.trans ho')
          simpa using hon
      · rw [hmark] at hx
        show t.fdFile x ≠ none
        rw [show t.fdFile x = some f from hne x hx]
        exact nofun
    · have hmark : FdCall.mark 0 t.closes (.setFd p i.val arg) =
          Function.update t.closes (p, i) false := by
        rw [FdCall.mark_setFd, if_pos rfl, Marks.set_val, decide_eq_false harg]
      have hrun : (FdCall.setFd p i.val arg).run t = .ok (0, t) := by
        simp only [FdCall.run, Tables.fcntlSetFdTo, hold, harg, if_false]
      refine .one hrun h (by rw [hfile]; exact nofun) (Function.update_eq_self (p, i) t.closes).symm
        hmark ?_
      · simp only [FdCall.Meets, harg, if_false, Marks.get, hi, Option.elim]
        exact ⟨fun hm => (hm f hold).symm, fun he _ _ => he.symm⟩

end FdInv

end OsKernel.Pm

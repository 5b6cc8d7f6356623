import OsKernel.Pm.DescriptorCalls
import OsKernel.Pm.FileRefs

/-! The close-on-exec flag.  It is kept on the file object, so all descriptors of the object have
the same.  Here: which descriptors an `execve` would close, and what each call does to them. -/

namespace OsKernel.Fs

/-- `execve` closes the descriptors of an object. -/
def File.closes (o : File) : Bool := o.flCloexec && !o.alwaysOn

def FileStore.closes (st : FileStore) (f : Nat) : Bool := (st.files f).elim false File.closes

variable {st st' : FileStore} {f g : Nat} {o : File}

theorem FileStore.dup_eq (hf : st.files f = some o) (hlt : o.refcnt + 1 < 2 ^ 32) : st.dup f =
    .ok { st with files := Function.update st.files f (some { o with refcnt := o.refcnt + 1 }) } :=
      by
  rw [FileStore.dup, hf]
  simp only [Nat.mod_eq_of_lt hlt]

theorem FileStore.freeFile_eq (hf : st.files f = some o) (hcls : ∀ id w, o.cls ≠ .pipe id w)
    (hpos : 0 < o.refcnt) (hlt : o.refcnt < 2 ^ 32) : st.freeFile f =
      .ok { st with
        files := Function.update st.files f
          (if o.refcnt = 1 then none else some { o with refcnt := o.refcnt - 1 }) } := by
  have hdec : (o.refcnt + 2 ^ 32 - 1) % 2 ^ 32 = o.refcnt - 1 := by omega
  rw [FileStore.freeFile, hf]
  simp only [hdec]
  by_cases h1 : o.refcnt = 1
  · rw [if_pos (by omega), if_pos h1, FileStore.delete]
    cases hc : o.cls with
    | normal => rfl
    | device => rfl
    | pipe id w => exact absurd hc (hcls id w)
  · rw [if_neg (by omega), if_neg h1]

/-- Whether the descriptors of an object are closed, after one object changes. -/
theorem FileStore.closes_update (v : Option File) (pipes : Nat → Option PipeEnds) :
    (⟨Function.update st.files f v, pipes⟩ : FileStore).closes g =
      if g = f then v.elim false File.closes else st.closes g := by
  unfold FileStore.closes
  by_cases hg : g = f
  · simp only [hg, if_true, Function.update_self]
  · rw [if_neg hg]
    exact congrArg (Option.elim · false File.closes) (Function.update_of_ne hg ..)

end OsKernel.Fs

namespace OsKernel.Pm
open Fs Hsai RefCount

/-- A descriptor of a process. -/
abbrev Fd : Type := Fin numProcess × Fin maxOpenFiles

namespace Tables

variable (t : Tables) (p : Fin numProcess)

/-- `fcntl( fd, F_SETFD, arg )`, where `FD_CLOEXEC` is bit 0. -/
def fcntlSetFdTo (fd : Int) (arg : Nat) : Except Fault (Int × Tables) :=
  match t.getOpenFile p fd with
  | none => .ok (-1, t)
  | some _ => if arg % 2 = 1 then t.fcntlSetFd p fd else .ok (0, t)

/-- The file of a descriptor. -/
def fdFile (x : Fd) : Option Nat := (t.procs x.1).ofile x.2

end Tables

/-- `execve` closes a descriptor. -/
def Tables.closes (t : Tables) (x : Fd) : Bool := (t.fdFile x).elim false t.store.closes

/-- What the calls on descriptors keep.  A failed `open` and a failed `fcntl` leave a reference that
no descriptor has, so a count may be too high. -/
structure Counted (t : Tables) : Prop where
  count : ∀ f, 0 < t.refs f →
    ∃ o, t.store.files f = some o ∧ t.refs f ≤ o.refcnt ∧ o.refcnt ≤ t.refs f + 2 ^ 31
  unmapped : ∀ p i, ((t.procs p).vm i).isUsed = false
  noPipe : ∀ f o id w, t.store.files f = some o → o.cls ≠ .pipe id w

variable {t t' : Tables} {p q : Fin numProcess} {f : Nat} {fd : Fin maxOpenFiles}

theorem Tables.fdFile_setFd (v : Option Nat) :
    (t.setFd p fd v).fdFile = Function.update t.fdFile (p, fd) v := by
  funext ⟨q, i⟩
  unfold Tables.fdFile
  by_cases hq : q = p
  · subst hq
    by_cases hi : i = fd
    · simp [Tables.setFd, Tables.setProc_procs, hi]
    · simp [Tables.setFd, Tables.setProc_procs, hi]
  · simp [Tables.setFd, Tables.setProc_procs, hq]

theorem Tables.state_setFd (v : Option Nat) :
    ((t.setFd p fd v).procs q).state = (t.procs q).state := by
  by_cases hq : q = p <;> simp [Tables.setFd, Tables.setProc_procs, hq]

theorem Tables.vm_setFd (v : Option Nat) : ((t.setFd p fd v).procs q).vm = (t.procs q).vm := by
  by_cases hq : q = p <;> simp [Tables.setFd, Tables.setProc_procs, hq]

/-- What `execve` closes depends on the flags of the objects that descriptors point to. -/
theorem Tables.closes_congr {u : Tables} (hfd : u.fdFile = t.fdFile)
    (hst : ∀ x g, t.fdFile x = some g → u.store.closes g = t.store.closes g) :
    u.closes = t.closes := by
  funext x
  unfold Tables.closes
  rw [hfd]
  cases hx : t.fdFile x with
  | none => rfl
  | some g => exact hst x g hx

/-- The same when one descriptor changes. -/
theorem Tables.closes_update {st' : FileStore} {v : Option Nat}
    (hst : ∀ x g, x ≠ (p, fd) → t.fdFile x = some g → st'.closes g = t.store.closes g) :
    (({ t with store := st' } : Tables).setFd p fd v).closes =
      Function.update t.closes (p, fd) (v.elim false st'.closes) := by
  have hfile : (({ t with store := st' } : Tables).setFd p fd v).fdFile =
      Function.update t.fdFile (p, fd) v := Tables.fdFile_setFd (t := { t with store := st' }) v
  funext x
  unfold Tables.closes
  rw [hfile]
  by_cases hx : x = (p, fd)
  · rw [hx, Function.update_self, Function.update_self]
    rfl
  · rw [Function.update_of_ne hx, Function.update_of_ne hx]
    cases hg : t.fdFile x with
    | none => rfl
    | some g => exact hst x g hx hg

/-- An empty descriptor is not closed. -/
theorem Tables.closes_none {x : Fd} (hx : t.fdFile x = none) : t.closes x = false := by
  rw [Tables.closes, hx]
  rfl

namespace Counted

theorem refs_pos (h : t.fdFile (p, fd) = some f) : 0 < t.refs f :=
  refs_pos_iff.mpr ⟨(p, .inl fd), h⟩

/-- The object of a descriptor. -/
theorem file (h : Counted t) (hfd : t.fdFile (p, fd) = some f) :
    ∃ o, t.store.files f = some o ∧ t.refs f ≤ o.refcnt ∧ o.refcnt ≤ t.refs f + 2 ^ 31 ∧
      0 < o.refcnt ∧ o.refcnt + 1 < 2 ^ 32 := by
  have hpos := refs_pos hfd
  obtain ⟨o, ho, hle, hge⟩ := h.count f hpos
  have hcard : t.refs f + 1 < 2 ^ 31 := by
    have hle : t.refs f ≤ Fintype.card Slot := refs_le_card
    have hval : Fintype.card Slot + 1 < 2 ^ 31 := by
      rw [Fintype.card_prod, Fintype.card_sum, Fintype.card_fin, Fintype.card_fin, Fintype.card_fin]
      decide
    omega
  exact ⟨o, ho, hle, hge, by omega, by omega⟩

/-- A descriptor and the object at `f` change.  The counts stay in range where that of `f` does. -/
theorem change (h : Counted t) {v : Option Nat} {w : Option File} {st' : FileStore}
    (hst : st'.files = Function.update t.store.files f w)
    (hv : ∀ g, v = some g → g ≠ f → 0 < t.refs g ∧ t.fdFile (p, fd) = some g)
    (hold : ∀ g, t.fdFile (p, fd) = some g → g ≠ f → v = some g)
    (hw : ∀ o id b, w = some o → o.cls ≠ .pipe id b)
    (hcount : 0 < (t.setFd p fd v).refs f → ∃ o, w = some o ∧
      (t.setFd p fd v).refs f ≤ o.refcnt ∧ o.refcnt ≤ (t.setFd p fd v).refs f + 2 ^ 31) :
    Counted (({ t with store := st' } : Tables).setFd p fd v) := by
  have hrefs : ∀ g, g ≠ f → (t.setFd p fd v).refs g = t.refs g := by
    intro g hg
    have hu := refs_update t.ptr ((p, .inl fd) : Slot) v g
    have hiff : t.ptr (p, .inl fd) = some g ↔ v = some g :=
      ⟨fun he => hold g he hg, fun he => (hv g he hg).2⟩
    rw [Tables.refs, Tables.ptr_setFd, Tables.refs]
    by_cases he : v = some g
    · rw [if_pos he, if_pos (hiff.mpr he)] at hu
      omega
    · rw [if_neg he, if_neg fun hp => he (hiff.mp hp)] at hu
      omega
  have hsame : (({ t with store := st' } : Tables).setFd p fd v).refs = (t.setFd p fd v).refs := rfl
  have hself : st'.files f = w := by rw [hst, Function.update_self]
  have hother : ∀ g, g ≠ f → st'.files g = t.store.files g := by
    intro g hg
    rw [hst, Function.update_of_ne hg]
  refine ⟨fun g hg => ?_, fun q i => ?_, fun g o id b hg => ?_⟩
  · rw [hsame] at hg ⊢
    by_cases hgf : g = f
    · subst hgf
      obtain ⟨o, ho, hle, hge⟩ := hcount hg
      exact ⟨o, hself.trans ho, hle, hge⟩
    · rw [hrefs g hgf] at hg ⊢
      obtain ⟨o, ho, hle, hge⟩ := h.count g hg
      exact ⟨o, (hother g hgf).trans ho, hle, hge⟩
  · rw [Tables.vm_setFd]
    exact h.unmapped q i
  · by_cases hgf : g = f
    · subst hgf
      exact hw o id b (hself.symm.trans hg)
    · exact h.noPipe g o id b ((hother g hgf).symm.trans hg)

/-- A descriptor is closed. -/
theorem drop (h : Counted t) (hfd : t.fdFile (p, fd) = some f) :
    ∃ st', t.freeFile f = .ok { t with store := st' } ∧
      Counted (({ t with store := st' } : Tables).setFd p fd none) ∧
      (({ t with store := st' } : Tables).setFd p fd none).closes =
        Function.update t.closes (p, fd) false := by
  obtain ⟨o, ho, hle, hge, hpos, hlt⟩ := h.file hfd
  have hfree := FileStore.freeFile_eq ho (h.noPipe f o · · ho) hpos (by omega)
  have hrefs : (t.setFd p fd none).refs f + 1 = t.refs f := by
    have hu := refs_update t.ptr ((p, .inl fd) : Slot) none f
    have hptr : t.ptr (p, .inl fd) = some f := hfd
    rw [hptr, if_pos rfl, if_neg (by simp)] at hu
    rw [Tables.refs, Tables.ptr_setFd, Tables.refs]
    omega
  refine ⟨_, by rw [Tables.freeFile, hfree]; rfl, ?_, ?_⟩
  · refine h.change rfl (fun g hg => by cases hg) (fun g hg hne => ?_) (fun o' id b ho' => ?_)
      fun hr => ?_
    · exact absurd (Option.some.inj (hg.symm.trans hfd)) hne
    · split at ho'
      · cases ho'
      · obtain rfl := Option.some.inj ho'
        exact h.noPipe f o id b ho
    · rw [if_neg (by omega)]
      exact ⟨_, rfl, by show _ ≤ o.refcnt - 1; omega, by show o.refcnt - 1 ≤ _; omega⟩
  · refine Tables.closes_update fun x g hx hg => ?_
    rw [FileStore.closes_update]
    split
    · -- Another descriptor has the object, so it is not the last one that goes.
      rename_i hgf
      subst hgf
      have hother : 0 < (t.setFd p fd none).refs g := by
        refine refs_pos_iff.mpr ⟨(x.1, .inl x.2), ?_⟩
        rw [Tables.ptr_setFd, Function.update_of_ne]
        · exact hg
        · rintro he
          obtain ⟨h1, h2⟩ := Prod.mk.inj he
          exact hx (Prod.ext h1 (Sum.inl.inj h2))
      rw [if_neg (by omega), FileStore.closes, ho]
      rfl
    · rfl

/-- An empty descriptor gets the object of a descriptor. -/
theorem share (h : Counted t) (hfd : t.fdFile (p, fd) = none) {y : Fd} (hy : t.fdFile y = some f) :
    ∃ st', t.store.dup f = .ok st' ∧
      Counted (({ t with store := st' } : Tables).setFd p fd (some f)) ∧
      (({ t with store := st' } : Tables).setFd p fd (some f)).closes =
        Function.update t.closes (p, fd) (t.closes y) := by
  obtain ⟨o, ho, hle, hge, hpos, hlt⟩ := h.file (show t.fdFile (y.1, y.2) = some f from hy)
  have hrefs : (t.setFd p fd (some f)).refs f = t.refs f + 1 := by
    have hu := refs_update t.ptr ((p, .inl fd) : Slot) (some f) f
    rw [if_neg (by rw [show t.ptr (p, .inl fd) = none from hfd]; simp), if_pos rfl,
      Nat.add_zero] at hu
    rw [Tables.refs, Tables.ptr_setFd]
    exact hu
  have hcloses : ∀ g,
      (⟨Function.update t.store.files f (some { o with refcnt := o.refcnt + 1 }),
      t.store.pipes⟩ : FileStore).closes g = t.store.closes g := by
    intro g
    rw [FileStore.closes_update]
    split
    · rename_i hgf
      rw [hgf, FileStore.closes, ho]
      rfl
    · rfl
  refine ⟨_, FileStore.dup_eq ho hlt, ?_, ?_⟩
  · refine h.change rfl (fun g hg hne => absurd (Option.some.inj hg).symm hne) (fun g hg => ?_)
      (fun o' id b ho' => ?_) fun _ => ⟨_, rfl, ?_, ?_⟩
    · rw [hfd] at hg
      cases hg
    · obtain rfl := Option.some.inj ho'
      exact h.noPipe f o id b ho
    · show _ ≤ o.refcnt + 1
      omega
    · show o.refcnt + 1 ≤ _
      omega
  · rw [Tables.closes_update fun x g _ _ => hcloses g]
    refine congrArg (Function.update t.closes (p, fd)) ?_
    rw [Tables.closes, hy]
    exact hcloses f

/-- An object that no descriptor has. -/
theorem refs_none (h : Counted t) (hf : t.store.files f = none) : t.refs f = 0 := by
  by_contra hne
  obtain ⟨o, ho, -⟩ := h.count f (Nat.pos_of_ne_zero hne)
  rw [hf] at ho
  cases ho

theorem closes_create {st : FileStore} {cls : FileClass} {filetype : FileTypes} {g : Nat}
    (hf : st.files f = none) : (st.create f cls filetype).closes g = st.closes g := by
  refine (FileStore.closes_update ..).trans ?_
  split
  · rename_i hgf
    rw [hgf, FileStore.closes, hf]
    rfl
  · rfl

/-- An empty descriptor gets a new object. -/
theorem new (h : Counted t) (hfd : t.fdFile (p, fd) = none) (hf : t.store.files f = none)
    {cls : FileClass} (hcls : ∀ id w, cls ≠ .pipe id w) (filetype : FileTypes) :
    Counted (({ t with store := t.store.create f cls filetype } : Tables).setFd p fd (some f)) ∧
      (({ t with store := t.store.create f cls filetype } : Tables).setFd p fd (some f)).closes =
        Function.update t.closes (p, fd) false := by
  have hzero := h.refs_none hf
  have hrefs : (t.setFd p fd (some f)).refs f = 1 := by
    have hu := refs_update t.ptr ((p, .inl fd) : Slot) (some f) f
    rw [if_neg (by rw [show t.ptr (p, .inl fd) = none from hfd]; simp), if_pos rfl] at hu
    rw [Tables.refs, Tables.ptr_setFd]
    rw [Tables.refs] at hzero
    omega
  constructor
  · refine h.change rfl (fun g hg hne => absurd (Option.some.inj hg).symm hne) (fun g hg => ?_)
      (fun o id b ho => ?_) fun _ => ⟨_, rfl, ?_, ?_⟩
    · rw [hfd] at hg
      cases hg
    · obtain rfl := Option.some.inj ho
      exact hcls id b
    · show _ ≤ 1
      omega
    · show 1 ≤ _
      omega
  · rw [Tables.closes_update fun x g _ _ => closes_create hf]
    refine congrArg (Function.update t.closes (p, fd)) ?_
    refine (closes_create hf).trans ?_
    rw [FileStore.closes, hf]
    rfl

/-- The object at `f` changes, and no descriptor does. -/
theorem replace (h : Counted t) {w : File} {st' : FileStore}
    (hst : st'.files = Function.update t.store.files f (some w))
    (hw : ∀ id b, w.cls ≠ .pipe id b)
    (hcount : 0 < t.refs f → t.refs f ≤ w.refcnt ∧ w.refcnt ≤ t.refs f + 2 ^ 31) :
    Counted { t with store := st' } := by
  have hself : st'.files f = some w := by rw [hst, Function.update_self]
  have hother : ∀ g, g ≠ f → st'.files g = t.store.files g := by
    intro g hg
    rw [hst, Function.update_of_ne hg]
  refine ⟨fun g hg => ?_, h.unmapped, fun g o id b hg => ?_⟩
  · by_cases hgf : g = f
    · subst hgf
      exact ⟨w, hself, hcount hg⟩
    · obtain ⟨o, ho, hle⟩ := h.count g hg
      exact ⟨o, (hother g hgf).trans ho, hle⟩
  · by_cases hgf : g = f
    · subst hgf
      obtain rfl := Option.some.inj (hself.symm.trans hg)
      exact hw id b
    · exact h.noPipe g o id b ((hother g hgf).symm.trans hg)

/-- The flag of an object is set: all its descriptors get it. -/
theorem setCloexec (h : Counted t) (hfd : t.fdFile (p, fd) = some f) :
    ∃ o st', t.store.files f = some o ∧ st' = { t.store with
        files := Function.update t.store.files f (some { o with flCloexec := true }) } ∧
      Counted { t with store := st' } ∧ ({ t with store := st' } : Tables).closes =
        fun x => if t.fdFile x = some f then !o.alwaysOn else t.closes x := by
  obtain ⟨o, ho, hle, hge, -⟩ := h.file hfd
  refine ⟨o, _, ho, rfl, ?_, ?_⟩
  · exact h.replace rfl (h.noPipe f o · · ho) fun _ => ⟨hle, hge⟩
  · funext x
    unfold Tables.closes
    show (t.fdFile x).elim false _ = _
    cases hx : t.fdFile x with
    | none => simp
    | some g =>
      simp only [Option.elim, Option.some.injEq]
      rw [FileStore.closes_update]
      by_cases hg : g = f
      · rw [if_pos hg, if_pos hg]
        simp [File.closes]
      · rw [if_neg hg, if_neg hg]

end Counted

end OsKernel.Pm

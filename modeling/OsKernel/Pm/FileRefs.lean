import Mathlib.Data.Fintype.Prod
import OsKernel.Pm.Files

/-! The reference count of a file is the number of descriptors and memory areas that point to it. -/

namespace OsKernel.Pm
open Fs Hsai RefCount

/-- A place that may point to a file: a descriptor or a memory area of a process. -/
abbrev Slot : Type := Fin numProcess × (Fin maxOpenFiles ⊕ Fin maxVmaNum)

namespace Tables

variable (t : Tables)

/-- The file that a slot points to. -/
def ptr : Slot → Option Nat
  | (p, .inl fd) => (t.procs p).ofile fd
  | (p, .inr i) => if ((t.procs p).vm i).isUsed then ((t.procs p).vm i).vfile else none

/-- The number of descriptors and used memory areas that point to `f`. -/
def refs (f : Nat) : Nat := RefCount.refs t.ptr f

end Tables

/-- A process that is not in use or has exited. -/
def ProcState.idle (s : ProcState) : Prop := s = .unused ∨ s = .zombie

theorem ProcState.not_idle_of_live {s : ProcState} (h : s.live = true) : ¬ s.idle := by
  rintro (rfl | rfl) <;> cases h

/-- The tables of the processes: a memory area has an address while it is in use, and an idle
process has nothing. -/
structure Shape (procs : Fin numProcess → FilePcb) : Prop where
  used : ∀ p i, ((procs p).vm i).isUsed = true → pageSize ≤ ((procs p).vm i).address
  free : ∀ p i, ((procs p).vm i).isUsed = false → ((procs p).vm i).address = 0
  sz : ∀ p, (procs p).state.live = true → pageSize ≤ (procs p).sz
  idle : ∀ p, (procs p).state.idle →
    (∀ fd, (procs p).ofile fd = none) ∧ ∀ i, ((procs p).vm i).isUsed = false

/-- What the calls keep. -/
structure FilesInv (t : Tables) : Prop where
  exact : Exact t.ptr t.store.cnt
  pipes : t.store.PipesInv
  mapped : ∀ p i f o, ((t.procs p).vm i).isUsed = true → ((t.procs p).vm i).vfile = some f →
    t.store.files f = some o → o.filetype = .normal
  shape : Shape t.procs

variable {t t' : Tables} {p : Fin numProcess} {f : Nat}

theorem card_slot : Fintype.card Slot + 1 < 2 ^ 32 := by
  rw [Fintype.card_prod, Fintype.card_sum, Fintype.card_fin, Fintype.card_fin, Fintype.card_fin]
  decide

theorem Tables.setProc_procs (g : FilePcb → FilePcb) (q : Fin numProcess) :
    (t.setProc p g).procs q = if q = p then g (t.procs p) else t.procs q := by
  simp only [Tables.setProc, Function.update_apply]

theorem Tables.ptr_setFd (fd : Fin maxOpenFiles) (v : Option Nat) :
    (t.setFd p fd v).ptr = Function.update t.ptr (p, .inl fd) v := by
  funext ⟨q, x⟩
  simp only [Tables.setFd]
  by_cases hq : q = p
  · subst hq
    rcases x with fd' | i
    · by_cases hfd : fd' = fd
      · subst hfd
        simp [Tables.ptr, Tables.setProc_procs]
      · simp [Tables.ptr, Tables.setProc_procs, hfd]
    · simp [Tables.ptr, Tables.setProc_procs]
  · rcases x with fd' | i <;> simp [Tables.ptr, Tables.setProc_procs, hq]

theorem Tables.ptr_setVma (i : Fin maxVmaNum) (v : Vma) :
    (t.setVma p i v).ptr = Function.update t.ptr (p, .inr i)
      (if v.isUsed then v.vfile else none) := by
  funext ⟨q, x⟩
  simp only [Tables.setVma]
  by_cases hq : q = p
  · subst hq
    rcases x with fd | i'
    · simp [Tables.ptr, Tables.setProc_procs]
    · by_cases hi : i' = i
      · subst hi
        simp [Tables.ptr, Tables.setProc_procs]
      · simp [Tables.ptr, Tables.setProc_procs, hi]
  · rcases x with fd | i' <;> simp [Tables.ptr, Tables.setProc_procs, hq]

/-- Fields other than the descriptors and areas do not matter to what the slots point to. -/
theorem Tables.ptr_setProc {g : FilePcb → FilePcb}
    (hofile : (g (t.procs p)).ofile = (t.procs p).ofile)
    (hvm : (g (t.procs p)).vm = (t.procs p).vm) : (t.setProc p g).ptr = t.ptr := by
  funext ⟨q, x⟩
  by_cases hq : q = p
  · subst hq
    rcases x with fd | i <;> simp [Tables.ptr, Tables.setProc_procs, hofile, hvm]
  · rcases x with fd | i <;> simp [Tables.ptr, Tables.setProc_procs, hq]

namespace Shape

variable {procs : Fin numProcess → FilePcb}

/-- The descriptors of a process change: they are cleared, or the process is not idle. -/
theorem setFd (h : Shape t.procs) {fd : Fin maxOpenFiles} {v : Option Nat}
    (hv : v = none ∨ ¬ (t.procs p).state.idle) : Shape (t.setFd p fd v).procs := by
  have hvm : ∀ q, ((t.setFd p fd v).procs q).vm = (t.procs q).vm := by
    intro q
    by_cases hq : q = p <;> simp [Tables.setFd, Tables.setProc_procs, hq]
  have hstate : ∀ q, ((t.setFd p fd v).procs q).state = (t.procs q).state := by
    intro q
    by_cases hq : q = p <;> simp [Tables.setFd, Tables.setProc_procs, hq]
  have hsz : ∀ q, ((t.setFd p fd v).procs q).sz = (t.procs q).sz := by
    intro q
    by_cases hq : q = p <;> simp [Tables.setFd, Tables.setProc_procs, hq]
  refine ⟨?_, ?_, ?_, fun q hi => ⟨fun fd' => ?_, ?_⟩⟩
  · intro q
    rw [hvm]
    exact h.used q
  · intro q
    rw [hvm]
    exact h.free q
  · intro q
    rw [hstate, hsz]
    exact h.sz q
  · rw [hstate] at hi
    have hnone := (h.idle q hi).1
    by_cases hq : q = p
    · subst hq
      have hv := hv.resolve_right (not_not.mpr hi)
      simp [Tables.setFd, Tables.setProc_procs, Function.update_apply, hv, hnone]
    · simp [Tables.setFd, Tables.setProc_procs, hq, hnone]
  · rw [hvm]
    exact (h.idle q (hstate q ▸ hi)).2

/-- A memory area changes: it is dropped, or the process is not idle. -/
theorem setVma (h : Shape t.procs) {i : Fin maxVmaNum} {v : Vma}
    (hv : v.isUsed = false ∧ v.address = 0 ∨
      v.isUsed = true ∧ pageSize ≤ v.address ∧ ¬ (t.procs p).state.idle) :
    Shape (t.setVma p i v).procs := by
  have hofile : ∀ q, ((t.setVma p i v).procs q).ofile = (t.procs q).ofile := by
    intro q
    by_cases hq : q = p <;> simp [Tables.setVma, Tables.setProc_procs, hq]
  have hstate : ∀ q, ((t.setVma p i v).procs q).state = (t.procs q).state := by
    intro q
    by_cases hq : q = p <;> simp [Tables.setVma, Tables.setProc_procs, hq]
  have hsz : ∀ q, ((t.setVma p i v).procs q).sz = (t.procs q).sz := by
    intro q
    by_cases hq : q = p <;> simp [Tables.setVma, Tables.setProc_procs, hq]
  have hvm : ∀ q j, ((t.setVma p i v).procs q).vm j = v ∧ q = p ∨
      ((t.setVma p i v).procs q).vm j = (t.procs q).vm j := by
    intro q j
    by_cases hq : q = p
    · by_cases hj : j = i
      · subst hj
        exact Or.inl ⟨by simp [Tables.setVma, Tables.setProc_procs, hq], hq⟩
      · exact Or.inr (by simp [Tables.setVma, Tables.setProc_procs, hq, hj])
    · exact Or.inr (by simp [Tables.setVma, Tables.setProc_procs, hq])
  refine ⟨fun q j hu => ?_, fun q j hu => ?_, fun q hl => ?_, fun q hi => ⟨?_, fun j => ?_⟩⟩
  · rcases hvm q j with ⟨he, -⟩ | he
    · rw [he] at hu ⊢
      rcases hv with ⟨hf, -⟩ | ⟨-, ha, -⟩
      · rw [hf] at hu
        cases hu
      · exact ha
    · rw [he] at hu ⊢
      exact h.used q j hu
  · rcases hvm q j with ⟨he, -⟩ | he
    · rw [he] at hu ⊢
      rcases hv with ⟨-, ha⟩ | ⟨ht, -⟩
      · exact ha
      · rw [ht] at hu
        cases hu
    · rw [he] at hu ⊢
      exact h.free q j hu
  · rw [hsz]
    exact h.sz q (hstate q ▸ hl)
  · rw [hofile]
    exact (h.idle q (hstate q ▸ hi)).1
  · rw [hstate] at hi
    rcases hvm q j with ⟨he, hq⟩ | he
    · rw [he]
      rcases hv with ⟨hf, -⟩ | ⟨-, -, hn⟩
      · exact hf
      · exact absurd (hq ▸ hi) hn
    · rw [he]
      exact (h.idle q hi).2 j

/-- The state and the size of a process change. -/
theorem setProc (h : Shape t.procs) {g : FilePcb → FilePcb}
    (hofile : (g (t.procs p)).ofile = (t.procs p).ofile)
    (hvm : (g (t.procs p)).vm = (t.procs p).vm)
    (hsz : (g (t.procs p)).state.live = true → pageSize ≤ (g (t.procs p)).sz)
    (hidle : (g (t.procs p)).state.idle →
      (∀ fd, (t.procs p).ofile fd = none) ∧ ∀ i, ((t.procs p).vm i).isUsed = false) :
    Shape (t.setProc p g).procs := by
  have hself : (t.setProc p g).procs p = g (t.procs p) := by simp [Tables.setProc_procs]
  have hother : ∀ q, q ≠ p → (t.setProc p g).procs q = t.procs q := by
    intro q hq
    simp [Tables.setProc_procs, hq]
  refine ⟨fun q => ?_, fun q => ?_, fun q => ?_, fun q => ?_⟩
  all_goals by_cases hq : q = p
  · rw [hq, hself, hvm]
    exact h.used p
  · rw [hother q hq]
    exact h.used q
  · rw [hq, hself, hvm]
    exact h.free p
  · rw [hother q hq]
    exact h.free q
  · rw [hq, hself]
    exact hsz
  · rw [hother q hq]
    exact h.sz q
  · rw [hq, hself, hofile, hvm]
    exact hidle
  · rw [hother q hq]
    exact h.idle q

end Shape

theorem FileStore.cnt_eq_some {st : FileStore} {k : Nat} (h : st.cnt f = some k) :
    ∃ o, st.files f = some o ∧ o.refcnt = k := by
  simpa [FileStore.cnt] using h

namespace FilesInv

/-- The file of a slot is there, and its count is in range. -/
theorem file_of_ptr (h : FilesInv t) {x : Slot} (hx : t.ptr x = some f) :
    ∃ o, t.store.files f = some o ∧ 0 < o.refcnt ∧ o.refcnt + 1 < 2 ^ 32 := by
  obtain ⟨k, hk, hpos, hle⟩ := h.exact.of_ptr hx
  obtain ⟨o, ho, rfl⟩ := FileStore.cnt_eq_some hk
  exact ⟨o, ho, hpos, lt_of_le_of_lt (Nat.add_le_add_right hle 1) card_slot⟩

/-- The reference of a slot is dropped. -/
theorem release (h : FilesInv t) {x : Slot} (hx : t.ptr x = some f) :
    ∃ st', t.store.freeFile f = .ok st' ∧ st'.PipesInv ∧ t.store.Keeps st' ∧
      Exact (Function.update t.ptr x none) st'.cnt := by
  obtain ⟨o, ho, hpos, hlt⟩ := h.file_of_ptr hx
  obtain ⟨st', hrun, hpipes, hkeeps, hcnt⟩ := h.pipes.freeFile ho hpos (by omega)
  refine ⟨st', hrun, hpipes, hkeeps, ?_⟩
  rw [hcnt]
  exact h.exact.drop hx (by rw [FileStore.cnt, ho]; rfl)

/-- A slot gets a reference to the file of another slot. -/
theorem acquire (h : FilesInv t) {x y : Slot} (hx : t.ptr x = none) (hy : t.ptr y = some f) :
    ∃ st', t.store.dup f = .ok st' ∧ st'.PipesInv ∧ t.store.Keeps st' ∧
      Exact (Function.update t.ptr x (some f)) st'.cnt := by
  obtain ⟨o, ho, hpos, hlt⟩ := h.file_of_ptr hy
  obtain ⟨st', hrun, hpipes, hkeeps, hcnt⟩ := h.pipes.dup ho hlt
  refine ⟨st', hrun, hpipes, hkeeps, ?_⟩
  rw [hcnt]
  exact h.exact.share hx (Or.inl (by rw [FileStore.cnt, ho]; rfl))

/-- The areas of `procs` are those of `t`, and the files were there before. -/
theorem mapped_of_keeps (h : FilesInv t) {procs : Fin numProcess → FilePcb} {st' : FileStore}
    (hkeeps : t.store.Keeps st')
    (hvm : ∀ q j g, ((procs q).vm j).isUsed = true → ((procs q).vm j).vfile = some g →
      ∃ q' j', ((t.procs q').vm j').isUsed = true ∧ ((t.procs q').vm j').vfile = some g) :
    ∀ q j g o, ((procs q).vm j).isUsed = true → ((procs q).vm j).vfile = some g →
      st'.files g = some o → o.filetype = .normal := by
  intro q j g o hu hg ho
  obtain ⟨o', ho', -, htype⟩ := hkeeps g o ho
  obtain ⟨q', j', hu', hg'⟩ := hvm q j g hu hg
  rw [htype]
  exact h.mapped q' j' g o' hu' hg' ho'

/-- A descriptor is closed. -/
theorem dropFd (h : FilesInv t) {fd : Fin maxOpenFiles} (hfd : (t.procs p).ofile fd = some f) :
    ∃ st', t.freeFile f = .ok { t with store := st' } ∧
      FilesInv (({ t with store := st' } : Tables).setFd p fd none) := by
  have hx : t.ptr (p, .inl fd) = some f := hfd
  obtain ⟨st', hrun, hpipes, hkeeps, hexact⟩ := h.release hx
  refine ⟨st', by rw [Tables.freeFile, hrun]; rfl, ?_, hpipes, ?_, h.shape.setFd (Or.inl rfl)⟩
  · rw [Tables.ptr_setFd]
    exact hexact
  · refine h.mapped_of_keeps hkeeps fun q j g hu hg => ⟨q, j, ?_⟩
    by_cases hq : q = p <;> simp_all [Tables.setFd, Tables.setProc_procs]

/-- A descriptor gets a reference to the file of a slot. -/
theorem shareFd (h : FilesInv t) {fd : Fin maxOpenFiles} (hfd : (t.procs p).ofile fd = none)
    {y : Slot} (hy : t.ptr y = some f) (hp : ¬ (t.procs p).state.idle) :
    ∃ st', t.store.dup f = .ok st' ∧
      FilesInv (({ t with store := st' } : Tables).setFd p fd (some f)) := by
  have hx : t.ptr (p, .inl fd) = none := hfd
  obtain ⟨st', hrun, hpipes, hkeeps, hexact⟩ := h.acquire hx hy
  refine ⟨st', hrun, ?_, hpipes, ?_, h.shape.setFd (Or.inr hp)⟩
  · rw [Tables.ptr_setFd]
    exact hexact
  · refine h.mapped_of_keeps hkeeps fun q j g hu hg => ⟨q, j, ?_⟩
    by_cases hq : q = p <;> simp_all [Tables.setFd, Tables.setProc_procs]

/-- What the areas point to after one of them changes. -/
theorem vm_setVma {i : Fin maxVmaNum} {v : Vma} {q : Fin numProcess} {j : Fin maxVmaNum} :
    ((t.setVma p i v).procs q).vm j = if q = p ∧ j = i then v else (t.procs q).vm j := by
  by_cases hq : q = p
  · subst hq
    by_cases hj : j = i <;> simp [Tables.setVma, Tables.setProc_procs, hj]
  · simp [Tables.setVma, Tables.setProc_procs, hq]

/-- A used memory area is dropped. -/
theorem dropVma (h : FilesInv t) {i : Fin maxVmaNum} (hi : ((t.procs p).vm i).isUsed = true)
    {v : Vma} (hv : v.isUsed = false) (hv0 : v.address = 0) :
    ∃ st', t.freeOpt ((t.procs p).vm i).vfile = .ok { t with store := st' } ∧
      FilesInv (({ t with store := st' } : Tables).setVma p i v) := by
  have hvm : ∀ q j g, (((t.setVma p i v).procs q).vm j).isUsed = true →
      (((t.setVma p i v).procs q).vm j).vfile = some g →
      ∃ q' j', ((t.procs q').vm j').isUsed = true ∧ ((t.procs q').vm j').vfile = some g := by
    intro q j g hu hg
    rw [vm_setVma] at hu hg
    split at hu
    · rw [hv] at hu
      cases hu
    · rename_i hne
      rw [if_neg hne] at hg
      exact ⟨q, j, hu, hg⟩
  have hshape : Shape (t.setVma p i v).procs := h.shape.setVma (Or.inl ⟨hv, hv0⟩)
  cases hfile : ((t.procs p).vm i).vfile with
  | none =>
    refine ⟨t.store, rfl, ?_, h.pipes, h.mapped_of_keeps FileStore.Keeps.refl hvm, hshape⟩
    have hx : t.ptr (p, .inr i) = none := by simp [Tables.ptr, hfile]
    rw [Tables.ptr_setVma, hv]
    simp only [Bool.false_eq_true, if_false]
    rw [← hx, Function.update_eq_self]
    exact h.exact
  | some f =>
    have hx : t.ptr (p, .inr i) = some f := by simp [Tables.ptr, hi, hfile]
    obtain ⟨st', hrun, hpipes, hkeeps, hexact⟩ := h.release hx
    refine ⟨st', ?_, ?_, hpipes, h.mapped_of_keeps hkeeps hvm, hshape⟩
    · rw [Tables.freeOpt, Tables.freeFile, hrun]
      rfl
    · rw [Tables.ptr_setVma, hv]
      exact hexact

/-- A memory area that is not in use gets a reference to the file of a slot, or to no file. -/
theorem shareVma (h : FilesInv t) {i : Fin maxVmaNum} (hi : ((t.procs p).vm i).isUsed = false)
    {v : Vma} (hv : v.isUsed = true) (hva : pageSize ≤ v.address)
    (hp : ¬ (t.procs p).state.idle)
    (hfile : ∀ f, v.vfile = some f → (∃ y, t.ptr y = some f) ∧
      ∀ o, t.store.files f = some o → o.filetype = .normal) :
    ∃ st', t.dupOpt v.vfile = .ok { t with store := st' } ∧
      FilesInv (({ t with store := st' } : Tables).setVma p i v) := by
  have hx : t.ptr (p, .inr i) = none := by simp [Tables.ptr, hi]
  have hshape : Shape (t.setVma p i v).procs := h.shape.setVma (Or.inr ⟨hv, hva, hp⟩)
  have hmapped : ∀ st', t.store.Keeps st' → ∀ q j g o,
      (((t.setVma p i v).procs q).vm j).isUsed = true →
      (((t.setVma p i v).procs q).vm j).vfile = some g → st'.files g = some o →
      o.filetype = .normal := by
    intro st' hkeeps q j g o hu hg ho
    obtain ⟨o', ho', -, htype⟩ := hkeeps g o ho
    rw [htype]
    rw [vm_setVma] at hu hg
    split at hg
    · exact (hfile g hg).2 o' ho'
    · rename_i hne
      rw [if_neg hne] at hu
      exact h.mapped q j g o' hu hg ho'
  cases hvf : v.vfile with
  | none =>
    refine ⟨t.store, rfl, ?_, h.pipes, hmapped _ FileStore.Keeps.refl, hshape⟩
    rw [Tables.ptr_setVma, hv, hvf]
    simp only [if_true]
    rw [← hx, Function.update_eq_self]
    exact h.exact
  | some f =>
    obtain ⟨⟨y, hy⟩, -⟩ := hfile f hvf
    obtain ⟨st', hrun, hpipes, hkeeps, hexact⟩ := h.acquire hx hy
    refine ⟨st', ?_, ?_, hpipes, hmapped st' hkeeps, hshape⟩
    · rw [Tables.dupOpt, Tables.dupFile, hrun]
      rfl
    · rw [Tables.ptr_setVma, hv, hvf]
      exact hexact

/-- The state and the size of a process change. -/
theorem setProc (h : FilesInv t) {g : FilePcb → FilePcb}
    (hofile : (g (t.procs p)).ofile = (t.procs p).ofile)
    (hvm : (g (t.procs p)).vm = (t.procs p).vm)
    (hsz : (g (t.procs p)).state.live = true → pageSize ≤ (g (t.procs p)).sz)
    (hidle : (g (t.procs p)).state.idle →
      (∀ fd, (t.procs p).ofile fd = none) ∧ ∀ i, ((t.procs p).vm i).isUsed = false) :
    FilesInv (t.setProc p g) := by
  refine ⟨?_, h.pipes, ?_, h.shape.setProc hofile hvm hsz hidle⟩
  · rw [Tables.ptr_setProc hofile hvm]
    exact h.exact
  · refine h.mapped_of_keeps FileStore.Keeps.refl fun q j g' hu hg => ⟨q, j, ?_⟩
    rw [Tables.setProc_procs] at hu hg
    split at hu
    · rename_i hq
      rw [if_pos hq] at hg
      rw [hvm] at hu hg
      exact hq ▸ ⟨hu, hg⟩
    · rename_i hq
      rw [if_neg hq] at hg
      exact ⟨hu, hg⟩

/-- A new file at `f`, which a descriptor points to. -/
theorem newFd (h : FilesInv t) {fd : Fin maxOpenFiles} (hfd : (t.procs p).ofile fd = none)
    (hf : t.store.files f = none) (hp : ¬ (t.procs p).state.idle) {cls : FileClass}
    {filetype : FileTypes} {pipes : Nat → Option PipeEnds}
    (hpipes : ((⟨t.store.files, pipes⟩ : FileStore).create f cls filetype).PipesInv) :
    FilesInv (({ t with store := (⟨t.store.files, pipes⟩ : FileStore).create f cls filetype } :
      Tables).setFd p fd (some f)) := by
  have hx : t.ptr (p, .inl fd) = none := hfd
  refine ⟨?_, hpipes, ?_, h.shape.setFd (Or.inr hp)⟩
  · have hcnt : ((⟨t.store.files, pipes⟩ : FileStore).create f cls filetype).cnt =
        Function.update t.store.cnt f (some (0 + 1)) := FileStore.cnt_update ..
    rw [Tables.ptr_setFd]
    show Exact _ ((⟨t.store.files, pipes⟩ : FileStore).create f cls filetype).cnt
    rw [hcnt]
    exact h.exact.share hx (Or.inr ⟨by rw [FileStore.cnt, hf]; rfl, rfl⟩)
  · intro q j g o hu hg ho
    have hold : ((t.procs q).vm j).isUsed = true ∧ ((t.procs q).vm j).vfile = some g := by
      by_cases hq : q = p <;> simp_all [Tables.setFd, Tables.setProc_procs]
    have hptr : t.ptr (q, .inr j) = some g := by simp [Tables.ptr, hold]
    obtain ⟨o', ho', -⟩ := h.file_of_ptr hptr
    have hgf : g ≠ f := by
      rintro rfl
      rw [hf] at ho'
      cases ho'
    have ho : t.store.files g = some o := by
      simpa [Tables.setFd, Tables.setProc, FileStore.create, hgf] using ho
    exact h.mapped q j g o hold.1 hold.2 ho

/-- A descriptor that `alloc_fd` has found. -/
theorem allocFd_spec (hv : 0 ≤ (t.allocFd p f).1) :
    ∃ fd, (t.procs p).ofile fd = none ∧ (t.allocFd p f).2 = t.setFd p fd (some f) := by
  unfold Tables.allocFd at hv ⊢
  split
  · rename_i fd hfind
    exact ⟨fd, by simpa using List.find?_some hfind, rfl⟩
  · rename_i hnone
    rw [hnone] at hv
    cases hv

theorem allocFdAt_spec {fd : Int} (hv : 0 ≤ (t.allocFdAt p f fd).1) :
    ∃ i, (t.procs p).ofile i = none ∧ (t.allocFdAt p f fd).2 = t.setFd p i (some f) := by
  unfold Tables.allocFdAt at hv ⊢
  cases hi : fdIndex fd with
  | none =>
    rw [hi] at hv
    cases hv
  | some i =>
    rw [hi] at hv
    simp only at hv ⊢
    split
    · exact ⟨i, by assumption, rfl⟩
    · rename_i hne
      rw [if_neg hne] at hv
      cases hv

theorem getOpenFile_spec {fd : Int} (h : t.getOpenFile p fd = some f) :
    ∃ y, t.ptr y = some f := by
  obtain ⟨i, -, hi⟩ := Option.bind_eq_some_iff.mp h
  exact ⟨(p, .inl i), hi⟩

theorem openFile (h : FilesInv t) {v dev : Int} {filetype : FileTypes}
    (hp : (t.procs p).state.live = true) (hf : t.store.files f = none)
    (hrun : t.openFile p f dev filetype = (v, t')) (hv : 0 ≤ v) : FilesInv t' := by
  have ht' : t' = (t.openFile p f dev filetype).2 := by rw [hrun]
  have hv' : 0 ≤ (t.openFile p f dev filetype).1 := by rw [hrun]; exact hv
  rw [Tables.openFile] at ht' hv'
  obtain ⟨fd, hfd, ht⟩ := allocFd_spec hv'
  rw [ht', ht]
  refine h.newFd hfd hf (ProcState.not_idle_of_live hp) ?_
  refine h.pipes.create hf (fun id w => ?_) fun id w hc => ?_
  · split <;> simp
  · split at hc <;> cases hc

/-- The file of a new pipe's read end. -/
theorem newReadEnd (h : FilesInv t) {id : Nat} {fd : Fin maxOpenFiles}
    (hfd : (t.procs p).ofile fd = none) (hf : t.store.files f = none)
    (hp : ¬ (t.procs p).state.idle) (hid : t.store.pipes id = none) :
    FilesInv (({ t with store := (⟨t.store.files, Function.update t.store.pipes id
      (some ⟨true, false⟩)⟩ : FileStore).create f (.pipe id false) .pipe } :
      Tables).setFd p fd
      (some f)) := by
  refine h.newFd hfd hf hp (h.pipes.create hf (fun id' w => ?_) fun id' w hc => ?_)
  · by_cases hi : id' = id
    · subst hi
      cases w <;> simp [FileStore.EndOpen, PipeEnds.isOpen, hid]
    · simp [FileStore.EndOpen, hi, Ne.symm hi]
  · cases hc
    refine ⟨?_, rfl⟩
    rintro ⟨e, he, -⟩
    rw [hid] at he
    cases he

/-- The file of a new pipe's write end. -/
theorem newWriteEnd (h : FilesInv t) {id : Nat} {fd : Fin maxOpenFiles}
    {pipes : Nat → Option PipeEnds} (hfd : (t.procs p).ofile fd = none)
    (hf : t.store.files f = none) (hp : ¬ (t.procs p).state.idle)
    (hid : t.store.pipes id = some ⟨true, false⟩)
    (hpipes : pipes = Function.update t.store.pipes id (some ⟨true, true⟩)) :
    FilesInv (({ t with
      store := (⟨t.store.files, pipes⟩ : FileStore).create f (.pipe id true) .pipe } :
        Tables).setFd p fd (some f)) := by
  subst hpipes
  refine h.newFd hfd hf hp (h.pipes.create hf (fun id' w => ?_) fun id' w hc => ?_)
  · by_cases hi : id' = id
    · subst hi
      cases w <;> simp [FileStore.EndOpen, PipeEnds.isOpen, hid]
    · simp [FileStore.EndOpen, hi, Ne.symm hi]
  · cases hc
    refine ⟨?_, rfl⟩
    rintro ⟨e, he, ho⟩
    rw [hid] at he
    obtain rfl := Option.some.inj he
    cases ho

theorem pipe (h : FilesInv t) {v : Int} {id f0 f1 : Nat} (hp : (t.procs p).state.live = true)
    (hid : t.store.pipes id = none) (hf0 : t.store.files f0 = none)
    (hf1 : t.store.files f1 = none) (hne : f0 ≠ f1)
    (hrun : t.pipe p id f0 f1 = .ok (v, t')) (hv : 0 ≤ v) : FilesInv t' := by
  have hidle := ProcState.not_idle_of_live hp
  unfold Tables.pipe at hrun
  simp only at hrun
  split at hrun
  · obtain ⟨t1, -, hrun⟩ := bind_eq_ok.mp hrun
    obtain ⟨t2, -, hrun⟩ := bind_eq_ok.mp hrun
    obtain ⟨rfl, -⟩ := Prod.mk.inj (Except.ok.inj hrun)
    cases hv
  rename_i ha
  split at hrun
  · obtain ⟨t1, -, hrun⟩ := bind_eq_ok.mp hrun
    obtain ⟨t2, -, hrun⟩ := bind_eq_ok.mp hrun
    obtain ⟨rfl, -⟩ := Prod.mk.inj (Except.ok.inj hrun)
    cases hv
  rename_i hb
  obtain ⟨-, hend⟩ := Prod.mk.inj (Except.ok.inj hrun)
  obtain ⟨fd0, hfd0, ht0⟩ := allocFd_spec (Int.not_lt.mp ha)
  rw [ht0] at hb hend
  obtain ⟨fd1, hfd1, ht1⟩ := allocFd_spec (Int.not_lt.mp hb)
  rw [← hend, ht1]
  -- The read end is there first, and then both.
  have h0 := h.newReadEnd hfd0 hf0 hidle hid
  refine h0.newWriteEnd hfd1 ?_ ?_ (Function.update_self ..) (Function.update_idem ..).symm
  · exact (Function.update_of_ne hne.symm ..).trans hf1
  · simpa [Tables.setFd, Tables.setProc_procs] using hidle

theorem close (h : FilesInv t) {fd v : Int} (hrun : t.close p fd = .ok (v, t')) :
    FilesInv t' := by
  unfold Tables.close at hrun
  split at hrun
  · obtain ⟨-, rfl⟩ := Prod.mk.inj (Except.ok.inj hrun)
    exact h
  · split at hrun
    · obtain ⟨-, rfl⟩ := Prod.mk.inj (Except.ok.inj hrun)
      exact h
    · rename_i hfd
      obtain ⟨st', hfree, h'⟩ := h.dropFd hfd
      rw [hfree, ok_bind] at hrun
      obtain ⟨-, rfl⟩ := Prod.mk.inj (Except.ok.inj hrun)
      exact h'

/-- A descriptor that was free gets a reference to the file of a slot. -/
theorem dupTo (h : FilesInv t) (hp : (t.procs p).state.live = true) {fd : Fin maxOpenFiles}
    (hfd : (t.procs p).ofile fd = none) (hf : ∃ y, t.ptr y = some f) {t' : Tables}
    (hrun : (t.setFd p fd (some f)).dupFile f = .ok t') : FilesInv t' := by
  obtain ⟨y, hy⟩ := hf
  obtain ⟨st', hdup, h'⟩ := h.shareFd hfd hy (ProcState.not_idle_of_live hp)
  have hdup' : (t.setFd p fd (some f)).store.dup f = .ok st' := hdup
  rw [Tables.dupFile, hdup', ok_bind] at hrun
  obtain rfl := Except.ok.inj hrun
  exact h'

theorem dup (h : FilesInv t) {oldfd v : Int} (hp : (t.procs p).state.live = true)
    (hrun : t.dup p oldfd = .ok (v, t')) (hv : 0 ≤ v) : FilesInv t' := by
  unfold Tables.dup at hrun
  split at hrun
  · obtain ⟨-, rfl⟩ := Prod.mk.inj (Except.ok.inj hrun)
    exact h
  · rename_i f hf
    simp only at hrun
    split at hrun
    · obtain ⟨rfl, -⟩ := Prod.mk.inj (Except.ok.inj hrun)
      cases hv
    · rename_i hr
      obtain ⟨fd, hfd, ht⟩ := allocFd_spec (Int.not_lt.mp hr)
      rw [ht] at hrun
      obtain ⟨t1, hdup, hrun⟩ := bind_eq_ok.mp hrun
      obtain ⟨-, rfl⟩ := Prod.mk.inj (Except.ok.inj hrun)
      exact h.dupTo hp hfd (getOpenFile_spec hf) hdup

theorem fdIndex_inj {a b : Int} {i : Fin maxOpenFiles} (ha : fdIndex a = some i)
    (hb : fdIndex b = some i) : a = b := by
  have hval : ∀ {c : Int}, fdIndex c = some i → c = i.val := by
    intro c hc
    unfold fdIndex at hc
    split at hc
    · obtain rfl := Option.some.inj hc
      simp
      omega
    · cases hc
  rw [hval ha, hval hb]

/-- `close` changes one slot. -/
theorem close_other {fd v : Int} (hrun : t.close p fd = .ok (v, t')) {i : Fin maxOpenFiles}
    (hi : fdIndex fd ≠ some i) : (t'.procs p).ofile i = (t.procs p).ofile i ∧
      (t'.procs p).state = (t.procs p).state := by
  unfold Tables.close at hrun
  split at hrun
  · obtain ⟨-, rfl⟩ := Prod.mk.inj (Except.ok.inj hrun)
    exact ⟨rfl, rfl⟩
  · rename_i j hj
    split at hrun
    · obtain ⟨-, rfl⟩ := Prod.mk.inj (Except.ok.inj hrun)
      exact ⟨rfl, rfl⟩
    · obtain ⟨t1, hfree, hrun⟩ := bind_eq_ok.mp hrun
      obtain ⟨st', -, hfree⟩ := bind_eq_ok.mp hfree
      obtain rfl := Except.ok.inj hfree
      obtain ⟨-, rfl⟩ := Prod.mk.inj (Except.ok.inj hrun)
      have hij : i ≠ j := fun hij => hi (hij ▸ hj)
      simp [Tables.setFd, Tables.setProc_procs, hij]

theorem dup2 (h : FilesInv t) {oldfd fd v : Int} (hp : (t.procs p).state.live = true)
    (hrun : t.dup2 p oldfd fd = .ok (v, t')) (hv : 0 ≤ v) : FilesInv t' := by
  unfold Tables.dup2 at hrun
  split at hrun
  · obtain ⟨-, rfl⟩ := Prod.mk.inj (Except.ok.inj hrun)
    exact h
  · rename_i f hf
    split at hrun
    · obtain ⟨-, rfl⟩ := Prod.mk.inj (Except.ok.inj hrun)
      exact h
    · rename_i hne
      split at hrun
      · cases hrun
      · obtain ⟨⟨v₁, t₁⟩, hclose, hrun⟩ := bind_eq_ok.mp hrun
        have h₁ := h.close hclose
        -- The other descriptor of the file is still there.
        obtain ⟨i, hidx, hi⟩ := Option.bind_eq_some_iff.mp hf
        obtain ⟨hold, hstate⟩ := close_other hclose (i := i) fun hfd =>
          hne (fdIndex_inj hfd hidx)
        simp only at hrun
        split at hrun
        · obtain ⟨rfl, -⟩ := Prod.mk.inj (Except.ok.inj hrun)
          cases hv
        · rename_i hr
          obtain ⟨j, hj, ht⟩ := allocFdAt_spec (Int.not_lt.mp hr)
          rw [ht] at hrun
          obtain ⟨t₂, hdup, hrun⟩ := bind_eq_ok.mp hrun
          obtain ⟨-, rfl⟩ := Prod.mk.inj (Except.ok.inj hrun)
          exact h₁.dupTo (hstate ▸ hp) hj ⟨(p, .inl i), hold.trans hi⟩ hdup

theorem dupFdFrom (h : FilesInv t) {v : Int} (hp : (t.procs p).state.live = true)
    (hf : ∃ y, t.ptr y = some f) : ∀ {left : Nat} {i : Int},
      t.dupFdFrom p f left i = .ok (v, t') → 0 ≤ v → FilesInv t' := by
  intro left
  induction left with
  | zero =>
    intro i hrun hv
    obtain ⟨rfl, -⟩ := Prod.mk.inj (Except.ok.inj hrun)
    cases hv
  | succ left ih =>
    intro i hrun hv
    unfold Tables.dupFdFrom at hrun
    simp only at hrun
    split at hrun
    · rename_i hi
      obtain ⟨t₁, hdup, hrun⟩ := bind_eq_ok.mp hrun
      obtain ⟨rfl, rfl⟩ := Prod.mk.inj (Except.ok.inj hrun)
      obtain ⟨j, hj, ht⟩ := allocFdAt_spec (hi ▸ hv)
      rw [ht] at hdup
      exact h.dupTo hp hj hf hdup
    · exact ih hrun hv

theorem fcntlDupFd (h : FilesInv t) {oldfd arg v : Int} (hp : (t.procs p).state.live = true)
    (hrun : t.fcntlDupFd p oldfd arg = .ok (v, t')) (hv : 0 ≤ v) : FilesInv t' := by
  unfold Tables.fcntlDupFd at hrun
  split at hrun
  · obtain ⟨-, rfl⟩ := Prod.mk.inj (Except.ok.inj hrun)
    exact h
  · rename_i f hf
    exact h.dupFdFrom hp (getOpenFile_spec hf) hrun hv

theorem fcntlSetFd (h : FilesInv t) {fd v : Int} (hrun : t.fcntlSetFd p fd = .ok (v, t')) :
    FilesInv t' := by
  unfold Tables.fcntlSetFd at hrun
  split at hrun
  · obtain ⟨-, rfl⟩ := Prod.mk.inj (Except.ok.inj hrun)
    exact h
  · rename_i f _
    split at hrun
    · cases hrun
    · rename_i o ho
      obtain ⟨-, rfl⟩ := Prod.mk.inj (Except.ok.inj hrun)
      obtain ⟨hpipes, hkeeps⟩ := h.pipes.replace ho { o with flCloexec := true } rfl rfl
      refine ⟨?_, hpipes, h.mapped_of_keeps hkeeps fun q j g hu hg => ⟨q, j, hu, hg⟩,
        h.shape⟩
      show Exact t.ptr (⟨_, _⟩ : FileStore).cnt
      rw [FileStore.cnt_update]
      have hsame : (some { o with flCloexec := true } : Option File).map File.refcnt =
          t.store.cnt f := by rw [FileStore.cnt, ho]; rfl
      rw [hsame, Function.update_eq_self]
      exact h.exact

theorem vmAllocSize_le {oldSz newSz : Nat} {ok : Bool} (h : pageSize ≤ oldSz)
    (hne : vmAllocSize oldSz newSz ok ≠ 0) : pageSize ≤ vmAllocSize oldSz newSz ok := by
  unfold vmAllocSize at hne ⊢
  split
  · exact h
  · rename_i hlt
    rw [if_neg hlt] at hne
    split
    · omega
    · rename_i hok
      rw [if_neg hok] at hne
      exact absurd rfl hne

theorem freeVma_spec {i : Fin maxVmaNum} (h : t.freeVma p = some i) :
    ((t.procs p).vm i).isUsed = false := by
  simpa using List.find?_some h

/-- The size of a process in use changes. -/
theorem setSz (h : FilesInv t) {sz : Nat} (hp : (t.procs p).state.live = true)
    (hsz : pageSize ≤ sz) : FilesInv (t.setProc p fun q => { q with sz }) :=
  h.setProc rfl rfl (fun _ => hsz) fun hi => absurd hi (ProcState.not_idle_of_live hp)

theorem mmap (h : FilesInv t) {fd mapSize v : Int} {allocOk copyOk : Bool}
    (hp : (t.procs p).state.live = true)
    (hrun : t.mmap p fd mapSize allocOk copyOk = .ok (v, t')) : FilesInv t' := by
  have hidle := ProcState.not_idle_of_live hp
  have hsz := h.shape.sz p hp
  have hstate : ∀ i w, ((t.setVma p i w).procs p).state.live = true := by
    intro i w
    simpa [Tables.setVma, Tables.setProc_procs] using hp
  unfold Tables.mmap at hrun
  simp only at hrun
  split at hrun
  · split at hrun
    · obtain ⟨-, rfl⟩ := Prod.mk.inj (Except.ok.inj hrun)
      exact h
    · rename_i hne
      split at hrun
      · obtain ⟨-, rfl⟩ := Prod.mk.inj (Except.ok.inj hrun)
        exact h
      · rename_i i hi
        obtain ⟨-, rfl⟩ := Prod.mk.inj (Except.ok.inj hrun)
        obtain ⟨st', hdup, h'⟩ := h.shareVma (freeVma_spec hi)
          (v := ⟨true, (t.procs p).sz, mapSize, none⟩) rfl hsz hidle fun f hf => by cases hf
        obtain rfl : t.store = st' := congrArg Tables.store (Except.ok.inj hdup)
        exact h'.setSz (hstate i _) (vmAllocSize_le hsz hne)
  · split at hrun
    · obtain ⟨-, rfl⟩ := Prod.mk.inj (Except.ok.inj hrun)
      exact h
    · split at hrun
      · cases hrun
      · rename_i f hf
        split at hrun
        · cases hrun
        · rename_i o ho
          split at hrun
          · obtain ⟨-, rfl⟩ := Prod.mk.inj (Except.ok.inj hrun)
            exact h
          · rename_i htype
            split at hrun
            · obtain ⟨-, rfl⟩ := Prod.mk.inj (Except.ok.inj hrun)
              exact h
            · rename_i i hi
              split at hrun
              · obtain ⟨-, rfl⟩ := Prod.mk.inj (Except.ok.inj hrun)
                exact h
              · rename_i hne
                obtain ⟨t₁, hdup₁, hrun⟩ := bind_eq_ok.mp hrun
                obtain ⟨-, rfl⟩ := Prod.mk.inj (Except.ok.inj hrun)
                obtain ⟨st', hdup, h'⟩ := h.shareVma (freeVma_spec hi)
                  (v := ⟨true, (t.procs p).sz, mapSize, some f⟩) rfl hsz hidle fun g hg => by
                    obtain rfl := Option.some.inj hg
                    refine ⟨getOpenFile_spec hf, fun o' ho' => ?_⟩
                    rw [ho] at ho'
                    obtain rfl := Option.some.inj ho'
                    exact not_not.mp htype
                obtain ⟨st₁, hst₁, hdup₁⟩ := bind_eq_ok.mp hdup₁
                obtain ⟨st₂, hst₂, hdup⟩ := bind_eq_ok.mp hdup
                obtain rfl := Except.ok.inj hdup₁
                obtain rfl : st₂ = st' := congrArg Tables.store (Except.ok.inj hdup)
                obtain rfl : st₂ = st₁ := Except.ok.inj (hst₂.symm.trans hst₁)
                exact h'.setSz (hstate i _) (vmAllocSize_le hsz hne)

end FilesInv

end OsKernel.Pm

import OsKernel.Mm.Vmm.CopyFaults
import OsKernel.Pm.DescriptorCalls
import OsKernel.Pm.FileLifetime

/-! When a call on descriptors fails cleanly. -/

namespace OsKernel.Pm

open Fs Hsai Mm Lib.BuddySystem BuddyAllocator

variable {t t' : Tables} {p : Fin numProcess} {f : Nat} {o : File}

/-- The files of a new pipe that are freed again leave nothing behind. -/
theorem FileStore.createPipe_free {st : FileStore} (id : Nat) {f0 f1 : Nat}
    (h0 : st.files f0 = none) (h1 : st.files f1 = none) (hne : f0 ≠ f1) : ∃ st₁ st₂,
      (st.createPipe id f0 f1).freeFile f0 = .ok st₁ ∧
      st₁.freeFile f1 = .ok st₂ ∧ st₂.cnt = st.cnt := by
  have hfile0 : (st.createPipe id f0 f1).files f0 =
      some ⟨.pipe id false, .pipe, 1, false, false⟩ := by
    simp [FileStore.createPipe, FileStore.create, hne]
  have hrun0 : (st.createPipe id f0 f1).freeFile f0 =
      .ok ⟨Function.update (st.createPipe id f0 f1).files f0 none,
      Function.update (st.createPipe id f0 f1).pipes id (some ⟨false, true⟩)⟩ := by
    rw [FileStore.freeFile, hfile0]
    simp [FileStore.delete, FileStore.closePipe, FileStore.createPipe, FileStore.create,
      PipeEnds.close]
  refine ⟨_, ⟨Function.update (Function.update (st.createPipe id f0 f1).files f0 none) f1 none,
    Function.update (Function.update (st.createPipe id f0 f1).pipes id (some ⟨false, true⟩))
    id none⟩, hrun0, ?_, ?_⟩
  · rw [FileStore.freeFile]
    simp [FileStore.delete, FileStore.closePipe, FileStore.createPipe, FileStore.create,
      PipeEnds.close, hne.symm]
  · funext f
    by_cases hf1 : f = f1
    · subst hf1
      simp [FileStore.cnt, h1]
    · by_cases hf0 : f = f0
      · subst hf0
        simp [FileStore.cnt, h0, hf1]
      · simp [FileStore.cnt, FileStore.createPipe, FileStore.create, hf0, hf1]

namespace Tables

theorem SameFiles.refl : t.SameFiles t := ⟨fun _ => rfl, rfl⟩

theorem failsClean_ok {r : Int} : t.FailsClean (.ok (r, t')) ↔ (r < 0 → t.SameFiles t') := by
  constructor
  · exact fun h hr => h.2 r t' rfl hr
  · intro h
    refine ⟨fun what he => (by cases he), fun r₁ t₁ he hr => ?_⟩
    obtain ⟨rfl, rfl⟩ := Prod.mk.inj (Except.ok.inj he)
    exact h hr

theorem failsClean_same {r : Int} : t.FailsClean (.ok (r, t)) := failsClean_ok.mpr fun _ => .refl

theorem failsClean_of_nonneg {r : Int × Tables} (hr : 0 ≤ r.1) : t.FailsClean (.ok r) :=
  failsClean_ok.mpr fun h => absurd h (by omega)

theorem failsClean_panic {message : String} : t.FailsClean (.error (.panic message)) :=
  ⟨fun _ he => (by cases he), fun _ _ he => (by cases he)⟩

theorem not_failsClean_undefined {what : String} : ¬t.FailsClean (.error (.undefined what)) :=
  fun h => h.1 what rfl

/-! ### Searching a descriptor -/

theorem allocFd_free : DescriptorCall.HasFree t p 0 ↔ 0 ≤ (t.allocFd p f).1 := by
  constructor
  · rintro ⟨fd, -, hfd⟩
    exact allocFd_of_free fd hfd
  · intro h
    obtain ⟨fd, hfd, -⟩ := FilesInv.allocFd_spec h
    exact ⟨fd, Int.natCast_nonneg _, hfd⟩

theorem allocFd_full (h : (t.allocFd p f).1 < 0) : t.allocFd p f = (-1, t) := by
  unfold allocFd at h ⊢
  split at h
  · next fd _ =>
    have := Int.natCast_nonneg fd.val
    omega
  · rfl

theorem fdIndex_of_inRange {fd : Int} (h : DescriptorCall.InRange fd) :
    fdIndex fd = some ⟨fd.toNat, by have := h.1; have := h.2; omega⟩ := dif_pos h

theorem fdIndex_none {fd : Int} (h : ¬DescriptorCall.InRange fd) : fdIndex fd = none := dif_neg h

theorem fdIndex_natCast (i : Fin maxOpenFiles) : fdIndex i.val = some i := by
  rw [fdIndex_of_inRange ⟨Int.natCast_nonneg _, by have := i.isLt; omega⟩]
  simp

theorem dupFile_ok (h : t.store.files f = some o) :
    t.dupFile f = .ok { t with store := { t.store with
    files := Function.update t.store.files f
      (some { o with refcnt := (o.refcnt + 1) % 2 ^ 32 }) } } := by
  rw [dupFile, FileStore.dup, h]
  rfl

/-- The loop of `F_DUPFD` from a negative descriptor counts a reference when it comes to -1. -/
theorem dupFdFrom_negative {left : Nat} {i : Int} (hi : i < 0) (hleft : -i ≤ left) :
    t.dupFdFrom p f left i = (t.dupFile f).map fun t => (-1, t) := by
  induction left generalizing i with
  | zero => omega
  | succ left ih =>
    have hnone : fdIndex i = none := fdIndex_none fun h => by have := h.1; omega
    simp only [dupFdFrom, allocFdAt, hnone]
    split
    · next heq =>
      subst heq
      cases t.dupFile f <;> rfl
    · exact ih (by omega) (by omega)

/-- The loop of `F_DUPFD` takes the first free descriptor, or fails without one. -/
theorem dupFdFrom_found {left : Nat} {i : Int} (hi : 0 ≤ i)
    (hleft : left = (maxOpenFiles - i).toNat) (hf : t.store.files f = some o) :
    (∃ (fd : Fin maxOpenFiles) (t' : Tables), i ≤ fd.val ∧ (t.procs p).ofile fd = none ∧
      (t.setFd p fd (some f)).dupFile f = .ok t' ∧ t.dupFdFrom p f left i = .ok (fd.val, t')) ∨
    (¬DescriptorCall.HasFree t p i ∧ t.dupFdFrom p f left i = .ok (-1, t)) := by
  induction left generalizing i with
  | zero =>
    refine .inr ⟨?_, rfl⟩
    rintro ⟨fd, hfd, -⟩
    have := fd.isLt
    omega
  | succ left ih =>
    have hrange : DescriptorCall.InRange i := ⟨hi, by omega⟩
    obtain ⟨j, rfl⟩ : ∃ j : Fin maxOpenFiles, (j.val : Int) = i :=
      ⟨⟨i.toNat, by have := hrange.2; omega⟩, by simp [hi]⟩
    simp only [dupFdFrom, allocFdAt, fdIndex_natCast]
    by_cases hfree : (t.procs p).ofile j = none
    · refine .inl ⟨j, _, Int.le_refl _, hfree, dupFile_ok hf, ?_⟩
      simp only [if_pos hfree, if_true]
      rw [dupFile_ok (t := t.setFd p j (some f)) hf]
      rfl
    · have hne : ¬(-1 : Int) = j.val := by have := Int.natCast_nonneg j.val; omega
      simp only [if_neg hfree, if_neg hne]
      rcases ih (i := j.val + 1) (by omega)
        (by omega) with ⟨fd, t', hle, hfd, hdup, hrun⟩ | ⟨hnone, hrun⟩
      · exact .inl ⟨fd, t', by omega, hfd, hdup, hrun⟩
      · refine .inr ⟨?_, hrun⟩
        rintro ⟨fd, hle, hfd⟩
        refine hnone ⟨fd, ?_, hfd⟩
        have hj : fd ≠ j := fun h => hfree (h ▸ hfd)
        have := Fin.val_ne_of_ne hj
        omega

/-! ### The calls -/

theorem openat_clean_iff {dirFd : Int} {search : Option Nat → Option (Int × FileTypes)}
    (hf : t.store.files f = none) : t.FailsClean (.ok (t.openat p dirFd search f)) ↔
      search (if dirFd = atFdcwd then none else t.getOpenFile p dirFd) = none ∨
        DescriptorCall.HasFree t p 0 := by
  unfold openat
  cases search (if dirFd = atFdcwd then none else t.getOpenFile p dirFd) with
  | none => exact iff_of_true failsClean_same (.inl rfl)
  | some r =>
    obtain ⟨dev, filetype⟩ := r
    simp only [openFile, reduceCtorEq, false_or]
    generalize hnew : ({ t with store := _ } : Tables) = t₁
    have hprocs : t₁.procs = t.procs := by rw [← hnew]
    have hfree : DescriptorCall.HasFree t p 0 ↔ 0 ≤ (t₁.allocFd p f).1 := by
      rw [← allocFd_free, DescriptorCall.HasFree, DescriptorCall.HasFree, hprocs]
    rw [hfree]
    constructor
    · intro h
      by_contra hneg
      rw [allocFd_full (by omega)] at h
      have hcnt := congrFun (failsClean_ok.mp h (by decide)).2 f
      rw [← hnew] at hcnt
      simp [FileStore.cnt, FileStore.create, hf] at hcnt
    · exact fun h => failsClean_of_nonneg h

theorem dup_clean (h : FilesInv t) (oldfd : Int) : t.FailsClean (t.dup p oldfd) := by
  unfold dup
  cases hopen : t.getOpenFile p oldfd with
  | none => exact failsClean_same
  | some f =>
    obtain ⟨y, hy⟩ := FilesInv.getOpenFile_spec hopen
    obtain ⟨o, ho, -, -⟩ := h.file_of_ptr hy
    simp only
    split
    · next hneg =>
      rw [allocFd_full hneg]
      exact failsClean_same
    · next hpos =>
      obtain ⟨fd, -, hset⟩ := FilesInv.allocFd_spec (show 0 ≤ (t.allocFd p f).1 by omega)
      rw [hset, dupFile_ok (t := t.setFd p fd (some f)) ho, ok_bind]
      exact failsClean_of_nonneg (by omega)

/-- `close` in front of the copy frees the descriptor, and no file with another one. -/
theorem close_free (h : FilesInv t) {i j : Fin maxOpenFiles} (hne : j ≠ i)
    (hj : (t.procs p).ofile j = some f) : ∃ t', t.close p i.val = .ok (0, t') ∧
      (t'.procs p).ofile i = none ∧ ∃ o, t'.store.files f = some o := by
  unfold close
  rw [fdIndex_natCast]
  simp only
  cases hi : (t.procs p).ofile i with
  | none =>
    obtain ⟨o, ho, -, -⟩ := h.file_of_ptr (x := (p, .inl j)) hj
    exact ⟨t, rfl, hi, o, ho⟩
  | some g =>
    obtain ⟨st', hrun, hinv⟩ := h.dropFd hi
    have hj' : ((({ t with store := st' } : Tables).setFd p i none).procs p).ofile j = some f := by
      simpa [setFd, setProc_procs, hne] using hj
    obtain ⟨o, ho, -, -⟩ := hinv.file_of_ptr (x := (p, .inl j)) hj'
    simp only [hrun, ok_bind]
    exact ⟨_, rfl, by simp [setFd, setProc_procs], o, ho⟩

theorem dup2_clean_iff (h : FilesInv t) {oldfd fd : Int} :
    t.FailsClean (t.dup2 p oldfd fd) ↔ t.getOpenFile p oldfd = none ∨
      DescriptorCall.InRange fd := by
  unfold dup2
  cases hopen : t.getOpenFile p oldfd with
  | none => exact iff_of_true failsClean_same (.inl rfl)
  | some f =>
    obtain ⟨j, hj, hfile⟩ := Option.bind_eq_some_iff.mp hopen
    have hold : DescriptorCall.InRange oldfd := by
      by_contra hout
      rw [fdIndex_none hout] at hj
      cases hj
    simp only [reduceCtorEq, false_or]
    by_cases hsame : fd = oldfd
    · rw [if_pos hsame]
      exact iff_of_true failsClean_same (hsame ▸ hold)
    · rw [if_neg hsame]
      by_cases hrange : DescriptorCall.InRange fd
      · refine iff_of_true ?_ hrange
        obtain ⟨i, rfl⟩ : ∃ i : Fin maxOpenFiles, (i.val : Int) = fd :=
          ⟨⟨fd.toNat, by have := hrange.1; have := hrange.2; omega⟩, by simp [hrange.1]⟩
        rw [fdIndex_natCast]
        have hne : j ≠ i := by
          rintro rfl
          exact hsame (FilesInv.fdIndex_inj (fdIndex_natCast j) hj)
        obtain ⟨t', hclose, hnone, o, ho⟩ := close_free h hne hfile
        have hpos : ¬(i.val : Int) < 0 := by have := Int.natCast_nonneg i.val; omega
        simp only [reduceCtorEq, if_false, hclose, ok_bind, allocFdAt, fdIndex_natCast, hnone,
          if_true, hpos]
        rw [dupFile_ok (t := t'.setFd p i (some f)) ho, ok_bind]
        exact failsClean_of_nonneg (Int.natCast_nonneg _)
      · rw [fdIndex_none hrange]
        exact iff_of_false not_failsClean_undefined hrange

theorem fcntlDupFd_clean_iff (h : FilesInv t) {oldfd arg : Int} :
    t.FailsClean (t.fcntlDupFd p oldfd arg) ↔ t.getOpenFile p oldfd = none ∨ 0 ≤ arg := by
  unfold fcntlDupFd
  cases hopen : t.getOpenFile p oldfd with
  | none => exact iff_of_true failsClean_same (.inl rfl)
  | some f =>
    obtain ⟨y, hy⟩ := FilesInv.getOpenFile_spec hopen
    obtain ⟨o, ho, -, hlt⟩ := h.file_of_ptr hy
    simp only [reduceCtorEq, false_or]
    by_cases harg : 0 ≤ arg
    · refine iff_of_true ?_ harg
      rcases dupFdFrom_found harg rfl ho with ⟨fd, t', -, -, -, hrun⟩ | ⟨-, hrun⟩
      · rw [hrun]
        exact failsClean_of_nonneg (Int.natCast_nonneg _)
      · rw [hrun]
        exact failsClean_same
    · refine iff_of_false (fun hclean => ?_) harg
      rw [dupFdFrom_negative (by omega) (by omega), dupFile_ok ho] at hclean
      have hcnt := congrFun (failsClean_ok.mp hclean (by decide)).2 f
      simp only [FileStore.cnt, Function.update_self, ho, Option.map_some, Nat.mod_eq_of_lt hlt,
        Option.some.injEq] at hcnt
      omega

theorem fcntlDupFdCloexec_clean_iff (h : FilesInv t) {oldfd arg : Int} :
    t.FailsClean (t.fcntlDupFdCloexec p oldfd arg) ↔
      t.getOpenFile p oldfd = none ∨ 0 ≤ arg ∧ DescriptorCall.HasFree t p arg := by
  unfold fcntlDupFdCloexec
  cases hopen : t.getOpenFile p oldfd with
  | none => exact iff_of_true failsClean_same (.inl rfl)
  | some f =>
    obtain ⟨y, hy⟩ := FilesInv.getOpenFile_spec hopen
    obtain ⟨o, ho, -, -⟩ := h.file_of_ptr hy
    have hminus : ∀ t' : Tables, t'.getOpenFile p (-1) = none := fun _ => rfl
    simp only [reduceCtorEq, false_or]
    by_cases harg : 0 ≤ arg
    · rcases dupFdFrom_found harg rfl ho with
        ⟨fd, t', hle, hfd, hdup, hrun⟩ | ⟨hnone, hrun⟩
      · refine iff_of_true ?_ ⟨harg, fd, hle, hfd⟩
        rw [dupFile_ok (t := t.setFd p fd (some f)) ho] at hdup
        obtain rfl := Except.ok.inj hdup
        have hget : (t.setFd p fd (some f)).getOpenFile p fd.val = some f := by
          rw [getOpenFile, fdIndex_natCast]
          simp [setFd, setProc_procs]
        simp only [hrun, ok_bind]
        rw [show ∀ st : FileStore,
          ({ t.setFd p fd (some f) with store := st } : Tables).getOpenFile p fd.val =
          (t.setFd p fd (some f)).getOpenFile p fd.val from fun _ => rfl, hget]
        simp only [Function.update_self]
        exact failsClean_of_nonneg (Int.natCast_nonneg _)
      · refine iff_of_false ?_ fun h => hnone h.2
        simp only [hrun, ok_bind, hminus]
        exact not_failsClean_undefined
    · refine iff_of_false ?_ fun h => harg h.1
      rw [dupFdFrom_negative (by omega) (by omega), dupFile_ok ho]
      exact not_failsClean_undefined

theorem sysSplice_clean_iff (h : FilesInv t) {fdIn fdOut moved : Int} :
    t.FailsClean (t.sysSplice p fdIn fdOut moved) ↔
      DescriptorCall.InRange fdIn ∧ DescriptorCall.InRange fdOut := by
  unfold sysSplice
  by_cases hin : DescriptorCall.InRange fdIn
  · by_cases hout : DescriptorCall.InRange fdOut
    · refine iff_of_true ?_ ⟨hin, hout⟩
      rw [fdIndex_of_inRange hin, fdIndex_of_inRange hout]
      simp only
      split
      · next fileIn fileOut hi ho =>
        obtain ⟨a, ha, -, -⟩ := h.file_of_ptr (x := (p, .inl _)) hi
        obtain ⟨b, hb, -, -⟩ := h.file_of_ptr (x := (p, .inl _)) ho
        simp only [ha, hb]
        split
        · exact failsClean_same
        · exact failsClean_same
      · exact failsClean_same
    · rw [fdIndex_none hout]
      refine iff_of_false ?_ fun h => hout h.2
      cases fdIndex fdIn <;> exact not_failsClean_undefined
  · rw [fdIndex_none hin]
    exact iff_of_false not_failsClean_undefined fun h => hin h.1

/-- `pipe` fails cleanly. -/
theorem pipe_clean (id : Nat) {f0 f1 : Nat} (h0 : t.store.files f0 = none)
    (h1 : t.store.files f1 = none) (hne : f0 ≠ f1) :
    ∃ r t', t.pipe p id f0 f1 = .ok (r, t') ∧ (r < 0 → t.SameFiles t') := by
  obtain ⟨st₁, st₂, hfree0, hfree1, hcnt⟩ := FileStore.createPipe_free id h0 h1 hne
  unfold pipe
  simp only
  generalize hnew : ({ t with store := t.store.createPipe id f0 f1 } : Tables) = t₁
  have hback : ((do
      let t ← t₁.freeFile f0
      let t ← t.freeFile f1
      return (-1, t)) : Except Fault (Int × Tables)) = .ok (-1, { t with store := st₂ }) := by
    rw [← hnew, freeFile]
    simp only [hfree0, ok_bind, pure, Except.pure]
    rw [freeFile]
    simp only [hfree1, ok_bind, pure, Except.pure]
  split
  · exact ⟨_, _, hback, fun _ => ⟨fun _ => rfl, hcnt⟩⟩
  · split
    · exact ⟨_, _, hback, fun _ => ⟨fun _ => rfl, hcnt⟩⟩
    · exact ⟨0, _, rfl, fun h => absurd h (by decide)⟩

theorem intBytes_length (v : Int) : (intBytes v).length = 4 := by simp [intBytes]

section

variable {reg : Region} {arch : Arch} {k : Kernel BuddyAllocator} {B : Blocks}
  {Base : Nat → Nat → Prop} {ι : Type}
  {W : Spaces ι} {i : ι} {A : AddrSpace}

/-- Where `_sys_pipe` has read the place of the descriptors, it does not fail to store them. -/
theorem sysPipe_clean (H : World reg arch k B Base W) (hw : reg.InWindow arch) (hi : W i = some A)
    (hb : A.base = 0) (ho : A.Owned reg arch) {addr id f0 f1 : Nat} (haddr : addr < 2 ^ 64)
    (h0 : t.store.files f0 = none) (h1 : t.store.files f1 = none) (hne : f0 ≠ f1) :
    t.FailsClean ((t.sysPipe p arch buddyPages k ⟨A.root, true⟩ addr id f0 f1).map fun r =>
      (r.1, r.2.1)) := by
  unfold sysPipe
  cases hin : copyIn arch buddyPages k ⟨A.root, true⟩ addr 8 with
  | error e =>
    obtain ⟨message, rfl⟩ := copyInLoop_error hin
    exact failsClean_panic
  | ok fd =>
    obtain ⟨r, dst⟩ := fd
    obtain ⟨v, t', hpipe, hsame⟩ : ∃ v t', t.pipe p id f0 f1 = .ok (v, t') ∧
        (v < 0 → t.SameFiles t') :=
      pipe_clean id h0 h1 hne
    simp only [ok_bind, hpipe]
    split
    · exact failsClean_same
    · next hr =>
      split
      · next hv => exact failsClean_ok.mpr fun _ => hsame hv
      · generalize hfds : intBytes _ ++ intBytes _ = bytes
        have hlen : bytes.length = 8 := by
          rw [← hfds, List.length_append, intBytes_length, intBytes_length]
        cases hout : copyout arch buddyPages k ⟨A.root, true⟩ addr bytes with
        | error e =>
          obtain ⟨message, rfl⟩ := copyoutLoop_error hout
          exact failsClean_panic
        | ok c =>
          obtain ⟨r', k'⟩ := c
          have hstored := H.copyout_of_copyIn hw hi hb ho haddr (hlen ▸ hin) (by omega) hout
          simp only [ok_bind]
          rw [if_neg (by omega)]
          exact failsClean_of_nonneg (Int.le_refl 0)

end

end Tables

/-- A call on descriptors does nothing undefined and leaves no trace when it fails, if and only if
`open` finds a descriptor for its new file, `dup2` and `splice` are called with indices of `_ofile`,
and `fcntl` with one that is not negative and, for `F_DUPFD_CLOEXEC`, has a free one behind it. -/
theorem descriptor_calls_clean_iff {ι : Type} (reg : Region) (arch : Arch) (hw : reg.InWindow arch)
    (k : Kernel BuddyAllocator) (B : Blocks) (Base : Nat → Nat → Prop) (W : Spaces ι)
    (H : World reg arch k B Base W) (i : ι) (A : AddrSpace) (hi : W i = some A) (hb : A.base = 0)
    (ho : A.Owned reg arch) (t : Tables) (h : FilesInv t) (p : Fin numProcess) (c : DescriptorCall)
    (hc : c.Valid t) : t.FailsClean (c.run arch buddyPages k ⟨A.root, true⟩ t p) ↔
      c.Ok t p := by
  cases c with
  | openat dirFd search f => exact Tables.openat_clean_iff hc
  | pipe addr id f0 f1 =>
    obtain ⟨haddr, -, h0, h1, hne⟩ := hc
    exact iff_of_true (Tables.sysPipe_clean H hw hi hb ho haddr h0 h1 hne) trivial
  | dup oldfd => exact iff_of_true (Tables.dup_clean h oldfd) trivial
  | dup2 oldfd fd => exact Tables.dup2_clean_iff h
  | dupFd oldfd arg => exact Tables.fcntlDupFd_clean_iff h
  | dupFdCloexec oldfd arg => exact Tables.fcntlDupFdCloexec_clean_iff h
  | splice fdIn fdOut moved => exact Tables.sysSplice_clean_iff h

/-- The init process makes a pipe. -/
theorem descriptor_calls_clean_sample : ∃ (k : Kernel BuddyAllocator) (pt : PageTable),
    (Tables.start 0 4096 10 11 12).FailsClean
      ((DescriptorCall.pipe 0x10000 7 20 21).run .riscv buddyPages k pt
        (Tables.start 0 4096 10 11 12) 0) := by
  obtain ⟨k, B, Base, A, q, H, hb, ho, -, -⟩ := sample_user 16 (by decide)
  exact ⟨k, ⟨A.root, true⟩,
    (descriptor_calls_clean_iff sampleRegion .riscv sampleRegion_inWindow k B Base _ H () A rfl
    hb ho (Tables.start 0 4096 10 11 12)
    (FilesInv.start (by decide) (by decide) (by decide) (by decide)) 0
    (.pipe 0x10000 7 20 21) ⟨by decide, rfl, rfl, rfl, by decide⟩).mpr trivial⟩

/-- `dup2( 0, 1024 )` reads past the end of `_ofile`, and `fcntl( 0, F_DUPFD, -1 )` returns -1 with
one more reference to the file of the descriptor 0. -/
theorem descriptor_calls_unclean : FilesReach 0 (Tables.start 0 4096 10 11 12) ∧
    (Tables.start 0 4096 10 11 12).dup2 0 0 1024 =
    .error (.undefined "_ofile: read out of bounds") ∧
    (∃ t', (Tables.start 0 4096 10 11 12).fcntlDupFd 0 0 (-1) = .ok (-1, t') ∧
      t'.store.cnt 10 = some 2 ∧ (Tables.start 0 4096 10 11 12).store.cnt 10 = some 1) ∧
    ¬(Tables.start 0 4096 10 11 12).FailsClean ((Tables.start 0 4096 10 11 12).dup2 0 0 1024) ∧
    ¬(Tables.start 0 4096 10 11 12).FailsClean
      ((Tables.start 0 4096 10 11 12).fcntlDupFd 0 0 (-1)) := by
  have hreach : FilesReach 0 (Tables.start 0 4096 10 11 12) :=
    .start 4096 10 11 12 (by decide) (by decide) (by decide) (by decide)
  have hinv := FilesInv.reach hreach
  have hopen : (Tables.start 0 4096 10 11 12).getOpenFile 0 0 = some 10 := rfl
  have hdup2 : (Tables.start 0 4096 10 11 12).dup2 0 0 1024 =
      .error (.undefined "_ofile: read out of bounds") := by
    rw [Tables.dup2, hopen]
    rfl
  refine ⟨hreach, hdup2, ?_, ?_, ?_⟩
  · rw [Tables.fcntlDupFd, hopen]
    simp only
    rw [Tables.dupFdFrom_negative (by decide) (by decide),
      Tables.dupFile_ok (o := ⟨.device, .device, 1, false, true⟩) rfl]
    exact ⟨_, rfl, rfl, rfl⟩
  · rw [hdup2]
    exact Tables.not_failsClean_undefined
  · rw [Tables.fcntlDupFd_clean_iff hinv, hopen]
    decide

end OsKernel.Pm

import OsKernel.Pm.FileRefs

/-! References over the life of a process: `fork` copies them, `execve` drops some of them and
`exit_proc` all of them.  In every state of a run the counts are exact. -/

namespace OsKernel.Pm
open Fs Hsai RefCount

variable {t t' : Tables} {p np : Fin numProcess}

namespace FilesInv

theorem munmap (h : FilesInv t) {va : Nat} {v : Int}
    (hva : ∃ i, ((t.procs p).vm i).isUsed = true ∧ ((t.procs p).vm i).address = va)
    (hrun : t.munmap p va = .ok (v, t')) : FilesInv t' := by
  obtain ⟨j, hj, rfl⟩ := hva
  have hle := h.shape.used p j hj
  unfold Tables.munmap at hrun
  split at hrun
  · obtain ⟨-, rfl⟩ := Prod.mk.inj (Except.ok.inj hrun)
    exact h
  · rename_i i hfind
    -- The area that is found has an address, so it is in use.
    have hi : ((t.procs p).vm i).isUsed = true := by
      have hai : ((t.procs p).vm i).address = pageRoundDown ((t.procs p).vm j).address := by
        simpa using List.find?_some hfind
      by_contra hno
      rw [h.shape.free p i (by simpa using hno)] at hai
      unfold pageRoundDown pageSize at *
      omega
    obtain ⟨st', hfree, h'⟩ := h.dropVma hi
      (v := { (t.procs p).vm i with isUsed := false, address := 0 }) rfl rfl
    simp only [hfree, ok_bind] at hrun
    obtain ⟨-, rfl⟩ := Prod.mk.inj (Except.ok.inj hrun)
    exact h'

/-- What `fork` of `p` to `np` keeps while it copies: `vs` and `fds` are the areas and descriptors
it has not looked at. -/
structure Copying (p np : Fin numProcess) (vs : List (Fin maxVmaNum))
    (fds : List (Fin maxOpenFiles)) (t : Tables) : Prop where
  inv : FilesInv t
  state : (t.procs np).state = .used
  sz : pageSize ≤ (t.procs np).sz
  vs_nodup : vs.Nodup
  fds_nodup : fds.Nodup
  vm : ∀ i ∈ vs, ((t.procs np).vm i).isUsed = false
  ofile : ∀ fd ∈ fds, (t.procs np).ofile fd = none

theorem Copying.not_idle {vs : List (Fin maxVmaNum)} {fds : List (Fin maxOpenFiles)}
    (h : Copying p np vs fds t) : ¬ (t.procs np).state.idle := by
  rw [h.state]
  rintro (h | h) <;> cases h

theorem Copying.copyVma {i : Fin maxVmaNum} {vs : List (Fin maxVmaNum)}
    {fds : List (Fin maxOpenFiles)} (h : Copying p np (i :: vs) fds t) :
    ∃ t', Tables.copyVma p np t i = .ok t' ∧ Copying p np vs fds t' := by
  obtain ⟨hi, hnodup⟩ := List.nodup_cons.mp h.vs_nodup
  unfold Tables.copyVma
  by_cases hu : ((t.procs p).vm i).isUsed = true
  · obtain ⟨st', hdup, h'⟩ := h.inv.shareVma (p := np) (h.vm i List.mem_cons_self) hu
      (h.inv.shape.used p i hu) h.not_idle fun f hf =>
        ⟨⟨(p, .inr i), by simp [Tables.ptr, hu, hf]⟩,
          fun o ho => h.inv.mapped p i f o hu hf ho⟩
    simp only [hu, if_true, hdup, ok_bind]
    refine ⟨_, rfl, h', ?_, ?_, hnodup, h.fds_nodup, fun j hj => ?_, ?_⟩
    · simpa [Tables.setVma, Tables.setProc_procs] using h.state
    · simpa [Tables.setVma, Tables.setProc_procs] using h.sz
    · have hji : j ≠ i := fun hji => hi (hji ▸ hj)
      simpa [Tables.setVma, Tables.setProc_procs, hji] using h.vm j (List.mem_cons_of_mem _ hj)
    · simpa [Tables.setVma, Tables.setProc_procs] using h.ofile
  · simp only [hu]
    exact ⟨t, rfl, h.inv, h.state, h.sz, hnodup, h.fds_nodup,
      fun j hj => h.vm j (List.mem_cons_of_mem _ hj), h.ofile⟩

theorem Copying.copyFd {i : Fin maxOpenFiles} {vs : List (Fin maxVmaNum)}
    {fds : List (Fin maxOpenFiles)} (h : Copying p np vs (i :: fds) t) :
    ∃ t', Tables.copyFd p np t i = .ok t' ∧ Copying p np vs fds t' := by
  obtain ⟨hi, hnodup⟩ := List.nodup_cons.mp h.fds_nodup
  unfold Tables.copyFd
  cases hf : (t.procs p).ofile i with
  | none =>
    exact ⟨t, rfl, h.inv, h.state, h.sz, h.vs_nodup, hnodup, h.vm,
      fun j hj => h.ofile j (List.mem_cons_of_mem _ hj)⟩
  | some f =>
    obtain ⟨st', hdup, h'⟩ := h.inv.shareFd (p := np) (h.ofile i List.mem_cons_self)
      (y := (p, .inl i)) hf h.not_idle
    simp only [Tables.dupFile, hdup, ok_bind]
    refine ⟨_, rfl, h', ?_, ?_, h.vs_nodup, hnodup, ?_, fun j hj => ?_⟩
    · simpa [Tables.setFd, Tables.setProc_procs] using h.state
    · simpa [Tables.setFd, Tables.setProc_procs] using h.sz
    · simpa [Tables.setFd, Tables.setProc_procs] using h.vm
    · have hji : j ≠ i := fun hji => hi (hji ▸ hj)
      simpa [Tables.setFd, Tables.setProc_procs, hji] using h.ofile j (List.mem_cons_of_mem _ hj)

theorem fork (h : FilesInv t) (hp : (t.procs p).state.live = true)
    (hnp : (t.procs np).state = .unused) : ∃ t', t.fork p np = .ok t' ∧ FilesInv t' := by
  obtain ⟨hofile, hvm⟩ := h.shape.idle np (Or.inl hnp)
  have h0 : Copying p np (List.finRange maxVmaNum) (List.finRange maxOpenFiles)
      (t.setProc np fun q => { q with state := .used, sz := (t.procs p).sz }) := by
    refine ⟨h.setProc rfl rfl (fun hl => by cases hl) fun hi => ?_, ?_, ?_, List.nodup_finRange _,
      List.nodup_finRange _, ?_, ?_⟩
    · rcases hi with hi | hi <;> cases hi
    · simp [Tables.setProc_procs]
    · simpa [Tables.setProc_procs] using h.shape.sz p hp
    · simp [Tables.setProc_procs, hvm]
    · simp [Tables.setProc_procs, hofile]
  obtain ⟨t₁, hrun₁, h₁⟩ :=
    foldlM_rule (P := fun vs => Copying p np vs (List.finRange maxOpenFiles))
    (fun _ _ _ hc => hc.copyVma) _ _ h0
  obtain ⟨t₂, hrun₂, h₂⟩ := foldlM_rule (P := fun fds => Copying p np [] fds)
    (fun _ _ _ hc => hc.copyFd) _ _ h₁
  refine ⟨_, by simp only [Tables.fork, hrun₁, hrun₂, ok_bind]; rfl, ?_⟩
  exact h₂.inv.setProc rfl rfl (fun _ => h₂.sz) fun hi =>
    (by rcases hi with hi | hi <;> cases hi)

theorem closeOnExec (h : FilesInv t) (i : Fin maxOpenFiles) :
    ∃ t', Tables.closeOnExec p t i = .ok t' ∧ FilesInv t' ∧
      (t'.procs p).state = (t.procs p).state := by
  unfold Tables.closeOnExec
  cases hf : (t.procs p).ofile i with
  | none => exact ⟨t, rfl, h, rfl⟩
  | some f =>
    obtain ⟨o, ho, -⟩ := h.file_of_ptr (x := (p, .inl i)) hf
    simp only [ho]
    split
    · obtain ⟨st', hfree, h'⟩ := h.dropFd hf
      rw [hfree, ok_bind]
      exact ⟨_, rfl, h', by simp [Tables.setFd, Tables.setProc_procs]⟩
    · exact ⟨t, rfl, h, rfl⟩

theorem unmapVma (h : FilesInv t) (i : Fin maxVmaNum) :
    ∃ t', Tables.unmapVma p t i = .ok t' ∧ FilesInv t' ∧
      (t'.procs p).state = (t.procs p).state ∧ (t'.procs p).sz = (t.procs p).sz := by
  unfold Tables.unmapVma
  by_cases hu : ((t.procs p).vm i).isUsed = true
  · obtain ⟨st', hfree, h'⟩ := h.dropVma hu (v := ⟨false, 0, 0, none⟩) rfl rfl
    simp only [hu, if_true, hfree, ok_bind]
    exact ⟨_, rfl, h', by simp [Tables.setVma, Tables.setProc_procs],
      by simp [Tables.setVma, Tables.setProc_procs]⟩
  · simp only [hu]
    exact ⟨t, rfl, h, rfl, rfl⟩

theorem execve (h : FilesInv t) (hp : (t.procs p).state.live = true) (segPages : Nat) :
    ∃ t', t.execve p segPages = .ok t' ∧ FilesInv t' := by
  obtain ⟨t₁, hrun₁, h₁, hs₁⟩ := foldlM_rule
    (P := fun _ t₁ => FilesInv t₁ ∧ (t₁.procs p).state = (t.procs p).state)
    (fun i _ t₁ ⟨hinv, hs⟩ => by
      obtain ⟨t', hrun, h', hs'⟩ := hinv.closeOnExec (p := p) i
      exact ⟨t', hrun, h', hs'.trans hs⟩) (List.finRange maxOpenFiles) t ⟨h, rfl⟩
  have hsz : pageSize ≤ (segPages + defaultProcUstackPages + 1) * pageSize := by
    rw [Nat.add_mul, Nat.one_mul]
    exact Nat.le_add_left _ _
  have h₂ := h₁.setSz (hs₁ ▸ hp) hsz
  obtain ⟨t₃, hrun₃, h₃, hsz₃⟩ := foldlM_rule
    (P := fun _ t₃ => FilesInv t₃ ∧ pageSize ≤ (t₃.procs p).sz)
    (fun i _ t₃ ⟨hinv, hs⟩ => by
      obtain ⟨t', hrun, h', -, hs'⟩ := hinv.unmapVma (p := p) i
      exact ⟨t', hrun, h', hs' ▸ hs⟩) (List.finRange maxVmaNum) _
    ⟨h₂, by simpa [Tables.setProc_procs] using hsz⟩
  refine ⟨_, by simp only [Tables.execve, hrun₁, hrun₃, ok_bind]; rfl, ?_⟩
  exact h₃.setProc rfl rfl (fun _ => hsz₃) fun hi => (by rcases hi with hi | hi <;> cases hi)

/-- The turn that drops a descriptor. -/
theorem dropFdTurn (h : FilesInv t) (i : Fin maxOpenFiles) :
    ∃ t', Tables.dropFd p t i = .ok t' ∧ FilesInv t' ∧ (t'.procs p).ofile i = none ∧
      ∀ fd, (t.procs p).ofile fd = none → (t'.procs p).ofile fd = none := by
  unfold Tables.dropFd
  cases hf : (t.procs p).ofile i with
  | none => exact ⟨t, rfl, h, hf, fun _ h => h⟩
  | some f =>
    obtain ⟨o, ho, hpos, -⟩ := h.file_of_ptr (x := (p, .inl i)) hf
    obtain ⟨st', hfree, h'⟩ := h.dropFd hf
    simp only [ho, hpos, if_true, hfree, ok_bind]
    refine ⟨_, rfl, h', by simp [Tables.setFd, Tables.setProc_procs], fun fd hfd => ?_⟩
    by_cases hfi : fd = i
    · simp [Tables.setFd, Tables.setProc_procs, hfi]
    · simpa [Tables.setFd, Tables.setProc_procs, hfi] using hfd

/-- The loop over the descriptors of a process leaves none. -/
theorem dropFds (h : FilesInv t) (p : Fin numProcess) :
    ∃ t', (List.finRange maxOpenFiles).foldlM (Tables.dropFd p) t = .ok t' ∧ FilesInv t' ∧
      ∀ fd, (t'.procs p).ofile fd = none := by
  obtain ⟨t', hrun, h', hnone⟩ := foldlM_rule
    (P := fun l t' => FilesInv t' ∧ ∀ fd, fd ∉ l → (t'.procs p).ofile fd = none)
    (fun i l t₁ ⟨hinv, hdone⟩ => by
      obtain ⟨t', hrun, h', hi, hkeep⟩ := hinv.dropFdTurn (p := p) i
      refine ⟨t', hrun, h', fun fd hfd => ?_⟩
      by_cases hfi : fd = i
      · rw [hfi]
        exact hi
      · exact hkeep fd (hdone fd (List.not_mem_cons_of_ne_of_not_mem hfi hfd)))
    (List.finRange maxOpenFiles) t ⟨h, fun fd hfd => absurd (List.mem_finRange fd) hfd⟩
  exact ⟨t', hrun, h', fun fd => hnone fd List.not_mem_nil⟩

/-- The turn that drops a memory area. -/
theorem dropVmaTurn (h : FilesInv t) (i : Fin maxVmaNum) :
    ∃ t', Tables.dropVma p t i = .ok t' ∧ FilesInv t' ∧
      (t'.procs p).ofile = (t.procs p).ofile ∧ ((t'.procs p).vm i).isUsed = false ∧
      ∀ j, ((t.procs p).vm j).isUsed = false → ((t'.procs p).vm j).isUsed = false := by
  unfold Tables.dropVma
  by_cases hu : ((t.procs p).vm i).isUsed = true
  · have hne : ((t.procs p).vm i).address ≠ 0 := by
      have hle := h.shape.used p i hu
      unfold pageSize at hle
      omega
    obtain ⟨st', hfree, h'⟩ := h.dropVma hu
      (v := { (t.procs p).vm i with isUsed := false, address := 0, vfile := none }) rfl rfl
    simp only [hne, ne_eq, not_false_eq_true, if_true, hfree, ok_bind]
    refine ⟨_, rfl, h', ?_, ?_, fun j hj => ?_⟩
    · simp [Tables.setVma, Tables.setProc_procs]
    · simp [Tables.setVma, Tables.setProc_procs]
    · by_cases hji : j = i
      · simp [Tables.setVma, Tables.setProc_procs, hji]
      · simpa [Tables.setVma, Tables.setProc_procs, hji] using hj
  · have hu : ((t.procs p).vm i).isUsed = false := by simpa using hu
    simp only [h.shape.free p i hu, ne_eq, not_true_eq_false, if_false]
    exact ⟨t, rfl, h, rfl, hu, fun _ h => h⟩

theorem exitProc (h : FilesInv t) (p : Fin numProcess) :
    ∃ t', t.exitProc p = .ok t' ∧ FilesInv t' := by
  obtain ⟨t₁, hrun₁, h₁, hnone⟩ := h.dropFds p
  obtain ⟨t₂, hrun₂, h₂, hnone₂, hunused⟩ := foldlM_rule
    (P := fun l t₂ => FilesInv t₂ ∧ (∀ fd, (t₂.procs p).ofile fd = none) ∧
      ∀ i, i ∉ l → ((t₂.procs p).vm i).isUsed = false)
    (fun i l t₂ ⟨hinv, hfds, hdone⟩ => by
      obtain ⟨t', hrun, h', hofile, hi, hkeep⟩ := hinv.dropVmaTurn (p := p) i
      refine ⟨t', hrun, h', by rw [hofile]; exact hfds, fun j hj => ?_⟩
      by_cases hji : j = i
      · rw [hji]
        exact hi
      · exact hkeep j (hdone j (List.not_mem_cons_of_ne_of_not_mem hji hj)))
    (List.finRange maxVmaNum) t₁ ⟨h₁, hnone, fun i hi => absurd (List.mem_finRange i) hi⟩
  refine ⟨_, by simp only [Tables.exitProc, hrun₁, hrun₂, ok_bind]; rfl, ?_⟩
  exact h₂.setProc rfl rfl (fun hl => by cases hl) fun _ =>
    ⟨hnone₂, fun i => hunused i List.not_mem_nil⟩

theorem freeproc (h : FilesInv t) (hp : (t.procs p).state = .zombie) :
    ∃ t', t.freeproc p = .ok t' ∧ FilesInv t' := by
  have h0 : FilesInv (t.setProc p fun q => { q with sz := 0, state := .unused }) :=
    h.setProc rfl rfl (fun hl => by cases hl) fun _ => h.shape.idle p (Or.inr hp)
  obtain ⟨t', hrun, h', -⟩ := h0.dropFds p
  exact ⟨t', hrun, h'⟩

theorem start {init : Fin numProcess} {sz f0 f1 f2 : Nat} (hsz : pageSize ≤ sz) (h01 : f0 ≠ f1)
    (h02 : f0 ≠ f2) (h12 : f1 ≠ f2) : FilesInv (Tables.start init sz f0 f1 f2) := by
  have hvm : ∀ p i, (((Tables.start init sz f0 f1 f2).procs p).vm i).isUsed = false ∧
      (((Tables.start init sz f0 f1 f2).procs p).vm i).address = 0 := by
    intro p i
    simp only [Tables.start]
    split <;> exact ⟨rfl, rfl⟩
  have hdevice : ∀ f o, (Tables.start init sz f0 f1 f2).store.files f = some o →
      o.cls = .device := by
    intro f o ho
    simp only [Tables.start] at ho
    split at ho
    · rw [← Option.some.inj ho]
    · cases ho
  refine ⟨?_, ⟨fun id w => ?_, ?_, ?_⟩, ?_, ⟨?_, ?_, ?_, ?_⟩⟩
  · -- The three descriptors are filled one after the other.
    have hempty : Exact (fun _ : Slot => none) (fun _ : Nat => none) := by
      intro f
      simp [RefCount.refs]
    have hmax : 2 < maxOpenFiles := by decide
    have hne : ∀ {a b : Nat} (ha : a < maxOpenFiles) (hb : b < maxOpenFiles), a ≠ b →
        ((init, .inl ⟨a, ha⟩) : Slot) ≠ (init, .inl ⟨b, hb⟩) := by
      intro a b ha hb hab he
      simp at he
      exact hab he
    have h0 := hempty.share (x := (init, .inl ⟨0, by omega⟩))
      (f := f0) rfl (Or.inr ⟨rfl, rfl⟩)
    have h1 := h0.share (x := (init, .inl ⟨1, by omega⟩)) (f := f1)
      (Function.update_of_ne (hne _ _ (by omega)) ..)
      (Or.inr ⟨Function.update_of_ne h01.symm .., rfl⟩)
    have h2 := h1.share (x := (init, .inl ⟨2, by omega⟩)) (f := f2)
      ((Function.update_of_ne (hne _ _ (by omega)) ..).trans
        (Function.update_of_ne (hne _ _ (by omega)) ..))
      (Or.inr ⟨(Function.update_of_ne h12.symm ..).trans (Function.update_of_ne h02.symm ..),
        rfl⟩)
    convert h2 using 1
    · funext x
      obtain ⟨p, fd | i⟩ := x
      · by_cases hp : p = init
        · subst hp
          simp only [Tables.ptr, Tables.start, if_true, Function.update_apply, Prod.mk.injEq,
            true_and, Sum.inl.injEq, Fin.ext_iff]
          split_ifs <;> simp_all
        · simp [Tables.ptr, Tables.start, hp]
      · simp [Tables.ptr, (hvm p i).1]
    · funext f
      simp only [FileStore.cnt, Tables.start, Function.update_apply]
      split_ifs <;> simp_all
  · refine ⟨?_, ?_⟩
    · rintro ⟨e, he, -⟩
      cases he
    · rintro ⟨f, o, ho, hc⟩
      rw [hdevice f o ho] at hc
      cases hc
  · intro f f' o o' id w ho _ hc
    rw [hdevice f o ho] at hc
    cases hc
  · intro f o id w ho hc
    rw [hdevice f o ho] at hc
    cases hc
  · intro p i f o hu
    rw [(hvm p i).1] at hu
    cases hu
  · intro p i hu
    rw [(hvm p i).1] at hu
    cases hu
  · exact fun p i _ => (hvm p i).2
  · intro p hl
    by_cases hp : p = init
    · simpa [Tables.start, hp] using hsz
    · simp [Tables.start, hp, ProcState.live] at hl
  · intro p hi
    refine ⟨fun fd => ?_, fun i => (hvm p i).1⟩
    by_cases hp : p = init
    · simp [Tables.start, hp, ProcState.idle] at hi
    · simp [Tables.start, hp]

theorem step {init : Fin numProcess} (h : FilesInv t) (hs : FilesStep init t t') : FilesInv t' := by
  cases hs with
  | openFile p f dev filetype hp hf hrun hv => exact h.openFile hp hf hrun hv
  | pipe p id f0 f1 hp hid hf0 hf1 hne hrun hv => exact h.pipe hp hid hf0 hf1 hne hrun hv
  | dup p oldfd hp hrun hv => exact h.dup hp hrun hv
  | dup2 p oldfd fd hp hrun hv => exact h.dup2 hp hrun hv
  | fcntlDupFd p oldfd arg hp hrun hv => exact h.fcntlDupFd hp hrun hv
  | fcntlSetFd p fd hp hrun hv => exact h.fcntlSetFd hrun
  | close p fd hp hrun hv => exact h.close hrun
  | mmap p fd mapSize allocOk copyOk hp hrun => exact h.mmap hp hrun
  | munmap p va hp hva hrun => exact h.munmap hva hrun
  | fork p np hp hnp hrun =>
    obtain ⟨t₁, hrun₁, h₁⟩ := h.fork hp hnp
    exact Except.ok.inj (hrun₁.symm.trans hrun) ▸ h₁
  | execve p segPages hp hrun =>
    obtain ⟨t₁, hrun₁, h₁⟩ := h.execve hp segPages
    exact Except.ok.inj (hrun₁.symm.trans hrun) ▸ h₁
  | exit p hp hinit hrun =>
    obtain ⟨t₁, hrun₁, h₁⟩ := h.exitProc p
    exact Except.ok.inj (hrun₁.symm.trans hrun) ▸ h₁
  | wait np hnp hrun =>
    obtain ⟨t₁, hrun₁, h₁⟩ := h.freeproc hnp
    exact Except.ok.inj (hrun₁.symm.trans hrun) ▸ h₁

theorem reach {init : Fin numProcess} (h : FilesReach init t) : FilesInv t := by
  induction h with
  | start sz f0 f1 f2 hsz h01 h02 h12 => exact start hsz h01 h02 h12
  | step _ hs ih => exact ih.step hs

/-- An open end of a pipe has a descriptor. -/
theorem endOpen_iff (h : FilesInv t) {id : Nat} {w : Bool} : t.store.EndOpen id w ↔
    ∃ p fd f o, (t.procs p).ofile fd = some f ∧ t.store.files f = some o ∧
      o.cls = .pipe id w := by
  rw [h.pipes.opened]
  constructor
  · rintro ⟨f, o, ho, hc⟩
    have hsome : (t.store.cnt f).isSome := by simp [FileStore.cnt, ho]
    obtain ⟨⟨p, x⟩, hx⟩ := refs_pos_iff.mp (h.exact.isSome_iff.mp hsome)
    rcases x with fd | i
    · exact ⟨p, fd, f, o, hx, ho, hc⟩
    · -- A memory area does not point to the file of a pipe.
      simp only [Tables.ptr] at hx
      split at hx
      · rename_i hu
        have hnormal := h.mapped p i f o hu hx ho
        rw [h.pipes.type f o id w ho hc] at hnormal
        cases hnormal
      · cases hx
  · rintro ⟨p, fd, f, o, -, ho, hc⟩
    exact ⟨f, o, ho, hc⟩

end FilesInv

/-- In every state of a run: the count of a file is the number of descriptors and used memory areas
that point to it, a file is there while something points to it, no descriptor points to a deleted
file, an end of a pipe is open while a descriptor points to it, and `fork`, `execve` and `exit` of a
process meet no deleted file. -/
theorem file_refs_exact {init : Fin numProcess} {t : Tables} (h : FilesReach init t) :
    (∀ f o, t.store.files f = some o → o.refcnt = t.refs f) ∧
    (∀ f, (t.store.files f).isSome ↔ 0 < t.refs f) ∧
    (∀ p fd f, (t.procs p).ofile fd = some f → (t.store.files f).isSome) ∧
    (∀ id w, t.store.EndOpen id w ↔ ∃ p fd f o, (t.procs p).ofile fd = some f ∧
      t.store.files f = some o ∧ o.cls = .pipe id w) ∧
    (∀ p, (t.procs p).state.live = true → (∃ t', t.exitProc p = .ok t') ∧
      (∀ segPages, ∃ t', t.execve p segPages = .ok t') ∧
      ∀ np, (t.procs np).state = .unused → ∃ t', t.fork p np = .ok t') := by
  have hinv := FilesInv.reach h
  refine ⟨fun f o ho => ?_, fun f => ?_, fun p fd f hf => ?_, fun id w => hinv.endOpen_iff,
    fun p hp => ⟨?_, fun segPages => ?_, fun np hnp => ?_⟩⟩
  · exact (hinv.exact.eq_refs (by rw [FileStore.cnt, ho]; rfl)).1
  · rw [Tables.refs, ← hinv.exact.isSome_iff, FileStore.cnt, Option.isSome_map]
  · obtain ⟨o, ho, -⟩ := hinv.file_of_ptr (x := (p, .inl fd)) hf
    rw [ho]
    rfl
  · obtain ⟨t', hrun, -⟩ := hinv.exitProc p
    exact ⟨t', hrun⟩
  · obtain ⟨t', hrun, -⟩ := hinv.execve hp segPages
    exact ⟨t', hrun⟩
  · obtain ⟨t', hrun, -⟩ := hinv.fork hp hnp
    exact ⟨t', hrun⟩

/-- `alloc_fd` finds a free descriptor. -/
theorem allocFd_of_free {f : Nat} (fd : Fin maxOpenFiles) (h : (t.procs p).ofile fd = none) :
    0 ≤ (t.allocFd p f).1 := by
  unfold Tables.allocFd
  split
  · exact Int.natCast_nonneg _
  · rename_i hnone
    have := List.find?_eq_none.mp hnone fd (List.mem_finRange fd)
    simp [h] at this

/-- The init process duplicates its descriptor 0: its file has two references. -/
theorem file_refs_exact_sample : ∃ t : Tables, FilesReach 0 t ∧
    (t.store.files 10).map File.refcnt = some 2 ∧ t.refs 10 = 2 := by
  have h0 : FilesReach 0 (Tables.start 0 4096 10 11 12) :=
    .start 4096 10 11 12 (by decide) (by decide) (by decide) (by decide)
  have hmax : 3 < maxOpenFiles := by decide
  have hv : 0 ≤ ((Tables.start 0 4096 10 11 12).allocFd 0 10).1 :=
    allocFd_of_free ⟨3, hmax⟩ (by simp [Tables.start])
  obtain ⟨fd, hfd, ht⟩ := FilesInv.allocFd_spec hv
  have hrun : ∃ t', (Tables.start 0 4096 10 11 12).dup 0 0 =
      .ok (((Tables.start 0 4096 10 11 12).allocFd 0 10).1, t') ∧
      t'.store.files 10 = some ⟨.device, .device, 2, false, true⟩ := by
    have hopen : (Tables.start 0 4096 10 11 12).getOpenFile 0 0 = some 10 := by
      simp [Tables.getOpenFile, fdIndex, Tables.start, maxOpenFiles]
    simp only [Tables.dup, hopen, Int.not_lt.mpr hv, if_false, ht, Tables.dupFile]
    exact ⟨_, rfl, by simp⟩
  obtain ⟨t', hdup, hfile⟩ := hrun
  have h1 := h0.step (.dup 0 0 rfl hdup hv)
  exact ⟨t', h1, by rw [hfile]; rfl, ((file_refs_exact h1).1 10 _ hfile).symm⟩

end OsKernel.Pm

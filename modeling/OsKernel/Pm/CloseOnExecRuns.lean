import OsKernel.Pm.CloseOnExecCalls
import OsKernel.Pm.FileLifetime

/-! Close-on-exec over whole runs: `fork` copies the marks, `execve` closes what is marked, and the
runs are told apart in which every `execve` does so. -/

namespace OsKernel.Pm
open Fs Hsai RefCount

variable {t t' : Tables} {p np : Fin numProcess}

/-- A part of a process that is not about files changes. -/
theorem Counted.setProc (h : Counted t) {g : FilePcb → FilePcb}
    (hofile : (g (t.procs p)).ofile = (t.procs p).ofile)
    (hvm : (g (t.procs p)).vm = (t.procs p).vm) :
    Counted (t.setProc p g) ∧ (t.setProc p g).fdFile = t.fdFile ∧
      (t.setProc p g).closes = t.closes := by
  have hfd : (t.setProc p g).fdFile = t.fdFile := by
    funext x
    unfold Tables.fdFile
    by_cases hx : x.1 = p <;> simp [Tables.setProc_procs, hx, hofile]
  refine ⟨⟨fun f hf => ?_, fun q i => ?_, h.noPipe⟩, hfd,
    Tables.closes_congr hfd fun _ _ _ => rfl⟩
  · have hrefs : (t.setProc p g).refs f = t.refs f := by
      rw [Tables.refs, Tables.ptr_setProc hofile hvm, Tables.refs]
    rw [hrefs] at hf ⊢
    exact h.count f hf
  · by_cases hq : q = p
    · subst hq
      simpa [Tables.setProc_procs, hvm] using h.unmapped q i
    · simpa [Tables.setProc_procs, hq] using h.unmapped q i

/-- `fork` of `p` to `np`, with the descriptors `fds` still to be copied. -/
structure FdCopying (t : Tables) (p np : Fin numProcess) (fds : List (Fin maxOpenFiles))
    (u : Tables) : Prop where
  counted : Counted u
  nodup : fds.Nodup
  fdFile : ∀ x, u.fdFile x =
    if x.1 = np then (if x.2 ∈ fds then none else t.fdFile (p, x.2)) else t.fdFile x
  closes : ∀ x, u.closes x =
    if x.1 = np then (if x.2 ∈ fds then false else t.closes (p, x.2)) else t.closes x
  state : ∀ q, q ≠ np → (u.procs q).state = (t.procs q).state

theorem FdCopying.copyFd {u : Tables} {i : Fin maxOpenFiles} {fds : List (Fin maxOpenFiles)}
    (hne : p ≠ np) (h : FdCopying t p np (i :: fds) u) :
    ∃ u', Tables.copyFd p np u i = .ok u' ∧ FdCopying t p np fds u' := by
  obtain ⟨hi, hnodup⟩ := List.nodup_cons.mp h.nodup
  have hpi : u.fdFile (p, i) = t.fdFile (p, i) := by rw [h.fdFile, if_neg hne]
  have hnpi : u.fdFile (np, i) =
    none := by rw [h.fdFile, if_pos rfl, if_pos (List.mem_cons_self ..)]
  have hmem : ∀ x : Fd, x ≠ (np, i) → x.1 = np → (x.2 ∈ i :: fds ↔ x.2 ∈ fds) := by
    intro x hx hxn
    have hxi : x.2 ≠ i := fun he => hx (Prod.ext hxn he)
    simp [hxi]
  unfold Tables.copyFd
  cases hf : (u.procs p).ofile i with
  | none =>
    have hnone : t.fdFile (p, i) = none := hpi.symm.trans hf
    refine ⟨u, rfl, h.counted, hnodup, fun x => ?_, fun x => ?_, h.state⟩
    · by_cases hx : x = (np, i)
      · rw [hx, hnpi, if_pos rfl, if_neg hi, hnone]
      · rw [h.fdFile]
        split
        · simp only [hmem x hx (by assumption)]
        · rfl
    · by_cases hx : x = (np, i)
      · rw [hx, Tables.closes_none hnpi, if_pos rfl, if_neg hi, Tables.closes_none hnone]
      · rw [h.closes]
        split
        · simp only [hmem x hx (by assumption)]
        · rfl
  | some f =>
    obtain ⟨st', hdup, hcount, hcl⟩ :=
      h.counted.share hnpi (show u.fdFile (p, i) = some f from hf)
    refine ⟨_, by simp only [Tables.dupFile, hdup, ok_bind]; rfl, hcount, hnodup, fun x => ?_,
      fun x => ?_, fun q hq => ?_⟩
    · rw [Tables.fdFile_setFd]
      by_cases hx : x = (np, i)
      · rw [hx, Function.update_self, if_pos rfl, if_neg hi, ← hpi]
        exact hf.symm
      · rw [Function.update_of_ne hx]
        refine (h.fdFile x).trans ?_
        split
        · simp only [hmem x hx (by assumption)]
        · rfl
    · rw [hcl]
      by_cases hx : x = (np, i)
      · rw [hx, Function.update_self, if_pos rfl, if_neg hi, h.closes, if_neg hne]
      · rw [Function.update_of_ne hx, h.closes]
        split
        · simp only [hmem x hx (by assumption)]
        · rfl
    · rw [Tables.state_setFd]
      exact h.state q hq

/-- No memory area is in use, so none is copied or dropped. -/
theorem Counted.no_vma (h : Counted t) {g : Tables → Fin maxVmaNum → Except Fault Tables}
    (hg : ∀ i, ((t.procs p).vm i).isUsed = false → g t i = .ok t) (l : List (Fin maxVmaNum)) :
    l.foldlM g t = .ok t := by
  obtain ⟨t', hrun, rfl⟩ := foldlM_rule (f := g) (P := fun _ t' => t' = t)
    (fun i _ t' (he : t' = t) => ⟨t, by rw [he, hg i (h.unmapped p i)], rfl⟩) l t rfl
  exact hrun

namespace FdInv

theorem fork (h : FdInv t) (hp : (t.procs p).state.live = true)
    (hnp : (t.procs np).state = .unused) : Outcome (.fork p np) t := by
  have hne : p ≠ np := by
    rintro rfl
    rw [hnp] at hp
    cases hp
  have hempty : ∀ x : Fd, x.1 = np → t.fdFile x = none := by
    intro x hx
    cases hf : t.fdFile x with
    | none => rfl
    | some f =>
      have hlive := h.owner x f hf
      rw [hx, hnp] at hlive
      cases hlive
  obtain ⟨hcount₀, hfd₀, hcl₀⟩ := h.counted.setProc (p := np)
    (g := fun q => { q with state := .used, sz := (t.procs p).sz }) rfl rfl
  have h₀ : FdCopying t p np (List.finRange maxOpenFiles)
      (t.setProc np fun q => { q with state := .used, sz := (t.procs p).sz }) := by
    refine ⟨hcount₀, List.nodup_finRange _, fun x => ?_, fun x => ?_, fun q hq => ?_⟩
    · rw [hfd₀, if_pos (List.mem_finRange _)]
      split
      · exact hempty x (by assumption)
      · rfl
    · rw [hcl₀, if_pos (List.mem_finRange _)]
      split
      · exact Tables.closes_none (hempty x (by assumption))
      · rfl
    · rw [Tables.setProc_procs, if_neg hq]
  have hvma := hcount₀.no_vma (p := p) (g := Tables.copyVma p np)
    (fun i hi => by simp only [Tables.copyVma, hi, Bool.false_eq_true, if_false])
    (List.finRange maxVmaNum)
  obtain ⟨u, hrun, hu⟩ := foldlM_rule (P := FdCopying t p np) (fun _ _ _ hc => hc.copyFd hne)
    _ _ h₀
  obtain ⟨hcount, hfd, hcl⟩ :=
    hu.counted.setProc (p := np) (g := fun q => { q with state := .runnable })
    rfl rfl
  refine .right (v := 0) ?_ ⟨hcount, fun x f hx => ?_⟩ trivial (funext fun x => ?_)
  · simp only [FdCall.run, Tables.fork, hvma, hrun, ok_bind]
    rfl
  · by_cases hxn : x.1 = np
    · rw [hxn, Tables.setProc_procs, if_pos rfl]
      rfl
    · rw [hfd, hu.fdFile, if_neg hxn] at hx
      rw [Tables.setProc_procs, if_neg hxn, hu.state _ hxn]
      exact h.owner x f hx
  · rw [hcl, hu.closes, if_neg List.not_mem_nil]
    rfl

end FdInv

/-- The loop of `execve` of `p`, with the descriptors `fds` still to be looked at. -/
structure Execing (t : Tables) (p : Fin numProcess) (fds : List (Fin maxOpenFiles)) (u : Tables) :
    Prop where
  inv : FdInv u
  nodup : fds.Nodup
  fdFile : ∀ x, u.fdFile x =
    if x.1 = p ∧ x.2 ∉ fds ∧ t.closes x = true then none else t.fdFile x
  closes : ∀ x, u.closes x = if x.1 = p ∧ x.2 ∉ fds then false else t.closes x
  state : ∀ q, (u.procs q).state = (t.procs q).state

theorem Execing.closeOnExec {u : Tables} {i : Fin maxOpenFiles} {fds : List (Fin maxOpenFiles)}
    (hp : (t.procs p).state.live = true) (h : Execing t p (i :: fds) u) :
    ∃ u', Tables.closeOnExec p u i = .ok u' ∧ Execing t p fds u' := by
  obtain ⟨hi, hnodup⟩ := List.nodup_cons.mp h.nodup
  have hfile : u.fdFile (p, i) = t.fdFile (p, i) := by
    rw [h.fdFile, if_neg fun hn => hn.2.1 (List.mem_cons_self ..)]
  have hcl : u.closes (p, i) = t.closes (p, i) := by
    rw [h.closes, if_neg fun hn => hn.2 (List.mem_cons_self ..)]
  have hmem : ∀ x : Fd, x ≠ (p, i) → x.1 = p → (x.2 ∈ i :: fds ↔ x.2 ∈ fds) := by
    intro x hx hxp
    have hxi : x.2 ≠ i := fun he => hx (Prod.ext hxp he)
    simp [hxi]
  -- A descriptor that stays: nothing changes.
  have hstay : t.closes (p, i) = false → Execing t p fds u := by
    intro hno
    refine ⟨h.inv, hnodup, fun x => ?_, fun x => ?_, h.state⟩
    · by_cases hx : x = (p, i)
      · rw [hx, hfile, if_neg fun hn => by rw [hno] at hn; cases hn.2.2]
      · rw [h.fdFile]
        refine if_congr (and_congr_right fun hxp => ?_) rfl rfl
        rw [hmem x hx hxp]
    · by_cases hx : x = (p, i)
      · rw [hx, hcl, hno, ite_self]
      · rw [h.closes]
        refine if_congr (and_congr_right fun hxp => ?_) rfl rfl
        rw [hmem x hx hxp]
  unfold Tables.closeOnExec
  cases hf : (u.procs p).ofile i with
  | none => exact ⟨u, rfl, hstay (Tables.closes_none (hfile.symm.trans hf))⟩
  | some f =>
    obtain ⟨o, ho, -⟩ := h.inv.counted.file (show u.fdFile (p, i) = some f from hf)
    have hflag : t.closes (p, i) = (o.flCloexec && !o.alwaysOn) := by
      rw [← hcl, Tables.closes, show u.fdFile (p, i) = some f from hf, Option.elim,
        FileStore.closes, ho]
      rfl
    simp only [ho, ← hflag]
    by_cases hc : t.closes (p, i) = true
    · obtain ⟨st', hfree, hinv, hdrop⟩ := h.inv.drop ((h.state p).symm ▸ hp) hf
      rw [if_pos hc, hfree, ok_bind]
      refine ⟨_, rfl, hinv, hnodup, fun x => ?_, fun x => ?_, fun q => ?_⟩
      · rw [Tables.fdFile_setFd]
        by_cases hx : x = (p, i)
        · rw [hx, Function.update_self, if_pos ⟨rfl, hi, hc⟩]
        · rw [Function.update_of_ne hx]
          refine (h.fdFile x).trans (if_congr (and_congr_right fun hxp => ?_) rfl rfl)
          rw [hmem x hx hxp]
      · rw [hdrop]
        by_cases hx : x = (p, i)
        · rw [hx, Function.update_self, if_pos ⟨rfl, hi⟩]
        · rw [Function.update_of_ne hx]
          refine (h.closes x).trans (if_congr (and_congr_right fun hxp => ?_) rfl rfl)
          rw [hmem x hx hxp]
      · rw [Tables.state_setFd]
        exact h.state q
    · rw [if_neg hc]
      exact ⟨u, rfl, hstay (by simpa using hc)⟩

namespace FdInv

/-- What `execve` of a live process does to the descriptors. -/
theorem execveFds (h : FdInv t) (hp : (t.procs p).state.live = true) (segPages : Nat) :
    ∃ t', t.execve p segPages = .ok t' ∧ FdInv t' ∧
      (∀ x, t'.fdFile x = if x.1 = p ∧ t.closes x = true then none else t.fdFile x) ∧
      t'.closes = fun x => x.1 ≠ p && t.closes x := by
  have h₀ : Execing t p (List.finRange maxOpenFiles) t := by
    refine ⟨h, List.nodup_finRange _, fun x => ?_, fun x => ?_, fun _ => rfl⟩
    · rw [if_neg fun hn => hn.2.1 (List.mem_finRange _)]
    · rw [if_neg fun hn => hn.2 (List.mem_finRange _)]
  obtain ⟨u, hrun, hu⟩ := foldlM_rule (P := Execing t p) (fun _ _ _ he => he.closeOnExec hp)
    _ _ h₀
  obtain ⟨hcount₁, hfd₁, hcl₁⟩ := hu.inv.counted.setProc (p := p) (g := fun q =>
    { q with sz := (segPages + defaultProcUstackPages + 1) * pageSize }) rfl rfl
  have hvma := hcount₁.no_vma (p := p) (g := Tables.unmapVma p)
    (fun i hi => by simp only [Tables.unmapVma, hi, Bool.false_eq_true, if_false])
    (List.finRange maxVmaNum)
  obtain ⟨hcount, hfd, hcl⟩ :=
    hcount₁.setProc (p := p) (g := fun q => { q with state := .runnable })
    rfl rfl
  refine ⟨_, by simp only [Tables.execve, hrun, hvma, ok_bind]; rfl, ⟨hcount, fun x f hx => ?_⟩,
    fun x => ?_, ?_⟩
  · rw [hfd, hfd₁] at hx
    have hlive := hu.inv.owner x f hx
    by_cases hxp : x.1 = p
    · rw [hxp, Tables.setProc_procs, if_pos rfl]
      rfl
    · rw [Tables.setProc_procs, if_neg hxp, Tables.setProc_procs, if_neg hxp]
      exact hlive
  · rw [hfd, hfd₁, hu.fdFile]
    simp only [List.not_mem_nil, not_false_eq_true, true_and]
  · rw [hcl, hcl₁]
    funext x
    rw [hu.closes]
    by_cases hxp : x.1 = p <;> simp [hxp]

theorem execve (h : FdInv t) {segPages : Nat} (hp : (t.procs p).state.live = true) :
    Outcome (.execve p segPages) t := by
  obtain ⟨t', hrun, hinv, -, hcl⟩ := h.execveFds hp segPages
  refine .right (v := 0) ?_ hinv trivial hcl.symm
  simp only [FdCall.run, hrun, ok_bind]
  rfl

theorem start {init : Fin numProcess} {sz f0 f1 f2 : Nat} (hsz : pageSize ≤ sz) (h01 : f0 ≠ f1)
    (h02 : f0 ≠ f2) (h12 : f1 ≠ f2) : FdInv (Tables.start init sz f0 f1 f2) ∧
      (Tables.start init sz f0 f1 f2).closes = fun _ => false := by
  have hinv : FilesInv (Tables.start init sz f0 f1 f2) := FilesInv.start hsz h01 h02 h12
  have hdev : ∀ f o, (Tables.start init sz f0 f1 f2).store.files f = some o →
      o = ⟨.device, .device, 1, false, true⟩ := by
    intro f o ho
    simp only [Tables.start] at ho
    split at ho
    · exact (Option.some.inj ho).symm
    · cases ho
  refine ⟨⟨⟨fun f hf => ?_, fun q i => ?_, fun f o id w ho => ?_⟩, fun x f hx => ?_⟩,
    ?_⟩
  · have hcnt := hinv.exact f
    have hpos : RefCount.refs (Tables.start init sz f0 f1 f2).ptr f ≠ 0 :=
      Nat.pos_iff_ne_zero.mp hf
    rw [if_neg hpos] at hcnt
    obtain ⟨o, ho, hk⟩ := FileStore.cnt_eq_some hcnt
    have hk : o.refcnt = (Tables.start init sz f0 f1 f2).refs f := hk
    exact ⟨o, ho, hk.ge, hk.le.trans (Nat.le_add_right _ _)⟩
  · simp only [Tables.start]
    split <;> rfl
  · rw [hdev f o ho]
    intro hc
    cases hc
  · by_cases hxi : x.1 = init
    · simp [Tables.start, hxi, ProcState.live]
    · simp [Tables.fdFile, Tables.start, hxi] at hx
  · funext x
    unfold Tables.closes
    cases (Tables.start init sz f0 f1 f2).fdFile x with
    | none => rfl
    | some f =>
      rw [Option.elim, FileStore.closes]
      cases ho : (Tables.start init sz f0 f1 f2).store.files f with
      | none => rfl
      | some o =>
        rw [hdev f o ho]
        rfl

theorem outcome (h : FdInv t) {c : FdCall} (hl : c.Legal t) (hb : c.Bounded t) : Outcome c t := by
  obtain ⟨hp, hc⟩ := hl
  cases c with
  | openFile p f dev filetype => exact h.openFile hp hc
  | dup p oldfd => exact h.dup hp
  | dup2 p oldfd fd => exact h.dup2 hp
  | dupFd p oldfd arg => exact h.dupFd hp hb
  | dupFdCloexec p oldfd arg => exact h.dupFdCloexec hp
  | setFd p fd arg => exact h.setFd
  | close p fd => exact h.close hp
  | fork p np => exact h.fork hp hc
  | execve p segPages => exact h.execve hp

/-- Every `execve` closes what is marked as soon as the marks are what it looks at. -/
theorem execCloses (h : FdInv t) : ExecCloses t t.closes := by
  intro p segPages hp
  obtain ⟨t', hrun, -, hfd, -⟩ := h.execveFds hp segPages
  refine ⟨t', hrun, fun i =>
    ⟨fun ⟨hopen, hgone⟩ => ?_, fun hm => ⟨fun hnone => ?_, ?_⟩⟩,
    fun i hm => ?_, fun x hx => ?_⟩
  · by_contra hno
    rw [hfd, if_neg fun hn => hno hn.2] at hgone
    exact hopen hgone
  · rw [Tables.closes_none hnone] at hm
    cases hm
  · rw [hfd, if_pos ⟨rfl, hm⟩]
  · rw [hfd, if_neg fun hn => by rw [hm] at hn; cases hn.2]
  · rw [hfd, if_neg fun hn => hx hn.1]

/-- What every `execve` closes says whether an open descriptor is marked. -/
theorem eq_of_execCloses (h : FdInv t) {m : Marks} (hm : ExecCloses t m) {x : Fd}
    (hx : t.fdFile x ≠ none) : m x = t.closes x := by
  obtain ⟨p, i⟩ := x
  obtain ⟨f, hf⟩ := Option.ne_none_iff_exists'.mp hx
  have hp := h.owner (p, i) f hf
  obtain ⟨t', hrun, hfd, -⟩ := hm p 0 hp
  obtain ⟨u, hrun', hfd', -⟩ := h.execCloses p 0 hp
  obtain rfl := Except.ok.inj (hrun.symm.trans hrun')
  exact Bool.eq_iff_iff.mpr ((hfd i).symm.trans (hfd' i))

/-- A call meets the condition when it returns and every `execve` after it is right. -/
theorem meets_iff (h : FdInv t) {c : FdCall} (hl : c.Legal t) (hb : c.Bounded t) :
    c.Meets t t.closes ↔
      ∃ v t', c.run t = .ok (v, t') ∧ ExecCloses t' (c.mark v t.closes) := by
  rcases h.outcome hl hb with ⟨v, t', hrun, hinv, hiff, hopen⟩ | ⟨⟨e, hrun⟩, hno⟩
  · refine hiff.trans ⟨fun he => ⟨v, t', hrun, he ▸ hinv.execCloses⟩, ?_⟩
    rintro ⟨w, u, hrun', hex⟩
    obtain ⟨rfl, rfl⟩ := Prod.mk.inj (Except.ok.inj (hrun.symm.trans hrun'))
    by_contra hne
    obtain ⟨x, hx⟩ := Function.ne_iff.mp hne
    exact hx (hinv.eq_of_execCloses hex (hopen x hx))
  · refine iff_of_false hno ?_
    rintro ⟨v, t', hrun', -⟩
    rw [hrun] at hrun'
    cases hrun'

/-- In a run whose calls meet the condition, the marks are what `execve` looks at. -/
theorem reach {init : Fin numProcess} {m : Marks}
    (h : FdReach init (fun t m c => c.Meets t m ∧ c.Bounded t) t m) : FdInv t ∧
      m = t.closes := by
  induction h with
  | start sz f0 f1 f2 hsz h01 h02 h12 =>
    obtain ⟨hinv, hcl⟩ : FdInv (Tables.start init sz f0 f1 f2) ∧ _ := start hsz h01 h02 h12
    exact ⟨hinv, hcl.symm⟩
  | step _ c hl hc hrun ih =>
    obtain ⟨hinv, rfl⟩ := ih
    rcases hinv.outcome hl hc.2 with ⟨v, u, hrun', hinv', hiff, -⟩ | ⟨-, hno⟩
    · obtain ⟨rfl, rfl⟩ := Prod.mk.inj (Except.ok.inj (hrun.symm.trans hrun'))
      exact ⟨hinv', hiff.mp hc.1⟩
    · exact absurd hc.1 hno

end FdInv

/-- In every state of a run whose calls meet the condition, an `execve` closes exactly the marked
descriptors of its process; and of the calls that may come next, those that meet the condition are
the ones that return and leave every `execve` right. -/
theorem close_on_exec_iff {init : Fin numProcess} {t : Tables} {m : Marks}
    (h : FdReach init (fun t m c => c.Meets t m ∧ c.Bounded t) t m) :
    ExecCloses t m ∧ ∀ c : FdCall, c.Legal t → c.Bounded t →
      (c.Meets t m ↔ ∃ v t', c.run t = .ok (v, t') ∧ ExecCloses t' (c.mark v m)) := by
  obtain ⟨hinv, rfl⟩ := FdInv.reach h
  exact ⟨hinv.execCloses, fun c hl hb => hinv.meets_iff hl hb⟩

/-- The init process opens a file: an empty descriptor gets it. -/
theorem open_sample : ∃ (i : Fin maxOpenFiles) (t : Tables),
    (FdCall.openFile 0 20 2000 .normal).run (Tables.start 0 4096 10 11 12) =
      .ok ((i.val : Int), t) ∧ FdInv t ∧ (t.procs 0).state.live = true ∧
      t.closes = (fun _ => false) ∧
      (∀ o, t.store.files 20 = some o → o.alwaysOn = false) ∧
      (∀ x, t.fdFile x = some 20 ↔ x = (0, i)) ∧ ∃ k, t.fdFile (0, k) = none := by
  obtain ⟨h₀, hcl₀⟩ : FdInv (Tables.start 0 4096 10 11 12) ∧ _ :=
    FdInv.start (by decide) (by decide) (by decide) (by decide)
  have hfd₀ : ∀ x, (Tables.start 0 4096 10 11 12).fdFile x ≠ some 20 := by
    intro x
    unfold Tables.fdFile Tables.start
    simp only
    split
    · simp only
      split_ifs <;> simp
    · exact (Option.some_ne_none 20).symm
  have hempty : ∀ k : Fin maxOpenFiles, 3 ≤ k.val →
      (Tables.start 0 4096 10 11 12).fdFile (0, k) = none := by
    intro k hk
    simp only [Tables.fdFile, Tables.start, if_true]
    rw [if_neg (by omega), if_neg (by omega), if_neg (by omega)]
  have hmax : 4 < maxOpenFiles := by decide
  have hcls : ∀ id w, FileClass.normal ≠ .pipe id w := by
    intro id w hc
    cases hc
  rcases Tables.allocFd_cases (p := 0) (f := 20) (t := { Tables.start 0 4096 10 11 12 with
    store := (Tables.start 0 4096 10 11 12).store.create 20 .normal .normal }) with
    ⟨i, hi, halloc⟩ | ⟨hfull, -⟩
  · obtain ⟨hcount, hcl⟩ := h₀.counted.new
      (show (Tables.start 0 4096 10 11 12).fdFile (0, i) = none
      from hi) (f := 20) (by simp [Tables.start]) hcls .normal
    refine ⟨i, _, congrArg Except.ok halloc, ⟨hcount, h₀.owner_setFd rfl⟩, ?_, ?_, ?_,
      fun x => ?_, ?_⟩
    · rw [Tables.state_setFd]
      rfl
    · rw [hcl, hcl₀]
      exact Function.update_eq_self (0, i) _
    · intro o ho
      have hself : some (⟨.normal, .normal, 1, false, false⟩ : File) = some o := ho
      rw [← Option.some.inj hself]
    · rw [Tables.fdFile_setFd]
      by_cases hx : x = (0, i)
      · simp only [hx, Function.update_self]
      · rw [Function.update_of_ne hx]
        exact iff_of_false (hfd₀ x) hx
    · by_cases hi3 : i.val = 3
      · refine ⟨⟨4, hmax⟩, ?_⟩
        rw [Tables.fdFile_setFd, Function.update_of_ne fun he => by
          have := congrArg Fin.val (Prod.mk.inj he).2
          simp at this
          omega]
        exact hempty _ (by simp)
      · refine ⟨⟨3, by omega⟩, ?_⟩
        rw [Tables.fdFile_setFd, Function.update_of_ne fun he => hi3
          (congrArg Fin.val (Prod.mk.inj he).2).symm]
        exact hempty _ (by simp)
  · exact absurd (hempty ⟨3, by omega⟩ (by simp)) (hfull ⟨3, by omega⟩)

/-- The init process opens a file and marks its descriptor: the next `execve` closes it. -/
theorem close_on_exec_iff_sample : ∃ (i : Fin maxOpenFiles) (t : Tables) (m : Marks),
    FdReach 0 (fun t m c => c.Meets t m ∧ c.Bounded t) t m ∧ m (0, i) = true ∧
      ExecCloses t m := by
  obtain ⟨i, t₁, hopen, hinv, hlive, hcl, hon, hfile, -⟩ := open_sample
  have h₀ :
      FdReach 0 (fun t m c => c.Meets t m ∧ c.Bounded t) (Tables.start 0 4096 10 11 12) _ :=
    .start 4096 10 11 12 (by decide) (by decide) (by decide) (by decide)
  have h₁ := h₀.step (.openFile 0 20 2000 .normal) ⟨rfl, by simp [Tables.start]⟩
    ⟨trivial, trivial⟩ hopen
  have hm₁ : FdCall.mark i.val (fun _ => false) (.openFile 0 20 2000 .normal) = t₁.closes := by
    rw [hcl, FdCall.mark_openFile, Marks.set_val]
    exact Function.update_eq_self (0, i) _
  rw [hm₁] at h₁
  have hget : t₁.getOpenFile 0 i.val = some 20 := by
    rw [Tables.getOpenFile, fdIndex_val]
    exact (hfile _).mpr rfl
  have hmeets : FdCall.Meets t₁ t₁.closes (.setFd 0 i.val 1) := by
    intro f hf
    obtain rfl := Option.some.inj (hget.symm.trans hf)
    rw [if_pos rfl]
    refine ⟨fun x hx => Or.inr ?_, hon⟩
    rw [(hfile x).mp hx, fdIndex_val]
    exact ⟨rfl, rfl⟩
  rcases hinv.outcome (c := .setFd 0 i.val 1) ⟨hlive, trivial⟩ trivial with
    ⟨v, t₂, hrun, -, -⟩ | ⟨-, hno⟩
  · have h₂ := h₁.step (.setFd 0 i.val 1) ⟨hlive, trivial⟩ ⟨hmeets, trivial⟩ hrun
    have hv : v = 0 := by
      obtain ⟨o, st', ho, hst, -⟩ := hinv.counted.setCloexec ((hfile (0, i)).mpr rfl)
      have hrun' : (FdCall.setFd 0 i.val 1).run t₁ = .ok (0, { t₁ with store := st' }) := by
        simp only [FdCall.run, Tables.fcntlSetFdTo, hget, if_true, Tables.fcntlSetFd, ho, hst]
      exact (Prod.mk.inj (Except.ok.inj (hrun.symm.trans hrun'))).1
    refine ⟨i, t₂, _, h₂, ?_, (close_on_exec_iff h₂).1⟩
    rw [FdCall.mark_setFd, if_pos hv, Marks.set_val, Function.update_self]
    rfl
  · exact absurd hmeets hno

/-- The init process opens a file, duplicates its descriptor and marks the copy: an `execve` closes
the unmarked descriptor too. -/
theorem unmarked_closed : ∃ (i j : Fin maxOpenFiles) (t : Tables) (m : Marks),
    FdReach 0 (fun _ _ _ => True) t m ∧ t.fdFile (0, i) = some 20 ∧
      t.fdFile (0, j) = some 20 ∧ m (0, i) = false ∧ m (0, j) = true ∧ ¬ ExecCloses t m := by
  obtain ⟨i, t₁, hopen, hinv, hlive, hcl, -, hfile, k, hk⟩ := open_sample
  have h₀ : FdReach 0 (fun _ _ _ => True) (Tables.start 0 4096 10 11 12) _ :=
    .start 4096 10 11 12 (by decide) (by decide) (by decide) (by decide)
  have h₁ := h₀.step (.openFile 0 20 2000 .normal) ⟨rfl, by simp [Tables.start]⟩
    trivial hopen
  have hm₁ : FdCall.mark i.val (fun _ => false) (.openFile 0 20 2000 .normal) =
      fun _ => false := by
    rw [FdCall.mark_openFile, Marks.set_val]
    exact Function.update_eq_self (0, i) _
  rw [hm₁] at h₁
  have hget : t₁.getOpenFile 0 i.val = some 20 := by
    rw [Tables.getOpenFile, fdIndex_val]
    exact (hfile _).mpr rfl
  have hi : t₁.fdFile (0, i) = some 20 := (hfile _).mpr rfl
  rcases Tables.allocFd_cases (t := t₁) (p := 0)
    (f := 20) with ⟨j, hj, halloc⟩ | ⟨hfull, -⟩
  · obtain ⟨t₂, hdup, hinv₂, hfd₂, hcl₂⟩ := hinv.share hlive hj hi
    have hnn : ¬ (j.val : Int) < 0 := Int.not_lt.mpr (Int.natCast_nonneg _)
    have hij : ((0, i) : Fd) ≠ (0, j) := by
      intro he
      rw [← he, hi] at hj
      cases hj
    have hrun₂ : (FdCall.dup 0 i.val).run t₁ = .ok ((j.val : Int), t₂) := by
      simp only [FdCall.run, Tables.dup, hget, halloc, hnn, if_false, hdup, ok_bind]
      rfl
    have h₂ := h₁.step (.dup 0 i.val) ⟨hlive, trivial⟩ trivial hrun₂
    have hm₂ : FdCall.mark j.val (fun _ => false) (.dup 0 i.val) = t₂.closes := by
      rw [FdCall.mark_dup, Marks.set_val, hcl₂, hcl]
    rw [hm₂] at h₂
    have hi₂ : t₂.fdFile (0, i) = some 20 := by rw [hfd₂, Function.update_of_ne hij, hi]
    have hj₂ : t₂.fdFile (0, j) = some 20 := by rw [hfd₂, Function.update_self]
    have hmi : t₂.closes (0, i) = false := by rw [hcl₂, Function.update_of_ne hij, hcl]
    have hlive₂ := hinv₂.owner _ _ hj₂
    have hget₂ : t₂.getOpenFile 0 j.val = some 20 := by
      rw [Tables.getOpenFile, fdIndex_val]
      exact hj₂
    obtain ⟨o, st', ho, hst, -⟩ := hinv₂.counted.setCloexec hj₂
    have hrun₃ : (FdCall.setFd 0 j.val 1).run t₂ = .ok (0, { t₂ with store := st' }) := by
      simp only [FdCall.run, Tables.fcntlSetFdTo, hget₂, if_true, Tables.fcntlSetFd, ho, hst]
    have h₃ := h₂.step (.setFd 0 j.val 1) ⟨hlive₂, trivial⟩ trivial hrun₃
    have hm₃ : FdCall.mark 0 t₂.closes (.setFd 0 j.val 1) =
        Function.update t₂.closes (0, j) true := by
      rw [FdCall.mark_setFd, if_pos rfl, Marks.set_val]
      rfl
    refine ⟨i, j, _, _, h₃, hi₂, hj₂, ?_, ?_, fun hex => ?_⟩
    · rw [hm₃, Function.update_of_ne hij, hmi]
    · rw [hm₃, Function.update_self]
    · have hmeets := (hinv₂.meets_iff (c := .setFd 0 j.val 1) ⟨hlive₂, trivial⟩
        trivial).mpr
        ⟨_, _, hrun₃, hex⟩
      have hall := (hmeets 20 hget₂).1 (0, i) hi₂
      rw [hmi, fdIndex_val] at hall
      rcases hall with hall | ⟨-, hall⟩
      · cases hall
      · exact hij (by rw [Option.some.inj hall])
  · exact absurd hk (hfull k)

end OsKernel.Pm

import OsKernel.Pm.DentryCover
import OsKernel.Pm.FileLifetime

/-! The runs of all calls, from the boot of the first process on. -/

namespace OsKernel.Pm
open Fs RefCount

namespace CwdTables

variable {ι : Type} {t t' : CwdTables ι} {fs : Inodes ι} {p : Fin numProcess} {f : Nat} {d : Did}

/-- What `fork` has done before the descriptors of `l` are copied from `p` to `np`. -/
structure Copying (t : CwdTables ι) (p np : Fin numProcess) (l : List (Fin maxOpenFiles))
    (t' : CwdTables ι) : Prop where
  safe : t'.Safe
  counted : t'.Counted
  cwd : t'.cwd = t.cwd
  state : ∀ q, (t'.tables.procs q).state = (t.tables.procs q).state
  others : ∀ q, q ≠ np → (t'.tables.procs q).ofile = (t.tables.procs q).ofile
  nodup : l.Nodup
  free : ∀ i ∈ l, (t'.tables.procs np).ofile i = none

theorem Copying.step {np : Fin numProcess} {i : Fin maxOpenFiles} {l : List (Fin maxOpenFiles)}
    {t₀ : CwdTables ι} (h : Copying t₀ p np (i :: l) t) (hrun : t.copyFd p np i = .ok t') :
    Copying t₀ p np l t' := by
  obtain ⟨hi, hl⟩ := List.nodup_cons.mp h.nodup
  unfold CwdTables.copyFd at hrun
  split at hrun
  · cases hrun
    exact ⟨h.safe, h.counted, h.cwd, h.state, h.others, hl,
      fun j hj => h.free j (List.mem_cons_of_mem _ hj)⟩
  · rename_i f hf
    obtain ⟨t₁, hdup, hrun⟩ := bind_eq_ok.mp hrun
    cases hrun
    obtain ⟨k, hk, hpos, hlt⟩ := h.counted.file (x := (p, .inl i)) hf
    obtain ⟨hsafe, hprocs, hcwd, -, hcnt⟩ := h.safe.dupFile hk hpos hlt hdup
    refine ⟨hsafe.setFd i (some f), ?_, hcwd.trans h.cwd, fun q => ?_, fun q hq => ?_, hl,
      fun j hj => ?_⟩
    · have hfree : t.tables.ptr (np, .inl i) = none := h.free i List.mem_cons_self
      refine h.counted.share hfree ?_ (by rw [hk]; rfl) hcnt
      exact (Tables.ptr_setFd i (some f)).trans (by rw [ptr_congr hprocs])
    · exact (setFd_state i (some f) q).trans (by rw [hprocs, h.state])
    · funext j
      refine (setFd_ofile i j (some f) q).trans ?_
      rw [if_neg fun he => hq he.1, hprocs, h.others q hq]
    · refine (setFd_ofile i j (some f) np).trans ?_
      rw [if_neg, hprocs]
      · exact h.free j (List.mem_cons_of_mem _ hj)
      · rintro ⟨-, rfl⟩
        exact hi hj

/-- What `exit_proc` has done before the descriptors of `l` are dropped. -/
structure Dropping (t : CwdTables ι) (p : Fin numProcess) (l : List (Fin maxOpenFiles))
    (t' : CwdTables ι) : Prop where
  inv : t'.Inv
  leaf : LeafFds p l t'
  state : ∀ q, (t'.tables.procs q).state = (t.tables.procs q).state
  closed : ∀ i, i ∉ l → (t'.tables.procs p).ofile i = none

theorem Dropping.step {i : Fin maxOpenFiles} {l : List (Fin maxOpenFiles)} {t₀ : CwdTables ι}
    (h : Dropping t₀ p (i :: l) t) (hrun : t.dropFd p i = .ok t') : Dropping t₀ p l t' := by
  obtain ⟨hleaf, hl⟩ : t.LeafFd p i ∧ LeafFds p l t' := by
    cases h.leaf with
    | cons hleaf hrest => exact ⟨hleaf, hrest t' hrun⟩
  have hclosed : ∀ j, j ≠ i → j ∉ l → (t.tables.procs p).ofile j = none := by
    intro j hj hjl
    exact h.closed j (by simp [hj, hjl])
  unfold CwdTables.dropFd at hrun
  split at hrun
  · rename_i hnone
    cases hrun
    refine ⟨h.inv, hl, h.state, fun j hj => ?_⟩
    by_cases hji : j = i
    · rw [hji]
      exact hnone
    · exact hclosed j hji hj
  rename_i f hf
  obtain ⟨k, hk, hpos, -⟩ := h.inv.counted.file (x := (p, .inl i)) hf
  split at hrun
  · cases hrun
  rename_i o ho
  have hcnt : 0 < o.refcnt := by
    rw [FileStore.cnt, ho] at hk
    exact Option.some.inj hk ▸ hpos
  rw [if_pos hcnt] at hrun
  obtain ⟨t₁, hfree, hrun⟩ := bind_eq_ok.mp hrun
  cases hrun
  obtain ⟨hinv, hprocs⟩ := h.inv.dropFd hf hleaf hfree
  refine ⟨hinv, hl, fun q => (setFd_state i none q).trans (by rw [hprocs, h.state]),
    fun j hj => ?_⟩
  refine (setFd_ofile i j none p).trans ?_
  split
  · rfl
  · rename_i hji
    rw [hprocs]
    exact hclosed j (fun he => hji ⟨rfl, he⟩) hj

theorem setState_ptr (s : ProcState) : (t.setState p s).tables.ptr = t.tables.ptr := by
  rw [setState, Tables.ptr_setProc rfl rfl]

theorem setState_procs (s : ProcState) (q : Fin numProcess) : (t.setState p s).tables.procs q =
    if q = p then { t.tables.procs p with state := s } else t.tables.procs q := by
  simp only [setState, Tables.setProc_procs]

namespace Inv

theorem fork (h : t.Inv) {np : Fin numProcess} (hp : (t.tables.procs p).state.live = true)
    (hnp : (t.tables.procs np).state = .unused) (hrun : t.fork p np = .ok t') : t'.Inv := by
  unfold CwdTables.fork at hrun
  obtain ⟨t₁, hloop, hrun⟩ := bind_eq_ok.mp hrun
  have hcopy : Copying t p np [] t₁ := by
    refine foldlM_ok (P := Copying t p np) (fun i l a a' ha hstep => ha.step hstep) _ t t₁ ?_
      hloop
    exact ⟨h.safe, h.counted, rfl, fun _ => rfl, fun _ _ => rfl, List.nodup_finRange _,
      fun i _ => h.idle np (Or.inl hnp) i⟩
  cases hrun
  have hp₁ : (t₁.tables.procs p).state.live = true := by rw [hcopy.state, hp]
  have hnp₁ : (t₁.tables.procs np).state = .unused := by rw [hcopy.state, hnp]
  obtain ⟨htree, hcount⟩ := hcopy.safe.tree.dup (hcopy.safe.cwd_in hp₁)
  have hnone : t₁.liveCwd np = none := by
    rw [liveCwd, hnp₁]
    rfl
  have hprocs : ∀ q, (t₁.tables.setProc np fun x => { x with state := .runnable }).procs q =
      if q = np then { t₁.tables.procs np with state := .runnable } else t₁.tables.procs q :=
    fun q => Tables.setProc_procs ..
  have hptr :
      (t₁.tables.setProc np fun x => { x with state := .runnable }).ptr = t₁.tables.ptr := by
    rw [Tables.ptr_setProc rfl rfl]
  refine setCwd (p := np) (v := some (t₁.cwd p)) hcopy.safe hcopy.counted hptr rfl rfl ?_ htree
    (fun e => ?_)
    fun q hq i => ?_
  · funext q
    rw [liveCwd]
    simp only [hprocs]
    by_cases hq : q = np
    · subst hq
      simp [ProcState.live]
    · rw [if_neg hq, Function.update_of_ne hq, Function.update_of_ne hq, liveCwd]
  · have := hcount e
    rw [hnone, if_neg (Option.some_ne_none e).symm, this]
    simp only [Option.some.injEq, eq_comm]
    omega
  · simp only [hprocs] at hq ⊢
    split at hq
    · rcases hq with hq | hq <;> cases hq
    · rename_i hqnp
      rw [if_neg hqnp, hcopy.others q hqnp]
      exact h.idle q (hcopy.state q ▸ hq) i

theorem exitProc (h : t.Inv)
    (hleaf : LeafFds p (List.finRange maxOpenFiles) t) (hrun : t.exitProc p = .ok t') : t'.Inv := by
  unfold CwdTables.exitProc at hrun
  obtain ⟨t₁, hloop, hrun⟩ := bind_eq_ok.mp hrun
  have hdrop : Dropping t p [] t₁ := by
    refine foldlM_ok (P := Dropping t p) (fun i l a a' ha hstep => ha.step hstep) _ t t₁ ?_ hloop
    exact ⟨h, hleaf, fun _ => rfl, fun i hi => absurd (List.mem_finRange i) hi⟩
  cases hrun
  refine setCwd (p := p) (v := none) hdrop.inv.safe hdrop.inv.counted (setState_ptr .zombie)
    rfl rfl ?_ hdrop.inv.safe.tree (fun e => ?_) fun q hq i => ?_
  · funext q
    by_cases hq : q = p
    · subst hq
      simp [liveCwd, setState_procs, ProcState.live]
    · rw [Function.update_of_ne hq, liveCwd, liveCwd, setState_procs, if_neg hq]
      rfl
  · have hcache : (t₁.setState p .zombie).cache = t₁.cache := rfl
    rw [if_neg (Option.some_ne_none e).symm, hcache]
    split <;> omega
  · rw [setState_procs] at hq ⊢
    split
    · exact hdrop.closed i (List.not_mem_nil)
    · rename_i hqp
      rw [if_neg hqp] at hq
      exact hdrop.inv.idle q hq i

theorem freeproc (h : t.Inv) (hp : (t.tables.procs p).state = .zombie)
    (hrun : t.freeproc p = .ok t') : t'.Inv := by
  have hnone : ∀ i, (t.tables.procs p).ofile i = none := h.idle p (Or.inr hp)
  have hprocs : ∀ i, ((t.setState p .unused).tables.procs p).ofile i = none := by
    intro i
    rw [setState_procs, if_pos rfl]
    exact hnone i
  have hloop : t' = t.setState p .unused := by
    refine foldlM_ok (P := fun _ a => a = t.setState p .unused) (fun i l a a' ha hstep => ?_)
      _ _ t' rfl hrun
    subst ha
    unfold CwdTables.dropFd at hstep
    rw [hprocs i] at hstep
    exact (Except.ok.inj hstep).symm
  subst hloop
  have hcwd : (t.setState p .unused).liveCwd = t.liveCwd := by
    funext q
    by_cases hq : q = p
    · subst hq
      simp [liveCwd, setState_procs, ProcState.live, hp]
    · rw [liveCwd, liveCwd, setState_procs, if_neg hq]
      rfl
  refine ⟨h.safe.of_eq rfl rfl hcwd rfl, h.counted.of_eq (setState_ptr .unused) rfl,
    fun q hq i => ?_⟩
  by_cases hqp : q = p
  · subst hqp
    exact hprocs i
  · rw [setState_procs, if_neg hqp] at hq ⊢
    exact h.idle q hq i

theorem call (h : t.Inv) {init : Fin numProcess} {e : CwdCall} (hok : t.Keeps fs e)
    (hen : t.Enabled init e) (hrun : t.call fs e = .ok t') : t'.Inv := by
  have hmap : ∀ {x : Except Fault (Int × CwdTables ι)}, (·.2) <$> x = .ok t' → ∃ v,
      x = .ok (v, t') := by
    intro x hx
    cases x with
    | error e => cases hx
    | ok r => exact ⟨r.1, congrArg Except.ok (Prod.ext rfl (Except.ok.inj hx))⟩
  cases e with
  | openAt p f dirFd path creat =>
    obtain ⟨v, hv⟩ := hmap hrun
    exact h.openAt hen.1 hen.2 hv
  | dup p oldfd =>
    obtain ⟨v, hv⟩ := hmap hrun
    exact h.dup hen hv
  | dup2 p oldfd fd =>
    obtain ⟨v, hv⟩ := hmap hrun
    exact h.dup2 hen.1 hok hv
  | fcntlDupFd p cloexec oldfd arg =>
    obtain ⟨v, hv⟩ := hmap hrun
    exact h.fcntlDupFd hen hok hv
  | close p fd =>
    obtain ⟨v, hv⟩ := hmap hrun
    rcases h.close hok hv with ⟨h', -⟩ | ⟨i, -, h', -⟩
    · exact h'
    · exact h'
  | fork p np => exact h.fork hen.1 hen.2 hrun
  | chdir p path =>
    obtain ⟨v, hv⟩ := hmap hrun
    exact h.chdir hen hok hv
  | exit p => exact h.exitProc hok hrun
  | wait np => exact h.freeproc hen hrun

theorem covered (h : t.Inv) : t.Covered :=
  ⟨h.safe.counts, fun p i _ _ hi hd => h.file_in (x := (p, .inl i)) hi hd,
    fun _ hp => h.safe.cwd_in hp⟩

end Inv

end CwdTables

/-! ### The first process -/

theorem BootCache.tree {ι : Type} {fs : Inodes ι} {c : DentryCache ι} (h : BootCache fs c) :
    c.Tree c.freeList ∧ ∀ d, 0 ≤ (c.den d).refcnt := by
  induction h with
  | start pool node =>
    refine ⟨.start pool node, fun d => ?_⟩
    simp only [DentryCache.start]
    split
    · exact Int.zero_le_ofNat 1
    · exact Int.le_refl _
  | walk ns _ hrun ih =>
    have hg := DentryCache.Grown.pathSearch ih.1 (fun hd => Option.some.inj hd ▸ ih.1.root_in)
      hrun
    exact ⟨hg.tree, fun d => (ih.2 d).trans (hg.counts d)⟩
  | create ns name _ hrun hcreate ih =>
    have hg := DentryCache.Grown.pathSearch ih.1 (fun hd => Option.some.inj hd ▸ ih.1.root_in)
      hrun
    have hg' := hg.trans (.entryCreate hg.tree (hg.result rfl) hcreate)
    exact ⟨hg'.tree, fun d => (ih.2 d).trans (hg'.counts d)⟩

namespace CwdTables

variable {ι : Type} {fs : Inodes ι} {t t' : CwdTables ι} {init : Fin numProcess} {f : Nat}

/-- The tables while the first process opens its devices. -/
structure Booting (init : Fin numProcess) (t : CwdTables ι) : Prop where
  safe : t.Safe
  counted : t.Counted
  unused : ∀ q, (t.tables.procs q).state = .unused
  others : ∀ q, q ≠ init → ∀ i, (t.tables.procs q).ofile i = none

theorem Booting.empty {c : DentryCache ι} (h : BootCache fs c) :
    Booting init (CwdTables.empty c) := by
  obtain ⟨htree, hcount⟩ := h.tree
  have hnone : ∀ x, (CwdTables.empty c).tables.ptr x = none := by
    rintro ⟨q, fd | i⟩
    · rfl
    · rfl
  have hrefs : ∀ g, (CwdTables.empty c).tables.refs g = 0 := by
    intro g
    have hpos : ¬0 < (CwdTables.empty c).tables.refs g := by
      intro hp
      obtain ⟨x, hx⟩ := refs_pos_iff.mp hp
      rw [hnone] at hx
      cases hx
    omega
  have hcwds : ∀ d, (CwdTables.empty c).cwds d = 0 := by
    intro d
    have hpos : ¬0 < (CwdTables.empty c).cwds d := by
      intro hp
      obtain ⟨x, hx⟩ := refs_pos_iff.mp hp
      cases hx
    omega
  refine ⟨⟨htree, fun d F => ?_⟩, fun g => ?_, fun _ => rfl, fun _ _ _ => rfl⟩
  · have hheld : ∀ g ∈ F, (CwdTables.empty c).held d g = 0 := fun g _ => if_neg nofun
    rw [Finset.sum_eq_zero hheld, hcwds]
    exact hcount d
  · rw [hrefs]
    exact ⟨Nat.zero_le _, Nat.zero_le _⟩

theorem Booting.openStd (h : Booting init t) {i : Fin maxOpenFiles} {path : Str}
    (hi : (t.tables.procs init).ofile i = none) (hf : t.tables.store.files f = none)
    (hrun : t.openStd fs init i f path = .ok t') : Booting init t' ∧
      (∀ j, j ≠ i → (t'.tables.procs init).ofile j = (t.tables.procs init).ofile j) ∧
      ∀ g, g ≠ f → t'.tables.store.files g = t.tables.store.files g := by
  unfold CwdTables.openStd CwdTables.walk at hrun
  obtain ⟨⟨r, t₁⟩, hwalk, hrun⟩ := bind_eq_ok.mp hrun
  obtain ⟨⟨r', c⟩, hsearch, hwalk⟩ := bind_eq_ok.mp hwalk
  obtain ⟨rfl, rfl⟩ := Prod.mk.inj (Except.ok.inj hwalk)
  cases hrun
  have hg : DentryCache.Grown t.cache c r' :=
    .pathSearch h.safe.tree (fun hd => Option.some.inj hd ▸ h.safe.tree.root_in) hsearch
  have hnew : (({ t with cache := c } : CwdTables ι).newFile f .device .device r').Safe :=
    (h.safe.grown hg).newFile hf fun d hd => hg.result hd
  have hsafe := hnew.setFd (p := init) i (some f)
  refine ⟨⟨hsafe, ?_, fun q => (setFd_state i (some f) q).trans (h.unused q),
    fun q hq j => ?_⟩, fun j hj => ?_,
    fun g hg => Function.update_of_ne hg ..⟩
  · refine h.counted.share (x := (init, .inl i)) (k := 0) hi (Tables.ptr_setFd i (some f)) ?_
      (FileStore.cnt_update ..)
    rw [FileStore.cnt, hf]
    rfl
  · refine (setFd_ofile i j (some f) q).trans ?_
    rw [if_neg fun he => hq he.1]
    exact h.others q hq j
  · refine (setFd_ofile i j (some f) init).trans ?_
    rw [if_neg fun he => hj he.2]
    rfl

theorem Inv.boot {c : DentryCache ι} {f0 f1 f2 : Nat} (hc : BootCache fs c) (h01 : f0 ≠ f1)
    (h02 : f0 ≠ f2) (h12 : f1 ≠ f2) (hrun : CwdTables.boot fs init f0 f1 f2 c = .ok t) :
      t.Inv := by
  unfold CwdTables.boot at hrun
  obtain ⟨t₁, hrun₁, hrun⟩ := bind_eq_ok.mp hrun
  obtain ⟨t₂, hrun₂, hrun⟩ := bind_eq_ok.mp hrun
  obtain ⟨t₃, hrun₃, hrun⟩ := bind_eq_ok.mp hrun
  obtain ⟨⟨r, c'⟩, hsearch, hrun⟩ := bind_eq_ok.mp hrun
  obtain ⟨h₁, ho₁, hf₁⟩ := (Booting.empty hc).openStd rfl rfl hrun₁
  obtain ⟨h₂, ho₂, hf₂⟩ := h₁.openStd (ho₁ _ (by simp)) (hf₁ f1 (Ne.symm h01))
    hrun₂
  obtain ⟨h₃, -, -⟩ := h₂.openStd ((ho₂ _ (by simp)).trans (ho₁ _ (by simp)))
    ((hf₂ f2 (Ne.symm h12)).trans (hf₁ f2 (Ne.symm h02))) hrun₃
  have hg := DentryCache.Grown.entrySearch h₃.safe.tree h₃.safe.tree.root_in hsearch
  cases r with
  | none => cases hrun
  | some d =>
    cases hrun
    have hd : d ∉ c'.freeList := hg.result rfl
    obtain ⟨htree, hdup⟩ := hg.tree.dup hd
    obtain ⟨htree', hdup'⟩ := htree.dup hd
    have hs : ({ t₃ with cache := c' } : CwdTables ι).Safe := h₃.safe.grown hg
    refine setCwd (p := init) (v := some d) hs h₃.counted (setState_ptr .running) rfl rfl ?_
      htree' (fun e => ?_)
      fun q hq i => ?_
    · funext q
      rw [liveCwd, setState_procs]
      by_cases hq : q = init
      · subst hq
        simp [ProcState.live, CwdTables.setState]
      · rw [if_neg hq, Function.update_of_ne hq, liveCwd]
        simp [CwdTables.setState, hq]
    · have h₁ := hdup e
      have h₂ := hdup' e
      have hcache : (c'.den e).refcnt + (if some d = some e then 1 else 0) ≤
          (((c'.dup d).dup d).den e).refcnt := by
        rw [h₂, h₁]
        simp only [Option.some.injEq, eq_comm]
        split <;> omega
      refine hcache.trans ?_
      simp only [CwdTables.setState]
      split <;> omega
    · rw [setState_procs] at hq ⊢
      split at hq
      · rcases hq with hq | hq <;> cases hq
      · rename_i hqi
        rw [if_neg hqi]
        exact h₃.others q hqi i

end CwdTables

/-- In every run in which `fcntl` gives no new descriptor to a file that has a dentry, and the last
reference to a dentry is given back only when it has no children, the counts of the dentries cover
their users. -/
theorem dentries_covered {ι : Type} {fs : Inodes ι} {init : Fin numProcess} {t : CwdTables ι}
    (hrun : CwdRun fs init (fun t e => t.Keeps fs e) t) : t.Covered := by
  have h : t.Inv := by
    induction hrun with
    | start hc h01 h02 h12 hboot => exact .boot hc h01 h02 h12 hboot
    | step _ hok hen hcall ih => exact ih.call hok hen hcall
  exact h.covered


/-! ### A descriptor of `fcntl` -/

/-- A root with a directory `mnt` and a file `a`. -/
def mountInodes : Inodes Nat where
  lookup i n := if i = 0 ∧ n = CwdTables.mnt then some 1 else if i = 0 ∧ n = ['a'] then some 2
    else none
  mknode _ _ := none
  rDev _ := -1
  filetype i := if i = 2 then .normal else .direct

/-- What the samples need to know of the tables: some descriptors are free, and the root has no
dentry for the file `a` yet. -/
structure Ready (t : CwdTables Nat) (d : Did) (l : List Did) : Prop where
  live : (t.tables.procs 0).state = .running
  free : ∀ i : Fin maxOpenFiles, 3 ≤ i.val → (t.tables.procs 0).ofile i = none
  file : t.tables.store.files 20 = none
  root : t.cache.root = 0
  lookup : (t.cache.den 0).children.lookup ['a'] = none
  node : (t.cache.den 0).node = 0
  refcnt : (t.cache.den 0).refcnt = 1
  list : t.cache.freeList = d :: l
  ne : (0 : Did) ≠ d

/-- The devices are not found, so that they have no dentries. -/
theorem openStd_missing {t : CwdTables Nat} {i : Fin maxOpenFiles} {f : Nat} {path n : Str}
    (hsplit : splitNames path = [['d', 'e', 'v'], n]) (hnode : (t.cache.den t.cache.root).node = 0)
    (hchild : (t.cache.den t.cache.root).children.lookup ['d', 'e', 'v'] = none) :
    t.openStd mountInodes 0 i f path =
      .ok ((t.newFile f .device .device none).setFd 0 i (some f)) := by
  have hlook : mountInodes.lookup 0 ['d', 'e', 'v'] = none := by decide
  have hsearch : t.cache.pathSearch mountInodes false (splitNames path) (some t.cache.root) =
      .ok (none, t.cache) := by
    rw [hsplit, DentryCache.pathSearch, if_neg (by simp), if_neg (by decide), if_neg (by decide),
      DentryCache.entrySearch, hchild]
    simp only [hnode, hlook, ok_bind]
    rfl
  rw [CwdTables.openStd, CwdTables.walk, hsearch]
  rfl

theorem boot_ready : ∃ t d l, CwdTables.boot mountInodes 0 10 11 12
    (.start (fun _ => ⟨[], ∅, 0, none, 0⟩) 0) = .ok t ∧ Ready t d l := by
  set c₀ := DentryCache.start (fun _ : Did => (⟨[], ∅, 0, none, 0⟩ : Dentry Nat)) 0
  have htree : c₀.Tree c₀.freeList := .start _ _
  obtain ⟨d₁, d₂, l, hl⟩ : ∃ d₁ d₂ l, c₀.freeList = d₁ :: d₂ :: l :=
    DentryCache.start_freeList _ _
  have hnodup := htree.nodup
  have hroot := htree.root_in
  rw [hl] at hnodup hroot
  have h01 : (0 : Did) ≠ d₁ := fun h => hroot (by rw [show c₀.root = d₁ from h]; simp)
  have h02 : (0 : Did) ≠ d₂ := fun h => hroot (by rw [show c₀.root = d₂ from h]; simp)
  have hden : c₀.den 0 = ⟨['/'], ∅, 0, none, 1⟩ := by simp [c₀, DentryCache.start]
  have hnode : (c₀.den c₀.root).node = 0 := by rw [show c₀.root = 0 from rfl, hden]
  have hchild : ∀ n, (c₀.den c₀.root).children.lookup n = none := by
    intro n
    rw [show c₀.root = 0 from rfl, hden]
    rfl
  let c₁ := ({ c₀ with freeList := d₂ :: l } : DentryCache Nat).enter d₁ CwdTables.mnt 1 0 0
  have hsearch : c₀.entrySearch mountInodes c₀.root CwdTables.mnt = .ok (some d₁, c₁) :=
    DentryCache.entrySearch_new (hchild _) (by rw [hnode]; rfl) (by decide) hl
  let t₁ := ((CwdTables.empty c₀).newFile 10 .device .device none).setFd 0 ⟨0, by decide⟩
    (some 10)
  let t₂ := (t₁.newFile 11 .device .device none).setFd 0 ⟨1, by decide⟩ (some 11)
  let t₃ := (t₂.newFile 12 .device .device none).setFd 0 ⟨2, by decide⟩ (some 12)
  have hrun₁ : (CwdTables.empty c₀).openStd mountInodes 0 ⟨0, by decide⟩
      10 CwdTables.stdin = .ok t₁ :=
    openStd_missing (n := ['s', 't', 'd', 'i', 'n']) ((splitNames_eq _).trans (by decide))
      hnode (hchild _)
  have hrun₂ : t₁.openStd mountInodes 0 ⟨1, by decide⟩ 11 CwdTables.stdout = .ok t₂ :=
    openStd_missing (n := ['s', 't', 'd', 'o', 'u', 't']) ((splitNames_eq _).trans (by decide))
      hnode (hchild _)
  have hrun₃ : t₂.openStd mountInodes 0 ⟨2, by decide⟩ 12 CwdTables.stderr = .ok t₃ :=
    openStd_missing (n := ['s', 't', 'd', 'e', 'r', 'r']) ((splitNames_eq _).trans (by decide))
      hnode (hchild _)
  let t₄ :=
    ({ t₃ with cwd := Function.update t₃.cwd 0 d₁, cache := (c₁.dup d₁).dup d₁ } :
    CwdTables Nat).setState 0 .running
  refine ⟨t₄, d₂, l, ?_, ?_⟩
  · have hsearch₃ : t₃.cache.entrySearch mountInodes t₃.cache.root CwdTables.mnt =
      .ok (some d₁, c₁) := hsearch
    rw [CwdTables.boot, hrun₁, ok_bind, hrun₂, ok_bind, hrun₃, ok_bind, hsearch₃, ok_bind]
    rfl
  · have hzero : t₄.cache.den 0 =
        { c₀.den 0 with children := (c₀.den 0).children.insert CwdTables.mnt d₁ } := by
      show ((c₁.dup d₁).dup d₁).den 0 = _
      rw [DentryCache.dup, DentryCache.set_den, if_neg h01, DentryCache.dup, DentryCache.set_den,
        if_neg h01, DentryCache.enter_den h01, if_pos rfl]
    refine ⟨rfl, fun i hi => ?_, ?_, rfl, ?_, ?_, ?_, rfl, h02⟩
    · have hne : ∀ k (hk : k < maxOpenFiles), k < 3 → i ≠ ⟨k, hk⟩ := by
        rintro k hk hlt rfl
        exact Nat.not_lt.mpr hi hlt
      have h₃ : (t₃.tables.procs 0).ofile i = (t₂.tables.procs 0).ofile i :=
        (CwdTables.setFd_ofile _ i (some 12) 0).trans (if_neg fun h => hne 2 _ (by decide) h.2)
      have h₂ : (t₂.tables.procs 0).ofile i = (t₁.tables.procs 0).ofile i :=
        (CwdTables.setFd_ofile _ i (some 11) 0).trans (if_neg fun h => hne 1 _ (by decide) h.2)
      have h₁ : (t₁.tables.procs 0).ofile i = none :=
        (CwdTables.setFd_ofile _ i (some 10) 0).trans (if_neg fun h => hne 0 _ (by decide) h.2)
      exact (h₃.trans h₂).trans h₁
    · simp [t₄, t₃, t₂, t₁, CwdTables.setState, CwdTables.setFd, CwdTables.newFile,
        CwdTables.empty, Tables.setFd, Tables.setProc, FileStore.create]
    · rw [hzero]
      exact (AList.lookup_insert_ne (by decide)).trans (hchild _)
    · rw [hzero]
      exact hnode
    · rw [hzero, hden]

/-- The file `a` is opened. -/
theorem open_ready {t : CwdTables Nat} {d : Did} {l : List Did} (h : Ready t d l) :
    ∃ (i : Fin maxOpenFiles) (t' : CwdTables Nat),
      t.call mountInodes (.openAt 0 20 atFdcwd ['/', 'a'] false) = .ok t' ∧
      (t.tables.procs 0).ofile i = none ∧
      t'.tables.procs = (t.tables.setFd 0 i (some 20)).procs ∧
      t'.tables.store.files 20 = some ⟨.normal, .normal, 1, false, false⟩ ∧
      t'.dentry 20 = some d ∧
      t'.cache.root = 0 ∧ (t'.cache.den d).refcnt = 1 ∧ (t'.cache.den d).parent = some 0 ∧
      (t'.cache.den 0).refcnt = 1 := by
  let c := ({ t.cache with freeList := l } : DentryCache Nat).enter d ['a'] 2 0 0
  have hsplit : splitNames ['/', 'a'] = [['a']] := (splitNames_eq _).trans (by decide)
  have hsearch : t.cache.pathSearch mountInodes false [['a']] (some 0) = .ok (some d, c) := by
    rw [DentryCache.pathSearch, if_neg (by simp), if_neg (by decide), if_neg (by decide),
      DentryCache.entrySearch_new h.lookup (by rw [h.node]; rfl) (by decide) h.list]
    rfl
  let t₁ := ({ t with cache := c } : CwdTables Nat)
  have hwalk : t.walk mountInodes 0 ['/', 'a'] false = .ok (some d, t₁) := by
    rw [CwdTables.walk, hsplit, hsearch]
    rfl
  have hden : ∀ e, c.den e = if e =
      0 then { t.cache.den 0 with children := (t.cache.den 0).children.insert ['a'] d }
      else if e = d then ⟨['a'], ∅, 2, some 0, 0⟩ else t.cache.den e :=
        DentryCache.enter_den h.ne
  have hd : c.den d = ⟨['a'], ∅, 2, some 0, 0⟩ := by rw [hden, if_neg (Ne.symm h.ne),
    if_pos rfl]
  let t₂ := t₁.newFile 20 .normal .normal (some d)
  have hmax : 3 < maxOpenFiles := by decide
  have hv : 0 ≤ (t₂.tables.allocFd 0 20).1 :=
    allocFd_of_free ⟨3, hmax⟩ (h.free ⟨3, hmax⟩ (Nat.le_refl 3))
  obtain ⟨i, hi, ht⟩ := FilesInv.allocFd_spec hv
  refine ⟨i, { t₂ with tables := (t₂.tables.allocFd 0 20).2 }, ?_, hi, ?_, ?_, ?_, h.root, ?_,
    ?_, ?_⟩
  · have hbase : t.pathBase 0 atFdcwd ['/', 'a'] = .ok 0 := by
      rw [CwdTables.pathBase, if_pos rfl, h.root]
    have hopen : t₁.openDentry mountInodes 0 20 d = ((t₂.tables.allocFd 0 20).1,
        { t₂ with tables := (t₂.tables.allocFd 0 20).2 }) := by
      rw [CwdTables.openDentry]
      simp only [show t₁.cache.den d = _ from hd]
      rfl
    rw [CwdTables.call, CwdTables.openAt, hbase, ok_bind, hwalk, ok_bind]
    simp only
    rw [if_neg (by decide), hopen]
    rfl
  · rw [ht]
    rfl
  · rw [ht]
    simp [t₂, CwdTables.newFile, Tables.setFd, Tables.setProc, FileStore.create]
  · simp [t₂, CwdTables.newFile]
  · show ((c.dup d).den d).refcnt = 1
    rw [DentryCache.dup, DentryCache.set_den, if_pos rfl, hd]
    rfl
  · show ((c.dup d).den d).parent = some 0
    rw [DentryCache.dup, DentryCache.set_den, if_pos rfl, hd]
  · show ((c.dup d).den 0).refcnt = 1
    rw [DentryCache.dup, DentryCache.set_den, if_neg h.ne, hden, if_pos rfl]
    exact h.refcnt

theorem fdIndex_natCast (i : Fin maxOpenFiles) : fdIndex (i.val : Int) = some i := by
  have := i.isLt
  rw [fdIndex, dif_pos (by omega)]
  simp

/-- The file `a` is open, and has the one reference to its dentry. -/
theorem dentries_covered_sample : ∃ t d,
    CwdRun mountInodes 0 (fun t e => t.Keeps mountInodes e) t ∧
    t.dentry 20 = some d ∧ (t.cache.den d).refcnt = 1 ∧ t.Covered := by
  obtain ⟨t, d, l, hboot, hready⟩ := boot_ready
  obtain ⟨i, t', hcall, -, -, -, hden, -, hrefcnt, -⟩ := open_ready hready
  have h₀ : CwdRun mountInodes 0 (fun t e => t.Keeps mountInodes e) t :=
    .start (.start _ 0) (by decide) (by decide) (by decide) hboot
  have hlive : (t.tables.procs 0).state.live = true := by
    rw [hready.live]
    rfl
  have h₁ := h₀.step trivial (e := .openAt 0 20 atFdcwd ['/', 'a'] false)
    ⟨hlive, hready.file⟩ hcall
  exact ⟨t', d, h₁, hden, hrefcnt, dentries_covered h₁⟩

/-- The file `a` gets a second descriptor from `fcntl`, and the first one is closed: the dentry of
`a` is free, and the second descriptor is open. -/
theorem fcntl_uncovered : ∃ t, CwdRun mountInodes 0 (fun _ _ => True) t ∧ ¬t.Covered := by
  obtain ⟨t, d, l, hboot, hready⟩ := boot_ready
  obtain ⟨i, t₁, hcall, hi, hprocs, hfile, hden, hroot, hrefcnt, hparent, hused⟩ :=
    open_ready hready
  have h₀ : CwdRun mountInodes 0 (fun _ _ => True) t :=
    .start (.start _ 0) (by decide) (by decide) (by decide) hboot
  have hlive : (t.tables.procs 0).state.live = true := by
    rw [hready.live]
    rfl
  have h₁ := h₀.step trivial (e := .openAt 0 20 atFdcwd ['/', 'a'] false)
    ⟨hlive, hready.file⟩ hcall
  have hlive₁ : (t₁.tables.procs 0).state.live = true := by
    rw [hprocs, CwdTables.setFd_state]
    exact hlive
  have hofile₁ : ∀ j, (t₁.tables.procs 0).ofile j = if j = i then some 20
      else (t.tables.procs 0).ofile j := by
    intro j
    rw [hprocs, CwdTables.setFd_ofile]
    simp only [true_and]
  obtain ⟨j, hj, hji⟩ : ∃ j : Fin maxOpenFiles, 3 ≤ j.val ∧ j ≠ i := by
    by_cases h3 : i.val = 3
    · exact ⟨⟨4, by decide⟩, by decide, fun h => by rw [← h] at h3; cases h3⟩
    · exact ⟨⟨3, by decide⟩, Nat.le_refl 3, fun h => h3 (h ▸ rfl)⟩
  -- `fcntl` gives the descriptor `j`.
  have hopen : t₁.tables.getOpenFile 0 i.val = some 20 := by
    rw [Tables.getOpenFile, fdIndex_natCast]
    exact (hofile₁ i).trans (if_pos rfl)
  have hfree : (t₁.tables.procs 0).ofile j = none :=
    (hofile₁ j).trans ((if_neg hji).trans (hready.free j hj))
  let o₂ : File := ⟨.normal, .normal, 2, false, false⟩
  let o₃ : File := ⟨.normal, .normal, 1, false, false⟩
  let st :=
    { t₁.tables.store with files := Function.update t₁.tables.store.files 20 (some o₂) }
  let t₂ := ({ t₁ with tables := { t₁.tables.setFd 0 j (some 20) with store := st } } :
    CwdTables Nat)
  have hfcntl : t₁.call mountInodes (.fcntlDupFd 0 false i.val j.val) = .ok t₂ := by
    have hdup : t₁.tables.store.dup 20 = .ok st := by
      rw [FileStore.dup, hfile]
      rfl
    obtain ⟨n, hn⟩ : ∃ n, (maxOpenFiles - (j.val : Int)).toNat = n + 1 :=
      ⟨maxOpenFiles - j.val - 1, by have := j.isLt; omega⟩
    have hloop : t₁.tables.fcntlDupFd 0 i.val j.val = .ok ((j.val : Int), t₂.tables) := by
      rw [Tables.fcntlDupFd, hopen]
      simp only
      rw [hn, Tables.dupFdFrom, Tables.allocFdAt, fdIndex_natCast]
      simp only [hfree, if_true]
      rw [Tables.dupFile, show (t₁.tables.setFd 0 j (some 20)).store.dup 20 = .ok st from hdup]
      rfl
    rw [CwdTables.call, CwdTables.fcntlDupFd, hloop, ok_bind]
    simp only [or_true, if_true]
    rfl
  have h₂ := h₁.step trivial (e := .fcntlDupFd 0 false i.val j.val) hlive₁ hfcntl
  -- The descriptor `i` is closed.
  obtain ⟨c, hrelease, hfreed, -⟩ :=
    DentryCache.release_frees hrefcnt (by rw [hroot]; exact Ne.symm hready.ne)
    hparent hready.ne (by rw [hused]; exact Int.one_pos)
  let st' := { st with files := Function.update st.files 20 (some o₃) }
  let t₃ := ({ t₂ with tables := { t₂.tables with store := st' }, cache := c } :
    CwdTables Nat).setFd 0 i none
  have hofile₂ : ∀ k, (t₂.tables.procs 0).ofile k = if k = j then some 20
      else (t₁.tables.procs 0).ofile k := by
    intro k
    show ((t₁.tables.setFd 0 j (some 20)).procs 0).ofile k = _
    rw [CwdTables.setFd_ofile]
    simp only [true_and]
  have hclose : t₂.call mountInodes (.close 0 i.val) = .ok t₃ := by
    have hi₂ : (t₂.tables.procs 0).ofile i = some 20 := by
      rw [hofile₂, if_neg (Ne.symm hji), hofile₁, if_pos rfl]
    have hfree₂ : t₂.tables.store.freeFile 20 = .ok st' := by
      have hfile₂ : t₂.tables.store.files 20 = some o₂ := by
        show Function.update t₁.tables.store.files 20 (some o₂) 20 = some o₂
        rw [Function.update_self]
      have hdec : (o₂.refcnt + 2 ^ 32 - 1) % 2 ^ 32 = 1 := by simp [o₂]
      rw [FileStore.freeFile, hfile₂]
      simp only [hdec, Nat.one_ne_zero, if_false]
      rfl
    have hfreeFile : t₂.freeFile 20 =
        .ok { t₂ with tables := { t₂.tables with store := st' }, cache := c } := by
      rw [CwdTables.freeFile, Tables.freeFile, hfree₂]
      simp only [ok_bind, show t₂.dentry 20 = some d from hden,
        show t₂.cache.release d = .ok c from hrelease]
      rfl
    rw [CwdTables.call, CwdTables.close, fdIndex_natCast]
    simp only [hi₂, hfreeFile, ok_bind]
    rfl
  have h₃ := h₂.step trivial (e := .close 0 i.val)
    (show (t₂.tables.procs 0).state.live = true from
    (CwdTables.setFd_state ..).symm ▸ hlive₁) hclose
  refine ⟨t₃, h₃, fun h => h.openFile 0 j 20 d ?_ hden ?_⟩
  · refine (CwdTables.setFd_ofile i j none 0).trans ?_
    rw [if_neg fun h => hji h.2]
    exact (hofile₂ j).trans (if_pos rfl)
  · show d ∈ c.freeList
    rw [hfreed]
    exact List.mem_append_right _ List.mem_cons_self

end OsKernel.Pm

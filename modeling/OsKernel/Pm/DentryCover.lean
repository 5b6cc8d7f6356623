import Mathlib.Algebra.Order.BigOperators.Group.Finset
import OsKernel.Pm.DentryUsers

/-! The count of a dentry covers its users, while no count of a file goes up without it and no
dentry with children is freed. -/

namespace OsKernel.Fs.FileStore

variable {st st' : FileStore} {f : Nat} {o : File}

theorem closePipe_files {id : Nat} {w : Bool} (hrun : st.closePipe id w = .ok st') :
    st'.files = st.files := by
  unfold closePipe at hrun
  split at hrun <;> cases hrun
  rfl

/-- What a `free_file` that returns has done. -/
theorem freeFile_ok {k : Nat} (hcnt : st.cnt f = some k) (hpos : 0 < k) (hlt : k < 2 ^ 32)
    (hrun : st.freeFile f = .ok st') :
    st'.cnt = Function.update st.cnt f (if k = 1 then none else some (k - 1)) := by
  obtain ⟨o, ho, rfl⟩ : ∃ o, st.files f = some o ∧ o.refcnt = k := by simpa [cnt] using hcnt
  have hdec : (o.refcnt + 2 ^ 32 - 1) % 2 ^ 32 = o.refcnt - 1 := by omega
  unfold FileStore.freeFile at hrun
  rw [ho] at hrun
  simp only [hdec] at hrun
  by_cases h1 : o.refcnt = 1
  · rw [if_pos (by omega)] at hrun
    rw [if_pos h1]
    have hfiles : st'.files = Function.update st.files f none := by
      unfold FileStore.delete at hrun
      simp only at hrun
      split at hrun
      · exact closePipe_files hrun
      · cases hrun
        rfl
      · cases hrun
        rfl
    have hst : st' = ⟨Function.update st.files f none, st'.pipes⟩ := by rw [← hfiles]
    rw [hst, cnt_update]
    rfl
  · rw [if_neg (by omega)] at hrun
    rw [if_neg h1]
    cases hrun
    rw [cnt_update]
    rfl

theorem dup_ok {k : Nat} (hcnt : st.cnt f = some k) (hlt : k + 1 < 2 ^ 32)
    (hrun : st.dup f = .ok st') : st'.cnt = Function.update st.cnt f (some (k + 1)) := by
  obtain ⟨o, ho, rfl⟩ : ∃ o, st.files f = some o ∧ o.refcnt = k := by simpa [cnt] using hcnt
  unfold FileStore.dup at hrun
  rw [ho] at hrun
  cases hrun
  rw [cnt_update, Option.map_some, Nat.mod_eq_of_lt hlt]

end OsKernel.Fs.FileStore

namespace OsKernel.Pm
open Fs RefCount

/-- A bound on the sums of a function moves with its value at one place. -/
theorem sum_le_of_change (h h' : Nat → Nat) (r r' : Int) (f : Nat)
    (hsum : ∀ F : Finset Nat, ((∑ g ∈ F, h g : Nat) : Int) ≤ r)
    (hne : ∀ g, g ≠ f → h' g = h g)
    (hle : (h' f : Int) + r ≤ h f + r') (F : Finset Nat) :
      ((∑ g ∈ F, h' g : Nat) : Int) ≤ r' := by
  have h₁ : ∑ g ∈ F, h' g ≤ ∑ g ∈ insert f F, h' g :=
    Finset.sum_le_sum_of_subset (Finset.subset_insert f F)
  have h₂ := Finset.add_sum_erase (insert f F) h (Finset.mem_insert_self f F)
  have h₃ := Finset.add_sum_erase (insert f F) h' (Finset.mem_insert_self f F)
  have h₄ : ∑ g ∈ (insert f F).erase f, h' g = ∑ g ∈ (insert f F).erase f, h g :=
    Finset.sum_congr rfl fun g hg => hne g (Finset.ne_of_mem_erase hg)
  have h₅ := hsum (insert f F)
  omega

namespace CwdTables

variable {ι : Type} (t : CwdTables ι)

/-- The references that the file at `f` has to `d`. -/
def held (d : Did) (f : Nat) : Nat :=
  if t.dentry f = some d then (t.tables.store.cnt f).getD 0 else 0

/-- The working directory of a live process. -/
def liveCwd (p : Fin numProcess) : Option Did :=
  if (t.tables.procs p).state.live then some (t.cwd p) else none

/-- The number of live processes whose working directory is `d`. -/
def cwds (d : Did) : Nat := refs t.liveCwd d

/-- The counts cover their users, and no dentry of an open file or a working directory is free. -/
structure Covered : Prop where
  counts : ∀ d (F : Finset Nat), ((∑ f ∈ F, t.held d f : Nat) : Int) + t.cwds d ≤
    (t.cache.den d).refcnt
  openFile : ∀ p i f d, (t.tables.procs p).ofile i = some f → t.dentry f = some d →
    d ∉ t.cache.freeList
  cwd : ∀ p, (t.tables.procs p).state.live = true → t.cwd p ∉ t.cache.freeList

/-- The last reference to a dentry is given back only when it has no children, or is the root. -/
def LeafRelease (c : DentryCache ι) (d : Did) : Prop :=
  (c.den d).refcnt ≤ 1 → d = c.root ∨ (c.den d).children.entries = []

/-- The file of a descriptor may be closed. -/
def LeafFd (p : Fin numProcess) (i : Fin maxOpenFiles) : Prop :=
  ∀ f d, (t.tables.procs p).ofile i = some f → t.dentry f = some d → LeafRelease t.cache d

/-- The turns of `exit_proc` for some descriptors. -/
inductive LeafFds {ι : Type} (p : Fin numProcess) : List (Fin maxOpenFiles) → CwdTables ι →
    Prop
  | nil {t : CwdTables ι} : LeafFds p [] t
  | cons {t : CwdTables ι} {i : Fin maxOpenFiles} {l : List (Fin maxOpenFiles)} : t.LeafFd p i →
      (∀ t', t.dropFd p i = .ok t' → LeafFds p l t') → LeafFds p (i :: l) t

/-- `fcntl` gives no new descriptor to a file that has a dentry, and dentries are given back as
leaves. -/
def Keeps (fs : Inodes ι) : CwdCall → Prop
  | .fcntlDupFd p _ oldfd arg => ∀ f, t.tables.getOpenFile p oldfd = some f →
      0 ≤ arg ∧ (t.dentry f = none ∨ ∀ i, arg ≤ i.val →
        (t.tables.procs p).ofile i ≠ none)
  | .close p fd => ∀ i, fdIndex fd = some i → t.LeafFd p i
  | .dup2 p oldfd fd => t.tables.getOpenFile p oldfd ≠ none → fd ≠ oldfd →
      ∀ i, fdIndex fd = some i → t.LeafFd p i
  | .chdir p path => ∀ base d t', t.pathBase p atFdcwd path = .ok base →
      t.walk fs base path false = .ok (some d, t') → LeafRelease (t'.cache.dup d) (t.cwd p)
  | .exit p => LeafFds p (List.finRange maxOpenFiles) t
  | .openAt .. | .dup .. | .fork .. | .wait .. => True

/-- What does not depend on descriptors: the tree, and a count for every user. -/
structure Safe : Prop where
  tree : t.cache.Tree t.cache.freeList
  counts : ∀ d (F : Finset Nat), ((∑ f ∈ F, t.held d f : Nat) : Int) + t.cwds d ≤
    (t.cache.den d).refcnt

/-- A file is counted for each descriptor, and may be counted once more. -/
def Counted : Prop :=
  ∀ f, t.tables.refs f ≤ (t.tables.store.cnt f).getD 0 ∧
    (t.tables.store.cnt f).getD 0 ≤ t.tables.refs f + 1

/-- What the calls keep. -/
structure Inv : Prop where
  safe : t.Safe
  counted : t.Counted
  idle : ∀ p, (t.tables.procs p).state.idle → ∀ i, (t.tables.procs p).ofile i = none

variable {t} {t' : CwdTables ι} {fs : Inodes ι} {p : Fin numProcess} {f : Nat} {d : Did}

namespace Safe

/-- Only descriptors change. -/
theorem of_eq (h : t.Safe) (hcnt : t'.tables.store.cnt = t.tables.store.cnt)
    (hden : t'.dentry = t.dentry) (hcwd : t'.liveCwd = t.liveCwd) (hcache : t'.cache = t.cache) :
      t'.Safe := by
  refine ⟨hcache ▸ h.tree, fun d F => ?_⟩
  have hheld : t'.held d = t.held d := by
    funext g
    rw [held, held, hcnt, hden]
  rw [hheld, cwds, hcwd, hcache]
  exact h.counts d F

/-- A walk. -/
theorem grown (h : t.Safe) {c : DentryCache ι} {r : Option Did}
    (hg : DentryCache.Grown t.cache c r) : ({ t with cache := c } : CwdTables ι).Safe :=
  ⟨hg.tree, fun d F => (h.counts d F).trans (hg.counts d)⟩

theorem file_in (h : t.Safe) (hd : t.dentry f = some d) {k : Nat}
    (hk : t.tables.store.cnt f = some k) (hpos : 0 < k) : d ∉ t.cache.freeList := by
  intro hfree
  have h₁ := h.counts d {f}
  have h₂ := h.tree.idle hfree
  rw [Finset.sum_singleton, held, if_pos hd, hk, Option.getD_some] at h₁
  omega

theorem cwd_in (h : t.Safe) (hp : (t.tables.procs p).state.live = true) :
    t.cwd p ∉ t.cache.freeList := by
  intro hfree
  have h₁ := h.counts (t.cwd p) ∅
  have h₂ := h.tree.idle hfree
  have h₃ : 0 < t.cwds (t.cwd p) := refs_pos_iff.mpr ⟨p, if_pos hp⟩
  rw [Finset.sum_empty] at h₁
  omega

/-- The count of a file changes, and that of its dentry with it. -/
theorem change (h : t.Safe) {k k' : Option Nat} (hk : t.tables.store.cnt f = k)
    (hcnt : t'.tables.store.cnt = Function.update t.tables.store.cnt f k')
    (hden : t'.dentry = t.dentry)
    (hcwd : t'.liveCwd = t.liveCwd) (htree : t'.cache.Tree t'.cache.freeList)
    (hle : ∀ d, t.dentry f = some d →
      ((k'.getD 0 : Nat) : Int) + (t.cache.den d).refcnt ≤ (k.getD 0 : Nat) +
      (t'.cache.den d).refcnt)
    (hother : ∀ d, t.dentry f ≠ some d → (t.cache.den d).refcnt ≤ (t'.cache.den d).refcnt) :
      t'.Safe := by
  refine ⟨htree, fun d F => ?_⟩
  have hcwds : t'.cwds d = t.cwds d := by rw [cwds, cwds, hcwd]
  have key := sum_le_of_change (t.held d) (t'.held d) ((t.cache.den d).refcnt - t.cwds d)
    ((t'.cache.den d).refcnt - t.cwds d) f
    (fun F => by have := h.counts d F; omega)
    (fun g hg => by rw [held, held, hcnt, hden, Function.update_of_ne hg]) ?_ F
  · rw [hcwds]
    omega
  · rw [held, held, hcnt, hden, Function.update_self, hk]
    by_cases hd : t.dentry f = some d
    · rw [if_pos hd, if_pos hd]
      have := hle d hd
      omega
    · rw [if_neg hd, if_neg hd]
      have := hother d hd
      omega

/-- What a `dup` of a file has done. -/
theorem dupFile (h : t.Safe) {k : Nat} (hk : t.tables.store.cnt f = some k) (hpos : 0 < k)
    (hlt : k + 1 < 2 ^ 32) (hrun : t.dupFile f = .ok t') :
    t'.Safe ∧ t'.tables.procs = t.tables.procs ∧ t'.cwd = t.cwd ∧ t'.dentry = t.dentry ∧
      t'.tables.store.cnt = Function.update t.tables.store.cnt f (some (k + 1)) := by
  unfold CwdTables.dupFile at hrun
  obtain ⟨tables, htables, hrun⟩ := bind_eq_ok.mp hrun
  obtain ⟨store, hstore, heq⟩ := bind_eq_ok.mp htables
  cases heq
  have hcnt := FileStore.dup_ok hk hlt hstore
  cases hd : t.dentry f with
  | none =>
    rw [hd] at hrun
    cases hrun
    exact ⟨h.change hk hcnt rfl rfl h.tree (fun d he => absurd (hd.symm.trans he) nofun)
        fun _ _ =>
      Int.le_refl _, rfl, rfl, rfl, hcnt⟩
  | some d =>
    rw [hd] at hrun
    cases hrun
    obtain ⟨htree, hrefcnt⟩ := h.tree.dup (h.file_in hd hk hpos)
    refine ⟨h.change hk hcnt rfl rfl htree (fun e he => ?_) fun e he => ?_, rfl, rfl, rfl, hcnt⟩
    · rw [hd] at he
      have := hrefcnt e
      rw [if_pos (Option.some.inj he).symm] at this
      simp only [Option.getD_some]
      omega
    · have := hrefcnt e
      simp only
      split at this <;> omega

/-- What a `free_file` has done, where a dentry that is freed has no children. -/
theorem freeFile (h : t.Safe) {k : Nat} (hk : t.tables.store.cnt f = some k) (hpos : 0 < k)
    (hlt : k < 2 ^ 32) (hleaf : ∀ d, t.dentry f = some d → LeafRelease t.cache d)
    (hrun : t.freeFile f = .ok t') :
    t'.Safe ∧ t'.tables.procs = t.tables.procs ∧ t'.cwd = t.cwd ∧ t'.dentry = t.dentry ∧
      t'.tables.store.cnt = Function.update t.tables.store.cnt f
        (if k = 1 then none else some (k - 1)) := by
  unfold CwdTables.freeFile at hrun
  obtain ⟨tables, htables, hrun⟩ := bind_eq_ok.mp hrun
  obtain ⟨store, hstore, heq⟩ := bind_eq_ok.mp htables
  cases heq
  have hcnt := FileStore.freeFile_ok hk hpos hlt hstore
  have hget : (if k = 1 then none else some (k - 1)).getD 0 = k - 1 := by
    split
    · subst k
      rfl
    · rfl
  cases hd : t.dentry f with
  | none =>
    rw [hd] at hrun
    cases hrun
    exact ⟨h.change hk hcnt rfl rfl h.tree (fun d he => absurd (hd.symm.trans he) nofun)
        fun _ _ =>
      Int.le_refl _, rfl, rfl, rfl, hcnt⟩
  | some d =>
    rw [hd] at hrun
    obtain ⟨c, hrelease, htree, -, hrefcnt⟩ :=
      h.tree.release (h.file_in hd hk hpos) (hleaf d hd)
    simp only [hrelease, ok_bind] at hrun
    cases hrun
    refine ⟨h.change hk hcnt rfl rfl htree (fun e he => ?_) fun e he => ?_, rfl, rfl, rfl, hcnt⟩
    · rw [hd] at he
      have := hrefcnt e
      rw [if_pos (Option.some.inj he).symm] at this
      rw [hget]
      simp only [Option.getD_some]
      omega
    · have := hrefcnt e
      rw [if_neg fun hed => he (hd.trans (congrArg some hed.symm))] at this
      simp only
      omega

/-- A new file. -/
theorem newFile (h : t.Safe) (hf : t.tables.store.files f = none) {cls : FileClass}
    {filetype : FileTypes}
    {den : Option Did} (hden : ∀ d, den = some d → d ∉ t.cache.freeList) :
    (t.newFile f cls filetype den).Safe := by
  have hcnt : (t.newFile f cls filetype den).tables.store.cnt =
      Function.update t.tables.store.cnt f (some 1) := FileStore.cnt_update ..
  have htree : (t.newFile f cls filetype den).cache.Tree
      (t.newFile f cls filetype den).cache.freeList ∧
      ∀ e, ((t.newFile f cls filetype den).cache.den e).refcnt =
        (t.cache.den e).refcnt + if den = some e then 1 else 0 := by
    cases den with
    | none => exact ⟨h.tree, fun e => (Int.add_zero _).symm⟩
    | some d =>
      obtain ⟨htree, hrefcnt⟩ := h.tree.dup (hden d rfl)
      refine ⟨htree, fun e => (hrefcnt e).trans ?_⟩
      simp only [Option.some.injEq, eq_comm]
  refine ⟨htree.1, fun d F => ?_⟩
  have hzero : t.held d f = 0 := by
    rw [held, FileStore.cnt, hf]
    simp
  have key := sum_le_of_change (t.held d) ((t.newFile f cls filetype den).held d)
    ((t.cache.den d).refcnt - t.cwds d)
    (((t.newFile f cls filetype den).cache.den d).refcnt - t.cwds d) f
    (fun F => by have := h.counts d F; omega)
    (fun g hg => ?_) ?_ F
  · have hcwds : (t.newFile f cls filetype den).cwds d = t.cwds d := rfl
    rw [hcwds]
    omega
  · rw [held, held, hcnt, Function.update_of_ne hg]
    simp only [CwdTables.newFile, Function.update_of_ne hg]
  · rw [hzero, held, hcnt, Function.update_self, htree.2]
    simp only [CwdTables.newFile, Function.update_self, Option.getD_some]
    split <;> omega

end Safe

/-! ### Descriptors -/

theorem liveCwd_congr (hstate : ∀ q, (t'.tables.procs q).state = (t.tables.procs q).state)
    (hcwd : t'.cwd = t.cwd) : t'.liveCwd = t.liveCwd := by
  funext q
  rw [liveCwd, liveCwd, hstate, hcwd]

theorem setFd_state (i : Fin maxOpenFiles) (v : Option Nat) (q : Fin numProcess) :
    ((t.tables.setFd p i v).procs q).state = (t.tables.procs q).state := by
  by_cases hq : q = p <;> simp [Tables.setFd, Tables.setProc_procs, hq]

theorem setFd_ofile (i j : Fin maxOpenFiles) (v : Option Nat) (q : Fin numProcess) :
    ((t.tables.setFd p i v).procs q).ofile j =
      if q = p ∧ j = i then v else (t.tables.procs q).ofile j := by
  by_cases hq : q = p
  · subst hq
    by_cases hj : j = i <;> simp [Tables.setFd, Tables.setProc_procs, hj]
  · simp [Tables.setFd, Tables.setProc_procs, hq]

theorem ptr_congr {s s' : Tables} (h : s'.procs = s.procs) : s'.ptr = s.ptr := by
  funext ⟨q, x⟩
  rcases x with fd | i <;> simp [Tables.ptr, h]

theorem Safe.setFd (h : t.Safe) (i : Fin maxOpenFiles) (v : Option Nat) : (t.setFd p i v).Safe :=
  h.of_eq rfl rfl (liveCwd_congr (setFd_state i v) rfl) rfl

namespace Counted

/-- The file of a slot is there, and its count is in range. -/
theorem file (h : t.Counted) {x : Slot} (hx : t.tables.ptr x = some f) :
    ∃ k, t.tables.store.cnt f = some k ∧ 0 < k ∧ k + 1 < 2 ^ 32 := by
  have hpos : 0 < t.tables.refs f := refs_pos_iff.mpr ⟨x, hx⟩
  have hcard : t.tables.refs f ≤ Fintype.card Slot := refs_le_card
  have hmax : Fintype.card Slot + 2 < 2 ^ 32 := by
    rw [Fintype.card_prod, Fintype.card_sum, Fintype.card_fin, Fintype.card_fin, Fintype.card_fin]
    decide
  obtain ⟨hlow, hhigh⟩ := h f
  cases hk : t.tables.store.cnt f with
  | none =>
    rw [hk, Option.getD_none] at hlow
    omega
  | some k =>
    rw [hk, Option.getD_some] at hlow hhigh
    exact ⟨k, rfl, by omega, by omega⟩

/-- A slot that pointed to nothing points to a file, which is counted once more. -/
theorem share (h : t.Counted) {x : Slot} (hx : t.tables.ptr x = none)
    (hptr : t'.tables.ptr = Function.update t.tables.ptr x (some f)) {k : Nat}
    (hk : (t.tables.store.cnt f).getD 0 = k)
    (hcnt : t'.tables.store.cnt = Function.update t.tables.store.cnt f (some (k + 1))) :
      t'.Counted := by
  intro g
  have hu := refs_update t.tables.ptr x (some f) g
  rw [hx, if_neg (by simp), Nat.add_zero, ← hptr] at hu
  have hg := h g
  rw [Tables.refs] at hg
  rw [Tables.refs, hcnt, hu]
  by_cases hgf : g = f
  · subst hgf
    rw [if_pos rfl, Function.update_self, Option.getD_some]
    omega
  · rw [if_neg fun he => hgf (Option.some.inj he).symm, Nat.add_zero, Function.update_of_ne hgf]
    exact hg

/-- A slot is cleared, and its file is counted once less. -/
theorem drop (h : t.Counted) {x : Slot} (hx : t.tables.ptr x = some f)
    (hptr : t'.tables.ptr = Function.update t.tables.ptr x none) {k : Nat}
    (hk : t.tables.store.cnt f = some k)
    (hcnt : t'.tables.store.cnt =
      Function.update t.tables.store.cnt f (if k = 1 then none else some (k - 1))) :
        t'.Counted := by
  intro g
  have hu := refs_update t.tables.ptr x none g
  rw [if_neg (by simp : ¬(none : Option Nat) = some g), Nat.add_zero, hx, ← hptr] at hu
  have hg := h g
  rw [Tables.refs] at hg
  rw [Tables.refs, hcnt]
  by_cases hgf : g = f
  · subst hgf
    rw [if_pos rfl] at hu
    rw [hk, Option.getD_some] at hg
    rw [Function.update_self]
    split
    · simp only [Option.getD_none]
      omega
    · simp only [Option.getD_some]
      omega
  · rw [if_neg fun he => hgf (Option.some.inj he).symm, Nat.add_zero] at hu
    rw [Function.update_of_ne hgf, hu]
    exact hg

theorem of_eq (h : t.Counted) (hptr : t'.tables.ptr = t.tables.ptr)
    (hcnt : t'.tables.store.cnt = t.tables.store.cnt) : t'.Counted := by
  intro g
  rw [Tables.refs, hptr, hcnt]
  exact h g

/-- A new file that no slot points to. -/
theorem leak (h : t.Counted) (hf : t.tables.store.cnt f = none)
    (hptr : t'.tables.ptr = t.tables.ptr)
      (hcnt : t'.tables.store.cnt = Function.update t.tables.store.cnt f (some 1)) :
      t'.Counted := by
  intro g
  have hg := h g
  rw [Tables.refs] at hg
  rw [Tables.refs, hptr, hcnt]
  by_cases hgf : g = f
  · subst hgf
    rw [hf, Option.getD_none] at hg
    rw [Function.update_self, Option.getD_some]
    omega
  · rw [Function.update_of_ne hgf]
    exact hg

end Counted

theorem fdIndex_val {fd : Int} {i : Fin maxOpenFiles} (h : fdIndex fd = some i) :
    (i.val : Int) = fd := by
  unfold fdIndex at h
  split at h
  · rename_i hfd
    obtain rfl := Option.some.inj h
    exact Int.toNat_of_nonneg hfd.1
  · cases h

theorem allocFd_failed {s : Tables} (hv : ¬0 ≤ (s.allocFd p f).1) : (s.allocFd p f).2 = s := by
  unfold Tables.allocFd at hv ⊢
  split
  · rename_i fd hfind
    rw [hfind] at hv
    exact absurd (Int.natCast_nonneg _) hv
  · rfl

theorem allocFdAt_failed {s : Tables} {fd : Int} (hv : ¬0 ≤ (s.allocFdAt p f fd).1) :
    (s.allocFdAt p f fd).2 = s := by
  unfold Tables.allocFdAt at hv ⊢
  cases hi : fdIndex fd with
  | none => rfl
  | some i =>
    rw [hi] at hv
    simp only at hv ⊢
    split
    · rename_i hnone
      rw [if_pos hnone] at hv
      unfold fdIndex at hi
      split at hi
      · rename_i h
        exact absurd h.1 hv
      · cases hi
    · rfl

namespace Inv

/-- A dentry of a slot's file is not free. -/
theorem file_in (h : t.Inv) {x : Slot} (hx : t.tables.ptr x = some f) (hd : t.dentry f = some d) :
    d ∉ t.cache.freeList := by
  obtain ⟨k, hk, hpos, -⟩ := h.counted.file hx
  exact h.safe.file_in hd hk hpos

/-- The descriptors of a process that is not idle change, or are cleared. -/
theorem idle_setFd (h : t.Inv) {i : Fin maxOpenFiles} {v : Option Nat}
    (hv : v = none ∨ ¬(t.tables.procs p).state.idle)
    (hprocs : t'.tables.procs = (t.tables.setFd p i v).procs) (q : Fin numProcess)
    (hq : (t'.tables.procs q).state.idle) (j : Fin maxOpenFiles) :
      (t'.tables.procs q).ofile j = none := by
  rw [hprocs] at hq ⊢
  rw [setFd_state] at hq
  rw [setFd_ofile]
  split
  · rename_i hqp
    rw [hqp.1] at hq
    exact hv.resolve_right (not_not.mpr hq)
  · exact h.idle q hq j

/-- A descriptor gets a reference to the file of a slot. -/
theorem shareFd (h : t.Inv) {i : Fin maxOpenFiles} (hi : (t.tables.procs p).ofile i = none)
    {y : Slot} (hy : t.tables.ptr y = some f) (hp : (t.tables.procs p).state.live = true)
    (hrun : (t.setFd p i (some f)).dupFile f = .ok t') : t'.Inv := by
  obtain ⟨k, hk, hpos, hlt⟩ := h.counted.file hy
  obtain ⟨hsafe, hprocs, -, -, hcnt⟩ := (h.safe.setFd i (some f)).dupFile hk hpos hlt hrun
  refine ⟨hsafe, h.counted.share (x := (p, .inl i)) hi ?_ (by rw [hk]; rfl) hcnt,
    h.idle_setFd (Or.inr (ProcState.not_idle_of_live hp)) hprocs⟩
  rw [ptr_congr hprocs]
  exact Tables.ptr_setFd i (some f)

/-- A descriptor is closed. -/
theorem dropFd (h : t.Inv) {i : Fin maxOpenFiles} (hi : (t.tables.procs p).ofile i = some f)
    (hleaf : t.LeafFd p i) (hrun : t.freeFile f = .ok t') :
    (t'.setFd p i none).Inv ∧ t'.tables.procs = t.tables.procs := by
  obtain ⟨k, hk, hpos, hlt⟩ := h.counted.file (x := (p, .inl i)) hi
  obtain ⟨hsafe, hprocs, -, -, hcnt⟩ :=
    h.safe.freeFile hk hpos (by omega) (fun d => hleaf f d hi) hrun
  have hset : (t'.tables.setFd p i none).procs = (t.tables.setFd p i none).procs := by
    simp only [Tables.setFd, Tables.setProc, hprocs]
  refine ⟨⟨hsafe.setFd i none, h.counted.drop (x := (p, .inl i)) hi ?_ hk hcnt,
    h.idle_setFd (Or.inl rfl) hset⟩, hprocs⟩
  exact (ptr_congr hset).trans (Tables.ptr_setFd i none)

theorem grown (h : t.Inv) {c : DentryCache ι} {r : Option Did}
    (hg : DentryCache.Grown t.cache c r) : ({ t with cache := c } : CwdTables ι).Inv :=
  ⟨h.safe.grown hg, h.counted, h.idle⟩

theorem pathBase (h : t.Inv) (hp : (t.tables.procs p).state.live = true) {dirFd : Int} {path : Str}
    (hrun : t.pathBase p dirFd path = .ok d) : d ∉ t.cache.freeList := by
  have hcwd := h.safe.cwd_in hp
  unfold CwdTables.pathBase at hrun
  split at hrun
  · exact Except.ok.inj hrun ▸ hcwd
  split at hrun
  · exact Except.ok.inj hrun ▸ h.safe.tree.root_in
  split at hrun
  · exact Except.ok.inj hrun ▸ hcwd
  rename_i f hf
  have hopen : t.tables.getOpenFile p dirFd = some f := by
    split at hf
    · cases hf
    · exact hf
  obtain ⟨y, hy⟩ := FilesInv.getOpenFile_spec hopen
  split at hrun
  · cases hrun
  split at hrun
  · cases hd : t.dentry f with
    | none =>
      rw [hd] at hrun
      exact Except.ok.inj hrun ▸ hcwd
    | some e =>
      rw [hd] at hrun
      exact Except.ok.inj hrun ▸ h.file_in hy hd
  · cases hrun

theorem walk (h : t.Inv) {base : Did} (hbase : base ∉ t.cache.freeList) {path : Str}
    {parent : Bool}
    {r : Option Did} (hrun : t.walk fs base path parent = .ok (r, t')) :
    ∃ c, t' = { t with cache := c } ∧ DentryCache.Grown t.cache c r := by
  unfold CwdTables.walk at hrun
  obtain ⟨⟨r', c⟩, hsearch, hrun⟩ := bind_eq_ok.mp hrun
  obtain ⟨rfl, rfl⟩ := Prod.mk.inj (Except.ok.inj hrun)
  refine ⟨c, rfl, .pathSearch h.safe.tree (fun {d} hd => ?_) hsearch⟩
  obtain rfl := Option.some.inj hd
  exact hbase

theorem openDentry (h : t.Inv) (hp : (t.tables.procs p).state.live = true)
    (hf : t.tables.store.files f = none) (hd : d ∉ t.cache.freeList) :
      (t.openDentry fs p f d).2.Inv := by
  have hcnt : t.tables.store.cnt f = none := by
    rw [FileStore.cnt, hf]
    rfl
  have hnew : ∀ cls filetype, (t.newFile f cls filetype (some d)).tables.store.cnt =
      Function.update t.tables.store.cnt f (some 1) := fun _ _ => FileStore.cnt_update ..
  have hsafe : ∀ cls filetype, (t.newFile f cls filetype (some d)).Safe := fun cls filetype =>
    h.safe.newFile hf fun e he => Option.some.inj he ▸ hd
  unfold CwdTables.openDentry
  simp only
  generalize hcls : (if 0 ≤ fs.rDev (t.cache.den d).node ∧
      fs.rDev (t.cache.den d).node < 1024 then
    FileClass.device else FileClass.normal) = cls
  by_cases hv : 0 ≤ ((t.newFile f cls (fs.filetype (t.cache.den d).node) (some d)).tables.allocFd
    p f).1
  · obtain ⟨i, hi, ht⟩ := FilesInv.allocFd_spec hv
    rw [ht]
    refine ⟨(hsafe _ _).setFd i (some f),
      h.counted.share (x := (p, .inl i)) (f := f) hi ?_ (k := 0) ?_
      (hnew _ _), h.idle_setFd (Or.inr (ProcState.not_idle_of_live hp)) rfl⟩
    · exact Tables.ptr_setFd i (some f)
    · rw [hcnt]
      rfl
  · rw [allocFd_failed hv]
    exact ⟨hsafe _ _, h.counted.leak hcnt rfl (hnew _ _), h.idle⟩

theorem openAt (h : t.Inv) (hp : (t.tables.procs p).state.live = true)
    (hf : t.tables.store.files f = none) {dirFd v : Int} {path : Str} {creat : Bool}
    (hrun : t.openAt fs p f dirFd path creat = .ok (v, t')) : t'.Inv := by
  unfold CwdTables.openAt at hrun
  obtain ⟨base, hbase, hrun⟩ := bind_eq_ok.mp hrun
  obtain ⟨⟨r, t₁⟩, hwalk, hrun⟩ := bind_eq_ok.mp hrun
  have hin := h.pathBase hp hbase
  obtain ⟨c, rfl, hgrown⟩ := h.walk hin hwalk
  have h₁ := h.grown hgrown
  simp only at hrun
  split at hrun
  · obtain ⟨-, rfl⟩ := Prod.mk.inj (Except.ok.inj hrun)
    exact h₁
  split at hrun
  · have hopen : (CwdTables.openDentry fs _ p f _).2.Inv :=
      h₁.openDentry hp hf (hgrown.result rfl)
    rwa [Except.ok.inj hrun] at hopen
  split at hrun
  · obtain ⟨-, rfl⟩ := Prod.mk.inj (Except.ok.inj hrun)
    exact h₁
  obtain ⟨⟨par, t₂⟩, hwalk₂, hrun⟩ := bind_eq_ok.mp hrun
  obtain ⟨c₂, rfl, hgrown₂⟩ := h₁.walk (hgrown.kept hin) hwalk₂
  have h₂ := h₁.grown hgrown₂
  simp only at hrun
  split at hrun
  · obtain ⟨-, rfl⟩ := Prod.mk.inj (Except.ok.inj hrun)
    exact h₂
  split at hrun
  · cases hrun
  obtain ⟨⟨r', c₃⟩, hcreate, hrun⟩ := bind_eq_ok.mp hrun
  have hgrown₃ := DentryCache.Grown.entryCreate h₂.safe.tree (hgrown₂.result rfl) hcreate
  have h₃ := h₂.grown hgrown₃
  simp only at hrun
  split at hrun
  · obtain ⟨-, rfl⟩ := Prod.mk.inj (Except.ok.inj hrun)
    exact h₃
  · have hopen : (CwdTables.openDentry fs _ p f _).2.Inv :=
      h₃.openDentry hp hf (hgrown₃.result rfl)
    rwa [Except.ok.inj hrun] at hopen

theorem close (h : t.Inv) {fd v : Int} (hleaf : ∀ i, fdIndex fd = some i → t.LeafFd p i)
    (hrun : t.close p fd = .ok (v, t')) : t'.Inv ∧ t'.tables.procs = t.tables.procs ∨
      ∃ i, fdIndex fd = some i ∧ t'.Inv ∧
        t'.tables.procs = (t.tables.setFd p i none).procs := by
  unfold CwdTables.close at hrun
  split at hrun
  · cases hrun
    exact Or.inl ⟨h, rfl⟩
  rename_i i hi
  split at hrun
  · cases hrun
    exact Or.inl ⟨h, rfl⟩
  rename_i f hf
  obtain ⟨t₁, hfree, hrun⟩ := bind_eq_ok.mp hrun
  obtain ⟨hinv, hprocs⟩ := h.dropFd hf (hleaf i hi) hfree
  obtain ⟨-, rfl⟩ := Prod.mk.inj (Except.ok.inj hrun)
  refine Or.inr ⟨i, hi, hinv, ?_⟩
  simp only [CwdTables.setFd, Tables.setFd, Tables.setProc, hprocs]

theorem dup (h : t.Inv) (hp : (t.tables.procs p).state.live = true) {oldfd v : Int}
    (hrun : t.dup p oldfd = .ok (v, t')) : t'.Inv := by
  unfold CwdTables.dup at hrun
  split at hrun
  · cases hrun
    exact h
  rename_i f hopen
  obtain ⟨y, hy⟩ := FilesInv.getOpenFile_spec hopen
  simp only at hrun
  split at hrun
  · rename_i hneg
    rw [allocFd_failed (by omega)] at hrun
    cases hrun
    exact h
  · rename_i hpos
    obtain ⟨i, hi, ht⟩ := FilesInv.allocFd_spec (Int.not_lt.mp hpos)
    rw [ht] at hrun
    obtain ⟨t₁, hdup, hrun⟩ := bind_eq_ok.mp hrun
    obtain ⟨-, rfl⟩ := Prod.mk.inj (Except.ok.inj hrun)
    exact h.shareFd hi hy hp hdup

theorem dup2 (h : t.Inv) (hp : (t.tables.procs p).state.live = true) {oldfd fd v : Int}
    (hleaf : t.tables.getOpenFile p oldfd ≠ none → fd ≠ oldfd → ∀ i,
      fdIndex fd = some i → t.LeafFd p i)
    (hrun : t.dup2 p oldfd fd = .ok (v, t')) : t'.Inv := by
  unfold CwdTables.dup2 at hrun
  split at hrun
  · cases hrun
    exact h
  rename_i f hopen
  split at hrun
  · cases hrun
    exact h
  rename_i hne
  split at hrun
  · cases hrun
  obtain ⟨⟨v₁, t₁⟩, hclose, hrun⟩ := bind_eq_ok.mp hrun
  obtain ⟨i, hi, hf⟩ := Option.bind_eq_some_iff.mp hopen
  -- The descriptor that is duplicated is another one, so that it stays open.
  have hkeep : t₁.Inv ∧ (t₁.tables.procs p).ofile i = some f ∧
      (t₁.tables.procs p).state.live = true := by
    rcases h.close (hleaf (by rw [hopen]; nofun) hne) hclose with
        ⟨h₁, hprocs⟩ | ⟨j, hj, h₁, hprocs⟩
    · rw [hprocs]
      exact ⟨h₁, hf, hp⟩
    · have hij : i ≠ j := by
        rintro rfl
        exact hne ((fdIndex_val hj).symm.trans (fdIndex_val hi))
      rw [hprocs, setFd_state, setFd_ofile, if_neg fun he => hij he.2]
      exact ⟨h₁, hf, hp⟩
  obtain ⟨h₁, hf₁, hp₁⟩ := hkeep
  simp only at hrun
  split at hrun
  · rw [allocFdAt_failed (by omega)] at hrun
    cases hrun
    exact h₁
  · rename_i hpos
    obtain ⟨j, hj, ht⟩ := FilesInv.allocFdAt_spec (Int.not_lt.mp hpos)
    rw [ht] at hrun
    obtain ⟨t₂, hdup, hrun⟩ := bind_eq_ok.mp hrun
    obtain ⟨-, rfl⟩ := Prod.mk.inj (Except.ok.inj hrun)
    exact h₁.shareFd (y := (p, .inl i)) hj hf₁ hp₁ hdup

end Inv

/-- The loop of `F_DUPFD` finds nothing, or a free descriptor. -/
theorem dupFdFrom_ok {s s' : Tables} {v : Int} (left : Nat) {i : Int} (hi : 0 ≤ i)
    (hrun : s.dupFdFrom p f left i = .ok (v, s')) : s' = s ∨ ∃ j st, i ≤ (j.val : Int) ∧
      (s.procs p).ofile j = none ∧ s.store.dup f = .ok st ∧
      s' = { s.setFd p j (some f) with store := st } := by
  induction left generalizing i with
  | zero =>
    cases hrun
    exact Or.inl rfl
  | succ left ih =>
    rw [Tables.dupFdFrom] at hrun
    split at hrun
    · rename_i hv
      unfold Tables.allocFdAt at hv hrun
      split at hv
      · exact absurd hv (by omega)
      rename_i j hj
      rw [hj] at hrun
      simp only at hrun
      split at hv
      · rename_i hfree
        rw [if_pos hfree] at hrun
        obtain ⟨s₁, hdup, hrun⟩ := bind_eq_ok.mp hrun
        obtain ⟨st, hst, heq⟩ := bind_eq_ok.mp hdup
        obtain ⟨-, rfl⟩ := Prod.mk.inj (Except.ok.inj hrun)
        cases heq
        exact Or.inr ⟨j, st, (fdIndex_val hj).ge, hfree, hst, rfl⟩
      · exact absurd hv (by omega)
    · rcases ih (by omega) hrun with h | ⟨j, st, hij, hrest⟩
      · exact Or.inl h
      · exact Or.inr ⟨j, st, by omega, hrest⟩

/-- The flag of a file changes. -/
theorem fcntlSetFd_ok {s s' : Tables} {fd v : Int} (hrun : s.fcntlSetFd p fd = .ok (v, s')) :
    s'.procs = s.procs ∧ s'.store.cnt = s.store.cnt := by
  unfold Tables.fcntlSetFd at hrun
  split at hrun
  · cases hrun
    exact ⟨rfl, rfl⟩
  split at hrun
  · cases hrun
  rename_i f _ _ o ho
  cases hrun
  refine ⟨rfl, ?_⟩
  rw [FileStore.cnt_update]
  refine Function.update_eq_self_iff.mpr ?_
  rw [FileStore.cnt, ho]
  rfl

namespace Inv

/-- Only the flags of files change. -/
theorem of_eq (h : t.Inv) (hprocs : t'.tables.procs = t.tables.procs)
    (hcnt : t'.tables.store.cnt = t.tables.store.cnt) (hden : t'.dentry = t.dentry)
    (hcwd : t'.cwd = t.cwd)
    (hcache : t'.cache = t.cache) : t'.Inv :=
  ⟨h.safe.of_eq hcnt hden (liveCwd_congr (fun q => by rw [hprocs]) hcwd) hcache,
    h.counted.of_eq (ptr_congr hprocs) hcnt, by rw [hprocs]; exact h.idle⟩

theorem fcntlDupFd (h : t.Inv) (hp : (t.tables.procs p).state.live = true) {cloexec : Bool}
    {oldfd arg v : Int} (hok : t.Keeps fs (.fcntlDupFd p cloexec oldfd arg))
    (hrun : t.fcntlDupFd p cloexec oldfd arg = .ok (v, t')) : t'.Inv := by
  unfold CwdTables.fcntlDupFd at hrun
  obtain ⟨⟨fd, s⟩, hdup, hrun⟩ := bind_eq_ok.mp hrun
  have hs : ({ t with tables := s } : CwdTables ι).Inv := by
    unfold Tables.fcntlDupFd at hdup
    split at hdup
    · cases hdup
      exact h
    rename_i f hopen
    obtain ⟨harg, hfile⟩ := hok f hopen
    rcases dupFdFrom_ok _ harg hdup with rfl | ⟨j, st, hij, hj, hst, rfl⟩
    · exact h
    have hden := hfile.resolve_right fun hfull => hfull j hij hj
    obtain ⟨y, hy⟩ := FilesInv.getOpenFile_spec hopen
    obtain ⟨k, hk, hpos, hlt⟩ := h.counted.file hy
    -- Without a dentry, this is what `dup` does.
    refine h.shareFd hj hy hp ?_
    have hst' : (t.tables.setFd p j (some f)).store.dup f = .ok st := hst
    unfold CwdTables.dupFile Tables.dupFile
    simp only [CwdTables.setFd, hden, hst', ok_bind]
    rfl
  simp only at hrun
  split at hrun
  · obtain ⟨-, rfl⟩ := Prod.mk.inj (Except.ok.inj hrun)
    exact hs
  split at hrun
  · cases hrun
  obtain ⟨⟨v', s'⟩, hset, hrun⟩ := bind_eq_ok.mp hrun
  obtain ⟨-, rfl⟩ := Prod.mk.inj (Except.ok.inj hrun)
  obtain ⟨hprocs, hcnt⟩ := fcntlSetFd_ok hset
  exact hs.of_eq hprocs hcnt rfl rfl rfl

/-- The working directory of a process changes, and the counts with it. -/
theorem setCwd (hs : t.Safe) (hc : t.Counted) {v : Option Did} (hptr : t'.tables.ptr = t.tables.ptr)
    (hstore : t'.tables.store = t.tables.store) (hden : t'.dentry = t.dentry)
    (hcwd : t'.liveCwd = Function.update t.liveCwd p v) (htree : t'.cache.Tree t'.cache.freeList)
    (hcount : ∀ e, (t.cache.den e).refcnt + (if v = some e then 1 else 0) ≤
      (t'.cache.den e).refcnt + if t.liveCwd p = some e then 1 else 0)
    (hidle : ∀ q, (t'.tables.procs q).state.idle → ∀ i, (t'.tables.procs q).ofile i = none) :
      t'.Inv := by
  refine ⟨⟨htree, fun e F => ?_⟩, hc.of_eq hptr (by rw [hstore]), hidle⟩
  have hheld : t'.held e = t.held e := by
    funext g
    rw [held, held, hstore, hden]
  have hu := refs_update t.liveCwd p v e
  have h₁ := hs.counts e F
  have h₂ := hcount e
  rw [hheld, cwds, hcwd]
  rw [cwds] at h₁
  by_cases hv : v = some e
  · rw [if_pos hv] at hu h₂
    split at h₂
    · rename_i hl
      rw [if_pos hl] at hu
      omega
    · rename_i hl
      rw [if_neg hl] at hu
      omega
  · rw [if_neg hv] at hu h₂
    split at h₂
    · rename_i hl
      rw [if_pos hl] at hu
      omega
    · rename_i hl
      rw [if_neg hl] at hu
      omega

theorem chdir (h : t.Inv) (hp : (t.tables.procs p).state.live = true) {path : Str} {v : Int}
    (hok : t.Keeps fs (.chdir p path)) (hrun : t.chdir fs p path = .ok (v, t')) : t'.Inv := by
  unfold CwdTables.chdir at hrun
  obtain ⟨base, hbase, hrun⟩ := bind_eq_ok.mp hrun
  obtain ⟨⟨r, t₁⟩, hwalk, hrun⟩ := bind_eq_ok.mp hrun
  obtain ⟨c, rfl, hgrown⟩ := h.walk (h.pathBase hp hbase) hwalk
  have h₁ := h.grown hgrown
  cases r with
  | none =>
    cases hrun
    exact h₁
  | some d =>
    obtain ⟨htree, hdup⟩ := hgrown.tree.dup (hgrown.result rfl)
    have hcwd : t.cwd p ∉ (c.dup d).freeList := h₁.safe.cwd_in hp
    obtain ⟨c', hrelease, htree', -, hcount⟩ := htree.release hcwd (hok base d _ hbase hwalk)
    simp only [hrelease, ok_bind] at hrun
    cases hrun
    have hlive : t.liveCwd p = some (t.cwd p) := if_pos hp
    refine setCwd (p := p) (v := some d) h₁.safe h₁.counted rfl rfl rfl ?_ htree' (fun e => ?_)
      h.idle
    · funext q
      by_cases hq : q = p
      · subst hq
        simp [liveCwd, hp]
      · simp [liveCwd, hq]
    · have h₂ := hcount e
      have h₃ := hdup e
      have h₄ : ({ t with cache := c } : CwdTables ι).liveCwd p = some (t.cwd p) := hlive
      rw [h₄, h₂, h₃]
      simp only [Option.some.injEq, eq_comm]
      omega

end Inv

end CwdTables

end OsKernel.Pm

import OsKernel.Fs.Ext4.ReadSubDir
import OsKernel.Fs.File
import OsKernel.Pm.DentryUsers
import OsKernel.Pm.ExecAlign
import OsKernel.Syscall.CopyoutBytes

/-! `_sys_fstat` and `_sys_fstatat`: a record on the stack of the kernel is filled by a helper,
whose result nobody reads, and copied to the user. -/

namespace OsKernel.Syscall

open Fs Mm Hsai Fs.Ext4 Pm

/-- The last fields of `Kstat`, which not every constructor sets. -/
structure Times where
  atimeSec : UInt64
  atimeNsec : UInt64
  mtimeSec : UInt64
  mtimeNsec : UInt64
  ctimeSec : UInt64
  ctimeNsec : UInt64

def Times.zero : Times := ⟨0, 0, 0, 0, 0, 0⟩

def Times.bytes (t : Times) : List UInt8 :=
  leBytes 8 t.atimeSec.toNat ++ leBytes 8 t.atimeNsec.toNat ++ leBytes 8 t.mtimeSec.toNat ++
    leBytes 8 t.mtimeNsec.toNat ++ leBytes 8 t.ctimeSec.toNat ++ leBytes 8 t.ctimeNsec.toNat

structure Kstat where
  dev : UInt64
  ino : UInt64
  mode : UInt32
  nlink : UInt32
  uid : UInt32
  gid : UInt32
  rdev : UInt64
  pad : UInt64
  size : UInt64
  blksize : UInt32
  pad2 : UInt32
  blocks : UInt64
  times : Times

/-- What an inode and its superblock answer. -/
structure NodeInfo where
  filetype : FileTypes
  /-- `_value` of the attributes. -/
  value : UInt16
  rDev : UInt64
  rIno : UInt64
  rFileSize : UInt64
  rBlockSize : UInt64
  rBlockNum : UInt64

/-- `FileAttrs::transMode`. -/
def transMode (filetype : FileTypes) (value : UInt16) : UInt32 :=
  (match filetype with
    | .normal => 0x8000
    | .direct => 0x4000
    | .symlink => 0xA000
    | .pipe => 0x1000
    | .device => 0x2000
    | .none => 0) ||| (value &&& 0x1ff).toUInt32

namespace Kstat

/-- The fields up to the times. -/
def head (st : Kstat) : List UInt8 :=
  leBytes 8 st.dev.toNat ++ leBytes 8 st.ino.toNat ++ leBytes 4 st.mode.toNat ++
    leBytes 4 st.nlink.toNat ++ leBytes 4 st.uid.toNat ++ leBytes 4 st.gid.toNat ++
    leBytes 8 st.rdev.toNat ++ leBytes 8 st.pad.toNat ++ leBytes 8 st.size.toNat ++
    leBytes 4 st.blksize.toNat ++ leBytes 4 st.pad2.toNat ++ leBytes 8 st.blocks.toNat

/-- The memory of the record. -/
def bytes (st : Kstat) : List UInt8 := st.head ++ st.times.bytes

/-- `Kstat( FileTypes )` in memory that holds `heap` where the times are. -/
def ofType (heap : Times) : Kstat where
  dev := 0
  ino := 1000000
  mode := 0
  nlink := 1
  uid := 0
  gid := 0
  rdev := 0
  pad := 0
  size := 0
  blksize := 0
  pad2 := 0
  blocks := 0
  times := heap

/-- `Kstat( dentry * )`. -/
def ofNode (node : NodeInfo) : Kstat where
  dev := if node.filetype = .device then node.rDev else 0x3f3f3f3f
  ino := node.rIno
  mode := transMode node.filetype node.value
  nlink := 1
  uid := 0
  gid := 0
  rdev := 0
  pad := 0
  size := node.rFileSize
  blksize := node.rBlockSize.toUInt32
  pad2 := 0
  blocks := node.rBlockNum
  times := Times.zero

end Kstat

/-- A file object: its `_stat`, and the directory that it gives as a base. -/
structure StatFile (Dentry : Type) where
  stat : Kstat
  den : Dentry

theorem toNat_lt_maxOpenFiles {fd : Int} (h : 0 ≤ fd ∧ fd < maxOpenFiles) :
    fd.toNat < maxOpenFiles := by omega

/-- The files of the process and the file system, whose path search gives the inode of a dentry. -/
structure StatEnv (Dentry : Type) where
  ofile : Fin maxOpenFiles → Option (StatFile Dentry)
  pathSearch : Option Dentry → List UInt8 → Except Fault (Option NodeInfo)

namespace StatEnv

variable {Dentry : Type} (env : StatEnv Dentry)

/-- `get_open_file`. -/
def getOpenFile (fd : Int) : Option (StatFile Dentry) :=
  if h : 0 ≤ fd ∧ fd < maxOpenFiles then env.ofile ⟨fd.toNat, toNat_lt_maxOpenFiles h⟩
    else none

/-- `ProcessManager::fstat`: the result, and what is at `st` then. -/
def fstat (fd : Int) (st : Kstat) : Int × Kstat :=
  match env.getOpenFile fd with
  | none => (-1, st)
  | some f => (0, f.stat)

/-- The device number, as an `int`, is one of a device. -/
def isDevice (node : NodeInfo) : Prop := node.rDev.toNat % 2 ^ 32 < 1024

instance (node : NodeInfo) : Decidable (isDevice node) := inferInstanceAs (Decidable (_ < _))

/-- `ProcessManager::fstatat`, where a new file object gets memory that holds `heap`. -/
def fstatat (dirFd : Int) (path : List UInt8) (st : Kstat) (heap : Times) :
    Except Fault (Int × Kstat) := do
  let file := if dirFd ≠ atFdcwd then env.getOpenFile dirFd else none
  let dentry ← env.pathSearch (file.map (·.den)) path
  if path = [] then .ok (-1, st)
  else
    match dentry with
    | none => .ok (-1, st)
    | some node =>
      if isDevice node then .ok (0, Kstat.ofType heap) else .ok (0, Kstat.ofNode node)

end StatEnv

/-- What one call does: the bytes that it stores for the user, and its result. -/
structure StatRun (σ : Type) where
  delivered : List UInt8
  result : Except Fault (Int × Kernel σ)

section

variable {σ Dentry : Type} (arch : Arch) (V : VirtualPageAllocator σ) (env : StatEnv Dentry)
  (k : Kernel σ) (pt : PageTable)

/-- The end of both calls: the copy of `kst` to the user decides on the result. -/
def deliver (addr : Nat) (kst : Kstat) : StatRun σ where
  delivered := copyoutBytes arch V pt kst.bytes.length k addr kst.bytes
  result := do
    let r ← copyout arch V k pt addr kst.bytes
    .ok (if r.1 < 0 then -1 else 0, r.2)

/-- `_sys_fstat`, where the stack holds `kst` at first. -/
def sysFstat (fd : Int) (addr : Nat) (kst : Kstat) : StatRun σ :=
  deliver arch V k pt addr (env.fstat fd kst).2

/-- `_sys_fstatat`, where the stack holds `kst` at first. -/
def sysFstatat (dirFd : Int) (pathAddr addr : Nat) (kst : Kstat) (heap : Times) : StatRun σ :=
  match copyStrInString arch V k pt [] pathAddr 200 with
  | .error e => ⟨[], .error e⟩
  | .ok (r, path) =>
    if r < 0 then ⟨[], .ok (-1, k)⟩
    else
      match if dirFd = atFdcwd then env.fstatat dirFd path kst heap
        else .ok (env.fstat dirFd kst) with
      | .error e => ⟨[], .error e⟩
      | .ok st => deliver arch V k pt addr st.2

/-- Whatever the stack and the heap hold, a call that has `failed` returns a negative value and
stores nothing, and every call gives the user the same bytes. -/
structure StatSafe (failed : Prop) (run : Kstat → Times → StatRun σ) : Prop where
  reported : failed → ∀ kst heap, (run kst heap).delivered = [] ∧
    ∃ r k', (run kst heap).result = .ok (r, k') ∧ r < 0 ∧ k'.mem = k.mem
  same : ∀ kst heap kst' heap', (run kst heap).delivered = (run kst' heap').delivered

/-- The walk to the page of `addr` ends at the null page. -/
def NullPage (addr : Nat) : Prop :=
  NoPage arch V k pt addr ∧ ∃ r, walk arch V k pt (pageRoundDown addr) false = .ok r

/-- The path at `pathAddr` leads to no dentry from the directory of `dirFd`, or that descriptor is
not open. -/
def FstatatFails (dirFd : Int) (pathAddr : Nat) : Prop :=
  (dirFd ≠ atFdcwd ∧ env.getOpenFile dirFd = none) ∨
    ∃ r path, copyStrInString arch V k pt [] pathAddr 200 = .ok (r, path) ∧ 0 ≤ r ∧
      env.pathSearch ((if dirFd = atFdcwd then none else env.getOpenFile dirFd).map (·.den)) path =
      .ok none

/-- The calls of `_sys_fstatat` that go well.  One on a closed descriptor or with no dentry needs
that nothing can be stored at all, and so does one with an empty path.  The times of a device must
be cut off. -/
def FstatatFits (dirFd : Int) (pathAddr addr : Nat) : Prop :=
  match copyStrInString arch V k pt [] pathAddr 200 with
  | .error _ => dirFd = atFdcwd ∨ env.getOpenFile dirFd ≠ none
  | .ok (r, path) =>
    r < 0 ∨
      if dirFd = atFdcwd then
        match env.pathSearch none path with
        | .error _ => True
        | .ok none => NullPage arch V k pt addr
        | .ok (some node) =>
          if path = [] then NoPage arch V k pt addr
          else StatEnv.isDevice node →
            CutShort arch V k pt addr 72 (Kstat.ofType Times.zero).bytes
      else
        NullPage arch V k pt addr ∨ ∃ f, env.getOpenFile dirFd = some f ∧
          env.pathSearch (some f.den) path ≠ .ok none

end

/-! ### The record -/

theorem leBytes_length (n v : Nat) : (leBytes n v).length = n := by
  rw [leBytes, List.length_map, List.length_range]

theorem Kstat.head_length (st : Kstat) : st.head.length = 72 := by
  simp only [Kstat.head, List.length_append, leBytes_length]

theorem Kstat.bytes_length (st : Kstat) : st.bytes.length = 120 := by
  simp only [Kstat.bytes, Times.bytes, Kstat.head, List.length_append, leBytes_length]

/-! ### The copy to the user -/

section

variable {σ Dentry : Type} {arch : Arch} {V : VirtualPageAllocator σ} {env : StatEnv Dentry}
  {k : Kernel σ}
  {pt : PageTable} {addr : Nat}

theorem deliver_delivered (kst : Kstat) : (deliver arch V k pt addr kst).delivered =
    copyoutBytes arch V pt kst.bytes.length k addr kst.bytes := by
  simp only [deliver]

theorem deliver_noPage (h : NoPage arch V k pt addr) (kst : Kstat) :
    (deliver arch V k pt addr kst).delivered = [] := by
  rw [deliver_delivered]
  exact copyoutBytes_none h _

theorem deliver_null (h : NullPage arch V k pt addr) (kst : Kstat) :
    (deliver arch V k pt addr kst).result = .ok (-1, k) ∧
      (deliver arch V k pt addr kst).delivered = [] := by
  obtain ⟨hno, ⟨pte, k₁⟩, hwalk⟩ := h
  refine ⟨?_, deliver_noPage hno kst⟩
  have hlen := kst.bytes_length
  have hk := walk_state hwalk
  subst hk
  have hrun : copyout arch V k₁ pt addr kst.bytes = .ok (-1, k₁) := by
    rw [copyout, hlen, copyoutLoop, if_neg (by omega)]
    simp only
    rw [hwalk, ok_bind]
    exact if_pos (hno _ hwalk)
  simp only [deliver]
  rw [hrun]
  rfl

/-- A copy that returns has found a way to the first page. -/
theorem deliver_walk {kst : Kstat} {r : Int} {k' : Kernel σ}
    (h : (deliver arch V k pt addr kst).result = .ok (r, k')) :
    ∃ w, walk arch V k pt (pageRoundDown addr) false = .ok w := by
  have hlen := kst.bytes_length
  obtain ⟨r₁, hrun, -⟩ := bind_eq_ok.mp h
  rw [copyout, hlen, copyoutLoop, if_neg (by omega)] at hrun
  obtain ⟨w, hwalk, -⟩ := bind_eq_ok.mp hrun
  exact ⟨w, hwalk⟩

theorem cutShort_zero {p : List UInt8} (h : CutShort arch V k pt addr 0 p) :
    NoPage arch V k pt addr := by
  rcases h with h | ⟨-, h, -⟩
  · exact h
  · omega

/-- A record that holds what the stack held goes to the user unless nothing is stored. -/
theorem deliver_stack_iff : (∀ kst kst', (deliver arch V k pt addr kst).delivered =
    (deliver arch V k pt addr kst').delivered) ↔ NoPage arch V k pt addr := by
  constructor
  · intro h
    have hsame := h (Kstat.ofType Times.zero) { Kstat.ofType Times.zero with dev := 1 }
    have hlen := (Kstat.ofType Times.zero).bytes_length
    rw [deliver_delivered, deliver_delivered] at hsame
    have hat : (Kstat.ofType Times.zero).bytes[0]? ≠
        ({ Kstat.ofType Times.zero with dev := 1 } : Kstat).bytes[0]? := by
      decide
    exact cutShort_zero (cutShort_of_eq arch V k pt addr (by omega) (by omega) hat hsame)
  · intro h kst kst'
    rw [deliver_noPage h, deliver_noPage h]

/-- A record whose times are those of the heap. -/
theorem deliver_heap_iff :
    (∀ heap heap', (deliver arch V k pt addr (Kstat.ofType heap)).delivered =
    (deliver arch V k pt addr (Kstat.ofType heap')).delivered) ↔
      CutShort arch V k pt addr 72 (Kstat.ofType Times.zero).bytes := by
  have hlen := fun heap => (Kstat.ofType heap).bytes_length
  constructor
  · intro h
    have hsame := h Times.zero { Times.zero with atimeSec := 1 }
    have hzero := hlen Times.zero
    rw [deliver_delivered, deliver_delivered] at hsame
    have hat : (Kstat.ofType Times.zero).bytes[72]? ≠
        (Kstat.ofType { Times.zero with atimeSec := 1 }).bytes[72]? := by
      decide
    exact cutShort_of_eq arch V k pt addr (by omega) (by omega) hat hsame
  · intro h
    have hall : ∀ heap, (deliver arch V k pt addr (Kstat.ofType Times.zero)).delivered =
        (deliver arch V k pt addr (Kstat.ofType heap)).delivered := by
      intro heap
      have hbefore : (Kstat.ofType Times.zero).bytes.take 72 =
          (Kstat.ofType heap).bytes.take 72 := by
        rw [Kstat.bytes, Kstat.bytes, List.take_left' (Kstat.head_length _),
          List.take_left' (Kstat.head_length _)]
        rfl
      rw [deliver_delivered, deliver_delivered]
      exact copyoutBytes_congr arch V k pt addr ((hlen heap).trans (hlen Times.zero).symm) hbefore h
    intro heap heap'
    exact (hall heap).symm.trans (hall heap')

/-- A call that fails with the record as the stack held it. -/
theorem statSafe_failed_iff {failed : Prop} (hf : failed) :
    StatSafe k failed (fun kst _ => deliver arch V k pt addr kst) ↔
      NullPage arch V k pt addr := by
  constructor
  · intro h
    refine ⟨deliver_stack_iff.mp fun kst kst' => h.same kst Times.zero kst' Times.zero, ?_⟩
    obtain ⟨-, r, k', hres, -⟩ := h.reported hf (Kstat.ofType Times.zero) Times.zero
    exact deliver_walk hres
  · intro h
    refine ⟨fun _ kst _ => ?_, fun kst _ kst' _ => ?_⟩
    · exact ⟨(deliver_null h kst).2, -1, k, (deliver_null h kst).1, by decide, rfl⟩
    · exact (deliver_null h kst).2.trans (deliver_null h kst').2.symm

theorem noPage_of_nil {kst : Kstat} (h : (deliver arch V k pt addr kst).delivered = []) :
    NoPage arch V k pt addr := by
  have hlen := kst.bytes_length
  rw [deliver_delivered] at h
  have hle := copyoutBytes_le_iff arch V k pt addr (p := kst.bytes) (by omega) 0
  rw [h, or_iff_right (by omega)] at hle
  exact cutShort_zero (hle.mp (Nat.zero_le _))

/-- A call that does not fail and does not use what stack and heap held. -/
theorem statSafe_const {failed : Prop} (hf : ¬failed) (run : StatRun σ) :
    StatSafe k failed (fun _ _ => run) :=
  ⟨fun h => absurd h hf, fun _ _ _ _ => rfl⟩

/-! ### The calls -/

theorem sysFstat_safe_iff (fd : Int) :
    StatSafe k (env.getOpenFile fd = none) (fun kst _ => sysFstat arch V env k pt fd addr kst) ↔
      (∃ f, env.getOpenFile fd = some f) ∨ NullPage arch V k pt addr := by
  unfold sysFstat StatEnv.fstat
  cases hfile : env.getOpenFile fd with
  | none =>
    simp only
    rw [statSafe_failed_iff trivial]
    refine ⟨.inr, ?_⟩
    rintro (⟨f, hf⟩ | h)
    · cases hf
    · exact h
  | some f =>
    simp only
    exact iff_of_true (statSafe_const (fun h => by cases h) _) (.inl ⟨f, rfl⟩)

/-- A path that `copy_str_in` has read, from the working directory. -/
theorem fstatat_cwd_iff {failed : Prop} {path : List UInt8}
    (hf : failed ↔ env.pathSearch none path = .ok none) :
    StatSafe k failed (fun kst heap =>
      match env.fstatat atFdcwd path kst heap with
      | .error e => ⟨[], .error e⟩
      | .ok st => deliver arch V k pt addr st.2) ↔
      match env.pathSearch none path with
      | .error _ => True
      | .ok none => NullPage arch V k pt addr
      | .ok (some node) =>
        if path = [] then NoPage arch V k pt addr
        else StatEnv.isDevice node →
          CutShort arch V k pt addr 72 (Kstat.ofType Times.zero).bytes := by
  unfold StatEnv.fstatat
  simp only [ne_eq, not_true_eq_false, if_false, Option.map_none]
  cases hsearch : env.pathSearch none path with
  | error e =>
    rw [hsearch] at hf
    exact iff_of_true (statSafe_const (fun h => by cases hf.mp h) _) trivial
  | ok dentry =>
    rw [hsearch] at hf
    simp only [ok_bind]
    cases dentry with
    | none =>
      simp only [ite_self]
      exact statSafe_failed_iff (hf.mpr rfl)
    | some node =>
      have hok : ¬failed := fun h => by cases hf.mp h
      simp only
      by_cases hpath : path = []
      · simp only [if_pos hpath]
        rw [← deliver_stack_iff]
        constructor
        · intro h kst kst'
          exact h.same kst Times.zero kst' Times.zero
        · intro h
          exact ⟨fun hfail => absurd hfail hok, fun kst _ kst' _ => h kst kst'⟩
      simp only [if_neg hpath]
      by_cases hdev : StatEnv.isDevice node
      · simp only [if_pos hdev]
        rw [imp_iff_right hdev, ← deliver_heap_iff]
        constructor
        · intro h heap heap'
          exact h.same (Kstat.ofType heap) heap (Kstat.ofType heap) heap'
        · intro h
          exact ⟨fun hfail => absurd hfail hok, fun _ heap _ heap' => h heap heap'⟩
      · simp only [if_neg hdev]
        exact iff_of_true (statSafe_const hok _) fun h => absurd h hdev

/-- A path that `copy_str_in` has read and nobody looks at, as there is a descriptor. -/
theorem fstatat_fd_iff {failed : Prop} {path : List UInt8} {dirFd : Int}
    (hf : failed ↔ env.getOpenFile dirFd = none ∨
      env.pathSearch ((env.getOpenFile dirFd).map (·.den)) path = .ok none) :
    StatSafe k failed (fun kst _ => deliver arch V k pt addr (env.fstat dirFd kst).2) ↔
      NullPage arch V k pt addr ∨ ∃ f, env.getOpenFile dirFd = some f ∧
        env.pathSearch (some f.den) path ≠ .ok none := by
  unfold StatEnv.fstat
  cases hfile : env.getOpenFile dirFd with
  | none =>
    simp only
    rw [statSafe_failed_iff (hf.mpr (.inl hfile))]
    refine ⟨.inl, ?_⟩
    rintro (h | ⟨f, hsome, -⟩)
    · exact h
    · cases hsome
  | some f =>
    rw [hfile] at hf
    simp only [Option.map_some, reduceCtorEq, false_or] at hf
    simp only
    by_cases hfail : failed
    · constructor
      · intro h
        obtain ⟨hnil, r, k', hres, -⟩ := h.reported hfail f.stat Times.zero
        exact .inl ⟨noPage_of_nil hnil, deliver_walk hres⟩
      · rintro (hnull | ⟨f', hsome, hfound⟩)
        · have hrun := deliver_null hnull f.stat
          exact ⟨fun _ _ _ => ⟨hrun.2, -1, k, hrun.1, by decide, rfl⟩, fun _ _ _ _ => rfl⟩
        · cases hsome
          exact absurd (hf.mp hfail) hfound
    · refine iff_of_true (statSafe_const hfail _) (.inr ⟨f, rfl, ?_⟩)
      exact fun h => hfail (hf.mpr h)

theorem sysFstatat_safe_iff (dirFd : Int) (pathAddr : Nat) :
    StatSafe k (FstatatFails arch V env k pt dirFd pathAddr)
        (fun kst heap => sysFstatat arch V env k pt dirFd pathAddr addr kst heap) ↔
      FstatatFits arch V env k pt dirFd pathAddr addr := by
  unfold sysFstatat FstatatFits
  cases hcopy : copyStrInString arch V k pt [] pathAddr 200 with
  | error e =>
    have hfails : FstatatFails arch V env k pt dirFd pathAddr ↔ dirFd ≠ atFdcwd ∧
        env.getOpenFile dirFd = none := by
      refine or_iff_left ?_
      rintro ⟨r, path, h, -⟩
      rw [hcopy] at h
      cases h
    constructor
    · intro h
      by_contra hbad
      push Not at hbad
      obtain ⟨-, r, k', hres, -⟩ :=
        h.reported (hfails.mpr hbad) (Kstat.ofType Times.zero) Times.zero
      cases hres
    · intro h
      refine statSafe_const (fun hbad => ?_) _
      rw [hfails] at hbad
      rcases h with h | h
      · exact hbad.1 h
      · exact h hbad.2
  | ok x =>
    obtain ⟨r, path⟩ := x
    simp only
    by_cases hr : r < 0
    · simp only [if_pos hr]
      refine iff_of_true ⟨fun _ _ _ => ⟨rfl, -1, k, rfl, by decide, rfl⟩,
        fun _ _ _ _ => rfl⟩ (.inl hr)
    have hfails : FstatatFails arch V env k pt dirFd pathAddr ↔
        (dirFd ≠ atFdcwd ∧ env.getOpenFile dirFd = none) ∨
          env.pathSearch ((if dirFd = atFdcwd then none else env.getOpenFile dirFd).map (·.den))
            path = .ok none := by
      refine or_congr_right ⟨?_, fun h => ⟨r, path, hcopy, by omega, h⟩⟩
      rintro ⟨r', path', h, -, hnone⟩
      rw [hcopy] at h
      cases h
      exact hnone
    simp only [if_neg hr, or_iff_right hr]
    by_cases hdir : dirFd = atFdcwd
    · subst hdir
      simp only [if_true, ne_eq, not_true_eq_false, false_and, false_or,
        Option.map_none] at hfails ⊢
      exact fstatat_cwd_iff hfails
    · simp only [ne_eq, hdir, not_false_eq_true, true_and, if_false] at hfails ⊢
      exact fstatat_fd_iff hfails

/-- For every descriptor, path and address. -/
theorem stat_safe_iff (arch : Arch) (V : VirtualPageAllocator σ) (env : StatEnv Dentry)
    (k : Kernel σ) (pt : PageTable) :
    (∀ fd addr, StatSafe k (env.getOpenFile fd = none)
        (fun kst _ => sysFstat arch V env k pt fd addr kst) ↔
      (∃ f, env.getOpenFile fd = some f) ∨ NullPage arch V k pt addr) ∧
    ∀ dirFd pathAddr addr, StatSafe k (FstatatFails arch V env k pt dirFd pathAddr)
        (fun kst heap => sysFstatat arch V env k pt dirFd pathAddr addr kst heap) ↔
      FstatatFits arch V env k pt dirFd pathAddr addr :=
  ⟨fun fd _ => sysFstat_safe_iff fd, fun dirFd pathAddr _ => sysFstatat_safe_iff dirFd pathAddr⟩

end

/-- A process without files. -/
def emptyEnv : StatEnv Unit := ⟨fun _ => none, fun _ _ => .ok none⟩

/-- `fstat` of the closed descriptor 7 stores what the stack held. -/
theorem fstat_closed : ¬StatSafe stackKernel (emptyEnv.getOpenFile 7 = none)
    (fun kst _ => sysFstat .riscv noPages emptyEnv stackKernel ⟨4096, true⟩ 7 0x5000 kst) := by
  intro h
  have hclosed : emptyEnv.getOpenFile 7 = none := rfl
  have hnil := (h.reported hclosed (Kstat.ofType Times.zero) Times.zero).1
  have hno := noPage_of_nil hnil
  have hwalk : walk .riscv noPages stackKernel ⟨4096, true⟩ (pageRoundDown 0x5000) false =
      .ok (3 * 4096 + 8 * 5, stackKernel) := rfl
  exact absurd (hno _ hwalk) (by decide)

end OsKernel.Syscall

import OsKernel.Fs.File
import OsKernel.Fs.Nodes

/-! `normal_file`: the open descriptions of one file.  Each of them keeps the size that it has last
seen and a position; they agree with the node as long as the size does not change behind them. -/

namespace OsKernel.Fs

open Hsai

/-- A `normal_file`.  The last field is the flag that it was opened with; the source does not
keep it. -/
structure NormalFile where
  uWrite : Bool
  filetype : FileTypes
  statSize : Nat
  filePtr : Int
  opensAppend : Bool

inductive Whence where
  | set
  | cur
  | fromEnd
  deriving DecidableEq

/-- `-EINVAL`. -/
def invalid : Int := -22

/-- The value of a `long` that a sum gives. -/
def longOf (x : Int) : Except Fault Int :=
  if -2 ^ 63 ≤ x ∧ x < 2 ^ 63 then .ok x else .error (.undefined "signed overflow")

/-- An `ulong` as a `long`. -/
def longOfUlong (n : Nat) : Int :=
  if n % 2 ^ 64 < 2 ^ 63 then (n % 2 ^ 64 : Nat) else (n % 2 ^ 64 : Nat) - 2 ^ 64

namespace NormalFile

variable (f : NormalFile) (node : FileNode)

/-- The constructor, and `setAppend` with `O_APPEND`. -/
def make (uWrite : Bool) (filetype : FileTypes) (append : Bool) : NormalFile :=
  let f : NormalFile := ⟨uWrite, filetype, node.rFileSize, 0, append⟩
  if append then { f with filePtr := longOfUlong f.statSize } else f

/-- `normal_file::write` gets to the inode. -/
def canWrite : Bool := f.uWrite && !(f.filetype = .direct) && !(f.filetype = .none)

/-- `normal_file::write` at the position of the file. -/
def write (src : List UInt8) : Except Fault (Int × NormalFile × FileNode) :=
  if f.canWrite = false then .ok (-1, f, node)
  else do
    let r ← node.write f.filePtr.toNat src src.length
    let filePtr ← if 0 ≤ r.1 then longOf (f.filePtr + r.1) else .ok f.filePtr
    .ok (r.1, { f with filePtr, statSize := r.2.rFileSize }, r.2)

/-- `normal_file::ftruncate`. -/
def ftruncate (len : Nat) : Nat × NormalFile × FileNode :=
  let r := node.truncate len
  (r.1, { f with statSize := r.1 }, r.2)

/-- `normal_file::lseek`. -/
def lseek (offset : Int) (whence : Whence) : Except Fault (Int × NormalFile) :=
  let size := longOfUlong f.statSize
  match whence with
  | .set =>
    if offset < 0 then .ok (invalid, f)
    else .ok (offset, { f with filePtr := offset })
  | .cur => do
    let newOff ← longOf (f.filePtr + offset)
    if newOff < 0 then .ok (invalid, f)
    else .ok (newOff, { f with filePtr := newOff })
  | .fromEnd =>
    let newOff := longOfUlong ((f.statSize + offset) % 2 ^ 64).toNat
    if newOff < 0 ∨ size < newOff then .ok (invalid, f)
    else .ok (newOff, { f with filePtr := newOff })

end NormalFile

/-! ### All descriptions of one file -/

/-- A file and its open descriptions, by their address. -/
structure Descriptions where
  node : FileNode
  files : Nat → Option NormalFile

inductive FileEvent where
  | openAt (i : Nat) (uWrite : Bool) (filetype : FileTypes) (append : Bool)
  | write (i : Nat) (src : List UInt8)
  | ftruncate (i len : Nat)
  | lseek (i : Nat) (offset : Int) (whence : Whence)
  | fstat (i : Nat)
  | close (i : Nat)

namespace Descriptions

variable (s : Descriptions)

def set (i : Nat) (f : Option NormalFile) (node : FileNode) : Descriptions :=
  ⟨node, Function.update s.files i f⟩

/-- One call. -/
def step : FileEvent → Except Fault Descriptions
  | .openAt i uWrite filetype append =>
    match s.files i with
    | none => .ok (s.set i (some (.make s.node uWrite filetype append)) s.node)
    | some _ => .error (.undefined "address in use")
  | .write i src =>
    match s.files i with
    | none => .ok s
    | some f => do
      let r ← f.write s.node src
      .ok (s.set i (some r.2.1) r.2.2)
  | .ftruncate i len =>
    match s.files i with
    | none => .ok s
    | some f =>
      let r := f.ftruncate s.node len
      .ok (s.set i (some r.2.1) r.2.2)
  | .lseek i offset whence =>
    match s.files i with
    | none => .ok s
    | some f => do
      let r ← f.lseek offset whence
      .ok (s.set i (some r.2) s.node)
  | .fstat _ => .ok s
  | .close i => .ok (s.set i none s.node)

end Descriptions

/-- What the descriptions of a file should have in common: each knows the size of the node, and the
next write through one that appends is at the end. -/
structure SizesAgree (s : Descriptions) : Prop where
  size : ∀ {i f}, s.files i = some f → f.statSize = s.node.rFileSize
  append : ∀ {i f}, s.files i = some f → f.opensAppend = true → f.filePtr = s.node.rFileSize

/-- No other description of the file is open. -/
def Descriptions.Sole (s : Descriptions) (i : Nat) : Prop := ∀ {j}, j ≠ i → s.files j = none

/-- A `lseek` of a file that is at its end stays there, or is refused. -/
def AtEnd (size : Nat) (offset : Int) : Whence → Prop
  | .set => offset < 0 ∨ offset = size
  | .cur => size + offset < 0 ∨ offset = 0
  | .fromEnd => offset = 0 ∨
      (-2 ^ 63 ≤ offset ∧ offset < 2 ^ 63 ∧ (size + offset < 0 ∨ 0 < offset))

/-- The size does not change behind a description, and no description that appends is moved. -/
def KeepsSizes (s : Descriptions) : FileEvent → Prop
  | .openAt _ _ _ append => append = true → s.node.rFileSize < 2 ^ 63
  | .write i src => ∀ {f}, s.files i = some f → f.canWrite = true →
      match s.node with
      | .ramfs data => s.Sole i ∨ f.filePtr + src.length ≤ data.length
      | node => f.opensAppend = true → node.counts = true → src = []
  | .ftruncate i len => ∀ {f}, s.files i = some f →
      match s.node with
      | .ramfs data => len = data.length ∨ (s.Sole i ∧ f.opensAppend = false)
      | node => node.rFileSize = 2 ^ 64 - 1
  | .lseek i offset whence => ∀ {f}, s.files i = some f → f.opensAppend = true →
      AtEnd s.node.rFileSize offset whence
  | _ => True

/-- The states of a file that starts with no description open, by calls that all meet
the condition. -/
inductive FileRun (Ok : Descriptions → FileEvent → Prop) (node : FileNode) : Descriptions →
    Prop
  | start : FileRun Ok node ⟨node, fun _ => none⟩
  | step {s s' e} : FileRun Ok node s → Ok s e → s.step e = .ok s' → FileRun Ok node s'

/-! ### Each call -/

variable {s s' : Descriptions} {node : FileNode} {i : Nat} {f : NormalFile} {e : FileEvent}

/-- The facts that every call keeps. -/
structure FilesInv (s : Descriptions) : Prop where
  agree : SizesAgree s
  ptr : ∀ {i f}, s.files i = some f → 0 ≤ f.filePtr
  bound : ∀ {i f}, s.files i = some f → f.opensAppend = true → f.filePtr < 2 ^ 63

theorem nodeWrite_length {data src : List UInt8} {off : Nat} (h : off + src.length < 2 ^ 64) :
    (nodeWrite data off src).length = max data.length (off + src.length) := by
  have hlast : (off + src.length) % wordSize = off + src.length := Nat.mod_eq_of_lt h
  unfold nodeWrite
  simp only [hlast]
  have hstore : ∀ d, (if src.length = 0 then d else storeChars d off src).length = d.length := by
    intro d
    split
    · rfl
    · exact storeChars_length d off src
  have hext : ∀ d : List UInt8, (if d.length < off + src.length then resize d (off + src.length)
      else d).length = max d.length (off + src.length) := by
    intro d
    split
    · rw [resize_length]
      omega
    · omega
  rw [hstore, hext]
  split
  · rw [resize_length]
    omega
  · rfl

/-- A call that changes one description and the node. -/
theorem FilesInv.set (I : FilesInv s) (hsize : f.statSize = node.rFileSize)
    (happ : f.opensAppend = true → f.filePtr = node.rFileSize ∧ f.filePtr < 2 ^ 63)
    (hptr : 0 ≤ f.filePtr) (hnode : s.Sole i ∨ node.rFileSize = s.node.rFileSize) :
    FilesInv (s.set i (some f) node) := by
  have hother : ∀ {j g}, j ≠ i → s.files j = some g → node.rFileSize = s.node.rFileSize :=
    fun {j g} hj hg => hnode.resolve_left fun h => by
      rw [h hj] at hg
      cases hg
  have hcase : ∀ {j g}, (s.set i (some f) node).files j = some g →
      (j = i ∧ g = f) ∨ (j ≠ i ∧ s.files j = some g) := by
    intro j g hg
    by_cases hj : j = i
    · subst hj
      simp only [Descriptions.set, Function.update_self] at hg
      exact .inl ⟨rfl, (Option.some.inj hg).symm⟩
    · simp only [Descriptions.set, Function.update_of_ne hj] at hg
      exact .inr ⟨hj, hg⟩
  refine ⟨⟨fun {j g} hg => ?_, fun {j g} hg ha => ?_⟩, fun {j g} hg => ?_,
    fun {j g} hg ha => ?_⟩
  · rcases hcase hg with ⟨rfl, rfl⟩ | ⟨hj, hg⟩
    · exact hsize
    · exact (I.agree.size hg).trans (hother hj hg).symm
  · rcases hcase hg with ⟨rfl, rfl⟩ | ⟨hj, hg⟩
    · exact (happ ha).1
    · rw [I.agree.append hg ha]
      exact congrArg Nat.cast (hother hj hg).symm
  · rcases hcase hg with ⟨rfl, rfl⟩ | ⟨hj, hg⟩
    · exact hptr
    · exact I.ptr hg
  · rcases hcase hg with ⟨rfl, rfl⟩ | ⟨hj, hg⟩
    · exact (happ ha).2
    · exact I.bound hg ha

theorem FilesInv.close (I : FilesInv s) (i : Nat) : FilesInv (s.set i none s.node) := by
  have hkeep : ∀ {j g}, (s.set i none s.node).files j = some g → s.files j = some g := by
    intro j g hg
    by_cases hj : j = i
    · subst hj
      simp only [Descriptions.set, Function.update_self] at hg
      cases hg
    · simpa only [Descriptions.set, Function.update_of_ne hj] using hg
  exact ⟨⟨fun hg => I.agree.size (hkeep hg), fun hg => I.agree.append (hkeep hg)⟩,
    fun hg => I.ptr (hkeep hg), fun hg => I.bound (hkeep hg)⟩

theorem longOf_eq_ok {x y : Int} (h : longOf x = .ok y) : y = x ∧ x < 2 ^ 63 := by
  unfold longOf at h
  split at h
  · cases h
    exact ⟨rfl, (‹_› : _ ∧ _).2⟩
  · cases h

/-- A write that gets to the inode, and what it returns. -/
theorem NormalFile.write_ok {src : List UInt8} {r} (hcan : f.canWrite = true)
    (hrun : f.write node src = .ok r) :
    ∃ n : Nat, n = (if node.counts = true then src.length else 0) ∧ f.filePtr + n < 2 ^ 63 ∧
      r = ((n : Int), { f with
        filePtr := f.filePtr + n
        statSize := (node.put f.filePtr.toNat src).rFileSize }, node.put f.filePtr.toNat src) := by
  unfold NormalFile.write at hrun
  rw [hcan, if_neg (by decide), FileNode.write_natCast, ok_bind] at hrun
  have hcast : ((if node.counts = true then (src.length : Int) else 0) : Int) =
      ((if node.counts = true then src.length else 0 : Nat) : Int) := by
    split <;> rfl
  refine ⟨_, rfl, ?_⟩
  rw [hcast] at hrun
  generalize (if node.counts = true then src.length else 0) = n at hrun ⊢
  rw [if_pos (Int.natCast_nonneg n)] at hrun
  obtain ⟨p, hp, hrun⟩ := bind_eq_ok.mp hrun
  obtain ⟨rfl, hlt⟩ := longOf_eq_ok hp
  exact ⟨hlt, (Except.ok.inj hrun).symm⟩

theorem FilesInv.write (I : FilesInv s) (hf : s.files i = some f) {src : List UInt8} {r}
    (hok : KeepsSizes s (.write i src)) (hrun : f.write s.node src = .ok r) :
    FilesInv (s.set i (some r.2.1) r.2.2) := by
  have hptr := I.ptr hf
  by_cases hcan : f.canWrite = true
  swap
  · unfold NormalFile.write at hrun
    rw [if_pos (by simpa using hcan)] at hrun
    cases hrun
    exact I.set (I.agree.size hf) (fun ha => ⟨I.agree.append hf ha, I.bound hf ha⟩)
      hptr (.inr rfl)
  obtain ⟨n, hn, hlt, rfl⟩ := NormalFile.write_ok hcan hrun
  have hok := hok hf hcan
  -- an inode that stores nothing keeps its size, and the position moves by what it returns
  have hfixed : (s.node.put f.filePtr.toNat src).rFileSize = s.node.rFileSize →
      (f.opensAppend = true → s.node.counts = true → src = []) →
      FilesInv (s.set i (some { f with
        filePtr := f.filePtr + n
        statSize := (s.node.put f.filePtr.toNat src).rFileSize })
          (s.node.put f.filePtr.toNat src)) := by
    intro hsize hnone
    refine I.set rfl (fun ha => ?_) (by simp only; omega) (.inr hsize)
    have hzero : n = 0 := by
      rw [hn]
      split
      · rw [hnone ha ‹_›, List.length_nil]
      · rfl
    simp only [hsize, hzero, Nat.cast_zero, add_zero]
    exact ⟨I.agree.append hf ha, I.bound hf ha⟩
  cases hnode : s.node with
  | fixed g =>
    rw [hnode] at hok hfixed
    exact hfixed rfl hok
  | link target =>
    rw [hnode] at hok hfixed
    exact hfixed rfl hok
  | ramfs data =>
    rw [hnode] at hok hn
    have hlen : n = src.length := hn
    have hnew : ((FileNode.ramfs data).put f.filePtr.toNat src).rFileSize =
        max data.length (f.filePtr.toNat + src.length) := nodeWrite_length (by omega)
    refine I.set rfl (fun ha => ?_) (by simp only; omega) (hok.imp id fun hle => ?_)
    · have happ := I.agree.append hf ha
      rw [hnode] at happ
      simp only [FileNode.rFileSize] at happ
      refine ⟨?_, hlt⟩
      simp only [hnew]
      omega
    · rw [hnew, hnode, FileNode.rFileSize]
      omega

/-- A truncation that does nothing returns -1, and the description takes that for the size. -/
theorem FilesInv.truncate_fails (I : FilesInv s) (hf : s.files i = some f)
    (hsize : s.node.rFileSize = 2 ^ 64 - 1) :
    FilesInv (s.set i (some { f with statSize := 2 ^ 64 - 1 }) s.node) := by
  have hptr := I.ptr hf
  have happ : f.opensAppend = true → f.filePtr = s.node.rFileSize ∧ f.filePtr < 2 ^ 63 :=
    fun ha => ⟨I.agree.append hf ha, I.bound hf ha⟩
  exact I.set hsize.symm happ hptr (.inr rfl)

theorem FilesInv.ftruncate (I : FilesInv s) (hf : s.files i = some f) {len : Nat}
    (hok : KeepsSizes s (.ftruncate i len)) :
    FilesInv (s.set i (some (f.ftruncate s.node len).2.1) (f.ftruncate s.node len).2.2) := by
  have hok := hok hf
  cases hn : s.node with
  | fixed g =>
    rw [hn] at hok
    have h := I.truncate_fails hf (by rw [hn]; exact hok)
    rw [hn] at h
    exact h
  | link target =>
    rw [hn] at hok
    have h := I.truncate_fails hf (by rw [hn]; exact hok)
    rw [hn] at h
    exact h
  | ramfs data =>
    rw [hn] at hok
    have hnew : (nodeTruncate data len).length = len := resize_length data len
    have hptr := I.ptr hf
    refine I.set rfl (fun ha => ?_) hptr ?_
    · rcases hok with rfl | ⟨-, hno⟩
      · have happ := I.agree.append hf ha
        rw [hn] at happ
        simp only [NormalFile.ftruncate, FileNode.truncate, FileNode.rFileSize, hnew]
        exact ⟨happ, I.bound hf ha⟩
      · rw [NormalFile.ftruncate] at ha
        simp only [hno, Bool.false_eq_true] at ha
    · refine hok.symm.imp And.left fun hlen => ?_
      simp only [NormalFile.ftruncate, FileNode.truncate, FileNode.rFileSize, hn]
      rw [hnew, hlen]

theorem longOfUlong_of_lt {n : Nat} (h : n < 2 ^ 63) : longOfUlong n = n := by
  unfold longOfUlong
  rw [Nat.mod_eq_of_lt (by omega), if_pos h]

/-- A position before the start or behind the end, as a `long`, is refused. -/
theorem longOfUlong_refused {size : Nat} {offset : Int} (hsize : size < 2 ^ 63)
    (hlo : -2 ^ 63 ≤ offset) (hhi : offset < 2 ^ 63) (hout : size + offset < 0 ∨ 0 < offset) :
    longOfUlong ((size + offset) % 2 ^ 64).toNat < 0 ∨
      size < longOfUlong ((size + offset) % 2 ^ 64).toNat := by
  unfold longOfUlong
  split <;> omega

theorem FilesInv.lseek (I : FilesInv s) (hf : s.files i = some f) {offset : Int} {whence : Whence}
    {r} (hok : KeepsSizes s (.lseek i offset whence)) (hrun : f.lseek offset whence = .ok r) :
    FilesInv (s.set i (some r.2) s.node) := by
  have hsize := I.agree.size hf
  have hptr := I.ptr hf
  have hself : FilesInv (s.set i (some f) s.node) :=
    I.set hsize (fun ha => ⟨I.agree.append hf ha, I.bound hf ha⟩) hptr (.inr rfl)
  -- the position moves to `p`, which is the end for a description that appends
  have hmove : ∀ p : Int, 0 ≤ p → (f.opensAppend = true → p = s.node.rFileSize) →
      FilesInv (s.set i (some { f with filePtr := p }) s.node) :=
    fun p hp ha => I.set hsize (fun happ => ⟨ha happ, by
      have := I.agree.append hf happ
      have := I.bound hf happ
      have := ha happ
      simp only
      omega⟩) hp (.inr rfl)
  cases whence with
  | set =>
    simp only [NormalFile.lseek] at hrun
    split at hrun
    · cases hrun
      exact hself
    · cases hrun
      refine hmove offset (by omega) fun ha => ?_
      exact (hok hf ha).resolve_left (by omega)
  | cur =>
    simp only [NormalFile.lseek] at hrun
    obtain ⟨p, hp, hrun⟩ := bind_eq_ok.mp hrun
    obtain ⟨rfl, -⟩ := longOf_eq_ok hp
    split at hrun
    · cases hrun
      exact hself
    · cases hrun
      refine hmove _ (by omega) fun ha => ?_
      have happ := I.agree.append hf ha
      have h0 : offset = 0 := (hok hf ha).resolve_left (by omega)
      rw [h0, add_zero]
      exact happ
  | fromEnd =>
    simp only [NormalFile.lseek] at hrun
    split at hrun
    · cases hrun
      exact hself
    · rename_i hin
      cases hrun
      refine hmove _ (by omega) fun ha => ?_
      have happ := I.agree.append hf ha
      have hlt := I.bound hf ha
      have hmod : ((f.statSize : Int) % 2 ^ 64).toNat = f.statSize := by omega
      rcases hok hf ha with h0 | ⟨hlo, hhi, hout⟩
      · rw [h0, add_zero, hmod, longOfUlong_of_lt (by omega), hsize]
      · rw [longOfUlong_of_lt (show f.statSize < 2 ^ 63 by omega)] at hin
        exact absurd (longOfUlong_refused (by omega) hlo hhi (hsize ▸ hout)) hin

theorem longOfUlong_nonneg_of_lt {n : Nat} (h : n < 2 ^ 63) : 0 ≤ longOfUlong n := by
  rw [longOfUlong_of_lt h]
  exact Int.natCast_nonneg n

/-- One call that meets the condition. -/
theorem FilesInv.step (I : FilesInv s) (hok : KeepsSizes s e) (hrun : s.step e = .ok s') :
    FilesInv s' := by
  cases e with
  | openAt i uWrite filetype append =>
    simp only [Descriptions.step] at hrun
    split at hrun
    · cases hrun
      cases append with
      | false => exact I.set rfl nofun (Int.le_refl 0) (.inr rfl)
      | true =>
        have hlt := hok rfl
        refine I.set rfl (fun _ => ?_) (longOfUlong_nonneg_of_lt hlt) (.inr rfl)
        simp only [NormalFile.make, if_true, longOfUlong_of_lt hlt]
        exact ⟨trivial, by omega⟩
    · cases hrun
  | write i src =>
    simp only [Descriptions.step] at hrun
    split at hrun
    · cases hrun
      exact I
    · rename_i f hf
      obtain ⟨r, hr, hrun⟩ := bind_eq_ok.mp hrun
      cases hrun
      exact I.write hf hok hr
  | ftruncate i len =>
    simp only [Descriptions.step] at hrun
    split at hrun
    · cases hrun
      exact I
    · rename_i f hf
      cases hrun
      exact I.ftruncate hf hok
  | lseek i offset whence =>
    simp only [Descriptions.step] at hrun
    split at hrun
    · cases hrun
      exact I
    · rename_i f hf
      obtain ⟨r, hr, hrun⟩ := bind_eq_ok.mp hrun
      cases hrun
      exact I.lseek hf hok hr
  | fstat i =>
    cases hrun
    exact I
  | close i =>
    cases hrun
    exact I.close i

/-- In every run in which the size changes only through a description that is alone, and
descriptions that append stay at the end, all descriptions agree with the node. -/
theorem sizes_agree (hrun : FileRun KeepsSizes node s) : SizesAgree s := by
  have I : FilesInv s := by
    induction hrun with
    | start => exact ⟨⟨nofun, nofun⟩, nofun, nofun⟩
    | step _ hok hstep ih => exact ih.step hok hstep
  exact I.agree

/-- One description is opened for appending and writes a byte; then a second one is opened and
overwrites the first byte. -/
theorem sizes_agree_sample : ∃ s, FileRun KeepsSizes (.ramfs [5]) s ∧
    s.node = .ramfs [9, 7] ∧ (s.files 1).isSome = true ∧ SizesAgree s := by
  have h₁ : FileRun KeepsSizes (.ramfs [5])
      (Descriptions.set ⟨.ramfs [5], fun _ => none⟩
        0 (some (.make (.ramfs [5]) true .normal true))
        (.ramfs [5])) :=
    .step (e := .openAt 0 true .normal true) .start (fun _ => by decide) rfl
  have h₂ := FileRun.step (e := .write 0 [7]) h₁
    (fun _ _ => .inl fun hj => Function.update_of_ne hj ..) rfl
  have h₃ := FileRun.step (e := .openAt 1 true .normal false) h₂ (fun h => absurd h (by decide))
    rfl
  have h₄ := FileRun.step (e := .write 1 [9]) h₃ (fun hf _ => .inr (by cases hf; decide)) rfl
  exact ⟨_, h₄, rfl, rfl, sizes_agree h₄⟩

/-- Two descriptions are opened for appending, and one of them writes a byte: the other has the old
size and the old end. -/
theorem stale_size : ∃ s, FileRun (fun _ e => e ∈ [.openAt 0 true .normal true,
    .openAt 1 true .normal true, .write 0 [7]]) (.ramfs []) s ∧ ¬SizesAgree s := by
  have h₁ : FileRun (fun _ e => e ∈ [.openAt 0 true .normal true, .openAt 1 true .normal true,
      .write 0 [7]]) (.ramfs []) _ :=
    .step .start (List.mem_cons_self ..) rfl
  have h₂ := h₁.step (List.mem_cons_of_mem _ (List.mem_cons_self ..)) rfl
  have h₃ := h₂.step (List.mem_cons_of_mem _ (List.mem_cons_of_mem _ (List.mem_cons_self ..)))
    rfl
  exact ⟨_, h₃, fun h => absurd (h.size (i := 1) rfl) (by decide)⟩

end OsKernel.Fs

import OsKernel.Fs.NodeContents
import OsKernel.Syscall.Transfer

/-! When a transfer moves the bytes that it shall, and advances the positions that it shall. -/

namespace OsKernel.Syscall

open Fs Hsai Pm.Ipc

/-- What a process can see of the files: contents, its offsets and the positions. -/
@[ext] structure View where
  data : Nat → ByteFile
  user : Nat → UInt64
  ptr : Nat → Nat

/-- What a call may do besides returning: it may panic, and it may sleep. -/
def Returned (P : Moved → Prop) : Except Fault (Option Moved) → Prop
  | .error (.undefined _) => False
  | .error _ => True
  | .ok none => True
  | .ok (some m) => P m

theorem returned_ok {P : Moved → Prop} {m : Moved} : Returned P (.ok (some m)) ↔ P m := Iff.rfl

namespace State

variable (s : State)

def view : View := ⟨fun x => ofList (s.nodes x).data, s.user, s.filePtr⟩

/-- The position that a call designates: the offset that is given, or that of the file. -/
def place (i : Nat) (off : Option Nat) : Nat :=
  match off with
  | none => s.filePtr i
  | some a => (s.user a).toNat

/-- What is seen after `bytes` are moved from `i` to `o`. -/
def expected (i o : Nat) (offIn offOut : Option Nat) (bytes : List UInt8) : View where
  data x := match s.files o with
    | .pipe => s.view.data x
    | .regular f =>
      if x = s.source f.node then (s.view.data x).write (s.place o offOut) bytes else s.view.data x
  user a := if offIn = some a ∨ offOut = some a then s.user a + UInt64.ofNat bytes.length
    else s.user a
  ptr x := match s.files x with
    | .pipe => 0
    | .regular f =>
      if (x = i ∧ offIn = none) ∨ (x = o ∧ offOut = none) then f.filePtr + bytes.length
        else f.filePtr

/-- A call that returns a number of bytes has moved as many, from the place that it designates, and
has advanced the positions that it designates; one that fails has changed nothing. -/
def Conserves (i o : Nat) (offIn offOut : Option Nat) (m : Moved) : Prop :=
  if m.ret < 0 then m.state.view = s.view ∧ m.taken = [] ∧ m.pushed = []
  else ∃ bytes : List UInt8, (bytes.length : Int) = m.ret ∧
    m.state.view = s.expected i o offIn offOut bytes ∧
    m.taken = (if s.isPipe i then bytes else []) ∧
    m.pushed = (if s.isPipe o then bytes else []) ∧
    ∀ f, s.files i = .regular f →
      bytes = (s.view.data (s.source f.node)).read (s.place i offIn) bytes.length

/-- Sizes and positions are those of a machine with 64 bits, and files in memory are smaller than
the memory. -/
structure Fits : Prop where
  ptr : ∀ {i f}, s.files i = .regular f → f.filePtr < 2 ^ 63
  size : ∀ x, (s.nodes x).data.length < 2 ^ 63

end State

/-- The bytes that a call shall move if the read gives `bytes`: those of a pipe, or those of the
file at the place that the call designates. -/
def State.wanted (s : State) (i : Nat) (off : Option Nat) (bytes : List UInt8) : List UInt8 :=
  match s.files i with
  | .pipe => bytes
  | .regular f => (s.view.data (s.source f.node)).read (s.place i off) bytes.length

/-! ### Numbers -/

theorem intOf_of_lt {x : Int} (h0 : -2 ^ 31 ≤ x) (h1 : x < 2 ^ 31) : intOf x = x := by
  unfold intOf
  omega

theorem intOf_lt (x : Int) : intOf x < 2 ^ 31 := by
  unfold intOf
  omega

/-! ### Pipes -/

/-- How a stretch of a write ends: all bytes are pushed, or it is refused before the last, or it
sleeps before the last. -/
theorem writeLoop_ends {killed : Bool} {l : List UInt8} {p : Pipe} {i left : Nat}
    (hi : i + left = l.length) :
    let r := writeLoop killed (fun j => l[j]?) left p i
    (∃ wakes, r.2.2 = .ret l.length wakes ∧ r.2.1 = l.drop i) ∨
      (∃ wakes, r.2.2 = .ret (-1) wakes ∧ r.2.1.length < l.length - i) ∨
      ∃ j, r.2.2 = .sleep j ∧ i ≤ j ∧ j < l.length ∧ r.2.1 = (l.drop i).take (j - i) := by
  induction left generalizing p i with
  | zero =>
    left
    refine ⟨true, ?_, ?_⟩
    · rw [writeLoop, show i = l.length by omega]
    · rw [writeLoop, show i = l.length by omega, List.drop_length]
  | succ left ih =>
    have hlt : i < l.length := by omega
    simp only [writeLoop]
    split
    · exact .inr (.inl ⟨false, rfl, by simp only [List.length_nil]; omega⟩)
    split
    · exact .inr (.inr ⟨i, rfl, Nat.le_refl i, hlt, by rw [Nat.sub_self]; rfl⟩)
    rw [List.getElem?_eq_getElem hlt]
    simp only
    have hdrop : l.drop i = l[i] :: l.drop (i + 1) := List.drop_eq_getElem_cons hlt
    rcases ih (p := { p with data := p.data.push l[i] }) (i := i + 1) (by omega) with
      ⟨w, hret, hb⟩ | ⟨w, hret, hb⟩ | ⟨j, hs, hle, hj, hb⟩
    · exact .inl ⟨w, hret, by rw [hb, hdrop]⟩
    · exact .inr (.inl ⟨w, hret, by rw [List.length_cons]; omega⟩)
    · refine .inr (.inr ⟨j, hs, by omega, hj, ?_⟩)
      rw [hb, hdrop, show j - i = (j - (i + 1)) + 1 by omega, List.take_succ_cons]

/-- A write that returns has pushed all bytes, or it has returned -1 before the last. -/
theorem pipeWrite_ends {l : List UInt8} {visits : List (Pipe × Bool)} {i : Nat} {w : Int}
    {pushed : List UInt8} (hi : i ≤ l.length)
    (h : pipeWrite l l.length i visits = some (w, pushed)) :
    (w = l.length ∧ pushed = l.drop i) ∨ (w = -1 ∧ pushed.length < l.length - i) := by
  induction visits generalizing i pushed with
  | nil => cases h
  | cons v visits ih =>
    obtain ⟨p, killed⟩ := v
    rw [pipeWrite] at h
    have hleft : i + ((l.length : Int).toNat - i) = l.length := by omega
    have hends := @writeLoop_ends killed l p i _ hleft
    revert h hends
    generalize writeLoop killed (fun j => l[j]?) ((l.length : Int).toNat - i) p i = r
    obtain ⟨p', bytes, out⟩ := r
    rintro h (⟨_, rfl, hb⟩ | ⟨_, rfl, hb⟩ | ⟨j, rfl, hle, hj, hb⟩)
    · cases h
      exact .inl ⟨rfl, hb⟩
    · cases h
      exact .inr ⟨rfl, hb⟩
    · simp only at h hb
      cases hrest : pipeWrite l l.length j visits with
      | none =>
        rw [hrest] at h
        cases h
      | some r =>
        rw [hrest] at h
        cases h
        rcases ih (by omega) hrest with ⟨hw, hp⟩ | ⟨hw, hp⟩
        · refine .inl ⟨hw, ?_⟩
          rw [hp, hb]
          conv_rhs => rw [← List.take_append_drop (j - i) (l.drop i)]
          rw [List.drop_drop, show i + (j - i) = j by omega]
        · refine .inr ⟨hw, ?_⟩
          rw [List.length_append, hb, List.length_take, List.length_drop]
          omega

/-- A write of no bytes. -/
theorem pipeWrite_none {src : List UInt8} {n : Int} (hn : n ≤ 0) (visits : List (Pipe × Bool)) :
    pipeWrite src n 0 visits = if visits = [] then none else some (0, []) := by
  cases visits with
  | nil => rfl
  | cons v visits =>
    obtain ⟨p, killed⟩ := v
    rw [pipeWrite, show n.toNat - 0 = 0 by omega, if_neg (List.cons_ne_nil _ _)]
    rfl

/-! ### The two halves of a transfer -/

namespace State

variable {s t : State} {i o : Nat}

/-- The position of a regular file is advanced. -/
def bump (s : State) (i n : Nat) : State :=
  match s.files i with
  | .pipe => s
  | .regular f => s.setFile i { f with filePtr := f.filePtr + n }

/-- The bytes `src` are written to the node of `f`, the file `o`, at `eff`. -/
def stored (s : State) (o : Nat) (f : Regular) (eff : Nat) (upgrade : Bool) (src : List UInt8) :
    State :=
  ({ s with nodes := Function.update s.nodes f.node ((s.nodes f.node).put eff src) } :
    State).setFile o
    { f with
      filePtr := if upgrade then f.filePtr + src.length else f.filePtr
      statSize := ((s.nodes f.node).put eff src).rFileSize }

theorem setFile_self {f : Regular} (h : s.files i = .regular f) : s.setFile i f = s := by
  unfold setFile
  rw [← h, Function.update_eq_self]

theorem isPipe_of_regular {f : Regular} (h : s.files i = .regular f) : s.isPipe i = false := by
  simp [isPipe, h]

theorem isPipe_of_pipe (h : s.files i = .pipe) : s.isPipe i = true := by simp [isPipe, h]

theorem filePtr_of_regular {f : Regular} (h : s.files i = .regular f) :
    s.filePtr i = f.filePtr := by
  simp [filePtr, h]

/-- A read that fails changes nothing. -/
theorem fileRead_fails {cap len : Nat} {off : Int} {upgrade : Bool} {visits : List (Pipe × Bool)}
    (h : s.fileRead i cap len off upgrade visits = .ok (some (none, t))) : t = s := by
  unfold fileRead at h
  split at h
  · split at h
    · cases h
    · cases h
      rfl
    · split at h <;> cases h
  · split at h
    · cases h
      rfl
    · obtain ⟨r, -, h⟩ := bind_eq_ok.mp h
      cases r with
      | none =>
        cases h
        rfl
      | some bytes =>
        simp only at h
        split at h
        · cases h
        · obtain ⟨f', -, h⟩ := bind_eq_ok.mp h
          cases h

/-- A read that succeeds fits into the buffer, and advances the position of a regular file
at most. -/
theorem fileRead_gets {cap len : Nat} {off : Int} {upgrade : Bool} {visits : List (Pipe × Bool)}
    {bytes : List UInt8} (h : s.fileRead i cap len off upgrade visits =
      .ok (some (some bytes, t))) :
    bytes.length ≤ cap ∧ t = (if upgrade then s.bump i bytes.length else s) := by
  unfold fileRead at h
  split at h
  · next hf =>
    split at h
    · cases h
    · cases h
    · split at h
      · cases h
      · next hcap =>
        cases h
        refine ⟨by omega, ?_⟩
        rw [bump, hf]
        exact (ite_self _).symm
  · next f hf =>
    split at h
    · cases h
    · obtain ⟨r, -, h⟩ := bind_eq_ok.mp h
      cases r with
      | none => cases h
      | some bytes' =>
        simp only at h
        split at h
        · cases h
        · next hcap =>
          obtain ⟨f', hf', h⟩ := bind_eq_ok.mp h
          cases h
          refine ⟨by omega, ?_⟩
          unfold Regular.advance at hf'
          split at hf'
          · next hu =>
            cases hf'
            rw [setFile_self hf, hu]
            rfl
          · next hu =>
            split at hf'
            · cases hf'
              rw [if_pos (by simpa using hu), bump, hf]
            · cases hf'

/-- The position that a read advances stays a `long`. -/
theorem fileRead_fits {cap len : Nat} {off : Int} {visits : List (Pipe × Bool)}
    {bytes : List UInt8}
    {f : Regular} (h : s.fileRead i cap len off true visits = .ok (some (some bytes, t)))
    (hf : s.files i = .regular f) : f.filePtr + bytes.length < 2 ^ 63 := by
  unfold fileRead at h
  rw [hf] at h
  simp only at h
  split at h
  · cases h
  · obtain ⟨r, -, h⟩ := bind_eq_ok.mp h
    cases r with
    | none => cases h
    | some bytes' =>
      simp only at h
      split at h
      · cases h
      · obtain ⟨f', hadv, h⟩ := bind_eq_ok.mp h
        cases h
        unfold Regular.advance at hadv
        rw [if_neg (show ¬true = false by decide)] at hadv
        split at hadv
        · assumption
        · cases hadv

/-- A write to a node that takes as many bytes as it is given. -/
theorem fileWrite_regular {f : Regular} {src : List UInt8} {off : Int} {upgrade : Bool}
    {visits : List (Pipe × Bool)} (hf : s.files o = .regular f) (hw : f.canWrite = true)
    (hc : (s.nodes f.node).counts = true) :
    s.fileWrite o src src.length off upgrade visits =
      if upgrade = false ∨ f.filePtr + src.length < 2 ^ 63 then
        .ok (some (src.length, [], s.stored o f (effective f off) upgrade src))
      else .error (.undefined "signed overflow") := by
  have hpos : decide (0 ≤ (src.length : Int)) = true := decide_eq_true (Int.natCast_nonneg _)
  unfold fileWrite
  rw [hf]
  simp only [hw, Bool.true_eq_false, if_false, FileNode.write_natCast, hc, if_true, ok_bind, hpos,
    Bool.true_and, Int.toNat_natCast]
  cases upgrade with
  | false => rfl
  | true =>
    by_cases hlt : f.filePtr + src.length < 2 ^ 63
    · simp only [Regular.advance, hlt, if_true, ok_bind, or_true, Bool.true_eq_false, if_false]
      rfl
    · simp only [Regular.advance, hlt, if_false, error_bind, Bool.true_eq_false, or_self]

/-- The size that a description has seen is changed; nothing that is seen is. -/
def refresh (s : State) (o : Nat) (f : Regular) : State :=
  s.setFile o { f with statSize := (s.nodes f.node).rFileSize }

theorem refresh_view {f : Regular} (hf : s.files o = .regular f) :
    (s.refresh o f).view = s.view := by
  ext x : 2
  · rfl
  · rfl
  · simp only [view, refresh, setFile, filePtr, Function.update_apply]
    by_cases hx : x = o
    · rw [if_pos hx, hx, hf]
    · rw [if_neg hx]

/-- A write to a node that returns 0. -/
theorem fileWrite_idle {f : Regular} {src : List UInt8} {len off : Int} {upgrade : Bool}
    {visits : List (Pipe × Bool)} (hf : s.files o = .regular f) (hw : f.canWrite = true)
    (hptr : f.filePtr < 2 ^ 63) (hc : (s.nodes f.node).counts = false) :
    s.fileWrite o src len off upgrade visits = .ok (some (0, [], s.refresh o f)) := by
  have hwrite : (s.nodes f.node).write (effective f off) src len = .ok (0, s.nodes f.node) := by
    cases hn : s.nodes f.node with
    | ramfs data =>
      rw [hn] at hc
      cases hc
    | fixed g =>
      rw [hn] at hc
      have hg : g.returnsLen = false := hc
      simp only [FileNode.write, hg, Bool.false_eq_true, if_false]
      rfl
    | link target => rfl
  have hadv : f.advance (decide ((0 : Int) ≤ 0) && upgrade) (0 : Int).toNat = .ok f := by
    unfold Regular.advance
    split
    · rfl
    · rw [Int.toNat_zero, Nat.add_zero, if_pos hptr]
  unfold fileWrite
  rw [hf]
  simp only [hw, Bool.true_eq_false, if_false, hwrite, ok_bind, hadv, Function.update_eq_self]
  rfl

/-! ### What is seen -/

theorem bump_files {n : Nat} (x : Nat) : (s.bump i n).files x = match s.files x with
    | .pipe => .pipe
    | .regular f => .regular (if x = i then { f with filePtr := f.filePtr + n } else f) := by
  unfold bump
  cases hi : s.files i with
  | pipe =>
    simp only
    cases hx : s.files x with
    | pipe => rfl
    | regular f =>
      simp only
      rw [if_neg]
      rintro rfl
      rw [hi] at hx
      cases hx
  | regular f =>
    simp only [setFile, Function.update_apply]
    by_cases hx : x = i
    · simp [hx, hi]
    · simp only [if_neg hx]
      cases s.files x <;> rfl

theorem bump_filePtr {n : Nat} (x : Nat) : (s.bump i n).filePtr x = match s.files x with
    | .pipe => 0
    | .regular f => if x = i then f.filePtr + n else f.filePtr := by
  unfold filePtr
  rw [bump_files]
  cases s.files x with
  | pipe => rfl
  | regular f =>
    simp only
    split <;> rfl

theorem bump_nodes {n : Nat} : (s.bump i n).nodes = s.nodes := by
  unfold bump
  split <;> rfl

theorem bump_user {n : Nat} : (s.bump i n).user = s.user := by
  unfold bump
  split <;> rfl

/-- What is seen after a read has advanced a position. -/
theorem bump_view {n : Nat} : (s.bump i n).view = { s.view with ptr := fun x => match s.files x with
    | .pipe => 0
    | .regular f => if x = i then f.filePtr + n else f.filePtr } := by
  ext x : 2
  · simp only [view, bump_nodes]
  · simp only [view, bump_user]
  · exact bump_filePtr x

/-- What is seen after a write. -/
theorem stored_view {f : Regular} {eff : Nat} {upgrade : Bool} {src : List UInt8} :
    (s.stored o f eff upgrade src).view =
      ⟨fun x => if x = f.node then ofList ((s.nodes f.node).put eff src).data else s.view.data x,
        s.user,
        fun x => if x = o then (if upgrade then f.filePtr + src.length else f.filePtr)
          else s.filePtr x⟩ := by
  ext x : 2
  · simp only [view, stored, setFile, Function.update_apply]
    split <;> rfl
  · rfl
  · simp only [view, stored, setFile, filePtr, Function.update_apply]
    by_cases hx : x = o
    · simp only [if_pos hx]
    · simp only [if_neg hx]

/-- Nothing is moved. -/
theorem expected_nil {offIn offOut : Option Nat} : s.expected i o offIn offOut [] = s.view := by
  ext x : 2
  · simp only [expected, ByteFile.write_nil, ite_self]
    split <;> rfl
  · simp [expected, view]
  · simp only [expected, view, filePtr, List.length_nil, Nat.add_zero, ite_self]
    cases s.files x <;> rfl

theorem expected_pipe {offIn offOut : Option Nat} {bytes : List UInt8} (ho : s.files o = .pipe) :
    (s.expected i o offIn offOut bytes).data = s.view.data := by
  simp [expected, ho]

theorem source_of_counts {x : Nat} (h : (s.nodes x).counts = true) : s.source x = x := by
  unfold source
  split
  · next hn =>
    rw [hn] at h
    cases h
  · rfl

theorem expected_regular {offIn offOut : Option Nat} {bytes want : List UInt8} {f : Regular}
    {eff : Nat} (ho : s.files o = .regular f) (hc : (s.nodes f.node).counts = true) :
    (fun x => if x = f.node then ofList ((s.nodes f.node).put eff bytes).data else s.view.data x) =
        (s.expected i o offIn offOut want).data ↔
      (s.nodes f.node).Stores eff (s.place o offOut) bytes want := by
  simp only [expected, ho, source_of_counts hc, FileNode.Stores]
  constructor
  · intro h
    have := congrFun h f.node
    simpa [view] using this
  · intro h
    funext x
    by_cases hx : x = f.node
    · simp only [if_pos hx]
      rw [hx]
      exact h
    · simp only [if_neg hx]

/-- Where nothing is stored, the contents are those that are expected if they are there already. -/
theorem expected_unchanged {offIn offOut : Option Nat} {want : List UInt8} {f : Regular}
    (ho : s.files o = .regular f) : s.view.data = (s.expected i o offIn offOut want).data ↔
      (s.view.data (s.source f.node)).read (s.place o offOut) want.length = want := by
  rw [← ByteFile.write_eq_self_iff]
  simp only [expected, ho]
  constructor
  · intro h
    have := congrFun h (s.source f.node)
    simpa using this.symm
  · intro h
    funext x
    by_cases hx : x = s.source f.node
    · simp only [if_pos hx]
      rw [hx]
      exact h.symm
    · simp only [if_neg hx]

section

variable {offIn offOut : Option Nat} {m : Moved}

theorem conserves_neg (hr : m.ret < 0) : s.Conserves i o offIn offOut m ↔
    m.state.view = s.view ∧ m.taken = [] ∧ m.pushed = [] := by
  rw [Conserves, if_pos hr]

/-- The bytes that a call should have moved are those that are wanted. -/
theorem conserves_iff {bytes : List UInt8} (hr : m.ret = bytes.length)
    (hin : s.isPipe i = true → m.taken = bytes) : s.Conserves i o offIn offOut m ↔
      (s.wanted i offIn bytes).length = bytes.length ∧
        m.state.view = s.expected i o offIn offOut (s.wanted i offIn bytes) ∧
        m.taken = (if s.isPipe i then s.wanted i offIn bytes else []) ∧
        m.pushed = (if s.isPipe o then s.wanted i offIn bytes else []) := by
  rw [Conserves, if_neg (by omega)]
  constructor
  · rintro ⟨bytes', hlen, hview, htaken, hpushed, hgives⟩
    have hlen' : bytes'.length = bytes.length := by omega
    have hsame : s.wanted i offIn bytes = bytes' := by
      unfold wanted
      cases hf : s.files i with
      | pipe =>
        have hi := isPipe_of_pipe hf
        rw [hi, if_pos rfl] at htaken
        exact (hin hi).symm.trans htaken
      | regular f =>
        simp only
        rw [← hlen']
        exact (hgives f hf).symm
    rw [hsame]
    exact ⟨hlen', hview, htaken, hpushed⟩
  · rintro ⟨hlen, hview, htaken, hpushed⟩
    refine ⟨_, by omega, hview, htaken, hpushed, fun f hf => ?_⟩
    rw [hlen]
    simp only [wanted, hf]

theorem wanted_pipe {off : Option Nat} {bytes : List UInt8} (hi : s.isPipe i = true) :
    s.wanted i off bytes = bytes := by
  unfold wanted
  cases hf : s.files i with
  | pipe => rfl
  | regular f =>
    rw [isPipe_of_regular hf] at hi
    cases hi

theorem wanted_nil {off : Option Nat} : s.wanted i off [] = [] := by
  unfold wanted
  cases s.files i with
  | pipe => rfl
  | regular f => exact ByteFile.read_zero _ _

/-- A call that does nothing and says so. -/
theorem conserves_still (hr : m.ret ≤ 0) (hview : m.state.view = s.view) (ht : m.taken = [])
    (hp : m.pushed = []) : s.Conserves i o offIn offOut m := by
  by_cases hneg : m.ret < 0
  · exact (conserves_neg hneg).mpr ⟨hview, ht, hp⟩
  · have hzero : m.ret = (([] : List UInt8).length : Int) := by
      simp only [List.length_nil]
      omega
    refine (conserves_iff hzero fun _ => ht).mpr ?_
    rw [wanted_nil]
    refine ⟨rfl, ?_, ?_, ?_⟩
    · rw [hview, expected_nil]
    · rw [ht, ite_self]
    · rw [hp, ite_self]

end

end State

end OsKernel.Syscall

import OsKernel.Syscall.TransferSpec

/-! The conditions under which `sendfile`, `copy_file_range` and `splice` conserve bytes
and positions. -/

namespace OsKernel.Syscall

open Fs Hsai Pm.Ipc

namespace State

variable {s : State} {i o : Nat} {offIn offOut : Option Nat} {bytes : List UInt8}

/-! ### Positions and offsets -/

theorem intOf_neg_one : intOf (-1) = -1 := intOf_of_lt (by decide) (by decide)

theorem intOf_zero : intOf 0 = 0 := intOf_of_lt (by decide) (by decide)

/-- The positions after a read and a write of `n` bytes, each of which advances the one of its file
or not. -/
def ptrAfter (s : State) (ui uo : Bool) (i o n x : Nat) : Nat :=
  match s.files x with
  | .pipe => 0
  | .regular f =>
    f.filePtr + (if ui = true ∧ x = i then n else 0) + (if uo = true ∧ x = o then n else 0)

/-- The positions are those that are expected: those of the designated files are advanced, once. -/
theorem ptrAfter_eq_iff {ui : Bool} (hui : offIn = none → ui = true) :
    s.ptrAfter ui offOut.isNone i o bytes.length = (s.expected i o offIn offOut bytes).ptr ↔
      bytes = [] ∨ s.isPipe i = true ∨
        (ui = true → offIn = none) ∧ ¬(i = o ∧ ui = true ∧ offOut = none) := by
  have hpos : bytes ≠ [] → 0 < bytes.length := List.length_pos_iff.mpr
  constructor
  · intro h
    by_cases hb : bytes = []
    · exact .inl hb
    have hi := congrFun h i
    simp only [ptrAfter, expected] at hi
    cases hf : s.files i with
    | pipe => exact .inr (.inl (isPipe_of_pipe hf))
    | regular f =>
      rw [hf] at hi
      have := hpos hb
      refine .inr (.inr ⟨?_, ?_⟩)
      · rintro rfl
        by_contra hne
        simp only [true_and, if_true, hne, and_false, false_or, Option.isNone_iff_eq_none] at hi
        by_cases ho : offOut = none
        · by_cases he : i = o
          · simp only [ho, he, and_self, if_true] at hi
            omega
          · simp only [he, and_false, false_and, if_false] at hi
            omega
        · simp only [ho, and_false, false_and, if_false] at hi
          omega
      · rintro ⟨rfl, rfl, rfl⟩
        simp only [true_and, Option.isNone_none, or_true, if_true, and_self] at hi
        omega
  · rintro (rfl | hi | ⟨hin, hout⟩)
    · funext x
      cases hf : s.files x with
      | pipe => simp only [ptrAfter, expected, hf]
      | regular f => simp only [ptrAfter, expected, hf, List.length_nil, ite_self, Nat.add_zero]
    · funext x
      simp only [ptrAfter, expected]
      cases hf : s.files x with
      | pipe => rfl
      | regular f =>
        have hx : x ≠ i := by
          rintro rfl
          simp [isPipe, hf] at hi
        simp only [hx, and_false, false_and, false_or, if_false, Nat.add_zero,
          Option.isNone_iff_eq_none]
        by_cases ho : offOut = none ∧ x = o
        · rw [if_pos ho, if_pos ⟨ho.2, ho.1⟩]
        · rw [if_neg ho, if_neg fun h => ho ⟨h.2, h.1⟩]
          rfl
    · funext x
      simp only [ptrAfter, expected]
      cases hf : s.files x with
      | pipe => rfl
      | regular f =>
        simp only [Option.isNone_iff_eq_none]
        by_cases hx : x = i <;> by_cases hy : x = o <;> cases offIn <;> cases offOut <;>
          cases ui <;> simp_all

theorem ofInt_natCast (n : Nat) : UInt64.ofInt n = UInt64.ofNat n := by
  have hmod : ((n : Int) % 2 ^ 64).toNat = n % 2 ^ 64 := by omega
  rw [UInt64.ofInt, hmod]
  exact UInt64.ofNat_mod_size

theorem ofInt_zero : UInt64.ofInt 0 = 0 := ofInt_natCast 0

/-- An offset that is moved by -1 is not the same. -/
theorem add_ofInt_neg_one_ne (v : UInt64) : v + UInt64.ofInt (-1) ≠ v := by
  intro h
  have hnat := congrArg UInt64.toNat h
  have hlt := v.toNat_lt
  rw [UInt64.toNat_add, show (UInt64.ofInt (-1)).toNat = 2 ^ 64 - 1 from rfl] at hnat
  omega

/-- The offset at `off` is moved by `n`. -/
def userAfter (s : State) (off : Option Nat) (n : Int) : Nat → UInt64 :=
  match off with
  | none => s.user
  | some a => Function.update s.user a (s.user a + UInt64.ofInt n)

theorem userAfter_neg_one {off : Option Nat} : s.userAfter off (-1) = s.user ↔ off = none := by
  cases off with
  | none => exact iff_of_true rfl rfl
  | some a =>
    refine iff_of_false (fun h => ?_) (fun h => nomatch h)
    have ha := congrFun h a
    simp only [userAfter, Function.update_self] at ha
    exact add_ofInt_neg_one_ne _ ha

/-! ### After the read, and after the write -/

/-- The state after a read of `n` bytes. -/
def readDone (s : State) (ui : Bool) (i n : Nat) : State := if ui then s.bump i n else s

theorem readDone_user {ui : Bool} {n : Nat} : (s.readDone ui i n).user = s.user := by
  unfold readDone
  split
  · exact bump_user
  · rfl

theorem readDone_nodes {ui : Bool} {n : Nat} : (s.readDone ui i n).nodes = s.nodes := by
  unfold readDone
  split
  · exact bump_nodes
  · rfl

theorem readDone_files {ui : Bool} {n : Nat} (x : Nat) : (s.readDone ui i n).files x =
    match s.files x with
    | .pipe => .pipe
    | .regular f =>
      .regular (if ui = true ∧ x = i then { f with filePtr := f.filePtr + n } else f) := by
  unfold readDone
  cases ui with
  | true =>
    simp only [if_true, true_and]
    exact bump_files x
  | false =>
    simp only [Bool.false_eq_true, if_false, false_and]
    cases s.files x <;> rfl

theorem readDone_view {ui uo : Bool} {n : Nat} (ho : s.files o = .pipe) :
    (s.readDone ui i n).view = ⟨s.view.data, s.user, s.ptrAfter ui uo i o n⟩ := by
  ext x : 2
  · simp only [view, readDone_nodes]
  · simp only [view, readDone_user]
  · simp only [view, filePtr, readDone_files, ptrAfter]
    cases hf : s.files x with
    | pipe => rfl
    | regular f =>
      have hx : x ≠ o := by
        rintro rfl
        rw [ho] at hf
        cases hf
      simp only [hx, and_false, if_false, Nat.add_zero]
      split <;> simp

/-- What is seen after the write to a regular file. -/
theorem readDone_stored {ui uo : Bool} {f : Regular} (ho : s.files o = .regular f) :
    ∃ f₁, (s.readDone ui i bytes.length).files o = .regular f₁ ∧
      f₁.canWrite = f.canWrite ∧ f₁.node = f.node ∧
      f₁.filePtr = f.filePtr + (if ui = true ∧ o = i then bytes.length else 0) ∧
      ∀ eff, ((s.readDone ui i bytes.length).stored o f₁ eff uo bytes).view =
        ⟨fun x => if x = f.node then ofList ((s.nodes f.node).put eff bytes).data
          else s.view.data x, s.user, s.ptrAfter ui uo i o bytes.length⟩ := by
  refine ⟨if ui = true ∧ o = i then { f with filePtr := f.filePtr + bytes.length } else f, ?_,
    ?_, ?_, ?_, fun eff => ?_⟩
  · rw [readDone_files, ho]
  · split <;> rfl
  · split <;> rfl
  · split <;> rfl
  · have hnode : (if ui = true ∧ o = i then { f with filePtr := f.filePtr + bytes.length }
        else f).node = f.node := by
      split <;> rfl
    rw [stored_view, hnode, readDone_user, readDone_nodes]
    ext x : 2
    · simp only [view, readDone_nodes]
    · rfl
    · simp only [ptrAfter, filePtr, readDone_files]
      by_cases hx : x = o
      · subst hx
        simp only [ho, if_true, and_true]
        split <;> split <;> simp_all
      · simp only [hx, and_false, if_false, Nat.add_zero]
        cases s.files x with
        | pipe => rfl
        | regular g =>
          simp only
          split <;> simp

theorem effective_natCast (f : Regular) (n : Nat) : effective f n = n := by
  unfold effective
  rw [if_neg (by omega), Int.toNat_natCast]

/-- The position that is used is the one that is designated, unless it is taken for a
negative one. -/
theorem effective_place (f : Regular) {off : Option Nat}
    (hoff : ∀ a, off = some a → (s.user a).toNat < 2 ^ 63) :
    effective f (s.offset i off) = s.place i off := by
  cases off with
  | none => exact effective_natCast f _
  | some a =>
    simp only [offset, place, longOfUlong_of_lt (hoff a rfl)]
    exact effective_natCast f _

theorem offset_lt (hs : s.Fits) (i : Nat) (off : Option Nat) : s.offset i off < 2 ^ 63 := by
  cases off with
  | none =>
    simp only [offset, filePtr]
    cases hf : s.files i with
    | pipe =>
      simp only
      omega
    | regular f =>
      have := hs.ptr hf
      simp only
      omega
  | some a =>
    have := (s.user a).toNat_lt
    simp only [offset, longOfUlong]
    omega

/-- A RAM file is read at the place that the call designates, unless that is taken for a
negative one. -/
theorem wanted_ramfs (hs : s.Fits) {off : Option Nat} {len : Nat} {f : Regular} {data : List UInt8}
    (hf : s.files i = .regular f) (hn : s.nodes (s.source f.node) = .ramfs data)
    (hlen : len < 2 ^ 63)
    (hoff : ∀ a, off = some a → (s.user a).toNat < 2 ^ 63)
    (hr : (s.nodes (s.source f.node)).read (effective f (s.offset i off)) len = .ok (some bytes)) :
    s.wanted i off bytes = bytes := by
  rw [effective_place f hoff, hn] at hr
  have hplace : s.place i off < 2 ^ 63 := by
    cases off with
    | none =>
      simp only [place, filePtr_of_regular hf]
      exact hs.ptr hf
    | some a => exact hoff a rfl
  have hsize := hs.size (s.source f.node)
  rw [hn] at hsize
  have hb := read_ramfs (by omega) hsize hr
  simp only [wanted, hf, view, hn]
  exact hb.symm

theorem fileWrite_refused {f : Regular} {src : List UInt8} {len off : Int} {upgrade : Bool}
    {visits : List (Pipe × Bool)} (hf : s.files o = .regular f) (hw : f.canWrite = false) :
    s.fileWrite o src len off upgrade visits = .ok (some (-1, [], s)) := by
  unfold fileWrite
  rw [hf]
  exact if_pos hw

/-- A write of -1 bytes to a pipe. -/
theorem fileWrite_minus_pipe {off : Int} {upgrade : Bool} {vout : List (Pipe × Bool)}
    (ho : s.files o = .pipe) : s.fileWrite o [] (-1) off upgrade vout =
      if vout = [] then .ok none else .ok (some (0, [], s)) := by
  have hneg : intOf (-1) ≤ 0 := by rw [intOf_neg_one]; decide
  unfold fileWrite
  simp only [ho, pipeWrite_none hneg]
  by_cases hv : vout = []
  · rw [if_pos hv, if_pos hv]
  · rw [if_neg hv, if_neg hv]

/-- A write of -1 bytes to a regular file. -/
theorem fileWrite_minus {f : Regular} {off : Int} {upgrade : Bool} {vout : List (Pipe × Bool)}
    (ho : s.files o = .regular f) (hw : f.canWrite = true) (hptr : f.filePtr < 2 ^ 63) :
    s.fileWrite o [] (-1) off upgrade vout = match s.nodes f.node with
      | .ramfs _ => .error (.undefined "buffer overrun")
      | node => .ok (some (if node.counts = true then -1 else 0, [], s.refresh o f)) := by
  cases hn : s.nodes f.node with
  | link target => exact fileWrite_idle ho hw hptr (by rw [hn]; rfl)
  | ramfs data =>
    unfold fileWrite
    simp only [ho, hw, Bool.true_eq_false, if_false, hn, FileNode.write,
      if_pos (show (-1 : Int) < 0 by decide), error_bind]
  | fixed g =>
    cases hg : g.returnsLen with
    | false =>
      simp only [FileNode.counts, hg, Bool.false_eq_true, if_false]
      exact fileWrite_idle ho hw hptr (by rw [hn]; exact hg)
    | true =>
      have hneg : decide ((0 : Int) ≤ -1) = false := rfl
      unfold fileWrite
      simp only [ho, hw, Bool.true_eq_false, if_false, hn, FileNode.write, FileNode.put, hg,
        if_true, ok_bind, hneg, Bool.false_and, Regular.advance, FileNode.counts]
      rw [← hn, Function.update_eq_self]
      rfl

/-! ### The ends of a call -/

section

variable {m : Moved} {ui : Bool} {want : List UInt8}

theorem taken_eq : s.taken i (some bytes) = if s.isPipe i then bytes else [] := rfl

theorem expected_user (h : want.length = bytes.length) :
    (s.expected i o offIn offOut want).user = (s.expected i o offIn offOut bytes).user := by
  simp only [expected, h]

theorem expected_ptr (h : want.length = bytes.length) :
    (s.expected i o offIn offOut want).ptr = (s.expected i o offIn offOut bytes).ptr := by
  simp only [expected, h]

/-- What is taken out of a pipe is what is wanted. -/
theorem taken_wanted {off : Option Nat} :
    s.taken i (some bytes) = if s.isPipe i then s.wanted i off bytes else [] := by
  rw [taken_eq]
  by_cases hi : s.isPipe i = true
  · rw [if_pos hi, if_pos hi, wanted_pipe hi]
  · rw [if_neg hi, if_neg hi]

/-- All bytes are pushed into a pipe. -/
theorem conserves_piped (ho : s.files o = .pipe) (hui : offIn = none → ui = true)
    (hr : m.ret = bytes.length) (hview : m.state.view = ⟨s.view.data,
      (s.expected i o offIn offOut bytes).user, s.ptrAfter ui offOut.isNone i o bytes.length⟩)
    (ht : m.taken = s.taken i (some bytes)) (hp : m.pushed = bytes) :
    s.Conserves i o offIn offOut m ↔
      (bytes = [] ∨ s.isPipe i = true ∨ (ui = true → offIn = none)) ∧
        s.wanted i offIn bytes = bytes := by
  have hpipe := isPipe_of_pipe ho
  rw [conserves_iff hr (fun hi => by rw [ht, taken_eq, if_pos hi]), hview, ht, hp, hpipe,
    if_pos rfl, ← taken_wanted]
  have hptr := @ptrAfter_eq_iff s i o offIn offOut bytes ui hui
  have hself : s.isPipe i = false → i ≠ o := by
    rintro hi rfl
    rw [hpipe] at hi
    cases hi
  constructor
  · rintro ⟨hlen, hv, -, hw⟩
    refine ⟨?_, hw.symm⟩
    have hp := congrArg View.ptr hv
    rw [expected_ptr hlen] at hp
    rcases hptr.mp hp with hb | hi | ⟨hn, -⟩
    · exact .inl hb
    · exact .inr (.inl hi)
    · exact .inr (.inr hn)
  · rintro ⟨hc, hw⟩
    rw [hw]
    refine ⟨rfl, View.ext (expected_pipe ho).symm rfl (hptr.mpr ?_), rfl, rfl⟩
    rcases hc with hb | hi | hn
    · exact .inl hb
    · exact .inr (.inl hi)
    · cases hi : s.isPipe i with
      | true => exact .inr (.inl rfl)
      | false => exact .inr (.inr ⟨hn, fun h => hself hi h.1⟩)

/-- All bytes are written to a regular file. -/
theorem conserves_stored {f : Regular} {eff : Nat} (ho : s.files o = .regular f)
    (hcount : (s.nodes f.node).counts = true) (hui : offIn = none → ui = true)
    (hr : m.ret = bytes.length)
    (hview : m.state.view = ⟨fun x => if x =
        f.node then ofList ((s.nodes f.node).put eff bytes).data
        else s.view.data x, (s.expected i o offIn offOut bytes).user,
      s.ptrAfter ui offOut.isNone i o bytes.length⟩)
    (ht : m.taken = s.taken i (some bytes)) (hp : m.pushed = []) :
    s.Conserves i o offIn offOut m ↔ (s.wanted i offIn bytes).length = bytes.length ∧
      (s.nodes f.node).Stores eff (s.place o offOut) bytes (s.wanted i offIn bytes) ∧
      (bytes = [] ∨ s.isPipe i = true ∨
        (ui = true → offIn = none) ∧ ¬(i = o ∧ ui = true ∧ offOut = none)) := by
  have hpipe := isPipe_of_regular ho
  rw [conserves_iff hr (fun hi => by rw [ht, taken_eq, if_pos hi]), hview, ht, hp, hpipe,
    ← taken_wanted]
  have hptr := @ptrAfter_eq_iff s i o offIn offOut bytes ui hui
  have hdata := @expected_regular s i o offIn offOut bytes (s.wanted i offIn bytes) f eff ho hcount
  constructor
  · rintro ⟨hlen, hv, -, -⟩
    have hp := congrArg View.ptr hv
    rw [expected_ptr hlen] at hp
    exact ⟨hlen, hdata.mp (congrArg View.data hv), hptr.mp hp⟩
  · rintro ⟨hlen, hst, hc⟩
    refine ⟨hlen, View.ext (hdata.mpr hst) (expected_user hlen).symm ?_, rfl, rfl⟩
    rw [expected_ptr hlen]
    exact hptr.mpr hc

/-- What a read alone has changed. -/
theorem readDone_unchanged :
    ((s.readDone ui i bytes.length).filePtr = s.filePtr ∧ s.taken i (some bytes) = []) ↔
      bytes = [] ∨ ui = false ∧ s.isPipe i = false := by
  have hptr : (s.readDone ui i bytes.length).filePtr = s.filePtr ↔
      bytes = [] ∨ ui = false ∨ s.isPipe i = true := by
    constructor
    · intro h
      have hi := congrFun h i
      simp only [filePtr, readDone_files] at hi
      cases hf : s.files i with
      | pipe => exact .inr (.inr (isPipe_of_pipe hf))
      | regular f =>
        rw [hf] at hi
        cases ui with
        | false => exact .inr (.inl rfl)
        | true =>
          simp only [and_self, if_true] at hi
          exact .inl (List.length_eq_zero_iff.mp (by omega))
    · intro h
      funext x
      simp only [filePtr, readDone_files]
      cases hf : s.files x with
      | pipe => rfl
      | regular f =>
        simp only
        split
        · next hx =>
          obtain ⟨rfl, rfl⟩ := hx
          rcases h with rfl | h | h
          · rfl
          · cases h
          · rw [isPipe_of_regular hf] at h
            cases h
        · rfl
  rw [hptr, taken_eq]
  cases s.isPipe i <;> cases ui <;> simp

end

end State

end OsKernel.Syscall

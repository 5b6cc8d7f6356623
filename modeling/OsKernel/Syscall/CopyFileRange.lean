import OsKernel.Syscall.TransferCalls

/-! When `copy_file_range` conserves bytes and positions. -/

namespace OsKernel.Syscall

open Fs Hsai Pm.Ipc

namespace State

variable {s : State} {i o : Nat} {offIn offOut : Option Nat} {bytes : List UInt8}

/-- The offsets, when that at `offIn` is moved by `r` and then that at `offOut` by `w`. -/
def userMoved (s : State) (offIn offOut : Option Nat) (r w : Int) (a : Nat) : UInt64 :=
  if offOut = some a then s.user a + UInt64.ofInt w
  else if offIn = some a then s.user a + UInt64.ofInt r
  else s.user a

theorem putOffsets_view {t : State} {r w : Int} (hu : t.user = s.user) :
    ((t.putOffset offIn s.user r).putOffset offOut s.user w).view =
      { t.view with user := s.userMoved offIn offOut r w } := by
  ext x : 2
  · cases offIn <;> cases offOut <;> rfl
  · simp only [view, userMoved]
    cases offIn <;> cases offOut <;>
      simp only [putOffset, setUser, hu, Function.update_apply, Option.some.injEq, reduceCtorEq,
        if_false] <;>
      grind
  · cases offIn <;> cases offOut <;> rfl

theorem userMoved_expected : s.userMoved offIn offOut bytes.length bytes.length =
    (s.expected i o offIn offOut bytes).user := by
  funext a
  simp only [userMoved, expected, ofInt_natCast]
  by_cases hi : offIn = some a <;> by_cases ho : offOut = some a <;> simp [hi, ho]

/-- Nothing is moved after a failed read if the offset of the output is put over that of
the input. -/
theorem userMoved_unread : s.userMoved offIn offOut (-1) 0 = s.user ↔ offIn = none ∨
    offIn = offOut := by
  constructor
  · intro h
    cases offIn with
    | none => exact .inl rfl
    | some a =>
      right
      by_contra hne
      have ha := congrFun h a
      simp only [userMoved, if_neg (Ne.symm hne), if_true] at ha
      exact add_ofInt_neg_one_ne _ ha
  · rintro (rfl | rfl)
    · funext a
      simp [userMoved, ofInt_zero]
    · funext a
      simp only [userMoved, ofInt_zero]
      split <;> simp

theorem userMoved_failed : s.userMoved offIn offOut (-1) (-1) = s.user ↔ offIn = none ∧
    offOut = none := by
  constructor
  · intro h
    have hnone : ∀ a, offOut ≠ some a ∧ offIn ≠ some a := by
      intro a
      have ha := congrFun h a
      unfold userMoved at ha
      split at ha
      · exact absurd ha (add_ofInt_neg_one_ne _)
      · split at ha
        · exact absurd ha (add_ofInt_neg_one_ne _)
        · next h1 h2 => exact ⟨h1, h2⟩
    exact ⟨Option.eq_none_iff_forall_ne_some.mpr fun a => (hnone a).2,
      Option.eq_none_iff_forall_ne_some.mpr fun a => (hnone a).1⟩
  · rintro ⟨rfl, rfl⟩
    rfl

/-- An offset that is moved by -1 is not one that is moved by a number of bytes. -/
theorem add_ofInt_neg_one_ne_natCast (v : UInt64) {n : Nat} (hn : n < 2 ^ 31) :
    v + UInt64.ofInt (-1) ≠ v + UInt64.ofNat n := by
  intro h
  have hlt := v.toNat_lt
  have hnat := congrArg UInt64.toNat h
  rw [UInt64.toNat_add, UInt64.toNat_add, show (UInt64.ofInt (-1)).toNat = 2 ^ 64 - 1 from rfl,
    UInt64.toNat_ofNat'] at hnat
  omega

/-- What is seen after a read. -/
theorem readDone_seen {ui : Bool} {n : Nat} (o : Nat) :
    (s.readDone ui i n).view = ⟨s.view.data, s.user, s.ptrAfter ui false i o n⟩ := by
  ext x : 2
  · simp only [view, readDone_nodes]
  · simp only [view, readDone_user]
  · simp only [view, filePtr, readDone_files, ptrAfter, Bool.false_eq_true, false_and, if_false,
      Nat.add_zero]
    cases s.files x with
    | pipe => rfl
    | regular f =>
      simp only
      split <;> simp

/-- The condition for `copy_file_range`.  The read is defined.  If it fails, no offset is given that
is then moved by -1.  Otherwise a pipe takes all bytes, and they are those that are wanted; or the
output is not written, and there are no bytes, or it is copied onto itself; or it is not the
description that is read with the same position, and its node takes the bytes. -/
def CopyOk (h : Heap) (s : State) (i : Nat) (offIn : Option Nat) (o : Nat) (offOut : Option Nat)
    (len : Int) (vin vout : List (Pipe × Bool)) : Prop :=
  let size := (len % 2 ^ 64).toNat
  let cap := if h.gives size then size else 0
  len ≠ 0 →
    match s.fileRead i cap size (s.offset i offIn) offIn.isNone vin with
    | .error (.undefined _) => False
    | .error _ => True
    | .ok none => True
    | .ok (some (none, _)) =>
      match s.files o with
      | .pipe => vout = [] ∨ offIn = none ∨ offIn = offOut
      | .regular f =>
        if f.canWrite = false then offIn = none ∧ offOut = none
        else match s.nodes f.node with
          | .ramfs _ => False
          | node => if node.counts = true then offIn = none ∧ offOut = none
            else offIn = none ∨ offIn = offOut
    | .ok (some (some bytes, _)) =>
      match s.files o with
      | .pipe => ∀ w pushed, pipeWrite bytes bytes.length 0 vout = some (w, pushed) →
          0 ≤ w ∧ s.wanted i offIn bytes = bytes
      | .regular f =>
        if f.canWrite = false ∨ (s.nodes f.node).counts = false then
          (offOut = none ∨ f.canWrite = true ∧ bytes = []) ∧
            (bytes = [] ∨ i = o ∧ offIn = none ∧
              (s.wanted i offIn bytes).length = bytes.length)
        else (s.wanted i offIn bytes).length = bytes.length ∧
          (s.nodes f.node).Takes (effective f (s.offset o offOut)) (s.place o offOut) bytes
            (s.wanted i offIn bytes) ∧
          (bytes = [] ∨ ¬(i = o ∧ offIn = none ∧ offOut = none)) ∧
          (offOut = none → f.filePtr + bytes.length < 2 ^ 63)

section

variable {h : Heap} {size cap : Nat} {len : Int} {vin vout : List (Pipe × Bool)} {t : State}

/-- `copy_file_range`, after a failed read. -/
theorem copy_unread (hs : s.Fits) (hlen : len ≠ 0) (hr : s.fileRead i
      (if h.gives (len % 2 ^ 64).toNat then (len % 2 ^ 64).toNat else 0) (len % 2 ^ 64).toNat
      (s.offset i offIn) offIn.isNone vin = .ok (some (none, t))) :
    Returned (s.Conserves i o offIn offOut) (s.copyFileRange h i offIn o offOut len vin vout) ↔
      match s.files o with
      | .pipe => vout = [] ∨ offIn = none ∨ offIn = offOut
      | .regular f =>
        if f.canWrite = false then offIn = none ∧ offOut = none
        else match s.nodes f.node with
          | .ramfs _ => False
          | node => if node.counts = true then offIn = none ∧ offOut = none
            else offIn = none ∨ offIn = offOut := by
  have he := fileRead_fails hr
  subst he
  have hempty : t.taken i none = [] := ite_self _
  -- The read has failed: nothing is conserved unless both offsets are as before.
  have hdone : ∀ {u : State} {w : Int}, u.view = t.view → (t.Conserves i o offIn offOut
      ⟨-1, (u.putOffset offIn t.user (-1)).putOffset offOut t.user w, [], []⟩ ↔
        t.userMoved offIn offOut (-1) w = t.user) := by
    intro u w hu
    rw [conserves_neg (show (-1 : Int) < 0 by decide), putOffsets_view (congrArg View.user hu), hu]
    constructor
    · rintro ⟨h, -⟩
      exact congrArg View.user h
    · intro h
      exact ⟨View.ext rfl h rfl, rfl, rfl⟩
  unfold copyFileRange
  simp only [if_neg hlen, hr, ok_bind, readCount, readBytes, intOf_neg_one, hempty]
  cases ho : t.files o with
  | pipe =>
    rw [fileWrite_minus_pipe ho]
    by_cases hv : vout = []
    · rw [if_pos hv]
      exact iff_of_true trivial (.inl hv)
    · rw [if_neg hv]
      simp only [ok_bind, intOf_zero]
      rw [returned_ok, hdone rfl, userMoved_unread]
      exact ⟨.inr, fun h => h.resolve_left hv⟩
  | regular f =>
    simp only
    by_cases hw : f.canWrite = false
    · rw [fileWrite_refused ho hw, if_pos hw]
      simp only [ok_bind, intOf_neg_one]
      rw [returned_ok, hdone rfl, userMoved_failed]
    · rw [if_neg hw, fileWrite_minus ho (by simpa using hw) (hs.ptr ho)]
      have hview := refresh_view ho
      cases hn : t.nodes f.node with
      | ramfs data => exact Iff.rfl
      | fixed g =>
        simp only [ok_bind]
        rw [returned_ok]
        by_cases hc : (FileNode.fixed g).counts = true
        · rw [if_pos hc, if_pos hc, intOf_neg_one, hdone hview, userMoved_failed]
        · rw [if_neg hc, if_neg hc, intOf_zero, hdone hview, userMoved_unread]
      | link target =>
        have hc : ¬(FileNode.link target).counts = true := Bool.false_ne_true
        simp only [ok_bind]
        rw [returned_ok, if_neg hc, if_neg hc, intOf_zero, hdone hview, userMoved_unread]

theorem copy_readDone (hr : s.fileRead i cap size (s.offset i offIn) offIn.isNone vin =
      .ok (some (some bytes, t))) : t = s.readDone offIn.isNone i bytes.length :=
  (fileRead_gets hr).2

/-- The buffer of `copy_file_range` is smaller than the memory. -/
theorem copy_small (hcap : cap = if h.gives size then size else 0) (hlen : bytes.length ≤ cap) :
    bytes.length < 2 ^ 31 := by
  by_cases hg : h.gives size = true
  · rw [if_pos hg] at hcap
    have hsmall := h.small hg
    omega
  · rw [if_neg hg] at hcap
    omega

/-- `copy_file_range` into a pipe, after a read. -/
theorem copy_piped (hlen : len ≠ 0) (hr : s.fileRead i
      (if h.gives (len % 2 ^ 64).toNat then (len % 2 ^ 64).toNat else 0) (len % 2 ^ 64).toNat
      (s.offset i offIn) offIn.isNone vin = .ok (some (some bytes, t))) (ho : s.files o = .pipe) :
    Returned (s.Conserves i o offIn offOut) (s.copyFileRange h i offIn o offOut len vin vout) ↔
      ∀ w pushed, pipeWrite bytes bytes.length 0 vout = some (w, pushed) →
        0 ≤ w ∧ s.wanted i offIn bytes = bytes := by
  obtain ⟨hle, -⟩ := fileRead_gets hr
  have hn := copy_small rfl hle
  have hint : intOf bytes.length = bytes.length := intOf_of_lt (by omega) (by omega)
  have ht := copy_readDone hr
  subst ht
  have ho₁ : (s.readDone offIn.isNone i bytes.length).files o =
    .pipe := by rw [readDone_files, ho]
  unfold copyFileRange
  simp only [if_neg hlen, hr, ok_bind, readCount, readBytes, hint, fileWrite, ho₁]
  cases hw : pipeWrite bytes bytes.length 0 vout with
  | none => exact iff_of_true trivial fun w p h => by cases h
  | some w =>
    obtain ⟨w, pushed⟩ := w
    simp only [ok_bind]
    rw [returned_ok]
    rcases pipeWrite_ends (Nat.zero_le _) hw with ⟨rfl, hp⟩ | ⟨rfl, hp⟩
    · rw [List.drop_zero] at hp
      subst hp
      rw [hint]
      have hui : offIn = none → offIn.isNone = true := fun h => Option.isNone_iff_eq_none.mpr h
      have hview : (((s.readDone offIn.isNone i pushed.length).putOffset offIn s.user
          pushed.length).putOffset offOut s.user pushed.length).view = ⟨s.view.data,
            (s.expected i o offIn offOut pushed).user,
            s.ptrAfter offIn.isNone offOut.isNone i o pushed.length⟩ := by
        rw [putOffsets_view readDone_user, readDone_view ho, userMoved_expected]
      rw [conserves_piped ho hui rfl hview rfl rfl]
      constructor
      · rintro ⟨-, hg⟩ w p h
        cases h
        exact ⟨by omega, hg⟩
      · intro h
        exact ⟨.inr (.inr Option.isNone_iff_eq_none.mp), (h _ _ rfl).2⟩
    · rw [intOf_neg_one]
      refine iff_of_false (fun h => ?_) fun h => absurd (h _ _ rfl).1 (by decide)
      rw [Conserves, if_neg (by simp)] at h
      obtain ⟨bytes', hlen', -, -, hpushed, -⟩ := h
      rw [isPipe_of_pipe ho, if_pos rfl] at hpushed
      have hall : pushed = bytes' := hpushed
      rw [hall] at hp
      simp only at hlen'
      omega

/-- Where nothing is written, only the position of the input has been advanced. -/
theorem ptrAfter_unwritten {f : Regular} (ho : s.files o = .regular f) :
    s.ptrAfter offIn.isNone false i o bytes.length = (s.expected i o offIn none bytes).ptr ↔
      bytes = [] ∨ i = o ∧ offIn = none := by
  constructor
  · intro h
    have hp := congrFun h o
    simp only [ptrAfter, expected, ho, and_self, or_true, if_true, Bool.false_eq_true, false_and,
      if_false, Nat.add_zero, Option.isNone_iff_eq_none] at hp
    by_cases hself : offIn = none ∧ o = i
    · exact .inr ⟨hself.2.symm, hself.1⟩
    · rw [if_neg hself] at hp
      exact .inl (List.length_eq_zero_iff.mp (by omega))
  · rintro (rfl | ⟨rfl, rfl⟩)
    · rw [expected_nil]
      funext x
      simp only [ptrAfter, List.length_nil, ite_self, Nat.add_zero, view, filePtr]
      cases s.files x <;> rfl
    · funext x
      simp only [ptrAfter, expected, Option.isNone_none, true_and, Bool.false_eq_true, false_and,
        if_false, Nat.add_zero, and_true, or_self]
      cases s.files x with
      | pipe => rfl
      | regular g =>
        simp only
        split <;> rfl

/-- `copy_file_range` into a file that is not written: the write has returned -1 or 0. -/
theorem copy_unstored {f : Regular} {u : State} {w : Int} (ho : s.files o = .regular f)
    (hn : bytes.length < 2 ^ 31) (hw : w = -1 ∨ w = 0)
    (hu : u.view = (s.readDone offIn.isNone i bytes.length).view) :
    s.Conserves i o offIn offOut
        ⟨bytes.length, (u.putOffset offIn s.user bytes.length).putOffset offOut
        s.user w, s.taken i (some bytes), []⟩ ↔
      (offOut = none ∨ w = 0 ∧ bytes = []) ∧
        (bytes = [] ∨ i = o ∧ offIn = none ∧
          (s.wanted i offIn bytes).length = bytes.length) := by
  have huser : u.user = s.user := (congrArg View.user hu).trans readDone_user
  rw [conserves_iff rfl (fun hi => by rw [taken_eq, if_pos hi]), putOffsets_view huser, hu,
    readDone_seen o, isPipe_of_regular ho, ← taken_wanted]
  constructor
  · rintro ⟨hlen, hv, -, -⟩
    have hout : offOut = none ∨ w = 0 ∧ bytes = [] := by
      cases offOut with
      | none => exact .inl rfl
      | some a =>
        right
        have ha := congrFun (congrArg View.user hv) a
        simp only [userMoved, expected, or_true, if_true, hlen] at ha
        rcases hw with rfl | rfl
        · exact absurd ha (add_ofInt_neg_one_ne_natCast _ hn)
        · have hnat := congrArg UInt64.toNat ha
          have hlt := (s.user a).toNat_lt
          rw [ofInt_zero, UInt64.add_zero, UInt64.toNat_add, UInt64.toNat_ofNat'] at hnat
          exact ⟨rfl, List.length_eq_zero_iff.mp (by omega)⟩
    refine ⟨hout, ?_⟩
    rcases hout with rfl | ⟨-, hb⟩
    · have hp := congrArg View.ptr hv
      rw [expected_ptr hlen] at hp
      rcases (ptrAfter_unwritten ho).mp hp with hb | ⟨hio, hin⟩
      · exact .inl hb
      · exact .inr ⟨hio, hin, hlen⟩
    · exact .inl hb
  · rintro ⟨hout, hmove⟩
    by_cases hb : bytes = []
    · subst hb
      rw [wanted_nil]
      refine ⟨rfl, View.ext ?_ ?_ ?_, rfl, rfl⟩
      · rw [expected_nil]
      · rw [expected_nil]
        funext a
        rcases hout with rfl | ⟨rfl, -⟩
        · simp only [userMoved, List.length_nil, reduceCtorEq, if_false, view]
          split <;> simp [ofInt_zero]
        · simp only [userMoved, List.length_nil, Nat.cast_zero, ofInt_zero, view]
          split <;> simp
      · rw [expected_nil]
        funext x
        simp only [ptrAfter, List.length_nil, ite_self, Nat.add_zero, view, filePtr]
        cases s.files x <;> rfl
    · obtain ⟨rfl, rfl, hlen⟩ := hmove.resolve_left hb
      obtain rfl := hout.resolve_right fun h => hb h.2
      refine ⟨hlen, View.ext ?_ ?_ ?_, rfl, rfl⟩
      · refine (expected_unchanged ho).mpr ?_
        rw [hlen]
        simp only [wanted, ho]
      · rw [expected_user hlen]
        funext a
        simp only [userMoved, expected, reduceCtorEq, or_self, if_false]
      · rw [expected_ptr hlen]
        exact (ptrAfter_unwritten ho).mpr (.inr ⟨rfl, rfl⟩)

/-- `copy_file_range` into a regular file, after a read. -/
theorem copy_stored {f : Regular} (hs : s.Fits) (hlen : len ≠ 0) (hr : s.fileRead i
      (if h.gives (len % 2 ^ 64).toNat then (len % 2 ^ 64).toNat else 0) (len % 2 ^ 64).toNat
      (s.offset i offIn) offIn.isNone vin = .ok (some (some bytes, t)))
      (ho : s.files o = .regular f) :
    Returned (s.Conserves i o offIn offOut) (s.copyFileRange h i offIn o offOut len vin vout) ↔
      if f.canWrite = false ∨ (s.nodes f.node).counts = false then
        (offOut = none ∨ f.canWrite = true ∧ bytes = []) ∧
          (bytes = [] ∨ i = o ∧ offIn = none ∧ (s.wanted i offIn bytes).length = bytes.length)
      else (s.wanted i offIn bytes).length = bytes.length ∧
        (s.nodes f.node).Takes (effective f (s.offset o offOut)) (s.place o offOut) bytes
          (s.wanted i offIn bytes) ∧
        (bytes = [] ∨ ¬(i = o ∧ offIn = none ∧ offOut = none)) ∧
        (offOut = none → f.filePtr + bytes.length < 2 ^ 63) := by
  obtain ⟨hle, -⟩ := fileRead_gets hr
  have hn := copy_small rfl hle
  have hint : intOf bytes.length = bytes.length := intOf_of_lt (by omega) (by omega)
  have ht := copy_readDone hr
  subst ht
  obtain ⟨f₁, hf₁, hu₁, hn₁, hp₁, hview⟩ :=
    @readDone_stored s i o bytes offIn.isNone offOut.isNone f ho
  have hnode₁ : (s.readDone offIn.isNone i bytes.length).nodes f₁.node = s.nodes f.node := by
    rw [readDone_nodes, hn₁]
  have hb := hs.ptr ho
  have hlong : f₁.filePtr < 2 ^ 63 := by
    rw [hp₁]
    split
    · next hi =>
      obtain ⟨hin, rfl⟩ := hi
      rw [hin] at hr
      exact fileRead_fits hr ho
    · simpa using hb
  unfold copyFileRange
  simp only [if_neg hlen, hr, ok_bind, readCount, readBytes, hint]
  by_cases hw : f.canWrite = false
  · rw [if_pos (.inl hw), fileWrite_refused hf₁ (hu₁.trans hw)]
    simp only [ok_bind, intOf_neg_one]
    rw [returned_ok, copy_unstored ho hn (.inl rfl) rfl, hw]
    simp only [show ¬(-1 : Int) = 0 by decide, false_and, Bool.false_eq_true]
  have hw₁ : f₁.canWrite = true := by
    rw [hu₁]
    simpa using hw
  by_cases hc : (s.nodes f.node).counts = false
  · rw [if_pos (.inr hc), fileWrite_idle hf₁ hw₁ hlong (by rw [hnode₁]; exact hc)]
    simp only [ok_bind, intOf_zero]
    rw [returned_ok, copy_unstored ho hn (.inr rfl) (refresh_view hf₁), ← hu₁, hw₁]
    simp only [true_and]
  rw [if_neg (not_or.mpr ⟨hw, hc⟩)]
  have hc' : (s.nodes f.node).counts = true := by simpa using hc
  have hself : s.isPipe o = false := isPipe_of_regular ho
  -- The position that is used is that of the call, unless the file that is read is written
  -- at its own.
  have heff : bytes = [] ∨ 0 ≤ s.offset o offOut →
      effective f₁ (s.offset o offOut) = effective f (s.offset o offOut) := by
    rintro (rfl | hpos)
    · simp [effective, hp₁]
    · unfold effective
      rw [if_neg (by omega), if_neg (by omega)]
  have hplace : s.place o offOut < 2 ^ 63 → 0 ≤ s.offset o offOut := by
    cases offOut with
    | none => exact fun _ => Int.natCast_nonneg _
    | some a =>
      intro hlt
      have hlong : longOfUlong (s.user a).toNat = (s.user a).toNat := longOfUlong_of_lt hlt
      simp only [offset]
      omega
  have hlow : effective f₁ (s.offset o offOut) < 2 ^ 63 := by
    have hlt := offset_lt hs o offOut
    unfold effective
    split <;> omega
  have hdes : effective f₁ (s.offset o offOut) = s.place o offOut ∨
      effective f₁ (s.offset o offOut) + bytes.length ≤ s.place o offOut ∨
        effective f₁ (s.offset o offOut) < 2 ^ 63 ∧ 2 ^ 63 ≤ s.place o offOut := by
    by_cases hlt : s.place o offOut < 2 ^ 63
    · refine .inl (effective_place f₁ fun a ha => ?_)
      subst ha
      exact hlt
    · exact .inr (.inr ⟨hlow, by omega⟩)
  have hstores : (s.wanted i offIn bytes).length = bytes.length →
      ((s.nodes f.node).Stores (effective f₁ (s.offset o offOut)) (s.place o offOut) bytes
        (s.wanted i offIn bytes) ↔
      (s.nodes f.node).Takes (effective f (s.offset o offOut)) (s.place o offOut) bytes
        (s.wanted i offIn bytes)) := by
    intro hwant
    refine (FileNode.stores_iff hwant (by omega) (hs.size f.node) hdes).trans ?_
    by_cases hc : bytes = [] ∨ 0 ≤ s.offset o offOut
    · rw [heff hc]
    · push Not at hc
      have hfar : 2 ^ 63 ≤ s.place o offOut := by
        by_contra hlt
        have := hplace (by omega)
        omega
      have hbelow : effective f (s.offset o offOut) < 2 ^ 63 := by
        simp only [effective, if_pos hc.2]
        omega
      exact FileNode.takes_far hc.1 (hs.size f.node) hwant hlow hbelow hfar
  have hwrite := @fileWrite_regular (s.readDone offIn.isNone i bytes.length) o f₁ bytes
    (s.offset o offOut) offOut.isNone vout hf₁ hw₁ (by rw [hnode₁]; exact hc')
  rw [hwrite]
  by_cases hfit : offOut.isNone = false ∨ f₁.filePtr + bytes.length < 2 ^ 63
  · rw [if_pos hfit]
    simp only [ok_bind, hint]
    rw [returned_ok]
    have hui : offIn = none → offIn.isNone = true := fun h => Option.isNone_iff_eq_none.mpr h
    have hus : ((s.readDone offIn.isNone i bytes.length).stored o f₁
        (effective f₁ (s.offset o offOut)) offOut.isNone bytes).user = s.user := readDone_user
    have hv : ((((s.readDone offIn.isNone i bytes.length).stored o f₁
        (effective f₁ (s.offset o offOut)) offOut.isNone bytes).putOffset offIn s.user
          bytes.length).putOffset offOut s.user bytes.length).view =
        ⟨fun x => if x = f.node then
            ofList ((s.nodes f.node).put (effective f₁ (s.offset o offOut)) bytes).data
          else s.view.data x, (s.expected i o offIn offOut bytes).user,
          s.ptrAfter offIn.isNone offOut.isNone i o bytes.length⟩ := by
      rw [putOffsets_view hus, hview, userMoved_expected]
    rw [conserves_stored ho hc' hui rfl hv rfl rfl]
    have hpipe : s.isPipe i = true → i ≠ o := by
      rintro hi rfl
      rw [hself] at hi
      cases hi
    simp only [Option.isNone_iff_eq_none, imp_self, true_and]
    constructor
    · rintro ⟨hwant, ht, hc⟩
      refine ⟨hwant, (hstores hwant).mp ht, ?_, fun hout => ?_⟩
      · exact hc.imp_right fun h => h.elim (fun hi h => hpipe hi h.1) id
      · have hlt := hfit.resolve_left (by simp [hout])
        omega
    · rintro ⟨hwant, ht, hc, -⟩
      exact ⟨hwant, (hstores hwant).mpr ht, hc.imp_right .inr⟩
  · rw [if_neg hfit]
    simp only [error_bind, Returned, false_iff]
    rintro ⟨-, -, hc, hlt⟩
    push Not at hfit
    have hout : offOut = none := by simpa using hfit.1
    have hsame : f₁.filePtr + bytes.length = f.filePtr + bytes.length := by
      rw [hp₁]
      rcases hc with rfl | hne
      · simp
      · rw [if_neg]
        · rfl
        · rintro ⟨hin, rfl⟩
          exact hne ⟨rfl, by simpa using hin, hout⟩
    have := hlt hout
    omega

theorem copyFileRange_iff (hs : s.Fits) :
    Returned (s.Conserves i o offIn offOut) (s.copyFileRange h i offIn o offOut len vin vout) ↔
      s.CopyOk h i offIn o offOut len vin vout := by
  unfold CopyOk
  by_cases hlen : len = 0
  · unfold copyFileRange
    rw [if_pos hlen]
    exact iff_of_true (conserves_still (Int.le_refl 0) rfl rfl rfl) fun h => absurd hlen h
  simp only [ne_eq, hlen, not_false_eq_true, forall_const]
  cases hr : s.fileRead i (if h.gives (len % 2 ^ 64).toNat then (len % 2 ^ 64).toNat else 0)
      (len % 2 ^ 64).toNat (s.offset i offIn) offIn.isNone vin with
  | error e =>
    unfold copyFileRange
    simp only [if_neg hlen, hr, error_bind]
    cases e <;> exact Iff.rfl
  | ok r =>
    cases r with
    | none =>
      unfold copyFileRange
      simp only [if_neg hlen, hr, ok_bind]
      exact Iff.rfl
    | some r =>
      obtain ⟨r, t⟩ := r
      cases r with
      | none => exact copy_unread hs hlen hr
      | some bytes =>
        simp only
        cases ho : s.files o with
        | pipe => exact copy_piped hlen hr ho
        | regular f => exact copy_stored hs hlen hr ho

end

end State

end OsKernel.Syscall

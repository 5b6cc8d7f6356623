import OsKernel.Syscall.TransferCalls

/-! When `splice` conserves bytes and positions. -/

namespace OsKernel.Syscall

open Fs Hsai Pm.Ipc

namespace State

variable {s : State} {i o : Nat} {bytes : List UInt8}

/-- A read is defined, and what it gives meets a condition. -/
def ReadMeets (P : List UInt8 → Prop) : Except Fault (Option (Option (List UInt8) × State)) →
    Prop
  | .error (.undefined _) => False
  | .error _ => True
  | .ok none => True
  | .ok (some (none, _)) => True
  | .ok (some (some bytes, _)) => P bytes

/-- The condition for `splice`.  If it moves anything, the read is defined; a pipe refuses all
bytes, or takes them and they are those at the offset, of which only the low half is used; or
the output can be written, the offset stays an `int`, and the node takes the bytes and returns
their number. -/
def SpliceOk (h : Heap) (s : State) (i : Nat) (offIn : Option Nat) (o : Nat) (offOut : Option Nat)
    (len : Int) (vin vout : List (Pipe × Bool)) : Prop :=
  match s.files i, s.files o with
  | .regular f, .pipe =>
    match offIn, offOut with
    | some a, none =>
      let off := intOf (s.user a).toNat
      let rest := intOf f.statSize - off
      let n := if rest < len then rest else len
      0 ≤ off → 0 < n → h.gives n.toNat = true →
        ReadMeets (fun bytes => ∀ w pushed, pipeWrite bytes bytes.length 0 vout =
          some (w, pushed) →
          if w < 0 then pushed = [] else s.wanted i (some a) bytes = bytes)
          (s.fileRead i n.toNat n.toNat off false vin)
    | _, _ => True
  | .pipe, .regular f =>
    match offIn, offOut with
    | none, some a =>
      let off := intOf (s.user a).toNat
      0 ≤ off → 0 < len → h.gives len.toNat = true →
        ReadMeets (fun bytes => bytes = [] ∨ f.canWrite = true ∧
          (s.nodes f.node).counts = true ∧ off + bytes.length < 2 ^ 31 ∧
          (s.nodes f.node).Takes off.toNat (s.user a).toNat bytes bytes)
          (s.fileRead i len.toNat len.toNat 0 true vin)
    | _, _ => True
  | _, _ => True

/-- The low half of a number, as an `int` that is not negative. -/
theorem intOf_natCast {n : Nat} (h : 0 ≤ intOf n) : ∃ low : Nat, intOf n = low ∧
    low = n % 2 ^ 32 ∧ low < 2 ^ 31 := by
  have hlow : ∀ x : Int, 0 ≤ x → x = (n + 2 ^ 31) % 2 ^ 32 - 2 ^ 31 →
      ∃ low : Nat, x = low ∧ low = n % 2 ^ 32 ∧ low < 2 ^ 31 := by
    intro x hx hdef
    obtain ⟨low, hl⟩ := Int.eq_ofNat_of_zero_le hx
    exact ⟨low, hl, by omega, by omega⟩
  exact hlow _ h (by rw [intOf])

/-- The offset that is stored is the one that is given, moved by the bytes. -/
theorem storeInt_user {t : State} {a n : Nat} (hu : t.user = s.user)
    (h0 : 0 ≤ intOf (s.user a).toNat) : (t.storeInt a (intOf (s.user a).toNat + n)).user =
      Function.update s.user a (s.user a + UInt64.ofNat n) := by
  obtain ⟨low, hoff, hmod, hlow⟩ := intOf_natCast h0
  rw [hoff]
  have hlt := (s.user a).toNat_lt
  simp only [storeInt, setUser, hu]
  refine congrArg (Function.update s.user a) (UInt64.toNat_inj.mp ?_)
  rw [UInt64.toNat_add, UInt64.toNat_ofNat', UInt64.toNat_ofNat']
  omega

/-- `splice` does not move anything. -/
theorem splice_still {r : Int} {offIn offOut : Option Nat} (hr : r ≤ 0) :
    Returned (s.Conserves i o offIn offOut) (.ok (some (s.stay r))) :=
  conserves_still hr rfl rfl rfl

section

variable {h : Heap} {len : Int} {a : Nat} {vin vout : List (Pipe × Bool)} {f : Regular}

/-- The end of `splice`, after a read and a write. -/
theorem spliceMove_done {t u : State} {n offI offO off w : Int} {pushed : List UInt8} (hn : 0 < n)
    (hgive : h.gives n.toNat = true) (hint : intOf bytes.length = bytes.length) (hb : bytes ≠ [])
    (hr : s.fileRead i n.toNat n.toNat offI (s.isPipe i) vin = .ok (some (some bytes, t)))
    (hw : t.fileWrite o bytes bytes.length offO (s.isPipe o) vout = .ok (some (w, pushed, u))) :
    s.spliceMove h i o n offI offO a off vin vout =
      if 0 < intOf w then
        if off + intOf w < 2 ^ 31 then
          .ok (some ⟨intOf w, u.storeInt a (off + intOf w), s.taken i (some bytes), pushed⟩)
        else .error (.undefined "signed overflow")
      else .ok (some ⟨intOf w, u, s.taken i (some bytes), pushed⟩) := by
  have hpos := List.length_pos_iff.mpr hb
  have hsome : ¬(bytes.length : Int) ≤ 0 := by omega
  unfold spliceMove
  rw [if_neg (show ¬n ≤ 0 by omega), hgive, if_neg (show ¬true = false by decide), hr, ok_bind]
  simp only [readCount, readBytes, hint, hw]
  rw [if_neg hsome, ok_bind]

/-- `splice` moves the bytes that it reads, if there are any. -/
theorem spliceMove_iff {n offI offO off : Int} {offIn offOut : Option Nat} {P : List UInt8 → Prop}
    {upgrade : Bool} (hup : s.isPipe i = upgrade) (hnil : P [])
    (hdone : ∀ bytes t, 0 < n → h.gives n.toNat = true → bytes ≠ [] →
      intOf bytes.length = bytes.length →
      s.fileRead i n.toNat n.toNat offI (s.isPipe i) vin = .ok (some (some bytes, t)) →
      (Returned (s.Conserves i o offIn offOut) (s.spliceMove h i o n offI offO a off vin vout) ↔
        P bytes)) :
    Returned (s.Conserves i o offIn offOut) (s.spliceMove h i o n offI offO a off vin vout) ↔
      (0 < n → h.gives n.toNat = true →
        ReadMeets P (s.fileRead i n.toNat n.toNat offI upgrade vin)) := by
  subst hup
  by_cases hpos : n ≤ 0
  · unfold spliceMove
    rw [if_pos hpos]
    exact iff_of_true (splice_still (by decide)) fun h => absurd h (by omega)
  by_cases hgive : h.gives n.toNat = false
  · unfold spliceMove
    rw [if_neg hpos, if_pos hgive]
    exact iff_of_true (splice_still (by decide)) fun _ h => by rw [hgive] at h; cases h
  have hgives : h.gives n.toNat = true := by simpa using hgive
  have hsmall := h.small hgives
  simp only [show 0 < n by omega, hgives, forall_const]
  cases hr : s.fileRead i n.toNat n.toNat offI (s.isPipe i) vin with
  | error e =>
    unfold spliceMove
    rw [if_neg hpos, if_neg hgive, hr]
    cases e <;> exact Iff.rfl
  | ok r =>
    cases r with
    | none =>
      unfold spliceMove
      rw [if_neg hpos, if_neg hgive, hr]
      exact Iff.rfl
    | some r =>
      obtain ⟨r, t⟩ := r
      cases r with
      | none =>
        have he := fileRead_fails hr
        subst he
        unfold spliceMove
        rw [if_neg hpos, if_neg hgive, hr, ok_bind]
        simp only [readCount, intOf_neg_one]
        rw [if_pos (show (-1 : Int) ≤ 0 by decide)]
        exact iff_of_true (conserves_still (show (-1 : Int) ≤ 0 by decide) rfl (ite_self _) rfl)
          trivial
      | some bytes =>
        obtain ⟨hle, ht⟩ := fileRead_gets hr
        have hint : intOf bytes.length = bytes.length := intOf_of_lt (by omega) (by omega)
        by_cases hb : bytes = []
        · subst hb
          have hview : t.view = s.view := by
            rw [ht]
            split
            · rw [bump_view]
              refine View.ext rfl rfl (funext fun x => ?_)
              simp only [view, filePtr, List.length_nil, Nat.add_zero, ite_self]
              cases s.files x <;> rfl
            · rfl
          unfold spliceMove
          rw [if_neg hpos, if_neg hgive, hr, ok_bind]
          simp only [readCount, hint]
          rw [if_pos (show ((([] : List UInt8).length : Nat) : Int) ≤ 0 from Int.le_refl 0)]
          exact iff_of_true (conserves_still (Int.le_refl 0) hview (ite_self _) rfl) hnil
        · exact hdone bytes t (by omega) hgives hb hint hr

/-- What is seen after bytes are pushed into a pipe. -/
theorem splice_expected_piped (ho : s.files o = .pipe)
    (h0 : 0 ≤ intOf (s.user a).toNat) :
    (s.storeInt a (intOf (s.user a).toNat + bytes.length)).view =
      s.expected i o (some a) none bytes := by
  ext x : 2
  · simp only [expected_pipe ho]
    rfl
  · simp only [view, storeInt_user rfl h0, expected, Function.update_apply, Option.some.injEq,
      reduceCtorEq, or_false]
    grind
  · simp only [view, storeInt, setUser, filePtr, expected, reduceCtorEq, and_false, false_or,
      and_true]
    cases hx : s.files x with
    | pipe => rfl
    | regular g =>
      have hne : x ≠ o := by
        rintro rfl
        rw [ho] at hx
        cases hx
      simp only [if_neg hne]

/-- `splice` of a regular file into a pipe. -/
theorem spliceMove_piped {n : Int} (hi : s.files i = .regular f) (ho : s.files o = .pipe)
    (h0 : 0 ≤ intOf (s.user a).toNat) (hn : intOf (s.user a).toNat + n < 2 ^ 31) :
    Returned (s.Conserves i o (some a) none)
        (s.spliceMove h i o n (intOf (s.user a).toNat) 0 a (intOf (s.user a).toNat) vin vout) ↔
      (0 < n → h.gives n.toNat = true →
        ReadMeets (fun bytes => ∀ w pushed, pipeWrite bytes bytes.length 0 vout =
          some (w, pushed) →
          if w < 0 then pushed = [] else s.wanted i (some a) bytes = bytes)
          (s.fileRead i n.toNat n.toNat (intOf (s.user a).toNat) false vin)) := by
  have hreg := isPipe_of_regular hi
  have hpipe := isPipe_of_pipe ho
  refine spliceMove_iff hreg ?_ fun bytes t hpos hgive hb hint hr => ?_
  · intro w pushed hw
    rw [pipeWrite_none (show (([] : List UInt8).length : Int) ≤ 0 from Int.le_refl 0)] at hw
    split at hw
    · cases hw
    · cases hw
      exact wanted_nil
  obtain ⟨hle, ht⟩ := fileRead_gets hr
  rw [hreg] at ht
  have ht' : t = s := ht
  subst ht'
  have hlen := List.length_pos_iff.mpr hb
  cases hw : pipeWrite bytes bytes.length 0 vout with
  | none =>
    have hwrite : t.fileWrite o bytes bytes.length 0 (t.isPipe o) vout = .ok none := by
      unfold fileWrite
      simp only [ho, hint, hw]
    unfold spliceMove
    have hsome : ¬(bytes.length : Int) ≤ 0 := by omega
    rw [if_neg (show ¬n ≤ 0 by omega), hgive, if_neg (show ¬true = false by decide), hr,
      ok_bind]
    simp only [readCount, readBytes, hint, hwrite]
    rw [if_neg hsome, ok_bind]
    exact iff_of_true trivial fun w p h => by cases h
  | some w =>
    obtain ⟨w, pushed⟩ := w
    have hwrite : t.fileWrite o bytes bytes.length 0 (t.isPipe o) vout =
        .ok (some (w, pushed, t)) := by
      unfold fileWrite
      simp only [ho, hint, hw]
    rw [spliceMove_done hpos hgive hint hb hr hwrite]
    rcases pipeWrite_ends (Nat.zero_le _) hw with ⟨rfl, hp⟩ | ⟨rfl, hp⟩
    · rw [List.drop_zero] at hp
      subst hp
      rw [hint, if_pos (by omega), if_pos (by omega), returned_ok]
      have hin : t.isPipe i = true → t.taken i (some pushed) = pushed := by
        intro hp
        rw [hreg] at hp
        cases hp
      rw [conserves_iff rfl hin, splice_expected_piped ho h0, ← taken_wanted, hpipe, if_pos rfl]
      constructor
      · rintro ⟨-, -, -, hg⟩ w p h
        cases h
        rw [if_neg (by omega)]
        exact hg.symm
      · intro h
        have hg := h _ _ rfl
        rw [if_neg (by omega)] at hg
        rw [hg]
        exact ⟨rfl, rfl, rfl, rfl⟩
    · rw [intOf_neg_one, if_neg (by decide), returned_ok,
        conserves_neg (show (-1 : Int) < 0 by decide)]
      constructor
      · rintro ⟨-, -, hp'⟩ w p h
        cases h
        exact hp'
      · intro h
        have ht : t.taken i (some bytes) = [] := by rw [taken_eq, hreg]; rfl
        exact ⟨rfl, ht, h _ _ rfl⟩

/-- What is seen after bytes of a pipe are stored. -/
theorem splice_expected_stored {eff : Nat} (ho : s.files o = .regular f)
    (hc : (s.nodes f.node).counts = true) (h0 : 0 ≤ intOf (s.user a).toNat)
    (hi : s.isPipe i = true) :
    ((s.stored o f eff false bytes).storeInt a (intOf (s.user a).toNat + bytes.length)).view =
        s.expected i o none (some a) bytes ↔
      (s.nodes f.node).Stores eff (s.user a).toNat bytes bytes := by
  have hdata := @expected_regular s i o none (some a) bytes bytes f eff ho hc
  have hview := @stored_view s o f eff false bytes
  have huser : ((s.stored o f eff false bytes).storeInt a
      (intOf (s.user a).toNat + bytes.length)).user =
      (s.expected i o none (some a) bytes).user := by
    have hus : (s.stored o f eff false bytes).user = s.user := rfl
    rw [storeInt_user hus h0]
    funext x
    simp only [expected, Function.update_apply, Option.some.injEq, reduceCtorEq, false_or]
    grind
  have hptr : (s.stored o f eff false bytes).view.ptr =
      (s.expected i o none (some a) bytes).ptr := by
    rw [hview]
    funext x
    simp only [expected, filePtr, Bool.false_eq_true, if_false, reduceCtorEq, and_false, or_false,
      and_true]
    by_cases hx : x = o
    · subst hx
      have hne : x ≠ i := by
        rintro rfl
        rw [isPipe_of_regular ho] at hi
        cases hi
      simp only [ho, if_true, if_neg hne]
    · rw [if_neg hx]
      cases hf : s.files x with
      | pipe => rfl
      | regular g =>
        have hne : x ≠ i := by
          rintro rfl
          rw [isPipe_of_regular hf] at hi
          cases hi
        simp only [if_neg hne]
  rw [show s.place o (some a) = (s.user a).toNat from rfl] at hdata
  rw [← hdata]
  constructor
  · intro hv
    rw [← hv]
    exact (congrArg View.data hview).symm
  · intro hd
    exact View.ext ((congrArg View.data hview).trans hd) huser hptr

/-- `splice` of a pipe into a regular file. -/
theorem spliceMove_stored (hs : s.Fits) (hi : s.files i = .pipe) (ho : s.files o = .regular f)
    (h0 : 0 ≤ intOf (s.user a).toNat) :
    Returned (s.Conserves i o none (some a))
        (s.spliceMove h i o len 0 (intOf (s.user a).toNat) a (intOf (s.user a).toNat) vin vout) ↔
      (0 < len → h.gives len.toNat = true →
        ReadMeets (fun bytes => bytes = [] ∨ f.canWrite = true ∧
          (s.nodes f.node).counts = true ∧ intOf (s.user a).toNat + bytes.length < 2 ^ 31 ∧
            (s.nodes f.node).Takes (intOf (s.user a).toNat).toNat (s.user a).toNat bytes bytes)
          (s.fileRead i len.toNat len.toNat 0 true vin)) := by
  have hpipe := isPipe_of_pipe hi
  have hreg := isPipe_of_regular ho
  refine spliceMove_iff hpipe ?_ fun bytes t hpos hgive hb hint hr => ?_
  · exact .inl rfl
  obtain ⟨hle, ht⟩ := fileRead_gets hr
  have ht' : t = s := by
    rw [ht, hpipe, bump, hi]
    rfl
  subst ht'
  have hsmall := h.small hgive
  have hlen := List.length_pos_iff.mpr hb
  have htaken : t.taken i (some bytes) = bytes := by rw [taken_eq, if_pos hpipe]
  simp only [hb, false_or]
  -- Bytes of the pipe are lost unless they are written.
  have hlost : ∀ {r : Int} {u : State}, r ≤ 0 →
      ¬t.Conserves i o none (some a) ⟨r, u, bytes, []⟩ := by
    intro r u hr hcons
    unfold Conserves at hcons
    split at hcons
    · exact hb hcons.2.1
    · obtain ⟨bytes', hlen', -, htaken', -⟩ := hcons
      have hnil : bytes' = [] := List.length_eq_zero_iff.mp (by simp only at hlen'; omega)
      have hall : bytes = bytes' := htaken'
      exact hb (hall.trans hnil)
  by_cases hw : f.canWrite = false
  · rw [spliceMove_done hpos hgive hint hb hr (fileWrite_refused ho hw), intOf_neg_one,
      if_neg (by decide), returned_ok, htaken]
    exact iff_of_false (hlost (by decide)) fun h => by rw [hw] at h; cases h.1
  have hw' : f.canWrite = true := by simpa using hw
  by_cases hc : (t.nodes f.node).counts = false
  · rw [spliceMove_done hpos hgive hint hb hr (fileWrite_idle ho hw' (hs.ptr ho) hc), intOf_zero,
      if_neg (by decide), returned_ok, htaken]
    exact iff_of_false (hlost (by decide)) fun h => by rw [hc] at h; cases h.2.1
  have hc' : (t.nodes f.node).counts = true := by simpa using hc
  have hwrite := @fileWrite_regular t o f bytes (intOf (t.user a).toNat) false vout ho hw' hc'
  rw [if_pos (.inl rfl), ← hreg] at hwrite
  rw [spliceMove_done hpos hgive hint hb hr hwrite, hint, if_pos (by omega), hreg]
  by_cases hfit : intOf (t.user a).toNat + bytes.length < 2 ^ 31
  · rw [if_pos hfit, returned_ok]
    obtain ⟨low, hoff, hmod, hlow⟩ := intOf_natCast h0
    have hlong := (t.user a).toNat_lt
    have heff : effective f (intOf (t.user a).toNat) = low := by rw [hoff, effective_natCast]
    have hstores : (t.nodes f.node).Stores low (t.user a).toNat bytes bytes ↔
        (t.nodes f.node).Takes low (t.user a).toNat bytes bytes :=
      FileNode.stores_iff rfl (by omega) (hs.size f.node) (by omega)
    rw [heff, conserves_iff rfl (fun _ => htaken), wanted_pipe hpipe,
      splice_expected_stored ho hc' h0 hpipe, hstores, htaken, hpipe, hreg, hoff, Int.toNat_natCast]
    rw [hoff] at hfit
    constructor
    · rintro ⟨-, ht, -⟩
      exact ⟨hw', hc', hfit, ht⟩
    · rintro ⟨-, -, -, ht⟩
      exact ⟨rfl, ht, rfl, rfl⟩
  · rw [if_neg hfit]
    exact iff_of_false (fun h => h) fun h => hfit h.2.2.1

end

theorem splice_iff {h : Heap} {offIn offOut : Option Nat} {len : Int}
    {vin vout : List (Pipe × Bool)} (hs : s.Fits) :
      Returned (s.Conserves i o offIn offOut) (s.splice h i offIn o offOut len vin vout) ↔
      s.SpliceOk h i offIn o offOut len vin vout := by
  have hfail : Returned (s.Conserves i o offIn offOut) (.ok (some (s.stay (-1)))) :=
    splice_still (by decide)
  unfold splice SpliceOk
  cases hi : s.files i with
  | pipe =>
    cases ho : s.files o with
    | pipe => exact iff_of_true hfail trivial
    | regular f =>
      rcases offIn with _ | _ <;> rcases offOut with _ | a
      · exact iff_of_true hfail trivial
      · simp only
        by_cases h0 : intOf (s.user a).toNat < 0
        · rw [if_pos h0]
          exact iff_of_true hfail fun h => absurd h (by omega)
        · rw [if_neg h0, spliceMove_stored hs hi ho (by omega)]
          exact ⟨fun h _ => h, fun h => h (by omega)⟩
      · exact iff_of_true hfail trivial
      · exact iff_of_true hfail trivial
  | regular f =>
    cases ho : s.files o with
    | regular g => exact iff_of_true hfail trivial
    | pipe =>
      rcases offIn with _ | a <;> rcases offOut with _ | _
      · exact iff_of_true hfail trivial
      · exact iff_of_true hfail trivial
      · simp only
        by_cases h0 : intOf (s.user a).toNat < 0
        · rw [if_pos h0]
          exact iff_of_true hfail fun h => absurd h (by omega)
        rw [if_neg h0]
        by_cases hend : intOf f.statSize ≤ intOf (s.user a).toNat
        · rw [if_pos hend]
          refine iff_of_true (splice_still (Int.le_refl 0)) fun _ hn => ?_
          split at hn <;> omega
        · rw [if_neg hend, spliceMove_piped hi ho (by omega)]
          · exact ⟨fun h _ => h, fun h => h (by omega)⟩
          · have hlt : intOf f.statSize < 2 ^ 31 := intOf_lt _
            split <;> omega
      · exact iff_of_true hfail trivial

end State

end OsKernel.Syscall

import OsKernel.Syscall.TransferCalls

/-! When `sendfile` conserves bytes and positions. -/

namespace OsKernel.Syscall

open Fs Hsai Pm.Ipc

namespace State

variable {s : State} {i o : Nat} {offIn offOut : Option Nat} {bytes : List UInt8}

/-- The condition for `sendfile`.  The read is defined.  If it fails, the output is a pipe, or no
offset is given and the write fails, or the write returns 0.  Otherwise a pipe takes all bytes, and
they are those that are wanted; or the output cannot be written, and there are no bytes and no
offset; or its inode returns 0, and there are no bytes; or it is not the description that is read,
and its node takes the bytes. -/
def SendfileOk (h : Heap) (s : State) (o i : Nat) (off : Option Nat) (size : UInt64)
    (vin vout : List (Pipe × Bool)) : Prop :=
  h.gives ((size.toNat + 1) % 2 ^ 64) = true →
    match s.fileRead i (size.toNat + 1) size.toNat (s.offset i off) true vin with
    | .error (.undefined _) => False
    | .error _ => True
    | .ok none => True
    | .ok (some (none, _)) =>
      match s.files o with
      | .pipe => True
      | .regular f =>
        if f.canWrite = false then off = none
        else match s.nodes f.node with
          | .ramfs _ => False
          | node => node.counts = true → off = none
    | .ok (some (some bytes, _)) =>
      match s.files o with
      | .pipe => ∀ w pushed, pipeWrite bytes bytes.length 0 vout = some (w, pushed) →
          0 ≤ w ∧ (bytes = [] ∨ s.isPipe i = true ∨ off = none) ∧
          s.wanted i off bytes = bytes
      | .regular f =>
        if f.canWrite = false then bytes = [] ∧ off = none
        else if (s.nodes f.node).counts = false then bytes = []
        else (s.wanted i off bytes).length = bytes.length ∧
          (s.nodes f.node).Takes f.filePtr f.filePtr bytes (s.wanted i off bytes) ∧
          (bytes = [] ∨ (s.isPipe i = true ∨ off = none) ∧ i ≠ o) ∧
          f.filePtr + bytes.length < 2 ^ 63

theorem putOffset_view {t : State} {off : Option Nat} {n : Int} (hu : t.user = s.user) :
    (t.putOffset off t.user n).view = { t.view with user := s.userAfter off n } := by
  rw [hu]
  cases off with
  | none => simp only [userAfter, ← hu]; rfl
  | some a => simp only [userAfter, ← hu]; rfl

theorem userAfter_expected {off : Option Nat} :
    s.userAfter off bytes.length = (s.expected i o off none bytes).user := by
  funext a
  cases off with
  | none => simp [userAfter, expected]
  | some b =>
    simp only [userAfter, expected, Function.update_apply, ofInt_natCast]
    by_cases h : a = b
    · simp [h]
    · simp [h, Ne.symm h]

/-- `sendfile` has read the bytes, and the write has failed. -/
theorem sendfile_refused {off : Option Nat} {pushed : List UInt8} :
    s.Conserves i o off none ⟨-1, (s.readDone true i bytes.length).putOffset off
        (s.readDone true i bytes.length).user (-1), s.taken i (some bytes), pushed⟩ ↔
      bytes = [] ∧ off = none ∧ pushed = [] := by
  rw [conserves_neg (show (-1 : Int) < 0 by decide), putOffset_view readDone_user]
  have hread := @readDone_unchanged s i bytes true
  constructor
  · rintro ⟨hv, ht, hp⟩
    have hb := (hread.mp ⟨congrArg View.ptr hv, ht⟩).resolve_right fun h =>
      absurd h.1 (by decide)
    exact ⟨hb, userAfter_neg_one.mp (congrArg View.user hv), hp⟩
  · rintro ⟨rfl, rfl, rfl⟩
    obtain ⟨hptr, ht⟩ := hread.mpr (.inl rfl)
    refine ⟨View.ext ?_ rfl hptr, ht, rfl⟩
    simp only [view, readDone_nodes]

/-- `sendfile` has read the bytes, and the write has returned 0. -/
theorem sendfile_idle {off : Option Nat} {f : Regular}
    (ho : (s.readDone true i bytes.length).files o = .regular f) :
    s.Conserves i o off none ⟨0, ((s.readDone true i bytes.length).refresh o f).putOffset off
        ((s.readDone true i bytes.length).refresh o f).user 0, s.taken i (some bytes), []⟩ ↔
      bytes = [] := by
  have hview : (((s.readDone true i bytes.length).refresh o f).putOffset off
      ((s.readDone true i bytes.length).refresh o f).user 0).view =
      ⟨s.view.data, s.user, (s.readDone true i bytes.length).filePtr⟩ := by
    have hu : ((s.readDone true i bytes.length).refresh o f).user = s.user := readDone_user
    rw [putOffset_view hu, refresh_view ho]
    ext x : 2
    · simp only [view, readDone_nodes]
    · cases off with
      | none => rfl
      | some a => simp [userAfter, ofInt_zero]
    · rfl
  have hread := @readDone_unchanged s i bytes true
  constructor
  · intro hc
    rw [Conserves, if_neg (show ¬(0 : Int) < 0 by decide), hview] at hc
    obtain ⟨bytes', hlen, hv, ht, -⟩ := hc
    have hnil : bytes' = [] := List.length_eq_zero_iff.mp (by simp only at hlen; omega)
    rw [hnil, expected_nil] at hv
    rw [hnil, ite_self] at ht
    exact (hread.mp ⟨congrArg View.ptr hv, ht⟩).resolve_right fun h => absurd h.1 (by decide)
  · rintro rfl
    obtain ⟨hptr, ht⟩ := hread.mpr (.inl rfl)
    refine conserves_still (Int.le_refl 0) ?_ ht rfl
    rw [hview, hptr]
    rfl

section

variable {h : Heap} {off : Option Nat} {size : UInt64} {vin vout : List (Pipe × Bool)}

/-- `sendfile`, after a failed read. -/
theorem sendfile_unread {t : State} (hs : s.Fits)
    (hgive : h.gives ((size.toNat + 1) % 2 ^ 64) = true)
    (hr : s.fileRead i (size.toNat + 1) size.toNat (s.offset i off) true vin =
      .ok (some (none, t))) :
    Returned (s.Conserves i o off none) (s.sendfile h o i off size vin vout) ↔
      match s.files o with
      | .pipe => True
      | .regular f =>
        if f.canWrite = false then off = none
        else match s.nodes f.node with
          | .ramfs _ => False
          | node => node.counts = true → off = none := by
  have he := fileRead_fails hr
  subst he
  have hempty : t.taken i none = [] := ite_self _
  have hzero : ∀ {u : State}, u.view = t.view → t.Conserves i o off none
      ⟨intOf 0, u.putOffset off u.user (intOf 0), t.taken i none, []⟩ := by
    intro u hu
    refine conserves_still (Int.le_of_eq intOf_zero) ?_ hempty rfl
    rw [putOffset_view (congrArg View.user hu), hu, intOf_zero]
    cases off with
    | none => rfl
    | some a => simp [userAfter, view, ofInt_zero]
  have hminus : ∀ {u : State}, u.view = t.view → (t.Conserves i o off none
      ⟨intOf (-1), u.putOffset off u.user (intOf (-1)), t.taken i none, []⟩ ↔
        off = none) := by
    intro u hu
    rw [intOf_neg_one, conserves_neg (show (-1 : Int) < 0 by decide), hempty,
      putOffset_view (congrArg View.user hu), hu]
    constructor
    · rintro ⟨hv, -⟩
      exact userAfter_neg_one.mp (congrArg View.user hv)
    · rintro rfl
      exact ⟨rfl, rfl, rfl⟩
  unfold sendfile
  simp only [hgive, Bool.true_eq_false, if_false, hr, ok_bind, readCount, readBytes, intOf_neg_one]
  cases ho : t.files o with
  | pipe =>
    rw [fileWrite_minus_pipe ho]
    by_cases hv : vout = []
    · rw [if_pos hv]
      exact iff_of_true trivial trivial
    · rw [if_neg hv]
      exact iff_of_true (hzero rfl) trivial
  | regular f =>
    simp only
    by_cases hw : f.canWrite = false
    · rw [fileWrite_refused ho hw, if_pos hw]
      exact hminus rfl
    · rw [if_neg hw, fileWrite_minus ho (by simpa using hw) (hs.ptr ho)]
      have hview := refresh_view ho
      cases hn : t.nodes f.node with
      | ramfs data => exact Iff.rfl
      | fixed g =>
        simp only [ok_bind]
        rw [returned_ok]
        by_cases hc : (FileNode.fixed g).counts = true
        · rw [if_pos hc]
          exact (hminus hview).trans ⟨fun h _ => h, fun h => h hc⟩
        · rw [if_neg hc]
          exact iff_of_true (hzero hview) fun h => absurd h hc
      | link target =>
        simp only [ok_bind]
        rw [returned_ok, if_neg (show ¬(FileNode.link target).counts =
          true from Bool.false_ne_true)]
        exact iff_of_true (hzero hview) fun h => absurd h Bool.false_ne_true

/-- `sendfile` into a pipe, after a read. -/
theorem sendfile_piped {t : State} (hgive : h.gives ((size.toNat + 1) % 2 ^ 64) = true)
    (hcap : size.toNat + 1 < 2 ^ 31)
    (hr : s.fileRead i (size.toNat + 1) size.toNat (s.offset i off) true vin =
      .ok (some (some bytes, t))) (ho : s.files o = .pipe) :
    Returned (s.Conserves i o off none) (s.sendfile h o i off size vin vout) ↔
      ∀ w pushed, pipeWrite bytes bytes.length 0 vout = some (w, pushed) →
        0 ≤ w ∧ (bytes = [] ∨ s.isPipe i = true ∨ off = none) ∧
          s.wanted i off bytes = bytes := by
  obtain ⟨hlen, hs₁⟩ := fileRead_gets hr
  have hint : intOf bytes.length = bytes.length := intOf_of_lt (by omega) (by omega)
  have hs₁' : t = s.readDone true i bytes.length := hs₁
  subst hs₁'
  have ho₁ : (s.readDone true i bytes.length).files o = .pipe := by rw [readDone_files, ho]
  unfold sendfile
  simp only [hgive, Bool.true_eq_false, if_false, hr, ok_bind, readCount, readBytes, hint,
    fileWrite, ho₁]
  cases hw : pipeWrite bytes bytes.length 0 vout with
  | none => exact iff_of_true trivial fun w p h => by cases h
  | some w =>
    obtain ⟨w, pushed⟩ := w
    simp only [ok_bind, Returned]
    rcases pipeWrite_ends (Nat.zero_le _) hw with ⟨rfl, hp⟩ | ⟨rfl, hp⟩
    · rw [List.drop_zero] at hp
      subst hp
      have hview : ((s.readDone true i pushed.length).putOffset off
          (s.readDone true i pushed.length).user pushed.length).view = ⟨s.view.data,
            (s.expected i o off none pushed).user, s.ptrAfter true true i o pushed.length⟩ := by
        rw [putOffset_view readDone_user, readDone_view ho, userAfter_expected]
      rw [hint, conserves_piped ho (fun _ => rfl) rfl hview rfl rfl]
      constructor
      · rintro ⟨hc, hg⟩ w p h
        cases h
        exact ⟨by omega, hc.imp_right (Or.imp_right fun h => h rfl), hg⟩
      · intro h
        obtain ⟨-, hc, hg⟩ := h _ _ rfl
        exact ⟨hc.imp_right (Or.imp_right fun h _ => h), hg⟩
    · rw [intOf_neg_one]
      refine iff_of_false (fun h => ?_) fun h => absurd (h _ _ rfl).1 (by decide)
      obtain ⟨rfl, -⟩ := sendfile_refused.mp h
      exact absurd hp (by simp)

/-- `sendfile` into a regular file, after a read. -/
theorem sendfile_stored {t : State} {f : Regular} (hs : s.Fits)
    (hgive : h.gives ((size.toNat + 1) % 2 ^ 64) = true) (hcap : size.toNat + 1 < 2 ^ 31)
    (hr : s.fileRead i (size.toNat + 1) size.toNat (s.offset i off) true vin =
      .ok (some (some bytes, t))) (ho : s.files o = .regular f) :
    Returned (s.Conserves i o off none) (s.sendfile h o i off size vin vout) ↔
      if f.canWrite = false then bytes = [] ∧ off = none
      else if (s.nodes f.node).counts = false then bytes = []
      else (s.wanted i off bytes).length = bytes.length ∧
        (s.nodes f.node).Takes f.filePtr f.filePtr bytes (s.wanted i off bytes) ∧
        (bytes = [] ∨ (s.isPipe i = true ∨ off = none) ∧ i ≠ o) ∧
          f.filePtr + bytes.length < 2 ^ 63 := by
  obtain ⟨hlen, hs₁⟩ := fileRead_gets hr
  have hint : intOf bytes.length = bytes.length := intOf_of_lt (by omega) (by omega)
  have hs₁' : t = s.readDone true i bytes.length := hs₁
  subst hs₁'
  obtain ⟨f₁, hf₁, hu₁, hn₁, hp₁, hview⟩ :=
    @readDone_stored s i o bytes true true f ho
  have hptr₁ : (s.readDone true i bytes.length).filePtr o = f₁.filePtr :=
    filePtr_of_regular hf₁
  have hpos := hs.ptr ho
  have hnode₁ : (s.readDone true i bytes.length).nodes f₁.node = s.nodes f.node := by
    rw [readDone_nodes, hn₁]
  unfold sendfile
  simp only [hgive, Bool.true_eq_false, if_false, hr, ok_bind, readCount, readBytes, hint]
  by_cases hw : f.canWrite = false
  · rw [if_pos hw, fileWrite_refused hf₁ (hu₁.trans hw)]
    simp only [ok_bind, Returned, intOf_neg_one]
    rw [sendfile_refused]
    exact ⟨fun h => ⟨h.1, h.2.1⟩, fun h => ⟨h.1, h.2, rfl⟩⟩
  rw [if_neg hw]
  have hw₁ : f₁.canWrite = true := by
    rw [hu₁]
    simpa using hw
  by_cases hc : (s.nodes f.node).counts = false
  · have hfit : f₁.filePtr < 2 ^ 63 := by
      rw [hp₁]
      split
      · next hi =>
        obtain ⟨-, rfl⟩ := hi
        exact fileRead_fits hr ho
      · simpa using hpos
    rw [if_pos hc, fileWrite_idle hf₁ hw₁ hfit (by rw [hnode₁]; exact hc)]
    simp only [ok_bind, intOf_zero]
    rw [returned_ok]
    exact sendfile_idle hf₁
  rw [if_neg hc]
  have hc' : (s.nodes f.node).counts = true := by simpa using hc
  have hself : s.isPipe o = false := isPipe_of_regular ho
  have hplace : s.place o none = f.filePtr := filePtr_of_regular ho
  -- The position is that of the call, unless the file that is read is written.
  have hsame : bytes = [] ∨ o ≠ i → f₁.filePtr = f.filePtr := by
    rintro (rfl | hne)
    · simpa using hp₁
    · simpa [hne] using hp₁
  have hwrite := @fileWrite_regular (s.readDone true i bytes.length) o f₁ bytes f₁.filePtr true
    vout hf₁ hw₁ (by rw [hnode₁]; exact hc')
  rw [effective_natCast] at hwrite
  rw [hptr₁, hwrite]
  by_cases hfit : f₁.filePtr + bytes.length < 2 ^ 63
  · have hcond : true = false ∨ f₁.filePtr + bytes.length < 2 ^ 63 := .inr hfit
    rw [if_pos hcond]
    simp only [ok_bind, hint]
    rw [returned_ok]
    have hus :
        ((s.readDone true i bytes.length).stored o f₁ f₁.filePtr true bytes).user = s.user :=
      readDone_user
    have hv : (((s.readDone true i bytes.length).stored o f₁ f₁.filePtr true bytes).putOffset
        off ((s.readDone true i bytes.length).stored o f₁ f₁.filePtr true bytes).user
        bytes.length).view =
        ⟨fun x => if x = f.node then ofList ((s.nodes f.node).put f₁.filePtr bytes).data
          else s.view.data x, (s.expected i o off none bytes).user,
          s.ptrAfter true true i o bytes.length⟩ := by
      rw [putOffset_view hus, hview, userAfter_expected]
    rw [conserves_stored ho hc' (fun _ => rfl) rfl hv rfl rfl, hplace]
    have hpipe : s.isPipe i = true → i ≠ o := by
      rintro hi rfl
      rw [hself] at hi
      cases hi
    have htakes : (s.wanted i off bytes).length = bytes.length →
        ((s.nodes f.node).Stores f.filePtr f.filePtr bytes (s.wanted i off bytes) ↔
          (s.nodes f.node).Takes f.filePtr f.filePtr bytes (s.wanted i off bytes)) := fun hwant =>
      FileNode.stores_iff hwant (by omega) (hs.size f.node) (.inl rfl)
    constructor
    · rintro ⟨hwant, hst, hc⟩
      have hmove : bytes = [] ∨ (s.isPipe i = true ∨ off = none) ∧ i ≠ o := by
        rcases hc with hb | hi | ⟨hn, hne⟩
        · exact .inl hb
        · exact .inr ⟨.inl hi, hpipe hi⟩
        · exact .inr ⟨.inr (hn rfl), fun h => hne ⟨h, rfl, rfl⟩⟩
      rw [hsame (hmove.imp_right fun h => h.2.symm)] at hst hfit
      exact ⟨hwant, (htakes hwant).mp hst, hmove, hfit⟩
    · rintro ⟨hwant, hst, hc, -⟩
      rw [hsame (hc.imp_right fun h => h.2.symm)]
      refine ⟨hwant, (htakes hwant).mpr hst, ?_⟩
      rcases hc with hb | ⟨hi | hn, hne⟩
      · exact .inl hb
      · exact .inr (.inl hi)
      · exact .inr (.inr ⟨fun _ => hn, fun h => hne h.1⟩)
  · have hcond : ¬(true = false ∨ f₁.filePtr + bytes.length < 2 ^ 63) := by
      rintro (h | h)
      · cases h
      · exact hfit h
    rw [if_neg hcond]
    simp only [error_bind, Returned, false_iff]
    rintro ⟨-, -, hc, hlt⟩
    refine hfit ?_
    rw [hsame (hc.imp_right fun h => h.2.symm)]
    exact hlt

theorem sendfile_iff (hs : s.Fits) :
    Returned (s.Conserves i o off none) (s.sendfile h o i off size vin vout) ↔
      s.SendfileOk h o i off size vin vout := by
  unfold SendfileOk
  by_cases hgive : h.gives ((size.toNat + 1) % 2 ^ 64) = true
  swap
  · unfold sendfile
    rw [if_pos (by simpa using hgive)]
    exact iff_of_true (conserves_still (show (-5 : Int) ≤ 0 by decide) rfl rfl rfl)
      fun hg => absurd hg hgive
  have hcap : size.toNat + 1 < 2 ^ 31 := by
    have hlt := h.small hgive
    have hsize := size.toNat_lt
    have hpos : (size.toNat + 1) % 2 ^ 64 ≠ 0 := by
      intro h0
      rw [h0, h.zero] at hgive
      cases hgive
    omega
  cases hr : s.fileRead i (size.toNat + 1) size.toNat (s.offset i off) true vin with
  | error e =>
    unfold sendfile
    simp only [hgive, Bool.true_eq_false, if_false, hr, error_bind, forall_const]
    cases e <;> exact Iff.rfl
  | ok r =>
    cases r with
    | none =>
      unfold sendfile
      simp only [hgive, Bool.true_eq_false, if_false, hr, ok_bind, forall_const]
      exact Iff.rfl
    | some r =>
      obtain ⟨r, t⟩ := r
      cases r with
      | none =>
        rw [sendfile_unread hs hgive hr]
        simp only [hgive, forall_const]
      | some bytes =>
        simp only [hgive, forall_const]
        cases ho : s.files o with
        | pipe => exact sendfile_piped hgive hcap hr ho
        | regular f => exact sendfile_stored hs hgive hcap hr ho

end

end State

end OsKernel.Syscall

import OsKernel.Pm.ExecAlign
import OsKernel.Pm.ExecArrays

/-! When `execve` stays in its arrays. -/

namespace OsKernel.Pm

open Lib Hsai Mm

/-- Nothing undefined is done. -/
def InRange {α : Type} (x : Except Fault α) : Prop := ∀ what, x ≠ .error (.undefined what)

/-- The loop over the headers goes on after the header with the number. -/
def passesHeader (segment : Nat → Answer) (x : ProgHdr × Nat) : Bool :=
  !x.1.isLoad || x.1.sizesOk && segment x.2 = .works

/-- The number of segments that are loaded before the first header that stops the loop. -/
def loadedSegments (segment : Nat → Answer) (hdrs : List (ProgHdr × Nat)) : Nat :=
  (hdrs.takeWhile (passesHeader segment)).countP fun x => x.1.isLoad

/-- The condition on the headers and the arguments.  There is room for the segments and, if all are
loaded, for the section of the headers; and then not so many arguments that the null behind them is
out of the array. -/
def FitsArrays (a : ExecAnswers) (hdrs : List ProgHdr) (argv envs : List (List UInt8)) : Prop :=
  loadedSegments a.segment hdrs.zipIdx ≤ maxProgramSectionNum ∧
    ((∀ x ∈ hdrs.zipIdx, passesHeader a.segment x = true) → a.headers = .works →
      loadedSegments a.segment hdrs.zipIdx < maxProgramSectionNum ∧
        (a.stack = .works → (∀ i < envs.length, a.pushEnv i = .works) →
          (∀ i < argv.length, a.pushArg i = .works) → argv.length ≠ maxArg))

section

variable {α β : Type} {x : Except Fault (Option α)} {f : α → Except Fault (Option β)}
  {cnt : Nat}

theorem inRange_ok {r : α} : InRange (.ok r : Except Fault α) := fun _ h => by cases h

theorem inRange_panic {message : String} : InRange (.error (.panic message) : Except Fault α) :=
  fun _ h => by cases h

theorem not_inRange_undefined {what : String} :
    ¬InRange (.error (.undefined what) : Except Fault α) :=
  fun h => h what rfl

theorem inRange_orGiveUp : InRange (orGiveUp x f) ↔ InRange x ∧ ∀ r, x = .ok (some r) →
    InRange (f r) := by
  unfold orGiveUp
  cases x with
  | error e =>
    constructor
    · exact fun h => ⟨fun what he => h what (by cases he; rfl), fun r he => by cases he⟩
    · exact fun h what he => h.1 what (by cases he; rfl)
  | ok o =>
    rw [ok_bind]
    cases o with
    | none => exact iff_of_true inRange_ok ⟨inRange_ok, fun r he => by cases he⟩
    | some r =>
      constructor
      · intro h
        refine ⟨inRange_ok, fun r' he => ?_⟩
        obtain rfl := Option.some.inj (Except.ok.inj he)
        exact h
      · exact fun h => h.2 r rfl

theorem giveUp_eq (h : cnt ≤ maxProgramSectionNum) :
    (giveUp cnt : Except Fault (Option α)) = .ok none := by
  rw [giveUp, useSections, if_pos h]
  rfl

theorem call_inRange (h : cnt ≤ maxProgramSectionNum) (a : Answer) : InRange (call cnt a) := by
  cases a with
  | panics => exact inRange_panic
  | fails =>
    rw [call, giveUp_eq h]
    exact inRange_ok
  | works => exact inRange_ok

theorem call_some (h : cnt ≤ maxProgramSectionNum) {a : Answer} : call cnt a = .ok (some ()) ↔
    a = .works := by
  cases a with
  | panics => simp [call]
  | fails => simp [call, giveUp_eq h]
  | works => simp [call]

/-- A call and what follows it. -/
theorem inRange_call (h : cnt ≤ maxProgramSectionNum) {a : Answer}
    {f : Unit → Except Fault (Option β)} : InRange (orGiveUp (call cnt a) f) ↔
      (a = .works → InRange (f ())) := by
  rw [inRange_orGiveUp]
  constructor
  · exact fun hx ha => hx.2 () ((call_some h).mpr ha)
  · exact fun hx => ⟨call_inRange h a, fun _ hr => hx ((call_some h).mp hr)⟩

theorem orGiveUp_call_some (h : cnt ≤ maxProgramSectionNum) {a : Answer}
    {f : Unit → Except Fault (Option β)} {b : β} :
    orGiveUp (call cnt a) f = .ok (some b) ↔ a = .works ∧ f () = .ok (some b) := by
  cases a with
  | panics => simp [call, orGiveUp]
  | fails => simp [call, orGiveUp, giveUp_eq h]
  | works => simp [call, orGiveUp]

end

/-! ### The loops -/

section

variable {segment : Nat → Answer} {cnt i : Nat}

theorem loadedSegments_cons (x : ProgHdr × Nat) (l : List (ProgHdr × Nat)) :
    loadedSegments segment (x :: l) =
      if passesHeader segment x then loadedSegments segment l + if x.1.isLoad then 1 else 0
        else 0 := by
  unfold loadedSegments
  rw [List.takeWhile_cons]
  split
  · rw [List.countP_cons]
  · rfl

/-- The loop over the headers stays in the array if the segments that it loads fit, and it comes to
its end if all headers pass. -/
theorem loadSections_spec (segment : Nat → Answer) (hdrs : List ProgHdr) (i : Nat) {cnt : Nat}
    (hcnt : cnt ≤ maxProgramSectionNum) :
    (InRange (loadSections segment i hdrs cnt) ↔
      cnt + loadedSegments segment (hdrs.zipIdx i) ≤ maxProgramSectionNum) ∧
    ∀ m, loadSections segment i hdrs cnt = .ok (some m) ↔
      cnt + loadedSegments segment (hdrs.zipIdx i) ≤ maxProgramSectionNum ∧
        (∀ x ∈ hdrs.zipIdx i, passesHeader segment x = true) ∧
        m = cnt + loadedSegments segment (hdrs.zipIdx i) := by
  induction hdrs generalizing i cnt with
  | nil =>
    refine ⟨iff_of_true inRange_ok hcnt, fun m => ?_⟩
    rw [loadSections, List.zipIdx_nil]
    simp only [loadedSegments, List.takeWhile_nil, List.countP_nil, Nat.add_zero, List.not_mem_nil,
      false_implies, implies_true, true_and, hcnt, Except.ok.injEq, Option.some.injEq]
    exact eq_comm
  | cons ph rest ih =>
    rw [loadSections, List.zipIdx_cons, loadedSegments_cons]
    simp only [List.mem_cons, forall_eq_or_imp]
    by_cases hload : ph.isLoad = true
    · by_cases hsize : ph.sizesOk = true
      · have hpass : passesHeader segment (ph, i) = decide (segment i = .works) := by
          simp [passesHeader, hload, hsize]
        simp only [hload, hsize, hpass, Bool.not_true, Bool.false_eq_true, if_false,
          decide_eq_true_eq, if_true]
        rw [inRange_call hcnt]
        simp only [orGiveUp_call_some hcnt]
        by_cases hseg : segment i = .works
        · simp only [hseg, if_true, true_imp_iff, true_and, storeSection]
          by_cases hlt : cnt < maxProgramSectionNum
          · obtain ⟨hin, hsome⟩ := ih (i + 1) (show cnt + 1 ≤ maxProgramSectionNum from hlt)
            rw [if_pos hlt, ok_bind, hin]
            simp only [hsome, Nat.add_assoc, Nat.add_comm 1, implies_true, and_self]
          · rw [if_neg hlt]
            refine ⟨iff_of_false not_inRange_undefined (by omega),
              fun m => iff_of_false (fun h => by cases h) ?_⟩
            intro h
            have := h.1
            omega
        · simp only [hseg, if_false, false_imp_iff, Nat.add_zero, hcnt, false_and, and_false,
            implies_true, and_self]
      · have hpass : passesHeader segment (ph, i) = false := by simp [passesHeader, hload, hsize]
        simp only [hload, hsize, hpass, Bool.not_true, Bool.not_false, Bool.false_eq_true, if_false,
          if_true, false_and, and_false, iff_false, Nat.add_zero, hcnt, iff_true, giveUp_eq hcnt]
        exact ⟨inRange_ok, fun m h => by cases h⟩
    · have hpass : passesHeader segment (ph, i) = true := by simp [passesHeader, hload]
      simp only [hload, hpass, Bool.not_false, if_true, if_false, Nat.add_zero, true_and,
        Bool.false_eq_true]
      exact ih (i + 1) hcnt

/-- The loop over strings stores out of the array if it comes to the null behind as many strings as
there are places. -/
theorem storeStrings_spec (push : Nat → Answer) (left : Nat) (hcnt : cnt ≤ maxProgramSectionNum)
    (hi : i ≤ maxArg) : (InRange (storeStrings push cnt i left) ↔
      ((∀ j, i ≤ j → j < i + left → push j = .works) → i + left ≠ maxArg)) ∧
    (storeStrings push cnt i left = .ok (some ()) ↔
      i + left < maxArg ∧ ∀ j, i ≤ j → j < i + left → push j = .works) := by
  induction left generalizing i with
  | zero =>
    rw [storeStrings, Nat.add_zero]
    by_cases hlt : i < maxArg
    · rw [if_pos hlt]
      exact ⟨iff_of_true inRange_ok fun _ => Nat.ne_of_lt hlt,
        iff_of_true rfl ⟨hlt, fun j hl hu => by omega⟩⟩
    · rw [if_neg hlt]
      refine ⟨iff_of_false not_inRange_undefined fun h => ?_,
        iff_of_false (fun h => by cases h) fun h => hlt h.1⟩
      exact h (fun j hl hu => by omega) (by omega)
  | succ left ih =>
    rw [storeStrings]
    by_cases hfull : maxArg ≤ i
    · rw [if_pos hfull, giveUp_eq hcnt]
      refine ⟨iff_of_true inRange_ok
        fun _ => by omega, iff_of_false (fun h => by cases h) fun h => ?_⟩
      have := h.1
      omega
    · rw [if_neg hfull, inRange_call hcnt, orGiveUp_call_some hcnt]
      obtain ⟨hin, hsome⟩ := ih (show i + 1 ≤ maxArg by omega)
      rw [hin, hsome, show i + 1 + left = i + (left + 1) by omega]
      have hall : (push i = .works ∧ ∀ j, i + 1 ≤ j → j < i + (left + 1) →
          push j = .works) ↔ ∀ j, i ≤ j → j < i + (left + 1) → push j = .works := by
        constructor
        · rintro ⟨h0, h⟩ j hl hu
          rcases Nat.eq_or_lt_of_le hl with rfl | hlt
          · exact h0
          · exact h j hlt hu
        · exact fun h => ⟨h i (Nat.le_refl i) (by omega), fun j hl hu => h j (by omega) hu⟩
      rw [← hall]
      exact ⟨⟨fun h hw => h hw.1 hw.2,
        fun h h0 hw => h ⟨h0, hw⟩⟩, by rw [and_left_comm]⟩

end

/-- A call of `execve` of a file with the headers. -/
theorem execveLoaded_inRange_iff {a : ExecAnswers} {old : Nat} {hdrs : List ProgHdr}
    {argv envs : List (List UInt8)} (hold : old ≤ maxProgramSectionNum)
    (henvs : envs.length < maxArg) :
    InRange (execveLoaded a old hdrs argv envs) ↔ FitsArrays a hdrs argv envs := by
  obtain ⟨hload, hloaded⟩ := loadSections_spec a.segment hdrs 0
    (Nat.zero_le maxProgramSectionNum)
  simp only [Nat.zero_add] at hload hloaded
  rw [execveLoaded, inRange_orGiveUp, hload]
  simp only [hloaded]
  refine and_congr_right fun hfit => ?_
  constructor
  · intro h hall hheaders
    have hnext := h _ ⟨hfit, hall, rfl⟩
    rw [inRange_call hfit] at hnext
    have hnext := hnext hheaders
    by_cases hlt : loadedSegments a.segment hdrs.zipIdx < maxProgramSectionNum
    · refine ⟨hlt, fun hstack henv harg hargc => ?_⟩
      obtain ⟨-, henvDone⟩ := storeStrings_spec a.pushEnv envs.length hlt (Nat.zero_le maxArg)
      obtain ⟨hargIn, -⟩ := storeStrings_spec a.pushArg argv.length hlt (Nat.zero_le maxArg)
      rw [storeSection, if_pos hlt, ok_bind, inRange_call hlt] at hnext
      have hstrings := (inRange_orGiveUp.mp (hnext hstack)).2 ()
        (henvDone.mpr ⟨by omega, fun j _ hj => henv j (by omega)⟩)
      have hargs := hargIn.mp (inRange_orGiveUp.mp hstrings).1 fun j _ hj => harg j (by omega)
      omega
    · rw [storeSection, if_neg hlt] at hnext
      exact absurd hnext not_inRange_undefined
  · rintro h cnt ⟨-, hall, rfl⟩
    rw [inRange_call hfit]
    intro hheaders
    obtain ⟨hlt, hargs⟩ := h hall hheaders
    obtain ⟨henvIn, henvDone⟩ :=
      storeStrings_spec a.pushEnv envs.length hlt (Nat.zero_le maxArg)
    obtain ⟨hargIn, hargDone⟩ :=
      storeStrings_spec a.pushArg argv.length hlt (Nat.zero_le maxArg)
    rw [storeSection, if_pos hlt, ok_bind, inRange_call hlt]
    intro hstack
    rw [inRange_orGiveUp, henvIn]
    refine ⟨fun _ => by omega, fun _ henv => ?_⟩
    have henv := (henvDone.mp henv).2
    rw [inRange_orGiveUp, hargIn]
    refine ⟨fun harg hargc => ?_, fun _ _ => ?_⟩
    · exact hargs hstack (fun j hj => henv j (Nat.zero_le j) (by omega))
        (fun j hj => harg j (Nat.zero_le j) (by omega))
        (by omega)
    · rw [inRange_call hlt]
      intro _
      rw [inRange_call hlt]
      intro _
      have hused : loadedSegments a.segment hdrs.zipIdx + 1 ≤ maxProgramSectionNum := hlt
      rw [useSections, if_pos hold, ok_bind, useSections, if_pos hused, ok_bind]
      exact inRange_ok

theorem useSections_ok {n : Nat} : useSections n = .ok () ↔ n ≤ maxProgramSectionNum := by
  unfold useSections
  split
  · exact iff_of_true rfl (by assumption)
  · exact iff_of_false (fun h => by cases h) (by assumption)

/-- What `execve` leaves in `_prog_section_cnt` is again a number of sections for which there
is room. -/
theorem execveLoaded_sections {a : ExecAnswers} {old n : Nat} {hdrs : List ProgHdr}
    {argv envs : List (List UInt8)} (h : execveLoaded a old hdrs argv envs = .ok (some n)) :
      n ≤ maxProgramSectionNum := by
  obtain ⟨cnt, -, h⟩ := orGiveUp_some.mp h
  obtain ⟨-, -, h⟩ := orGiveUp_some.mp h
  obtain ⟨-, -, h⟩ := bind_eq_ok.mp h
  obtain ⟨-, -, h⟩ := orGiveUp_some.mp h
  obtain ⟨-, -, h⟩ := orGiveUp_some.mp h
  obtain ⟨-, -, h⟩ := orGiveUp_some.mp h
  obtain ⟨-, -, h⟩ := orGiveUp_some.mp h
  obtain ⟨-, -, h⟩ := orGiveUp_some.mp h
  obtain ⟨-, -, h⟩ := bind_eq_ok.mp h
  obtain ⟨_, huse, h⟩ := bind_eq_ok.mp h
  obtain rfl := Option.some.inj (Except.ok.inj h)
  exact useSections_ok.mp huse

/-- The path and the arguments with which `_sys_execve` calls `execve`. -/
def execPath (path : List UInt8) : List UInt8 := if shSuffix.isSuffixOf path then busybox else path

def execArgv (path : List UInt8) (uargv : List (List UInt8)) : List (List UInt8) :=
  if shSuffix.isSuffixOf path then busybox :: [115, 104] :: uargv else uargv

/-- `execve` stays in its arrays if and only if it gives up before it looks at the program headers,
or these and the arguments fit. -/
theorem execve_in_arrays_iff (a : ExecAnswers) (files : List UInt8 → Option (List UInt8))
    (elf : List UInt8) (old : Nat) (hold : old ≤ maxProgramSectionNum) (path : List UInt8)
    (uargv uenvp : List (List UInt8)) :
    InRange (sysExecve a files elf old path uargv uenvp) ↔
      (uargv.length < maxArgNum → uenvp.length < maxArgNum → ∀ file,
        files (execPath path) = some file → (ElfHdr.ofBuffer (readBuffer file elf 0)).magic =
          elfMagic → a.vmCreate = .works →
            FitsArrays a (progHdrs file (ElfHdr.ofBuffer (readBuffer file elf 0)).phnum
            (List.replicate 56 0) (ElfHdr.ofBuffer (readBuffer file elf 0)).phoff)
              (execArgv path uargv) uenvp) := by
  have hcall : sysExecve a files elf old path uargv uenvp =
      if maxArgNum ≤ uargv.length then .ok none
      else if maxArgNum ≤ uenvp.length then .ok none
      else execve a files elf old (execPath path) (execArgv path uargv) uenvp := by
    unfold sysExecve execPath execArgv
    split
    · rfl
    · split
      · rfl
      · split <;> rfl
  rw [hcall]
  by_cases hargv : maxArgNum ≤ uargv.length
  · rw [if_pos hargv]
    exact iff_of_true inRange_ok fun h => absurd h (Nat.not_lt.mpr hargv)
  rw [if_neg hargv]
  by_cases henvp : maxArgNum ≤ uenvp.length
  · rw [if_pos henvp]
    exact iff_of_true inRange_ok fun _ h => absurd h (Nat.not_lt.mpr henvp)
  rw [if_neg henvp, execve]
  cases hfile : files (execPath path) with
  | none => exact iff_of_true inRange_ok fun _ _ file h => by cases h
  | some file =>
    simp only
    by_cases hmagic : (ElfHdr.ofBuffer (readBuffer file elf 0)).magic = elfMagic
    · rw [if_neg (not_not.mpr hmagic), inRange_call (Nat.zero_le _)]
      rw [execveLoaded_inRange_iff hold (Nat.not_le.mp henvp)]
      constructor
      · intro h _ _ file' hfile' _ hcreate
        obtain rfl := Option.some.inj hfile'
        exact h hcreate
      · exact fun h hcreate => h (Nat.not_le.mp hargv) (Nat.not_le.mp henvp) file rfl hmagic
          hcreate
    · rw [if_pos hmagic]
      refine iff_of_true inRange_ok fun _ _ file' hfile' hmagic' => ?_
      obtain rfl := Option.some.inj hfile'
      exact absurd hmagic' hmagic

/-- All calls work. -/
def allWork : ExecAnswers :=
  ⟨.works, fun _ => .works, .works, .works, fun _ => .works, fun _ => .works, .works, .works⟩

/-- A file of an ELF header and one program header, of a segment of 16 bytes. -/
def sampleElf : List UInt8 :=
  [127, 69, 76, 70] ++ List.replicate 28 0 ++ [64] ++ List.replicate 23 0 ++ [1] ++
    List.replicate 7 0 ++ [1] ++ List.replicate 31 0 ++ [16] ++ List.replicate 7 0 ++ [16] ++
    List.replicate 15 0

theorem execve_in_arrays_sample :
    InRange (sysExecve allWork (fun _ => some sampleElf) (List.replicate 64 0) 2 [47, 97] [[97]]
      []) :=
  (execve_in_arrays_iff allWork (fun _ => some sampleElf) (List.replicate 64 0) 2 (by decide)
    [47, 97] [[97]] []).mpr
    fun _ _ file hfile _ _ => by
      obtain rfl := Option.some.inj hfile
      exact ⟨by decide +kernel, fun _ _ => ⟨by decide +kernel, fun _ _ _ => by decide⟩⟩

/-- A script with 30 arguments: with the two for the shell there are as many as there are places. -/
theorem execve_past_pointers : sysExecve allWork (fun _ => some sampleElf) (List.replicate 64 0)
    2 [47, 97, 46, 115, 104] (List.replicate 30 [97]) [] =
      .error (.undefined "index past the pointers") := by
  decide +kernel

end OsKernel.Pm

import OsKernel.Lib.CircularBuffer

/-! The output of `UartNs16550`.  Writers store their characters in a buffer of 1024 places under
the lock of the UART, `_start` moves them to the holding register while that is empty, and the
device takes them from there at any time. -/

namespace OsKernel.Hsai

open Lib

/-- `_buf_size`. -/
def uartBufSize : Nat := 1024

/-- The number of values of an `ulong`. -/
def ulongSize : Nat := 2 ^ 64

/-- The fields for the output, the holding register of the device, and the characters that it has
put on the line. -/
structure UartTx where
  buf : Nat → UInt8
  wrIdx : Nat
  rdIdx : Nat
  thr : Option UInt8
  line : List UInt8

namespace UartTx

variable (u : UartTx)

/-- `_wr_idx == _rd_idx + _buf_size`. -/
def full : Bool := u.wrIdx = (u.rdIdx + uartBufSize) % ulongSize

/-- The device takes the character in the holding register. -/
def transmit : UartTx := { u with thr := none, line := u.line ++ u.thr.toList }

/-- The character goes to the place at `_wr_idx`. -/
def put (c : UInt8) : UartTx :=
  { u with
    buf := Function.update u.buf (u.wrIdx % uartBufSize) c
    wrIdx := (u.wrIdx + 1) % ulongSize }

/-- The next character goes to the holding register. -/
def take : UartTx :=
  { u with thr := some (u.buf (u.rdIdx % uartBufSize)), rdIdx := (u.rdIdx + 1) % ulongSize }

/-- `_start`.  Each turn is given whether the device has taken a character before it; `none` if the
loop has not ended after these turns.  The result tells whether `wakeup_at` has been called. -/
def start : List Bool → UartTx → Option (UartTx × Bool)
  | [], _ => none
  | ready :: turns, u =>
    let u := if ready then u.transmit else u
    if u.wrIdx = u.rdIdx then some (u, false)
    else match u.thr with
      | some _ => some (u, false)
      | none => (start turns u.take).map fun r => (r.1, true)

end UartTx

/-- Where a process is in `put_char`. -/
inductive UartWriter where
  | idle
  | sleeping (c : UInt8)
  | woken (c : UInt8)

/-- The UART and its writers.  `accepted` is history: the characters of the calls that
have returned. -/
structure UartOutput (π : Type) where
  tx : UartTx
  writer : π → UartWriter
  accepted : List UInt8

namespace UartOutput

variable {π : Type} [DecidableEq π] (s : UartOutput π)

/-- `wakeup_at( &_rd_idx )`. -/
def wakeup : UartOutput π :=
  { s with writer := fun p => match s.writer p with
      | .sleeping c => .woken c
      | w => w }

/-- The output after `_start`. -/
def started (r : UartTx × Bool) : UartOutput π :=
  if r.2 then { s with tx := r.1 }.wakeup else { s with tx := r.1 }

/-- A turn of the loop in `put_char`: the process sleeps, or it stores its character, calls `_start`
and returns.  `none` if these turns of `_start` are too few. -/
def putChar (p : π) (c : UInt8) (turns : List Bool) : Option (UartOutput π) :=
  if s.tx.full then some { s with writer := Function.update s.writer p (.sleeping c) }
  else (UartTx.start turns (s.tx.put c)).map fun r =>
    { s with writer := Function.update s.writer p .idle, accepted := s.accepted ++ [c] }.started r

/-- What the writers, the interrupt handler and the device do, each in one step: the lock of the
UART is held in between.  A signal wakes one process. -/
inductive Step : UartOutput π → UartOutput π → Prop
  | call {s s' : UartOutput π} {p : π} {c : UInt8} {turns : List Bool}
      (hidle : s.writer p = .idle) (h : s.putChar p c turns = some s') : Step s s'
  | resume {s s' : UartOutput π} {p : π} {c : UInt8} {turns : List Bool}
      (hwoken : s.writer p = .woken c) (h : s.putChar p c turns = some s') : Step s s'
  | interrupt {s : UartOutput π} {turns : List Bool} {r : UartTx × Bool}
      (h : UartTx.start turns s.tx = some r) : Step s (s.started r)
  | transmit {s : UartOutput π} : Step s { s with tx := s.tx.transmit }
  | signal {s : UartOutput π} {p : π} {c : UInt8} (h : s.writer p = .sleeping c) :
      Step s { s with writer := Function.update s.writer p (.woken c) }

/-- A UART that has put nothing on the line. -/
def init (buf : Nat → UInt8) : UartOutput π :=
  ⟨⟨buf, 0, 0, none, []⟩, fun _ => .idle, []⟩

inductive Reached : UartOutput π → Prop
  | init (buf : Nat → UInt8) : Reached (init buf)
  | step {s s' : UartOutput π} (hr : Reached s) (h : Step s s') : Reached s'

end UartOutput

/-! ### The characters on their way -/

namespace UartTx

variable {u : UartTx} {n : Nat}

/-- The `n` characters in the buffer. -/
def queued (u : UartTx) (n : Nat) : List UInt8 := window uartBufSize u.buf u.rdIdx n

/-- The buffer holds `n` characters, which with those taken out of it are `all`. -/
structure Carries (u : UartTx) (n : Nat) (all : List UInt8) : Prop where
  rdIdx : u.rdIdx = (all.length - n) % ulongSize
  wrIdx : u.wrIdx = all.length % ulongSize
  le : n ≤ uartBufSize
  all : u.line ++ u.thr.toList ++ u.queued n = all

theorem Carries.le_length {all : List UInt8} (h : u.Carries n all) : n ≤ all.length := by
  rw [← h.all, List.length_append, queued, window_length]
  exact Nat.le_add_left _ _

theorem Carries.full_iff {all : List UInt8} (h : u.Carries n all) :
    u.full = true ↔ n = uartBufSize := by
  have hle := h.le
  have hlen := h.le_length
  rw [full, decide_eq_true_iff, h.wrIdx, h.rdIdx]
  unfold uartBufSize ulongSize at *
  omega

theorem Carries.empty_iff {all : List UInt8} (h : u.Carries n all) : u.wrIdx = u.rdIdx ↔
    n = 0 := by
  have hle := h.le
  have hlen := h.le_length
  rw [h.wrIdx, h.rdIdx]
  unfold uartBufSize ulongSize at *
  omega

/-- The characters between `_rd_idx` and `_wr_idx`. -/
def pending (u : UartTx) : List UInt8 :=
  window uartBufSize u.buf u.rdIdx ((u.wrIdx + ulongSize - u.rdIdx) % ulongSize)

theorem Carries.pending_eq {all : List UInt8} (h : u.Carries n all) : u.pending = u.queued n := by
  have hle := h.le
  have hlen := h.le_length
  have hcount : (u.wrIdx + ulongSize - u.rdIdx) % ulongSize = n := by
    rw [h.wrIdx, h.rdIdx]
    unfold uartBufSize ulongSize at *
    omega
  rw [pending, hcount, queued]

theorem Carries.transmit {all : List UInt8} (h : u.Carries n all) : u.transmit.Carries n all := by
  refine ⟨h.rdIdx, h.wrIdx, h.le, ?_⟩
  rw [← h.all]
  simp [UartTx.transmit, queued]

theorem Carries.put {all : List UInt8} {c : UInt8} (h : u.Carries n all) (hfull : ¬u.full = true) :
    (u.put c).Carries (n + 1) (all ++ [c]) := by
  have hlt : n < uartBufSize := Nat.lt_of_le_of_ne h.le (mt h.full_iff.mpr hfull)
  have hlen := h.le_length
  have hdvd : uartBufSize ∣ ulongSize := ⟨2 ^ 54, rfl⟩
  refine ⟨?_, ?_, hlt, ?_⟩
  · rw [List.length_append, List.length_singleton, Nat.add_sub_add_right]
    exact h.rdIdx
  · rw [List.length_append, List.length_singleton, UartTx.put, h.wrIdx, Nat.mod_add_mod]
  · have hat : u.wrIdx % uartBufSize = (u.rdIdx + n) % uartBufSize := by
      rw [h.wrIdx, h.rdIdx, Nat.mod_mod_of_dvd _ hdvd, Nat.add_mod, Nat.mod_mod_of_dvd _ hdvd,
        ← Nat.add_mod, Nat.sub_add_cancel hlen]
    have hpush : (u.put c).queued (n + 1) = u.queued n ++ [c] := by
      change window uartBufSize (Function.update u.buf (u.wrIdx % uartBufSize) c) u.rdIdx (n + 1) =
        _
      rw [hat]
      exact window_push hlt
    rw [hpush, ← h.all]
    simp [UartTx.put]

theorem Carries.take {all : List UInt8} (h : u.Carries (n + 1) all) (hthr : u.thr = none) :
    u.take.Carries n all := by
  have hle := h.le
  have hlen := h.le_length
  have hdvd : uartBufSize ∣ ulongSize := ⟨2 ^ 54, rfl⟩
  refine ⟨?_, h.wrIdx, by omega, ?_⟩
  · change (u.rdIdx + 1) % ulongSize = _
    rw [h.rdIdx, Nat.mod_add_mod]
    congr 1
    omega
  · have hnext : u.take.queued n = window uartBufSize u.buf (u.rdIdx + 1) n := window_mod_dvd hdvd
    rw [hnext, ← h.all, queued, window_succ, hthr]
    simp [UartTx.take]

/-- `_start` keeps the characters in order.  When it ends the buffer is empty or the register
is not. -/
theorem Carries.start {all : List UInt8} (turns : List Bool) (h : u.Carries n all)
    {r : UartTx × Bool} (hrun : UartTx.start turns u = some r) :
    ∃ m ≤ n, r.1.Carries m all ∧ (r.2 = true ↔ m < n) ∧ (m = 0 ∨ r.1.thr ≠ none) ∧
      (u.thr = none → 0 < n → r.2 = true) := by
  induction turns generalizing u n r with
  | nil => cases hrun
  | cons ready turns ih =>
    rw [UartTx.start] at hrun
    have h' : (if ready then u.transmit else u).Carries n all := by
      split
      · exact h.transmit
      · exact h
    have hnone : u.thr = none → (if ready then u.transmit else u).thr = none := by
      intro hu
      split
      · rfl
      · exact hu
    generalize (if ready then u.transmit else u) = v at hrun h' hnone
    split at hrun
    · rename_i hempty
      cases hrun
      have hzero := h'.empty_iff.mp hempty
      exact ⟨n, Nat.le_refl n, h',
        by simp, .inl hzero, fun _ hpos => absurd hzero (Nat.ne_of_gt hpos)⟩
    rename_i hmore
    cases hthr : v.thr with
    | some c =>
      rw [hthr] at hrun
      cases hrun
      refine ⟨n, Nat.le_refl n,
        h', by simp, .inr (by rw [hthr]; exact Option.some_ne_none c), ?_⟩
      intro hu
      rw [hnone hu] at hthr
      cases hthr
    | none =>
      rw [hthr] at hrun
      obtain ⟨k, rfl⟩ : ∃ k, n = k + 1 :=
        ⟨n - 1, by have := mt h'.empty_iff.mpr hmore; omega⟩
      obtain ⟨r', hr', rfl⟩ := Option.map_eq_some_iff.mp hrun
      obtain ⟨m, hm, hc, -, hend, -⟩ := ih (h'.take hthr) hr'
      exact ⟨m, by omega, hc, ⟨fun _ => by omega, fun _ => rfl⟩, hend, fun _ _ => rfl⟩

/-- One turn more than there are characters is enough. -/
theorem Carries.start_ends {all : List UInt8} (turns : List Bool) (h : u.Carries n all)
    (hn : n < turns.length) : ∃ r, UartTx.start turns u = some r := by
  induction turns generalizing u n with
  | nil => exact absurd hn (Nat.not_lt_zero n)
  | cons ready turns ih =>
    rw [UartTx.start]
    have h' : (if ready then u.transmit else u).Carries n all := by
      split
      · exact h.transmit
      · exact h
    generalize (if ready then u.transmit else u) = v at h'
    split
    · exact ⟨_, rfl⟩
    rename_i hmore
    cases hthr : v.thr with
    | some c => exact ⟨_, rfl⟩
    | none =>
      obtain ⟨k, rfl⟩ : ∃ k, n = k + 1 :=
        ⟨n - 1, by have := mt h'.empty_iff.mpr hmore; omega⟩
      obtain ⟨r, hr⟩ := ih (h'.take hthr) (by simpa using hn)
      exact ⟨_, by rw [hr]; rfl⟩

end UartTx

namespace UartOutput

variable {π : Type} [DecidableEq π] {s s' : UartOutput π}

/-- The characters accepted are on their way, and writers sleep only while the buffer is full. -/
structure Inv (s : UartOutput π) : Prop where
  carries : ∃ n, s.tx.Carries n s.accepted
  sleeping : ∀ p c, s.writer p = .sleeping c → s.tx.full = true

omit [DecidableEq π] in
theorem wakeup_awake (s : UartOutput π) (p : π) (c : UInt8) :
    s.wakeup.writer p ≠ .sleeping c := by
  intro h
  have hw : s.wakeup.writer p = match s.writer p with
      | .sleeping c => .woken c
      | w => w := rfl
  rw [h] at hw
  cases hs : s.writer p with
  | idle => simp [hs] at hw
  | sleeping d => simp [hs] at hw
  | woken d => simp [hs] at hw

omit [DecidableEq π] in
/-- After `_start` writers sleep only if it has moved nothing and they have slept before. -/
theorem started_inv {r : UartTx × Bool} {n m : Nat} (hc : s.tx.Carries n s.accepted)
    (hsleep : ∀ p c, s.writer p = .sleeping c → s.tx.full = true)
    (hr : r.1.Carries m s.accepted)
    (hm : m ≤ n) (hwakes : r.2 = true ↔ m < n) : (s.started r).Inv := by
  unfold started
  split
  · exact ⟨⟨m, hr⟩, fun p c h => absurd h (wakeup_awake _ p c)⟩
  · rename_i hno
    refine ⟨⟨m, hr⟩, fun p c h => ?_⟩
    have hfull := hc.full_iff.mp (hsleep p c h)
    have hsame : ¬m < n := fun hlt => hno (hwakes.mpr hlt)
    exact hr.full_iff.mpr (by omega)

theorem Inv.putChar (I : s.Inv) {p : π} {c : UInt8} {turns : List Bool}
    (h : s.putChar p c turns = some s') : s'.Inv := by
  obtain ⟨n, hc⟩ := I.carries
  unfold UartOutput.putChar at h
  split at h
  · rename_i hfull
    cases h
    exact ⟨⟨n, hc⟩, fun _ _ _ => hfull⟩
  · rename_i hroom
    obtain ⟨r, hr, rfl⟩ := Option.map_eq_some_iff.mp h
    have hput := hc.put (c := c) hroom
    obtain ⟨m, hm, hcarries, hwakes, -⟩ := hput.start turns hr
    -- there was room, so nobody slept before the call
    have hawake : ∀ q d, Function.update s.writer p .idle q ≠ .sleeping d := by
      intro q d hq
      rw [Function.update_apply] at hq
      split at hq
      · cases hq
      · exact hroom (I.sleeping q d hq)
    refine ⟨⟨m, ?_⟩, fun q d hq => ?_⟩
    · unfold started
      split
      · exact hcarries
      · exact hcarries
    · unfold started at hq
      split at hq
      · exact absurd hq (wakeup_awake _ q d)
      · exact absurd hq (hawake q d)

theorem Inv.step (I : s.Inv) (h : Step s s') : s'.Inv := by
  obtain ⟨n, hc⟩ := I.carries
  cases h with
  | call _ h => exact I.putChar h
  | resume _ h => exact I.putChar h
  | interrupt h =>
    obtain ⟨m, hm, hcarries, hwakes, -⟩ := hc.start _ h
    exact started_inv hc I.sleeping hcarries hm hwakes
  | transmit => exact ⟨⟨n, hc.transmit⟩, I.sleeping⟩
  | signal hp =>
    refine ⟨⟨n, hc⟩, fun q d h => ?_⟩
    simp only [Function.update_apply] at h
    split at h
    · cases h
    · exact I.sleeping q d h

theorem Reached.inv (hr : Reached s) : s.Inv := by
  induction hr with
  | init buf => exact ⟨⟨0, rfl, rfl, Nat.zero_le _, rfl⟩, fun p c h => nomatch h⟩
  | step _ h ih => exact ih.step h

omit [DecidableEq π] in
theorem started_tx (r : UartTx × Bool) :
    (s.started r).tx = r.1 ∧ (s.started r).accepted = s.accepted := by
  unfold started
  split <;> exact ⟨rfl, rfl⟩

omit [DecidableEq π] in
theorem started_idle (r : UartTx × Bool) {p : π} (h : s.writer p = .idle) :
    (s.started r).writer p = .idle := by
  unfold started
  split
  · simp only [wakeup, h]
  · exact h

/-- A turn of `put_char` that finds room returns. -/
theorem putChar_returns {n : Nat} (hc : s.tx.Carries n s.accepted) (hroom : ¬s.tx.full = true)
    (p : π) (c : UInt8) {turns : List Bool} (hturns : uartBufSize < turns.length) :
    ∃ s', s.putChar p c turns = some s' ∧ s'.writer p = .idle ∧ s'.accepted =
      s.accepted ++ [c] := by
  have hput := hc.put (c := c) hroom
  obtain ⟨r, hr⟩ := hput.start_ends turns (Nat.lt_of_le_of_lt hput.le hturns)
  unfold UartOutput.putChar
  rw [if_neg hroom, hr]
  exact ⟨_, rfl, started_idle r (Function.update_self ..), (started_tx r).2⟩

/-- What the output promises in a state. -/
structure OutputSafe (s : UartOutput π) : Prop where
  /-- The line, the register and the buffer between `_rd_idx` and `_wr_idx` hold what the calls of
  `put_char` that have returned were given, in their order. -/
  fifo : s.tx.line ++ s.tx.thr.toList ++ s.tx.pending = s.accepted
  bounded : s.tx.pending.length ≤ uartBufSize
  /-- Writers sleep only while the buffer is full. -/
  sleeping : ∀ p c, s.writer p = .sleeping c → s.tx.full = true
  /-- `_start` ends: at most 1024 characters are moved. -/
  ends : ∀ turns : List Bool, uartBufSize < turns.length → ∃ r,
    UartTx.start turns s.tx = some r
  /-- A turn of `put_char` stores the character and returns, or the buffer is full and it sleeps. -/
  puts : ∀ p c (turns : List Bool), uartBufSize < turns.length → ∃ s',
    s.putChar p c turns = some s' ∧
    if s.tx.full then s' = { s with writer := Function.update s.writer p (.sleeping c) }
    else s'.writer p = .idle ∧ s'.accepted = s.accepted ++ [c]
  /-- After an interrupt that finds the register empty nobody sleeps, all characters have been moved
  or the register is not empty, and the `put_char` that has the next turn returns. -/
  wakes : ∀ turns r, s.tx.thr = none → UartTx.start turns s.tx = some r →
    (∀ p c, (s.started r).writer p ≠ .sleeping c) ∧
      (r.1.wrIdx = r.1.rdIdx ∨ r.1.thr ≠ none) ∧ ∀ p c (turns' : List Bool),
        uartBufSize < turns'.length → ∃ s', (s.started r).putChar p c turns' = some s' ∧
          s'.writer p = .idle ∧ s'.accepted = s.accepted ++ [c]

/-- In every reachable state, whatever the order of the steps of writers, handler and device, no
character is lost, repeated or out of order, and no writer sleeps while there is room. -/
theorem uart_output_safe (hr : Reached s) : OutputSafe s := by
  have I := hr.inv
  obtain ⟨n, hc⟩ := I.carries
  have hle := hc.le
  refine ⟨?_, ?_, I.sleeping,
    fun turns hturns => hc.start_ends turns (Nat.lt_of_le_of_lt hle hturns),
    fun p c turns hturns => ?_, fun turns r hthr hrun => ?_⟩
  · rw [hc.pending_eq]
    exact hc.all
  · rw [hc.pending_eq, UartTx.queued, window_length]
    exact hle
  · by_cases hfull : s.tx.full = true
    · refine ⟨_, ?_, by rw [if_pos hfull]⟩
      unfold UartOutput.putChar
      rw [if_pos hfull]
    · obtain ⟨s', hput, hwriter, haccepted⟩ := putChar_returns hc hfull p c hturns
      refine ⟨s', hput, ?_⟩
      rw [if_neg hfull]
      exact ⟨hwriter, haccepted⟩
  · obtain ⟨m, hm, hcarries, hwakes, hend, hmoves⟩ := hc.start turns hrun
    obtain ⟨htx, haccepted⟩ := started_tx (s := s) r
    refine ⟨fun p c hsleep => ?_, ?_, fun p c turns' hturns' => ?_⟩
    · unfold started at hsleep
      split at hsleep
      · exact wakeup_awake _ p c hsleep
      · rename_i hno
        -- a sleeper means a full buffer, and the first turn takes a character from it
        have hfull := hc.full_iff.mp (I.sleeping p c hsleep)
        exact hno (hmoves hthr (by rw [hfull]; decide))
    · rcases hend with hzero | hbusy
      · exact .inl (hcarries.empty_iff.mpr hzero)
      · exact .inr hbusy
    · have hroom : ¬(s.started r).tx.full = true := by
        rw [htx, hcarries.full_iff]
        rcases Nat.eq_zero_or_pos n with hzero | hpos
        · have hplaces : uartBufSize = 1024 := rfl
          omega
        · have := hwakes.mp (hmoves hthr hpos)
          omega
      rw [← haccepted]
      exact putChar_returns (by rw [htx, haccepted]; exact hcarries) hroom p c hturns'

/-- Characters are put until `n` are in the buffer, while the device does not take the first. -/
theorem exists_filled (n : Nat) (hn : n ≤ uartBufSize) : ∃ s : UartOutput (Fin 2), Reached s ∧
    s.tx.Carries n s.accepted ∧ s.tx.thr ≠ none ∧ ∀ p, s.writer p = .idle := by
  induction n with
  | zero =>
    obtain ⟨s, hs, hc, hthr, hidle⟩ : ∃ s : UartOutput (Fin 2),
        (init fun _ => 0).putChar 0 65 [false, false] = some s ∧ s.tx.Carries 0 s.accepted ∧
          s.tx.thr = some 65 ∧ ∀ p, s.writer p = .idle := by
      refine ⟨_, rfl, ⟨rfl, rfl, Nat.zero_le _, rfl⟩, rfl, fun p => started_idle _ ?_⟩
      simp only [init, Function.update_apply, ite_self]
    exact ⟨s, .step (.init fun _ => 0) (.call rfl hs), hc, by rw [hthr]; simp, hidle⟩
  | succ n ih =>
    obtain ⟨s, hr, hc, hthr, hidle⟩ := ih (Nat.le_of_succ_le hn)
    have hroom : ¬s.tx.full = true := by
      rw [hc.full_iff]
      omega
    obtain ⟨d, hd⟩ := Option.ne_none_iff_exists'.mp hthr
    have hput := hc.put (c := 66) hroom
    have hmore : (s.tx.put 66).wrIdx ≠ (s.tx.put 66).rdIdx :=
      mt hput.empty_iff.mp (Nat.succ_ne_zero n)
    have hbusy : (s.tx.put 66).thr = some d := hd
    have hcall : s.putChar 0 66 [false] = some
        ⟨s.tx.put 66, Function.update s.writer 0 .idle, s.accepted ++ [66]⟩ := by
      unfold putChar
      rw [if_neg hroom]
      simp only [UartTx.start, Bool.false_eq_true, if_false, if_neg hmore, hbusy, Option.map_some,
        started]
    refine ⟨_, hr.step (.call (hidle 0) hcall), hput, hthr, fun p => ?_⟩
    simp only [Function.update_apply, hidle p, ite_self]

omit [DecidableEq π] in
/-- A sleeper that does not sleep after `_start` has been woken. -/
theorem started_woken (r : UartTx × Bool) {p : π} {c : UInt8} (h : s.writer p = .sleeping c)
    (hawake : (s.started r).writer p ≠ .sleeping c) : (s.started r).writer p = .woken c := by
  unfold started at hawake ⊢
  split
  · simp only [wakeup, h]
  · rename_i hno
    rw [if_neg hno] at hawake
    exact absurd h hawake

/-- The buffer is full and a writer sleeps; the device takes a character and interrupts, and the
writer returns. -/
theorem uart_output_safe_sample : ∃ s s' : UartOutput (Fin 2), s.writer 1 = .sleeping 67 ∧
    s.tx.pending.length = 1024 ∧ OutputSafe s ∧
    s'.writer 1 = .idle ∧ s'.accepted = s.accepted ++ [67] ∧ OutputSafe s' := by
  obtain ⟨s₀, hr₀, hc₀, hthr₀, hidle₀⟩ := exists_filled uartBufSize (Nat.le_refl _)
  have hfull := hc₀.full_iff.mpr rfl
  have hcall : s₀.putChar 1 67 [] =
      some { s₀ with writer := Function.update s₀.writer 1 (.sleeping 67) } := by
    unfold putChar
    rw [if_pos hfull]
  have hr₁ := hr₀.step (.call (hidle₀ 1) hcall)
  have hsleep : Function.update s₀.writer 1 (.sleeping 67) 1 = .sleeping 67 :=
    Function.update_self ..
  -- the device takes the character, and the interrupt finds the register empty
  have hr₂ := hr₁.step .transmit
  have hturns : uartBufSize < (List.replicate 1025 false).length := by
    rw [List.length_replicate]
    decide
  obtain ⟨r, hrun⟩ := hc₀.transmit.start_ends _ hturns
  obtain ⟨hawake, -, hnext⟩ := (uart_output_safe hr₂).wakes _ r rfl hrun
  have hr₃ := hr₂.step (.interrupt hrun)
  have hwoken := started_woken r hsleep (hawake 1 67)
  obtain ⟨s', hput, hwriter, haccepted⟩ := hnext 1 67 _ hturns
  have hr₄ := hr₃.step (.resume hwoken hput)
  refine ⟨_, s', hsleep, ?_, uart_output_safe hr₁, hwriter, ?_, uart_output_safe hr₄⟩
  · change s₀.tx.pending.length = 1024
    rw [hc₀.pending_eq, UartTx.queued, window_length]
    rfl
  · exact haccepted

end UartOutput

end OsKernel.Hsai

import OsKernel.Hsai.UartOutput

/-! The input of `UartNs16550`.  The interrupt handler stores the characters of the device in a
buffer of 1024 places without the lock, and `get_char` takes them out of it: it counts the character
as taken before it reads its place, and the handler may run in between. -/

namespace OsKernel.Hsai

/-- The fields for the input.  The others are history: the characters that the handler has stored,
whether a `get_char` has counted its character and not read it yet, the characters that `get_char`
has given, and whether the buffer was full when it read each of them. -/
structure UartInput where
  readBuf : Nat → UInt8
  readFront : Nat
  readTail : Nat
  received : List UInt8
  taking : Bool
  delivered : List UInt8
  late : List Bool

namespace UartInput

variable (s : UartInput)

/-- `_read_buffer_full`. -/
def readBufferFull : Bool := s.readFront = (s.readTail + uartBufSize) % ulongSize

/-- `_read_buffer_empty`. -/
def readBufferEmpty : Bool := s.readFront = s.readTail

/-- `_read_buffer_put`. -/
def readBufferPut (c : UInt8) : UartInput :=
  { s with
    readBuf := Function.update s.readBuf (s.readFront % uartBufSize) c
    readFront := (s.readFront + 1) % ulongSize
    received := s.received ++ [c] }

/-- `_read_buffer_get` up to the increment. -/
def count : UartInput := { s with readTail := (s.readTail + 1) % ulongSize, taking := true }

/-- The character that `_read_buffer_get` reads behind its increment. -/
def readPlace : UInt8 := s.readBuf ((s.readTail + (ulongSize - 1)) % ulongSize % uartBufSize)

/-- The rest of `_read_buffer_get`. -/
def readChar : UartInput :=
  { s with
    taking := false
    delivered := s.delivered ++ [s.readPlace]
    late := s.late ++ [s.readBufferFull] }

/-- What the handler and the one reader do.  With a full buffer the character stays in the device,
and with an empty one `get_char` gives none. -/
inductive Step : UartInput → UartInput → Prop
  | receive {s : UartInput} {c : UInt8} (h : s.readBufferFull = false) : Step s (s.readBufferPut c)
  | count {s : UartInput} (hidle : s.taking = false) (h : s.readBufferEmpty = false) :
    Step s s.count
  | read {s : UartInput} (htaking : s.taking = true) : Step s s.readChar

/-- A UART that has received nothing. -/
def init (readBuf : Nat → UInt8) : UartInput := ⟨readBuf, 0, 0, [], false, [], []⟩

inductive Reached : UartInput → Prop
  | init (readBuf : Nat → UInt8) : Reached (init readBuf)
  | step {s s' : UartInput} (hr : Reached s) (h : Step s s') : Reached s'

/-- The number of characters that have been counted as taken. -/
def taken : Nat := s.delivered.length + s.taking.toNat

/-- The character that is given as the one with number `k`, by its place among those received. -/
def source (k : Nat) : Nat := if s.late[k]? = some true then k + uartBufSize else k

structure Inv (s : UartInput) : Prop where
  front : s.readFront = s.received.length % ulongSize
  tail : s.readTail = s.taken % ulongSize
  le : s.taken ≤ s.received.length ∧ s.received.length ≤ s.taken + uartBufSize
  places : ∀ i, i < s.received.length → s.received.length ≤ i + uartBufSize →
    s.received[i]? = some (s.readBuf (i % uartBufSize))
  late : s.late.length = s.delivered.length
  delivered : ∀ k, k < s.delivered.length → s.delivered[k]? = s.received[s.source k]?
  source_lt : ∀ k, k < s.delivered.length → s.source k < s.received.length

variable {s}

theorem Inv.full_iff (I : s.Inv) :
    s.readBufferFull = true ↔ s.received.length = s.taken + uartBufSize := by
  have hle := I.le
  rw [readBufferFull, decide_eq_true_iff, I.front, I.tail]
  unfold uartBufSize ulongSize at *
  omega

theorem Inv.empty_iff (I : s.Inv) : s.readBufferEmpty = true ↔ s.received.length = s.taken := by
  have hle := I.le
  rw [readBufferEmpty, decide_eq_true_iff, I.front, I.tail]
  unfold uartBufSize ulongSize at *
  omega

theorem Inv.receive (I : s.Inv) {c : UInt8} (hroom : s.readBufferFull = false) :
    (s.readBufferPut c).Inv := by
  have hle := I.le
  have hlen : (s.readBufferPut c).received.length = s.received.length + 1 := List.length_append
  have hlt : s.received.length < s.taken + uartBufSize := by
    have := mt I.full_iff.mpr (by rw [hroom]; simp)
    omega
  have hdvd : uartBufSize ∣ ulongSize := ⟨2 ^ 54, rfl⟩
  have hold : ∀ i, i < s.received.length → (s.readBufferPut c).received[i]? = s.received[i]? :=
    fun i hi => List.getElem?_append_left hi
  refine ⟨?_, I.tail, ?_, fun i hi hrecent => ?_, I.late, fun k hk => ?_, fun k hk => ?_⟩
  · change (s.readFront + 1) % ulongSize = _
    rw [hlen, I.front, Nat.mod_add_mod]
  · rw [hlen]
    change s.taken ≤ _ ∧ _ ≤ s.taken + uartBufSize
    omega
  · rw [hlen] at hi hrecent
    change _ = some (Function.update s.readBuf (s.readFront % uartBufSize) c (i % uartBufSize))
    have hat : s.readFront % uartBufSize = s.received.length % uartBufSize := by
      rw [I.front, Nat.mod_mod_of_dvd _ hdvd]
    rw [hat]
    by_cases hnew : i = s.received.length
    · subst hnew
      rw [Function.update_self]
      exact List.getElem?_concat_length
    · rw [hold i (by omega), I.places i (by omega) (by omega), Function.update_of_ne]
      unfold uartBufSize at *
      omega
  · change s.delivered[k]? = (s.readBufferPut c).received[s.source k]?
    rw [hold _ (I.source_lt k hk)]
    exact I.delivered k hk
  · rw [hlen]
    exact Nat.lt_succ_of_lt (I.source_lt k hk)

theorem Inv.count (I : s.Inv) (hidle : s.taking = false) (hmore : s.readBufferEmpty = false) :
    s.count.Inv := by
  have hle := I.le
  have hne := mt I.empty_iff.mpr (by rw [hmore]; simp)
  have htaken : s.count.taken = s.taken + 1 := by
    simp [taken, UartInput.count, hidle]
  refine ⟨I.front, ?_, ?_, I.places, I.late, I.delivered, I.source_lt⟩
  · change (s.readTail + 1) % ulongSize = _
    rw [htaken, I.tail, Nat.mod_add_mod]
  · rw [htaken]
    change _ ≤ s.received.length ∧ s.received.length ≤ _
    omega

/-- What is read is the next character, or the one 1024 characters later if the buffer is full. -/
theorem Inv.readPlace (I : s.Inv) (htaking : s.taking = true) :
    some s.readPlace =
      s.received[s.delivered.length + if s.readBufferFull then uartBufSize else 0]? := by
  have hle := I.le
  have htaken : s.taken = s.delivered.length + 1 := by
    simp [taken, htaking]
  have hplace : s.readPlace = s.readBuf (s.delivered.length % uartBufSize) := by
    have hat : ((s.delivered.length + 1) % ulongSize + (ulongSize - 1)) % ulongSize % uartBufSize =
        s.delivered.length % uartBufSize := by
      unfold uartBufSize ulongSize
      omega
    rw [UartInput.readPlace, I.tail, htaken, hat]
  rw [hplace]
  split
  · rename_i hfull
    have hlen := I.full_iff.mp hfull
    have hpos : 1 ≤ uartBufSize := by decide
    rw [I.places (s.delivered.length + uartBufSize) (by omega) (by omega), Nat.add_mod_right]
  · rename_i hroom
    have hlen : s.received.length ≠ s.taken + uartBufSize := fun heq => hroom (I.full_iff.mpr heq)
    have hrecent : s.received.length ≤ s.delivered.length + uartBufSize := by omega
    rw [Nat.add_zero, I.places s.delivered.length (by omega) hrecent]

theorem Inv.read (I : s.Inv) (htaking : s.taking = true) : s.readChar.Inv := by
  have hle := I.le
  have htaken : s.taken = s.delivered.length + 1 := by
    simp [taken, htaking]
  have hlen : s.readChar.delivered.length = s.delivered.length + 1 := List.length_append
  have hsame : s.readChar.taken = s.taken := by
    rw [htaken]
    simp [taken, UartInput.readChar]
  have hold : ∀ k, k < s.delivered.length → s.readChar.source k = s.source k := by
    intro k hk
    have : s.readChar.late[k]? = s.late[k]? := List.getElem?_append_left (by rw [I.late]; exact hk)
    rw [source, source, this]
  have hnew : s.readChar.source s.delivered.length =
      s.delivered.length + if s.readBufferFull then uartBufSize else 0 := by
    have : s.readChar.late[s.delivered.length]? = some s.readBufferFull := by
      rw [← I.late]
      exact List.getElem?_concat_length
    rw [source, this]
    cases s.readBufferFull
    · rfl
    · rfl
  refine ⟨I.front, ?_, ?_, I.places, ?_, fun k hk => ?_, fun k hk => ?_⟩
  · rw [hsame]
    exact I.tail
  · rw [hsame]
    exact hle
  · rw [hlen, ← I.late]
    exact List.length_append
  · by_cases hlast : k = s.delivered.length
    · subst hlast
      rw [hnew]
      change (s.delivered ++ [s.readPlace])[s.delivered.length]? = _
      rw [List.getElem?_concat_length, I.readPlace htaking]
      rfl
    · rw [hold k (by omega)]
      change (s.delivered ++ [s.readPlace])[k]? = _
      rw [List.getElem?_append_left (by omega)]
      exact I.delivered k (by omega)
  · by_cases hlast : k = s.delivered.length
    · subst hlast
      rw [hnew]
      change _ < s.received.length
      split
      · rename_i hfull
        have := I.full_iff.mp hfull
        omega
      · omega
    · rw [hold k (by omega)]
      exact I.source_lt k (by omega)

theorem Reached.inv (hr : Reached s) : s.Inv := by
  induction hr with
  | init readBuf =>
    exact ⟨rfl, rfl, ⟨Nat.le_refl 0, Nat.zero_le _⟩,
      fun i hi => absurd hi (Nat.not_lt_zero i), rfl,
      fun k hk => absurd hk (Nat.not_lt_zero k), fun k hk => absurd hk (Nat.not_lt_zero k)⟩
  | step _ h ih =>
    cases h with
    | receive h => exact ih.receive h
    | count hidle h => exact ih.count hidle h
    | read htaking => exact ih.read htaking

/-- In every reachable state `get_char` has given each character that the handler has stored,
in their order, but for those that it read while the buffer was full: instead of such a one it
has given the one stored 1024 characters later.  So nothing is lost or repeated just where
these are equal. -/
theorem uart_input_order (hr : Reached s) :
    (∀ k, k < s.delivered.length → s.delivered[k]? = s.received[s.source k]?) ∧
      s.received.length ≤ s.taken + uartBufSize ∧
      (s.delivered <+: s.received ↔ ∀ k, s.late[k]? = some true →
        s.received[k + uartBufSize]? = s.received[k]?) := by
  have I := hr.inv
  refine ⟨I.delivered, I.le.2, ?_⟩
  have hle : s.delivered.length ≤ s.received.length := by
    have := I.le.1
    unfold taken at this
    omega
  rw [List.prefix_iff_getElem?]
  constructor
  · intro hpre k hlate
    have hk : k < s.delivered.length := by
      rw [← I.late]
      exact (List.getElem?_eq_some_iff.mp hlate).1
    have hread := I.delivered k hk
    rw [source, if_pos hlate] at hread
    rw [← hread, hpre k hk, List.getElem?_eq_getElem hk]
  · intro hlate k hk
    rw [← List.getElem?_eq_getElem hk, I.delivered k hk, source]
    split
    · rename_i hwas
      exact (hlate k hwas).symm
    · rfl

/-- While a `get_char` is between its two steps the handler stores `n` characters more. -/
theorem exists_overtaken (n : Nat) (hn : n ≤ uartBufSize) : ∃ s : UartInput, Reached s ∧
    s.taking = true ∧ s.delivered = [] ∧ s.late = [] ∧
      s.received = 65 :: List.replicate n 66 := by
  induction n with
  | zero =>
    exact ⟨_, ((Reached.init fun _ => 0).step (.receive (c := 65) rfl)).step (.count rfl rfl),
      rfl, rfl, rfl, rfl⟩
  | succ n ih =>
    obtain ⟨s, hr, htaking, hdelivered, hlate, hreceived⟩ := ih (Nat.le_of_succ_le hn)
    have hroom : s.readBufferFull = false := by
      refine Bool.eq_false_iff.mpr fun hfull => ?_
      have hlen := hr.inv.full_iff.mp hfull
      rw [taken, hdelivered, htaking, hreceived, List.length_cons, List.length_replicate] at hlen
      rw [List.length_nil, Bool.toNat_true] at hlen
      omega
    refine ⟨_, hr.step (.receive (c := 66) hroom), htaking, hdelivered, hlate, ?_⟩
    change s.received ++ [66] = _
    rw [hreceived, List.cons_append, List.replicate_succ']

/-- Between the two steps of the first `get_char` the buffer fills up: it gives the character stored
1024 later.  The second one gives its own. -/
theorem uart_input_order_sample : ∃ s : UartInput, s.late = [true, false] ∧
    s.received.length = 1025 ∧ s.received[0]? = some 65 ∧
    s.delivered[0]? = some 66 ∧ s.delivered[1]? = s.received[1]? ∧
    ¬s.delivered <+: s.received := by
  obtain ⟨s, hr, htaking, hdelivered, hlate, hreceived⟩ :=
    exists_overtaken uartBufSize (Nat.le_refl _)
  have hlen : s.received.length = 1025 := by
    rw [hreceived, List.length_cons, List.length_replicate]
    rfl
  have htaken : s.taken = 1 := by
    rw [taken, hdelivered, htaking]
    rfl
  have hfull : s.readBufferFull = true := hr.inv.full_iff.mpr (by rw [hlen, htaken]; rfl)
  have hr₁ := hr.step (.read htaking)
  have hmore : s.readChar.readBufferEmpty = false := by
    refine Bool.eq_false_iff.mpr fun hempty => ?_
    have heq := hr₁.inv.empty_iff.mp hempty
    change s.received.length = (s.delivered ++ [s.readPlace]).length + 0 at heq
    rw [hlen, hdelivered] at heq
    exact absurd heq (by simp)
  have hr₂ := hr₁.step (.count rfl hmore)
  have hroom : s.readChar.count.readBufferFull = false := by
    refine Bool.eq_false_iff.mpr fun hagain => ?_
    have heq := hr₂.inv.full_iff.mp hagain
    change s.received.length = (s.delivered ++ [s.readPlace]).length + 1 + uartBufSize at heq
    rw [hlen, hdelivered] at heq
    exact absurd heq (by simp [uartBufSize])
  have hr₃ := hr₂.step (.read rfl)
  obtain ⟨hgiven, -, hprefix⟩ := uart_input_order hr₃
  have hlate₃ : s.readChar.count.readChar.late = [true, false] := by
    change s.late ++ [s.readBufferFull] ++ [s.readChar.count.readBufferFull] = _
    rw [hlate, hfull, hroom]
    rfl
  have hcount : s.readChar.count.readChar.delivered.length = 2 := by
    change (s.delivered ++ [s.readPlace] ++ [s.readChar.count.readPlace]).length = 2
    rw [hdelivered]
    rfl
  have hreceived₃ : s.readChar.count.readChar.received = s.received := rfl
  have hfirst := hgiven 0 (by rw [hcount]; decide)
  have hsecond := hgiven 1 (by rw [hcount]; decide)
  rw [source, hlate₃, hreceived₃] at hfirst hsecond
  have hlast : s.received[0 + uartBufSize]? = some 66 := by
    rw [hreceived, show 0 + uartBufSize = 1023 + 1 from rfl, List.getElem?_cons_succ]
    exact List.getElem?_replicate_of_lt (by decide)
  have hstart : s.received[0]? = some 65 := by
    rw [hreceived]
    rfl
  refine ⟨_, hlate₃, hlen, hstart, hfirst.trans hlast, hsecond, fun hpre => ?_⟩
  have heq := hprefix.mp hpre 0 (by rw [hlate₃]; rfl)
  rw [hreceived₃, hlast, hstart] at heq
  exact absurd heq (by decide)

end UartInput

end OsKernel.Hsai

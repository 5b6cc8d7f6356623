import Mathlib.Data.List.Forall2
import OsKernel.Lib.CircularBuffer

/-! `Pipe`: a bounded queue of bytes between writers and readers.  Each stretch that a process runs
under the lock of the pipe, from `acquire` or the return of `sleep` to `release` or the next
`sleep`, is one step. -/

namespace OsKernel.Pm.Ipc

open Lib

/-! ### `PipeBuffer` -/

/-- `PIPE_BUF_SIZE`. -/
def pipeBufSize : Nat := 4096

abbrev PipeBuffer := CircularBuffer UInt8 pipeBufSize

namespace PipeBuffer

variable (b : PipeBuffer)

def full : Bool := b.size = pipeBufSize

def empty : Bool := b.size = 0

theorem full_iff : full b = true ↔ b.size = pipeBufSize := decide_eq_true_iff

theorem empty_iff : empty b = true ↔ b.size = 0 := decide_eq_true_iff

theorem size_lt (h : ¬full b = true) : b.size < pipeBufSize :=
  Nat.lt_of_le_of_ne b.size_le (mt (full_iff b).mpr h)

theorem size_pos (h : ¬empty b = true) : 0 < b.size :=
  Nat.pos_of_ne_zero (mt (empty_iff b).mpr h)

/-- `push`: a byte that does not fit is dropped. -/
def push (byte : UInt8) : PipeBuffer :=
  if h : full b = true then b else CircularBuffer.push b byte (size_lt b h)

def pop : PipeBuffer :=
  if h : empty b = true then b else CircularBuffer.pop b (size_pos b h)

def peek : UInt8 := if empty b then 0 else b.buf b.head

/-- The buffer of a new pipe, whose array holds any bytes. -/
def new (buf : Nat → UInt8) : PipeBuffer := ⟨buf, 0, 0, 0, by decide, by decide, rfl⟩

variable {b}

theorem toList_push (h : ¬full b = true) (byte : UInt8) :
    (push b byte).toList = b.toList ++ [byte] := by
  rw [push, dif_neg h, CircularBuffer.toList_push]

theorem toList_pop (h : ¬empty b = true) : b.toList = peek b :: (pop b).toList := by
  rw [peek, if_neg h, pop, dif_neg h]
  exact CircularBuffer.toList_eq_cons _

theorem toList_empty : empty b = true ↔ b.toList = [] := by
  rw [empty_iff, ← List.length_eq_zero_iff, CircularBuffer.length_toList]

end PipeBuffer

/-! ### The calls -/

/-- `Pipe`, without its lock. -/
structure Pipe where
  data : PipeBuffer
  readIsOpen : Bool
  writeIsOpen : Bool

/-- How a stretch of `write` or `read` ends: with a return, before which it wakes the other side or
not, or with a `sleep`.  A writer that sleeps has woken the readers and has pushed `i` bytes. -/
inductive Outcome where
  | ret (r : Int) (wakes : Bool)
  | sleep (i : Nat)

/-- The loop of `write` from byte `i` on, with `left` turns left: the pipe after it, the bytes
pushed, and how it ends.  `src i` is what `copy_in` gets for byte `i`, or `none` where it fails;
`write_in_kernel` always gets a byte. -/
def writeLoop (killed : Bool) (src : Nat → Option UInt8) :
    Nat → Pipe → Nat → Pipe × List UInt8 × Outcome
  | 0, p, i => (p, [], .ret i true)
  | left + 1, p, i =>
    if !p.readIsOpen || killed then (p, [], .ret (-1) false)
    else if p.data.full then (p, [], .sleep i)
    else match src i with
      | none => (p, [], .ret i true)
      | some ch =>
        let r := writeLoop killed src left { p with data := p.data.push ch } (i + 1)
        (r.1, ch :: r.2.1, r.2.2)

/-- The loop of `read` that takes bytes out, with `left` turns left. -/
def readLoop : Nat → PipeBuffer → PipeBuffer × List UInt8
  | 0, b => (b, [])
  | left + 1, b =>
    if b.empty then (b, [])
    else
      let r := readLoop left b.pop
      (r.1, b.peek :: r.2)

/-- A stretch of `read`. -/
def readStretch (killed : Bool) (n : Int) (p : Pipe) : Pipe × List UInt8 × Outcome :=
  if p.data.empty && p.writeIsOpen then
    if killed then (p, [], .ret (-1) false) else (p, [], .sleep 0)
  else
    let r := readLoop n.toNat p.data
    ({ p with data := r.1 }, r.2, .ret r.2.length true)

/-! ### Processes at a pipe -/

/-- The arguments of a write: what `copy_in` gets for each byte when its turn comes, and
the count. -/
structure WriteArgs where
  src : Nat → Option UInt8
  n : Int

/-- What a process does at the pipe: a write that has pushed `i` bytes, or a read of `n`, asleep on
`_write_sleep` or `_read_sleep` or woken from there. -/
inductive Activity where
  | idle
  | writing (args : WriteArgs) (i : Nat) (asleep : Bool)
  | reading (n : Int) (asleep : Bool)

/-- `wakeup( &_read_sleep )`, for one process. -/
def Activity.wakeReader : Activity → Activity
  | .reading n _ => .reading n false
  | a => a

/-- `wakeup( &_write_sleep )`, for one process. -/
def Activity.wakeWriter : Activity → Activity
  | .writing args i _ => .writing args i false
  | a => a

/-- A write that has returned. -/
structure WriteCall extends WriteArgs where
  result : Int

/-- The pipe and the processes at it.  `pushed` lists the bytes pushed so far with their writers,
`delivered` the bytes given to readers, and `returned` the writes of each process that have
returned. -/
structure PipeState (ι : Type) where
  pipe : Pipe
  killed : ι → Bool
  act : ι → Activity
  pushed : List (ι × UInt8)
  delivered : List UInt8
  returned : ι → List WriteCall

namespace PipeState

variable {ι : Type} [DecidableEq ι]

/-- The end of a stretch of a write by `w`. -/
def endWrite (s : PipeState ι) (w : ι) (args : WriteArgs) (r : Pipe × List UInt8 × Outcome) :
    PipeState ι :=
  { s with
    pipe := r.1
    act := match r.2.2 with
      | .ret _ true => Function.update (fun q => (s.act q).wakeReader) w .idle
      | .ret _ false => Function.update s.act w .idle
      | .sleep i => Function.update (fun q => (s.act q).wakeReader) w (.writing args i true)
    pushed := s.pushed ++ r.2.1.map (w, ·)
    returned := match r.2.2 with
      | .ret v _ => Function.update s.returned w (s.returned w ++ [⟨args, v⟩])
      | .sleep _ => s.returned }

/-- The end of a stretch of a read of `n` bytes by `q`. -/
def endRead (s : PipeState ι) (q : ι) (n : Int) (r : Pipe × List UInt8 × Outcome) :
    PipeState ι :=
  { s with
    pipe := r.1
    act := match r.2.2 with
      | .ret _ true => Function.update (fun q => (s.act q).wakeWriter) q .idle
      | .ret _ false => Function.update s.act q .idle
      | .sleep _ => Function.update s.act q (.reading n true)
    delivered := s.delivered ++ r.2.1 }

/-- No process is in a write. -/
def NoWriter (s : PipeState ι) : Prop := ∀ q args i a, s.act q ≠ .writing args i a

/-- No process is in a read. -/
def NoReader (s : PipeState ι) : Prop := ∀ q n a, s.act q ≠ .reading n a

end PipeState

/-- What a step does, with what a call returns. -/
inductive PipeEvent (ι : Type) where
  | write (w : ι) (o : Outcome)
  | read (q : ι) (n : Int) (o : Outcome)
  | close (isWrite : Bool)
  | kill (q : ι)

open PipeState in
inductive PipeStep {ι : Type} [DecidableEq ι] : PipeState ι → PipeEvent ι → PipeState ι →
    Prop
  | write {s : PipeState ι} {w : ι} {args : WriteArgs} {r : Pipe × List UInt8 × Outcome}
      (hidle : s.act w = .idle) (hopen : s.pipe.writeIsOpen = true)
      (hr : writeLoop (s.killed w) args.src args.n.toNat s.pipe 0 = r) :
      PipeStep s (.write w r.2.2) (s.endWrite w args r)
  | resumeWrite {s : PipeState ι} {w : ι} {args : WriteArgs} {i : Nat}
      {r : Pipe × List UInt8 × Outcome} (hact : s.act w = .writing args i false)
      (hr : writeLoop (s.killed w) args.src (args.n.toNat - i) s.pipe i = r) :
      PipeStep s (.write w r.2.2) (s.endWrite w args r)
  | read {s : PipeState ι} {q : ι} {n : Int} {r : Pipe × List UInt8 × Outcome}
      (hidle : s.act q = .idle) (hopen : s.pipe.readIsOpen = true)
      (hr : readStretch (s.killed q) n s.pipe = r) :
      PipeStep s (.read q n r.2.2) (s.endRead q n r)
  | resumeRead {s : PipeState ι} {q : ι} {n : Int} {r : Pipe × List UInt8 × Outcome}
      (hact : s.act q = .reading n false) (hr : readStretch (s.killed q) n s.pipe = r) :
      PipeStep s (.read q n r.2.2) (s.endRead q n r)
  | closeWrite {s : PipeState ι} (hopen : s.pipe.writeIsOpen = true) (hno : s.NoWriter) :
      PipeStep s (.close true) { s with
        pipe := { s.pipe with writeIsOpen := false }
        act := fun q => (s.act q).wakeReader }
  | closeRead {s : PipeState ι} (hopen : s.pipe.readIsOpen = true) (hno : s.NoReader) :
      PipeStep s (.close false) { s with
        pipe := { s.pipe with readIsOpen := false }
        act := fun q => (s.act q).wakeWriter }
  | kill {s : PipeState ι} {q : ι} :
      PipeStep s (.kill q) { s with killed := Function.update s.killed q true }

/-- The states that a new pipe can reach. -/
inductive PipeReach {ι : Type} [DecidableEq ι] : PipeState ι → Prop
  | init (buf : Nat → UInt8) (killed : ι → Bool) :
      PipeReach ⟨⟨PipeBuffer.new buf, true, true⟩, killed, fun _ => .idle, [], [],
        fun _ => []⟩
  | step {s s' : PipeState ι} {e : PipeEvent ι} (h : PipeReach s) (hs : PipeStep s e s') :
      PipeReach s'

/-! ### The bytes of the calls

A writer hands over the bytes of its calls, in the order of the calls and of the bytes in each:
what a call has given is said by its arguments and by what it returned, not by the bytes that
were pushed. -/

/-- `bytes` are the first `k` bytes of the write. -/
def WriteArgs.Given (args : WriteArgs) (k : Nat) (bytes : List UInt8) : Prop :=
  k ≤ args.n.toNat ∧ bytes.map some = (List.range k).map args.src

/-- `bytes` are what the call has given: as many as it returned, all of them unless `copy_in` failed
at the next one, or after a failure some first ones. -/
def WriteCall.Gave (c : WriteCall) (bytes : List UInt8) : Prop :=
  ∃ k, c.Given k bytes ∧
    (c.result = k ∧ (k = c.n.toNat ∨ c.src k = none) ∨ c.result = -1)

/-- `bytes` are what a write has given that has not returned. -/
def Activity.Gave : Activity → List UInt8 → Prop
  | .writing args i _, bytes => args.Given i bytes
  | _, bytes => bytes = []

/-- `bytes` are what `w` has handed over. -/
def PipeState.Handed {ι : Type} (s : PipeState ι) (w : ι) (bytes : List UInt8) : Prop :=
  ∃ calls rest, List.Forall₂ WriteCall.Gave (s.returned w) calls ∧ (s.act w).Gave rest ∧
    bytes = calls.flatten ++ rest

theorem WriteArgs.Given.append {args : WriteArgs} {i : Nat} {bytes bytes' : List UInt8}
    (h : args.Given i bytes) (hle : i + bytes'.length ≤ args.n.toNat)
    (h' : bytes'.map some = (List.range' i bytes'.length).map args.src) :
    args.Given (i + bytes'.length) (bytes ++ bytes') := by
  refine ⟨hle, ?_⟩
  rw [List.map_append, h.2, h', ← List.map_append, List.range_eq_range', List.range_eq_range']
  congr 1
  rw [← List.range'_append_1, Nat.zero_add]

/-! ### One stretch -/

/-- What a stretch of `write` from byte `i` on, with `left` left, does to the pipe. -/
structure WriteSpec (killed : Bool) (src : Nat → Option UInt8) (left : Nat) (p : Pipe) (i : Nat)
    (r : Pipe × List UInt8 × Outcome) : Prop where
  readIsOpen : r.1.readIsOpen = p.readIsOpen
  writeIsOpen : r.1.writeIsOpen = p.writeIsOpen
  data : r.1.data.toList = p.data.toList ++ r.2.1
  bytes : r.2.1.map some = (List.range' i r.2.1.length).map src
  length : r.2.1.length ≤ left
  done : ∀ v, r.2.2 = .ret v true →
    v = (i + r.2.1.length : Nat) ∧ (r.2.1.length = left ∨ src (i + r.2.1.length) = none)
  refused : ∀ v, r.2.2 = .ret v false → v = -1 ∧ r.2.1 = [] ∧
    (!p.readIsOpen || killed) = true
  asleep : ∀ j, r.2.2 = .sleep j → j = i + r.2.1.length

theorem writeLoop_spec (killed : Bool) (src : Nat → Option UInt8) (left : Nat) (p : Pipe)
    (i : Nat) : WriteSpec killed src left p i (writeLoop killed src left p i) := by
  induction left generalizing p i with
  | zero =>
    refine ⟨rfl, rfl, (List.append_nil _).symm, rfl, Nat.le_refl _, fun v hv => ?_,
      fun v hv => (by cases hv), fun j hj => (by cases hj)⟩
    injection hv with hv
    exact ⟨hv.symm, .inl rfl⟩
  | succ left ih =>
    rw [writeLoop]
    by_cases hstop : (!p.readIsOpen || killed) = true
    · rw [if_pos hstop]
      refine ⟨rfl, rfl, (List.append_nil _).symm, rfl, Nat.zero_le _, fun v hv => (by cases hv),
        fun v hv => ?_, fun j hj => (by cases hj)⟩
      injection hv with hv
      exact ⟨hv.symm, rfl, hstop⟩
    rw [if_neg hstop]
    by_cases hfull : p.data.full = true
    · rw [if_pos hfull]
      refine ⟨rfl, rfl, (List.append_nil _).symm, rfl, Nat.zero_le _, fun v hv => (by cases hv),
        fun v hv => (by cases hv), fun j hj => ?_⟩
      injection hj with hj
      exact hj.symm
    rw [if_neg hfull]
    cases hch : src i with
    | none =>
      refine ⟨rfl, rfl, (List.append_nil _).symm, rfl, Nat.zero_le _, fun v hv => ?_,
        fun v hv => (by cases hv), fun j hj => (by cases hj)⟩
      injection hv with hv
      exact ⟨hv.symm, .inr hch⟩
    | some ch =>
      have h := ih { p with data := p.data.push ch } (i + 1)
      have hnext : ∀ l : List UInt8, i + (ch :: l).length = i + 1 + l.length :=
        fun l => by rw [List.length_cons]; omega
      refine ⟨h.readIsOpen, h.writeIsOpen, ?_, ?_, Nat.succ_le_succ h.length, fun v hv => ?_,
        fun v hv => absurd (h.refused v hv).2.2 hstop, fun j hj => ?_⟩
      · simp only [h.data, PipeBuffer.toList_push hfull, List.append_assoc, List.singleton_append]
      · simp only [List.length_cons, List.range'_succ, List.map_cons, hch, h.bytes]
      · obtain ⟨hv, hend⟩ := h.done v hv
        rw [hnext]
        exact ⟨hv, hend.imp_left fun hlen => congrArg Nat.succ hlen⟩
      · rw [hnext]
        exact h.asleep j hj

theorem readLoop_spec (left : Nat) (b : PipeBuffer) :
    b.toList = (readLoop left b).2 ++ (readLoop left b).1.toList ∧
      (readLoop left b).2.length ≤ left ∧
      ((readLoop left b).2 = [] → left = 0 ∨ b.empty = true) := by
  induction left generalizing b with
  | zero => exact ⟨rfl, Nat.le_refl _, fun _ => .inl rfl⟩
  | succ left ih =>
    rw [readLoop]
    by_cases hempty : b.empty = true
    · rw [if_pos hempty]
      exact ⟨rfl, Nat.zero_le _, fun _ => .inr hempty⟩
    · rw [if_neg hempty]
      obtain ⟨hlist, hlen, -⟩ := ih b.pop
      refine ⟨?_, Nat.succ_le_succ hlen, fun h => by cases h⟩
      rw [PipeBuffer.toList_pop hempty, hlist]
      rfl

/-- What a stretch of `read` does to the pipe. -/
structure ReadSpec (n : Int) (p : Pipe) (r : Pipe × List UInt8 × Outcome) : Prop where
  readIsOpen : r.1.readIsOpen = p.readIsOpen
  writeIsOpen : r.1.writeIsOpen = p.writeIsOpen
  data : p.data.toList = r.2.1 ++ r.1.data.toList
  result : ∀ v wakes, r.2.2 = .ret v wakes →
    v = -1 ∧ r.2.1 = [] ∨ v = r.2.1.length ∧ r.2.1.length ≤ n.toNat
  asleep : ∀ i, r.2.2 = .sleep i → p.data.empty = true ∧ p.writeIsOpen = true
  nothing : ∀ w, r.2.2 = .ret 0 w → 0 < n → p.data.empty = true ∧ p.writeIsOpen = false

theorem readStretch_spec (killed : Bool) (n : Int) (p : Pipe) :
    ReadSpec n p (readStretch killed n p) := by
  unfold readStretch
  by_cases hwait : (p.data.empty && p.writeIsOpen) = true
  · rw [if_pos hwait]
    rw [Bool.and_eq_true] at hwait
    cases killed with
    | true =>
      refine ⟨rfl, rfl, rfl, fun v w hv => ?_, fun i hi => (by cases hi),
        fun w hw _ => (by cases hw)⟩
      injection hv with hv
      exact .inl ⟨hv.symm, rfl⟩
    | false =>
      exact ⟨rfl, rfl, rfl, fun v w hv => (by cases hv), fun _ _ => hwait,
        fun w hw _ => (by cases hw)⟩
  · rw [if_neg hwait]
    obtain ⟨hdata, hlen, hnone⟩ := readLoop_spec n.toNat p.data
    refine ⟨rfl, rfl, hdata, fun v w hv => ?_, fun i hi => (by cases hi), fun w hw hn => ?_⟩
    · injection hv with hv
      exact .inr ⟨hv.symm, hlen⟩
    · simp only [Outcome.ret.injEq, Int.natCast_eq_zero, List.length_eq_zero_iff] at hw
      have hempty : p.data.empty = true := (hnone hw.1).resolve_left (by omega)
      rw [hempty, Bool.true_and, Bool.not_eq_true] at hwait
      exact ⟨hempty, hwait⟩

/-! ### All runs -/

structure PipeInv {ι : Type} [DecidableEq ι] (s : PipeState ι) : Prop where
  fifo : s.delivered ++ s.pipe.data.toList = s.pushed.map Prod.snd
  handed : ∀ w, s.Handed w ((s.pushed.filter (·.1 = w)).map Prod.snd)
  failed : ∀ w, ∀ c ∈ s.returned w, c.result = -1 →
    (!s.pipe.readIsOpen || s.killed w) = true
  asleep : ∀ q n, s.act q = .reading n true → s.pipe.data.empty = true ∧
    s.pipe.writeIsOpen = true

section

variable {ι : Type} [DecidableEq ι] {s s' : PipeState ι} {e : PipeEvent ι}

theorem Activity.wakeReader_ne (a : Activity) (n : Int) : a.wakeReader ≠ .reading n true := by
  cases a <;> simp [Activity.wakeReader]

theorem Activity.wakeWriter_reading {a : Activity} {n : Int} (h : a.wakeWriter = .reading n true) :
    a = .reading n true := by
  cases a with
  | idle => exact h
  | writing args i b => cases h
  | reading n b => exact h

theorem Activity.gave_wakeReader (a : Activity) : a.wakeReader.Gave = a.Gave := by
  cases a <;> rfl

theorem Activity.gave_wakeWriter (a : Activity) : a.wakeWriter.Gave = a.Gave := by
  cases a <;> rfl

omit [DecidableEq ι] in
theorem PipeState.Handed.congr {w : ι} {bytes : List UInt8} (h : s.Handed w bytes)
    (hret : s'.returned w = s.returned w) (hact : (s'.act w).Gave = (s.act w).Gave) :
    s'.Handed w bytes := by
  unfold PipeState.Handed
  rw [hret, hact]
  exact h

/-- A stretch of a write hands over the bytes that it pushes, and no other writer's. -/
theorem PipeState.Handed.endWrite {w : ι} {args : WriteArgs} {i : Nat}
    {r : Pipe × List UInt8 × Outcome} {calls : List (List UInt8)} {rest : List UInt8}
    (hr : WriteSpec (s.killed w) args.src (args.n.toNat - i) s.pipe i r)
    (hcalls : List.Forall₂ WriteCall.Gave (s.returned w) calls) (hrest : args.Given i rest) :
    (s.endWrite w args r).Handed w (calls.flatten ++ rest ++ r.2.1) := by
  have hlen := hr.length
  have hle := hrest.1
  have hgiven := hrest.append (by omega) hr.bytes
  obtain ⟨p', bytes, o⟩ := r
  cases o with
  | sleep j =>
    refine ⟨calls, rest ++ bytes, hcalls, ?_, List.append_assoc ..⟩
    simp only [PipeState.endWrite, Function.update_self, Activity.Gave, hr.asleep j rfl]
    exact hgiven
  | ret v wakes =>
    have hgave : WriteCall.Gave ⟨args, v⟩ (rest ++ bytes) := by
      refine ⟨i + bytes.length, hgiven, ?_⟩
      cases wakes with
      | false => exact .inr (hr.refused v rfl).1
      | true =>
        obtain ⟨hv, hend⟩ := hr.done v rfl
        have hall : bytes.length = args.n.toNat - i → i + bytes.length = args.n.toNat := by omega
        exact .inl ⟨hv, hend.imp_left hall⟩
    refine ⟨calls ++ [rest ++ bytes], [], ?_, ?_, ?_⟩
    · simp only [PipeState.endWrite, Function.update_self]
      exact List.rel_append hcalls (.cons hgave .nil)
    · cases wakes <;> simp only [PipeState.endWrite, Function.update_self, Activity.Gave]
    · rw [List.flatten_append, List.flatten_singleton, List.append_nil, List.append_assoc]

theorem PipeState.Handed.other {v w : ι} (hne : v ≠ w) {args : WriteArgs}
    {r : Pipe × List UInt8 × Outcome} {bytes : List UInt8} (h : s.Handed v bytes) :
    (s.endWrite w args r).Handed v bytes := by
  obtain ⟨p', pushed, o⟩ := r
  refine h.congr ?_ ?_
  · cases o with
    | sleep j => rfl
    | ret x wakes => exact Function.update_of_ne hne ..
  · cases o with
    | sleep j =>
      simp only [PipeState.endWrite, Function.update_of_ne hne]
      exact Activity.gave_wakeReader _
    | ret x wakes =>
      cases wakes with
      | false => simp only [PipeState.endWrite, Function.update_of_ne hne]
      | true =>
        simp only [PipeState.endWrite, Function.update_of_ne hne]
        exact Activity.gave_wakeReader _

theorem filter_pushed (bytes : List UInt8) (v w : ι) :
    ((bytes.map (w, ·)).filter (·.1 = v)).map Prod.snd = if v = w then bytes else [] := by
  by_cases hv : v = w
  · simp [List.filter_map, Function.comp_def, hv]
  · simp [List.filter_map, Function.comp_def, hv, Ne.symm hv]

namespace PipeInv

/-- A stretch of a write keeps the invariant: unless it pushes nothing, it wakes the readers. -/
theorem endWrite (I : PipeInv s) {w : ι} {args : WriteArgs} {i : Nat}
    {r : Pipe × List UInt8 × Outcome}
    (hr : WriteSpec (s.killed w) args.src (args.n.toNat - i) s.pipe i r)
    (hact : ∀ rest, (s.act w).Gave rest → args.Given i rest) :
      PipeInv (s.endWrite w args r) := by
  refine ⟨?_, fun v => ?_, fun v c hc hfail => ?_, fun q m hq => ?_⟩
  · simp only [PipeState.endWrite]
    rw [hr.data, ← List.append_assoc, I.fifo, List.map_append, List.map_map]
    congr 1
    exact (List.map_id' _).symm
  · have hpushed : (s.endWrite w args r).pushed = s.pushed ++ r.2.1.map (w, ·) := rfl
    rw [hpushed, List.filter_append, List.map_append, filter_pushed]
    by_cases hv : v = w
    · subst hv
      obtain ⟨calls, rest, hcalls, hrest, hbytes⟩ := I.handed v
      rw [if_pos rfl, hbytes]
      exact .endWrite hr hcalls (hact rest hrest)
    · rw [if_neg hv, List.append_nil]
      exact (I.handed v).other hv
  · have hopen : (s.endWrite w args r).pipe.readIsOpen = s.pipe.readIsOpen := hr.readIsOpen
    rw [hopen]
    obtain ⟨p', bytes, o⟩ := r
    cases o with
    | sleep j => exact I.failed v c hc hfail
    | ret x wakes =>
      by_cases hv : v = w
      · subst hv
        simp only [PipeState.endWrite, Function.update_self, List.mem_append, List.mem_singleton]
          at hc
        rcases hc with hc | rfl
        · exact I.failed v c hc hfail
        · cases wakes with
          | false => exact (hr.refused x rfl).2.2
          | true =>
            have := (hr.done x rfl).1
            simp only at hfail
            omega
      · simp only [PipeState.endWrite, Function.update_of_ne hv] at hc
        exact I.failed v c hc hfail
  · obtain ⟨p', bytes, o⟩ := r
    have hwoken : ∀ a, Function.update (fun q => (s.act q).wakeReader) w a q = .reading m true →
        a = .reading m true := by
      intro a ha
      rw [Function.update_apply] at ha
      split at ha
      · exact ha
      · exact absurd ha (Activity.wakeReader_ne _ _)
    cases o with
    | sleep j => cases hwoken _ hq
    | ret v wakes =>
      cases wakes with
      | true => cases hwoken _ hq
      | false =>
        obtain ⟨-, hnone, -⟩ := hr.refused v rfl
        have hold : s.act q = .reading m true := by
          simp only [PipeState.endWrite, Function.update_apply] at hq
          split at hq
          · cases hq
          · exact hq
        obtain ⟨hempty, hopen⟩ := I.asleep q m hold
        refine ⟨?_, hr.writeIsOpen.trans hopen⟩
        rw [PipeBuffer.toList_empty] at hempty ⊢
        exact hr.data.trans (by rw [hempty, hnone]; rfl)

/-- A reader hands over nothing. -/
theorem endRead (I : PipeInv s) {q : ι} {n : Int} {r : Pipe × List UInt8 × Outcome}
    (hr : ReadSpec n s.pipe r) (hact : (s.act q).Gave = (· = [])) : PipeInv (s.endRead q n r) := by
  have hdrain : s.pipe.data.empty = true → r.1.data.empty = true := by
    intro hempty
    rw [PipeBuffer.toList_empty] at hempty ⊢
    have := hr.data
    rw [hempty] at this
    exact (List.append_eq_nil_iff.mp this.symm).2
  refine ⟨?_, fun w => (I.handed w).congr rfl ?_, fun w c hc hfail => ?_, fun q' m hq => ?_⟩
  · simp only [PipeState.endRead]
    rw [List.append_assoc, ← hr.data, I.fifo]
  · obtain ⟨p', bytes, o⟩ := r
    by_cases hw : w = q
    · subst hw
      rw [hact]
      cases o with
      | sleep j => simp only [PipeState.endRead, Function.update_self]; rfl
      | ret v wakes => cases wakes <;> simp only [PipeState.endRead, Function.update_self] <;> rfl
    · cases o with
      | sleep j => simp only [PipeState.endRead, Function.update_of_ne hw]
      | ret v wakes =>
        cases wakes with
        | false => simp only [PipeState.endRead, Function.update_of_ne hw]
        | true =>
          simp only [PipeState.endRead, Function.update_of_ne hw]
          exact Activity.gave_wakeWriter _
  · have hopen : (s.endRead q n r).pipe.readIsOpen = s.pipe.readIsOpen := hr.readIsOpen
    rw [hopen]
    exact I.failed w c hc hfail
  · obtain ⟨p', bytes, o⟩ := r
    suffices hlook : s.pipe.data.empty = true ∧ s.pipe.writeIsOpen = true from
      ⟨hdrain hlook.1, hr.writeIsOpen.trans hlook.2⟩
    cases o with
    | sleep j => exact hr.asleep j rfl
    | ret v wakes =>
      refine I.asleep q' m ?_
      cases wakes with
      | true =>
        simp only [PipeState.endRead, Function.update_apply] at hq
        split at hq
        · cases hq
        · exact Activity.wakeWriter_reading hq
      | false =>
        simp only [PipeState.endRead, Function.update_apply] at hq
        split at hq
        · cases hq
        · exact hq

theorem step (I : PipeInv s) (h : PipeStep s e s') : PipeInv s' := by
  cases h with
  | write hidle _ hr =>
    subst hr
    refine I.endWrite (i := 0) (writeLoop_spec ..) fun rest hrest => ?_
    rw [hidle] at hrest
    exact ⟨Nat.zero_le _, by rw [show rest = [] from hrest]; rfl⟩
  | resumeWrite hact hr =>
    subst hr
    refine I.endWrite (writeLoop_spec ..) fun rest hrest => ?_
    rw [hact] at hrest
    exact hrest
  | read hidle _ hr =>
    subst hr
    exact I.endRead (readStretch_spec ..) (by rw [hidle]; rfl)
  | resumeRead hact hr =>
    subst hr
    exact I.endRead (readStretch_spec ..) (by rw [hact]; rfl)
  | closeWrite =>
    exact ⟨I.fifo, fun w => (I.handed w).congr rfl (Activity.gave_wakeReader _), I.failed,
      fun q n hq => absurd hq (Activity.wakeReader_ne _ _)⟩
  | closeRead =>
    exact ⟨I.fifo, fun w => (I.handed w).congr rfl (Activity.gave_wakeWriter _),
      fun _ _ _ _ => rfl, fun q n hq => I.asleep q n (Activity.wakeWriter_reading hq)⟩
  | @kill q =>
    refine ⟨I.fifo, fun w => (I.handed w).congr rfl rfl, fun w c hc hfail => ?_, I.asleep⟩
    by_cases hw : w = q
    · simp only [hw, Function.update_self, Bool.or_true]
    · simp only [Function.update_of_ne hw]
      exact I.failed w c hc hfail

end PipeInv

theorem PipeReach.inv (h : PipeReach s) : PipeInv s := by
  induction h with
  | init buf killed =>
    exact ⟨rfl, fun _ => ⟨[], [], .nil, rfl, rfl⟩, fun _ _ hc => absurd hc List.not_mem_nil,
      fun q n hq => by cases hq⟩
  | step _ hs ih => exact ih.step hs

/-- What a read that returns has taken. -/
structure ReadReturns (n v : Int) (s s' : PipeState ι) : Prop where
  bytes : v = -1 ∧ s'.delivered = s.delivered ∨
    ∃ taken, s'.delivered = s.delivered ++ taken ∧ v = taken.length ∧ taken.length ≤ n.toNat
  nothing : v = 0 → 0 < n → s'.pipe.data.empty = true ∧ s'.pipe.writeIsOpen = false

theorem PipeState.endRead_returns {q : ι} {n v : Int} {wakes : Bool}
    {r : Pipe × List UInt8 × Outcome} (hr : ReadSpec n s.pipe r) (ho : r.2.2 = .ret v wakes) :
    ReadReturns n v s (s.endRead q n r) := by
  constructor
  · rcases hr.result v wakes ho with ⟨hv, hnone⟩ | ⟨hv, hlen⟩
    · refine .inl ⟨hv, ?_⟩
      simp only [PipeState.endRead, hnone, List.append_nil]
    · exact .inr ⟨r.2.1, rfl, hv, hlen⟩
  · intro hv hn
    obtain ⟨hempty, hclosed⟩ := hr.nothing wakes (hv ▸ ho) hn
    refine ⟨?_, hr.writeIsOpen.trans hclosed⟩
    rw [PipeBuffer.toList_empty] at hempty ⊢
    have hdata := hr.data
    rw [hempty] at hdata
    exact (List.append_eq_nil_iff.mp hdata.symm).2

theorem PipeStep.read_returns {q : ι} {n v : Int} {wakes : Bool}
    (h : PipeStep s (.read q n (.ret v wakes)) s') : ReadReturns n v s s' := by
  generalize he : PipeEvent.read q n (.ret v wakes) = e at h
  cases h with
  | read _ _ hr =>
    subst hr
    injection he with h1 h2 h3
    subst h2
    exact PipeState.endRead_returns (readStretch_spec ..) h3.symm
  | resumeRead _ hr =>
    subst hr
    injection he with h1 h2 h3
    subst h2
    exact PipeState.endRead_returns (readStretch_spec ..) h3.symm
  | write => cases he
  | resumeWrite => cases he
  | closeWrite => cases he
  | closeRead => cases he
  | kill => cases he

/-- In every run the bytes come out in the order in which they went in, with at most
`pipeBufSize` of them in the pipe; those of a writer are what its calls have handed over, in its
own order, as many as each call returned; a read takes as many bytes as it returns, and of `n >
0` bytes none only at the end of the stream; and no reader sleeps while there is something to
read or nobody can write. -/
theorem pipe_lossless (s : PipeState ι) (h : PipeReach s) :
    s.delivered <+: s.pushed.map Prod.snd ∧
      s.pushed.length ≤ s.delivered.length + pipeBufSize ∧
      (∀ w, ∃ bytes, s.Handed w bytes ∧ (s.pushed.filter (·.1 = w)).map Prod.snd = bytes ∧
        ((s.pushed.take s.delivered.length).filter (·.1 = w)).map Prod.snd <+: bytes) ∧
      (∀ w, ∀ c ∈ s.returned w, c.result = -1 →
        s.pipe.readIsOpen = false ∨ s.killed w = true) ∧
      (∀ q n v wakes s', PipeStep s (.read q n (.ret v wakes)) s' → ReadReturns n v s s') ∧
      ∀ q n, s.act q = .reading n true →
        s.pipe.data.empty = true ∧ s.pipe.writeIsOpen = true := by
  have I := h.inv
  have hlen := congrArg List.length I.fifo
  rw [List.length_append, List.length_map, CircularBuffer.length_toList] at hlen
  have hcap := s.pipe.data.size_le
  refine ⟨⟨_,
    I.fifo⟩, by omega, fun w => ⟨_, I.handed w, rfl, ?_⟩, fun w c hc hfail => ?_,
    fun q n v wakes s' hs => hs.read_returns, I.asleep⟩
  · exact ((List.take_prefix _ _).filter _).map _
  · have hstop := I.failed w c hc hfail
    rw [Bool.or_eq_true, Bool.not_eq_true'] at hstop
    exact hstop

end

/-- Two writers and a reader: the first writes two bytes, one is read, the second writes one, and
the reader gets the rest. -/
theorem pipe_lossless_sample : ∃ s : PipeState (Fin 3), PipeReach s ∧
    s.delivered = [7, 8, 9] ∧ s.delivered <+: s.pushed.map Prod.snd ∧
    ∃ bytes, s.Handed 0 bytes ∧ (s.pushed.filter (·.1 = 0)).map Prod.snd = bytes := by
  have h₀ : @PipeReach (Fin 3) _ _ := .init (fun _ => 0) fun _ => false
  have h₁ := h₀.step (@PipeStep.write _ _ _ 0 ⟨fun i => [7, 8][i]?, 2⟩ _ rfl rfl rfl)
  have h₂ := h₁.step (.read (q := 2) (n := 1) rfl rfl rfl)
  have h₃ := h₂.step (@PipeStep.write _ _ _ 1 ⟨fun i => [9][i]?, 5⟩ _ rfl rfl rfl)
  have h₄ := h₃.step (.read (q := 2) (n := 4) rfl rfl rfl)
  obtain ⟨hfifo, -, hhanded, -⟩ := pipe_lossless _ h₄
  obtain ⟨bytes, hbytes, heq, -⟩ := hhanded 0
  exact ⟨_, h₄, rfl, hfifo, bytes, hbytes, heq⟩

end OsKernel.Pm.Ipc

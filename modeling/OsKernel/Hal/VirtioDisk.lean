import Mathlib.Logic.Function.Basic
import OsKernel.Klib.Fault

/-! The driver of `hal/riscv/qemu/virtio_disk.cc`.  A request takes three descriptors, which it
chains; the device reports the first of them in the used ring when it is done.  The stretches of
code under `vdisk_lock` are functions on the driver's state. -/

namespace OsKernel.Hal

/-- `NUM`: the number of descriptors and of places in each ring. -/
def num : Nat := 8

def vringDescFNext : Nat := 1

def vringDescFWrite : Nat := 2

structure VRingDesc where
  addr : Nat
  len : Nat
  flags : Nat
  next : Nat
  deriving DecidableEq

/-- What the driver keeps for the request with a first descriptor, whose buffer is `b`. -/
structure Info (β : Type) where
  b : Option β
  status : Nat
  wait : Bool

/-- `Disk`: the two rings, `avail[ 2 + i ]` and `avail[ 1 ]`, `used->elems[ i ].id` and `used->id`,
and the driver's own records. -/
structure Disk (β : Type) where
  desc : Nat → VRingDesc
  availRing : Nat → Nat
  availIdx : Nat
  usedElems : Nat → Nat
  usedId : Nat
  free : Nat → Bool
  usedIdx : Nat
  info : Nat → Info β

/-- The three descriptors of a request, `idx`. -/
structure Chain where
  head : Nat
  data : Nat
  status : Nat
  deriving DecidableEq, Inhabited

/-- The arguments of `virtio_disk_rw`: where its header is, its buffer, and the address of
the data. -/
structure Request (β : Type) where
  header : Nat
  bufList : β
  bufAddr : Nat
  blockCount : Nat
  write : Bool

namespace Disk

variable {β : Type}

/-- The state after the constructor. -/
def init : Disk β where
  desc := fun _ => ⟨0, 0, 0, 0⟩
  availRing := fun _ => 0
  availIdx := 0
  usedElems := fun _ => 0
  usedId := 0
  free := fun i => i < num
  usedIdx := 0
  info := fun _ => ⟨none, 0, false⟩

/-- `alloc_desc`. -/
def allocDesc (d : Disk β) : Option Nat × Disk β :=
  match (List.range num).find? d.free with
  | some i => (some i, { d with free := Function.update d.free i false })
  | none => (none, d)

/-- `free_desc`. -/
def freeDesc (d : Disk β) (i : Nat) : Except Fault (Disk β) :=
  if num ≤ i then .error (.panic "virtio_disk_intr 1")
  else if d.free i then .error (.panic "virtio_disk_intr 2")
  else .ok { d with
    desc := Function.update d.desc i { d.desc i with addr := 0 }
    free := Function.update d.free i true }

/-- `free_chain`.  A descriptor that is met again is free, so the loop ends within `num` turns or
panics. -/
def freeChain : Nat → Disk β → Nat → Except Fault (Disk β)
  | 0, _, _ => .error (.undefined "free_chain does not end")
  | turns + 1, d, i => do
    let d ← d.freeDesc i
    if (d.desc i).flags &&& vringDescFNext ≠ 0 then freeChain turns d (d.desc i).next
    else .ok d

/-- `alloc3_desc`, with its loop of three turns written out. -/
def alloc3Desc (d : Disk β) : Except Fault (Option Chain × Disk β) :=
  match d.allocDesc with
  | (none, d) => .ok (none, d)
  | (some head, d) =>
    match d.allocDesc with
    | (none, d) => do
      let d ← d.freeDesc head
      .ok (none, d)
    | (some data, d) =>
      match d.allocDesc with
      | (none, d) => do
        let d ← d.freeDesc head
        let d ← d.freeDesc data
        .ok (none, d)
      | (some status, d) => .ok (some ⟨head, data, status⟩, d)

/-- The descriptors and the record of a request, and its entry in the ring for the device.
`statusAddr i` is the address of `info[ i ].status`. -/
def publish (statusAddr : Nat → Nat) (d : Disk β) (r : Request β) (c : Chain) : Disk β :=
  let desc := Function.update d.desc c.head ⟨r.header, 16, vringDescFNext, c.data⟩
  let desc := Function.update desc c.data
    ⟨r.bufAddr, 512 * r.blockCount, (if r.write then 0 else vringDescFWrite) ||| vringDescFNext,
      c.status⟩
  let desc := Function.update desc c.status ⟨statusAddr c.head, 1, vringDescFWrite, 0⟩
  { d with
    desc := desc
    info := Function.update d.info c.head ⟨some r.bufList, 0, true⟩
    availRing := Function.update d.availRing (d.availIdx % num) c.head
    availIdx := (d.availIdx + 1) % 2 ^ 16 }

/-- `virtio_disk_rw` from its start, or from where it wakes up for free descriptors, to where it
sleeps for descriptors (`none`) or for the device. -/
def rwSubmit (statusAddr : Nat → Nat) (d : Disk β) (r : Request β) :
    Except Fault (Option Chain × Disk β) := do
  let a ← d.alloc3Desc
  match a.1 with
  | none => .ok (none, a.2)
  | some c => .ok (some c, a.2.publish statusAddr r c)

/-- `virtio_disk_rw` from where it wakes up for the device: it sleeps again (`false`), or it frees
its chain and returns. -/
def rwFinish (d : Disk β) (c : Chain) : Except Fault (Bool × Disk β) :=
  if (d.info c.head).wait then .ok (false, d)
  else do
    let d := { d with info := Function.update d.info c.head { d.info c.head with b := none } }
    let d ← freeChain num d c.head
    .ok (true, d)

/-- The loop of `handle_intr`, with the completions that it has consumed and the buffers that it has
woken.  Its index goes round once at most. -/
def intrLoop : Nat → Disk β → List (Nat × Option β) →
    Except Fault (Disk β × List (Nat × Option β))
  | 0, _, _ => .error (.undefined "handle_intr does not end")
  | turns + 1, d, woken =>
    if d.usedIdx % num ≠ d.usedId % num then
      let id := d.usedElems d.usedIdx
      if (d.info id).status ≠ 0 then .error (.panic "virtio_disk_intr status")
      else
        intrLoop turns { d with
          info := Function.update d.info id { d.info id with wait := false }
          usedIdx := (d.usedIdx + 1) % num } (woken ++ [(id, (d.info id).b)])
    else .ok (d, woken)

/-- `handle_intr`, with the completions that it consumes and the buffers that it wakes. -/
def handleIntr (d : Disk β) : Except Fault (Disk β × List (Nat × Option β)) :=
  intrLoop num d []

/-- The device completes the chain with the given first descriptor: it stores the status zero and
adds the chain to the used ring. -/
def complete (d : Disk β) (head : Nat) : Disk β :=
  { d with
    info := Function.update d.info head { d.info head with status := 0 }
    usedElems := Function.update d.usedElems (d.usedId % num) head
    usedId := (d.usedId + 1) % 2 ^ 16 }

end Disk

/-! ### Callers and the device -/

/-- Where a call of `virtio_disk_rw` is. -/
inductive Phase where
  | start
  | asleep
  | waiting (c : Chain)
  | returned
  deriving DecidableEq

/-- The driver with all its callers and the device, which has taken the ring of requests up to
`taken` and has not completed the chains `pending`.  `owner` is the call that a chain with some
first descriptor was last submitted by; `completed` are the calls whose chains the device has
completed, and `woken` those whose completion `handle_intr` has consumed, with the buffer that it
has woken. -/
structure System (ι β : Type) where
  disk : Disk β
  phase : ι → Phase
  taken : Nat
  pending : List Nat
  owner : Nat → Option ι
  completed : List (Option ι)
  woken : List (Option ι × Option β)

inductive Event (ι : Type) where
  | submit (i : ι)
  | resume (i : ι)
  | take
  | complete (head : Nat)
  | intr

namespace System

variable {ι β : Type} [DecidableEq ι]

def init : System ι β := ⟨.init, fun _ => .start, 0, [], fun _ => none, [], []⟩

/-- The events that can happen: a call goes on where it is, and the device takes what is published
and completes what it has taken. -/
def Enabled (s : System ι β) : Event ι → Prop
  | .submit i => s.phase i = .start ∨ s.phase i = .asleep
  | .resume i => ∃ c, s.phase i = .waiting c
  | .take => s.taken ≠ s.disk.availIdx
  | .complete head => head ∈ s.pending
  | .intr => True

/-- The atomic step of an event, for the requests `req`. -/
def step (statusAddr : Nat → Nat) (req : ι → Request β) (s : System ι β) :
    Event ι → Except Fault (System ι β)
  | .submit i => do
    let r ← s.disk.rwSubmit statusAddr (req i)
    match r.1 with
    | none => .ok { s with disk := r.2, phase := Function.update s.phase i .asleep }
    | some c =>
      .ok { s with
        disk := r.2
        phase := Function.update s.phase i (.waiting c)
        owner := Function.update s.owner c.head (some i) }
  | .resume i =>
    match s.phase i with
    | .waiting c => do
      let r ← s.disk.rwFinish c
      if r.1 then .ok { s with disk := r.2, phase := Function.update s.phase i .returned }
      else .ok { s with disk := r.2 }
    | _ => .ok s
  | .take =>
    .ok { s with
      taken := (s.taken + 1) % 2 ^ 16
      pending := s.pending ++ [s.disk.availRing (s.taken % num)] }
  | .complete head =>
    .ok { s with
      disk := s.disk.complete head
      pending := s.pending.erase head
      completed := s.completed ++ [s.owner head] }
  | .intr => do
    let r ← s.disk.handleIntr
    .ok { s with disk := r.1, woken := s.woken ++ r.2.map fun w => (s.owner w.1, w.2) }

/-- The states of all interleavings. -/
inductive Reach (statusAddr : Nat → Nat) (req : ι → Request β) : System ι β → Prop
  | init : Reach statusAddr req init
  | step {s s' : System ι β} {e : Event ι} (h : Reach statusAddr req s) (he : s.Enabled e)
      (hs : s.step statusAddr req e = .ok s') : Reach statusAddr req s'

end System

end OsKernel.Hal

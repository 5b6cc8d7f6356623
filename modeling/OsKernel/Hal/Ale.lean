import OsKernel.Mm.Vmm.Model

/-! The LoongArch handler of unaligned accesses (ALE): it decodes the instruction and makes the
access with the copies between the kernel and the user. -/

namespace OsKernel.Hal

open Lib Hsai Mm

/-- The general registers in a `TrapFrame`. -/
inductive TfReg where
  | ra | tp | sp
  | a0 | a1 | a2 | a3 | a4 | a5 | a6 | a7
  | t0 | t1 | t2 | t3 | t4 | t5 | t6 | t7 | t8
  | r21 | fp
  | s0 | s1 | s2 | s3 | s4 | s5 | s6 | s7 | s8
  deriving DecidableEq, Repr

structure TrapFrame where
  reg : TfReg → BitVec 64
  era : BitVec 64

/-- The member for a register number, in both switches.  There is none for 0. -/
def TfReg.ofNum : Nat → Option TfReg
  | 1 => some ra
  | 2 => some tp
  | 3 => some sp
  | 4 => some a0
  | 5 => some a1
  | 6 => some a2
  | 7 => some a3
  | 8 => some a4
  | 9 => some a5
  | 10 => some a6
  | 11 => some a7
  | 12 => some t0
  | 13 => some t1
  | 14 => some t2
  | 15 => some t3
  | 16 => some t4
  | 17 => some t5
  | 18 => some t6
  | 19 => some t7
  | 20 => some t8
  | 21 => some r21
  | 22 => some fp
  | 23 => some s0
  | 24 => some s1
  | 25 => some s2
  | 26 => some s3
  | 27 => some s4
  | 28 => some s5
  | 29 => some s6
  | 30 => some s7
  | 31 => some s8
  | _ => none

def getRegFromTrapFrame (tf : TrapFrame) (regNum : Nat) : BitVec 64 :=
  match TfReg.ofNum regNum with
  | some r => tf.reg r
  | none => 0

def setRegFromTrapFrame (tf : TrapFrame) (regNum : Nat) (data : BitVec 64) : TrapFrame :=
  match TfReg.ofNum regNum with
  | some r => { tf with reg := Function.update tf.reg r data }
  | none => tf

/-- The number with these bytes, the least significant first. -/
def leNat : List UInt8 → Nat
  | [] => 0
  | b :: l => b.toNat + 256 * leNat l

/-- A 64-bit variable after a copy of bytes to its address. -/
def patchLow (x : BitVec 64) (bytes : List UInt8) : BitVec 64 :=
  x >>> (8 * bytes.length) <<< (8 * bytes.length) ||| BitVec.ofNat 64 (leNat bytes)

/-- The first `n` bytes of a 64-bit variable. -/
def lowBytes (x : BitVec 64) (n : Nat) : List UInt8 :=
  (List.range n).map fun i => UInt8.ofNat (x.toNat / 256 ^ i)

/-- What the handler leaves: the trap frame, the kernel with the memory, and the general register
that it has used as the data of the access. -/
structure AleResult (σ : Type) where
  tf : TrapFrame
  kernel : Kernel σ
  data : Option Nat

/-- The extension of a loaded value, where the instruction is not an unsigned one. -/
def aleExtend (byteCnt : Nat) (rdd : BitVec 64) : BitVec 64 :=
  match byteCnt with
  | 1 => if rdd &&& 0x80#64 ≠ 0#64 then rdd ||| 0xFFFFFFFFFFFFFF00#64 else rdd
  | 2 => if rdd &&& 0x8000#64 ≠ 0#64 then rdd ||| 0xFFFFFFFFFFFF0000#64 else rdd
  | 4 =>
    -- `1 << 31` is a negative `int`
    if rdd &&& 0xFFFFFFFF80000000#64 ≠ 0#64 then rdd ||| 0xFFFFFFFF00000000#64 else rdd
  | _ => rdd

section

variable {σ : Type} (V : VirtualPageAllocator σ) (k : Kernel σ) (pt : PageTable) (tf : TrapFrame)
  (badv : Nat)

/-- `copy_to_user` of the low bytes of `rdd`, whose result is ignored. -/
def aleStore (rd byteCnt : Nat) : Except Fault (AleResult σ) := do
  let r ← copyout .loongarch V k pt badv (lowBytes (getRegFromTrapFrame tf rd) byteCnt)
  .ok ⟨tf, r.2, some rd⟩

/-- `copy_from_user` of `byte_cnt` bytes, and `value` of them in the register. -/
def aleLoad (rd byteCnt : Nat) (value : List UInt8 → BitVec 64) : Except Fault (AleResult σ) :=
  do
  let r ← copyIn .loongarch V k pt badv byteCnt
  .ok ⟨setRegFromTrapFrame tf rd (value r.2), k, some rd⟩

/-- The switch over the main opcode. -/
def aleSwitch (badInstr : Nat) : Except Fault (AleResult σ) :=
  let mainOpcode := badInstr >>> 26 &&& 0x3F
  let rd := badInstr &&& 0x1F
  let rdd := getRegFromTrapFrame tf rd
  if mainOpcode = 0b001000 then .error (.panic "ALE : [LLSC]编码空间\nbadi=%#010x")
  else if mainOpcode = 0b001001 then
    let subOpcode := badInstr >>> 24 &&& 0x3
    let isStore := decide (subOpcode &&& 0b01 ≠ 0)
    let byteCnt := if subOpcode &&& 0b10 ≠ 0 then 8 else 4
    if isStore then aleStore V k pt tf badv rd byteCnt
    else
      -- the bytes above the copied ones are those of the old value
      aleLoad V k pt tf badv rd byteCnt fun bytes => patchLow rdd bytes
  else if mainOpcode = 0b001010 then
    let subOpcode := badInstr >>> 22 &&& 0xF
    let byteCnt :=
      match subOpcode &&& 0x3 with
      | 0b00 => 1
      | 0b01 => 2
      | 0b10 => 4
      | 0b11 => 8
      | _ => 0
    let isStore := decide (subOpcode &&& 0b0100 ≠ 0)
    let isUnsigned := decide (subOpcode &&& 0b1000 ≠ 0)
    if isStore then aleStore V k pt tf badv rd byteCnt
    else
      aleLoad V k pt tf badv rd byteCnt fun bytes =>
        if isUnsigned then patchLow 0 bytes else aleExtend byteCnt (patchLow 0 bytes)
  else if mainOpcode = 0b001011 then .error (.panic "ALE : [扩展甲]编码空间\nbadi=%#010x")
  else if mainOpcode = 0b001100 then .error (.panic "ALE : [扩展乙]编码空间\nbadi=%#010x")
  else if mainOpcode = 0b001110 then .error (.panic "ALE : [复杂]编码空间\nbadi=%#010x")
  else .error (.panic "ALE : 未知编码空间\nbadi=%#010x")

/-- The handler, for the addresses in `badv` and `era` and the page table and trap frame of the
running process. -/
def handleAle (era : Nat) : Except Fault (AleResult σ) := do
  if era >>> 60 ≠ 0 then
    .error (.panic ("内核发生ALE异常, 暂未实现处理函数\n    badv : %p\n    badi : %#010x\n" ++
      "    crmd : %#010x\n    era  : %p\n    tick : %d\n"))
  else
    let code ← copyIn .loongarch V k pt era 4
    if code.2.length < 4 then .error (.undefined "bad_instr is not initialised")
    else
      let r ← aleSwitch V k pt tf badv (leNat code.2)
      .ok { r with tf := { r.tf with era := r.tf.era + 4 } }

end

end OsKernel.Hal

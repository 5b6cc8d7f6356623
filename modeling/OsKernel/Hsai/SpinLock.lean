import Mathlib.Data.List.Basic
import Mathlib.Logic.Function.Basic
import OsKernel.Klib.Fault

/-! Spin locks and the interrupt-off depth on one processor.  A lock is held or free: `_locked` is
this processor or null, so the exchange in `acquire` and `release` succeeds at once. -/

namespace OsKernel.Hsai

/-- The fields of `VirtualCpu` and the interrupt flag of the processor. -/
structure VirtualCpu where
  numOff : Nat
  intEna : Bool
  interruptible : Bool

namespace VirtualCpu

variable (c : VirtualCpu)

def pushInterruptOff : VirtualCpu where
  interruptible := false
  intEna := if c.numOff = 0 then c.interruptible else c.intEna
  numOff := c.numOff + 1

def popInterruptOff : Except Fault VirtualCpu :=
  if c.interruptible then .error (.panic "pop-off : interruptible")
  else if c.numOff < 1 then .error (.panic "pop-off : no off")
  else .ok
    { numOff := c.numOff - 1
      intEna := c.intEna
      interruptible := decide (c.numOff - 1 = 0) && c.intEna }

end VirtualCpu

/-- The interrupt state of the processor, and the locks it holds. -/
structure CpuLocks (ι : Type) extends VirtualCpu where
  locked : ι → Bool

namespace CpuLocks

variable {ι : Type} (c : CpuLocks ι)

variable [DecidableEq ι]

def acquire (l : ι) : Except Fault (CpuLocks ι) :=
  let cpu := c.pushInterruptOff
  if c.locked l then .error (.panic "lock is already held.")
  else .ok { toVirtualCpu := cpu, locked := Function.update c.locked l true }

def release (l : ι) : Except Fault (CpuLocks ι) :=
  if c.locked l then do
    let cpu ← c.popInterruptOff
    return { toVirtualCpu := cpu, locked := Function.update c.locked l false }
  else .error (.panic "lock is already released.")

/-- The locks held are those of `L`, each acquired once. -/
structure Holds (c : CpuLocks ι) (L : List ι) : Prop where
  nodup : L.Nodup
  locked : ∀ l, c.locked l = true ↔ l ∈ L
  depth : c.numOff = L.length
  off : L ≠ [] → c.interruptible = false

variable {c} {L : List ι} {l : ι}

theorem acquire_spec (h : c.Holds L) (hl : l ∉ L) :
    ∃ c', c.acquire l = .ok c' ∧ c'.Holds (l :: L) ∧
      c'.intEna = if L = [] then c.interruptible else c.intEna := by
  have hfree : c.locked l = false := by
    rw [← Bool.not_eq_true, h.locked]
    exact hl
  refine ⟨_, if_neg (by simp [hfree]), ?_, ?_⟩
  · refine ⟨List.nodup_cons.mpr ⟨hl, h.nodup⟩, ?_, ?_, fun _ => rfl⟩
    · intro l'
      show Function.update c.locked l true l' = true ↔ _
      rw [Function.update_apply, List.mem_cons]
      split
      · rename_i he
        simp [he]
      · rename_i he
        rw [h.locked]
        simp [he]
    · show c.numOff + 1 = _
      rw [h.depth, List.length_cons]
  · show (if c.numOff = 0 then c.interruptible else c.intEna) = _
    simp only [h.depth, List.length_eq_zero_iff]

theorem release_spec (h : c.Holds L) (hl : l ∈ L) :
    ∃ c', c.release l = .ok c' ∧ c'.Holds (L.erase l) ∧ c'.intEna = c.intEna ∧
      c'.interruptible = (decide (L.erase l = []) && c.intEna) := by
  have hheld : c.locked l = true := (h.locked l).mpr hl
  have hoff := h.off (List.ne_nil_of_mem hl)
  have hlen := List.length_pos_of_mem hl
  have herase := List.length_erase_of_mem hl
  have hdepth := h.depth
  have hrun : c.release l = .ok
      { c with
        locked := Function.update c.locked l false
        numOff := c.numOff - 1
        interruptible := decide (c.numOff - 1 = 0) && c.intEna } := by
    unfold release VirtualCpu.popInterruptOff
    rw [if_pos hheld, if_neg (by simp [hoff]), if_neg (by omega)]
    rfl
  refine ⟨_, hrun, ⟨h.nodup.erase l, ?_, ?_, ?_⟩, rfl, ?_⟩
  · intro l'
    show Function.update c.locked l false l' = true ↔ _
    rw [Function.update_apply, h.nodup.mem_erase_iff]
    split
    · rename_i he
      simp [he]
    · rename_i he
      rw [h.locked]
      simp [he]
  · show c.numOff - 1 = _
    rw [herase, hdepth]
  · intro hne
    have hpos := List.length_pos_of_ne_nil hne
    show (decide (c.numOff - 1 = 0) && c.intEna) = false
    rw [decide_eq_false (by omega), Bool.false_and]
  · show (decide (c.numOff - 1 = 0) && c.intEna) = _
    simp only [← List.length_eq_zero_iff, herase, hdepth]

end CpuLocks

end OsKernel.Hsai

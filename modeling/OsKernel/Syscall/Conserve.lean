import OsKernel.Syscall.CopyFileRange
import OsKernel.Syscall.Sendfile
import OsKernel.Syscall.Splice

/-! Which transfers conserve bytes and positions. -/

namespace OsKernel.Syscall

open Fs Pm.Ipc

/-- A call that moves bytes between files. -/
inductive Transfer where
  | sendfile (o i : Nat) (off : Option Nat) (size : UInt64)
  | splice (i : Nat) (offIn : Option Nat) (o : Nat) (offOut : Option Nat) (len : Int)
  | copyFileRange (i : Nat) (offIn : Option Nat) (o : Nat) (offOut : Option Nat) (len : Int)

namespace Transfer

variable (h : Heap) (s : State)

def run (vin vout : List (Pipe × Bool)) : Transfer → Except Fault (Option Moved)
  | .sendfile o i off size => s.sendfile h o i off size vin vout
  | .splice i offIn o offOut len => s.splice h i offIn o offOut len vin vout
  | .copyFileRange i offIn o offOut len => s.copyFileRange h i offIn o offOut len vin vout

/-- The output of `sendfile` is at its own position. -/
def Conserves (m : Moved) : Transfer → Prop
  | .sendfile o i off _ => s.Conserves i o off none m
  | .splice i offIn o offOut _ => s.Conserves i o offIn offOut m
  | .copyFileRange i offIn o offOut _ => s.Conserves i o offIn offOut m

def Ok (vin vout : List (Pipe × Bool)) : Transfer → Prop
  | .sendfile o i off size => s.SendfileOk h o i off size vin vout
  | .splice i offIn o offOut len => s.SpliceOk h i offIn o offOut len vin vout
  | .copyFileRange i offIn o offOut len => s.CopyOk h i offIn o offOut len vin vout

end Transfer

/-- The condition decides whether a call that returns conserves bytes and positions. -/
theorem transfer_conserves_iff (h : Heap) (s : State) (hs : s.Fits) (vin vout : List (Pipe × Bool))
    (c : Transfer) : Returned (fun m => c.Conserves s m) (c.run h s vin vout) ↔
      c.Ok h s vin vout := by
  cases c with
  | sendfile o i off size => exact State.sendfile_iff hs
  | splice i offIn o offOut len => exact State.splice_iff hs
  | copyFileRange i offIn o offOut len => exact State.copyFileRange_iff hs

/-! ### A full file and an empty one -/

/-- A heap with less than a page. -/
def sampleHeap : Heap where
  gives n := decide (0 < n ∧ n < 4096)
  zero := rfl
  small h := by
    have := of_decide_eq_true h
    omega

def sampleFiles : State where
  files x := .regular ⟨true, true, .normal, if x = 0 then 3 else 0, 0, x⟩
  nodes x := .ramfs (if x = 0 then [1, 2, 3] else [])
  user _ := 0

theorem sampleFiles_fits : sampleFiles.Fits where
  ptr := by
    intro i f hf
    cases hf
    exact Nat.two_pow_pos 63
  size x := by
    simp only [sampleFiles, FileNode.data]
    split <;> decide

theorem transfer_conserves_sample :
    Returned (fun m => (Transfer.copyFileRange 0 none 1 none 3).Conserves sampleFiles m)
      ((Transfer.copyFileRange 0 none 1 none 3).run sampleHeap sampleFiles [] []) := by
  refine (transfer_conserves_iff _ _ sampleFiles_fits _ _ _).mpr fun _ => ?_
  exact ⟨rfl, .inl ⟨rfl, rfl⟩, .inr (by decide), fun _ => by decide⟩

/-- The position of the input is moved although an offset is given. -/
theorem sendfile_moves_both :
    ¬Returned (fun m => (Transfer.sendfile 1 0 (some 0) 3).Conserves sampleFiles m)
      ((Transfer.sendfile 1 0 (some 0) 3).run sampleHeap sampleFiles [] []) := by
  intro h
  have hret : Returned (sampleFiles.Conserves 0 1 (some 0) none)
      (sampleFiles.sendfile sampleHeap 1 0 (some 0) 3 [] []) := h
  obtain ⟨-, -, hmove, -⟩ := (State.sendfile_iff sampleFiles_fits).mp hret rfl
  rcases hmove with hnil | ⟨hpipe | hoff, -⟩
  · cases hnil
  · cases hpipe
  · cases hoff

end OsKernel.Syscall

import Mathlib.Data.List.Pairwise
import Mathlib.Logic.Function.Basic
import OsKernel.Lib.ByteMemory

/-! Straight-line code that saves registers in memory and takes them back.  The processor has 64-bit
general registers `R`, control registers `C` and a pc, and its loads and stores go through a
translation of addresses that may depend on the control registers and on the memory. -/

namespace OsKernel.Lib

/-- The 64-bit word at an address. -/
def Mem.word (m : Mem) (a : Nat) : BitVec 64 := BitVec.ofNat 64 (m.read a 8)

theorem Mem.word_write_same (m : Mem) (a : Nat) (v : BitVec 64) :
    (m.write a 8 v.toNat).word a = v := by
  have hlt : v.toNat < 256 ^ 8 := v.isLt
  rw [word, read_write_same, Nat.mod_eq_of_lt hlt, BitVec.ofNat_toNat, BitVec.setWidth_eq]

theorem Mem.word_write_apart {m : Mem} {a v b : Nat} (h : a + 8 ≤ b ∨ b + 8 ≤ a) :
    (m.write a 8 v).word b = m.word b := by
  rw [word, read_write_apart h, word]

theorem Mem.word_congr {m m' : Mem} {a : Nat} (h : ∀ x, a ≤ x → x < a + 8 → m' x = m x) :
    m'.word a = m.word a := by
  rw [word, read_congr h, word]

/-- The instructions.  `swapCsr` exchanges the two registers. -/
inductive Instr (R C : Type) where
  | store (src base : R) (off : Nat)
  | load (dst base : R) (off : Nat)
  | loadImm (dst : R) (v : BitVec 64)
  | readCsr (dst : R) (csr : C)
  | writeCsr (csr : C) (src : R)
  | swapCsr (csr : C) (r : R)
  | fence
  | jump (target : R)
  | trapReturn (epc : C)

structure Cpu (R C : Type) where
  reg : R → BitVec 64
  csr : C → BitVec 64
  pc : BitVec 64
  mem : Mem

/-- The translation of a virtual address. -/
abbrev Mmu (C : Type) := (C → BitVec 64) → Mem → BitVec 64 → Option Nat

section

variable {R C : Type}

namespace Cpu

section

variable [DecidableEq R] [DecidableEq C]

/-- One instruction; an access to an address that is not mapped ends the run. -/
def exec (mmu : Mmu C) (s : Cpu R C) : Instr R C → Option (Cpu R C)
  | .store src base off => do
    let pa ← mmu s.csr s.mem (s.reg base + BitVec.ofNat 64 off)
    some { s with mem := s.mem.write pa 8 (s.reg src).toNat }
  | .load dst base off => do
    let pa ← mmu s.csr s.mem (s.reg base + BitVec.ofNat 64 off)
    some { s with reg := Function.update s.reg dst (s.mem.word pa) }
  | .loadImm dst v => some { s with reg := Function.update s.reg dst v }
  | .readCsr dst csr => some { s with reg := Function.update s.reg dst (s.csr csr) }
  | .writeCsr csr src => some { s with csr := Function.update s.csr csr (s.reg src) }
  | .swapCsr csr r => some { s with
      reg := Function.update s.reg r (s.csr csr)
      csr := Function.update s.csr csr (s.reg r) }
  | .fence => some s
  | .jump target => some { s with pc := s.reg target }
  | .trapReturn epc => some { s with pc := s.csr epc }

/-- The instructions one after the other. -/
def run (mmu : Mmu C) (s : Cpu R C) : List (Instr R C) → Option (Cpu R C)
  | [] => some s
  | i :: code => (s.exec mmu i).bind fun s => s.run mmu code

variable {mmu : Mmu C} {s s' : Cpu R C}

@[simp] theorem run_nil : s.run mmu [] = some s := rfl

theorem run_cons (i : Instr R C) (code : List (Instr R C)) :
    s.run mmu (i :: code) = (s.exec mmu i).bind fun s => s.run mmu code := rfl

theorem run_append (code code' : List (Instr R C)) :
    s.run mmu (code ++ code') = (s.run mmu code).bind fun s => s.run mmu code' := by
  induction code generalizing s with
  | nil => rfl
  | cons i code ih =>
    rw [List.cons_append, run_cons, run_cons, Option.bind_assoc]
    congr 1
    funext s
    exact ih

end

end Cpu

/-! ### Windows -/

/-- The `n` bytes at the virtual address `va` are at `pa`, and stay there when only these
bytes change. -/
def Window (mmu : Mmu C) (csr : C → BitVec 64) (m : Mem) (va : BitVec 64) (pa n : Nat) : Prop :=
  ∀ m' : Mem, (∀ x, x < pa ∨ pa + n ≤ x → m' x = m x) →
    ∀ off, off + 8 ≤ n → mmu csr m' (va + BitVec.ofNat 64 off) = some (pa + off)

variable {mmu : Mmu C} {csr : C → BitVec 64} {m m' : Mem} {va : BitVec 64} {pa n : Nat}

theorem Window.at (h : Window mmu csr m va pa n) {off : Nat} (hoff : off + 8 ≤ n) :
    mmu csr m (va + BitVec.ofNat 64 off) = some (pa + off) := h m (fun _ _ => rfl) off hoff

theorem Window.congr (h : Window mmu csr m va pa n)
    (hm : ∀ x, x < pa ∨ pa + n ≤ x → m' x = m x) :
    Window mmu csr m' va pa n :=
  fun m₁ h₁ => h m₁ fun x hx => (h₁ x hx).trans (hm x hx)

theorem Window.write (h : Window mmu csr m va pa n) {off v : Nat} (hoff : off + 8 ≤ n) :
    Window mmu csr (m.write (pa + off) 8 v) va pa n :=
  h.congr fun _ hx => Mem.write_outside (by omega)

/-! ### Save areas: each register in a list of slots has its place -/

namespace SaveArea

/-- The memory after the registers in a list of slots are stored. -/
def saved (reg : R → BitVec 64) (pa : Nat) : List (R × Nat) → Mem → Mem
  | [], m => m
  | p :: slots, m => saved reg pa slots (m.write (pa + p.2) 8 (reg p.1).toNat)

/-- The registers after they are loaded. -/
def loaded [DecidableEq R] (m : Mem) (pa : Nat) : List (R × Nat) → (R → BitVec 64) → R →
    BitVec 64
  | [], reg => reg
  | p :: slots, reg => loaded m pa slots (Function.update reg p.1 (m.word (pa + p.2)))

theorem saved_apart {reg : R → BitVec 64} {slots : List (R × Nat)} {a : Nat}
    (h : ∀ p ∈ slots, pa + p.2 + 8 ≤ a ∨ a + 8 ≤ pa + p.2) :
      (saved reg pa slots m).word a = m.word a := by
  induction slots generalizing m with
  | nil => rfl
  | cons p slots ih =>
    rw [saved, ih fun q hq => h q (List.mem_cons_of_mem _ hq),
      Mem.word_write_apart (h p List.mem_cons_self)]

theorem saved_outside {reg : R → BitVec 64} {slots : List (R × Nat)} {x : Nat}
    (h : ∀ p ∈ slots, p.2 + 8 ≤ n) (hx : x < pa ∨ pa + n ≤ x) :
      saved reg pa slots m x = m x := by
  induction slots generalizing m with
  | nil => rfl
  | cons p slots ih =>
    have hp := h p List.mem_cons_self
    rw [saved, ih fun q hq => h q (List.mem_cons_of_mem _ hq), Mem.write_outside (by omega)]

theorem saved_word {reg : R → BitVec 64} {slots : List (R × Nat)}
    (happ : slots.Pairwise fun p q => p.2 + 8 ≤ q.2 ∨ q.2 + 8 ≤ p.2) {p : R × Nat}
    (hp : p ∈ slots) :
    (saved reg pa slots m).word (pa + p.2) = reg p.1 := by
  induction slots generalizing m with
  | nil => exact absurd hp List.not_mem_nil
  | cons q slots ih =>
    obtain ⟨hq, happ⟩ := List.pairwise_cons.mp happ
    rw [saved]
    rcases List.mem_cons.mp hp with rfl | hp
    · rw [saved_apart fun r hr => by have := hq r hr; omega, Mem.word_write_same]
    · exact ih happ hp

variable [DecidableEq R]

theorem loaded_of_not_mem {slots : List (R × Nat)} {reg : R → BitVec 64} {r : R}
    (h : r ∉ slots.map Prod.fst) : loaded m pa slots reg r = reg r := by
  induction slots generalizing reg with
  | nil => rfl
  | cons p slots ih =>
    rw [List.map_cons, List.mem_cons, not_or] at h
    rw [loaded, ih h.2, Function.update_of_ne h.1]

theorem loaded_word {slots : List (R × Nat)} (hnd : (slots.map Prod.fst).Nodup)
    {reg : R → BitVec 64}
    {p : R × Nat} (hp : p ∈ slots) : loaded m pa slots reg p.1 = m.word (pa + p.2) := by
  induction slots generalizing reg with
  | nil => exact absurd hp List.not_mem_nil
  | cons q slots ih =>
    rw [List.map_cons, List.nodup_cons] at hnd
    rw [loaded]
    rcases List.mem_cons.mp hp with rfl | hp
    · rw [loaded_of_not_mem hnd.1, Function.update_self]
    · exact ih hnd.2 hp

variable [DecidableEq C] {s : Cpu R C} {base : R} {slots : List (R × Nat)}

theorem run_stores (hw : Window mmu s.csr s.mem (s.reg base) pa n)
    (hin : ∀ p ∈ slots, p.2 + 8 ≤ n) : s.run mmu (slots.map fun p => .store p.1 base p.2) =
      some { s with mem := saved s.reg pa slots s.mem } := by
  induction slots generalizing s with
  | nil => rfl
  | cons p slots ih =>
    have hp := hin p List.mem_cons_self
    rw [List.map_cons, Cpu.run_cons, Cpu.exec, hw.at hp]
    exact ih (hw.write hp) fun q hq => hin q (List.mem_cons_of_mem _ hq)

/-- The base may be loaded too, if it is loaded with what it is. -/
theorem run_loads (hw : Window mmu s.csr s.mem (s.reg base) pa n)
    (hin : ∀ p ∈ slots, p.2 + 8 ≤ n)
    (hbase : ∀ p ∈ slots, p.1 = base → s.mem.word (pa + p.2) = s.reg base) :
    s.run mmu (slots.map fun p => .load p.1 base p.2) =
      some { s with reg := loaded s.mem pa slots s.reg } := by
  induction slots generalizing s with
  | nil => rfl
  | cons p slots ih =>
    have hsame : Function.update s.reg p.1 (s.mem.word (pa + p.2)) base = s.reg base := by
      by_cases h : p.1 = base
      · rw [← h, Function.update_self, hbase p List.mem_cons_self h, h]
      · rw [Function.update_of_ne (Ne.symm h)]
    rw [List.map_cons, Cpu.run_cons, Cpu.exec, hw.at (hin p List.mem_cons_self)]
    refine ih ?_ (fun q hq => hin q (List.mem_cons_of_mem _ hq)) fun q hq h => ?_
    · simp only [hsame]
      exact hw
    · simp only [hsame]
      exact hbase q (List.mem_cons_of_mem _ hq) h

end SaveArea

end

end OsKernel.Lib

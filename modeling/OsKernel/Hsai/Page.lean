import Mathlib.Tactic.Ring

/-! Page sizes and page numbers.  Addresses are 64-bit words, kept as natural numbers and reduced
modulo `2 ^ 64` where the source's arithmetic can leave that range. -/

namespace OsKernel.Hsai

/-- `hsai::page_size`. -/
def pageSize : Nat := 4096

/-- The number of values of an `ulong`. -/
def wordSize : Nat := 2 ^ 64

/-- The difference of two `ulong`s. -/
def wordSub (a b : Nat) : Nat := (a + wordSize - b) % wordSize

/-- `hsai::page_round_up`. -/
def pageRoundUp (addr : Nat) : Nat := (addr + pageSize - 1) % wordSize / pageSize * pageSize

/-- `hsai::page_round_down`. -/
def pageRoundDown (addr : Nat) : Nat := addr / pageSize * pageSize

/-- `hsai::is_page_align`. -/
def isPageAlign (addr : Nat) : Bool := addr % pageSize = 0

@[simp] theorem isPageAlign_iff {addr : Nat} : isPageAlign addr = true ↔ addr % 4096 = 0 := by
  unfold isPageAlign pageSize
  exact decide_eq_true_iff

theorem wordSub_of_le {a b : Nat} (hb : b ≤ a) (ha : a < 2 ^ 64) : wordSub a b = a - b := by
  unfold wordSub wordSize
  omega

theorem pageRoundUp_eq {addr : Nat} (h : addr + 4095 < 2 ^ 64) :
    pageRoundUp addr = (addr + 4095) / 4096 * 4096 := by
  unfold pageRoundUp pageSize wordSize
  rw [Nat.mod_eq_of_lt (by omega)]
  omega

end OsKernel.Hsai

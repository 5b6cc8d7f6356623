import Mathlib.Algebra.BigOperators.Group.List.Basic
import Mathlib.Algebra.Order.BigOperators.Group.List
import Mathlib.Tactic.Ring

/-! Blocks that lie in a range one behind the other, with gaps between them. -/

namespace OsKernel.Lib

variable {β : Type} (start len : β → Nat)

/-- The blocks `bs` lie in `[lo, hi)` in their order. -/
def Laid (lo hi : Nat) : List β → Prop
  | [] => lo ≤ hi
  | b :: bs => lo ≤ start b ∧ Laid (start b + len b) hi bs

namespace Laid

variable {start len} {lo lo' hi hi' : Nat} {b c : β} {bs cs : List β}

theorem total (h : Laid start len lo hi bs) : lo + (bs.map len).sum ≤ hi := by
  induction bs generalizing lo with
  | nil => exact h
  | cons b bs ih =>
    have hrest := ih h.2
    have hle := h.1
    rw [List.map_cons, List.sum_cons]
    omega

theorem mono (h : Laid start len lo hi bs) (hlo : lo' ≤ lo) (hhi : hi ≤ hi') :
    Laid start len lo' hi' bs := by
  induction bs generalizing lo lo' with
  | nil => exact hlo.trans (Nat.le_trans h hhi)
  | cons b bs ih => exact ⟨hlo.trans h.1, ih h.2 (Nat.le_refl _)⟩

theorem mem (h : Laid start len lo hi bs) (hb : b ∈ bs) : lo ≤ start b ∧
    start b + len b ≤ hi := by
  induction bs generalizing lo with
  | nil => cases hb
  | cons c bs ih =>
    rcases List.mem_cons.mp hb with rfl | hb
    · have hrest := total h.2
      exact ⟨h.1, by omega⟩
    · have hin := ih h.2 hb
      have hle := h.1
      exact ⟨by omega, hin.2⟩

/-- Each block ends where the next ones begin, or before. -/
theorem pairwise (h : Laid start len lo hi bs) :
    bs.Pairwise fun b c => start b + len b ≤ start c := by
  induction bs generalizing lo with
  | nil => exact List.Pairwise.nil
  | cons b bs ih => exact List.pairwise_cons.mpr ⟨fun c hc => (h.2.mem hc).1, ih h.2⟩

/-- The blocks left over when some are taken away. -/
theorem sublist (h : Laid start len lo hi bs) (hs : cs.Sublist bs) : Laid start len lo hi cs := by
  induction hs generalizing lo with
  | slnil => exact h
  | cons b _ ih =>
    have hle := h.1
    exact (ih h.2).mono (by omega) (Nat.le_refl _)
  | cons_cons b _ ih => exact ⟨h.1, ih h.2⟩

/-- A block in the gap behind `b`. -/
theorem insert (h : Laid start len lo hi (bs ++ b :: cs)) (hlo : start b + len b ≤ start c)
    (hhi : Laid start len (start c + len c) hi cs) : Laid start len lo hi (bs ++ b :: c :: cs) := by
  induction bs generalizing lo with
  | nil => exact ⟨h.1, hlo, hhi⟩
  | cons d bs ih => exact ⟨h.1, ih h.2⟩

/-- The part from a block on. -/
theorem tail (h : Laid start len lo hi (bs ++ b :: cs)) :
    Laid start len (start b + len b) hi cs := by
  induction bs generalizing lo with
  | nil => exact h.2
  | cons d bs ih => exact ih h.2

/-- A gap of `n` counts like a block of that length. -/
theorem gap (h : Laid start len lo hi bs) {a n : Nat} (hlo : lo ≤ a) (hhi : a + n ≤ hi)
    (hfree : ∀ b ∈ bs, a + n ≤ start b ∨ start b + len b ≤ a) :
      lo + (bs.map len).sum + n ≤ hi := by
  induction bs generalizing lo with
  | nil =>
    rw [List.map_nil, List.sum_nil]
    omega
  | cons b bs ih =>
    have hle := h.1
    rw [List.map_cons, List.sum_cons]
    rcases hfree b List.mem_cons_self with hbefore | hbehind
    · have hrest := total h.2
      omega
    · have hrest := ih h.2 hbehind fun c hc => hfree c (List.mem_cons_of_mem _ hc)
      omega

end Laid

end OsKernel.Lib

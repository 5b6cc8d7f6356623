import Mathlib.Order.Basic
import Mathlib.Tactic.Cases

/-! Loops that go on to the next index until they fail or return.  What such a loop does is decided
by the first index at which it does not go on. -/

namespace OsKernel.Lib

/-- What a loop does at one index. -/
inductive Look (ε α : Type) where
  | fail (e : ε)
  | stop (a : α)
  | next

/-- The loop over the `n` indices from `j` on, which returns `last` at its end. -/
def scan {ε α : Type} (look : Nat → Look ε α) (last : α) : Nat → Nat → Except ε α
  | 0, _ => .ok last
  | n + 1, j =>
    match look j with
    | .fail e => .error e
    | .stop a => .ok a
    | .next => scan look last n (j + 1)

variable {ε α : Type} {look : Nat → Look ε α} {last : α} {n j : Nat}

/-- The loop comes to the index `i`. -/
def Comes (look : Nat → Look ε α) (n j i : Nat) : Prop :=
  j ≤ i ∧ i < j + n ∧ ∀ l, j ≤ l → l < i → look l = .next

theorem comes_zero {i : Nat} : Comes look n 0 i ↔ i < n ∧ ∀ l < i, look l = .next := by
  constructor
  · rintro ⟨-, hu, hall⟩
    exact ⟨by omega, fun l hl => hall l (Nat.zero_le l) hl⟩
  · rintro ⟨hu, hall⟩
    exact ⟨Nat.zero_le i, by omega, fun l _ hl => hall l hl⟩

theorem comes_first : Comes look (n + 1) j j :=
  ⟨Nat.le_refl j, by omega, fun l hl hu => by omega⟩

theorem comes_next {i : Nat} (hj : look j = .next) (h : Comes look n (j + 1) i) :
    Comes look (n + 1) j i := by
  obtain ⟨hl, hu, hall⟩ := h
  refine ⟨by omega, by omega, fun l hjl hli => ?_⟩
  by_cases he : l = j
  · rw [he, hj]
  · exact hall l (by omega) hli

theorem comes_of_next {i : Nat} (h : Comes look (n + 1) j i) (hne : i ≠ j) :
    look j = .next ∧ Comes look n (j + 1) i := by
  obtain ⟨hl, hu, hall⟩ := h
  exact ⟨hall j (Nat.le_refl j) (by omega), by omega, by omega, fun l hjl => hall l (by omega)⟩

/-- The loop fails at the first index where it does not go on. -/
theorem scan_error {e : ε} :
    scan look last n j = .error e ↔ ∃ i, Comes look n j i ∧ look i = .fail e := by
  induction n generalizing j with
  | zero =>
    refine iff_of_false (by simp [scan]) ?_
    rintro ⟨i, ⟨hl, hu, -⟩, -⟩
    omega
  | succ n ih =>
    rw [scan]
    constructor
    · intro h
      cases hj : look j with
      | fail e' =>
        rw [hj] at h
        cases h
        exact ⟨j, comes_first, hj⟩
      | stop a =>
        rw [hj] at h
        cases h
      | next =>
        rw [hj] at h
        obtain ⟨i, hi, he⟩ := ih.mp h
        exact ⟨i, comes_next hj hi, he⟩
    · rintro ⟨i, hi, he⟩
      by_cases hij : i = j
      · rw [hij] at he
        rw [he]
      · obtain ⟨hj, hi⟩ := comes_of_next hi hij
        rw [hj]
        exact ih.mpr ⟨i, hi, he⟩

/-- The loop returns what the first index where it does not go on says, or comes to its end. -/
theorem scan_ok {a : α} : scan look last n j = .ok a ↔
    (∃ i, Comes look n j i ∧ look i = .stop a) ∨
      (a = last ∧ ∀ i, j ≤ i → i < j + n → look i = .next) := by
  induction n generalizing j with
  | zero =>
    rw [scan]
    constructor
    · intro h
      cases h
      exact .inr ⟨rfl, fun i hl hu => by omega⟩
    · rintro (⟨i, ⟨hl, hu, -⟩, -⟩ | ⟨rfl, -⟩)
      · omega
      · rfl
  | succ n ih =>
    rw [scan]
    constructor
    · intro h
      cases hj : look j with
      | fail e =>
        rw [hj] at h
        cases h
      | stop a' =>
        rw [hj] at h
        cases h
        exact .inl ⟨j, comes_first, hj⟩
      | next =>
        rw [hj] at h
        rcases ih.mp h with ⟨i, hi, he⟩ | ⟨rfl, hall⟩
        · exact .inl ⟨i, comes_next hj hi, he⟩
        · refine .inr ⟨rfl, fun i hl hu => ?_⟩
          by_cases hij : i = j
          · rw [hij, hj]
          · exact hall i (by omega) (by omega)
    · rintro (⟨i, hi, he⟩ | ⟨rfl, hall⟩)
      · by_cases hij : i = j
        · rw [hij] at he
          rw [he]
        · obtain ⟨hj, hi⟩ := comes_of_next hi hij
          rw [hj]
          exact ih.mpr (.inl ⟨i, hi, he⟩)
      · rw [hall j (Nat.le_refl j) (by omega)]
        exact ih.mpr (.inr ⟨rfl, fun i hl hu => hall i (by omega) (by omega)⟩)

theorem scan_returns :
    (∃ a, scan look last n j = .ok a) ↔ ∀ i, Comes look n j i → ∀ e,
      look i ≠ .fail e := by
  constructor
  · rintro ⟨a, ha⟩ i hi e he
    rw [scan_error.mpr ⟨i, hi, he⟩] at ha
    cases ha
  · intro h
    cases hs : scan look last n j with
    | error e =>
      obtain ⟨i, hi, he⟩ := scan_error.mp hs
      exact absurd he (h i hi e)
    | ok a => exact ⟨a, rfl⟩

/-- The loop over the indices after the first. -/
theorem scan_shift (look : Nat → Look ε α) (last : α) (n j : Nat) :
    scan (fun i => look (i + 1)) last n j = scan look last n (j + 1) := by
  induction n generalizing j with
  | zero => rfl
  | succ n ih =>
    rw [scan, scan]
    cases look (j + 1) with
    | fail e => rfl
    | stop a => rfl
    | next => exact ih (j + 1)

end OsKernel.Lib

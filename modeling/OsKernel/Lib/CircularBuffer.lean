import Mathlib.Data.List.Basic
import Mathlib.Data.Nat.ModEq

/-! A queue of at most `c` elements in an array of `c` places: `size` elements from `head` on, going
round at the end of the array.  Adding at the tail and removing at the head are the operations of
the list of its elements. -/

namespace OsKernel.Lib

/-! ### Windows -/

/-- The `n` elements of a ring of `c` places from `start` on. -/
def window {α : Type} (c : Nat) (ring : Nat → α) (start n : Nat) : List α :=
  (List.range n).map fun i => ring ((start + i) % c)

section

variable {α : Type} {c : Nat} {ring : Nat → α} {start n : Nat}

@[simp] theorem window_length : (window c ring start n).length = n := by simp [window]

theorem window_mod : window c ring (start % c) n = window c ring start n := by
  simp [window]

/-- The start may be counted modulo a multiple of the number of places. -/
theorem window_mod_dvd {m : Nat} (h : c ∣ m) :
    window c ring (start % m) n = window c ring start n := by
  rw [← window_mod, Nat.mod_mod_of_dvd _ h, window_mod]

/-- Different offsets below the capacity are different places. -/
theorem place_inj {h i j : Nat} (hi : i < c) (hj : j < c) (he : (h + i) % c = (h + j) % c) :
    i = j := by
  have := Nat.ModEq.add_left_cancel' h (a := i) (b := j) (n := c) he
  rwa [Nat.ModEq, Nat.mod_eq_of_lt hi, Nat.mod_eq_of_lt hj] at this

/-- One more element in the place after the window. -/
theorem window_push {x : α} (h : n < c) :
    window c (Function.update ring ((start + n) % c) x) start (n + 1) =
      window c ring start n ++ [x] := by
  have hrest : ∀ i ∈ List.range n,
      Function.update ring ((start + n) % c) x ((start + i) % c) = ring ((start + i) % c) := by
    intro i hi
    rw [List.mem_range] at hi
    rw [Function.update_of_ne]
    intro he
    have := place_inj (by omega) h he
    omega
  simp only [window, List.range_succ, List.map_append, List.map_cons, List.map_nil,
    Function.update_self]
  rw [List.map_congr_left hrest]

/-- The first element and the others. -/
theorem window_succ : window c ring start (n + 1) =
    ring (start % c) :: window c ring (start + 1) n := by
  simp only [window, List.range_succ_eq_map, List.map_cons, List.map_map, Nat.add_zero]
  congr 1
  refine List.map_congr_left fun i _ => ?_
  simp only [Function.comp_apply]
  rw [Nat.add_assoc, Nat.add_comm 1 i]

end

structure CircularBuffer (α : Type) (c : Nat) where
  buf : Nat → α
  head : Nat
  tail : Nat
  size : Nat
  head_lt : head < c
  size_le : size ≤ c
  tail_eq : tail = (head + size) % c

namespace CircularBuffer

variable {α : Type} {c : Nat} (b : CircularBuffer α c)

/-- The elements, the oldest first. -/
def toList : List α := (List.range b.size).map fun i => b.buf ((b.head + i) % c)

theorem toList_eq_window : b.toList = window c b.buf b.head b.size := rfl

@[simp] theorem length_toList : b.toList.length = b.size := by simp [toList]

/-- One more element, where there is room. -/
def push (x : α) (h : b.size < c) : CircularBuffer α c where
  buf := Function.update b.buf b.tail x
  head := b.head
  tail := (b.tail + 1) % c
  size := b.size + 1
  head_lt := b.head_lt
  size_le := h
  tail_eq := by rw [b.tail_eq, Nat.mod_add_mod, Nat.add_assoc]

/-- The first element removed, where there is one. -/
def pop (h : 0 < b.size) : CircularBuffer α c where
  buf := b.buf
  head := (b.head + 1) % c
  tail := b.tail
  size := b.size - 1
  head_lt := Nat.mod_lt _ (by have := b.head_lt; omega)
  size_le := by have := b.size_le; omega
  tail_eq := by
    rw [b.tail_eq, Nat.mod_add_mod]
    congr 1
    omega

variable {b}

theorem toList_push {x : α} (h : b.size < c) : (b.push x h).toList = b.toList ++ [x] := by
  simp only [toList_eq_window, push, b.tail_eq]
  exact window_push h

theorem toList_eq_cons (h : 0 < b.size) : b.toList = b.buf b.head :: (b.pop h).toList := by
  obtain ⟨n, hn⟩ : ∃ n, b.size = n + 1 := ⟨b.size - 1, by omega⟩
  simp only [toList_eq_window, pop, hn, Nat.add_sub_cancel, window_mod]
  rw [window_succ, Nat.mod_eq_of_lt b.head_lt]

end CircularBuffer

end OsKernel.Lib

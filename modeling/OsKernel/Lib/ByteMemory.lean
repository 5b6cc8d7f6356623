import Mathlib.Tactic.Ring

/-! A memory of bytes addressed by natural numbers, with little-endian words of any width, ranges
filled with one byte, and ranges copied.  The lemmas say what a read gives after each kind of write:
the value written when the ranges agree, and the old value when they are apart. -/

namespace OsKernel.Lib

/-- The byte at each address. -/
abbrev Mem := Nat → UInt8

/-- `m'` has the bytes of `m` at every address that satisfies `S`. -/
def AgreeOn (S : Nat → Prop) (m m' : Mem) : Prop := ∀ x, S x → m' x = m x

namespace Mem

/-- The `n` bytes at `a` as a little-endian number. -/
def read (m : Mem) (a : Nat) : Nat → Nat
  | 0 => 0
  | n + 1 => (m a).toNat + 256 * read m (a + 1) n

/-- The low `n` bytes of `v` stored at `a`, the least significant first. -/
def write (m : Mem) (a n v : Nat) : Mem := fun x =>
  if a ≤ x ∧ x < a + n then UInt8.ofNat (v / 256 ^ (x - a)) else m x

/-- The `n` bytes at `a` set to `c`. -/
def fill (m : Mem) (a n : Nat) (c : UInt8) : Mem := fun x =>
  if a ≤ x ∧ x < a + n then c else m x

/-- The `n` bytes at `dst` set to the `n` bytes that were at `src`, which may overlap. -/
def copy (m : Mem) (dst src n : Nat) : Mem := fun x =>
  if dst ≤ x ∧ x < dst + n then m (src + (x - dst)) else m x

/-- The bytes of a list stored at `a`. -/
def store (m : Mem) (a : Nat) (l : List UInt8) : Mem := fun x =>
  if a ≤ x ∧ x < a + l.length then l.getD (x - a) 0 else m x

/-- The `n` bytes at `a`. -/
def load (m : Mem) (a n : Nat) : List UInt8 := (List.range n).map fun i => m (a + i)

@[simp] theorem load_length (m : Mem) (a n : Nat) : (m.load a n).length = n := by simp [load]

theorem load_add (m : Mem) (a n l : Nat) : m.load a (n + l) = m.load a n ++ m.load (a + n) l := by
  simp [load, List.range_add, Nat.add_assoc, Function.comp_def]

theorem read_congr {m m' : Mem} {a n : Nat} (h : ∀ x, a ≤ x → x < a + n → m' x = m x) :
    m'.read a n = m.read a n := by
  induction n generalizing a with
  | zero => rfl
  | succ n ih =>
    simp only [read]
    rw [h a (by omega) (by omega), ih fun x hl hu => h x (by omega) (by omega)]

@[simp] theorem write_outside {m : Mem} {a n v x : Nat} (h : x < a ∨ a + n ≤ x) :
    m.write a n v x = m x := by
  rw [write, if_neg (by omega)]

@[simp] theorem fill_outside {m : Mem} {a n x : Nat} {c : UInt8} (h : x < a ∨ a + n ≤ x) :
    m.fill a n c x = m x := by
  rw [fill, if_neg (by omega)]

theorem fill_inside {m : Mem} {a n x : Nat} {c : UInt8} (hl : a ≤ x) (hu : x < a + n) :
    m.fill a n c x = c := by
  rw [fill, if_pos ⟨hl, hu⟩]

theorem copy_outside {m : Mem} {dst src n x : Nat} (h : x < dst ∨ dst + n ≤ x) :
    m.copy dst src n x = m x := by
  rw [copy, if_neg (by omega)]

theorem copy_inside {m : Mem} {dst src n x : Nat} (hl : dst ≤ x) (hu : x < dst + n) :
    m.copy dst src n x = m (src + (x - dst)) := by
  rw [copy, if_pos ⟨hl, hu⟩]

theorem store_outside {m : Mem} {a x : Nat} {l : List UInt8} (h : x < a ∨ a + l.length ≤ x) :
    m.store a l x = m x := by
  rw [store, if_neg (by omega)]

theorem store_at {m : Mem} {a i : Nat} {b : UInt8} {l : List UInt8} (h : l[i]? = some b) :
    m.store a l (a + i) = b := by
  obtain ⟨hi, rfl⟩ := List.getElem?_eq_some_iff.mp h
  rw [store, if_pos (by omega), Nat.add_sub_cancel_left]
  simp [hi]

theorem store_nil (m : Mem) (a : Nat) : m.store a [] = m := by
  funext y
  rw [store, if_neg (by rw [List.length_nil]; omega)]

theorem store_cons (m : Mem) (a : Nat) (b : UInt8) (l : List UInt8) :
    Mem.store (Function.update m a b) (a + 1) l = m.store a (b :: l) := by
  funext y
  unfold store
  rw [List.length_cons]
  by_cases hy : y = a
  · rw [if_neg (by omega), if_pos (by omega), hy, Function.update_self, Nat.sub_self]
    rfl
  · rw [Function.update_of_ne hy]
    by_cases hin : a + 1 ≤ y ∧ y < a + 1 + l.length
    · rw [if_pos hin, if_pos (by omega), show y - a = (y - (a + 1)) + 1 by omega]
      rfl
    · rw [if_neg hin, if_neg (by omega)]

theorem store_append (m : Mem) (a : Nat) (l l' : List UInt8) :
    m.store a (l ++ l') = (m.store a l).store (a + l.length) l' := by
  induction l generalizing m a with
  | nil => rw [store_nil, List.nil_append, List.length_nil, Nat.add_zero]
  | cons b l ih =>
    rw [List.cons_append, ← store_cons, ih, store_cons, List.length_cons, Nat.add_assoc,
      Nat.add_comm 1]

theorem store_inj {m : Mem} {a : Nat} {l l' : List UInt8} (hlen : l.length = l'.length)
    (h : m.store a l = m.store a l') : l = l' := by
  refine List.ext_getElem hlen fun i hi hi' => ?_
  have hbyte := congrFun h (a + i)
  rw [store, store, if_pos (by omega), if_pos (by omega), Nat.add_sub_cancel_left] at hbyte
  simpa [hi, hi'] using hbyte

/-- A read of the bytes of a write, with the number shifted down by the bytes already read. -/
theorem read_write_from (m : Mem) (a n v k : Nat) (hk : k ≤ n) :
    (m.write a n v).read (a + (n - k)) k = v / 256 ^ (n - k) % 256 ^ k := by
  induction k with
  | zero => simp [read, Nat.mod_one]
  | succ k ih =>
    have hrest := ih (by omega)
    have hstep : v / 256 ^ (n - (k + 1)) / 256 = v / 256 ^ (n - k) := by
      rw [Nat.div_div_eq_div_mul, ← pow_succ, show n - (k + 1) + 1 = n - k by omega]
    have hbyte : (m.write a n v (a + (n - (k + 1)))).toNat = v / 256 ^ (n - (k + 1)) % 256 := by
      rw [write, if_pos (by omega), Nat.add_sub_cancel_left, UInt8.toNat_ofNat']
    rw [read, hbyte, show a + (n - (k + 1)) + 1 = a + (n - k) by omega, hrest, ← hstep, pow_succ',
      Nat.mod_mul]

/-- A read at the address and width of a write gives the number written, cut to the width. -/
theorem read_write_same (m : Mem) (a n v : Nat) : (m.write a n v).read a n = v % 256 ^ n := by
  simpa using read_write_from m a n v n (Nat.le_refl n)

theorem read_write_apart {m : Mem} {a n v b k : Nat} (h : a + n ≤ b ∨ b + k ≤ a) :
    (m.write a n v).read b k = m.read b k :=
  read_congr fun _ _ _ => write_outside (by omega)

theorem read_fill_apart {m : Mem} {a n b k : Nat} {c : UInt8} (h : a + n ≤ b ∨ b + k ≤ a) :
    (m.fill a n c).read b k = m.read b k :=
  read_congr fun _ _ _ => fill_outside (by omega)

/-- A read inside a range filled with zeros gives zero. -/
theorem read_fill_zero {m : Mem} {a n b k : Nat} (hl : a ≤ b) (hu : b + k ≤ a + n) :
    (m.fill a n 0).read b k = 0 := by
  induction k generalizing b with
  | zero => rfl
  | succ k ih => rw [read, fill_inside hl (by omega), ih (by omega) (by omega)]; rfl

end Mem

end OsKernel.Lib

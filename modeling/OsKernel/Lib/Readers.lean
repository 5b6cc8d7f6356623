import OsKernel.Lib.ByteMemory

/-! What a program reads at an address: a string up to its zero, and a table of words or of pairs of
words up to an entry that ends it.  All of these are lists of items of one size with a mark behind
the last. -/

namespace OsKernel.Lib

namespace Mem

variable {m m' : Mem} {a : Nat} {l l' : List UInt8}

/-! ### Bytes at an address -/

/-- The bytes `l` are at `a`. -/
def Holds (m : Mem) (a : Nat) (l : List UInt8) : Prop :=
  ∀ i, (hi : i < l.length) → m (a + i) = l[i]

theorem Holds.nil (m : Mem) (a : Nat) : m.Holds a [] := fun i hi => absurd hi (Nat.not_lt_zero i)

theorem holds_append : m.Holds a (l ++ l') ↔ m.Holds a l ∧ m.Holds (a + l.length) l' := by
  constructor
  · refine fun h => ⟨fun i hi => ?_, fun i hi => ?_⟩
    · rw [h i (by rw [List.length_append]; omega), List.getElem_append_left hi]
    · rw [Nat.add_assoc, h (l.length + i) (by rw [List.length_append]; omega),
        List.getElem_append_right (by omega)]
      simp only [Nat.add_sub_cancel_left]
  · rintro ⟨h, h'⟩ i hi
    rw [List.length_append] at hi
    by_cases hlt : i < l.length
    · rw [h i hlt, List.getElem_append_left hlt]
    · rw [List.getElem_append_right (by omega), ← h' (i - l.length) (by omega)]
      congr 1
      omega

theorem Holds.congr (h : m.Holds a l) (heq : ∀ x, a ≤ x → x < a + l.length → m' x = m x) :
    m'.Holds a l :=
  fun i hi => (heq (a + i) (by omega) (by omega)).trans (h i hi)

/-- The low `n` bytes of a number, the least significant first. -/
def littleEndian (n v : Nat) : List UInt8 := (List.range n).map fun i => UInt8.ofNat (v / 256 ^ i)

@[simp] theorem littleEndian_length (n v : Nat) :
    (littleEndian n v).length = n := by simp [littleEndian]

theorem Holds.read {n v : Nat} (h : m.Holds a (littleEndian n v)) : m.read a n = v % 256 ^ n := by
  rw [← read_write_same m a n v]
  apply read_congr
  intro x hl hu
  rw [write, if_pos ⟨hl, hu⟩]
  have hx := h (x - a) (by rw [littleEndian_length]; omega)
  rw [show a + (x - a) = x by omega] at hx
  simp [hx, littleEndian]

/-! ### Lists with a mark behind the last item -/

/-- The items from `a` on, `step` apart, up to the first that `item` does not give. -/
def itemsFrom {β : Type} (item : Nat → Option β) (step : Nat) : Nat → Nat → List β
  | 0, _ => []
  | fuel + 1, a =>
    match item a with
    | none => []
    | some b => b :: itemsFrom item step fuel (a + step)

theorem itemsFrom_eq {β : Type} {item : Nat → Option β} {step fuel a : Nat} {l : List β}
    (hitem : ∀ i, (hi : i < l.length) → item (a + step * i) = some l[i])
    (hmark : item (a + step * l.length) = none) (hfuel : l.length < fuel) :
    itemsFrom item step fuel a = l := by
  induction l generalizing a fuel with
  | nil =>
    obtain ⟨fuel, rfl⟩ := Nat.exists_eq_succ_of_ne_zero (Nat.ne_of_gt hfuel)
    rw [List.length_nil, Nat.mul_zero, Nat.add_zero] at hmark
    rw [itemsFrom, hmark]
  | cons b l ih =>
    obtain ⟨fuel, rfl⟩ := Nat.exists_eq_succ_of_ne_zero (show fuel ≠ 0 by omega)
    have hshift : ∀ i, a + step + step * i = a + step * (i + 1) := fun i => by ring
    have hfirst := hitem 0 (Nat.zero_lt_succ _)
    rw [Nat.mul_zero, Nat.add_zero, List.getElem_cons_zero] at hfirst
    rw [itemsFrom, hfirst]
    simp only
    rw [ih (fun i hi => ?_) (by rw [hshift]; exact hmark)
      (by rw [List.length_cons] at hfuel; omega)]
    rw [hshift, hitem (i + 1) (Nat.succ_lt_succ hi), List.getElem_cons_succ]

/-- The string at an address, up to its zero. -/
def cstring (m : Mem) : Nat → Nat → List UInt8 :=
  itemsFrom (fun a => if m a = 0 then none else some (m a)) 1

/-- The words from an address on, up to a null. -/
def words (m : Mem) : Nat → Nat → List Nat :=
  itemsFrom (fun a => if m.read a 8 = 0 then none else some (m.read a 8)) 8

/-- The pairs of words from an address on, up to one that starts with zero. -/
def pairs (m : Mem) : Nat → Nat → List (Nat × Nat) :=
  itemsFrom (fun a => if m.read a 8 = 0 then none else some (m.read a 8, m.read (a + 8) 8)) 16

theorem cstring_eq {fuel : Nat} (h : m.Holds a (l ++ [0])) (hl : ∀ b ∈ l, b ≠ 0)
    (hfuel : l.length < fuel) : m.cstring fuel a = l := by
  obtain ⟨hchars, hzero⟩ := holds_append.mp h
  apply itemsFrom_eq _ _ hfuel
  · intro i hi
    rw [Nat.one_mul, hchars i hi, if_neg (hl _ (List.getElem_mem hi))]
  · have := hzero 0 (by simp)
    rw [Nat.add_zero] at this
    rw [Nat.one_mul, this]
    rfl

/-- The items of a list of bytes, each of `step` bytes. -/
theorem Holds.items {β : Type} {f : β → List UInt8} {step : Nat} {bs : List β}
    (h : m.Holds a (bs.flatMap f)) (hstep : ∀ b ∈ bs, (f b).length = step) (i : Nat)
    (hi : i < bs.length) : m.Holds (a + step * i) (f bs[i]) := by
  induction bs generalizing a i with
  | nil => cases hi
  | cons b bs ih =>
    rw [List.flatMap_cons] at h
    obtain ⟨hb, hbs⟩ := holds_append.mp h
    rw [hstep b List.mem_cons_self] at hbs
    cases i with
    | zero => exact hb
    | succ i =>
      have := ih hbs (fun b' hb' => hstep b' (List.mem_cons_of_mem _ hb'))
        i (Nat.lt_of_succ_lt_succ hi)
      rw [List.getElem_cons_succ]
      rwa [show a + step + step * i = a + step * (i + 1) by ring] at this

theorem words_eq {ws : List Nat} {fuel : Nat} (h : m.Holds a ((ws ++ [0]).flatMap (littleEndian 8)))
    (hws : ∀ w ∈ ws, w ≠ 0 ∧ w < 2 ^ 64) (hfuel : ws.length < fuel) :
      m.words fuel a = ws := by
  have hat := h.items fun w _ => littleEndian_length 8 w
  apply itemsFrom_eq _ _ hfuel
  · intro i hi
    obtain ⟨hne, hlt⟩ := hws _ (List.getElem_mem hi)
    have hread := (hat i (by rw [List.length_append]; omega)).read
    rw [List.getElem_append_left hi,
      show 256 ^ 8 = 2 ^ 64 by norm_num, Nat.mod_eq_of_lt hlt] at hread
    rw [hread, if_neg hne]
  · have hread := (hat ws.length (by rw [List.length_append]; simp)).read
    rw [List.getElem_concat_length rfl] at hread
    rw [hread]
    rfl

/-- The bytes of a pair of words. -/
def pairBytes (p : Nat × Nat) : List UInt8 := littleEndian 8 p.1 ++ littleEndian 8 p.2

@[simp] theorem pairBytes_length (p : Nat × Nat) : (pairBytes p).length = 16 := by simp [pairBytes]

theorem pairs_eq {ps : List (Nat × Nat)} {fuel : Nat}
    (h : m.Holds a ((ps ++ [(0, 0)]).flatMap pairBytes))
    (hps : ∀ p ∈ ps, p.1 ≠ 0 ∧ p.1 < 2 ^ 64 ∧ p.2 < 2 ^ 64) (hfuel : ps.length < fuel) :
    m.pairs fuel a = ps := by
  have hat := h.items fun p _ => pairBytes_length p
  apply itemsFrom_eq _ _ hfuel
  · intro i hi
    obtain ⟨hne, hlt, hlt'⟩ := hps _ (List.getElem_mem hi)
    obtain ⟨htype, hval⟩ := holds_append.mp (hat i (by rw [List.length_append]; omega))
    have hread := htype.read
    have hread' := hval.read
    rw [List.getElem_append_left hi, show 256 ^ 8 = 2 ^ 64 by norm_num] at hread hread'
    rw [Nat.mod_eq_of_lt hlt] at hread
    rw [littleEndian_length, Nat.mod_eq_of_lt hlt'] at hread'
    rw [hread, hread', if_neg hne]
  · have hread := (holds_append.mp (hat ps.length (by rw [List.length_append]; simp))).1.read
    rw [List.getElem_concat_length rfl] at hread
    rw [hread]
    rfl

end Mem

end OsKernel.Lib

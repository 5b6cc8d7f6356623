import OsKernel.Lib.ByteMemory

/-! Ranges of bytes that are not in one piece in memory: the byte with the index `d` is at the
address `loc d`.  Stores in the parts of a range add up to a store in the whole range, in
either order. -/

namespace OsKernel.Lib

namespace Mem

variable {m m₁ m₂ : Mem} {loc : Nat → Nat} {f : Nat → UInt8} {a b c : Nat}

/-- The bytes with the first `n` indices. -/
def view (m : Mem) (loc : Nat → Nat) (n : Nat) : List UInt8 :=
  (List.range n).map fun d => m (loc d)

@[simp] theorem view_length (m : Mem) (loc : Nat → Nat) (n : Nat) :
    (m.view loc n).length = n := by
  simp [view]

@[simp] theorem view_zero (m : Mem) (loc : Nat → Nat) : m.view loc 0 = [] := rfl

theorem view_add (m : Mem) (loc : Nat → Nat) (n l : Nat) :
    m.view loc (n + l) = m.view loc n ++ m.view (fun d => loc (n + d)) l := by
  simp [view, List.range_add, Function.comp_def]

/-- A range in one piece. -/
theorem view_load {n p : Nat} (h : ∀ d < n, loc d = p + d) : m.view loc n = m.load p n := by
  refine List.map_congr_left fun d hd => ?_
  rw [h d (List.mem_range.mp hd)]

theorem view_eq {l : List UInt8} (h : ∀ d < l.length, m (loc d) = l.getD d 0) :
    m.view loc l.length = l := by
  refine List.ext_getElem (view_length m loc _) fun d hd hl => ?_
  simp only [view, List.getElem_map, List.getElem_range]
  rw [h d hl, List.getD_eq_getElem?_getD, List.getElem?_eq_getElem hl, Option.getD_some]

/-- The bytes of a list go one after the other to the indices from `a` on.  Where two indices have
one address, the later byte stays. -/
def scatter (m : Mem) (loc : Nat → Nat) : Nat → List UInt8 → Mem
  | _, [] => m
  | a, b :: l => scatter (Function.update m (loc a) b) loc (a + 1) l

theorem scatter_append (m : Mem) (loc : Nat → Nat) (a : Nat) (l l' : List UInt8) :
    m.scatter loc a (l ++ l') = (m.scatter loc a l).scatter loc (a + l.length) l' := by
  induction l generalizing m a with
  | nil => rfl
  | cons b l ih =>
    rw [List.cons_append, scatter, scatter, ih, List.length_cons, Nat.add_assoc, Nat.add_comm 1]

/-- A range in one piece. -/
theorem scatter_store {p : Nat} {l : List UInt8} (h : ∀ d < l.length, loc (a + d) = p + d) :
    m.scatter loc a l = m.store p l := by
  induction l generalizing m a p with
  | nil => rw [scatter, Mem.store_nil]
  | cons b l ih =>
    have h0 := h 0 (by simp)
    rw [Nat.add_zero, Nat.add_zero] at h0
    rw [scatter, ih fun d hd => ?_, h0, Mem.store_cons]
    have hd := h (d + 1) (by simpa using hd)
    rwa [show a + (d + 1) = a + 1 + d by omega, show p + (d + 1) = p + 1 + d by omega] at hd

theorem scatter_outside {x : Nat} {l : List UInt8} (h : ∀ d < l.length, x ≠ loc (a + d)) :
    m.scatter loc a l x = m x := by
  induction l generalizing m a with
  | nil => rfl
  | cons b l ih =>
    have h0 := h 0 (by simp)
    rw [Nat.add_zero] at h0
    rw [scatter, ih fun d hd => ?_, Function.update_of_ne h0]
    have hd := h (d + 1) (by simpa using hd)
    rwa [show a + (d + 1) = a + 1 + d by omega] at hd

/-- `m'` has the bytes `f d` for the indices from `a` to `b`, and all other bytes of `m`. -/
structure Stored (m : Mem) (loc : Nat → Nat) (f : Nat → UInt8) (a b : Nat) (m' : Mem) :
    Prop where
  inside : ∀ d, a ≤ d → d < b → m' (loc d) = f d
  outside : ∀ x, (∀ d, a ≤ d → d < b → x ≠ loc d) → m' x = m x

namespace Stored

theorem refl (m : Mem) (loc : Nat → Nat) (f : Nat → UInt8) (h : b ≤ a) :
    Stored m loc f a b m :=
  ⟨fun d hl hu => by omega, fun _ _ => rfl⟩

theorem congr {f' : Nat → UInt8} (h : Stored m loc f a b m₁)
    (hf : ∀ d, a ≤ d → d < b → f d = f' d) : Stored m loc f' a b m₁ :=
  ⟨fun d hl hu => by rw [h.inside d hl hu, hf d hl hu], h.outside⟩

/-- A store of a list where the range is in one piece. -/
theorem store {p : Nat} {l : List UInt8} (hlen : l.length = b - a)
    (hloc : ∀ d, a ≤ d → d < b → loc d = p + (d - a))
    (hf : ∀ d, a ≤ d → d < b → l.getD (d - a) 0 = f d) :
      Stored m loc f a b (m.store p l) := by
  constructor
  · intro d hl hu
    rw [hloc d hl hu, Mem.store, if_pos (by omega), Nat.add_sub_cancel_left, hf d hl hu]
  · intro x hx
    refine Mem.store_outside ?_
    by_contra hc
    refine hx (a + (x - p)) (by omega) (by omega) ?_
    rw [hloc _ (by omega) (by omega)]
    omega

/-- The part below first, and then the part above. -/
theorem append (h₁ : Stored m loc f a b m₁) (h₂ : Stored m₁ loc f b c m₂)
    (hinj : ∀ d e, a ≤ d → d < b → b ≤ e → e < c → loc d ≠ loc e) (hab : a ≤ b)
    (hbc : b ≤ c) :
    Stored m loc f a c m₂ := by
  constructor
  · intro d hl hu
    by_cases hd : d < b
    · rw [h₂.outside _ fun e hbe hec => hinj d e hl hd hbe hec]
      exact h₁.inside d hl hd
    · exact h₂.inside d (by omega) hu
  · intro x hx
    rw [h₂.outside x fun d hl hu => hx d (by omega) hu]
    exact h₁.outside x fun d hl hu => hx d hl (by omega)

/-- The part above first, and then the part below. -/
theorem prepend (h₁ : Stored m loc f b c m₁) (h₂ : Stored m₁ loc f a b m₂)
    (hinj : ∀ d e, a ≤ d → d < b → b ≤ e → e < c → loc d ≠ loc e) (hab : a ≤ b)
    (hbc : b ≤ c) :
    Stored m loc f a c m₂ := by
  constructor
  · intro d hl hu
    by_cases hd : d < b
    · exact h₂.inside d hl hd
    · rw [h₂.outside _ fun e hae heb => (hinj e d hae heb (by omega) hu).symm]
      exact h₁.inside d (by omega) hu
  · intro x hx
    rw [h₂.outside x fun d hl hu => hx d hl (by omega)]
    exact h₁.outside x fun d hl hu => hx d (by omega) hu

/-- The indices counted from `n` on. -/
theorem shift {n : Nat} (h : Stored m (fun d => loc (n + d)) (fun d => f (n + d)) a b m₁) :
    Stored m loc f (n + a) (n + b) m₁ := by
  constructor
  · intro d hl hu
    have := h.inside (d - n) (by omega) (by omega)
    rwa [show n + (d - n) = d by omega] at this
  · intro x hx
    exact h.outside x fun d hl hu => hx (n + d) (by omega) (by omega)

end Stored

end Mem

end OsKernel.Lib

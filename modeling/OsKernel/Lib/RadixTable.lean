import Mathlib.Logic.Function.Basic
import Mathlib.Tactic.Ring

/-! Multi-level tables.  A table at level `l + 1` has `fan` entries, each of which refers to a table
at level `l` or to none.  `T l q` is the table at level `l` for the prefix `q`: the tables form a
tree in which a table determines its level and prefix, so an entry belongs to one prefix alone. -/

namespace OsKernel.Lib

variable {α : Type}

structure RadixTable (fan top : Nat) (child : α → Nat → Option α) (root : α)
    (T : Nat → Nat → Option α) : Prop where
  root : T top 0 = some root
  range : ∀ {l q a}, T l q = some a → l ≤ top ∧ (l = top → q = 0)
  inj : ∀ {l q l' q' a}, T l q = some a → T l' q' = some a → l = l' ∧ q = q'
  dir : ∀ {l q a i}, T (l + 1) q = some a → i < fan → child a i = T l (fan * q + i)
  closed : ∀ {l q a}, T l q = some a → l < top → ∃ b, T (l + 1) (q / fan) = some b

namespace RadixTable

variable {fan top : Nat} {child child' : α → Nat → Option α} {root : α}
  {T : Nat → Nat → Option α}

/-- The tables with `b` added at level `l` and prefix `q`. -/
def attach (T : Nat → Nat → Option α) (l q : Nat) (b : α) : Nat → Nat → Option α :=
  fun l' q' =>
  if l' = l ∧ q' = q then some b else T l' q'

theorem attach_self {l q : Nat} {b : α} : attach T l q b l q = some b := if_pos ⟨rfl, rfl⟩

theorem attach_of_some {l q l' q' : Nat} {a b : α} (hfree : T l q = none) (h : T l' q' = some a) :
    attach T l q b l' q' = some a := by
  rw [attach, if_neg]
  · exact h
  · rintro ⟨rfl, rfl⟩
    rw [hfree] at h
    cases h

theorem attach_cases {l q l' q' : Nat} {a b : α} (h : attach T l q b l' q' = some a) :
    (l' = l ∧ q' = q ∧ a = b) ∨ T l' q' = some a := by
  rw [attach] at h
  split at h
  · rename_i he
    exact .inl ⟨he.1, he.2, by simpa using h.symm⟩
  · exact .inr h

/-- Below an absent table there is nothing. -/
theorem none_below (R : RadixTable fan top child root T) {l q i : Nat} (h : T (l + 1) q = none)
    (hl : l < top) (hi : i < fan) : T l (fan * q + i) = none := by
  cases hT : T l (fan * q + i) with
  | none => rfl
  | some a =>
    obtain ⟨b, hb⟩ := R.closed hT hl
    have hdiv : (fan * q + i) / fan = q := by
      rw [Nat.mul_add_div (by omega), Nat.div_eq_of_lt hi, Nat.add_zero]
    rw [hdiv, h] at hb
    cases hb

/-- The entries of the directories determine the tables. -/
theorem unique {T' : Nat → Nat → Option α} (R : RadixTable fan top child root T)
    (R' : RadixTable fan top child root T') (hfan : 0 < fan) {l q : Nat} {a : α}
    (h : T l q = some a) : T' l q = some a := by
  obtain ⟨n, hn⟩ : ∃ n, l + n = top := ⟨top - l, by have := (R.range h).1; omega⟩
  -- from the root down
  induction n generalizing l q a with
  | zero =>
    have hl : l = top := hn
    subst hl
    have hq := (R.range h).2 rfl
    subst hq
    rw [R'.root, ← h, R.root]
  | succ n ih =>
    obtain ⟨b, hb⟩ := R.closed h (by omega)
    have hdir := R.dir hb (Nat.mod_lt q hfan)
    have hdir' := R'.dir (ih hb (by omega)) (Nat.mod_lt q hfan)
    rw [Nat.div_add_mod] at hdir hdir'
    rw [← hdir', hdir, h]

/-- The tables depend on the entries of the directories alone. -/
theorem congr (R : RadixTable fan top child root T)
    (h : ∀ {l q a i}, T (l + 1) q = some a → i < fan → child' a i = child a i) :
    RadixTable fan top child' root T :=
  ⟨R.root, R.range, R.inj, fun ha hi => (h ha hi).trans (R.dir ha hi), R.closed⟩

/-- A new empty table goes where an entry was empty. -/
theorem attach_table (R : RadixTable fan top child root T) {l q i : Nat} {a b : α}
    (ha : T (l + 1) q = some a) (hi : i < fan) (hfree : T l (fan * q + i) = none)
    (hnew : ∀ l q, T l q ≠ some b) (hset : child' a i = some b)
    (hempty : ∀ j < fan, child' b j = none)
    (hkeep : ∀ {l' q' a' j}, T (l' + 1) q' = some a' → j < fan → (a' ≠ a ∨ j ≠ i) →
      child' a' j = child a' j) :
    RadixTable fan top child' root (attach T l (fan * q + i) b) := by
  have htop := (R.range ha).1
  have hdiv : (fan * q + i) / fan = q := by
    rw [Nat.mul_add_div (by omega), Nat.div_eq_of_lt hi, Nat.add_zero]
  have hmod : (fan * q + i) % fan = i := by
    rw [Nat.mul_add_mod, Nat.mod_eq_of_lt hi]
  refine ⟨attach_of_some hfree R.root, fun {l' q' a'} h => ?_,
    fun {l₁ q₁ l₂ q₂ c} h₁ h₂ => ?_,
    fun {l' q' a' j} h hj => ?_, fun {l' q' a'} h hl => ?_⟩
  · rcases attach_cases h with ⟨rfl, rfl, rfl⟩ | h
    · exact ⟨by omega, by omega⟩
    · exact R.range h
  · rcases attach_cases h₁ with ⟨e₁, p₁, c₁⟩ | t₁ <;> rcases attach_cases h₂ with
      ⟨e₂, p₂, c₂⟩ | t₂
    · exact ⟨e₁.trans e₂.symm, p₁.trans p₂.symm⟩
    · exact absurd (c₁ ▸ t₂) (hnew _ _)
    · exact absurd (c₂ ▸ t₁) (hnew _ _)
    · exact R.inj t₁ t₂
  · rcases attach_cases h with ⟨rfl, rfl, rfl⟩ | t
    · -- the new table is empty, and nothing was below it
      rw [hempty j hj, attach, if_neg (by omega)]
      exact (R.none_below hfree (by omega) hj).symm
    · by_cases hij : a' = a ∧ j = i
      · obtain ⟨ha', hji⟩ := hij
        obtain ⟨hl, hq⟩ := R.inj t (ha' ▸ ha)
        obtain rfl : l' = l := by omega
        rw [ha', hji, hq, hset, attach_self]
      · rw [hkeep t hj (by by_contra hc; push Not at hc; exact hij hc), attach, if_neg]
        · exact R.dir t hj
        · rintro ⟨rfl, hq⟩
          -- the same entry of the same table
          have h1 : (fan * q' + j) / fan = q' := by
            rw [Nat.mul_add_div (by omega), Nat.div_eq_of_lt hj, Nat.add_zero]
          have h2 : (fan * q' + j) % fan = j := by
            rw [Nat.mul_add_mod, Nat.mod_eq_of_lt hj]
          rw [hq, hdiv] at h1
          rw [hq, hmod] at h2
          rw [← h1, ha] at t
          exact hij ⟨by simpa using t.symm, h2.symm⟩
  · rcases attach_cases h with ⟨e, p, -⟩ | t
    · exact ⟨a, by rw [e, p, hdiv]; exact attach_of_some hfree ha⟩
    · obtain ⟨c, hc⟩ := R.closed t hl
      exact ⟨c, attach_of_some hfree hc⟩

/-- One table with no entries. -/
theorem single (hempty : ∀ j < fan, child root j = none) :
    RadixTable fan top child root (fun l q => if l = top ∧ q = 0 then some root else none) := by
  refine ⟨if_pos ⟨rfl, rfl⟩, fun h => ?_, fun h h' => ?_, fun {l q a i} h hi => ?_,
    fun h hl => ?_⟩
  · split at h
    · rename_i he
      exact ⟨he.1.le, fun _ => he.2⟩
    · cases h
  · split at h <;> split at h'
    · rename_i he he'
      exact ⟨he.1.trans he'.1.symm, he.2.trans he'.2.symm⟩
    · cases h'
    · cases h
    · cases h
  · split at h
    · rename_i he
      rw [if_neg (by omega), ← hempty i hi]
      rw [Option.some.inj h]
    · cases h
  · split at h
    · omega
    · cases h

/-- The table at level `l'` for the prefix `q'` is the one at level `l` for `q`, or below it. -/
def Below (fan l q l' q' : Nat) : Prop := l' ≤ l ∧ q' / fan ^ (l - l') = q

theorem Below.refl (fan l q : Nat) : Below fan l q l q :=
  ⟨Nat.le_refl l, by rw [Nat.sub_self, Nat.pow_zero, Nat.div_one]⟩

theorem Below.level_zero {l' q q' : Nat} (h : Below fan 0 q l' q') : l' = 0 ∧ q' = q := by
  obtain ⟨hl, hq⟩ := h
  obtain rfl : l' = 0 := by omega
  rw [Nat.sub_self, Nat.pow_zero, Nat.div_one] at hq
  exact ⟨rfl, hq⟩

/-- Below a table are the table itself and what is below its entries. -/
theorem below_succ (hfan : 0 < fan) {l q l' q' : Nat} :
    Below fan (l + 1) q l' q' ↔
      (l' = l + 1 ∧ q' = q) ∨ ∃ i < fan, Below fan l (fan * q + i) l' q' := by
  constructor
  · rintro ⟨hl, hq⟩
    rcases Nat.eq_or_lt_of_le hl with rfl | hlt
    · rw [Nat.sub_self, Nat.pow_zero, Nat.div_one] at hq
      exact .inl ⟨rfl, hq⟩
    · rw [Nat.succ_sub (by omega), Nat.pow_succ, ← Nat.div_div_eq_div_mul] at hq
      refine .inr ⟨q' / fan ^ (l - l') % fan, Nat.mod_lt _ hfan, by omega, ?_⟩
      rw [← hq, Nat.div_add_mod]
  · rintro (⟨rfl, rfl⟩ | ⟨i, hi, hl, hq⟩)
    · exact .refl fan _ _
    · refine ⟨by omega, ?_⟩
      rw [Nat.succ_sub hl, Nat.pow_succ, ← Nat.div_div_eq_div_mul, hq,
        Nat.mul_add_div hfan, Nat.div_eq_of_lt hi, Nat.add_zero]

/-- What is below two entries of a table is the same only if they are one entry. -/
theorem Below.entry_eq {l q i j l' q' : Nat} (h : Below fan l (fan * q + i) l' q')
    (h' : Below fan l (fan * q + j) l' q') : i = j := by
  have := h.2.symm.trans h'.2
  omega

/-- Above a table there are tables up to the root. -/
theorem above (R : RadixTable fan top child root T) {l q l' q' : Nat} {a : α}
    (h : Below fan l q l' q') (hl : l ≤ top) (ha : T l' q' = some a) : ∃ b, T l q = some b := by
  obtain ⟨hle, hq⟩ := h
  obtain ⟨n, rfl⟩ := Nat.exists_eq_add_of_le hle
  rw [Nat.add_sub_cancel_left] at hq
  subst hq
  induction n with
  | zero =>
    rw [Nat.pow_zero, Nat.div_one]
    exact ⟨a, ha⟩
  | succ n ih =>
    obtain ⟨b, hb⟩ := ih (by omega) (by omega)
    obtain ⟨c, hc⟩ := R.closed hb (by omega)
    rw [Nat.pow_succ, ← Nat.div_div_eq_div_mul]
    exact ⟨c, hc⟩

/-- Every table is below the root. -/
theorem below_root (R : RadixTable fan top child root T) {l q : Nat} {a : α}
    (ha : T l q = some a) : Below fan top 0 l q := by
  have hl := (R.range ha).1
  have hq : Below fan top (q / fan ^ (top - l)) l q := ⟨hl, rfl⟩
  obtain ⟨b, hb⟩ := R.above hq (Nat.le_refl top) ha
  have h0 := (R.range hb).2 rfl
  rwa [h0] at hq

end RadixTable

end OsKernel.Lib

import Mathlib.Data.Fintype.Card
import Mathlib.Data.Fintype.Sum

/-! Objects that are counted by the slots that point to them. -/

namespace OsKernel.RefCount

variable {σ α : Type} [Fintype σ] [DecidableEq α]
  {ptr : σ → Option α} {cnt : α → Option Nat} {x : σ} {f : α}

/-- The number of slots that point to `f`. -/
def refs (ptr : σ → Option α) (f : α) : Nat :=
  (Finset.univ.filter fun x => ptr x = some f).card

/-- An object exists while a slot points to it, and its count is the number of such slots. -/
def Exact (ptr : σ → Option α) (cnt : α → Option Nat) : Prop :=
  ∀ f, cnt f = if refs ptr f = 0 then none else some (refs ptr f)

theorem refs_pos_iff : 0 < refs ptr f ↔ ∃ x, ptr x = some f := by
  simp [refs, Finset.card_pos, Finset.filter_nonempty_iff]

theorem refs_le_card : refs ptr f ≤ Fintype.card σ := Finset.card_le_univ _

/-- A list of what some slots have, where one more slot has something. -/
theorem filterMap_perm {ι β : Type} [DecidableEq ι] {l : List ι} {g g' : ι → Option β}
    {p : ι} {x : β} (hl : l.Nodup) (hp : p ∈ l) (hg : g p = none) (hg' : g' p = some x)
    (hne : ∀ q, q ≠ p → g' q = g q) :
    (l.filterMap g').Perm (x :: l.filterMap g) := by
  have hperm := List.perm_cons_erase hp
  have h₁ := hperm.filterMap g
  have h₂ := hperm.filterMap g'
  rw [List.filterMap_cons_none hg] at h₁
  rw [List.filterMap_cons_some hg'] at h₂
  have hrest : (l.erase p).filterMap g' = (l.erase p).filterMap g := by
    refine List.filterMap_congr fun q hq => hne q ?_
    rintro rfl
    exact hl.not_mem_erase hq
  rw [hrest] at h₂
  exact h₂.trans (h₁.symm.cons x)

namespace Exact

theorem isSome_iff (h : Exact ptr cnt) : (cnt f).isSome ↔ 0 < refs ptr f := by
  rw [h f]
  split
  · simp_all
  · simp
    omega

theorem eq_refs (h : Exact ptr cnt) {k : Nat} (hk : cnt f = some k) : k = refs ptr f ∧ 0 < k := by
  rw [h f] at hk
  split at hk
  · cases hk
  · obtain rfl := Option.some.inj hk
    exact ⟨rfl, by omega⟩

/-- The object of a slot exists. -/
theorem of_ptr (h : Exact ptr cnt) (hx : ptr x = some f) :
    ∃ k, cnt f = some k ∧ 0 < k ∧ k ≤ Fintype.card σ := by
  have hpos : 0 < refs ptr f := refs_pos_iff.mpr ⟨x, hx⟩
  refine ⟨refs ptr f, ?_, hpos, refs_le_card⟩
  rw [h f, if_neg (by omega)]

end Exact

variable [DecidableEq σ]

theorem refs_update (ptr : σ → Option α) (x : σ) (v : Option α) (f : α) :
    refs (Function.update ptr x v) f + (if ptr x = some f then 1 else 0) =
      refs ptr f + if v = some f then 1 else 0 := by
  -- Without the slot `x` the two sets of slots are the same.
  have key : ∀ g : σ → Option α, refs g f =
      ((Finset.univ.erase x).filter fun y => g y = some f).card + if g x = some f then 1
        else 0 := by
    intro g
    rw [refs, ← Finset.insert_erase (Finset.mem_univ x), Finset.filter_insert]
    by_cases hx : g x = some f
    · rw [if_pos hx, if_pos hx, Finset.card_insert_of_notMem (by simp)]
      simp
    · rw [if_neg hx, if_neg hx]
      simp
  have hrest : ((Finset.univ.erase x).filter fun y => Function.update ptr x v y = some f) =
      (Finset.univ.erase x).filter fun y => ptr y = some f := by
    refine Finset.filter_congr fun y hy => ?_
    rw [Function.update_of_ne (Finset.ne_of_mem_erase hy)]
  rw [key (Function.update ptr x v), key ptr, hrest, Function.update_self]
  omega

namespace Exact

/-- A slot that pointed to nothing points to an object, which is counted once more. -/
theorem share (h : Exact ptr cnt) (hx : ptr x = none) {k : Nat}
    (hk : cnt f = some k ∨ cnt f = none ∧ k = 0) :
    Exact (Function.update ptr x (some f)) (Function.update cnt f (some (k + 1))) := by
  intro g
  have hu := refs_update ptr x (some f) g
  rw [hx, if_neg (by simp), Nat.add_zero] at hu
  by_cases hg : g = f
  · subst hg
    have hkr : k = refs ptr g := by
      rcases hk with hk | ⟨hk, rfl⟩
      · exact (h.eq_refs hk).1
      · by_contra hne
        have := (h.isSome_iff (f := g)).mpr (by omega)
        rw [hk] at this
        cases this
    rw [if_pos rfl] at hu
    rw [Function.update_self, hu, if_neg (by omega), hkr]
  · rw [if_neg fun he => hg (Option.some.inj he).symm, Nat.add_zero] at hu
    rw [Function.update_of_ne hg, hu]
    exact h g

/-- A slot is cleared, and its object is counted once less. -/
theorem drop (h : Exact ptr cnt) (hx : ptr x = some f) {k : Nat} (hk : cnt f = some k) :
    Exact (Function.update ptr x none)
      (Function.update cnt f (if k = 1 then none else some (k - 1))) := by
  intro g
  have hu := refs_update ptr x none g
  rw [if_neg (by simp : ¬ (none : Option α) = some g), Nat.add_zero, hx] at hu
  by_cases hg : g = f
  · subst hg
    obtain ⟨hkr, hpos⟩ := h.eq_refs hk
    rw [if_pos rfl] at hu
    rw [Function.update_self]
    by_cases h1 : k = 1
    · rw [if_pos h1, if_pos (by omega)]
    · rw [if_neg h1, if_neg (by omega)]
      congr 1
      omega
  · rw [if_neg fun he => hg (Option.some.inj he).symm, Nat.add_zero] at hu
    rw [Function.update_of_ne hg, hu]
    exact h g

end Exact

end OsKernel.RefCount

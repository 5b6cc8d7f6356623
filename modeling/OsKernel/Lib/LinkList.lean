import Mathlib.Data.Fintype.Card
import Mathlib.Logic.Function.Basic
import OsKernel.Lib.Ring

/-! A doubly linked list of all elements of a finite type, with a head that is not one of them:
insertion behind the head, removal, and loops along the links in both directions. -/

namespace OsKernel.Lib

/-- The links of the elements and, under `none`, of the head. -/
structure Links (α : Type) where
  next : Option α → Option α
  prev : Option α → Option α

namespace Links

variable {α : Type} {k : Links α} {l : List α} {i : α}

/-- `i` is put right behind the head. -/
def insertFirst [DecidableEq α] (k : Links α) (i : α) : Links α :=
  let next := Function.update k.next (some i) (k.next none)
  let prev := Function.update k.prev (some i) none
  let prev := Function.update prev (next none) (some i)
  ⟨Function.update next none (some i), prev⟩

/-- `i` is taken out. -/
def unlink [DecidableEq α] (k : Links α) (i : α) : Links α :=
  let next := Function.update k.next (k.prev (some i)) (k.next (some i))
  ⟨next, Function.update k.prev (next (some i)) (k.prev (some i))⟩

/-- The loop along `link`, up to the first element for which `found` holds.  It has no result where
it does not end within `fuel` turns. -/
def loop (link : Option α → Option α) (found : α → Bool) : Nat → Option α →
    Option (Option α)
  | _, none => some none
  | 0, some _ => none
  | fuel + 1, some i => if found i then some (some i) else loop link found fuel (link (some i))

/-- The list has each element once, in the order `l`. -/
structure Order (k : Links α) (l : List α) : Prop where
  all : ∀ i, i ∈ l
  ring : Ring k.next k.prev none (l.map some)

theorem ring_insertFirst [DecidableEq α] (h : Ring k.next k.prev none (l.map some))
    (hi : i ∉ l) : Ring (k.insertFirst i).next (k.insertFirst i).prev none
      ((i :: l).map some) := by
  have hmem : some i ∉ none :: l.map some := by simpa using hi
  have hne : k.next none ≠ some i := fun he => hmem (he ▸ h.next_head_mem)
  refine h.insert hmem ?_ ?_ ?_ ?_ ?_ ?_
  · simp [insertFirst]
  · simp [insertFirst, hne.symm]
  · simp [insertFirst]
  · simp [insertFirst]
  · intro x hx
    have hxi : x ≠ some i := fun he => hmem (List.mem_cons_of_mem _ (he ▸ hx))
    have hxn : x ≠ none := fun he => h.notMem (he ▸ hx)
    simp [insertFirst, hxi, hxn]
  · intro x hx hxn
    have hxi : x ≠ some i := fun he => hmem (he ▸ hx)
    simp [insertFirst, hxi, hxn]

theorem ring_unlink [DecidableEq α] (h : Ring k.next k.prev none (l.map some)) (hi : i ∈ l) :
    Ring (k.unlink i).next (k.unlink i).prev none ((l.erase i).map some) := by
  have hmem : some i ∈ l.map some := List.mem_map_of_mem hi
  have hne := h.prev_ne hmem
  have hnext : Function.update k.next (k.prev (some i)) (k.next (some i)) (some i) =
      k.next (some i) := Function.update_of_ne hne.symm _ _
  have herase : (l.erase i).map some = (l.map some).erase (some i) :=
    List.map_erase (Option.some_injective _) l
  refine herase ▸ h.remove hmem ?_ ?_ ?_ ?_
  · simp [unlink]
  · simp [unlink, hnext]
  · intro x _ _ hx
    simp [unlink, hx]
  · intro x _ _ hx
    simp [unlink, hnext, hx]

/-- The loop along the links of a ring looks at its members in order. -/
theorem loop_ring {link back : Option α → Option α} {found : α → Bool} (ys xs : List α)
    (fuel : Nat) (hr : Ring link back none ((xs ++ ys).map some)) (hfuel : ys.length ≤ fuel) :
    loop link found fuel ((ys.map some ++ [none]).head (by simp)) = some (ys.find? found) := by
  induction ys generalizing xs fuel with
  | nil =>
    unfold loop
    rfl
  | cons y ys ih =>
    obtain ⟨fuel, rfl⟩ : ∃ f, fuel = f + 1 := ⟨fuel - 1, by simp at hfuel; omega⟩
    have hlink : link (some y) = (ys.map some ++ [none]).head (by simp) := by
      rw [List.map_append, List.map_cons] at hr
      exact hr.around.2.2.2.1
    have hrest := ih (xs ++ [y]) fuel (by simpa using hr) (by simpa using hfuel)
    simp only [List.map_cons, List.cons_append, List.head_cons, loop, List.find?_cons]
    cases found y with
    | true => rfl
    | false =>
      simp only [Bool.false_eq_true, if_false]
      rw [hlink, hrest]

theorem ring_head {link back : Option α → Option α} (hr : Ring link back none (l.map some)) :
    link none = (l.map some ++ [none]).head (by simp) := by
  rw [hr.next_head]
  cases l <;> rfl

namespace Order

theorem nodup (h : k.Order l) : l.Nodup :=
  List.Nodup.of_map _ (List.nodup_cons.mp h.ring.nodup).2

variable [DecidableEq α]

theorem length [Fintype α] (h : k.Order l) : l.length = Fintype.card α := by
  have hall : l.toFinset = Finset.univ :=
    Finset.eq_univ_iff_forall.mpr fun i => by simpa using h.all i
  rw [← List.toFinset_card_of_nodup h.nodup, hall, Finset.card_univ]

/-- A loop from the front of the list. -/
theorem loop_next [Fintype α] (h : k.Order l) (found : α → Bool) {fuel : Nat}
    (hfuel : Fintype.card α ≤ fuel) :
      loop k.next found fuel (k.next none) = some (l.find? found) := by
  rw [ring_head h.ring]
  exact loop_ring l [] fuel h.ring (h.length.trans_le hfuel)

/-- A loop from the back of the list. -/
theorem loop_prev [Fintype α] (h : k.Order l) (found : α → Bool) {fuel : Nat}
    (hfuel : Fintype.card α ≤ fuel) :
      loop k.prev found fuel (k.prev none) = some (l.reverse.find? found) := by
  have hring : Ring k.prev k.next none (l.reverse.map some) := by
    rw [List.map_reverse]
    exact h.ring.reverse
  rw [ring_head hring]
  exact loop_ring l.reverse [] fuel hring (by rw [List.length_reverse, h.length]; exact hfuel)

/-- One element goes to the front. -/
theorem moveFirst (h : k.Order l) (i : α) :
    ((k.unlink i).insertFirst i).Order (i :: l.erase i) := by
  refine ⟨fun j => ?_, ring_insertFirst (ring_unlink h.ring (h.all i)) h.nodup.not_mem_erase⟩
  by_cases hj : j = i
  · exact hj ▸ List.mem_cons_self ..
  · exact List.mem_cons_of_mem i ((List.mem_erase_of_ne hj).mpr (h.all j))

end Order

/-- The list that insertion of all elements builds. -/
theorem ring_foldl [DecidableEq α] (xs : List α) (k : Links α) (l : List α)
    (h : Ring k.next k.prev none (l.map some)) (hnd : (xs ++ l).Nodup) :
    Ring (xs.foldl insertFirst k).next (xs.foldl insertFirst k).prev none
      ((xs.reverse ++ l).map some) := by
  induction xs generalizing k l with
  | nil => exact h
  | cons x xs ih =>
    rw [List.foldl_cons, List.reverse_cons, List.append_assoc]
    have hx : x ∉ l := fun hx => (List.nodup_cons.mp hnd).1 (List.mem_append_right xs hx)
    refine ih _ _ (ring_insertFirst h hx) ?_
    exact (List.perm_middle.symm.nodup_iff).mp hnd

end Links

end OsKernel.Lib

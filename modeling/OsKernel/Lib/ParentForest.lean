import Mathlib.Data.Fintype.Card
import Mathlib.Data.Fintype.EquivFin
import Mathlib.Logic.Relation
import Mathlib.Order.WellFounded

/-! Forests given by parent pointers, and the climb from an element towards its root. -/

namespace OsKernel.ParentForest
open Relation

variable {α : Type} {parent parent' : α → Option α} {top p q t : α} {l : List α}

/-- One step towards the root. -/
def Up (parent : α → Option α) (p q : α) : Prop := parent p = some q

/-- `p` is `q`, or is below `q`. -/
def Below (parent : α → Option α) : α → α → Prop := ReflTransGen (Up parent)

/-- No element is below itself. -/
def Acyclic (parent : α → Option α) : Prop := ∀ p, ¬ TransGen (Up parent) p p

/-- The elements above `p` that a climb meets, up to the one without a parent (`false`) or the one
whose parent is `top` (`true`). -/
inductive Line (parent : α → Option α) (top : α) : α → List α → Bool → Prop
  | root {p : α} (h : parent p = none) : Line parent top p [] false
  | found {p : α} (h : parent p = some top) : Line parent top p [] true
  | up {p q : α} {l : List α} {b : Bool} (h : parent p = some q) (hne : q ≠ top)
      (hl : Line parent top q l b) : Line parent top p (q :: l) b

theorem up_unique {a b c : α} (h : Up parent a b) (h' : Up parent a c) : b = c :=
  Option.some.inj (h.symm.trans h')

namespace Acyclic

theorem mono (h : Acyclic parent) (hsub : ∀ p q, parent' p = some q → parent p = some q) :
    Acyclic parent' :=
  fun p hp => h p (TransGen.mono hsub _ _ hp)

theorem not_below (h : Acyclic parent) (hup : parent p = some q) : ¬ Below parent q p :=
  fun hb => h p (TransGen.head' hup hb)

theorem antisymm (h : Acyclic parent) (hpq : Below parent p q) (hqp : Below parent q p) :
    p = q := by
  rcases ReflTransGen.cases_head hpq with rfl | ⟨r, hup, hrq⟩
  · rfl
  · exact absurd (hrq.trans hqp) (h.not_below hup)

/-- Pointers that go down in some order have no cycle. -/
theorem of_lt (f : α → Nat) (h : ∀ p q, parent p = some q → f q < f p) : Acyclic parent := by
  have hlt : ∀ {p q}, TransGen (Up parent) p q → f q < f p := by
    intro p q hpq
    induction hpq with
    | single hup => exact h _ _ hup
    | tail _ hup ih => exact (h _ _ hup).trans ih
  exact fun p hp => Nat.lt_irrefl _ (hlt hp)

theorem wellFounded [Finite α] (h : Acyclic parent) :
    WellFounded fun q p => parent p = some q := by
  have htrans : IsTrans α fun q p => TransGen (Up parent) p q :=
    ⟨fun _ _ _ hab hbc => hbc.trans hab⟩
  have hirrefl : Std.Irrefl fun q p => TransGen (Up parent) p q := ⟨h⟩
  have hwf := Finite.wellFounded_of_trans_of_irrefl fun q p => TransGen (Up parent) p q
  exact Subrelation.wf (fun {q p} (hup : Up parent p q) => TransGen.single hup) hwf

theorem exists_line [Finite α] (h : Acyclic parent) (top p : α) :
    ∃ l b, Line parent top p l b := by
  induction p using h.wellFounded.induction with
  | _ p ih =>
    cases hup : parent p with
    | none => exact ⟨[], false, .root hup⟩
    | some q =>
      by_cases hq : q = top
      · exact ⟨[], true, .found (hq ▸ hup)⟩
      · obtain ⟨l, b, hl⟩ := ih q hup
        exact ⟨q :: l, b, .up hup hq hl⟩

/-- An element has one element above it whose parent is `top`. -/
theorem child_unique (h : Acyclic parent) {t' : α} (ht : Below parent p t)
    (htop : parent t = some top) (ht' : Below parent p t') (htop' : parent t' = some top) :
    t = t' := by
  -- The elements above `p` are in a line.
  have key : ∀ {t t'}, parent t = some top → parent t' = some top → Below parent t t' →
      t = t' := by
    intro t t' htop htop' hb
    rcases ReflTransGen.cases_head hb with rfl | ⟨r, hup, hr⟩
    · rfl
    · rw [up_unique hup htop] at hr
      exact absurd hr (h.not_below htop')
  have hunique : Relator.RightUnique (Up parent) := fun _ _ _ => up_unique
  rcases ReflTransGen.total_of_right_unique hunique ht ht' with hb | hb
  · exact key htop htop' hb
  · exact (key htop' htop hb).symm

end Acyclic

namespace Line

variable {b : Bool}

theorem mem_below (h : Line parent top p l b) : ∀ q ∈ p :: l, Below parent p q := by
  induction h with
  | root => simp [Below, ReflTransGen.refl]
  | found => simp [Below, ReflTransGen.refl]
  | up hup _ _ ih =>
    intro m hm
    rcases List.mem_cons.mp hm with rfl | hm
    · exact ReflTransGen.refl
    · exact ReflTransGen.head hup (ih m hm)

theorem nodup (h : Line parent top p l b) (hac : Acyclic parent) : (p :: l).Nodup := by
  induction h with
  | root => simp
  | found => simp
  | up hup _ hl ih =>
    exact List.nodup_cons.mpr ⟨fun hm => hac.not_below hup (hl.mem_below _ hm), ih⟩

theorem length_lt [Fintype α] (h : Line parent top p l b) (hac : Acyclic parent) :
    l.length < Fintype.card α :=
  (h.nodup hac).length_le_card

/-- A climb that ends at the root has passed no child of `top`. -/
theorem not_found (h : Line parent top p l false) (ht : Below parent p t) :
    parent t ≠ some top := by
  generalize hb : false = b at h
  induction h with
  | root hroot =>
    rcases ReflTransGen.cases_head ht with rfl | ⟨r, hup, -⟩
    · simp [hroot]
    · rw [Up, hroot] at hup
      cases hup
  | found => cases hb
  | up hup hne _ ih =>
    rcases ReflTransGen.cases_head ht with rfl | ⟨r, hup', hr⟩
    · rw [hup]
      exact fun he => hne (Option.some.inj he)
    · rw [up_unique hup' hup] at hr
      exact ih hr hb

/-- A climb that ends at a child of `top` has passed what is between. -/
theorem exists_child (h : Line parent top p l true) (hac : Acyclic parent) :
    ∃ t, Below parent p t ∧ parent t = some top ∧
      ∀ m, m ∈ p :: l ↔ Below parent p m ∧ Below parent m t := by
  generalize hb : true = b at h
  induction h with
  | root => cases hb
  | @found p htop =>
    refine ⟨p, ReflTransGen.refl, htop, fun m => ⟨fun hm => ?_, fun hm => ?_⟩⟩
    · rw [List.mem_singleton.mp hm]
      exact ⟨ReflTransGen.refl, ReflTransGen.refl⟩
    · exact List.mem_singleton.mpr (hac.antisymm hm.2 hm.1)
  | @up p q l b hup hne hl ih =>
    obtain ⟨t, ht, htop, hmem⟩ := ih hb
    have hpt : Below parent p t := ReflTransGen.head hup ht
    refine ⟨t, hpt, htop, fun m => ⟨fun hm => ?_, fun hm => ?_⟩⟩
    · rcases List.mem_cons.mp hm with rfl | hm
      · exact ⟨ReflTransGen.refl, hpt⟩
      · obtain ⟨h1, h2⟩ := (hmem m).mp hm
        exact ⟨ReflTransGen.head hup h1, h2⟩
    · rcases ReflTransGen.cases_head hm.1 with rfl | ⟨r, hup', hr⟩
      · exact List.mem_cons_self
      · rw [up_unique hup' hup] at hr
        exact List.mem_cons_of_mem _ ((hmem m).mpr ⟨hr, hm.2⟩)

end Line

end OsKernel.ParentForest

import Mathlib.Tactic.Ring

/-! How kernel code ends when it does not return: through `log_panic`, through a failed `assert`, or
by doing something the language leaves undefined.  Kernel functions that can end so give an
`Except Fault`. -/

namespace OsKernel

/-- The ways in which kernel code does not return. -/
inductive Fault where
  | panic (message : String)
  | assertion (message : String)
  | undefined (what : String)
  deriving DecidableEq, Repr

/-- `assert( cond, message )`. -/
def kassert (cond : Prop) [Decidable cond] (message : String) : Except Fault Unit :=
  if cond then .ok () else .error (.assertion message)

@[simp] theorem kassert_pos {cond : Prop} [Decidable cond] {message : String} (h : cond) :
    kassert cond message = .ok () := if_pos h

/-- A sequence of two computations succeeds through the result of the first. -/
theorem bind_eq_ok {α β : Type} {x : Except Fault α} {f : α → Except Fault β} {r : β} :
    (x >>= f) = .ok r ↔ ∃ a, x = .ok a ∧ f a = .ok r := by
  cases x with
  | error e => simp [bind, Except.bind]
  | ok a => simp [bind, Except.bind]

@[simp] theorem ok_bind {α β : Type} (a : α) (f : α → Except Fault β) :
    ((.ok a : Except Fault α) >>= f) = f a := rfl

@[simp] theorem error_bind {α β : Type} (e : Fault) (f : α → Except Fault β) :
    ((.error e : Except Fault α) >>= f) = .error e := rfl

/-- A loop over a list, where `P` holds of the rest of the list before each turn. -/
theorem foldlM_rule {α β : Type} {f : α → β → Except Fault α} {P : List β → α → Prop}
    (hstep : ∀ x l a, P (x :: l) a → ∃ a', f a x = .ok a' ∧ P l a') :
    ∀ (l : List β) (a : α), P l a → ∃ a', l.foldlM f a = .ok a' ∧ P [] a' := by
  intro l
  induction l with
  | nil => exact fun a h => ⟨a, rfl, h⟩
  | cons x l ih =>
    intro a h
    obtain ⟨a', hrun, h'⟩ := hstep x l a h
    rw [List.foldlM_cons, hrun, ok_bind]
    exact ih a' h'

/-- A loop over a list that has returned. -/
theorem foldlM_ok {α β : Type} {f : α → β → Except Fault α} {P : List β → α → Prop}
    (hstep : ∀ x l a a', P (x :: l) a → f a x = .ok a' → P l a') :
    ∀ (l : List β) (a a' : α), P l a → l.foldlM f a = .ok a' → P [] a' := by
  intro l
  induction l with
  | nil =>
    intro a a' h hrun
    exact Except.ok.inj hrun ▸ h
  | cons x l ih =>
    intro a a' h hrun
    rw [List.foldlM_cons] at hrun
    obtain ⟨a₁, hx, hrun⟩ := bind_eq_ok.mp hrun
    exact ih a₁ a' (hstep x l a a₁ h hx) hrun

/-- A loop that collects results and does not fail. -/
theorem mapM_ok {α β : Type} {f : α → Except Fault β} {g : α → β} {l : List α}
    (h : ∀ x ∈ l, f x = .ok (g x)) : l.mapM f = .ok (l.map g) := by
  induction l with
  | nil => rfl
  | cons x l ih =>
    rw [List.mapM_cons, h x (List.mem_cons_self ..), ok_bind,
      ih fun y hy => h y (List.mem_cons_of_mem x hy), ok_bind]
    rfl

end OsKernel

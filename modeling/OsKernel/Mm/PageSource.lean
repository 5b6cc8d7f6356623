import OsKernel.Hsai.Pte
import OsKernel.Mm.PhysicalMemory

/-! What kernel code relies on when it takes single pages from a page allocator, whatever the
allocator is.  `G` is the abstract state of the allocator: it says which bytes are handed out and
how many pages are left, and `grab g p g'` is the step that hands out the page at `p`. -/

namespace OsKernel.Mm

open Lib Hsai

structure PageSource {σ : Type} (V : VirtualPageAllocator σ) (arch : Arch) (G : Type) where
  inv : σ → Mem → G → Prop
  held : G → Nat → Prop
  room : G → Nat
  grab : G → Nat → G → Prop
  page : ∀ {g p g'}, grab g p g' → p % 4096 = 0 ∧ p ≠ 0 ∧ p + 4096 ≤ 2 ^ 64 ∧
    arch.Windowed p
  fresh : ∀ {g p g'}, grab g p g' → ∀ x, p ≤ x → x < p + 4096 → ¬held g x
  held_grab : ∀ {g p g'}, grab g p g' → ∀ x, held g' x ↔ held g x ∨
    (p ≤ x ∧ x < p + 4096)
  room_grab : ∀ {g p g'}, grab g p g' → room g ≤ room g' + 1
  alloc : ∀ {s m g}, inv s m g → ∃ r s' m', V.allocPages s m 1 = .ok (r, s', m') ∧
    AgreeOn (held g) m m' ∧ (r = none → inv s' m' g ∧ room g = 0) ∧
    ∀ p, r = some p → ∃ g', grab g p g' ∧ inv s' m' g'
  frame : ∀ {s m g m'}, inv s m g → AgreeOn (fun x => ¬held g x) m m' → inv s m' g

namespace PageSource

variable {σ G : Type} {V : VirtualPageAllocator σ} {arch : Arch} (S : PageSource V arch G)

/-- The pages handed out one after the other. -/
inductive Grabs : G → List Nat → G → Prop
  | nil {g : G} : Grabs g [] g
  | cons {g g' g'' : G} {p : Nat} {ps : List Nat} (h : S.grab g p g') (hs : Grabs g' ps g'') :
      Grabs g (p :: ps) g''

variable {S}

theorem Grabs.append {g g' g'' : G} {ps qs : List Nat} (h : S.Grabs g ps g')
    (h' : S.Grabs g' qs g'') : S.Grabs g (ps ++ qs) g'' := by
  induction h with
  | nil => exact h'
  | cons hp _ ih => exact .cons hp (ih h')

theorem Grabs.held {g g' : G} {ps : List Nat} (h : S.Grabs g ps g') (x : Nat) :
    S.held g' x ↔ S.held g x ∨ ∃ p ∈ ps, p ≤ x ∧ x < p + 4096 := by
  induction h with
  | nil => simp
  | cons hp _ ih =>
    rw [ih, S.held_grab hp]
    simp [or_assoc]

theorem Grabs.room {g g' : G} {ps : List Nat} (h : S.Grabs g ps g') :
    S.room g ≤ S.room g' + ps.length := by
  induction h with
  | nil => simp
  | cons hp _ ih =>
    have := S.room_grab hp
    rw [List.length_cons]
    omega

/-- What `k_pmm.alloc_page` gives: no page, or a new page of zeros. -/
theorem allocPage {k : Kernel σ} {g : G} (h : S.inv k.pages k.mem g) :
    (∃ k', pmmAllocPage V k = .ok (none, k') ∧ S.inv k'.pages k'.mem g ∧
        AgreeOn (S.held g) k.mem k'.mem ∧ S.room g = 0) ∨
      ∃ p k' g', pmmAllocPage V k = .ok (some p, k') ∧ S.grab g p g' ∧
        S.inv k'.pages k'.mem g' ∧ AgreeOn (S.held g) k.mem k'.mem := by
  obtain ⟨r, s', m', hrun, hkeep, hnone, hsome⟩ := S.alloc h
  unfold pmmAllocPage
  rw [hrun, ok_bind]
  cases r with
  | none => exact .inl ⟨_, rfl, (hnone rfl).1, hkeep, (hnone rfl).2⟩
  | some p =>
    obtain ⟨g', hgrab, hinv⟩ := hsome p rfl
    refine .inr ⟨p, _, g', rfl, hgrab, S.frame hinv fun x hx => ?_, fun x hx => ?_⟩
    · have hp := mt (S.held_grab hgrab x).mpr hx
      exact Mem.fill_outside (by unfold pageSize; omega)
    · rw [← hkeep x hx]
      have := S.fresh hgrab x
      exact Mem.fill_outside (by unfold pageSize; grind)

end PageSource

end OsKernel.Mm

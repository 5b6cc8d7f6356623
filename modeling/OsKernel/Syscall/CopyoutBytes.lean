import OsKernel.Mm.PageTable.Walk
import OsKernel.Mm.Vmm.Model

/-! The bytes that `copyout` stores for the user, also where it fails on the way. -/

namespace OsKernel.Syscall

open Mm Hsai

section

variable {σ : Type} (arch : Arch) (V : VirtualPageAllocator σ)

/-- The bytes that `copyoutLoop` stores for the user before it ends, by a result or by a fault. -/
def copyoutBytes (pt : PageTable) : Nat → Kernel σ → Nat → List UInt8 → List UInt8
  | 0, _, _, _ => []
  | turns + 1, k, va, p =>
    if p.length = 0 then []
    else
      let a := pageRoundDown va
      match walk arch V k pt a false with
      | .error _ => []
      | .ok pte =>
        let pa := arch.toVir (arch.toPa (pteData pte.2.mem pte.1))
        if pa = 0 then []
        else
          let n := min (pageSize - (va - a)) p.length
          let mem := pte.2.mem.store (arch.toVir (wordAdd pa (va - a))) (p.take n)
          p.take n ++
            copyoutBytes pt turns { pte.2 with mem := mem } (wordAdd a pageSize) (p.drop n)

/-- `copyout` cannot store at `va`: the walk to its page panics, or the page is the null one. -/
def NoPage (k : Kernel σ) (pt : PageTable) (va : Nat) : Prop :=
  ∀ pte, walk arch V k pt (pageRoundDown va) false = .ok pte →
    arch.toVir (arch.toPa (pteData k.mem pte.1)) = 0

/-- The kernel after the bytes of `p` that lie in the page of `va` are stored. -/
def storeFirst (k : Kernel σ) (pte va : Nat) (p : List UInt8) : Kernel σ :=
  { k with
    mem := k.mem.store
      (arch.toVir (wordAdd (arch.toVir (arch.toPa (pteData k.mem pte))) (va - pageRoundDown va)))
      (p.take (min (pageSize - (va - pageRoundDown va)) p.length)) }

/-- A copy of `p` to `va` ends before it has stored more than `size` bytes, as the first page or the
one after it is not there. -/
def CutShort (k : Kernel σ) (pt : PageTable) (va size : Nat) (p : List UInt8) : Prop :=
  NoPage arch V k pt va ∨
    (4096 - va % 4096 < p.length ∧ 4096 - va % 4096 ≤ size ∧
      ∀ pte, walk arch V k pt (pageRoundDown va) false = .ok (pte, k) →
        NoPage arch V (storeFirst arch k pte va p) pt (wordAdd (pageRoundDown va) pageSize))

end

/-! ### What is stored -/

section

variable {σ : Type} {arch : Arch} {V : VirtualPageAllocator σ} {k k' : Kernel σ} {pt : PageTable}
  {va : Nat} {p : List UInt8}

theorem page_rest (va : Nat) : pageSize - (va - pageRoundDown va) = 4096 - va % 4096 := by
  rw [pageRoundDown_eq, show pageSize = 4096 from rfl]
  omega

theorem copyoutBytes_nil (turns : Nat) : copyoutBytes arch V pt turns k va [] = [] := by
  cases turns with
  | zero => rfl
  | succ turns => rw [copyoutBytes, if_pos List.length_nil]

theorem copyoutBytes_none (h : NoPage arch V k pt va) (turns : Nat) :
    copyoutBytes arch V pt turns k va p = [] := by
  cases turns with
  | zero => rfl
  | succ turns =>
    rw [copyoutBytes]
    split
    · rfl
    cases hwalk : walk arch V k pt (pageRoundDown va) false with
    | error e => simp only [hwalk]
    | ok pte =>
      obtain ⟨pte, k₁⟩ := pte
      have hk := walk_state hwalk
      subst hk
      simp only [hwalk]
      exact if_pos (h _ hwalk)

/-- The turn at a page that is there. -/
theorem copyoutBytes_some {pte : Nat}
    (hwalk : walk arch V k pt (pageRoundDown va) false = .ok (pte, k))
    (hpa : arch.toVir (arch.toPa (pteData k.mem pte)) ≠ 0) (turns : Nat) :
    copyoutBytes arch V pt (turns + 1) k va p =
      p.take (4096 - va % 4096) ++ copyoutBytes arch V pt turns (storeFirst arch k pte va p)
        (wordAdd (pageRoundDown va) pageSize) (p.drop (4096 - va % 4096)) := by
  have hoff := page_rest va
  rw [copyoutBytes]
  split
  · rename_i h0
    obtain rfl := List.length_eq_zero_iff.mp h0
    simp [copyoutBytes_nil]
  simp only [hwalk]
  rw [if_neg hpa]
  unfold storeFirst
  rw [hoff, ← List.take_eq_take_min, ← List.drop_eq_drop_min]

variable (arch V) in
theorem page_or (k : Kernel σ) (pt : PageTable) (va : Nat) :
    NoPage arch V k pt va ∨ ∃ pte, walk arch V k pt (pageRoundDown va) false = .ok (pte, k) ∧
      arch.toVir (arch.toPa (pteData k.mem pte)) ≠ 0 := by
  rw [or_iff_not_imp_left]
  intro h
  unfold NoPage at h
  push Not at h
  obtain ⟨⟨pte, k₁⟩, hwalk, hpa⟩ := h
  have hk := walk_state hwalk
  subst hk
  exact ⟨pte, hwalk, hpa⟩

/-- A copy that returns 0 has stored all bytes. -/
theorem copyoutBytes_all (turns : Nat) (hturns : p.length ≤ turns) {r : Int} (hr : 0 ≤ r)
    (h : copyoutLoop arch V pt turns k va p = .ok (r, k')) :
    copyoutBytes arch V pt turns k va p = p := by
  induction turns generalizing k va p with
  | zero =>
    obtain rfl := List.length_eq_zero_iff.mp (Nat.le_zero.mp hturns)
    rfl
  | succ turns ih =>
    rw [copyoutLoop] at h
    split at h
    · rename_i h0
      obtain rfl := List.length_eq_zero_iff.mp h0
      exact copyoutBytes_nil _
    rename_i h0
    obtain ⟨⟨pte, k₁⟩, hwalk, hrest⟩ := bind_eq_ok.mp h
    have hk := walk_state hwalk
    subst hk
    simp only at hrest
    split at hrest
    · cases hrest
      exact absurd hr (by decide)
    rename_i hpa
    have hpos : 0 < 4096 - va % 4096 := by omega
    have hoff := page_rest va
    rw [copyoutBytes_some hwalk hpa]
    rw [hoff, ← List.drop_eq_drop_min] at hrest
    rw [ih (by rw [List.length_drop]; omega) (by
      unfold storeFirst
      rw [hoff]
      exact hrest)]
    exact List.take_append_drop _ _

variable (arch V)

/-- What a copy that reaches two pages at most stores, by the pages that are there. -/
theorem copyoutBytes_cases (k : Kernel σ) (pt : PageTable) (va : Nat) (hp : p.length ≤ 4096) :
    (NoPage arch V k pt va ∧ copyoutBytes arch V pt p.length k va p = []) ∨
      ∃ pte, walk arch V k pt (pageRoundDown va) false = .ok (pte, k) ∧
        arch.toVir (arch.toPa (pteData k.mem pte)) ≠ 0 ∧
        (p.length ≤ 4096 - va % 4096 ∧ copyoutBytes arch V pt p.length k va p = p ∨
          4096 - va % 4096 < p.length ∧
            ((NoPage arch V (storeFirst arch k pte va p)
                pt (wordAdd (pageRoundDown va) pageSize) ∧
                copyoutBytes arch V pt p.length k va p = p.take (4096 - va % 4096)) ∨
              ¬NoPage arch V (storeFirst arch k pte va p)
                pt (wordAdd (pageRoundDown va) pageSize) ∧
                  copyoutBytes arch V pt p.length k va p = p)) := by
  rcases page_or arch V k pt va with hno | ⟨pte, hwalk, hpa⟩
  · exact .inl ⟨hno, copyoutBytes_none hno _⟩
  refine .inr ⟨pte, hwalk, hpa, ?_⟩
  rcases Nat.eq_zero_or_pos p.length with h0 | hpos
  · obtain rfl := List.length_eq_zero_iff.mp h0
    exact .inl ⟨Nat.zero_le _, copyoutBytes_nil _⟩
  obtain ⟨turns, hturns⟩ : ∃ t, p.length = t + 1 := ⟨p.length - 1, by omega⟩
  have hrun := copyoutBytes_some (p := p) hwalk hpa turns
  rw [← hturns] at hrun
  rw [hrun]
  by_cases hin : p.length ≤ 4096 - va % 4096
  · -- all bytes lie in the first page
    rw [List.drop_eq_nil_of_le hin, copyoutBytes_nil, List.append_nil, List.take_of_length_le hin]
    exact .inl ⟨hin, rfl⟩
  refine .inr ⟨by omega, ?_⟩
  rcases page_or arch V (storeFirst arch k pte va p) pt (wordAdd (pageRoundDown va) pageSize) with
    hno | ⟨pte', hwalk', hpa'⟩
  · rw [copyoutBytes_none hno, List.append_nil]
    exact .inl ⟨hno, rfl⟩
  · -- the second page takes the rest
    obtain ⟨turns, rfl⟩ : ∃ t, turns = t + 1 := ⟨turns - 1, by omega⟩
    have hbase : wordAdd (pageRoundDown va) pageSize % 4096 = 0 := by
      unfold wordAdd wordSize pageRoundDown pageSize
      omega
    have hrest : (p.drop (4096 - va % 4096)).length ≤ 4096 := by
      rw [List.length_drop]
      omega
    rw [copyoutBytes_some hwalk' hpa', hbase, Nat.sub_zero, List.take_of_length_le hrest,
      List.drop_eq_nil_of_le hrest, copyoutBytes_nil, List.append_nil, List.take_append_drop]
    exact .inr ⟨fun h => hpa' (h (pte', _) hwalk'), rfl⟩

/-- The ways to store no more than `size` bytes. -/
theorem copyoutBytes_le_iff (k : Kernel σ) (pt : PageTable) (va : Nat) (hp : p.length ≤ 4096)
    (size : Nat) : (copyoutBytes arch V pt p.length k va p).length ≤ size ↔
      p.length ≤ size ∨ CutShort arch V k pt va size p := by
  rcases copyoutBytes_cases arch V k pt va hp with
    ⟨hno, hrun⟩ | ⟨pte, hwalk, hpa,
      ⟨hin, hrun⟩ | ⟨hover, ⟨hno, hrun⟩ | ⟨hthere, hrun⟩⟩⟩
  · rw [hrun]
    exact iff_of_true (Nat.zero_le _) (.inr (.inl hno))
  · rw [hrun]
    refine ⟨.inl, ?_⟩
    rintro (h | h | ⟨h, -⟩)
    · exact h
    · exact absurd (h (pte, k) hwalk) hpa
    · omega
  · rw [hrun, List.length_take, Nat.min_eq_left (by omega)]
    constructor
    · intro h
      refine .inr (.inr ⟨hover, h, fun pte₁ hw => ?_⟩)
      rw [hwalk] at hw
      cases hw
      exact hno
    · rintro (h | h | ⟨-, h, -⟩)
      · omega
      · exact absurd (h (pte, k) hwalk) hpa
      · exact h
  · rw [hrun]
    refine ⟨.inl, ?_⟩
    rintro (h | h | ⟨-, -, h⟩)
    · exact h
    · exact absurd (h (pte, k) hwalk) hpa
    · exact absurd (h pte hwalk) hthere

theorem storeFirst_congr {q : List UInt8} (pte : Nat)
    (h : p.take (4096 - va % 4096) = q.take (4096 - va % 4096)) :
    storeFirst arch k pte va p = storeFirst arch k pte va q := by
  have hoff := page_rest va
  unfold storeFirst
  rw [hoff, ← List.take_eq_take_min, ← List.take_eq_take_min, h]

/-- What is stored is a first part of the bytes. -/
theorem copyoutBytes_start (turns : Nat) (k : Kernel σ) (pt : PageTable) (va : Nat)
    (p : List UInt8) : copyoutBytes arch V pt turns k va p <+: p := by
  induction turns generalizing k va p with
  | zero => exact List.nil_prefix
  | succ turns ih =>
    rcases page_or arch V k pt va with hno | ⟨pte, hwalk, hpa⟩
    · rw [copyoutBytes_none hno]
      exact List.nil_prefix
    · rw [copyoutBytes_some hwalk hpa]
      conv_rhs => rw [← List.take_append_drop (4096 - va % 4096) p]
      apply List.prefix_append_right_inj _ |>.mpr
      exact ih ..

/-- A copy that is cut short at `m` stores what every copy stores that starts with the same
`m` bytes. -/
theorem copyoutBytes_congr {q : List UInt8} (k : Kernel σ) (pt : PageTable) (va : Nat)
    (hlen : q.length = p.length) {m : Nat} (hbefore : p.take m = q.take m)
    (hcut : CutShort arch V k pt va m p) :
    copyoutBytes arch V pt p.length k va p = copyoutBytes arch V pt q.length k va q := by
  rcases page_or arch V k pt va with hno | ⟨pte, hwalk, hpa⟩
  · rw [copyoutBytes_none hno, copyoutBytes_none hno]
  rcases hcut with hno | ⟨hover, hle, hno⟩
  · exact absurd (hno (pte, k) hwalk) hpa
  -- both stop at the end of the first page
  have hsame : p.take (4096 - va % 4096) = q.take (4096 - va % 4096) := by
    have := congrArg (List.take (4096 - va % 4096)) hbefore
    rwa [List.take_take, List.take_take, Nat.min_eq_left hle] at this
  have hno' := hno pte hwalk
  rw [storeFirst_congr arch pte hsame] at hno'
  obtain ⟨turns, hturns⟩ : ∃ t, p.length = t + 1 := ⟨p.length - 1, by omega⟩
  rw [hlen, hturns, copyoutBytes_some hwalk hpa, copyoutBytes_none (hno pte hwalk),
    copyoutBytes_some hwalk hpa, copyoutBytes_none hno', hsame]

/-- Two copies of bytes that first differ at `m` store the same only if they are cut short there. -/
theorem cutShort_of_eq {q : List UInt8} (k : Kernel σ) (pt : PageTable) (va : Nat)
    (hp : p.length ≤ 4096) {m : Nat} (hm : m < p.length) (hat : p[m]? ≠ q[m]?)
    (h : copyoutBytes arch V pt p.length k va p = copyoutBytes arch V pt q.length k va q) :
    CutShort arch V k pt va m p := by
  have hcut := copyoutBytes_le_iff arch V k pt va hp m
  rw [or_iff_right (by omega)] at hcut
  rw [← hcut]
  by_contra hlong
  have hin : m < (copyoutBytes arch V pt p.length k va p).length := by omega
  have hget : ∀ l : List UInt8, m < (copyoutBytes arch V pt l.length k va l).length →
      l[m]? = (copyoutBytes arch V pt l.length k va l)[m]? := by
    intro l hl
    obtain ⟨t, ht⟩ := copyoutBytes_start arch V l.length k pt va l
    have happ : (copyoutBytes arch V pt l.length k va l ++ t)[m]? = _ :=
      List.getElem?_append_left hl
    rwa [ht] at happ
  apply hat
  rw [hget p hin, h, ← hget q (h ▸ hin)]

end

end OsKernel.Syscall

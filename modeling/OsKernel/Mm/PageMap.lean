import OsKernel.Hsai.Pte
import OsKernel.Mm.PageTable.Tables
import OsKernel.Mm.Vmm.Model

/-! What a page table is for: a map from virtual page numbers to physical pages with flags.  Mapping
a range stops at the first page that is mapped already. -/

namespace OsKernel.Mm

open Lib Hsai

/-- A physical page and the flags of its mapping. -/
structure Mapping where
  page : Nat
  flags : Nat
  deriving DecidableEq

abbrev PageMap := Nat → Option Mapping

namespace PageMap

/-- No page from `v` to `w` is mapped. -/
def Clear (M : PageMap) (v w : Nat) : Prop := ∀ u, v ≤ u → u ≤ w → M u = none

/-- The mapping of the page `i` pages after the one mapped to `pa`. -/
def target (arch : Arch) (pa flags i : Nat) : Mapping :=
  ⟨pageRoundDown (arch.toPhy (wordAdd pa (4096 * i))), flags⟩

open Classical in
/-- The pages from `v` to `last` mapped to those from `pa` on, up to the first that is mapped. -/
noncomputable def map (M : PageMap) (arch : Arch) (v last pa flags : Nat) : PageMap := fun w =>
  if v ≤ w ∧ w ≤ last ∧ M.Clear v w then some (target arch pa flags (w - v)) else M w

/-- The `n` pages from `v` on unmapped. -/
def unmap (M : PageMap) (v n : Nat) : PageMap :=
  fun w => if v ≤ w ∧ w < v + n then none else M w

variable {M : PageMap} {arch : Arch} {v last pa flags w : Nat}

theorem map_outside (h : w < v ∨ last < w) : M.map arch v last pa flags w = M w :=
  if_neg (by omega)

theorem map_of_some {mp : Mapping} (h : M w = some mp) :
    M.map arch v last pa flags w = some mp := by
  rw [map, if_neg]
  · exact h
  · rintro ⟨hl, hu, hc⟩
    rw [hc w hl (Nat.le_refl w)] at h
    cases h

theorem map_clear (hc : M.Clear v last) (hl : v ≤ w) (hu : w ≤ last) :
    M.map arch v last pa flags w = some (target arch pa flags (w - v)) :=
  if_pos ⟨hl, hu, fun u hl' hu' => hc u hl' (by omega)⟩

theorem map_stuck {mp : Mapping} (h : M v = some mp) : M.map arch v last pa flags = M := by
  funext w
  rw [map, if_neg]
  rintro ⟨hl, -, hc⟩
  rw [hc v (Nat.le_refl v) hl] at h
  cases h

theorem not_clear (M : PageMap) {mp : Mapping} (h : M v = some mp) {n : Nat} :
    ¬M.Clear v (v + n) := by
  intro hc
  rw [hc v (Nat.le_refl v) (by omega)] at h
  cases h

theorem clear_empty : M.Clear (v + 1) v := fun _ hl hu => by omega

theorem clear_step (h : M v = none) : M.Clear v w ↔ M.Clear (v + 1) w := by
  constructor
  · exact fun hc u hl hu => hc u (by omega) hu
  · intro hc u hl hu
    by_cases huv : u = v
    · rw [huv]
      exact h
    · exact hc u (by omega) hu

theorem clear_update {x : Option Mapping} {u : Nat} (h : u < v) :
    Clear (Function.update M u x) v w ↔ M.Clear v w := by
  refine forall_congr' fun u' => forall_congr' fun hl => forall_congr' fun _ => ?_
  rw [Function.update_of_ne (by omega)]

theorem map_empty (h : last < v) : M.map arch v last pa flags = M := by
  funext w
  exact if_neg (by omega)

theorem wordAdd_add (a b c : Nat) : wordAdd (wordAdd a b) c = wordAdd a (b + c) := by
  unfold wordAdd
  rw [Nat.mod_add_mod, Nat.add_assoc]

/-- Mapping a range is mapping its first page and then the rest. -/
theorem map_step (h : M v = none) (hlast : v ≤ last) :
    M.map arch v last pa flags =
      map (Function.update M v (some (target arch pa flags 0))) arch (v + 1) last
        (wordAdd pa 4096) flags := by
  funext w
  by_cases hwv : w = v
  · subst hwv
    rw [map_outside (v := w + 1) (by omega), Function.update_self, map, if_pos]
    · rw [Nat.sub_self]
    · refine ⟨Nat.le_refl w, hlast, fun u hl hu => ?_⟩
      rw [show u = w by omega]
      exact h
  · have hclear : M.Clear v w ↔
        Clear (Function.update M v (some (target arch pa flags 0))) (v + 1) w := by
      rw [clear_step h, clear_update (by omega)]
    unfold map
    rw [Function.update_of_ne hwv]
    by_cases hl : v + 1 ≤ w
    · rw [← hclear]
      have he : target arch (wordAdd pa 4096) flags (w - (v + 1)) =
          target arch pa flags (w - v) := by
        unfold target
        rw [wordAdd_add, show 4096 + 4096 * (w - (v + 1)) = 4096 * (w - v) by omega]
      rw [he]
      congr 1
      simp only [eq_iff_iff]
      constructor
      · rintro ⟨-, h2, h3⟩
        exact ⟨hl, h2, h3⟩
      · rintro ⟨-, h2, h3⟩
        exact ⟨by omega, h2, h3⟩
    · rw [if_neg (by omega), if_neg (by omega)]

end PageMap

/-! ### Entries for mappings -/

/-- Flags of a leaf entry: the valid bit and some bit that a directory entry does not have. -/
structure LeafFlags (arch : Arch) (flags : Nat) : Prop where
  isFlags : arch.IsFlags flags
  valid : arch.isValid flags = true
  leaf : arch.isDirPage flags = false

instance (arch : Arch) (flags : Nat) : Decidable (LeafFlags arch flags) :=
  decidable_of_iff (arch.IsFlags flags ∧ arch.isValid flags = true ∧
    arch.isDirPage flags = false)
    ⟨fun h => ⟨h.1, h.2.1, h.2.2⟩, fun h => ⟨h.1, h.2, h.3⟩⟩

/-- A physical page with flags of a leaf entry. -/
structure Mapping.Ok (arch : Arch) (mp : Mapping) : Prop where
  aligned : mp.page % 4096 = 0
  lt : mp.page < arch.physLimit
  flags : LeafFlags arch mp.flags

/-- The data of the entry for a mapping. -/
def Mapping.data (arch : Arch) (mp : Mapping) : Nat := arch.setData (mp.page ||| mp.flags)

namespace Mapping.Ok

variable {arch : Arch} {mp : Mapping}

theorem data_lt (h : mp.Ok arch) : mp.data arch < 2 ^ 64 :=
  Arch.setData_lt h.aligned h.lt h.flags.isFlags

theorem toPa (h : mp.Ok arch) : arch.toPa (mp.data arch) = mp.page :=
  Arch.toPa_setData h.aligned h.lt h.flags.isFlags

theorem getFlags (h : mp.Ok arch) : arch.getFlags (mp.data arch) = mp.flags :=
  Arch.getFlags_setData h.aligned h.lt h.flags.isFlags

theorem isValid (h : mp.Ok arch) : arch.isValid (mp.data arch) = true := by
  rw [← Arch.isValid_getFlags, h.getFlags, h.flags.valid]

theorem isDirPage (h : mp.Ok arch) : arch.isDirPage (mp.data arch) = false := by
  rw [← Arch.isDirPage_getFlags, h.getFlags, h.flags.leaf]

theorem isSuperPlv (h : mp.Ok arch) :
    arch.isSuperPlv (mp.data arch) = arch.isSuperPlv mp.flags := by
  rw [← Arch.isSuperPlv_getFlags, h.getFlags]

theorem isPresent (h : mp.Ok arch) : arch.isPresent (mp.data arch) = arch.isPresent mp.flags := by
  rw [← Arch.isPresent_getFlags, h.getFlags]

theorem isWritable (h : mp.Ok arch) :
    arch.isWritable (mp.data arch) = arch.isWritable mp.flags := by
  rw [← Arch.isWritable_getFlags, h.getFlags]

end Mapping.Ok

theorem PageMap.target_ok {arch : Arch} (pa i : Nat) {flags : Nat} (hf : LeafFlags arch flags) :
    (PageMap.target arch pa flags i).Ok arch := by
  have hlt : wordAdd pa (4096 * i) < 2 ^ 64 := Nat.mod_lt _ (by decide)
  have hphys : arch.toPhy (wordAdd pa (4096 * i)) < arch.physLimit := Arch.toPhy_lt hlt
  have hdown := pageRoundDown_eq (arch.toPhy (wordAdd pa (4096 * i)))
  refine ⟨?_, ?_, hf⟩
  · simp only [target, hdown]
    omega
  · simp only [target, hdown]
    omega

/-- The page numbers that a walk tells apart, from `base` on. -/
def InSpan (arch : Arch) (base v : Nat) : Prop := base ≤ v ∧ v < base + arch.vaPages

theorem InSpan.eq_of_mod {arch : Arch} {base v w : Nat} (hv : InSpan arch base v)
    (hw : InSpan arch base w) (h : v % arch.vaPages = w % arch.vaPages) : v = w := by
  obtain ⟨hl, hu⟩ := hv
  obtain ⟨hl', hu'⟩ := hw
  have e1 := Nat.div_add_mod v arch.vaPages
  have e2 := Nat.div_add_mod w arch.vaPages
  rcases Nat.lt_trichotomy (v / arch.vaPages) (w / arch.vaPages) with hlt | he | hlt
  · have := Nat.mul_le_mul_left arch.vaPages hlt
    rw [Nat.mul_succ] at this
    omega
  · rw [he] at e1
    omega
  · have := Nat.mul_le_mul_left arch.vaPages hlt
    rw [Nat.mul_succ] at this
    omega

/-- The `n` page numbers from `v` on are told apart, and their addresses are `ulong`s. -/
structure PageRange (arch : Arch) (base v n : Nat) : Prop where
  lo : base ≤ v
  hi : v + n ≤ base + arch.vaPages
  fits : v + n ≤ 2 ^ 52

namespace PageRange

variable {arch : Arch} {base v n : Nat}

theorem inSpan (h : PageRange arch base v n) {w : Nat} (hl : v ≤ w) (hu : w < v + n) :
    InSpan arch base w := by
  have := h.lo
  have := h.hi
  exact ⟨by omega, by omega⟩

theorem sub (h : PageRange arch base v n) {w m : Nat} (hl : v ≤ w) (hu : w + m ≤ v + n) :
    PageRange arch base w m := by
  have := h.lo
  have := h.hi
  have := h.fits
  exact ⟨by omega, by omega, by omega⟩

/-- A range of addresses that are translated as they are. -/
theorem of_le (h : 4096 * (v + n) ≤ 2 ^ arch.vaBits) : PageRange arch 0 v n := by
  have hle : 2 ^ arch.vaBits ≤ 2 ^ 48 := by cases arch <;> decide
  rw [Arch.two_pow_vaBits] at h hle
  exact ⟨by omega, by omega, by omega⟩

end PageRange

/-- The leaf entries for the page numbers from `base` on are those of the map: zero where nothing is
mapped. -/
def Represents (arch : Arch) (m : Mem) (T : Nat → Nat → Option Nat) (base : Nat) (M : PageMap) :
    Prop :=
  ∀ v, match M v with
    | none => InSpan arch base v → leafData m T (v % arch.vaPages) = 0
    | some mp =>
      InSpan arch base v ∧ leafData m T (v % arch.vaPages) = mp.data arch ∧ mp.Ok arch

namespace Represents

variable {arch : Arch} {m m' : Mem} {T T' : Nat → Nat → Option Nat} {base : Nat} {M : PageMap}
  {v : Nat}

theorem of_none (h : Represents arch m T base M) (hv : M v = none) (hs : InSpan arch base v) :
    leafData m T (v % arch.vaPages) = 0 := by
  have := h v
  rw [hv] at this
  exact this hs

theorem of_some (h : Represents arch m T base M) {mp : Mapping} (hv : M v = some mp) :
    leafData m T (v % arch.vaPages) = mp.data arch ∧ mp.Ok arch := by
  have := h v
  rw [hv] at this
  exact this.2

theorem inSpan (h : Represents arch m T base M) {mp : Mapping} (hv : M v = some mp) :
    InSpan arch base v := by
  have := h v
  rw [hv] at this
  exact this.1

theorem isValid (h : Represents arch m T base M) (hs : InSpan arch base v) :
    arch.isValid (leafData m T (v % arch.vaPages)) = (M v).isSome := by
  cases hv : M v with
  | none => rw [h.of_none hv hs]; rfl
  | some mp => rw [(h.of_some hv).1, (h.of_some hv).2.isValid]; rfl

theorem congr (h : Represents arch m T base M) (hs : ∀ v, leafData m' T' v = leafData m T v) :
    Represents arch m' T' base M := by
  intro v
  rw [hs]
  exact h v

/-- An entry that is set. -/
theorem set (h : Represents arch m T base M) {mp : Mapping} (hmp : mp.Ok arch)
    (hv : InSpan arch base v) (hs : ∀ w, leafData m' T w =
      if w = v % arch.vaPages then mp.data arch else leafData m T w) :
    Represents arch m' T base (Function.update M v (some mp)) := by
  intro w
  rw [hs, Function.update_apply]
  by_cases hwv : w = v
  · subst hwv
    rw [if_pos rfl, if_pos rfl]
    exact ⟨hv, rfl, hmp⟩
  · rw [if_neg hwv]
    have hw := h w
    cases hM : M w with
    | none =>
      rw [hM] at hw
      intro hspan
      rw [if_neg fun he => hwv (hspan.eq_of_mod hv he)]
      exact hw hspan
    | some mp' =>
      rw [hM] at hw
      rw [if_neg fun he => hwv (hw.1.eq_of_mod hv he)]
      exact hw

/-- An entry that is cleared. -/
theorem clear (h : Represents arch m T base M) (hv : InSpan arch base v)
    (hs : ∀ w, leafData m' T w = if w = v % arch.vaPages then 0 else leafData m T w) :
    Represents arch m' T base (Function.update M v none) := by
  intro w
  rw [hs, Function.update_apply]
  by_cases hwv : w = v
  · subst hwv
    rw [if_pos rfl, if_pos rfl]
    exact fun _ => rfl
  · rw [if_neg hwv]
    have hw := h w
    cases hM : M w with
    | none =>
      rw [hM] at hw
      intro hspan
      rw [if_neg fun he => hwv (hspan.eq_of_mod hv he)]
      exact hw hspan
    | some mp' =>
      rw [hM] at hw
      rw [if_neg fun he => hwv (hw.1.eq_of_mod hv he)]
      exact hw

/-- A mapped page has a leaf entry. -/
theorem leafPte (h : Represents arch m T base M) {mp : Mapping} (hv : M v = some mp) :
    ∃ pte, leafPte T (v % arch.vaPages) = some pte ∧ pteData m pte = mp.data arch := by
  obtain ⟨hd, hok⟩ := h.of_some hv
  cases hp : Mm.leafPte T (v % arch.vaPages) with
  | none =>
    have hval := hok.isValid
    rw [← hd, leafData_of_none hp] at hval
    cases hval
  | some pte => exact ⟨pte, rfl, by rw [← hd, leafData_of_pte hp]⟩

end Represents

end OsKernel.Mm

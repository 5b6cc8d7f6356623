import Mathlib.Algebra.BigOperators.Group.Finset.Basic
import Mathlib.Algebra.Order.BigOperators.Group.Finset
import Mathlib.Algebra.Order.Group.Nat
import Mathlib.Algebra.Ring.Parity
import Mathlib.Data.Nat.Bitwise
import Mathlib.Logic.Function.Basic
import Mathlib.Order.Interval.Finset.Nat
import Mathlib.Tactic.Ring

/-! Partitions of power-of-two areas into power-of-two blocks.  A block of order `k` has `2 ^ k`
units, lies in one area and is aligned to its size relative to the area's start.  Its buddy is the
block of the same size whose offset differs in the size bit.  Splitting a block and merging two
buddies keep the partition; the start of a block's buddy is the start of a block that is not larger;
and when no two free buddies are left, a free aligned run of `2 ^ k` units lies in a free block. -/

namespace OsKernel.Lib.BuddySystem

/-! ### Buddies -/

/-- The offset that differs from `o` in the size bit of order `k`. -/
def flip (o k : Nat) : Nat := o ^^^ 2 ^ k

theorem flip_mul (q k : Nat) : flip (2 ^ k * q) k = 2 ^ k * (q ^^^ 1) := by
  have h := Nat.shiftLeft_xor_distrib (a := q) (b := 1) (i := k)
  simp only [Nat.shiftLeft_eq, Nat.one_mul] at h
  rw [flip, Nat.mul_comm, ← h, Nat.mul_comm]

/-- At an aligned offset, flipping the size bit adds the size below the middle of the parent block
and subtracts it above. -/
theorem flip_cases {o k : Nat} (h : 2 ^ k ∣ o) :
    (2 ^ (k + 1) ∣ o ∧ flip o k = o + 2 ^ k) ∨
      (2 ^ (k + 1) ∣ flip o k ∧ o = flip o k + 2 ^ k) := by
  obtain ⟨q, rfl⟩ := h
  rw [flip_mul, pow_succ]
  rcases Nat.even_or_odd q with hq | hq
  · left
    obtain ⟨r, rfl⟩ := hq
    rw [Nat.xor_one_of_even ⟨r, rfl⟩]
    exact ⟨⟨r, by ring⟩, by ring⟩
  · right
    obtain ⟨r, rfl⟩ := hq
    rw [Nat.xor_one_of_odd ⟨r, rfl⟩, Nat.add_sub_cancel]
    exact ⟨⟨r, by ring⟩, by ring⟩

/-- The start of the buddy of the block of order `k` at `s`, in the area that starts at `a`. -/
def buddy (a s k : Nat) : Nat := a + flip (s - a) k

/-- Two buddies: the lower one is aligned to twice the size and the upper one follows it. -/
theorem buddy_cases {a s k : Nat} (ha : a ≤ s) (h : 2 ^ k ∣ s - a) :
    (2 ^ (k + 1) ∣ s - a ∧ buddy a s k = s + 2 ^ k) ∨
      (2 ^ (k + 1) ∣ buddy a s k - a ∧ s = buddy a s k + 2 ^ k) := by
  rcases flip_cases h with ⟨hd, he⟩ | ⟨hd, he⟩
  · left
    exact ⟨hd, by rw [buddy, he]; omega⟩
  · right
    refine ⟨?_, by rw [buddy]; omega⟩
    rwa [buddy, Nat.add_sub_cancel_left]

/-- A block is the buddy of its buddy. -/
theorem buddy_buddy {a s k : Nat} (ha : a ≤ s) : buddy a (buddy a s k) k = s := by
  rw [buddy, buddy, Nat.add_sub_cancel_left, flip, flip, Nat.xor_assoc, Nat.xor_self, Nat.xor_zero]
  omega

/-! ### Areas and blocks -/

/-- A family of disjoint areas, each given by its start and order. -/
structure Areas where
  mem : Nat → Nat → Prop
  unique : ∀ {a o o'}, mem a o → mem a o' → o = o'
  apart : ∀ {a o a' o'}, mem a o → mem a' o' → a < a' → a + 2 ^ o ≤ a'

/-- The aligned range of order `k` at `s` in the area of order `o` at `a`. -/
structure Fits (a o s k : Nat) : Prop where
  start : a ≤ s
  aligned : 2 ^ k ∣ s - a
  inside : s + 2 ^ k ≤ a + 2 ^ o

theorem Fits.order_le {a o s k : Nat} (h : Fits a o s k) : k ≤ o := by
  have := h.start
  have := h.inside
  exact (Nat.pow_le_pow_iff_right (by decide : 1 < 2)).mp (by omega)

/-- Two areas with a common unit are the same. -/
theorem Areas.eq_of_mem {A : Areas} {a o a' o' p : Nat} (h : A.mem a o) (h' : A.mem a' o')
    (hp : a ≤ p ∧ p < a + 2 ^ o) (hp' : a' ≤ p ∧ p < a' + 2 ^ o') : a = a' ∧ o = o' := by
  rcases Nat.lt_trichotomy a a' with hlt | rfl | hlt
  · have := A.apart h h' hlt
    omega
  · exact ⟨rfl, A.unique h h'⟩
  · have := A.apart h' h hlt
    omega

/-- Of two aligned ranges of one area with a common unit, the smaller one starts inside the larger
and ends inside it. -/
theorem Fits.nested {a o s k t j p : Nat} (hs : Fits a o s k) (ht : Fits a o t j) (hjk : j ≤ k)
    (hp : s ≤ p ∧ p < s + 2 ^ k) (hp' : t ≤ p ∧ p < t + 2 ^ j) : s ≤ t ∧
      t + 2 ^ j ≤ s + 2 ^ k := by
  obtain ⟨q, hq⟩ := hs.aligned
  obtain ⟨r, hr⟩ := ht.aligned
  have hs0 := hs.start
  have ht0 := ht.start
  obtain ⟨d, rfl⟩ : ∃ d, k = j + d := ⟨k - j, by omega⟩
  have hpos : 0 < 2 ^ j := Nat.two_pow_pos j
  rw [pow_add, Nat.mul_assoc] at hq
  rw [pow_add] at hp ⊢
  -- in units of `2 ^ j` the larger range is `[2 ^ d * q, 2 ^ d * q + 2 ^ d)` and holds `r`
  have hlo : 2 ^ d * q < r + 1 := by
    refine Nat.lt_of_mul_lt_mul_left (a := 2 ^ j) ?_
    rw [Nat.mul_add]
    omega
  have hhi : r < 2 ^ d * q + 2 ^ d := by
    refine Nat.lt_of_mul_lt_mul_left (a := 2 ^ j) ?_
    rw [Nat.mul_add]
    omega
  have h1 := Nat.mul_le_mul_left (2 ^ j) (Nat.lt_succ_iff.mp hlo)
  have h2 := Nat.mul_le_mul_left (2 ^ j) (Nat.succ_le_of_lt hhi)
  rw [Nat.mul_add, Nat.mul_succ] at h2
  omega

/-- The buddy of an aligned range smaller than its area is an aligned range of the area. -/
theorem Fits.buddy {a o s k : Nat} (h : Fits a o s k) (hk : k < o) :
    Fits a o (buddy a s k) k := by
  have hs := h.start
  have hin := h.inside
  have hpar : 2 ^ (k + 1) ∣ 2 ^ o := pow_dvd_pow 2 hk
  rcases buddy_cases hs h.aligned with ⟨hd, he⟩ | ⟨hd, he⟩
  · rw [he]
    refine ⟨by omega, ?_, ?_⟩
    · rw [show s + 2 ^ k - a = s - a + 2 ^ k by omega]
      exact Nat.dvd_add h.aligned (Nat.dvd_refl _)
    · -- the parent block ends inside the area because both are multiples of its size
      obtain ⟨q, hq⟩ := hd
      obtain ⟨r, hr⟩ := hpar
      have hlt : q < r := by
        refine Nat.lt_of_mul_lt_mul_left (a := 2 ^ (k + 1)) ?_
        have := Nat.two_pow_pos k
        omega
      have := Nat.mul_le_mul_left (2 ^ (k + 1)) (Nat.succ_le_of_lt hlt)
      rw [Nat.mul_succ, pow_succ] at this
      rw [pow_succ] at hq hr
      omega
  · have hb : a ≤ BuddySystem.buddy a s k := Nat.le_add_right _ _
    exact ⟨hb, Nat.dvd_trans (pow_dvd_pow 2 (Nat.le_succ k)) hd, by omega⟩

/-- The lower of two buddies starts their parent, an aligned range of the next order. -/
theorem Fits.parent {a o s k : Nat} (h : Fits a o s k) (hk : k < o) :
    Fits a o (min s (BuddySystem.buddy a s k)) (k + 1) := by
  have hb := h.buddy hk
  have hs := h.inside
  have hs' := hb.inside
  rcases buddy_cases h.start h.aligned with ⟨hd, he⟩ | ⟨hd, he⟩
  · rw [he, Nat.min_eq_left (by omega)]
    exact ⟨h.start, hd, by rw [pow_succ]; omega⟩
  · rw [Nat.min_eq_right (by omega)]
    exact ⟨hb.start, hd, by rw [pow_succ]; omega⟩

/-! ### Partitions -/

/-- A block: its order and whether it is in use. -/
structure Block where
  order : Nat
  used : Bool
  deriving DecidableEq, Repr

/-- The block that starts at each unit, if one does. -/
abbrev Blocks := Nat → Option Block

/-- The blocks of `B` partition the areas. -/
structure Partition (A : Areas) (B : Blocks) : Prop where
  fits : ∀ {s b}, B s = some b → ∃ a o, A.mem a o ∧ Fits a o s b.order
  cover : ∀ {a o p}, A.mem a o → a ≤ p → p < a + 2 ^ o →
    ∃ s b, B s = some b ∧ s ≤ p ∧ p < s + 2 ^ b.order
  apart : ∀ {s b t c}, B s = some b → B t = some c → s < t → s + 2 ^ b.order ≤ t

namespace Partition

variable {A : Areas} {B : Blocks} {a o s k t : Nat}

/-- Two blocks with a common unit are the same. -/
theorem eq_of_mem (P : Partition A B) {b c : Block} {p : Nat} (hs : B s = some b)
    (ht : B t = some c) (hp : s ≤ p ∧ p < s + 2 ^ b.order)
    (hp' : t ≤ p ∧ p < t + 2 ^ c.order) :
    s = t := by
  rcases Nat.lt_trichotomy s t with hlt | rfl | hlt
  · have := P.apart hs ht hlt
    omega
  · rfl
  · have := P.apart ht hs hlt
    omega

/-- A block with a unit in an area fits in that area. -/
theorem fits_of_mem (P : Partition A B) {b : Block} {p : Nat} (hA : A.mem a o)
    (hp : a ≤ p ∧ p < a + 2 ^ o) (hs : B s = some b) (hb : s ≤ p ∧ p < s + 2 ^ b.order) :
    Fits a o s b.order := by
  obtain ⟨a', o', hA', hf⟩ := P.fits hs
  have hin := hf.inside
  have hst := hf.start
  obtain ⟨rfl, rfl⟩ := A.eq_of_mem hA hA' hp ⟨by omega, by omega⟩
  exact hf

/-- The start of an aligned range is the start of a block, unless a larger block holds it. -/
theorem start_or_larger (P : Partition A B) (hA : A.mem a o) (hf : Fits a o t k) :
    (∃ c, B t = some c ∧ c.order ≤ k) ∨
      ∃ s c, B s = some c ∧ k < c.order ∧ Fits a o s c.order ∧ s ≤ t ∧
        t < s + 2 ^ c.order := by
  have hpos := Nat.two_pow_pos k
  have hst := hf.start
  have hin := hf.inside
  obtain ⟨s, c, hc, hl, hu⟩ := P.cover hA hst (by omega)
  have hfs := P.fits_of_mem hA ⟨hst, by omega⟩ hc ⟨hl, hu⟩
  rcases Nat.lt_or_ge k c.order with hk | hk
  · exact .inr ⟨s, c, hc, hk, hfs, hl, hu⟩
  · have hn := hf.nested hfs hk ⟨Nat.le_refl t, by omega⟩ ⟨hl, hu⟩
    obtain rfl : s = t := by omega
    exact .inl ⟨c, hc, hk⟩

/-- The start of a block's buddy is the start of a block that is not larger. -/
theorem buddy_block (P : Partition A B) {b : Block} (hA : A.mem a o) (hf : Fits a o s b.order)
    (hs : B s = some b) (hk : b.order < o) :
    ∃ c, B (buddy a s b.order) = some c ∧ c.order ≤ b.order := by
  have hb := hf.buddy hk
  have hpos := Nat.two_pow_pos b.order
  rcases P.start_or_larger hA hb with h | ⟨t, c, hc, hkc, hfc, hl, hu⟩
  · exact h
  -- a larger block at the buddy holds the parent, hence `s`, where it meets the block at `s`
  have hp := hf.parent hk
  have hpp := pow_succ 2 b.order
  have hmin := buddy_cases hf.start hf.aligned
  have hn := hfc.nested hp hkc ⟨hl, hu⟩ ⟨by omega, by omega⟩
  have hst : s = t := P.eq_of_mem hs hc ⟨Nat.le_refl s, by omega⟩ ⟨by omega, by omega⟩
  subst hst
  rw [hs] at hc
  cases hc
  omega

end Partition

/-! ### Operations -/

open Function

/-- The block of order `k + 1` at `s` split into two free blocks of order `k`. -/
def split (B : Blocks) (s k : Nat) : Blocks :=
  update (update B s (some ⟨k, false⟩)) (s + 2 ^ k) (some ⟨k, false⟩)

/-- The blocks of order `k` at `s` and right after it merged into one free block. -/
def merge (B : Blocks) (s k : Nat) : Blocks :=
  update (update B s (some ⟨k + 1, false⟩)) (s + 2 ^ k) none

/-- The block at `s` with its mark set to `u`. -/
def mark (B : Blocks) (s k : Nat) (u : Bool) : Blocks := update B s (some ⟨k, u⟩)

theorem split_apply (B : Blocks) (s k p : Nat) :
    split B s k p = if p = s + 2 ^ k ∨ p = s then some ⟨k, false⟩ else B p := by
  unfold split
  grind [Function.update_apply]

theorem merge_apply (B : Blocks) (s k p : Nat) :
    merge B s k p = if p = s + 2 ^ k then none else if p = s then some ⟨k + 1, false⟩
      else B p := by
  unfold merge
  grind [Function.update_apply]

theorem mark_apply (B : Blocks) (s k p : Nat) (u : Bool) :
    mark B s k u p = if p = s then some ⟨k, u⟩ else B p := by
  unfold mark
  grind [Function.update_apply]

namespace Partition

variable {A : Areas} {B : Blocks} {a o s k t : Nat}

theorem mark (P : Partition A B) {u u' : Bool} (hs : B s = some ⟨k, u'⟩) :
    Partition A (mark B s k u) := by
  have key : ∀ {t c}, BuddySystem.mark B s k u t = some c →
      ∃ c', B t = some c' ∧ c'.order = c.order := by
    intro t c h
    rw [mark_apply] at h
    split at h
    · cases h
      subst t
      exact ⟨_, hs, rfl⟩
    · exact ⟨c, h, rfl⟩
  refine ⟨fun h => ?_, fun hA hl hu => ?_, fun h h' hlt => ?_⟩
  · obtain ⟨c', hc, he⟩ := key h
    exact he ▸ P.fits hc
  · obtain ⟨t, c, hc, hl', hu'⟩ := P.cover hA hl hu
    by_cases hts : t = s
    · subst t
      rw [hs] at hc
      cases hc
      exact ⟨s, ⟨k, u⟩, by simp [mark_apply], hl', hu'⟩
    · exact ⟨t, c, by simp [mark_apply, hts, hc], hl', hu'⟩
  · obtain ⟨c, hc, he⟩ := key h
    obtain ⟨c', hc', _⟩ := key h'
    exact he ▸ P.apart hc hc' hlt

theorem split (P : Partition A B) {u : Bool} (hs : B s = some ⟨k + 1, u⟩) :
    Partition A (split B s k) := by
  have hpos := Nat.two_pow_pos k
  have hpow := pow_succ 2 k
  obtain ⟨a, o, hA, hf⟩ := P.fits hs
  have hst := hf.start
  have hin := hf.inside
  have hdv : 2 ^ k ∣ s - a := Nat.dvd_trans (pow_dvd_pow 2 (Nat.le_succ k)) hf.aligned
  simp only at hin
  refine ⟨fun {t b} h => ?_, fun {a' o' p} hA' hl hu => ?_, fun {t b t' b'} h h' hlt => ?_⟩
  · rw [split_apply] at h
    split at h
    · cases h
      refine ⟨a, o, hA, ⟨by omega, ?_, by simp only; omega⟩⟩
      rename_i ht
      rcases ht with rfl | rfl
      · rw [show s + 2 ^ k - a = s - a + 2 ^ k by omega]
        exact Nat.dvd_add hdv (Nat.dvd_refl _)
      · exact hdv
    · exact P.fits h
  · obtain ⟨t, c, hc, hl', hu'⟩ := P.cover hA' hl hu
    by_cases hts : t = s
    · subst t
      rw [hs] at hc
      cases hc
      simp only at hu'
      by_cases hp : p < s + 2 ^ k
      · exact ⟨s, ⟨k, false⟩, by simp [split_apply], hl', hp⟩
      · exact ⟨s + 2 ^ k, ⟨k, false⟩, by simp [split_apply], by omega, by simp only; omega⟩
    · by_cases htk : t = s + 2 ^ k
      · have := P.apart hs hc (by omega)
        simp only at this
        omega
      · exact ⟨t, c, by simp [split_apply, hts, htk, hc], hl', hu'⟩
  · rw [split_apply] at h h'
    split at h <;> split at h'
    · cases h
      simp only
      omega
    · cases h
      simp only
      by_cases hts : s < t'
      · have := P.apart hs h' hts
        simp only at this
        omega
      · omega
    · cases h'
      rename_i ht ht'
      by_cases hts : t < s
      · have := P.apart h hs hts
        omega
      · have := P.apart hs h (by omega)
        simp only at this
        omega
    · exact P.apart h h' hlt

theorem merge (P : Partition A B) {u v : Bool} (hA : A.mem a o) (hf : Fits a o s (k + 1))
    (hs : B s = some ⟨k, u⟩) (ht : B (s + 2 ^ k) = some ⟨k, v⟩) :
      Partition A (merge B s k) := by
  have hpos := Nat.two_pow_pos k
  have hpow := pow_succ 2 k
  refine ⟨fun {t b} h => ?_, fun {a' o' p} hA' hl hu => ?_, fun {t b t' b'} h h' hlt => ?_⟩
  · rw [merge_apply] at h
    split at h
    · cases h
    · split at h
      · cases h
        subst t
        exact ⟨a, o, hA, hf⟩
      · exact P.fits h
  · obtain ⟨t, c, hc, hl', hu'⟩ := P.cover hA' hl hu
    by_cases hts : t = s ∨ t = s + 2 ^ k
    · refine ⟨s, ⟨k + 1, false⟩, by simp [merge_apply], ?_, ?_⟩
      · omega
      · rcases hts with rfl | rfl
        · rw [hs] at hc
          cases hc
          simp only at hu' ⊢
          omega
        · rw [ht] at hc
          cases hc
          simp only at hu' ⊢
          omega
    · push Not at hts
      exact ⟨t, c, by simp [merge_apply, hts, hc], hl', hu'⟩
  · rw [merge_apply] at h h'
    split at h <;> split at h'
    · cases h
    · cases h
    · cases h'
    · split at h <;> split at h'
      · omega
      · cases h
        subst t
        have h1 := P.apart hs h' (by omega)
        simp only at h1 ⊢
        have h2 := P.apart ht h' (by omega)
        simp only at h2
        omega
      · cases h'
        subst t'
        exact P.apart h hs (by omega)
      · exact P.apart h h' hlt

end Partition

/-! ### Coalescing -/

/-- No two free blocks are buddies, those at `lim` apart. -/
def NoFreeBuddies (A : Areas) (B : Blocks) (lim : Option Nat) : Prop :=
  ∀ {a o s k}, A.mem a o → Fits a o s k → k < o → some s ≠ lim →
    some (buddy a s k) ≠ lim → B s = some ⟨k, false⟩ →
    B (buddy a s k) ≠ some ⟨k, false⟩

/-- Every unit of the range of order `k` at `r` is in a free block. -/
def FreeRun (B : Blocks) (r k : Nat) : Prop :=
  ∀ p, r ≤ p → p < r + 2 ^ k → ∃ s b, B s = some b ∧ b.used = false ∧ s ≤ p ∧
    p < s + 2 ^ b.order

/-- A block inside a free aligned run of a larger order has a buddy that is not coalesced with it:
going down to smaller and smaller buddies ends at two free buddies. -/
theorem no_small_in_freeRun {A : Areas} {B : Blocks} (P : Partition A B)
    (hno : NoFreeBuddies A B none) {a o r k : Nat} (hA : A.mem a o) (hr : Fits a o r k)
    (hfree : FreeRun B r k) (j : Nat) :
    ∀ s b, B s = some b → b.order = j → j < k → r ≤ s → s < r + 2 ^ k → False := by
  induction j using Nat.strong_induction_on with
  | _ j ih =>
    intro s b hs hj hjk hl hu
    subst hj
    have hpos := Nat.two_pow_pos b.order
    have hra := hr.start
    have hri := hr.inside
    have hf := P.fits_of_mem hA (p := s) ⟨by omega, by omega⟩ hs ⟨Nat.le_refl s, by omega⟩
    have hko : b.order < o := Nat.lt_of_lt_of_le hjk hr.order_le
    -- the parent lies in the run, so the buddy starts a free block there
    have hpar := hf.parent hko
    have hpow := pow_succ 2 b.order
    have hcase := buddy_cases hf.start hf.aligned
    have hn := hr.nested hpar hjk (p := s) ⟨hl, hu⟩ ⟨by omega, by omega⟩
    obtain ⟨c, hc, hle⟩ := P.buddy_block hA hf hs hko
    have hcpos := Nat.two_pow_pos c.order
    rcases Nat.lt_or_eq_of_le hle with hlt | heq
    · exact ih c.order hlt _ c hc rfl (by omega) (by omega) (by omega)
    · have free_of : ∀ {t d}, B t = some d → r ≤ t → t < r + 2 ^ k → d.used = false := by
        intro t d ht hlo hhi
        have hdpos := Nat.two_pow_pos d.order
        obtain ⟨t', d', ht', hused, hl', hu'⟩ := hfree t hlo hhi
        obtain rfl := P.eq_of_mem ht' ht ⟨hl', hu'⟩ ⟨Nat.le_refl t, by omega⟩
        rw [ht] at ht'
        cases ht'
        exact hused
      have hsf := free_of hs hl hu
      have hcf := free_of hc (by omega) (by omega)
      refine hno hA hf hko (by simp) (by simp) ?_ ?_
      · rw [hs]
        cases b
        simp_all
      · rw [hc]
        cases c
        simp_all

/-- Where no two free buddies are left, a free aligned run lies in a free block. -/
theorem exists_block_of_freeRun {A : Areas} {B : Blocks} (P : Partition A B)
    (hno : NoFreeBuddies A B none) {a o r k : Nat} (hA : A.mem a o) (hr : Fits a o r k)
    (hfree : FreeRun B r k) :
    ∃ s b, B s = some b ∧ b.used = false ∧ k ≤ b.order ∧ Fits a o s b.order ∧
      s ≤ r ∧ r + 2 ^ k ≤ s + 2 ^ b.order := by
  have hpos := Nat.two_pow_pos k
  have hra := hr.start
  have hri := hr.inside
  obtain ⟨s, b, hs, hused, hl, hu⟩ := hfree r (Nat.le_refl r) (by omega)
  have hf := P.fits_of_mem hA ⟨hra, by omega⟩ hs ⟨hl, hu⟩
  rcases Nat.lt_or_ge b.order k with hlt | hge
  · have hn := hr.nested hf (Nat.le_of_lt hlt) ⟨Nat.le_refl r, by omega⟩ ⟨hl, hu⟩
    exact (no_small_in_freeRun P hno hA hr hfree _ s b hs rfl hlt hn.1 (by omega)).elim
  · have hn := hf.nested hr hge ⟨hl, hu⟩ ⟨Nat.le_refl r, by omega⟩
    exact ⟨s, b, hs, hused, hge, hf, hn⟩

/-- With no block in use and no two free buddies, each area is one block. -/
theorem area_block_of_unused {A : Areas} {B : Blocks} (P : Partition A B)
    (hno : NoFreeBuddies A B none) (hunused : ∀ {s b}, B s = some b → b.used = false)
    {a o : Nat}
    (hA : A.mem a o) : B a = some ⟨o, false⟩ := by
  have hrun : FreeRun B a o := fun p hl hu => by
    obtain ⟨s, b, hs, hl', hu'⟩ := P.cover hA hl hu
    exact ⟨s, b, hs, hunused hs, hl', hu'⟩
  have hfit : Fits a o a o := ⟨Nat.le_refl a, by simp, Nat.le_refl _⟩
  obtain ⟨s, b, hs, hused, hge, hf, hl, hu⟩ := exists_block_of_freeRun P hno hA hfit hrun
  have hle := hf.order_le
  have hst := hf.start
  obtain rfl : s = a := by omega
  rw [hs]
  cases b
  simp only [Option.some.injEq, Block.mk.injEq] at *
  exact ⟨by omega, hused⟩

/-- The unit `p` is in a block in use. -/
def InUse (B : Blocks) (p : Nat) : Prop :=
  ∃ s k, B s = some ⟨k, true⟩ ∧ s ≤ p ∧ p < s + 2 ^ k

/-- A range without a unit in use is a free run. -/
theorem freeRun_of_unused {A : Areas} {B : Blocks} (P : Partition A B) {a o r k : Nat}
    (hA : A.mem a o) (hr : Fits a o r k) (hun : ∀ p, r ≤ p → p < r + 2 ^ k → ¬InUse B p) :
    FreeRun B r k := by
  intro p hl hu
  have hst := hr.start
  have hin := hr.inside
  obtain ⟨s, ⟨j, used⟩, hs, hl', hu'⟩ := P.cover hA (p := p) (by omega) (by omega)
  cases used with
  | false => exact ⟨s, _, hs, rfl, hl', hu'⟩
  | true => exact absurd ⟨s, j, hs, hl', hu'⟩ (hun p hl hu)

/-- No unit of a free block is in use. -/
theorem Partition.not_inUse {A : Areas} {B : Blocks} (P : Partition A B) {s k p : Nat}
    (hs : B s = some ⟨k, false⟩) (hl : s ≤ p) (hu : p < s + 2 ^ k) : ¬InUse B p := by
  rintro ⟨t, j, ht, hl', hu'⟩
  obtain rfl := P.eq_of_mem hs ht ⟨hl, hu⟩ ⟨hl', hu'⟩
  rw [hs] at ht
  cases ht

/-- The units in use determine the free blocks: the free block of one partition lies in one of the
other, and that one in the first again. -/
theorem free_of_inUse {A : Areas} {B B' : Blocks} (P : Partition A B) (P' : Partition A B')
    (hno : NoFreeBuddies A B none) (hno' : NoFreeBuddies A B' none)
    (hsame : ∀ p, InUse B p ↔ InUse B' p) {s k : Nat} (hs : B s = some ⟨k, false⟩) :
    B' s = some ⟨k, false⟩ := by
  obtain ⟨a, o, hA, hf⟩ := P.fits hs
  have hrun : FreeRun B' s k := freeRun_of_unused P' hA hf fun p hl hu => by
    rw [← hsame]
    exact P.not_inUse hs hl hu
  obtain ⟨t, ⟨j, used⟩, ht, hfree, hge, hft, hl, hu⟩ :=
    exists_block_of_freeRun P' hno' hA hf hrun
  simp only at hfree hge hft hu
  subst hfree
  have hback : FreeRun B t j := freeRun_of_unused P hA hft fun p hl hu => by
    rw [hsame]
    exact P'.not_inUse ht hl hu
  obtain ⟨r, c, hr, -, -, hfr, hl', hu'⟩ := exists_block_of_freeRun P hno hA hft hback
  have hpos := Nat.two_pow_pos k
  obtain rfl := P.eq_of_mem hs hr (p := s) ⟨Nat.le_refl s, by simp only; omega⟩
    ⟨by omega, by omega⟩
  rw [hs] at hr
  cases hr
  simp only at hu'
  obtain rfl : t = s := by omega
  have hjk : j ≤ k := (Nat.pow_le_pow_iff_right (by decide : 1 < 2)).mp (by omega)
  obtain rfl : j = k := by omega
  exact ht

/-- The blocks in use determine all blocks. -/
theorem blocks_of_used {A : Areas} {B B' : Blocks} (P : Partition A B) (P' : Partition A B')
    (hno : NoFreeBuddies A B none) (hno' : NoFreeBuddies A B' none)
    (hsame : ∀ s k, B s = some ⟨k, true⟩ ↔ B' s = some ⟨k, true⟩) : B = B' := by
  have hunits : ∀ p, InUse B p ↔ InUse B' p := fun p => by
    simp only [InUse, hsame]
  funext s
  cases hs : B s with
  | some blk =>
    obtain ⟨k, used⟩ := blk
    cases used with
    | true => exact ((hsame s k).mp hs).symm
    | false => exact (free_of_inUse P P' hno hno' hunits hs).symm
  | none =>
    cases hs' : B' s with
    | none => rfl
    | some blk =>
      obtain ⟨k, used⟩ := blk
      rw [← hs]
      cases used with
      | true => exact (hsame s k).mpr hs'
      | false => exact free_of_inUse P' P hno' hno (fun p => (hunits p).symm) hs'

section NoFreeBuddies

variable {A : Areas} {B : Blocks} {a o s k : Nat}

/-- Taking a free block out of consideration. -/
theorem NoFreeBuddies.limbo (h : NoFreeBuddies A B none) : NoFreeBuddies A B (some s) :=
  fun hA hf hk _ _ => h hA hf hk (by simp) (by simp)

/-- Putting a block in use makes it no free buddy of another. -/
theorem NoFreeBuddies.mark_used (h : NoFreeBuddies A B (some s)) :
    NoFreeBuddies A (mark B s k true) none := by
  intro a o t j hA hf hj _ _ ht hb
  rw [mark_apply] at ht hb
  split at ht
  · simp at ht
  · split at hb
    · simp at hb
    · exact h hA hf hj (by simpa) (by simpa) ht hb

/-- Marking a block free while it is out of consideration. -/
theorem NoFreeBuddies.mark_limbo (h : NoFreeBuddies A B none) {u : Bool} :
    NoFreeBuddies A (mark B s k u) (some s) := by
  intro a o t j hA hf hj hts hbs ht hb
  rw [mark_apply, if_neg (by simpa using hts)] at ht
  rw [mark_apply, if_neg (by simpa using hbs)] at hb
  exact h hA hf hj (by simp) (by simp) ht hb

/-- The upper half of a split block has the lower half, out of consideration, as its buddy. -/
theorem NoFreeBuddies.split (P : Partition A B) (h : NoFreeBuddies A B (some s)) {u : Bool}
    (hs : B s = some ⟨k + 1, u⟩) : NoFreeBuddies A (split B s k) (some s) := by
  intro a o t j hA hf hj hts hbs ht hb
  have hpos := Nat.two_pow_pos k
  have hpow := pow_succ 2 k
  simp only [ne_eq, Option.some.injEq] at hts hbs
  obtain ⟨a', o', hA', hf'⟩ := P.fits hs
  have hcase := buddy_cases hf.start hf.aligned
  have hjpos := Nat.two_pow_pos j
  rw [split_apply] at ht hb
  -- a block that starts at the upper half has the lower half as its buddy
  have upper : ∀ {x}, Fits a o x j → x = s + 2 ^ k → j = k → buddy a x j = s := by
    intro x hx hxe hjk
    subst hxe hjk
    have hin := hx.inside
    have hin' := hf'.inside
    have hst' := hf'.start
    simp only at hin'
    obtain ⟨rfl, rfl⟩ := A.eq_of_mem hA hA' (p := s + 2 ^ j) ⟨hx.start, by omega⟩
      ⟨by omega, by omega⟩
    rcases buddy_cases hx.start hx.aligned with ⟨hd, he⟩ | ⟨hd, he⟩
    · -- both halves cannot be aligned to the parent's size
      have hd' := hf'.aligned
      simp only at hd'
      rw [show s + 2 ^ j - a = s - a + 2 ^ j by omega, Nat.dvd_add_right hd'] at hd
      have := Nat.le_of_dvd hpos hd
      omega
    · omega
  split at ht
  · rename_i hor
    have hxe : t = s + 2 ^ k := by omega
    simp only [Option.some.injEq, Block.mk.injEq, and_true] at ht
    exact hbs (upper hf hxe ht.symm)
  · split at hb
    · rename_i hor
      have hxe : buddy a t j = s + 2 ^ k := by omega
      simp only [Option.some.injEq, Block.mk.injEq, and_true] at hb
      have hback := upper (hf.buddy hj) hxe hb.symm
      exact hts ((buddy_buddy hf.start).symm.trans hback)
    · exact h hA hf hj (by simpa) (by simpa) ht hb

/-- Merging two buddies of which one is out of consideration. -/
theorem NoFreeBuddies.merge {x : Nat} (h : NoFreeBuddies A B (some x))
    (hx : x = s ∨ x = s + 2 ^ k) : NoFreeBuddies A (merge B s k) (some s) := by
  intro a o t j hA hf hj hts hbs ht hb
  simp only [ne_eq, Option.some.injEq] at hts hbs
  rw [merge_apply, if_neg hts] at ht
  rw [merge_apply, if_neg hbs] at hb
  split at ht
  · cases ht
  · split at hb
    · cases hb
    · refine h hA hf hj ?_ ?_ ht hb <;> simp <;> omega

/-- A block is back in consideration when it is a whole area or its buddy is no free block of its
size. -/
theorem NoFreeBuddies.release (h : NoFreeBuddies A B (some s)) (hA : A.mem a o)
    (hf : Fits a o s k) (hs : B s = some ⟨k, false⟩)
    (hb : k < o → B (buddy a s k) ≠ some ⟨k, false⟩) : NoFreeBuddies A B none := by
  have key : ∀ {a' o' t j}, A.mem a' o' → Fits a' o' t j → j < o' → t = s →
      B t = some ⟨j, false⟩ → B (buddy a' t j) ≠ some ⟨j, false⟩ := by
    rintro a' o' t j hA' hf' hj rfl ht
    rw [hs] at ht
    cases ht
    have hpos := Nat.two_pow_pos k
    have h1 := hf.inside
    have h2 := hf'.inside
    obtain ⟨rfl, rfl⟩ := A.eq_of_mem hA hA' (p := t) ⟨hf.start, by omega⟩
      ⟨hf'.start, by omega⟩
    exact hb hj
  intro a' o' t j hA' hf' hj _ _ ht hbt
  by_cases hts : t = s
  · exact key hA' hf' hj hts ht hbt
  · by_cases hbs : buddy a' t j = s
    · refine key hA' (hf'.buddy hj) hj hbs hbt ?_
      rwa [buddy_buddy hf'.start]
    · exact h hA' hf' hj (by simpa) (by simpa) ht hbt

end NoFreeBuddies

/-! ### The units in use -/

/-- The units of a block in use, and none for a free block or no block. -/
def weight : Option Block → Nat
  | some ⟨k, true⟩ => 2 ^ k
  | _ => 0

/-- The units below `N` that are in blocks in use, counted by their first units. -/
def usedUnits (N : Nat) (B : Blocks) : Nat := ∑ p ∈ Finset.range N, weight (B p)

theorem usedUnits_update {N s : Nat} (B : Blocks) (x : Option Block) (hs : s < N) :
    usedUnits N (update B s x) + weight (B s) = usedUnits N B + weight x := by
  have hmem : s ∈ Finset.range N := Finset.mem_range.mpr hs
  have hrest : ∑ p ∈ (Finset.range N).erase s, weight (update B s x p) =
      ∑ p ∈ (Finset.range N).erase s, weight (B p) :=
    Finset.sum_congr rfl fun p hp => by rw [update_of_ne (Finset.ne_of_mem_erase hp)]
  unfold usedUnits
  rw [← Finset.add_sum_erase _ _ hmem, ← Finset.add_sum_erase (Finset.range N) _ hmem, hrest,
    update_self]
  omega

/-- The blocks in use are disjoint, so they have at most `N` units. -/
theorem Partition.usedUnits_le {A : Areas} {B : Blocks} {N : Nat} (P : Partition A B)
    (hbound : ∀ {a o}, A.mem a o → a + 2 ^ o ≤ N) : usedUnits N B ≤ N := by
  have hcard : ∀ p, (Finset.Ico p (p + weight (B p))).card = weight (B p) := by simp
  have hin : ∀ {p x}, x ∈ Finset.Ico p (p + weight (B p)) →
      ∃ blk, B p = some blk ∧ p ≤ x ∧ x < p + 2 ^ blk.order := by
    intro p x hx
    rw [Finset.mem_Ico] at hx
    cases hB : B p with
    | none => simp [hB, weight] at hx; omega
    | some blk =>
      obtain ⟨k, _ | _⟩ := blk
      · simp [hB, weight] at hx; omega
      · exact ⟨_, rfl, by simpa [hB, weight] using hx⟩
  unfold usedUnits
  rw [← Finset.sum_congr rfl fun p _ => hcard p, ← Finset.card_biUnion]
  · refine (Finset.card_le_card (t := Finset.range N) ?_).trans (Finset.card_range N).le
    intro x hx
    obtain ⟨p, -, hp⟩ := Finset.mem_biUnion.mp hx
    obtain ⟨blk, hB, hl, hu⟩ := hin hp
    obtain ⟨a, o, hA, hf⟩ := P.fits hB
    have h1 := hf.inside
    have h2 := hbound hA
    exact Finset.mem_range.mpr (by omega)
  · intro p _ q _ hne
    refine Finset.disjoint_left.mpr fun x hx hx' => hne ?_
    obtain ⟨blk, hB, h⟩ := hin hx
    obtain ⟨blk', hB', h'⟩ := hin hx'
    exact P.eq_of_mem hB hB' h h'

/-- The units of a set that are all in blocks in use are counted. -/
theorem card_le_usedUnits {B : Blocks} {N : Nat} {S : Finset Nat}
    (h : ∀ p ∈ S, p < N ∧ ∃ s k, B s = some ⟨k, true⟩ ∧ s ≤ p ∧ p < s + 2 ^ k) :
    S.card ≤ usedUnits N B := by
  have hsub : S ⊆ (Finset.range N).biUnion fun p => Finset.Ico p (p + weight (B p)) := by
    intro p hp
    obtain ⟨hpN, s, k, hs, hl, hu⟩ := h p hp
    refine Finset.mem_biUnion.mpr ⟨s, Finset.mem_range.mpr (by omega), ?_⟩
    rw [hs, Finset.mem_Ico]
    exact ⟨hl, hu⟩
  calc S.card ≤ ((Finset.range N).biUnion fun p => Finset.Ico p (p + weight (B p))).card :=
      Finset.card_le_card hsub
    _ ≤ ∑ p ∈ Finset.range N, (Finset.Ico p (p + weight (B p))).card := Finset.card_biUnion_le
    _ = usedUnits N B := Finset.sum_congr rfl fun p _ => by simp

/-- If every unit is in a block in use, all units are counted. -/
theorem le_usedUnits {B : Blocks} {N : Nat}
    (h : ∀ p < N, ∃ s k, B s = some ⟨k, true⟩ ∧ s ≤ p ∧ p < s + 2 ^ k) :
      N ≤ usedUnits N B := by
  have hcard := card_le_usedUnits (B := B) (N := N) (S := Finset.range N) fun p hp =>
    ⟨Finset.mem_range.mp hp, h p (Finset.mem_range.mp hp)⟩
  rwa [Finset.card_range] at hcard

/-- With few units in use, an area has a free block of a given order: one of its aligned ranges of
that order has no unit in use. -/
theorem exists_free_block {A : Areas} {B : Blocks} {N a o k : Nat} (P : Partition A B)
    (hno : NoFreeBuddies A B none) (hA : A.mem a o) (hbound : a + 2 ^ o ≤ N) (hk : k ≤ o)
    (hlt : usedUnits N B < 2 ^ (o - k)) : ∃ s j, B s = some ⟨j, false⟩ ∧ k ≤ j := by
  by_contra hnone
  have hpow : 2 ^ k * 2 ^ (o - k) = 2 ^ o := by rw [← pow_add, Nat.add_sub_cancel' hk]
  have hrange : ∀ i < 2 ^ (o - k), 2 ^ k * i + 2 ^ k ≤ 2 ^ o := by
    intro i hi
    calc 2 ^ k * i + 2 ^ k = 2 ^ k * (i + 1) := by ring
      _ ≤ 2 ^ k * 2 ^ (o - k) := Nat.mul_le_mul_left _ hi
      _ = 2 ^ o := hpow
  have hused : ∀ i < 2 ^ (o - k), ∃ d < 2 ^ k, ∃ s j, B s = some ⟨j, true⟩ ∧
      s ≤ a + 2 ^ k * i + d ∧ a + 2 ^ k * i + d < s + 2 ^ j := by
    intro i hi
    have hin := hrange i hi
    have hfit : Fits a o (a + 2 ^ k * i) k := ⟨by omega, by simp, by omega⟩
    by_contra hfree
    obtain ⟨s, ⟨j, u⟩, hs, hu, hkj, -⟩ :=
        exists_block_of_freeRun P hno hA hfit fun p hl hu => by
      obtain ⟨s, ⟨j, b⟩, hs, hl', hu'⟩ := P.cover hA (p := p) (by omega) (by omega)
      refine ⟨s, ⟨j, b⟩, hs, ?_, hl', hu'⟩
      cases b with
      | false => rfl
      | true => exact absurd ⟨p - (a + 2 ^ k * i), by omega, s, j, hs,
          by rw [Nat.add_sub_cancel' hl]; exact ⟨hl', hu'⟩⟩ hfree
    simp only at hu
    subst hu
    exact hnone ⟨s, j, hs, hkj⟩
  choose! d hd s j hs hl hu using hused
  have hinj : Set.InjOn (fun i => a + 2 ^ k * i + d i) (Finset.range (2 ^ (o - k))) := by
    intro i hi i' hi' he
    have hdi := hd i (Finset.mem_range.mp hi)
    have hdi' := hd i' (Finset.mem_range.mp hi')
    simp only at he
    have hq : (2 ^ k * i + d i) / 2 ^ k = (2 ^ k * i' + d i') / 2 ^ k := by
      rw [show 2 ^ k * i + d i = 2 ^ k * i' + d i' by omega]
    rwa [Nat.mul_add_div (Nat.two_pow_pos k), Nat.mul_add_div (Nat.two_pow_pos k),
      Nat.div_eq_of_lt hdi, Nat.div_eq_of_lt hdi'] at hq
  have hcard := card_le_usedUnits (B := B) (N := N)
    (S := (Finset.range (2 ^ (o - k))).image fun i => a + 2 ^ k * i + d i) fun p hp => by
      obtain ⟨i, hi, rfl⟩ := Finset.mem_image.mp hp
      have hi' := Finset.mem_range.mp hi
      have hin := hrange i hi'
      have hdi := hd i hi'
      exact ⟨by omega, s i, j i, hs i hi', hl i hi', hu i hi'⟩
  rw [Finset.card_image_of_injOn hinj, Finset.card_range] at hcard
  omega

/-! ### The areas of a number of units -/

theorem mod_two_pow_succ (N k : Nat) :
    N % 2 ^ (k + 1) = N % 2 ^ k + 2 ^ k * (N.testBit k).toNat := by
  rw [Nat.mod_pow_succ, Nat.toNat_testBit]

/-- Below a set bit of `N`, the lower bits end before the bits above it start. -/
theorem mod_two_pow_apart {N o o' : Nat} (h : N.testBit o = true) (ho : o < o') :
    N % 2 ^ o + 2 ^ o ≤ N % 2 ^ o' := by
  have h1 : N % 2 ^ (o + 1) = N % 2 ^ o + 2 ^ o := by
    rw [mod_two_pow_succ, h]
    simp
  have h2 : N % 2 ^ o' % 2 ^ (o + 1) = N % 2 ^ (o + 1) :=
    Nat.mod_mod_of_dvd N (pow_dvd_pow 2 ho)
  rw [← h1, ← h2]
  exact Nat.mod_le _ _

/-- One area for each set bit of `N` below `k`, the smallest first. -/
def binaryAreas (N k : Nat) : Areas where
  mem a o := o < k ∧ N.testBit o = true ∧ a = N % 2 ^ o
  unique := by
    rintro a o o' ⟨-, ho, rfl⟩ ⟨-, ho', he⟩
    rcases Nat.lt_trichotomy o o' with hlt | rfl | hlt
    · have := mod_two_pow_apart ho hlt
      have := Nat.two_pow_pos o
      omega
    · rfl
    · have := mod_two_pow_apart ho' hlt
      have := Nat.two_pow_pos o'
      omega
  apart := by
    rintro a o a' o' ⟨-, ho, rfl⟩ ⟨-, ho', rfl⟩ hlt
    rcases Nat.lt_trichotomy o o' with h | rfl | h
    · exact mod_two_pow_apart ho h
    · omega
    · have := mod_two_pow_apart ho' h
      omega

theorem binaryAreas_mem {N k a o : Nat} :
    (binaryAreas N k).mem a o ↔ o < k ∧ N.testBit o = true ∧ a = N % 2 ^ o := Iff.rfl

theorem binaryAreas_bound {N k a o : Nat} (h : (binaryAreas N k).mem a o) :
    a + 2 ^ o ≤ N % 2 ^ k := by
  obtain ⟨hk, ho, rfl⟩ := h
  exact mod_two_pow_apart ho hk

theorem binaryAreas_succ {N k a o : Nat} :
    (binaryAreas N (k + 1)).mem a o ↔
      (binaryAreas N k).mem a o ∨ (N.testBit k = true ∧ a = N % 2 ^ k ∧ o = k) := by
  simp only [binaryAreas_mem, Nat.lt_succ_iff_lt_or_eq]
  constructor
  · rintro ⟨h | rfl, ho, rfl⟩
    · exact .inl ⟨h, ho, rfl⟩
    · exact .inr ⟨ho, rfl, rfl⟩
  · rintro (⟨h, ho, rfl⟩ | ⟨ho, rfl, rfl⟩)
    · exact ⟨.inl h, ho, rfl⟩
    · exact ⟨.inr rfl, ho, rfl⟩

/-- The areas cover the units below `N % 2 ^ k`. -/
theorem binaryAreas_cover {N k p : Nat} (hp : p < N % 2 ^ k) :
    ∃ a o, (binaryAreas N k).mem a o ∧ a ≤ p ∧ p < a + 2 ^ o := by
  induction k with
  | zero => simp [Nat.mod_one] at hp
  | succ k ih =>
    by_cases hlt : p < N % 2 ^ k
    · obtain ⟨a, o, hA, hl, hu⟩ := ih hlt
      exact ⟨a, o, binaryAreas_succ.mpr (.inl hA), hl, hu⟩
    · rw [mod_two_pow_succ] at hp
      cases hbit : N.testBit k with
      | false => simp [hbit] at hp; omega
      | true =>
        simp only [hbit, Bool.toNat_true, Nat.mul_one] at hp
        exact ⟨N % 2 ^ k, k, binaryAreas_succ.mpr (.inr ⟨hbit, rfl, rfl⟩), by omega, hp⟩

/-- The free blocks that are whole areas are a partition with no two free buddies. -/
theorem partition_areas {A : Areas} {B : Blocks}
    (hB : ∀ s blk, B s = some blk ↔ A.mem s blk.order ∧ blk.used = false) :
      Partition A B := by
  refine ⟨fun {s blk} hs => ?_, fun {a o p} hA hl hu => ?_, fun {s blk t c} hs ht hlt => ?_⟩
  · have hA := ((hB s blk).mp hs).1
    exact ⟨s, blk.order, hA, Nat.le_refl s, by simp, Nat.le_refl _⟩
  · exact ⟨a, ⟨o, false⟩, (hB a _).mpr ⟨hA, rfl⟩, hl, hu⟩
  · exact A.apart ((hB s blk).mp hs).1 ((hB t c).mp ht).1 hlt

theorem noFreeBuddies_areas {A : Areas} {B : Blocks}
    (hB : ∀ s blk, B s = some blk ↔ A.mem s blk.order ∧ blk.used = false) :
    NoFreeBuddies A B none := by
  intro a o s k hA hf hk _ _ hs _
  have hAs := ((hB s _).mp hs).1
  have h1 := hf.start
  have h2 := hf.inside
  have hpos := Nat.two_pow_pos k
  simp only at hAs
  obtain ⟨-, rfl⟩ := A.eq_of_mem hA hAs (p := s) ⟨h1, by omega⟩
    ⟨Nat.le_refl s, by omega⟩
  omega

end OsKernel.Lib.BuddySystem

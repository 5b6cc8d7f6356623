import Mathlib.Order.Basic
import Mathlib.Data.Int.Order.Basic
import OsKernel.Klib.Fault

/-! `klib::binary_search`, over the indices of an array.  The comparison says where the target is:
before the index, at it, or behind it. -/

namespace OsKernel.Klib

/-- The loop, with `fuel` turns left. -/
def searchLoop (comp : Int → Int) : Nat → Int → Int → Option Int
  | 0, _, _ => none
  | fuel + 1, first, last =>
    if last < first then none
    else
      let len := last - first + 1
      let mid := first + len / 2
      if comp mid < 0 then searchLoop comp fuel first (mid - 1)
      else if 0 < comp mid then searchLoop comp fuel (mid + 1) last
      else some mid

/-- `binary_search` of the indices from `first` to `last`. -/
def binarySearch (comp : Int → Int) (first last : Int) : Option Int :=
  searchLoop comp (last - first + 1).toNat first last

/-- The loop, where the comparison reads what may not be there. -/
def searchLoopM (comp : Int → Except Fault Int) : Nat → Int → Int →
    Except Fault (Option Int)
  | 0, _, _ => .ok none
  | fuel + 1, first, last =>
    if last < first then .ok none
    else
      let len := last - first + 1
      let mid := first + len / 2
      match comp mid with
      | .error e => .error e
      | .ok c =>
        if c < 0 then searchLoopM comp fuel first (mid - 1)
        else if 0 < c then searchLoopM comp fuel (mid + 1) last
        else .ok (some mid)

/-- `binary_search` with such a comparison. -/
def binarySearchM (comp : Int → Except Fault Int) (first last : Int) :
    Except Fault (Option Int) :=
  searchLoopM comp (last - first + 1).toNat first last

variable {comp : Int → Int} {t : Int}

/-- The search finds the only index at which the target is. -/
theorem searchLoop_found (heq : comp t = 0) (fuel : Nat) {first last : Int}
    (hfuel : (last - first + 1).toNat ≤ fuel) (hf : first ≤ t) (hl : t ≤ last)
    (hlt : ∀ {i}, first ≤ i → i < t → 0 < comp i)
    (hgt : ∀ {i}, t < i → i ≤ last → comp i < 0) :
    searchLoop comp fuel first last = some t := by
  induction fuel generalizing first last with
  | zero => omega
  | succ fuel ih =>
    unfold searchLoop
    rw [if_neg (by omega)]
    simp only
    rcases lt_trichotomy (first + (last - first + 1) / 2) t with h | h | h
    · have hc := hlt (by omega) h
      rw [if_neg (by omega), if_pos hc]
      exact ih (by omega) (by omega) hl (fun hi => hlt (by omega)) hgt
    · rw [h, heq, if_neg (by omega), if_neg (by omega)]
    · have hc := hgt h (by omega)
      rw [if_pos hc]
      exact ih (by omega) hf (by omega) hlt fun hi hle => hgt hi (by omega)

/-- The search finds nothing where the target is before all indices. -/
theorem searchLoop_none (fuel : Nat) {first last : Int}
    (hlt : ∀ {i}, first ≤ i → i ≤ last → comp i < 0) :
      searchLoop comp fuel first last = none := by
  induction fuel generalizing last with
  | zero => rfl
  | succ fuel ih =>
    unfold searchLoop
    split
    · rfl
    · simp only
      rw [if_pos (hlt (by omega) (by omega))]
      exact ih fun hf hl => hlt hf (by omega)

theorem binarySearch_found {first last : Int} (heq : comp t = 0) (hf : first ≤ t)
    (hl : t ≤ last) (hlt : ∀ {i}, first ≤ i → i < t → 0 < comp i)
    (hgt : ∀ {i}, t < i → i ≤ last → comp i < 0) :
    binarySearch comp first last = some t :=
  searchLoop_found heq _ (by omega) hf hl hlt hgt

theorem binarySearch_none {first last : Int}
    (hlt : ∀ {i}, first ≤ i → i ≤ last → comp i < 0) :
    binarySearch comp first last = none :=
  searchLoop_none _ hlt

/-- A comparison that succeeds at all indices is one that reads nothing. -/
theorem searchLoopM_eq {comp' : Int → Except Fault Int} (fuel : Nat) {first last : Int}
    (h : ∀ {i}, first ≤ i → i ≤ last → comp' i = .ok (comp i)) :
    searchLoopM comp' fuel first last = .ok (searchLoop comp fuel first last) := by
  induction fuel generalizing first last with
  | zero => rfl
  | succ fuel ih =>
    rw [searchLoopM, searchLoop]
    split
    · rfl
    · simp only
      rw [h (by omega) (by omega)]
      simp only
      split
      · exact ih fun hf hl => h hf (by omega)
      · split
        · exact ih fun hf hl => h (by omega) hl
        · rfl

theorem binarySearchM_eq {comp' : Int → Except Fault Int} {first last : Int}
    (h : ∀ {i}, first ≤ i → i ≤ last → comp' i = .ok (comp i)) :
    binarySearchM comp' first last = .ok (binarySearch comp first last) :=
  searchLoopM_eq _ h

/-- What the search finds, the comparison is content with. -/
theorem searchLoop_sound (fuel : Nat) {first last i : Int}
    (h : searchLoop comp fuel first last = some i) :
    first ≤ i ∧ i ≤ last ∧ comp i = 0 := by
  induction fuel generalizing first last with
  | zero => cases h
  | succ fuel ih =>
    rw [searchLoop] at h
    split at h
    · cases h
    · simp only at h
      split at h
      · obtain ⟨hf, hl, hc⟩ := ih h
        exact ⟨hf, by omega, hc⟩
      · split at h
        · obtain ⟨hf, hl, hc⟩ := ih h
          exact ⟨by omega, hl, hc⟩
        · cases h
          exact ⟨by omega, by omega, by omega⟩

theorem binarySearch_sound {first last i : Int} (h : binarySearch comp first last = some i) :
    first ≤ i ∧ i ≤ last ∧ comp i = 0 :=
  searchLoop_sound _ h

/-- The indices that the loop compares on its way to the index `t`, which is the last of them. -/
def wayLoop (t : Int) : Nat → Int → Int → List Int
  | 0, _, _ => []
  | fuel + 1, first, last =>
    if last < first then []
    else
      let mid := first + (last - first + 1) / 2
      if t < mid then mid :: wayLoop t fuel first (mid - 1)
      else if mid < t then mid :: wayLoop t fuel (mid + 1) last
      else [mid]

def way (t first last : Int) : List Int := wayLoop t (last - first + 1).toNat first last

theorem mem_wayLoop (fuel : Nat) {first last : Int} (hfuel : (last - first + 1).toNat ≤ fuel)
    (hf : first ≤ t) (hl : t ≤ last) : t ∈ wayLoop t fuel first last := by
  induction fuel generalizing first last with
  | zero => omega
  | succ fuel ih =>
    unfold wayLoop
    rw [if_neg (by omega)]
    simp only
    split
    · exact List.mem_cons_of_mem _ (ih (by omega) hf (by omega))
    · split
      · exact List.mem_cons_of_mem _ (ih (by omega) (by omega) hl)
      · exact List.mem_singleton.mpr (by omega)

theorem mem_way {first last : Int} (hf : first ≤ t) (hl : t ≤ last) : t ∈ way t first last :=
  mem_wayLoop _ (by omega) hf hl

/-- Where indices before `t` may be taken for it, the search ends at the first such index on its way
to `t`. -/
theorem searchLoop_way (heq : comp t = 0) (fuel : Nat) {first last : Int}
    (hfuel : (last - first + 1).toNat ≤ fuel) (hf : first ≤ t) (hl : t ≤ last)
    (hlt : ∀ {i}, first ≤ i → i < t → 0 ≤ comp i)
    (hgt : ∀ {i}, t < i → i ≤ last → comp i < 0) :
    searchLoop comp fuel first last = (wayLoop t fuel first last).find? (fun i => comp i = 0) := by
  induction fuel generalizing first last with
  | zero => omega
  | succ fuel ih =>
    have hne : ¬last < first := by omega
    unfold searchLoop wayLoop
    rw [if_neg hne, if_neg hne]
    simp only
    have hmid : first ≤ first + (last - first + 1) / 2 ∧
      first + (last - first + 1) / 2 ≤ last := by omega
    generalize first + (last - first + 1) / 2 = mid at hmid ⊢
    rcases lt_trichotomy mid t with h | h | h
    · have hc := hlt hmid.1 h
      have hneg : ¬comp mid < 0 := by omega
      have hleft : ¬t < mid := by omega
      rw [if_neg hneg, if_neg hleft, if_pos h, List.find?_cons]
      by_cases hpos : 0 < comp mid
      · rw [if_pos hpos, decide_eq_false (by omega)]
        exact ih (by omega) (by omega) hl (fun hi => hlt (by omega)) hgt
      · rw [if_neg hpos, decide_eq_true (by omega)]
    · have hself : ¬t < t := by omega
      rw [h, heq, if_neg (by decide), if_neg (by decide), if_neg hself, if_neg hself,
        List.find?_cons, heq, decide_eq_true rfl]
    · have hc := hgt h hmid.2
      rw [if_pos hc, if_pos h, List.find?_cons, decide_eq_false (by omega)]
      exact ih (by omega) hf (by omega) hlt fun hi hle => hgt hi (by omega)

theorem binarySearch_way {first last : Int} (heq : comp t = 0) (hf : first ≤ t) (hl : t ≤ last)
    (hlt : ∀ {i}, first ≤ i → i < t → 0 ≤ comp i)
    (hgt : ∀ {i}, t < i → i ≤ last → comp i < 0) :
    binarySearch comp first last = (way t first last).find? (fun i => comp i = 0) :=
  searchLoop_way heq _ (by omega) hf hl hlt hgt

/-! ### The turns of the loop -/

/-- The loop with the indices that it compares, or `none` where it has not ended after
`fuel` turns. -/
def searchRun (comp : Int → Int) : Nat → Int → Int → Option (List Int × Option Int)
  | 0, first, last => if last < first then some ([], none) else none
  | fuel + 1, first, last =>
    if last < first then some ([], none)
    else
      let len := last - first + 1
      let mid := first + len / 2
      if comp mid < 0 then (searchRun comp fuel first (mid - 1)).map fun r => (mid :: r.1, r.2)
      else if 0 < comp mid then (searchRun comp fuel (mid + 1) last).map fun r => (mid :: r.1, r.2)
      else some ([mid], some mid)

/-- Along the indices the target is first behind, then at and then before them. -/
def SignFalls (comp : Int → Int) (first last : Int) : Prop :=
  ∀ {i j}, first ≤ i → i ≤ j → j ≤ last → (comp j).sign ≤ (comp i).sign

theorem SignFalls.sub {first last first' last' : Int} (h : SignFalls comp first last)
    (hf : first ≤ first') (hl : last' ≤ last) : SignFalls comp first' last' :=
  fun hi hij hj => h (by omega) hij (by omega)

theorem SignFalls.neg {first last i j : Int} (h : SignFalls comp first last) (hi : first ≤ i)
    (hij : i ≤ j) (hj : j ≤ last) (hneg : comp i < 0) : comp j < 0 := by
  have hs := h hi hij hj
  rw [Int.sign_eq_neg_one_of_neg hneg] at hs
  by_contra hge
  have := Int.sign_nonneg_iff.mpr (Int.not_lt.mp hge)
  omega

theorem SignFalls.pos {first last i j : Int} (h : SignFalls comp first last) (hi : first ≤ i)
    (hij : i ≤ j) (hj : j ≤ last) (hpos : 0 < comp j) : 0 < comp i := by
  have hs := h hi hij hj
  rw [Int.sign_eq_one_of_pos hpos] at hs
  by_contra hle
  have := Int.sign_nonpos_iff.mpr (Int.not_lt.mp hle)
  omega

/-- A comparison that falls along the indices. -/
theorem SignFalls.of_le {first last : Int}
    (h : ∀ {i j}, first ≤ i → i ≤ j → j ≤ last → comp j ≤ comp i) :
      SignFalls comp first last := by
  intro i j hi hij hj
  have hle := h hi hij hj
  rcases lt_trichotomy (comp j) 0 with hneg | hzero | hpos
  · rw [Int.sign_eq_neg_one_of_neg hneg]
    rcases Int.sign_trichotomy (comp i) with hs | hs | hs <;> omega
  · rw [hzero] at hle ⊢
    exact Int.sign_nonneg_iff.mpr hle
  · rw [Int.sign_eq_one_of_pos hpos, Int.sign_eq_one_of_pos (by omega)]

/-- The loop ends within one turn for each index, and compares only indices between its bounds. -/
theorem searchRun_ends (comp : Int → Int) (n : Nat) {first last : Int}
    (hn : (last - first + 1).toNat ≤ n) : ∃ visited,
        (∀ fuel, n ≤ fuel → searchRun comp fuel first last =
        some (visited, searchLoop comp n first last)) ∧
      ∀ i ∈ visited, first ≤ i ∧ i ≤ last := by
  induction n generalizing first last with
  | zero =>
    have hlt : last < first := by omega
    refine ⟨[], fun fuel _ => ?_, fun i hi => absurd hi List.not_mem_nil⟩
    cases fuel with
    | zero => rw [searchRun, if_pos hlt, searchLoop]
    | succ fuel => rw [searchRun, if_pos hlt, searchLoop]
  | succ n ih =>
    by_cases hlt : last < first
    · refine ⟨[], fun fuel hfuel => ?_, fun i hi => absurd hi List.not_mem_nil⟩
      obtain ⟨fuel, rfl⟩ : ∃ f, fuel = f + 1 := ⟨fuel - 1, by omega⟩
      rw [searchRun, searchLoop, if_pos hlt, if_pos hlt]
    · -- the middle leaves fewer indices on either side
      obtain ⟨mid, hmid⟩ : ∃ mid, mid = first + (last - first + 1) / 2 := ⟨_, rfl⟩
      have hf : first ≤ mid := by omega
      have hl : mid ≤ last := by omega
      rcases lt_trichotomy (comp mid) 0 with hneg | hzero | hpos
      · obtain ⟨visited, hrun, hin⟩ := ih (show (mid - 1 - first + 1).toNat ≤ n by omega)
        refine ⟨mid :: visited, fun fuel hfuel => ?_, ?_⟩
        · obtain ⟨fuel, rfl⟩ : ∃ f, fuel = f + 1 := ⟨fuel - 1, by omega⟩
          rw [searchRun, searchLoop, if_neg hlt, if_neg hlt]
          simp only [← hmid, if_pos hneg, hrun fuel (by omega), Option.map_some]
        · intro i hi
          rcases List.mem_cons.mp hi with rfl | hi
          · exact ⟨hf, hl⟩
          · have := hin i hi
            omega
      · refine ⟨[mid], fun fuel hfuel => ?_, ?_⟩
        · obtain ⟨fuel, rfl⟩ : ∃ f, fuel = f + 1 := ⟨fuel - 1, by omega⟩
          rw [searchRun, searchLoop, if_neg hlt, if_neg hlt]
          simp only [← hmid, hzero, lt_irrefl, if_false]
        · intro i hi
          obtain rfl := List.mem_singleton.mp hi
          exact ⟨hf, hl⟩
      · have hnn : ¬comp mid < 0 := by omega
        obtain ⟨visited, hrun, hin⟩ := ih (show (last - (mid + 1) + 1).toNat ≤ n by omega)
        refine ⟨mid :: visited, fun fuel hfuel => ?_, ?_⟩
        · obtain ⟨fuel, rfl⟩ : ∃ f, fuel = f + 1 := ⟨fuel - 1, by omega⟩
          rw [searchRun, searchLoop, if_neg hlt, if_neg hlt]
          simp only [← hmid, if_neg hnn, if_pos hpos, hrun fuel (by omega), Option.map_some]
        · intro i hi
          rcases List.mem_cons.mp hi with rfl | hi
          · exact ⟨hf, hl⟩
          · have := hin i hi
            omega

/-- Where the sign falls along the indices, an index that matches stays between the bounds. -/
theorem searchLoop_some (n : Nat) {first last i : Int} (hn : (last - first + 1).toNat ≤ n)
    (h : SignFalls comp first last) (hf : first ≤ i) (hl : i ≤ last) (hi : comp i = 0) :
    (searchLoop comp n first last).isSome := by
  induction n generalizing first last with
  | zero => omega
  | succ n ih =>
    rw [searchLoop, if_neg (by omega)]
    obtain ⟨mid, hmid⟩ : ∃ mid, mid = first + (last - first + 1) / 2 := ⟨_, rfl⟩
    simp only [← hmid]
    split
    · next hneg =>
      have hlt : i < mid := by
        by_contra hge
        have := h.neg (by omega) (Int.not_lt.mp hge) hl hneg
        omega
      exact ih (by omega) (h.sub (by omega) (by omega)) hf (by omega)
    · split
      · next hpos =>
        have hlt : mid < i := by
          by_contra hge
          have := h.pos hf (Int.not_lt.mp hge) (by omega) hpos
          omega
        exact ih (by omega) (h.sub (by omega) (by omega)) (by omega) hl
      · rfl

/-- The search ends, compares only elements of the segment, and finds an element that matches if
there is one. -/
theorem binarySearch_complete (comp : Int → Int) (first last : Int)
    (h : SignFalls comp first last) : ∃ visited r,
      (∀ fuel, (last - first + 1).toNat ≤ fuel →
        searchRun comp fuel first last = some (visited, r)) ∧
      (∀ i ∈ visited, first ≤ i ∧ i ≤ last) ∧
      (∀ i, r = some i → first ≤ i ∧ i ≤ last ∧ comp i = 0) ∧
      (r.isSome ↔ ∃ i, first ≤ i ∧ i ≤ last ∧ comp i = 0) := by
  obtain ⟨visited, hrun, hin⟩ := searchRun_ends comp _ (Nat.le_refl (last - first + 1).toNat)
  refine ⟨visited, _, hrun, hin, fun i hi => searchLoop_sound _ hi, fun hsome => ?_, ?_⟩
  · obtain ⟨i, hi⟩ := Option.isSome_iff_exists.mp hsome
    exact ⟨i, searchLoop_sound _ hi⟩
  · rintro ⟨i, hf, hl, hi⟩
    exact searchLoop_some _ (Nat.le_refl _) h hf hl hi

theorem binarySearch_complete_four : ∃ visited r,
    (∀ fuel, (4 - 1 + 1 : Int).toNat ≤ fuel →
      searchRun (fun i => 2 - i) fuel 1 4 = some (visited, r)) ∧
    (∀ i ∈ visited, 1 ≤ i ∧ i ≤ 4) ∧
    (∀ i, r = some i → 1 ≤ i ∧ i ≤ 4 ∧ 2 - i = 0) ∧
    (r.isSome ↔ ∃ i : Int, 1 ≤ i ∧ i ≤ 4 ∧ 2 - i = 0) :=
  binarySearch_complete (fun i => 2 - i)
    1 4 (SignFalls.of_le fun {i j} _ hij _ => show 2 - j ≤ 2 - i by omega)

end OsKernel.Klib

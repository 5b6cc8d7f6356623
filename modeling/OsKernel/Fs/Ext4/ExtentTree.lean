import OsKernel.Fs.Ext4.LogicalBlock

/-! The blocks of a file through a well-formed tree of extents. -/

namespace OsKernel.Fs.Ext4

open Lib

/-- A run of blocks of a file and of the disk.  The blocks of one that is not initialised are
allocated only. -/
structure Extent where
  start : Nat
  length : Nat
  physical : Nat
  initialised : Bool
  deriving DecidableEq

def Extent.Contains (e : Extent) (block : Nat) : Prop :=
  e.start ≤ block ∧ block < e.start + e.length

def Extent.mapped (e : Extent) (block : Nat) : Nat := e.physical + (block - e.start)

namespace ExNode

variable (t : ExNode)

/-- A length of more than 32768 is that of an extent that is not initialised. -/
def leaf (i : Nat) : Extent where
  start := t.logicalBlockStart i
  length := if t.length i ≤ 32768 then t.length i else t.length i - 32768
  physical := t.physical i
  initialised := t.length i ≤ 32768

/-- The node `i` is the one for a block: the last that does not start behind it. -/
def Selects (block i : Nat) : Prop :=
  i < t.count ∧ t.logicalBlockStart i ≤ block ∧
    (i + 1 < t.count → block < t.logicalBlockStart (i + 1))

/-- There are nodes, and they are in the block. -/
def Fits : Prop := 0 < t.count ∧ 12 + 12 * t.count ≤ t.size

end ExNode

namespace Volume

variable (v : Volume)

def node (blk : Nat) : ExNode := ⟨v.readBlock blk, v.blockSize⟩

/-- The extents of a tree of the given depth. -/
def HasExtent : Nat → ExNode → Extent → Prop
  | 0, t, e => ∃ i < t.count, e = t.leaf i
  | d + 1, t, e => ∃ i < t.count, HasExtent d (v.node (t.nextNode i)) e

/-- Extents are in order and apart; those under an internal node lie between its start and that of
the next one. -/
def TreeWf : Nat → ExNode → Prop
  | 0, t => t.depth = 0 ∧ t.Fits ∧
      ∀ i, i + 1 < t.count → (t.leaf i).start + (t.leaf i).length ≤ (t.leaf (i + 1)).start
  | d + 1, t => t.depth = d + 1 ∧ t.Fits ∧
      (∀ i, i + 1 < t.count → t.logicalBlockStart i ≤ t.logicalBlockStart (i + 1)) ∧
      ∀ i < t.count, TreeWf d (v.node (t.nextNode i)) ∧
        ∀ e, v.HasExtent d (v.node (t.nextNode i)) e → t.logicalBlockStart i ≤ e.start ∧
          (i + 1 < t.count → e.start + e.length ≤ t.logicalBlockStart (i + 1))

/-- The index blocks on the way to a block of the file. -/
def OnPath (block : Nat) : Nat → ExNode → Nat → Prop
  | 0, _, _ => False
  | d + 1, t, blk => ∃ i, t.Selects block i ∧
      (blk = t.nextNode i ∨ OnPath block d (v.node (t.nextNode i)) blk)

end Volume

/-! ### One node -/

namespace ExNode

variable {t : ExNode} {block : Nat}

/-- `comp_leaf`, where all nodes are in the block. -/
def orderLeaf (t : ExNode) (block : Nat) (mid : Int) : Int :=
  if t.logicalBlockStart mid.toNat ≤ block ∧
      block < t.logicalBlockStart mid.toNat + t.length mid.toNat then 0
  else if block < t.logicalBlockStart mid.toNat then -1
  else 1

/-- `comp_intr`, where all nodes are in the block. -/
def orderIntr (t : ExNode) (ed : Int) (block : Nat) (mid : Int) : Int :=
  if block < t.logicalBlockStart mid.toNat then -1
  else if mid = ed then 0
  else if t.logicalBlockStart (mid.toNat + 1) ≤ block then 1
  else 0

theorem Fits.inside (h : t.Fits) {i n : Nat} (hi : i < t.count) (hn : n ≤ 12) :
    t.inside i n = .ok () := by
  have hfit := h.2
  exact if_pos (by omega)

theorem Fits.searchLeaf (h : t.Fits) : Klib.binarySearchM (t.compLeaf block) 0 (t.count - 1) =
    .ok (Klib.binarySearch (t.orderLeaf block) 0 (t.count - 1)) := by
  refine Klib.binarySearchM_eq fun {i} hf hl => ?_
  unfold compLeaf
  rw [h.inside (by omega) (by decide), ok_bind]
  rfl

theorem Fits.searchIntr (h : t.Fits) :
    Klib.binarySearchM (t.compIntr (t.count - 1) block) 0 (t.count - 1) =
    .ok (Klib.binarySearch (t.orderIntr (t.count - 1) block) 0 (t.count - 1)) := by
  refine Klib.binarySearchM_eq fun {i} hf hl => ?_
  unfold compIntr orderIntr
  rw [h.inside (by omega) (by decide), ok_bind]
  split
  · rfl
  split
  · rfl
  · rw [h.inside (by omega) (by decide), ok_bind]

/-- Numbers in order. -/
theorem le_of_steps {f g : Nat → Nat} {n : Nat} (hfg : ∀ i, f i ≤ g i)
    (h : ∀ i, i + 1 < n → g i ≤ f (i + 1))
    {i j : Nat} (hij : i < j) (hj : j < n) : g i ≤ f j := by
  induction j with
  | zero => omega
  | succ j ih =>
    rcases Nat.eq_or_lt_of_le (Nat.le_of_lt_succ hij) with rfl | hlt
    · exact h i hj
    · exact Nat.le_trans (ih hlt (by omega)) (Nat.le_trans (hfg j) (h j hj))

/-- Leaf nodes whose extents are apart. -/
def Apart (t : ExNode) : Prop :=
  ∀ i, i + 1 < t.count → (t.leaf i).start + (t.leaf i).length ≤ (t.leaf (i + 1)).start

/-- The length as it stands reaches the block. -/
def Reaches (t : ExNode) (block i : Nat) : Prop :=
  t.logicalBlockStart i ≤ block ∧ block < t.logicalBlockStart i + t.length i

instance (t : ExNode) (block i : Nat) : Decidable (t.Reaches block i) :=
  inferInstanceAs (Decidable (_ ∧ _))

theorem leaf_length_le (t : ExNode) (i : Nat) : (t.leaf i).length ≤ t.length i := by
  unfold leaf
  simp only
  split <;> omega

theorem leaf_length (t : ExNode) {i : Nat} (h : (t.leaf i).initialised = true) :
    (t.leaf i).length = t.length i :=
  if_pos (of_decide_eq_true h)

theorem Apart.before (h : t.Apart) {i j : Nat} (hij : i < j) (hj : j < t.count) :
    (t.leaf i).start + (t.leaf i).length ≤ (t.leaf j).start :=
  le_of_steps (f := fun i => (t.leaf i).start) (g := fun i => (t.leaf i).start + (t.leaf i).length)
    (fun _ => Nat.le_add_right _ _) h hij hj

theorem reaches_of_contains {i : Nat} (hc : (t.leaf i).Contains block) : t.Reaches block i :=
  ⟨hc.1, Nat.lt_of_lt_of_le hc.2 (Nat.add_le_add_left (t.leaf_length_le i) _)⟩

theorem orderLeaf_eq_zero {k : Int} : t.orderLeaf block k = 0 ↔ t.Reaches block k.toNat := by
  unfold orderLeaf Reaches
  split
  · next h => exact ⟨fun _ => h, fun _ => rfl⟩
  · next h =>
    split
    · exact ⟨fun he => by omega, fun hr => absurd hr h⟩
    · exact ⟨fun he => by omega, fun hr => absurd hr h⟩

theorem Apart.orderLeaf_neg (h : t.Apart) {j : Nat} (hc : (t.leaf j).Contains block) {k : Int}
    (hjk : (j : Int) < k) (hk : k ≤ t.count - 1) : t.orderLeaf block k < 0 := by
  have hlt := Nat.lt_of_lt_of_le hc.2 (h.before (show j < k.toNat by omega) (by omega))
  change block < t.logicalBlockStart k.toNat at hlt
  rw [orderLeaf, if_neg (by omega), if_pos hlt]
  decide

theorem Apart.start_le (h : t.Apart) {j : Nat} (hj : j < t.count) (hc : (t.leaf j).Contains block)
    {k : Int} (hk : k < j) : t.logicalBlockStart k.toNat ≤ block := by
  by_cases hneg : k.toNat < j
  · exact Nat.le_trans (Nat.le_trans (Nat.le_add_right _ _) (h.before hneg hj)) hc.1
  · rw [show k.toNat = j by omega]
    exact hc.1

/-- The search for a block of an extent ends at the first node on its way that reaches the block. -/
theorem Apart.search_way (h : t.Apart) {j : Nat} (hj : j < t.count)
    (hc : (t.leaf j).Contains block) : Klib.binarySearch (t.orderLeaf block) 0 (t.count - 1) =
      (Klib.way j 0 (t.count - 1)).find? (fun i => t.Reaches block i.toNat) := by
  rw [Klib.binarySearch_way (orderLeaf_eq_zero.mpr (reaches_of_contains hc)) (by omega) (by omega)
    (fun {k} hf hk => ?_) fun {k} hk hl => h.orderLeaf_neg hc hk hl]
  · exact congrArg (fun p => List.find? p _)
      (funext fun i => decide_eq_decide.mpr orderLeaf_eq_zero)
  · have hstart := h.start_le hj hc hk
    unfold orderLeaf
    split
    · exact Int.le_refl 0
    · rw [if_neg (by omega)]
      decide

/-- The search finds a block of an extent, if none before it reaches the block. -/
theorem Apart.search_found (h : t.Apart) {j : Nat} (hj : j < t.count)
    (hc : (t.leaf j).Contains block) (hnone : ∀ i < j, (t.leaf i).initialised = true) :
    Klib.binarySearch (t.orderLeaf block) 0 (t.count - 1) = some (j : Int) := by
  refine Klib.binarySearch_found (orderLeaf_eq_zero.mpr (reaches_of_contains hc)) (by omega)
    (by omega) (fun {k} hf hk => ?_) fun {k} hk hl => h.orderLeaf_neg hc hk hl
  have hbefore := h.before (show k.toNat < j by omega) hj
  rw [t.leaf_length (hnone _ (by omega))] at hbefore
  have hend : t.logicalBlockStart k.toNat + t.length k.toNat ≤ block := Nat.le_trans hbefore hc.1
  rw [orderLeaf, if_neg (by omega), if_neg (by omega)]
  decide

/-- A leaf that is found reaches the block. -/
theorem searchLeaf_sound {i : Int}
    (h : Klib.binarySearch (t.orderLeaf block) 0 (t.count - 1) = some i) :
    i.toNat < t.count ∧ t.Reaches block i.toNat := by
  obtain ⟨hf, hl, hc⟩ := Klib.binarySearch_sound h
  exact ⟨by omega, orderLeaf_eq_zero.mp hc⟩

theorem searchIntr_found (hord : ∀ i, i + 1 < t.count →
    t.logicalBlockStart i ≤ t.logicalBlockStart (i + 1))
    {i : Nat} (hi : t.Selects block i) :
    Klib.binarySearch (t.orderIntr (t.count - 1) block) 0 (t.count - 1) = some (i : Int) := by
  obtain ⟨hi, hlow, hhigh⟩ := hi
  have hsteps := fun {a b} => le_of_steps (f := t.logicalBlockStart) (g := t.logicalBlockStart)
    (i := a) (j := b) (fun i => Nat.le_refl _) hord
  refine Klib.binarySearch_found ?_ (by omega) (by omega) (fun {k} hf hk => ?_) fun {k} hk hl => ?_
  · unfold orderIntr
    rw [Int.toNat_natCast, if_neg (by omega)]
    by_cases he : (i : Int) = t.count - 1
    · rw [if_pos he]
    · have := hhigh (by omega)
      rw [if_neg he, if_neg (by omega)]
  · have hle : t.logicalBlockStart (k.toNat + 1) ≤ t.logicalBlockStart i := by
      rcases Nat.eq_or_lt_of_le (show k.toNat + 1 ≤ i by omega) with he | hlt
      · rw [he]
      · exact hsteps hlt hi
    have hk' := hord k.toNat (by omega)
    unfold orderIntr
    rw [if_neg (by omega), if_neg (by omega), if_pos (by omega)]
    decide
  · have hle : t.logicalBlockStart (i + 1) ≤ t.logicalBlockStart k.toNat := by
      rcases Nat.eq_or_lt_of_le (show i + 1 ≤ k.toNat by omega) with he | hlt
      · rw [he]
      · exact hsteps hlt (by omega)
    have := hhigh (by omega)
    unfold orderIntr
    rw [if_pos (by omega)]
    decide

theorem searchIntr_none (hord : ∀ i, i + 1 < t.count →
    t.logicalBlockStart i ≤ t.logicalBlockStart (i + 1))
    (h : block < t.logicalBlockStart 0) :
    Klib.binarySearch (t.orderIntr (t.count - 1) block) 0 (t.count - 1) = none := by
  refine Klib.binarySearch_none fun {k} hf hl => ?_
  have hle : t.logicalBlockStart 0 ≤ t.logicalBlockStart k.toNat := by
    rcases Nat.eq_zero_or_pos k.toNat with he | hlt
    · rw [he]
    · exact le_of_steps (fun i => Nat.le_refl _) hord hlt (by omega)
  unfold orderIntr
  rw [if_pos (by omega)]
  decide

/-- Some node is selected, unless the block is before all of them. -/
theorem exists_selects (hpos : 0 < t.count) (h : t.logicalBlockStart 0 ≤ block) : ∃ i,
    t.Selects block i := by
  have hlast : ∀ n, 0 < n → n ≤ t.count →
      ∃ i < n, t.logicalBlockStart i ≤ block ∧
        (i + 1 < n → block < t.logicalBlockStart (i + 1)) := by
    intro n
    induction n with
    | zero => omega
    | succ n ih =>
      intro _ hn
      by_cases hlast : t.logicalBlockStart n ≤ block
      · exact ⟨n, by omega, hlast, by omega⟩
      · have hn0 : 0 < n := by
          rcases Nat.eq_zero_or_pos n with rfl | hn0
          · omega
          · exact hn0
        obtain ⟨i, hi, hle, hlt⟩ := ih hn0 (by omega)
        refine ⟨i, by omega, hle, fun hi' => ?_⟩
        rcases Nat.eq_or_lt_of_le (show i + 1 ≤ n by omega) with he | hne
        · rw [he]
          omega
        · exact hlt hne
  exact hlast t.count hpos (Nat.le_refl _)

theorem Selects.unique (hord : ∀ i, i + 1 < t.count →
    t.logicalBlockStart i ≤ t.logicalBlockStart (i + 1))
    {i j : Nat} (hi : t.Selects block i) (hj : t.Selects block j) : i = j := by
  have h := Option.some.inj ((searchIntr_found hord hi).symm.trans (searchIntr_found hord hj))
  omega

end ExNode

/-! ### The tree -/

namespace Volume

variable {v : Volume} {block : Nat}

/-- The leaf to which the search comes. -/
def leafOf (v : Volume) (block : Nat) : Nat → ExNode → Option ExNode
  | 0, t => some t
  | d + 1, t => (Klib.binarySearch (t.orderIntr (t.count - 1) block) 0 (t.count - 1)).bind fun i =>
      leafOf v block d (v.node (t.nextNode i.toNat))

/-- The block that is found in the leaf. -/
def findIn (block : Nat) (l : ExNode) : Option Nat :=
  (Klib.binarySearch (l.orderLeaf block) 0 (l.count - 1)).map fun i => (l.leaf i.toNat).mapped block

def find (v : Volume) (d : Nat) (t : ExNode) (block : Nat) : Option Nat :=
  (v.leafOf block d t).bind (findIn block)

theorem HasExtent.selects {d : Nat} {t : ExNode} (h : v.TreeWf (d + 1) t) {e : Extent}
    (he : v.HasExtent (d + 1) t e) (hc : e.Contains block) :
    ∃ i, t.Selects block i ∧ v.HasExtent d (v.node (t.nextNode i)) e := by
  obtain ⟨i, hi, he⟩ := he
  obtain ⟨-, -, -, hchild⟩ := h
  obtain ⟨hlow, hhigh⟩ := (hchild i hi).2 e he
  refine ⟨i, ⟨hi, Nat.le_trans hlow hc.1, fun hnext => ?_⟩, he⟩
  exact Nat.lt_of_lt_of_le hc.2 (hhigh hnext)

/-- The extent of a block is in the leaf to which the search comes. -/
theorem HasExtent.leafOf {d : Nat} {t : ExNode} (h : v.TreeWf d t) {e : Extent}
    (he : v.HasExtent d t e) (hc : e.Contains block) :
    ∃ l, v.leafOf block d t = some l ∧ ∃ j < l.count, e = l.leaf j := by
  induction d generalizing t with
  | zero => exact ⟨t, rfl, he⟩
  | succ d ih =>
    obtain ⟨i, hi, he⟩ := HasExtent.selects h he hc
    obtain ⟨-, -, hord, hchild⟩ := h
    rw [Volume.leafOf, ExNode.searchIntr_found hord hi]
    exact ih (hchild i hi.1).1 he

theorem leafOf_wf {d : Nat} {t l : ExNode} (h : v.TreeWf d t) (hl : v.leafOf block d t = some l) :
    v.TreeWf 0 l ∧ ∀ j < l.count, v.HasExtent d t (l.leaf j) := by
  induction d generalizing t with
  | zero =>
    obtain rfl := Option.some.inj hl
    exact ⟨h, fun j hj => ⟨j, hj, rfl⟩⟩
  | succ d ih =>
    obtain ⟨-, -, -, hchild⟩ := h
    rw [Volume.leafOf] at hl
    obtain ⟨i, hi, hl⟩ := Option.bind_eq_some_iff.mp hl
    obtain ⟨hf, hlast, -⟩ := Klib.binarySearch_sound hi
    obtain ⟨hwf, hleaf⟩ := ih (hchild i.toNat (by omega)).1 hl
    exact ⟨hwf, fun j hj => ⟨i.toNat, by omega, hleaf j hj⟩⟩

/-- The block of an extent is found, where all extents before it are initialised. -/
theorem find_mapped {d : Nat} {t : ExNode} (h : v.TreeWf d t) {e : Extent} (he : v.HasExtent d t e)
    (hc : e.Contains block)
    (hinit : ∀ e', v.HasExtent d t e' → e'.start + e'.length ≤ e.start →
      e'.initialised = true) :
    v.find d t block = some (e.mapped block) := by
  obtain ⟨l, hl, j, hj, rfl⟩ := HasExtent.leafOf h he hc
  obtain ⟨⟨-, -, hapart⟩, hleaf⟩ := leafOf_wf h hl
  rw [find, hl, Option.bind_some, findIn, ExNode.Apart.search_found hapart hj hc fun i hi =>
    hinit _ (hleaf i (by omega)) (ExNode.Apart.before hapart hi hj)]
  rfl

/-- A block that is found is that of an extent whose length as it stands reaches the block. -/
theorem find_some {d : Nat} {t : ExNode} (h : v.TreeWf d t) {r : Nat}
    (hr : v.find d t block = some r) : ∃ e, v.HasExtent d t e ∧ r = e.mapped block ∧
      (e.initialised = true → e.Contains block) := by
  obtain ⟨l, hl, hr⟩ := Option.bind_eq_some_iff.mp hr
  obtain ⟨-, hleaf⟩ := leafOf_wf h hl
  obtain ⟨i, hi, rfl⟩ := Option.map_eq_some_iff.mp hr
  obtain ⟨hcount, hreach⟩ := ExNode.searchLeaf_sound hi
  refine ⟨l.leaf i.toNat, hleaf _ hcount, rfl, fun hinit => ⟨hreach.1, ?_⟩⟩
  rw [l.leaf_length hinit]
  exact hreach.2

/-- At most one extent contains a block. -/
theorem HasExtent.unique {d : Nat} {t : ExNode} (h : v.TreeWf d t) {e e' : Extent}
    (he : v.HasExtent d t e) (he' : v.HasExtent d t e') (hc : e.Contains block)
    (hc' : e'.Contains block) :
    e = e' := by
  obtain ⟨l, hl, i, hi, rfl⟩ := HasExtent.leafOf h he hc
  obtain ⟨l', hl', j, hj, rfl⟩ := HasExtent.leafOf h he' hc'
  obtain rfl := Option.some.inj (hl.symm.trans hl')
  obtain ⟨⟨-, -, hapart⟩, -⟩ := leafOf_wf h hl
  rcases Nat.lt_trichotomy i j with hij | rfl | hij
  · have hle := Nat.le_trans (ExNode.Apart.before hapart hij hj) hc'.1
    exact absurd (Nat.lt_of_lt_of_le hc.2 hle) (Nat.lt_irrefl _)
  · rfl
  · have hle := Nat.le_trans (ExNode.Apart.before hapart hij hi) hc.1
    exact absurd (Nat.lt_of_lt_of_le hc'.2 hle) (Nat.lt_irrefl _)

/-- The flags when the search is over: `q`, and the block that is found is pinned if asked. -/
def finish (q : Pins) (pin : Bool) : Option Nat → Pins
  | none => q
  | some blk => q.read blk pin

theorem unpinInternal_le {internal : Option Nat} {pins : Pins} {blk : Nat}
    (h : unpinInternal internal pins blk = true) : pins blk = true ∧ internal ≠ some blk := by
  cases internal with
  | none => exact ⟨h, fun h => nomatch h⟩
  | some i =>
    obtain ⟨hpin, hne⟩ := Pins.unpin_eq h
    exact ⟨hpin, fun he => hne (Option.some.inj he).symm⟩

/-- The loop over a tree of depth `d` ends within `d + 1` turns, and no index block is
pinned then. -/
theorem extentLoop_find (block : Nat) {d : Nat} {t : ExNode} (h : v.TreeWf d t) (pin : Bool)
    (internal : Option Nat) (pins : Pins) : ∃ q,
        (∀ fuel, d < fuel → extentLoop v block pin fuel t internal pins =
        .ok (v.find d t block, finish q pin (v.find d t block))) ∧
      ∀ blk, q blk = true → pins blk = true ∧ internal ≠ some blk ∧
        ¬v.OnPath block d t blk := by
  induction d generalizing t internal pins with
  | zero =>
    obtain ⟨hdepth, hfit, -⟩ := h
    refine ⟨unpinInternal internal pins, fun fuel hfuel => ?_, fun blk hblk =>
      ⟨(unpinInternal_le hblk).1, (unpinInternal_le hblk).2, id⟩⟩
    obtain ⟨n, rfl⟩ : ∃ n, fuel = n + 1 := ⟨fuel - 1, by omega⟩
    unfold extentLoop find Volume.leafOf findIn
    simp only [hdepth, if_true, Option.bind_some]
    rw [hfit.searchLeaf, ok_bind]
    cases hs : Klib.binarySearch (t.orderLeaf block) 0 (t.count - 1) with
    | none => rfl
    | some i =>
      simp only [Option.map_some]
      rw [hfit.inside (ExNode.searchLeaf_sound hs).1 (Nat.le_refl _), ok_bind]
      rfl
  | succ d ih =>
    obtain ⟨hdepth, hfit, hord, hchild⟩ := h
    have hnext : ∀ n i, Klib.binarySearch (t.orderIntr (t.count - 1) block) 0 (t.count - 1) =
        some i → extentLoop v block pin (n + 1) t internal pins = t.inside i.toNat 10 >>= fun _ =>
          extentLoop v block pin n (v.node (t.nextNode i.toNat)) (some (t.nextNode i.toNat))
            ((unpinInternal internal pins).read (t.nextNode i.toNat) true) := by
      intro n i hi
      rw [extentLoop]
      rw [if_neg (by omega), hfit.searchIntr, ok_bind, hi]
      rfl
    have hend : ∀ n, Klib.binarySearch (t.orderIntr (t.count - 1) block) 0 (t.count - 1) =
        none → extentLoop v block pin (n + 1) t internal pins =
          .ok (none, unpinInternal internal pins) := by
      intro n hnone
      rw [extentLoop]
      rw [if_neg (by omega), hfit.searchIntr, ok_bind, hnone]
    by_cases hlow : t.logicalBlockStart 0 ≤ block
    · obtain ⟨i, hi⟩ := ExNode.exists_selects hfit.1 hlow
      obtain ⟨q, hrun, hpinned⟩ := ih (hchild i hi.1).1 (some (t.nextNode i))
        ((unpinInternal internal pins).read (t.nextNode i) true)
      have hfind : v.find (d + 1) t block = v.find d (v.node (t.nextNode i)) block := by
        unfold find
        rw [Volume.leafOf, ExNode.searchIntr_found hord hi]
        rfl
      refine ⟨q, fun fuel hfuel => ?_, fun blk hblk => ?_⟩
      · obtain ⟨n, rfl⟩ : ∃ n, fuel = n + 1 := ⟨fuel - 1, by omega⟩
        rw [hnext n i (ExNode.searchIntr_found hord hi), hfind]
        simp only [Int.toNat_natCast]
        rw [hfit.inside hi.1 (by decide), ok_bind]
        exact hrun n (by omega)
      · obtain ⟨hold, hne, hpath⟩ := hpinned blk hblk
        simp only [Pins.read, if_true, Pins.pin, Function.update_apply] at hold
        rw [if_neg fun he => hne (congrArg some he.symm)] at hold
        obtain ⟨hpin, hint⟩ := unpinInternal_le hold
        refine ⟨hpin, hint, ?_⟩
        rintro ⟨j, hj, hon⟩
        obtain rfl := hi.unique hord hj
        rcases hon with rfl | hon
        · exact hne rfl
        · exact hpath hon
    · have hnone := ExNode.searchIntr_none hord (show block < t.logicalBlockStart 0 by omega)
      have hfind : v.find (d + 1) t block = none := by
        unfold find
        rw [Volume.leafOf, hnone]
        rfl
      refine ⟨unpinInternal internal pins, fun fuel hfuel => ?_, fun blk hblk => ?_⟩
      · obtain ⟨n, rfl⟩ : ∃ n, fuel = n + 1 := ⟨fuel - 1, by omega⟩
        rw [hend n hnone, hfind]
        rfl
      · obtain ⟨hpin, hint⟩ := unpinInternal_le hblk
        refine ⟨hpin, hint, ?_⟩
        rintro ⟨i, hi, -⟩
        rw [ExNode.searchIntr_found hord hi] at hnone
        cases hnone

end Volume

/-- In a well-formed tree of any depth, `read_logical_block` gives the block of the only extent that
contains the block, or nothing; it ends, and it leaves no block pinned that was not, nor an index
block that it has pinned. -/
theorem read_extents (v : Volume) (inode : Ext4Inode) (hext : inode.extents = true) (d : Nat)
    (h : v.TreeWf d inode.root) (hinit : ∀ e, v.HasExtent d inode.root e → e.initialised = true)
    (block : Nat) (pin : Bool) (pins : Pins) :
    ∃ result pins', (∀ fuel, d < fuel → inode.readLogicalBlock v fuel block pin pins =
      .ok (result, pins')) ∧ (∀ e, v.HasExtent d inode.root e → e.Contains block →
        result = some (e.mapped block) ∧ ∀ e', v.HasExtent d inode.root e' →
        e'.Contains block → e' = e) ∧
      ((∀ e, v.HasExtent d inode.root e → ¬e.Contains block) → result = none) ∧
      (∀ r, pin = true → result = some r → pins' r = true) ∧
      ∀ blk, pins' blk = true → (pin = true ∧ result = some blk) ∨
        (pins blk = true ∧ ¬v.OnPath block d inode.root blk) := by
  obtain ⟨q, hrun, hpinned⟩ := Volume.extentLoop_find block h pin none pins
  have hq : ∀ {blk}, q blk = true → pins blk = true ∧ ¬v.OnPath block d inode.root blk :=
      fun hb =>
    ⟨(hpinned _ hb).1, (hpinned _ hb).2.2⟩
  refine ⟨v.find d inode.root block, Volume.finish q pin (v.find d inode.root block),
    fun fuel hfuel => ?_,
    fun e he hc => ⟨?_, ?_⟩, fun hnone => ?_, fun r hpin hr => ?_, fun blk hblk => ?_⟩
  · rw [Ext4Inode.readLogicalBlock, if_pos hext]
    exact hrun fuel hfuel
  · exact Volume.find_mapped h he hc fun e' he' _ => hinit e' he'
  · exact fun e' he' hc' => Volume.HasExtent.unique h he' he hc' hc
  · cases hr : v.find d inode.root block with
    | none => rfl
    | some r =>
      obtain ⟨e, he, -, hc⟩ := Volume.find_some h hr
      exact absurd (hc (hinit e he)) (hnone e he)
  · rw [hr, hpin]
    simp [Volume.finish, Pins.read, Pins.pin]
  · cases hr : v.find d inode.root block with
    | none =>
      rw [hr] at hblk
      exact .inr (hq hblk)
    | some r =>
      rw [hr] at hblk
      cases pin with
      | false => exact .inr (hq hblk)
      | true =>
        simp only [Volume.finish, Pins.read, if_true, Pins.pin, Function.update_apply] at hblk
        split at hblk
        · next he => exact .inl ⟨rfl, by rw [he]⟩
        · exact .inr (hq hblk)

/-! A tree of two leaves. -/

def bytesOf (l : List UInt8) : Mem := fun a => l.getD a 0

/-- An index in the inode, the blocks 0 to 2 of the file in the block 5, and the blocks 10 and 11 in
the block 6. -/
def sampleInode : Ext4Inode where
  extents := true
  blocks := bytesOf [10, 243, 2, 0, 4, 0, 1, 0, 0, 0, 0, 0, 0, 0, 0, 0, 5, 0, 0, 0, 0, 0, 0, 0,
    8, 0, 0, 0, 6, 0, 0, 0, 0, 0, 0, 0]
  sizeLo := 2500
  sizeHigh := 0

def sampleVolume : Volume where
  blockSize := 1024
  support64bit := true
  readBlock blk :=
    if blk = 5 then bytesOf [10, 243, 1, 0, 84, 0, 0, 0, 0, 0, 0, 0, 0, 0, 0, 0, 3, 0, 0, 0, 20, 0,
      0, 0]
    else if blk = 6 then bytesOf [10, 243, 1, 0, 84, 0, 0, 0, 0, 0, 0, 0, 10, 0, 0, 0, 2, 0, 0, 0,
      30, 0, 0, 0]
    else fun a => UInt8.ofNat (blk + a)

theorem sample_node (blk : Nat) (h : blk = 5 ∨ blk = 6) : (sampleVolume.node blk).depth = 0 ∧
    (sampleVolume.node blk).count = 1 ∧ (sampleVolume.node blk).size = 1024 := by
  rcases h with rfl | rfl <;> decide

theorem sampleVolume_leaf (blk : Nat) (h : blk = 5 ∨ blk = 6) :
    sampleVolume.TreeWf 0 (sampleVolume.node blk) := by
  obtain ⟨hdepth, hcount, hsize⟩ := sample_node blk h
  exact ⟨hdepth, ⟨by omega, by omega⟩, fun i hi => by omega⟩

theorem sampleVolume_wf : sampleVolume.TreeWf 1 sampleInode.root := by
  have hstart : sampleInode.root.logicalBlockStart 0 = 0 ∧
    sampleInode.root.logicalBlockStart 1 = 8 := by decide
  have hnext : sampleInode.root.nextNode 0 = 5 ∧ sampleInode.root.nextNode 1 = 6 := by decide
  have hcount : sampleInode.root.count = 2 := rfl
  refine ⟨rfl, ⟨by decide, by decide⟩, fun i hi => ?_, fun i hi => ?_⟩
  · rw [show i = 0 by omega, hstart.1]
    exact Nat.zero_le _
  · rcases show i = 0 ∨ i = 1 by omega with rfl | rfl
    · rw [hnext.1]
      refine ⟨sampleVolume_leaf 5 (.inl rfl), ?_⟩
      rintro e ⟨j, hj, rfl⟩
      obtain rfl : j = 0 := by have := (sample_node 5 (.inl rfl)).2.1; omega
      exact ⟨by decide, fun _ => by decide⟩
    · rw [hnext.2]
      refine ⟨sampleVolume_leaf 6 (.inr rfl), ?_⟩
      rintro e ⟨j, hj, rfl⟩
      obtain rfl : j = 0 := by have := (sample_node 6 (.inr rfl)).2.1; omega
      exact ⟨by decide, fun h => by omega⟩

theorem sample_extents (e : Extent) (h : sampleVolume.HasExtent 1 sampleInode.root e) :
    e = ⟨0, 3, 20, true⟩ ∨ e = ⟨10, 2, 30, true⟩ := by
  have hnext : sampleInode.root.nextNode 0 = 5 ∧ sampleInode.root.nextNode 1 = 6 := by decide
  have hcount : sampleInode.root.count = 2 := rfl
  obtain ⟨i, hi, j, hj, rfl⟩ := h
  rcases show i = 0 ∨ i = 1 by omega with rfl | rfl
  · rw [hnext.1] at hj ⊢
    obtain rfl : j = 0 := by have := (sample_node 5 (.inl rfl)).2.1; omega
    exact .inl (by decide)
  · rw [hnext.2] at hj ⊢
    obtain rfl : j = 0 := by have := (sample_node 6 (.inr rfl)).2.1; omega
    exact .inr (by decide)

theorem read_extents_sample : ∃ pins,
    sampleInode.readLogicalBlock sampleVolume 2 11 true (fun _ => false) =
    .ok (some 31, pins) ∧ pins 31 = true ∧ pins 6 = false := by
  obtain ⟨result, pins, hrun, hfound, -, hpin, hpins⟩ :=
    read_extents sampleVolume sampleInode rfl 1 sampleVolume_wf (fun e he => by
      rcases sample_extents e he with rfl | rfl <;> rfl) 11 true fun _ => false
  have he : sampleVolume.HasExtent 1 sampleInode.root ⟨10, 2, 30, true⟩ :=
    ⟨1, by decide, 0, by decide, by decide⟩
  obtain rfl := (hfound _ he ⟨by decide, by decide⟩).1
  refine ⟨pins, hrun 2 (by decide), hpin 31 rfl rfl, ?_⟩
  cases h : pins 6 with
  | false => rfl
  | true =>
    rcases hpins 6 h with ⟨-, h⟩ | ⟨h, -⟩
    · cases h
    · cases h

end OsKernel.Fs.Ext4

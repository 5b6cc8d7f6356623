import OsKernel.Lib.BuddySystem
import OsKernel.Lib.Ring
import OsKernel.Mm.Buddy.Model

/-! Where the allocator's data is: the list heads, the managed pages and the info bytes are apart,
so a store to a field of one node changes that field alone, and info bytes and node fields do not
interfere.  The effects of `_insert_node` and `_remove_node` on all fields follow. -/

namespace OsKernel.Mm

open Lib Hsai

/-- The addresses of an allocator of `N` pages. -/
structure Layout (b : BuddyAllocator) (N : Nat) : Prop where
  pos : 0 < N
  pages_lt : N < 2 ^ 33
  aligned : b.memAddr % 4096 = 0
  infos : b.allocInfos = b.memAddr + 4096 * N
  infos_ge : N ≤ b.infosSize
  end_le : b.allocInfos + b.infosSize ≤ 2 ^ 64
  heads_le : b.buddyNodes + 1056 ≤ 2 ^ 64
  apart : b.buddyNodes + 1056 ≤ b.memAddr ∨ b.allocInfos + b.infosSize ≤ b.buddyNodes

namespace BuddyAllocator

/-- The address of a managed page. -/
def pageAddr (b : BuddyAllocator) (s : Nat) : Nat := b.memAddr + 4096 * s

/-- The addresses of nodes: the list heads and the managed pages. -/
def IsNode (b : BuddyAllocator) (N x : Nat) : Prop :=
  (∃ k < 33, x = b.listHead k) ∨ ∃ s < N, x = b.pageAddr s

end BuddyAllocator

open BuddyAllocator

theorem NodeField.offset_lt (f : NodeField) : f.offset + 8 ≤ 32 := by cases f <;> decide

theorem NodeField.offset_apart {f g : NodeField} (h : f ≠ g) :
    f.offset + 8 ≤ g.offset ∨ g.offset + 8 ≤ f.offset := by
  cases f <;> cases g <;> simp [NodeField.offset] at h ⊢

section Fields

variable {b : BuddyAllocator} {N : Nat} {m : Mem} {f g : NodeField} {x y v p : Nat}

theorem Layout.node_head (_ : Layout b N) {k : Nat} (hk : k < 33) : b.IsNode N (b.listHead k) :=
  .inl ⟨k, hk, rfl⟩

theorem Layout.node_page (_ : Layout b N) {s : Nat} (hs : s < N) : b.IsNode N (b.pageAddr s) :=
  .inr ⟨s, hs, rfl⟩

theorem Layout.page_inj {s t : Nat} (h : b.pageAddr s = b.pageAddr t) : s = t := by
  unfold pageAddr at h
  omega

theorem Layout.node_apart (hL : Layout b N) (hx : b.IsNode N x) (hy : b.IsNode N y)
    (hne : x ≠ y) : x + 32 ≤ y ∨ y + 32 ≤ x := by
  have h1 := hL.infos
  have h2 := hL.apart
  rcases hx with ⟨k, hk, rfl⟩ | ⟨s, hs, rfl⟩ <;>
    rcases hy with ⟨j, hj, rfl⟩ | ⟨t, ht, rfl⟩ <;>
    simp only [listHead, pageAddr] at hne ⊢ <;> omega

theorem Layout.node_lt (hL : Layout b N) (hx : b.IsNode N x) : x + 32 ≤ 2 ^ 64 := by
  have h1 := hL.infos
  have h2 := hL.end_le
  have h3 := hL.heads_le
  rcases hx with ⟨k, hk, rfl⟩ | ⟨s, hs, rfl⟩ <;> simp only [listHead, pageAddr] <;> omega

theorem Layout.head_ne_page (hL : Layout b N) {k s : Nat} (hk : k < 33) (hs : s < N) :
    b.listHead k ≠ b.pageAddr s := by
  have h1 := hL.infos
  have h2 := hL.apart
  simp only [listHead, pageAddr]
  omega

theorem Layout.head_inj {k j : Nat} (h : b.listHead k = b.listHead j) : k = j := by
  simp only [listHead] at h
  omega

/-- A field after a store to a field. -/
theorem Layout.getField_setField (hL : Layout b N) (hx : b.IsNode N x) (hy : b.IsNode N y)
    (hv : v < 2 ^ 64) :
    getField (setField m f x v) g y = if x = y ∧ f = g then v else getField m g y := by
  unfold getField setField
  split
  · rename_i h
    obtain ⟨rfl, rfl⟩ := h
    rw [Mem.read_write_same, Nat.mod_eq_of_lt (by simpa using hv)]
  · rename_i h
    apply Mem.read_write_apart
    have hf := f.offset_lt
    have hg := g.offset_lt
    by_cases hxy : x = y
    · have := NodeField.offset_apart (fun e : f = g => h ⟨hxy, e⟩)
      omega
    · have := hL.node_apart hx hy hxy
      omega

theorem Layout.setField_info (hL : Layout b N) (hx : b.IsNode N x) (hp : p < b.infosSize) :
    setField m f x v (b.allocInfos + p) = m (b.allocInfos + p) := by
  have h1 := hL.infos
  have h2 := hL.apart
  have hf := f.offset_lt
  apply Mem.write_outside
  rcases hx with ⟨k, hk, rfl⟩ | ⟨s, hs, rfl⟩ <;> simp only [listHead, pageAddr] <;> omega

theorem Layout.getField_setInfo (hL : Layout b N) {i : BuddyInfo} (hx : b.IsNode N x)
    (hp : p < b.infosSize) : getField (b.setInfo m p i) f x = getField m f x := by
  have h1 := hL.infos
  have h2 := hL.apart
  have hf := f.offset_lt
  apply Mem.read_fill_apart
  rcases hx with ⟨k, hk, rfl⟩ | ⟨s, hs, rfl⟩ <;> simp only [listHead, pageAddr] <;> omega

theorem setInfo_apply {i : BuddyInfo} {q : Nat} :
    b.setInfo m p i (b.allocInfos + q) = if q = p then i.toByte else m (b.allocInfos + q) := by
  unfold setInfo Mem.fill
  split <;> split <;> first | rfl | omega

theorem Layout.infoIndex (hL : Layout b N) {s : Nat} (hs : s < N) :
    b.getInfoIndex (b.pageAddr s) = s := by
  have h1 := hL.infos
  have h2 := hL.end_le
  unfold getInfoIndex pageAddr pageSize
  rw [wordSub_of_le (by omega) (by omega)]
  omega

/-- The fields of a node value. -/
def nodeValue (mg az pv nx : Nat) : NodeField → Nat
  | .magic => mg
  | .areaSize => az
  | .prev => pv
  | .next => nx

/-- All fields after an assignment to a whole node. -/
theorem Layout.getField_setNode (hL : Layout b N) {mg az pv nx : Nat} (hx : b.IsNode N x)
    (hy : b.IsNode N y) (hmg : mg < 2 ^ 64) (haz : az < 2 ^ 64) (hpv : pv < 2 ^ 64)
    (hnx : nx < 2 ^ 64) :
    getField (setNode m x mg az pv nx) g y =
      if x = y then nodeValue mg az pv nx g else getField m g y := by
  unfold setNode
  simp only
  rw [hL.getField_setField hx hy hnx, hL.getField_setField hx hy hpv,
    hL.getField_setField hx hy haz, hL.getField_setField hx hy hmg]
  by_cases hxy : x = y
  · cases g <;> simp [hxy, nodeValue]
  · simp [hxy]

theorem Layout.setNode_info (hL : Layout b N) {mg az pv nx : Nat} (hx : b.IsNode N x)
    (hp : p < b.infosSize) :
    setNode m x mg az pv nx (b.allocInfos + p) = m (b.allocInfos + p) := by
  unfold setNode
  rw [hL.setField_info hx hp, hL.setField_info hx hp, hL.setField_info hx hp,
    hL.setField_info hx hp]

end Fields

section Links

variable {b : BuddyAllocator} {N : Nat} {m : Mem} {x y k : Nat}

/-- The four stores of `_insert_node`: the first two leave the head's link alone. -/
theorem Layout.insertNode_eq (hL : Layout b N) (hk : k < 33) (hx : b.IsNode N x)
    (hfirst : b.IsNode N (getField m .next (b.listHead k))) (hne : x ≠ b.listHead k) :
    b.insertNode m x k = setField (setField (setField (setField m .next x
      (getField m .next (b.listHead k))) .prev x (b.listHead k)) .prev
      (getField m .next (b.listHead k)) x) .next (b.listHead k) x := by
  have hh := hL.node_head hk
  have hhv := hL.node_lt hh
  have hfv := hL.node_lt hfirst
  unfold insertNode
  simp only
  rw [hL.getField_setField hx hh (by omega), hL.getField_setField hx hh (by omega)]
  simp [hne]

/-- The fields after `_insert_node`. -/
theorem Layout.insertNode_fields (hL : Layout b N) (hk : k < 33) (hx : b.IsNode N x)
    (hfirst : b.IsNode N (getField m .next (b.listHead k))) (hne : x ≠ b.listHead k)
    (hy : b.IsNode N y) :
    getField (b.insertNode m x k) .next y =
        (if y = b.listHead k then x else if y = x then getField m .next (b.listHead k)
          else getField m .next y) ∧
      getField (b.insertNode m x k) .prev y =
        (if y = getField m .next (b.listHead k) then x else if y = x then b.listHead k
          else getField m .prev y) ∧
      getField (b.insertNode m x k) .magic y = getField m .magic y ∧
      getField (b.insertNode m x k) .areaSize y = getField m .areaSize y := by
  have hh := hL.node_head hk
  have hxv := hL.node_lt hx
  have hhv := hL.node_lt hh
  have hfv := hL.node_lt hfirst
  rw [hL.insertNode_eq hk hx hfirst hne]
  refine ⟨?_, ?_, ?_, ?_⟩ <;>
    rw [hL.getField_setField hh hy (by omega), hL.getField_setField hfirst hy (by omega),
      hL.getField_setField hx hy (by omega), hL.getField_setField hx hy (by omega)] <;>
    simp [eq_comm]

/-- The four stores of `_remove_node` of a node that is not linked to itself. -/
theorem Layout.removeNode_eq (hL : Layout b N) (hx : b.IsNode N x)
    (hp : b.IsNode N (getField m .prev x)) (hn : b.IsNode N (getField m .next x))
    (hpx : getField m .prev x ≠ x) :
    removeNode m x = setField (setField (setField (setField m .next (getField m .prev x)
      (getField m .next x)) .prev (getField m .next x) (getField m .prev x)) .prev x x) .next
      x x := by
  have hnv := hL.node_lt hn
  unfold removeNode
  simp only
  rw [hL.getField_setField hp hx (by omega), hL.getField_setField hp hx (by omega)]
  simp [hpx]

/-- The fields after `_remove_node`. -/
theorem Layout.removeNode_fields (hL : Layout b N) (hx : b.IsNode N x)
    (hp : b.IsNode N (getField m .prev x)) (hn : b.IsNode N (getField m .next x))
    (hpx : getField m .prev x ≠ x) (hy : b.IsNode N y) :
    getField (removeNode m x) .next y =
        (if y = x then x else if y = getField m .prev x then getField m .next x
          else getField m .next y) ∧
      getField (removeNode m x) .prev y =
        (if y = x then x else if y = getField m .next x then getField m .prev x
          else getField m .prev y) ∧
      getField (removeNode m x) .magic y = getField m .magic y ∧
      getField (removeNode m x) .areaSize y = getField m .areaSize y := by
  have hxv := hL.node_lt hx
  have hpv := hL.node_lt hp
  have hnv := hL.node_lt hn
  rw [hL.removeNode_eq hx hp hn hpx]
  refine ⟨?_, ?_, ?_, ?_⟩ <;>
    rw [hL.getField_setField hx hy (by omega), hL.getField_setField hx hy (by omega),
      hL.getField_setField hn hy (by omega), hL.getField_setField hp hy (by omega)] <;>
    simp [eq_comm]

end Links

end OsKernel.Mm

import Mathlib.Data.List.Chain
import Mathlib.Data.List.Nodup

/-! Circular doubly linked lists, given by their link functions.  `Ring nxt prv h l` says that from
the head `h` the `nxt` links pass through the members `l` in order and back to `h`, that the `prv`
links go the other way, and that no member occurs twice.  The rules for insertion after the head and
for removal ask only for the links that the operation writes and for the links of the ring that it
leaves alone, so they apply to links kept in any kind of store. -/

namespace OsKernel.Lib

variable {α : Type} {nxt prv nxt' prv' : α → α} {h n x : α} {l : List α}

/-- `b` follows `a` in both directions. -/
def Linked (nxt prv : α → α) (a b : α) : Prop := nxt a = b ∧ prv b = a

/-- The members `l` in a circle with the head `h`. -/
structure Ring (nxt prv : α → α) (h : α) (l : List α) : Prop where
  nodup : (h :: l).Nodup
  chain : List.IsChain (Linked nxt prv) (h :: l ++ [h])

namespace Ring

theorem notMem (r : Ring nxt prv h l) : h ∉ l := (List.nodup_cons.mp r.nodup).1

theorem nil (hn : nxt h = h) (hp : prv h = h) : Ring nxt prv h [] :=
  ⟨by simp, by simp [Linked, hn, hp]⟩

/-- A ring depends only on the links of its head and members. -/
theorem congr (r : Ring nxt prv h l) (hn : ∀ x ∈ h :: l, nxt' x = nxt x)
    (hp : ∀ x ∈ h :: l, prv' x = prv x) : Ring nxt' prv' h l := by
  refine ⟨r.nodup, r.chain.imp_of_mem_imp fun a b ha hb hab => ?_⟩
  have ha' : a ∈ h :: l := by simpa [or_comm] using ha
  have hb' : b ∈ h :: l := by simpa [or_comm] using hb
  exact ⟨(hn a ha').trans hab.1, (hp b hb').trans hab.2⟩

/-- The ring read backwards. -/
theorem reverse (r : Ring nxt prv h l) : Ring prv nxt h l.reverse := by
  refine ⟨?_, ?_⟩
  · have hnd := r.nodup
    simp only [List.nodup_cons, List.mem_reverse, List.nodup_reverse] at hnd ⊢
    exact hnd
  · have hc := r.chain
    rw [← List.isChain_reverse] at hc
    refine (show h :: l.reverse ++ [h] = (h :: l ++ [h]).reverse by simp) ▸ ?_
    exact hc.imp fun a b hab => ⟨hab.2, hab.1⟩

/-- The head's next link is the first member, or the head when there is none. -/
theorem next_head (r : Ring nxt prv h l) : nxt h = l.headD h := by
  cases l with
  | nil => exact (List.isChain_cons_cons.mp r.chain).1.1
  | cons a l => exact (List.isChain_cons_cons.mp r.chain).1.1

theorem next_head_eq_iff (r : Ring nxt prv h l) : nxt h = h ↔ l = [] := by
  rw [r.next_head]
  cases l with
  | nil => simp
  | cons a l =>
    have := r.notMem
    simp only [List.headD_cons, reduceCtorEq, iff_false]
    rintro rfl
    simp at this

theorem next_head_mem (r : Ring nxt prv h l) : nxt h ∈ h :: l := by
  rw [r.next_head]
  cases l <;> simp

/-- A member with what stands before and after it: the chain up to it, its two links, and the
chain from it on. -/
theorem around (r : Ring nxt prv h (xs ++ n :: ys)) :
    List.IsChain (Linked nxt prv) (h :: xs) ∧ List.IsChain (Linked nxt prv) (ys ++ [h]) ∧
      Linked nxt prv ((h :: xs).getLast (by simp)) n ∧
      Linked nxt prv n ((ys ++ [h]).head (by simp)) := by
  have hc := r.chain
  rw [show h :: (xs ++ n :: ys) ++ [h] = (h :: xs) ++ n :: (ys ++ [h]) by simp,
    List.isChain_append] at hc
  obtain ⟨hleft, hright, hjoin⟩ := hc
  refine ⟨hleft, hright.tail, hjoin _ (by simp [List.getLast?_eq_some_getLast]) n (by simp), ?_⟩
  cases ys with
  | nil => exact (List.isChain_cons_cons.mp hright).1
  | cons y ys => exact (List.isChain_cons_cons.mp hright).1

/-- The links of a member, both ways. -/
theorem links (r : Ring nxt prv h l) (hn : n ∈ l) : nxt (prv n) = n ∧ prv (nxt n) = n := by
  obtain ⟨xs, ys, rfl⟩ := List.append_of_mem hn
  obtain ⟨-, -, hbefore, hafter⟩ := r.around
  exact ⟨by rw [hbefore.2, hbefore.1], by rw [hafter.1, hafter.2]⟩

theorem prev_mem (r : Ring nxt prv h l) (hn : n ∈ l) : prv n ∈ h :: l := by
  obtain ⟨xs, ys, rfl⟩ := List.append_of_mem hn
  rw [r.around.2.2.1.2]
  have := List.getLast_mem (show h :: xs ≠ [] by simp)
  grind

theorem prev_ne (r : Ring nxt prv h l) (hn : n ∈ l) : prv n ≠ n := by
  have hnd := r.nodup
  obtain ⟨xs, ys, rfl⟩ := List.append_of_mem hn
  rw [r.around.2.2.1.2]
  have := List.getLast_mem (show h :: xs ≠ [] by simp)
  intro he
  rw [he] at this
  grind

theorem next_mem (r : Ring nxt prv h l) (hn : n ∈ l) : nxt n ∈ h :: l := by
  obtain ⟨xs, ys, rfl⟩ := List.append_of_mem hn
  rw [r.around.2.2.2.1]
  have := List.head_mem (show ys ++ [h] ≠ [] by simp)
  grind

theorem next_ne (r : Ring nxt prv h l) (hn : n ∈ l) : nxt n ≠ n := by
  intro he
  have := (r.links hn).2
  rw [he] at this
  exact r.prev_ne hn this

/-- Insertion of `n` right after the head. -/
theorem insert (r : Ring nxt prv h l) (hmem : n ∉ h :: l) (hnn : nxt' n = nxt h)
    (hnp : prv' n = h) (hhn : nxt' h = n) (hfp : prv' (nxt h) = n)
    (hn : ∀ x ∈ l, nxt' x = nxt x) (hp : ∀ x ∈ h :: l, x ≠ nxt h → prv' x = prv x) :
    Ring nxt' prv' h (n :: l) := by
  have hhead := r.next_head
  refine ⟨?_, ?_⟩
  · have := r.nodup
    simp only [List.mem_cons, not_or] at hmem
    simp only [List.nodup_cons, List.mem_cons, not_or] at this ⊢
    exact ⟨⟨fun e => hmem.1 e.symm, this.1⟩, hmem.2, this.2⟩
  · refine List.isChain_cons_cons.mpr ⟨⟨hhn, hnp⟩, ?_⟩
    cases l with
    | nil =>
      simp only [List.headD_nil] at hhead
      simpa [Linked, hnn, hhead] using hhead ▸ hfp
    | cons a l =>
      simp only [List.headD_cons] at hhead
      have hrest := (List.isChain_cons_cons.mp r.chain).2
      refine List.isChain_cons_cons.mpr ⟨⟨hnn.trans hhead, hhead ▸ hfp⟩, ?_⟩
      -- the first member is not met again, so no later link is one that the insertion wrote
      have hnd := r.nodup
      refine hrest.imp_of_mem_tail_imp fun u v hu hv huv => ?_
      have hva : v ≠ a := by
        rintro rfl
        simp at hv hnd
        grind
      have huh : u ≠ h := by
        rintro rfl
        exact hva (huv.1.symm.trans hhead)
      refine ⟨(hn u ?_).trans huv.1, (hp v ?_ (hhead ▸ hva)).trans huv.2⟩
      · simpa [huh] using hu
      · have hv' : v ∈ l ∨ v = h := by simpa using hv
        simpa [or_comm, or_left_comm] using Or.inr (a := v = a) hv'

/-- Removal of the member `n`. -/
theorem remove [BEq α] [LawfulBEq α] (r : Ring nxt prv h l) (hmem : n ∈ l)
    (hpn : nxt' (prv n) = nxt n) (hnp : prv' (nxt n) = prv n)
    (hn : ∀ x ∈ h :: l, x ≠ n → x ≠ prv n → nxt' x = nxt x)
    (hp : ∀ x ∈ h :: l, x ≠ n → x ≠ nxt n → prv' x = prv x) :
      Ring nxt' prv' h (l.erase n) := by
  have hlinks := r.links hmem
  have hnd := r.nodup
  obtain ⟨xs, ys, hxs, rfl, herase⟩ := List.exists_erase_eq hmem
  obtain ⟨hleft, hright, hbefore, hafter⟩ := r.around
  rw [herase]
  have hys : n ∉ ys := by
    simp only [List.nodup_cons, List.nodup_append, List.mem_cons] at hnd
    exact hnd.2.2.1.1
  have hhn : n ≠ h := by
    rintro rfl
    exact r.notMem hmem
  -- a link between two members other than `n` is neither the one into `n` nor the one out of it
  have keep : ∀ u v, u ∈ h :: (xs ++ n :: ys) → v ∈ h :: (xs ++ n :: ys) → u ≠ n →
      v ≠ n → Linked nxt prv u v → Linked nxt' prv' u v := by
    intro u v hu hv hun hvn huv
    refine ⟨(hn u hu hun ?_).trans huv.1, (hp v hv hvn ?_).trans huv.2⟩
    · rintro rfl
      exact hvn (huv.1.symm.trans hlinks.1)
    · rintro rfl
      exact hun (huv.2.symm.trans hlinks.2)
  refine ⟨?_, ?_⟩
  · rw [← herase]
    simp only [List.nodup_cons] at hnd ⊢
    exact ⟨fun hm => hnd.1 (List.mem_of_mem_erase hm), hnd.2.erase n⟩
  · rw [show h :: (xs ++ ys) ++ [h] = (h :: xs) ++ (ys ++ [h]) by simp]
    refine List.isChain_append.mpr ⟨?_, ?_, ?_⟩
    · refine hleft.imp_of_mem_imp fun u v hu hv huv => keep u v ?_ ?_ ?_ ?_ huv <;> grind
    · refine hright.imp_of_mem_imp fun u v hu hv huv => keep u v ?_ ?_ ?_ ?_ huv <;> grind
    · intro u hu v hv
      have hu' : u = prv n := by
        rw [hbefore.2]
        exact (Option.some.inj ((List.getLast?_eq_some_getLast (by simp)).symm.trans hu)).symm
      have hv' : v = nxt n := by
        rw [hafter.1]
        exact (Option.some.inj ((List.head?_eq_some_head (by simp)).symm.trans hv)).symm
      exact ⟨by rw [hu', hv', hpn], by rw [hu', hv', hnp]⟩

end Ring

end OsKernel.Lib

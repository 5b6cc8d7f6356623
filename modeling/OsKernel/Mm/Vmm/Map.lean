import OsKernel.Mm.PageMap
import OsKernel.Mm.PageTable.Walk

/-! `map_pages`, `vm_unmap` without release, `vm_create` and `walk_addr` over the page map. -/

namespace OsKernel.Mm

open Lib Hsai

variable {σ G : Type} {V : VirtualPageAllocator σ} {arch : Arch} {S : PageSource V arch G}
  {k : Kernel σ} {g : G} {root : Nat} {T : Nat → Nat → Option Nat} {base : Nat}
  {M : PageMap}

theorem vaBits_le (arch : Arch) : 2 ^ arch.vaBits ≤ 2 ^ 48 := by
  cases arch <;> decide

/-- A store to a leaf entry. -/
theorem Space.writeLeaf (Sp : Space S k g root T) {v pte d : Nat} (h : leafPte T v = some pte)
    (hd : d < 2 ^ 64) :
    Space S { k with mem := k.mem.write pte 8 d } g root T ∧
      Grown S k g T { k with mem := k.mem.write pte 8 d } g T ∧
      ∀ w, leafData (k.mem.write pte 8 d) T w = if w = v then d else leafData k.mem T w := by
  obtain ⟨H', hleaf⟩ := Sp.tables.write_leaf h hd
  have hout : ∀ x, ¬TableByte T x → k.mem.write pte 8 d x = k.mem x := by
    intro x hx
    apply Mem.write_outside
    by_contra hc
    exact hx (Tables.leaf_byte h (by omega) (by omega))
  refine ⟨⟨S.frame Sp.inv fun x hx => hout x fun ht => hx (Sp.held x ht), H', Sp.held⟩,
    ⟨⟨[], .nil, by simp⟩, id, fun x hx => hout x hx.2⟩, hleaf⟩

/-! ### `map_pages` -/

/-- One turn of the loop: a missing page for a table, a page that is mapped already, or the page
mapped and the loop goes on with the next. -/
theorem mapLoop_turn {flags : Nat} (hf : LeafFlags arch flags) (v pa : Nat) (hpa : pa < 2 ^ 64)
    (Sp : Space S k g root T) (hM : Represents arch k.mem T base M)
    (hv : PageRange arch base v 1) :
    (∃ j, S.room g < arch.top ∧ ∀ n, mapLoop arch V ⟨root, true⟩ flags n k (4096 * v) pa =
        .error (.panic (walkFail j))) ∨
      (∃ mp k₁ g₁ T₁, M v = some mp ∧ Space S k₁ g₁ root T₁ ∧
        Grown S k g T k₁ g₁ T₁ ∧ Represents arch k₁.mem T₁ base M ∧
        S.room g ≤ S.room g₁ + arch.top ∧
        ∀ n, mapLoop arch V ⟨root, true⟩ flags n k (4096 * v) pa = .ok (false, k₁)) ∨
      ∃ k₁ g₁ T₁, M v = none ∧ Space S k₁ g₁ root T₁ ∧
        Grown S k g T k₁ g₁ T₁ ∧ Represents arch k₁.mem T₁ base
        (Function.update M v (some (PageMap.target arch pa flags 0))) ∧
        S.room g ≤ S.room g₁ + arch.top ∧
        mapLoop arch V ⟨root, true⟩ flags 0 k (4096 * v) pa = .ok (true, k₁) ∧
        (v + 1 < 2 ^ 52 → ∀ n, mapLoop arch V ⟨root, true⟩ flags (n + 1) k (4096 * v) pa =
          mapLoop arch V ⟨root, true⟩ flags n k₁ (4096 * (v + 1)) (wordAdd pa 4096)) := by
  rcases walk_alloc Sp (4096 * v) with
    ⟨j, hrun, hroom⟩ | ⟨pte, k₁, g₁, T₁, hrun, Sp₁, hg₁, hleaf₁, hpte, hroom⟩
  · refine .inl ⟨j, hroom, fun n => ?_⟩
    rw [mapLoop, hrun, error_bind]
  rw [Nat.mul_div_cancel_left v (by decide)] at hpte
  have hM₁ := hM.congr hleaf₁
  have hspan := hv.inSpan (Nat.le_refl v) (by omega)
  have hpos := Sp₁.tables.leafPte_pos hpte
  have hvalid : arch.isValid (pteData k₁.mem pte) = (M v).isSome := by
    rw [← leafData_of_pte hpte, hM₁.isValid hspan]
  cases hMv : M v with
  | some mp =>
    refine .inr (.inl ⟨mp, k₁, g₁, T₁, rfl, Sp₁, hg₁, hM₁, hroom, fun n => ?_⟩)
    rw [mapLoop, hrun, ok_bind, if_neg hpos, hvalid, hMv]
    rfl
  | none =>
    have hok := PageMap.target_ok pa 0 hf
    have htarget : (PageMap.target arch pa flags 0).data arch =
        arch.setData (pageRoundDown (arch.toPhy pa) ||| flags) := by
      simp only [Mapping.data, PageMap.target, wordAdd, wordSize, Nat.mul_zero, Nat.add_zero,
        Nat.mod_eq_of_lt hpa]
    obtain ⟨Sp₂, hg₂, hleaf₂⟩ := Sp₁.writeLeaf hpte hok.data_lt
    have hM₂ := hM₁.set hok hspan hleaf₂
    rw [htarget] at Sp₂ hg₂ hM₂
    refine .inr (.inr ⟨_, g₁, T₁, rfl, Sp₂, hg₁.trans hg₂, hM₂, hroom, ?_,
      fun hlt n => ?_⟩)
    · rw [mapLoop, hrun, ok_bind, if_neg hpos, hvalid, hMv]
      rfl
    · have hnext : wordAdd (4096 * v) pageSize = 4096 * (v + 1) := by
        unfold wordAdd pageSize wordSize
        omega
      rw [mapLoop, hrun, ok_bind, if_neg hpos, hvalid, hMv, hnext]
      rfl

theorem mapLoop_spec {flags : Nat} (hf : LeafFlags arch flags) (n v pa : Nat)
    (hpa : pa < 2 ^ 64) (Sp : Space S k g root T) (hM : Represents arch k.mem T base M)
    (hv : PageRange arch base v (n + 1)) :
    (∃ j, mapLoop arch V ⟨root, true⟩ flags n k (4096 * v) pa =
        .error (.panic (walkFail j)) ∧ S.room g < arch.top * (n + 1)) ∨
      ∃ r k' g' T', mapLoop arch V ⟨root, true⟩ flags n k (4096 * v) pa = .ok (r, k') ∧
        Space S k' g' root T' ∧ Grown S k g T k' g' T' ∧
        Represents arch k'.mem T' base (M.map arch v (v + n) pa flags) ∧
        (r = true ↔ M.Clear v (v + n)) ∧ S.room g ≤ S.room g' + arch.top * (n + 1) := by
  induction n generalizing k g T M v pa with
  | zero =>
    rcases mapLoop_turn hf v pa hpa Sp hM (hv.sub (Nat.le_refl v) (by omega)) with ⟨j, hroom,
      hrun⟩ |
      ⟨mp, k₁, g₁, T₁, hMv, Sp₁, hg₁, hM₁, hroom, hrun⟩ |
      ⟨k₁, g₁, T₁, hMv, Sp₁, hg₁, hM₁, hroom, hrun, -⟩
    · exact .inl ⟨j, hrun 0, by omega⟩
    · refine .inr ⟨false, k₁, g₁, T₁, hrun 0, Sp₁, hg₁, ?_, ?_, by omega⟩
      · rwa [PageMap.map_stuck hMv]
      · exact iff_of_false (by simp) (M.not_clear hMv)
    · refine .inr ⟨true, k₁, g₁, T₁, hrun, Sp₁, hg₁, ?_, ?_, by omega⟩
      · rw [PageMap.map_step hMv (by omega), PageMap.map_empty (by omega)]
        exact hM₁
      · simp [PageMap.clear_step hMv, PageMap.clear_empty]
  | succ n ih =>
    have hlast : v + (n + 1) = v + 1 + n := by omega
    have hmul : arch.top * (n + 1 + 1) = arch.top * (n + 1) + arch.top := Nat.mul_succ _ _
    rcases mapLoop_turn hf v pa hpa Sp hM (hv.sub (Nat.le_refl v) (by omega)) with ⟨j, hroom,
      hrun⟩ |
      ⟨mp, k₁, g₁, T₁, hMv, Sp₁, hg₁, hM₁, hroom, hrun⟩ |
      ⟨k₁, g₁, T₁, hMv, Sp₁, hg₁, hM₁, hroom, -, hrun⟩
    · exact .inl ⟨j, hrun _, by rw [hmul]; omega⟩
    · refine .inr ⟨false, k₁, g₁, T₁, hrun _, Sp₁, hg₁, ?_, ?_, by rw [hmul]; omega⟩
      · rwa [PageMap.map_stuck hMv]
      · exact iff_of_false (by simp) (M.not_clear hMv)
    · have hfits := hv.fits
      rw [hrun (by omega), hlast]
      have hpa' : wordAdd pa 4096 < 2 ^ 64 := Nat.mod_lt _ (by decide)
      rcases ih (v + 1) (wordAdd pa 4096) hpa' Sp₁ hM₁ (hv.sub (by omega) (by omega)) with
        ⟨j, hrest, hlt⟩ | ⟨r, k₂, g₂, T₂, hrest, Sp₂, hg₂, hM₂, hr, hle⟩
      · exact .inl ⟨j, hrest, by omega⟩
      · refine .inr ⟨r, k₂, g₂, T₂, hrest, Sp₂, hg₁.trans hg₂, ?_, ?_, by omega⟩
        · rw [PageMap.map_step hMv (by omega)]
          exact hM₂
        · rw [hr, PageMap.clear_step hMv]
          exact PageMap.clear_update (by omega)

/-- `map_pages` maps the pages of the range up to the first that is mapped already. -/
theorem mapPages_spec (va size : Nat) {pa flags : Nat} (hf : LeafFlags arch flags)
    (hsize : 0 < size) (hva : va + size ≤ 2 ^ 64)
    (hv : PageRange arch base (va / 4096) ((va + size - 1) / 4096 - va / 4096 + 1))
    (hpa : pa < 2 ^ 64) (Sp : Space S k g root T) (hM : Represents arch k.mem T base M) :
    (∃ j, mapPages arch V k ⟨root, true⟩ va size pa flags = .error (.panic (walkFail j)) ∧
        S.room g < arch.top * ((va + size - 1) / 4096 - va / 4096 + 1)) ∨
      ∃ r k' g' T', mapPages arch V k ⟨root, true⟩ va size pa flags = .ok (r, k') ∧
        Space S k' g' root T' ∧ Grown S k g T k' g' T' ∧
        Represents arch k'.mem T' base
          (M.map arch (va / 4096) ((va + size - 1) / 4096) pa flags) ∧
        (r = true ↔ M.Clear (va / 4096) ((va + size - 1) / 4096)) ∧
        S.room g ≤ S.room g' + arch.top * ((va + size - 1) / 4096 - va / 4096 + 1) := by
  have hend : wordSub (wordAdd va size) 1 = va + size - 1 := by
    unfold wordSub wordAdd wordSize
    omega
  have hfirst : pageRoundDown va = 4096 * (va / 4096) := by
    rw [pageRoundDown_eq]
    omega
  have hcount : wordSub (pageRoundDown (va + size - 1)) (pageRoundDown va) / pageSize =
      (va + size - 1) / 4096 - va / 4096 := by
    rw [pageRoundDown_eq, pageRoundDown_eq, wordSub_of_le (by omega) (by omega)]
    unfold pageSize
    omega
  unfold mapPages
  rw [if_neg (by omega)]
  simp only
  rw [hend, hcount, hfirst]
  have hlast : va / 4096 + ((va + size - 1) / 4096 - va / 4096) = (va + size - 1) / 4096 := by omega
  have h := mapLoop_spec hf _ (va / 4096) pa hpa Sp hM hv
  rwa [hlast] at h

/-! ### `vm_unmap` without release -/

theorem unmapLoop_spec (n v : Nat) (Sp : Space S k g root T) (hM : Represents arch k.mem T base M)
    (hv : PageRange arch base v n) (hlt : v + n < 2 ^ 52)
    (hmapped : ∀ u, v ≤ u → u < v + n → M u ≠ none) :
    ∃ k', unmapLoop arch V ⟨root, true⟩ false n k (4096 * v) = .ok k' ∧
      Space S k' g root T ∧ Grown S k g T k' g T ∧
        Represents arch k'.mem T base (M.unmap v n) := by
  induction n generalizing k M v with
  | zero =>
    refine ⟨k, rfl, Sp, .refl k g T, ?_⟩
    have : M.unmap v 0 = M := by
      funext w
      exact if_neg (by omega)
    rwa [this]
  | succ n ih =>
    rw [unmapLoop]
    obtain ⟨mp, hmp⟩ := Option.ne_none_iff_exists'.mp (hmapped v (Nat.le_refl v) (by omega))
    obtain ⟨pte, hpte, hdata⟩ := hM.leafPte hmp
    have hok := (hM.of_some hmp).2
    have hwalk := walk_find_ok (V := V) Sp.tables
      (show leafPte T (4096 * v / 4096 % arch.vaPages) = some pte by
        rw [Nat.mul_div_cancel_left v (by decide)]; exact hpte)
    rw [hwalk, ok_bind]
    obtain ⟨Sp₁, hg₁, hleaf₁⟩ := Sp.writeLeaf hpte (d := 0) (by decide)
    have hM₁ := hM.clear (hM.inSpan hmp) hleaf₁
    have hnext : wordAdd (4096 * v) pageSize = 4096 * (v + 1) := by
      unfold wordAdd pageSize wordSize
      omega
    simp only [if_neg (Sp.tables.leafPte_pos hpte), hdata, hok.isValid, hok.isDirPage,
      Bool.not_true, Bool.false_eq_true, if_false]
    rw [hnext]
    obtain ⟨k₂, hrun, Sp₂, hg₂, hM₂⟩ :=
        ih (v + 1) Sp₁ hM₁ (hv.sub (by omega) (by omega)) (by omega) fun u hl hu => by
      rw [Function.update_of_ne (by omega)]
      exact hmapped u (by omega) (by omega)
    refine ⟨k₂, hrun, Sp₂, hg₁.trans hg₂, ?_⟩
    have : PageMap.unmap (Function.update M v none) (v + 1) n = M.unmap v (n + 1) := by
      funext w
      unfold PageMap.unmap
      by_cases hwv : w = v
      · rw [if_neg (by omega), if_pos (by omega), hwv, Function.update_self]
      · rw [Function.update_of_ne hwv]
        by_cases hw : v + 1 ≤ w ∧ w < v + 1 + n
        · rw [if_pos hw, if_pos (by omega)]
        · rw [if_neg hw, if_neg (by omega)]
    rwa [← this]

theorem vmUnmap_spec {va npages : Nat} (hal : va % 4096 = 0)
    (hva : va + 4096 * npages < 2 ^ 64) (hv : PageRange arch base (va / 4096) npages)
    (Sp : Space S k g root T)
    (hM : Represents arch k.mem T base M)
    (hmapped : ∀ u, va / 4096 ≤ u → u < va / 4096 + npages → M u ≠ none) :
    ∃ k', vmUnmap arch V k ⟨root, true⟩ va npages false = .ok k' ∧
      Space S k' g root T ∧ Grown S k g T k' g T ∧
      Represents arch k'.mem T base (M.unmap (va / 4096) npages) := by
  have hend : (wordAdd va (npages * pageSize) - va) / pageSize = npages := by
    unfold wordAdd pageSize wordSize
    omega
  have hfirst : va = 4096 * (va / 4096) := by omega
  unfold vmUnmap
  rw [if_neg (by unfold pageSize; omega)]
  simp only
  rw [hend]
  have h := unmapLoop_spec (V := V) (S := S) npages (va / 4096) Sp hM hv (by omega) hmapped
  rwa [← hfirst] at h

/-! ### `vm_create` and `walk_addr` -/

/-- `vm_create` gives a table with no entries. -/
theorem vmCreate_spec (hinv : S.inv k.pages k.mem g) :
    (vmCreate V k = .error (.panic "vmm: no mem to create vm space.") ∧ S.room g = 0) ∨
      ∃ p k' g' T', vmCreate V k = .ok (⟨p, true⟩, k') ∧ Space S k' g' p T' ∧
        S.grab g p g' ∧ (∀ a, IsTable T' a ↔ a = p) ∧ AgreeOn (S.held g) k.mem k'.mem ∧
        ∀ base, Represents arch k'.mem T' base fun _ => none := by
  unfold vmCreate
  rcases PageSource.allocPage hinv with
    ⟨k', hrun, -, -, hroom⟩ | ⟨p, k', g', hrun, hgrab, hinv', hkeep⟩
  · rw [hrun, ok_bind]
    exact .inl ⟨rfl, hroom⟩
  rw [hrun, ok_bind]
  obtain ⟨hal, hnz, hle, hw⟩ := S.page hgrab
  have hheld := S.held_grab hgrab
  let T' : Nat → Nat → Option Nat := fun l q => if l = arch.top ∧ q = 0 then some p else none
  have hT' : ∀ {l q a}, T' l q = some a → l = arch.top ∧ q = 0 ∧ a = p := by
    intro l q a h
    simp only [T'] at h
    split at h
    · rename_i he
      exact ⟨he.1, he.2, by simpa using h.symm⟩
    · cases h
  have hzero : ∀ j < 512, pteData (clearPage k' p).mem (p + 8 * j) = 0 := fun j hj =>
    Mem.read_fill_zero (by omega) (by unfold pageSize; omega)
  have htab : ∀ a, IsTable T' a ↔ a = p := by
    intro a
    constructor
    · rintro ⟨l, q, h⟩
      exact (hT' h).2.2
    · rintro rfl
      exact ⟨arch.top, 0, if_pos ⟨rfl, rfl⟩⟩
  refine .inr ⟨p, clearPage k' p, g', T', rfl, ⟨S.frame hinv' fun x hx => ?_,
    ⟨.single ?_, ?_, ?_⟩, ?_⟩, hgrab, htab, fun x hx => ?_, fun base v _ => ?_⟩
  · have := mt (hheld x).mpr hx
    exact Mem.fill_outside (by unfold pageSize; omega)
  · intro j hj
    unfold dirEntry
    simp only [hzero j hj, Arch.isValid_zero, Bool.false_eq_true, if_false]
  · intro l q a j h hj hval
    rw [(hT' h).2.2, hzero j hj, Arch.isValid_zero] at hval
    cases hval
  · intro l q a h
    rw [(hT' h).2.2]
    exact ⟨hal, hnz, hle, hw⟩
  · rintro x ⟨a, ha, hl, hu⟩
    rw [(htab a).mp ha] at hl hu
    exact (hheld x).mpr (.inr ⟨hl, hu⟩)
  · have hxp : x < p ∨ p + 4096 ≤ x := by
      by_contra hc
      exact S.fresh hgrab x (by omega) (by omega) hx
    rw [← hkeep x hx]
    exact Mem.fill_outside hxp
  · have : T' 0 (v % arch.vaPages / 512) = none := by
      refine if_neg ?_
      cases arch <;> simp [Arch.top]
    exact leafData_of_none (by simp [leafPte, this])

/-- `walk_addr` of a mapped page. -/
theorem walkAddr_mapped (H : Tables arch k.mem root T) (hM : Represents arch k.mem T base M)
    {va : Nat}
    {mp : Mapping} (hmp : M (va / 4096) = some mp) :
    walkAddr arch V k ⟨root, true⟩ va =
      .ok (if arch.isSuperPlv mp.flags then 0 else mp.page ||| (va % 4096)) := by
  obtain ⟨pte, hpte, hdata⟩ := hM.leafPte hmp
  have hok := (hM.of_some hmp).2
  have hand : va &&& (pageSize - 1) = va % 4096 := Nat.and_two_pow_sub_one_eq_mod va 12
  unfold walkAddr
  rw [walk_find_ok H hpte, ok_bind]
  simp only [if_neg (H.leafPte_pos hpte), hdata, hok.isValid, hok.isSuperPlv, hok.toPa, hand,
    Bool.not_true, Bool.false_eq_true, if_false]
  split <;> rfl

end OsKernel.Mm

import OsKernel.Lib.Laid
import OsKernel.Mm.Liballoc.Model

/-! The blocks of one chunk, and where `malloc` puts another one. -/

namespace OsKernel.Mm.Liballoc

open Lib

theorem tags : sizeofMajor = 40 ∧ sizeofMinor = 40 := ⟨rfl, rfl⟩

/-- The bytes of a tag and its block. -/
def LTagMinor.span (min : LTagMinor) : Nat := sizeofMinor + min.size

/-- The bytes of a chunk that are in use. -/
def LTagMajor.bytes (maj : LTagMajor) : Nat := sizeofMajor + (maj.minors.map LTagMinor.span).sum

structure MinorOk (min : LTagMinor) : Prop where
  aligned : min.addr % 8 = 0
  sizeAligned : min.size % 8 = 0
  req : 0 < min.reqSize ∧ min.reqSize ≤ min.size

/-- A chunk of `n` pages. -/
structure ChunkOk (maj : LTagMajor) (n : Nat) : Prop where
  size : maj.size = 4096 * n % 2 ^ 32
  pages : n ≤ 2 ^ 20
  aligned : maj.addr % 8 = 0
  usage : maj.usage = maj.bytes % 2 ^ 32
  laid : Laid LTagMinor.addr LTagMinor.span (maj.addr + sizeofMajor) (maj.addr + 4096 * n)
    maj.minors
  minors : ∀ min ∈ maj.minors, MinorOk min

/-- A block of `size` bytes for a request of `req`. -/
structure BlockSize (size req : Nat) : Prop where
  aligned : size % 8 = 0
  req : 0 < req ∧ req ≤ size
  lt : size < 2 ^ 32

/-- `need` bytes of the chunk, as far as its size says, are apart from all tags and blocks. -/
def HasGap (maj : LTagMajor) (need : Nat) : Prop :=
  ∃ a, maj.addr + sizeofMajor ≤ a ∧ a + need ≤ maj.addr + maj.size ∧
    ∀ min ∈ maj.minors, a + need ≤ min.addr ∨ min.addr + min.span ≤ a

namespace ChunkOk

variable {maj : LTagMajor} {n : Nat}

theorem bytes_le (ok : ChunkOk maj n) : maj.bytes ≤ 4096 * n := by
  have := ok.laid.total
  unfold LTagMajor.bytes
  omega

theorem size_le (ok : ChunkOk maj n) : maj.size ≤ 4096 * n := by
  rw [ok.size]
  exact Nat.mod_le _ _

theorem diff_eq (ok : ChunkOk maj n) : maj.diff = 4096 * n - maj.bytes := by
  have hle := ok.bytes_le
  have hpages := ok.pages
  have hpos : sizeofMajor ≤ maj.bytes := Nat.le_add_right _ _
  have htags := tags
  unfold LTagMajor.diff uintSub
  rw [ok.size, ok.usage, Nat.mod_mod]
  omega

/-- Free bytes that are too few make no gap. -/
theorem no_gap (ok : ChunkOk maj n) {need : Nat} (h : maj.diff < need) : ¬HasGap maj need := by
  rintro ⟨a, hlo, hhi, hfree⟩
  have hsize := ok.size_le
  have hgap := ok.laid.gap hlo (by omega) hfree
  rw [ok.diff_eq] at h
  unfold LTagMajor.bytes at h
  omega

end ChunkOk

section

variable {maj : LTagMajor} {n size req tag : Nat} {mins mins' : List LTagMinor}

/-! ### Case 4 -/

theorem newMinor_addr : (newMinor tag size req).addr = tag := rfl

theorem newMinor_span (h : BlockSize size req) :
    (newMinor tag size req).span = sizeofMinor + size := by
  have := h.lt
  unfold LTagMinor.span newMinor
  simp only
  rw [Nat.mod_eq_of_lt this]

theorem newMinor_ok (h : BlockSize size req) (ht : tag % 8 = 0) :
    MinorOk (newMinor tag size req) := by
  have hlt := h.lt
  have hreq := h.req
  have hsize : (newMinor tag size req).size = size := Nat.mod_eq_of_lt hlt
  have hreqSize : (newMinor tag size req).reqSize = req := Nat.mod_eq_of_lt (by omega)
  refine ⟨ht, ?_, ?_⟩
  · rw [hsize]
    exact h.aligned
  · rw [hsize, hreqSize]
    exact hreq

theorem scan_some (hb : BlockSize size req) {lo : Nat}
    (hl : Laid LTagMinor.addr LTagMinor.span lo (maj.addr + 4096 * n) mins)
    (hn : maj.size ≤ 4096 * n)
    (h : scan maj size req mins = some (mins', tag)) :
    ∃ before min behind, mins = before ++ min :: behind ∧ tag = min.addr + min.span ∧
      mins' = before ++ min :: newMinor tag size req :: behind ∧
      Laid LTagMinor.addr LTagMinor.span lo (maj.addr + 4096 * n) mins' := by
  have hspan : ∀ {t}, (newMinor t size req).addr + (newMinor t size req).span =
      t + (sizeofMinor + size) := by
    intro t
    rw [newMinor_span hb, newMinor_addr]
  induction mins generalizing lo mins' with
  | nil => cases h
  | cons min rest ih =>
    cases rest with
    | nil =>
      rw [scan] at h
      simp only at h
      split at h
      · rename_i hroom
        cases h
        refine ⟨[], min, [], rfl, by unfold LTagMinor.span; omega, rfl, hl.1, ?_, ?_⟩
        · rw [newMinor_addr]
          unfold LTagMinor.span
          omega
        · change _ ≤ _
          rw [hspan]
          omega
      · cases h
    | cons next rest =>
      rw [scan] at h
      simp only at h
      split at h
      · rename_i hroom
        cases h
        refine ⟨[], min, next :: rest,
          rfl, by unfold LTagMinor.span; omega, rfl, hl.1, ?_, ?_, hl.2.2⟩
        · rw [newMinor_addr]
          unfold LTagMinor.span
          omega
        · rw [hspan]
          omega
      · cases hrec : scan maj size req (next :: rest) with
        | none =>
          rw [hrec] at h
          cases h
        | some r =>
          rw [hrec] at h
          cases h
          obtain ⟨before, b, behind, hmins, htag, hmins', hlaid⟩ := ih hl.2 hrec
          refine ⟨min :: before, b,
            behind, by rw [hmins]; rfl, htag, by rw [hmins']; rfl, hl.1, hlaid⟩

/-- No gap at or behind the first tag. -/
theorem scan_none {lo : Nat} (hl : Laid LTagMinor.addr LTagMinor.span lo (maj.addr + 4096 * n) mins)
    (h : scan maj size req mins = none) {min : LTagMinor} {rest : List LTagMinor}
    (hmins : mins = min :: rest) {a : Nat} (ha : min.addr ≤ a)
    (hhi : a + (size + sizeofMinor) ≤ maj.addr + maj.size) :
    ∃ m ∈ mins, ¬(a + (size + sizeofMinor) ≤ m.addr ∨ m.addr + m.span ≤ a) := by
  have htags := tags
  induction rest generalizing lo mins min with
  | nil =>
    subst hmins
    rw [scan] at h
    simp only at h
    split at h
    · cases h
    rename_i hroom
    refine ⟨min, List.mem_cons_self, ?_⟩
    unfold LTagMinor.span
    omega
  | cons next rest ih =>
    subst hmins
    rw [scan] at h
    simp only at h
    split at h
    · cases h
    rename_i hroom
    by_cases hin : min.addr + min.span ≤ a
    · by_cases hnext : next.addr ≤ a
      · obtain ⟨m, hm, hover⟩ := ih hl.2 (Option.map_eq_none_iff.mp h) rfl hnext
        exact ⟨m, List.mem_cons_of_mem _ hm, hover⟩
      · refine ⟨next, by simp, ?_⟩
        unfold LTagMinor.span at *
        omega
    · refine ⟨min, List.mem_cons_self, ?_⟩
      omega

/-! ### Cases 2 to 4 -/

/-- A chunk with one block more. -/
theorem ChunkOk.grow (ok : ChunkOk maj n) (hb : BlockSize size req) (ht : tag % 8 = 0)
    (before behind : List LTagMinor) (hmins : maj.minors = before ++ behind)
    (hl : Laid LTagMinor.addr LTagMinor.span (maj.addr + sizeofMajor) (maj.addr + 4096 * n)
      (before ++ newMinor tag size req :: behind)) :
    ChunkOk (maj.grow (before ++ newMinor tag size req :: behind) size) n := by
  refine ⟨ok.size, ok.pages, ok.aligned, ?_, hl, ?_⟩
  · have hbytes : (maj.grow (before ++ newMinor tag size req :: behind) size).bytes =
        maj.bytes + (size + sizeofMinor) := by
      unfold LTagMajor.bytes LTagMajor.grow
      simp only [hmins, List.map_append, List.map_cons, List.sum_append, List.sum_cons,
        newMinor_span hb]
      omega
    rw [hbytes]
    unfold LTagMajor.grow uintAdd
    simp only [ok.usage]
    omega
  · intro min hmin
    have hmem : min = newMinor tag size req ∨ min ∈ maj.minors := by
      rw [hmins]
      simp only [LTagMajor.grow, List.mem_append, List.mem_cons] at hmin ⊢
      tauto
    rcases hmem with rfl | hmem
    · exact newMinor_ok hb ht
    · exact ok.minors min hmem

theorem place_some (ok : ChunkOk maj n) (hb : BlockSize size req)
    (hroom : size + sizeofMinor ≤ maj.diff)
    {maj' : LTagMajor} (h : maj.place size req = some (maj', tag)) :
    ∃ before behind, maj.minors = before ++ behind ∧
      maj' = maj.grow (before ++ newMinor tag size req :: behind) size ∧ ChunkOk maj' n := by
  have htags := tags
  have haddr := ok.aligned
  have hsize := ok.size_le
  have hbytes := ok.bytes_le
  rw [ok.diff_eq] at hroom
  unfold LTagMajor.place at h
  simp only at h
  cases hmins : maj.minors with
  | nil =>
    rw [hmins] at h
    cases h
    refine ⟨[], [], rfl, rfl, ?_⟩
    refine ok.grow hb (by omega) [] [] hmins ⟨Nat.le_refl _, ?_⟩
    change _ ≤ _
    rw [newMinor_addr, newMinor_span hb]
    unfold LTagMajor.bytes at hroom
    rw [hmins, List.map_nil, List.sum_nil] at hroom
    omega
  | cons first rest =>
    rw [hmins] at h
    simp only at h
    have hl := ok.laid
    rw [hmins] at hl
    split at h
    · rename_i hfront
      cases h
      refine ⟨[], first :: rest, rfl, rfl, ?_⟩
      refine ok.grow hb (by omega) [] (first :: rest) hmins ⟨Nat.le_refl _, ?_, hl.2⟩
      rw [newMinor_addr, newMinor_span hb]
      omega
    · cases hscan : scan maj size req (first :: rest) with
      | none =>
        rw [hscan] at h
        cases h
      | some r =>
        obtain ⟨mins', t⟩ := r
        rw [hscan] at h
        cases h
        obtain ⟨before, min, behind, hsplit, htag, rfl, hlaid⟩ := scan_some hb hl hsize hscan
        have hmin := ok.minors min (by rw [hmins, hsplit]; simp)
        have hal : t % 8 = 0 := by
          have h1 := hmin.aligned
          have h2 := hmin.sizeAligned
          unfold LTagMinor.span at htag
          omega
        have happ : ∀ l : List LTagMinor, before ++ min :: l = (before ++ [min]) ++ l := by simp
        have hgrow := ok.grow hb hal (before ++ [min]) behind (by rw [hmins, hsplit, happ])
          (by rw [← happ]; exact hlaid)
        rw [← happ] at hgrow
        exact ⟨before ++ [min], behind, by rw [hsplit, happ], by rw [← happ], hgrow⟩

/-- A chunk with blocks in which no block more is placed has no gap for it. -/
theorem place_none (ok : ChunkOk maj n) (h : maj.place size req = none) :
    ¬HasGap maj (size + sizeofMinor) := by
  rintro ⟨a, hlo, hhi, hfree⟩
  unfold LTagMajor.place at h
  simp only at h
  cases hmins : maj.minors with
  | nil =>
    rw [hmins] at h
    cases h
  | cons first rest =>
    rw [hmins] at h hfree
    simp only at h
    have hl := ok.laid
    rw [hmins] at hl
    split at h
    · cases h
    rename_i hfront
    have hfirst := hfree first List.mem_cons_self
    by_cases hbefore : a < first.addr
    · unfold LTagMinor.span at hfirst
      omega
    · obtain ⟨m, hm, hover⟩ := scan_none hl (Option.map_eq_none_iff.mp h) rfl (by omega) hhi
      exact hover (hfree m hm)

theorem place_fresh (hm : maj.minors = []) : maj.place size req =
    some (maj.grow [newMinor (maj.addr + sizeofMajor) size req] size, maj.addr + sizeofMajor) := by
  unfold LTagMajor.place
  rw [hm]

/-! ### A block less -/

/-- A chunk without one of its blocks. -/
theorem ChunkOk.remove (ok : ChunkOk maj n) {min : LTagMinor} (hmin : min ∈ maj.minors) :
    ∃ before behind, maj.minors = before ++ min :: behind ∧
      (maj.remove min.addr min.size).minors = before ++ behind ∧
      ChunkOk (maj.remove min.addr min.size) n := by
  have htags := tags
  obtain ⟨before, behind, hmins⟩ := List.append_of_mem hmin
  have hl := ok.laid
  rw [hmins] at hl
  have hpair := hl.pairwise
  rw [List.pairwise_append, List.pairwise_cons] at hpair
  have hbefore : before.filter (·.addr ≠ min.addr) = before := by
    rw [List.filter_eq_self]
    intro m hm
    have := hpair.2.2 m hm min List.mem_cons_self
    unfold LTagMinor.span at this
    simp only [ne_eq, decide_eq_true_eq]
    omega
  have hbehind : behind.filter (·.addr ≠ min.addr) = behind := by
    rw [List.filter_eq_self]
    intro m hm
    have := hpair.2.1.1 m hm
    unfold LTagMinor.span at this
    simp only [ne_eq, decide_eq_true_eq]
    omega
  have hminors : (maj.remove min.addr min.size).minors = before ++ behind := by
    change maj.minors.filter (·.addr ≠ min.addr) = _
    rw [hmins, List.filter_append, List.filter_cons_of_neg (by simp), hbefore, hbehind]
  refine ⟨before, behind, hmins, hminors, ok.size, ok.pages, ok.aligned, ?_, ?_, ?_⟩
  · have hbytes : maj.bytes = (maj.remove min.addr min.size).bytes + (sizeofMinor + min.size) := by
      unfold LTagMajor.bytes
      rw [hminors, hmins]
      simp only [List.map_append, List.map_cons, List.sum_append, List.sum_cons, LTagMinor.span]
      omega
    have husage : (maj.remove min.addr min.size).usage =
      uintSub maj.usage (min.size + sizeofMinor) := rfl
    rw [husage, ok.usage, hbytes]
    unfold uintSub
    omega
  · rw [hminors]
    exact hl.sublist (by simp)
  · rw [hminors]
    intro m hm
    apply ok.minors
    rw [hmins]
    simp only [List.mem_append, List.mem_cons] at hm ⊢
    tauto

theorem ChunkOk.minor_lt (ok : ChunkOk maj n) {min : LTagMinor} (hmin : min ∈ maj.minors) :
    maj.addr + sizeofMajor ≤ min.addr ∧ min.addr + min.span ≤ maj.addr + 4096 * n :=
  ok.laid.mem hmin

end

end OsKernel.Mm.Liballoc

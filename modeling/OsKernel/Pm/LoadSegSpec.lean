import OsKernel.Mm.Vmm.AllocSpec
import OsKernel.Pm.LoadSeg

/-! What `load_seg` leaves in the pages of a segment, and when that is the segment. -/

namespace OsKernel.Pm

open Lib Hsai Mm Lib.BuddySystem BuddyAllocator

/-- The `n` pages from `v` on are held by the space as different pages of the user. -/
structure UserPages (reg : Region) (arch : Arch) (A : AddrSpace) (v n : Nat) : Prop where
  held : ∀ w, v ≤ w → w < v + n → ∃ p f, A.pages w = some p ∧
    A.map w = some ⟨arch.toPhy (reg.addr p), f⟩ ∧
    arch.isSuperPlv f = false
  distinct : ∀ w w' p, A.pages w = some p → A.pages w' = some p → w = w'
  range : v + n ≤ arch.vaPages

theorem isSuperPlv_user (arch : Arch) (e w : Bool) :
    arch.isSuperPlv (vmAllocFlags arch e w true) = false := by
  cases arch <;> cases e <;> cases w <;> decide

section

variable {reg : Region} {arch : Arch} {k k' : Kernel BuddyAllocator} {B : Blocks}
  {Base : Nat → Nat → Prop} {ι : Type}
  {W : Spaces ι} {i : ι} {A : AddrSpace} {v n : Nat}

/-- What `vm_alloc` has mapped for the user are pages of zeros. -/
theorem userPages_of_vmAlloc [DecidableEq ι] (H : World reg arch k B Base W)
    (hw : reg.InWindow arch) (hi : W i = some A) (e w : Bool) {oldSz newSz r : Nat}
    (hle : oldSz ≤ newSz) (hlt : newSz ≤ 2 ^ 64 - 4096)
    (hb : A.base = 0) (hend : pageCeil newSz ≤ arch.vaPages)
    (hrun : vmAlloc arch buddyPages k ⟨A.root, true⟩ oldSz newSz e w true = .ok (r, k'))
    (hr : r ≠ 0) :
    ∃ B' A', World reg arch k' B' Base (Function.update W i (some A')) ∧ A'.root = A.root ∧
      A'.base = 0 ∧ UserPages reg arch A' (pageCeil oldSz) (pageCeil newSz - pageCeil oldSz) ∧
      ∀ w p, pageCeil oldSz ≤ w → w < pageCeil newSz → A'.pages w = some p → ∀ d < 4096,
        k'.mem (reg.addr p + d) = 0 := by
  have hmono := pageCeil_mono hle
  have hpages : pageCeil newSz ≤ 2 ^ 52 := by
    unfold pageCeil
    omega
  have C := H.allocCall hw hi hle hlt
    ⟨by rw [hb]; exact Nat.zero_le _, by rw [hb]; omega, by omega⟩
  rw [vmAlloc_eq e w true hle hlt] at hrun
  obtain ⟨-, j, B', A', hj, T⟩ := C.done hr hrun
  have hE := T.ext
  rw [Nat.mod_eq_of_lt hj] at hE
  have hM := T.allocated C hj
  refine ⟨B', A', T.world, hE.root, hE.base.trans hb,
    ⟨fun w hl hu => ?_, hM.distinct, by omega⟩, ?_⟩
  · obtain ⟨p, hp, hmap, -⟩ := hE.inside w hl hu
    exact ⟨p, _, hp, hmap, isSuperPlv_user arch _ _⟩
  · intro w p hl hu hp d hd
    obtain ⟨p', hp', -, -, hzero⟩ := hM.mapped w hl (by omega)
    obtain rfl := Option.some.inj (hp.symm.trans hp')
    exact hzero _ (Nat.le_add_right _ _) (by omega)

namespace UserPages

/-- The page of an address and its entry. -/
theorem entry (U : UserPages reg arch A v n) (H : World reg arch k B Base W)
    (hw : reg.InWindow arch) (hi : W i = some A) (hb : A.base = 0) {a : Nat} (hl : 4096 * v ≤ a)
    (hu : a < 4096 * (v + n)) :
    ∃ p pte data, A.pages (a / 4096) = some p ∧ p < reg.pages ∧
      walk arch buddyPages k ⟨A.root, true⟩ a false = .ok (pte, k) ∧ pte ≠ 0 ∧
      pteData k.mem pte = data ∧
      arch.toPa data = arch.toPhy (reg.addr p) ∧ arch.isValid data = true ∧
      arch.isSuperPlv data = false ∧
      userLoc arch buddyPages k ⟨A.root, true⟩ a = reg.addr p + a % 4096 := by
  obtain ⟨p, f, hp, hmap, huser⟩ := U.held (a / 4096) (by omega) (by omega)
  have hrange := U.range
  have hmod : a / 4096 % arch.vaPages = a / 4096 := Nat.mod_eq_of_lt (by omega)
  have hok := ((H.represents hi).of_some hmap).2
  have hlt := H.page_lt hi hp
  have hdown := pageRoundDown_eq a
  refine ⟨p, ?_⟩
  rcases H.lookup hi hb a with ⟨e, he⟩ | ⟨pte, hwalk, hpos, hdata⟩
  · have hvalid : ValidLeaf arch buddyPages k ⟨A.root, true⟩ a :=
      (H.valid_iff hi hb).mpr (by rw [hmod, hmap]; exact Option.some_ne_none _)
    obtain ⟨pte, hp⟩ := hvalid.exists
    rw [he] at hp
    cases hp
  · rw [show walkPage arch a = a / 4096 from hmod, hmap] at hdata
    refine ⟨pte, _, hp, hlt, hwalk, hpos, hdata, hok.toPa, hok.isValid,
      hok.isSuperPlv.trans huser, ?_⟩
    rw [userLoc, H.entryOf hi hb, show pageRoundDown a / 4096 = a / 4096 by omega, hmod, hmap]
    simp only [Option.map_some, Option.getD_some, hok.toPa]
    rw [toVir_page hw hlt]

end UserPages

/-- The spaces are there, and the user bytes in the `n` pages from `v` on are those of `f`. -/
def Filled (reg : Region) (arch : Arch) (B : Blocks) (Base : Nat → Nat → Prop) (W : Spaces ι)
    (root v n : Nat) (k : Kernel BuddyAllocator) (f : Nat → UInt8) : Prop :=
  World reg arch k B Base W ∧
    ∀ a, 4096 * v ≤ a → a < 4096 * (v + n) →
    k.mem (userLoc arch buddyPages k ⟨root, true⟩ a) = f a

/-- The bytes `f`, with those of the file from `off` on at the `len` addresses from `s` on. -/
def overlay (f : Nat → UInt8) (file : List UInt8) (s off len : Nat) : Nat → UInt8 := fun a =>
  if s ≤ a ∧ a < s + len then file.getD (off + (a - s)) (f a) else f a

/-- A read of the node to a place in a page. -/
theorem Filled.nodeRead (U : UserPages reg arch A v n) (hw : reg.InWindow arch) (hi : W i = some A)
    (hb : A.base = 0) {f : Nat → UInt8} (h : Filled reg arch B Base W A.root v n k f)
    (file : List UInt8)
    (s off len : Nat) {p : Nat} (hlen : s % 4096 + len ≤ 4096)
    (hp : A.pages (s / 4096) = some p) :
    Filled reg arch B Base W A.root v n
      { k with mem := Pm.nodeRead k.mem file (reg.addr p + s % 4096) off len }
        (overlay f file s off len) := by
  obtain ⟨H, hbytes⟩ := h
  have hlength : ((file.drop off).take len).length = min len (file.length - off) := by
    rw [List.length_take, List.length_drop]
  have H' : World reg arch { k with mem := Pm.nodeRead k.mem file (reg.addr p + s % 4096) off len }
      B Base W := by
    refine H.storePage hi hp fun x hx => ?_
    exact Mem.store_outside (by rw [hlength]; omega)
  refine ⟨H', fun a hla hua => ?_⟩
  obtain ⟨q, -, -, hq, -, -, -, -, -, -, -, hloc⟩ := U.entry H hw hi hb hla hua
  have hold := hbytes a hla hua
  rw [hloc] at hold
  rw [H.userLoc_congr H' hi hb, hloc]
  simp only [Pm.nodeRead, Mem.store, hlength, overlay]
  by_cases hin : s ≤ a ∧ a < s + len
  · have hsame : a / 4096 = s / 4096 := by omega
    rw [hsame, hp] at hq
    obtain rfl := Option.some.inj hq
    rw [if_pos hin]
    by_cases hfile : off + (a - s) < file.length
    · rw [if_pos (by omega), show reg.addr p + a % 4096 - (reg.addr p + s % 4096) = a - s by omega,
        List.getD_eq_getElem?_getD, List.getElem?_take_of_lt (by omega), List.getElem?_drop,
        List.getD_eq_getElem?_getD, List.getElem?_eq_getElem hfile]
      rfl
    · rw [if_neg (by omega), List.getD_eq_default _ _ (by omega), hold]
  · rw [if_neg hin, ← hold, if_neg]
    rintro ⟨h1, h2⟩
    -- the page is another one
    by_cases hpq : q = p
    · subst hpq
      have := U.distinct _ _ _ hq hp
      omega
    · simp only [Region.addr] at h1 h2
      omega

/-- The bytes `f`, with those that the loop of `load_seg` reads from the offset `i` on.  The place
in the file is an `uint` at the start of each page. -/
def segBytes (f : Nat → UInt8) (file : List UInt8) (va offset size i : Nat) : Nat → UInt8 :=
  fun a =>
  if va + i ≤ a ∧ a < va + size then
    file.getD (uintOf (offset + (i + (a - va - i) / 4096 * 4096)) + (a - va - i) % 4096) (f a)
  else f a

theorem segBytes_next {f : Nat → UInt8} {file : List UInt8} {va offset size j l : Nat}
    (hj : j < size) (hl : l = if size - j < pageSize then size - j else pageSize) :
    segBytes (overlay f file (va + j) (uintOf (offset + j)) l) file va offset size (j + 4096) =
      segBytes f file va offset size j := by
  have hpage : pageSize = 4096 := rfl
  funext a
  unfold segBytes overlay
  by_cases hin : va + j ≤ a ∧ a < va + size
  · rw [if_pos hin]
    by_cases hfirst : a < va + j + l
    · -- in the page of this turn
      rw [if_neg (by split at hl <;> omega), if_pos ⟨hin.1, hfirst⟩]
      have hlow : a - va - j < 4096 := by split at hl <;> omega
      rw [Nat.div_eq_of_lt hlow, Nat.mod_eq_of_lt hlow, Nat.zero_mul, Nat.add_zero, Nat.sub_sub]
    · have hnext : va + (j + 4096) ≤ a := by split at hl <;> omega
      rw [if_pos ⟨hnext, hin.2⟩, if_neg fun h => hfirst h.2,
        show j + 4096 + (a - va - (j + 4096)) / 4096 * 4096 = j + (a - va - j) / 4096 *
          4096 by omega,
        show (a - va - (j + 4096)) % 4096 = (a - va - j) % 4096 by omega]
  · rw [if_neg hin, if_neg (by omega), if_neg (by split at hl <;> omega)]

theorem vaPages_le (arch : Arch) : arch.vaPages ≤ 2 ^ 36 := by cases arch <;> decide

/-- The address in the kernel's window of an offset in a page. -/
theorem toVir_offset {p d : Nat} (hw : reg.InWindow arch) (hp : p < reg.pages) (hd : d < 4096) :
    arch.toVir (arch.toPhy (reg.addr p) + d) = reg.addr p + d := by
  have hpage := toVir_page hw hp
  cases arch with
  | riscv => rfl
  | loongarch =>
    have hmod := reg.mem_aligned
    rw [Arch.toPhy_loongarch, Arch.toVir_loongarch] at *
    simp only [Region.addr] at *
    omega

/-- No page of the region is the physical page zero if the first one is not. -/
theorem toPhy_pos {p : Nat} (hw : reg.InWindow arch) (hzero : 0 < arch.toPhy reg.mem)
    (hp : p < reg.pages) : arch.toPhy (reg.addr p) ≠ 0 := by
  have hbound := Region.page_bound hp
  have hmem := Arch.windowed_iff.mp
    (hw.windowed reg.mem (Nat.le_refl _) (by have := reg.size_ge; omega))
  have hpage := Arch.windowed_iff.mp (hw.windowed (reg.addr p) (by simp only [Region.addr]; omega)
    (by omega))
  cases arch with
  | riscv =>
    have := hw.pos
    simp only [Arch.toPhy, Region.addr]
    omega
  | loongarch =>
    rw [Arch.toPhy_loongarch] at *
    simp only [Region.addr] at *
    omega

/-- The loop of `load_seg`, where its counter stays an `uint`. -/
theorem loadSegLoop_filled (U : UserPages reg arch A v n) (hw : reg.InWindow arch)
    (hzero : 0 < arch.toPhy reg.mem) (hi : W i = some A) (hb : A.base = 0) (file : List UInt8)
    (offset : Nat)
    {va size m j : Nat} {f : Nat → UInt8} (hva : 4096 * v ≤ va)
    (hend : va + size ≤ 4096 * (v + n)) (hal : (va + j) % 4096 = 0)
    (hm : (size - j + 4095) / 4096 = m)
    (hbound : j + 4096 * m < 2 ^ 32) (h : Filled reg arch B Base W A.root v n k f) :
    ∃ k', (∀ fuel, m < fuel →
      loadSegLoop arch buddyPages ⟨A.root, true⟩ va file offset size fuel k j = .ok k') ∧
      Filled reg arch B Base W A.root v n k' (segBytes f file va offset size j) := by
  induction m generalizing j k f with
  | zero =>
    refine ⟨k, fun fuel hfuel => ?_, ?_⟩
    · obtain ⟨fuel, rfl⟩ : ∃ x, fuel = x + 1 := ⟨fuel - 1, by omega⟩
      rw [loadSegLoop, if_neg (by omega)]
    · have hsame : segBytes f file va offset size j = f := by
        funext a
        exact if_neg (by omega)
      rwa [hsame]
  | succ m ih =>
    have hrange := U.range
    have hpages := vaPages_le arch
    have hjs : j < size := by omega
    obtain ⟨p, pte, data, hp, hlt, hwalk, -, hdata, htoPa, -, -, -⟩ :=
      U.entry h.1 hw hi hb (a := va + j) (by omega) (by omega)
    have hadd : wordAdd va j = va + j := Nat.mod_eq_of_lt (by unfold wordSize; omega)
    generalize hl : (if size - j < pageSize then size - j else pageSize) = l
    have hl4096 : l ≤ 4096 := by
      unfold pageSize at hl
      split at hl <;> omega
    have hnext := h.nodeRead U hw hi hb file (va + j) (uintOf (offset + j)) l
      (by omega) hp
    rw [hal, Nat.add_zero] at hnext
    obtain ⟨k', hrun, hfilled⟩ := ih (j := j + 4096) (by omega) (by omega) (by omega) hnext
    rw [segBytes_next hjs hl.symm] at hfilled
    refine ⟨k', fun fuel hfuel => ?_, hfilled⟩
    obtain ⟨fuel, rfl⟩ : ∃ x, fuel = x + 1 := ⟨fuel - 1, by omega⟩
    have hpa : arch.toPa data ≠ 0 := by
      rw [htoPa]
      exact toPhy_pos hw hzero hlt
    have hcount : uintOf (j + pageSize) = j + 4096 := by
      unfold uintOf pageSize
      omega
    rw [loadSegLoop, if_pos hjs, hadd, hwalk, ok_bind]
    simp only [hdata, if_neg hpa, hl]
    rw [htoPa, toVir_page hw hlt, hcount]
    exact hrun fuel (by omega)

/-- Where the counter cannot reach the size as an `uint`, the loop does not end. -/
theorem loadSegLoop_endless {σ : Type} {V : VirtualPageAllocator σ} {pt : PageTable}
    {file : List UInt8}
    {va offset size j l : Nat} {k k' : Kernel σ} (fuel : Nat) (hj : j % 4096 = l)
    (hlt : j < 2 ^ 32)
    (hsize : l + (2 ^ 32 - 4096) < size) :
      loadSegLoop arch V pt va file offset size fuel k j ≠ .ok k' := by
  induction fuel generalizing k j with
  | zero => exact fun h => by cases h
  | succ fuel ih =>
    rw [loadSegLoop, if_pos (by omega)]
    cases walk arch V k pt (wordAdd va j) false with
    | error e => exact fun h => by cases h
    | ok pte =>
      rw [ok_bind]
      simp only
      split
      · exact fun h => by cases h
      · exact ih (by unfold uintOf pageSize; omega) (Nat.mod_lt _ (by decide))

/-- The part of the page in front of a segment that does not start with the page. -/
def headLen (va : Nat) : Nat := (4096 - va % 4096) % 4096

/-- The bytes that `load_seg` leaves in pages of zeros. -/
def loadedBytes (file : List UInt8) (va off size : Nat) : Nat → UInt8 :=
  segBytes (overlay (fun _ => 0) file va (uintOf off) (headLen va)) file va (uintOf off)
    (uintOf size) (headLen va)

/-- The counter of the loop can reach the size. -/
def Ends (va size : Nat) : Prop :=
  headLen va + 4096 * ((uintOf size - headLen va + 4095) / 4096) < 2 ^ 32

theorem loadSeg_filled (hw : reg.InWindow arch) (hzero : 0 < arch.toPhy reg.mem) (hi : W i = some A)
    (hb : A.base = 0) (file : List UInt8) (off : Nat) {va size memsz : Nat}
    (hlt : va + memsz ≤ 2 ^ 64 - 4096)
    (hsize : size ≤ memsz) (U :
      UserPages reg arch A (va / 4096) (pageCeil (va + memsz) - va / 4096))
    (hends : Ends va size)
    (h : Filled reg arch B Base W A.root (va / 4096) (pageCeil (va + memsz) - va / 4096) k fun _ =>
      0) :
    ∃ turns k', (∀ fuel, turns ≤ fuel →
      loadSeg arch buddyPages fuel k ⟨A.root, true⟩ va file off size = .ok k') ∧
      Filled reg arch B Base W A.root (va / 4096) (pageCeil (va + memsz) - va / 4096) k'
        (loadedBytes file va off size) := by
  have hend : va + uintOf size ≤ 4096 * (va / 4096 + (pageCeil (va + memsz) - va / 4096)) := by
    unfold uintOf pageCeil
    omega
  unfold loadSeg loadedBytes
  simp only
  by_cases hal : va % 4096 = 0
  · have hhead : headLen va = 0 := by
      unfold headLen
      omega
    have hnone : overlay (fun _ => 0) file va (uintOf off) (headLen va) = fun _ => 0 := by
      funext a
      exact if_neg (by omega)
    rw [hnone, hhead]
    unfold Ends at hends
    rw [hhead] at hends
    obtain ⟨k', hrun, hk'⟩ := loadSegLoop_filled U hw hzero hi hb file (uintOf off)
      (Nat.mul_div_le va 4096) hend (j := 0) hal rfl hends h
    refine ⟨(uintOf size - 0 + 4095) / 4096 + 1, k', fun fuel hfuel => ?_, hk'⟩
    rw [if_pos (isPageAlign_iff.mpr hal)]
    exact hrun fuel hfuel
  · have hhead : headLen va = 4096 - va % 4096 := by
      unfold headLen
      omega
    have hin : va < 4096 * (va / 4096 + (pageCeil (va + memsz) - va / 4096)) := by
      unfold pageCeil
      omega
    obtain ⟨p, pte, data, hp, hlt', hwalk, hpos, hdata, htoPa, hvalid, huser, -⟩ :=
      U.entry h.1 hw hi hb (Nat.mul_div_le va 4096) hin
    have hmod : arch.toPhy (reg.addr p) % 4096 = 0 := by
      have hbound := Region.page_bound hlt'
      have hmem := reg.mem_aligned
      rw [(hw.windowed (reg.addr p) (by simp only [Region.addr]; omega) (by omega)).toPhy_mod]
      simp only [Region.addr]
      omega
    have haddr : walkAddr arch buddyPages k ⟨A.root, true⟩ va =
        .ok (arch.toPhy (reg.addr p) + va % 4096) := by
      rw [walkAddr, hwalk, ok_bind]
      simp only [if_neg hpos, hdata, hvalid, huser, htoPa, Bool.not_true, Bool.false_eq_true,
        if_false]
      rw [show pageSize - 1 = 2 ^ 12 - 1 from rfl, Nat.and_two_pow_sub_one_eq_mod,
        show arch.toPhy (reg.addr p) = 2 ^ 12 * (arch.toPhy (reg.addr p) / 2 ^ 12) by omega,
        ← Nat.two_pow_add_eq_or_of_lt (Nat.mod_lt _ (by decide))]
    have hlen : uintOf (wordSub (pageRoundUp va) va) = headLen va := by
      rw [pageRoundUp_eq (by omega), wordSub_of_le (by omega) (by omega), hhead]
      unfold uintOf
      omega
    have hfirst := h.nodeRead U hw hi hb file va (uintOf off) (headLen va)
      (by omega) hp
    obtain ⟨k', hrun, hk'⟩ := loadSegLoop_filled U hw hzero hi hb file (uintOf off)
      (Nat.mul_div_le va 4096) hend (j := headLen va) (by omega) rfl hends hfirst
    refine ⟨(uintOf size - headLen va + 4095) / 4096 + 1, k', fun fuel hfuel => ?_, hk'⟩
    rw [if_neg (by rw [isPageAlign_iff]; exact hal), haddr, ok_bind]
    simp only [hlen]
    rw [toVir_offset hw hlt' (Nat.mod_lt _ (by decide)), Nat.zero_add, Nat.add_zero,
      show uintOf (uintOf off) = uintOf off from Nat.mod_mod _ _,
      show uintOf (headLen va) = headLen va from Nat.mod_eq_of_lt (by omega)]
    exact hrun fuel hfuel

end

/-! ### Which segments are loaded -/

/-- The start of the last part that is read in one piece. -/
def lastPart (va size : Nat) : Nat :=
  if size ≤ headLen va then 0 else headLen va + (size - headLen va - 1) / 4096 * 4096

/-- The bytes of a segment. -/
def segmentBytes (file : List UInt8) (va off size : Nat) : Nat → UInt8 := fun a =>
  if va ≤ a ∧ a < va + size then file.getD (off + (a - va)) 0 else 0

/-- The file of `l` bytes that are zero but for the one at `x`. -/
def oneByte (l x : Nat) : List UInt8 := (List.replicate l 0).set x 1

theorem oneByte_length (l x : Nat) : (oneByte l x).length = l := by simp [oneByte]

theorem oneByte_self {l x : Nat} (h : x < l) : (oneByte l x).getD x 0 = 1 := by
  simp [oneByte, List.getD_eq_getElem?_getD, h]

theorem oneByte_other {l x y : Nat} (h : y ≠ x) : (oneByte l x).getD y 0 = 0 := by
  rw [oneByte, List.getD_eq_getElem?_getD, List.getElem?_set_ne h.symm, List.getElem?_replicate]
  split <;> rfl

section

variable {file : List UInt8} {va off size : Nat}

theorem headLen_lt (va : Nat) : headLen va < 4096 := Nat.mod_lt _ (by decide)

/-- In the head. -/
theorem loadedBytes_head {a : Nat} (hl : va ≤ a) (hu : a < va + headLen va) :
    loadedBytes file va off size a = file.getD (uintOf off + (a - va)) 0 := by
  unfold loadedBytes segBytes overlay
  rw [if_neg (by omega), if_pos ⟨hl, hu⟩]

/-- In the pages behind the head. -/
theorem loadedBytes_page {a : Nat} (hl : va + headLen va ≤ a) (hu : a < va + uintOf size) :
    loadedBytes file va off size a = file.getD (uintOf (uintOf off + (headLen va +
      (a - va - headLen va) / 4096 * 4096)) + (a - va - headLen va) % 4096) 0 := by
  unfold loadedBytes segBytes overlay
  rw [if_pos ⟨hl, hu⟩, if_neg (by omega)]

/-- Behind both, and in front of the segment. -/
theorem loadedBytes_outside {a : Nat}
    (h : a < va ∨ va + headLen va ≤ a ∧ va + uintOf size ≤ a) :
    loadedBytes file va off size a = 0 := by
  unfold loadedBytes segBytes overlay
  rw [if_neg (by omega), if_neg (by omega)]

/-- The segments for which `load_seg` ends and leaves the bytes of the segment, whatever the `l`
bytes of the file are. -/
def Loadable (l va off size : Nat) : Prop :=
  size ≤ headLen va + (2 ^ 32 - 4096) ∧ (headLen va ≤ size ∨ l = off + size) ∧
    (headLen va = 0 ∧ size = 0 ∨ off + lastPart va size < 2 ^ 32)

theorem Loadable.bytes {l : Nat} (h : Loadable l va off size) (hfile : file.length = l) :
    loadedBytes file va off size = segmentBytes file va off size := by
  obtain ⟨hsize, hhead, hoff⟩ := h
  have hlt := headLen_lt va
  have hsz : uintOf size = size := Nat.mod_eq_of_lt (by omega)
  funext a
  unfold segmentBytes
  by_cases hlow : va ≤ a
  · by_cases hin : a < va + headLen va
    · have hlast : off < 2 ^ 32 := by omega
      rw [loadedBytes_head hlow hin, show uintOf off = off from Nat.mod_eq_of_lt hlast]
      by_cases hseg : a < va + size
      · rw [if_pos ⟨hlow, hseg⟩]
      · -- the head ends behind the segment, where the file has ended
        rw [if_neg fun h => hseg h.2, List.getD_eq_default]
        omega
    · by_cases hseg : a < va + size
      · have hpart : off + (headLen va + (a - va - headLen va) / 4096 * 4096) < 2 ^ 32 := by
          unfold lastPart at hoff
          rw [if_neg (by omega)] at hoff
          omega
        have huint : uintOf (uintOf off + (headLen va + (a - va - headLen va) / 4096 * 4096)) =
            off + (headLen va + (a - va - headLen va) / 4096 * 4096) := by
          unfold uintOf
          omega
        rw [loadedBytes_page (by omega) (by omega), if_pos ⟨hlow, hseg⟩, huint]
        congr 1
        omega
      · rw [loadedBytes_outside (by omega), if_neg fun h => hseg h.2]
  · rw [loadedBytes_outside (by omega), if_neg fun h => hlow h.1]

/-- Some file of `l` bytes shows where a segment is not loadable. -/
theorem loadable_of_bytes {l memsz : Nat} (hends : Ends va size) (hsize : size ≤ memsz)
    (hl : off + size ≤ l) (h : ∀ x a, va / 4096 * 4096 ≤ a →
      a < 4096 * pageCeil (va + memsz) → loadedBytes (oneByte l x) va off size a =
        segmentBytes (oneByte l x) va off size a) : Loadable l va off size := by
  have hlt := headLen_lt va
  have hmapped : ∀ j, j < size ∨ j < headLen va → va + j < 4096 * pageCeil (va + memsz) := by
    intro j hj
    unfold pageCeil headLen at *
    omega
  have hlow : ∀ j, va / 4096 * 4096 ≤ va + j := fun j => by omega
  have huint : uintOf size < 2 ^ 32 := Nat.mod_lt _ (by decide)
  -- the size is an `uint`: else its last byte is not loaded
  have hsz : size < 2 ^ 32 := by
    by_contra hbig
    have hlast := h (off + (size - 1)) (va + (size - 1)) (hlow _) (hmapped _ (.inl (by omega)))
    rw [loadedBytes_outside (.inr ⟨by omega, by omega⟩), segmentBytes, if_pos (by omega),
      Nat.add_sub_cancel_left, oneByte_self (by omega)] at hlast
    cases hlast
  have hmod : uintOf size = size := Nat.mod_eq_of_lt hsz
  unfold Ends at hends
  rw [hmod] at hends
  -- the offset of each part is an `uint`: else the part is read in another place
  have hoff : headLen va = 0 ∧ size = 0 ∨ off + lastPart va size < 2 ^ 32 := by
    by_contra hbad
    obtain ⟨hsome, hbig⟩ := not_or.mp hbad
    have hplace := h (uintOf (off + lastPart va size)) (va + lastPart va size) (hlow _)
    have hwrong : uintOf (off + lastPart va size) + 2 ^ 32 ≤ off + lastPart va size := by
      unfold uintOf
      omega
    unfold lastPart at *
    split at hbig
    · next hle =>
      simp only [if_pos hle, Nat.add_zero] at hplace hwrong hbig
      have hbyte := hplace (hmapped 0 (.inr (by omega)))
      rw [loadedBytes_head (Nat.le_refl _) (by omega), segmentBytes, Nat.sub_self, Nat.add_zero,
        Nat.add_zero, oneByte_self (by omega), oneByte_other (by omega), ite_self] at hbyte
      cases hbyte
    · next hle =>
      simp only [if_neg hle] at hplace hwrong hbig
      generalize hq : (size - headLen va - 1) / 4096 = q at hplace hwrong hbig
      have hbyte := hplace (hmapped _ (.inl (by omega)))
      have hsum : uintOf (uintOf off + (headLen va + q * 4096)) =
          uintOf (off + (headLen va + q * 4096)) := by
        unfold uintOf
        omega
      have hone : (oneByte l (uintOf (off + (headLen va + q * 4096)))).getD
          (uintOf (off + (headLen va + q * 4096))) 0 = 1 := oneByte_self (by omega)
      rw [loadedBytes_page (by omega) (by omega), segmentBytes, if_pos (by omega),
        Nat.add_sub_cancel_left, Nat.add_sub_cancel_left, Nat.mul_div_cancel q (by decide),
        Nat.mul_mod_left, Nat.add_zero, hsum, hone,
        oneByte_other (by omega)] at hbyte
      cases hbyte
  refine ⟨by omega, ?_, hoff⟩
  -- the head does not end behind the segment, or there the file has ended
  by_contra hbad
  obtain ⟨hshort, hmore⟩ := not_or.mp hbad
  have hoff32 : off < 2 ^ 32 := by
    unfold lastPart at hoff
    split at hoff <;> omega
  have hbyte := h (off + size) (va + size) (hlow _) (hmapped _ (.inr (by omega)))
  rw [loadedBytes_head (Nat.le_add_right _ _) (by omega), segmentBytes, if_neg (by omega),
    Nat.add_sub_cancel_left,
    show uintOf off = off from Nat.mod_eq_of_lt hoff32, oneByte_self (by omega)] at hbyte
  cases hbyte

end

section

variable {reg : Region} {arch : Arch} {k₀ k : Kernel BuddyAllocator} {B : Blocks}
  {Base : Nat → Nat → Prop} {ι : Type}
  {W : Spaces ι} {i : ι} {A : AddrSpace} {file : List UInt8} {va off size memsz : Nat}

/-- A `load_seg` that returns has come to the end of its loop. -/
theorem LoadsSegment.ends {σ : Type} {V : VirtualPageAllocator σ} {k : Kernel σ} {pt : PageTable}
    (hlt : va ≤ 2 ^ 64 - 4096) (h : LoadsSegment arch V k pt va file off size memsz) :
      Ends va size := by
  by_contra hno
  obtain ⟨turns, k', hload, -⟩ := h
  have hret := hload turns (Nat.le_refl _)
  have hhead := headLen_lt va
  have hS : uintOf size < 2 ^ 32 := Nat.mod_lt _ (by decide)
  unfold Ends at hno
  have hbig : headLen va + (2 ^ 32 - 4096) < uintOf size := by omega
  unfold loadSeg at hret
  simp only at hret
  split at hret
  · next hal =>
    have hal := isPageAlign_iff.mp hal
    exact loadSegLoop_endless turns (l := headLen va) (by unfold headLen; omega)
      (by omega) hbig hret
  · next hal =>
    rw [isPageAlign_iff] at hal
    obtain ⟨pa, -, hret⟩ := bind_eq_ok.mp hret
    refine loadSegLoop_endless turns (l := headLen va) ?_ (Nat.mod_lt _ (by decide)) hbig hret
    rw [pageRoundUp_eq (by omega), wordSub_of_le (by omega) (by omega)]
    unfold uintOf headLen
    omega

/-- In pages of zeros a segment is loaded if the bytes that `load_seg` leaves are its bytes. -/
theorem loadsSegment_iff (hw : reg.InWindow arch) (hzero : 0 < arch.toPhy reg.mem)
    (hi : W i = some A) (hb : A.base = 0) (hlt : va + memsz ≤ 2 ^ 64 - 4096)
    (hsize : size ≤ memsz)
    (U : UserPages reg arch A (va / 4096) (pageCeil (va + memsz) - va / 4096))
    (hends : Ends va size)
    (h : Filled reg arch B Base W A.root (va / 4096) (pageCeil (va + memsz) - va / 4096) k fun _ =>
      0) :
    LoadsSegment arch buddyPages k ⟨A.root, true⟩ va file off size memsz ↔
      ∀ a, va / 4096 * 4096 ≤ a → a < 4096 * pageCeil (va + memsz) →
        loadedBytes file va off size a = segmentBytes file va off size a := by
  have hdown := pageRoundDown_eq va
  have hup : pageRoundUp (va + memsz) = 4096 * pageCeil (va + memsz) := pageRoundUp_pageCeil hlt
  have hle : va / 4096 ≤ pageCeil (va + memsz) := by
    unfold pageCeil
    omega
  obtain ⟨turns, k', hload, hfill⟩ := loadSeg_filled hw hzero hi hb file off hlt hsize U hends h
  constructor
  · rintro ⟨turns', k'', hload', hseg⟩ a hl hu
    obtain rfl : k'' = k' := Except.ok.inj
      ((hload' (max turns turns') (Nat.le_max_right _ _)).symm.trans
        (hload _ (Nat.le_max_left _ _)))
    rw [← hfill.2 a (by omega) (by omega)]
    exact hseg a (by omega) (by omega)
  · intro hbytes
    refine ⟨turns, k', hload, fun a hl hu => ?_⟩
    rw [hfill.2 a (by omega) (by omega), hbytes a (by omega) (by omega)]
    rfl

/-- The pages that `vm_alloc` maps for a segment. -/
theorem filled_of_vmAlloc [DecidableEq ι] (va memsz : Nat) (H : World reg arch k₀ B Base W)
    (hw : reg.InWindow arch) (hi : W i = some A) (e w : Bool) (hb : A.base = 0) {r : Nat}
    (hlt : va + memsz ≤ 2 ^ 64 - 4096)
    (hrange : pageCeil (va + memsz) ≤ arch.vaPages)
    (hrun : vmAlloc arch buddyPages k₀ ⟨A.root, true⟩ (pageRoundDown va)
      (va + memsz) e w true = .ok (r, k))
    (hr : r ≠ 0) : ∃ B' A', Function.update W i (some A') i = some A' ∧ A'.root = A.root ∧
      A'.base = 0 ∧ UserPages reg arch A' (va / 4096) (pageCeil (va + memsz) - va / 4096) ∧
      Filled reg arch B' Base (Function.update W i (some A')) A'.root (va / 4096)
        (pageCeil (va + memsz) - va / 4096) k fun _ => 0 := by
  have hdown := pageRoundDown_eq va
  have hceil : pageCeil (pageRoundDown va) = va / 4096 := by
    unfold pageCeil
    omega
  obtain ⟨B', A', H', hroot, hb', U, hbytes⟩ :=
    userPages_of_vmAlloc H hw hi e w (by omega) hlt hb hrange hrun hr
  rw [hceil] at U hbytes
  have hi' : Function.update W i (some A') i = some A' := Function.update_self ..
  refine ⟨B', A', hi', hroot, hb', U, H', fun a hl hu => ?_⟩
  obtain ⟨p, -, -, hp, -, -, -, -, -, -, -, hloc⟩ := U.entry H' hw hi' hb' hl hu
  rw [hloc]
  refine hbytes _ p (by omega) ?_ hp _ (Nat.mod_lt _ (by decide))
  unfold pageCeil at *
  omega

end

/-- Where `vm_alloc` has just mapped the pages of a segment, `load_seg` loads it from any file of
`l` bytes, if and only if its counter and the offsets in the file stay `uint`s, and the segment does
not end in the first page that it does not start with, or else the file ends with it. -/
theorem load_seg_iff {ι : Type} [DecidableEq ι] (reg : Region) (arch : Arch)
    (hw : reg.InWindow arch) (hzero : 0 < arch.toPhy reg.mem) (k₀ k : Kernel BuddyAllocator)
    (B : Blocks) (Base : Nat → Nat → Prop)
    (W : Spaces ι) (H : World reg arch k₀ B Base W) (i : ι) (A : AddrSpace) (hi : W i = some A)
    (hb : A.base = 0)
    (e w : Bool) (va memsz r : Nat) (hlt : va + memsz ≤ 2 ^ 64 - 4096)
    (hrange : pageCeil (va + memsz) ≤ arch.vaPages)
    (hrun : vmAlloc arch buddyPages k₀ ⟨A.root, true⟩ (pageRoundDown va)
      (va + memsz) e w true = .ok (r, k))
    (hr : r ≠ 0) (l off size : Nat) (hsize : size ≤ memsz) (hfile : off + size ≤ l) :
    (∀ file : List UInt8, file.length = l →
      LoadsSegment arch buddyPages k ⟨A.root, true⟩ va file off size memsz) ↔
        Loadable l va off size := by
  obtain ⟨B', A', hi', hroot, hb', U, hfilled⟩ :=
    filled_of_vmAlloc va memsz H hw hi e w hb hlt hrange hrun hr
  rw [← hroot]
  constructor
  · intro hall
    have hends := (hall (oneByte l 0) (oneByte_length l 0)).ends (by omega)
    refine loadable_of_bytes hends hsize hfile fun x => ?_
    exact (loadsSegment_iff hw hzero hi' hb' hlt hsize U hends hfilled).mp
      (hall _ (oneByte_length l x))
  · intro hcond file hlen
    have hends : Ends va size := by
      have h := hcond.1
      have hhead := headLen_lt va
      have hle : uintOf size ≤ size := Nat.mod_le _ _
      unfold Ends
      omega
    exact (loadsSegment_iff hw hzero hi' hb' hlt hsize U hends hfilled).mpr fun a
      _ _ => by rw [hcond.bytes hlen]

/-- A page for the addresses from 0x10000 up to 0x10030. -/
theorem sample_segment : ∃ (k₀ k : Kernel BuddyAllocator) (B : Blocks)
    (Base : Nat → Nat → Prop) (A : AddrSpace),
      World sampleRegion .riscv k₀ B Base (fun _ : Unit => some A) ∧ A.base = 0 ∧
      vmAlloc .riscv buddyPages k₀ ⟨A.root, true⟩ 0x10000 0x10030 false true true =
        .ok (0x10030, k) := by
  obtain ⟨k', B', -, hroom, H'⟩ := sample_world
  rcases H'.create sampleRegion_inWindow (i := ()) rfl 0 with
      ⟨-, h0⟩ | ⟨p, k₀, B, T, -, H, -, hle, -⟩
  · omega
  rw [Spaces.update_unit] at H
  obtain ⟨k, -, -, hrun, -⟩ :=
    H.allocOne sampleRegion_inWindow (i := ()) rfl false true true 0x10030 (v := 16)
    ⟨Nat.zero_le _, show 16 + 1 ≤ 0 + Arch.vaPages .riscv by decide, by decide⟩ rfl
    (by simp only [show Arch.top .riscv = 2 from rfl]; omega)
  exact ⟨k₀, k, B, _, _, H, rfl, hrun⟩

/-- A segment of 16 bytes at the start of a page. -/
theorem load_seg_sample : ∃ (k : Kernel BuddyAllocator) (pt : PageTable),
    LoadsSegment .riscv buddyPages k pt 0x10000 (oneByte 100 5) 0 16 48 := by
  obtain ⟨k₀, k, B, Base, A, H, hb, hrun⟩ := sample_segment
  exact ⟨k, ⟨A.root, true⟩,
    (load_seg_iff sampleRegion .riscv sampleRegion_inWindow (by decide) k₀ k B Base _ H ()
    A rfl hb false true 0x10000 48 0x10030 (by decide) (by decide) hrun (by decide)
    100 0 16 (by decide) (by decide)).mpr
    ⟨by decide, .inl (by decide), .inr (by decide)⟩ (oneByte 100 5) (oneByte_length 100 5)⟩

/-- The same segment 16 bytes behind the start of the page: the byte of the file behind the segment
is loaded too. -/
theorem load_seg_short : ∃ (k₀ k : Kernel BuddyAllocator) (pt : PageTable),
    vmAlloc .riscv buddyPages k₀ pt (pageRoundDown 0x10010) (0x10010 + 32) false true true =
      .ok (0x10030, k) ∧ ¬LoadsSegment .riscv buddyPages k pt 0x10010 (oneByte 100 16)
        0 16 32 := by
  obtain ⟨k₀, k, B, Base, A, H, hb, hrun⟩ := sample_segment
  obtain ⟨B', A', hi', hroot, hb', U, hfilled⟩ := filled_of_vmAlloc 0x10010 32 H
    sampleRegion_inWindow (i := ()) rfl false true hb (by decide) (by decide) hrun (by decide)
  refine ⟨k₀, k, ⟨A.root, true⟩, hrun, fun h => ?_⟩
  rw [← hroot] at h
  have hbyte := (loadsSegment_iff sampleRegion_inWindow (by decide) hi' hb' (by decide)
    (by decide) U (h.ends (by decide)) hfilled).mp h 0x10020 (by decide) (by decide)
  rw [loadedBytes_head (by decide) (by decide), segmentBytes, if_neg (by decide)] at hbyte
  exact absurd hbyte (by decide)

end OsKernel.Pm

import OsKernel.Mm.Userspace.Model
import OsKernel.Mm.Userstack.Push

/-! What `UserspaceStream` does to a buffer of a user.  The cache is in some page of the buffer that
has the position in it or at its end; a transfer goes on page by page, at the physical addresses of
the user addresses. -/

namespace OsKernel.Mm

open Lib Hsai Lib.BuddySystem BuddyAllocator

/-- A buffer of a user, from `start` to `stop`, in one of the address spaces on the region.  Its
pages are mapped for the user, and physical addresses have at most 60 bits. -/
structure UserWindow (reg : Region) (arch : Arch) (k : Kernel BuddyAllocator) (B : Blocks)
    (Base : Nat → Nat → Prop) {ι : Type} (W : Spaces ι) (i : ι) (A : AddrSpace)
      (start stop : Nat) : Prop where
  window : reg.InWindow arch
  world : World reg arch k B Base W
  space : W i = some A
  zero : A.base = 0
  owned : A.Owned reg arch
  pos : 0 < start
  nonempty : start < stop
  fits : stop ≤ 2 ^ 62
  leaf : ∀ a, start ≤ a → a < stop → UserLeaf arch buddyPages k ⟨A.root, true⟩
    (pageRoundDown a)
  phys : ∀ a, start ≤ a → a < stop →
    arch.toPa (entryOf arch buddyPages k ⟨A.root, true⟩ (pageRoundDown a)) < 2 ^ 60

/-- A stream on the buffer, with its cache in the page `P`. -/
structure AtPos (arch : Arch) (k : Kernel BuddyAllocator) (pt : PageTable) (start stop : Nat)
    (s : UserspaceStream) (P : Nat) : Prop where
  startAddr : s.startAddr = start
  endAddr : s.endAddr = stop
  table : s.pt = pt
  low : start ≤ s.ptr
  high : s.ptr ≤ stop
  aligned : P % 4096 = 0
  inside : start < P + 4096 ∧ P < stop
  page : P ≤ s.ptr ∧ s.ptr ≤ P + 4096
  cachePtr : s.cachePtr = pageLoc arch buddyPages k pt P + (s.ptr - P)
  cacheEnd : s.cacheEnd = pageLoc arch buddyPages k pt P + 4096

section

variable {reg : Region} {arch : Arch} {k k' : Kernel BuddyAllocator} {B : Blocks}
  {Base : Nat → Nat → Prop}
  {ι : Type} {W : Spaces ι} {i : ι} {A : AddrSpace} {start stop P : Nat} {s s' : UserspaceStream}

namespace UserWindow

theorem pageLeaf (C : UserWindow reg arch k B Base W i A start stop) (hP : P % 4096 = 0)
    (hl : start < P + 4096) (hu : P < stop) : UserLeaf arch buddyPages k ⟨A.root, true⟩ P := by
  have hne := C.nonempty
  have hleaf := C.leaf (max start P) (Nat.le_max_left _ _) (by omega)
  have hdown := pageRoundDown_eq (max start P)
  rwa [show pageRoundDown (max start P) = P by omega] at hleaf

/-- A transfer in the buffer does not wrap around in the kernel's addresses either. -/
theorem pageLoc_le (C : UserWindow reg arch k B Base W i A start stop) (hP : P % 4096 = 0)
    (hl : start < P + 4096) (hu : P < stop) : pageLoc arch buddyPages k ⟨A.root, true⟩ P <
      10 * 2 ^ 60 := by
  have hne := C.nonempty
  have hphys := C.phys (max start P) (Nat.le_max_left _ _) (by omega)
  have hdown := pageRoundDown_eq (max start P)
  rw [show pageRoundDown (max start P) = P by omega] at hphys
  unfold pageLoc
  cases arch with
  | riscv => exact Nat.lt_trans hphys (by decide)
  | loongarch =>
    rw [Arch.toVir_loongarch]
    omega

/-- `_update_cache` at an address of the buffer. -/
theorem updateCache (C : UserWindow reg arch k B Base W i A start stop) {va : Nat}
    (hpt : s.pt = ⟨A.root, true⟩) (hl : start ≤ va) (hu : va < stop) :
    s.updateCache arch buddyPages k va = .ok { s with
      cachePtr :=
        pageLoc arch buddyPages k ⟨A.root, true⟩ (pageRoundDown va) + (va - pageRoundDown va)
      cacheEnd := pageLoc arch buddyPages k ⟨A.root, true⟩ (pageRoundDown va) + 4096 } := by
  have hleaf := C.leaf va hl hu
  have hdown := pageRoundDown_eq va
  obtain ⟨pa, hwalk, hpa⟩ := C.world.walkAddr_user C.space C.zero hleaf
  rw [userLoc_eq (show pageRoundDown va % 4096 = 0 by omega) (by omega) (by omega)] at hpa
  have hmod := C.world.pageLoc_mod C.space C.zero hleaf
  have hlt := C.world.pageLoc_lt C.window C.space C.zero C.owned hleaf
  unfold UserspaceStream.updateCache
  rw [hpt, hwalk, ok_bind]
  simp only [hpa]
  by_cases hal : va % 4096 = 0
  · rw [if_pos (isPageAlign_iff.mpr hal), show va - pageRoundDown va = 0 by omega]
    simp only [wordAdd, wordSize, pageSize, Nat.add_zero, Nat.mod_eq_of_lt hlt]
  · rw [if_neg (by rw [isPageAlign_iff]; exact hal)]
    have hround : pageRoundUp (pageLoc arch buddyPages k ⟨A.root, true⟩ (pageRoundDown va) +
        (va - pageRoundDown va)) =
          pageLoc arch buddyPages k ⟨A.root, true⟩ (pageRoundDown va) + 4096 := by
      rw [pageRoundUp_eq (by omega)]
      omega
    rw [hround]

/-- `open` puts the position at the start of the buffer. -/
theorem openStream (C : UserWindow reg arch k B Base W i A start stop) :
    ∃ s, (UserspaceStream.new start (stop - start) ⟨A.root, true⟩).openStream arch buddyPages
      k = .ok s ∧ s.ptr = start ∧
        AtPos arch k ⟨A.root, true⟩ start stop s (pageRoundDown start) := by
  have hne := C.nonempty
  have hfits := C.fits
  have hdown := pageRoundDown_eq start
  have hend : wordAdd start (stop - start) = stop := by
    unfold wordAdd wordSize
    omega
  refine ⟨_, C.updateCache rfl (Nat.le_refl start) hne, rfl, rfl, hend, rfl, Nat.le_refl start,
    Nat.le_of_lt hne,
    by omega, ⟨by omega, by omega⟩, ⟨?_, ?_⟩, rfl, rfl⟩
  · simp only [UserspaceStream.new]
    omega
  · simp only [UserspaceStream.new]
    omega

theorem userLoc_congr (C : UserWindow reg arch k B Base W i A start stop)
    (C' : UserWindow reg arch k' B Base W i A start stop) :
    userLoc arch buddyPages k' ⟨A.root, true⟩ = userLoc arch buddyPages k ⟨A.root, true⟩ :=
  C.world.userLoc_congr C'.world C.space C.zero

theorem pageLoc_congr (C : UserWindow reg arch k B Base W i A start stop)
    (C' : UserWindow reg arch k' B Base W i A start stop) :
    pageLoc arch buddyPages k' ⟨A.root, true⟩ =
      pageLoc arch buddyPages k ⟨A.root, true⟩ := by
  unfold pageLoc
  rw [C.world.entryOf_congr C'.world C.space C.zero]

/-- Stores in a page of the buffer. -/
theorem store (C : UserWindow reg arch k B Base W i A start stop)
    (hleaf : UserLeaf arch buddyPages k ⟨A.root, true⟩ P) {p : Nat} {l : List UInt8}
    (hl : pageLoc arch buddyPages k ⟨A.root, true⟩ P ≤ p)
    (hu : p + l.length ≤ pageLoc arch buddyPages k ⟨A.root, true⟩ P + 4096) :
    UserWindow reg arch { k with mem := k.mem.store p l } B Base W i A start stop := by
  have H := C.world.storeLeaf C.window C.space C.zero C.owned hleaf hl hu
  have hentry := C.world.entryOf_congr H C.space C.zero
  refine ⟨C.window, H, C.space, C.zero, C.owned, C.pos, C.nonempty, C.fits, fun a hla hua => ?_,
    fun a hla hua => ?_⟩
  · have hold := C.leaf a hla hua
    unfold UserLeaf ValidLeaf at hold ⊢
    rwa [hentry]
  · rw [hentry]
    exact C.phys a hla hua

end UserWindow

/-! ### Writes -/

/-- The bytes at the position, in one piece as far as the cached page goes. -/
theorem AtPos.loc (I : AtPos arch k ⟨A.root, true⟩ start stop s P) {d : Nat}
    (hd : s.ptr + d < P + 4096) : userLoc arch buddyPages k ⟨A.root, true⟩ (s.ptr + d) =
      s.cachePtr + d := by
  have hpage := I.page
  rw [userLoc_eq I.aligned (by omega) hd, I.cachePtr]
  omega

/-- The stream with its cache in the next page. -/
theorem AtPos.next (I : AtPos arch k ⟨A.root, true⟩ start stop s P)
    (C : UserWindow reg arch k' B Base W i A start stop) (hin : P + 4096 < stop) :
    ∃ s', UserspaceStream.updateCache arch buddyPages k' { s with
        cachePtr := s.cacheEnd, ptr := wordAdd s.ptr (s.cacheEnd - s.cachePtr) }
        (wordAdd s.ptr (s.cacheEnd - s.cachePtr)) = .ok s' ∧
      s'.ptr = P + 4096 ∧ AtPos arch k' ⟨A.root, true⟩ start stop s' (P + 4096) := by
  obtain ⟨hstart, hend, hpt, hlow, hhigh, hal, hinside, hpage, hptr, hcend⟩ := I
  have hfits := C.fits
  have hnext : wordAdd s.ptr (s.cacheEnd - s.cachePtr) = P + 4096 := by
    rw [hptr, hcend]
    unfold wordAdd wordSize
    omega
  have hdown : pageRoundDown (P + 4096) = P + 4096 := by
    have := pageRoundDown_eq (P + 4096)
    omega
  rw [hnext]
  refine ⟨_, C.updateCache hpt (by omega) hin, rfl, hstart, hend, hpt, ?_,
    ?_, by omega, ⟨by omega, hin⟩, ⟨?_, ?_⟩, ?_, ?_⟩
  · simp only
    omega
  · simp only
    omega
  · simp only
    omega
  · simp only
    omega
  · simp only [hdown]
  · simp only [hdown]

/-- The loop of `operator<<` stores the bytes one after the other. -/
theorem UserWindow.writeLoop (turns : Nat) (buf : List UInt8)
    (C : UserWindow reg arch k B Base W i A start stop)
    (I : AtPos arch k ⟨A.root, true⟩ start stop s P) (hfit : s.ptr + buf.length ≤ stop)
    (hturns : buf.length + (if s.ptr = P + 4096 then 2 else 1) ≤ turns) :
    ∃ s' k' P', s.writeLoop arch buddyPages turns k buf = .ok (s', k') ∧
      UserWindow reg arch k' B Base W i A start stop ∧
      AtPos arch k' ⟨A.root, true⟩ start stop s' P' ∧
      s'.ptr = s.ptr + buf.length ∧ s'.errno = .ok ∧
      k'.mem = k.mem.scatter (userLoc arch buddyPages k ⟨A.root, true⟩) s.ptr buf := by
  induction turns generalizing k s P buf with
  | zero => split at hturns <;> omega
  | succ turns ih =>
    have hfits := C.fits
    have hpage := I.page
    have hinside := I.inside
    have hleaf := C.pageLeaf I.aligned hinside.1 hinside.2
    have hlt := C.world.pageLoc_lt C.window C.space C.zero C.owned hleaf
    have hptr := I.cachePtr
    have hcend := I.cacheEnd
    rw [UserspaceStream.writeLoop]
    by_cases hlen : buf.length = 0
    · rw [if_pos hlen]
      obtain rfl := List.length_eq_zero_iff.mp hlen
      exact ⟨_, k, P, rfl, C, ⟨I.startAddr, I.endAddr, I.table, I.low, I.high, I.aligned,
        I.inside, I.page, I.cachePtr, I.cacheEnd⟩, rfl, rfl, rfl⟩
    rw [if_neg hlen]
    by_cases hroom : s.ptr + buf.length ≤ P + 4096
    · -- the rest fits in the cached page
      have hadd : wordAdd s.cachePtr buf.length = s.cachePtr + buf.length := by
        unfold wordAdd wordSize
        omega
      have hadd' : wordAdd s.ptr buf.length = s.ptr + buf.length := by
        unfold wordAdd wordSize
        omega
      have C' := C.store hleaf (p := s.cachePtr) (l := buf) (by omega) (by omega)
      rw [hadd, hadd', if_pos (by omega)]
      refine ⟨_, _, P, rfl, C',
        ⟨I.startAddr, I.endAddr, I.table, ?_, ?_, I.aligned, I.inside, ⟨?_, ?_⟩, ?_, ?_⟩,
        rfl, rfl, ?_⟩
      · exact Nat.le_trans I.low (Nat.le_add_right _ _)
      · exact hfit
      · exact Nat.le_trans hpage.1 (Nat.le_add_right _ _)
      · exact hroom
      · rw [C.pageLoc_congr C']
        simp only
        omega
      · rw [C.pageLoc_congr C']
        exact hcend
      · exact (Mem.scatter_store fun d hd => I.loc (by omega)).symm
    · -- the cached page is filled, and the cache goes to the next one
      have hl : s.cacheEnd - s.cachePtr = P + 4096 - s.ptr := by omega
      have hlow := I.low
      have hle := C.pageLoc_le I.aligned hinside.1 hinside.2
      have hnot : ¬wordAdd s.cachePtr buf.length ≤ s.cacheEnd := by
        unfold wordAdd wordSize
        omega
      have htake : (buf.take (s.cacheEnd - s.cachePtr)).length = P + 4096 - s.ptr := by
        rw [List.length_take, hl]
        omega
      have C₁ := C.store hleaf (p := s.cachePtr) (l := buf.take (s.cacheEnd - s.cachePtr))
        (by omega) (by omega)
      obtain ⟨s₁, hrun₁, hptr₁, I₁⟩ := I.next C₁ (by omega)
      have hstore : k.mem.store s.cachePtr (buf.take (s.cacheEnd - s.cachePtr)) =
          k.mem.scatter (userLoc arch buddyPages k ⟨A.root, true⟩)
            s.ptr (buf.take (s.cacheEnd - s.cachePtr)) :=
        (Mem.scatter_store fun d hd => I.loc (by omega)).symm
      obtain ⟨s', k', P', hrun, C', I', hptr', herr, hmem⟩ :=
        ih (buf.drop (s.cacheEnd - s.cachePtr)) C₁ I₁
        (by rw [hptr₁, List.length_drop]; omega)
        (by
          rw [hptr₁, List.length_drop, if_neg (by omega)]
          split at hturns <;> omega)
      rw [if_neg hnot, if_neg (by omega)]
      simp only [hrun₁, ok_bind, hrun]
      refine ⟨s', k', P', rfl, C', I', ?_, herr, ?_⟩
      · rw [hptr', hptr₁, List.length_drop]
        omega
      · rw [hmem, C.userLoc_congr C₁, hptr₁]
        simp only
        rw [hstore, show P + 4096 =
          s.ptr + (buf.take (s.cacheEnd - s.cachePtr)).length by omega, ← Mem.scatter_append,
          List.take_append_drop]

theorem UserWindow.clip_eq (C : UserWindow reg arch k B Base W i A start stop)
    (I : AtPos arch k ⟨A.root, true⟩ start stop s P) {n : Nat} (hn : n < 2 ^ 62) :
    s.clip n = min n (stop - s.ptr) := by
  have hfits := C.fits
  have hhigh := I.high
  unfold UserspaceStream.clip
  rw [I.endAddr, wordSub_of_le hhigh (by omega)]
  have hadd : wordAdd s.ptr n = s.ptr + n := by
    unfold wordAdd wordSize
    omega
  rw [hadd]
  split <;> omega

/-- `operator<<` of a range. -/
theorem UserWindow.write (C : UserWindow reg arch k B Base W i A start stop)
    (I : AtPos arch k ⟨A.root, true⟩ start stop s P) {buf : List UInt8}
    (hlen : buf.length < 2 ^ 62) :
    ∃ s' k' P', s.write arch buddyPages k buf = .ok (s', k') ∧
      UserWindow reg arch k' B Base W i A start stop ∧
      AtPos arch k' ⟨A.root, true⟩ start stop s' P' ∧
      s'.ptr = s.ptr + (buf.take (stop - s.ptr)).length ∧
      k'.mem = k.mem.scatter (userLoc arch buddyPages k ⟨A.root, true⟩)
        s.ptr (buf.take (stop - s.ptr)) := by
  have hpos := C.pos
  have hlow := I.low
  have hhigh := I.high
  have htake : buf.take (s.clip buf.length) = buf.take (stop - s.ptr) := by
    rw [C.clip_eq I hlen, ← List.take_take, List.take_of_length_le (List.length_take_le' _ _)]
  unfold UserspaceStream.write
  rw [if_neg (by omega), htake]
  have hfit : (buf.take (stop - s.ptr)).length ≤ stop - s.ptr := List.length_take_le _ _
  obtain ⟨s', k', P', hrun, C', I', hptr, -, hmem⟩ :=
    C.writeLoop (2 * (buf.take (stop - s.ptr)).length + 2)
    (buf.take (stop - s.ptr)) I (by omega) (by split <;> omega)
  exact ⟨s', k', P', hrun, C', I', hptr, hmem⟩

/-- `operator<<` of a range for which there is room. -/
theorem UserWindow.write_fits (C : UserWindow reg arch k B Base W i A start stop)
    (I : AtPos arch k ⟨A.root, true⟩ start stop s P) (buf : List UInt8)
    (hfit : s.ptr + buf.length ≤ stop) :
    ∃ s' k' P', s.write arch buddyPages k buf = .ok (s', k') ∧
      UserWindow reg arch k' B Base W i A start stop ∧
      AtPos arch k' ⟨A.root, true⟩ start stop s' P' ∧
      s'.ptr = s.ptr + buf.length ∧
      k'.mem = k.mem.scatter (userLoc arch buddyPages k ⟨A.root, true⟩) s.ptr buf := by
  have hfits := C.fits
  have hpos := C.pos
  have hlow := I.low
  obtain ⟨s', k', P', hrun, C', I', hptr, hmem⟩ := C.write I (show buf.length < 2 ^ 62 by omega)
  rw [List.take_of_length_le (by omega)] at hptr hmem
  exact ⟨s', k', P', hrun, C', I', hptr, hmem⟩

theorem UserWindow.restSpace_eq (C : UserWindow reg arch k B Base W i A start stop)
    (I : AtPos arch k ⟨A.root, true⟩ start stop s P) : s.restSpace = stop - s.ptr := by
  have hfits := C.fits
  have hhigh := I.high
  unfold UserspaceStream.restSpace
  rw [I.endAddr, wordSub_of_le hhigh (by omega)]

/-! ### Reads -/

/-- The loop of `operator>>` gives the bytes one after the other. -/
theorem UserWindow.readLoop (turns : Nat) (buf : List UInt8) (len : Nat)
    (C : UserWindow reg arch k B Base W i A start stop)
    (I : AtPos arch k ⟨A.root, true⟩ start stop s P)
    (hfit : s.ptr + len ≤ stop) (hturns : len + (if s.ptr = P + 4096 then 2 else 1) ≤ turns) :
    ∃ s' P', s.readLoop arch buddyPages k turns buf len =
        .ok (s', buf ++ k.mem.view
          (fun d => userLoc arch buddyPages k ⟨A.root, true⟩ (s.ptr + d)) len) ∧
      AtPos arch k ⟨A.root, true⟩ start stop s' P' ∧ s'.ptr = s.ptr + len := by
  induction turns generalizing s P buf len with
  | zero => split at hturns <;> omega
  | succ turns ih =>
    have hfits := C.fits
    have hpage := I.page
    have hinside := I.inside
    have hlow := I.low
    have hleaf := C.pageLeaf I.aligned hinside.1 hinside.2
    have hlt := C.world.pageLoc_lt C.window C.space C.zero C.owned hleaf
    have hle := C.pageLoc_le I.aligned hinside.1 hinside.2
    have hptr := I.cachePtr
    have hcend := I.cacheEnd
    rw [UserspaceStream.readLoop]
    by_cases hlen : len = 0
    · rw [if_pos hlen, hlen, Mem.view_zero, List.append_nil]
      exact ⟨s, P, rfl, I, rfl⟩
    rw [if_neg hlen]
    by_cases hroom : s.ptr + len ≤ P + 4096
    · have hadd : wordAdd s.cachePtr len = s.cachePtr + len := by
        unfold wordAdd wordSize
        omega
      have hadd' : wordAdd s.ptr len = s.ptr + len := by
        unfold wordAdd wordSize
        omega
      have hview : k.mem.view (fun d => userLoc arch buddyPages k ⟨A.root, true⟩ (s.ptr + d))
          len = k.mem.load s.cachePtr len := Mem.view_load fun d hd => I.loc (by omega)
      rw [hadd, hadd', if_pos (by omega), hview]
      refine ⟨_, P, rfl, ⟨I.startAddr, I.endAddr, I.table, ?_, hfit, I.aligned, I.inside,
        ⟨?_, hroom⟩, ?_, hcend⟩, rfl⟩
      · exact Nat.le_trans I.low (Nat.le_add_right _ _)
      · exact Nat.le_trans hpage.1 (Nat.le_add_right _ _)
      · simp only
        omega
    · have hl : s.cacheEnd - s.cachePtr = P + 4096 - s.ptr := by omega
      have hnot : ¬wordAdd s.cachePtr len ≤ s.cacheEnd := by
        unfold wordAdd wordSize
        omega
      obtain ⟨s₁, hrun₁, hptr₁, I₁⟩ := I.next C (by omega)
      have hview : k.mem.view (fun d => userLoc arch buddyPages k ⟨A.root, true⟩ (s.ptr + d))
          (s.cacheEnd - s.cachePtr) = k.mem.load s.cachePtr (s.cacheEnd - s.cachePtr) :=
        Mem.view_load fun d hd => I.loc (by omega)
      obtain ⟨s', P', hrun, I', hptr'⟩ :=
        ih (buf ++ k.mem.load s.cachePtr (s.cacheEnd - s.cachePtr))
        (len - (s.cacheEnd - s.cachePtr)) I₁ (by omega)
        (by
          rw [hptr₁, if_neg (by omega)]
          split at hturns <;> omega)
      rw [if_neg hnot, if_neg (by omega)]
      simp only [hrun₁, ok_bind, hrun]
      refine ⟨s', P', ?_, I', by omega⟩
      have hsplit : len = (s.cacheEnd - s.cachePtr) + (len - (s.cacheEnd - s.cachePtr)) := by omega
      have hshift : (fun d => userLoc arch buddyPages k ⟨A.root, true⟩ (s₁.ptr + d)) =
          fun d => userLoc arch buddyPages k ⟨A.root, true⟩
            (s.ptr + ((s.cacheEnd - s.cachePtr) + d)) := by
        funext d
        rw [show s₁.ptr + d = s.ptr + ((s.cacheEnd - s.cachePtr) + d) by omega]
      rw [hshift, List.append_assoc, ← hview]
      conv_rhs => rw [hsplit, Mem.view_add]

/-- `operator>>` of a range. -/
theorem UserWindow.read (C : UserWindow reg arch k B Base W i A start stop)
    (I : AtPos arch k ⟨A.root, true⟩ start stop s P) {len : Nat} (hlen : len < 2 ^ 62) :
    ∃ s' P', s.read arch buddyPages k len =
        .ok (s', k.mem.view (fun d => userLoc arch buddyPages k ⟨A.root, true⟩ (s.ptr + d))
          (min len (stop - s.ptr))) ∧
      AtPos arch k ⟨A.root, true⟩ start stop s' P' ∧
        s'.ptr = s.ptr + min len (stop - s.ptr) := by
  have hpos := C.pos
  have hlow := I.low
  have hhigh := I.high
  unfold UserspaceStream.read
  rw [if_neg (by omega), C.clip_eq I hlen]
  have hle := Nat.min_le_right len (stop - s.ptr)
  exact C.readLoop (2 * min len (stop - s.ptr) + 2) [] (min len (stop - s.ptr)) I (by omega)
    (by split <;> omega)

end

/-! ### Runs -/

/-- What an operation does to a window of bytes up to `stop`, at the position `p`: the memory, the
new position, and the bytes read. -/
def WindowOp.apply (loc : Nat → Nat) (stop : Nat) (m : Mem) (p : Nat) : WindowOp →
    Mem × Nat × List UInt8
  | .write buf => (m.scatter loc p (buf.take (stop - p)), p + (buf.take (stop - p)).length, [])
  | .read len => (m, p + min len (stop - p), m.view (fun d => loc (p + d)) (min len (stop - p)))

/-- What operations do one after the other, with the bytes that each one reads. -/
def WindowOp.applyAll (loc : Nat → Nat) (stop : Nat) (m : Mem) (p : Nat) :
    List WindowOp → Mem × Nat × List (List UInt8)
  | [] => (m, p, [])
  | op :: ops =>
    let r := op.apply loc stop m p
    let rest := applyAll loc stop r.1 r.2.1 ops
    (rest.1, rest.2.1, r.2.2 :: rest.2.2)

section

variable {reg : Region} {arch : Arch} {k k' : Kernel BuddyAllocator} {B : Blocks}
  {Base : Nat → Nat → Prop}
  {ι : Type} {W : Spaces ι} {i : ι} {A : AddrSpace} {start stop P : Nat} {s s' : UserspaceStream}

theorem UserWindow.exec (C : UserWindow reg arch k B Base W i A start stop)
    (I : AtPos arch k ⟨A.root, true⟩ start stop s P) (op : WindowOp)
    (hlen : op.length < 2 ^ 62) :
    ∃ s' k' P' out, s.exec arch buddyPages k op = .ok (s', k', out) ∧
      UserWindow reg arch k' B Base W i A start stop ∧
      AtPos arch k' ⟨A.root, true⟩ start stop s' P' ∧
      op.apply (userLoc arch buddyPages k ⟨A.root, true⟩) stop k.mem s.ptr =
        (k'.mem, s'.ptr, out) := by
  cases op with
  | write buf =>
    obtain ⟨s', k', P', hrun, C', I', hptr, hmem⟩ := C.write I hlen
    refine ⟨s', k', P', [], ?_, C', I', ?_⟩
    · rw [UserspaceStream.exec, hrun, ok_bind]
      rfl
    · rw [WindowOp.apply, ← hptr, ← hmem]
  | read len =>
    obtain ⟨s', P', hrun, I', hptr⟩ := C.read I hlen
    have hrun : s.read arch buddyPages k len = .ok (s', k.mem.view
      (fun d => userLoc arch buddyPages k ⟨A.root, true⟩ (s.ptr + d))
      (min len (stop - s.ptr))) := hrun
    have hptr : s'.ptr = s.ptr + min len (stop - s.ptr) := hptr
    refine ⟨s', k, P', k.mem.view
      (fun d => userLoc arch buddyPages k ⟨A.root, true⟩ (s.ptr + d))
      (min len (stop - s.ptr)), ?_, C, I', ?_⟩
    · rw [UserspaceStream.exec, hrun, ok_bind]
      rfl
    · rw [WindowOp.apply, hptr]

theorem UserWindow.execAll (ops : List WindowOp) (C : UserWindow reg arch k B Base W i A start stop)
    (I : AtPos arch k ⟨A.root, true⟩ start stop s P)
    (hlen : ∀ op ∈ ops, op.length < 2 ^ 62) :
    ∃ s' k' P' outs, s.execAll arch buddyPages k ops = .ok (s', k', outs) ∧
      UserWindow reg arch k' B Base W i A start stop ∧
      AtPos arch k' ⟨A.root, true⟩ start stop s' P' ∧
      WindowOp.applyAll (userLoc arch buddyPages k ⟨A.root, true⟩) stop k.mem s.ptr ops =
        (k'.mem, s'.ptr, outs) := by
  induction ops generalizing k s P with
  | nil => exact ⟨s, k, P, [], rfl, C, I, rfl⟩
  | cons op ops ih =>
    obtain ⟨s₁, k₁, P₁, out, hrun₁, C₁, I₁, happly₁⟩ :=
      C.exec I op (hlen op (List.mem_cons_self ..))
    obtain ⟨s', k', P', outs, hrun, C', I', happly⟩ := ih C₁ I₁ fun op' h =>
      hlen op' (List.mem_cons_of_mem op h)
    refine ⟨s', k', P', out :: outs, ?_, C', I', ?_⟩
    · rw [UserspaceStream.execAll, hrun₁, ok_bind, hrun, ok_bind]
      rfl
    · rw [C.userLoc_congr C₁] at happly
      rw [WindowOp.applyAll, happly₁]
      simp only [happly]

end

/-! ### The window of bytes -/

section

variable (loc : Nat → Nat) (stop : Nat)

/-- Writes one after the other are one write. -/
theorem WindowOp.applyAll_writes (bufs : List (List UInt8)) (m : Mem) (p : Nat) :
    (applyAll loc stop m p (bufs.map .write)).1 =
      ((WindowOp.write bufs.flatten).apply loc stop m p).1 ∧
      (applyAll loc stop m p (bufs.map .write)).2.1 =
        ((WindowOp.write bufs.flatten).apply loc stop m p).2.1 := by
  induction bufs generalizing m p with
  | nil => simp [applyAll, apply, Mem.scatter]
  | cons buf bufs ih =>
    obtain ⟨hmem, hptr⟩ := ih (m.scatter loc p (buf.take (stop - p)))
      (p + (buf.take (stop - p)).length)
    have hsplit : (buf ++ bufs.flatten).take (stop - p) = buf.take (stop - p) ++
        bufs.flatten.take (stop - (p + (buf.take (stop - p)).length)) := by
      rw [List.take_append, List.length_take]
      congr 2
      omega
    rw [List.map_cons, applyAll, List.flatten_cons]
    simp only [apply] at hmem hptr ⊢
    rw [hmem, hptr, hsplit, Mem.scatter_append, List.length_append, Nat.add_assoc]
    exact ⟨rfl, rfl⟩

/-- Reads one after the other are one read. -/
theorem WindowOp.applyAll_reads (lens : List Nat) (m : Mem) (p : Nat) :
    (applyAll loc stop m p (lens.map .read)).1 = m ∧
      (applyAll loc stop m p (lens.map .read)).2.1 =
      ((WindowOp.read lens.sum).apply loc stop m p).2.1 ∧
      (applyAll loc stop m p (lens.map .read)).2.2.flatten =
        ((WindowOp.read lens.sum).apply loc stop m p).2.2 := by
  induction lens generalizing p with
  | nil => simp [applyAll, apply]
  | cons len lens ih =>
    obtain ⟨hmem, hptr, hout⟩ := ih (p + min len (stop - p))
    have hsplit : min (len + lens.sum) (stop - p) =
        min len (stop - p) + min lens.sum (stop - (p + min len (stop - p))) := by omega
    rw [List.map_cons, applyAll, List.sum_cons]
    simp only [apply] at hmem hptr hout ⊢
    refine ⟨hmem, ?_, ?_⟩
    · rw [hptr, hsplit, Nat.add_assoc]
    · rw [List.flatten_cons, hout, hsplit, Mem.view_add]
      simp only [Nat.add_assoc]

/-- Nothing outside the window changes. -/
theorem WindowOp.applyAll_outside (ops : List WindowOp) {m : Mem} {start p x : Nat}
    (hp : start ≤ p) (hx : ∀ a, start ≤ a → a < stop → x ≠ loc a) :
      (applyAll loc stop m p ops).1 x = m x := by
  induction ops generalizing m p with
  | nil => rfl
  | cons op ops ih =>
    rw [applyAll]
    cases op with
    | write buf =>
      simp only [apply]
      rw [ih (Nat.le_trans hp (Nat.le_add_right _ _)), Mem.scatter_outside fun d hd => ?_]
      rw [List.length_take] at hd
      exact hx (p + d) (by omega) (by omega)
    | read len =>
      simp only [apply]
      exact ih (Nat.le_trans hp (Nat.le_add_right _ _))

end

/-- The stream after `open` is a window of bytes: each operation acts on the bytes from its position
on, as far as the buffer goes.  At any moment writes one after the other are one write, and reads
are one read. -/
theorem userspace_stream_window {ι : Type} (reg : Region) (arch : Arch) (k : Kernel BuddyAllocator)
    (B : Blocks) (Base : Nat → Nat → Prop) (W : Spaces ι) (i : ι) (A : AddrSpace)
    (start size : Nat)
    (C : UserWindow reg arch k B Base W i A start (start + size)) (ops : List WindowOp)
    (hlen : ∀ op ∈ ops, op.length < 2 ^ 62) :
    ∃ s₀ s k' outs, (UserspaceStream.new start size ⟨A.root, true⟩).openStream arch
      buddyPages k = .ok s₀ ∧ s₀.execAll arch buddyPages k ops = .ok (s, k', outs) ∧
      WindowOp.applyAll (userLoc arch buddyPages k ⟨A.root, true⟩)
        (start + size) k.mem start ops = (k'.mem, s.ptr, outs) ∧
      (∀ x, (∀ a, start ≤ a → a < start + size →
        x ≠ userLoc arch buddyPages k ⟨A.root, true⟩ a) →
        k'.mem x = k.mem x) ∧
      (∀ bufs : List (List UInt8), (∀ buf ∈ bufs, buf.length < 2 ^ 62) →
        bufs.flatten.length < 2 ^ 62 → ∃ s₁ s₂ k₁ k₂ outs',
          s.execAll arch buddyPages k' (bufs.map .write) = .ok (s₁, k₁, outs') ∧
          s.exec arch buddyPages k' (.write bufs.flatten) = .ok (s₂, k₂, []) ∧
          k₁.mem = k₂.mem ∧ s₁.ptr = s₂.ptr) ∧
      ∀ lens : List Nat, (∀ len ∈ lens, len < 2 ^ 62) → lens.sum < 2 ^ 62 →
        ∃ s₁ s₂ k₁ k₂ outs', s.execAll arch buddyPages k' (lens.map .read) =
          .ok (s₁, k₁, outs') ∧ s.exec arch buddyPages k' (.read lens.sum) =
          .ok (s₂, k₂, outs'.flatten) ∧ k₁.mem = k₂.mem ∧
          s₁.ptr = s₂.ptr := by
  obtain ⟨s₀, hopen, hptr₀, I₀⟩ := C.openStream
  rw [Nat.add_sub_cancel_left] at hopen
  obtain ⟨s, k', P, outs, hrun, C', I, happly⟩ := C.execAll ops I₀ hlen
  rw [hptr₀] at happly
  refine ⟨s₀, s, k', outs, hopen, hrun, happly, fun x hx => ?_, fun bufs hbufs htotal => ?_,
    fun lens hlens htotal => ?_⟩
  · have h := WindowOp.applyAll_outside (userLoc arch buddyPages k ⟨A.root, true⟩)
      (start + size) ops (m := k.mem) (Nat.le_refl start) hx
    rwa [happly] at h
  · obtain ⟨s₁, k₁, P₁, outs₁, hrun₁, -, -, happly₁⟩ :=
        C'.execAll (bufs.map .write) I fun op hop => by
      obtain ⟨buf, hbuf, rfl⟩ := List.mem_map.mp hop
      exact hbufs buf hbuf
    obtain ⟨s₂, k₂, P₂, out₂, hrun₂, -, -, happly₂⟩ :=
      C'.exec I (.write bufs.flatten) htotal
    obtain ⟨hmem, hptr⟩ := WindowOp.applyAll_writes
      (userLoc arch buddyPages k' ⟨A.root, true⟩) (start + size) bufs
      k'.mem s.ptr
    rw [happly₁, happly₂] at hmem hptr
    obtain rfl : out₂ = [] := (congrArg (fun r => r.2.2) happly₂).symm
    exact ⟨s₁, s₂, k₁, k₂, outs₁, hrun₁, hrun₂, hmem, hptr⟩
  · obtain ⟨s₁, k₁, P₁, outs₁, hrun₁, -, -, happly₁⟩ :=
        C'.execAll (lens.map .read) I fun op hop => by
      obtain ⟨len, hlen', rfl⟩ := List.mem_map.mp hop
      exact hlens len hlen'
    obtain ⟨s₂, k₂, P₂, out₂, hrun₂, -, -, happly₂⟩ :=
      C'.exec I (.read lens.sum) htotal
    obtain ⟨hmem, hptr, hout⟩ :=
      WindowOp.applyAll_reads (userLoc arch buddyPages k' ⟨A.root, true⟩) (start + size) lens
      k'.mem s.ptr
    rw [happly₁] at hmem hptr hout
    rw [happly₂] at hptr hout
    have hmem₂ : k₂.mem = k'.mem := (congrArg (fun r => r.1) happly₂).symm
    simp only at hmem hptr hout
    exact ⟨s₁, s₂, k₁, k₂, outs₁,
      hrun₁, by rw [hrun₂, hout], hmem.trans hmem₂.symm, hptr⟩

/-- A buffer in the page at 0x10000. -/
theorem sample_window (start stop : Nat) (hl : 0x10000 ≤ start) (hne : start < stop)
    (hu : stop ≤ 0x11000) : ∃ (k : Kernel BuddyAllocator) (B : Blocks)
      (Base : Nat → Nat → Prop) (A : AddrSpace),
        UserWindow sampleRegion .riscv k B Base (fun _ : Unit => some A) () A start stop := by
  obtain ⟨k, B, Base, A, q, H, hb, ho, hq, hmap⟩ := sample_user 16 (by decide)
  have hok := ((H.represents (i := ()) rfl).of_some hmap).2
  have hpage : ∀ a, start ≤ a → a < stop → pageRoundDown a = 0x10000 := by
    intro a hla hua
    have := pageRoundDown_eq a
    omega
  have hentry : Mm.entryOf .riscv buddyPages k ⟨A.root, true⟩ 0x10000 =
      Mapping.data .riscv ⟨Arch.toPhy .riscv (sampleRegion.addr q),
        vmAllocFlags .riscv false true true⟩ := by
    rw [H.entryOf (i := ()) rfl hb, show 0x10000 / 4096 % Arch.vaPages .riscv = 16 from rfl, hmap]
    rfl
  refine ⟨k, B, Base, A, sampleRegion_inWindow, H, rfl, hb,
    ho, by omega, hne, by omega, fun a hla hua => ?_,
    fun a hla hua => ?_⟩
  · rw [hpage a hla hua]
    refine ⟨?_, ?_⟩
    · unfold ValidLeaf
      rw [hentry, hok.isValid]
    · rw [hentry, hok.isSuperPlv]
      exact show Arch.isSuperPlv .riscv (vmAllocFlags .riscv false true true) = false by decide
  · rw [hpage a hla hua, hentry, hok.toPa]
    have hlt := H.page_lt (j := ()) rfl hq
    have hbound := Region.page_bound hlt
    have hend : sampleRegion.mem + 4096 * sampleRegion.pages < 2 ^ 60 := by decide
    simp only [Arch.toPhy, Region.addr] at hbound ⊢
    omega

/-- Three bytes are written, and the buffer is read to its end. -/
theorem userspace_stream_window_sample : ∃ (k : Kernel BuddyAllocator) (pt : PageTable),
    ∃ s₀ s k' outs, (UserspaceStream.new 0x10010 20 pt).openStream .riscv buddyPages k =
      .ok s₀ ∧ s₀.execAll .riscv buddyPages k [.write [1, 2, 3], .read 40] =
        .ok (s, k', outs) ∧ s.ptr = 0x10024 := by
  obtain ⟨k, B, Base, A, C⟩ := sample_window 0x10010 0x10024 (by decide) (by decide) (by decide)
  obtain ⟨s₀, s, k', outs, hopen, hrun, happly, -⟩ :=
    userspace_stream_window sampleRegion .riscv k B Base _ () A 0x10010 20
    C [.write [1, 2, 3], .read 40] (by simp [WindowOp.length])
  refine ⟨k, ⟨A.root, true⟩, s₀, s, k', outs, hopen, hrun, ?_⟩
  exact (congrArg (fun r => r.2.1) happly).symm

end OsKernel.Mm

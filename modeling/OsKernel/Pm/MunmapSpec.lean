import OsKernel.Pm.Munmap

/-! When `munmap` removes a live mapping. -/

namespace OsKernel.Pm

open Fs Hsai Mm Lib Lib.BuddySystem BuddyAllocator

/-! ### Writing the pages back -/

namespace MmapState

section

variable {σ : Type} {arch : Arch} {V : VirtualPageAllocator σ} {pt : PageTable}
  {s s' s'' : MmapState σ}

/-- Only the files behind the nodes have changed. -/
structure SameAreas (s s' : MmapState σ) : Prop where
  kernel : s'.kernel = s.kernel
  vm : s'.vm = s.vm
  store : s'.store = s.store

theorem SameAreas.refl (s : MmapState σ) : SameAreas s s := ⟨rfl, rfl, rfl⟩

theorem SameAreas.trans (h : SameAreas s s') (h' : SameAreas s' s'') : SameAreas s s'' :=
  ⟨h'.kernel.trans h.kernel, h'.vm.trans h.vm, h'.store.trans h.store⟩

/-- The file takes what is written to it. -/
def Accepts (s : MmapState σ) (f : Nat) : Prop :=
  (s.normals f).uWrite = true ∧ ∀ o, s.store.files f = some o → o.filetype ≠ .direct ∧
    o.filetype ≠ .none

/-- A write at an offset that is not negative. -/
theorem fileWrite_spec {f : Nat} {src : List UInt8} {off : Nat} (hoff : off < 2 ^ 64)
    (hrun : s.fileWrite f src off = .ok s') :
    SameAreas s s' ∧ (Accepts s f ↔ Accepts s' f) ∧
      (Accepts s f → s'.written = s.written ++ [⟨f, off, src⟩]) ∧
        (¬Accepts s f → s'.written = s.written) := by
  unfold fileWrite at hrun
  cases hfile : s.store.files f with
  | none =>
    rw [hfile] at hrun
    cases hrun
  | some o =>
    rw [hfile] at hrun
    simp only at hrun
    have hrefused : ¬Accepts s f → s' = s → SameAreas s s' ∧
        (Accepts s f ↔ Accepts s' f) ∧
          (Accepts s f → s'.written = s.written ++ [⟨f, off, src⟩]) ∧
          (¬Accepts s f → s'.written = s.written) := by
      rintro hno rfl
      exact ⟨.refl _, Iff.rfl, fun h => absurd h hno, fun _ => rfl⟩
    split at hrun
    · next hw =>
      refine hrefused (fun h => ?_) (Except.ok.inj hrun).symm
      rw [h.1] at hw
      cases hw
    · next hw =>
      split at hrun
      · next hd => exact hrefused (fun h => (h.2 o hfile).1 hd) (Except.ok.inj hrun).symm
      · next hd =>
        split at hrun
        · next hn => exact hrefused (fun h => (h.2 o hfile).2 hn) (Except.ok.inj hrun).symm
        · next hn =>
          obtain rfl := Except.ok.inj hrun
          have haccepts : Accepts s f := by
            refine ⟨by simpa using hw, fun o' ho' => ?_⟩
            obtain rfl := Option.some.inj (hfile.symm.trans ho')
            exact ⟨hd, hn⟩
          have hval : ((if (off : Int) < 0 then (s.normals f).filePtr else (off : Int)) %
              (wordSize : Int)).toNat = off := by
            rw [if_neg (by omega)]
            unfold wordSize
            omega
          refine ⟨⟨rfl, rfl, rfl⟩, ⟨fun h => ⟨?_, h.2⟩, fun _ => haccepts⟩,
            fun _ => ?_, fun h => absurd haccepts h⟩
          · simpa using h.1
          · simp only [hval]

/-- What the loop has written when it has come to its end. -/
theorem writeBackLoop_spec {f n va o : Nat}
    (hva : va + 4096 * n ≤ 2 ^ 64) (ho : o + 4096 * n ≤ 2 ^ 31)
    (hrun : writeBackLoop arch V pt f n s va o = .ok s') :
    SameAreas s s' ∧ (¬Accepts s f → s'.written = s.written) ∧
      ∃ pa : Nat → Nat, (∀ j < n, kwalkAddr arch V s.kernel pt (va + 4096 * j) =
        .ok (pa j)) ∧ (Accepts s f → s'.written = s.written ++
          (List.range n).map fun j =>
            ⟨f, o + 4096 * j, s.kernel.mem.load (arch.toVir (pa j)) 4096⟩) := by
  induction n generalizing s va o with
  | zero =>
    obtain rfl := Except.ok.inj hrun
    exact ⟨.refl _, fun _ => rfl, fun _ => 0, fun j hj => absurd hj (Nat.not_lt_zero j),
      fun _ => by simp⟩
  | succ n ih =>
    obtain ⟨pa, hpa, hrun⟩ := bind_eq_ok.mp hrun
    obtain ⟨s₁, hwrite, hrun⟩ := bind_eq_ok.mp hrun
    obtain ⟨hsame, haccepts, hyes, hno⟩ := fileWrite_spec (by omega) hwrite
    cases n with
    | zero =>
      obtain rfl := Except.ok.inj hrun
      refine ⟨hsame, hno, fun _ => pa, fun j hj => ?_, fun h => ?_⟩
      · rwa [show va + 4096 * j = va by omega]
      · rw [hyes h]
        rfl
    | succ m =>
      have hnext : wordAdd va pageSize = va + 4096 := by
        unfold wordAdd pageSize wordSize
        omega
      have hoff : Int.bmod ((o : Int) + pageSize) (2 ^ 32) = ((o + 4096 : Nat) : Int) := by
        unfold pageSize
        rw [Int.bmod_def]
        omega
      rw [hnext, hoff] at hrun
      have hstep : ∀ a, a + 4096 * (m + 1 + 1) = a + 4096 + 4096 * (m + 1) := fun a => by ring
      rw [hstep] at hva ho
      obtain ⟨hrest, hrefused, pas, hpas, hcalls⟩ := ih hva ho hrun
      rw [hsame.kernel] at hpas hcalls
      refine ⟨hsame.trans hrest, fun h => ?_, fun j => if j = 0 then pa else pas (j - 1),
        fun j hj => ?_, fun h => ?_⟩
      · rw [hrefused (fun h' => h (haccepts.mpr h')), hno h]
      · simp only
        cases j with
        | zero =>
          rw [Nat.mul_zero, Nat.add_zero, if_pos rfl]
          exact hpa
        | succ j =>
          rw [if_neg (Nat.succ_ne_zero j), show va + 4096 * (j + 1) = va + 4096 + 4096 * j by ring]
          exact hpas j (Nat.lt_of_succ_lt_succ hj)
      · have hrange : List.range (m + 1 + 1) = 0 :: (List.range (m + 1)).map Nat.succ :=
          List.range_succ_eq_map
        rw [hcalls (haccepts.mp h), hyes h, hrange, List.map_cons, List.map_map, List.append_assoc]
        refine congrArg (s.written ++ ·)
          (congrArg₂ List.cons ?_ (List.map_congr_left fun j _ => ?_))
        · simp only [if_true, Nat.mul_zero, Nat.add_zero, pageSize]
        · simp only [Function.comp_apply, Nat.succ_ne_zero, if_false, Nat.succ_sub_one]
          rw [show o + 4096 * j.succ = o + 4096 + 4096 * j by rw [Nat.succ_eq_add_one]; ring]

theorem fileWrite_runs {f : Nat} {o : File} (hfile : s.store.files f = some o) (src : List UInt8)
    (off : Int) : ∃ s', s.fileWrite f src off = .ok s' ∧ SameAreas s s' := by
  unfold fileWrite
  rw [hfile]
  simp only
  split
  · exact ⟨s, rfl, .refl s⟩
  · split
    · exact ⟨s, rfl, .refl s⟩
    · split
      · exact ⟨s, rfl, .refl s⟩
      · exact ⟨_, rfl, rfl, rfl, rfl⟩

theorem fileWrite_same {f : Nat} {src : List UInt8} {off : Int}
    (hrun : s.fileWrite f src off = .ok s') : SameAreas s s' := by
  cases hfile : s.store.files f with
  | none =>
    rw [fileWrite, hfile] at hrun
    cases hrun
  | some o =>
    obtain ⟨s₁, hrun', hsame⟩ := fileWrite_runs hfile src off
    obtain rfl := Except.ok.inj (hrun.symm.trans hrun')
    exact hsame

theorem writeBackLoop_same {f n va : Nat} {off : Int}
    (hrun : writeBackLoop arch V pt f n s va off = .ok s') :
    SameAreas s s' := by
  induction n generalizing s va off with
  | zero =>
    obtain rfl := Except.ok.inj hrun
    exact .refl _
  | succ n ih =>
    obtain ⟨pa, -, hrun⟩ := bind_eq_ok.mp hrun
    obtain ⟨s₁, hwrite, hrun⟩ := bind_eq_ok.mp hrun
    exact (fileWrite_same hwrite).trans (ih hrun)

/-- The loop comes to its end if it finds its pages. -/
theorem writeBackLoop_runs {f n va : Nat} {o : File} (hfile : s.store.files f = some o)
    (hva : va + 4096 * n ≤ 2 ^ 64)
    (hpages : ∀ j < n, ∃ pa, kwalkAddr arch V s.kernel pt (va + 4096 * j) = .ok pa)
    (off : Int) :
    ∃ s', writeBackLoop arch V pt f n s va off = .ok s' := by
  induction n generalizing s va off with
  | zero => exact ⟨s, rfl⟩
  | succ n ih =>
    obtain ⟨pa, hpa⟩ := hpages 0 (Nat.succ_pos n)
    rw [Nat.mul_zero, Nat.add_zero] at hpa
    obtain ⟨s₁, hwrite, hsame⟩ :=
      fileWrite_runs hfile (s.kernel.mem.load (arch.toVir pa) pageSize) off
    rw [writeBackLoop, hpa, ok_bind, hwrite, ok_bind]
    cases n with
    | zero => exact ⟨s₁, rfl⟩
    | succ m =>
      have hnext : wordAdd va pageSize = va + 4096 := by
        unfold wordAdd pageSize wordSize
        omega
      rw [show va + 4096 * (m + 1 + 1) = va + 4096 + 4096 * (m + 1) by ring] at hva
      rw [hnext]
      refine ih (by rw [hsame.store]; exact hfile) hva (fun j hj => ?_) _
      rw [hsame.kernel, show va + 4096 + 4096 * j = va + 4096 * (j + 1) by ring]
      exact hpages (j + 1) (Nat.succ_lt_succ hj)

/-- The bytes of the area are written to its file. -/
def Writes (s : MmapState σ) (v : MmapVma) : Prop :=
  ∃ f, v.vfile = some f ∧ v.flags = mapShared ∧ v.prot &&& protWrite ≠ 0 ∧ Accepts s f

theorem writeBack_same {v : MmapVma} {va len : Nat}
    (hrun : s.writeBack arch V pt v va len = .ok s') :
    SameAreas s s' := by
  unfold writeBack at hrun
  split at hrun
  · obtain rfl := Except.ok.inj hrun
    exact .refl _
  · split at hrun
    · exact writeBackLoop_same hrun
    · obtain rfl := Except.ok.inj hrun
      exact .refl _

theorem turns_le (va len : Nat) (hva : va < 2 ^ 64) : va + 4096 * turns va len ≤ 2 ^ 64 := by
  unfold turns wordAdd wordSize pageSize
  omega

/-- The calls of `nodeWrite` in a write back. -/
structure WritesBack (arch : Arch) (V : VirtualPageAllocator σ) (pt : PageTable) (s : MmapState σ)
    (v : MmapVma) (va len : Nat) (calls : List NodeWrite) : Prop where
  file : ∀ c ∈ calls, v.vfile = some c.file
  none : ¬Writes s v → calls = []
  pages : Writes s v → ∃ (f : Nat) (pa : Nat → Nat),
    (∀ j < turns va len, kwalkAddr arch V s.kernel pt (va + 4096 * j) = .ok (pa j)) ∧
      calls = (List.range (turns va len)).map fun j =>
      ⟨f, 4096 * j, s.kernel.mem.load (arch.toVir (pa j)) 4096⟩

theorem writesBack_nil {v : MmapVma} {va len : Nat} (h : ¬Writes s v) :
    WritesBack arch V pt s v va len [] :=
  ⟨fun _ hc => absurd hc List.not_mem_nil, fun _ => rfl, fun h' => absurd h' h⟩

/-- A write back of few pages. -/
theorem writeBack_spec {v : MmapVma} {va len : Nat} (hva : va < 2 ^ 64)
    (hint : 4096 * turns va len ≤ 2 ^ 31) (hrun : s.writeBack arch V pt v va len = .ok s') :
    ∃ calls, s'.written = s.written ++ calls ∧ WritesBack arch V pt s v va len calls := by
  unfold writeBack at hrun
  have hnone : s = s' → ¬Writes s v →
      ∃ calls, s'.written = s.written ++ calls ∧ WritesBack arch V pt s v va len calls := by
    rintro rfl hno
    exact ⟨[], (List.append_nil _).symm, writesBack_nil hno⟩
  split at hrun
  · next hfile =>
    refine hnone (Except.ok.inj hrun) ?_
    rintro ⟨f, hf, -⟩
    rw [hfile] at hf
    cases hf
  · next f hfile =>
    have hf : ∀ {f'}, v.vfile = some f' → f' = f :=
      fun h => Option.some.inj (h.symm.trans hfile)
    split at hrun
    · next hshared =>
      obtain ⟨-, hrefused, pa, hpa, hcalls⟩ :=
        writeBackLoop_spec (turns_le va len hva) (o := 0) (by omega) hrun
      simp only [Nat.zero_add] at hcalls
      by_cases haccepts : Accepts s f
      · refine ⟨_, hcalls haccepts, ?_,
          fun h => absurd ⟨f, hfile, hshared.1, hshared.2, haccepts⟩ h,
          fun _ => ⟨f, pa, hpa, rfl⟩⟩
        intro c hc
        obtain ⟨j, -, rfl⟩ := List.mem_map.mp hc
        exact hfile
      · have hno : ¬Writes s v := by
          rintro ⟨f', hf', -, -, h⟩
          rw [hf hf'] at h
          exact haccepts h
        exact ⟨[], by rw [hrefused haccepts, List.append_nil], writesBack_nil hno⟩
    · next hshared =>
      refine hnone (Except.ok.inj hrun) ?_
      rintro ⟨f', hf', hflags, hprot, -⟩
      exact hshared ⟨hflags, hprot⟩

/-- The write back of an area whose file is open comes to its end if it finds its pages. -/
theorem writeBack_runs {v : MmapVma} {va len : Nat} (hva : va < 2 ^ 64)
    (hfile : ∀ f, v.vfile = some f → ∃ o, s.store.files f = some o)
    (hpages : ∀ j < turns va len, ∃ pa, kwalkAddr arch V s.kernel pt (va + 4096 * j) = .ok pa) :
    ∃ s', s.writeBack arch V pt v va len = .ok s' := by
  unfold writeBack
  split
  · exact ⟨s, rfl⟩
  · next f hf =>
    split
    · obtain ⟨o, ho⟩ := hfile f hf
      exact writeBackLoop_runs ho (turns_le va len hva) hpages 0
    · exact ⟨s, rfl⟩

/-- A file that is no pipe can be given back. -/
theorem freeVfile_runs {f : Option Nat}
    (hfile : ∀ g, f = some g → ∃ o, s.store.files g = some o ∧ o.cls = .normal) :
    ∃ store, s.freeVfile f = .ok { s with store } := by
  cases f with
  | none => exact ⟨s.store, rfl⟩
  | some g =>
    obtain ⟨o, ho, hcls⟩ := hfile g rfl
    have hrun : ∃ store, s.store.freeFile g = .ok store := by
      unfold FileStore.freeFile
      rw [ho]
      simp only
      split
      · unfold FileStore.delete
        simp only [hcls]
        exact ⟨_, rfl⟩
      · exact ⟨_, rfl⟩
    obtain ⟨store, hrun⟩ := hrun
    exact ⟨store, by rw [freeVfile, hrun, ok_bind]; rfl⟩

/-- `free_file` depends on the files alone. -/
theorem freeVfile_congr {f : Option Nat} {t : MmapState σ} (hstore : t.store = s.store)
    (hrun : t.freeVfile f = .ok s') : s' = { t with store := s'.store } ∧
      s.freeVfile f = .ok { s with store := s'.store } := by
  cases f with
  | none =>
    obtain rfl := Except.ok.inj hrun
    exact ⟨rfl, by rw [hstore]; rfl⟩
  | some g =>
    obtain ⟨store, hfree, hrun⟩ := bind_eq_ok.mp hrun
    obtain rfl := Except.ok.inj hrun
    rw [hstore] at hfree
    exact ⟨rfl, by rw [freeVfile, hfree, ok_bind]; rfl⟩

end

end MmapState

theorem NodeWrite.overlay_append (l l' : List NodeWrite) (x : Nat) :
    overlay (l ++ l') x = (overlay l' x).or (overlay l x) := by
  induction l with
  | nil => rw [List.nil_append, overlay, Option.or_none]
  | cons c l ih =>
    rw [List.cons_append, overlay, ih, overlay]
    cases overlay l' x with
    | some b => rfl
    | none => rfl

/-- What writes of whole pages leave. -/
theorem NodeWrite.overlay_pages (f : Nat) (page : Nat → List UInt8) (n : Nat)
    (hpage : ∀ j < n, (page j).length = 4096) (x : Nat) :
      overlay ((List.range n).map fun j => ⟨f, 4096 * j, page j⟩) x =
      if x < 4096 * n then some ((page (x / 4096)).getD (x % 4096) 0) else none := by
  induction n with
  | zero => rfl
  | succ n ih =>
    rw [List.range_succ, List.map_append, overlay_append,
      ih fun j hj => hpage j (Nat.lt_succ_of_lt hj), List.map_singleton]
    unfold overlay overlay
    simp only [hpage n (Nat.lt_succ_self n)]
    by_cases hx : x < 4096 * n
    · rw [if_neg (by omega), if_pos hx, if_pos (by omega), Option.none_or]
    · rw [if_neg hx]
      by_cases hx' : x < 4096 * n + 4096
      · rw [if_pos ⟨by omega, hx'⟩, if_pos (by rw [Nat.mul_succ]; exact hx'),
          show x / 4096 = n by omega,
          show x - 4096 * n = x % 4096 by omega, Option.some_or]
      · rw [if_neg fun h => hx' h.2, if_neg (by rw [Nat.mul_succ]; exact hx'), Option.none_or]

namespace MmapState.WritesBack

section

variable {σ : Type} {arch : Arch} {V : VirtualPageAllocator σ} {pt : PageTable} {s : MmapState σ}
  {v : MmapVma}
  {va len : Nat} {calls : List NodeWrite}

theorem isSome (h : WritesBack arch V pt s v va len calls) (x : Nat) :
    (NodeWrite.overlay calls x).isSome = true ↔ Writes s v ∧ x < 4096 * turns va len := by
  by_cases hw : Writes s v
  · obtain ⟨f, pa, -, rfl⟩ := h.pages hw
    rw [NodeWrite.overlay_pages f _ _ (fun j _ => Mem.load_length _ _ _)]
    split
    · next hx => exact iff_of_true rfl ⟨hw, hx⟩
    · next hx => exact iff_of_false (by simp) fun hh => hx hh.2
  · rw [h.none hw]
    exact iff_of_false (by simp [NodeWrite.overlay]) fun hh => hw hh.1

end

variable {reg : Region} {arch : Arch} {hw : reg.InWindow arch} {B : Blocks} {A : AddrSpace}
  {s : MmapState BuddyAllocator} {v : MmapVma} {va len : Nat} {calls : List NodeWrite}

/-- The byte at an offset is that of the area. -/
theorem byte (h : WritesBack arch buddyPages ⟨A.root, true⟩ s v va len calls)
    (P : HeldPages hw s.kernel B A) (hal : va % 4096 = 0)
    (hmapped : ∀ j < turns va len, ValidLeaf arch buddyPages s.kernel ⟨A.root, true⟩
      (va + 4096 * j))
    (hwrites : Writes s v) {x : Nat} (hx : x < 4096 * turns va len) : NodeWrite.overlay calls x =
      some (s.kernel.mem (userLoc arch buddyPages s.kernel ⟨A.root, true⟩ (va + x))) := by
  obtain ⟨f, pa, hpa, rfl⟩ := h.pages hwrites
  rw [NodeWrite.overlay_pages f _ _ (fun j _ => Mem.load_length _ _ _), if_pos hx]
  have hj : x / 4096 < turns va len := by omega
  have hpage := P.kwalkAddr (by omega) (hmapped _ hj)
  rw [hpa _ hj] at hpage
  have hdown : pageRoundDown (va + x) = va + 4096 * (x / 4096) := by
    unfold pageRoundDown pageSize
    omega
  have hmod : (va + x) % 4096 = x % 4096 := by omega
  have hlt : x % 4096 < 4096 := Nat.mod_lt _ (by decide)
  unfold userLoc
  rw [Except.ok.inj hpage, hdown, hmod]
  simp [Mem.load, hlt]

end MmapState.WritesBack

/-! ### The call -/

/-- The areas in use of a process with the space.  They are not at the null address and in the
user's part; a page of them that is mapped is held by the space; and their files are open. -/
structure AreasOk {σ : Type} (arch : Arch) (A : AddrSpace) (s : MmapState σ) : Prop where
  nonnull : ∀ i, (s.vm i).isUsed = true → (s.vm i).address ≠ 0
  inUser : ∀ i, (s.vm i).isUsed = true → (s.vm i).address + (s.vm i).length.toNat ≤
    4096 * arch.vaPages
  int : ∀ i, (s.vm i).isUsed = true → (s.vm i).length < 2 ^ 31
  held : ∀ i, (s.vm i).isUsed = true → ∀ w, (s.vm i).address ≤ 4096 * w →
    4096 * w < (s.vm i).address + (s.vm i).length.toNat → A.map w ≠ none → A.pages w ≠ none
  file : ∀ i, (s.vm i).isUsed = true → ∀ f, (s.vm i).vfile = some f → ∃ o,
    s.store.files f = some o ∧ o.cls = .normal

namespace MmapState

section

variable {σ : Type} {arch : Arch} {V : VirtualPageAllocator σ} {pt : PageTable}
  {s s' : MmapState σ} {va len : Nat}

theorem findVma_address {i : Fin maxVmaNum} (h : s.findVma va = some i) :
    (s.vm i).address = va := by
  simpa using List.find?_some h

theorem pageRoundDown_mod (va : Nat) : pageRoundDown va % 4096 = 0 := by
  unfold pageRoundDown pageSize
  omega

theorem vmUnmap_turns {k : Kernel σ} (hal : va % 4096 = 0) :
    vmUnmap arch V k pt va (pageRoundUp len / pageSize) true =
      unmapLoop arch V pt true (turns va (pageRoundUp len)) k va := by
  have hmul : pageRoundUp len / pageSize * pageSize = pageRoundUp len := by
    unfold pageRoundUp pageSize
    omega
  rw [vmUnmap, if_neg (by simpa [pageSize] using hal), hmul]
  rfl

/-- What the call does when it finds an area. -/
theorem munmap_found {i : Fin maxVmaNum} (hfind : s.findVma (pageRoundDown va) = some i) {r : Int} :
    s.munmap arch V pt va len = .ok (r, s') ↔ r = 0 ∧ ∃ s₁ k',
      s.writeBack arch V pt (s.vm i) (pageRoundDown va) (pageRoundUp len) = .ok s₁ ∧
      s.freeVfile (s.vm i).vfile = .ok { s with store := s'.store } ∧
      unmapLoop arch V pt true (turns (pageRoundDown va) (pageRoundUp len))
      s.kernel (pageRoundDown va) = .ok k' ∧
      s' = { s₁ with
        store := s'.store
        vm := Function.update s.vm i { s.vm i with isUsed := false, address := 0 }
        kernel := k' } := by
  unfold munmap
  simp only [hfind, bind_eq_ok, vmUnmap_turns (pageRoundDown_mod va)]
  constructor
  · rintro ⟨s₁, hwrite, s₂, hfree, k', hunmap, hret⟩
    have hsame := writeBack_same hwrite
    obtain ⟨hs₂, hfree'⟩ := freeVfile_congr hsame.store hfree
    have hk : s₂.kernel = s.kernel := by rw [hs₂, ← hsame.kernel]
    have hvm : s₂.vm = s.vm := by rw [hs₂, ← hsame.vm]
    cases Except.ok.inj hret
    rw [hk] at hunmap
    refine ⟨rfl, s₁, k', hwrite, hfree', hunmap, ?_⟩
    rw [hvm, hs₂]
  · rintro ⟨rfl, s₁, k', hwrite, hfree, hunmap, hs'⟩
    have hsame := writeBack_same hwrite
    refine ⟨s₁, hwrite, { s₁ with store := s'.store }, ?_, k', ?_, ?_⟩
    · cases hf : (s.vm i).vfile with
      | none =>
        rw [hf] at hfree
        have := congrArg MmapState.store (Except.ok.inj hfree)
        simp only at this
        rw [← this, ← hsame.store]
        rfl
      | some f =>
        rw [hf] at hfree
        obtain ⟨store, hst, hret⟩ := bind_eq_ok.mp hfree
        have := congrArg MmapState.store (Except.ok.inj hret)
        simp only at this
        rw [freeVfile, hsame.store, hst, ok_bind, this]
        rfl
    · simp only [hsame.kernel]
      exact hunmap
    · simp only [hsame.vm]
      rw [← hs']
      rfl

end

end MmapState

section

variable {reg : Region} {arch : Arch} {hw : reg.InWindow arch} {B : Blocks} {A : AddrSpace}
  {s s' : MmapState BuddyAllocator} {va len : Nat} {i : Fin maxVmaNum}

theorem AreasOk.lt (h : AreasOk arch A s) (hu : (s.vm i).isUsed = true) :
    (s.vm i).address < 2 ^ 64 := by
  have := h.inUser i hu
  have hle : arch.vaPages ≤ 2 ^ 36 := by cases arch <;> decide
  omega

/-- The pages of an area that starts at a page. -/
theorem AreasOk.page (h : AreasOk arch A s) (hu : (s.vm i).isUsed = true)
    (hal : (s.vm i).address % 4096 = 0) :
      (s.vm i).address / 4096 + (s.vm i).pageCount ≤ arch.vaPages := by
  have := h.inUser i hu
  unfold MmapVma.pageCount
  omega

/-- The call removes the area that it finds. -/
theorem AreaUnmapped.fits (P : HeldPages hw s.kernel B A) (hok : AreasOk arch A s)
    (hfind : s.findVma (pageRoundDown va) = some i)
    (hrun : s.munmap arch buddyPages ⟨A.root, true⟩ va len = .ok (0, s')) {j : Fin maxVmaNum}
    (hused : (s.vm j).isUsed = true) (haddr : (s.vm j).address = pageRoundDown va)
    (h : AreaUnmapped arch buddyPages ⟨A.root, true⟩ s s' j ((len + 4095) / 4096)) :
    FitsArea arch buddyPages ⟨A.root, true⟩ s i len := by
  obtain ⟨-, s₁, k', hwrite, -, hunmap, hs'⟩ := (MmapState.munmap_found hfind).mp hrun
  have hvm : s'.vm = Function.update s.vm i { s.vm i with isUsed := false, address := 0 } := by
    rw [hs']
  have hkernel : s'.kernel = k' := by rw [hs']
  have hnonnull := hok.nonnull j hused
  -- the entry that is changed is the one that the request is about
  obtain rfl : i = j := by
    by_contra hne
    have hsame := h.others i hne
    rw [hvm, Function.update_self] at hsame
    have haddr0 := congrArg (fun v => v.address) hsame
    simp only at haddr0
    rw [MmapState.findVma_address hfind, ← haddr] at haddr0
    exact hnonnull haddr0.symm
  have hal : (s.vm i).address % 4096 = 0 := by
    rw [haddr]
    exact MmapState.pageRoundDown_mod va
  have hlt := hok.lt hused
  rw [← haddr] at hwrite hunmap
  generalize hn : MmapState.turns (s.vm i).address (pageRoundUp len) = n at hunmap
  have hwhole : (s.vm i).pageCount ≤ (len + 4095) / 4096 := by
    by_contra hpart
    have hrest := h.rest
    rw [if_neg hpart, hvm, Function.update_self] at hrest
    have hflag := congrArg (fun v => v.isUsed) hrest
    simp only [hused] at hflag
    cases hflag
  have hpages := h.pages
  rw [min_eq_right hwhole, hkernel] at hpages
  have hrange := hok.page hused hal
  have hend := MmapState.turns_le (s.vm i).address (pageRoundUp len) hlt
  rw [hn] at hend
  rcases P.loop n hal hend with
      ⟨e, hfault⟩ | ⟨k₂, B₂, A₂, hrun₂, hroot, P₂, hall, hiff⟩
  · rw [hfault] at hunmap
    cases hunmap
  obtain rfl := Except.ok.inj (hrun₂.symm.trans hunmap)
  -- a page is not mapped afterwards if it is one of the area, or was not mapped before
  have hmap : ∀ w < arch.vaPages, A₂.map w = none ↔
      ((s.vm i).address ≤ 4096 * w ∧
        4096 * w < (s.vm i).address + 4096 * (s.vm i).pageCount) ∨ A.map w = none := by
    intro w hwlt
    have hentry := hpages w hwlt
    rw [← P₂.entryOf_zero w hwlt, ← P.entryOf_zero w hwlt, hroot, hentry]
    split
    · next hin => exact iff_of_true rfl (.inl hin)
    · next hin => exact ⟨.inr, fun hor => hor.resolve_left hin⟩
  have hinside : n ≤ (s.vm i).pageCount := by
    by_contra hgt
    have hpos : 0 < arch.vaPages := Arch.vaPages_pos arch
    have hlast : MmapState.turns (s.vm i).address (pageRoundUp len) = n := hn
    have hmapped := hall (s.vm i).pageCount (by omega)
    have hgone := (hiff (walkPage arch ((s.vm i).address + 4096 * (s.vm i).pageCount))).mpr
      (.inr ⟨_, by omega, rfl⟩)
    have hwlt : walkPage arch ((s.vm i).address + 4096 * (s.vm i).pageCount) < arch.vaPages :=
      Nat.mod_lt _ hpos
    obtain ⟨hl, hu⟩ := ((hmap _ hwlt).mp hgone).resolve_right hmapped
    have hdiv : ((s.vm i).address + 4096 * (s.vm i).pageCount) / 4096 =
        (s.vm i).address / 4096 + (s.vm i).pageCount := by omega
    unfold walkPage at hl hu
    rw [hdiv] at hl hu
    rcases Nat.eq_or_lt_of_le hrange with he | hlt'
    · rw [he, Nat.mod_self] at hl
      exact hnonnull (Nat.le_zero.mp hl)
    · rw [Nat.mod_eq_of_lt hlt'] at hu
      omega
  have hwalk : ∀ l < (s.vm i).pageCount, walkPage arch ((s.vm i).address + 4096 * l) =
      (s.vm i).address / 4096 + l := by
    intro l hl
    unfold walkPage
    rw [show ((s.vm i).address + 4096 * l) / 4096 = (s.vm i).address / 4096 + l by omega]
    exact Nat.mod_eq_of_lt (by omega)
  have hmapped : ∀ l < (s.vm i).pageCount,
      ValidLeaf arch buddyPages s.kernel ⟨A.root, true⟩ ((s.vm i).address + 4096 * l) ↔
        l < n := by
    intro l hl
    rw [show (s.vm i).address + 4096 * l =
      4096 * ((s.vm i).address / 4096 + l) by omega, P.validLeaf_iff _ (by omega)]
    constructor
    · intro hm
      have hgone := (hmap _ (show (s.vm i).address / 4096 + l < arch.vaPages by omega)).mpr
        (.inl ⟨by omega, by omega⟩)
      obtain ⟨j', hj', he⟩ := ((hiff _).mp hgone).resolve_left hm
      rw [hwalk j' (by omega)] at he
      omega
    · intro hl'
      have hm := hall l hl'
      rwa [hwalk l hl] at hm
  refine ⟨hused,
    hwhole, by rw [hn]; exact hinside, by rw [hn]; exact hmapped, fun hshared => ?_⟩
  by_cases hlen : (s.vm i).length ≤ 0
  · exact .inl hlen
  right
  have hint := hok.int i hused
  obtain ⟨calls, hwritten, hback⟩ := MmapState.writeBack_spec hlt
    (by rw [hn]; unfold MmapVma.pageCount at hinside; omega) hwrite
  obtain ⟨calls', hwritten', -, hoverlay⟩ := h.written
  obtain rfl : calls' = calls := by
    have hsame : s'.written = s₁.written := by rw [hs']
    rw [hsame, hwritten] at hwritten'
    exact (List.append_cancel_left hwritten').symm
  have hsome : ∀ x, x < (s.vm i).length.toNat ↔ MmapState.Writes s (s.vm i) ∧
      x < 4096 * n := by
    intro x
    rw [← hn, ← hback.isSome x, hoverlay x]
    by_cases hx : x < (s.vm i).length.toNat
    · rw [if_pos ⟨hshared, hx⟩]
      exact iff_of_true hx rfl
    · rw [if_neg fun hh => hx hh.2]
      exact iff_of_false hx (by simp)
  obtain ⟨⟨f, hf, hflags, -, hacc⟩, hlast⟩ :=
    (hsome ((s.vm i).length.toNat - 1)).mp (by omega)
  refine ⟨hflags, fun f' hf' => ?_, ?_⟩
  · obtain rfl := Option.some.inj (hf.symm.trans hf')
    exact hacc
  · have hpast := mt (hsome (s.vm i).length.toNat).mpr (Nat.lt_irrefl _)
    have hle : ¬(s.vm i).length.toNat < 4096 * n :=
      fun hlt' => hpast ⟨((hsome 0).mp (by omega)).1, hlt'⟩
    rw [hn]
    omega

/-- An area that fits the request is removed. -/
theorem FitsArea.unmapped (P : HeldPages hw s.kernel B A) (hok : AreasOk arch A s)
    (hfind : s.findVma (pageRoundDown va) = some i)
    (h : FitsArea arch buddyPages ⟨A.root, true⟩ s i len) :
    ∃ s', s.munmap arch buddyPages ⟨A.root, true⟩ va len = .ok (0, s') ∧
      AreaUnmapped arch buddyPages ⟨A.root, true⟩ s s' i ((len + 4095) / 4096) := by
  have haddr := MmapState.findVma_address hfind
  have hal : (s.vm i).address % 4096 = 0 := by
    rw [haddr]
    exact MmapState.pageRoundDown_mod va
  have hlt := hok.lt h.used
  have hrange := hok.page h.used hal
  obtain ⟨hused, hwhole, hinside, hmapped, hbytes⟩ := h
  generalize hn : MmapState.turns (s.vm i).address (pageRoundUp len) = n at hinside hmapped hbytes
  have hvalid : ∀ j < n, ValidLeaf arch buddyPages s.kernel ⟨A.root, true⟩
      ((s.vm i).address + 4096 * j) :=
    fun j hj => (hmapped j (by omega)).mpr hj
  have hmap : ∀ l < (s.vm i).pageCount, A.map ((s.vm i).address / 4096 + l) ≠ none ↔
      l < n := by
    intro l hl
    rw [← P.validLeaf_iff _ (by omega), ← hmapped l hl,
      show (s.vm i).address + 4096 * l = 4096 * ((s.vm i).address / 4096 + l) by omega]
  -- the three calls
  obtain ⟨s₁, hwrite⟩ : ∃ s₁, s.writeBack arch buddyPages ⟨A.root, true⟩ (s.vm i)
      (s.vm i).address (pageRoundUp len) = .ok s₁ := by
    refine MmapState.writeBack_runs hlt (fun f hf => ?_) fun j hj => ?_
    · obtain ⟨o, ho, -⟩ := hok.file i hused f hf
      exact ⟨o, ho⟩
    · rw [hn] at hj
      exact ⟨_, P.kwalkAddr (by omega) (hvalid j hj)⟩
  obtain ⟨store, hfree⟩ := MmapState.freeVfile_runs (s := s) (hok.file i hused)
  have hheld : ∀ w, (s.vm i).address / 4096 ≤ w → w < (s.vm i).address / 4096 + n →
      A.pages w ≠ none := by
    intro w hl hu
    refine hok.held i hused w (by omega) ?_ ?_
    · have hlen : (s.vm i).pageCount = ((s.vm i).length.toNat + 4095) / 4096 := rfl
      omega
    · have hm := (hmap (w - (s.vm i).address / 4096) (by omega)).mpr (by omega)
      rwa [show (s.vm i).address / 4096 + (w - (s.vm i).address / 4096) = w by omega] at hm
  have hpages36 : arch.vaPages ≤ 2 ^ 36 := by cases arch <;> decide
  obtain ⟨k', B', hunmap, P'⟩ := P.release (v := (s.vm i).address / 4096) (n := n)
    ⟨Nat.zero_le _, by omega, by omega⟩ (by omega) hheld
  rw [show 4096 * ((s.vm i).address / 4096) = (s.vm i).address by omega] at hunmap
  refine ⟨{ s₁ with
    store := store
    vm := Function.update s.vm i { s.vm i with isUsed := false, address := 0 }
    kernel := k' }, (MmapState.munmap_found hfind).mpr ⟨rfl, s₁, k', ?_, hfree, ?_, rfl⟩,
    fun w hwlt => ?_, ?_,
    fun j hj => Function.update_of_ne hj _ _, hfree, ?_⟩
  · rw [← haddr]
    exact hwrite
  · rw [← haddr, hn]
    exact hunmap
  · have hentry : entryOf arch buddyPages k' ⟨A.root, true⟩ (4096 * w) =
        (((A.unmap ((s.vm i).address / 4096) n).map w).map (·.data arch)).getD 0 :=
        P'.entryOf w hwlt
    simp only
    rw [hentry, P.entryOf w hwlt, min_eq_right hwhole]
    by_cases hin : (s.vm i).address / 4096 ≤ w ∧ w < (s.vm i).address / 4096 + n
    · rw [show (A.unmap ((s.vm i).address / 4096) n).map w = none from if_pos hin,
        if_pos ⟨by omega, by omega⟩]
      rfl
    · rw [show (A.unmap ((s.vm i).address / 4096) n).map w = A.map w from if_neg hin]
      split
      · next harea =>
        -- a page of the area that the loop does not come to is not mapped
        have hm := mt (hmap (w - (s.vm i).address / 4096) (by omega)).mp (by omega)
        rw [show (s.vm i).address / 4096 + (w - (s.vm i).address / 4096) =
          w by omega, not_not] at hm
        rw [hm]
        rfl
      · rfl
  · rw [if_pos hwhole]
    simp only [Function.update_self]
  · have hint := hok.int i hused
    obtain ⟨calls, hwritten, hback⟩ := MmapState.writeBack_spec hlt
      (by rw [hn]; unfold MmapVma.pageCount at hinside; omega) hwrite
    refine ⟨calls, hwritten, hback.file, fun x => ?_⟩
    have hnone : ¬(MmapState.Writes s (s.vm i) ∧ x < 4096 * n) →
        NodeWrite.overlay calls x = none := by
      intro hno
      rw [← hn, ← hback.isSome x] at hno
      simpa using hno
    split
    · next hx =>
      obtain ⟨hflags, haccepts, hlen⟩ := (hbytes hx.1).resolve_left (by omega)
      obtain ⟨hfile, -, hprot⟩ := hx.1
      obtain ⟨f, hf⟩ := Option.ne_none_iff_exists'.mp hfile
      exact hback.byte P hal (by rw [hn]; exact hvalid) ⟨f, hf, hflags, hprot, haccepts f hf⟩
        (by rw [hn]; omega)
    · next hx =>
      apply hnone
      rintro ⟨⟨f, hf, hflags, hprot, -⟩, hlt'⟩
      have hshared : (s.vm i).SharedWritable := by
        refine ⟨by rw [hf]; exact Option.some_ne_none f, ?_, hprot⟩
        rw [hflags]
        decide
      rcases hbytes hshared with hlen | ⟨-, -, hlen⟩
      · have hzero : (s.vm i).pageCount = 0 := by
          unfold MmapVma.pageCount
          omega
        omega
      · exact hx ⟨hshared, by omega⟩

end

/-- `munmap` removes a live mapping, or returns -1 and changes nothing, if and only if the first
area with the address, in use or not, fits the request. -/
theorem munmap_live_iff {ι : Type} (reg : Region) (arch : Arch) (hw : reg.InWindow arch)
    (B : Blocks) (Base : Nat → Nat → Prop) (W : Spaces ι) (s : MmapState BuddyAllocator)
    (H : World reg arch s.kernel B Base W)
    (i : ι) (A : AddrSpace) (hi : W i = some A) (hb : A.base = 0) (ho : A.Owned reg arch)
    (hok : AreasOk arch A s)
    (va len : Nat) :
    RemovesLive arch buddyPages ⟨A.root, true⟩ s va len ↔
      ∀ j, s.findVma (pageRoundDown va) = some j →
        FitsArea arch buddyPages ⟨A.root, true⟩ s j len := by
  have P : HeldPages hw s.kernel B A := H.heldPages hi hb ho
  constructor
  · rintro ⟨r, s', hrun, hres⟩ j hfind
    have hr := ((MmapState.munmap_found hfind).mp hrun).1
    rcases hres with ⟨-, l, hused, haddr, hunmapped⟩ | ⟨hr', -⟩
    · rw [hr] at hrun
      exact hunmapped.fits P hok hfind hrun hused haddr
    · rw [hr] at hr'
      cases hr'
  · intro hfits
    cases hfind : s.findVma (pageRoundDown va) with
    | none =>
      refine ⟨-1, s, ?_, .inr ⟨rfl, rfl⟩⟩
      unfold MmapState.munmap
      simp only [hfind]
    | some j =>
      have hfit := hfits j hfind
      obtain ⟨s', hrun, hunmapped⟩ := hfit.unmapped P hok hfind
      exact ⟨0, s', hrun, .inl ⟨rfl, j, hfit.used, MmapState.findVma_address hfind,
        hunmapped⟩⟩

/-- A process without files whose first area is the given one, and the only one in use. -/
def sampleAreas (k : Kernel BuddyAllocator) (v : MmapVma) : MmapState BuddyAllocator :=
  ⟨k, fun i => if i.val = 0 then v else ⟨⟨false, 0, 0, none⟩, 0, 0⟩,
    ⟨fun _ => none, fun _ => none⟩,
    fun _ => ⟨false, 0⟩, []⟩

theorem sampleAreas_used {k : Kernel BuddyAllocator} {v : MmapVma} {i : Fin maxVmaNum}
    (h : ((sampleAreas k v).vm i).isUsed = true) : (sampleAreas k v).vm i = v := by
  unfold sampleAreas at h ⊢
  simp only at h ⊢
  split at h
  · next hi => exact if_pos hi
  · cases h

/-- One page of an area without a file, at 0x10000. -/
def sampleArea : MmapVma := ⟨⟨true, 0x10000, 4096, none⟩, 3, 2⟩

theorem munmap_live_sample : ∃ (k : Kernel BuddyAllocator) (pt : PageTable),
    RemovesLive .riscv buddyPages pt (sampleAreas k sampleArea) 0x10010 100 := by
  obtain ⟨k, B, Base, A, q, H, hb, ho, hq, hmap⟩ := sample_user 16 (by decide)
  have hok : AreasOk .riscv A (sampleAreas k sampleArea) := by
    refine ⟨fun i hi => ?_, fun i hi => ?_, fun i hi => ?_, fun i hi w hl hu _ => ?_,
      fun i hi f hf => ?_⟩
    · rw [sampleAreas_used hi]
      decide
    · rw [sampleAreas_used hi]
      decide
    · rw [sampleAreas_used hi]
      decide
    · rw [sampleAreas_used hi] at hl hu
      simp only [sampleArea] at hl hu
      rw [show w = 16 by omega, hq]
      exact Option.some_ne_none q
    · rw [sampleAreas_used hi] at hf
      cases hf
  refine ⟨k, ⟨A.root, true⟩,
    (munmap_live_iff sampleRegion .riscv sampleRegion_inWindow B Base _
    (sampleAreas k sampleArea) H () A rfl hb ho hok 0x10010 100).mpr fun j hj => ?_⟩
  have haddr := MmapState.findVma_address hj
  have hvm : (sampleAreas k sampleArea).vm j = sampleArea := by
    unfold sampleAreas at haddr ⊢
    simp only at haddr ⊢
    split at haddr
    · next h0 => exact if_pos h0
    · exact absurd haddr (by decide)
  refine ⟨by rw [hvm]; rfl, by rw [hvm]; decide, by rw [hvm]; decide, fun l hl => ?_,
    fun hshared => ?_⟩
  · rw [hvm] at hl ⊢
    obtain rfl : l = 0 := by
      have : sampleArea.pageCount = 1 := by decide
      omega
    refine iff_of_true ?_ (by decide)
    refine (H.valid_iff (i := ()) rfl hb).mpr ?_
    rw [show (sampleArea.address + 4096 * 0) / 4096 % Arch.vaPages .riscv = 16 from rfl, hmap]
    exact Option.some_ne_none _
  · rw [hvm] at hshared
    exact absurd rfl hshared.1

/-- An entry that was never used. -/
def unusedArea : MmapVma := ⟨⟨false, 0, 0, none⟩, 0, 0⟩

/-- In a process without areas a request at the null address, where the entries that are not in use
are, works. -/
theorem munmap_null : ∃ (k : Kernel BuddyAllocator) (B : Blocks) (Base : Nat → Nat → Prop)
    (A : AddrSpace), World sampleRegion .riscv k B Base (fun _ : Unit => some A) ∧ A.base = 0 ∧
      A.Owned sampleRegion .riscv ∧ AreasOk .riscv A (sampleAreas k unusedArea) ∧
      ¬RemovesLive .riscv buddyPages ⟨A.root, true⟩ (sampleAreas k unusedArea) 0 0 := by
  obtain ⟨k, B, Base, A, q, H, hb, ho, -⟩ := sample_user 16 (by decide)
  have hunused : ∀ i, ((sampleAreas k unusedArea).vm i).isUsed ≠ true := by
    intro i hi
    have hv := sampleAreas_used hi
    rw [hv] at hi
    cases hi
  refine ⟨k, B, Base, A, H, hb, ho,
    ⟨fun i hi => absurd hi (hunused i), fun i hi => absurd hi (hunused i),
    fun i hi => absurd hi (hunused i), fun i hi => absurd hi (hunused i), fun i hi =>
    absurd hi (hunused i)⟩, ?_⟩
  rintro ⟨r, s', hrun, ⟨-, i, hused, -⟩ | ⟨hr, -⟩⟩
  · exact hunused i hused
  · cases hfind : (sampleAreas k unusedArea).findVma (pageRoundDown 0) with
    | none =>
      have hfirst := List.find?_eq_none.mp hfind ⟨0, by decide⟩ (List.mem_finRange _)
      exact hfirst rfl
    | some j =>
      rw [((MmapState.munmap_found hfind).mp hrun).1] at hr
      cases hr

end OsKernel.Pm

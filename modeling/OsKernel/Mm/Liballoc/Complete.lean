import OsKernel.Mm.Liballoc.Invariant

/-! The search of `malloc` misses no gap. -/

namespace OsKernel.Mm.Liballoc

variable {σ : Type} {src : PageSource σ} {h : LAllocator} {s : σ}

/-- What a caller may rely on when `malloc` returns. -/
structure SearchComplete (src : PageSource σ) (h : LAllocator) (s : σ) (size : Nat)
    (run : MallocRun σ) : Prop where
  /-- Null means that the base allocator has refused a chunk and that no chunk has a gap. -/
  null : run.ptr = none → (∃ s', src.allocPages s (chunkPages size) = (none, s')) ∧
    ∀ maj ∈ h.chunks, ¬HasGap maj (size + sizeofMinor)
  /-- A new chunk gets the block. -/
  fresh : ∀ a, some a ∈ run.asked → run.ptr = some (a + sizeofMajor + sizeofMinor)
  asked : run.asked.length ≤ 1
  visits : VisitsTwice h run
  twice : ∀ a, run.visits.count a ≤ 2

theorem Refuses.no_gap {maj : LTagMajor} {n size req : Nat} (ok : ChunkOk maj n)
    (hr : Refuses maj size req) : ¬HasGap maj (size + sizeofMinor) := by
  rcases hr with hdiff | hnone
  · exact ok.no_gap hdiff
  · exact place_none ok hnone

theorem VisitsTwice.count {run : MallocRun σ} (hv : VisitsTwice h run)
    (hn : (addrs run.heap).Nodup) (a : Nat) : run.visits.count a ≤ 2 := by
  obtain ⟨front, bet, root, hvisits, hbet, -, hroot⟩ := hv
  have hnbet : bet.Nodup := (hn.sublist hbet.sublist).sublist (List.sublist_append_right front bet)
  have hnroot : root.Nodup := hn.sublist hroot.sublist
  have h1 := List.nodup_iff_count.mp hnbet a
  have h2 := List.nodup_iff_count.mp hnroot a
  rw [hvisits, List.count_append]
  omega

theorem chunkPages_le {reqSize : Int} (hreq : 0 < reqSize)
    (hsize : reqSize + sizeofMajor + sizeofMinor < 2 ^ 32) :
      chunkPages (sizeAlign reqSize.toNat) ≤ 2 ^ 20 := by
  have htags := tags
  unfold chunkPages sizeAlign
  omega

/-- Every `malloc` in a heap that calls have made ends within two turns for each chunk and
one more. -/
theorem malloc_complete (hr : Reached src (2 ^ 20) (h, s)) (reqSize : Int) (hreq : 0 < reqSize)
    (hsize : reqSize + sizeofMajor + sizeofMinor < 2 ^ 32) :
    ∃ run, (∀ fuel, 2 * h.chunks.length + 1 ≤ fuel →
      malloc src fuel h s reqSize = .ok (some run)) ∧
      SearchComplete src h s (sizeAlign reqSize.toNat) run := by
  have I := hr.inv (Nat.le_refl _)
  have hpages := chunkPages_le hreq hsize
  obtain ⟨run, hrun, hout, hvisits⟩ := malloc_spec I hreq hpages
  have I' := hout.inv I (Nat.le_refl _) hpages (sizeAlign_block (by omega) hpages)
  refine ⟨run, hrun, ?_, ?_, ?_, hvisits, hvisits.count I'.nodup⟩
  · intro hnull
    cases hout with
    | placed => cases hnull
    | fresh => cases hnull
    | refused hall halloc hb =>
      refine ⟨⟨_, halloc⟩, fun maj hm => ?_⟩
      obtain ⟨n, -, -, ok⟩ := I.chunks maj hm
      exact (hall maj hm).no_gap ok
  · intro a ha
    cases hout with
    | placed => cases ha
    | fresh =>
      cases List.mem_singleton.mp ha
      rfl
    | refused => cases List.mem_singleton.mp ha
  · cases hout with
    | placed => exact Nat.zero_le _
    | fresh => exact Nat.le_refl _
    | refused => exact Nat.le_refl _

/-- The runs of 16 pages of a base allocator that has two. -/
def sampleRun (i : Fin 2) : Nat := 4096 + 65536 * i

theorem sampleRun_inj {i j : Fin 2} (h : sampleRun i = sampleRun j) : i = j := by
  unfold sampleRun at h
  omega

/-- A base allocator that has two runs of 16 pages, each of which is held or not. -/
def sampleSource : PageSource (Fin 2 → Bool) where
  allocPages s n :=
    match (List.finRange 2).find? fun i => n = 16 ∧ s i = false with
    | none => (none, s)
    | some i => (some (sampleRun i), Function.update s i true)
  freePages s a i := if a = sampleRun i then false else s i
  held s a := if ∃ i, a = sampleRun i ∧ s i = true then some 16 else none
  held_run {s a n} h := by
    split at h
    · rename_i hi
      obtain ⟨i, rfl, -⟩ := hi
      cases h
      unfold sampleRun
      omega
    · cases h
  apart {s a b n m} h h' hne := by
    split at h
    · rename_i hi
      obtain ⟨i, rfl, -⟩ := hi
      split at h'
      · rename_i hj
        obtain ⟨j, rfl, -⟩ := hj
        cases h
        cases h'
        unfold sampleRun at *
        omega
      · cases h'
    · cases h
  alloc_some {s s' n a} _ h := by
    split at h
    · cases h
    · rename_i i hfind
      cases h
      obtain ⟨rfl, hi⟩ : n = 16 ∧ s i = false := by simpa using List.find?_some hfind
      have hfree : ¬∃ j, sampleRun i = sampleRun j ∧ s j = true := by
        rintro ⟨j, hij, hj⟩
        obtain rfl := sampleRun_inj hij
        rw [hi] at hj
        cases hj
      refine ⟨if_neg hfree, funext fun b => ?_⟩
      rw [Function.update_apply]
      by_cases hb : b = sampleRun i
      · rw [if_pos hb]
        exact if_pos ⟨i, hb, Function.update_self ..⟩
      · rw [if_neg hb]
        refine if_congr (exists_congr fun j => and_congr_right fun hj => ?_) rfl rfl
        have hji : j ≠ i := by
          rintro rfl
          exact hb hj
        rw [Function.update_of_ne hji]
  alloc_none {s s' n} h := by
    split at h
    · cases h
      rfl
    · cases h
  free_held s a := by
    funext b
    rw [Function.update_apply]
    by_cases hb : b = a
    · rw [if_pos hb]
      refine if_neg ?_
      rintro ⟨i, rfl, hi⟩
      simp only [hb, if_true, Bool.false_eq_true] at hi
    · rw [if_neg hb]
      refine if_congr (exists_congr fun j => and_congr_right fun hj => ?_) rfl rfl
      have hne : a ≠ sampleRun j := fun h => hb (hj.trans h.symm)
      simp only [if_neg hne]

/-- The heap after requests for 65000 and 60000 bytes, each of which takes a chunk of its own. -/
theorem sampleSource_chunks : ∃ r₁ r₂,
    malloc sampleSource 1 (.init fun _ => 0) (fun _ => false) 65000 = .ok (some r₁) ∧
      malloc sampleSource 3 r₁.heap r₁.source 60000 = .ok (some r₂) ∧
      r₂.heap.chunks.map LTagMajor.addr = [4096, 69632] ∧
      Reached sampleSource (2 ^ 20) (r₂.heap, r₂.source) := by
  obtain ⟨r₁, r₂, h₁, h₂, haddrs⟩ : ∃ r₁ r₂,
      malloc sampleSource 1 (.init fun _ => 0) (fun _ => false) 65000 = .ok (some r₁) ∧
        malloc sampleSource 3 r₁.heap r₁.source 60000 = .ok (some r₂) ∧
        r₂.heap.chunks.map LTagMajor.addr = [4096, 69632] := ⟨_, _, rfl, rfl, rfl⟩
  have hr₁ : Reached sampleSource (2 ^ 20) (r₁.heap, r₁.source) :=
    .step (.init _ _) (.malloc (by decide) h₁)
  exact ⟨r₁, r₂, h₁, h₂, haddrs, hr₁.step (.malloc (by decide) h₂)⟩

/-- A request for 5000 bytes, for which one of the two chunks has room, and no third can be had. -/
theorem malloc_complete_sample : ∃ h s run, h.chunks.map LTagMajor.addr = [4096, 69632] ∧
    malloc sampleSource 5 h s 5000 = .ok (some run) ∧
      SearchComplete sampleSource h s 5000 run := by
  obtain ⟨-, r₂, -, -, haddrs, hr⟩ := sampleSource_chunks
  have hlen := congrArg List.length haddrs
  rw [List.length_map] at hlen
  obtain ⟨run, hrun, hc⟩ := malloc_complete hr 5000 (by decide) (by decide)
  exact ⟨_, _, run, haddrs, hrun 5 (by rw [hlen]; decide), hc⟩

end OsKernel.Mm.Liballoc

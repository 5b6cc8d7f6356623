import OsKernel.Fs.Fat.Model

/-! `Fat32Inode::init` and the cluster chains of the FAT.  It takes the entry behind the one that it
has just read for the next one, so the list is the chain only where the chain runs through
consecutive entries. -/

namespace OsKernel.Fs.Fat

open Lib Hsai

/-- The FAT entry of a cluster. -/
def Fat32FS.fatEntry (fs : Fat32FS) (disk : Mem) (cluster : Nat) : Nat :=
  disk.read (defaultSectorSize * fs.startLba + fs.bytesPerSector * fs.reservedSectors + 4 * cluster)
    4

/-- The chain of a cluster, up to the one whose entry is an end marker. -/
inductive Chain (fat : Nat → Nat) : Nat → List Nat → Prop where
  | last {c : Nat} : fatIsEnd (fat c) = true → Chain fat c [c]
  | next {c : Nat} {l : List Nat} : fatIsEnd (fat c) = false → Chain fat (fat c) l →
    Chain fat c (c :: l)

namespace Chain

variable {fat : Nat → Nat} {c : Nat} {l : List Nat}

theorem exists_cons (h : Chain fat c l) : ∃ rest, l = c :: rest := by
  cases h with
  | last _ => exact ⟨[], rfl⟩
  | next _ _ => exact ⟨_, rfl⟩

/-- The entries of a chain after the first cluster are no end markers. -/
theorem not_end (h : Chain fat c l) : ∀ d ∈ l.tail, fatIsEnd d = false := by
  induction h with
  | last _ =>
    intro d hd
    cases hd
  | @next c l hc hl ih =>
    intro d hd
    rw [List.tail_cons] at hd
    obtain ⟨rest, rfl⟩ := hl.exists_cons
    rcases List.mem_cons.mp hd with rfl | hd
    · exact hc
    · exact ih d hd

end Chain

section

variable (fs : Fat32FS) (disk : Mem) (c : Nat)

/-- The place of the first entry that `init` reads, from the start of the sector that it
asks for. -/
def entryOff : Nat := 4 * (c % (fs.bytesPerSector / 4))

/-- The sector. -/
def entryLba : Nat := fs.fatLba + c / (fs.bytesPerSector / 4)

/-- The entry `j` entries behind the first one that `init` reads. -/
def entryBehind (j : Nat) : Nat :=
  disk.read (defaultSectorSize * entryLba fs c + entryOff fs c + 4 * j) 4

/-- The chain `l` runs through consecutive entries in one buffer: the entry behind the one of a
cluster has the next cluster, and the last of them is an end marker. -/
structure Consecutive (l : List Nat) : Prop where
  inBuffer : defaultSectorSize * (entryLba fs c % 8) + entryOff fs c + 4 * l.length ≤
    defaultBufferSize
  next : ∀ j d, l[j + 1]? = some d → entryBehind fs disk c j = d
  last : fatIsEnd (entryBehind fs disk c (l.length - 1)) = true

end

/-! ### The loop -/

/-- The loop stops at the first end marker. -/
theorem clusterLoop_iff {word : Nat → Except Fault Nat} {W : Nat → Nat} {b : Nat}
    (hword : ∀ q, word q = if q < b then .ok (W q)
      else .error (.undefined "access outside the buffer"))
    (turns p i : Nat) (l l' : List Nat) : Fat32Inode.clusterLoop word turns p i l =
      .ok (l', true) ↔ ∃ m, m < turns ∧ p + m < b ∧ fatIsEnd (W (p + m)) = true ∧
        (∀ j < m, fatIsEnd (W (p + j)) = false) ∧ l' = l ++ i :: (List.range m).map fun j =>
          W (p + j) := by
  induction turns generalizing p i l with
  | zero =>
    constructor
    · intro h
      cases h
    · rintro ⟨m, hm, -⟩
      omega
  | succ turns ih =>
    rw [Fat32Inode.clusterLoop, hword]
    by_cases hp : p < b
    · rw [if_pos hp, ok_bind]
      cases hend : fatIsEnd (W p) with
      | true =>
        rw [if_pos rfl]
        constructor
        · intro h
          cases h
          exact ⟨0, by omega, hp, hend, fun j hj => by omega, by simp⟩
        · rintro ⟨m, -, -, -, hnone, rfl⟩
          obtain rfl : m = 0 := by
            by_contra hne
            have h0 := hnone 0 (by omega)
            rw [Nat.add_zero, hend] at h0
            cases h0
          simp
      | false =>
        rw [if_neg (by decide), ih]
        constructor
        · rintro ⟨m, hm, hb, he, hnone, rfl⟩
          refine ⟨m + 1, by omega, by omega, ?_, ?_, ?_⟩
          · rwa [show p + (m + 1) = p + 1 + m by omega]
          · intro j hj
            cases j with
            | zero => exact hend
            | succ j =>
              rw [show p + (j + 1) = p + 1 + j by omega]
              exact hnone j (by omega)
          · simp [List.range_succ_eq_map, Nat.add_assoc, Nat.add_comm 1]
        · rintro ⟨m, hm, hb, he, hnone, rfl⟩
          cases m with
          | zero =>
            rw [Nat.add_zero, hend] at he
            cases he
          | succ m =>
            refine ⟨m, by omega, by omega, ?_, fun j hj => ?_, ?_⟩
            · rwa [show p + 1 + m = p + (m + 1) by omega]
            · rw [show p + 1 + j = p + (j + 1) by omega]
              exact hnone (j + 1) (by omega)
            · simp [List.range_succ_eq_map, Nat.add_assoc, Nat.add_comm 1]
    · rw [if_neg hp, error_bind]
      constructor
      · intro h
        cases h
      · rintro ⟨m, -, hb, -⟩
        omega

/-! ### The list -/

section

variable {fs : Fat32FS} {disk : Mem} {c : Nat} {l : List Nat}

/-- The list of the loop is the one with these successors. -/
theorem successors_iff {m : Nat} {W : Nat → Nat} {rest : List Nat} :
    c :: rest = c :: (List.range m).map W ↔ m = rest.length ∧ ∀ j d,
      (c :: rest)[j + 1]? = some d → W j = d := by
  constructor
  · intro h
    obtain rfl := List.tail_eq_of_cons_eq h
    refine ⟨by simp, fun j d hd => ?_⟩
    rw [List.getElem?_cons_succ, List.getElem?_map] at hd
    obtain ⟨i, hi, rfl⟩ := Option.map_eq_some_iff.mp hd
    obtain ⟨-, rfl⟩ := List.getElem?_eq_some_iff.mp hi
    simp
  · rintro ⟨rfl, h⟩
    refine congrArg (List.cons c) (List.ext_getElem (by simp) fun j hj _ => ?_)
    rw [List.getElem_map, List.getElem_range]
    refine (h j _ ?_).symm
    rw [List.getElem?_cons_succ, List.getElem?_eq_getElem hj]

theorem init_ok_iff (held : List Nat) (nodeType : Fat32NodeType) (size : Nat) :
    (∃ node held', Fat32Inode.init fs disk held c nodeType size = .ok (node, held') ∧
      node.clustersNumber = l) ↔
        Fat32Inode.clusterLoop ((readSync held (entryLba fs c)).1.word disk)
        (defaultBufferSize / 4 - c % (fs.bytesPerSector / 4)) (c % (fs.bytesPerSector / 4)) c [] =
          .ok (l, true) := by
  unfold Fat32Inode.init
  simp only
  change (∃ node held', (Fat32Inode.clusterLoop ((readSync held (entryLba fs c)).1.word disk)
    _ _ _ _ >>= _) = _ ∧ _) ↔ _
  cases hr : Fat32Inode.clusterLoop ((readSync held (entryLba fs c)).1.word disk)
    (defaultBufferSize / 4 - c % (fs.bytesPerSector / 4)) (c % (fs.bytesPerSector / 4)) c [] with
  | error e => simp
  | ok r =>
    obtain ⟨l', ended⟩ := r
    rw [ok_bind]
    cases ended with
    | false => simp [kassert]
    | true => simp [kassert]

/-- After `init` the list of clusters is the chain exactly where the chain runs through consecutive
entries in one buffer. -/
theorem init_chain_iff (fs : Fat32FS) (disk : Mem) (held : List Nat) (c : Nat) (l : List Nat)
    (hl : Chain (fs.fatEntry disk) c l) (nodeType : Fat32NodeType) (size : Nat) :
    (∃ node held', Fat32Inode.init fs disk held c nodeType size = .ok (node, held') ∧
      node.clustersNumber = l) ↔ Consecutive fs disk c l := by
  obtain ⟨rest, rfl⟩ := hl.exists_cons
  have hper : fs.bytesPerSector / 4 ≤ 1024 ∧ 0 < fs.bytesPerSector / 4 := by
    rcases fs.sector_ok with h | h | h | h <;> rw [h] <;> decide
  have hoff : c % (fs.bytesPerSector / 4) < 1024 := (Nat.mod_lt c hper.2).trans_le hper.1
  have hword : ∀ q, (readSync held (entryLba fs c)).1.word disk q = if q < 1024 - 128 *
      (entryLba fs c % 8) then
      .ok (disk.read (defaultSectorSize * entryLba fs c + 4 * q) 4)
        else .error (.undefined "access outside the buffer") := by
    intro q
    simp only [readSync, Buffer.word, defaultSectorSize, defaultBufferSize]
    have haddr : 4096 * (entryLba fs c / 8) + 512 * (entryLba fs c % 8) + 4 * q =
      512 * entryLba fs c + 4 * q := by omega
    rw [haddr]
    exact if_congr (by omega) rfl rfl
  have hbehind : ∀ j, disk.read
      (defaultSectorSize * entryLba fs c + 4 * (c % (fs.bytesPerSector / 4) + j)) 4 =
      entryBehind fs disk c j := by
    intro j
    rw [entryBehind, entryOff, Nat.mul_add, Nat.add_assoc]
  rw [init_ok_iff, clusterLoop_iff hword]
  simp only [hbehind, List.nil_append, successors_iff]
  constructor
  · rintro ⟨m, -, hb, hend, -, rfl, hnext⟩
    refine ⟨?_, hnext, hend⟩
    simp only [entryOff, defaultSectorSize, defaultBufferSize, List.length_cons]
    omega
  · rintro ⟨hb, hnext, hend⟩
    simp only [entryOff, defaultSectorSize, defaultBufferSize, List.length_cons] at hb
    refine ⟨rest.length, ?_, by omega, hend, fun j hj => ?_, rfl, hnext⟩
    · simp only [defaultBufferSize]
      omega
    · have hd : (c :: rest)[j + 1]? =
        some rest[j] := by rw [List.getElem?_cons_succ, List.getElem?_eq_getElem hj]
      rw [hnext j _ hd]
      exact hl.not_end _ (List.getElem_mem hj)

end

/-- A volume with clusters of 4096 bytes, whose FAT starts at the sector 8. -/
def sampleFs : Fat32FS where
  startLba := 0
  reservedSectors := 8
  fatCounts := 1
  sectorsPerFat := 8
  sectorsPerCluster := 8
  bytesPerSector := 512
  cluster_ok := ⟨3, by decide, rfl⟩
  sector_ok := .inl rfl

/-- A FAT with these entries from the cluster 2 on. -/
def sampleFat (entries : List Nat) : Mem :=
  fun x => UInt8.ofNat ((entries.getD ((x - 4104) / 4) 0) / 256 ^ (x % 4))

/-- A file in the clusters 2, 3 and 4. -/
theorem init_chain_sample : ∃ node held',
    Fat32Inode.init sampleFs (sampleFat [3, 4, 0x0FFFFFFF]) [] 2 .file 10000 = .ok (node, held') ∧
      node.clustersNumber = [2, 3, 4] := by
  refine (init_chain_iff sampleFs (sampleFat [3, 4, 0x0FFFFFFF]) [] 2 [2, 3, 4] ?_ .file 10000).mpr
    ?_
  · exact .next rfl (.next rfl (.last rfl))
  · refine ⟨by decide, fun j d hd => ?_, rfl⟩
    match j with
    | 0 =>
      cases hd
      rfl
    | 1 =>
      cases hd
      rfl
    | j + 2 => cases hd

/-- A file in the clusters 2 and 5, and one in 3 and 4: the first gets the cluster 4 of
the other. -/
theorem init_fragmented :
    Chain (sampleFs.fatEntry (sampleFat [5, 4, 0x0FFFFFFF, 0x0FFFFFFF])) 2 [2, 5] ∧
      Fat32Inode.init sampleFs (sampleFat [5, 4, 0x0FFFFFFF, 0x0FFFFFFF]) [] 2 .file 8192 =
        .ok (⟨2, .file, [2, 5, 4], 8192⟩, []) :=
  ⟨.next rfl (.last rfl), rfl⟩

end OsKernel.Fs.Fat

import OsKernel.Fs.Fat.InitSpec
import Mathlib.Tactic.IntervalCases
import Mathlib.Data.Finset.Card
import Mathlib.Order.Interval.Finset.Nat

/-! `Fat32Inode::read_content` and the bytes of a file.  One buffer is copied for each cluster, and
the offset counts in the first of them only, so a read is right where it stays in one buffer, or
where the clusters are the buffers. -/

namespace OsKernel.Fs.Fat

open Lib Hsai

section

variable (fs : Fat32FS)

/-- The bytes of a cluster. -/
def Fat32FS.clusterSize : Nat := fs.sectorsPerCluster * fs.bytesPerSector

/-- The first sector of the data area. -/
def Fat32FS.dataLba : Nat := fs.startLba + fs.reservedSectors + fs.sectorsPerFat * fs.fatCounts

/-- A list of clusters of a file: different data clusters of a volume with sectors of 512 bytes. -/
structure ClusterList (l : List Nat) : Prop where
  sectors : fs.bytesPerSector = 512
  volume : fs.dataLba < 2 ^ 63
  data : ∀ c ∈ l, 2 ≤ c
  bound : ∀ c ∈ l, c < 2 ^ 28
  nodup : l.Nodup

/-- The place on the device of the byte `x` of the clusters. -/
def bytePlace (l : List Nat) (x : Nat) : Nat :=
  defaultSectorSize * fs.clusterToLba (l.getD (x / fs.clusterSize) 0) + x % fs.clusterSize

/-- The `n` bytes from `off` on of the concatenation of the clusters. -/
def fileBytes (disk : Mem) (l : List Nat) (off n : Nat) : List UInt8 :=
  (List.range n).map fun j => disk (bytePlace fs l (off + j))

/-- The bytes that a read has to copy. -/
def readCount (l : List Nat) (len off : Nat) : Nat := min len (l.length * fs.clusterSize - off)

/-- The read copies the bytes of the file, whatever is on the device, and releases its buffers. -/
def ReadRight (node : Fat32Inode) (held : List Nat) (len off : Nat) (async : Bool) : Prop :=
  ∀ disk, Fat32Inode.readContent fs node disk held len off async =
    .ok (fileBytes fs disk node.clustersNumber off (readCount fs node.clustersNumber len off), held)

/-- A read in one buffer: it ends before the file does or starts with it, the bytes are in the
buffer of the first sector of its cluster, and the clusters that it touches follow each other. -/
structure InOneBuffer (l : List Nat) (len off : Nat) : Prop where
  clamp : len < l.length * fs.clusterSize - off ∨ off = 0
  inBuffer : defaultSectorSize * (fs.clusterToLba (l.getD (off / fs.clusterSize) 0) % 8) + off %
    fs.clusterSize + readCount fs l len off ≤ defaultBufferSize
  follow : ∀ t, fs.clusterSize * t < off % fs.clusterSize + readCount fs l len off →
    l.getD (off / fs.clusterSize + t) 0 = l.getD (off / fs.clusterSize) 0 + t

/-- A read of whole buffers: the clusters are the buffers, and the read starts with one. -/
structure WholeBuffers (off : Nat) : Prop where
  size : fs.clusterSize = defaultBufferSize
  start : off % defaultBufferSize = 0
  aligned : fs.dataLba % 8 = 0

end

/-! ### Units -/

section

variable {fs : Fat32FS} {disk : Mem} {held l : List Nat} {len off rest : Nat}

/-- A unit is in the buffer of the sector, or the access is outside it. -/
theorem copyUnit_eq (lba offset : Nat) :
    Fat32Inode.copyUnit disk (readSync held lba).1 offset rest =
    if min rest 4096 = 0 ∨ 512 * (lba % 8) + offset + min rest 4096 ≤ 4096 then
      .ok (disk.load (512 * lba + offset) (min rest 4096))
    else .error (.undefined "access outside the buffer") := by
  have hn : (if rest > defaultBufferSize then defaultBufferSize else rest) = min rest 4096 := by
    unfold defaultBufferSize
    split <;> omega
  have haddr : 4096 * (lba / 8) + 512 * (lba % 8) + offset = 512 * lba + offset := by omega
  rw [Fat32Inode.copyUnit, hn]
  simp only [Buffer.load, readSync, defaultBufferSize, defaultSectorSize, haddr]

theorem copyUnit_zero (buf : Buffer) (offset : Nat) :
    Fat32Inode.copyUnit disk buf offset 0 = .ok [] := by
  simp [Fat32Inode.copyUnit, Buffer.load, Mem.load]

@[simp] theorem release_readSync (held : List Nat) (lba : Nat) :
    releaseBufferSync (readSync held lba).2 (readSync held lba).1 = held := by
  simp [releaseBufferSync, readSync]

theorem readLoop_rest (clusters : List Nat) (out : List UInt8) :
    Fat32Inode.readLoop fs disk clusters held 0 out = .ok (out, held) := by
  cases clusters with
  | nil => rfl
  | cons c clusters => rw [Fat32Inode.readLoop, if_pos rfl]

/-- What the loop copies is behind the bytes copied so far. -/
theorem readLoop_prefix {clusters : List Nat} {out res : List UInt8} {held' : List Nat}
    (h : Fat32Inode.readLoop fs disk clusters held rest out = .ok (res, held')) : ∃ more,
      res = out ++ more := by
  induction clusters generalizing held rest out with
  | nil =>
    cases h
    exact ⟨[], by simp⟩
  | cons c clusters ih =>
    rw [Fat32Inode.readLoop] at h
    split at h
    · cases h
      exact ⟨[], by simp⟩
    · obtain ⟨bytes, -, h⟩ := bind_eq_ok.mp h
      obtain ⟨more, rfl⟩ := ih h
      exact ⟨bytes ++ more, by rw [List.append_assoc]⟩

/-- The first byte of the second of two parts. -/
theorem load_append_get (disk : Mem) (a b : Nat) {k : Nat} (tail : List UInt8) (n : Nat)
    (hk : 0 < k) : (disk.load a n ++ (disk.load (b + 0) k ++ tail))[n]? = some (disk b) := by
  rw [List.getElem?_append_right (by rw [Mem.load_length]), Mem.load_length, Nat.sub_self,
    List.getElem?_append_left (by rwa [Mem.load_length]), Mem.load, List.getElem?_map,
    List.getElem?_range hk]
  rfl

/-- The loop over clusters that are whole buffers. -/
theorem readLoop_whole (clusters : List Nat) (out : List UInt8)
    (hal : ∀ c ∈ clusters, fs.clusterToLba c % 8 = 0) :
    Fat32Inode.readLoop fs disk clusters held rest out =
      .ok (out ++ (List.range (min rest (4096 * clusters.length))).map
      (fun j => disk (512 * fs.clusterToLba (clusters.getD (j / 4096) 0) + j % 4096)), held) := by
  induction clusters generalizing rest out with
  | nil => simp [Fat32Inode.readLoop]
  | cons c clusters ih =>
    have hc := hal c List.mem_cons_self
    rw [Fat32Inode.readLoop]
    by_cases h0 : rest = 0
    · simp [h0]
    · rw [if_neg h0]
      simp only [copyUnit_eq, release_readSync]
      rw [if_pos (.inr (by omega)), ok_bind, ih _ fun d hd => hal d (List.mem_cons_of_mem c hd)]
      have hsplit : min rest (4096 * (c :: clusters).length) =
          min rest 4096 + min (rest - min rest 4096) (4096 * clusters.length) := by
        rw [List.length_cons]
        omega
      have hfirst : disk.load (512 * fs.clusterToLba c + 0) (min rest 4096) =
          (List.range (min rest 4096)).map
          fun j => disk (512 * fs.clusterToLba ((c :: clusters).getD (j / 4096) 0) + j % 4096) := by
        refine List.map_congr_left fun j hj => ?_
        have hj := List.mem_range.mp hj
        rw [show j / 4096 =
          0 by omega, List.getD_cons_zero, Nat.mod_eq_of_lt (by omega), Nat.add_zero]
      have hrest : (List.range (min (rest - min rest 4096) (4096 * clusters.length))).map
          (fun j => disk (512 * fs.clusterToLba (clusters.getD (j / 4096) 0) + j % 4096)) =
          (List.range (min (rest - min rest 4096) (4096 * clusters.length))).map
          ((fun j => disk (512 * fs.clusterToLba ((c :: clusters).getD (j / 4096) 0) + j %
            4096)) ∘
            fun j => min rest 4096 + j) := by
        refine List.map_congr_left fun j hj => ?_
        have hj := List.mem_range.mp hj
        rw [Function.comp_apply, show (min rest 4096 + j) / 4096 = j / 4096 +
          1 by omega, List.getD_cons_succ,
          show (min rest 4096 + j) % 4096 = j % 4096 by omega]
      rw [hsplit, List.range_add, List.map_append, List.map_map, ← List.append_assoc, ← hrest,
        ← hfirst, Mem.load_length]

/-! ### Places -/

/-- Two ways to take bytes from a memory agree on all memories where the places are the same. -/
theorem bytes_eq_iff {m n : Nat} {f g : Nat → Nat} :
    (∀ disk : Mem, (List.range m).map (fun j => disk (f j)) = (List.range n).map fun j =>
      disk (g j)) ↔ m = n ∧ ∀ j < n, f j = g j := by
  constructor
  · intro h
    have hlen : m = n := by simpa using congrArg List.length (h fun _ => 0)
    subst hlen
    refine ⟨rfl, fun j hj => ?_⟩
    have hd := h fun x => if x = f j then 1 else 0
    have hj' := congrArg (fun l => l[j]?) hd
    simp only [List.getElem?_map, List.getElem?_range hj, Option.map_some, if_true,
      Option.some.injEq] at hj'
    by_contra hne
    rw [if_neg fun he => hne he.symm] at hj'
    exact absurd hj' (by decide)
  · rintro ⟨rfl, h⟩ disk
    refine List.map_congr_left fun j hj => ?_
    rw [h j (List.mem_range.mp hj)]

theorem Fat32FS.sectorsPerCluster_bounds (fs : Fat32FS) : 0 < fs.sectorsPerCluster ∧
    fs.sectorsPerCluster ≤ 128 := by
  obtain ⟨e, he, hspc⟩ := fs.cluster_ok
  rw [hspc]
  exact ⟨Nat.two_pow_pos e, (Nat.pow_le_pow_right (by decide) he).trans (by decide)⟩

namespace ClusterList

theorem clusterSize_eq (h : ClusterList fs l) : fs.clusterSize = 512 * fs.sectorsPerCluster := by
  rw [Fat32FS.clusterSize, h.sectors, Nat.mul_comm]

theorem clusterSize_pos (h : ClusterList fs l) : 0 < fs.clusterSize := by
  have := fs.sectorsPerCluster_bounds
  rw [h.clusterSize_eq]
  omega

theorem lba (h : ClusterList fs l) {c : Nat} (hc : c ∈ l) :
    fs.clusterToLba c = fs.dataLba + fs.sectorsPerCluster * (c - 2) := by
  have hvol := h.volume
  have hc2 := h.data c hc
  have hc28 := h.bound c hc
  have hspc := fs.sectorsPerCluster_bounds
  have hmul : fs.sectorsPerCluster * (c - 2) ≤ 128 * (c - 2) := Nat.mul_le_mul_right _ hspc.2
  unfold Fat32FS.dataLba at hvol
  rw [Fat32FS.clusterToLba, fat32FirstDataCluster, wordSub_of_le hc2 (by omega), Nat.mod_eq_of_lt]
  · rfl
  · unfold wordSize
    omega

/-- The place of a cluster on the device, in bytes. -/
theorem place (h : ClusterList fs l) {c : Nat} (hc : c ∈ l) :
    512 * fs.clusterToLba c = 512 * fs.dataLba + fs.clusterSize * (c - 2) := by
  rw [h.lba hc, h.clusterSize_eq, Nat.mul_add, Nat.mul_assoc]

theorem length_le (h : ClusterList fs l) : l.length ≤ 2 ^ 28 := by
  rw [← List.toFinset_card_of_nodup h.nodup]
  refine (Finset.card_le_card fun c hc => ?_).trans (Finset.card_range (2 ^ 28)).le
  exact Finset.mem_range.mpr (h.bound c (List.mem_toFinset.mp hc))

theorem cover (h : ClusterList fs l) : fs.coverSizeBytes l = l.length * fs.clusterSize ∧
    l.length * fs.clusterSize < 2 ^ 64 := by
  have hspc := fs.sectorsPerCluster_bounds
  have hlen := h.length_le
  have hmul : l.length * fs.clusterSize ≤ 2 ^ 28 * (512 * 128) := by
    rw [h.clusterSize_eq]
    exact Nat.mul_le_mul hlen (by omega)
  refine ⟨?_, by omega⟩
  rw [Fat32FS.coverSizeBytes, Nat.mul_assoc, ← Fat32FS.clusterSize, Nat.mod_eq_of_lt]
  unfold wordSize
  omega

theorem getD_mem {i : Nat} (hi : i < l.length) : l.getD i 0 ∈ l := by
  rw [List.getD_eq_getElem?_getD, List.getElem?_eq_getElem hi, Option.getD_some]
  exact List.getElem_mem hi

/-- A byte of a buffer that starts with the cluster of `off` is that of the file where the clusters
in between follow each other. -/
theorem place_iff (h : ClusterList fs l) {j : Nat} (hj : off + j < l.length * fs.clusterSize) :
    512 * fs.clusterToLba (l.getD (off / fs.clusterSize) 0) + off % fs.clusterSize + j =
      bytePlace fs l (off + j) ↔
        l.getD (off / fs.clusterSize + (off % fs.clusterSize + j) / fs.clusterSize) 0 =
        l.getD (off / fs.clusterSize) 0 + (off % fs.clusterSize + j) / fs.clusterSize := by
  have hpos := h.clusterSize_pos
  have hdm := Nat.div_add_mod off fs.clusterSize
  have hdiv : (off + j) / fs.clusterSize =
      off / fs.clusterSize + (off % fs.clusterSize + j) / fs.clusterSize := by
    rw [show off + j = off % fs.clusterSize + j + fs.clusterSize * (off / fs.clusterSize) by omega,
      Nat.add_mul_div_left _ _ hpos, Nat.add_comm]
  have hmod : (off + j) % fs.clusterSize = (off % fs.clusterSize + j) % fs.clusterSize := by
    rw [show off + j = off % fs.clusterSize + j + fs.clusterSize * (off / fs.clusterSize) by omega,
      Nat.add_mul_mod_self_left]
  have hlt : (off + j) / fs.clusterSize < l.length := by
    rw [Nat.div_lt_iff_lt_mul hpos]
    exact hj
  have hsum := Nat.div_add_mod (off % fs.clusterSize + j) fs.clusterSize
  unfold bytePlace defaultSectorSize
  rw [hdiv] at hlt
  rw [hdiv, hmod]
  have hc := getD_mem (Nat.lt_of_le_of_lt (Nat.le_add_right _ _) hlt)
  have hc' := getD_mem hlt
  rw [h.place hc, h.place hc']
  have hc2 := h.data _ hc
  have hc2' := h.data _ hc'
  generalize (off % fs.clusterSize + j) / fs.clusterSize = t at *
  generalize (off % fs.clusterSize + j) % fs.clusterSize = r at *
  generalize l.getD (off / fs.clusterSize) 0 = c at *
  generalize l.getD (off / fs.clusterSize + t) 0 = c' at *
  obtain ⟨d, rfl⟩ : ∃ d, c = d + 2 := ⟨c - 2, by omega⟩
  obtain ⟨d', rfl⟩ : ∃ d', c' = d' + 2 := ⟨c' - 2, by omega⟩
  rw [Nat.add_sub_cancel, Nat.add_sub_cancel]
  constructor
  · intro he
    have hmul : fs.clusterSize * (d + t) = fs.clusterSize * d' := by
      rw [Nat.mul_add]
      omega
    have := Nat.eq_of_mul_eq_mul_left hpos hmul
    omega
  · intro he
    obtain rfl : d' = d + t := by omega
    rw [Nat.mul_add]
    omega

/-- The same for all bytes of a read. -/
theorem places_iff (h : ClusterList fs l) {n : Nat} (hn : 0 < n)
    (hend : off + n ≤ l.length * fs.clusterSize) :
    (∀ j < n, 512 * fs.clusterToLba (l.getD (off / fs.clusterSize) 0) + off % fs.clusterSize + j =
      bytePlace fs l (off + j)) ↔ ∀ t, fs.clusterSize * t < off % fs.clusterSize + n →
        l.getD (off / fs.clusterSize + t) 0 = l.getD (off / fs.clusterSize) 0 + t := by
  have hpos := h.clusterSize_pos
  have hmod := Nat.mod_lt off hpos
  constructor
  · intro hall t ht
    cases t with
    | zero => rfl
    | succ t =>
      -- the first byte of the cluster
      have hle : fs.clusterSize ≤ fs.clusterSize * (t + 1) :=
        Nat.le_mul_of_pos_right _ (Nat.succ_pos t)
      have hj := (h.place_iff (j := fs.clusterSize * (t + 1) - off % fs.clusterSize) (by omega)).mp
        (hall _ (by omega))
      rwa [show off % fs.clusterSize + (fs.clusterSize * (t + 1) - off % fs.clusterSize) =
        fs.clusterSize * (t + 1) by omega, Nat.mul_div_cancel_left _ hpos] at hj
  · intro hall j hj
    refine (h.place_iff (by omega)).mpr (hall _ ?_)
    have := Nat.mul_div_le (off % fs.clusterSize + j) fs.clusterSize
    omega

end ClusterList

end

/-! ### The read -/

section

variable {fs : Fat32FS} {disk : Mem} {node : Fat32Inode} {held : List Nat} {len off : Nat}
  {async : Bool}

/-- The length after the clamp in `read_content`. -/
def clampedLen (fs : Fat32FS) (l : List Nat) (len off : Nat) : Nat :=
  if len < l.length * fs.clusterSize - off then len else l.length * fs.clusterSize

theorem readContent_past (h : ClusterList fs node.clustersNumber)
    (hoff : node.clustersNumber.length * fs.clusterSize ≤ off) :
    Fat32Inode.readContent fs node disk held len off async = .ok ([], held) := by
  have hdrop : node.clustersNumber.drop (off / (fs.sectorsPerCluster * fs.bytesPerSector)) = [] :=
    List.drop_eq_nil_of_le ((Nat.le_div_iff_mul_le h.clusterSize_pos).mpr hoff)
  unfold Fat32Inode.readContent
  simp only [hdrop]

theorem readContent_eq (h : ClusterList fs node.clustersNumber)
    (hoff : off < node.clustersNumber.length * fs.clusterSize) :
    Fat32Inode.readContent fs node disk held len off async =
      if async then .error (.panic "buffer : asynchronous read not implement")
      else Fat32Inode.copyUnit disk
          (readSync held (fs.clusterToLba (node.clustersNumber.getD (off / fs.clusterSize) 0))).1
          (off % fs.clusterSize)
          (clampedLen fs node.clustersNumber len off) >>= fun bytes =>
        Fat32Inode.readLoop fs disk (node.clustersNumber.drop (off / fs.clusterSize + 1)) held
          (clampedLen fs node.clustersNumber len off - bytes.length) bytes := by
  obtain ⟨hcover, hcover64⟩ := h.cover
  have hi : off / fs.clusterSize < node.clustersNumber.length :=
    (Nat.div_lt_iff_lt_mul h.clusterSize_pos).mpr hoff
  have hdrop : node.clustersNumber.drop (off / (fs.sectorsPerCluster * fs.bytesPerSector)) =
      node.clustersNumber.getD (off / fs.clusterSize) 0 ::
        node.clustersNumber.drop (off / fs.clusterSize + 1) := by
    rw [List.getD_eq_getElem?_getD, List.getElem?_eq_getElem hi, Option.getD_some]
    exact List.drop_eq_getElem_cons hi
  have hlen : (if wordSub (fs.coverSizeBytes node.clustersNumber) off > len then len
      else fs.coverSizeBytes node.clustersNumber) = clampedLen fs node.clustersNumber len off := by
    rw [hcover, wordSub_of_le hoff.le hcover64]
    rfl
  unfold Fat32Inode.readContent
  simp only [hdrop, hlen, release_readSync, Nat.mul_comm fs.bytesPerSector]
  rfl

theorem clampedLen_eq_count (hoff : off < node.clustersNumber.length * fs.clusterSize) :
    clampedLen fs node.clustersNumber len off = readCount fs node.clustersNumber len off ↔
      len < node.clustersNumber.length * fs.clusterSize - off ∨ off = 0 := by
  unfold clampedLen readCount
  split
  · simp only [*, true_or, iff_true]
    omega
  · omega

/-- A read of at most a buffer. -/
theorem readRight_short (h : ClusterList fs node.clustersNumber)
    (hoff : off < node.clustersNumber.length * fs.clusterSize) (hlen : len ≠ 0)
    (hshort : clampedLen fs node.clustersNumber len off ≤ 4096) :
    ReadRight fs node held len off false ↔ InOneBuffer fs node.clustersNumber len off := by
  have hpos : 0 < clampedLen fs node.clustersNumber len off := by
    unfold clampedLen
    split <;> omega
  have hcount : 0 < readCount fs node.clustersNumber len off := by
    unfold readCount
    omega
  have hend : off + readCount fs node.clustersNumber len off ≤
      node.clustersNumber.length * fs.clusterSize := by
    unfold readCount
    omega
  have hrun : ∀ disk, Fat32Inode.readContent fs node disk held len off false =
      if 512 * (fs.clusterToLba (node.clustersNumber.getD (off / fs.clusterSize) 0) % 8) + off %
          fs.clusterSize + clampedLen fs node.clustersNumber len off ≤ 4096 then
        .ok (disk.load (512 * fs.clusterToLba (node.clustersNumber.getD (off / fs.clusterSize) 0) +
          off % fs.clusterSize) (clampedLen fs node.clustersNumber len off), held)
      else .error (.undefined "access outside the buffer") := by
    intro disk
    rw [readContent_eq h hoff, if_neg (by decide), copyUnit_eq, Nat.min_eq_left hshort]
    by_cases hin : 512 * (fs.clusterToLba (node.clustersNumber.getD (off / fs.clusterSize) 0) % 8) +
        off % fs.clusterSize + clampedLen fs node.clustersNumber len off ≤ 4096
    · rw [if_pos (.inr hin), if_pos hin, ok_bind, Mem.load_length, Nat.sub_self, readLoop_rest]
    · rw [if_neg (by omega), if_neg hin, error_bind]
  unfold ReadRight
  simp only [hrun]
  constructor
  · intro hright
    have hin : 512 * (fs.clusterToLba (node.clustersNumber.getD (off / fs.clusterSize) 0) % 8) +
        off % fs.clusterSize + clampedLen fs node.clustersNumber len off ≤ 4096 := by
      by_contra hin
      have := hright fun _ => 0
      rw [if_neg hin] at this
      cases this
    simp only [if_pos hin, Except.ok.injEq, Prod.mk.injEq, and_true] at hright
    obtain ⟨heq, hplaces⟩ := bytes_eq_iff.mp hright
    refine ⟨(clampedLen_eq_count hoff).mp heq, ?_, (h.places_iff hcount hend).mp hplaces⟩
    rwa [← heq]
  · rintro ⟨hclamp, hin, hfollow⟩ disk
    have heq := (clampedLen_eq_count hoff).mpr hclamp
    unfold defaultSectorSize defaultBufferSize at hin
    rw [heq, if_pos hin]
    have hbytes := bytes_eq_iff.mpr ⟨rfl, (h.places_iff hcount hend).mpr hfollow⟩ disk
    exact congrArg (fun bytes => (.ok (bytes, held) : Except Fault (List UInt8 × List Nat))) hbytes

/-- A read of whole buffers copies the bytes of the file. -/
theorem readRight_whole (h : ClusterList fs node.clustersNumber)
    (hoff : off < node.clustersNumber.length * fs.clusterSize) (hw : WholeBuffers fs off) :
    ReadRight fs node held len off false := by
  obtain ⟨hsize, hstart, haligned⟩ := hw
  unfold defaultBufferSize at hsize hstart
  have hspc : fs.sectorsPerCluster = 8 := by
    have := h.clusterSize_eq
    omega
  have hlba : ∀ c ∈ node.clustersNumber, fs.clusterToLba c % 8 = 0 := by
    intro c hc
    rw [h.lba hc, hspc]
    omega
  intro disk
  rw [hsize] at hoff
  have hi : off / 4096 < node.clustersNumber.length := by omega
  have hdrop : node.clustersNumber.drop (off / 4096) =
      node.clustersNumber.getD (off / 4096) 0 :: node.clustersNumber.drop (off / 4096 + 1) := by
    rw [List.getD_eq_getElem?_getD, List.getElem?_eq_getElem hi, Option.getD_some]
    exact List.drop_eq_getElem_cons hi
  -- the first unit is a turn of the loop
  have hfirst : Fat32Inode.readContent fs node disk held len off false = Fat32Inode.readLoop fs disk
      (node.clustersNumber.drop (off / 4096)) held (clampedLen fs node.clustersNumber len off)
        [] := by
    have hc := hlba _ (ClusterList.getD_mem hi)
    rw [readContent_eq h (by rwa [hsize]), if_neg (by decide), hsize, hstart, hdrop,
      Fat32Inode.readLoop]
    by_cases h0 : clampedLen fs node.clustersNumber len off = 0
    · rw [h0, if_pos rfl, copyUnit_zero, ok_bind, Nat.zero_sub, readLoop_rest]
    · simp only [if_neg h0, copyUnit_eq, release_readSync]
      rw [if_pos (.inr (by omega)), ok_bind, ok_bind, List.nil_append]
  rw [hfirst, readLoop_whole _ _ fun c hc => hlba c (List.mem_of_mem_drop hc), List.nil_append]
  have hcount : min (clampedLen fs node.clustersNumber len off)
      (4096 * (node.clustersNumber.drop (off / 4096)).length) =
      readCount fs node.clustersNumber len off := by
    unfold clampedLen readCount
    rw [List.length_drop, hsize]
    split <;> omega
  rw [hcount]
  have hbytes : (List.range (readCount fs node.clustersNumber len off)).map (fun j =>
      disk (512 * fs.clusterToLba ((node.clustersNumber.drop (off / 4096)).getD (j / 4096) 0) + j %
        4096)) =
      fileBytes fs disk node.clustersNumber off (readCount fs node.clustersNumber len off) := by
    refine List.map_congr_left fun j _ => ?_
    rw [bytePlace, hsize, defaultSectorSize, List.getD_eq_getElem?_getD, List.getElem?_drop,
      ← List.getD_eq_getElem?_getD,
      show (off + j) / 4096 = off / 4096 + j /
        4096 by omega, show (off + j) % 4096 = j % 4096 by omega]
  rw [hbytes]

/-- The byte 4096 bytes behind the start of a cluster is the first of the next one only where a
cluster is a buffer. -/
theorem ClusterList.size_of_place {l : List Nat} {i : Nat} (h : ClusterList fs l)
    (hend : fs.clusterSize * i + 4096 < l.length * fs.clusterSize) (hi : i + 1 < l.length)
    (hplace : 512 * fs.clusterToLba (l.getD (i + 1) 0) =
      bytePlace fs l (fs.clusterSize * i + 4096)) :
    fs.clusterSize = 4096 := by
  have hpos := h.clusterSize_pos
  have hin : i + 4096 / fs.clusterSize < l.length := by
    rw [← Nat.mul_add_div hpos, Nat.div_lt_iff_lt_mul hpos]
    exact hend
  have hc := getD_mem (l := l) (i := i) (by omega)
  have hc₁ := getD_mem hi
  have hc' := getD_mem hin
  rw [bytePlace, Nat.mul_add_div hpos, Nat.mul_add_mod, defaultSectorSize, h.place hc₁,
    h.place hc'] at hplace
  have h2 := h.data _ hc
  have h2₁ := h.data _ hc₁
  have h2' := h.data _ hc'
  have hcs := h.clusterSize_eq
  obtain ⟨e, he, hspc⟩ := fs.cluster_ok
  -- two clusters at one place are one
  have hsmall : ∀ q, 1 < q → 4096 / fs.clusterSize = q → 4096 % fs.clusterSize = 0 →
      False := by
    intro q hq hdiv hmod
    rw [hmod, Nat.add_zero] at hplace
    have hsame := Nat.eq_of_mul_eq_mul_left hpos (Nat.add_left_cancel hplace)
    have heq : l.getD (i + 1) 0 = l.getD (i + 4096 / fs.clusterSize) 0 := by omega
    rw [List.getD_eq_getElem?_getD, List.getD_eq_getElem?_getD, List.getElem?_eq_getElem hi,
      List.getElem?_eq_getElem hin, Option.getD_some, Option.getD_some,
      h.nodup.getElem_inj_iff] at heq
    omega
  -- a larger cluster has the byte in its middle
  have hlarge : ∀ s, fs.clusterSize = 8192 * s → 4096 / fs.clusterSize = 0 → False := by
    intro s hs hdiv
    rw [hdiv, Nat.add_zero] at hplace
    have hmod : 4096 % fs.clusterSize = 4096 := by
      have := Nat.div_add_mod 4096 fs.clusterSize
      rwa [hdiv, Nat.mul_zero, Nat.zero_add] at this
    rw [hmod, hs, Nat.mul_assoc, Nat.mul_assoc] at hplace
    omega
  interval_cases e <;> rw [hcs, hspc] at hsmall hlarge ⊢
  · exact (hsmall 8 (by decide) rfl rfl).elim
  · exact (hsmall 4 (by decide) rfl rfl).elim
  · exact (hsmall 2 (by decide) rfl rfl).elim
  · rfl
  · exact (hlarge 1 rfl rfl).elim
  · exact (hlarge 2 rfl rfl).elim
  · exact (hlarge 4 rfl rfl).elim
  · exact (hlarge 8 rfl rfl).elim

/-- A read of more than a buffer that is right for all contents of the device is one of
whole buffers. -/
theorem whole_of_readRight (h : ClusterList fs node.clustersNumber)
    (hoff : off < node.clustersNumber.length * fs.clusterSize)
    (hlong : 4096 < clampedLen fs node.clustersNumber len off)
    (hright : ReadRight fs node held len off false) : WholeBuffers fs off := by
  have hpos := h.clusterSize_pos
  have hi : off / fs.clusterSize < node.clustersNumber.length :=
    (Nat.div_lt_iff_lt_mul hpos).mpr hoff
  have hdm := Nat.div_add_mod off fs.clusterSize
  have hc := ClusterList.getD_mem hi
  unfold ReadRight at hright
  simp only [readContent_eq h hoff, Bool.false_eq_true, if_false, copyUnit_eq,
    Nat.min_eq_right hlong.le] at hright
  -- the first unit is a whole buffer
  have hin : 512 * (fs.clusterToLba (node.clustersNumber.getD (off / fs.clusterSize) 0) % 8) + off %
      fs.clusterSize + 4096 ≤ 4096 := by
    by_contra hout
    have := hright fun _ => 0
    rw [if_neg (by omega), error_bind] at this
    cases this
  simp only [hin, or_true, if_true, ok_bind, Mem.load_length] at hright
  have hsize : fs.clusterSize = 4096 := by
    cases hdrop : node.clustersNumber.drop (off / fs.clusterSize + 1) with
    | nil =>
      -- the last cluster: one unit is the whole read
      have hlen : node.clustersNumber.length ≤ off / fs.clusterSize + 1 :=
        List.drop_eq_nil_iff.mp hdrop
      have hrun := hright fun _ => 0
      rw [hdrop, Fat32Inode.readLoop] at hrun
      have hcount := congrArg List.length (congrArg Prod.fst (Except.ok.inj hrun))
      simp only [Mem.load_length, fileBytes, List.length_map, List.length_range,
        readCount] at hcount
      have hcover : node.clustersNumber.length * fs.clusterSize = fs.clusterSize *
          (off / fs.clusterSize) + fs.clusterSize := by
        rw [show node.clustersNumber.length = off / fs.clusterSize +
          1 by omega, Nat.add_mul, Nat.one_mul, Nat.mul_comm]
      unfold clampedLen at hlong
      split at hlong <;> omega
    | cons c₁ more =>
      have hi₁ : off / fs.clusterSize + 1 < node.clustersNumber.length := by
        by_contra hn
        rw [List.drop_eq_nil_of_le (by omega)] at hdrop
        cases hdrop
      have hc₁ : node.clustersNumber.getD (off / fs.clusterSize + 1) 0 = c₁ := by
        rw [List.drop_eq_getElem_cons hi₁] at hdrop
        rw [List.getD_eq_getElem?_getD, List.getElem?_eq_getElem hi₁, Option.getD_some]
        exact (List.cons.inj hdrop).1
      -- the byte behind the first unit is the first of the next cluster
      have hnext : ∀ disk : Mem, (fileBytes fs disk node.clustersNumber off
          (readCount fs node.clustersNumber len off))[4096]? =
            some (disk (512 * fs.clusterToLba c₁)) := by
        intro disk
        have hrun := hright disk
        rw [hdrop, Fat32Inode.readLoop, if_neg (by omega)] at hrun
        simp only [copyUnit_eq] at hrun
        obtain ⟨bytes, hunit, hrest⟩ := bind_eq_ok.mp hrun
        split at hunit
        case isFalse hout => cases hunit
        case isTrue hin₁ =>
          obtain rfl := Except.ok.inj hunit
          obtain ⟨tail, htail⟩ := readLoop_prefix hrest
          rw [htail, List.append_assoc]
          exact load_append_get disk _ _ tail 4096
            (Nat.lt_min.mpr ⟨Nat.sub_pos_of_lt hlong, by decide⟩)
      have hcount : 4096 < readCount fs node.clustersNumber len off := by
        have hsome := hnext fun _ => 0
        by_contra hle
        rw [List.getElem?_eq_none (by simpa [fileBytes] using hle)] at hsome
        cases hsome
      have hplace : 512 * fs.clusterToLba c₁ = bytePlace fs node.clustersNumber (off + 4096) := by
        have hone := hnext fun x => if x = 512 * fs.clusterToLba c₁ then 1 else 0
        rw [fileBytes, List.getElem?_map, List.getElem?_range hcount, Option.map_some,
          if_pos rfl] at hone
        by_contra hne
        rw [if_neg fun he => hne he.symm] at hone
        exact absurd (Option.some.inj hone) (by decide)
      have hoff₀ : off = fs.clusterSize * (off / fs.clusterSize) := by omega
      rw [← hc₁, hoff₀, Nat.mul_div_cancel_left _ hpos] at hplace
      refine h.size_of_place ?_ hi₁ hplace
      unfold readCount at hcount
      omega
  refine ⟨hsize, ?_, ?_⟩
  · unfold defaultBufferSize
    rw [← hsize]
    omega
  · have hspc : fs.sectorsPerCluster = 8 := by
      have := h.clusterSize_eq
      omega
    have hlba := h.lba hc
    rw [hspc] at hlba
    omega

theorem readRight_past (h : ClusterList fs node.clustersNumber)
    (hoff : node.clustersNumber.length * fs.clusterSize ≤ off) :
      ReadRight fs node held len off async := by
  intro disk
  have hcount : readCount fs node.clustersNumber len off = 0 := by
    unfold readCount
    omega
  rw [readContent_past h hoff, hcount]
  rfl

theorem readRight_empty (h : ClusterList fs node.clustersNumber)
    (hoff : off < node.clustersNumber.length * fs.clusterSize) :
      ReadRight fs node held 0 off false := by
  intro disk
  have hlen : clampedLen fs node.clustersNumber 0 off = 0 := if_pos (by omega)
  have hcount : readCount fs node.clustersNumber 0 off = 0 := Nat.zero_min _
  rw [readContent_eq h hoff, if_neg (by decide), hlen, copyUnit_zero, ok_bind, Nat.zero_sub,
    readLoop_rest, hcount]
  rfl

/-- `read_content` copies the bytes of the file, whatever is on the device, exactly behind the end
of the clusters, and for a synchronous read of no byte, of whole buffers, or in one buffer. -/
theorem read_content_iff (fs : Fat32FS) (node : Fat32Inode) (h : ClusterList fs node.clustersNumber)
    (held : List Nat) (len off : Nat) (async : Bool) : ReadRight fs node held len off async ↔
      node.clustersNumber.length * fs.clusterSize ≤ off ∨ async = false ∧
        (len = 0 ∨ WholeBuffers fs off ∨ InOneBuffer fs node.clustersNumber len off) := by
  rcases Nat.lt_or_ge off (node.clustersNumber.length * fs.clusterSize) with hoff | hoff
  · rw [or_iff_right (Nat.not_le.mpr hoff)]
    cases async with
    | true =>
      refine iff_of_false (fun hright => ?_) fun hc => by cases hc.1
      have := hright fun _ => 0
      rw [readContent_eq h hoff, if_pos rfl] at this
      cases this
    | false =>
      rw [eq_self_iff_true, true_and]
      constructor
      · intro hright
        rcases Nat.eq_zero_or_pos len with h0 | hpos
        · exact .inl h0
        · rcases Nat.lt_or_ge 4096 (clampedLen fs node.clustersNumber len off) with hlong | hshort
          · exact .inr (.inl (whole_of_readRight h hoff hlong hright))
          · exact .inr (.inr ((readRight_short h hoff hpos.ne' hshort).mp hright))
      · rintro (rfl | hw | hone)
        · exact readRight_empty h hoff
        · exact readRight_whole h hoff hw
        · rcases Nat.eq_zero_or_pos len with rfl | hpos
          · exact readRight_empty h hoff
          · refine (readRight_short h hoff hpos.ne' ?_).mpr hone
            have hin := hone.inBuffer
            rw [(clampedLen_eq_count hoff).mpr hone.clamp]
            unfold defaultBufferSize at hin
            omega
  · exact iff_of_true (readRight_past h hoff) (.inl hoff)

end

/-- The second cluster of a file on a volume whose clusters are the buffers. -/
theorem read_content_sample : ReadRight sampleFs ⟨2, .file, [2, 5, 4], 12288⟩
    [] 3000 4096 false := by
  refine (read_content_iff sampleFs ⟨2, .file, [2, 5, 4], 12288⟩ ?_ [] 3000 4096 false).mpr ?_
  · exact ⟨rfl, by decide, by decide, by decide, by decide⟩
  · exact .inr ⟨rfl, .inr (.inl ⟨rfl, rfl, rfl⟩)⟩

/-- A volume with clusters of one sector. -/
def sectorFs : Fat32FS where
  startLba := 0
  reservedSectors := 8
  fatCounts := 1
  sectorsPerFat := 8
  sectorsPerCluster := 1
  bytesPerSector := 512
  cluster_ok := ⟨0, by decide, rfl⟩
  sector_ok := sampleFs.sector_ok

/-- A read of a file in the clusters 2 and 4 of a sector each copies the cluster 3 of
another file. -/
theorem read_content_fragmented : ClusterList sectorFs [2, 4] ∧
    ¬ReadRight sectorFs ⟨2, .file, [2, 4], 1024⟩ [] 1024 0 false := by
  have h : ClusterList sectorFs [2, 4] := ⟨rfl, by decide, by decide, by decide, by decide⟩
  refine ⟨h, fun hright => ?_⟩
  have hone : InOneBuffer sectorFs [2, 4] 1024 0 :=
    (readRight_short h (by decide) (by decide) (by decide)).mp hright
  have hfollow := hone.follow 1 (by decide)
  exact absurd hfollow (by decide)

end OsKernel.Fs.Fat

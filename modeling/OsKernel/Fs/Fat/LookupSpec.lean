import OsKernel.Fs.Fat.Lookup
import Mathlib.Data.List.DropRight

/-! Which lookups in a FAT32 directory are right.  A lookup that finds an entry keeps its buffer, so
none of these is; the others have to walk over entries of the directory only, up to a zero byte in
each cluster or to an entry that ends the search. -/

namespace OsKernel.Fs.Fat

open Lib Hsai

section

variable (fs : Fat32FS) (disk : Mem)

/-- The places of the entries of a directory. -/
def dirPlaces (l : List Nat) : List Nat :=
  l.flatMap fun c => (List.range (fs.clusterSize / 32)).map fun i =>
    defaultSectorSize * fs.clusterToLba c + 32 * i

/-- A name without its padding. -/
def unpadded (l : List UInt8) : List UInt8 := l.rdropWhile (· = 32)

/-- The 8.3 name of the entry at `a`. -/
def name83 (a : Nat) : List UInt8 :=
  let ext := unpadded (disk.load (a + 8) 3)
  unpadded (disk.load a 8) ++ if ext = [] then [] else 46 :: ext

/-- The characters in the long entry at `a`, without the 0 and the 0xFFFF that fill it up. -/
def longText (a : Nat) : List UInt8 :=
  ((((List.range 5).map fun i => a + 1 + 2 * i) ++ ((List.range 6).map fun i => a + 14 + 2 * i) ++
    ((List.range 2).map fun i => a + 28 + 2 * i)).map fun p =>
      disk.read p 2).takeWhile (fun uc => uc ≠ 0 ∧ uc ≠ 0xFFFF) |>.map
      UInt8.ofNat

/-- The live names with the places of their entries: entries that start with 0xE5 are deleted, long
entries belong to the next other one, and a zero byte ends the directory. -/
def liveNames : List Nat → List Nat → List (List UInt8 × Nat)
  | _, [] => []
  | longs, a :: as =>
    if disk a = 0 then []
    else if disk a = 0xE5 then liveNames [] as
    else if disk (a + 11) = fat32LongFilename then liveNames (a :: longs) as
    else (if longs = [] then name83 disk a else longs.flatMap (longText disk), a) :: liveNames [] as

/-- The entry at `a` is one of the directory. -/
def InDirectory (l : List Nat) (a : Nat) : Prop :=
  ∃ c ∈ l, defaultSectorSize * fs.clusterToLba c ≤ a ∧
    a + 32 ≤ defaultSectorSize * fs.clusterToLba c + fs.clusterSize

/-- The lookup gives the inode of a live entry with the name, or none if there is no such entry; it
reads entries of the directory only and releases its buffers. -/
def LookupRight (node : Fat32Inode) (held : List Nat) (dirname : List UInt8) : Prop :=
  ∃ res reads, Fat32Inode.lookup fs node disk held dirname = .ok (res, held, reads) ∧
    (∀ a ∈ reads, InDirectory fs node.clustersNumber a) ∧
    match res with
    | none => ∀ a, (dirname, a) ∉ liveNames disk [] (dirPlaces fs node.clustersNumber)
    | some child => ∃ a, (dirname, a) ∈ liveNames disk [] (dirPlaces fs node.clustersNumber) ∧
        ∃ held₁ held₂, Fat32Inode.ofEntry fs disk held₁ a = .ok (child, held₂)

/-- The place of the entry with the index `i` in a buffer. -/
def Buffer.place (buf : Buffer) (i : Nat) : Nat := 4096 * buf.number + buf.base + 32 * i

/-- The entry with the index `i` is in the buffer and in the directory. -/
def Buffer.Reads (l : List Nat) (buf : Buffer) (i : Nat) : Prop :=
  buf.base + 32 * i + 32 ≤ 4096 ∧ InDirectory fs l (buf.place i)

/-- The long entries from the index `i` on, up to the other entry `s`; all of them can be read. -/
structure Record (l : List Nat) (buf : Buffer) (i s : Nat) : Prop where
  le : i ≤ s
  longs : ∀ j, i ≤ j → j < s → disk (buf.place j + 11) = fat32LongFilename
  short : disk (buf.place s + 11) ≠ fat32LongFilename
  reads : ∀ j, i ≤ j → j ≤ s → buf.Reads fs l j

/-- What the code makes of a record. -/
def recordOf (buf : Buffer) (i s : Nat) : SubDir :=
  Fat32Inode.subDirOf disk ((List.range (s - i)).map fun d => buf.place (i + d)) (buf.place s)
    (s + 1)

/-- From the index `i` on, no record has the name for the code, and the walk meets a zero byte
(`true`) or a record that the code takes for a bad one (`false`) without leaving the buffer or
the directory. -/
inductive Quiet (l : List Nat) (buf : Buffer) (dirname : List UInt8) : Nat → Bool → Prop where
  | stop {i : Nat} : buf.Reads fs l i → disk (buf.place i) = 0 → Quiet l buf dirname i true
  | bad {i s : Nat} {code : Int} : disk (buf.place i) ≠ 0 → Record fs disk l buf i s →
      recordOf disk buf i s = .fail code → Quiet l buf dirname i false
  | next {i s info : Nat} {name : List UInt8} {ended : Bool} : disk (buf.place i) ≠ 0 →
      Record fs disk l buf i s → recordOf disk buf i s = .entry name info (s + 1) →
      name ≠ dirname → Quiet l buf dirname (s + 1) ended →
      Quiet l buf dirname i ended

/-- The clusters up to the first with a bad record are quiet. -/
def SearchQuiet (l : List Nat) (dirname : List UInt8) : List Nat → Prop
  | [] => True
  | c :: cs => Quiet fs disk l (readSync [] (fs.clusterToLba c)).1 dirname 0 false ∨
      Quiet fs disk l (readSync [] (fs.clusterToLba c)).1 dirname 0 true ∧
      SearchQuiet l dirname cs

end

/-! ### Records -/

section

variable {fs : Fat32FS} {disk : Mem} {l : List Nat} {buf : Buffer} {dirname : List UInt8}

theorem entryAt_ok_iff {i a : Nat} : buf.entryAt i = .ok a ↔ buf.base + 32 * i + 32 ≤ 4096 ∧
    a = buf.place i := by
  unfold Buffer.entryAt Buffer.place defaultBufferSize
  split
  · simp [*, eq_comm]
  · simp [*]

/-- The loop over long entries gives them up to the first other entry. -/
theorem skipLong_iff {turns i s a : Nat} {longs longs' : List Nat} (hturns : 128 < turns + i) :
    Fat32Inode.skipLong disk buf turns i longs = .ok (longs', s, a) ↔
      i ≤ s ∧ (∀ j, i ≤ j → j < s → disk (buf.place j + 11) = fat32LongFilename) ∧
        disk (buf.place s + 11) ≠ fat32LongFilename ∧
        (∀ j, i ≤ j → j ≤ s → buf.base + 32 * j + 32 ≤ 4096) ∧
        longs' = longs ++ (List.range (s - i)).map (fun d => buf.place (i + d)) ∧
          a = buf.place s := by
  induction turns generalizing i longs with
  | zero =>
    refine iff_of_false (fun h => by cases h) ?_
    rintro ⟨hle, -, -, hin, -⟩
    have := hin s hle (Nat.le_refl s)
    omega
  | succ turns ih =>
    rw [Fat32Inode.skipLong]
    cases he : buf.entryAt i with
    | error e =>
      refine iff_of_false (fun h => by cases h) ?_
      rintro ⟨hle, -, -, hin, -⟩
      have hok := entryAt_ok_iff.mpr ⟨hin i (Nat.le_refl i) hle, rfl⟩
      rw [he] at hok
      cases hok
    | ok b =>
      obtain ⟨hb, rfl⟩ := entryAt_ok_iff.mp he
      rw [ok_bind]
      by_cases hlong : disk (buf.place i + 11) = fat32LongFilename
      · rw [if_pos hlong, ih (by omega)]
        constructor
        · rintro ⟨hle, hlongs, hshort, hin, rfl, rfl⟩
          refine ⟨by omega, fun j hl hu => ?_, hshort, fun j hl hu => ?_, ?_, rfl⟩
          · rcases Nat.eq_or_lt_of_le hl with rfl | hl
            · exact hlong
            · exact hlongs j hl hu
          · rcases Nat.eq_or_lt_of_le hl with rfl | hl
            · exact hb
            · exact hin j hl hu
          · rw [show s - i = s - (i + 1) +
              1 by omega, List.range_succ_eq_map, List.map_cons, List.map_map,
              List.append_assoc]
            simp [Function.comp_def, Nat.add_assoc, Nat.add_comm 1]
        · rintro ⟨hle, hlongs, hshort, hin, rfl, rfl⟩
          have hne : i ≠ s := by
            rintro rfl
            exact hshort hlong
          refine ⟨by omega, fun j hl hu => hlongs j (by omega) hu, hshort,
            fun j hl hu => hin j (by omega) hu, ?_, rfl⟩
          rw [show s - i = s - (i + 1) +
            1 by omega, List.range_succ_eq_map, List.map_cons, List.map_map,
            List.append_assoc]
          simp [Function.comp_def, Nat.add_assoc, Nat.add_comm 1]
      · rw [if_neg hlong]
        constructor
        · intro h
          cases h
          refine ⟨Nat.le_refl _, fun j hl
            hu => by omega, hlong, fun j hl hu => ?_, by simp, rfl⟩
          obtain rfl := Nat.le_antisymm hl hu
          exact hb
        · rintro ⟨hle, hlongs, -, -, rfl, rfl⟩
          obtain rfl : i = s := by
            by_contra hne
            exact hlong (hlongs i (Nat.le_refl i) (by omega))
          simp

/-- The entries that `_read_sub_dir` reads. -/
def recordReads (buf : Buffer) (i s : Nat) : List Nat :=
  (List.range (s - i)).map (fun d => buf.place (i + d)) ++ [buf.place s]

theorem mem_recordReads (buf : Buffer) {i s a : Nat} (hle : i ≤ s) : a ∈ recordReads buf i s ↔
    ∃ j, i ≤ j ∧ j ≤ s ∧ a = buf.place j := by
  unfold recordReads
  rw [List.mem_append, List.mem_map, List.mem_singleton]
  constructor
  · rintro (⟨d, hd, rfl⟩ | rfl)
    · have := List.mem_range.mp hd
      exact ⟨i + d, by omega, by omega, rfl⟩
    · exact ⟨s, hle, Nat.le_refl s, rfl⟩
  · rintro ⟨j, hl, hu, rfl⟩
    rcases Nat.eq_or_lt_of_le hu with rfl | hu
    · exact .inr rfl
    · exact .inl ⟨j - i, List.mem_range.mpr (by omega), by rw [Nat.add_sub_cancel' hl]⟩

/-- `_read_sub_dir` reads a record of the directory, or an entry that is not of it. -/
theorem readSubDir_iff {i : Nat} {r : SubDir × List Nat} :
    (Fat32Inode.readSubDir disk buf i = .ok r ∧ ∀ a ∈ r.2, InDirectory fs l a) ↔
      ∃ s, Record fs disk l buf i s ∧ r = (recordOf disk buf i s, recordReads buf i s) := by
  unfold Fat32Inode.readSubDir
  constructor
  · rintro ⟨hrun, hin⟩
    obtain ⟨⟨longs, s, a⟩, hskip, hr⟩ := bind_eq_ok.mp hrun
    obtain ⟨hle, hlongs, hshort, hbuf, rfl, rfl⟩ :=
      (skipLong_iff (by unfold entriesPerBuffer defaultBufferSize; omega)).mp
      hskip
    cases hr
    refine ⟨s, ⟨hle, hlongs, hshort, fun j hl hu => ⟨hbuf j hl hu, hin _ ?_⟩⟩,
      by simp [recordOf, recordReads]⟩
    have := (mem_recordReads buf hle).mpr ⟨j, hl, hu, rfl⟩
    simpa [recordReads] using this
  · rintro ⟨s, hrec, rfl⟩
    have hskip : Fat32Inode.skipLong disk buf (entriesPerBuffer + 1) i [] =
        .ok ([] ++ (List.range (s - i)).map (fun d => buf.place (i + d)), s, buf.place s) :=
      (skipLong_iff (by unfold entriesPerBuffer defaultBufferSize; omega)).mpr
        ⟨hrec.le, hrec.longs, hrec.short, fun j hl hu => (hrec.reads j hl hu).1, rfl, rfl⟩
    refine ⟨by rw [hskip, ok_bind]; rfl, fun a ha => ?_⟩
    obtain ⟨j, hl, hu, rfl⟩ := (mem_recordReads buf hrec.le).mp ha
    exact (hrec.reads j hl hu).2

/-! ### The walk over a cluster -/

theorem walk_prefix {turns i : Nat} {reads reads' : List Nat} {w : Walked}
    (h : Fat32Inode.walkEntries disk buf dirname turns i reads = .ok (w, reads')) : ∃ more,
      reads' = reads ++ more := by
  induction turns generalizing i reads with
  | zero => cases h
  | succ turns ih =>
    rw [Fat32Inode.walkEntries] at h
    obtain ⟨a, -, h⟩ := bind_eq_ok.mp h
    split at h
    · cases h
      exact ⟨_, rfl⟩
    · obtain ⟨r, -, h⟩ := bind_eq_ok.mp h
      split at h
      · cases h
        exact ⟨_, rfl⟩
      · split at h
        · cases h
          exact ⟨_, rfl⟩
        · obtain ⟨more, rfl⟩ := ih h
          exact ⟨r.2 ++ more, List.append_assoc _ _ _⟩

/-- What the walk gives where the cluster is quiet. -/
def quietEnd (ended : Bool) : Walked := if ended then .done else .fail

theorem Quiet.inBuffer {i : Nat} {ended : Bool} (h : Quiet fs disk l buf dirname i ended) :
    buf.Reads fs l i := by
  cases h with
  | stop hr _ => exact hr
  | bad _ hrec _ => exact hrec.reads i (Nat.le_refl i) hrec.le
  | next _ hrec _ _ _ => exact hrec.reads i (Nat.le_refl i) hrec.le

theorem quiet_record {i : Nat} {ended : Bool} (h0 : disk (buf.place i) ≠ 0) :
    Quiet fs disk l buf dirname i ended ↔ ∃ s, Record fs disk l buf i s ∧
      match recordOf disk buf i s with
      | .fail _ => ended = false
      | .entry name _ next =>
        name ≠ dirname ∧ next = s + 1 ∧ Quiet fs disk l buf dirname (s + 1) ended := by
  constructor
  · intro h
    cases h with
    | stop _ hz => exact absurd hz h0
    | bad _ hrec hfail => exact ⟨_, hrec, by rw [hfail]⟩
    | next _ hrec hentry hne hq => exact ⟨_, hrec, by rw [hentry]; exact ⟨hne, rfl, hq⟩⟩
  · rintro ⟨s, hrec, h⟩
    cases hr : recordOf disk buf i s with
    | fail code =>
      rw [hr] at h
      obtain rfl : ended = false := h
      exact .bad h0 hrec hr
    | entry name info next =>
      rw [hr] at h
      obtain ⟨hne, rfl, hq⟩ := h
      exact .next h0 hrec hr hne hq

/-- The entry behind a record. -/
theorem recordOf_next {i s info next : Nat} {name : List UInt8}
    (h : recordOf disk buf i s = .entry name info next) :
    next = s + 1 := by
  unfold recordOf Fat32Inode.subDirOf at h
  split at h
  · cases h
    rfl
  · split at h
    · cases h
    · split at h <;> cases h
      rfl

/-- The walk over entries of the directory that ends without the name. -/
theorem walk_iff (disk : Mem) (buf : Buffer) (dirname : List UInt8) {turns i : Nat}
    {reads : List Nat} (ended : Bool) (hturns : 128 < turns + i)
    (hreads : ∀ a ∈ reads, InDirectory fs l a) :
    (∃ reads', Fat32Inode.walkEntries disk buf dirname turns i reads =
      .ok (quietEnd ended, reads') ∧ ∀ a ∈ reads', InDirectory fs l a) ↔
        Quiet fs disk l buf dirname i ended := by
  induction turns generalizing i reads with
  | zero =>
    refine iff_of_false (fun ⟨_, h, _⟩ => by cases h) fun h => ?_
    have := h.inBuffer.1
    omega
  | succ turns ih =>
    rw [Fat32Inode.walkEntries]
    cases he : buf.entryAt i with
    | error e =>
      refine iff_of_false (fun ⟨_, h, _⟩ => by cases h) fun h => ?_
      have hok := entryAt_ok_iff.mpr ⟨h.inBuffer.1, rfl⟩
      rw [he] at hok
      cases hok
    | ok b =>
      obtain ⟨hb, rfl⟩ := entryAt_ok_iff.mp he
      rw [ok_bind]
      by_cases h0 : disk (buf.place i) = 0
      · rw [if_pos h0]
        constructor
        · rintro ⟨reads', h, hin⟩
          cases ended with
          | false => cases h
          | true =>
            cases h
            exact .stop ⟨hb, hin _ (by simp)⟩ h0
        · intro h
          cases h with
          | stop hr _ =>
            refine ⟨_, rfl, fun a ha => ?_⟩
            rcases List.mem_append.mp ha with ha | ha
            · exact hreads a ha
            · rw [List.mem_singleton.mp ha]
              exact hr.2
          | bad hne _ _ => exact absurd h0 hne
          | next hne _ _ _ _ => exact absurd h0 hne
      · rw [if_neg h0, quiet_record h0]
        constructor
        · rintro ⟨reads', h, hin⟩
          obtain ⟨r, hr, h⟩ := bind_eq_ok.mp h
          -- the record is behind the entries read before
          have hmem : ∀ a ∈ r.2, InDirectory fs l a := by
            intro a ha
            refine hin a ?_
            split at h
            · rw [← (Prod.mk.inj (Except.ok.inj h)).2]
              exact List.mem_append_right _ ha
            · split at h
              · rw [← (Prod.mk.inj (Except.ok.inj h)).2]
                exact List.mem_append_right _ ha
              · obtain ⟨more, rfl⟩ := walk_prefix h
                exact List.mem_append_left _ (List.mem_append_right _ ha)
          obtain ⟨s, hrec, rfl⟩ := readSubDir_iff.mp ⟨hr, hmem⟩
          refine ⟨s, hrec, ?_⟩
          simp only at h hmem
          cases ho : recordOf disk buf i s with
          | fail code =>
            rw [ho] at h
            cases ended with
            | false => rfl
            | true => cases h
          | entry name info next =>
            rw [ho] at h
            simp only at h
            split at h
            case isTrue hname => cases ended <;> cases h
            case isFalse hname =>
              obtain rfl := recordOf_next ho
              have hle := hrec.le
              refine ⟨hname, rfl, (ih (by omega) fun a ha => ?_).mp ⟨reads', h, hin⟩⟩
              exact (List.mem_append.mp ha).elim (hreads a) (hmem a)
        · rintro ⟨s, hrec, h⟩
          obtain ⟨hr, hmem⟩ := readSubDir_iff.mpr ⟨s, hrec, rfl⟩
          rw [hr, ok_bind]
          simp only at hmem ⊢
          have hall : ∀ a ∈ reads ++ recordReads buf i s, InDirectory fs l a := fun a ha =>
            (List.mem_append.mp ha).elim (hreads a) (hmem a)
          cases ho : recordOf disk buf i s with
          | fail code =>
            rw [ho] at h
            obtain rfl : ended = false := h
            exact ⟨_, rfl, hall⟩
          | entry name info next =>
            rw [ho] at h
            obtain ⟨hname, rfl, hq⟩ := h
            have hle := hrec.le
            simp only [if_neg hname]
            exact (ih (by omega) hall).mpr hq

/-! ### The search -/

theorem init_held {held held' : List Nat} {c size : Nat} {nodeType : Fat32NodeType}
    {node : Fat32Inode} (h : Fat32Inode.init fs disk held c nodeType size = .ok (node, held')) :
      held' = held := by
  unfold Fat32Inode.init at h
  simp only [release_readSync] at h
  obtain ⟨r, -, h⟩ := bind_eq_ok.mp h
  obtain ⟨_, -, h⟩ := bind_eq_ok.mp h
  cases h
  rfl

/-- A lookup that finds an entry still has its buffer. -/
theorem lookupLoop_found {clusters held held' reads reads' : List Nat} {child : Fat32Inode}
    (h : Fat32Inode.lookupLoop fs disk dirname clusters held reads =
      .ok (some child, held', reads')) :
    held'.length = held.length + 1 := by
  induction clusters generalizing reads with
  | nil => cases h
  | cons c clusters ih =>
    rw [Fat32Inode.lookupLoop] at h
    obtain ⟨r, -, h⟩ := bind_eq_ok.mp h
    split at h
    · cases h
    · obtain ⟨node, hnode, h⟩ := bind_eq_ok.mp h
      cases h
      rw [init_held hnode]
      rfl
    · rw [release_readSync] at h
      exact ih h

theorem lookupLoop_prefix {clusters held held' reads reads' : List Nat} {res : Option Fat32Inode}
    (h : Fat32Inode.lookupLoop fs disk dirname clusters held reads = .ok (res, held', reads')) :
    ∃ more, reads' = reads ++ more := by
  induction clusters generalizing held reads with
  | nil =>
    cases h
    exact ⟨[], (List.append_nil _).symm⟩
  | cons c clusters ih =>
    rw [Fat32Inode.lookupLoop] at h
    obtain ⟨⟨w, reads₁⟩, hw, h⟩ := bind_eq_ok.mp h
    obtain ⟨more, rfl⟩ := walk_prefix hw
    split at h
    · cases h
      exact ⟨more, rfl⟩
    · obtain ⟨node, -, h⟩ := bind_eq_ok.mp h
      cases h
      exact ⟨more, rfl⟩
    · obtain ⟨more₁, rfl⟩ := ih h
      exact ⟨more ++ more₁, List.append_assoc _ _ _⟩

/-- The walk gives one of the ends of a quiet cluster where the search goes on or stops
with nothing. -/
theorem search_iff (disk : Mem) (dirname : List UInt8) (clusters held : List Nat) {reads : List Nat}
    (hreads : ∀ a ∈ reads, InDirectory fs l a) :
    (∃ reads', Fat32Inode.lookupLoop fs disk dirname clusters held reads =
      .ok (none, held, reads') ∧ ∀ a ∈ reads', InDirectory fs l a) ↔
        SearchQuiet fs disk l dirname clusters := by
  induction clusters generalizing reads with
  | nil => exact iff_of_true ⟨reads, rfl, hreads⟩ trivial
  | cons c clusters ih =>
    have hturns : 128 < entriesPerBuffer + 1 + 0 := by decide
    have hbad := walk_iff disk (readSync [] (fs.clusterToLba c)).1 dirname false hturns hreads
    have hgood := walk_iff disk (readSync [] (fs.clusterToLba c)).1 dirname true hturns hreads
    have hbuf : (readSync held (fs.clusterToLba c)).1 = (readSync [] (fs.clusterToLba c)).1 := rfl
    rw [Fat32Inode.lookupLoop, SearchQuiet, ← hbad, ← hgood]
    simp only [release_readSync]
    rw [hbuf]
    constructor
    · rintro ⟨reads', h, hin⟩
      obtain ⟨⟨w, reads₁⟩, hw, h⟩ := bind_eq_ok.mp h
      cases w with
      | fail =>
        cases h
        exact .inl ⟨_, hw, hin⟩
      | found info =>
        obtain ⟨node, -, h⟩ := bind_eq_ok.mp h
        cases h
      | done =>
        simp only at h
        obtain ⟨more, rfl⟩ := lookupLoop_prefix h
        have hin₁ : ∀ a ∈ reads₁, InDirectory fs l a :=
          fun a ha => hin a (List.mem_append_left _ ha)
        exact .inr ⟨⟨reads₁, hw, hin₁⟩, (ih hin₁).mp ⟨_, h, hin⟩⟩
    · rintro (⟨reads₁, hw, hin₁⟩ | ⟨⟨reads₁, hw, hin₁⟩, hrest⟩)
      · rw [hw, ok_bind]
        exact ⟨reads₁, rfl, hin₁⟩
      · rw [hw, ok_bind]
        exact (ih hin₁).mpr hrest

/-- A lookup is right exactly where there is no live entry with the name and the search is quiet. -/
theorem fatLookup_iff (fs : Fat32FS) (disk : Mem) (node : Fat32Inode)
    (hdir : node.dirType = .folder) (held : List Nat)
    (dirname : List UInt8) : LookupRight fs disk node held dirname ↔
      (∀ a, (dirname, a) ∉ liveNames disk [] (dirPlaces fs node.clustersNumber)) ∧
        SearchQuiet fs disk node.clustersNumber dirname node.clustersNumber := by
  have hlookup : Fat32Inode.lookup fs node disk held dirname =
      Fat32Inode.lookupLoop fs disk dirname node.clustersNumber held [] := by
    rw [Fat32Inode.lookup, if_neg (by simp [hdir])]
  have hnone : ∀ a ∈ ([] : List Nat), InDirectory fs node.clustersNumber a :=
    fun a ha => by cases ha
  have hsearch := search_iff disk dirname node.clustersNumber held hnone
  unfold LookupRight
  rw [hlookup, ← hsearch]
  constructor
  · rintro ⟨res, reads, h, hin, hres⟩
    cases res with
    | none => exact ⟨hres, reads, h, hin⟩
    | some child =>
      have := lookupLoop_found h
      omega
  · rintro ⟨hres, reads, h, hin⟩
    exact ⟨none, reads, h, hin, hres⟩

end

/-- A directory in the cluster 2 with the file A.TXT, a deleted file, and the file b with a
long entry. -/
def mixedDir : Mem := fun x =>
  let entries : List (List UInt8) := [
    [65, 32, 32, 32, 32, 32, 32, 32, 84, 88, 84, 0x20],
    [0xE5, 32, 32, 32, 32, 32, 32, 32, 32, 32, 32, 0x20],
    [0x41, 98, 0, 0, 0, 0, 0, 0, 0, 0, 0, 0x0F, 0, 0xC0],
    [66, 32, 32, 32, 32, 32, 32, 32, 32, 32, 32, 0x20]]
  (entries.getD ((x - 8192) / 32) []).getD ((x - 8192) % 32) 0

theorem mixedDir_long : Fat32Inode.subDirOf mixedDir [8256] 8288 4 = .entry [98] 8288 4 := by
  have hsum : dirShortChkSum mixedDir 8288 = 0xC0 := by decide +kernel
  simp only [Fat32Inode.subDirOf, hsum]
  rfl

/-- A lookup of a name that is not there, past a short, a deleted and a long name. -/
theorem lookup_sample : LookupRight sampleFs mixedDir ⟨2, .folder, [2], 4096⟩ [] [67] := by
  refine (fatLookup_iff sampleFs mixedDir ⟨2, .folder, [2], 4096⟩ rfl [] [67]).mpr
    ⟨fun a ha => ?_, .inr ⟨?_, trivial⟩⟩
  · have hlive : liveNames mixedDir [] (dirPlaces sampleFs [2]) =
        [([65, 46, 84, 88, 84], 8192), ([98], 8288)] := by
      decide +kernel
    rw [hlive] at ha
    simp at ha
  · have hreads : ∀ j ≤ 4, (readSync [] (sampleFs.clusterToLba 2)).1.Reads sampleFs [2] j := by
      intro j hj
      refine ⟨?_, 2, List.mem_singleton_self 2, ?_, ?_⟩
      · show 0 + 32 * j + 32 ≤ 4096
        omega
      · show 8192 ≤ 4096 * 2 + 0 + 32 * j
        omega
      · show 4096 * 2 + 0 + 32 * j + 32 ≤ 8192 + 4096
        omega
    have hone : ∀ j ≤ 1, mixedDir ((readSync [] (sampleFs.clusterToLba 2)).1.place j + 11) ≠
        fat32LongFilename → Record sampleFs mixedDir [2] (readSync [] (sampleFs.clusterToLba 2)).1
          j j :=
      fun j hj hshort => ⟨Nat.le_refl j, fun k hl hu => by omega, hshort, fun k hl hu =>
        hreads k (by omega)⟩
    have htwo : Record sampleFs mixedDir [2] (readSync [] (sampleFs.clusterToLba 2)).1 2 3 := by
      refine ⟨by decide, fun k hl hu => ?_, by decide, fun k hl hu => hreads k (by omega)⟩
      obtain rfl : k = 2 := by omega
      decide
    exact .next (by decide) (hone 0 (by decide) (by decide)) rfl (by decide)
      (.next (by decide) (hone 1 (by decide) (by decide)) rfl (by decide)
        (.next (by decide) htwo mixedDir_long (by decide)
          (.stop (hreads 4 (Nat.le_refl 4)) (by decide))))

/-- A directory in the cluster 2 with the file A.TXT. -/
def sampleDir : Mem := fun x => [65, 32, 32, 32, 32, 32, 32, 32, 84, 88, 84, 0x20].getD (x - 8192) 0

/-- The padding of the short name is not stripped, so the file is not found. -/
theorem lookup_padded : ([65, 46, 84, 88, 84], 8192) ∈ liveNames sampleDir []
    (dirPlaces sampleFs [2]) ∧ Fat32Inode.lookup sampleFs ⟨2, .folder, [2], 4096⟩ sampleDir []
      [65, 46, 84, 88, 84] = .ok (none, [], [8192, 8224]) ∧
    ¬LookupRight sampleFs sampleDir ⟨2, .folder, [2], 4096⟩ [] [65, 46, 84, 88, 84] := by
  have hlive : liveNames sampleDir [] (dirPlaces sampleFs [2]) =
      [([65, 46, 84, 88, 84], 8192)] := by
    decide +kernel
  have hrun : Fat32Inode.lookup sampleFs ⟨2, .folder, [2], 4096⟩ sampleDir []
      [65, 46, 84, 88, 84] = .ok (none, [], [8192, 8224]) := rfl
  have hmem : ([65, 46, 84, 88, 84], 8192) ∈ liveNames sampleDir [] (dirPlaces sampleFs [2]) := by
    rw [hlive]
    exact List.mem_singleton.mpr rfl
  refine ⟨hmem, hrun, ?_⟩
  rintro ⟨res, reads, h, -, hres⟩
  rw [hrun] at h
  cases h
  exact hres 8192 hmem

end OsKernel.Fs.Fat

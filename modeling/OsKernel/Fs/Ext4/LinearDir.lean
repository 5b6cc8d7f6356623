import OsKernel.Fs.Ext4.FileBytes
import OsKernel.Fs.Ext4.ReadSubDir
import OsKernel.Mm.Userspace.Window

/-! Directories without an index as chains of records, and what a user gets who lists them in
pieces.  The file pointer is always at a record, so what is listed and what is left are two parts of
one list. -/

namespace OsKernel.Fs.Ext4

open Lib Hsai Mm Lib.BuddySystem

/-! ### Directories -/

/-- The records of a block from an offset on; the last one is the checksum at the end of
the block. -/
inductive TailChain (size : Nat) (m : Mem) : Nat → List DirEntry → Prop
  | tail {off : Nat} : off + 12 = size → (direntAt m off).inode = 0 →
      (direntAt m off).recLen = 12 → (direntAt m off).fileType = 0xde →
      TailChain size m off [direntAt m off]
  | cons {off : Nat} {es : List DirEntry} :
      8 + (direntAt m off).name.length ≤ (direntAt m off).recLen →
      ((direntAt m off).inode = 0 → (direntAt m off).fileType ≠ 0xde) →
      TailChain size m (off + (direntAt m off).recLen) es →
      TailChain size m off (direntAt m off :: es)

theorem TailChain.fits {size off : Nat} {m : Mem} {es : List DirEntry}
    (h : TailChain size m off es) : off + 12 ≤ size := by
  induction h with
  | tail h => exact Nat.le_of_eq h
  | cons _ _ _ ih => omega

/-- The blocks below `n` are in initialised extents. -/
def Ext4Inode.MappedTo (inode : Ext4Inode) (v : Volume) (d n : Nat) : Prop :=
  ∀ b < n, ∃ e, v.HasExtent d inode.root e ∧ e.initialised = true ∧ e.Contains b

/-- A block below `n` is found. -/
theorem Ext4Inode.MappedTo.find {inode : Ext4Inode} {v : Volume} {d n : Nat}
    (hmap : inode.MappedTo v d n) (h : v.TreeWf d inode.root) {b : Nat} (hb : b < n) :
    ∃ e, v.HasExtent d inode.root e ∧ e.initialised = true ∧ e.Contains b ∧
      v.find d inode.root b = some (e.mapped b) := by
  obtain ⟨e, he, hinit, hc⟩ := hmap b hb
  refine ⟨e, he, hinit, hc, Volume.find_mapped h he hc fun e' he' hle => ?_⟩
  cases hun : e'.initialised with
  | true => rfl
  | false =>
    -- its first block is below `n`, hence in another extent too
    have hpos := extent_pos he' hun
    have hlt : e'.start < n := by have := hc.1; omega
    obtain ⟨e'', he'', hinit'', hc''⟩ := hmap e'.start hlt
    have hsame := Volume.HasExtent.unique h he' he'' ⟨Nat.le_refl _, by omega⟩ hc''
    rw [← hsame, hun] at hinit''
    cases hinit''

/-- A directory without an index, whose blocks are in extents and are chains of records up to
a checksum. -/
structure LinearDir (inode : Ext4Inode) (v : Volume) (d : Nat) where
  count : Nat
  records : Nat → List DirEntry
  extents : inode.extents = true
  tree : v.TreeWf d inode.root
  size : inode.calSize v = count * v.blockSize
  mapped : inode.MappedTo v d count
  chain : ∀ b < count, ∀ e, v.HasExtent d inode.root e → e.Contains b →
    TailChain v.blockSize (v.readBlock (e.mapped b)) 0 (records b)

/-- The bytes that records take in the directory. -/
def span (es : List DirEntry) : Nat := (es.map (·.recLen)).sum

/-- The records that are not deleted. -/
def live (es : List DirEntry) : List DirEntry := es.filter (·.inode ≠ 0)

/-- What the user gets of an entry. -/
def DirEntry.bytes (e : DirEntry) : List UInt8 := e.lxdir.bytes ++ e.name ++ [0]

@[simp] theorem DirEntry.bytes_length (e : DirEntry) : e.bytes.length = e.dentsz := by
  simp only [DirEntry.bytes, List.length_append, LinuxDirent64.bytes_length, List.length_singleton,
    DirEntry.dentsz]
  omega

@[simp] theorem span_nil : span [] = 0 := rfl

@[simp] theorem span_cons (e : DirEntry) (es : List DirEntry) :
    span (e :: es) = e.recLen + span es := rfl

@[simp] theorem span_append (es es' : List DirEntry) : span (es ++ es') = span es + span es' := by
  simp [span]

@[simp] theorem live_append (es es' : List DirEntry) : live (es ++ es') = live es ++ live es' :=
  List.filter_append ..

theorem live_cons_dead {e : DirEntry} {es : List DirEntry} (h : e.inode = 0) :
    live (e :: es) = live es := by
  simp [live, h]

theorem live_cons_live {e : DirEntry} {es : List DirEntry} (h : e.inode ≠ 0) :
    live (e :: es) = e :: live es := by
  simp [live, h]

namespace LinearDir

variable {inode : Ext4Inode} {v : Volume} {d : Nat} (D : LinearDir inode v d)

/-- The records from the block `b` on. -/
def recordsFrom (b : Nat) : List DirEntry := (List.range' b (D.count - b)).flatMap D.records

/-- All records, the checksums among them. -/
def all : List DirEntry := D.recordsFrom 0

/-- `off` is the place of a record of the directory, or its end. -/
def Boundary (off : Nat) : Prop := ∃ before rest, D.all = before ++ rest ∧ off = span before

/-- The records `rest` are those from `off` on, which is at `blk` in the buffer of a block. -/
structure InBlock (off : Nat) (blk : BlockPtr) (rest : List DirEntry) : Prop where
  block : ∃ b es, b < D.count ∧ v.find d inode.root b = some blk.buf ∧
    TailChain v.blockSize (v.readBlock blk.buf) blk.ptr es ∧ off = b * v.blockSize + blk.ptr ∧
    rest = es ++ D.recordsFrom (b + 1)

/-- The records `rest` are those from `off` on. -/
inductive At : Nat → List DirEntry → Prop
  | finish : At (D.count * v.blockSize) []
  | inBlock {off : Nat} {blk : BlockPtr} {rest : List DirEntry} : D.InBlock off blk rest →
    At off rest

theorem recordsFrom_lt {b : Nat} (hb : b < D.count) : D.recordsFrom b = D.records b ++
    D.recordsFrom (b + 1) := by
  unfold recordsFrom
  obtain ⟨n, hn⟩ : ∃ n, D.count - b = n + 1 := ⟨D.count - b - 1, by omega⟩
  rw [hn, List.range'_succ, List.flatMap_cons, show D.count - (b + 1) = n by omega]

theorem recordsFrom_count {b : Nat} (hb : D.count ≤ b) : D.recordsFrom b = [] := by
  unfold recordsFrom
  rw [Nat.sub_eq_zero_of_le hb]
  rfl

/-- The start of a block. -/
theorem at_block {b : Nat} (hb : b ≤ D.count) : D.At (b * v.blockSize) (D.recordsFrom b) := by
  by_cases hlt : b < D.count
  · obtain ⟨e, he, -, hc, hfind⟩ := D.mapped.find D.tree hlt
    have h : D.InBlock (b * v.blockSize) ⟨e.mapped b, 0⟩ (D.recordsFrom b) :=
      ⟨b, D.records b, hlt, hfind, D.chain b hlt e he hc, rfl, D.recordsFrom_lt hlt⟩
    exact .inBlock h
  · obtain rfl : b = D.count := by omega
    rw [D.recordsFrom_count (Nat.le_refl _)]
    exact .finish

theorem at_start : D.At 0 D.all := by
  have h := D.at_block (Nat.zero_le D.count)
  rwa [Nat.zero_mul] at h

variable {D} {off : Nat} {blk : BlockPtr} {rest : List DirEntry}

theorem InBlock.lt (h : D.InBlock off blk rest) : off + 12 ≤ inode.calSize v := by
  obtain ⟨b, es, hb, -, hchain, rfl, -⟩ := h.block
  have hfit := hchain.fits
  have hle : (b + 1) * v.blockSize ≤ D.count * v.blockSize := Nat.mul_le_mul_right _ hb
  rw [Nat.add_mul, Nat.one_mul] at hle
  rw [D.size]
  omega

theorem At.le (h : D.At off rest) : off ≤ inode.calSize v := by
  cases h with
  | finish => exact Nat.le_of_eq D.size.symm
  | inBlock h =>
    have := h.lt
    omega

/-- The record at a place in a block, and where the next one is. -/
theorem InBlock.next (h : D.InBlock off blk rest) : ∃ e es,
    e = direntAt (v.readBlock blk.buf) blk.ptr ∧ rest = e :: es ∧
    blk.ptr + 12 ≤ v.blockSize ∧ 0 < e.recLen ∧
    ((e.inode = 0 ∧ e.fileType = 0xde ∧ D.At (off + e.recLen) es) ∨
      ((e.inode = 0 → e.fileType ≠ 0xde) ∧ blk.ptr + 8 + e.name.length ≤ v.blockSize ∧
        D.InBlock (off + e.recLen) { blk with ptr := blk.ptr + e.recLen } es)) := by
  obtain ⟨b, es, hb, hfind, hchain, hoff, hrest⟩ := h.block
  have hfit := hchain.fits
  cases hchain with
  | tail hend hzero hlen htype =>
    refine ⟨_, _, rfl, hrest, hfit, by omega, .inl ⟨hzero, htype, ?_⟩⟩
    have hnext : D.At ((b + 1) * v.blockSize) (D.recordsFrom (b + 1)) := D.at_block hb
    rw [Nat.add_mul, Nat.one_mul, show b * v.blockSize + v.blockSize =
      off + (direntAt (v.readBlock blk.buf) blk.ptr).recLen by omega] at hnext
    exact hnext
  | cons hlen htype hchain =>
    have hfit' := hchain.fits
    refine ⟨_, _, rfl, hrest,
      hfit, by omega, .inr ⟨htype, by omega, ⟨b, _, hb, hfind, hchain, ?_, rfl⟩⟩⟩
    rw [hoff, Nat.add_assoc]

/-- Where the record is, from the offset alone. -/
theorem InBlock.div_mod (h : D.InBlock off blk rest) :
    v.find d inode.root (off / v.blockSize) = some blk.buf ∧ off % v.blockSize = blk.ptr := by
  obtain ⟨b, es, -, hfind, hchain, hoff, -⟩ := h.block
  have hfit := hchain.fits
  have hdiv : off / v.blockSize = b := by
    rw [hoff, Nat.add_comm, Nat.add_mul_div_right _ _ (by omega), Nat.div_eq_of_lt (by omega),
      Nat.zero_add]
  rw [hdiv]
  refine ⟨hfind, ?_⟩
  rw [hoff, Nat.add_comm, Nat.add_mul_mod_self_right, Nat.mod_eq_of_lt (by omega)]

theorem InBlock.at_next (h : D.InBlock off blk rest) {e : DirEntry} {es : List DirEntry}
    (he : rest = e :: es) : D.At (off + e.recLen) es ∧ 0 < e.recLen := by
  obtain ⟨e', es', -, hrest, -, hpos, hnext⟩ := h.next
  obtain ⟨rfl, rfl⟩ := List.cons.inj (he.symm.trans hrest)
  rcases hnext with ⟨-, -, hat⟩ | ⟨-, -, hin⟩
  · exact ⟨hat, hpos⟩
  · exact ⟨.inBlock hin, hpos⟩

/-! ### A turn of the loop -/

variable {σ : Type} {arch : Arch} {V : VirtualPageAllocator σ} {fuel : Nat} {st : LinerState σ}
  {e : DirEntry}
  {es : List DirEntry}

variable (D) in
/-- The state of the loop is at the records `rest`. -/
structure Inv (st : LinerState σ) (rest : List DirEntry) : Prop where
  place : D.At st.off rest
  blkNo : st.blk = none → st.blkNo = st.off / v.blockSize
  blk : ∀ blk, st.blk = some blk → D.InBlock st.off blk rest

theorem calSize_lt (inode : Ext4Inode) (v : Volume) : inode.calSize v < 2 ^ 64 := by
  have hlo := inode.sizeLo.toNat_lt
  have hhigh := inode.sizeHigh.toNat_lt
  unfold Ext4Inode.calSize
  split <;> omega

theorem InBlock.wordAdd_off (h : D.InBlock off blk (e :: es)) :
    wordAdd off e.recLen = off + e.recLen := by
  have hle := (h.at_next rfl).1.le
  have hlt := calSize_lt inode v
  exact Nat.mod_eq_of_lt (Nat.lt_of_le_of_lt hle hlt)

variable (arch V) in
/-- Before the end a turn is at the record that is next. -/
theorem Inv.turn (I : D.Inv st (e :: es)) (hfuel : d < fuel) : ∃ pins blk,
    D.InBlock st.off blk (e :: es) ∧
      inode.linerTurn arch V v fuel st = Ext4Inode.entryTurn arch V v { st with pins } blk := by
  cases hblk : st.blk with
  | some blk =>
    refine ⟨st.pins, blk, I.blk blk hblk, ?_⟩
    simp only [Ext4Inode.linerTurn, hblk]
    rw [← hblk]
  | none =>
    obtain ⟨off, hoff⟩ : ∃ off, st.off = off := ⟨_, rfl⟩
    obtain ⟨rest, hrest⟩ : ∃ rest, e :: es = rest := ⟨_, rfl⟩
    have hat := I.place
    rw [hoff, hrest] at hat
    cases hat with
    | finish => cases hrest
    | inBlock h =>
      obtain ⟨hfind, hmod⟩ := h.div_mod
      have hlt := h.lt
      obtain ⟨pins, hread, -⟩ :=
        Ext4Inode.finds D.extents D.tree hfuel (off / v.blockSize) st.pins
      rw [hfind] at hread
      refine ⟨pins, _, by rwa [hoff, hrest], ?_⟩
      rw [Ext4Inode.linerTurn, hblk]
      simp only
      rw [if_neg (by omega), I.blkNo hblk, hoff, hread, ok_bind]
      simp only [hmod]

/-- At the end the loop is left. -/
theorem Inv.turn_end (I : D.Inv st []) : inode.linerTurn arch V v fuel st = .ok (.leave st) := by
  have hnot : ∀ {off blk}, ¬D.InBlock off blk [] := fun h => by
    obtain ⟨_, _, -, hnil, -⟩ := h.next
    cases hnil
  have hblk : st.blk = none := by
    cases hblk : st.blk with
    | none => rfl
    | some blk => exact absurd (I.blk blk hblk) hnot
  obtain ⟨off, hoff⟩ : ∃ off, st.off = off := ⟨_, rfl⟩
  have hat := I.place
  rw [hoff] at hat
  rw [Ext4Inode.linerTurn, hblk]
  cases hat with
  | finish =>
    simp only
    rw [if_pos (by rw [hoff, D.size])]
  | inBlock h => exact absurd h hnot

variable (arch V) in
/-- A deleted record, or the checksum, is passed over. -/
theorem Inv.turn_dead (I : D.Inv st (e :: es)) (hfuel : d < fuel) (hdead : e.inode = 0) :
    ∃ st', inode.linerTurn arch V v fuel st = .ok (.again st') ∧ D.Inv st' es ∧
      st'.off = st.off + e.recLen ∧ st'.bufrest = st.bufrest ∧ st'.dst = st.dst ∧
        st'.kernel = st.kernel := by
  obtain ⟨pins, blk, h, hturn⟩ := I.turn arch V hfuel
  have hadd := h.wordAdd_off
  obtain ⟨e', es', he, hrest, hfit, -, hnext⟩ := h.next
  obtain ⟨rfl, rfl⟩ := List.cons.inj hrest
  rw [hturn, Ext4Inode.entryTurn, if_neg (by omega)]
  simp only [← he, hdead, if_true, hadd]
  rcases hnext with ⟨-, htype, hat⟩ | ⟨htype, -, hin⟩
  · rw [if_pos htype]
    exact ⟨_, rfl, ⟨hat, fun _ => rfl, fun blk h => nomatch h⟩, rfl, rfl, rfl, rfl⟩
  · rw [if_neg (htype hdead)]
    exact ⟨_, rfl, ⟨.inBlock hin, fun h => (nomatch h), fun blk h => by cases h; exact hin⟩,
      rfl, rfl, rfl, rfl⟩

variable (arch V) in
/-- An entry that does not fit ends the loop. -/
theorem Inv.turn_full (I : D.Inv st (e :: es)) (hfuel : d < fuel) (hlive : e.inode ≠ 0)
    (hfull : st.bufrest < e.dentsz) : ∃ st',
      inode.linerTurn arch V v fuel st = .ok (.leave st') ∧
      st'.off = st.off ∧ st'.dst = st.dst ∧ st'.kernel = st.kernel := by
  obtain ⟨pins, blk, h, hturn⟩ := I.turn arch V hfuel
  obtain ⟨e', es', he, hrest, hfit, -, -⟩ := h.next
  obtain ⟨rfl, rfl⟩ := List.cons.inj hrest
  rw [hturn, Ext4Inode.entryTurn, if_neg (by omega)]
  simp only [← he]
  rw [if_neg hlive, if_pos hfull]
  exact ⟨_, rfl, rfl, rfl, rfl⟩

section

variable {reg : Region} {B : Blocks} {Base : Nat → Nat → Prop} {ι : Type} {W : Spaces ι}
  {i : ι} {A : AddrSpace}
  {start stop P : Nat} {st : LinerState BuddyAllocator}

/-- An entry that fits goes to the user. -/
theorem Inv.turn_live (I : D.Inv st (e :: es)) (hfuel : d < fuel) (hlive : e.inode ≠ 0)
    (C : UserWindow reg arch st.kernel B Base W i A start stop)
    (J : AtPos arch st.kernel ⟨A.root, true⟩ start stop st.dst P)
    (hrest : st.bufrest = stop - st.dst.ptr)
    (hfit : e.dentsz ≤ st.bufrest) : ∃ st' P',
      inode.linerTurn arch buddyPages v fuel st = .ok (.again st') ∧ D.Inv st' es ∧
      st'.off = st.off + e.recLen ∧
      UserWindow reg arch st'.kernel B Base W i A start stop ∧
      AtPos arch st'.kernel ⟨A.root, true⟩ start stop st'.dst P' ∧
      st'.bufrest = stop - st'.dst.ptr ∧
      st'.dst.ptr = st.dst.ptr + e.dentsz ∧
      st'.kernel.mem = st.kernel.mem.scatter (userLoc arch buddyPages st.kernel ⟨A.root, true⟩)
        st.dst.ptr e.bytes := by
  obtain ⟨pins, blk, h, hturn⟩ := I.turn arch buddyPages hfuel
  have hadd := h.wordAdd_off
  obtain ⟨e', es', he, hes, hin, -, hnext⟩ := h.next
  obtain ⟨rfl, rfl⟩ := List.cons.inj hes
  have hsize : e.dentsz = LinuxDirent64.size + e.name.length + 1 := by
    unfold DirEntry.dentsz
    omega
  obtain ⟨hroom, hnext⟩ := hnext.resolve_left (fun h => hlive h.1) |>.2
  -- the entry, its name and the zero behind it
  obtain ⟨s₁, k₁, P₁, hrun₁, C₁, J₁, hptr₁, hmem₁⟩ :=
    C.write_fits J e.lxdir.bytes (by rw [LinuxDirent64.bytes_length]; omega)
  rw [LinuxDirent64.bytes_length] at hptr₁
  obtain ⟨s₂, k₂, P₂, hrun₂, C₂, J₂, hptr₂, hmem₂⟩ :=
    C₁.write_fits J₁ e.name (by omega)
  obtain ⟨s₃, k₃, P₃, hrun₃, C₃, J₃, hptr₃, hmem₃⟩ :=
    C₂.write_fits J₂ [0] (by rw [List.length_singleton]; omega)
  rw [List.length_singleton] at hptr₃
  rw [hturn, Ext4Inode.entryTurn, if_neg (by omega)]
  simp only [← he]
  rw [if_neg hlive, if_neg (by omega), if_neg (by omega), hrun₁, ok_bind, hrun₂, ok_bind,
    hrun₃, ok_bind, hadd]
  refine ⟨_, P₃, rfl, ⟨.inBlock hnext, fun h => (nomatch h),
    fun blk h => by cases h; exact hnext⟩, rfl, C₃, J₃,
    C₃.restSpace_eq J₃, ?_, ?_⟩
  · simp only
    omega
  · have hloc₁ := C.userLoc_congr C₁
    have hloc₂ := C.userLoc_congr C₂
    simp only
    rw [hmem₃, hmem₂, hmem₁, hloc₂, hloc₁, hptr₂, hptr₁, DirEntry.bytes,
      Mem.scatter_append, Mem.scatter_append, List.length_append, LinuxDirent64.bytes_length,
      Nat.add_assoc]

/-- The first live record is larger than the room. -/
def Stopped (room : Nat) (rest : List DirEntry) : Prop :=
  ∀ e, (live rest).head? = some e → room < e.dentsz

/-- There is room for the first live record. -/
def Roomy (room : Nat) (rest : List DirEntry) : Prop :=
  ∀ e, (live rest).head? = some e → e.dentsz ≤ room

theorem linerEnd_eq {offBk : Nat} (hat : D.At st.off rest) (hle : offBk ≤ st.off) :
    Ext4Inode.linerEnd offBk st =
      (st.off + span [] - offBk, st.dst, st.kernel, (Ext4Inode.linerEnd offBk st).2.2.2) := by
  unfold Ext4Inode.linerEnd
  rw [wordSub_of_le hle (Nat.lt_of_le_of_lt hat.le (calSize_lt inode v)), span_nil, Nat.add_zero]

/-- The loop gives the live ones of some records to the user, and stops at the next one, if there
is any. -/
theorem Inv.loop (arch : Arch) (turns offBk : Nat) (I : D.Inv st rest) (hfuel : d < fuel)
    (C : UserWindow reg arch st.kernel B Base W i A start stop)
    (J : AtPos arch st.kernel ⟨A.root, true⟩ start stop st.dst P)
    (hrest : st.bufrest = stop - st.dst.ptr)
    (hturns : rest.length < turns) (hoff : offBk ≤ st.off) : ∃ es rest' s' k' pins' P',
      rest = es ++ rest' ∧ inode.linerLoop arch buddyPages v fuel offBk turns st =
      .ok (st.off + span es - offBk, s', k', pins') ∧
      D.At (st.off + span es) rest' ∧ AtPos arch k' ⟨A.root, true⟩ start stop s' P' ∧
      s'.ptr = st.dst.ptr + ((live es).flatMap DirEntry.bytes).length ∧
      k'.mem = st.kernel.mem.scatter (userLoc arch buddyPages st.kernel ⟨A.root, true⟩)
        st.dst.ptr ((live es).flatMap DirEntry.bytes) ∧ Stopped (stop - s'.ptr) rest' := by
  induction rest generalizing turns st P with
  | nil =>
    obtain ⟨turns, rfl⟩ : ∃ n, turns = n + 1 := ⟨turns - 1, by omega⟩
    refine ⟨[], [], st.dst, st.kernel, (Ext4Inode.linerEnd offBk st).2.2.2, P, rfl, ?_, I.place,
      J, rfl, rfl,
      fun e h => nomatch h⟩
    rw [Ext4Inode.linerLoop, I.turn_end, ok_bind, ← linerEnd_eq I.place hoff, ite_self]
  | cons e es ih =>
    obtain ⟨turns, rfl⟩ : ∃ n, turns = n + 1 := ⟨turns - 1, by omega⟩
    rw [List.length_cons] at hturns
    rw [Ext4Inode.linerLoop]
    by_cases hzero : st.bufrest = 0
    · rw [if_pos hzero]
      refine ⟨[], e :: es, st.dst, st.kernel, (Ext4Inode.linerEnd offBk st).2.2.2, P, rfl, ?_,
        I.place, J, rfl, rfl,
        fun e' h => ?_⟩
      · rw [← linerEnd_eq I.place hoff]
      · unfold DirEntry.dentsz
        omega
    rw [if_neg hzero]
    by_cases hdead : e.inode = 0
    · obtain ⟨st', hturn, I', hoff', hbuf, hdst, hk⟩ := I.turn_dead arch buddyPages hfuel hdead
      obtain ⟨es', rest', s', k', pins', P', hsplit, hrun, hat, J', hptr, hmem, hstop⟩ :=
        ih turns I' (hk ▸ C) (by rw [hk, hdst]; exact J) (by rw [hbuf, hdst]; exact hrest)
          (by omega) (by omega)
      rw [hoff', hdst, hk] at *
      rw [hturn, ok_bind]
      refine ⟨e :: es', rest', s', k', pins',
        P', by rw [hsplit, List.cons_append], ?_, ?_, J', ?_, ?_, hstop⟩
      · simp only [hrun, span_cons, Nat.add_assoc]
      · rwa [span_cons, ← Nat.add_assoc]
      · rw [live_cons_dead hdead, hptr]
      · rw [live_cons_dead hdead, hmem]
    by_cases hfull : st.bufrest < e.dentsz
    · obtain ⟨st', hturn, hoff', hdst, hk⟩ := I.turn_full arch buddyPages hfuel hdead hfull
      have hend := linerEnd_eq (show D.At st'.off _ from hoff' ▸ I.place) (hoff' ▸ hoff)
      refine ⟨[], e :: es, st.dst, st.kernel, (Ext4Inode.linerEnd offBk st').2.2.2, P, rfl, ?_,
        I.place, J, rfl, rfl,
        fun e' h => ?_⟩
      · rw [hoff', hdst, hk] at hend
        rw [hturn, ok_bind, ← hend]
      · rw [live_cons_live hdead] at h
        cases h
        omega
    · obtain ⟨st', P₁, hturn, I', hoff', C', J', hbuf, hptr₁, hmem₁⟩ :=
        I.turn_live hfuel hdead C J hrest (Nat.le_of_not_lt hfull)
      obtain ⟨es', rest', s', k', pins', P', hsplit, hrun, hat, J'', hptr, hmem, hstop⟩ :=
        ih turns I' C' J' hbuf (by omega) (by omega)
      rw [hturn, ok_bind]
      refine ⟨e :: es', rest', s', k', pins',
        P', by rw [hsplit, List.cons_append], ?_, ?_, J'', ?_, ?_, hstop⟩
      · simp only [hrun, hoff', span_cons, Nat.add_assoc]
      · rwa [hoff', Nat.add_assoc] at hat
      · rw [live_cons_live hdead, List.flatMap_cons, List.length_append, DirEntry.bytes_length,
          hptr, hptr₁, Nat.add_assoc]
      · rw [live_cons_live hdead, List.flatMap_cons, Mem.scatter_append, DirEntry.bytes_length,
          hmem, hmem₁, hptr₁, C.userLoc_congr C']

end

/-! ### Calls one after the other -/

/-- The stream is at some place of a buffer of a user, or has no room. -/
def Ready (arch : Arch) (c : ListCall BuddyAllocator) : Prop :=
  c.dst.restSpace = 0 ∨
    ∃ (reg : Region) (B : Blocks) (Base : Nat → Nat → Prop) (ι : Type) (W : Spaces ι)
      (i : ι) (A : AddrSpace) (start stop P : Nat),
      UserWindow reg arch c.kernel B Base W i A start stop ∧
      AtPos arch c.kernel ⟨A.root, true⟩ start stop c.dst P

variable (D) in
/-- The calls from `j` on, with the file pointer at `off`, give the entries `es` until one of them
returns zero.  Each one writes to its buffer only, and puts the file pointer at a record. -/
inductive Listing (arch : Arch) (fuel turns : Nat) (calls : Nat → ListCall BuddyAllocator) :
    Nat → Nat → List DirEntry → Prop
  | done {j off : Nat} {s : UserspaceStream} {k : Kernel BuddyAllocator} {pins : Pins} :
      inode.readLinerSubDir arch buddyPages v fuel turns (calls j).kernel (calls j).dst off
        (calls j).pins = .ok (0, s, k, pins) →
      s.ptr = (calls j).dst.ptr → k.mem = (calls j).kernel.mem →
      Listing arch fuel turns calls j off []
  | more {j off n : Nat} {s : UserspaceStream} {k : Kernel BuddyAllocator} {pins : Pins}
      {es es' : List DirEntry} :
        inode.readLinerSubDir arch buddyPages v fuel turns (calls j).kernel (calls j).dst off
        (calls j).pins = .ok (n, s, k, pins) →
      0 < n → D.Boundary (off + n) →
      (es.flatMap DirEntry.bytes).length ≤ (calls j).dst.restSpace →
      s.ptr = (calls j).dst.ptr + (es.flatMap DirEntry.bytes).length →
      k.mem = (calls j).kernel.mem.scatter
        (userLoc arch buddyPages (calls j).kernel (calls j).dst.pt)
        (calls j).dst.ptr (es.flatMap DirEntry.bytes) →
      Listing arch fuel turns calls (j + 1) (off + n) es' →
      Listing arch fuel turns calls j off (es ++ es')

/-- What one call gives. -/
theorem At.call {turns off : Nat} (hat : D.At off rest) (hfuel : d < fuel)
    (hturns : rest.length < turns)
    {c : ListCall BuddyAllocator} (hc : Ready arch c) (hroom : Roomy c.dst.restSpace rest) :
    ∃ es rest' s k pins, rest = es ++ rest' ∧ D.At (off + span es) rest' ∧
      inode.readLinerSubDir arch buddyPages v fuel turns c.kernel c.dst off c.pins =
      .ok (span es, s, k, pins) ∧
      s.ptr = c.dst.ptr + ((live es).flatMap DirEntry.bytes).length ∧
      ((live es).flatMap DirEntry.bytes).length ≤ c.dst.restSpace ∧
      k.mem = c.kernel.mem.scatter (userLoc arch buddyPages c.kernel c.dst.pt) c.dst.ptr
        ((live es).flatMap DirEntry.bytes) ∧ (es = [] → live rest = []) := by
  have hstop : ∀ room, Roomy room rest → Stopped room rest → live rest = [] :=
      fun room hroom hstop => by
    cases hlive : live rest with
    | nil => rfl
    | cons e es =>
      have h₁ := hroom e (by rw [hlive]; rfl)
      have h₂ := hstop e (by rw [hlive]; rfl)
      omega
  obtain ⟨st, hst⟩ : ∃ st : LinerState BuddyAllocator, st = {
    off, blkNo := off / v.blockSize, blk := none, bufrest := c.dst.restSpace, dst :=
    c.dst, kernel := c.kernel,
    pins := c.pins } := ⟨_, rfl⟩
  have I : D.Inv st rest := by
    subst hst
    exact ⟨hat, fun _ => rfl, fun blk h => nomatch h⟩
  unfold Ext4Inode.readLinerSubDir
  rw [← hst]
  rcases hc with hzero | ⟨reg, B, Base, ι, W, i, A, start, stop, P, C, J⟩
  · obtain ⟨turns, rfl⟩ : ∃ n, turns = n + 1 := ⟨turns - 1, by omega⟩
    refine ⟨[], rest, c.dst, c.kernel, (Ext4Inode.linerEnd off st).2.2.2, rfl, hat, ?_, rfl,
      Nat.zero_le _, rfl,
      fun _ => hstop _ hroom fun e _ => ?_⟩
    · have hend := linerEnd_eq I.place (show off ≤ st.off by rw [hst])
      rw [Ext4Inode.linerLoop, if_pos (by rw [hst]; exact hzero), hend, hst, span_nil, Nat.add_zero,
        Nat.sub_self]
    · rw [hzero]
      unfold DirEntry.dentsz
      omega
  · have hspace := C.restSpace_eq J
    obtain ⟨es, rest', s', k', pins', P', hsplit, hrun, hat', J', hptr, hmem, hfull⟩ :=
      I.loop arch turns off hfuel (by rw [hst]; exact C) (by rw [hst]; exact J)
        (by rw [hst]; exact hspace) hturns (by rw [hst])
    have hhigh := J'.high
    rw [hst] at hrun hat' hptr hmem
    refine ⟨es, rest', s', k', pins', hsplit, hat', ?_, hptr, ?_, ?_, fun hnil => ?_⟩
    · rw [hst, hrun, Nat.add_sub_cancel_left]
    · simp only at hptr
      omega
    · rw [J.table]
      exact hmem
    · subst hnil
      rw [hsplit, List.nil_append] at hstop hroom ⊢
      refine hstop _ hroom ?_
      rw [hspace]
      rwa [hptr] at hfull

theorem At.pos (h : D.At off (e :: es)) : 0 < e.recLen := by
  obtain ⟨rest, hrest⟩ : ∃ rest, e :: es = rest := ⟨_, rfl⟩
  rw [hrest] at h
  cases h with
  | finish => cases hrest
  | inBlock h => exact (h.at_next hrest.symm).2

theorem At.listing {turns : Nat} (hfuel : d < fuel) (hturns : D.all.length < turns)
    {calls : Nat → ListCall BuddyAllocator} (hready : ∀ j, Ready arch (calls j))
    (hroom : ∀ j before rest, D.all = before ++ rest →
      inode.filePtr arch buddyPages v fuel turns calls j = .ok (span before) →
      Roomy (calls j).dst.restSpace rest)
    (n j : Nat) (before : List DirEntry) (hn : rest.length ≤ n) (hall : D.all = before ++ rest)
    (hat : D.At (span before) rest)
    (hptr : inode.filePtr arch buddyPages v fuel turns calls j = .ok (span before)) :
    D.Listing arch fuel turns calls j (span before) (live rest) := by
  induction n generalizing j before rest with
  | zero =>
    obtain rfl := List.length_eq_zero_iff.mp (Nat.le_zero.mp hn)
    obtain ⟨es, rest', s, k, pins, hsplit, -, hrun, hs, -, hmem, -⟩ :=
      hat.call hfuel (Nat.zero_lt_of_lt hturns) (hready j) fun e h => nomatch h
    obtain ⟨rfl, -⟩ := List.append_eq_nil_iff.mp hsplit.symm
    exact .done hrun hs hmem
  | succ n ih =>
    have hlen : rest.length < turns := by
      have := congrArg List.length hall
      rw [List.length_append] at this
      omega
    obtain ⟨es, rest', s, k, pins, rfl, hat', hrun, hs, hle, hmem, hnil⟩ :=
      hat.call hfuel hlen (hready j) (hroom j before rest hall hptr)
    cases es with
    | nil =>
      rw [hnil rfl]
      exact .done hrun hs hmem
    | cons e es =>
      have hpos : 0 < span (e :: es) := by
        rw [span_cons]
        exact Nat.add_pos_left hat.pos _
      have hnext : D.all = (before ++ e :: es) ++ rest' := by rw [hall, List.append_assoc]
      rw [← span_append] at hat'
      have hptr' : inode.filePtr arch buddyPages v fuel turns calls (j + 1) =
          .ok (span (before ++ e :: es)) := by
        have hlt := Nat.lt_of_le_of_lt hat'.le (calSize_lt inode v)
        rw [Ext4Inode.filePtr, hptr, ok_bind, hrun, ok_bind, span_append]
        rw [span_append] at hlt
        exact congrArg Except.ok (Nat.mod_eq_of_lt hlt)
      have hrest : D.Listing arch fuel turns calls (j + 1) (span (before ++ e :: es))
          (live rest') :=
        ih (j + 1) _ (by rw [List.length_append, List.length_cons] at hn; omega) hnext hat' hptr'
      rw [live_append]
      refine .more hrun hpos ⟨before ++ e :: es, rest', hnext, (span_append ..).symm⟩
        hle hs hmem ?_
      rwa [span_append] at hrest

end LinearDir

open LinearDir in
/-- A directory without an index is listed in pieces, whatever the buffers are: as long as each one
has room for the next entry, each entry comes once, in the order of the directory. -/
theorem linear_dir_listing (arch : Arch) (inode : Ext4Inode) (v : Volume) (d : Nat)
    (D : LinearDir inode v d) (fuel turns : Nat) (hfuel : d < fuel) (hturns : D.all.length < turns)
    (calls : Nat → ListCall BuddyAllocator)
    (hready : ∀ j, Ready arch (calls j))
    (hroom : ∀ j before rest, D.all = before ++ rest →
      inode.filePtr arch buddyPages v fuel turns calls j = .ok (span before) →
      Roomy (calls j).dst.restSpace rest) :
    D.Listing arch fuel turns calls 0 0 (live D.all) :=
  D.at_start.listing hfuel hturns hready hroom D.all.length 0 [] (Nat.le_refl _) rfl rfl

/-! A directory of one block, with one entry and a deleted one. -/

def linearInode : Ext4Inode where
  extents := true
  blocks := bytesOf [10, 243, 1, 0, 4, 0, 0, 0, 0, 0, 0, 0, 0, 0, 0, 0, 1, 0, 0, 0, 30, 0, 0, 0]
  sizeLo := 1024
  sizeHigh := 0

/-- The entry `a`, a deleted one of 1000 bytes, and the checksum. -/
def linearVolume : Volume where
  blockSize := 1024
  support64bit := true
  readBlock _ := fun a =>
    if a < 1012 then (bytesOf [11, 0, 0, 0, 12, 0, 1, 1, 97, 0, 0, 0, 0, 0, 0, 0, 232, 3, 1, 1, 98])
      a
    else (bytesOf [0, 0, 0, 0, 12, 0, 0, 222]) (a - 1012)

theorem linear_chain : TailChain 1024 (linearVolume.readBlock 30) 0
    [⟨11, 12, 1, [97]⟩, ⟨0, 1000, 1, [98]⟩, ⟨0, 12, 222, []⟩] := by
  have h₀ : direntAt (linearVolume.readBlock 30) 0 = ⟨11, 12, 1, [97]⟩ := rfl
  have h₁ : direntAt (linearVolume.readBlock 30) 12 = ⟨0, 1000, 1, [98]⟩ := rfl
  have h₂ : direntAt (linearVolume.readBlock 30) 1012 = ⟨0, 12, 222, []⟩ := rfl
  have t₂ := @TailChain.tail 1024 (linearVolume.readBlock 30) 1012
  have t₁ := @TailChain.cons 1024 (linearVolume.readBlock 30) 12 [⟨0, 12, 222, []⟩]
  have t₀ := @TailChain.cons 1024 (linearVolume.readBlock 30)
    0 [⟨0, 1000, 1, [98]⟩, ⟨0, 12, 222, []⟩]
  rw [h₂] at t₂
  rw [h₁] at t₁
  rw [h₀] at t₀
  exact t₀ (by decide) (by decide) (t₁ (by decide) (by decide) (t₂ rfl rfl rfl rfl))

theorem linear_wf : linearVolume.TreeWf 0 linearInode.root := by
  refine ⟨rfl, ⟨by decide, by decide⟩, fun i hi => ?_⟩
  have : linearInode.root.count = 1 := rfl
  omega

theorem linear_extent (e : Extent) (h : linearVolume.HasExtent 0 linearInode.root e) :
    e = ⟨0, 1, 30, true⟩ := by
  obtain ⟨i, hi, rfl⟩ := h
  have hcount : linearInode.root.count = 1 := rfl
  obtain rfl : i = 0 := by omega
  decide

def linearDir : LinearDir linearInode linearVolume 0 where
  count := 1
  records _ := [⟨11, 12, 1, [97]⟩, ⟨0, 1000, 1, [98]⟩, ⟨0, 12, 222, []⟩]
  extents := rfl
  tree := linear_wf
  size := rfl
  mapped b hb := ⟨⟨0, 1, 30, true⟩, ⟨0, by decide, by decide⟩, rfl, Nat.zero_le b, hb⟩
  chain b hb e he _ := by
    obtain rfl := linear_extent e he
    obtain rfl : b = 0 := by omega
    exact linear_chain

open LinearDir in
/-- The entry is listed into a buffer of 21 bytes. -/
theorem linear_dir_listing_sample : ∃ calls : Nat → ListCall BuddyAllocator,
    linearDir.Listing .riscv 1 4 calls 0 0 [⟨11, 12, 1, [97]⟩] := by
  obtain ⟨k, B, Base, A, C⟩ := sample_window 0x10010 0x10025 (by decide) (by decide) (by decide)
  obtain ⟨s, -, hptr, I⟩ := C.openStream
  refine ⟨fun _ => ⟨k, s, fun _ => false⟩,
    linear_dir_listing .riscv linearInode linearVolume 0 linearDir 1 4 (by decide)
    (by decide) _ (fun _ => .inr ⟨_, B, Base, Unit, _, (), A, _, _, _, C, I⟩) fun j before rest
    hall _ e he => ?_⟩
  have hmem : e ∈ linearDir.all := by
    rw [hall]
    exact List.mem_append_right _ (List.mem_filter.mp (List.mem_of_head? he)).1
  have hname : ∀ e ∈ linearDir.all, e.dentsz ≤ 21 := by decide
  have hspace := C.restSpace_eq I
  rw [hptr] at hspace
  simp only [hspace]
  exact hname e hmem

end OsKernel.Fs.Ext4

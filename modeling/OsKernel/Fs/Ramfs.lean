import Mathlib.Data.List.GetD
import OsKernel.Hsai.Page
import OsKernel.Klib.Fault

/-! `ramfs::Normal`, a file whose contents are a string in memory, and the array of bytes that it
should be.  They agree as long as no read and no empty write is past the end of the file. -/

namespace OsKernel.Fs

open Hsai

/-! ### The array of bytes -/

/-- A file as an array of bytes.  Past its end all bytes are zero. -/
structure ByteFile where
  size : Nat
  byte : Nat → UInt8
  tail : ∀ {i}, size ≤ i → byte i = 0

namespace ByteFile

variable (a : ByteFile)

def empty : ByteFile := ⟨0, fun _ => 0, fun _ => rfl⟩

/-- The bytes `src` are put at `off`; a gap is filled with zeros. -/
def write (off : Nat) (src : List UInt8) : ByteFile :=
  if src = [] then a
  else
    { size := max a.size (off + src.length)
      byte := fun i => if off ≤ i ∧ i < off + src.length then src.getD (i - off) 0 else a.byte i
      tail := fun {i} hi => by
        rw [if_neg (by omega)]
        exact a.tail (by omega) }

/-- The file is cut, or extended with zeros. -/
def truncate (len : Nat) : ByteFile where
  size := len
  byte := fun i => if i < len then a.byte i else 0
  tail := fun hi => if_neg (by omega)

def read (off len : Nat) : List UInt8 :=
  (List.range (min len (a.size - off))).map fun i => a.byte (off + i)

end ByteFile

/-! ### The string -/

/-- `eastl::string::resize`. -/
def resize (data : List UInt8) (n : Nat) : List UInt8 :=
  data.take n ++ List.replicate (n - data.length) 0

/-- `data[ i ]`: the characters of a string have a zero behind them. -/
def charAt (data : List UInt8) (i : Nat) : Except Fault UInt8 :=
  if i ≤ data.length then .ok (data.getD i 0) else .error (.undefined "string index")

/-- The loop that stores `src` from `data[ off ]` on. -/
def storeChars : List UInt8 → Nat → List UInt8 → List UInt8
  | data, _, [] => data
  | data, off, b :: src => storeChars (data.set off b) (off + 1) src

/-- `Normal::nodeRead`: the bytes that are read. -/
def nodeRead (data : List UInt8) (off len : Nat) : Except Fault (List UInt8) :=
  let size := data.length
  let readLen := if size < (off + len) % wordSize then wordSub size off else len
  if readLen = 0 then .ok []
  else (List.range readLen).mapM fun i => charAt data ((off + i) % wordSize)

/-- `Normal::nodeWrite` of the bytes `src`. -/
def nodeWrite (data : List UInt8) (off : Nat) (src : List UInt8) : List UInt8 :=
  let data := if data.length < off then resize data off else data
  let last := (off + src.length) % wordSize
  let data := if data.length < last then resize data last else data
  if src.length = 0 then data else storeChars data off src

/-- `Normal::nodeTruncate`. -/
def nodeTruncate (data : List UInt8) (len : Nat) : List UInt8 := resize data len

/-! ### Calls -/

inductive NodeOp where
  | read (off len : Nat)
  | write (off : Nat) (src : List UInt8)
  | truncate (len : Nat)

inductive NodeOut where
  | bytes (bs : List UInt8)
  | count (n : Nat)

/-- The arguments are `size_t`s, and the sum of offset and length is one. -/
def NodeOp.Fits : NodeOp → Prop
  | .read off len => off + len < 2 ^ 64
  | .write off src => off + src.length < 2 ^ 64
  | .truncate len => len < 2 ^ 64

/-- One call on the string. -/
def normalStep (data : List UInt8) : NodeOp → Except Fault (NodeOut × List UInt8)
  | .read off len => do
    let bs ← nodeRead data off len
    .ok (.bytes bs, data)
  | .write off src => .ok (.count src.length, nodeWrite data off src)
  | .truncate len => .ok (.count (nodeTruncate data len).length, nodeTruncate data len)

/-- One call on the array of bytes. -/
def ByteFile.step (a : ByteFile) : NodeOp → NodeOut × ByteFile
  | .read off len => (.bytes (a.read off len), a)
  | .write off src => (.count src.length, a.write off src)
  | .truncate len => (.count len, a.truncate len)

/-- The string has the bytes of the array. -/
structure HoldsBytes (data : List UInt8) (a : ByteFile) : Prop where
  size : data.length = a.size
  byte : ∀ i, data.getD i 0 = a.byte i

/-- Every call on the string gives what it gives on the array, and leaves the bytes of the array. -/
def NormalRefines : List NodeOp → List UInt8 → ByteFile → Prop
  | [], _, _ => True
  | op :: ops, data, a => ∃ data', normalStep data op = .ok ((a.step op).1, data') ∧
      HoldsBytes data' (a.step op).2 ∧ NormalRefines ops data' (a.step op).2

/-- A read or an empty write is not past the end. -/
def NodeOp.WithinFile (a : ByteFile) : NodeOp → Prop
  | .read off _ => off ≤ a.size
  | .write off src => src = [] → off ≤ a.size
  | .truncate _ => True

def AllWithinFile : List NodeOp → ByteFile → Prop
  | [], _ => True
  | op :: ops, a => op.WithinFile a ∧ AllWithinFile ops (a.step op).2

/-! ### Each call -/

variable {data : List UInt8} {a : ByteFile}

@[simp] theorem resize_length (data : List UInt8) (n : Nat) : (resize data n).length = n := by
  unfold resize
  rw [List.length_append, List.length_take, List.length_replicate]
  omega

theorem getD_resize (data : List UInt8) (n i : Nat) :
    (resize data n).getD i 0 = if i < n then data.getD i 0 else 0 := by
  unfold resize
  by_cases hi : i < n
  · rw [if_pos hi]
    by_cases hl : i < data.length
    · rw [List.getD_append _ _ _ _ (by rw [List.length_take]; omega)]
      simp only [List.getD_eq_getElem?_getD, List.getElem?_take, if_pos hi]
    · rw [List.getD_append_right _ _ _ _ (by rw [List.length_take]; omega),
        List.getD_eq_default data _ (by omega)]
      exact List.getD_replicate _ (by rw [List.length_take]; omega)
  · rw [if_neg hi]
    refine List.getD_eq_default _ _ ?_
    rw [List.length_append, List.length_take, List.length_replicate]
    omega

theorem storeChars_length (data : List UInt8) (off : Nat) (src : List UInt8) :
    (storeChars data off src).length = data.length := by
  induction src generalizing data off with
  | nil => rfl
  | cons b src ih => rw [storeChars, ih, List.length_set]

theorem getD_storeChars (data : List UInt8) (off : Nat) (src : List UInt8)
    (h : off + src.length ≤ data.length) (i : Nat) :
    (storeChars data off src).getD i 0 =
      if off ≤ i ∧ i < off + src.length then src.getD (i - off) 0 else data.getD i 0 := by
  induction src generalizing data off with
  | nil => rw [storeChars, if_neg (by simp only [List.length_nil]; omega)]
  | cons b src ih =>
    rw [List.length_cons] at h
    rw [storeChars, ih _ _ (by rw [List.length_set]; omega)]
    by_cases hi : off = i
    · subst hi
      rw [if_neg (by omega), if_pos (by simp), Nat.sub_self, List.getD_cons_zero,
        List.getD_eq_getElem?_getD, List.getElem?_set_self (by omega), Option.getD_some]
    · have hset : (data.set off b).getD i 0 = data.getD i 0 := by
        simp only [List.getD_eq_getElem?_getD, List.getElem?_set_ne hi]
      by_cases hin : off + 1 ≤ i ∧ i < off + 1 + src.length
      · rw [if_pos hin, if_pos (by rw [List.length_cons]; omega),
          show i - off = i - (off + 1) + 1 by omega, List.getD_cons_succ]
      · rw [if_neg hin, if_neg (by rw [List.length_cons]; omega), hset]

theorem HoldsBytes.empty : HoldsBytes [] ByteFile.empty := ⟨rfl, fun _ => rfl⟩

theorem HoldsBytes.truncate (H : HoldsBytes data a) (len : Nat) :
    HoldsBytes (nodeTruncate data len) (a.truncate len) := by
  refine ⟨resize_length data len, fun i => ?_⟩
  rw [nodeTruncate, getD_resize, H.byte]
  rfl

/-- An extension with zeros does not change a byte. -/
theorem HoldsBytes.getD_extend (H : HoldsBytes data a) {n : Nat} (h : data.length ≤ n) (i : Nat) :
    (resize data n).getD i 0 = a.byte i := by
  rw [getD_resize]
  split
  · exact H.byte i
  · exact (a.tail (by have := H.size; omega)).symm

/-- A write of some bytes at any offset. -/
theorem HoldsBytes.write (H : HoldsBytes data a) {off : Nat} {src : List UInt8}
    (hfit : off + src.length < 2 ^ 64) (hsrc : src ≠ []) :
    HoldsBytes (nodeWrite data off src) (a.write off src) := by
  have hsize := H.size
  have hpos : 0 < src.length := List.length_pos_iff.mpr hsrc
  have hlast : (off + src.length) % wordSize = off + src.length := Nat.mod_eq_of_lt hfit
  -- the string as it is when the loop starts
  obtain ⟨d, hd, hlen, hbyte⟩ : ∃ d, nodeWrite data off src = storeChars d off src ∧
      d.length = max a.size (off + src.length) ∧ ∀ i, d.getD i 0 = a.byte i := by
    unfold nodeWrite
    simp only [hlast, if_neg hpos.ne']
    by_cases hoff : data.length < off
    · have hgap : HoldsBytes (resize data off)
          { a with size := off, tail := fun hi => a.tail (by omega) } :=
        ⟨resize_length data off, H.getD_extend (by omega)⟩
      rw [if_pos hoff, if_pos (by rw [resize_length]; omega)]
      exact ⟨_,
        rfl, by rw [resize_length]; omega, hgap.getD_extend (by rw [resize_length]; omega)⟩
    · rw [if_neg hoff]
      by_cases hext : data.length < off + src.length
      · rw [if_pos hext]
        exact ⟨_, rfl, by rw [resize_length]; omega, H.getD_extend (by omega)⟩
      · rw [if_neg hext]
        exact ⟨_, rfl, by omega, H.byte⟩
  rw [hd, ByteFile.write, if_neg hsrc]
  refine ⟨by rw [storeChars_length, hlen], fun i => ?_⟩
  rw [getD_storeChars _ _ _ (by omega), hbyte]

/-- An empty write changes nothing only where it is not past the end. -/
theorem HoldsBytes.write_nil (H : HoldsBytes data a) {off : Nat} (hfit : off < 2 ^ 64) :
    HoldsBytes (nodeWrite data off []) (a.write off []) ↔ off ≤ a.size := by
  have hsize := H.size
  have hlast : (off + 0) % wordSize = off := Nat.mod_eq_of_lt hfit
  have hrun : nodeWrite data off [] = if data.length < off then resize data off else data := by
    unfold nodeWrite
    simp only [List.length_nil, hlast, if_true]
    by_cases hoff : data.length < off
    · rw [if_pos hoff, if_neg (by rw [resize_length]; omega)]
    · rw [if_neg hoff, if_neg hoff]
  rw [hrun, ByteFile.write, if_pos rfl]
  constructor
  · intro h
    by_contra hgt
    have := h.size
    rw [if_pos (by omega), resize_length] at this
    omega
  · intro hle
    rw [if_neg (by omega)]
    exact H

/-- A read gives the bytes of the file where it is not past the end. -/
theorem HoldsBytes.read (H : HoldsBytes data a) {off len : Nat} (hfit : off + len < 2 ^ 64)
    (hle : off ≤ a.size) (ha : a.size < 2 ^ 64) :
      nodeRead data off len = .ok (a.read off len) := by
  have hsize := H.size
  have hsum : (off + len) % wordSize = off + len := Nat.mod_eq_of_lt hfit
  have hlen : (if data.length < off + len then wordSub data.length off else len) =
      min len (a.size - off) := by
    rw [wordSub_of_le (by omega) (by omega)]
    split <;> omega
  unfold nodeRead ByteFile.read
  simp only [hsum, hlen]
  split
  · rename_i h0
    rw [h0]
    rfl
  · have hchar : ∀ i ∈ List.range (min len (a.size - off)),
        charAt data ((off + i) % wordSize) = .ok (a.byte (off + i)) := by
      intro i hi
      have hi' := List.mem_range.mp hi
      have hmod : (off + i) % wordSize = off + i := Nat.mod_eq_of_lt (by unfold wordSize; omega)
      rw [charAt, hmod, if_pos (by omega), H.byte]
    exact mapM_ok hchar

/-- A read past the end takes the difference of size and offset around the end of a word. -/
theorem HoldsBytes.read_past (H : HoldsBytes data a) {off len : Nat} (hfit : off + len < 2 ^ 64)
    (hgt : a.size < off) : nodeRead data off len = .error (.undefined "string index") := by
  have hsize := H.size
  have hsum : (off + len) % wordSize = off + len := Nat.mod_eq_of_lt hfit
  obtain ⟨n, hn⟩ : ∃ n, wordSub data.length off = n + 1 := by
    refine ⟨2 ^ 64 - 1 - (off - data.length), ?_⟩
    unfold wordSub wordSize
    omega
  unfold nodeRead
  simp only [hsum, if_pos (show data.length < off + len by omega), hn]
  rw [if_neg (by omega), List.range_succ_eq_map, List.mapM_cons]
  have hmod : (off + 0) % wordSize = off := Nat.mod_eq_of_lt (by unfold wordSize; omega)
  rw [charAt, hmod, if_neg (by omega), error_bind]

theorem NodeOp.Fits.step_size {op : NodeOp} (hfit : op.Fits) (ha : a.size < 2 ^ 64) :
    (a.step op).2.size < 2 ^ 64 := by
  cases op with
  | read off len => exact ha
  | write off src =>
    simp only [ByteFile.step, ByteFile.write]
    split
    · exact ha
    · exact max_lt ha hfit
  | truncate len => exact hfit

/-- One call does what it does on the array exactly where it is not past the end. -/
theorem HoldsBytes.step_iff (H : HoldsBytes data a) (ha : a.size < 2 ^ 64) {op : NodeOp}
    (hfit : op.Fits) :
    (∃ data', normalStep data op = .ok ((a.step op).1, data') ∧
      HoldsBytes data' (a.step op).2) ↔ op.WithinFile a := by
  cases op with
  | read off len =>
    constructor
    · rintro ⟨data', hrun, -⟩
      by_contra hgt
      rw [normalStep, H.read_past hfit (by simpa [NodeOp.WithinFile] using hgt), error_bind] at hrun
      cases hrun
    · intro hle
      exact ⟨data, by rw [normalStep, H.read hfit hle ha, ok_bind]; rfl, H⟩
  | write off src =>
    by_cases hsrc : src = []
    · subst hsrc
      have hoff : off < 2 ^ 64 := by simpa [NodeOp.Fits] using hfit
      constructor
      · rintro ⟨data', hrun, H'⟩ -
        cases hrun
        exact (H.write_nil hoff).mp H'
      · intro hle
        exact ⟨_, rfl, (H.write_nil hoff).mpr (hle rfl)⟩
    · exact ⟨fun _ h => absurd h hsrc, fun _ => ⟨_, rfl, H.write hfit hsrc⟩⟩
  | truncate len =>
    refine ⟨fun _ => trivial, fun _ => ⟨_, ?_, H.truncate len⟩⟩
    rw [normalStep, nodeTruncate, resize_length]
    rfl

/-- From any string and array with the same bytes. -/
theorem HoldsBytes.refines_iff (ops : List NodeOp) (H : HoldsBytes data a) (ha : a.size < 2 ^ 64)
    (hfit : ∀ op ∈ ops, op.Fits) : NormalRefines ops data a ↔ AllWithinFile ops a := by
  induction ops generalizing data a with
  | nil => exact Iff.rfl
  | cons op ops ih =>
    have hop := hfit op (List.mem_cons_self ..)
    have hrest : ∀ op ∈ ops, op.Fits := fun o ho => hfit o (List.mem_cons_of_mem op ho)
    constructor
    · rintro ⟨data', hrun, H', h⟩
      exact ⟨(H.step_iff ha hop).mp ⟨data', hrun, H'⟩,
        (ih H' (hop.step_size ha) hrest).mp h⟩
    · rintro ⟨hin, h⟩
      obtain ⟨data', hrun, H'⟩ := (H.step_iff ha hop).mpr hin
      exact ⟨data', hrun, H', (ih H' (hop.step_size ha) hrest).mpr h⟩

/-- A file that starts empty is an array of bytes under a sequence of calls exactly if every read
and every empty write among them is within the file. -/
theorem normal_refines_iff (ops : List NodeOp) (hfit : ∀ op ∈ ops, op.Fits) :
    NormalRefines ops [] ByteFile.empty ↔ AllWithinFile ops ByteFile.empty :=
  HoldsBytes.empty.refines_iff ops (by decide) hfit

theorem normal_refines_sample :
    NormalRefines [.write 2 [7, 8], .read 1 9, .truncate 3, .write 3 []] [] ByteFile.empty :=
  (normal_refines_iff _ (by simp [NodeOp.Fits])).mpr
    ⟨nofun, (by decide : 1 ≤ 4), trivial, fun _ => (by decide : 3 ≤ 3), trivial⟩

/-- On an empty file, an empty write at 1 makes the file longer, and a read at 1 does not return. -/
theorem normal_past_end :
    ¬NormalRefines [.write 1 []] [] ByteFile.empty ∧
      ¬NormalRefines [.read 1 1] [] ByteFile.empty := by
  constructor
  · rintro ⟨data', hrun, H, -⟩
    cases hrun
    exact absurd H.size (by decide)
  · rintro ⟨data', hrun, -⟩
    rw [normalStep, HoldsBytes.empty.read_past (by decide) (by decide)] at hrun
    cases hrun

end OsKernel.Fs

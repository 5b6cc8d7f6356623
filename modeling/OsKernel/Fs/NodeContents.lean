import OsKernel.Fs.Nodes

/-! The contents of an inode as an array of bytes, and when what an inode stores is a write to
that array. -/

namespace OsKernel.Fs

open Hsai

/-- The array of the bytes of a list. -/
def ofList (data : List UInt8) : ByteFile where
  size := data.length
  byte := fun i => data.getD i 0
  tail := fun h => List.getD_eq_default _ _ h

theorem holdsBytes_ofList (data : List UInt8) : HoldsBytes data (ofList data) :=
  ⟨rfl, fun _ => rfl⟩

theorem HoldsBytes.eq_ofList {data : List UInt8} {a : ByteFile} (h : HoldsBytes data a) :
    ofList data = a := by
  obtain ⟨size, byte, tail⟩ := a
  obtain ⟨hsize, hbyte⟩ := h
  simp only at hsize hbyte
  subst hsize
  simp only [ofList, ByteFile.mk.injEq, true_and]
  exact funext hbyte

theorem ByteFile.write_nil (a : ByteFile) (off : Nat) : a.write off [] = a := if_pos rfl

theorem ByteFile.read_zero (a : ByteFile) (off : Nat) : a.read off 0 = [] := by
  simp [ByteFile.read]

theorem ByteFile.read_length (a : ByteFile) (off len : Nat) :
    (a.read off len).length = min len (a.size - off) := by simp [ByteFile.read]

/-- A read of as many bytes as were read gives the same bytes. -/
theorem ByteFile.read_self (a : ByteFile) (off len : Nat) :
    a.read off len = a.read off (a.read off len).length := by
  rw [ByteFile.read_length]
  simp only [ByteFile.read]
  congr 2
  omega

/-- A write changes nothing where the array has the bytes. -/
theorem ByteFile.write_eq_self_iff {a : ByteFile} {off : Nat} {bytes : List UInt8} :
    a.write off bytes = a ↔ a.read off bytes.length = bytes := by
  by_cases hb : bytes = []
  · subst hb
    exact iff_of_true (ByteFile.write_nil a off) (ByteFile.read_zero a off)
  have hpos := List.length_pos_iff.mpr hb
  simp only [ByteFile.write, if_neg hb]
  constructor
  · intro h
    have hsize : max a.size (off + bytes.length) = a.size := congrArg ByteFile.size h
    have hmin : min bytes.length (a.size - off) = bytes.length := by omega
    refine List.ext_getElem (by rw [ByteFile.read_length, hmin]) fun k _ hk => ?_
    have hbyte := congrFun (congrArg ByteFile.byte h) (off + k)
    simp only [show off ≤ off + k ∧ off + k < off + bytes.length by omega, and_self, if_true,
      show off + k - off = k by omega] at hbyte
    simp only [ByteFile.read, List.getElem_map, List.getElem_range]
    rw [← hbyte, List.getD_eq_getElem _ _ hk]
  · intro h
    have hlen := congrArg List.length h
    rw [ByteFile.read_length] at hlen
    obtain ⟨size, byte, tail⟩ := a
    simp only [ByteFile.read] at h hlen
    simp only [ByteFile.mk.injEq]
    refine ⟨by omega, funext fun k => ?_⟩
    split
    · next hk =>
      have hget := congrArg (fun l => l.getD (k - off) 0) h
      rw [← hget, List.getD_eq_getElem _ _ (by rw [List.length_map, List.length_range]; omega)]
      simp only [List.getElem_map, List.getElem_range]
      congr 1
      omega
    · rfl

/-- A write at one place determines the bytes. -/
theorem ByteFile.write_inj {a : ByteFile} {off : Nat} {bytes want : List UInt8}
    (hlen : want.length = bytes.length) (h : a.write off bytes = a.write off want) :
      bytes = want := by
  by_cases hb : bytes = []
  · rw [hb, List.length_nil, List.length_eq_zero_iff] at hlen
    rw [hb, hlen]
  have hw : want ≠ [] := by
    rintro rfl
    exact hb (List.length_eq_zero_iff.mp hlen.symm)
  refine List.ext_getElem hlen.symm fun k hk hk' => ?_
  have hbyte := congrFun (congrArg ByteFile.byte h) (off + k)
  simp only [ByteFile.write, if_neg hb, if_neg hw] at hbyte
  rw [if_pos (by omega), if_pos (by omega), show off + k - off = k by omega,
    List.getD_eq_getElem _ _ hk, List.getD_eq_getElem _ _ hk'] at hbyte
  exact hbyte

/-- Writes at two places are the same only if the array has the bytes at both. -/
theorem ByteFile.write_eq_write_iff {a : ByteFile} {eff des : Nat} {bytes want : List UInt8}
    (hb : bytes ≠ []) (hlen : want.length = bytes.length) (hfar : eff + bytes.length ≤ des) :
    a.write eff bytes = a.write des want ↔
      a.read eff bytes.length = bytes ∧ a.read des bytes.length = want := by
  have hw : want ≠ [] := by
    rintro rfl
    exact hb (List.length_eq_zero_iff.mp hlen.symm)
  rw [← ByteFile.write_eq_self_iff, ← hlen, ← ByteFile.write_eq_self_iff]
  constructor
  · intro h
    have hpos := List.length_pos_iff.mpr hb
    have hsize := congrArg ByteFile.size h
    have hself : a.write eff bytes = a := by
      have hbyte : (a.write eff bytes).byte = a.byte := by
        funext x
        by_cases hx : eff ≤ x ∧ x < eff + bytes.length
        · rw [h]
          simp only [ByteFile.write, if_neg hw]
          exact if_neg (by omega)
        · simp only [ByteFile.write, if_neg hb]
          exact if_neg hx
      have hsame : (a.write eff bytes).size = a.size := by
        simp only [ByteFile.write, if_neg hb, if_neg hw] at hsize ⊢
        omega
      revert hbyte hsame
      generalize a.write eff bytes = w
      obtain ⟨size, byte, tail⟩ := a
      obtain ⟨size', byte', tail'⟩ := w
      rintro rfl rfl
      rfl
    exact ⟨hself, h ▸ hself⟩
  · rintro ⟨h₁, h₂⟩
    rw [h₁, h₂]

/-! ### What an inode stores -/

/-- What is stored at `eff` makes the array that the bytes `want` at the place `des` make. -/
def FileNode.Stores (node : FileNode) (eff des : Nat) (bytes want : List UInt8) : Prop :=
  ofList (node.put eff bytes).data = (ofList node.data).write des want

/-- What a node must be for that: one that stores nothing has the bytes; one in memory is not
extended by an empty write, and stores the right bytes at the right place, or has the bytes at
both places. -/
def FileNode.Takes (eff des : Nat) (bytes want : List UInt8) : FileNode → Prop
  | .ramfs data =>
    if bytes = [] then eff ≤ data.length
    else eff = des ∧ bytes = want ∨ (ofList data).read eff bytes.length = bytes ∧
      (ofList data).read des bytes.length = want
  | node => (ofList node.data).read des bytes.length = want

/-- A node takes the bytes where it shall, if the place that is used is the one that is designated,
or is far below it. -/
theorem FileNode.stores_iff {node : FileNode} {eff des : Nat} {bytes want : List UInt8}
    (hlen : want.length = bytes.length) (hfit : eff + bytes.length < 2 ^ 64)
    (hsize : node.data.length < 2 ^ 63)
    (hplace : eff = des ∨ eff + bytes.length ≤ des ∨ eff < 2 ^ 63 ∧ 2 ^ 63 ≤ des) :
    node.Stores eff des bytes want ↔ node.Takes eff des bytes want := by
  cases node with
  | fixed node =>
    simp only [Takes, Stores, put]
    rw [← hlen]
    exact Iff.trans eq_comm ByteFile.write_eq_self_iff
  | link target =>
    simp only [Takes, Stores, put]
    rw [← hlen]
    exact Iff.trans eq_comm ByteFile.write_eq_self_iff
  | ramfs data =>
    simp only [Takes, Stores, put, FileNode.data]
    have hold := holdsBytes_ofList data
    by_cases hb : bytes = []
    · subst hb
      have hw : want = [] := List.length_eq_zero_iff.mp hlen
      subst hw
      have hiff := hold.write_nil (show eff < 2 ^ 64 by simpa using hfit)
      rw [ByteFile.write_nil] at hiff
      rw [if_pos rfl, ByteFile.write_nil]
      refine Iff.trans ⟨fun h => ?_, HoldsBytes.eq_ofList⟩ hiff
      have hold := holdsBytes_ofList (nodeWrite data eff [])
      rwa [show ofList (nodeWrite data eff []) = ofList data from h] at hold
    · have hpos := List.length_pos_iff.mpr hb
      rw [if_neg hb, HoldsBytes.eq_ofList (hold.write hfit hb)]
      rcases hplace with rfl | hfar | ⟨hlow, hhigh⟩
      · constructor
        · exact fun h => .inl ⟨rfl, ByteFile.write_inj hlen h⟩
        · rintro (⟨-, rfl⟩ | ⟨h₁, h₂⟩)
          · rfl
          · rw [← h₁, ← h₂]
      · rw [ByteFile.write_eq_write_iff hb hlen hfar]
        exact ⟨.inr, fun h => h.resolve_left (by omega)⟩
      · simp only [FileNode.data] at hsize
        have hw : want ≠ [] := by
          rintro rfl
          exact hb (List.length_eq_zero_iff.mp hlen.symm)
        refine iff_of_false (fun h => ?_) fun h => ?_
        · have hsizes := congrArg ByteFile.size h
          simp only [ByteFile.write, if_neg hb, if_neg hw, ofList] at hsizes
          omega
        · rcases h with ⟨rfl, -⟩ | ⟨-, h⟩
          · omega
          · have hshort := congrArg List.length h
            rw [ByteFile.read_length, hlen] at hshort
            simp only [ofList] at hshort
            omega

/-- A place behind every file is not one at which a file has bytes. -/
theorem FileNode.takes_far {node : FileNode} {eff eff' des : Nat} {bytes want : List UInt8}
    (hb : bytes ≠ []) (hsize : node.data.length < 2 ^ 63) (hlen : want.length = bytes.length)
    (heff : eff < 2 ^ 63) (heff' : eff' < 2 ^ 63) (hdes : 2 ^ 63 ≤ des) :
    node.Takes eff des bytes want ↔ node.Takes eff' des bytes want := by
  cases node with
  | fixed node => exact Iff.rfl
  | link target => exact Iff.rfl
  | ramfs data =>
    simp only [FileNode.data] at hsize
    simp only [Takes, if_neg hb]
    have hnone : (ofList data).read des bytes.length ≠ want := by
      intro h
      have hshort := congrArg List.length h
      have hpos := List.length_pos_iff.mpr hb
      rw [ByteFile.read_length] at hshort
      simp only [ofList] at hshort
      omega
    refine iff_of_false ?_ ?_
    · rintro (⟨rfl, -⟩ | ⟨-, h⟩)
      · omega
      · exact hnone h
    · rintro (⟨rfl, -⟩ | ⟨-, h⟩)
      · omega
      · exact hnone h

/-- A read of a RAM file that is defined gives the bytes of the array. -/
theorem read_ramfs {data bytes : List UInt8} {off len : Nat} (hfit : off + len < 2 ^ 64)
    (hsize : data.length < 2 ^ 63)
    (hr : (FileNode.ramfs data).read off len = .ok (some bytes)) :
    bytes = (ofList data).read off bytes.length := by
  have hold := holdsBytes_ofList data
  have hlt : (ofList data).size < 2 ^ 63 := hsize
  have hread : nodeRead data off len = .ok bytes := by
    cases hn : nodeRead data off len with
    | error e =>
      rw [FileNode.read, hn] at hr
      cases hr
    | ok b =>
      rw [FileNode.read, hn] at hr
      cases hr
      rfl
  rcases Nat.lt_or_ge (ofList data).size off with hgt | hle
  · rw [hold.read_past hfit hgt] at hread
    cases hread
  · rw [hold.read hfit hle (by omega)] at hread
    have hb := (Except.ok.inj hread).symm
    rw [hb]
    exact ByteFile.read_self _ _ _

end OsKernel.Fs

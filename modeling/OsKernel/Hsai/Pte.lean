import OsKernel.Hsai.Page

/-! Page table entries and address windows of the two machines, as `hal/riscv/page.cc`,
`hal/loongarch/page.cc` and their `to_vir` and `to_phy` compute them.  The functions on entries take
the entry's data; a `Pte` of the source is the address of an entry. -/

namespace OsKernel.Hsai

/-- The machine that the kernel is built for. -/
inductive Arch where
  | riscv
  | loongarch
  deriving DecidableEq

/-- The index bits of `va` at a level: `pt_num`, `pmd_num`, `pud_num` and `pgd_num` are levels 0
to 3. -/
def pgNum (level va : Nat) : Nat := (va &&& (0x1FF <<< (12 + 9 * level))) >>> (12 + 9 * level)

namespace Arch

/-- The level of the global directory: the walk on RISC-V starts one level lower. -/
def top : Arch → Nat
  | riscv => 2
  | loongarch => 3

def toPhy : Arch → Nat → Nat
  | riscv, addr => addr
  | loongarch, addr => addr &&& 0x0FFFFFFFFFFFFFFF

def toVir : Arch → Nat → Nat
  | riscv, addr => addr
  | loongarch, addr => toPhy loongarch addr ||| (0x9 <<< 60)

/-- The address that a `Pte` made from `addr` refers to. -/
def pteAddr : Arch → Nat → Nat
  | riscv, addr => addr
  | loongarch, addr => toVir loongarch addr

def flagsM : Arch → Nat
  | riscv => 0x3FF
  | loongarch => 0xE0000000000001FF

def isValid (_ : Arch) (data : Nat) : Bool := data &&& 0x1 != 0

def isPresent : Arch → Nat → Bool
  | riscv, data => data &&& 0x1 != 0
  | loongarch, data => data &&& 0x80 != 0

def isWritable : Arch → Nat → Bool
  | riscv, data => data &&& 0x4 != 0
  | loongarch, data => data &&& 0x100 != 0

def isDirPage : Arch → Nat → Bool
  | riscv, data => data &&& 0xF == 0x1
  | loongarch, data => data &&& flagsM loongarch == 0x1

def isSuperPlv : Arch → Nat → Bool
  | riscv, data => data &&& 0x10 == 0
  | loongarch, data => data &&& 0xC == 0

def toPa : Arch → Nat → Nat
  | riscv, data => ((data >>> 10) <<< 12) % wordSize
  | loongarch, data => data &&& (0x1FFFFFFFFFFFF <<< 12)

def getFlags (arch : Arch) (data : Nat) : Nat := data &&& flagsM arch

/-- The data that `set_data( data )` stores. -/
def setData : Arch → Nat → Nat
  | riscv, data => ((data >>> 12) <<< 10) ||| (data &&& 0x3FF)
  | loongarch, data => data

def validFlag (_ : Arch) : Nat := 0x1

def mapCodePageFlags : Arch → Nat
  | riscv => 0x1 ||| 0x2 ||| 0x8
  | loongarch => 0x80 ||| 0x10

def mapDataPageFlags : Arch → Nat
  | riscv => 0x1 ||| 0x2 ||| 0x4
  | loongarch => 0x80 ||| 0x100 ||| 0x2 ||| (0x1 <<< 62) ||| 0x10

def mapDirPageFlags (_ : Arch) : Nat := 0x1

def superPlvFlag (_ : Arch) : Nat := 0

def userPlvFlag : Arch → Nat
  | riscv => 0x10
  | loongarch => 0xC

/-- The number of bits of the addresses that the walk translates. -/
def vaBits (arch : Arch) : Nat := 12 + 9 * (arch.top + 1)

/-- The number of pages that a walk tells apart. -/
def vaPages (arch : Arch) : Nat := 512 ^ (arch.top + 1)

/-- A bound on the memory that the machine hands to the kernel: `PHYSTOP` and `mem_size`. -/
def memLimit : Arch → Nat
  | riscv => 0x88000000
  | loongarch => 256 * 2 ^ 20

/-- The physical addresses of the machine. -/
def physLimit : Arch → Nat
  | riscv => 2 ^ 64
  | loongarch => 2 ^ 60

/-! ### Windows -/

theorem two_pow_vaBits (arch : Arch) : 2 ^ arch.vaBits = 4096 * arch.vaPages := by
  cases arch <;> decide

theorem vaPages_pos (arch : Arch) : 0 < arch.vaPages := by
  cases arch <;> decide

theorem toPhy_loongarch (addr : Nat) : toPhy loongarch addr = addr % 2 ^ 60 :=
  Nat.and_two_pow_sub_one_eq_mod addr 60

theorem toVir_loongarch (addr : Nat) : toVir loongarch addr = addr % 2 ^ 60 + 9 * 2 ^ 60 := by
  have h : addr % 2 ^ 60 < 2 ^ 60 := Nat.mod_lt _ (by decide)
  rw [toVir, toPhy_loongarch, Nat.or_comm, Nat.shiftLeft_eq, Nat.mul_comm,
    ← Nat.two_pow_add_eq_or_of_lt h]
  omega

theorem toPhy_lt {arch : Arch} {addr : Nat} (h : addr < 2 ^ 64) :
    arch.toPhy addr < arch.physLimit := by
  cases arch with
  | riscv => exact h
  | loongarch =>
    rw [toPhy_loongarch]
    exact Nat.mod_lt _ (by decide)

/-- A kernel address: one that the two translations take back to itself. -/
def Windowed (arch : Arch) (addr : Nat) : Prop := arch.toVir (arch.toPhy addr) = addr

theorem windowed_iff {arch : Arch} {addr : Nat} : arch.Windowed addr ↔
    match arch with
    | riscv => True
    | loongarch => 9 * 2 ^ 60 ≤ addr ∧ addr < 10 * 2 ^ 60 := by
  unfold Windowed
  cases arch with
  | riscv => simp [toVir, toPhy]
  | loongarch =>
    rw [toVir_loongarch, toPhy_loongarch]
    simp only
    omega

theorem Windowed.pteAddr {arch : Arch} {addr : Nat} (h : arch.Windowed addr) :
    arch.pteAddr addr = addr := by
  cases arch with
  | riscv => rfl
  | loongarch =>
    have := windowed_iff.mp h
    simp only at this
    rw [Arch.pteAddr, toVir_loongarch]
    omega

theorem Windowed.toVir {arch : Arch} {addr : Nat} (h : arch.Windowed addr) :
    arch.toVir addr = addr := by
  cases arch with
  | riscv => rfl
  | loongarch => exact h.pteAddr

theorem Windowed.add {arch : Arch} {addr n : Nat} (h : arch.Windowed addr) (hal : addr % 4096 = 0)
    (hn : n < 4096) : arch.Windowed (addr + n) := by
  rw [windowed_iff] at h ⊢
  cases arch with
  | riscv => trivial
  | loongarch =>
    simp only at h ⊢
    omega

theorem Windowed.toPhy_mod {arch : Arch} {addr : Nat} (h : arch.Windowed addr) :
    arch.toPhy addr % 4096 = addr % 4096 := by
  cases arch with
  | riscv => rfl
  | loongarch =>
    rw [toPhy_loongarch]
    omega

end Arch

/-! ### Index bits -/

theorem pgNum_eq (level va : Nat) : pgNum level va = va / 2 ^ (12 + 9 * level) % 512 := by
  unfold pgNum
  rw [Nat.shiftRight_and_distrib, Nat.shiftLeft_shiftRight, Nat.shiftRight_eq_div_pow]
  exact Nat.and_two_pow_sub_one_eq_mod _ 9

theorem pageRoundDown_eq (addr : Nat) : pageRoundDown addr = addr / 4096 * 4096 := rfl

namespace Arch

/-! ### Entries -/

/-- The flags of an entry. -/
def IsFlags (arch : Arch) (flags : Nat) : Prop := flags &&& arch.flagsM = flags

instance (arch : Arch) (flags : Nat) : Decidable (arch.IsFlags flags) :=
  inferInstanceAs (Decidable (flags &&& arch.flagsM = flags))

variable {arch : Arch} {p flags : Nat}

theorem isFlags_riscv (h : IsFlags riscv flags) : flags < 2 ^ 10 := by
  rw [← h]
  exact Nat.lt_of_le_of_lt Nat.and_le_right (by decide)

private theorem page_and_base (hp : p % 4096 = 0) (hlt : p < 2 ^ 60) :
    p &&& (0x1FFFFFFFFFFFF <<< 12) = p := by
  obtain ⟨q, rfl⟩ := Nat.dvd_of_mod_eq_zero hp
  have hq : q < 2 ^ 49 := by omega
  have : 4096 * q = q <<< 12 := by rw [Nat.shiftLeft_eq]; omega
  rw [this, ← Nat.shiftLeft_and_distrib]
  congr 1
  rw [show 0x1FFFFFFFFFFFF = 2 ^ 49 - 1 by decide, Nat.and_two_pow_sub_one_eq_mod]
  exact Nat.mod_eq_of_lt hq

private theorem page_and_flags (hp : p % 4096 = 0) (hlt : p < 2 ^ 60) :
    p &&& flagsM loongarch = 0 := by
  rw [← page_and_base hp hlt, Nat.and_assoc]
  have : 0x1FFFFFFFFFFFF <<< 12 &&& flagsM loongarch = 0 := by decide
  rw [this, Nat.and_zero]

private theorem flags_and_base (hf : IsFlags loongarch flags) :
    flags &&& (0x1FFFFFFFFFFFF <<< 12) = 0 := by
  rw [← hf, Nat.and_assoc]
  have : flagsM loongarch &&& 0x1FFFFFFFFFFFF <<< 12 = 0 := by decide
  rw [this, Nat.and_zero]

private theorem setData_riscv (hp : p % 4096 = 0) (hf : flags < 2 ^ 10) :
    setData riscv (p ||| flags) = p / 4096 * 1024 + flags := by
  obtain ⟨q, rfl⟩ := Nat.dvd_of_mod_eq_zero hp
  have h1 : 4096 * q ||| flags = 4096 * q + flags :=
    (Nat.two_pow_add_eq_or_of_lt (i := 12) (by omega) q).symm
  have h2 : (4096 * q + flags) % 2 ^ 10 = flags := by omega
  rw [setData, h1, show 0x3FF = 2 ^ 10 - 1 by decide, Nat.and_two_pow_sub_one_eq_mod, h2,
    Nat.shiftRight_eq_div_pow, Nat.shiftLeft_eq, Nat.mul_comm _ (2 ^ 10),
    ← Nat.two_pow_add_eq_or_of_lt hf]
  omega

theorem setData_lt (hp : p % 4096 = 0) (hlt : p < arch.physLimit) (hf : arch.IsFlags flags) :
    arch.setData (p ||| flags) < 2 ^ 64 := by
  cases arch with
  | riscv =>
    have := isFlags_riscv hf
    have hlt' : p < 2 ^ 64 := hlt
    rw [setData_riscv hp this]
    omega
  | loongarch =>
    have hlt' : p < 2 ^ 60 := hlt
    have : flags < 2 ^ 64 := by
      rw [← hf]
      exact Nat.lt_of_le_of_lt Nat.and_le_right (by decide)
    exact Nat.or_lt_two_pow (by omega) this

/-- An entry gives back the page it was made from. -/
theorem toPa_setData (hp : p % 4096 = 0) (hlt : p < arch.physLimit) (hf : arch.IsFlags flags) :
    arch.toPa (arch.setData (p ||| flags)) = p := by
  cases arch with
  | riscv =>
    have := isFlags_riscv hf
    have hlt' : p < 2 ^ 64 := hlt
    rw [setData_riscv hp this]
    rw [toPa, wordSize, Nat.shiftRight_eq_div_pow, Nat.shiftLeft_eq]
    omega
  | loongarch =>
    have hlt' : p < 2 ^ 60 := hlt
    rw [toPa, setData, Nat.and_or_distrib_right, page_and_base hp hlt', flags_and_base hf,
      Nat.or_zero]

/-- An entry gives back its flags. -/
theorem getFlags_setData (hp : p % 4096 = 0) (hlt : p < arch.physLimit) (hf : arch.IsFlags flags) :
    arch.getFlags (arch.setData (p ||| flags)) = flags := by
  cases arch with
  | riscv =>
    have := isFlags_riscv hf
    rw [setData_riscv hp this, getFlags]
    change _ &&& (2 ^ 10 - 1) = _
    rw [Nat.and_two_pow_sub_one_eq_mod]
    omega
  | loongarch =>
    have hlt' : p < 2 ^ 60 := hlt
    rw [getFlags, setData, Nat.and_or_distrib_right, page_and_flags hp hlt', Nat.zero_or]
    exact hf

/-- What the entry's predicates read is among its flags. -/
theorem getFlags_and {data mask : Nat} (h : arch.flagsM &&& mask = mask) :
    arch.getFlags data &&& mask = data &&& mask := by
  rw [getFlags, Nat.and_assoc, h]

theorem isValid_getFlags (data : Nat) : arch.isValid (arch.getFlags data) = arch.isValid data := by
  unfold isValid
  rw [getFlags_and (by cases arch <;> decide)]

theorem isDirPage_getFlags (data : Nat) :
    arch.isDirPage (arch.getFlags data) = arch.isDirPage data := by
  cases arch with
  | riscv => simp only [isDirPage, getFlags_and (show riscv.flagsM &&& 0xF = 0xF by decide)]
  | loongarch =>
    simp only [isDirPage, getFlags_and (show loongarch.flagsM &&& loongarch.flagsM = _ by decide)]

theorem isSuperPlv_getFlags (data : Nat) :
    arch.isSuperPlv (arch.getFlags data) = arch.isSuperPlv data := by
  cases arch with
  | riscv => simp only [isSuperPlv, getFlags_and (show riscv.flagsM &&& 0x10 = 0x10 by decide)]
  | loongarch =>
    simp only [isSuperPlv, getFlags_and (show loongarch.flagsM &&& 0xC = 0xC by decide)]

theorem isWritable_getFlags (data : Nat) :
    arch.isWritable (arch.getFlags data) = arch.isWritable data := by
  cases arch with
  | riscv => simp only [isWritable, getFlags_and (show riscv.flagsM &&& 0x4 = 0x4 by decide)]
  | loongarch =>
    simp only [isWritable, getFlags_and (show loongarch.flagsM &&& 0x100 = 0x100 by decide)]

theorem isPresent_getFlags (data : Nat) :
    arch.isPresent (arch.getFlags data) = arch.isPresent data := by
  cases arch with
  | riscv => simp only [isPresent, getFlags_and (show riscv.flagsM &&& 0x1 = 0x1 by decide)]
  | loongarch =>
    simp only [isPresent, getFlags_and (show loongarch.flagsM &&& 0x80 = 0x80 by decide)]

@[simp] theorem isValid_zero : arch.isValid 0 = false := rfl

theorem isFlags_dir : arch.IsFlags arch.mapDirPageFlags := by cases arch <;> decide

theorem isValid_dir : arch.isValid arch.mapDirPageFlags = true := by cases arch <;> decide

theorem isDirPage_dir : arch.isDirPage arch.mapDirPageFlags = true := by cases arch <;> decide

end Arch

end OsKernel.Hsai

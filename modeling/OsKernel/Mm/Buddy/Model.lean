import OsKernel.Hsai.Page
import OsKernel.Klib.Fault
import OsKernel.Lib.ByteMemory

/-! The buddy page allocator, as `buddy_allocator.hh` and `buddy_allocator.cc` compute it.  The free
lists are threaded through memory: each node is the 32 bytes at the start of a free block, or one of
the list heads `_buddy_nodes`, which are in the allocator object outside the memory it manages.  The
info bytes, one a page, fill the end of the region handed to the constructor.  The spin lock is left
out: each operation runs under it from start to end. -/

namespace OsKernel.Mm

open Lib Hsai

/-- `_buddy_order_level_cnt`. -/
def buddyOrderLevelCnt : Nat := 33

/-- `buddy_node_magic`. -/
def buddyNodeMagic : Nat := 0xbd054a0ef9f5a2de

/-- `buddy_unused_magic`. -/
def buddyUnusedMagic : Nat := 0x9edc5824b97d47b4

/-! ### Nodes in memory -/

/-- The fields of a `BuddyNode`. -/
inductive NodeField where
  | magic
  | areaSize
  | prev
  | next
  deriving DecidableEq

/-- The offset of a field in the packed structure. -/
def NodeField.offset : NodeField → Nat
  | magic => 0
  | areaSize => 8
  | prev => 16
  | next => 24

/-- A field of the node at `node`. -/
def getField (m : Mem) (f : NodeField) (node : Nat) : Nat := m.read (node + f.offset) 8

/-- A store to a field of the node at `node`. -/
def setField (m : Mem) (f : NodeField) (node v : Nat) : Mem := m.write (node + f.offset) 8 v

/-- An assignment to the whole node at `node`. -/
def setNode (m : Mem) (node magic areaSize prev next : Nat) : Mem :=
  let m := setField m .magic node magic
  let m := setField m .areaSize node areaSize
  let m := setField m .prev node prev
  setField m .next node next

/-! ### Info bytes -/

/-- `BuddyInfo`: six bits of order, one for the first page of a block, one for a block in use. -/
structure BuddyInfo where
  order : Nat
  areaFlag : Bool
  inUse : Bool
  deriving DecidableEq

def BuddyInfo.ofByte (c : UInt8) : BuddyInfo :=
  ⟨c.toNat % 64, c.toNat / 64 % 2 == 1, c.toNat / 128 == 1⟩

def BuddyInfo.toByte (i : BuddyInfo) : UInt8 :=
  UInt8.ofNat (i.order % 64 + 64 * i.areaFlag.toNat + 128 * i.inUse.toNat)

/-! ### The allocator -/

/-- An area descriptor: its address and its size in bytes. -/
structure BuddyDesc where
  addr : Nat
  areaSize : Nat
  deriving DecidableEq

/-- The fields of the allocator object; `buddyNodes` is the address of the list heads. -/
structure BuddyAllocator where
  memAddr : Nat
  memSize : Nat
  buddyNodes : Nat
  buddyMaxOrder : Nat
  areaDesc : List BuddyDesc
  allocInfos : Nat
  infosSize : Nat
  allocSize : Nat

namespace BuddyAllocator

variable (b : BuddyAllocator)

/-- `&_buddy_nodes[ order ]`. -/
def listHead (order : Nat) : Nat := b.buddyNodes + 32 * order

/-- `_insert_node`. -/
def insertNode (m : Mem) (node order : Nat) : Mem :=
  let m := setField m .next node (getField m .next (b.listHead order))
  let m := setField m .prev node (b.listHead order)
  let m := setField m .prev (getField m .next (b.listHead order)) node
  setField m .next (b.listHead order) node

/-- `_remove_node`. -/
def removeNode (m : Mem) (node : Nat) : Mem :=
  let m := setField m .next (getField m .prev node) (getField m .next node)
  let m := setField m .prev (getField m .next node) (getField m .prev node)
  let m := setField m .prev node node
  setField m .next node node

/-- `_has_nodes`. -/
def hasNodes (m : Mem) (order : Nat) : Bool :=
  getField m .next (b.listHead order) != b.listHead order

/-- `_belong_area`: the first area that holds the address. -/
def belongArea (addr : Nat) : Option BuddyDesc :=
  b.areaDesc.find? fun bd => !(addr < bd.addr) && !(bd.addr + bd.areaSize ≤ addr)

/-- `_get_info_index`. -/
def getInfoIndex (node : Nat) : Nat := wordSub node b.memAddr / pageSize

/-- `_alloc_infos[ idx ]`. -/
def getInfo (m : Mem) (idx : Nat) : BuddyInfo := BuddyInfo.ofByte (m (b.allocInfos + idx))

def setInfo (m : Mem) (idx : Nat) (info : BuddyInfo) : Mem :=
  m.fill (b.allocInfos + idx) 1 info.toByte

/-- `_record_info`. -/
def recordInfo (m : Mem) (node order : Nat) (use isArea : Bool) : Mem :=
  b.setInfo m (b.getInfoIndex node) ⟨order, isArea, use⟩

/-- `_is_in_use`. -/
def isInUse (m : Mem) (node : Nat) : Bool := (b.getInfo m (b.getInfoIndex node)).inUse

/-- `_pop_node`. -/
def popNode (m : Mem) (order : Nat) : Nat × Mem :=
  let node := getField m .next (b.listHead order)
  (node, removeNode m node)

/-- `_get_buddy_node`. -/
def getBuddyNode (m : Mem) (bd : BuddyDesc) (node : Nat) : Nat :=
  ((node - bd.addr) ^^^ getField m .areaSize node) + bd.addr

/-- `_split_node( nd, nd1 )`: two nodes of half the size. -/
def halveNode (m : Mem) (nd nd1 : Nat) : Mem :=
  let toSz := getField m .areaSize nd / 2
  let m := setField m .magic nd buddyNodeMagic
  let m := setField m .magic nd1 buddyNodeMagic
  let m := setField m .areaSize nd1 toSz
  setField m .areaSize nd toSz

/-- `_split_node( order, nd )`: the upper half goes to the list below, `nd` keeps the lower half. -/
def splitNode (m : Mem) (order nd : Nat) : Int × Mem :=
  if order = 0 then (-1, m)
  else if getField m .areaSize nd ≠ pageSize * 2 ^ order then (-2, m)
  else
    let inlist := nd + getField m .areaSize nd / 2
    let m := halveNode m nd inlist
    let m := b.insertNode m inlist (order - 1)
    (0, b.recordInfo m inlist (order - 1) false true)

/-- `_combine_node`: `nd1` becomes unused and `nd` has twice its size. -/
def combineNode (m : Mem) (nd nd1 : Nat) : Int × Mem :=
  if getField m .areaSize nd ≠ getField m .areaSize nd1 then (-1, m)
  else
    let toSz := getField m .areaSize nd * 2
    let m := setNode m nd1 buddyUnusedMagic 0 0 0
    (0, setNode m nd buddyNodeMagic toSz 0 0)

/-- The order of the block for `count` pages: the first `order` from the given one with
`( 1U << order ) >= count`.  Past order 31 the shift is undefined. -/
def orderFor (count : Nat) : Nat → Nat → Except Fault Nat
  | 0, _ => .error (.undefined "1U << 32")
  | n + 1, order => if count ≤ 2 ^ order then .ok order else orderFor count n (order + 1)

/-- The first of the `n` lists from order `i` on that has a node. -/
def findList (m : Mem) : Nat → Nat → Option Nat
  | 0, _ => none
  | n + 1, i => if b.hasNodes m i then some i else findList m n (i + 1)

/-- The splits that take `node` from order `order + n` down to `order`.  A failed split is stored
as `ret = 1`, which passes the assertion. -/
def splitTo (m : Mem) (node order : Nat) : Nat → Mem
  | 0 => m
  | n + 1 => splitTo (b.splitNode m (order + n + 1) node).2 node order n

/-- `alloc_pages`: `none` is the null pointer. -/
def allocPages (m : Mem) (count : Nat) : Except Fault (Option Nat × BuddyAllocator × Mem) :=
  if count = 0 then .ok (none, b, m)
  else do
    let order ← orderFor count 32 0
    match b.findList m (b.buddyMaxOrder + 1 - order) order with
    | none => .ok (none, b, m)
    | some i =>
      let (node, m) := b.popNode m i
      if getField m .magic node ≠ buddyNodeMagic then .ok (none, b, m)
      else
        let m := b.splitTo m node order (i - order)
        let m := b.recordInfo m node order true true
        .ok (some node, { b with allocSize := b.allocSize + 2 ^ order * pageSize }, m)

/-- The loop of `free_pages`, with at most `n` merges: it ends with the node to insert and its
order. -/
def mergeLoop (bd : BuddyDesc) : Nat → Mem → Nat → Nat → Except Fault (Mem × Nat × Nat)
  | 0, _, _, _ => .error (.undefined "for ( ;; )")
  | n + 1, m, node, order =>
    if getField m .areaSize node = bd.areaSize then .ok (m, node, order)
    else
      let buddy := getBuddyNode m bd node
      if b.isInUse m buddy then .ok (m, node, order)
      else if getField m .areaSize node ≠ getField m .areaSize buddy then .ok (m, node, order)
      else do
        let m := removeNode m buddy
        -- the lower address is the main node
        let main := if buddy < node then buddy else node
        let other := if buddy < node then node else buddy
        let m := b.recordInfo m other 0 false false
        let r := combineNode m main other
        kassert (0 ≤ r.1) "[buddy] combine node error"
        mergeLoop bd n r.2 main (order + 1)

/-- `free_pages`, with the null pointer as 0. -/
def freePages (m : Mem) (ptr : Nat) : Except Fault (Int × BuddyAllocator × Mem) :=
  if ptr = 0 then .ok (-1, b, m)
  else if !isPageAlign ptr then .ok (-2, b, m)
  else do
    let infoIdx := b.getInfoIndex ptr
    kassert (infoIdx < b.infosSize) "[buddy] bad buddy-info index"
    let info := b.getInfo m infoIdx
    -- a page pointer: allocation and release have no effect on it
    if info.areaFlag = false then .ok (0, b, m)
    else if info.inUse = false then .ok (-3, b, m)
    else
      kassert (info.order ≤ b.buddyMaxOrder) "[buddy] 释放的页面似乎元数据失效？"
      let m := b.setInfo m infoIdx { info with inUse := false }
      let order := info.order
      let b' := { b with allocSize := wordSub b.allocSize (2 ^ order * pageSize) }
      match b.belongArea ptr with
      | none => .error (.undefined "bd->_area_size of a null descriptor")
      | some bd =>
        let m := setNode m ptr buddyNodeMagic (pageSize * 2 ^ order) 0 0
        let (m, node, order) ← b.mergeLoop bd 64 m ptr order
        let m := b.insertNode m node order
        let m := b.recordInfo m node order false true
        .ok (0, b', m)

/-! ### The constructor -/

/-- The list heads from `order` on, reset to empty lists. -/
def resetNodes (m : Mem) : Nat → Nat → Mem
  | 0, _ => m
  | n + 1, order =>
    let node := b.listHead order
    resetNodes (setNode m node buddyUnusedMagic 0 node node) n (order + 1)

/-- The loop over the bits of the page count from bit `k` on: each set bit is one area, with one
free node that spans it. -/
def initAreas (pgCnt : Nat) : Nat → Nat → BuddyAllocator → Mem → Nat →
    BuddyAllocator × Mem
  | 0, _, b, m, _ => (b, m)
  | n + 1, k, b, m, areaStart =>
    if pgCnt.testBit k then
      let m := setNode m areaStart buddyNodeMagic (pageSize * 2 ^ k) 0 0
      let m := b.insertNode m areaStart k
      let m := b.recordInfo m areaStart k false true
      let b := { b with
        buddyMaxOrder := k
        areaDesc := b.areaDesc ++ [⟨areaStart, pageSize * 2 ^ k⟩] }
      initAreas pgCnt n (k + 1) b m (areaStart + getField m .areaSize areaStart)
    else initAreas pgCnt n (k + 1) b m areaStart

/-- The constructor, for an object whose list heads are at `nodes`. -/
def make (m : Mem) (nodes mem size : Nat) : Except Fault (BuddyAllocator × Mem) := do
  kassert (mem % pageSize = 0) "[buddy] 起始地址不与页大小对齐"
  kassert (64 * pageSize ≤ size) "[buddy] 用于伙伴算法的内存太小!"
  kassert (size % pageSize = 0) "[buddy] 用于伙伴算法的大小不是页对齐的"
  let infosSize := pageRoundUp (size / pageSize)
  let allocInfos := mem + size - infosSize
  let m := m.fill allocInfos infosSize 0
  let b : BuddyAllocator :=
    { memAddr := mem, memSize := size - infosSize, buddyNodes := nodes, buddyMaxOrder := 0,
      areaDesc := [], allocInfos := allocInfos, infosSize := infosSize, allocSize := 0 }
  let m := b.resetNodes m buddyOrderLevelCnt 0
  .ok (initAreas (b.memSize / pageSize) 64 0 b m mem)

end BuddyAllocator

end OsKernel.Mm

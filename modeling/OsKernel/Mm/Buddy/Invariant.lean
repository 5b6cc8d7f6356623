import OsKernel.Mm.Buddy.Layout

/-! The representation invariant of the allocator's memory and what each list operation does to it.
`Rep` relates memory to the block map `B`: the info bytes, the free lists and the headers of free
blocks describe it.  The free blocks in `Lim` are in no list and have no valid info byte: they are
the blocks that an operation in progress has taken out and not yet put back. -/

namespace OsKernel.Mm

open Lib Hsai Lib.BuddySystem BuddyAllocator

/-- The info byte of a page: zero unless a block starts there. -/
def infoByte : Option Block → UInt8
  | none => 0
  | some blk => BuddyInfo.toByte ⟨blk.order, true, blk.used⟩

/-- The free list of each order, the blocks of `Lim` left out. -/
def FreeList (b : BuddyAllocator) (m : Mem) (B : Blocks) (Lim : Set Nat) (k : Nat)
    (l : List Nat) : Prop :=
  Ring (getField m .next) (getField m .prev) (b.listHead k) l ∧
    ∀ x, x ∈ l ↔ ∃ s, x = b.pageAddr s ∧ B s = some ⟨k, false⟩ ∧ s ∉ Lim

structure Rep (b : BuddyAllocator) (N : Nat) (A : Areas) (m : Mem) (B : Blocks)
    (Lim : Set Nat) : Prop where
  layout : Layout b N
  bound : ∀ {a o}, A.mem a o → a + 2 ^ o ≤ N
  part : Partition A B
  info : ∀ p < b.infosSize, p ∉ Lim → m (b.allocInfos + p) = infoByte (B p)
  lists : ∀ k < 33, ∃ l, FreeList b m B Lim k l
  header : ∀ {s k}, B s = some ⟨k, false⟩ →
    getField m .magic (b.pageAddr s) = buddyNodeMagic ∧
    getField m .areaSize (b.pageAddr s) = 4096 * 2 ^ k

/-- The bytes that the allocator itself may write: the list heads, the info bytes and the free
blocks. -/
def FreeByte (b : BuddyAllocator) (B : Blocks) (x : Nat) : Prop :=
  (b.buddyNodes ≤ x ∧ x < b.buddyNodes + 1056) ∨
    (b.allocInfos ≤ x ∧ x < b.allocInfos + b.infosSize) ∨
    ∃ s k, B s = some ⟨k, false⟩ ∧ b.pageAddr s ≤ x ∧ x < b.pageAddr s + 4096 * 2 ^ k

/-- `m'` differs from `m` only in bytes that the allocator may write. -/
abbrev Keeps (b : BuddyAllocator) (B : Blocks) (m m' : Mem) : Prop :=
  AgreeOn (fun x => ¬FreeByte b B x) m m'

theorem Keeps.refl {b : BuddyAllocator} {B : Blocks} (m : Mem) : Keeps b B m m := fun _ _ => rfl

theorem Keeps.trans {b : BuddyAllocator} {B : Blocks} {m m' m'' : Mem} (h : Keeps b B m m')
    (h' : Keeps b B m' m'') : Keeps b B m m'' :=
  fun x hx => (h' x hx).trans (h x hx)

/-- The nodes whose headers the allocator may write. -/
def FreeNode (b : BuddyAllocator) (B : Blocks) (x : Nat) : Prop :=
  (∃ k < 33, x = b.listHead k) ∨ ∃ s k, B s = some ⟨k, false⟩ ∧ x = b.pageAddr s

/-- The bytes of headers and info bytes that the allocator may write. -/
def NodeByte (b : BuddyAllocator) (B : Blocks) (x : Nat) : Prop :=
  (b.allocInfos ≤ x ∧ x < b.allocInfos + b.infosSize) ∨ ∃ y, FreeNode b B y ∧ y ≤ x ∧
    x < y + 32

/-- `m'` differs from `m` only in headers and info bytes. -/
abbrev KeepsNodes (b : BuddyAllocator) (B : Blocks) (m m' : Mem) : Prop :=
  AgreeOn (fun x => ¬NodeByte b B x) m m'

theorem KeepsNodes.refl {b : BuddyAllocator} {B : Blocks} (m : Mem) : KeepsNodes b B m m :=
  fun _ _ => rfl

theorem KeepsNodes.trans {b : BuddyAllocator} {B : Blocks} {m m' m'' : Mem}
    (h : KeepsNodes b B m m') (h' : KeepsNodes b B m' m'') : KeepsNodes b B m m'' :=
  fun x hx => (h' x hx).trans (h x hx)

/-- Fewer nodes whose headers may be written. -/
theorem KeepsNodes.mono {b : BuddyAllocator} {B B' : Blocks} {m m' : Mem} (h : KeepsNodes b B' m m')
    (hsub : ∀ x, FreeNode b B' x → FreeNode b B x) : KeepsNodes b B m m' :=
  fun x hx => h x fun hx' => hx (hx'.imp_right fun ⟨y, hy, hin⟩ => ⟨y, hsub y hy, hin⟩)

theorem NodeByte.freeByte {b : BuddyAllocator} {B : Blocks} {x : Nat} (h : NodeByte b B x) :
    FreeByte b B x := by
  rcases h with h | ⟨y, ⟨k, hk, rfl⟩ | ⟨s, k, hs, rfl⟩, hl, hu⟩
  · exact .inr (.inl h)
  · left
    simp only [listHead] at hl hu
    omega
  · have := Nat.two_pow_pos k
    exact .inr (.inr ⟨s, k, hs, by omega, by omega⟩)

theorem KeepsNodes.keeps {b : BuddyAllocator} {B : Blocks} {m m' : Mem} (h : KeepsNodes b B m m') :
    Keeps b B m m' :=
  fun x hx => h x fun hn => hx hn.freeByte

theorem FreeNode.setField {b : BuddyAllocator} {B : Blocks} {x v : Nat} {f : NodeField}
    (h : FreeNode b B x) (m : Mem) : KeepsNodes b B m (setField m f x v) := by
  intro y hy
  have hf := f.offset_lt
  apply Mem.write_outside
  by_contra hin
  exact hy (.inr ⟨x, h, by omega, by omega⟩)

theorem FreeNode.setNode {b : BuddyAllocator} {B : Blocks} {x mg az pv nx : Nat}
    (h : FreeNode b B x) (m : Mem) : KeepsNodes b B m (setNode m x mg az pv nx) :=
  (h.setField m).trans ((h.setField _).trans ((h.setField _).trans (h.setField _)))

/-- Fewer bytes that may be written. -/
theorem Keeps.mono {b : BuddyAllocator} {B B' : Blocks} {m m' : Mem} (h : Keeps b B' m m')
    (hsub : ∀ x, FreeByte b B' x → FreeByte b B x) : Keeps b B m m' :=
  fun x hx => h x fun hx' => hx (hsub x hx')

theorem keeps_setInfo {b : BuddyAllocator} {B : Blocks} {m : Mem} {p : Nat} {i : BuddyInfo}
    (hp : p < b.infosSize) : KeepsNodes b B m (b.setInfo m p i) := by
  intro y hy
  apply Mem.fill_outside
  by_contra hin
  exact hy (.inl (by omega))

namespace Rep

variable {b : BuddyAllocator} {N : Nat} {A : Areas} {m : Mem} {B : Blocks} {Lim : Set Nat}
  {s t k : Nat}

/-- A block lies among the managed pages. -/
theorem block_le (R : Rep b N A m B Lim) {blk : Block} (hs : B s = some blk) :
    s + 2 ^ blk.order ≤ N := by
  obtain ⟨a, o, hA, hf⟩ := R.part.fits hs
  have := R.bound hA
  have := hf.inside
  omega

theorem block_lt (R : Rep b N A m B Lim) {blk : Block} (hs : B s = some blk) : s < N := by
  have := R.block_le hs
  have := Nat.two_pow_pos blk.order
  omega

theorem order_lt (R : Rep b N A m B Lim) {blk : Block} (hs : B s = some blk) : blk.order < 33 := by
  have h1 := R.block_le hs
  have h2 := R.layout.pages_lt
  exact (Nat.pow_lt_pow_iff_right (by decide : 1 < 2)).mp (by omega)

theorem info_lt (R : Rep b N A m B Lim) {blk : Block} (hs : B s = some blk) : s < b.infosSize := by
  have := R.block_lt hs
  have := R.layout.infos_ge
  omega

/-- The size in bytes of a block is a 64-bit number. -/
theorem size_lt (R : Rep b N A m B Lim) {blk : Block} (hs : B s = some blk) :
    4096 * 2 ^ blk.order < 2 ^ 64 := by
  have h1 := R.block_le hs
  have h2 := R.layout.pages_lt
  omega

theorem freeNode_page (hs : B s = some ⟨k, false⟩) : FreeNode b B (b.pageAddr s) :=
  .inr ⟨s, k, hs, rfl⟩

theorem freeNode_head (hk : k < 33) : FreeNode b B (b.listHead k) := .inl ⟨k, hk, rfl⟩

/-- The head and the members of a free list are nodes that the allocator may write. -/
theorem freeNode_of_mem {l : List Nat} (hk : k < 33) (hl : FreeList b m B Lim k l) {x : Nat}
    (hx : x ∈ b.listHead k :: l) : FreeNode b B x := by
  rcases List.mem_cons.mp hx with rfl | hx
  · exact freeNode_head hk
  · obtain ⟨s, rfl, hs, -⟩ := (hl.2 x).mp hx
    exact freeNode_page hs

theorem isNode (R : Rep b N A m B Lim) {x : Nat} (hx : FreeNode b B x) : b.IsNode N x := by
  rcases hx with ⟨k, hk, rfl⟩ | ⟨s, k, hs, rfl⟩
  · exact R.layout.node_head hk
  · exact R.layout.node_page (R.block_lt hs)

/-- Members of different lists are different nodes. -/
theorem list_apart (R : Rep b N A m B Lim) {j : Nat} {l l' : List Nat} (hk : k < 33) (hj : j < 33)
    (hl : FreeList b m B Lim k l) (hl' : FreeList b m B Lim j l') (hkj : k ≠ j) {x : Nat}
    (hx : x ∈ b.listHead k :: l) : x ∉ b.listHead j :: l' := by
  intro hx'
  rcases List.mem_cons.mp hx with rfl | hx <;> rcases List.mem_cons.mp hx' with he | hx'
  · exact hkj (Layout.head_inj he)
  · obtain ⟨s, he, hs, -⟩ := (hl'.2 _).mp hx'
    exact R.layout.head_ne_page hk (R.block_lt hs) he
  · obtain ⟨s, he', hs, -⟩ := (hl.2 x).mp hx
    exact R.layout.head_ne_page hj (R.block_lt hs) (he.symm.trans he')
  · obtain ⟨s, rfl, hs, -⟩ := (hl.2 x).mp hx
    obtain ⟨t, he, ht, -⟩ := (hl'.2 _).mp hx'
    obtain rfl := Layout.page_inj he
    rw [hs] at ht
    cases ht
    exact hkj rfl

/-- The invariant for other areas, blocks and memory with the same listed blocks, when the links of
the listed blocks and of the heads are unchanged. -/
theorem relabelAreas (R : Rep b N A m B Lim) {A' : Areas} {m' : Mem} {B' : Blocks}
    {Lim' : Set Nat} (hbound : ∀ {a o}, A'.mem a o → a + 2 ^ o ≤ N) (hpart : Partition A' B')
    (hlisted : ∀ s k, (B s = some ⟨k, false⟩ ∧ s ∉ Lim) ↔
      (B' s = some ⟨k, false⟩ ∧ s ∉ Lim'))
    (hlinks : ∀ x f, f = .next ∨ f = .prev → (∃ k < 33, x = b.listHead k) ∨
      (∃ s k, B s = some ⟨k, false⟩ ∧ s ∉ Lim ∧ x = b.pageAddr s) →
      getField m' f x = getField m f x)
    (hinfo : ∀ p < b.infosSize, p ∉ Lim' → m' (b.allocInfos + p) = infoByte (B' p))
    (hheader : ∀ s k, B' s = some ⟨k, false⟩ →
      getField m' .magic (b.pageAddr s) = buddyNodeMagic ∧
      getField m' .areaSize (b.pageAddr s) = 4096 * 2 ^ k) : Rep b N A' m' B' Lim' := by
  refine ⟨R.layout, hbound, hpart, hinfo, fun k hk => ?_, fun {s k} => hheader s k⟩
  obtain ⟨l, hl⟩ := R.lists k hk
  have same : ∀ x ∈ b.listHead k :: l, ∀ f, f = .next ∨ f = .prev →
      getField m' f x = getField m f x := by
    intro x hx f hf
    refine hlinks x f hf ?_
    rcases List.mem_cons.mp hx with rfl | hx
    · exact .inl ⟨k, hk, rfl⟩
    · obtain ⟨s, rfl, hs, hlim⟩ := (hl.2 x).mp hx
      exact .inr ⟨s, k, hs, hlim, rfl⟩
  refine ⟨l, hl.1.congr (fun x hx => same x hx _ (.inl rfl)) (fun x hx => same x hx _ (.inr rfl)),
    fun x => ?_⟩
  rw [hl.2]
  exact exists_congr fun s => and_congr_right fun _ => hlisted s k

theorem relabel (R : Rep b N A m B Lim) {m' : Mem} {B' : Blocks} {Lim' : Set Nat}
    (hpart : Partition A B')
    (hlisted : ∀ s k, (B s = some ⟨k, false⟩ ∧ s ∉ Lim) ↔
      (B' s = some ⟨k, false⟩ ∧ s ∉ Lim'))
    (hlinks : ∀ x f, f = .next ∨ f = .prev → (∃ k < 33, x = b.listHead k) ∨
      (∃ s k, B s = some ⟨k, false⟩ ∧ s ∉ Lim ∧ x = b.pageAddr s) →
      getField m' f x = getField m f x)
    (hinfo : ∀ p < b.infosSize, p ∉ Lim' → m' (b.allocInfos + p) = infoByte (B' p))
    (hheader : ∀ s k, B' s = some ⟨k, false⟩ →
      getField m' .magic (b.pageAddr s) = buddyNodeMagic ∧
      getField m' .areaSize (b.pageAddr s) = 4096 * 2 ^ k) : Rep b N A m' B' Lim' :=
  R.relabelAreas R.bound hpart hlisted hlinks hinfo hheader

/-- `_remove_node` of a listed block. -/
theorem remove (R : Rep b N A m B Lim) (hs : B s = some ⟨k, false⟩) (hlim : s ∉ Lim) :
    Rep b N A (removeNode m (b.pageAddr s)) B (insert s Lim) ∧
      KeepsNodes b B m (removeNode m (b.pageAddr s)) := by
  have hL := R.layout
  have hk := R.order_lt hs
  obtain ⟨l, hl⟩ := R.lists k hk
  have hmem : b.pageAddr s ∈ l := (hl.2 _).mpr ⟨s, rfl, hs, hlim⟩
  have hx := R.isNode (freeNode_page hs)
  have hp := freeNode_of_mem hk hl (hl.1.prev_mem hmem)
  have hn := freeNode_of_mem hk hl (hl.1.next_mem hmem)
  have hpx := hl.1.prev_ne hmem
  have hfields := fun {y} (hy : b.IsNode N y) =>
    hL.removeNode_fields (y := y) hx (R.isNode hp) (R.isNode hn) hpx hy
  have hkeep : KeepsNodes b B m (removeNode m (b.pageAddr s)) := by
    rw [hL.removeNode_eq hx (R.isNode hp) (R.isNode hn) hpx]
    exact ((hp.setField m).trans (hn.setField _)).trans
      (((freeNode_page hs).setField _).trans ((freeNode_page hs).setField _))
  refine ⟨⟨hL, R.bound, R.part, ?_, ?_, ?_⟩, hkeep⟩
  · intro p hp' hpl
    simp only [Set.mem_insert_iff, not_or] at hpl
    rw [hL.removeNode_eq hx (R.isNode hp) (R.isNode hn) hpx, hL.setField_info hx hp',
      hL.setField_info hx hp', hL.setField_info (R.isNode hn) hp',
      hL.setField_info (R.isNode hp) hp']
    exact R.info p hp' hpl.2
  · intro j hj
    by_cases hjk : j = k
    · subst hjk
      refine ⟨l.erase (b.pageAddr s), hl.1.remove hmem ?_ ?_ ?_ ?_, fun x => ?_⟩
      · rw [(hfields (R.isNode hp)).1, if_neg hpx, if_pos rfl]
      · rw [(hfields (R.isNode hn)).2.1, if_neg (hl.1.next_ne hmem), if_pos rfl]
      · intro y hy hy1 hy2
        rw [(hfields (R.isNode (freeNode_of_mem hj hl hy))).1, if_neg hy1, if_neg hy2]
      · intro y hy hy1 hy2
        rw [(hfields (R.isNode (freeNode_of_mem hj hl hy))).2.1, if_neg hy1, if_neg hy2]
      · rw [(List.nodup_cons.mp hl.1.nodup).2.mem_erase_iff, hl.2]
        constructor
        · rintro ⟨hne, t, rfl, ht, htl⟩
          refine ⟨t, rfl, ht, ?_⟩
          rintro (rfl | hm)
          · exact hne rfl
          · exact htl hm
        · rintro ⟨t, rfl, ht, htl⟩
          simp only [Set.mem_insert_iff, not_or] at htl
          exact ⟨fun he => htl.1 (Layout.page_inj he), t, rfl, ht, htl.2⟩
    · obtain ⟨l', hl'⟩ := R.lists j hj
      have apart : ∀ y ∈ b.listHead j :: l', y ∉ b.listHead k :: l := fun y hy =>
        R.list_apart hj hk hl' hl hjk hy
      refine ⟨l', hl'.1.congr (fun y hy => ?_) (fun y hy => ?_), fun x => ?_⟩
      · have h := apart y hy
        have hyp : y ≠ getField m .prev (b.pageAddr s) := fun he => h (he ▸ hl.1.prev_mem hmem)
        rw [(hfields (R.isNode (freeNode_of_mem hj hl' hy))).1, if_neg (by grind), if_neg hyp]
      · have h := apart y hy
        have hyn : y ≠ getField m .next (b.pageAddr s) := fun he => h (he ▸ hl.1.next_mem hmem)
        rw [(hfields (R.isNode (freeNode_of_mem hj hl' hy))).2.1, if_neg (by grind), if_neg hyn]
      · rw [hl'.2]
        refine exists_congr fun t => and_congr_right fun _ => and_congr_right fun ht => ?_
        have hts : t ≠ s := by
          rintro rfl
          rw [hs] at ht
          cases ht
          exact hjk rfl
        simp [hts]
  · intro t j ht
    have hy := R.isNode (freeNode_page (b := b) ht)
    rw [(hfields hy).2.2.1, (hfields hy).2.2.2]
    exact R.header ht

/-- `_insert_node` and `_record_info` of a block taken out before. -/
theorem insert (R : Rep b N A m B Lim) (hs : B s = some ⟨k, false⟩) (hlim : s ∈ Lim) :
    Rep b N A (b.recordInfo (b.insertNode m (b.pageAddr s) k) (b.pageAddr s) k false true) B
        (Lim \ {s}) ∧
      KeepsNodes b B m (b.recordInfo (b.insertNode m (b.pageAddr s) k)
        (b.pageAddr s) k false true) := by
  have hL := R.layout
  have hk := R.order_lt hs
  have hsN := R.block_lt hs
  have hsi := R.info_lt hs
  obtain ⟨l, hl⟩ := R.lists k hk
  have hx := R.isNode (freeNode_page hs)
  have hfirst := freeNode_of_mem hk hl hl.1.next_head_mem
  have hmem : b.pageAddr s ∉ b.listHead k :: l := by
    intro h
    rcases List.mem_cons.mp h with he | h
    · exact hL.head_ne_page hk hsN he.symm
    · obtain ⟨t, he, -, ht⟩ := (hl.2 _).mp h
      exact ht (Layout.page_inj he ▸ hlim)
  have hne : b.pageAddr s ≠ b.listHead k := fun he => hmem (he ▸ List.mem_cons_self)
  have hnf : b.pageAddr s ≠ getField m .next (b.listHead k) := fun he =>
    hmem (he ▸ hl.1.next_head_mem)
  have hfields := fun {y} (hy : b.IsNode N y) =>
    hL.insertNode_fields (y := y) hk hx (R.isNode hfirst) hne hy
  have hget : ∀ {f y}, b.IsNode N y → getField (b.recordInfo (b.insertNode m (b.pageAddr s) k)
      (b.pageAddr s) k false true) f y = getField (b.insertNode m (b.pageAddr s) k) f y := by
    intro f y hy
    unfold recordInfo
    rw [hL.infoIndex hsN]
    exact hL.getField_setInfo hy hsi
  refine ⟨⟨hL, R.bound, R.part, ?_, ?_, ?_⟩, ?_⟩
  · intro p hp hpl
    unfold recordInfo
    rw [hL.infoIndex hsN, setInfo_apply]
    split
    · rename_i he
      rw [he, hs]
      rfl
    · rename_i he
      rw [hL.insertNode_eq hk hx (R.isNode hfirst) hne, hL.setField_info (hL.node_head hk) hp,
        hL.setField_info (R.isNode hfirst) hp, hL.setField_info hx hp, hL.setField_info hx hp]
      exact R.info p hp fun h => hpl ⟨h, he⟩
  · intro j hj
    by_cases hjk : j = k
    · subst hjk
      refine ⟨b.pageAddr s :: l, hl.1.insert hmem ?_ ?_ ?_ ?_ ?_ ?_, fun x => ?_⟩
      · rw [hget hx, (hfields hx).1, if_neg hne, if_pos rfl]
      · rw [hget hx, (hfields hx).2.1, if_neg hnf, if_pos rfl]
      · rw [hget (hL.node_head hj), (hfields (hL.node_head hj)).1, if_pos rfl]
      · rw [hget (R.isNode hfirst), (hfields (R.isNode hfirst)).2.1, if_pos rfl]
      · intro y hy
        have hyn := R.isNode (freeNode_of_mem hj hl (List.mem_cons_of_mem _ hy))
        have hyh : y ≠ b.listHead j := fun he => hl.1.notMem (he ▸ hy)
        rw [hget hyn, (hfields hyn).1, if_neg hyh, if_neg (by grind)]
      · intro y hy hy1
        have hyn := R.isNode (freeNode_of_mem hj hl hy)
        rw [hget hyn, (hfields hyn).2.1, if_neg hy1, if_neg (by grind)]
      · rw [List.mem_cons, hl.2]
        constructor
        · rintro (rfl | ⟨t, rfl, ht, htl⟩)
          · exact ⟨s, rfl, hs, by simp⟩
          · exact ⟨t, rfl, ht, fun h => htl h.1⟩
        · rintro ⟨t, rfl, ht, htl⟩
          by_cases hts : t = s
          · exact .inl (by rw [hts])
          · exact .inr ⟨t, rfl, ht, fun h => htl ⟨h, hts⟩⟩
    · obtain ⟨l', hl'⟩ := R.lists j hj
      have apart : ∀ y ∈ b.listHead j :: l', y ∉ b.listHead k :: l := fun y hy =>
        R.list_apart hj hk hl' hl hjk hy
      have hys : ∀ y ∈ b.listHead j :: l', y ≠ b.pageAddr s := by
        rintro y hy rfl
        rcases List.mem_cons.mp hy with he | hy
        · exact hL.head_ne_page hj hsN he.symm
        · obtain ⟨t, he, -, ht⟩ := (hl'.2 _).mp hy
          exact ht (Layout.page_inj he ▸ hlim)
      refine ⟨l', hl'.1.congr (fun y hy => ?_) (fun y hy => ?_), fun x => ?_⟩
      · have hyn := R.isNode (freeNode_of_mem hj hl' hy)
        have hyh : y ≠ b.listHead k := fun he => apart y hy (he ▸ List.mem_cons_self)
        rw [hget hyn, (hfields hyn).1, if_neg hyh, if_neg (hys y hy)]
      · have hyn := R.isNode (freeNode_of_mem hj hl' hy)
        have hyf : y ≠ getField m .next (b.listHead k) := fun he =>
          apart y hy (he ▸ hl.1.next_head_mem)
        rw [hget hyn, (hfields hyn).2.1, if_neg hyf, if_neg (hys y hy)]
      · rw [hl'.2]
        refine exists_congr fun t => and_congr_right fun _ => and_congr_right fun ht => ?_
        have hts : t ≠ s := by
          rintro rfl
          rw [hs] at ht
          cases ht
          exact hjk rfl
        simp [hts]
  · intro t j ht
    have hy := R.isNode (freeNode_page (b := b) ht)
    rw [hget hy, hget hy, (hfields hy).2.2.1, (hfields hy).2.2.2]
    exact R.header ht
  · unfold recordInfo
    rw [hL.infoIndex hsN]
    refine KeepsNodes.trans ?_ (keeps_setInfo hsi)
    rw [hL.insertNode_eq hk hx (R.isNode hfirst) hne]
    exact (((freeNode_page hs).setField m).trans ((freeNode_page hs).setField _)).trans
      ((hfirst.setField _).trans ((freeNode_head hk).setField _))

theorem recordInfo_eq (R : Rep b N A m B Lim) {blk : Block} (hs : B s = some blk) {m' : Mem}
    {order : Nat} {use area : Bool} :
    b.recordInfo m' (b.pageAddr s) order use area = b.setInfo m' s ⟨order, area, use⟩ := by
  unfold recordInfo
  rw [R.layout.infoIndex (R.block_lt hs)]

/-- `_record_info` of the block taken out, now in use. -/
theorem markUsed (R : Rep b N A m B {s}) (hs : B s = some ⟨k, false⟩) :
    Rep b N A (b.recordInfo m (b.pageAddr s) k true true) (mark B s k true) ∅ ∧
      Keeps b B m (b.recordInfo m (b.pageAddr s) k true true) := by
  have hsi := R.info_lt hs
  rw [R.recordInfo_eq hs]
  refine ⟨R.relabel (R.part.mark hs) (fun t j => ?_) (fun x f _ hx => ?_) (fun p hp _ => ?_)
    (fun t j ht => ?_), (keeps_setInfo hsi).keeps⟩
  · rw [mark_apply]
    split
    · rename_i he
      simp [he]
    · rename_i he
      simp [he]
  · refine R.layout.getField_setInfo (R.isNode ?_) hsi
    rcases hx with ⟨j, hj, rfl⟩ | ⟨t, j, ht, -, rfl⟩
    · exact freeNode_head hj
    · exact freeNode_page ht
  · rw [setInfo_apply, mark_apply]
    split
    · rfl
    · rename_i he
      exact R.info p hp (by simpa using he)
  · rw [mark_apply] at ht
    split at ht
    · simp at ht
    · have hy := R.isNode (freeNode_page (b := b) ht)
      rw [R.layout.getField_setInfo hy hsi, R.layout.getField_setInfo hy hsi]
      exact R.header ht

/-- The start of a release: the block at `s` is marked free and gets a header. -/
theorem markFree (R : Rep b N A m B ∅) (hs : B s = some ⟨k, true⟩) {i : BuddyInfo} :
    Rep b N A (setNode (b.setInfo m s i) (b.pageAddr s) buddyNodeMagic (4096 * 2 ^ k) 0 0)
        (mark B s k false) {s} ∧
      KeepsNodes b (mark B s k false) m
        (setNode (b.setInfo m s i) (b.pageAddr s) buddyNodeMagic (4096 * 2 ^ k) 0 0) := by
  have hL := R.layout
  have hsi := R.info_lt hs
  have hx := hL.node_page (R.block_lt hs)
  have hsize := R.size_lt hs
  have hfree : mark B s k false s = some ⟨k, false⟩ := by simp [mark_apply]
  have hset : ∀ {y g}, b.IsNode N y → getField (setNode (b.setInfo m s i) (b.pageAddr s)
      buddyNodeMagic (4096 * 2 ^ k) 0 0) g y = if b.pageAddr s = y then
        nodeValue buddyNodeMagic (4096 * 2 ^ k) 0 0 g else getField m g y := by
    intro y g hy
    rw [hL.getField_setNode hx hy (by decide) hsize (by decide) (by decide),
      hL.getField_setInfo hy hsi]
  have hne : ∀ {t j}, B t = some ⟨j, false⟩ → s ≠ t := by
    rintro t j ht rfl
    rw [hs] at ht
    simp at ht
  refine ⟨R.relabel (R.part.mark hs) (fun t j => ?_) (fun x f _ hx' => ?_) (fun p hp hpl => ?_)
    (fun t j ht => ?_), (keeps_setInfo hsi).trans ((freeNode_page hfree).setNode _)⟩
  · rw [mark_apply]
    split
    · rename_i he
      simp [he, hs]
    · rename_i he
      simp [he]
  · rcases hx' with ⟨j, hj, rfl⟩ | ⟨t, j, ht, -, rfl⟩
    · rw [hset (hL.node_head hj), if_neg (hL.head_ne_page hj (R.block_lt hs)).symm]
    · rw [hset (R.isNode (freeNode_page ht)), if_neg (fun he => hne ht (Layout.page_inj he))]
  · have hps : p ≠ s := by simpa using hpl
    rw [hL.setNode_info hx hp, setInfo_apply, if_neg hps, mark_apply, if_neg hps]
    exact R.info p hp (by simp)
  · rw [mark_apply] at ht
    split at ht
    · rename_i he
      cases ht
      subst he
      rw [hset hx, hset hx, if_pos rfl, if_pos rfl]
      exact ⟨rfl, rfl⟩
    · have hy := R.isNode (freeNode_page (b := b) ht)
      have hts : b.pageAddr s ≠ b.pageAddr t := fun he => hne ht (Layout.page_inj he)
      rw [hset hy, hset hy, if_neg hts, if_neg hts]
      exact R.header ht

end Rep

end OsKernel.Mm

import Mathlib.Algebra.BigOperators.Group.List.Basic
import Mathlib.Data.List.Nodup
import Mathlib.Data.List.Perm.Subperm
import OsKernel.Hal.VirtioDisk
import OsKernel.Lib.CircularBuffer

/-! The requests of the virtio driver under any interleaving.  A request that is in flight owns its
three descriptors, and its first descriptor is in one place only: published, taken by the device,
completed, or consumed.  So the rings never hold more entries than there are descriptors for. -/

namespace OsKernel.Hal

open Lib

namespace Chain

/-- The descriptors of a chain. -/
def descs (c : Chain) : List Nat := [c.head, c.data, c.status]

/-- The descriptors are three of the `num` descriptors, linked in this order. -/
structure Linked {β : Type} (d : Disk β) (c : Chain) : Prop where
  nodup : c.descs.Nodup
  lt : ∀ x ∈ c.descs, x < num
  head : (d.desc c.head).flags &&& vringDescFNext ≠ 0 ∧ (d.desc c.head).next = c.data
  data : (d.desc c.data).flags &&& vringDescFNext ≠ 0 ∧ (d.desc c.data).next = c.status
  status : (d.desc c.status).flags &&& vringDescFNext = 0

theorem Linked.congr {β : Type} {d d' : Disk β} {c : Chain} (h : c.Linked d)
    (hd : ∀ x ∈ c.descs, (d'.desc x).flags = (d.desc x).flags ∧
      (d'.desc x).next = (d.desc x).next) :
    c.Linked d' := by
  have h0 := hd c.head (by simp [descs])
  have h1 := hd c.data (by simp [descs])
  have h2 := hd c.status (by simp [descs])
  refine ⟨h.nodup, h.lt, ?_, ?_, ?_⟩
  · rw [h0.1, h0.2]
    exact h.head
  · rw [h1.1, h1.2]
    exact h.data
  · rw [h2.1]
    exact h.status

theorem head_mem (c : Chain) : c.head ∈ c.descs := List.mem_cons_self

end Chain

/-! ### Descriptors -/

namespace Disk

variable {β : Type} {d : Disk β}

/-- `alloc_desc` takes a free descriptor, and fails where there is none. -/
theorem allocDesc_cases (d : Disk β) :
    (∃ x, x < num ∧ d.free x = true ∧
        d.allocDesc = (some x, { d with free := Function.update d.free x false })) ∨
      (∀ x < num, d.free x = false) ∧ d.allocDesc = (none, d) := by
  unfold allocDesc
  cases h : (List.range num).find? d.free with
  | some x =>
    left
    exact ⟨x, List.mem_range.mp (List.mem_of_find?_eq_some h), List.find?_some h, rfl⟩
  | none =>
    right
    refine ⟨fun x hx => ?_, rfl⟩
    have := List.find?_eq_none.mp h x (List.mem_range.mpr hx)
    simpa using this

theorem freeDesc_ok {x : Nat} (hlt : x < num) (hfree : d.free x = false) :
    d.freeDesc x = .ok { d with
      desc := Function.update d.desc x { d.desc x with addr := 0 }
      free := Function.update d.free x true } := by
  unfold freeDesc
  rw [if_neg (by omega), if_neg (by rw [hfree]; decide)]

/-- Two states that differ in the addresses of free descriptors alone. -/
structure SameBut (d d' : Disk β) : Prop where
  desc : ∀ x, d.free x = false → d'.desc x = d.desc x
  free : d'.free = d.free
  availRing : d'.availRing = d.availRing
  availIdx : d'.availIdx = d.availIdx
  usedElems : d'.usedElems = d.usedElems
  usedId : d'.usedId = d.usedId
  usedIdx : d'.usedIdx = d.usedIdx
  info : d'.info = d.info

theorem SameBut.refl (d : Disk β) : d.SameBut d :=
  ⟨fun _ _ => rfl, rfl, rfl, rfl, rfl, rfl, rfl, rfl⟩

/-- The three descriptors of `c` are taken. -/
def take3 (d : Disk β) (c : Chain) : Disk β :=
  let free := Function.update (Function.update d.free c.head false) c.data false
  { d with free := Function.update free c.status false }

/-- `alloc3_desc` takes three free descriptors, or gives back the ones it has taken. -/
theorem alloc3Desc_cases (d : Disk β) :
    (∃ d', d.alloc3Desc = .ok (none, d') ∧ d.SameBut d') ∨
      ∃ c : Chain, d.alloc3Desc = .ok (some c, d.take3 c) ∧ c.descs.Nodup ∧
        ∀ x ∈ c.descs, x < num ∧ d.free x = true := by
  unfold alloc3Desc
  rcases d.allocDesc_cases with ⟨x, hx, hfx, hax⟩ | ⟨-, hax⟩
  · rw [hax]
    simp only
    rcases ({ d with free := Function.update d.free x false } : Disk β).allocDesc_cases with
      ⟨y, hy, hfy, hay⟩ | ⟨-, hay⟩
    · have hyx : y ≠ x := by
        rintro rfl
        simp at hfy
      simp only [Function.update_of_ne hyx] at hfy
      rw [hay]
      simp only
      rcases ({ d with free := Function.update (Function.update d.free x false) y false } :
          Disk β).allocDesc_cases with ⟨z, hz, hfz, haz⟩ | ⟨-, haz⟩
      · have hzy : z ≠ y := by
          rintro rfl
          simp at hfz
        have hzx : z ≠ x := by
          rintro rfl
          simp [Function.update_of_ne hyx.symm] at hfz
        simp only [Function.update_of_ne hzy, Function.update_of_ne hzx] at hfz
        rw [haz]
        refine .inr ⟨⟨x, y, z⟩, rfl, ?_, ?_⟩
        · simp [Chain.descs, hyx.symm, hzx.symm, hzy.symm]
        · simp [Chain.descs, hx, hy, hz, hfx, hfy, hfz]
      · -- the first two are given back
        rw [haz]
        simp only
        rw [freeDesc_ok hx (by simp [Function.update_of_ne hyx.symm]), ok_bind,
          freeDesc_ok hy (by simp [Function.update_of_ne hyx]), ok_bind]
        refine .inl ⟨_, rfl, fun w hw => ?_, ?_, rfl, rfl, rfl, rfl, rfl, rfl⟩
        · have hwx : w ≠ x := by
            rintro rfl
            rw [hfx] at hw
            cases hw
          have hwy : w ≠ y := by
            rintro rfl
            rw [hfy] at hw
            cases hw
          simp [Function.update_of_ne hwx, Function.update_of_ne hwy]
        · funext w
          by_cases hwy : w = y
          · simp [hwy, hfy]
          · by_cases hwx : w = x
            · simp [hwx, Function.update_of_ne hyx.symm, hfx]
            · simp [Function.update_of_ne hwx, Function.update_of_ne hwy]
    · rw [hay]
      simp only
      rw [freeDesc_ok hx (by simp), ok_bind]
      refine .inl ⟨_, rfl, fun w hw => ?_, ?_, rfl, rfl, rfl, rfl, rfl, rfl⟩
      · have hwx : w ≠ x := by
          rintro rfl
          rw [hfx] at hw
          cases hw
        simp [Function.update_of_ne hwx]
      · funext w
        by_cases hwx : w = x
        · simp [hwx, hfx]
        · simp [Function.update_of_ne hwx]
  · rw [hax]
    exact .inl ⟨d, rfl, .refl d⟩

/-- The descriptors of `c` are free again. -/
structure Freed (d : Disk β) (c : Chain) (d' : Disk β) : Prop where
  desc : ∀ x, (d'.desc x).flags = (d.desc x).flags ∧ (d'.desc x).next = (d.desc x).next
  free : ∀ x, d'.free x = (d.free x || decide (x ∈ c.descs))
  availRing : d'.availRing = d.availRing
  availIdx : d'.availIdx = d.availIdx
  usedElems : d'.usedElems = d.usedElems
  usedId : d'.usedId = d.usedId
  usedIdx : d'.usedIdx = d.usedIdx
  info : d'.info = d.info

/-- `free_chain` of a chain whose descriptors are in use. -/
theorem freeChain_ok {c : Chain} (hl : c.Linked d) (hfree : ∀ x ∈ c.descs, d.free x = false) :
    ∃ d', freeChain num d c.head = .ok d' ∧ d.Freed c d' := by
  obtain ⟨hnodup, hlt, ⟨hf0, hn0⟩, ⟨hf1, hn1⟩, hf2⟩ := hl
  simp only [Chain.descs, List.nodup_cons, List.mem_cons, List.not_mem_nil, or_false,
    List.nodup_nil, not_or] at hnodup
  obtain ⟨⟨h01, h02⟩, h12, -⟩ := hnodup
  have hlt' : c.head < num ∧ c.data < num ∧ c.status < num := by
    refine ⟨hlt _ ?_, hlt _ ?_, hlt _ ?_⟩ <;> simp [Chain.descs]
  have hfree' : d.free c.head = false ∧ d.free c.data = false ∧ d.free c.status = false := by
    refine ⟨hfree _ ?_, hfree _ ?_, hfree _ ?_⟩ <;> simp [Chain.descs]
  rw [show num = 5 + 1 + 1 + 1 from rfl, freeChain, freeDesc_ok hlt'.1 hfree'.1, ok_bind]
  simp only [Function.update_self]
  rw [if_pos hf0, hn0, freeChain, freeDesc_ok hlt'.2.1
    (by simp [Function.update_of_ne (Ne.symm h01), hfree'.2.1]), ok_bind]
  simp only [Function.update_self, Function.update_of_ne (Ne.symm h01)]
  rw [if_pos hf1, hn1, freeChain, freeDesc_ok hlt'.2.2
    (by simp [Function.update_of_ne (Ne.symm h02), Function.update_of_ne (Ne.symm h12),
      hfree'.2.2]),
    ok_bind]
  simp only [Function.update_self, Function.update_of_ne (Ne.symm h02),
    Function.update_of_ne (Ne.symm h12)]
  rw [if_neg (not_not.mpr hf2)]
  refine ⟨_, rfl, fun x => ?_, fun x => ?_, rfl, rfl, rfl, rfl, rfl, rfl⟩
  · simp only [Function.update_apply]
    split
    · next h => simp [h]
    · split
      · next h => simp [h, hn1]
      · split
        · next h => simp [h, hn0]
        · simp
  · simp only [Function.update_apply, Chain.descs, List.mem_cons, List.not_mem_nil, or_false]
    by_cases h2 : x = c.status
    · simp [h2]
    · by_cases h1 : x = c.data
      · simp [h1]
      · by_cases h0 : x = c.head
        · simp [h0]
        · simp [h0, h1, h2]

end Disk

namespace System

variable {ι β : Type} {req : ι → Request β}

/-- The request `i` is in flight, with the descriptors of `c`. -/
def Flies (s : System ι β) (i : ι) (c : Chain) : Prop := s.phase i = .waiting c

/-- The invariant, with the published chains that the device has not taken and the completed chains
that are not consumed. -/
structure InvWith (req : ι → Request β) (s : System ι β) (published done : List Nat) :
    Prop where
  linked : ∀ {i c}, s.Flies i c → c.Linked s.disk
  apart : ∀ {i j c c'}, s.Flies i c → s.Flies j c' → i ≠ j → c.descs.Disjoint c'.descs
  free : ∀ x < num, s.disk.free x = true ↔ ∀ i c, s.Flies i c → x ∉ c.descs
  info : ∀ {i c}, s.Flies i c →
    (s.disk.info c.head).b = some (req i).bufList ∧ (s.disk.info c.head).status = 0
  owner : ∀ {i c}, s.Flies i c → s.owner c.head = some i
  taken : s.taken < 2 ^ 16
  avail : window num s.disk.availRing s.taken published.length = published
  availIdx : s.disk.availIdx = (s.taken + published.length) % 2 ^ 16
  usedIdx : s.disk.usedIdx < num
  used : window num s.disk.usedElems s.disk.usedIdx done.length = done
  usedId : s.disk.usedId % num = (s.disk.usedIdx + done.length) % num
  nodup : (published ++ s.pending ++ done).Nodup
  mem : ∀ h, h ∈ published ++ s.pending ++ done ↔
    ∃ i c, s.Flies i c ∧ c.head = h ∧ (s.disk.info h).wait = true
  completed : s.completed = s.woken.map Prod.fst ++ done.map s.owner
  wokenNodup : (s.woken.map Prod.fst).Nodup
  woken : ∀ x, x ∈ s.woken ↔ ∃ i, x = (some i, some (req i).bufList) ∧
    (s.phase i = .returned ∨ ∃ c, s.Flies i c ∧ (s.disk.info c.head).wait = false)

/-- The invariant. -/
def Inv (req : ι → Request β) (s : System ι β) : Prop :=
  ∃ published done, s.InvWith req published done

variable {s : System ι β} {published done : List Nat} {i j : ι} {c c' : Chain}

/-! ### Consequences -/

theorem Flies.unique (h : s.Flies i c) (h' : s.Flies i c') : c = c' := by
  unfold Flies at h h'
  rw [h] at h'
  cases h'
  rfl

/-- A request is known by its first descriptor. -/
theorem InvWith.eq_of_head (I : s.InvWith req published done) (h : s.Flies i c) (h' : s.Flies j c')
    (he : c.head = c'.head) : i = j ∧ c = c' := by
  have hij : i = j := by
    by_contra hne
    refine I.apart h h' hne (a := c.head) (by simp [Chain.descs]) ?_
    rw [he]
    simp [Chain.descs]
  subst hij
  exact ⟨rfl, h.unique h'⟩

/-- At most two requests are in flight, so the rings are never full. -/
theorem InvWith.length_le (I : s.InvWith req published done) :
    (published ++ s.pending ++ done).length ≤ 2 := by
  have hchain : ∀ h ∈ published ++ s.pending ++ done, ∃ c, ∃ i, s.Flies i c ∧
      c.head = h := by
    intro h hh
    obtain ⟨i, c, hf, he, -⟩ := (I.mem h).mp hh
    exact ⟨c, i, hf, he⟩
  choose! f hf using hchain
  have hnodup : ((published ++ s.pending ++ done).flatMap fun h => (f h).descs).Nodup := by
    rw [List.nodup_flatMap]
    refine ⟨fun h hh => ?_, ?_⟩
    · obtain ⟨i, hi, -⟩ := hf h hh
      exact (I.linked hi).nodup
    · refine I.nodup.imp_of_mem fun {h h'} hh hh' hne => ?_
      obtain ⟨i, hi, he⟩ := hf h hh
      obtain ⟨j, hj, he'⟩ := hf h' hh'
      refine I.apart hi hj ?_
      rintro rfl
      rw [hi.unique hj, he'] at he
      exact hne he.symm
  have hsub :
      (published ++ s.pending ++ done).flatMap (fun h => (f h).descs) ⊆ List.range num := by
    intro x hx
    obtain ⟨h, hh, hx⟩ := List.mem_flatMap.mp hx
    obtain ⟨i, hi, -⟩ := hf h hh
    exact List.mem_range.mpr ((I.linked hi).lt x hx)
  have hlen := (hnodup.subperm hsub).length_le
  rw [List.length_flatMap, List.length_range] at hlen
  have hthree : ((published ++ s.pending ++ done).map fun h => (f h).descs.length).sum =
      3 * (published ++ s.pending ++ done).length := by
    rw [show (fun h => (f h).descs.length) = fun _ => 3 from rfl, List.map_const',
      List.sum_replicate]
    simp
    omega
  rw [hthree] at hlen
  unfold num at hlen
  omega

theorem InvWith.head_mem (I : s.InvWith req published done) (h : s.Flies i c) :
    c.head ∈ published ++ s.pending ++ done ↔ (s.disk.info c.head).wait = true := by
  rw [I.mem]
  constructor
  · rintro ⟨-, -, -, -, hw⟩
    exact hw
  · exact fun hw => ⟨i, c, h, rfl, hw⟩

theorem InvWith.inUse (I : s.InvWith req published done) (h : s.Flies i c) {x : Nat}
    (hx : x ∈ c.descs) : s.disk.free x = false := by
  rw [Bool.eq_false_iff]
  intro hfree
  exact (I.free x ((I.linked h).lt x hx)).mp hfree i c h hx

theorem inv_init : (init : System ι β).InvWith req [] [] where
  linked := by intro i c h; cases h
  apart := by intro i j c c' h; cases h
  free := by
    intro x hx
    refine iff_of_true ?_ ?_
    · simp [init, Disk.init, hx]
    · intro i c h
      cases h
  info := by intro i c h; cases h
  owner := by intro i c h; cases h
  taken := show 0 < 2 ^ 16 by decide
  avail := rfl
  availIdx := rfl
  usedIdx := show 0 < num by decide
  used := rfl
  usedId := rfl
  nodup := List.nodup_nil
  mem := by
    intro h
    refine iff_of_false (by simp [init]) ?_
    rintro ⟨i, c, hf, -⟩
    cases hf
  completed := rfl
  wokenNodup := List.nodup_nil
  woken := by
    intro x
    refine iff_of_false (by simp [init]) ?_
    rintro ⟨i, -, hr | ⟨c, hf, -⟩⟩
    · cases hr
    · cases hf

/-! ### The steps of a caller -/

/-- The descriptors of a new request: their links, and those of other requests. -/
theorem publish_linked (statusAddr : Nat → Nat) (d : Disk β) (r : Request β)
    (hn : c.descs.Nodup) (hlt : ∀ x ∈ c.descs, x < num) :
    c.Linked (d.publish statusAddr r c) := by
  have hn' := hn
  simp only [Chain.descs, List.nodup_cons, List.mem_cons, List.not_mem_nil, or_false,
    List.nodup_nil, not_or] at hn
  obtain ⟨⟨h01, h02⟩, h12, -⟩ := hn
  refine ⟨hn', hlt, ?_, ?_, ?_⟩
  · simp only [Disk.publish, Function.update_of_ne h02, Function.update_of_ne h01,
      Function.update_self]
    exact ⟨by decide, trivial⟩
  · simp only [Disk.publish, Function.update_of_ne h12, Function.update_self, and_true]
    cases r.write <;> decide
  · simp only [Disk.publish, Function.update_self]
    decide

theorem publish_desc (statusAddr : Nat → Nat) (d : Disk β) (r : Request β) {x : Nat}
    (hx : x ∉ c.descs) : (d.publish statusAddr r c).desc x = d.desc x := by
  simp only [Chain.descs, List.mem_cons, List.not_mem_nil, or_false, not_or] at hx
  simp only [Disk.publish, Function.update_of_ne hx.1, Function.update_of_ne hx.2.1,
    Function.update_of_ne hx.2.2]

theorem take3_free (d : Disk β) (c : Chain) (x : Nat) :
    (d.take3 c).free x = (d.free x && decide (x ∉ c.descs)) := by
  simp only [Disk.take3, Function.update_apply, Chain.descs, List.mem_cons, List.not_mem_nil,
    or_false]
  by_cases h2 : x = c.status
  · simp [h2]
  · by_cases h1 : x = c.data
    · simp [h1]
    · by_cases h0 : x = c.head
      · simp [h0]
      · simp [h0, h1, h2]

section

variable [DecidableEq ι]

/-- A call that is not in flight stays so. -/
theorem flies_update {p : Phase} (h : ∀ c, s.phase i ≠ .waiting c)
    (hp : ∀ c, p ≠ .waiting c)
    {d : Disk β} : ({ s with disk := d, phase := Function.update s.phase i p } :
      System ι β).Flies j c ↔ s.Flies j c := by
  unfold Flies
  by_cases hj : j = i
  · subst hj
    simp [h c, hp c]
  · simp [Function.update_of_ne hj]

theorem InvWith.submit_none (I : s.InvWith req published done) {d : Disk β} (hd : s.disk.SameBut d)
    (hi : s.phase i = .start ∨ s.phase i = .asleep) :
    ({ s with disk := d, phase := Function.update s.phase i .asleep } : System ι β).InvWith req
      published done := by
  have hidle : ∀ c, s.phase i ≠ .waiting c := by
    intro c hc
    rcases hi with hi | hi <;> rw [hi] at hc <;> cases hc
  have hfly : ∀ {j c}, ({ s with disk := d, phase := Function.update s.phase i .asleep } :
      System ι β).Flies j c ↔ s.Flies j c := flies_update hidle (by simp)
  have hret : ∀ j, Function.update s.phase i .asleep j = .returned ↔ s.phase j = .returned := by
    intro j
    by_cases hj : j = i
    · subst hj
      rcases hi with hi | hi <;> simp [hi]
    · rw [Function.update_of_ne hj]
  refine ⟨fun {j c} h => (I.linked (hfly.mp h)).congr fun x hx => ?_,
    fun h h' => I.apart (hfly.mp h) (hfly.mp h'), fun x hx => ?_, fun h => ?_,
    fun h => I.owner (hfly.mp h), I.taken, ?_, ?_, ?_, ?_, ?_, I.nodup, fun x => ?_, I.completed,
    I.wokenNodup, fun x => ?_⟩
  · simp only [hd.desc x (I.inUse (hfly.mp h) hx), and_self]
  · simp only [hd.free, hfly]
    exact I.free x hx
  · simp only [hd.info]
    exact I.info (hfly.mp h)
  · simp only [hd.availRing]
    exact I.avail
  · simp only [hd.availIdx]
    exact I.availIdx
  · simp only [hd.usedIdx]
    exact I.usedIdx
  · simp only [hd.usedElems, hd.usedIdx]
    exact I.used
  · simp only [hd.usedId, hd.usedIdx]
    exact I.usedId
  · simp only [hd.info, hfly]
    exact I.mem x
  · simp only [hd.info, hfly, hret]
    exact I.woken x

theorem InvWith.submit_some (I : s.InvWith req published done) (statusAddr : Nat → Nat)
    (hi : s.phase i = .start ∨ s.phase i = .asleep) (hn : c.descs.Nodup)
    (hfree : ∀ x ∈ c.descs, x < num ∧ s.disk.free x = true) :
    ({ s with
      disk := (s.disk.take3 c).publish statusAddr (req i) c
      phase := Function.update s.phase i (.waiting c)
      owner := Function.update s.owner c.head (some i) } : System ι β).InvWith req
      (published ++ [c.head]) done := by
  have hidle : ∀ {c'}, ¬s.Flies i c' := by
    intro c' hc
    unfold Flies at hc
    rcases hi with hi | hi <;> rw [hi] at hc <;> cases hc
  have hlen := I.length_le
  simp only [List.length_append] at hlen
  -- the requests in flight are the new one and those from before
  have hfly : ∀ {j c'}, ({ s with
      disk := (s.disk.take3 c).publish statusAddr (req i) c
      phase := Function.update s.phase i (.waiting c)
      owner := Function.update s.owner c.head (some i) } : System ι β).Flies j c' ↔
      (j = i ∧ c' = c) ∨ s.Flies j c' := by
    intro j c'
    unfold Flies
    by_cases hj : j = i
    · subst hj
      have := @hidle c'
      unfold Flies at this
      simp [this, eq_comm]
    · simp [hj]
  have hother : ∀ {j c'}, s.Flies j c' → c'.descs.Disjoint c.descs := by
    intro j c' hf x hx hxc
    have := I.inUse hf hx
    rw [(hfree x hxc).2] at this
    cases this
  have hne : ∀ {j c'}, s.Flies j c' → c'.head ≠ c.head := by
    intro j c' hf he
    exact hother hf c'.head_mem (by rw [he]; exact c.head_mem)
  have hinfo : ∀ {x}, x ≠ c.head →
      ((s.disk.take3 c).publish statusAddr (req i) c).info x = s.disk.info x := by
    intro x hx
    simp only [Disk.publish, Disk.take3, Function.update_of_ne hx]
  have hself : ((s.disk.take3 c).publish statusAddr (req i) c).info c.head =
      ⟨some (req i).bufList, 0, true⟩ := by
    simp [Disk.publish]
  have hnot : c.head ∉ published ++ s.pending ++ done := by
    intro hm
    obtain ⟨j, c', hf, he, -⟩ := (I.mem _).mp hm
    exact hne hf he
  refine ⟨fun {j c'} h => ?_, fun {j j' c₁ c₂} h h' hij => ?_, fun x hx => ?_,
    fun {j c'} h => ?_,
    fun {j c'} h => ?_, I.taken, ?_, ?_, I.usedIdx, I.used, I.usedId, ?_, fun x => ?_, ?_,
    I.wokenNodup,
    fun x => ?_⟩
  · rcases hfly.mp h with ⟨rfl, rfl⟩ | hf
    · exact publish_linked statusAddr _ (req _) hn fun x hx => (hfree x hx).1
    · refine (I.linked hf).congr fun x hx => ?_
      simp only [publish_desc statusAddr _ (req i) (hother hf hx), Disk.take3, and_self]
  · rcases hfly.mp h with ⟨rfl, rfl⟩ | hf <;> rcases hfly.mp h' with ⟨rfl, rfl⟩ | hf'
    · exact absurd rfl hij
    · exact fun x hx hx' => hother hf' hx' hx
    · exact hother hf
    · exact I.apart hf hf' hij
  · have hf : ((s.disk.take3 c).publish statusAddr (req i) c).free x =
        (s.disk.free x && decide (x ∉ c.descs)) := take3_free s.disk c x
    simp only [hf, hfly, Bool.and_eq_true, decide_eq_true_eq, I.free x hx]
    constructor
    · rintro ⟨hall, hc⟩ j c' (⟨rfl, rfl⟩ | hf)
      · exact hc
      · exact hall j c' hf
    · intro hall
      exact ⟨fun j c' hf => hall j c' (.inr hf), hall i c (.inl ⟨rfl, rfl⟩)⟩
  · rcases hfly.mp h with ⟨rfl, rfl⟩ | hf
    · simp only [hself, and_self]
    · simp only [hinfo (hne hf)]
      exact I.info hf
  · rcases hfly.mp h with ⟨rfl, rfl⟩ | hf
    · exact Function.update_self ..
    · exact (Function.update_of_ne (hne hf) ..).trans (I.owner hf)
  · have hplace : s.disk.availIdx % num = (s.taken + published.length) % num := by
      rw [I.availIdx]
      exact Nat.mod_mod_of_dvd _ (by decide)
    rw [List.length_append, List.length_singleton]
    simp only [Disk.publish, Disk.take3, hplace]
    rw [window_push (by unfold num; omega), I.avail]
  · simp only [Disk.publish, Disk.take3, I.availIdx, List.length_append, List.length_singleton]
    omega
  · have hnodup := List.nodup_cons.mpr ⟨hnot, I.nodup⟩
    refine (List.Perm.nodup_iff ?_).mp hnodup
    rw [List.append_assoc, List.append_assoc, List.append_assoc]
    exact List.perm_middle.symm
  · have hmem : x ∈ published ++ [c.head] ++ s.pending ++ done ↔
        x = c.head ∨ x ∈ published ++ s.pending ++ done := by
      simp only [List.mem_append, List.mem_singleton]
      tauto
    rw [hmem, I.mem]
    simp only [hfly]
    constructor
    · rintro (rfl | ⟨j, c', hf, rfl, hw⟩)
      · exact ⟨i, c, .inl ⟨rfl, rfl⟩, rfl, by rw [hself]⟩
      · exact ⟨j, c', .inr hf, rfl, by rw [hinfo (hne hf)]; exact hw⟩
    · rintro ⟨j, c', ⟨rfl, rfl⟩ | hf, rfl, hw⟩
      · exact .inl rfl
      · rw [hinfo (hne hf)] at hw
        exact .inr ⟨j, c', hf, rfl, hw⟩
  · simp only [I.completed]
    congr 1
    refine List.map_congr_left fun x hx => (Function.update_of_ne ?_ ..).symm
    rintro rfl
    exact hnot (List.mem_append_right _ hx)
  · simp only [I.woken x, hfly]
    refine exists_congr fun j => and_congr_right fun _ => ?_
    by_cases hj : j = i
    · subst hj
      refine iff_of_false ?_ ?_
      · rintro (hret | ⟨c', hf, -⟩)
        · rcases hi with hi | hi <;> rw [hi] at hret <;> cases hret
        · exact hidle hf
      · rintro (hret | ⟨c', ⟨-, rfl⟩ | hf, hw⟩)
        · simp at hret
        · rw [hself] at hw
          cases hw
        · exact hidle hf
    · rw [Function.update_of_ne hj]
      refine or_congr_right (exists_congr fun c' => ?_)
      constructor
      · rintro ⟨hf, hw⟩
        exact ⟨.inr hf, by rw [hinfo (hne hf)]; exact hw⟩
      · rintro ⟨⟨rfl, -⟩ | hf, hw⟩
        · exact absurd rfl hj
        · rw [hinfo (hne hf)] at hw
          exact ⟨hf, hw⟩

end

end System

end OsKernel.Hal

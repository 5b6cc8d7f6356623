import Mathlib.Data.Fintype.Defs
import OsKernel.Fs.Ext4.BufferPool
import OsKernel.Lib.RefCount

/-! `request_block` by several processes.  The search runs without the lock of the pool, and the
lock is dropped for the read of each sector; what is done under the lock at one time is one step,
and so is a read. -/

namespace OsKernel.Fs.Ext4

/-- How far a process has come with its request for the block `b`. -/
inductive Req where
  | idle
  /-- The search is over, and the lock is not taken. -/
  | searched (b : Int) (pin : Bool) (pbuf : Option (Fin poolCount))
  /-- The lock is dropped before the read of the sector `k` for the buffer `pbuf`. -/
  | fetching (b : Int) (pin : Bool) (pbuf : Fin poolCount) (k : Nat)
  /-- The sector `k` is read, and the lock is not taken again. -/
  | fetched (b : Int) (pin : Bool) (pbuf : Fin poolCount) (k : Nat) (buf : Buffer)

namespace Req

/-- The buffer that the request fills. -/
def victim : Req → Option (Fin poolCount)
  | idle | searched .. => none
  | fetching _ _ v _ | fetched _ _ v _ _ => some v

/-- The block that the request has not found. -/
def missing : Req → Option Int
  | searched b _ none | fetching b _ _ _ | fetched b _ _ _ _ => some b
  | idle | searched _ _ (some _) => none

/-- The reference that the request has to a buffer of the cache. -/
def ref (fs : Ext4FS) : Req → Option Ref
  | fetched b _ _ k buf => some ⟨buf, fs.dev, fs.lba b k⟩
  | idle | searched .. | fetching .. => none

end Req

/-- The pool and the cache with the requests of the processes.  `holders` has who pinned which
buffer for which block and has not unpinned it; `ret` is the request that the last step ended. -/
structure PoolSystem (α : Type) where
  pool : Pool
  cache : Cache
  req : α → Req
  holders : List (α × Fin poolCount × Int)
  ret : Option (α × Int × Fin poolCount)

inductive ReqEvent (α : Type) where
  | search (p : α) (b : Int) (pin : Bool)
  | lock (p : α)
  | fetch (p : α)
  | copy (p : α)
  | unpin (p : α) (i : Fin poolCount) (b : Int)

namespace PoolSystem

variable {α : Type} [DecidableEq α] (fs : Ext4FS) (s : PoolSystem α)

def setReq (p : α) (r : Req) : PoolSystem α :=
  { s with req := Function.update s.req p r, ret := none }

/-- The end of `request_block`. -/
def finish (p : α) (b : Int) (pin : Bool) (i : Fin poolCount) : PoolSystem α where
  pool := s.pool.use i pin
  cache := s.cache
  req := Function.update s.req p .idle
  holders := if pin then (p, i, b) :: s.holders else s.holders
  ret := some (p, b, i)

/-- The loop over the sectors goes on with the sector `k`, or ends. -/
def fillFrom (p : α) (b : Int) (pin : Bool) (v : Fin poolCount) (k : Nat) : PoolSystem α :=
  if k < fs.numSector then s.setReq p (.fetching b pin v k)
  else ({ s with pool := s.pool.identify v b } : PoolSystem α).finish p b pin v

/-- A sector is copied. -/
def copied (v : Fin poolCount) (k : Nat) (buf : Buffer) : PoolSystem α :=
  { s with
    pool := (copyFetched s.pool s.cache v k buf).1
    cache := (copyFetched s.pool s.cache v k buf).2 }

/-- Some request fills the buffer `i`. -/
def Filled (i : Fin poolCount) : Prop := ∃ p, (s.req p).victim = some i

end PoolSystem

variable {α : Type} [DecidableEq α]

/-- One step of a process. -/
inductive ReqStep (fs : Ext4FS) : ReqEvent α → PoolSystem α → PoolSystem α → Prop
  | search {s : PoolSystem α} {p : α} {b : Int} {pin : Bool} {r : Option (Fin poolCount)} :
      s.req p = .idle → s.pool.searchBuffer b = .ok r →
      ReqStep fs (.search p b pin) s (s.setReq p (.searched b pin r))
  | hit {s : PoolSystem α} {p : α} {b : Int} {pin : Bool} {i : Fin poolCount} :
      s.req p = .searched b pin (some i) → ReqStep fs (.lock p) s (s.finish p b pin i)
  | full {s : PoolSystem α} {p : α} {b : Int} {pin : Bool} : s.req p = .searched b pin none →
      s.pool.allocBuffer = .ok none → ReqStep fs (.lock p) s (s.setReq p .idle)
  | alloc {s : PoolSystem α} {p : α} {b : Int} {pin : Bool} {v : Fin poolCount} :
      s.req p = .searched b pin none → s.pool.allocBuffer = .ok (some v) →
      ReqStep fs (.lock p) s (s.fillFrom fs p b pin v 0)
  | fetch {s : PoolSystem α} {p : α} {b : Int} {pin : Bool} {v : Fin poolCount} {k : Nat}
      {buf : Buffer}
      {c : Cache} : s.req p = .fetching b pin v k → fetchSector fs s.cache b k = .ok (buf, c) →
      ReqStep fs (.fetch p) s (({ s with cache := c } : PoolSystem α).setReq p
        (.fetched b pin v k buf))
  | copy {s : PoolSystem α} {p : α} {b : Int} {pin : Bool} {v : Fin poolCount} {k : Nat}
      {buf : Buffer} : s.req p = .fetched b pin v k buf →
      ReqStep fs (.copy p) s ((s.copied v k buf).fillFrom fs p b pin v (k + 1))
  | unpin {s : PoolSystem α} {p : α} {i : Fin poolCount} {b : Int} : (p, i, b) ∈ s.holders →
      ReqStep fs (.unpin p i b) s
        { s with pool := s.pool.unpin i, holders := s.holders.erase (p, i, b), ret := none }

/-- The states of a new pool on a new cache, by steps that all meet a condition. -/
inductive ReqRun (fs : Ext4FS) (disk : Int → Nat → UInt8)
    (Ok : PoolSystem α → ReqEvent α → Prop) : PoolSystem α → Prop
  | start (data : Fin poolCount → Nat → UInt8)
      (pages : Fin blockPerPool → Fin maxBufferPerBlock → Nat → UInt8)
      (next prev : Fin blockPerPool → Node → Node) :
      ReqRun fs disk Ok ⟨Pool.init data, Cache.init pages next prev disk, fun _ => .idle, [],
        none⟩
  | step {s s' : PoolSystem α} {e : ReqEvent α} : ReqRun fs disk Ok s → Ok s e →
      ReqStep fs e s s' → ReqRun fs disk Ok s'

/-- A request that has just ended returned a buffer with its block, a pinned buffer has the block it
was pinned for, and no two valid buffers have one block. -/
structure RequestsRight (fs : Ext4FS) (disk : Int → Nat → UInt8) (s : PoolSystem α) :
    Prop where
  returned : ∀ {p b i}, s.ret = some (p, b, i) → s.pool.Has fs disk i b fs.numSector
  pinned : ∀ {p i b}, (p, i, b) ∈ s.holders →
    s.pool.valid i = true ∧ s.pool.blockNo i = b ∧ s.pool.Has fs disk i b fs.numSector
  unique : ∀ {i j}, s.pool.valid i = true → s.pool.valid j = true →
    s.pool.blockNo i = s.pool.blockNo j → i = j

/-- The requests keep out of each other's way: a search does not hit a buffer that is being filled,
nor misses a block that another request is fetching; the buffer that is taken for a block is not
being filled, and no other request has found it; and a buffer is unpinned by its only holder. -/
def Separate (fs : Ext4FS) (s : PoolSystem α) : ReqEvent α → Prop
  | .search _ b _ =>
      fs.Near b ∧ (∀ i, s.pool.searchBuffer b = .ok (some i) → ¬s.Filled i) ∧
      (s.pool.searchBuffer b = .ok none → ∀ q, (s.req q).missing ≠ some b)
  | .lock p => ∀ b pin v, s.req p = .searched b pin none → s.pool.allocBuffer = .ok (some v) →
      ¬s.Filled v ∧ ∀ q b' pin', s.req q ≠ .searched b' pin' (some v)
  | .fetch p => ∀ b pin v k, s.req p = .fetching b pin v k →
      ∃ i, (s.cache.pool ⟨blkNumFromLba (fs.lba b k), blkNumFromLba_lt _⟩).refCnt i = 0
  | .copy _ => True
  | .unpin p i b => ∀ x ∈ s.holders.erase (p, i, b), x.2.1 ≠ i

/-! ### The invariant -/

/-- The buffer that the request has found or fills. -/
def Req.uses : Req → Option (Fin poolCount)
  | idle => none
  | searched _ _ pbuf => pbuf
  | fetching _ _ v _ | fetched _ _ v _ _ => some v

/-- What a request knows of the pool. -/
def Req.Good (fs : Ext4FS) (disk : Int → Nat → UInt8) (p : Pool) : Req → Prop
  | idle => True
  | searched b _ (some i) => p.valid i = true ∧ p.blockNo i = b
  | searched b _ none => fs.Near b ∧ ∀ i, p.valid i = true → p.blockNo i ≠ b
  | fetching b _ v k =>
      fs.Near b ∧ (∀ i, p.valid i = true → p.blockNo i ≠ b) ∧ p.Has fs disk v b k ∧
      k ≤ fs.numSector
  | fetched b _ v k _ =>
      fs.Near b ∧ (∀ i, p.valid i = true → p.blockNo i ≠ b) ∧ p.Has fs disk v b k ∧
      k < fs.numSector

/-- Another request does not use the buffer that this one fills, nor fetch its block. -/
def Req.Apart (r r' : Req) : Prop :=
  (∀ v, r.victim = some v → r'.uses ≠ some v) ∧ ∀ b, r.missing = some b →
    r'.missing ≠ some b

section

variable [Fintype α]

/-- The references of all processes. -/
noncomputable def PoolSystem.refs (fs : Ext4FS) (req : α → Req) : List Ref :=
  (Finset.univ : Finset α).toList.filterMap fun p => (req p).ref fs

/-- What every step keeps. -/
structure ReqInv (fs : Ext4FS) (disk : Int → Nat → UInt8) (s : PoolSystem α) : Prop where
  listed : s.pool.Listed
  has : ∀ {i}, s.pool.valid i = true → ¬s.Filled i →
    s.pool.Has fs disk i (s.pool.blockNo i) fs.numSector
  unique : ∀ {i j}, s.pool.valid i = true → s.pool.valid j = true →
    s.pool.blockNo i = s.pool.blockNo j → i = j
  good : ∀ p, (s.req p).Good fs disk s.pool
  apart : ∀ {p q}, p ≠ q → (s.req p).Apart (s.req q)
  held : ∀ {p i b}, (p, i, b) ∈ s.holders →
    s.pool.pinned i = true ∧ s.pool.valid i = true ∧ s.pool.blockNo i = b ∧ ¬s.Filled i
  cache : CacheInv ⟨s.cache, disk, PoolSystem.refs fs s.req⟩
  ret : ∀ {p b i}, s.ret = some (p, b, i) → s.pool.Has fs disk i b fs.numSector

variable {fs : Ext4FS} {disk : Int → Nat → UInt8} {s s' : PoolSystem α} {p q : α} {b : Int}
  {pin : Bool}
  {v i : Fin poolCount} {k : Nat}

theorem refs_update {req : α → Req} {r : Req} (h : r.ref fs = (req p).ref fs) :
    PoolSystem.refs fs (Function.update req p r) = PoolSystem.refs fs req := by
  refine List.filterMap_congr fun q _ => ?_
  by_cases hqp : q = p
  · rw [hqp, Function.update_self, h]
  · rw [Function.update_of_ne hqp]

theorem refs_perm {req : α → Req} {r : Req} {x : Ref} (hp : (req p).ref fs = none)
    (hr : r.ref fs = some x) :
      (PoolSystem.refs fs (Function.update req p r)).Perm (x :: PoolSystem.refs fs req) := by
  refine RefCount.filterMap_perm (p := p) (Finset.nodup_toList _) (by simp) hp ?_ fun q hq => ?_
  · rw [Function.update_self]
    exact hr
  · rw [Function.update_of_ne hq]

namespace ReqInv

omit [DecidableEq α] in
theorem start (data : Fin poolCount → Nat → UInt8)
    (pages : Fin blockPerPool → Fin maxBufferPerBlock → Nat → UInt8)
    (next prev : Fin blockPerPool → Node → Node) : ReqInv fs disk
      (⟨Pool.init data, Cache.init pages next prev disk, fun _ => .idle, [], none⟩ :
        PoolSystem α) := by
  refine ⟨Pool.init_listed data, nofun, nofun, fun _ => trivial, fun _ => ⟨nofun, nofun⟩,
    nofun, ?_, nofun⟩
  have hrefs : PoolSystem.refs fs (fun _ : α => Req.idle) = [] := by
    unfold PoolSystem.refs
    simp [Req.ref]
  rw [hrefs]
  exact CacheInv.init pages next prev disk

/-- A request goes on, and the pool does not change. -/
theorem setReq (I : ReqInv fs disk s) {r : Req} {c : Cache} (hgood : r.Good fs disk s.pool)
    (hapart : ∀ q, q ≠ p → r.Apart (s.req q) ∧ (s.req q).Apart r)
    (hkeep : ∀ i, (s.req p).victim = some i → r.victim = some i)
    (hheld : ∀ q i b, (q, i, b) ∈ s.holders → r.victim ≠ some i)
    (hcache : CacheInv ⟨c, disk, PoolSystem.refs fs (Function.update s.req p r)⟩) :
    ReqInv fs disk (({ s with cache := c } : PoolSystem α).setReq p r) := by
  have hfilled : ∀ i, (({ s with cache := c } : PoolSystem α).setReq p r).Filled i ↔
      r.victim = some i ∨ ∃ q, q ≠ p ∧ (s.req q).victim = some i := by
    intro i
    unfold PoolSystem.Filled PoolSystem.setReq
    constructor
    · rintro ⟨q, hq⟩
      by_cases hqp : q = p
      · subst hqp
        simp only [Function.update_self] at hq
        exact .inl hq
      · simp only [Function.update_of_ne hqp] at hq
        exact .inr ⟨q, hqp, hq⟩
    · rintro (h | ⟨q, hqp, h⟩)
      · exact ⟨p, by simpa only [Function.update_self] using h⟩
      · exact ⟨q, by simpa only [Function.update_of_ne hqp] using h⟩
  refine ⟨I.listed, fun {i} hi hf => I.has hi ?_, I.unique, fun q => ?_, fun {q q'} hne => ?_,
    fun {q i b} hq => ?_, hcache, nofun⟩
  · rintro ⟨q, hq⟩
    refine hf ((hfilled i).mpr ?_)
    by_cases hqp : q = p
    · subst hqp
      exact .inl (hkeep i hq)
    · exact .inr ⟨q, hqp, hq⟩
  · by_cases hqp : q = p
    · subst hqp
      simpa only [PoolSystem.setReq, Function.update_self] using hgood
    · simpa only [PoolSystem.setReq, Function.update_of_ne hqp] using I.good q
  · unfold PoolSystem.setReq
    by_cases hq : q = p
    · subst hq
      simp only [Function.update_self, Function.update_of_ne (Ne.symm hne)]
      exact (hapart q' (Ne.symm hne)).1
    · by_cases hq' : q' = p
      · subst hq'
        simp only [Function.update_self, Function.update_of_ne hq]
        exact (hapart q hq).2
      · simp only [Function.update_of_ne hq, Function.update_of_ne hq']
        exact I.apart hne
  · obtain ⟨h₁, h₂, h₃, h₄⟩ := I.held hq
    refine ⟨h₁, h₂, h₃, fun hf => ?_⟩
    rcases (hfilled i).mp hf with h | ⟨q', -, h⟩
    · exact hheld q i b hq h
    · exact h₄ ⟨q', h⟩

omit [DecidableEq α] in
theorem good_of (I : ReqInv fs disk s) {r : Req} (hp : s.req p = r) : r.Good fs disk s.pool :=
  hp ▸ I.good p

/-- The buffer of a request is not the one that another request fills. -/
theorem not_filled (I : ReqInv fs disk s) (hp : (s.req p).uses = some i)
    (hv : (s.req p).victim = none) : ¬s.Filled i := by
  rintro ⟨q, hq⟩
  by_cases hqp : q = p
  · rw [hqp, hv] at hq
    cases hq
  · exact (I.apart hqp).1 i hq hp

/-- A request that has filled its buffer has found the block. -/
theorem identify (I : ReqInv fs disk s) (hp : s.req p = .fetching b pin v fs.numSector) :
    ReqInv fs disk (({ s with pool := s.pool.identify v b } : PoolSystem α).setReq p
      (.searched b pin (some v))) := by
  obtain ⟨-, hmiss, hhas, -⟩ := I.good_of hp
  have hvictim : (s.req p).victim = some v := by rw [hp]; rfl
  have hother : ∀ q, q ≠ p → (s.req q).uses ≠ some v :=
    fun q hq => (I.apart (Ne.symm hq)).1 v hvictim
  have hfilled : ∀ {i}, s.Filled i → i ≠ v →
      (({ s with pool := s.pool.identify v b } : PoolSystem α).setReq p
      (.searched b pin (some v))).Filled i := by
    rintro i ⟨q, hq⟩ hi
    have hqp : q ≠ p := by
      rintro rfl
      exact hi (Option.some.inj (hq.symm.trans hvictim))
    exact ⟨q, by simpa only [PoolSystem.setReq, Function.update_of_ne hqp] using hq⟩
  have hvalid : ∀ {i}, i ≠ v → (s.pool.identify v b).valid i = s.pool.valid i := fun h =>
    Function.update_of_ne h ..
  have hblock : ∀ {i}, i ≠ v → (s.pool.identify v b).blockNo i = s.pool.blockNo i := fun h =>
    Function.update_of_ne h ..
  have hself : (s.pool.identify v b).valid v = true ∧ (s.pool.identify v b).blockNo v = b :=
    ⟨Function.update_self .., Function.update_self ..⟩
  refine ⟨I.listed, fun {i} hi hf => ?_, fun {i j} hi hj hij => ?_, fun q => ?_,
    fun {q q'} hne => ?_,
    fun {q i b'} hq => ?_, ?_, nofun⟩
  · by_cases hiv : i = v
    · subst hiv
      simp only [PoolSystem.setReq, hself.2]
      exact hhas
    · simp only [PoolSystem.setReq, hvalid hiv, hblock hiv] at hi ⊢
      exact I.has hi fun h => hf (hfilled h hiv)
  · simp only [PoolSystem.setReq] at hi hj hij
    by_cases hiv : i = v <;> by_cases hjv : j = v
    · rw [hiv, hjv]
    · subst hiv
      rw [hself.2, hblock hjv] at hij
      rw [hvalid hjv] at hj
      exact absurd hij.symm (hmiss j hj)
    · subst hjv
      rw [hself.2, hblock hiv] at hij
      rw [hvalid hiv] at hi
      exact absurd hij (hmiss i hi)
    · rw [hvalid hiv] at hi
      rw [hvalid hjv] at hj
      rw [hblock hiv, hblock hjv] at hij
      exact I.unique hi hj hij
  · by_cases hqp : q = p
    · subst hqp
      simp only [PoolSystem.setReq, Function.update_self]
      exact hself
    · simp only [PoolSystem.setReq, Function.update_of_ne hqp]
      have hgood := I.good q
      have huses := hother q hqp
      have hmissing := (I.apart (Ne.symm hqp)).2 b (by rw [hp]; rfl)
      -- No block that another request fetches is in the pool now.
      have hmiss' : ∀ {b'}, (s.req q).missing = some b' →
          (∀ i, s.pool.valid i = true → s.pool.blockNo i ≠ b') →
          ∀ i, (s.pool.identify v b).valid i = true →
            (s.pool.identify v b).blockNo i ≠ b' := by
        intro b' hb' hold i hi
        by_cases hiv : i = v
        · rw [hiv, hself.2]
          rintro rfl
          exact hmissing hb'
        · rw [hvalid hiv] at hi
          rw [hblock hiv]
          exact hold i hi
      cases hr : s.req q with
      | idle => trivial
      | searched b' pin' r =>
        rw [hr] at hgood huses hmiss'
        cases r with
        | none => exact ⟨hgood.1, hmiss' rfl hgood.2⟩
        | some i =>
          have hiv : i ≠ v := fun h => huses (congrArg some h)
          exact ⟨(hvalid hiv).trans hgood.1, (hblock hiv).trans hgood.2⟩
      | fetching b' pin' v' k' =>
        rw [hr] at hgood hmiss'
        exact ⟨hgood.1, hmiss' rfl hgood.2.1, hgood.2.2⟩
      | fetched b' pin' v' k' buf' =>
        rw [hr] at hgood hmiss'
        exact ⟨hgood.1, hmiss' rfl hgood.2.1, hgood.2.2⟩
  · unfold PoolSystem.setReq
    by_cases hq : q = p
    · subst hq
      simp only [Function.update_self, Function.update_of_ne (Ne.symm hne)]
      exact ⟨nofun, nofun⟩
    · by_cases hq' : q' = p
      · subst hq'
        simp only [Function.update_self, Function.update_of_ne hq]
        refine ⟨fun w hw huse => ?_, nofun⟩
        obtain rfl : v = w := Option.some.inj huse
        exact (I.apart hne).1 v hw (by rw [hp]; rfl)
      · simp only [Function.update_of_ne hq, Function.update_of_ne hq']
        exact I.apart hne
  · obtain ⟨h₁, h₂, h₃, h₄⟩ := I.held hq
    have hiv : i ≠ v := by
      rintro rfl
      exact h₄ ⟨p, hvictim⟩
    refine ⟨h₁, (hvalid hiv).trans h₂, (hblock hiv).trans h₃, ?_⟩
    rintro ⟨q', hq'⟩
    by_cases hqp : q' = p
    · subst hqp
      simp only [PoolSystem.setReq, Function.update_self] at hq'
      cases hq'
    · simp only [PoolSystem.setReq, Function.update_of_ne hqp] at hq'
      exact h₄ ⟨q', hq'⟩
  · have hrefs : PoolSystem.refs fs (Function.update s.req p (.searched b pin (some v))) =
        PoolSystem.refs fs s.req := refs_update (by rw [hp]; rfl)
    show CacheInv ⟨s.cache, disk,
      PoolSystem.refs fs (Function.update s.req p (.searched b pin (some v)))⟩
    rw [hrefs]
    exact I.cache

/-- A request without a victim and a reference is over. -/
theorem drop (I : ReqInv fs disk s) (hv : (s.req p).victim = none) (hr : (s.req p).ref fs = none) :
    ReqInv fs disk (s.setReq p .idle) := by
  refine I.setReq (c := s.cache) trivial (fun q _ => ⟨⟨nofun, nofun⟩, nofun, nofun⟩)
    (fun i hi => ?_) (fun _ _ _ _ => nofun) ?_
  · rw [hv] at hi
    cases hi
  · rw [refs_update (r := .idle) (by rw [hr]; rfl)]
    exact I.cache

theorem finish (I : ReqInv fs disk s) (hp : s.req p = .searched b pin (some i)) :
    ReqInv fs disk (s.finish p b pin i) := by
  obtain ⟨hvalid, hblock⟩ := I.good_of hp
  have hfree : ¬s.Filled i := I.not_filled (by rw [hp]; rfl) (by rw [hp]; rfl)
  have I' := I.drop (p := p) (by rw [hp]; rfl) (by rw [hp]; rfl)
  have hfilled : ¬(s.finish p b pin i).Filled i := by
    rintro ⟨q, hq⟩
    refine hfree ⟨q, ?_⟩
    by_cases hqp : q = p
    · subst hqp
      simp only [PoolSystem.finish, Function.update_self] at hq
      cases hq
    · simpa only [PoolSystem.finish, Function.update_of_ne hqp] using hq
  refine ⟨I'.listed.use i pin, I'.has, I'.unique, I'.good, I'.apart, fun {q j b'} hq => ?_,
    I'.cache,
    fun {q b' j} hret => ?_⟩
  · have hold : (q, j, b') ∈ s.holders → (s.pool.use i pin).pinned j = true ∧
        s.pool.valid j = true ∧ s.pool.blockNo j = b' ∧ ¬(s.finish p b pin i).Filled j := by
      intro hmem
      obtain ⟨h₁, h₂⟩ := I'.held hmem
      refine ⟨?_, h₂⟩
      simp only [Pool.use]
      split
      · rw [Function.update_apply]
        split
        · rfl
        · exact h₁
      · exact h₁
    simp only [PoolSystem.finish] at hq
    split at hq
    · rename_i hpin
      rcases List.mem_cons.mp hq with heq | hmem
      · cases heq
        refine ⟨?_, hvalid, hblock, hfilled⟩
        simp only [PoolSystem.finish, Pool.use, hpin, if_true, Function.update_self]
      · exact hold hmem
    · exact hold hq
  · cases hret
    rw [← hblock]
    exact I.has hvalid hfree

/-- The bytes of a buffer that a request fills change. -/
theorem rewrite (I : ReqInv fs disk s) {data : Nat → UInt8} (hv : (s.req p).victim = some v)
    (hret : s.ret = none) (hgood :
      (s.req p).Good fs disk { s.pool with data := Function.update s.pool.data v data }) :
    ReqInv fs disk { s with pool := { s.pool with data := Function.update s.pool.data v data } } :=
      by
  have hsame : ∀ {i b n}, i ≠ v → s.pool.Has fs disk i b n →
      Pool.Has fs disk { s.pool with data := Function.update s.pool.data v data } i b n := by
    intro i b n hi h k j hk hj
    simp only [Function.update_of_ne hi]
    exact h hk hj
  refine ⟨I.listed, fun {i} hi hf => hsame ?_ (I.has hi hf), I.unique, fun q => ?_, I.apart,
    I.held, I.cache,
    fun {q b i} h => absurd (hret.symm.trans h) nofun⟩
  · rintro rfl
    exact hf ⟨p, hv⟩
  · by_cases hqp : q = p
    · subst hqp
      exact hgood
    have hq := I.good q
    have hne : (s.req q).uses ≠ some v := (I.apart (Ne.symm hqp)).1 v hv
    cases hr : s.req q with
    | idle => trivial
    | searched b' pin' r =>
      rw [hr] at hq
      cases r with
      | none => exact hq
      | some i => exact hq
    | fetching b' pin' w k' =>
      rw [hr] at hq hne
      exact ⟨hq.1, hq.2.1, hsame (fun h => hne (congrArg some h)) hq.2.2.1, hq.2.2.2⟩
    | fetched b' pin' w k' buf' =>
      rw [hr] at hq hne
      exact ⟨hq.1, hq.2.1, hsame (fun h => hne (congrArg some h)) hq.2.2.1, hq.2.2.2⟩

/-- A request that fills a buffer goes on with it. -/
theorem advance (I : ReqInv fs disk s) {r : Req} {c : Cache} (hv : r.victim = (s.req p).victim)
    (hu : r.uses = (s.req p).uses) (hm : r.missing = (s.req p).missing)
    (hgood : r.Good fs disk s.pool)
    (hcache : CacheInv ⟨c, disk, PoolSystem.refs fs (Function.update s.req p r)⟩) :
    ReqInv fs disk (({ s with cache := c } : PoolSystem α).setReq p r) := by
  refine I.setReq hgood (fun q hq => ?_) (fun i hi => hv.trans hi) (fun q i b hmem hi => ?_) hcache
  · unfold Req.Apart
    rw [hv, hu, hm]
    exact ⟨I.apart (Ne.symm hq), I.apart hq⟩
  · exact (I.held hmem).2.2.2 ⟨p, hv.symm.trans hi⟩

/-- A sector is copied to the buffer that the request fills. -/
theorem copied (I : ReqInv fs disk s) {buf : Buffer} (hp : s.req p = .fetched b pin v k buf) :
    ReqInv fs disk ((s.copied v k buf).setReq p (.fetching b pin v (k + 1))) := by
  obtain ⟨hnear, hmiss, hhas, hk⟩ := I.good_of hp
  -- The references are those of the other requests, and the one that is released.
  have hperm : ∀ n, (PoolSystem.refs fs s.req).Perm (⟨buf, fs.dev, fs.lba b k⟩ ::
      PoolSystem.refs fs (Function.update s.req p (.fetching b pin v n))) := by
    intro n
    have h : (PoolSystem.refs fs (Function.update (Function.update s.req p (.fetching b pin v n)) p
        (.fetched b pin v k buf))).Perm _ := refs_perm (by rw [Function.update_self]; rfl) rfl
    rwa [Function.update_idem, ← hp, Function.update_eq_self] at h
  obtain ⟨hcache, hhas', data, hdata⟩ := copyFetched_spec (I.cache.perm (hperm k)) hhas
  have hrefs : PoolSystem.refs fs (Function.update s.req p (.fetching b pin v (k + 1))) =
      PoolSystem.refs fs (Function.update s.req p (.fetching b pin v k)) := by
    rw [← Function.update_idem (Req.fetching b pin v k),
      refs_update (by rw [Function.update_self]; rfl)]
  rw [hdata] at hhas'
  have I₁ := I.advance (p := p) (r := .fetching b pin v k) (by rw [hp]; rfl) (by rw [hp]; rfl)
    (by rw [hp]; rfl)
    ⟨hnear, hmiss, hhas, Nat.le_of_lt hk⟩ hcache
  have hreq : (({ s with cache := (copyFetched s.pool s.cache v k buf).2 } : PoolSystem α).setReq p
      (.fetching b pin v k)).req p = .fetching b pin v k := Function.update_self ..
  have hgood : (Req.fetching b pin v k).Good fs disk
      { s.pool with data := Function.update s.pool.data v data } :=
    ⟨hnear, hmiss, fun hlt hj => hhas' (Nat.lt_succ_of_lt hlt) hj, Nat.le_of_lt hk⟩
  have I₂ := I₁.rewrite (p := p) (v := v) (by rw [hreq]; rfl) rfl (hreq.symm ▸ hgood)
  have I₃ := I₂.advance (p := p) (r := .fetching b pin v (k + 1)) (by rw [hreq]; rfl)
    (by rw [hreq]; rfl) (by rw [hreq]; rfl) ⟨hnear, hmiss, hhas', hk⟩
    (c := (copyFetched s.pool s.cache v k buf).2) (by
      simp only [PoolSystem.setReq, Function.update_idem]
      rw [hrefs]
      exact hcache)
  unfold PoolSystem.copied
  rw [hdata]
  simpa only [PoolSystem.setReq, Function.update_idem] using I₃

/-- The loop goes on, or the request ends. -/
theorem fillFrom (I : ReqInv fs disk (s.setReq p (.fetching b pin v k))) :
    ReqInv fs disk (s.fillFrom fs p b pin v k) := by
  unfold PoolSystem.fillFrom
  split
  · exact I
  · rename_i hk
    have hreq : (s.setReq p (.fetching b pin v k)).req p = .fetching b pin v k :=
      Function.update_self ..
    obtain ⟨-, -, -, hle⟩ := I.good_of hreq
    obtain rfl : k = fs.numSector := Nat.le_antisymm hle (Nat.not_lt.mp hk)
    have hend := (I.identify hreq).finish (Function.update_self ..)
    unfold PoolSystem.finish at hend ⊢
    simpa only [PoolSystem.setReq, Function.update_idem] using hend

theorem step (I : ReqInv fs disk s) {e : ReqEvent α}
    (hmore : ∀ p b pin v k, s.req p = .fetching b pin v k → k < fs.numSector)
    (hok : Separate fs s e)
    (hs : ReqStep fs e s s') : ReqInv fs disk s' := by
  cases hs with
  | @search _ p b pin r hp hsearch =>
    obtain ⟨hnear, hhit, hmiss⟩ := hok
    have hnone : PoolSystem.refs fs (Function.update s.req p (.searched b pin r)) =
        PoolSystem.refs fs s.req :=
      refs_update (by rw [hp]; rfl)
    refine I.setReq (c := s.cache) ?_ (fun q hq => ?_) (fun i hi => ?_) (fun _ _ _ _ => nofun)
      (hnone ▸ I.cache)
    · rcases I.listed.search b with ⟨i, hrun, hi, hb⟩ | ⟨hrun, hno⟩
      · rw [hsearch] at hrun
        obtain rfl := Except.ok.inj hrun
        exact ⟨hi, hb⟩
      · rw [hsearch] at hrun
        obtain rfl := Except.ok.inj hrun
        exact ⟨hnear, hno⟩
    · cases r with
      | none =>
        refine ⟨⟨nofun, fun b' hb' => ?_⟩, nofun, fun b' hb' => ?_⟩
        · obtain rfl : b = b' := Option.some.inj hb'
          exact hmiss hsearch q
        · intro hb
          obtain rfl : b = b' := Option.some.inj hb
          exact hmiss hsearch q hb'
      | some i =>
        refine ⟨⟨nofun, nofun⟩, fun v hv hu => ?_, nofun⟩
        obtain rfl : i = v := Option.some.inj hu
        exact hhit i hsearch ⟨q, hv⟩
    · rw [hp] at hi
      cases hi
  | hit hp => exact I.finish hp
  | full hp _ => exact I.drop (by rw [hp]; rfl) (by rw [hp]; rfl)
  | @alloc _ p b pin v hp halloc =>
    obtain ⟨hnear, hmiss⟩ := I.good_of hp
    obtain ⟨hfilled, hfound⟩ := hok b pin v hp halloc
    have hpinned := I.listed.alloc_pinned halloc
    have huses : ∀ q, (s.req q).uses ≠ some v := by
      intro q hq
      cases hr : s.req q with
      | idle =>
        rw [hr] at hq
        cases hq
      | searched b' pin' r =>
        rw [hr] at hq
        obtain rfl : r = some v := hq
        exact hfound q b' pin' hr
      | fetching b' pin' w k' => exact hfilled ⟨q, by rw [hr] at hq ⊢; exact hq⟩
      | fetched b' pin' w k' buf' => exact hfilled ⟨q, by rw [hr] at hq ⊢; exact hq⟩
    have hrefs : PoolSystem.refs fs (Function.update s.req p (.fetching b pin v 0)) =
        PoolSystem.refs fs s.req :=
      refs_update (by rw [hp]; rfl)
    refine ReqInv.fillFrom (I.setReq (c := s.cache) ⟨hnear, hmiss, nofun, Nat.zero_le _⟩
      (fun q hq => ⟨⟨?_, ?_⟩,
      fun w hw hu => ?_, fun b' hb' hb => ?_⟩) (fun i hi => ?_) (fun q i b' hmem hi => ?_)
      (hrefs ▸ I.cache))
    · intro w hw
      obtain rfl : v = w := Option.some.inj hw
      exact huses q
    · intro b' hb'
      obtain rfl : b = b' := Option.some.inj hb'
      exact (I.apart (Ne.symm hq)).2 b (by rw [hp]; rfl)
    · obtain rfl : v = w := Option.some.inj hu
      exact hfilled ⟨q, hw⟩
    · obtain rfl : b = b' := Option.some.inj hb
      exact (I.apart hq).2 b hb' (by rw [hp]; rfl)
    · rw [hp] at hi
      cases hi
    · obtain rfl : v = i := Option.some.inj hi
      have := (I.held hmem).1
      rw [hpinned] at this
      cases this
  | @fetch _ p b pin v k buf c hp hfetch =>
    obtain ⟨hnear, hmiss, hhas, -⟩ := I.good_of hp
    have hk := hmore p b pin v k hp
    obtain ⟨buf', c', hrun, hcache⟩ := fetchSector_spec I.cache (hnear hk) (hok b pin v k hp)
    rw [hfetch] at hrun
    cases hrun
    refine I.advance (by rw [hp]; rfl) (by rw [hp]; rfl) (by rw [hp]; rfl)
      ⟨hnear, hmiss, hhas, hk⟩ ?_
    exact hcache.perm (refs_perm (by rw [hp]; rfl) rfl).symm
  | copy hp => exact (I.copied hp).fillFrom
  | @unpin _ p i b hmem =>
    refine ⟨I.listed, I.has, I.unique, I.good, I.apart, fun {q j b'} hq => ?_, I.cache, nofun⟩
    obtain ⟨h₁, h₂⟩ := I.held (List.mem_of_mem_erase hq)
    have hji : j ≠ i := hok _ hq
    refine ⟨?_, h₂⟩
    simp only [Pool.unpin, Function.update_of_ne hji]
    exact h₁

omit [DecidableEq α] in
theorem right (I : ReqInv fs disk s) : RequestsRight fs disk s := by
  refine ⟨I.ret, fun {p i b} hmem => ?_, I.unique⟩
  obtain ⟨-, hvalid, hblock, hfree⟩ := I.held hmem
  exact ⟨hvalid, hblock, hblock ▸ I.has hvalid hfree⟩

end ReqInv

omit [Fintype α] in
/-- A request that reads has a sector left to read. -/
theorem ReqStep.more {e : ReqEvent α}
    (h : ∀ p b pin v k, s.req p = .fetching b pin v k → k < fs.numSector)
    (hs : ReqStep fs e s s') : ∀ p b pin v k, s'.req p = .fetching b pin v k →
      k < fs.numSector := by
  have hset : ∀ {s : PoolSystem α} {p : α} {r : Req},
      (∀ p b pin v k, s.req p = .fetching b pin v k → k < fs.numSector) →
      (∀ b pin v k, r = .fetching b pin v k → k < fs.numSector) →
      ∀ q b pin v k, Function.update s.req p r q = .fetching b pin v k → k < fs.numSector := by
    intro s p r hs hr q b pin v k hq
    by_cases hqp : q = p
    · subst hqp
      rw [Function.update_self] at hq
      exact hr b pin v k hq
    · rw [Function.update_of_ne hqp] at hq
      exact hs q b pin v k hq
  have hfill : ∀ {s : PoolSystem α} {p : α} {b : Int} {pin : Bool} {v : Fin poolCount}
      {k : Nat}, (∀ p b pin v k, s.req p = .fetching b pin v k → k < fs.numSector) →
      ∀ q b' pin' w k', (s.fillFrom fs p b pin v k).req q = .fetching b' pin' w k' →
        k' < fs.numSector := by
    intro s p b pin v k hs
    unfold PoolSystem.fillFrom
    split
    · rename_i hk
      refine hset hs fun b' pin' w k' hr => ?_
      cases hr
      exact hk
    · exact hset hs nofun
  cases hs with
  | search hp hsearch => exact hset h nofun
  | hit hp => exact hset h nofun
  | full hp _ => exact hset h nofun
  | alloc hp _ => exact hfill h
  | fetch hp _ => exact hset h nofun
  | copy hp => exact hfill h
  | unpin _ => exact h

theorem ReqRun.inv (hrun : ReqRun fs disk (Separate fs) s) : ReqInv fs disk s ∧
    ∀ p b pin v k, s.req p = .fetching b pin v k → k < fs.numSector := by
  induction hrun with
  | start data pages next prev => exact ⟨.start data pages next prev, nofun⟩
  | step _ hok hs ih => exact ⟨ih.1.step ih.2 hok hs, hs.more ih.2⟩

/-- In every run in which the requests keep out of each other's way, they return their blocks, and
pinned buffers keep theirs. -/
theorem requests_right (hrun : ReqRun fs disk (Separate fs) s) : RequestsRight fs disk s :=
  hrun.inv.1.right

end

/-! ### Two requests with one victim -/

/-- Two processes with a new pool and a new cache. -/
def samplePair : PoolSystem Bool :=
  ⟨.init fun _ _ => 0, .init (fun _ _ _ => 0) (fun _ n => n) (fun _ n => n) aliasDisk,
    fun _ => .idle, [], none⟩

theorem samplePair_search (b : Int) : samplePair.pool.searchBuffer b = .ok none := by
  rcases (Pool.init_listed fun _ _ => 0).search b with ⟨i, -, hi, -⟩ | ⟨hs, -⟩
  · cases hi
  · exact hs

theorem fillFrom_last {fs : Ext4FS} {s : PoolSystem α} {p : α} {b : Int} {pin : Bool}
    {v : Fin poolCount}
    {k : Nat} (hk : ¬k < fs.numSector) : (s.fillFrom fs p b pin v k).pool.blockNo v = b := by
  rw [PoolSystem.fillFrom, if_neg hk]
  exact Function.update_self ..

/-- Both processes miss their blocks, 0 and 1; the first takes a buffer and fills it before the
second takes one.  Both buffers are pinned. -/
theorem requests_right_sample : ∃ s : PoolSystem Bool, ∃ v w, v ≠ w ∧
    ReqRun aliasFS aliasDisk (Separate aliasFS) s ∧ s.ret = some (false, 1, w) ∧
    s.holders = [(false, w, 1), (true, v, 0)] ∧ RequestsRight aliasFS aliasDisk s := by
  have hlba : ∀ n : Nat, n < 2 → aliasFS.lba n 0 < 2 ^ 41 := by
    intro n hn
    rw [aliasFS_lba n (by omega)]
    omega
  have hnear : ∀ n : Nat, n < 2 → aliasFS.Near n := by
    intro n hn k hk
    obtain rfl : k = 0 := Nat.lt_one_iff.mp hk
    exact hlba n hn
  have hmiss : ∀ (b : Int) i, samplePair.pool.searchBuffer b ≠ .ok (some i) := by
    intro b i hi
    cases (samplePair_search b).symm.trans hi
  have hidle : Idle samplePair.cache aliasDisk := CacheInv.init _ _ _ _
  obtain ⟨v, halloc, -⟩ := (Pool.init_listed fun _ _ => 0).alloc ⟨0, rfl⟩
  obtain ⟨buf, c, hfetch, hinv⟩ := hidle.fetch (hlba 0 (by omega))
  have h₀ : ReqRun aliasFS aliasDisk (Separate aliasFS) samplePair := .start _ _ _ _
  have h₁ := h₀.step (e := .search true 0 true)
    ⟨hnear 0 (by omega), fun i hi => absurd hi (hmiss 0 i), fun _ q => nofun⟩
    (.search rfl (samplePair_search 0))
  have hother : Separate aliasFS (samplePair.setReq true (.searched 0 true none))
      (.search false 1 true) := by
    refine ⟨hnear 1 (by omega), fun i hi => absurd hi (hmiss 1 i), fun _ q => ?_⟩
    cases q
    · exact Option.some_ne_none _ ∘ Eq.symm
    · exact fun h => absurd (Option.some.inj h) (by decide)
  have h₂ := h₁.step hother (.search rfl (samplePair_search 1))
  -- nobody has found or fills a buffer
  have hlock : Separate aliasFS ((samplePair.setReq true (.searched 0 true none)).setReq false
      (.searched 1 true none)) (.lock true) := by
    intro b pin w _ _
    refine ⟨?_, fun q b' pin' hq => ?_⟩
    · rintro ⟨q, hq⟩
      cases q <;> cases hq
    · cases q <;> cases hq
  have h₃ := h₂.step hlock (.alloc rfl halloc)
  have h₄ := h₃.step (e := .fetch true) (fun _ _ _ _ _ => ⟨0, hidle.idle rfl _ _⟩)
    (.fetch rfl hfetch)
  have h₅ := h₄.step (e := .copy true) trivial (.copy rfl)
  -- the buffer of the first is pinned, so the second takes another
  have hpinned := (h₅.inv.1.held (p := true) (i := v) (b := 0) List.mem_cons_self).1
  obtain ⟨j, hj⟩ : ∃ j : Fin poolCount, j ≠ v := exists_ne v
  obtain ⟨w, halloc', -⟩ := h₅.inv.1.listed.alloc ⟨j, Function.update_of_ne hj ..⟩
  have hne : v ≠ w := by
    rintro rfl
    rw [h₅.inv.1.listed.alloc_pinned halloc'] at hpinned
    cases hpinned
  obtain ⟨hidle', -, -⟩ := copyFetched_spec (p := samplePair.pool) (v := v) hinv nofun
  obtain ⟨buf', c', hfetch', -⟩ := Idle.fetch hidle' (hlba 1 (by omega))
  have h₆ := h₅.step (e := .lock false) (fun b pin w' _ _ => by
    refine ⟨?_, fun q b' pin' hq => ?_⟩
    · rintro ⟨q, hq⟩
      cases q <;> cases hq
    · cases q <;> cases hq) (.alloc rfl halloc')
  have h₇ := h₆.step (e := .fetch false) (fun _ _ _ _ _ => ⟨0, hidle'.idle rfl _ _⟩)
    (.fetch rfl hfetch')
  have h₈ := h₇.step (e := .copy false) trivial (.copy rfl)
  exact ⟨_, v, w, hne, h₈, rfl, rfl, requests_right h₈⟩

/-- Two requests that have both missed take the same buffer: the second fills it when the first has
pinned it. -/
theorem pinned_refilled : ¬∀ s : PoolSystem Bool,
    ReqRun aliasFS aliasDisk (fun _ _ => True) s →
    RequestsRight aliasFS aliasDisk s := by
  intro H
  have hlba : ∀ n : Nat, n < 2 → aliasFS.lba n 0 < 2 ^ 41 := by
    intro n hn
    rw [aliasFS_lba n (by omega)]
    omega
  have hidle : Idle samplePair.cache aliasDisk := CacheInv.init _ _ _ _
  obtain ⟨v, halloc, -⟩ := (Pool.init_listed fun _ _ => 0).alloc ⟨0, rfl⟩
  obtain ⟨buf, c, hfetch, hinv⟩ := hidle.fetch (hlba 0 (by omega))
  obtain ⟨hidle', -, -⟩ := copyFetched_spec (p := samplePair.pool) (v := v) hinv nofun
  obtain ⟨buf', c', hfetch', -⟩ := Idle.fetch hidle' (hlba 1 (by omega))
  have h₀ : ReqRun aliasFS aliasDisk (fun _ _ => True) samplePair := .start _ _ _ _
  have h₁ := h₀.step (e := .search true 0 true) trivial (.search rfl (samplePair_search 0))
  have h₂ := h₁.step (e := .search false 1 false) trivial (.search rfl (samplePair_search 1))
  have h₃ := h₂.step (e := .lock true) trivial (.alloc rfl halloc)
  have h₄ := h₃.step (e := .lock false) trivial (.alloc rfl halloc)
  have h₅ := h₄.step (e := .fetch true) trivial (.fetch rfl hfetch)
  have h₆ := h₅.step (e := .copy true) trivial (.copy rfl)
  have h₇ := h₆.step (e := .fetch false) trivial (.fetch rfl hfetch')
  have h₈ := h₇.step (e := .copy false) trivial (.copy rfl)
  have hblock := ((H _ h₈).pinned (p := true) (i := v) (b := 0) List.mem_cons_self).2.1
  have hlast : (1 : Int) = 0 :=
    (fillFrom_last (show ¬0 + 1 < aliasFS.numSector by decide)).symm.trans hblock
  exact absurd hlast (by decide)

end OsKernel.Fs.Ext4

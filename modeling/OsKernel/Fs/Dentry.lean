import Mathlib.Data.Fintype.Card
import Mathlib.Data.List.AList
import OsKernel.Fs.File
import OsKernel.Fs.Path

/-! The dentry cache: a tree of dentries that is filled by look-ups and emptied when the last user
of a dentry lets go of it.  A dentry is known by its place in the pool. -/

namespace OsKernel.Fs

@[irreducible] def maxDentryNum : Nat := 40960

instance : NeZero maxDentryNum := ⟨by unfold maxDentryNum; decide⟩

abbrev Did := Fin maxDentryNum

abbrev Children := AList fun _ : Str => Did

/-- `dentry`, with the inode of a file system whose inodes are `ι`. -/
structure Dentry (ι : Type) where
  name : Str
  children : Children
  node : ι
  parent : Option Did
  refcnt : Int

/-- What the inodes of a file system do: `lookup`, `mknode`, the device number and the file type. -/
structure Inodes (ι : Type) where
  lookup : ι → Str → Option ι
  mknode : ι → Str → Option ι
  rDev : ι → Int
  filetype : ι → FileTypes

structure DentryCache (ι : Type) where
  den : Did → Dentry ι
  freeList : List Did
  root : Did

namespace DentryCache

variable {ι : Type} (fs : Inodes ι) (s : DentryCache ι)

def set (d : Did) (f : Dentry ι → Dentry ι) : DentryCache ι :=
  { s with den := Function.update s.den d (f (s.den d)) }

def allocDentry : Except Fault (Did × DentryCache ι) :=
  match s.freeList with
  | [] => .error (.panic "dentryCache::alloDentry()")
  | d :: l => .ok (d, { s with freeList := l })

/-- The constructor of a dentry at the place `d`, which is entered into the children of `parent`. -/
def enter (d : Did) (name : Str) (node : ι) (parent : Did) (refcnt : Int) : DentryCache ι :=
  (s.set d fun _ => ⟨name, ∅, node, some parent, refcnt⟩).set parent fun p =>
    { p with children := p.children.insert name d }

/-- `EntryCreate`; the new dentry has a reference of its own. -/
def entryCreate (this : Did) (name : Str) : Except Fault (Option Did × DentryCache ι) :=
  if name = [] then .ok (none, s)
  else if ((s.den this).children.lookup name).isSome then .ok (none, s)
  else
    match fs.mknode (s.den this).node name with
    | none => .ok (none, s)
    | some node => do
      let (d, s) ← s.allocDentry
      return (some d, s.enter d name node this 1)

def busyboxCmd : Str :=
  ['b', 'u', 's', 'y', 'b', 'o', 'x', '_', 'c', 'm', 'd', '.', 't', 'x', 't']

/-- `EntrySearch`.  One file of the disk is replaced by a file in memory. -/
def entrySearch (this : Did) (name : Str) : Except Fault (Option Did × DentryCache ι) :=
  match (s.den this).children.lookup name with
  | some d => .ok (some d, s)
  | none =>
    match fs.lookup (s.den this).node name with
    | none => .ok (none, s)
    | some node =>
      if name = busyboxCmd then do
        match ← s.entryCreate fs this name with
        | (some d, s) => return (some d, s)
        | (none, _) => .error (.undefined "null dentry")
      else do
        let (d, s) ← s.allocDentry
        return (some d, s.enter d name node this 0)

/-- The loop of `pathSearch` over the names that are left. -/
def pathSearch (parent : Bool) : List Str → Option Did → DentryCache ι →
    Except Fault (Option Did × DentryCache ι)
  | [], entry, s => .ok (entry, s)
  | _ :: _, none, _ => .error (.undefined "null dentry")
  | n :: ns, some entry, s =>
    if parent = true ∧ ns = [] then .ok (some entry, s)
    else if n = dot then pathSearch parent ns (some entry) s
    else if n = dotdot then pathSearch parent ns (s.den entry).parent s
    else do
      match ← s.entrySearch fs entry n with
      | (some it, s) => pathSearch parent ns (some it) s
      | (none, s) => return (none, s)

def dup (d : Did) : DentryCache ι := s.set d fun x => { x with refcnt := x.refcnt + 1 }

/-- `parent->children.erase( name )`. -/
def eraseChild (p : Did) (name : Str) : DentryCache ι :=
  s.set p fun x => { x with children := x.children.erase name }

/-- `releaseDentryCache`.  The root stays. -/
def releaseDentryCache : Nat → Did → DentryCache ι → Except Fault (DentryCache ι)
  | 0, _, _ => .error (.undefined "recursion without end")
  | fuel + 1, de, s =>
    if de = s.root then .ok s
    else
      match (s.den de).parent with
      | none => .ok { s with freeList := s.freeList ++ [de] }
      | some p => do
        let s := s.eraseChild p (s.den de).name
        let s ← if (s.den p).children.entries = [] ∧ (s.den p).refcnt ≤ 0 then
            releaseDentryCache fuel p s
          else .ok s
        return { s with freeList := s.freeList ++ [de] }

def release (d : Did) : Except Fault (DentryCache ι) :=
  let s := s.set d fun x => { x with refcnt := x.refcnt - 1 }
  if (s.den d).refcnt ≤ 0 then releaseDentryCache (maxDentryNum + 1) d s else .ok s

/-- The cache after `init`, where the first dentry is the root and the others have any contents but
for their counts. -/
def start (pool : Did → Dentry ι) (node : ι) : DentryCache ι where
  den := fun d => if d = 0 then ⟨['/'], ∅, node, none, 1⟩ else { pool d with refcnt := 0 }
  freeList := (List.finRange maxDentryNum).tail
  root := 0

end DentryCache

/-! ### Calls -/

/-- What the calls of processes do to dentries.  A path is walked from the root or from the dentry
of a user, one name at a time; a user is an open file or a working directory. -/
inductive DentryEvent where
  | start (base : Did)
  | search (name : Str)
  | up
  | create (name : Str)
  /-- A file is opened at the end of the walk, or a process has changed to it. -/
  | take
  /-- A user is copied by `fork`. -/
  | share (d : Did)
  /-- A file is closed, or a process has changed to another directory. -/
  | drop (d : Did)
  /-- A process exits, and with it the use of its working directory. -/
  | abandon (d : Did)

/-- The cache, the dentry that a walk has come to, and the dentries of the users. -/
structure DentryState (ι : Type) where
  cache : DentryCache ι
  entry : Option Did
  users : List Did

/-- One step of a call. -/
inductive DentryStep {ι : Type} (fs : Inodes ι) : DentryEvent → DentryState ι →
    DentryState ι → Prop
  | start {s : DentryState ι} {base : Did} : base = s.cache.root ∨ base ∈ s.users →
      DentryStep fs (.start base) s { s with entry := some base }
  | search {s : DentryState ι} {d : Did} {name : Str} {r : Option Did} {c : DentryCache ι} :
      s.entry = some d → s.cache.entrySearch fs d name = .ok (r, c) →
      DentryStep fs (.search name) s { s with cache := c, entry := r }
  | up {s : DentryState ι} {d : Did} : s.entry = some d →
      DentryStep fs .up s { s with entry := (s.cache.den d).parent }
  | create {s : DentryState ι} {d : Did} {name : Str} {r : Option Did} {c : DentryCache ι} :
      s.entry = some d → s.cache.entryCreate fs d name = .ok (r, c) →
      DentryStep fs (.create name) s { s with cache := c, entry := r }
  | take {s : DentryState ι} {d : Did} : s.entry = some d →
      DentryStep fs .take s ⟨s.cache.dup d, none, d :: s.users⟩
  | share {s : DentryState ι} {d : Did} : d ∈ s.users →
      DentryStep fs (.share d) s ⟨s.cache.dup d, none, d :: s.users⟩
  | drop {s : DentryState ι} {d : Did} {c : DentryCache ι} : d ∈ s.users →
      s.cache.release d = .ok c → DentryStep fs (.drop d) s ⟨c, none, s.users.erase d⟩
  | abandon {s : DentryState ι} {d : Did} : d ∈ s.users →
      DentryStep fs (.abandon d) s { s with users := s.users.erase d }

/-- The states of a new cache, by steps that all meet a condition. -/
inductive DentryRun {ι : Type} (fs : Inodes ι) (Ok : DentryState ι → DentryEvent → Prop) :
    DentryState ι → Prop
  | start (pool : Did → Dentry ι) (node : ι) : DentryRun fs Ok ⟨.start pool node, none, []⟩
  | step {s s' : DentryState ι} {e : DentryEvent} : DentryRun fs Ok s → Ok s e →
      DentryStep fs e s s' → DentryRun fs Ok s'

/-! ### The tree -/

namespace DentryCache

variable {ι : Type} {fs : Inodes ι} {s s' : DentryCache ι} {d e p : Did} {out : List Did}

theorem set_den (d e : Did) (f : Dentry ι → Dentry ι) :
    (s.set d f).den e = if e = d then f (s.den d) else s.den e := by
  simp only [set, Function.update_apply]

/-- The dentries outside `out` are a tree, and those in it have no users. -/
structure Tree (s : DentryCache ι) (out : List Did) : Prop where
  nodup : out.Nodup
  root_in : s.root ∉ out
  root_parent : (s.den s.root).parent = none
  listed : ∀ {d}, d ∉ out → d ≠ s.root → ∃ p, p ∉ out ∧
    (s.den d).parent = some p ∧ (s.den p).children.lookup (s.den d).name = some d
  child : ∀ {p n d}, p ∉ out → (s.den p).children.lookup n = some d →
    d ∉ out ∧ (s.den d).parent = some p ∧ (s.den d).name = n
  idle : ∀ {d}, d ∈ out → (s.den d).refcnt ≤ 0

theorem finRange_cons (n : Nat) [NeZero n] : List.finRange n = 0 :: (List.finRange n).tail := by
  obtain ⟨k, rfl⟩ := Nat.exists_eq_succ_of_ne_zero (NeZero.ne n)
  rw [List.finRange_succ]
  rfl

theorem Tree.start (pool : Did → Dentry ι) (node : ι) :
    (DentryCache.start pool node).Tree (DentryCache.start pool node).freeList := by
  have hlist := finRange_cons maxDentryNum
  have hmem : ∀ d : Did, d ∈ (List.finRange maxDentryNum).tail ↔ d ≠ 0 := by
    intro d
    have hnodup := List.nodup_finRange maxDentryNum
    rw [hlist, List.nodup_cons] at hnodup
    refine ⟨fun h hd => hnodup.1 (hd ▸ h), fun h => ?_⟩
    have := List.mem_finRange d
    rw [hlist] at this
    exact (List.mem_cons.mp this).resolve_left h
  refine ⟨(List.nodup_finRange _).tail,
    fun h => (hmem 0).mp h rfl, by simp [DentryCache.start], ?_, ?_, ?_⟩
  · intro d hd hroot
    exact absurd ((hmem d).mpr hroot) hd
  · intro p n d hp hlook
    have hp0 : p = 0 := by
      by_contra h
      exact hp ((hmem p).mpr h)
    simp [DentryCache.start, hp0] at hlook
  · intro d hd
    simp [DentryCache.start, (hmem d).mp hd]

/-- Only counts change. -/
theorem Tree.recount (h : s.Tree out) (hroot : s'.root = s.root)
    (hsame : ∀ e, (s'.den e).parent = (s.den e).parent ∧ (s'.den e).name = (s.den e).name ∧
      (s'.den e).children = (s.den e).children)
    (hidle : ∀ {e}, e ∈ out → (s'.den e).refcnt ≤ 0) : s'.Tree out := by
  refine ⟨h.nodup, hroot ▸ h.root_in, ?_, fun {d} hd hne => ?_, fun {p n d} hp hlook => ?_,
    hidle⟩
  · rw [hroot, (hsame _).1]
    exact h.root_parent
  · obtain ⟨p, hp, hpar, hlook⟩ := h.listed hd (hroot ▸ hne)
    exact ⟨p, hp, by rw [(hsame d).1, hpar], by rw [(hsame p).2.2, (hsame d).2.1, hlook]⟩
  · rw [(hsame p).2.2] at hlook
    rw [(hsame d).1, (hsame d).2.1]
    exact h.child hp hlook

theorem enter_den {name : Str} {node : ι} {this : Did} {cnt : Int} (h : this ≠ d) (e : Did) :
    (s.enter d name node this cnt).den e =
      if e = this then { s.den this with children := (s.den this).children.insert name d }
      else if e = d then ⟨name, ∅, node, some this, cnt⟩ else s.den e := by
  rw [DentryCache.enter, set_den, set_den, set_den, if_neg h]

/-- A dentry that was not in use is entered under one that is. -/
theorem Tree.enter {name : Str} {node : ι} {this : Did} {cnt : Int} (h : s.Tree (d :: out))
    (hthis : this ∉ d :: out) (hnew : (s.den this).children.lookup name = none) :
    (s.enter d name node this cnt).Tree out := by
  obtain ⟨hthisd, hthiso⟩ : this ≠ d ∧ this ∉ out := by simpa using hthis
  have hd : d ∉ out := (List.nodup_cons.mp h.nodup).1
  have hden : ∀ e, (s.enter d name node this cnt).den e = _ := enter_den hthisd
  have hmem : ∀ {e}, e ∉ out → e ≠ d → e ∉ d :: out := by
    intro e he hne
    simpa using ⟨hne, he⟩
  -- The dentries that were there before keep their names and parents.
  have hkeep : ∀ {e}, e ≠ d → ((s.enter d name node this cnt).den e).parent =
      (s.den e).parent ∧ ((s.enter d name node this cnt).den e).name = (s.den e).name := by
    intro e hne
    rw [hden]
    by_cases he : e = this
    · rw [if_pos he, he]
      exact ⟨rfl, rfl⟩
    · rw [if_neg he, if_neg hne]
      exact ⟨rfl, rfl⟩
  have hroot : s.root ≠ d := fun hr => h.root_in (hr ▸ List.mem_cons_self)
  refine ⟨(List.nodup_cons.mp h.nodup).2, fun hr => h.root_in (List.mem_cons_of_mem _ hr), ?_,
    fun {e} he hne => ?_, fun {q n e} hq hlook => ?_, fun {e} he => ?_⟩
  · exact (hkeep hroot).1.trans h.root_parent
  · by_cases hed : e = d
    · subst hed
      have hden_e : (s.enter e name node this cnt).den e =
          ⟨name, ∅, node, some this, cnt⟩ := by
        rw [hden, if_neg (Ne.symm hthisd), if_pos rfl]
      refine ⟨this, hthiso, by rw [hden_e], ?_⟩
      rw [hden_e, hden, if_pos rfl]
      exact AList.lookup_insert _
    · obtain ⟨q, hq, hpar, hlook⟩ := h.listed (hmem he hed) hne
      refine ⟨q, fun h => hq (List.mem_cons_of_mem _ h), (hkeep hed).1.trans hpar, ?_⟩
      rw [(hkeep hed).2, hden]
      by_cases hqt : q = this
      · rw [if_pos hqt]
        rw [hqt] at hlook
        have hname : (s.den e).name ≠ name := by
          intro hn
          rw [hn, hnew] at hlook
          cases hlook
        rw [AList.lookup_insert_ne hname]
        exact hlook
      · have hqd : q ≠ d := fun h => hq (h ▸ List.mem_cons_self)
        rw [if_neg hqt, if_neg hqd]
        exact hlook
  · rw [hden] at hlook
    by_cases hqt : q = this
    · rw [if_pos hqt] at hlook
      by_cases hn : n = name
      · rw [hn, AList.lookup_insert] at hlook
        obtain rfl := Option.some.inj hlook
        refine ⟨hd, ?_, ?_⟩
        · rw [hden, if_neg (Ne.symm hthisd), if_pos rfl, hqt]
        · rw [hden, if_neg (Ne.symm hthisd), if_pos rfl, hn]
      · rw [AList.lookup_insert_ne hn] at hlook
        obtain ⟨hmem', hpar, hname⟩ := h.child hthis hlook
        have hed : e ≠ d := fun h => hmem' (h ▸ List.mem_cons_self)
        exact ⟨fun h => hmem' (List.mem_cons_of_mem _ h), by rw [(hkeep hed).1, hpar, hqt],
          (hkeep hed).2.trans hname⟩
    · rw [if_neg hqt] at hlook
      by_cases hqd : q = d
      · rw [if_pos hqd, AList.lookup_empty] at hlook
        cases hlook
      · rw [if_neg hqd] at hlook
        obtain ⟨hmem', hpar, hname⟩ := h.child (hmem hq hqd) hlook
        have hed : e ≠ d := fun h => hmem' (h ▸ List.mem_cons_self)
        exact ⟨fun h => hmem' (List.mem_cons_of_mem _ h), (hkeep hed).1.trans hpar,
          (hkeep hed).2.trans hname⟩
  · have hed : e ≠ d := fun h => hd (h ▸ he)
    have het : e ≠ this := fun h => hthiso (h ▸ he)
    rw [hden, if_neg het, if_neg hed]
    exact h.idle (List.mem_cons_of_mem _ he)

/-- What a walk does to the cache: dentries may come into use, and the last one is. -/
structure Grown (s s' : DentryCache ι) (r : Option Did) : Prop where
  tree : s'.Tree s'.freeList
  root : s'.root = s.root
  result : ∀ {d}, r = some d → d ∉ s'.freeList
  kept : ∀ {e}, e ∉ s.freeList → e ∉ s'.freeList
  counts : ∀ e, (s.den e).refcnt ≤ (s'.den e).refcnt

theorem Grown.refl (h : s.Tree s.freeList) {r : Option Did}
    (hr : ∀ {d}, r = some d → d ∉ s.freeList) : Grown s s r :=
  ⟨h, rfl, hr, id, fun _ => Int.le_refl _⟩

/-- A dentry is taken from the free list and entered. -/
theorem Grown.alloc (h : s.Tree s.freeList) {this : Did} (hthis : this ∉ s.freeList) {name : Str}
    {node : ι}
    {cnt : Int} (hnew : (s.den this).children.lookup name = none) (hcnt : 0 ≤ cnt) {l : List Did}
    (hl : s.freeList = d :: l) :
    Grown s (({ s with freeList := l } : DentryCache ι).enter d name node this cnt) (some d) := by
  rw [hl] at h hthis
  have htree : ({ s with freeList := l } : DentryCache ι).Tree (d :: l) :=
    ⟨h.nodup, h.root_in, h.root_parent, h.listed, h.child, h.idle⟩
  refine ⟨htree.enter hthis hnew, rfl, fun {e} he => ?_, fun {e} he => ?_, fun e => ?_⟩
  · obtain rfl := Option.some.inj he
    exact (List.nodup_cons.mp h.nodup).1
  · rw [hl] at he
    exact fun hmem => he (List.mem_cons_of_mem _ hmem)
  · have hd := h.idle List.mem_cons_self
    have hthisd : this ≠ d := fun h => hthis (h ▸ List.mem_cons_self)
    rw [enter_den hthisd]
    by_cases he : e = this
    · rw [if_pos he, he]
    · rw [if_neg he]
      by_cases hed : e = d
      · rw [if_pos hed, hed]
        exact hd.trans hcnt
      · rw [if_neg hed]

theorem Grown.entryCreate (h : s.Tree s.freeList) {this : Did} (hthis : this ∉ s.freeList)
    {name : Str}
    {r : Option Did} (hrun : s.entryCreate fs this name = .ok (r, s')) : Grown s s' r := by
  unfold DentryCache.entryCreate at hrun
  split at hrun
  · cases hrun
    exact .refl h nofun
  split at hrun
  · cases hrun
    exact .refl h nofun
  rename_i hnew
  split at hrun
  · cases hrun
    exact .refl h nofun
  obtain ⟨⟨d, c⟩, halloc, hrun⟩ := bind_eq_ok.mp hrun
  cases hrun
  unfold allocDentry at halloc
  split at halloc
  · cases halloc
  · rename_i hl
    cases halloc
    exact .alloc h hthis (Option.not_isSome_iff_eq_none.mp hnew) (by decide) hl

theorem Grown.entrySearch (h : s.Tree s.freeList) {this : Did} (hthis : this ∉ s.freeList)
    {name : Str}
    {r : Option Did} (hrun : s.entrySearch fs this name = .ok (r, s')) : Grown s s' r := by
  unfold DentryCache.entrySearch at hrun
  split at hrun
  · rename_i d hlook
    cases hrun
    refine .refl h fun {e} he => ?_
    obtain rfl := Option.some.inj he
    exact (h.child hthis hlook).1
  rename_i hnew
  split at hrun
  · cases hrun
    exact .refl h nofun
  split at hrun
  · obtain ⟨⟨r', c⟩, hcreate, hrun⟩ := bind_eq_ok.mp hrun
    cases r' with
    | none => cases hrun
    | some d =>
      cases hrun
      exact .entryCreate h hthis hcreate
  · obtain ⟨⟨d, c⟩, halloc, hrun⟩ := bind_eq_ok.mp hrun
    cases hrun
    unfold allocDentry at halloc
    split at halloc
    · cases halloc
    · rename_i hl
      cases halloc
      exact .alloc h hthis hnew (Int.le_refl 0) hl

theorem Grown.trans {s'' : DentryCache ι} {r r' : Option Did} (h : Grown s s' r)
    (h' : Grown s' s'' r') : Grown s s'' r' :=
  ⟨h'.tree, h'.root.trans h.root, h'.result, fun he => h'.kept (h.kept he), fun e =>
    (h.counts e).trans (h'.counts e)⟩

theorem Tree.parent_in (h : s.Tree out) (hd : d ∉ out) (hp : (s.den d).parent = some p) :
    p ∉ out := by
  by_cases hroot : d = s.root
  · rw [hroot, h.root_parent] at hp
    cases hp
  · obtain ⟨q, hq, hpar, -⟩ := h.listed hd hroot
    obtain rfl := Option.some.inj (hpar.symm.trans hp)
    exact hq

/-- A walk stays among the dentries in use. -/
theorem Grown.pathSearch {parent : Bool} {ns : List Str} {entry r : Option Did}
    (h : s.Tree s.freeList) (hentry : ∀ {d}, entry = some d → d ∉ s.freeList)
    (hrun : DentryCache.pathSearch fs parent ns entry s = .ok (r, s')) : Grown s s' r := by
  induction ns generalizing s entry with
  | nil =>
    cases hrun
    exact .refl h hentry
  | cons n ns ih =>
    cases entry with
    | none => cases hrun
    | some e =>
      rw [DentryCache.pathSearch] at hrun
      split at hrun
      · cases hrun
        exact .refl h hentry
      split at hrun
      · exact ih h hentry hrun
      split at hrun
      · exact ih h (fun hp => h.parent_in (hentry rfl) hp) hrun
      · obtain ⟨⟨it, c⟩, hsearch, hrun⟩ := bind_eq_ok.mp hrun
        have hg := Grown.entrySearch h (hentry rfl) hsearch
        cases it with
        | none =>
          cases hrun
          exact hg
        | some it => exact hg.trans (ih hg.tree hg.result hrun)

/-! ### Release -/

theorem eraseChild_same (s : DentryCache ι) (p : Did) (name : Str) (e : Did) :
    ((s.eraseChild p name).den e).parent = (s.den e).parent ∧
      ((s.eraseChild p name).den e).name = (s.den e).name ∧
      ((s.eraseChild p name).den e).refcnt = (s.den e).refcnt := by
  rw [eraseChild, set_den]
  by_cases he : e = p
  · rw [if_pos he, he]
    exact ⟨rfl, rfl, rfl⟩
  · rw [if_neg he]
    exact ⟨rfl, rfl, rfl⟩

/-- A dentry without children is taken from those of its parent. -/
theorem Tree.detach (h : s.Tree out) (hd : d ∉ out) (hroot : d ≠ s.root)
    (hleaf : ∀ n, (s.den d).children.lookup n = none) (hidle : (s.den d).refcnt ≤ 0)
    (hp : (s.den d).parent = some p) :
    (s.eraseChild p (s.den d).name).Tree (d :: out) := by
  have hsame := eraseChild_same s p (s.den d).name
  have hnotin : ∀ {e}, e ∉ d :: out → e ≠ d ∧ e ∉ out := fun he => by simpa using he
  refine ⟨List.nodup_cons.mpr ⟨hd, h.nodup⟩, ?_, (hsame _).1.trans h.root_parent,
    fun {e} he hne => ?_,
    fun {q n e} hq hlook => ?_, fun {e} he => ?_⟩
  · simpa using ⟨Ne.symm hroot, h.root_in⟩
  · obtain ⟨hed, heo⟩ := hnotin he
    obtain ⟨q, hq, hpar, hlook⟩ := h.listed heo hne
    have hqd : q ≠ d := by
      rintro rfl
      rw [hleaf] at hlook
      cases hlook
    refine ⟨q, by simpa using ⟨hqd, hq⟩, (hsame e).1.trans hpar, ?_⟩
    rw [(hsame e).2.1, eraseChild, set_den]
    by_cases hqp : q = p
    · have hname : (s.den e).name ≠ (s.den d).name := by
        intro hn
        obtain ⟨p', -, hpar', hlook'⟩ := h.listed hd hroot
        rw [hp] at hpar'
        obtain rfl := Option.some.inj hpar'
        rw [hqp, hn, hlook'] at hlook
        exact hed (Option.some.inj hlook).symm
      rw [if_pos hqp, AList.lookup_erase_ne hname, ← hqp]
      exact hlook
    · rw [if_neg hqp]
      exact hlook
  · obtain ⟨hqd, hqo⟩ := hnotin hq
    have hlook' : (s.den q).children.lookup n = some e ∧ (q = p → n ≠ (s.den d).name) := by
      rw [eraseChild, set_den] at hlook
      by_cases hqp : q = p
      · rw [if_pos hqp] at hlook
        have hn : n ≠ (s.den d).name := by
          rintro rfl
          rw [AList.lookup_erase] at hlook
          cases hlook
        rw [AList.lookup_erase_ne hn, ← hqp] at hlook
        exact ⟨hlook, fun _ => hn⟩
      · rw [if_neg hqp] at hlook
        exact ⟨hlook, fun h => absurd h hqp⟩
    obtain ⟨heo, hpar, hname⟩ := h.child hqo hlook'.1
    rw [(hsame e).1, (hsame e).2.1]
    refine ⟨?_, hpar, hname⟩
    have hed : e ≠ d := by
      rintro rfl
      rw [hp] at hpar
      exact hlook'.2 (Option.some.inj hpar).symm hname.symm
    simpa using ⟨hed, heo⟩
  · rw [(hsame e).2.2]
    rcases List.mem_cons.mp he with rfl | he
    · exact hidle
    · exact h.idle he

/-- A dentry without children and users is freed, with the parents that are left so. -/
theorem releaseDentryCache_spec (fuel : Nat) (h : s.Tree out)
    (hfuel : maxDentryNum < out.length + fuel) (hd : d ∉ out)
    (hleaf : ∀ n, (s.den d).children.lookup n = none) (hidle : (s.den d).refcnt ≤ 0) :
    ∃ s' l, releaseDentryCache fuel d s = .ok s' ∧ s'.freeList = s.freeList ++ l ∧
      s'.Tree (l ++ out) ∧ s'.root = s.root ∧ ∀ e, (s'.den e).refcnt = (s.den e).refcnt := by
  induction fuel generalizing s d out with
  | zero =>
    have hlen := h.nodup.length_le_card
    rw [Fintype.card_fin] at hlen
    omega
  | succ fuel ih =>
    by_cases hroot : d = s.root
    · refine ⟨s, [], ?_, (List.append_nil _).symm, h, rfl, fun _ => rfl⟩
      rw [releaseDentryCache, if_pos hroot]
    obtain ⟨p, hp, hpar, hlook⟩ := h.listed hd hroot
    have htree := h.detach hd hroot hleaf hidle hpar
    have hcnt := fun e => (eraseChild_same s p (s.den d).name e).2.2
    rw [releaseDentryCache, if_neg hroot, hpar]
    simp only
    split
    · rename_i hcond
      have hpd : p ≠ d := by
        rintro rfl
        rw [hleaf] at hlook
        cases hlook
      have hempty : ∀ n, ((s.eraseChild p (s.den d).name).den p).children.lookup n = none := by
        intro n
        rw [AList.ext (show _ = (∅ : Children).entries from hcond.1)]
        exact AList.lookup_empty n
      obtain ⟨s', l, hrun, hfree, htree', hroot', hcnt'⟩ := ih htree
        (by rw [List.length_cons]; omega) (by simp [hpd, hp]) hempty hcond.2
      rw [hrun, ok_bind]
      refine ⟨_, l ++ [d], rfl, ?_, ?_, hroot', fun e => (hcnt' e).trans (hcnt e)⟩
      · simp only [hfree, List.append_assoc]
        rfl
      · rw [List.append_assoc]
        exact ⟨htree'.nodup, htree'.root_in, htree'.root_parent, htree'.listed, htree'.child,
          htree'.idle⟩
    · rw [ok_bind]
      exact ⟨_, [d], rfl, rfl, ⟨htree.nodup, htree.root_in, htree.root_parent, htree.listed,
        htree.child, htree.idle⟩, rfl, hcnt⟩

theorem Tree.perm (h : s.Tree out) {out' : List Did} (hp : out.Perm out') : s.Tree out' := by
  have hmem : ∀ {d}, d ∉ out' → d ∉ out := fun hd h => hd (hp.mem_iff.mp h)
  refine ⟨hp.nodup_iff.mp h.nodup, fun hr => h.root_in (hp.mem_iff.mpr hr), h.root_parent,
    fun hd hne => ?_, fun hq hlook => ?_, fun hd => h.idle (hp.mem_iff.mpr hd)⟩
  · obtain ⟨p, hp', hrest⟩ := h.listed (hmem hd) hne
    exact ⟨p, fun h => hp' (hp.mem_iff.mpr h), hrest⟩
  · obtain ⟨hd, hrest⟩ := h.child (hmem hq) hlook
    exact ⟨fun h => hd (hp.mem_iff.mpr h), hrest⟩

theorem Tree.dup (h : s.Tree out) (hd : d ∉ out) :
    (s.dup d).Tree out ∧ ∀ e, ((s.dup d).den e).refcnt = (s.den e).refcnt + if e = d then 1
      else 0 := by
  have hden : ∀ e, (s.dup d).den e = if e = d then { s.den d with refcnt := (s.den d).refcnt + 1 }
      else s.den e := fun e => set_den ..
  refine ⟨h.recount rfl (fun e => ?_) fun {e} he => ?_, fun e => ?_⟩
  · rw [hden]
    by_cases hed : e = d
    · rw [if_pos hed, hed]
      exact ⟨rfl, rfl, rfl⟩
    · rw [if_neg hed]
      exact ⟨rfl, rfl, rfl⟩
  · have hed : e ≠ d := fun hed => hd (hed ▸ he)
    rw [hden, if_neg hed]
    exact h.idle he
  · rw [hden]
    by_cases hed : e = d
    · rw [if_pos hed, if_pos hed, hed]
    · rw [if_neg hed, if_neg hed, Int.add_zero]

/-- A release, where a dentry that is freed has no children. -/
theorem Tree.release (h : s.Tree s.freeList) (hd : d ∉ s.freeList)
    (hleaf : (s.den d).refcnt ≤ 1 → d = s.root ∨ (s.den d).children.entries = []) :
    ∃ s', s.release d = .ok s' ∧ s'.Tree s'.freeList ∧ s'.root = s.root ∧
      ∀ e, (s'.den e).refcnt = (s.den e).refcnt - if e = d then 1 else 0 := by
  have hden : ∀ e, (s.set d fun x => { x with refcnt := x.refcnt - 1 }).den e =
      if e = d then { s.den d with refcnt := (s.den d).refcnt - 1 } else s.den e :=
        fun e => set_den ..
  have htree : (s.set d fun x => { x with refcnt := x.refcnt - 1 }).Tree s.freeList := by
    refine h.recount rfl (fun e => ?_) fun {e} he => ?_
    · rw [hden]
      by_cases hed : e = d
      · rw [if_pos hed, hed]
        exact ⟨rfl, rfl, rfl⟩
      · rw [if_neg hed]
        exact ⟨rfl, rfl, rfl⟩
    · have hed : e ≠ d := fun hed => hd (hed ▸ he)
      rw [hden, if_neg hed]
      exact h.idle he
  have hcnt : ∀ e, ((s.set d fun x => { x with refcnt := x.refcnt - 1 }).den e).refcnt =
      (s.den e).refcnt - if e = d then 1 else 0 := by
    intro e
    rw [hden]
    by_cases hed : e = d
    · rw [if_pos hed, if_pos hed, hed]
    · rw [if_neg hed, if_neg hed, Int.sub_zero]
  unfold DentryCache.release
  simp only
  split
  · rename_i hle
    rw [hcnt, if_pos rfl] at hle
    rcases hleaf (by omega) with hroot | hempty
    · refine ⟨_, ?_, htree, rfl, hcnt⟩
      rw [releaseDentryCache]
      exact if_pos hroot
    · have hnone : ∀ n, ((s.set d fun x => { x with refcnt := x.refcnt - 1 }).den
          d).children.lookup n = none := by
        intro n
        rw [hden, if_pos rfl]
        simp only
        rw [AList.ext (show _ = (∅ : Children).entries from hempty)]
        exact AList.lookup_empty n
      obtain ⟨s', l, hrun, hfree, htree', hroot', hcnt'⟩ :=
        releaseDentryCache_spec (maxDentryNum + 1) htree (by omega)
        hd hnone (by rw [hcnt, if_pos rfl]; exact hle)
      refine ⟨s', hrun, ?_, hroot', fun e => (hcnt' e).trans (hcnt e)⟩
      rw [hfree]
      exact htree'.perm List.perm_append_comm
  · exact ⟨_, rfl, htree, rfl, hcnt⟩

/-- What can be reached from the root through the maps of children. -/
inductive Reachable (s : DentryCache ι) : Did → Prop
  | root : Reachable s s.root
  | child {p d : Did} {n : Str} : Reachable s p → (s.den p).children.lookup n = some d →
    Reachable s d

theorem Tree.reachable (h : s.Tree out) (hd : s.Reachable d) : d ∉ out := by
  induction hd with
  | root => exact h.root_in
  | child _ hlook ih => exact (h.child ih hlook).1

end DentryCache

/-! ### Runs -/

/-- The free list and the tree are as they should be. -/
structure DentriesConsistent {ι : Type} (s : DentryState ι) : Prop where
  nodup : s.cache.freeList.Nodup
  root : s.cache.root ∉ s.cache.freeList
  unreachable : ∀ d ∈ s.cache.freeList, ¬s.cache.Reachable d
  parents : ∀ d ∈ s.cache.freeList, ∀ e ∉ s.cache.freeList,
    (s.cache.den e).parent ≠ some d
  unused : ∀ d ∈ s.cache.freeList, d ∉ s.users
  listed : ∀ d ∉ s.cache.freeList, d ≠ s.cache.root → ∃ p,
    (s.cache.den d).parent = some p ∧ (s.cache.den p).children.lookup (s.cache.den d).name =
    some d

/-- A dentry whose last reference is dropped has no children, unless it is the root. -/
def DropsLeaf {ι : Type} (s : DentryState ι) : DentryEvent → Prop
  | .drop d =>
    (s.cache.den d).refcnt ≤ 1 → d = s.cache.root ∨ (s.cache.den d).children.entries = []
  | _ => True

/-- What every step keeps: the tree, a reference for every user, and a walk that is in the tree. -/
structure DentryInv {ι : Type} (s : DentryState ι) : Prop where
  tree : s.cache.Tree s.cache.freeList
  covered : ∀ d, (s.users.count d : Int) ≤ (s.cache.den d).refcnt
  entry : ∀ {d}, s.entry = some d → d ∉ s.cache.freeList

namespace DentryInv

variable {ι : Type} {fs : Inodes ι} {s s' : DentryState ι} {d : Did}

theorem user (h : DentryInv s) (hd : d ∈ s.users) : d ∉ s.cache.freeList := by
  intro hfree
  have h₁ := h.covered d
  have h₂ := h.tree.idle hfree
  have h₃ := List.count_pos_iff.mpr hd
  omega

theorem start (pool : Did → Dentry ι) (node : ι) :
    DentryInv ⟨.start pool node, none, []⟩ := by
  refine ⟨.start pool node, fun d => ?_, nofun⟩
  rw [List.count_nil]
  simp only [DentryCache.start]
  split
  · exact Int.zero_le_ofNat 1
  · exact Int.le_refl _

theorem grown (h : DentryInv s) {c : DentryCache ι} {r : Option Did}
    (hg : DentryCache.Grown s.cache c r) : DentryInv { s with cache := c, entry := r } :=
  ⟨hg.tree, fun d => (h.covered d).trans (hg.counts d), hg.result⟩

theorem dup (h : DentryInv s) (hd : d ∉ s.cache.freeList) :
    DentryInv ⟨s.cache.dup d, none, d :: s.users⟩ := by
  obtain ⟨htree, hcnt⟩ := h.tree.dup hd
  refine ⟨htree, fun e => ?_, nofun⟩
  have := h.covered e
  rw [hcnt, List.count_cons]
  by_cases hed : e = d
  · subst hed
    simp only [beq_self_eq_true, if_true]
    omega
  · have hde : (d == e) = false := by simpa using Ne.symm hed
    rw [if_neg hed, hde]
    simpa using this

theorem step (h : DentryInv s) {e : DentryEvent} (hok : DropsLeaf s e) (hs : DentryStep fs e s s') :
    DentryInv s' := by
  cases hs with
  | @start _ base hbase =>
    refine ⟨h.tree, h.covered, fun {d} hd => ?_⟩
    obtain rfl := Option.some.inj hd
    rcases hbase with rfl | hbase
    · exact h.tree.root_in
    · exact h.user hbase
  | search hentry hrun => exact h.grown (.entrySearch h.tree (h.entry hentry) hrun)
  | @up _ d hentry =>
    exact ⟨h.tree, h.covered, fun hp => h.tree.parent_in (h.entry hentry) hp⟩
  | create hentry hrun => exact h.grown (.entryCreate h.tree (h.entry hentry) hrun)
  | take hentry => exact h.dup (h.entry hentry)
  | share hd => exact h.dup (h.user hd)
  | @drop _ d c hd hrun =>
    obtain ⟨c', hrun', htree, -, hcnt⟩ := h.tree.release (h.user hd) hok
    rw [hrun] at hrun'
    cases hrun'
    refine ⟨htree, fun e => ?_, nofun⟩
    have := h.covered e
    rw [hcnt, List.count_erase]
    by_cases hed : e = d
    · have hpos := List.count_pos_iff.mpr hd
      subst hed
      simp only [beq_self_eq_true, if_true]
      omega
    · have hde : (d == e) = false := by simpa using Ne.symm hed
      rw [if_neg hed, hde]
      simpa using this
  | @abandon _ d hd =>
    refine ⟨h.tree, fun e => ?_, h.entry⟩
    have h₁ := h.covered e
    have h₂ := (List.erase_sublist (l := s.users) (a := d)).count_le e
    simp only
    omega

theorem consistent (h : DentryInv s) : DentriesConsistent s := by
  refine ⟨h.tree.nodup, h.tree.root_in, fun d hd hr => h.tree.reachable hr hd,
    fun d hd e he hpar => ?_,
    fun d hd hu => h.user hu hd, fun d hd hne => ?_⟩
  · exact h.tree.parent_in he hpar hd
  · obtain ⟨p, -, hrest⟩ := h.tree.listed hd hne
    exact ⟨p, hrest⟩

end DentryInv

/-- In every run in which the last reference to a dentry is dropped only when it has no children,
the free list and the tree are consistent. -/
theorem dentries_consistent {ι : Type} {fs : Inodes ι} {s : DentryState ι}
    (hrun : DentryRun fs DropsLeaf s) : DentriesConsistent s := by
  have h : DentryInv s := by
    induction hrun with
    | start pool node => exact .start pool node
    | step _ hok hs ih => exact ih.step hok hs
  exact h.consistent

/-! ### A parent that is freed -/

/-- A root with a directory `a`, which has a file `b`. -/
def sampleInodes : Inodes Nat where
  lookup i n := if i = 0 ∧ n = ['a'] then some 1 else if i = 1 ∧ n = ['b'] then some 2 else none
  mknode i n := if i = 0 ∧ n = ['c'] then some 3 else none
  rDev _ := -1
  filetype i := if i = 2 then .normal else .direct

namespace DentryCache

variable {ι : Type} {fs : Inodes ι} {s : DentryCache ι} {this d : Did} {name : Str} {node : ι}
  {l : List Did}

theorem start_freeList (pool : Did → Dentry ι) (node : ι) :
    ∃ d₁ d₂ l, (DentryCache.start pool node).freeList = d₁ :: d₂ :: l := by
  have hlen : (DentryCache.start pool node).freeList.length = maxDentryNum - 1 := by
    simp [DentryCache.start]
  have hmax : 3 ≤ maxDentryNum := by
    unfold maxDentryNum
    omega
  match hm : (DentryCache.start pool node).freeList with
  | d₁ :: d₂ :: l => exact ⟨d₁, d₂, l, rfl⟩
  | [] =>
    rw [hm, List.length_nil] at hlen
    omega
  | [_] =>
    rw [hm, List.length_singleton] at hlen
    omega

/-- A look-up that finds an inode for which there is no dentry. -/
theorem entrySearch_new (hnone : (s.den this).children.lookup name = none)
    (hnode : fs.lookup (s.den this).node name = some node) (hname : name ≠ busyboxCmd)
    (hl : s.freeList = d :: l) : s.entrySearch fs this name =
      .ok (some d, ({ s with freeList := l } : DentryCache ι).enter d name node this 0) := by
  rw [entrySearch, hnone]
  simp only [hnode]
  rw [if_neg hname, allocDentry, hl]
  rfl

/-- A name that is not there is made. -/
theorem entryCreate_new (hname : name ≠ []) (hnone : (s.den this).children.lookup name = none)
    (hnode : fs.mknode (s.den this).node name = some node) (hl : s.freeList = d :: l) :
    s.entryCreate fs this name =
      .ok (some d, ({ s with freeList := l } : DentryCache ι).enter d name node this 1) := by
  rw [entryCreate, if_neg hname, hnone, if_neg (by simp), hnode]
  simp only
  rw [allocDentry, hl]
  rfl

theorem entrySearch_old (hd : (s.den this).children.lookup name = some d) :
    s.entrySearch fs this name = .ok (some d, s) := by
  rw [entrySearch, hd]

/-- A release frees a dentry whose parent is in use. -/
theorem release_frees {p : Did} (hcnt : (s.den d).refcnt = 1) (hroot : d ≠ s.root)
    (hp : (s.den d).parent = some p) (hpd : p ≠ d) (hused : 0 < (s.den p).refcnt) :
    ∃ s', s.release d = .ok s' ∧ s'.freeList = s.freeList ++ [d] ∧
      ∀ e, (s'.den e).parent = (s.den e).parent := by
  let s₁ := s.set d fun x => { x with refcnt := x.refcnt - 1 }
  have hden : ∀ e, s₁.den e =
      if e = d then { s.den d with refcnt := (s.den d).refcnt - 1 } else s.den e :=
        fun e => set_den ..
  have hpar : ∀ e, (s₁.den e).parent = (s.den e).parent := by
    intro e
    rw [hden]
    by_cases hed : e = d
    · rw [if_pos hed, hed]
    · rw [if_neg hed]
  have hp₁ : ((s₁.eraseChild p (s₁.den d).name).den p).refcnt = (s.den p).refcnt := by
    rw [(eraseChild_same s₁ p _ p).2.2, hden, if_neg hpd]
  refine ⟨{ s₁.eraseChild p (s₁.den d).name with freeList := s.freeList ++ [d] }, ?_, rfl,
    fun e => ?_⟩
  · have hcnt₁ : (s₁.den d).refcnt ≤ 0 := by
      rw [hden, if_pos rfl]
      simp only [hcnt]
      omega
    have hroot₁ : d ≠ s₁.root := hroot
    have hused₁ : ¬(((s₁.eraseChild p (s₁.den d).name).den p).children.entries = [] ∧
        ((s₁.eraseChild p (s₁.den d).name).den p).refcnt ≤ 0) := by
      rw [hp₁]
      omega
    have hrelease : s.release d = if (s₁.den d).refcnt ≤ 0 then
      releaseDentryCache (maxDentryNum + 1) d s₁ else .ok s₁ := rfl
    rw [hrelease, if_pos hcnt₁, releaseDentryCache, if_neg hroot₁, (hpar d).trans hp]
    simp only
    rw [if_neg hused₁, ok_bind]
    rfl
  · exact (eraseChild_same s₁ p _ e).1.trans (hpar e)

end DentryCache

/-- `c` is created and `a` is opened, both in the root, and `a` is closed. -/
theorem dentries_consistent_sample : ∃ s d₁ d₂, DentryRun sampleInodes DropsLeaf s ∧
    s.users = [d₁] ∧ d₂ ∈ s.cache.freeList ∧ DentriesConsistent s := by
  have h₀ : DentryRun sampleInodes DropsLeaf _ := .start (fun _ => ⟨[], ∅, 0, none, 0⟩) 0
  set c₀ := DentryCache.start (fun _ : Did => (⟨[], ∅, 0, none, 0⟩ : Dentry Nat)) 0
  have htree : c₀.Tree c₀.freeList := .start _ _
  obtain ⟨d₁, d₂, rest, hl⟩ :=
    DentryCache.start_freeList (fun _ : Did => (⟨[], ∅, 0, none, 0⟩ : Dentry Nat)) 0
  have hnodup := htree.nodup
  have hroot := htree.root_in
  rw [hl] at hnodup hroot
  have h01 : (0 : Did) ≠ d₁ := fun h => hroot (by rw [show c₀.root = d₁ from h]; simp)
  have h02 : (0 : Did) ≠ d₂ := fun h => hroot (by rw [show c₀.root = d₂ from h]; simp)
  have h12 : d₁ ≠ d₂ := by
    rintro rfl
    simp at hnodup
  -- `c` is created and opened.
  let c₁ := ({ c₀ with freeList := d₂ :: rest } : DentryCache Nat).enter d₁ ['c'] 3 0 1
  have hden₁ : ∀ e, c₁.den e =
      if e = 0 then { c₀.den 0 with children := (c₀.den 0).children.insert ['c'] d₁ }
      else if e = d₁ then ⟨['c'], ∅, 3, some 0, 1⟩ else c₀.den e :=
        DentryCache.enter_den h01
  have hcreate : c₀.entryCreate sampleInodes 0 ['c'] = .ok (some d₁, c₁) :=
    DentryCache.entryCreate_new (by simp) (by simp [c₀, DentryCache.start]) rfl hl
  have h₁ := h₀.step (e := .start 0) trivial (.start (.inl rfl))
  have h₂ := h₁.step (e := .create ['c']) trivial (.create rfl hcreate)
  have h₃ := h₂.step (e := .take) trivial (.take rfl)
  have hden₂ : ∀ e, e ≠ d₁ → (c₁.dup d₁).den e = c₁.den e := fun e he => by
    rw [DentryCache.dup, DentryCache.set_den, if_neg he]
  have hzero : (c₁.dup d₁).den 0 =
      { c₀.den 0 with children := (c₀.den 0).children.insert ['c'] d₁ } := by
    rw [hden₂ 0 h01, hden₁, if_pos rfl]
  -- `a` is opened.
  let c₂ := ({ c₁.dup d₁ with freeList := rest } : DentryCache Nat).enter d₂ ['a'] 1 0 0
  have hden₃ : ∀ e, c₂.den e =
      if e = 0 then { (c₁.dup d₁).den 0 with
        children := ((c₁.dup d₁).den 0).children.insert ['a'] d₂ }
      else if e = d₂ then ⟨['a'], ∅, 1, some 0, 0⟩ else (c₁.dup d₁).den e :=
    DentryCache.enter_den h02
  have hnone : ((c₁.dup d₁).den 0).children.lookup ['a'] = none := by
    rw [hzero]
    exact (AList.lookup_insert_ne (by decide)).trans (by simp [c₀, DentryCache.start])
  have hsearch : (c₁.dup d₁).entrySearch sampleInodes 0 ['a'] = .ok (some d₂, c₂) :=
    DentryCache.entrySearch_new hnone (by rw [hzero]; rfl) (by decide) rfl
  have h₄ := h₃.step (e := .start 0) trivial (.start (.inl rfl))
  have h₅ := h₄.step (e := .search ['a']) trivial (.search rfl hsearch)
  have h₆ := h₅.step (e := .take) trivial (.take rfl)
  -- `a` is closed.
  have hleaf : (c₂.dup d₂).den d₂ = ⟨['a'], ∅, 1, some 0, 1⟩ := by
    rw [DentryCache.dup, DentryCache.set_den, if_pos rfl, hden₃, if_neg (Ne.symm h02), if_pos rfl]
    rfl
  have hused : 0 < ((c₂.dup d₂).den 0).refcnt := by
    rw [DentryCache.dup, DentryCache.set_den, if_neg h02, hden₃, if_pos rfl, hzero]
    exact Int.one_pos
  obtain ⟨c₃, hrelease, hfree, -⟩ :=
    DentryCache.release_frees (s := c₂.dup d₂) (d := d₂) (p := 0)
    (by rw [hleaf]) (Ne.symm h02) (by rw [hleaf]) h02 hused
  have hok : DropsLeaf ⟨c₂.dup d₂, none, [d₂, d₁]⟩ (.drop d₂) := by
    intro _
    right
    rw [hleaf]
    rfl
  have h₇ := h₆.step hok (.drop List.mem_cons_self hrelease)
  refine ⟨_, d₁, d₂, h₇, List.erase_cons_head .., ?_, dentries_consistent h₇⟩
  rw [hfree]
  exact List.mem_append_right _ List.mem_cons_self

/-- `a/b` is opened and the status of `a` is asked for: then `a` is in the free list, and the parent
of `b`. -/
theorem freed_parent :
    ∃ s, DentryRun sampleInodes (fun _ _ => True) s ∧ ¬DentriesConsistent s := by
  have h₀ : DentryRun sampleInodes (fun _ _ => True) _ :=
    .start (fun _ => ⟨[], ∅, 0, none, 0⟩) 0
  set c₀ := DentryCache.start (fun _ : Did => (⟨[], ∅, 0, none, 0⟩ : Dentry Nat)) 0
  have htree : c₀.Tree c₀.freeList := .start _ _
  obtain ⟨d₁, d₂, rest, hl⟩ :=
    DentryCache.start_freeList (fun _ : Did => (⟨[], ∅, 0, none, 0⟩ : Dentry Nat)) 0
  have hnodup := htree.nodup
  have hroot := htree.root_in
  rw [hl] at hnodup hroot
  have h01 : (0 : Did) ≠ d₁ := fun h => hroot (by rw [show c₀.root = d₁ from h]; simp)
  have h02 : (0 : Did) ≠ d₂ := fun h => hroot (by rw [show c₀.root = d₂ from h]; simp)
  have h12 : d₁ ≠ d₂ := by
    rintro rfl
    simp at hnodup
  -- The file `a/b` is opened.
  let c₁ := ({ c₀ with freeList := d₂ :: rest } : DentryCache Nat).enter d₁ ['a'] 1 0 0
  have hden₁ : ∀ e, c₁.den e =
      if e = 0 then { c₀.den 0 with children := (c₀.den 0).children.insert ['a'] d₁ }
      else if e = d₁ then ⟨['a'], ∅, 1, some 0, 0⟩ else c₀.den e :=
        DentryCache.enter_den h01
  let c₂ := ({ c₁ with freeList := rest } : DentryCache Nat).enter d₂ ['b'] 2 d₁ 0
  have hden₂ : ∀ e, c₂.den e =
      if e = d₁ then { c₁.den d₁ with children := (c₁.den d₁).children.insert ['b'] d₂ }
      else if e = d₂ then ⟨['b'], ∅, 2, some d₁, 0⟩ else c₁.den e :=
        DentryCache.enter_den h12
  have hden₁d : c₁.den d₁ = ⟨['a'], ∅, 1, some 0, 0⟩ := by
    rw [hden₁, if_neg (Ne.symm h01), if_pos rfl]
  have hsearch₁ : c₀.entrySearch sampleInodes 0 ['a'] = .ok (some d₁, c₁) :=
    DentryCache.entrySearch_new (by simp [c₀, DentryCache.start]) rfl (by decide) hl
  have hsearch₂ : c₁.entrySearch sampleInodes d₁ ['b'] = .ok (some d₂, c₂) :=
    DentryCache.entrySearch_new (by rw [hden₁d]; rfl) (by rw [hden₁d]; rfl) (by decide) rfl
  have h₁ := h₀.step (e := .start 0) trivial (.start (.inl rfl))
  have h₂ := h₁.step (e := .search ['a']) trivial (.search rfl hsearch₁)
  have h₃ := h₂.step (e := .search ['b']) trivial (.search rfl hsearch₂)
  have h₄ := h₃.step (e := .take) trivial (.take rfl)
  -- The status of `a` is asked for.
  have hden₃ : ∀ e, e ≠ d₂ → (c₂.dup d₂).den e = c₂.den e := fun e he => by
    rw [DentryCache.dup, DentryCache.set_den, if_neg he]
  have hden₄ : ∀ e, e ≠ d₁ → ((c₂.dup d₂).dup d₁).den e = (c₂.dup d₂).den e :=
      fun e he => by
    rw [DentryCache.dup, DentryCache.set_den, if_neg he]
  have hzero : c₂.den 0 =
      { c₀.den 0 with children := (c₀.den 0).children.insert ['a'] d₁ } := by
    rw [hden₂, if_neg h01, if_neg h02, hden₁, if_pos rfl]
  have hone : (c₂.den d₁).parent = some 0 ∧ (c₂.den d₁).refcnt = 0 := by
    rw [hden₂, if_pos rfl, hden₁d]
    exact ⟨rfl, rfl⟩
  have hsearch₃ : (c₂.dup d₂).entrySearch sampleInodes 0 ['a'] =
      .ok (some d₁, c₂.dup d₂) := by
    refine DentryCache.entrySearch_old ?_
    rw [hden₃ 0 h02, hzero]
    exact AList.lookup_insert _
  have h₅ := h₄.step (e := .start 0) trivial (.start (.inl rfl))
  have h₆ := h₅.step (e := .search ['a']) trivial (.search rfl hsearch₃)
  have h₇ := h₆.step (e := .take) trivial (.take rfl)
  have hlast : ((c₂.dup d₂).dup d₁).den d₁ =
      { c₂.den d₁ with refcnt := (c₂.den d₁).refcnt + 1 } := by
    rw [DentryCache.dup, DentryCache.set_den, if_pos rfl, hden₃ d₁ h12]
  obtain ⟨c₅, hrelease, hfree, hparent⟩ :=
    DentryCache.release_frees (s := (c₂.dup d₂).dup d₁) (d := d₁)
    (p := 0) (by rw [hlast]; simp only [hone.2]; rfl) (Ne.symm h01) (by rw [hlast]; exact hone.1)
    h01
    (by rw [hden₄ 0 h01, hden₃ 0 h02, hzero]; exact Int.one_pos)
  have h₈ := h₇.step (e := .drop d₁) trivial (.drop (List.mem_cons_self) hrelease)
  refine ⟨_, h₈, fun h => ?_⟩
  have hmem : d₁ ∈ c₅.freeList := by
    rw [hfree]
    exact List.mem_append_right _ List.mem_cons_self
  have hnot : d₂ ∉ c₅.freeList := by
    rw [hfree]
    simp only [List.nodup_cons] at hnodup
    simp only [List.mem_append, List.mem_singleton, not_or]
    exact ⟨hnodup.2.1, Ne.symm h12⟩
  refine h.parents d₁ hmem d₂ hnot ?_
  rw [hparent, hden₄ d₂ (Ne.symm h12), DentryCache.dup, DentryCache.set_den, if_pos rfl]
  simp only
  rw [hden₂, if_neg (Ne.symm h12), if_pos rfl]

end OsKernel.Fs

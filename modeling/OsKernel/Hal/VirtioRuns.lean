import OsKernel.Hal.VirtioRequests

/-! Every interleaving of calls, completions and interrupts of the virtio driver. -/

namespace OsKernel.Hal

open Lib

namespace System

variable {ι β : Type} {req : ι → Request β} {s : System ι β} {published done : List Nat}
  {i j : ι}
  {c c' : Chain} {h : Nat}

/-! ### The device -/

theorem InvWith.published_ne (I : s.InvWith req published done) (ht : s.taken ≠ s.disk.availIdx) :
    published ≠ [] := by
  rintro rfl
  have hidx := I.availIdx
  rw [List.length_nil, Nat.add_zero, Nat.mod_eq_of_lt I.taken] at hidx
  exact ht hidx.symm

/-- The device takes the first published chain. -/
theorem InvWith.take (I : s.InvWith req (h :: published) done) :
    ({ s with
      taken := (s.taken + 1) % 2 ^ 16
      pending := s.pending ++ [s.disk.availRing (s.taken % num)] } : System ι β).InvWith req
      published done := by
  have havail := I.avail
  rw [List.length_cons, window_succ] at havail
  obtain ⟨hhead, htail⟩ := List.cons.inj havail
  have hperm :
      (published ++ (s.pending ++ [h]) ++ done).Perm (h :: published ++ s.pending ++ done) := by
    rw [← List.append_assoc, List.append_assoc]
    exact List.perm_middle
  rw [hhead]
  refine ⟨I.linked, I.apart, I.free, I.info, I.owner, Nat.mod_lt _ (by decide), ?_, ?_, I.usedIdx,
    I.used, I.usedId, hperm.nodup_iff.mpr I.nodup, fun x => ?_, I.completed, I.wokenNodup,
    I.woken⟩
  · exact (window_mod_dvd (by decide)).trans htail
  · have hidx := I.availIdx
    rw [List.length_cons] at hidx
    simp only [hidx]
    omega
  · exact hperm.mem_iff.trans (I.mem x)

/-- The device completes a chain that it has taken. -/
theorem InvWith.complete (I : s.InvWith req published done) (hh : h ∈ s.pending) :
    ({ s with
      disk := s.disk.complete h
      pending := s.pending.erase h
      completed := s.completed ++ [s.owner h] } : System ι β).InvWith req
      published (done ++ [h]) := by
  have hlen := I.length_le
  simp only [List.length_append] at hlen
  have hpos : 0 < s.pending.length := List.length_pos_of_mem hh
  have hperm : (published ++ s.pending.erase h ++ (done ++ [h])).Perm
      (published ++ s.pending ++ done) := by
    have hlast : (s.pending.erase h ++ (done ++ [h])).Perm (s.pending ++ done) :=
      calc
        _ = (s.pending.erase h ++ done) ++ [h] := (List.append_assoc ..).symm
        List.Perm _ (h :: s.pending.erase h ++ done) := List.perm_append_singleton ..
        List.Perm _ (s.pending ++ done) := (List.perm_cons_erase hh).symm.append_right done
    rw [List.append_assoc, List.append_assoc]
    exact hlast.append_left published
  have hinfo : ∀ x, ((s.disk.complete h).info x).b = (s.disk.info x).b ∧
      ((s.disk.complete h).info x).wait = (s.disk.info x).wait ∧
      ((s.disk.info x).status = 0 → ((s.disk.complete h).info x).status = 0) := by
    intro x
    simp only [Disk.complete, Function.update_apply]
    split
    · next he => simp [he]
    · simp
  refine ⟨fun hf => (I.linked hf).congr fun x _ => ⟨rfl, rfl⟩, I.apart, I.free, fun hf => ?_,
    I.owner, I.taken, I.avail, I.availIdx, I.usedIdx, ?_, ?_, hperm.nodup_iff.mpr I.nodup, fun x =>
    ?_, ?_,
    I.wokenNodup, fun x => ?_⟩
  · obtain ⟨hb, hstatus⟩ := I.info hf
    exact ⟨(hinfo _).1.trans hb, (hinfo _).2.2 hstatus⟩
  · simp only [Disk.complete, I.usedId, List.length_append, List.length_singleton]
    rw [window_push (by unfold num; omega), I.used]
  · have hid := I.usedId
    simp only [Disk.complete, List.length_append, List.length_singleton]
    rw [Nat.mod_mod_of_dvd _ (by decide), Nat.add_mod, hid, ← Nat.add_mod, Nat.add_assoc]
  · simp only [(hinfo x).2.1]
    exact hperm.mem_iff.trans (I.mem x)
  · simp only [I.completed, List.map_append, List.map_singleton, List.append_assoc]
  · simp only [(hinfo _).2.1]
    exact I.woken x

/-! ### The interrupt -/

/-- The state after the completion `h` is consumed. -/
def consume (s : System ι β) (h : Nat) : System ι β :=
  { s with
    disk := { s.disk with
      info := Function.update s.disk.info h { s.disk.info h with wait := false }
      usedIdx := (s.disk.usedIdx + 1) % num }
    woken := s.woken ++ [(s.owner h, (s.disk.info h).b)] }

theorem InvWith.consume (I : s.InvWith req published (h :: done)) :
    (s.consume h).InvWith req published done := by
  obtain ⟨i, c, hf, rfl, hw⟩ := (I.mem h).mp (by simp)
  have hused := I.used
  rw [List.length_cons, window_succ] at hused
  have hnodup := I.nodup
  rw [List.perm_middle.nodup_iff, List.nodup_cons] at hnodup
  have hinfo : ∀ x, ((s.consume c.head).disk.info x).b = (s.disk.info x).b ∧
      ((s.consume c.head).disk.info x).status = (s.disk.info x).status ∧
      (((s.consume c.head).disk.info x).wait = true ↔ x ≠ c.head ∧
        (s.disk.info x).wait = true) := by
    intro x
    simp only [System.consume, Function.update_apply]
    split
    · next he => simp [he]
    · next he => simp [he]
  -- the call has not been woken yet
  have hnew : some i ∉ s.woken.map Prod.fst := by
    intro hm
    obtain ⟨y, hy, he⟩ := List.mem_map.mp hm
    obtain ⟨j, rfl, hj⟩ := (I.woken y).mp hy
    cases he
    rcases hj with hret | ⟨c', hf', hw'⟩
    · unfold Flies at hf
      rw [hret] at hf
      cases hf
    · rw [hf.unique hf', hw'] at hw
      cases hw
  have hentry : (s.owner c.head, (s.disk.info c.head).b) = (some i, some (req i).bufList) := by
    rw [I.owner hf, (I.info hf).1]
  refine ⟨fun hf' => (I.linked hf').congr fun x _ => ⟨rfl, rfl⟩, I.apart, I.free,
    fun hf' => ?_, I.owner, I.taken, I.avail, I.availIdx, Nat.mod_lt _ (by decide), ?_, ?_,
    hnodup.2, fun x => ?_, ?_,
    ?_, fun x => ?_⟩
  · rw [(hinfo _).1, (hinfo _).2.1]
    exact I.info hf'
  · exact window_mod.trans (List.cons.inj hused).2
  · have hid := I.usedId
    rw [List.length_cons] at hid
    simp only [System.consume, Nat.mod_add_mod]
    rw [hid]
    congr 1
    omega
  · simp only [(hinfo x).2.2]
    have hmem := I.mem x
    rw [List.perm_middle.mem_iff, List.mem_cons] at hmem
    constructor
    · intro hx
      obtain ⟨j, c', hf', he, hw'⟩ := hmem.mp (.inr hx)
      refine ⟨j, c', hf', he, ?_, hw'⟩
      rintro rfl
      exact hnodup.1 hx
    · rintro ⟨j, c', hf', he, hne, hw'⟩
      exact (hmem.mpr ⟨j, c', hf', he, hw'⟩).resolve_left hne
  · simp [System.consume, I.completed]
  · simp only [System.consume, hentry, List.map_append, List.map_singleton]
    rw [(List.perm_append_singleton _ _).nodup_iff, List.nodup_cons]
    exact ⟨hnew, I.wokenNodup⟩
  · have hwait : ∀ {j c'}, s.Flies j c' →
        (((s.consume c.head).disk.info c'.head).wait = false ↔
        (j = i ∨ (s.disk.info c'.head).wait = false)) := by
      intro j c' hf'
      rw [← Bool.not_eq_true, (hinfo c'.head).2.2, not_and_or, not_not, Bool.not_eq_true]
      refine or_congr_left ⟨fun he => (I.eq_of_head hf' hf he).1, ?_⟩
      rintro rfl
      rw [hf.unique hf']
    have hwoken : (s.consume c.head).woken = s.woken ++ [(some i, some (req i).bufList)] := by
      rw [← hentry]
      rfl
    rw [hwoken, List.mem_append, List.mem_singleton, I.woken x]
    constructor
    · rintro (⟨j, rfl, hret | ⟨c', hf', hw'⟩⟩ | rfl)
      · exact ⟨j, rfl, .inl hret⟩
      · exact ⟨j, rfl, .inr ⟨c', hf', (hwait hf').mpr (.inr hw')⟩⟩
      · exact ⟨i, rfl, .inr ⟨c, hf, (hwait hf).mpr (.inl rfl)⟩⟩
    · rintro ⟨j, rfl, hret | ⟨c', hf', hw'⟩⟩
      · exact .inl ⟨j, rfl, .inl hret⟩
      · rcases (hwait hf').mp hw' with rfl | hw'
        · exact .inr rfl
        · exact .inl ⟨j, rfl, .inr ⟨c', hf', hw'⟩⟩

/-- The loop of `handle_intr` consumes every completion there is. -/
theorem InvWith.intrLoop (I : s.InvWith req published done) {turns : Nat} (ht : done.length < turns)
    (acc : List (Nat × Option β)) : ∃ d ws, s.disk.intrLoop turns acc = .ok (d, acc ++ ws) ∧
      ({ s with disk := d, woken := s.woken ++ ws.map fun w => (s.owner w.1, w.2) } :
        System ι β).InvWith req published [] := by
  induction done generalizing s turns acc with
  | nil =>
    obtain ⟨turns, rfl⟩ := Nat.exists_eq_succ_of_ne_zero (by omega : turns ≠ 0)
    refine ⟨s.disk, [], ?_, ?_⟩
    · rw [Disk.intrLoop, if_neg, List.append_nil]
      rw [I.usedId]
      simp
    · simpa using I
  | cons h done ih =>
    obtain ⟨turns, rfl⟩ := Nat.exists_eq_succ_of_ne_zero (by omega : turns ≠ 0)
    have hlen := I.length_le
    simp only [List.length_append, List.length_cons] at hlen ht
    obtain ⟨i, c, hf, hhead, -⟩ := (I.mem h).mp (by simp)
    have hused := I.used
    rw [List.length_cons, window_succ, Nat.mod_eq_of_lt I.usedIdx] at hused
    have hne : s.disk.usedIdx % num ≠ s.disk.usedId % num := by
      rw [I.usedId, List.length_cons]
      intro he
      have := place_inj (i := 0) (j := done.length + 1) (by decide) (by unfold num; omega) he
      omega
    have hfew : done.length < turns := by omega
    obtain ⟨d, ws, hrun, hinv⟩ := ih I.consume hfew (acc ++ [(h, (s.disk.info h).b)])
    refine ⟨d, (h, (s.disk.info h).b) :: ws, ?_, ?_⟩
    · rw [Disk.intrLoop, if_pos hne]
      simp only [(List.cons.inj hused).1]
      rw [if_neg (by rw [← hhead, (I.info hf).2]; decide)]
      simpa [System.consume] using hrun
    · simpa [System.consume] using hinv

theorem InvWith.intr (I : s.InvWith req published done) : ∃ d ws,
    s.disk.handleIntr = .ok (d, ws) ∧
      ({ s with disk := d, woken := s.woken ++ ws.map fun w => (s.owner w.1, w.2) } :
      System ι β).InvWith req published [] := by
  have hlen := I.length_le
  simp only [List.length_append] at hlen
  exact I.intrLoop (by unfold num; omega) []

/-! ### The end of a call -/

section

variable [DecidableEq ι]

/-- A call whose completion is consumed frees its chain. -/
theorem InvWith.finish (I : s.InvWith req published done) (hf : s.Flies i c)
    (hw : (s.disk.info c.head).wait = false) {d : Disk β}
    (hd : ({ s.disk with
      info := Function.update s.disk.info c.head { s.disk.info c.head with b := none } } :
      Disk β).Freed c d) :
    ({ s with disk := d, phase := Function.update s.phase i .returned } : System ι β).InvWith req
      published done := by
  have hfly : ∀ {j c'}, ({ s with disk := d, phase := Function.update s.phase i .returned } :
      System ι β).Flies j c' ↔ j ≠ i ∧ s.Flies j c' := by
    intro j c'
    unfold Flies
    by_cases hj : j = i
    · simp [hj]
    · simp [hj]
  have hinfo : ∀ {x}, x ≠ c.head → d.info x = s.disk.info x := by
    intro x hx
    rw [hd.info]
    exact Function.update_of_ne hx ..
  have hwait : ∀ x, (d.info x).wait = (s.disk.info x).wait := by
    intro x
    by_cases hx : x = c.head
    · rw [hd.info, hx]
      simp
    · rw [hinfo hx]
  refine ⟨fun {j c'} h => (I.linked (hfly.mp h).2).congr fun x _ => hd.desc x,
    fun h h' => I.apart (hfly.mp h).2 (hfly.mp h').2, fun x hx => ?_, fun {j c'} h => ?_,
    fun h => I.owner (hfly.mp h).2, I.taken, ?_, ?_, ?_, ?_, ?_, I.nodup, fun x => ?_, I.completed,
    I.wokenNodup, fun x => ?_⟩
  · rw [hd.free, Bool.or_eq_true, decide_eq_true_eq, I.free x hx]
    simp only [hfly]
    constructor
    · rintro hx j c' ⟨hj, hf'⟩ hxc
      rcases hx with hall | hxc'
      · exact hall j c' hf' hxc
      · exact I.apart hf' hf hj hxc hxc'
    · intro hall
      refine or_iff_not_imp_right.mpr fun hxc j c' hf' => ?_
      by_cases hj : j = i
      · subst hj
        rwa [hf'.unique hf]
      · exact hall j c' ⟨hj, hf'⟩
  · obtain ⟨hj, hf'⟩ := hfly.mp h
    simp only [hinfo fun he => hj (I.eq_of_head hf' hf he).1]
    exact I.info hf'
  · simp only [hd.availRing]
    exact I.avail
  · simp only [hd.availIdx]
    exact I.availIdx
  · simp only [hd.usedIdx]
    exact I.usedIdx
  · simp only [hd.usedElems, hd.usedIdx]
    exact I.used
  · simp only [hd.usedId, hd.usedIdx]
    exact I.usedId
  · simp only [hwait, hfly, I.mem x]
    refine exists_congr fun j => exists_congr fun c' => ?_
    refine ⟨fun ⟨hf', he, hw'⟩ => ⟨⟨?_, hf'⟩, he, hw'⟩,
      fun ⟨hf', he, hw'⟩ => ⟨hf'.2, he, hw'⟩⟩
    rintro rfl
    rw [← he, hf'.unique hf, hw] at hw'
    cases hw'
  · simp only [hwait, hfly, I.woken x]
    refine exists_congr fun j => and_congr_right fun _ => ?_
    by_cases hj : j = i
    · subst hj
      exact iff_of_true (.inr ⟨c, hf, hw⟩) (.inl (Function.update_self ..))
    · simp [hj]

/-! ### Runs -/

variable {statusAddr : Nat → Nat} {e : Event ι}

/-- No step that can happen panics, and each keeps the invariant. -/
theorem step_ok (h : s.Inv req) (he : s.Enabled e) :
    ∃ s', s.step statusAddr req e = .ok s' ∧ s'.Inv req := by
  obtain ⟨published, done, I⟩ := h
  cases e with
  | submit i =>
    rcases s.disk.alloc3Desc_cases with ⟨d, hd, hsame⟩ | ⟨c, hd, hn, hfree⟩
    · refine ⟨_, ?_, published, done, I.submit_none hsame he⟩
      simp only [step, Disk.rwSubmit, hd, ok_bind]
    · refine ⟨_, ?_, published ++ [c.head], done, I.submit_some statusAddr he hn hfree⟩
      simp only [step, Disk.rwSubmit, hd, ok_bind]
  | resume i =>
    obtain ⟨c, hf⟩ := he
    cases hw : (s.disk.info c.head).wait with
    | true =>
      refine ⟨s, ?_, published, done, I⟩
      simp [step, hf, Disk.rwFinish, hw, ok_bind]
    | false =>
      obtain ⟨d, hd, hfreed⟩ := Disk.freeChain_ok (d := { s.disk with
        info := Function.update s.disk.info c.head { s.disk.info c.head with b := none } })
        ((I.linked hf).congr fun x _ => ⟨rfl, rfl⟩) fun x hx => I.inUse hf hx
      have hfin : s.disk.rwFinish c = .ok (true, d) := by
        unfold Disk.rwFinish
        rw [if_neg (by rw [hw]; decide)]
        simp only at hd
        simp only [hd, ok_bind]
      refine ⟨_, ?_, published, done, I.finish hf hw hfreed⟩
      simp [step, hf, hfin, ok_bind]
  | take =>
    obtain ⟨h, rest, rfl⟩ := List.exists_cons_of_ne_nil (I.published_ne he)
    exact ⟨_, rfl, rest, done, I.take⟩
  | complete h => exact ⟨_, rfl, published, done ++ [h], I.complete he⟩
  | intr =>
    obtain ⟨d, ws, hrun, hinv⟩ := I.intr
    refine ⟨_, ?_, published, [], hinv⟩
    simp only [step, hrun, ok_bind]

theorem Reach.inv (h : Reach statusAddr req s) : s.Inv req := by
  induction h with
  | init => exact ⟨[], [], inv_init⟩
  | step _ he hs ih =>
    obtain ⟨s', hs', hinv⟩ := step_ok ih he
    rw [hs] at hs'
    cases hs'
    exact hinv

end

/-! ### What the invariant says -/

theorem InvWith.owner_done (I : s.InvWith req published done) (hh : h ∈ done) :
    ∃ i c, s.Flies i c ∧ c.head = h ∧ (s.disk.info h).wait = true ∧ s.owner h = some i := by
  obtain ⟨i, c, hf, rfl, hw⟩ := (I.mem h).mp (by simp [hh])
  exact ⟨i, c, hf, rfl, hw, I.owner hf⟩

/-- Every completion belongs to a call. -/
theorem InvWith.completed_some (I : s.InvWith req published done) {x : Option ι}
    (hx : x ∈ s.completed) : ∃ i, x = some i := by
  rw [I.completed, List.mem_append] at hx
  rcases hx with hx | hx
  · obtain ⟨y, hy, rfl⟩ := List.mem_map.mp hx
    obtain ⟨i, rfl, -⟩ := (I.woken y).mp hy
    exact ⟨i, rfl⟩
  · obtain ⟨h, hh, rfl⟩ := List.mem_map.mp hx
    obtain ⟨i, -, -, -, -, ho⟩ := I.owner_done hh
    exact ⟨i, ho⟩

/-- No call has two completions. -/
theorem InvWith.completed_nodup (I : s.InvWith req published done) : s.completed.Nodup := by
  rw [I.completed]
  refine List.nodup_append'.mpr ⟨I.wokenNodup, ?_, fun x hx hx' => ?_⟩
  · refine List.Nodup.map_on (fun h hh h' hh' he => ?_) (List.nodup_append'.mp I.nodup).2.1
    obtain ⟨i, c, hf, rfl, -, ho⟩ := I.owner_done hh
    obtain ⟨j, c', hf', rfl, -, ho'⟩ := I.owner_done hh'
    rw [ho, ho'] at he
    cases he
    rw [hf.unique hf']
  · obtain ⟨h, hh, rfl⟩ := List.mem_map.mp hx'
    obtain ⟨y, hy, he⟩ := List.mem_map.mp hx
    obtain ⟨i, c, hf, rfl, hw, ho⟩ := I.owner_done hh
    obtain ⟨j, rfl, hj⟩ := (I.woken y).mp hy
    rw [ho] at he
    cases he
    rcases hj with hret | ⟨c', hf', hw'⟩
    · unfold Flies at hf
      rw [hret] at hf
      cases hf
    · rw [hf.unique hf', hw'] at hw
      cases hw

section

variable [DecidableEq ι]

/-- In every interleaving the requests in flight have three descriptors each, which no two share;
the free descriptors are the others; no step panics; a call that has returned was woken, with its
own buffer, when the completion of its own chain was consumed; the completions are consumed in their
order, none twice, and none is left after an interrupt; and with no call under way every descriptor
is free. -/
theorem virtio_requests (statusAddr : Nat → Nat) (req : ι → Request β) (s : System ι β)
    (hs : Reach statusAddr req s) :
    (∀ i c, s.Flies i c → c.descs.Nodup ∧ ∀ x ∈ c.descs, x < num) ∧
      (∀ i j c c', s.Flies i c → s.Flies j c' → i ≠ j → c.descs.Disjoint c'.descs) ∧
      (∀ x < num, s.disk.free x = true ↔ ∀ i c, s.Flies i c → x ∉ c.descs) ∧
      (∀ e, s.Enabled e → ∃ s', s.step statusAddr req e = .ok s') ∧
      (∀ i, s.phase i = .returned → (some i, some (req i).bufList) ∈ s.woken) ∧
      (s.woken.map Prod.fst <+: s.completed ∧ s.completed.Nodup ∧
        (∀ x ∈ s.completed, ∃ i, x = some i) ∧
        ∀ s', s.step statusAddr req .intr = .ok s' → s'.woken.map Prod.fst = s'.completed) ∧
      ((∀ i, s.phase i = .start ∨ s.phase i = .returned) → ∀ x < num,
        s.disk.free x = true) := by
  have hinv := hs.inv
  obtain ⟨published, done, I⟩ := hinv
  refine ⟨fun i c hf => ⟨(I.linked hf).nodup, (I.linked hf).lt⟩, fun i j c c' => I.apart,
    I.free,
    fun e he => ?_, fun i hi => (I.woken _).mpr ⟨i, rfl, .inl hi⟩,
    ⟨⟨_, I.completed.symm⟩, I.completed_nodup, fun x hx => I.completed_some hx,
      fun s' hs' => ?_⟩,
    fun hidle x hx => (I.free x hx).mpr fun i c hf => ?_⟩
  · obtain ⟨s', hs', -⟩ := step_ok hs.inv he
    exact ⟨s', hs'⟩
  · obtain ⟨d, ws, hrun, J⟩ := I.intr
    simp only [step, hrun, ok_bind] at hs'
    cases hs'
    simpa using J.completed.symm
  · unfold Flies at hf
    rcases hidle i with hi | hi <;> rw [hi] at hf <;> cases hf

/-- The requests of two calls, with their buffers at 100 and 200. -/
def sampleReq (i : Bool) : Request Nat := ⟨64, if i then 200 else 100, 512, 1, i⟩

/-- Two calls submit, the device completes the second one first, and both return. -/
theorem virtio_requests_sample : ∃ s : System Bool Nat, s.phase true = .returned ∧
    s.phase false = .returned ∧ (some true, some 200) ∈ s.woken ∧
    (some false, some 100) ∈ s.woken ∧
    s.completed = [some true, some false] ∧ s.completed.Nodup := by
  have h0 : Reach id sampleReq init := .init
  have h1 := h0.step (e := .submit false) (.inl rfl) rfl
  have h2 := h1.step (e := .submit true) (.inl rfl) rfl
  have h3 := h2.step (e := .take) (show 0 ≠ 2 by decide) rfl
  have h4 := h3.step (e := .take) (show 1 ≠ 2 by decide) rfl
  have h5 := h4.step (e := .complete 3) (show 3 ∈ [0, 3] by decide) rfl
  have h6 := h5.step (e := .complete 0) (show 0 ∈ [0] by decide) rfl
  have h7 := h6.step (e := .intr) trivial rfl
  have h8 := h7.step (e := .resume true) ⟨⟨3, 4, 5⟩, rfl⟩ rfl
  have h9 := h8.step (e := .resume false) ⟨⟨0, 1, 2⟩, rfl⟩ rfl
  obtain ⟨-, -, -, -, hwoken, ⟨-, hnodup, -⟩, -⟩ := virtio_requests id sampleReq _ h9
  exact ⟨_, rfl, rfl, hwoken true rfl, hwoken false rfl, rfl, hnodup⟩

end

end System

end OsKernel.Hal

import WorkQueue.Proofs.Reachable

/-!
# Where a job is listed

`Engine.Placed` : a registered job is listed once in its own tube, at the place that its state and
its fields name, and if it is reserved also once under its deadline with its holder, who is
connected. Every entry of a list is that of a registered job of the state, and a deleted job is
listed nowhere. `Broker.Reachable.jobs_placed` shows that this holds in all states that come up.

The numbers of the jobs are those that a search in 32 bits gives out (`nextFree`), until it comes
round.
-/

namespace WorkQueue

namespace Engine

/-- The lists of the tubes and of the clients match the registered jobs entry by entry. -/
structure Placed (s : Engine) : Prop where
  once : ∀ id job, s.find? id = some job → ∃ tube place, s.tube? job.tube = some tube ∧
    job.place? = some place ∧ tube.places.filter (·.job = id) = [place]
  held : ∀ id job c due, s.find? id = some job → job.state = .reserved c due →
    ∃ client, s.client? c = some client ∧ client.closed = false ∧
      client.held.filter (·.job = id) = [⟨due, id⟩] ∧
        ∀ other ∈ s.clients, other ≠ client → ∀ slot ∈ other.held, slot.job ≠ id
  listed : ∀ tube ∈ s.tubes, ∀ place ∈ tube.places, ∃ job, s.find? place.job = some job ∧
    job.tube = tube.name ∧ job.place? = some place
  holding : ∀ client ∈ s.clients, ∀ slot ∈ client.held, ∃ job, s.find? slot.job = some job ∧
    job.state = .reserved client.id slot.rank
  deleted : ∀ job ∈ s.jobs, job.state = .deleted → s.find? job.id = none ∧
    (∀ tube ∈ s.tubes, ∀ place ∈ tube.places, place.job ≠ job.id) ∧
      ∀ client ∈ s.clients, ∀ slot ∈ client.held, slot.job ≠ job.id

/-- A list without duplicates has one entry that passes a test, if one does and no other. -/
theorem filter_eq_singleton {α : Type} {l : List α} {p : α → Bool} {a : α} (hl : l.Nodup)
    (ha : a ∈ l) (hp : p a = true) (hone : ∀ x ∈ l, p x = true → x = a) : l.filter p = [a] := by
  refine List.perm_singleton.1 ((List.perm_ext_iff_of_nodup (hl.filter p)
    (List.nodup_singleton a)).2 fun x => ?_)
  rw [List.mem_filter, List.mem_singleton]
  constructor
  · rintro ⟨hx, hpx⟩
    exact hone x hx hpx
  · rintro rfl
    exact ⟨ha, hp⟩

namespace Sound

variable {s : Engine} {leaving : Option ClientId} {waking : Option TubeName}
  (h : Sound leaving waking s)

include h

theorem find?_eq_some_iff {id : JobId} {job : Job} :
    s.find? id = some job ↔ job ∈ s.jobs ∧ job.id = id ∧ job.state ≠ .deleted := by
  rw [find?, Option.filter_eq_some_iff, job?_eq_some_iff h.listed.jobs, and_assoc]
  refine and_congr_right fun hj => and_congr_right fun _ => ?_
  exact (h.settled job hj).registered

/-- A job of the states that lists are for is registered. -/
theorem find?_of_place? {job : Job} (hj : job ∈ s.jobs) {place : Place}
    (hp : job.place? = some place) : s.find? place.job = some job := by
  refine h.find?_eq_some_iff.2 ⟨hj, (Job.job_of_place? hp).symm, fun hst => ?_⟩
  simp [Job.place?, hst] at hp

theorem placed_once {id : JobId} {job : Job} (hf : s.find? id = some job) :
    ∃ tube place, s.tube? job.tube = some tube ∧ job.place? = some place ∧
      tube.places.filter (·.job = id) = [place] := by
  obtain ⟨hj, rfl, hdel⟩ := h.find?_eq_some_iff.1 hf
  obtain ⟨tube, ht, hname⟩ := List.mem_map.1 (h.listed.homes job hj)
  have hname : tube.name = job.tube := hname
  have hsome : ∃ place, job.place? = some place := by
    have hnew := (h.settled job hj).placed
    unfold Job.place?
    split <;> simp_all
  obtain ⟨place, hp⟩ := hsome
  refine ⟨tube, place, (tube?_eq_some_iff h.listed.tubes).2 ⟨ht, hname⟩, hp, ?_⟩
  refine filter_eq_singleton (h.listed.ordered tube ht).nodup_places
    ((h.listed.places tube ht place).2 ⟨job, hj, hname.symm, hp⟩)
    (decide_eq_true (Job.job_of_place? hp)) fun other hother hid => ?_
  -- another entry for the number is an entry of the same job
  obtain ⟨x, hx, -, hplace⟩ := (h.listed.places tube ht other).1 hother
  have hsame : x = job := h.listed.job_ext hx hj <| by
    rw [← Job.job_of_place? hplace]
    exact of_decide_eq_true hid
  rw [hsame, hp] at hplace
  exact (Option.some.inj hplace).symm

theorem held_once {id : JobId} {job : Job} {c : ClientId} {due : Instant}
    (hf : s.find? id = some job) (hst : job.state = .reserved c due) :
    ∃ client, s.client? c = some client ∧ client.closed = false ∧
      client.held.filter (·.job = id) = [⟨due, id⟩] ∧
        ∀ other ∈ s.clients, other ≠ client → ∀ slot ∈ other.held, slot.job ≠ id := by
  obtain ⟨hj, rfl, -⟩ := h.find?_eq_some_iff.1 hf
  obtain ⟨client, rfl, hc, hopen⟩ := client?_of_isConnected (h.listed.holders job hj c due hst)
  obtain ⟨hmem, -⟩ := (client?_eq_some_iff h.listed.clients).1 hc
  -- an agenda that lists the job does so for the state that it has
  have hslot {other : Client} (ho : other ∈ s.clients) {slot : Slot} (hslot : slot ∈ other.held)
      (hid : slot.job = job.id) : client.id = other.id ∧ due = slot.rank := by
    obtain ⟨x, hx, hxid, hxst⟩ := (h.listed.held other ho slot).1 hslot
    obtain rfl := h.listed.job_ext hx hj (hxid.trans hid)
    rw [hst] at hxst
    exact ⟨(JobState.reserved.inj hxst).1, (JobState.reserved.inj hxst).2⟩
  refine ⟨client, hc, hopen, ?_, fun other ho hne slot hs hid => ?_⟩
  · refine filter_eq_singleton (h.listed.heldOrdered client hmem).nodup
      ((h.listed.held client hmem _).2 ⟨job, hj, rfl, hst⟩) (decide_eq_true rfl)
      fun slot hs hid => ?_
    have hid : slot.job = job.id := of_decide_eq_true hid
    obtain ⟨-, hdue⟩ := hslot hmem hs hid
    rw [hdue, ← hid]
  · obtain ⟨hsame, -⟩ := hslot ho hs hid
    exact hne (Table.eq_of_key_eq h.listed.clients.nodup ho hmem hsame.symm)

theorem placed : s.Placed where
  once := fun _ _ hf => h.placed_once hf
  held := fun _ _ _ _ hf hst => h.held_once hf hst
  listed := fun tube ht place hp => by
    obtain ⟨job, hj, htube, hplace⟩ := (h.listed.places tube ht place).1 hp
    exact ⟨job, h.find?_of_place? hj hplace, htube, hplace⟩
  holding := fun client hc slot hs => by
    obtain ⟨job, hj, hid, hst⟩ := (h.listed.held client hc slot).1 hs
    exact ⟨job, h.find?_eq_some_iff.2 ⟨hj, hid, by simp [hst]⟩, hst⟩
  deleted := fun job hj hst => by
    have hnot {x : Job} (hx : x ∈ s.jobs) (hid : x.id = job.id) : x.state = .deleted :=
      h.listed.job_ext hx hj hid ▸ hst
    refine ⟨Option.eq_none_iff_forall_ne_some.2 fun x hf => ?_, fun tube ht place hp hid => ?_,
      fun client hc slot hs hid => ?_⟩
    · obtain ⟨hx, hid, hdel⟩ := h.find?_eq_some_iff.1 hf
      exact hdel (hnot hx hid)
    · obtain ⟨x, hx, -, hplace⟩ := (h.listed.places tube ht place).1 hp
      have hxst := hnot hx ((Job.job_of_place? hplace).symm.trans hid)
      simp [Job.place?, hxst] at hplace
    · obtain ⟨x, hx, hxid, hxst⟩ := (h.listed.held client hc slot).1 hs
      rw [hnot hx (hxid.trans hid)] at hxst
      cases hxst

end Sound

end Engine

namespace Broker

/-- In every state that comes up, a job is listed where its state says, once, and nowhere else. -/
theorem Reachable.jobs_placed {b : Broker} (h : Reachable b) : b.engine.Placed :=
  h.sound.placed

/-- A client with a job in every state : the first is buried, the second delayed, the third
reserved by it and the fourth ready. -/
def fourJobs : List Event :=
  [.connect, .command 1 (.put 5 0 60 1) (some [120]), .command 1 (.put 0 10 60 1) (some [120]),
    .command 1 (.put 3 0 60 1) (some [120]), .command 1 (.put 7 0 60 1) (some [120]),
    .command 1 .reserve none, .advance 500, .command 1 .reserve none,
    .command 1 (.bury 1 9) none]

theorem jobs_placed_fourJobs : ((start {}).after fourJobs).engine.Placed ∧
    ((start {}).after fourJobs).engine.tubes.map (·.places) =
      [[.ready ⟨7, 4⟩, .delayed ⟨10000, 2⟩, .buried 1, .reserved 3]] ∧
    ((start {}).after fourJobs).engine.clients.map (·.held) = [[⟨60000, 3⟩]] :=
  ⟨Reachable.jobs_placed ((Reachable.start {}).after fourJobs), by decide, by decide⟩

end Broker

/-! ## Numbers of 32 bits -/

section NextFree

variable {inUse : JobId → Bool} {tries : Nat} {last id : UInt32}

/-- No number is given out twice at a time. -/
theorem free_of_nextFree (h : nextFree inUse tries last = some id) :
    id ≠ 0 ∧ inUse id.toNat = false := by
  induction tries generalizing last with
  | zero => cases h
  | succ tries ih =>
    rw [nextFree] at h
    split at h
    · exact ih h
    · next hfree =>
      cases h
      simpa using hfree

/-- A number is found behind as many others as lie between. -/
theorem isSome_nextFree (hid : id ≠ 0) (hfree : inUse id.toNat = false)
    (htries : (id - last - 1).toNat < tries) : (nextFree inUse tries last).isSome := by
  induction tries generalizing last with
  | zero => exact absurd htries (Nat.not_lt_zero _)
  | succ tries ih =>
    rw [nextFree]
    split
    · next htaken =>
      have hne : last + 1 ≠ id := by
        rintro rfl
        rw [hfree, Bool.or_false, decide_eq_true_eq] at htaken
        exact hid htaken
      have hstep : id - (last + 1) - 1 = id - last - 1 - 1 := by grind
      have hpos : 1 ≤ id - last - 1 := by
        rw [UInt32.le_iff_toNat_le]
        refine Nat.one_le_iff_ne_zero.2 fun hzero => hne ?_
        have hzero : id - last - 1 = 0 := UInt32.toNat_inj.1 hzero
        grind
      refine ih ?_
      rw [hstep, UInt32.toNat_sub_of_le _ _ hpos]
      exact Nat.sub_one_lt_of_le (UInt32.le_iff_toNat_le.1 hpos) (Nat.le_of_lt_succ htries)
    · rfl

/-- The search comes to an end within one round exactly if a number is free. -/
theorem isSome_nextFree_iff : (nextFree inUse (2 ^ 32) last).isSome ↔
    ∃ id : UInt32, id ≠ 0 ∧ inUse id.toNat = false := by
  rw [Option.isSome_iff_exists]
  constructor
  · rintro ⟨id, hid⟩
    exact ⟨id, free_of_nextFree hid⟩
  · rintro ⟨id, hid, hfree⟩
    exact Option.isSome_iff_exists.1 (isSome_nextFree hid hfree (UInt32.toNat_lt _))

end NextFree

namespace Broker

/-- As long as there are numbers of 32 bits that have not been given out, the next is the first of
them that is free. -/
theorem Reachable.nextFree_eq {b : Broker} (h : Reachable b)
    (hfew : b.engine.nextJob < 2 ^ 32) (tries : Nat) :
    nextFree (fun id => (b.engine.find? id).isSome) (tries + 1)
      (UInt32.ofNat b.engine.jobs.length) = some (UInt32.ofNat b.engine.nextJob) ∧
    (UInt32.ofNat b.engine.nextJob).toNat = b.engine.nextJob := by
  have hword : (UInt32.ofNat b.engine.nextJob).toNat = b.engine.nextJob := by
    rw [UInt32.toNat_ofNat', Nat.mod_eq_of_lt hfew]
  have hnext : UInt32.ofNat b.engine.jobs.length + 1 = UInt32.ofNat b.engine.nextJob :=
    (UInt32.ofNat_add _ 1).symm
  have hzero : UInt32.ofNat b.engine.nextJob ≠ 0 := fun hzero => by
    rw [hzero] at hword
    exact absurd hword (Nat.succ_ne_zero _).symm
  have hnew : b.engine.find? b.engine.nextJob = none := by
    have hnone : b.engine.job? b.engine.nextJob = none :=
      Table.lookup_eq_none_iff.2 h.sound.listed.jobs.next_not_mem
    rw [Engine.find?, hnone]
    rfl
  refine ⟨?_, hword⟩
  simp only [nextFree, hnext, hword, hnew, hzero, decide_false, Option.isSome_none, Bool.or_self,
    Bool.false_eq_true, if_false]

/-- Behind the last number but one comes the last, and then 3 if 1 and 2 are in use. -/
example : nextFree (· ≤ 2) 1 4294967294 = some 4294967295 ∧
    nextFree (· ≤ 2) 4 4294967295 = some 3 := by decide

end Broker

end WorkQueue

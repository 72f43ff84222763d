import Mathlib.Data.List.Sort
import WorkQueue.Proofs.Answers
import WorkQueue.Proofs.Evolution
import WorkQueue.Proofs.Sweeping

/-!
# Rows of jobs that come back

A kick and the two sweeps bring jobs back to ready one after the other, and after each of them the
requests that wait at its tube have their turn before the next one is looked at. None of that gets
in the way of the row : a job that is open to the transition and has not had its turn is still as it
was at the start (`Returning.job?`), since a request only ever gets a ready job. So no job of the
row is refused, and the row is counted in full (`Returning.row`).

What becomes of the jobs is said by `Engine.Lands` : a job that comes back is ready, or it has gone
to a request that was waiting at its tube.
-/

namespace WorkQueue

/-- What becomes of a job when the jobs of some numbers come back to ready. -/
def Job.returned (f : Job → Job) (ids : List JobId) (job : Job) : Job :=
  if job.id ∈ ids then (f job).makeReady else job

theorem Job.returned_of_mem {f : Job → Job} {ids : List JobId} {job : Job} (h : job.id ∈ ids) :
    job.returned f ids = (f job).makeReady :=
  if_pos h

theorem Job.returned_of_not_mem {f : Job → Job} {ids : List JobId} {job : Job} (h : job.id ∉ ids) :
    job.returned f ids = job :=
  if_neg h

/-- A job that has just been reserved does not come back, unless its holder says so. -/
theorem Return.not_fresh {now : Instant} {job : Job} {f : Job → Job} (h : Return now none job f)
    (hset : job.Settled) (c : ClientId) : job.state ≠ .reserved c (now + job.ttr) := by
  intro hst
  cases h with
  | giveBack hw | release hw => cases hw
  | kick hopen => simp [Engine.isKickable, hst] at hopen
  | promote hopen => simp [Engine.isDue, hst] at hopen
  | expire hopen =>
    have hpos : 0 < job.ttr := Nat.lt_of_lt_of_le (by decide) hset.ttr
    rw [Engine.isOverdue, hst] at hopen
    exact Nat.not_le_of_lt (Nat.lt_add_of_pos_right hpos) (of_decide_eq_true hopen)

/-- Agendas in order that list the same jobs are the same. -/
theorem Agenda.Sorted.ext {a b : Agenda} (ha : Sorted a) (hb : Sorted b)
    (h : ∀ slot, slot ∈ a ↔ slot ∈ b) : a = b := by
  have hasymm (x y : Slot) (hxy : x.before y = true) (hyx : y.before x = true) : False :=
    x.not_before_self (Slot.before_trans hxy hyx)
  have : Std.Antisymm fun x y : Slot => x.before y = true :=
    ⟨fun x y hxy hyx => (hasymm x y hxy hyx).elim⟩
  have : Std.Irrefl fun x y : Slot => x.before y = true := ⟨Slot.not_before_self⟩
  exact List.Pairwise.eq_of_mem_iff ha hb h

/-- A sublist that leaves nothing out. -/
theorem eq_of_sublist_of_subset {α : Type} {l m : List α} (hsub : l.Sublist m) (hm : m.Nodup)
    (h : m ⊆ l) : l = m :=
  hsub.eq_of_length_le (hm.length_le_of_subset h)

/-- What is left of a list when what its first `n` entries stand for is struck off. -/
theorem filter_not_mem_take {α β : Type} [DecidableEq β] (f : α → β) {l : List α}
    (h : (l.map f).Nodup) (n : Nat) :
    l.filter (fun a => f a ∉ (l.take n).map f) = l.drop n := by
  have hsplit : ((l.take n).map f ++ (l.drop n).map f).Nodup := by
    rwa [← List.map_append, List.take_append_drop]
  have hdisjoint := List.disjoint_of_nodup_append hsplit
  conv_lhs => enter [2]; rw [← List.take_append_drop n l]
  rw [List.filter_append, List.filter_eq_nil_iff.2, List.filter_eq_self.2, List.nil_append]
  · exact fun a ha => decide_eq_true fun hmem => hdisjoint hmem (List.mem_map_of_mem ha)
  · exact fun a ha hnot => of_decide_eq_true hnot (List.mem_map_of_mem ha)

namespace Engine

variable {isOpenTo : Job → Bool} {f : Job → Job} {ids done : List JobId} {s₀ s t : Engine}
  {job x y : Job} {q : Request} {name : TubeName}

/-! ## Rows with a count -/

theorem foldl_total {α β : Type} (count : β → Nat) (go : Engine → α → β × Engine) (as : List α)
    (n : Nat) (s : Engine) :
    as.foldl (fun total a => (total.1 + count (go total.2 a).1, (go total.2 a).2)) (n, s) =
      (n + (as.foldl (fun total a =>
          (total.1 + count (go total.2 a).1, (go total.2 a).2)) (0, s)).1,
        (as.foldl (fun total a =>
          (total.1 + count (go total.2 a).1, (go total.2 a).2)) (0, s)).2) := by
  induction as generalizing n s with
  | nil => rfl
  | cons a rest ih =>
    rw [List.foldl_cons, List.foldl_cons, ih, ih (0 + _), ← Nat.add_assoc, Nat.zero_add]

/-- The first one of a row is counted on top of the others. -/
theorem foldl_total_cons {α β : Type} (count : β → Nat) (go : Engine → α → β × Engine) (a : α)
    (rest : List α) (s : Engine) :
    (a :: rest).foldl (fun total a => (total.1 + count (go total.2 a).1, (go total.2 a).2)) (0, s) =
      (count (go s a).1 + (rest.foldl (fun total a =>
          (total.1 + count (go total.2 a).1, (go total.2 a).2)) (0, (go s a).2)).1,
        (rest.foldl (fun total a =>
          (total.1 + count (go total.2 a).1, (go total.2 a).2)) (0, (go s a).2)).2) := by
  rw [List.foldl_cons, foldl_total, Nat.zero_add]

theorem transitionEach_cons (go : Engine → JobId → Bool × Engine) (s : Engine) (id : JobId)
    (rest : List JobId) : transitionEach go s (id :: rest) =
      ((go s id).1.toNat + (transitionEach go (go s id).2 rest).1,
        (transitionEach go (go s id).2 rest).2) :=
  foldl_total_cons Bool.toNat go id rest s

/-! ## Jobs that pass to a request -/

/-- A ready job goes to a request that was waiting at its tube. -/
structure PassesOn (s t : Engine) (q : Request) (job x : Job) : Prop where
  asked : q ∈ s.requests
  isOpen : s.isOpen q = true
  queued : ∃ tube ∈ s.tubes, tube.name = job.tube ∧ q.id ∈ tube.waiters
  record : x = job.makeReserved s.now q.client
  outcome : t.outcome? q.id = some (.reserved job.id)

/-- A job that has come back is ready, or it has gone to a request. -/
def Lands (s t : Engine) (job x : Job) : Prop :=
  x = job ∨ ∃ q, PassesOn s t q job x

/-- Some jobs come back to ready. All others stay as they are, but one that was ready already may go
to a request as well. -/
structure BringsBack (comes : Job → Prop) (f : Job → Job) (s t : Engine) : Prop where
  jobs : t.jobs.keys = s.jobs.keys
  back : ∀ job ∈ s.jobs, comes job → ∀ x ∈ t.jobs, x.id = job.id → Lands s t (f job).makeReady x
  others : ∀ job ∈ s.jobs, ¬comes job → ∀ x ∈ t.jobs, x.id = job.id →
    x = job ∨ job.state = .ready ∧ ∃ q, PassesOn s t q job x

/-- A request that is open waits at every tube that it watches. -/
theorem Sound.queued_of_isOpen (hs : Sound none none s) (hq : q ∈ s.requests)
    (hopen : s.isOpen q = true) (hwatch : name ∈ q.tubes) :
    ∃ tube ∈ s.tubes, tube.name = name ∧ q.id ∈ tube.waiters := by
  obtain ⟨tube, ht, hname⟩ := List.mem_map.1 (hs.posted.requests q hq hwatch)
  have hname : tube.name = name := hname
  refine ⟨tube, ht, hname, List.mem_of_mem_filter (p := s.isPending) ?_⟩
  rw [hs.queued.turns tube ht, hname]
  exact mem_turns_iff.2 ⟨q, hq, hopen, hwatch, rfl⟩

/-- What is handed out in a row of stages that hold no job of their own goes to a request. -/
theorem passesOn {safe : Job → Prop} (hs : Sound none none s) (hst : Stages none s t)
    (hspares : Spares safe (fun _ => False) s t) (hj : job ∈ s.jobs) (hid : y.id = job.id)
    (hreserves : y.counts.reserves = job.counts.reserves) (hgoes : y.Goes s.now none x)
    (hx : x ∈ t.jobs) : ∃ q, PassesOn s t q y x := by
  obtain ⟨ht, hcourse⟩ := hst.keeps hs (.refl hs.listed.jobs) fun _ _ => nofun
  obtain ⟨-, c, -, hxy⟩ := hgoes
  have hxid : x.id = y.id := by rw [hxy]; rfl
  obtain ⟨fresh, hfresh, hnew⟩ := hspares.answers
  obtain ⟨fresh', hfresh', hgranted⟩ := hcourse.answers
  obtain rfl : fresh = fresh' := List.append_cancel_left (hfresh.symm.trans hfresh')
  have hanswer : ∃ d ∈ fresh, d.outcome = .reserved x.id := by
    rcases hnew x hx ⟨c, _, by rw [hxy]; rfl⟩ with hold | hanswer | hnever
    · have hsame : x = job := hs.listed.job_ext hold hj (hxid.trans hid)
      have hcount : x.counts.reserves = y.counts.reserves + 1 := by rw [hxy]; rfl
      rw [hsame, hreserves] at hcount
      exact absurd hcount (Nat.ne_of_lt (Nat.lt_succ_self _))
    · exact hanswer
    · exact hnever.elim
  obtain ⟨d, hd, hout⟩ := hanswer
  obtain ⟨q, z, hg, -⟩ := hgranted d hd
  obtain rfl : z = x := ht.listed.job_ext hg.listed hx
    (Outcome.reserved.inj (hg.outcome.symm.trans hout))
  have hq : q ∈ s.requests := hcourse.requests ▸ hg.asked
  have hopen := hg.waited hq
  have hwatch : y.tube ∈ q.tubes := by
    have htube : z.tube = y.tube := by rw [hxy]; rfl
    exact htube ▸ hg.watches
  have hclient : c = q.client := by
    have hstate := hg.state
    rw [hxy] at hstate
    exact (JobState.reserved.inj hstate).1
  refine ⟨q, hq, hopen, hs.queued_of_isOpen hq hopen hwatch, hclient ▸ hxy, ?_⟩
  rw [← hg.answers, ht.tracked.outcome?_of_mem (hfresh ▸ List.mem_append_right _ hd), hout, hxid]

theorem Listed.mem_buried (h : s.Listed) {tube : Tube} (ht : tube ∈ s.tubes) {id : JobId} :
    id ∈ tube.buried ↔
      ∃ job ∈ s.jobs, job.tube = tube.name ∧ job.id = id ∧ job.state = .buried := by
  rw [← Tube.buried_mem_places, h.places tube ht]
  refine exists_congr fun job => and_congr_right fun _ => and_congr_right fun _ => ?_
  cases hst : job.state <;> simp [Job.place?, hst]

/-- The slots of the delayed jobs of a tube, by the instants that they wait for and then by number.
-/
structure InDueOrder (s : Engine) (name : TubeName) (slots : Agenda) : Prop where
  sorted : Agenda.Sorted slots
  mem : ∀ slot, slot ∈ slots ↔ ∃ job ∈ s.jobs, job.tube = name ∧ job.id = slot.job ∧
    job.state = .delayed slot.rank

theorem Listed.inDueOrder (h : s.Listed) {tube : Tube} (ht : tube ∈ s.tubes) :
    InDueOrder s tube.name tube.delayed :=
  ⟨(h.ordered tube ht).delayed, fun _ => h.mem_delayed ht⟩

/-- No job is listed twice on an agenda that goes by the states of the jobs. -/
theorem Listed.nodup_agenda (h : s.Listed) {agenda : Agenda} (hsorted : Agenda.Sorted agenda)
    (hlists : ∀ slot ∈ agenda, ∃ job ∈ s.jobs, job.id = slot.job ∧
      job.state.due? = some slot.rank) : (agenda.map (·.job)).Nodup := by
  refine hsorted.nodup.map_on fun a ha b hb hab => ?_
  obtain ⟨x, hx, hxid, hxdue⟩ := hlists a ha
  obtain ⟨y, hy, hyid, hydue⟩ := hlists b hb
  obtain rfl := h.job_ext hx hy (hxid.trans (hab.trans hyid.symm))
  have hrank : a.rank = b.rank := Option.some.inj (hxdue.symm.trans hydue)
  cases a
  cases b
  exact congrArg₂ Slot.mk hrank hab

theorem Listed.nodup_delayed (h : s.Listed) {tube : Tube} (ht : tube ∈ s.tubes) :
    (tube.delayed.map (·.job)).Nodup := by
  refine h.nodup_agenda (h.ordered tube ht).delayed fun slot hslot => ?_
  obtain ⟨job, hj, -, hid, hst⟩ := (h.mem_delayed ht).1 hslot
  exact ⟨job, hj, hid, by rw [hst]; rfl⟩

theorem Listed.nodup_held (h : s.Listed) {client : Client} (hc : client ∈ s.clients) :
    (client.held.map (·.job)).Nodup := by
  refine h.nodup_agenda (h.heldOrdered client hc) fun slot hslot => ?_
  obtain ⟨job, hj, hid, hst⟩ := (h.held client hc slot).1 hslot
  exact ⟨job, hj, hid, by rw [hst]; rfl⟩

/-- A list without duplicates of the jobs that pass a test counts them. -/
theorem Listed.length_eq_countP (h : s.Listed) {p : Job → Bool} (hn : ids.Nodup)
    (hids : ∀ id, id ∈ ids ↔ ∃ job ∈ s.jobs, job.id = id ∧ p job = true) :
    ids.length = s.jobs.countP p := by
  have hkeys : ((s.jobs.filter p).map (·.id)).Nodup :=
    h.jobs.nodup.sublist (List.filter_sublist.map _)
  have hperm := (List.perm_ext_iff_of_nodup hn hkeys).2 fun id => by
    rw [hids, List.mem_map]
    simp only [List.mem_filter]
    exact exists_congr fun job => by tauto
  rw [hperm.length_eq, List.length_map, List.countP_eq_length_filter]

/-! ## The row -/

theorem Evolves.mono {treats treats' : Job → Job → Prop} {who : Option ClientId}
    (h : Evolves treats who s₀ s) (himp : ∀ job y, treats job y → treats' job y) :
    Evolves treats' who s₀ s := by
  refine { h with jobs := fun x hx => ?_ }
  obtain ⟨job, hj, y, ht, hgoes⟩ := h.jobs x hx
  exact ⟨job, hj, y, himp job y ht, hgoes⟩

/-- A sound state on the way of an event that brings a row of jobs back to ready. Those that have
had their turn are `done`, and all were open to the transition at the start. -/
structure Returning (isOpenTo : Job → Bool) (f : Job → Job) (done : List JobId) (s₀ s : Engine) :
    Prop where
  start : Sound none none s₀
  sound : Sound none none s
  evolves : Evolves (fun job y => y = job.returned f done) none s₀ s
  posts : SamePosts s₀ s
  nodup : done.Nodup
  opened : ∀ id ∈ done, ∃ job ∈ s₀.jobs, job.id = id ∧ isOpenTo job = true

namespace Returning

theorem refl (hs : Sound none none s) : Returning isOpenTo f [] s s :=
  ⟨hs, hs, .refl s fun _ _ => (Job.returned_of_not_mem List.not_mem_nil).symm, .refl s,
    List.nodup_nil, List.forall_mem_nil _⟩

/-- A job that had its turn was open to the transition. -/
theorem open_of_mem (h : Returning isOpenTo f done s₀ s) (hj : job ∈ s₀.jobs)
    (hmem : job.id ∈ done) : isOpenTo job = true := by
  obtain ⟨other, hother, hid, hopen⟩ := h.opened job.id hmem
  exact h.start.listed.job_ext hother hj hid ▸ hopen

section Row

variable (hr : ∀ job, isOpenTo job = true → Return s₀.now none job f)

include hr

theorem id_returned (h : Returning isOpenTo f done s₀ s) (hj : job ∈ s₀.jobs) :
    (job.returned f done).id = job.id := by
  unfold Job.returned
  split
  · next hmem => exact (hr job (h.open_of_mem hj hmem)).alike.id
  · rfl

/-- The record of a job is that of before, treated and then perhaps handed out. -/
theorem evolved (h : Returning isOpenTo f done s₀ s) (hx : x ∈ s.jobs) : ∃ job ∈ s₀.jobs,
    x.id = job.id ∧ (x = job.returned f done ∨ (job.returned f done).Goes s₀.now none x) := by
  obtain ⟨job, hj, y, rfl, hgoes⟩ := h.evolves.jobs x hx
  exact ⟨job, hj, (Job.frame_of_goes hgoes).1.trans (h.id_returned hr hj), hgoes⟩

/-- A job that is neither ready nor has just been handed out is as it was, and has not had its turn.
-/
theorem mem_jobs_iff (h : Returning isOpenTo f done s₀ s) (hready : x.state ≠ .ready)
    (hheld : ∀ c, x.state ≠ .reserved c (s₀.now + x.ttr)) :
    x ∈ s.jobs ↔ x ∈ s₀.jobs ∧ x.id ∉ done := by
  constructor
  · intro hx
    obtain ⟨job, hj, hid, rfl | ⟨-, c, -, rfl⟩⟩ := h.evolved hr hx
    · by_cases hmem : job.id ∈ done
      · rw [Job.returned_of_mem hmem] at hready
        exact absurd rfl hready
      · rw [Job.returned_of_not_mem hmem] at hid ⊢
        exact ⟨hj, hmem⟩
    · exact absurd rfl (hheld c)
  · rintro ⟨hx, hnot⟩
    have hkey : x.id ∈ s.jobs.keys := h.evolves.keys ▸ List.mem_map_of_mem (f := Keyed.key) hx
    obtain ⟨later, hlater, hsame⟩ := List.mem_map.1 hkey
    obtain ⟨job, hj, hid, hgoes⟩ := h.evolved hr hlater
    obtain rfl := h.start.listed.job_ext hj hx (hid.symm.trans hsame)
    rw [Job.returned_of_not_mem hnot] at hgoes
    exact Job.eq_of_goes hgoes hready ▸ hlater

/-- A job that is still to have its turn is found as it was. -/
theorem job? (h : Returning isOpenTo f done s₀ s) (hj : job ∈ s₀.jobs) (hopen : isOpenTo job = true)
    (hnot : job.id ∉ done) : s.job? job.id = some job := by
  have hreturn := hr job hopen
  have hset := hreturn.not_fresh (h.start.settled job hj)
  exact (job?_eq_some_iff h.sound.listed.jobs).2
    ⟨(h.mem_jobs_iff hr hreturn.not_ready hset).2 ⟨hj, hnot⟩, rfl⟩

/-- One more job comes back, and the requests that wait at its tube have their turn. -/
theorem back (h : Returning isOpenTo f done s₀ s) (hj : job ∈ s₀.jobs)
    (hopen : isOpenTo job = true) (hnot : job.id ∉ done) :
    Returning isOpenTo f (done ++ [job.id]) s₀ (s.enterReady job f) := by
  have hreturn := hr job hopen
  have hfound := h.job? hr hj hopen hnot
  have hmoved : Evolves (fun old y => y = old.returned f (done ++ [job.id])) none s₀
      (s.move job.id fun job => (f job).makeReady) := by
    have hany : Evolves (fun _ _ => True) none s₀ s := h.evolves.mono fun _ _ _ => trivial
    have hmove := hany.move (f := fun job => (f job).makeReady) hfound hreturn.alike.tube
      hreturn.alike.id ⟨job, hj, trivial⟩
    refine { hmove with jobs := fun x hx => ?_ }
    rcases of_mem_jobs_move (f := fun job => (f job).makeReady) hfound hreturn.alike.tube hx with
      rfl | ⟨hx, hne⟩
    · have hmem : job.id ∈ done ++ [job.id] := List.mem_append_right _ List.mem_cons_self
      exact ⟨job, hj, _, (Job.returned_of_mem hmem).symm, Or.inl rfl⟩
    · obtain ⟨old, hold, hid, hgoes⟩ := h.evolved hr hx
      have hsame : old.returned f (done ++ [job.id]) = old.returned f done := by
        simp [Job.returned, hid ▸ hne]
      exact ⟨old, hold, _, hsame.symm, hgoes⟩
  obtain ⟨hsound, hevolves⟩ := hmoved.drain (h.sound.comeBack hfound (h.evolves.now ▸ hreturn))
    fun _ _ => Option.some_ne_none _
  refine ⟨h.start, hsound, hevolves, h.posts.trans (.enterReady s job f), ?_, fun id hid => ?_⟩
  · exact List.nodup_append_comm.mp (by simp [hnot, h.nodup])
  · rcases List.mem_append.1 hid with hid | hid
    · exact h.opened id hid
    · exact ⟨job, hj, (List.mem_singleton.1 hid).symm, hopen⟩

variable {go : Engine → JobId → Bool × Engine}
  (hgo : ∀ s id, s.now = s₀.now → go s id = s.transition id isOpenTo fun job => s.enterReady job f)

include hgo

/-- A job that is still to have its turn is not refused. -/
theorem step (h : Returning isOpenTo f done s₀ s) (hj : job ∈ s₀.jobs)
    (hopen : isOpenTo job = true) (hnot : job.id ∉ done) :
    go s job.id = (true, s.enterReady job f) := by
  simp [hgo s job.id h.evolves.now, transition, h.job? hr hj hopen hnot, hopen]

/-- A row of transitions of jobs that are still to have their turn. -/
theorem row (h : Returning isOpenTo f done s₀ s) (hids : ids.Nodup)
    (hopen : ∀ id ∈ ids, id ∉ done ∧ ∃ job ∈ s₀.jobs, job.id = id ∧ isOpenTo job = true) :
    (transitionEach go s ids).1 = ids.length ∧
      Returning isOpenTo f (done ++ ids) s₀ (transitionEach go s ids).2 := by
  induction ids generalizing done s with
  | nil => exact ⟨rfl, (List.append_nil done).symm ▸ h⟩
  | cons id rest ih =>
    obtain ⟨hnot, job, hj, rfl, hjob⟩ := hopen id List.mem_cons_self
    obtain ⟨hfirst, hrest⟩ := List.nodup_cons.1 hids
    have hstep := h.step hr hgo hj hjob hnot
    have hback := h.back hr hj hjob hnot
    obtain ⟨hcount, hreturning⟩ := ih hback hrest fun other hother => by
      obtain ⟨hfree, hopens⟩ := hopen other (List.mem_cons_of_mem _ hother)
      refine ⟨fun hmem => ?_, hopens⟩
      rcases List.mem_append.1 hmem with hmem | hmem
      · exact hfree hmem
      · exact hfirst (List.mem_singleton.1 hmem ▸ hother)
    rw [transitionEach_cons, hstep, List.length_cons]
    rw [List.append_assoc, List.singleton_append] at hreturning
    exact ⟨by rw [hcount, Bool.toNat_true, Nat.add_comm], hreturning⟩

end Row

theorem resume (h : Returning isOpenTo f done s₀ s) (name : TubeName) :
    Returning isOpenTo f done s₀ (s.resume name) := by
  unfold Engine.resume
  split
  · have hcut : Evolves (fun job y => y = job.returned f done) none s₀
        (s.adjustTube name ({ · with pausedUntil := none })) := h.evolves.aside (.adjustTube _ _ _)
    obtain ⟨hsound, hevolves⟩ := hcut.drain (h.sound.unpause name) fun _ _ => Option.some_ne_none _
    have hposts := h.posts.trans (.resume s name h.sound.listed.tubes)
    rw [Engine.resume, if_pos ‹_›] at hposts
    exact { h with sound := hsound, evolves := hevolves, posts := hposts }
  · exact h

theorem dropIdle (h : Returning isOpenTo f done s₀ s) (c : ClientId) :
    Returning isOpenTo f done s₀ (s.dropIdle c) := by
  unfold Engine.dropIdle
  split
  · exact { h with
      sound := h.sound.of_eq rfl rfl rfl rfl rfl
      evolves := h.evolves.of_fewer rfl rfl fun _ => id
      posts := h.posts.trans (.of_eq rfl rfl rfl) }
  · exact h

/-- What has become of the jobs at the end of the row. -/
theorem bringsBack {safe comes : Job → Prop} (h : Returning isOpenTo f done s t)
    (hr : ∀ job, isOpenTo job = true → Return s.now none job f) (hst : Stages none s t)
    (hspares : Spares safe (fun _ => False) s t)
    (hcomes : ∀ job ∈ s.jobs, comes job ↔ job.id ∈ done) : BringsBack comes f s t := by
  have hjob {job x : Job} (hx : x ∈ t.jobs) (hj : job ∈ s.jobs) (hid : x.id = job.id) :
      x = job.returned f done ∨ (job.returned f done).state = .ready ∧
        ∃ q, PassesOn s t q (job.returned f done) x := by
    obtain ⟨old, hold, hsame, hgoes⟩ := h.evolved hr hx
    obtain rfl := h.start.listed.job_ext hold hj (hsame.symm.trans hid)
    refine hgoes.imp_right fun hgoes => ⟨hgoes.1, ?_⟩
    refine passesOn h.start hst hspares hj (h.id_returned hr hj) ?_ hgoes hx
    by_cases hmem : old.id ∈ done
    · rw [Job.returned_of_mem hmem]
      exact (hr old (h.open_of_mem hj hmem)).reserves
    · rw [Job.returned_of_not_mem hmem]
  refine ⟨h.evolves.keys, fun job hj hc x hx hid => ?_, fun job hj hc x hx hid => ?_⟩
  · have hback := hjob hx hj hid
    rw [Job.returned_of_mem ((hcomes job hj).1 hc)] at hback
    exact hback.imp_right And.right
  · have hkept := hjob hx hj hid
    rwa [Job.returned_of_not_mem fun hmem => hc ((hcomes job hj).2 hmem)] at hkept

/-! ### The lists -/

/-- The tube of a name is there all the way. -/
theorem tube?_eq_some (h : Returning isOpenTo f done s₀ s) {tube : Tube} (ht : tube ∈ s₀.tubes) :
    ∃ later ∈ s.tubes, later.name = tube.name ∧ s.tube? tube.name = some later := by
  have hkey : tube.name ∈ s.tubes.keys := h.posts.keys ▸ List.mem_map_of_mem (f := Keyed.key) ht
  obtain ⟨later, hlater, hname⟩ := List.mem_map.1 hkey
  exact ⟨later, hlater, hname, (tube?_eq_some_iff h.sound.listed.tubes).2 ⟨hlater, hname⟩⟩

section Lists

variable (hr : ∀ job, isOpenTo job = true → Return s₀.now none job f) {tube later : Tube}

include hr

/-- The delayed jobs of a tube stay in their order, without those that came back. -/
theorem delayed (h : Returning isOpenTo f done s₀ s) (ht : tube ∈ s₀.tubes) (hl : later ∈ s.tubes)
    (hname : later.name = tube.name) :
    later.delayed = tube.delayed.filter fun slot => slot.job ∉ done := by
  refine (h.sound.listed.ordered later hl).delayed.ext
    ((h.start.listed.ordered tube ht).delayed.filter _) fun slot => ?_
  rw [List.mem_filter, h.sound.listed.mem_delayed hl, h.start.listed.mem_delayed ht,
    decide_eq_true_eq, hname]
  constructor
  · rintro ⟨x, hx, htube, hid, hst⟩
    obtain ⟨hold, hnot⟩ := (h.mem_jobs_iff hr (hst ▸ nofun) (hst ▸ nofun)).1 hx
    exact ⟨⟨x, hold, htube, hid, hst⟩, hid ▸ hnot⟩
  · rintro ⟨⟨x, hold, htube, hid, hst⟩, hnot⟩
    exact ⟨x, (h.mem_jobs_iff hr (hst ▸ nofun) (hst ▸ nofun)).2 ⟨hold, hid ▸ hnot⟩, htube, hid, hst⟩

/-- The buried jobs of a tube are those of before, without those that came back. -/
theorem buried (h : Returning isOpenTo f done s₀ s) (ht : tube ∈ s₀.tubes) (hl : later ∈ s.tubes)
    (hname : later.name = tube.name) (hsub : later.buried.Sublist tube.buried) :
    later.buried = tube.buried.filter (· ∉ done) := by
  have hmem (id : JobId) : id ∈ later.buried ↔ id ∈ tube.buried ∧ id ∉ done := by
    rw [h.sound.listed.mem_buried hl, h.start.listed.mem_buried ht, hname]
    constructor
    · rintro ⟨x, hx, htube, rfl, hst⟩
      obtain ⟨hold, hnot⟩ := (h.mem_jobs_iff hr (hst ▸ nofun) (hst ▸ nofun)).1 hx
      exact ⟨⟨x, hold, htube, rfl, hst⟩, hnot⟩
    · rintro ⟨⟨x, hold, htube, rfl, hst⟩, hnot⟩
      exact ⟨x, (h.mem_jobs_iff hr (hst ▸ nofun) (hst ▸ nofun)).2 ⟨hold, hnot⟩, htube, rfl, hst⟩
  have hkept : later.buried.filter (· ∉ done) = later.buried :=
    List.filter_eq_self.2 fun id hid => decide_eq_true ((hmem id).1 hid).2
  refine eq_of_sublist_of_subset (hkept ▸ hsub.filter (· ∉ done))
    ((h.start.listed.ordered tube ht).buried.filter _) fun id hid => ?_
  obtain ⟨hid, hnot⟩ := List.mem_filter.1 hid
  exact (hmem id).2 ⟨hid, of_decide_eq_true hnot⟩

end Lists

end Returning

end Engine

end WorkQueue

import WorkQueue.Proofs.Passage
import WorkQueue.Proofs.Refusals

/-!
# Every moment of an engine

The calls on an engine are made of changes, and there are moments between two of them at which a
tube is drained. `Engine.Change` has the least of these changes, by whichever client : one that is
closed may still watch tubes and ask for jobs, so that requests of closed clients are pending, and a
queue may have requests that were answered elsewhere. `Engine.Reachable` holds of all states that
changes in a row lead to, so the engine of every broker is one of them (`Broker.Reachable.engine`).

What a drain relies on holds at every moment (`Reachable.stocked`) : whatever is on the ready list
of a tube is a ready job of that tube, and no queue has a request twice.
-/

namespace WorkQueue

open Relation

/-- The ready list stays in order when a job is listed or taken off its list. -/
theorem Agenda.Sorted.enlist {tube : Tube} (h : Agenda.Sorted tube.ready) (job : Job) :
    Agenda.Sorted (tube.enlist job).ready := by
  unfold Tube.enlist
  split <;> first | exact h.insert _ | exact h

theorem Agenda.Sorted.withdraw {tube : Tube} (h : Agenda.Sorted tube.ready) (job : Job) :
    Agenda.Sorted (tube.withdraw job).ready := by
  unfold Tube.withdraw
  split <;> first | exact h.remove _ | exact h

namespace Engine

variable {s t : Engine} {name : TubeName}

/-- The requests that wait at a tube. -/
def waitersAt (s : Engine) (name : TubeName) : List RequestId :=
  ((s.tube? name).map (·.waiters)).getD []

/-- The least changes that calls on an engine are made of. -/
inductive Change (s : Engine) : Engine → Prop
  | create (name : TubeName) (pri : Nat) (delay ttr : Millis) (body : Bytes) :
    Change s (s.create name pri delay ttr body)
  | move (id : JobId) {f : Job → Job} (hf : ∀ job, (f job).id = job.id ∧ (f job).tube = job.tube) :
    Change s (s.move id f)
  | takeOff (name : TubeName) : Change s (s.takeOff name).2
  | unregister (id : JobId) : Change s (s.unregister id)
  | ensureTube (name : TubeName) : Change s (s.ensureTube name)
  | adjustTube (name : TubeName) {f : Tube → Tube} (hf : ∀ tube, (f tube).name = tube.name ∧
      (f tube).ready = tube.ready ∧ (f tube).waiters = tube.waiters) :
    Change s (s.adjustTube name f)
  | drain (name : TubeName) : Change s (s.drain name)
  | openClient : Change s s.openClient
  | adjustClient (c : ClientId) {f : Client → Client} (hf : ∀ client, (f client).id = client.id ∧
      (f client).watching.Sublist client.watching) : Change s (s.adjustClient c f)
  | watch (c : ClientId) (name : TubeName) : Change s (s.watch c name)
  | openRequest (q : Request) : Change s (s.openRequest q)
  | grant (q : Request) (id : JobId) : Change s (s.grant q id)
  | reserve (c : ClientId) (timeout : Option Millis) : Change s (s.reserve c timeout)
  | deliver (r : RequestId) (outcome : Outcome) (time : Instant) :
    Change s (s.deliver r outcome time)
  | abandon (r : RequestId) : Change s (s.abandon r)
  | watchDeadlines (c : ClientId) : Change s (s.watchDeadlines c)
  | dropIdle (c : ClientId) : Change s (s.dropIdle c)
  | tick (i : Instant) (requests : List Request) : Change s (s.tick i requests)

/-- The states that changes in a row lead to. -/
inductive Reachable : Engine → Prop
  | start : Reachable {}
  | change {s t : Engine} (h : Reachable s) (hc : Change s t) : Reachable t

/-- The ready lists tell ready jobs, and the queues tell each request once. -/
structure Stocked (s : Engine) : Prop where
  tubes : s.tubes.keys.Nodup
  jobs : s.jobs.Numbered
  clients : s.clients.Numbered
  sorted : ∀ tube ∈ s.tubes, Agenda.Sorted tube.ready
  ready : ∀ tube ∈ s.tubes, ∀ slot ∈ tube.ready,
    ∃ job ∈ s.jobs, job.tube = tube.name ∧ job.place? = some (.ready slot)
  once : ∀ tube ∈ s.tubes, tube.waiters.Nodup
  asked : ∀ tube ∈ s.tubes, ∀ r ∈ tube.waiters, r ≤ s.requests.length
  watching : ∀ client ∈ s.clients, client.watching.Nodup

/-! ## Queues -/

theorem waitersAt_of_tube? {tube : Tube} (h : s.tube? name = some tube) :
    s.waitersAt name = tube.waiters := by
  rw [waitersAt, h]
  rfl

theorem tube?_adjustTube (s : Engine) (other : TubeName) {f : Tube → Tube}
    (hf : ∀ tube, (f tube).name = tube.name) : (s.adjustTube other f).tube? name =
      (s.tube? name).map fun tube => if tube.name = other then f tube else tube := by
  refine Table.lookup_map s.tubes _ (fun tube => ?_) name
  dsimp only [Keyed.key]
  split
  · exact hf tube
  · rfl

theorem waitersAt_adjustTube (s : Engine) (other : TubeName) {f : Tube → Tube}
    (hf : ∀ tube, (f tube).name = tube.name ∧ (f tube).waiters = tube.waiters) :
    (s.adjustTube other f).waitersAt name = s.waitersAt name := by
  rw [waitersAt, tube?_adjustTube s other fun tube => (hf tube).1, Option.map_map, waitersAt]
  congr 2
  funext tube
  dsimp only [Function.comp_apply]
  split
  · exact (hf tube).2
  · rfl

theorem tubes_adjustHolder (s : Engine) (job : Job) (f : Client → Client) :
    (s.adjustHolder job f).tubes = s.tubes := by
  rw [adjustHolder_eq]

theorem waitersAt_move (s : Engine) (id : JobId) (f : Job → Job) :
    (s.move id f).waitersAt name = s.waitersAt name := by
  unfold move
  split
  · next job _ =>
    have henlist (t : Engine) (job : Job) : (t.enlist job).waitersAt name = t.waitersAt name := by
      rw [enlist, waitersAt, tube?, tubes_adjustHolder]
      exact waitersAt_adjustTube t job.tube fun tube =>
        ⟨tube.name_enlist job, (tube.frame_enlist job).1⟩
    rw [henlist, withdraw, adjustJob, waitersAt, tube?, tubes_adjustHolder]
    exact waitersAt_adjustTube s job.tube fun tube =>
      ⟨tube.name_withdraw job, (tube.frame_withdraw job).1⟩
  · rfl

theorem waitersAt_serve (s : Engine) (r : RequestId) (id : JobId) :
    (s.serve r id).waitersAt name = s.waitersAt name := by
  unfold serve
  split
  · next q _ =>
    split
    · unfold grant
      dsimp only
      split
      · rw [watchDeadlines_eq]
        exact waitersAt_move (s.finish q) id _
      · rfl
    · rfl
  · rfl

theorem waitersAt_offer (other : TubeName) (queue : List RequestId) (s : Engine) :
    (offer other queue s).2.waitersAt name = s.waitersAt name := by
  induction queue generalizing s with
  | nil => rfl
  | cons r rest ih =>
    rw [offer]
    split
    · rw [ih, waitersAt_serve]
    · rfl

theorem offer_suffix (name : TubeName) (queue : List RequestId) (s : Engine) :
    (offer name queue s).1 <:+ queue := by
  induction queue generalizing s with
  | nil => exact List.suffix_refl _
  | cons r rest ih =>
    rw [offer]
    split
    · exact (ih _).trans (List.suffix_cons r rest)
    · exact List.suffix_refl _

/-! ## What each change keeps -/

theorem watching_rehold (job job' : Job) (client : Client) :
    (client.rehold job job').watching = client.watching := by
  unfold Client.rehold Client.letGo Client.hold
  dsimp only
  split <;> split <;> rfl

namespace Stocked

theorem start : Stocked {} where
  tubes := List.nodup_singleton _
  jobs := rfl
  clients := rfl
  sorted := List.forall_mem_singleton.2 .nil
  ready := List.forall_mem_singleton.2 (List.forall_mem_nil _)
  once := List.forall_mem_singleton.2 .nil
  asked := List.forall_mem_singleton.2 (List.forall_mem_nil _)
  watching := List.forall_mem_nil _

/-- The tube of a queue. -/
theorem waitersAt_eq (h : s.Stocked) {tube : Tube} (ht : tube ∈ s.tubes) :
    s.waitersAt tube.name = tube.waiters :=
  waitersAt_of_tube? ((tube?_eq_some_iff h.tubes).2 ⟨ht, rfl⟩)

theorem le_of_mem_waitersAt (h : s.Stocked) {r : RequestId} (hr : r ∈ s.waitersAt name) :
    r ≤ s.requests.length := by
  rw [waitersAt] at hr
  cases htube : s.tube? name with
  | none => simp [htube] at hr
  | some tube => exact h.asked tube (Table.mem_of_lookup htube) r (by simpa [htube] using hr)

theorem nodup_waitersAt (h : s.Stocked) (name : TubeName) : (s.waitersAt name).Nodup := by
  rw [waitersAt]
  cases htube : s.tube? name with
  | none => exact List.nodup_nil
  | some tube => exact h.once tube (Table.mem_of_lookup htube)

/-- Changes of the clients and the requests. -/
theorem of_eq (h : s.Stocked) (htubes : t.tubes = s.tubes) (hjobs : t.jobs = s.jobs)
    (hclients : t.clients.Numbered) (hwatching : ∀ client ∈ t.clients, client.watching.Nodup)
    (hrequests : s.requests.length ≤ t.requests.length) : t.Stocked := by
  refine ⟨htubes ▸ h.tubes, hjobs ▸ h.jobs, hclients, htubes ▸ h.sorted, ?_, htubes ▸ h.once, ?_,
    hwatching⟩
  · rw [htubes, hjobs]
    exact h.ready
  · rw [htubes]
    exact fun tube ht r hr => (h.asked tube ht r hr).trans hrequests

theorem adjustClient (h : s.Stocked) (c : ClientId) {f : Client → Client}
    (hf : ∀ client, (f client).id = client.id ∧ (f client).watching.Sublist client.watching) :
    (s.adjustClient c f).Stocked := by
  refine h.of_eq rfl rfl (h.clients.adjust c fun client => (hf client).1) (fun client hc => ?_)
    (Nat.le_refl _)
  rcases Table.mem_adjust.1 hc with ⟨old, hold, -, rfl⟩ | ⟨hc, -⟩
  · exact (h.watching old hold).sublist (hf old).2
  · exact h.watching client hc

theorem adjustTube (h : s.Stocked) {f : Tube → Tube} (hname : ∀ tube, (f tube).name = tube.name)
    (hf : ∀ tube ∈ s.tubes, tube.name = name →
      (f tube).ready.Sublist tube.ready ∧ (f tube).waiters.Sublist tube.waiters) :
    (s.adjustTube name f).Stocked := by
  have hmem {tube' : Tube} (ht' : tube' ∈ (s.adjustTube name f).tubes) : ∃ tube ∈ s.tubes,
      tube'.name = tube.name ∧ tube'.ready.Sublist tube.ready ∧
        tube'.waiters.Sublist tube.waiters := by
    rcases Table.mem_adjust.1 ht' with ⟨tube, ht, hkey, rfl⟩ | ⟨ht, -⟩
    · exact ⟨tube, ht, hname tube, hf tube ht hkey⟩
    · exact ⟨tube', ht, rfl, .refl _, .refl _⟩
  refine ⟨keys_adjustTube s name hname ▸ h.tubes, h.jobs, h.clients, fun tube' ht' => ?_,
    fun tube' ht' slot hslot => ?_, fun tube' ht' => ?_, fun tube' ht' r hr => ?_, h.watching⟩ <;>
    obtain ⟨tube, ht, hsame, hready, hwaiters⟩ := hmem ht'
  · exact (h.sorted tube ht).sublist hready
  · rw [hsame]
    exact h.ready tube ht slot (hready.subset hslot)
  · exact (h.once tube ht).sublist hwaiters
  · exact h.asked tube ht r (hwaiters.subset hr)

/-- More jobs are there, and those that were are where they were. -/
theorem of_jobs (h : s.Stocked) {jobs : Table Job} (hnumbered : jobs.Numbered)
    (hjobs : ∀ job ∈ s.jobs, ∃ kept ∈ jobs, kept.tube = job.tube ∧ kept.place? = job.place?) :
    Stocked { s with jobs } := by
  refine { h with jobs := hnumbered, ready := fun tube ht slot hslot => ?_ }
  obtain ⟨job, hj, htube, hplace⟩ := h.ready tube ht slot hslot
  obtain ⟨kept, hkept, htube', hplace'⟩ := hjobs job hj
  exact ⟨kept, hkept, htube'.trans htube, hplace'.trans hplace⟩

theorem create (h : s.Stocked) (name : TubeName) (pri : Nat) (delay ttr : Millis) (body : Bytes) :
    (s.create name pri delay ttr body).Stocked :=
  h.of_jobs (h.jobs.append rfl) fun job hj => ⟨job, List.mem_append_left _ hj, rfl, rfl⟩

theorem unregister (h : s.Stocked) (id : JobId) : (s.unregister id).Stocked := by
  refine h.of_jobs (h.jobs.adjust id fun _ => rfl) fun job hj => ?_
  by_cases hid : job.id = id
  · exact ⟨_, Table.mem_adjust.2 (Or.inl ⟨job, hj, hid, rfl⟩), rfl, rfl⟩
  · exact ⟨job, Table.mem_adjust.2 (Or.inr ⟨hj, hid⟩), rfl, rfl⟩

/-- What is on a ready list after a job has moved is the job itself, or another that was there. -/
theorem ready_move (h : s.Stocked) {job job' : Job} (hj : job ∈ s.jobs)
    (htube : job'.tube = job.tube) {tube : Tube}
    (ht : tube ∈ s.tubes.adjust job.tube fun tube => (tube.withdraw job).enlist job') {slot : Slot}
    (hslot : slot ∈ tube.ready) : ∃ x ∈ s.jobs.adjust job.id fun _ => job',
      x.tube = tube.name ∧ x.place? = some (.ready slot) := by
  have hother {x : Job} (hx : x ∈ s.jobs) (hne : x ≠ job) :
      x ∈ s.jobs.adjust job.id fun _ => job' :=
    Table.mem_adjust.2 (Or.inr ⟨hx, fun he => hne (Table.eq_of_key_eq h.jobs.nodup hx hj he)⟩)
  rcases Table.mem_adjust.1 ht with ⟨old, hold, hkey, rfl⟩ | ⟨ht, hkey⟩
  · rw [← Tube.ready_mem_places, Tube.mem_places_enlist, Tube.mem_places_withdraw,
      Tube.ready_mem_places] at hslot
    rw [Tube.name_enlist, Tube.name_withdraw]
    rcases hslot with hplace | ⟨hplace, hslot⟩
    · exact ⟨job', Table.mem_adjust.2 (Or.inl ⟨job, hj, rfl, rfl⟩), htube.trans hkey.symm, hplace⟩
    · obtain ⟨x, hx, hin⟩ := h.ready old hold slot hslot
      exact ⟨x, hother hx fun he => hplace (he ▸ hin.2), hin⟩
  · obtain ⟨x, hx, hin⟩ := h.ready tube ht slot hslot
    exact ⟨x, hother hx fun he => hkey (he ▸ hin.1).symm, hin⟩

theorem move (h : s.Stocked) (id : JobId) {f : Job → Job}
    (hf : ∀ job, (f job).id = job.id ∧ (f job).tube = job.tube) : (s.move id f).Stocked := by
  cases hj : s.job? id with
  | none =>
    have hsame : s.move id f = s := by simp only [Engine.move, hj]
    rw [hsame]
    exact h
  | some job =>
    obtain ⟨hmem, rfl⟩ := (job?_eq_some_iff h.jobs).1 hj
    obtain ⟨hid, htube⟩ := hf job
    have hname (tube : Tube) : ((tube.withdraw job).enlist (f job)).name = tube.name := by simp
    have hwaiters (tube : Tube) : ((tube.withdraw job).enlist (f job)).waiters = tube.waiters :=
      (Tube.frame_enlist _ (f job)).1.trans (tube.frame_withdraw job).1
    rw [move_eq hj htube]
    refine ⟨Table.keys_adjust s.tubes _ _ hname ▸ h.tubes, h.jobs.adjust_const hid,
      h.clients.map fun client => (rehold_frame job (f job) client).1, fun tube' ht' => ?_,
      fun tube' ht' slot hslot => h.ready_move hmem htube ht' hslot, fun tube' ht' => ?_,
      fun tube' ht' r hr => ?_, fun client' hc' => ?_⟩
    · rcases Table.mem_adjust.1 ht' with ⟨tube, ht, -, rfl⟩ | ⟨ht, -⟩
      · exact ((h.sorted tube ht).withdraw job).enlist (f job)
      · exact h.sorted tube' ht
    · rcases Table.mem_adjust.1 ht' with ⟨tube, ht, -, rfl⟩ | ⟨ht, -⟩
      · exact hwaiters tube ▸ h.once tube ht
      · exact h.once tube' ht
    · rcases Table.mem_adjust.1 ht' with ⟨tube, ht, -, rfl⟩ | ⟨ht, -⟩
      · exact h.asked tube ht r (hwaiters tube ▸ hr)
      · exact h.asked tube' ht r hr
    · obtain ⟨client, hc, rfl⟩ := List.mem_map.1 hc'
      exact (watching_rehold job (f job) client).symm ▸ h.watching client hc

theorem takeOff (h : s.Stocked) (name : TubeName) : (s.takeOff name).2.Stocked := by
  unfold Engine.takeOff
  split
  · exact h.adjustTube (fun _ => rfl) fun tube _ _ => ⟨List.tail_sublist _, .refl _⟩
  · exact h

theorem watchDeadlines (h : s.Stocked) (c : ClientId) : (s.watchDeadlines c).Stocked := by
  rw [watchDeadlines_eq]
  exact h.of_eq rfl rfl h.clients h.watching (Nat.le_refl _)

theorem deliver (h : s.Stocked) (r : RequestId) (outcome : Outcome) (time : Instant) :
    (s.deliver r outcome time).Stocked :=
  h.of_eq rfl rfl h.clients h.watching (Nat.le_refl _)

theorem finish (h : s.Stocked) (q : Request) : (s.finish q).Stocked :=
  h.adjustClient q.client fun _ => ⟨rfl, .refl _⟩

/-! ## Requests that are served -/

theorem grant (h : s.Stocked) (q : Request) (id : JobId) : (s.grant q id).Stocked := by
  unfold Engine.grant
  dsimp only
  split
  · have hmoved := (h.finish q).move id (f := (·.makeReserved (s.finish q).now q.client))
      fun _ => ⟨rfl, rfl⟩
    exact (hmoved.watchDeadlines q.client).deliver ..
  · exact h.finish q

theorem serve (h : s.Stocked) (r : RequestId) (id : JobId) : (s.serve r id).Stocked := by
  unfold Engine.serve
  split
  · split
    · exact h.grant _ id
    · exact h
  · exact h

theorem offer (h : s.Stocked) (name : TubeName) (queue : List RequestId) :
    (offer name queue s).2.Stocked := by
  induction queue generalizing s with
  | nil => exact h
  | cons r rest ih =>
    rw [Engine.offer]
    split
    · exact ih (h.serve r _)
    · exact h

/-- A queue is cut to its end. -/
theorem cut (h : s.Stocked) {rest : List RequestId} (hrest : rest <:+ s.waitersAt name) :
    (s.adjustTube name fun tube => { tube with waiters := rest }).Stocked := by
  refine h.adjustTube (fun _ => rfl) fun tube ht hname => ⟨.refl _, ?_⟩
  rw [← hname, h.waitersAt_eq ht] at hrest
  exact hrest.sublist

theorem drain (h : s.Stocked) (name : TubeName) : (s.drain name).Stocked := by
  unfold Engine.drain
  split
  · next tube htube =>
    refine (h.offer name tube.waiters).cut ?_
    rw [waitersAt_offer, waitersAt_of_tube? htube]
    exact offer_suffix name tube.waiters s
  · exact h

/-! ## Requests that are made -/

theorem openRequest (h : s.Stocked) (q : Request) : (s.openRequest q).Stocked := by
  have htasks : (s.adjustClient q.client fun client =>
      { client with tasks := client.tasks.start.2 }).Stocked :=
    h.adjustClient q.client fun _ => ⟨rfl, .refl _⟩
  exact htasks.of_eq rfl rfl htasks.clients htasks.watching
    (Nat.le_of_lt (by simp [Engine.openRequest, Engine.adjustClient]))

theorem enqueueWaiter (h : s.Stocked) {r : RequestId} (hr : r ≤ s.requests.length)
    (hnew : r ∉ s.waitersAt name) : (s.enqueueWaiter r name).Stocked := by
  have hmem {tube' : Tube} (ht' : tube' ∈ (s.enqueueWaiter r name).tubes) :
      ∃ tube ∈ s.tubes, tube'.name = tube.name ∧ tube'.ready = tube.ready ∧
        (tube'.waiters = tube.waiters ∨
          r ∉ tube.waiters ∧ tube'.waiters = tube.waiters.filter s.isPending ++ [r]) := by
    rcases Table.mem_adjust.1 ht' with ⟨tube, ht, hkey, rfl⟩ | ⟨ht, -⟩
    · obtain rfl : tube.name = name := hkey
      exact ⟨tube, ht, rfl, rfl, Or.inr ⟨h.waitersAt_eq ht ▸ hnew, rfl⟩⟩
    · exact ⟨tube', ht, rfl, rfl, Or.inl rfl⟩
  have hkeys : (s.enqueueWaiter r name).tubes.keys = s.tubes.keys :=
    keys_adjustTube s name fun _ => rfl
  refine ⟨hkeys ▸ h.tubes, h.jobs, h.clients, fun tube' ht' => ?_,
    fun tube' ht' slot hslot => ?_, fun tube' ht' => ?_, fun tube' ht' p hp => ?_, h.watching⟩ <;>
    obtain ⟨tube, ht, hsame, hready, hwaiters⟩ := hmem ht'
  · exact hready ▸ h.sorted tube ht
  · rw [hsame]
    exact h.ready tube ht slot (hready ▸ hslot)
  · rcases hwaiters with hw | ⟨hout, hw⟩
    · exact hw ▸ h.once tube ht
    · rw [hw]
      exact List.nodup_append_comm.1 (by simp [hout, (h.once tube ht).filter _])
  · rcases hwaiters with hw | ⟨-, hw⟩
    · exact h.asked tube ht p (hw ▸ hp)
    · rw [hw, List.mem_append, List.mem_singleton] at hp
      rcases hp with hp | rfl
      · exact h.asked tube ht p (List.mem_of_mem_filter hp)
      · exact hr

theorem enqueueWaiters (h : s.Stocked) {r : RequestId} (hr : r ≤ s.requests.length)
    {names : List TubeName} (hnodup : names.Nodup) (hnew : ∀ name ∈ names, r ∉ s.waitersAt name) :
    (names.foldl (fun s tube => s.enqueueWaiter r tube) s).Stocked := by
  induction names generalizing s with
  | nil => exact h
  | cons first rest ih =>
    obtain ⟨hfirst, hrest⟩ := List.nodup_cons.1 hnodup
    obtain ⟨hnow, hlater⟩ := List.forall_mem_cons.1 hnew
    refine ih (h.enqueueWaiter hr hnow) hr hrest fun name hname => ?_
    have hne : name ≠ first := fun he => hfirst (he ▸ hname)
    have hsame : (s.enqueueWaiter r first).tube? name = s.tube? name :=
      Table.lookup_adjust_ne s.tubes hne _ fun _ => rfl
    rw [waitersAt, hsame]
    exact hlater name hname

/-- A request that takes no job waits under a new number, once at each tube. -/
theorem reserve (h : s.Stocked) (c : ClientId) (timeout : Option Millis) :
    (s.reserve c timeout).Stocked := by
  unfold Engine.reserve
  split
  · exact h
  · next client hc =>
    have hasked := h.openRequest (client.request s.nextRequest s.now timeout)
    dsimp only
    split
    · next t ht =>
      obtain ⟨name, -, htake⟩ := List.exists_of_findSome?_eq_some ht
      obtain ⟨id, -, rfl⟩ := Option.map_eq_some_iff.1 htake
      split
      · exact hasked.grant _ id
      · exact (hasked.grant _ id).drain name
    · split
      · exact (hasked.finish _).deliver ..
      · refine hasked.enqueueWaiters ?_ (h.watching client (Table.mem_of_lookup hc))
          fun name _ hmem => ?_
        · simp [Engine.openRequest, Client.request, nextRequest]
        · exact Nat.not_succ_le_self _ (h.le_of_mem_waitersAt hmem)

/-! ## Clients, tubes and time -/

theorem ensureTube (h : s.Stocked) (name : TubeName) : (s.ensureTube name).Stocked := by
  unfold Engine.ensureTube
  split
  · exact h
  · next hnew =>
    have hnew : name ∉ s.tubes.keys := by simpa [tube?, Table.lookup_isSome_iff] using hnew
    have hkeys : Table.keys (s.tubes ++ [{ name := name }]) = s.tubes.keys ++ [name] := by
      simp [Table.keys, Keyed.key]
    have hempty {P : Tube → Prop} (hold : ∀ tube ∈ s.tubes, P tube) (hone : P { name := name }) :
        ∀ tube ∈ s.tubes ++ [{ name := name }], P tube :=
      List.forall_mem_append.2 ⟨hold, List.forall_mem_singleton.2 hone⟩
    refine { h with tubes := ?_, sorted := ?_, ready := ?_, once := ?_, asked := ?_ }
    · rw [hkeys]
      exact List.nodup_append_comm.1 (by simp [hnew, h.tubes])
    · exact hempty h.sorted .nil
    · exact hempty h.ready (List.forall_mem_nil _)
    · exact hempty h.once .nil
    · exact hempty h.asked (List.forall_mem_nil _)

theorem addUser (h : s.Stocked) (name : TubeName) : (s.addUser name).Stocked :=
  h.adjustTube (fun _ => rfl) fun _ _ _ => ⟨.refl _, .refl _⟩

theorem addWatcher (h : s.Stocked) (name : TubeName) : (s.addWatcher name).Stocked :=
  h.adjustTube (fun _ => rfl) fun _ _ _ => ⟨.refl _, .refl _⟩

theorem openClient (h : s.Stocked) : s.openClient.Stocked := by
  have htubes : ((s.addUser .default).addWatcher .default).Stocked :=
    (h.addUser .default).addWatcher .default
  exact htubes.of_eq rfl rfl (htubes.clients.append rfl)
    (List.forall_mem_append.2
      ⟨htubes.watching, List.forall_mem_singleton.2 (List.nodup_singleton _)⟩) (Nat.le_refl _)

/-- A tube is watched once. -/
theorem watch (h : s.Stocked) (c : ClientId) (name : TubeName) : (s.watch c name).Stocked := by
  have hmade := h.ensureTube name
  unfold Engine.watch
  dsimp only
  split
  · next client hc =>
    split
    · exact hmade
    · next hnew =>
      have htubes := hmade.addWatcher name
      refine htubes.of_eq rfl rfl (htubes.clients.adjust c fun _ => rfl) (fun other hother => ?_)
        (Nat.le_refl _)
      rcases Table.mem_adjust.1 hother with ⟨old, hold, hkey, rfl⟩ | ⟨hmem, -⟩
      · obtain ⟨hmem, hid⟩ := (client?_eq_some_iff hmade.clients).1 hc
        obtain rfl := Table.eq_of_key_eq hmade.clients.nodup hold hmem (hkey.trans hid.symm)
        exact List.nodup_append_comm.1 (by simpa [htubes.watching old hold] using hnew)
      · exact htubes.watching other hmem
  · exact hmade

theorem abandon (h : s.Stocked) (r : RequestId) : (s.abandon r).Stocked :=
  h.of_eq rfl rfl h.clients h.watching (Nat.le_of_eq (Table.length_adjust s.requests r _).symm)

theorem dropIdle (h : s.Stocked) (c : ClientId) : (s.dropIdle c).Stocked := by
  unfold Engine.dropIdle
  split
  · exact h.of_eq rfl rfl h.clients h.watching (Nat.le_refl _)
  · exact h

theorem fireTimers (h : s.Stocked) (target : Instant) (requests : List Request) :
    (requests.foldl (fireTimer target) s).Stocked := by
  induction requests generalizing s with
  | nil => exact h
  | cons q rest ih =>
    refine ih ?_
    unfold fireTimer
    split
    · split
      · exact (h.finish q).deliver ..
      · exact h
    · exact h

theorem tick (h : s.Stocked) (i : Instant) (requests : List Request) :
    (s.tick i requests).Stocked := by
  have hfired := h.fireTimers i requests
  exact hfired.of_eq rfl rfl hfired.clients hfired.watching (Nat.le_refl _)

/-- What one change keeps. -/
theorem change (h : s.Stocked) (hc : Change s t) : t.Stocked := by
  cases hc with
  | create name pri delay ttr body => exact h.create name pri delay ttr body
  | move id hf => exact h.move id hf
  | takeOff name => exact h.takeOff name
  | unregister id => exact h.unregister id
  | ensureTube name => exact h.ensureTube name
  | adjustTube name hf =>
    exact h.adjustTube (fun tube => (hf tube).1) fun tube _ _ =>
      ⟨(hf tube).2.1 ▸ .refl _, (hf tube).2.2 ▸ .refl _⟩
  | drain name => exact h.drain name
  | openClient => exact h.openClient
  | adjustClient c hf => exact h.adjustClient c hf
  | watch c name => exact h.watch c name
  | openRequest q => exact h.openRequest q
  | grant q id => exact h.grant q id
  | reserve c timeout => exact h.reserve c timeout
  | deliver r outcome time => exact h.deliver r outcome time
  | abandon r => exact h.abandon r
  | watchDeadlines c => exact h.watchDeadlines c
  | dropIdle c => exact h.dropIdle c
  | tick i requests => exact h.tick i requests

end Stocked

/-- What changes in a row keep. -/
theorem Reachable.stocked (h : s.Reachable) : s.Stocked := by
  induction h with
  | start => exact Stocked.start
  | change _ hc ih => exact ih.change hc

/-! ## The engine of a broker -/

namespace Reachable

theorem move (h : s.Reachable) (id : JobId) {f : Job → Job}
    (hf : ∀ job, (f job).id = job.id ∧ (f job).tube = job.tube) : (s.move id f).Reachable :=
  h.change (.move id hf)

theorem adjustTube (h : s.Reachable) (name : TubeName) {f : Tube → Tube}
    (hf : ∀ tube, (f tube).name = tube.name ∧ (f tube).ready = tube.ready ∧
      (f tube).waiters = tube.waiters) : (s.adjustTube name f).Reachable :=
  h.change (.adjustTube name hf)

theorem adjustClient (h : s.Reachable) (c : ClientId) {f : Client → Client}
    (hf : ∀ client, (f client).id = client.id ∧
      (f client).watching.Sublist client.watching) : (s.adjustClient c f).Reachable :=
  h.change (.adjustClient c hf)

theorem enterReady (h : s.Reachable) (job : Job) {f : Job → Job}
    (hf : ∀ job, (f job).id = job.id ∧ (f job).tube = job.tube) : (s.enterReady job f).Reachable :=
  (h.move job.id (f := fun job => (f job).makeReady) hf).change (.drain job.tube)

theorem put (h : s.Reachable) (name : TubeName) (pri : Nat) (delay ttr : Millis) (body : Bytes) :
    (s.put name pri delay ttr body).Reachable := by
  have hmade := (h.change (.create name pri delay ttr body)).adjustTube name
    (f := fun tube => { tube with totalJobs := tube.totalJobs + 1 }) fun _ => ⟨rfl, rfl, rfl⟩
  refine transition_cases (fun _ => hmade) fun job _ hid _ => ?_
  split
  · exact hmade.enterReady job fun _ => ⟨rfl, rfl⟩
  · exact hmade.move _ fun _ => ⟨rfl, rfl⟩

theorem useTube (h : s.Reachable) (c : ClientId) (name : TubeName) :
    (s.useTube c name).Reachable := by
  unfold Engine.useTube
  split
  · refine adjustClient (adjustTube (adjustTube ?_ name ?_) _ ?_) c fun _ => ⟨rfl, .refl _⟩
    · exact h.change (.ensureTube name)
    · exact fun _ => ⟨rfl, rfl, rfl⟩
    · exact fun _ => ⟨rfl, rfl, rfl⟩
  · exact h

theorem ignore (h : s.Reachable) (c : ClientId) (name : TubeName) :
    (s.ignore c name).Reachable := by
  unfold Engine.ignore
  split
  · split
    · refine adjustClient ?_ c fun _ => ⟨rfl, List.filter_sublist⟩
      exact h.adjustTube name fun _ => ⟨rfl, rfl, rfl⟩
    · exact h
  · exact h

theorem resume (h : s.Reachable) (name : TubeName) : (s.resume name).Reachable := by
  unfold Engine.resume
  split
  · refine change ?_ (.drain name)
    exact h.adjustTube name fun _ => ⟨rfl, rfl, rfl⟩
  · exact h

theorem removeWatchers (h : s.Reachable) (names : List TubeName) :
    (names.foldl removeWatcher s).Reachable := by
  induction names generalizing s with
  | nil => exact h
  | cons name rest ih => exact ih (h.adjustTube name fun _ => ⟨rfl, rfl, rfl⟩)

theorem depart (h : s.Reachable) (client : Client) : (s.depart client).Reachable := by
  refine adjustClient (removeWatchers ?_ client.watching) client.id
    fun _ => ⟨rfl, List.nil_sublist _⟩
  exact h.adjustTube client.used fun _ => ⟨rfl, rfl, rfl⟩

theorem discard (h : s.Reachable) (job : Job) : (s.discard job).Reachable := by
  refine adjustTube (change ?_ (.unregister job.id)) job.tube fun _ => ⟨rfl, rfl, rfl⟩
  exact h.move job.id fun _ => ⟨rfl, rfl⟩

/-- A stage is a row of changes. -/
theorem stage {who : Option ClientId} (h : s.Reachable) (hs : Stage who s t) : t.Reachable := by
  cases hs with
  | back hj hf => cases hf <;> exact h.enterReady _ fun _ => ⟨rfl, rfl⟩
  | shift hj hf => cases hf <;> exact h.move _ fun _ => ⟨rfl, rfl⟩
  | put client hc pri delay ttr body => exact h.put client.used pri delay ttr body
  | discard hj hst hw => exact h.discard _
  | resume name => exact h.resume name
  | pause name span => exact h.adjustTube name fun _ => ⟨rfl, rfl, rfl⟩
  | connect => exact h.change .openClient
  | use c name => exact h.useTube c name
  | watch c name => exact h.change (.watch c name)
  | ignore c name => exact h.ignore c name
  | produce c => exact h.adjustClient c fun _ => ⟨rfl, .refl _⟩
  | work c => exact h.adjustClient c fun _ => ⟨rfl, .refl _⟩
  | expect c => exact h.change (.watchDeadlines c)
  | dropIdle c => exact h.change (.dropIdle c)

theorem stages {who : Option ClientId} (h : s.Reachable) (hs : Stages who s t) : t.Reachable := by
  induction hs with
  | refl => exact h
  | tail _ hlast ih => exact ih.stage hlast

theorem passage {asks : Option (ClientId × Option Millis)} (h : s.Reachable)
    (hp : Passage asks s t) : t.Reachable := by
  cases hp with
  | stages hs => exact h.stages hs
  | act hs => exact h.stage hs
  | reserve hasks hc =>
    refine change ?_ (.reserve _ _)
    exact h.adjustClient _ fun _ => ⟨rfl, .refl _⟩
  | advance => exact h.change (.tick _ _)
  | close hc =>
    obtain ⟨client, hclient, -⟩ := Option.any_eq_true _ _ |>.1 hc
    obtain rfl : client.id = _ := Table.key_of_lookup hclient
    rw [close_eq hclient]
    have hfinished := h.adjustClient client.id
      (f := fun client => { client with tasks := client.tasks.finishAll }) fun _ => ⟨rfl, .refl _⟩
    exact (hfinished.stages (stages_giveBackAll client.id)).depart client

end Reachable

end Engine

/-- All states of the engine of a broker are among them. -/
theorem Broker.Reachable.engine {b : Broker} (h : Broker.Reachable b) : b.engine.Reachable := by
  induction h with
  | start config => exact Engine.Reachable.start
  | step event _ ih => exact ih.passage (step_passage _ event)
  | tick _ _ _ _ ih => exact ih.change (.tick _ _)

end WorkQueue

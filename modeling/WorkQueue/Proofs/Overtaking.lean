import WorkQueue.Proofs.Reachable

/-!
# Who is served first

Requests wait at a tube in the order in which they were made, and are served in that order. A new
request does not look at the queue, though, and takes the next job of the first tube that has one.
Between the end of a pause and the sweep that notices it, such a tube may have requests waiting :
then the new one overtakes them (`Engine.Overtaken`). `Broker.Reachable.overtaken_iff` shows that
this is the only way to be overtaken, and `Broker.beforeSweep` is a run that leads up to it.
-/

namespace WorkQueue

namespace Engine

variable {s t : Engine} {client : Client} {timeout : Option Millis}

/-- A request has been answered with a job, and an earlier one that watches the tube of the job and
has its client connected was not answered before. -/
structure Overtakes (t : Engine) (d : Delivery) (q p : Request) (job : Job) : Prop where
  asked : q ∈ t.requests
  answers : d.request = q.id
  outcome : d.outcome = .reserved job.id
  found : t.job? job.id = some job
  askedBefore : p ∈ t.requests
  earlier : p.id < q.id
  watches : job.tube ∈ p.tubes
  connected : t.isConnected p.client = true
  waits : ¬[p.id, q.id].Sublist t.answered

/-- One of the answers that are given between two states overtakes a request. -/
def Overtaken (s t : Engine) : Prop :=
  ∃ fresh, t.deliveries = s.deliveries ++ fresh ∧
    ∃ d ∈ fresh, ∃ q p job, Overtakes t d q p job

/-- The first tube of a client that has a job to hand out has a pause on record that has run out,
and requests that wait. -/
def PassesBy (s : Engine) (client : Client) : Prop :=
  ∃ name, client.watching.find? (fun name => (s.next? name).isSome) = some name ∧
    s.Lapsed name ∧ ∃ p ∈ s.requests, s.isOpen p = true ∧ name ∈ p.tubes

/-! ## Without a new request -/

/-- Requests that were there before are answered in order. -/
theorem Progress.not_overtaken (h : Progress s t) (ht : Sound none none t)
    (hr : t.requests = s.requests) : ¬Overtaken s t := by
  rintro ⟨fresh, hd, d, hmem, q, p, job, ho⟩
  obtain ⟨fresh', hd', hfresh⟩ := h.answers
  obtain rfl : fresh = fresh' := List.append_cancel_left (hd.symm.trans hd')
  obtain ⟨q', ha⟩ := hfresh d hmem
  obtain rfl := ht.tracked.request_ext ho.asked ha.asked (ho.answers.symm.trans ha.answers)
  obtain ⟨job', hjob, hg, hturn⟩ := ha.granted job.id ho.outcome
  have hj := ((job?_eq_some_iff ht.listed.jobs).1 ho.found).1
  obtain rfl := ht.listed.job_ext hg.listed hj hjob
  rcases hturn with hturn | ⟨hnew, -⟩
  · exact ho.waits (hturn p ho.askedBefore ho.watches ho.earlier ho.connected)
  · exact hnew (hr ▸ ho.asked)

/-- Only a reservation makes a request. -/
theorem Passage.requests_or_reserve {asks : Option (ClientId × Option Millis)}
    (h : Passage asks s t) (hs : Sound none none s) : t.requests = s.requests ∨
      ∃ c timeout, asks = some (c, timeout) ∧ s.isConnected c = true ∧
        t = (Broker.markWorker s c).reserve c timeout := by
  cases h with
  | stages hst =>
    have hkeeps := hst.keeps hs (.refl hs.listed.jobs) fun _ _ => nofun
    exact Or.inl hkeeps.2.requests
  | act hst =>
    have hkeeps := hst.keeps hs (.refl hs.listed.jobs) (fun _ h => h.weaken) fun _ _ => nofun
    exact Or.inl hkeeps.2.requests
  | reserve hasks hc => exact Or.inr ⟨_, _, hasks, hc, rfl⟩
  | advance span => exact Or.inl (advance_keeps hs span).2.fewer.requests
  | close hc =>
    obtain ⟨client, rfl, hclient, -⟩ := client?_of_isConnected hc
    obtain ⟨u, -, hcourse, -, heq⟩ := close_course hs hclient
    rw [heq]
    exact Or.inl hcourse.requests

/-! ## A new request -/

theorem not_passesBy (hnone : ∀ name ∈ client.watching, s.next? name = none) :
    ¬PassesBy s client := by
  rintro ⟨name, hfirst, -⟩
  have hsome : (s.next? name).isSome = true := by simpa using List.find?_some hfirst
  rw [hnone name (List.mem_of_find?_eq_some hfirst)] at hsome
  cases hsome

section Asked

variable (hs : Sound none none s) (hc : s.client? client.id = some client)
  (hopen : client.closed = false)

include hs hc hopen

/-- A new request that takes a job overtakes the open requests at its tube. -/
theorem overtaken_grant_iff {job : Job} (hj : s.job? job.id = some job)
    (hw : job.tube ∈ client.watching)
    (m : (s.openRequest (s.newRequest client timeout)).Match job.tube (s.newRequest client timeout)
      job.id) :
    Overtaken s ((s.openRequest (s.newRequest client timeout)).grant
        (s.newRequest client timeout) job.id) ↔
      ∃ p ∈ s.requests, s.isOpen p = true ∧ job.tube ∈ p.tubes := by
  have hcoh := coherent_openRequest hs hc hopen timeout
  have hg := granted_newRequest hs hc hopen hj hw m
  set q := s.newRequest client timeout with hq
  set t := (s.openRequest q).grant q job.id with ht
  have hf := m.fewer hcoh
  have hd : t.deliveries = s.deliveries ++ [⟨q.id, .reserved job.id, s.now⟩] := m.deliveries hcoh
  have hrequests : t.requests = s.requests ++ [q] := hf.requests
  have hconnected (c : ClientId) : t.isConnected c = s.isConnected c :=
    (hf.isConnected c).trans (isConnected_openRequest _ _ _)
  have hjobs := (m.coherent hcoh).listed.jobs
  constructor
  · rintro ⟨fresh, hd', d, hmem, r, p, job', ho⟩
    obtain rfl : fresh = _ := List.append_cancel_left (hd'.symm.trans hd)
    obtain rfl := List.mem_singleton.1 hmem
    have hid : q.id = r.id := ho.answers
    have hearlier : p.id < q.id := hid ▸ ho.earlier
    have hwaits : p.id ∉ s.answered := fun ha => ho.waits (hid ▸ (m.before_iff hcoh).2 ha)
    have hsame : job' = job.makeReserved s.now client.id :=
      (m.coherent hcoh).listed.job_ext ((job?_eq_some_iff hjobs).1 ho.found).1 hg.listed
        (Outcome.reserved.inj ho.outcome).symm
    subst hsame
    have hp := ho.askedBefore
    rw [hrequests] at hp
    rcases List.mem_append.1 hp with hp | hp
    · exact ⟨p, hp, hs.attended p hp nofun (hconnected _ ▸ ho.connected) hwaits, ho.watches⟩
    · rw [List.mem_singleton.1 hp] at hearlier
      exact absurd hearlier (Nat.lt_irrefl _)
  · rintro ⟨p, hp, ho, hwp⟩
    exact ⟨_, hd, _, List.mem_singleton.2 rfl, q, p, job.makeReserved s.now client.id,
      { asked := hg.asked
        answers := rfl
        outcome := rfl
        found := (job?_eq_some_iff hjobs).2 ⟨hg.listed, rfl⟩
        askedBefore := hrequests ▸ List.mem_append_left _ hp
        earlier := Nat.lt_succ_of_le (hs.tracked.numbered.key_le hp)
        watches := hwp
        connected := hconnected _ ▸ hs.tracked.isConnected_of_isOpen ho
        waits := fun hbefore =>
          hs.tracked.unanswered p hp ho ((m.before_iff hcoh).1 hbefore) }⟩

theorem Asked.overtaken_iff_passesBy (h : Asked s (s.newRequest client timeout) t) :
    Overtaken s t ↔ PassesBy s client := by
  cases h with
  | @served name id hfirst m =>
    obtain ⟨job, hj, rfl, rfl, -⟩ :=
      (coherent_openRequest hs hc hopen timeout).listed.ready_of_next? m.next
    rw [overtaken_grant_iff hs hc hopen hj (List.mem_of_find?_eq_some hfirst) m]
    constructor
    · rintro ⟨p, hp, ho, hw⟩
      refine ⟨job.tube, hfirst, ?_, p, hp, ho, hw⟩
      by_contra hlapsed
      rw [not_isOpen_of_next? hs m.next hlapsed hp hw] at ho
      cases ho
    · rintro ⟨name', hfirst', -, hwait⟩
      obtain rfl := Option.some.inj (hfirst.symm.trans hfirst')
      exact hwait
  | refused _ hnone =>
    refine ⟨?_, fun hpasses => absurd hpasses (not_passesBy hnone)⟩
    rintro ⟨fresh, hd, d, hmem, q, p, job, ho⟩
    have hd : s.deliveries ++ [⟨s.nextRequest, .notFound, s.now⟩] = s.deliveries ++ fresh := hd
    rw [← List.append_cancel_left hd] at hmem
    have hout := ho.outcome
    rw [List.mem_singleton.1 hmem] at hout
    cases hout
  | waiting _ hnone =>
    refine ⟨?_, fun hpasses => absurd hpasses (not_passesBy hnone)⟩
    rintro ⟨fresh, hd, d, hmem, -⟩
    rw [waiting_eq hs hc] at hd
    have hd : s.deliveries ++ [] = s.deliveries ++ fresh := (List.append_nil _).trans hd
    rw [← List.append_cancel_left hd] at hmem
    cases hmem

end Asked

/-! ## Reservations -/

/-- To those who wait it makes no difference that the client is marked as a worker. -/
theorem passesBy_markWorker {c : ClientId} {worker : Client}
    (hw : worker.watching = client.watching) :
    PassesBy (Broker.markWorker s c) worker ↔ PassesBy s client := by
  have haside : Aside s (Broker.markWorker s c) := .adjustClient s c fun _ => ⟨rfl, rfl, rfl⟩
  simp only [PassesBy, hw, haside.desk.isOpen]
  rfl

theorem overtaken_reserve_iff (hs : Sound none none s) (hc : s.client? client.id = some client)
    (hopen : client.closed = false) :
    Overtaken s ((Broker.markWorker s client.id).reserve client.id timeout) ↔
      PassesBy s client := by
  obtain ⟨worker, hw, hopen, hworker, hasked⟩ := reserve_passage hc hopen timeout
  exact (hasked.overtaken_iff_passesBy (sound_markWorker hs client.id) hworker hopen).trans
    (passesBy_markWorker hw)

end Engine

namespace Broker

variable {b : Broker}

theorem step_reservation {event : Event} {c : ClientId} {timeout : Option Millis}
    (hasks : event.reservation? = some (c, timeout)) (hc : b.isConnected c = true) :
    (b.step event).engine = (markWorker b.engine c).reserve c timeout := by
  unfold Event.reservation? at hasks
  split at hasks
  · cases hasks
    rw [step, if_pos hc]
    exact congrArg (fun s => (markWorker s _).reserve _ _) (engine_record b _)
  · cases hasks
    rw [step, if_pos hc]
    exact congrArg (fun s => (markWorker s _).reserve _ _) (engine_record b _)
  · cases hasks

/-- A reservation of a connected client that passes by requests that wait. -/
def JumpsQueue (b : Broker) (event : Event) : Prop :=
  ∃ c timeout client, event.reservation? = some (c, timeout) ∧ b.isConnected c = true ∧
    b.engine.client? c = some client ∧ b.engine.PassesBy client

theorem Reachable.jumpsQueue_of_overtaken (h : Reachable b) {event : Event}
    (hover : Engine.Overtaken b.engine (b.step event).engine) : b.JumpsQueue event := by
  rcases (step_passage b event).requests_or_reserve h.sound with hr | ⟨c, timeout, hasks, hc, heq⟩
  · exact absurd hover ((h.progress event).not_overtaken (h.step event).sound hr)
  · obtain ⟨client, rfl, hclient, hopen⟩ := Engine.client?_of_isConnected hc
    rw [heq, Engine.overtaken_reserve_iff h.sound hclient hopen] at hover
    exact ⟨client.id, timeout, client, hasks, hc, hclient, hover⟩

theorem Reachable.overtaken_of_jumpsQueue (h : Reachable b) {event : Event}
    (hjumps : b.JumpsQueue event) : Engine.Overtaken b.engine (b.step event).engine := by
  obtain ⟨c, timeout, client, hasks, hc, hclient, hpasses⟩ := hjumps
  obtain ⟨other, rfl, hother, hopen⟩ := Engine.client?_of_isConnected hc
  cases hclient.symm.trans hother
  rw [step_reservation hasks hc]
  exact (Engine.overtaken_reserve_iff h.sound hclient hopen).2 hpasses

/-- An event lets a request be overtaken just when it is a reservation that jumps the queue. -/
theorem Reachable.overtaken_iff (h : Reachable b) (event : Event) :
    Engine.Overtaken b.engine (b.step event).engine ↔ b.JumpsQueue event :=
  ⟨h.jumpsQueue_of_overtaken, h.overtaken_of_jumpsQueue⟩

/-- A second client waits at a tube that the first one has paused before it put a job there, and the
pause has just run out. -/
def beforeSweep : List Event :=
  [.connect, .connect, .connect, .command 1 (.pauseTube .default 0) none, .command 2 .reserve none,
    .command 1 (.put 0 0 60 1) (some [120]), .advance 1000]

theorem jumpsQueue_beforeSweep :
    JumpsQueue ((start {}).after beforeSweep) (.command 3 .reserve none) :=
  ⟨3, none, _, rfl, rfl, rfl, .default, by decide, ⟨_, rfl, rfl⟩, by decide⟩

theorem overtaken_iff_beforeSweep :
    (Engine.Overtaken ((start {}).after beforeSweep).engine
        (((start {}).after beforeSweep).step (.command 3 .reserve none)).engine ↔
      JumpsQueue ((start {}).after beforeSweep) (.command 3 .reserve none)) ∧
    JumpsQueue ((start {}).after beforeSweep) (.command 3 .reserve none) ∧
    (((start {}).after beforeSweep).step (.command 3 .reserve none)).engine.deliveries =
      [⟨2, .reserved 1, 1000⟩] :=
  ⟨Reachable.overtaken_iff ((Reachable.start {}).after beforeSweep) _, jumpsQueue_beforeSweep,
    by decide⟩

/-- The third client is the next to ask, and is given the job in place of the second. -/
theorem overtaken_beforeSweep : ¬∀ b, Reachable b → ∀ event : Event,
    ¬Engine.Overtaken b.engine (b.step event).engine := fun h =>
  have hreachable := (Reachable.start {}).after beforeSweep
  h _ hreachable (.command 3 .reserve none)
    (hreachable.overtaken_of_jumpsQueue jumpsQueue_beforeSweep)

end Broker

end WorkQueue

import WorkQueue.Proofs.Answers
import WorkQueue.Proofs.Beats
import WorkQueue.Proofs.OpenTasks
import WorkQueue.Proofs.Overtaking

/-!
# Which job a reservation gets

A reservation looks through the tubes that its client watches, in their order, and takes the first
ready job of the first tube that offers one : the job that `peek-ready` shows. The record of the
job, its tube, and its client are all that changes (`Engine.TakenAtOnce`). If no tube offers a job,
a timeout of zero is answered at once and any other request waits (`Broker.Chooses`). Whoever waits
is served later in the same way, with the job that is first at the moment it is served
(`Broker.reservation_choice`).
-/

namespace WorkQueue

namespace Engine

variable {s t : Engine} {client : Client} {timeout : Option Millis} {name : TubeName} {job : Job}

/-- A new request gets a ready job at once, and nothing else changes. -/
structure TakenAtOnce (s t : Engine) (client : Client) (q : Request) (job : Job) : Prop where
  now : t.now = s.now
  taken : ∃ taken, t.job? job.id = some taken ∧
    taken.state = .reserved client.id (s.now + job.ttr) ∧
    taken.counts.reserves = job.counts.reserves + 1
  jobs : t.jobs = s.jobs.adjust job.id fun _ => job.makeReserved s.now client.id
  tubes : t.tubes = s.tubes.adjust job.tube fun tube =>
    { tube with
      ready := tube.ready.remove ⟨job.pri, job.id⟩
      reserved := tube.reserved ++ [job.id] }
  clients : t.clients = s.clients.adjust client.id fun client =>
    { client with
      worker := true
      tasks := { client.tasks with begun := client.tasks.begun + 1 }
      held := client.held.insert ⟨s.now + job.ttr, job.id⟩ }
  expiring : ∀ c, c ∈ t.expiring ↔ c = client.id ∨ c ∈ s.expiring
  requests : t.requests = s.requests ++ [q]
  deliveries : t.deliveries = s.deliveries ++ [⟨q.id, .reserved job.id, s.now⟩]

section Taken

/-- The record that stands in the place of another. -/
theorem job?_of_adjust {job' : Job} (hn : t.jobs.Numbered) (hj : job ∈ s.jobs)
    (hjobs : t.jobs = s.jobs.adjust job.id fun _ => job') (hid : job'.id = job.id) :
    t.job? job.id = some job' := by
  refine (job?_eq_some_iff hn).2 ⟨?_, hid⟩
  rw [hjobs]
  exact Table.mem_adjust.2 (Or.inl ⟨job, hj, rfl, rfl⟩)

theorem withdraw_enlist_taken (tube : Tube) (hst : job.state = .ready) (now : Instant)
    (c : ClientId) : (tube.withdraw job).enlist (job.makeReserved now c) =
      { tube with
        ready := tube.ready.remove ⟨job.pri, job.id⟩
        reserved := tube.reserved ++ [job.id] } := by
  simp [Tube.withdraw, Tube.enlist, Job.makeReserved, Job.slot, hst]

theorem rehold_taken (other : Client) (hst : job.state = .ready) (now : Instant) (c : ClientId) :
    other.rehold job (job.makeReserved now c) =
      if other.id = c then { other with held := other.held.insert ⟨now + job.ttr, job.id⟩ }
      else other := by
  simp [Client.rehold, Job.isHeldBy, Job.holder?, Job.makeReserved, Client.hold, Job.slot, hst,
    eq_comm]

variable (hs : Sound none none s) (hc : s.client? client.id = some client)

include hs hc

/-- What becomes of the clients while one of them makes a request and gets a job at once. -/
theorem clients_taken (hb : s.Backed) (hst : job.state = .ready) (timeout : Option Millis) :
    let q := s.newRequest client timeout
    (((Broker.markWorker s client.id).openRequest q).finish q).clients.map
        (Client.rehold job (job.makeReserved s.now client.id)) =
      s.clients.adjust client.id fun client =>
        { client with
          worker := true
          tasks := { client.tasks with begun := client.tasks.begun + 1 }
          held := client.held.insert ⟨s.now + job.ttr, job.id⟩ } := by
  intro q
  have hq : q.client = client.id ∧ q.task = client.tasks.start.1 := ⟨rfl, rfl⟩
  have htasks := Tasks.finish_start fun task htask => hb.pending_le hs.tracked hc htask
  simp only [finish, openRequest, Broker.markWorker, adjustClient, Table.adjust, List.map_map, hq]
  refine List.map_congr_left fun other hother => ?_
  simp only [Function.comp_apply, rehold_taken _ hst]
  by_cases hid : other.id = client.id
  · obtain rfl : client = other :=
      Option.some.inj (hc.symm.trans ((client?_eq_some_iff hs.listed.clients).2 ⟨hother, hid⟩))
    simp only [Keyed.key, if_true, htasks]
  · simp only [Keyed.key, hid, if_false]

variable (hopen : client.closed = false)

include hopen

/-- A new request that is matched with a ready job takes it, and that is all that changes. -/
theorem takenAtOnce (hb : s.Backed) (hj : job ∈ s.jobs) (hst : job.state = .ready)
    (m : ((Broker.markWorker s client.id).openRequest (s.newRequest client timeout)).Match job.tube
      (s.newRequest client timeout) job.id) :
    TakenAtOnce s (((Broker.markWorker s client.id).openRequest
      (s.newRequest client timeout)).grant (s.newRequest client timeout) job.id) client
      (s.newRequest client timeout) job := by
  set q := s.newRequest client timeout with hq
  set u := (Broker.markWorker s client.id).openRequest q with hu
  have hcoh : u.Coherent := @coherent_openRequest _ { client with worker := true }
    (sound_markWorker hs client.id) (client?_markWorker hc) hopen timeout
  have hjob : (u.finish q).job? job.id = some job :=
    (job?_eq_some_iff hs.listed.jobs).2 ⟨hj, rfl⟩
  have hmove := move_eq (f := (·.makeReserved u.now q.client)) hjob rfl
  obtain ⟨htubes, hjobs, hclients⟩ := m.grant_tables hcoh.tracked
  rw [hmove] at htubes hjobs hclients
  have hjobs : (u.grant q job.id).jobs =
      s.jobs.adjust job.id fun _ => job.makeReserved s.now client.id := hjobs
  have htaken := job?_of_adjust (m.listed hcoh).jobs hj hjobs rfl
  obtain ⟨hnow, hrequests, -⟩ := served_frame u q job.id
  have hgrant := m.grant_eq hcoh.tracked
  exact
    { now := by rw [hgrant]; exact hnow
      taken := ⟨job.makeReserved s.now client.id, htaken, rfl, rfl⟩
      jobs := hjobs
      tubes := by
        simp only [withdraw_enlist_taken _ hst] at htubes
        exact htubes
      clients := hclients.trans (clients_taken hs hc hb hst timeout)
      expiring := fun c => by
        rw [hgrant]
        refine mem_watchDeadlines.trans ?_
        rw [hmove]
        rfl
      requests := by rw [hgrant]; exact hrequests
      deliveries := m.deliveries hcoh }

end Taken

end Engine

namespace Broker

open Engine

variable {b : Broker} {client : Client} {timeout : Option Millis} {name : TubeName} {job : Job}

/-- Whoever uses a tube is shown a job by `peek-ready`. -/
def ShowsReady (b : Broker) (name : TubeName) (job : Job) : Prop :=
  ∀ client body, b.isConnected client.id = true → b.engine.client? client.id = some client →
    client.used = name →
      (b.dispatch client.id .peekReady body).1 = .now (.found job.id job.body)

/-- What a reservation of a client comes to. -/
structure Chooses (b : Broker) (client : Client) (timeout : Option Millis)
    (result : Reply × Broker) : Prop where
  reply : result.1 = .later b.engine.nextRequest
  served : ∀ name, client.watching.find? b.engine.offers = some name →
    ∃ job, b.engine.LeastReady name job ∧ b.ShowsReady name job ∧
      TakenAtOnce b.engine result.2.engine client (b.engine.newRequest client timeout) job ∧
      result.2.response? b.engine.nextRequest = some (.reserved job.id job.body)
  refused : client.watching.find? b.engine.offers = none → timeout = some 0 →
    result.2.engine.deliveries =
      b.engine.deliveries ++ [⟨b.engine.nextRequest, .notFound, b.engine.now⟩] ∧
    result.2.response? b.engine.nextRequest = some (.notice .notFound)
  waits : client.watching.find? b.engine.offers = none → timeout ≠ some 0 →
    result.2.engine.deliveries = b.engine.deliveries ∧
    result.2.response? b.engine.nextRequest = none ∧
    b.engine.newRequest client timeout ∈ result.2.engine.requests ∧
    result.2.engine.isOpen (b.engine.newRequest client timeout) = true

theorem Reachable.showsReady (h : Reachable b) (hleast : b.engine.LeastReady name job) :
    b.ShowsReady name job := by
  intro client body hcon hclient hused
  have hl := h.sound.listed
  obtain ⟨tube, ht, hname⟩ := List.mem_map.1 (hl.homes job hleast.listed)
  obtain rfl : tube.name = name := Eq.trans hname hleast.tube
  have htube : b.engine.tube? tube.name = some tube := (tube?_eq_some_iff hl.tubes).2 ⟨ht, rfl⟩
  have hjob : b.engine.job? job.id = some job :=
    (job?_eq_some_iff hl.jobs).2 ⟨hleast.listed, rfl⟩
  simp only [dispatch, perform, peekTube, usedTube?, engine_record, hclient, hused,
    Option.bind_some, htube, hleast.head? hl ht, Option.map_some, hjob, show?]

theorem find?_offers (s : Engine) (names : List TubeName) :
    names.find? s.offers = names.find? fun name => (s.next? name).isSome := by
  rw [funext (offers_eq s)]

/-- The response that brings the answer on record. -/
theorem response?_of_delivery (h : Reachable b) {r : RequestId} {outcome : Outcome}
    {time : Instant} (hd : ⟨r, outcome, time⟩ ∈ b.engine.deliveries) :
    b.response? r = some (b.outcomeResponse outcome) := by
  rw [response?, h.sound.tracked.outcome?_of_mem hd]
  rfl

theorem reply_reservation {c : ClientId} {command : Command} {body : Option Bytes}
    (hasks : (Event.command c command body).reservation? = some (c, timeout)) :
    (b.dispatch c command body).1 = .later b.engine.nextRequest := by
  have hreserve (verb : Verb) (timeout : Option Millis) :
      ((b.record verb).reserve c timeout).1 = .later b.engine.nextRequest :=
    congrArg (fun s : Engine => Reply.later s.nextRequest) (engine_record b verb)
  cases command with
  | reserve => exact hreserve _ _
  | reserveWithTimeout => exact hreserve _ _
  | _ => cases hasks

section Chooses

variable {b' : Broker} {t : Engine} {reply : Reply} (h : Reachable b) (h' : Reachable b')
  (hc : b.engine.client? client.id = some client) (hopen : client.closed = false)
  (hreply : reply = .later b.engine.nextRequest) (ht : b'.engine = t)

include h' hreply ht

theorem chooses_of_refused (htimeout : timeout = some 0)
    (hnone : client.watching.find? b.engine.offers = none)
    (hanswers : t.deliveries =
      b.engine.deliveries ++ [⟨b.engine.nextRequest, .notFound, b.engine.now⟩]) :
    b.Chooses client timeout (reply, b') := by
  rw [← ht] at hanswers
  refine
    { reply := hreply
      served := fun name hname => nomatch hnone.symm.trans hname
      refused := fun _ _ => ⟨hanswers, ?_⟩
      waits := fun _ hne => absurd htimeout hne }
  have hd : ⟨b.engine.nextRequest, .notFound, b.engine.now⟩ ∈ b'.engine.deliveries :=
    hanswers ▸ List.mem_append_right _ (List.mem_singleton.2 rfl)
  exact response?_of_delivery h' hd

theorem chooses_of_waiting (htimeout : timeout ≠ some 0)
    (hnone : client.watching.find? b.engine.offers = none)
    (hanswers : t.deliveries = b.engine.deliveries)
    (hmem : b.engine.newRequest client timeout ∈ t.requests)
    (hwaits : t.isOpen (b.engine.newRequest client timeout) = true) :
    b.Chooses client timeout (reply, b') := by
  rw [← ht] at hanswers hmem hwaits
  refine
    { reply := hreply
      served := fun name hname => nomatch hnone.symm.trans hname
      refused := fun _ he => absurd he htimeout
      waits := fun _ _ => ⟨hanswers, ?_, hmem, hwaits⟩ }
  have hun := outcome?_eq_none_iff.2 (h'.sound.tracked.unanswered _ hmem hwaits)
  exact congrArg (Option.map b'.outcomeResponse) hun

include h hc hopen

theorem chooses_of_served {id : JobId} (hfirst : client.watching.find? b.engine.offers = some name)
    (hgrant : t = ((markWorker b.engine client.id).openRequest
      (b.engine.newRequest client timeout)).grant (b.engine.newRequest client timeout) id)
    (m : ((markWorker b.engine client.id).openRequest (b.engine.newRequest client timeout)).Match
      name (b.engine.newRequest client timeout) id) :
    b.Chooses client timeout (reply, b') := by
  have hs := h.sound
  have hnext : b.engine.next? name = some id := m.next
  obtain ⟨job, hjob, rfl, hleast⟩ := hs.listed.least_of_next? hnext
  obtain rfl := hleast.tube
  have htaken := takenAtOnce hs hc hopen h.backed hleast.listed hleast.state m
  rw [← hgrant, ← ht] at htaken
  refine
    { reply := hreply
      served := fun name hname => ?_
      refused := fun hnone => nomatch hfirst.symm.trans hnone
      waits := fun hnone => nomatch hfirst.symm.trans hnone }
  obtain rfl := Option.some.inj (hfirst.symm.trans hname)
  refine ⟨job, hleast, h.showsReady hleast, htaken, ?_⟩
  have hd : ⟨b.engine.nextRequest, .reserved job.id, b.engine.now⟩ ∈ b'.engine.deliveries :=
    htaken.deliveries ▸ List.mem_append_right _ (List.mem_singleton.2 rfl)
  have hjob := job?_of_adjust h'.sound.listed.jobs hleast.listed htaken.jobs rfl
  rw [response?_of_delivery h' hd, outcomeResponse, hjob]
  rfl

theorem chooses_of_asked
    (hasked : Asked (markWorker b.engine client.id) (b.engine.newRequest client timeout) t) :
    b.Chooses client timeout (reply, b') := by
  have hfind := find?_offers b.engine client.watching
  have hnone (hnext : ∀ name ∈ client.watching, b.engine.next? name = none) :
      client.watching.find? b.engine.offers = none := by
    refine hfind.trans (List.find?_eq_none.2 fun name hname => ?_)
    simp [hnext name hname]
  cases hasked with
  | served hfirst m =>
    exact chooses_of_served h h' hc hopen hreply ht (hfind.trans hfirst) rfl m
  | refused htimeout hnext =>
    exact chooses_of_refused h' hreply ht htimeout (hnone hnext) rfl
  | waiting htimeout hnext =>
    have hjoin := @waiting_eq (markWorker b.engine client.id) { client with worker := true }
      (sound_markWorker h.sound client.id) (client?_markWorker hc) timeout
    refine chooses_of_waiting h' hreply (ht.trans hjoin) htimeout (hnone hnext) rfl
      (List.mem_append_right _ (List.mem_singleton.2 rfl)) ?_
    exact isOpen_openRequest_self (client?_markWorker hc) b.engine.nextRequest

end Chooses

/-- A reservation takes the first ready job of the first tube that offers one, or is refused, or
waits. And whoever waits is served later with the job that is first at that moment. -/
theorem reservation_choice (h : Reachable b) :
    (∀ client command body timeout,
      (Event.command client.id command body).reservation? = some (client.id, timeout) →
      b.engine.client? client.id = some client → b.isConnected client.id = true →
        b.Chooses client timeout (b.dispatch client.id command body)) ∧
    ∀ event, b.engine.ServesWaiting (b.step event).engine := by
  refine ⟨fun client command body timeout hasks hc hcon => ?_, fun event =>
    (step_passage b event).servesWaiting h.sound⟩
  have hstep : b.step (.command client.id command body) = (b.dispatch client.id command body).2 :=
    if_pos hcon
  have hopen : client.closed = false := by
    have hcon : (b.engine.client? client.id).any (!·.closed) = true := hcon
    simpa [hc] using hcon
  have hasked := @reserve_asked (markWorker b.engine client.id) { client with worker := true }
    (client?_markWorker hc) hopen timeout
  exact chooses_of_asked h (hstep ▸ h.step _) hc hopen (reply_reservation hasks)
    (hstep ▸ step_reservation hasks hcon) hasked

/-- The second of two jobs has the smaller priority. -/
def twoJobs : List Event :=
  [.connect, .command 1 (.put 5 0 60 1) (some [120]), .command 1 (.put 3 0 60 1) (some [121])]

/-- The client takes both jobs, and then it waits. -/
def takesBoth : List Event :=
  [.command 1 (.reserveWithTimeout 0) none, .command 1 .reserve none, .command 1 .reserve none]

theorem reservation_choice_twoJobs :
    let b := (start {}).after twoJobs
    let idle := b.after takesBoth
    (∃ client, b.engine.client? client.id = some client ∧
      client.watching.find? b.engine.offers = some .default ∧
      b.Chooses client (some 0) (b.dispatch client.id (.reserveWithTimeout 0) none)) ∧
    (∃ client, idle.engine.client? client.id = some client ∧
      client.watching.find? idle.engine.offers = none ∧
      idle.Chooses client (some 0) (idle.dispatch client.id (.reserveWithTimeout 0) none)) ∧
    idle.engine.ServesWaiting (idle.step (.command 1 (.put 9 0 60 1) (some [122]))).engine ∧
    (idle.step (.command 1 (.put 9 0 60 1) (some [122]))).engine.deliveries =
      [⟨1, .reserved 2, 0⟩, ⟨2, .reserved 1, 0⟩, ⟨3, .reserved 3, 0⟩] :=
  have h := (Reachable.start {}).after twoJobs
  have hidle := h.after takesBoth
  ⟨⟨(((start {}).after twoJobs).engine.client? 1).get rfl, rfl, by decide,
      (reservation_choice h).1 _ _ _ _ rfl rfl (by decide)⟩,
    ⟨((((start {}).after twoJobs).after takesBoth).engine.client? 1).get rfl, rfl, by decide,
      (reservation_choice hidle).1 _ _ _ _ rfl rfl (by decide)⟩,
    (reservation_choice hidle).2 _, by decide⟩

end Broker

end WorkQueue

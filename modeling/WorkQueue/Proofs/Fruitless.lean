import WorkQueue.Proofs.Answers
import WorkQueue.Proofs.History
import WorkQueue.Proofs.Mirror
import WorkQueue.Proofs.OpenTasks

/-!
# Commands that come to nothing

A command that only looks, or whose answer is `NOT_FOUND` or `NOT_IGNORED`, changes nothing but the
count of its verb (`Broker.Untouched`). The one exception is a request that does not wait and is
refused : its client is a worker from then on and has begun one more task, and the request and its
answer are on record (`Engine.Refuses`).
-/

namespace WorkQueue

/-- The commands that look at something. -/
def Command.isReading : Command → Bool
  | peek _ | peekReady | peekDelayed | peekBuried | statsJob _ | statsTube _ | stats | listTubes
  | listTubeUsed | listTubesWatched => true
  | _ => false

/-- The answers of a command that has come to nothing. -/
def Response.isFailure : Response → Bool
  | notice .notFound | notice .notIgnored => true
  | _ => false

/-- A client whose request has been refused at once. -/
def Client.turnedDown (client : Client) : Client :=
  { client with
    worker := true
    tasks := { client.tasks with begun := client.tasks.begun + 1 } }

/-- A request that does not wait has no timer : a deadline would leave it some time. -/
theorem timerFor_zero (now : Instant) (deadline : Option Instant) :
    timerFor now deadline 0 = none := by
  have hsoon : (deadline.map (deadlineWait now)).filter (· ≤ 0) = none := by
    refine Option.filter_eq_none_iff.2 fun wait hwait hle => ?_
    obtain ⟨due, -, rfl⟩ := Option.map_eq_some_iff.1 hwait
    have hpos : minDeadlineWait ≤ deadlineWait now due := Nat.le_max_left _ _
    exact absurd (Nat.le_trans hpos (of_decide_eq_true hle)) (Nat.not_succ_le_zero 0)
  simp only [timerFor, hsoon, if_true]

namespace Engine

variable {s t : Engine} {c : ClientId} {client : Client}

/-- A client's request has been refused at once. -/
structure Refuses (s t : Engine) (c : ClientId) : Prop where
  now : t.now = s.now
  tubes : t.tubes = s.tubes
  jobs : t.jobs = s.jobs
  clients : t.clients = (s.adjustClient c Client.turnedDown).clients
  expiring : t.expiring = s.expiring
  recorded : ∃ q, q.id = s.nextRequest ∧ q.timer = none ∧ t.requests = s.requests ++ [q] ∧
    t.deliveries = s.deliveries ++ [⟨q.id, .notFound, s.now⟩]
  waiting : t.requests.filter t.isOpen = s.requests.filter s.isOpen

/-! ## Refused at once -/

theorem isOpen_turnedDown (h : t.clients = (s.adjustClient c Client.turnedDown).clients)
    (q : Request) : t.isOpen q = s.isOpen q := by
  have hclients : t.client? q.client = (s.adjustClient c Client.turnedDown).client? q.client :=
    congrArg (Table.lookup · q.client) h
  rw [Engine.isOpen, Engine.isOpen, hclients, client?_adjustClient s c fun _ => by rfl,
    Option.any_map]
  congr 1
  funext client
  split <;> rfl

/-- Once its client is marked, a request that does not wait is recorded and refused. -/
theorem refuses_newRequest (hs : Sound none none s) (hb : s.Backed)
    (hc : s.client? client.id = some client) {q : Request}
    (hq : q = (Broker.markWorker s client.id).newRequest { client with worker := true }
      (some 0)) : Refuses s ((((Broker.markWorker s client.id).openRequest q).finish q).deliver q.id
        .notFound s.now) client.id := by
  set t := (((Broker.markWorker s client.id).openRequest q).finish q).deliver q.id .notFound s.now
  have hmem := ((client?_eq_some_iff hs.listed.clients).1 hc).1
  have hpending : (client.tasks.start.2.finish client.tasks.start.1).2 =
      { client.tasks with begun := client.tasks.begun + 1 } :=
    Tasks.finish_start fun _ hk => hb.pending_le hs.tracked hc hk
  have hclients : t.clients = (s.adjustClient client.id Client.turnedDown).clients := by
    have hclient : q.client = client.id := by rw [hq]; rfl
    have htask : q.task = client.tasks.start.1 := by rw [hq]; rfl
    calc t.clients
        = ((s.clients.adjust client.id fun client => { client with worker := true }).adjust q.client
            fun client => { client with tasks := client.tasks.start.2 }).adjust q.client
            fun client => { client with tasks := (client.tasks.finish q.task).2 } := rfl
      _ = s.clients.adjust client.id fun other =>
            { other with worker := true, tasks := (other.tasks.start.2.finish q.task).2 } := by
          rw [hclient, Table.adjust_adjust, Table.adjust_adjust] <;> exact fun _ h => h
      _ = s.clients.adjust client.id Client.turnedDown := by
          refine (Table.adjust_eq_const hs.listed.clients.nodup hmem _).trans ?_
          rw [htask, hpending]
          exact (Table.adjust_eq_const hs.listed.clients.nodup hmem Client.turnedDown).symm
  have hopen := isOpen_turnedDown hclients
  have hclosed : s.isOpen q = false := (hopen q).symm.trans (not_isOpen_finish_self _ q)
  have htimer : q.timer = none := by
    simp [hq, Client.request, timerFor_zero]
  have hwaiting : (s.requests ++ [q]).filter t.isOpen = s.requests.filter s.isOpen := by
    rw [funext hopen, List.filter_append, List.filter_singleton, hclosed]
    exact List.append_nil _
  exact
    { now := rfl, tubes := rfl, jobs := rfl, expiring := rfl, waiting := hwaiting
      clients := hclients
      recorded := ⟨q, by rw [hq]; rfl, htimer, rfl, rfl⟩ }

end Engine

namespace Broker

open Engine

variable {b : Broker} {c : ClientId} {command : Command} {body : Option Bytes}

/-- The answer that a reply at an instant has brought by now, and when it was given. -/
def answer? (b : Broker) (made : Instant) : Reply → Option (Response × Instant)
  | .now response => some (response, made)
  | .later request =>
    (b.engine.answerTo? request).map fun answer => (b.outcomeResponse answer.1, answer.2)
  | .close => none

/-- The answer to an event once all that comes later has happened. -/
def answerTo? (b : Broker) (event : Event) (later : List Event) : Option (Response × Instant) :=
  match event with
  | .command c command body =>
    if b.isConnected c then
      ((b.step event).after later).answer? b.engine.now (b.dispatch c command body).1
    else none
  | _ => none

/-- Whether an event is a command of a connected client that only looks or comes to nothing. -/
def isFruitless (b : Broker) (event : Event) (later : List Event) : Bool :=
  match event with
  | .command c command _ =>
    b.isConnected c &&
      (command.isReading || (b.answerTo? event later).any fun answer => answer.1.isFailure)
  | _ => false

/-- A command has changed nothing but the count of its verb, or been refused at once. -/
structure Untouched (b b' : Broker) (c : ClientId) (command : Command) : Prop where
  engine : b'.engine = b.engine ∨
    command = .reserveWithTimeout 0 ∧ Refuses b.engine b'.engine c
  others : b' = { b.record command.verb with engine := b'.engine }

/-! ## Answered at once -/

theorem perform_of_isReading (h : command.isReading = true) (body : Option Bytes) :
    (b.perform c command body).2 = b := by
  cases command with
  | peek | peekReady | peekDelayed | peekBuried =>
    simp only [perform, peekTube, show?]
    split <;> rfl
  | statsJob | statsTube | listTubeUsed | listTubesWatched =>
    simp only [perform]
    split <;> rfl
  | stats | listTubes => rfl
  | _ => cases h

theorem onJob_of_refused {id : JobId} {isOpenTo : Job → Bool} {go : Job → Engine}
    {act : Engine → JobId → Bool × Engine}
    (hact : act b.engine id = b.engine.transition id isOpenTo go)
    (h : (b.onJob id act).1 = false) : (b.onJob id act).2 = b.engine := by
  rcases onJob_eq act hact with hrefused | ⟨job, -, -, hdone⟩
  · rw [hrefused]
  · rw [hdone] at h
    cases h

theorem acknowledge_of_isFailure {notice : Notice} {result : Bool × Engine} {response : Response}
    (hnotice : (Response.notice notice).isFailure = false)
    (hreply : (b.acknowledge notice result).1 = .now response) (h : response.isFailure = true)
    (hrefused : result.1 = false → result.2 = b.engine) : (b.acknowledge notice result).2 = b := by
  obtain ⟨done, s⟩ := result
  cases done with
  | true =>
    cases hreply
    rw [show (if (true, s).1 then notice else Notice.notFound) = notice from rfl, hnotice] at h
    cases h
  | false =>
    have hs : s = b.engine := hrefused rfl
    subst hs
    rfl

/-- A command that is answered at once with a failure has done nothing. -/
theorem perform_of_isFailure (hc : b.isConnected c = true) {response : Response}
    (hreply : (b.perform c command body).1 = .now response) (h : response.isFailure = true) :
    (b.perform c command body).2 = b := by
  obtain ⟨client, -, hclient, -⟩ := client?_of_isConnected hc
  cases command with
  | put pri delay ttr size =>
    cases body with
    | none => cases hreply; cases h
    | some body =>
      simp only [perform, put, hclient] at hreply
      cases hreply
      cases h
  | reserve | reserveWithTimeout | quit => cases hreply
  | reserveJob id =>
    rcases reserveJob_hands hc id body with hrefused | ⟨⟨bytes, hreserved⟩, -⟩
    · rw [hrefused]
    · cases hreserved.symm.trans hreply
      cases h
  | release id pri delay =>
    exact acknowledge_of_isFailure rfl hreply h (onJob_of_refused rfl)
  | bury id pri => exact acknowledge_of_isFailure rfl hreply h (onJob_of_refused rfl)
  | touch id => exact acknowledge_of_isFailure rfl hreply h (onJob_of_refused rfl)
  | kickJob id => exact acknowledge_of_isFailure rfl hreply h (onJob_of_refused rfl)
  | delete id =>
    have hact : b.engine.delete c id.toNat = b.engine.transition id.toNat
        (fun job => job.state ≠ .deleted && job.holder?.all (· = c))
        fun _ => b.engine.move id.toNat (·.makeDeleted) := rfl
    rcases onJob_eq (·.delete c) hact with hon | ⟨job, hf, -, hon⟩
    · simp only [perform, delete, hon]
    · simp only [perform, delete, hon, hf] at hreply
      cases hreply
      cases h
  | watch name => cases hreply; cases h
  | useTube name => cases hreply; cases h
  | ignore name =>
    unfold perform ignore at hreply ⊢
    dsimp only at hreply ⊢
    split at hreply
    · rw [if_pos ‹_›]
    · cases hreply
      cases h
  | pauseTube name delay =>
    unfold perform pauseTube at hreply ⊢
    dsimp only at hreply ⊢
    split at hreply
    · cases hreply
      cases h
    · rw [if_neg ‹_›]
  | kick bound =>
    simp only [perform, kick, hclient] at hreply
    cases hreply
    cases h
  | peek | peekReady | peekDelayed | peekBuried | statsJob | statsTube | stats | listTubes
  | listTubeUsed | listTubesWatched => exact perform_of_isReading rfl body

/-! ## Answered by its request -/

/-- A request answers with a failure only if it was refused. -/
theorem notFound_of_isFailure {made : Instant} {r : RequestId} {answer : Response × Instant}
    (hanswer : b.answer? made (.later r) = some answer) (h : answer.1.isFailure = true) :
    ∃ d ∈ b.engine.deliveries, d.request = r ∧ d.outcome = .notFound := by
  obtain ⟨⟨outcome, time⟩, hfound, rfl⟩ := Option.map_eq_some_iff.1 hanswer
  obtain ⟨d, hd, heq⟩ := Option.map_eq_some_iff.1 hfound
  refine ⟨d, List.mem_of_find?_eq_some hd, by simpa using List.find?_some hd, ?_⟩
  rw [show d.outcome = outcome from congrArg Prod.fst heq]
  cases outcome with
  | notFound => rfl
  | reserved | deadlineSoon | timedOut => cases h

/-- A request that is ever refused for want of a job does not wait, and is refused at once. -/
theorem Reachable.refuses_of_isFailure (h : Reachable b) {event : Event} {timeout : Option Millis}
    (hasks : event.reservation? = some (c, timeout)) (hc : b.isConnected c = true)
    {later : List Event} {made : Instant} {answer : Response × Instant}
    (hanswer : ((b.step event).after later).answer? made (.later b.engine.nextRequest) =
      some answer) (hfailure : answer.1.isFailure = true) :
    timeout = some 0 ∧ Refuses b.engine (b.step event).engine c := by
  obtain ⟨client, rfl, hclient, hopen⟩ := client?_of_isConnected hc
  set q := (markWorker b.engine client.id).newRequest { client with worker := true } timeout with hq
  obtain ⟨hasked, hrequests⟩ := h.asked_reservation hasks hclient hopen hq
  obtain ⟨d, hd, hrequest, houtcome⟩ := notFound_of_isFailure hanswer hfailure
  have hlast := ((h.step event).after later).sound.tracked
  have hrefused := hlast.outcome?_of_mem hd
  rw [hrequest, houtcome] at hrefused
  -- The request is still as it was made, and may get this answer only if it does not wait.
  have hqmem : q ∈ (b.step event).engine.requests :=
    hrequests ▸ List.mem_append_right _ (List.mem_singleton.2 rfl)
  obtain rfl : timeout = some 0 :=
    hlast.admits (((h.step event).requests_grow later).subset hqmem) hrefused
  refine ⟨rfl, ?_⟩
  generalize ht : (b.step event).engine = t at hasked
  cases hasked with
  | @served name id _ m =>
    have hserved := m.deliveries (@coherent_openRequest _ { client with worker := true }
      (sound_markWorker h.sound client.id) (client?_markWorker hclient) hopen (some 0))
    have hgranted : ⟨q.id, .reserved id, b.engine.now⟩ ∈ (b.step event).engine.deliveries := by
      rw [ht, hserved]
      exact List.mem_append_right _ (List.mem_singleton.2 rfl)
    cases hrefused.symm.trans
      (hlast.outcome?_of_mem (((h.step event).deliveries_grow later).subset hgranted))
  | refused => exact refuses_newRequest h.sound h.backed hclient hq
  | waiting htimeout => exact absurd rfl htimeout

theorem untouched_of_eq {b' : Broker} (h : b' = b.record command.verb) :
    b.Untouched b' c command := by
  subst h
  exact ⟨Or.inl (engine_record b _), rfl⟩

theorem reserveWithTimeout_of_reservation?
    (h : (Event.command c command body).reservation? = some (c, some 0)) :
    command = .reserveWithTimeout 0 := by
  cases command with
  | reserve => cases h
  | reserveWithTimeout timeout =>
    have hspan : 1000 * timeout.toNat = 0 := Option.some.inj (congrArg Prod.snd (Option.some.inj h))
    have hzero : timeout.toNat = (0 : UInt32).toNat :=
      Nat.eq_of_mul_eq_mul_left (Nat.succ_pos 999) hspan
    rw [UInt32.toNat_inj.1 hzero]
  | _ => cases h

/-- A command that comes to nothing changes nothing but the count of its verb, unless it is a
request that is refused at once. -/
theorem Reachable.untouched (h : Reachable b) {later : List Event}
    (hfruitless : b.isFruitless (.command c command body) later = true) :
    b.Untouched (b.step (.command c command body)) c command := by
  obtain ⟨hc, hcause⟩ := Bool.and_eq_true_iff.1 hfruitless
  have hstep : b.step (.command c command body) = (b.dispatch c command body).2 := if_pos hc
  have hcon : (b.record command.verb).isConnected c = true := by
    rwa [Broker.isConnected, engine_record]
  rcases Bool.or_eq_true_iff.1 hcause with hreading | hfailure
  · exact untouched_of_eq (hstep.trans (perform_of_isReading hreading body))
  · obtain ⟨answer, hanswer, hfailure⟩ := (Option.any_eq_true _ _).1 hfailure
    have hanswer : ((b.step (.command c command body)).after later).answer? b.engine.now
        (b.dispatch c command body).1 = some answer := (if_pos hc).symm.trans hanswer
    cases hreply : (b.dispatch c command body).1 with
    | now response =>
      rw [hreply] at hanswer
      obtain rfl := Option.some.inj hanswer
      exact untouched_of_eq (hstep.trans (perform_of_isFailure hcon hreply hfailure))
    | later r =>
      obtain ⟨hr, timeout, hasks⟩ := reservation_of_later hreply
      rw [hreply, hr, engine_record] at hanswer
      obtain ⟨rfl, hrefuses⟩ := h.refuses_of_isFailure hasks hc hanswer hfailure
      have hcommand := reserveWithTimeout_of_reservation? hasks
      subst hcommand
      exact ⟨Or.inr ⟨rfl, hrefuses⟩, by rw [hstep]; rfl⟩
    | close =>
      rw [hreply] at hanswer
      cases hanswer

end Broker

end WorkQueue

import WorkQueue.Proofs.Exclusive
import WorkQueue.Proofs.Onward
import WorkQueue.Proofs.Overtaking

/-!
# What a run tells

`Broker.history` reads something off each event of a run, at the state that the event finds. What is
said of a state in these terms is shown by induction on the last event (`history_append`).

The requests of a broker are those that its run tells of by the replies to its commands, as they
were made (`Broker.requests_history`).
-/

namespace WorkQueue

/-- A request as it was made : its number, its client and the tubes that the client watched. -/
structure Asking where
  request : RequestId
  client : ClientId
  watched : List TubeName
  deriving DecidableEq

def Request.asking (q : Request) : Asking :=
  ⟨q.id, q.client, q.tubes⟩

namespace Broker

variable {α : Type} {b : Broker} {c : ClientId}

/-- What the events of a run tell, in their order. -/
def history (tell? : Broker → Event → Option α) (b : Broker) : List Event → List α
  | [] => []
  | event :: rest => (tell? b event).toList ++ (b.step event).history tell? rest

theorem history_append (tell? : Broker → Event → Option α) (b : Broker) (events : List Event)
    (event : Event) : b.history tell? (events ++ [event]) =
      b.history tell? events ++ (tell? (b.after events) event).toList := by
  induction events generalizing b with
  | nil => exact List.append_nil _
  | cons first rest ih =>
    rw [List.cons_append, history, ih, history, List.append_assoc]
    rfl

/-- How many events of a run pass a test. -/
def times (test : Broker → Event → Bool) (b : Broker) (events : List Event) : Nat :=
  (b.history (fun b event => if test b event then some event else none) events).length

theorem times_append (test : Broker → Event → Bool) (b : Broker) (events : List Event)
    (event : Event) : b.times test (events ++ [event]) =
      b.times test events + (test (b.after events) event).toNat := by
  rw [times, history_append, List.length_append]
  cases test (b.after events) event <;> rfl

/-! ## Requests -/

/-- The tubes that a client watches. -/
def watchedBy (b : Broker) (c : ClientId) : List TubeName :=
  ((b.engine.client? c).map (·.watching)).getD []

/-- The request that a command makes, if its answer is to come from a request. -/
def asking? (b : Broker) : Event → Option Asking
  | .command c command body =>
    match b.isConnected c, (b.dispatch c command body).1 with
    | true, .later r => some ⟨r, c, b.watchedBy c⟩
    | _, _ => none
  | _ => none

/-- Only a reservation is answered by a request, which is the next one. -/
theorem reservation_of_later {command : Command} {body : Option Bytes} {r : RequestId}
    (h : (b.perform c command body).1 = .later r) : r = b.engine.nextRequest ∧
      ∃ timeout, (Event.command c command body).reservation? = some (c, timeout) := by
  cases command with
  | reserve => exact ⟨(Reply.later.inj h).symm, _, rfl⟩
  | reserveWithTimeout timeout => exact ⟨(Reply.later.inj h).symm, _, rfl⟩
  | watch | stats | listTubes | quit | useTube | release | bury | touch | kickJob => cases h
  | put =>
    simp only [perform, put] at h
    split at h
    · split at h <;> cases h
    · cases h
  | _ =>
    simp only [perform, reserveJob, delete, kick, ignore, pauseTube, peekTube, show?] at h
    split at h <;> cases h

/-- The request of a connected client is told of, and nothing else. -/
theorem asking?_eq (b : Broker) (event : Event) : b.asking? event =
    event.reservation?.bind fun asks =>
      if b.isConnected asks.1 then some ⟨b.engine.nextRequest, asks.1, b.watchedBy asks.1⟩
      else none := by
  cases event with
  | command c command body =>
    cases hasks : (Event.command c command body).reservation? with
    | none =>
      simp only [asking?]
      split
      · next r _ hreply =>
        obtain ⟨-, timeout, hsome⟩ := reservation_of_later hreply
        cases hasks.symm.trans hsome
      · rfl
    | some asks =>
      have hreply : asks.1 = c ∧ (b.dispatch c command body).1 = .later b.engine.nextRequest := by
        have hnext (verb : Verb) : Reply.later (b.record verb).engine.nextRequest =
            .later b.engine.nextRequest := by rw [engine_record]
        cases command with
        | reserve => cases hasks; exact ⟨rfl, hnext _⟩
        | reserveWithTimeout timeout => cases hasks; exact ⟨rfl, hnext _⟩
        | _ => cases hasks
      simp only [asking?, hreply, Option.bind_some]
      cases b.isConnected c <;> rfl
  | _ => rfl

/-- A connected client asks with a new request, which is put on record. -/
theorem Reachable.asked_reservation (h : Reachable b) {event : Event} {client : Client}
    {timeout : Option Millis} (hasks : event.reservation? = some (client.id, timeout))
    (hclient : b.engine.client? client.id = some client) (hopen : client.closed = false)
    {q : Request} (hq : q = (markWorker b.engine client.id).newRequest
      { client with worker := true } timeout) :
    Engine.Asked (markWorker b.engine client.id) q (b.step event).engine ∧
      (b.step event).engine.requests = b.engine.requests ++ [q] := by
  subst hq
  have hc : b.isConnected client.id = true := by
    simp [isConnected, Engine.isConnected, hclient, hopen]
  have hmarked := Engine.sound_markWorker h.sound client.id
  have hworker := Engine.client?_markWorker hclient
  have hasked := @Engine.reserve_asked _ { client with worker := true } hworker hopen timeout
  have hfewer :=
    @Engine.Asked.fewer _ _ { client with worker := true } _ hmarked hworker hopen hasked
  rw [step_reservation hasks hc]
  exact ⟨hasked, hfewer.requests⟩

theorem Reachable.requests_step (h : Reachable b) (event : Event) :
    (b.step event).engine.requests.map Request.asking =
      b.engine.requests.map Request.asking ++ (b.asking? event).toList := by
  rw [asking?_eq]
  cases hasks : event.reservation? with
  | none =>
    have hp := step_passage b event
    rw [hasks] at hp
    rcases hp.requests_or_reserve h.sound with hr | ⟨_, _, hnone, -⟩
    · rw [hr]
      exact (List.append_nil _).symm
    · cases hnone
  | some asks =>
    obtain ⟨c, timeout⟩ := asks
    dsimp only [Option.bind_some]
    split
    · next hc =>
      obtain ⟨client, rfl, hclient, hopen⟩ := Engine.client?_of_isConnected hc
      have hwatched : b.watchedBy client.id = client.watching := by
        rw [watchedBy, hclient]
        rfl
      rw [(h.asked_reservation hasks hclient hopen rfl).2, hwatched]
      exact List.map_append
    · next hc =>
      have hstep : b.step event = b := by
        unfold Event.reservation? at hasks
        split at hasks <;> cases hasks <;> exact if_neg hc
      rw [hstep]
      exact (List.append_nil _).symm

/-- The requests of a broker are those that its run has told of. -/
theorem requests_history (config : Config) (events : List Event) :
    ((start config).after events).engine.requests.map Request.asking =
      (start config).history asking? events := by
  induction events using List.reverseRecOn with
  | nil => rfl
  | append_singleton earlier event ih =>
    rw [after_append, history_append, ← ih]
    exact ((Reachable.start config).after earlier).requests_step event

end Broker

end WorkQueue

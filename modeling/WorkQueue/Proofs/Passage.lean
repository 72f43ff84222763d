import WorkQueue.Proofs.Stage

/-!
# Events as passages

`Broker.step_passage` : whatever the event, the engine goes through a passage. A command of a client
that holds jobs acts for it in at most one stage, a reservation comes after its client is marked as
a worker, and everything else is a row of stages that act for nobody.
-/

namespace WorkQueue

open Relation

/-- The client that an event lets ask for a job, and its timeout. -/
def Event.reservation? : Event → Option (ClientId × Option Millis)
  | .command c .reserve _ => some (c, none)
  | .command c (.reserveWithTimeout timeout) _ => some (c, some (seconds timeout.toNat))
  | _ => none

namespace Broker

open Engine

variable {b : Broker} {c : ClientId} {asks : Option (ClientId × Option Millis)}

theorem engine_record (b : Broker) (verb : Verb) : (b.record verb).engine = b.engine := by
  rw [record]

/-- A transition by number is refused, or carried out on a registered job. -/
theorem onJob_cases {id : JobId} {go : Engine → JobId → Bool × Engine} {P : Engine → Prop}
    (hrefused : P b.engine) (hgo : P (go b.engine id).2) : P (b.onJob id go).2 := by
  unfold onJob
  split
  · exact hgo
  · exact hrefused

theorem passage_refl (s : Engine) : Passage asks s s :=
  .stages .refl

/-- A transition in which a client acts on a job that it holds. -/
theorem passage_act (c : ClientId) {id : JobId} {isOpenTo : Job → Bool} {go : Job → Engine}
    {s : Engine} (hgo : ∀ job, s.job? job.id = some job → job.id = id → isOpenTo job = true →
      Stage (some c) s (go job)) : Passage asks s (s.transition id isOpenTo go).2 :=
  transition_cases (fun _ => passage_refl s) fun job hj hid h => .act (hgo job hj hid h)

theorem passage_release (id : JobId) (pri : Nat) (delay : Millis) :
    Passage asks b.engine (b.onJob id (·.release c · pri delay)).2 := by
  refine onJob_cases (passage_refl _) (passage_act c fun job hj hid h => ?_)
  subst hid
  split
  · exact .back hj (.release rfl h pri)
  · next hdelay => exact .shift hj (.postpone rfl h pri delay hdelay)

theorem passage_bury (id : JobId) (pri : Nat) :
    Passage asks b.engine (b.onJob id (·.bury c · pri)).2 := by
  refine onJob_cases (passage_refl _) (passage_act c fun job hj hid h => ?_)
  subst hid
  exact .shift hj (.bury rfl h pri)

theorem passage_touch (id : JobId) : Passage asks b.engine (b.onJob id (·.touch c)).2 := by
  refine onJob_cases (passage_refl _) (passage_act c fun job hj hid h => ?_)
  subst hid
  exact .shift hj (.touch rfl h)

theorem passage_kickJob (id : JobId) : Passage asks b.engine (b.onJob id (·.kickJob)).2 :=
  onJob_cases (passage_refl _) (.stages (stages_kickJob id))

theorem passage_put (pri : Nat) (delay ttr : Millis) (body : Bytes) :
    Passage asks b.engine (b.put c pri delay ttr body).2.engine := by
  unfold put
  split
  · next client hc =>
    have hkey : client.id = c := Table.key_of_lookup hc
    subst hkey
    set s := b.engine.adjustClient client.id fun client => { client with producer := true }
    have hp : s.client? client.id = some { client with producer := true } := by
      have hl := Table.lookup_adjust_self b.engine.clients client.id
        (fun client => { client with producer := true }) fun _ => rfl
      exact hl.trans (congrArg (Option.map _) hc)
    exact .stages (.tail (.single (.produce client.id))
      (.put { client with producer := true } hp pri delay ttr body))
  · exact passage_refl _

theorem find?_eq_some {s : Engine} {id : JobId} {job : Job} (h : s.find? id = some job) :
    s.job? id = some job ∧ job.id = id ∧ job.registered = true := by
  obtain ⟨hj, hr⟩ := Option.filter_eq_some_iff.1 h
  exact ⟨hj, Table.key_of_lookup hj, hr⟩

/-- A client may be marked as a worker before or after its deadlines are looked after. -/
theorem watchDeadlines_markWorker (s : Engine) (c : ClientId) :
    (markWorker s c).watchDeadlines c = markWorker (s.watchDeadlines c) c := by
  unfold watchDeadlines markWorker adjustClient
  dsimp only
  split <;> rfl

/-- A connected client reserves a job by its number in one move. -/
theorem reserveJob_of_isConnected {s : Engine} (hc : s.isConnected c = true) (id : JobId) :
    s.reserveJob c id =
      s.transition id isReservable fun _ => s.move id (·.makeReserved s.now c) := by
  simp [Engine.reserveJob, hc]

theorem passage_reserveJob (hc : b.isConnected c = true) (id : JobId) :
    Passage asks b.engine (b.reserveJob c id).2.engine := by
  have hc : b.engine.isConnected c = true := hc
  unfold reserveJob onJob
  cases hf : b.engine.find? id with
  | none => exact passage_refl _
  | some job =>
    obtain ⟨hj, rfl, -⟩ := find?_eq_some hf
    by_cases h : isReservable job = true
    · simp only [Option.isSome_some, if_true, Engine.reserveJob, transition, hj, h, hc,
        Bool.and_self]
      rw [watchDeadlines_markWorker, watchDeadlines_move hj rfl]
      have htended : c ∈ (b.engine.watchDeadlines c).expiring := mem_watchDeadlines.2 (Or.inl rfl)
      rw [watchDeadlines_eq] at htended ⊢
      have hexpect : Stage none b.engine (b.engine.watchDeadlines c) := .expect c
      rw [watchDeadlines_eq] at hexpect
      have htake : Shift { b.engine with expiring := (b.engine.watchDeadlines c).expiring } none job
          (·.makeReserved b.engine.now c) := .take rfl hc h htended
      exact .stages (.tail (.tail (.single hexpect) (.shift hj htake)) (.work c))
    · simp only [Option.isSome_some, if_true, Engine.reserveJob, transition, hj, h]
      exact passage_refl _

theorem passage_delete (id : JobId) : Passage asks b.engine (b.delete c id).2.engine := by
  unfold delete onJob
  cases hf : b.engine.find? id with
  | none => exact passage_refl _
  | some job =>
    obtain ⟨hj, rfl, -⟩ := find?_eq_some hf
    by_cases h : (job.state ≠ .deleted && job.holder?.all (· = c)) = true
    · simp only [Option.isSome_some, if_true, Engine.delete, transition, hj, h]
      rw [Bool.and_eq_true, decide_eq_true_eq] at h
      refine .act (.discard hj h.1 fun d hd => ?_) (c := c)
      simpa [hd, eq_comm] using h.2
    · simp only [Option.isSome_some, if_true, Engine.delete, transition, hj, h]
      exact passage_refl _

theorem passage_kick (bound : Nat) : Passage asks b.engine (b.kick c bound).2.engine := by
  unfold kick
  split
  · exact .stages (stages_kick _ bound)
  · exact passage_refl _

theorem passage_ignore (name : TubeName) : Passage asks b.engine (b.ignore c name).2.engine := by
  unfold ignore
  split
  · exact passage_refl _
  · exact .stages (.single (.ignore c name))

theorem passage_pauseTube (name : TubeName) (span : Millis) :
    Passage asks b.engine (b.pauseTube name span).2.engine := by
  unfold pauseTube
  split
  · exact .stages (.single (.pause name span))
  · exact passage_refl _

theorem passage_show? (b : Broker) (job : Option Job) :
    Passage asks b.engine (b.show? job).2.engine := by
  unfold show?
  split <;> exact passage_refl _

theorem perform_passage (hc : b.isConnected c = true) (command : Command)
    (body : Option Bytes) : Passage (Event.command c command body).reservation? b.engine
      (b.perform c command body).2.engine := by
  unfold perform
  cases command with
  | put pri delay ttr size =>
    cases body with
    | some body => exact passage_put _ _ _ body
    | none => exact passage_refl _
  | reserve => exact .reserve rfl hc
  | reserveWithTimeout timeout => exact .reserve rfl hc
  | reserveJob id => exact passage_reserveJob hc _
  | release id pri delay => exact passage_release _ _ _
  | delete id => exact passage_delete _
  | bury id pri => exact passage_bury _ _
  | touch id => exact passage_touch _
  | watch tube => exact .stages (.single (.watch c tube))
  | ignore tube => exact passage_ignore tube
  | kick bound => exact passage_kick _
  | kickJob id => exact passage_kickJob _
  | useTube name => exact .stages (.single (.use c name))
  | pauseTube name delay => exact passage_pauseTube name _
  | peek id => exact passage_show? b _
  | peekReady => exact passage_show? b _
  | peekDelayed => exact passage_show? b _
  | peekBuried => exact passage_show? b _
  | statsJob id => dsimp only; split <;> exact passage_refl _
  | statsTube tube => dsimp only; split <;> exact passage_refl _
  | listTubeUsed => dsimp only; split <;> exact passage_refl _
  | listTubesWatched => dsimp only; split <;> exact passage_refl _
  | stats => exact passage_refl _
  | listTubes => exact passage_refl _
  | quit => exact passage_refl _

/-- What an event can do. -/
theorem step_passage (b : Broker) (event : Event) :
    Passage event.reservation? b.engine (b.step event).engine := by
  cases event with
  | connect => exact .stages (.single .connect)
  | command c command body =>
    rw [step]
    split
    · next hc =>
      have h := perform_passage (b := b.record command.verb) (c := c)
        (by rwa [Broker.isConnected, engine_record]) command body
      rwa [engine_record] at h
    · exact passage_refl _
  | disconnect c =>
    rw [step]
    split
    · next hc => exact .close hc
    · exact passage_refl _
  | advance span => exact .advance span
  | delayedSweep => exact .stages stages_delayedSweep
  | expirySweep => exact .stages stages_expirySweep

end Broker

end WorkQueue

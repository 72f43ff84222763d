import Mathlib.Data.List.Induction
import WorkQueue.Proofs.Holding
import WorkQueue.Proofs.Registry

/-!
# Reservations are exclusive

A job that a client holds keeps its record through every event, unless the event is of the client
itself or is the expiry sweep after the deadline (`Event.concerns`) : commands of others that name
the job are refused, and so is its reservation by number, whoever asks. The deadline is the time to
run after the last time that the job was handed out or touched (`Broker.lastRenewal?`), which is
read off the answers of a run. `Broker.reservation_exclusive` has both, for every run.

`Broker.step_spares` is the lemma for one event : its first half keeps the record, and its second
half says that no job comes to be held without a renewal, from which the deadlines of a run follow
by induction on its last event.
-/

namespace WorkQueue

/-! ## The events of a reservation -/

/-- The number of the job, for a command that only its holder may give while it is held. -/
def Command.heldJob? : Command → Option JobId
  | delete id | release id _ _ | bury id _ | touch id => some id.toNat
  | _ => none

/-- The number of the job, for a command that nobody may give while the job is held. -/
def Command.freeJob? : Command → Option JobId
  | reserveJob id | kickJob id => some id.toNat
  | _ => none

/-- Whether a command leaves all jobs and requests alone. -/
def Command.isAside : Command → Bool
  | watch _ | ignore _ | useTube _ | pauseTube _ _ | peek _ | peekReady | peekDelayed | peekBuried
  | statsJob _ | statsTube _ | listTubeUsed | listTubesWatched | stats | listTubes | quit => true
  | _ => false

/-- Whether an event at `now` may end or change the reservation of a job. -/
def Event.concerns (now : Instant) (job : Job) : Event → Bool
  | .command c action _ => action.heldJob? = some job.id && job.isHeldBy c
  | .disconnect c => job.isHeldBy c
  | .expirySweep => Engine.isOverdue now job
  | .connect | .advance _ | .delayedSweep => false

/-- Whether the reply to a command brings a job by its number, or says that it was touched. -/
def Command.renews (id : JobId) : Command → Reply → Bool
  | reserveJob n, .now (.reserved ..) => n.toNat = id
  | touch n, .now (.notice .touched) => n.toNat = id
  | _, _ => false

namespace Broker

/-- Whether an event hands out a job, with an answer or with a reply, or touches it. -/
def renews (b : Broker) (id : JobId) (event : Event) : Bool :=
  ((b.step event).engine.deliveries.drop b.engine.deliveries.length).any
      (·.outcome = .reserved id) ||
    match event with
    | .command c command body =>
      b.isConnected c && command.renews id (b.dispatch c command body).1
    | _ => false

/-- The instant at which a job was last handed out or touched in a run. -/
def lastRenewal? (b : Broker) (id : JobId) : List Event → Option Instant
  | [] => none
  | event :: rest =>
    ((b.step event).lastRenewal? id rest).or (if b.renews id event then some b.engine.now else none)

open Engine

variable {b : Broker} {c d : ClientId} {id : JobId} {job : Job} {due : Instant}

/-! ## Transitions by number -/

section Transition

variable {isOpenTo : Job → Bool} {go : Job → Engine} {act : Engine → JobId → Bool × Engine}
  (hact : act b.engine id = b.engine.transition id isOpenTo go)

include hact

theorem onJob_of_open (hf : b.engine.find? id = some job) (hopen : isOpenTo job = true) :
    b.onJob id act = (true, go job) := by
  simp only [onJob, hf, hact, transition, (find?_eq_some hf).1, hopen, Option.isSome_some, if_true]

theorem onJob_of_not_open (hf : b.engine.find? id = some job) (hopen : isOpenTo job = false) :
    b.onJob id act = (false, b.engine) := by
  simp [onJob, hf, hact, transition, (find?_eq_some hf).1, hopen]

theorem acknowledge_of_not_open {notice : Notice} (hf : b.engine.find? id = some job)
    (hopen : isOpenTo job = false) :
    b.acknowledge notice (b.onJob id act) = (.now (.notice .notFound), b) := by
  rw [acknowledge, onJob_of_not_open hact hf hopen]
  rfl

variable (act) in
/-- A transition by number is refused, or carried out on the job. -/
theorem onJob_eq : b.onJob id act = (false, b.engine) ∨
    ∃ job, b.engine.find? id = some job ∧ isOpenTo job = true ∧
      b.onJob id act = (true, go job) := by
  cases hf : b.engine.find? id with
  | none => exact Or.inl (by simp [onJob, hf])
  | some job =>
    cases hopen : isOpenTo job with
    | false => exact Or.inl (onJob_of_not_open hact hf hopen)
    | true => exact Or.inr ⟨job, rfl, hopen, onJob_of_open hact hf hopen⟩

end Transition

/-! ## Refusals -/

section Refused

variable (hf : b.engine.find? id = some job) (hst : job.state = .reserved c due)

include hf hst

/-- Others cannot act on a job that a client holds. -/
theorem perform_heldJob (hne : d ≠ c) {command : Command} (hid : command.heldJob? = some id)
    (body : Option Bytes) : b.perform d command body = (.now (.notice .notFound), b) := by
  have hheld : job.isHeldBy d = false := by simp [Job.isHeldBy, Job.holder?, hst, hne.symm]
  cases command with
  | delete n =>
    obtain rfl := Option.some.inj hid
    have hopen : (job.state ≠ .deleted && job.holder?.all (· = d)) = false := by
      simp [Job.holder?, hst, hne.symm]
    have hon : b.onJob n.toNat (·.delete d) = (false, b.engine) := onJob_of_not_open rfl hf hopen
    simp only [perform, delete, hon]
  | release n pri delay =>
    obtain rfl := Option.some.inj hid
    exact acknowledge_of_not_open rfl hf hheld
  | bury n pri =>
    obtain rfl := Option.some.inj hid
    exact acknowledge_of_not_open rfl hf hheld
  | touch n =>
    obtain rfl := Option.some.inj hid
    exact acknowledge_of_not_open rfl hf hheld
  | _ => cases hid

/-- A job that is held can be neither reserved by its number nor kicked. -/
theorem perform_freeJob {command : Command} (hid : command.freeJob? = some id)
    (body : Option Bytes) : b.perform d command body = (.now (.notice .notFound), b) := by
  cases command with
  | reserveJob n =>
    obtain rfl := Option.some.inj hid
    have hon : b.onJob n.toNat (·.reserveJob d) = (false, b.engine) := by
      simp [onJob, hf, Engine.reserveJob, transition, (find?_eq_some hf).1, isReservable, hst]
    simp only [perform, reserveJob, hon]
  | kickJob n =>
    obtain rfl := Option.some.inj hid
    have hopen : isKickable job = false := by simp [isKickable, hst]
    exact acknowledge_of_not_open rfl hf hopen
  | _ => cases hid

end Refused

/-! ## Renewals -/

/-- A client gets a job for the time to run, which has to be open to it. -/
inductive Hands (b : Broker) (c : ClientId) (id : JobId) (isOpenTo : Job → Bool) (t : Engine) : Prop
  | mk {job : Job} {f : Job → Job} (hf : b.engine.find? id = some job)
    (hopen : isOpenTo job = true) (htube : (f job).tube = job.tube) (hid : (f job).id = job.id)
    (hst : (f job).state = .reserved c (b.engine.now + (f job).ttr))
    (hjobs : t.jobs = (b.engine.move id f).jobs)
    (hdel : t.deliveries = (b.engine.move id f).deliveries) : Hands b c id isOpenTo t

/-- A touch is refused, or restarts the time to run of a job that its client holds. -/
theorem touch_hands (b : Broker) (c : ClientId) (n : UInt32) (body : Option Bytes) :
    b.perform c (.touch n) body = (.now (.notice .notFound), b) ∨
      (b.perform c (.touch n) body).1 = .now (.notice .touched) ∧
        Hands b c n.toNat (·.isHeldBy c) (b.perform c (.touch n) body).2.engine := by
  have hact : b.engine.touch c n.toNat = b.engine.transition n.toNat (·.isHeldBy c)
      fun _ => b.engine.move n.toNat (·.renew b.engine.now c) := rfl
  rcases onJob_eq (·.touch c) hact with hon | ⟨job, hf, hheld, hon⟩
  · exact Or.inl (by simp only [perform, acknowledge, hon]; rfl)
  · simp only [perform, acknowledge, hon]
    exact Or.inr ⟨rfl, .mk (f := (·.renew b.engine.now c)) hf hheld rfl rfl rfl rfl rfl⟩

/-- A reservation by number is refused, or gives its client the job. -/
theorem reserveJob_hands (hc : b.isConnected c = true) (n : UInt32) (body : Option Bytes) :
    b.perform c (.reserveJob n) body = (.now (.notice .notFound), b) ∨
      (∃ bytes, (b.perform c (.reserveJob n) body).1 = .now (.reserved n.toNat bytes)) ∧
        Hands b c n.toNat isReservable (b.perform c (.reserveJob n) body).2.engine := by
  rcases onJob_eq (·.reserveJob c) (reserveJob_of_isConnected hc n.toNat) with
    hon | ⟨job, hf, hopen, hon⟩
  · exact Or.inl (by simp only [perform, reserveJob, hon])
  · simp only [perform, reserveJob, hon, hf]
    rw [watchDeadlines_eq]
    exact Or.inr ⟨⟨job.body, rfl⟩,
      .mk (f := (·.makeReserved b.engine.now c)) hf hopen rfl rfl rfl rfl rfl⟩

namespace Hands

variable {isOpenTo : Job → Bool} {t : Engine}

theorem state {x : Job} (h : Hands b c id isOpenTo t) (hx : x ∈ t.jobs) (hid : x.id = id) :
    x.state = .reserved c (b.engine.now + x.ttr) := by
  obtain ⟨hf, -, htube, -, hst, hjobs, -⟩ := h
  obtain ⟨hj, rfl, -⟩ := find?_eq_some hf
  rcases of_mem_jobs_move hj htube (hjobs ▸ hx) with rfl | ⟨-, hne⟩
  · exact hst
  · exact absurd hid hne

theorem spares {safe : Job → Prop} {renewed : JobId → Prop} (h : Hands b c id isOpenTo t)
    (hs : Sound none none b.engine) (hr : renewed id)
    (hsafe : ∀ job, job.id = id → isOpenTo job = true → job.IsHeld → ¬safe job) :
    Spares safe renewed b.engine t := by
  obtain ⟨hf, hopen, htube, hid, -, hjobs, hdel⟩ := h
  obtain ⟨hj, rfl, -⟩ := find?_eq_some hf
  have hmove := (Spares.refl b.engine).move hs.listed.jobs hj htube hid (hsafe _ rfl hopen)
    fun _ => hr
  exact hmove.of_eq hjobs hdel

end Hands

/-- A reply renews a job when its client has just got it. -/
theorem due_of_reply {x : Job} (hc : b.isConnected c = true) {command : Command}
    {body : Option Bytes} (hr : command.renews x.id (b.perform c command body).1 = true)
    (hx : x ∈ (b.perform c command body).2.engine.jobs) :
    x.state = .reserved c (b.engine.now + x.ttr) := by
  cases command with
  | reserveJob n =>
    rcases reserveJob_hands hc n body with heq | ⟨⟨bytes, hreply⟩, hh⟩
    · rw [heq] at hr
      cases hr
    · rw [hreply] at hr
      exact hh.state hx (of_decide_eq_true hr).symm
  | touch n =>
    rcases touch_hands b c n body with heq | ⟨hreply, hh⟩
    · rw [heq] at hr
      cases hr
    · rw [hreply] at hr
      exact hh.state hx (of_decide_eq_true hr).symm
  | _ => cases hr

/-! ## Commands -/

section Commands

variable {safe : Job → Prop} {renewed : JobId → Prop} (hs : Sound none none b.engine)

include hs

theorem spares_put (pri : Nat) (delay ttr : Millis) (body : Bytes) :
    Spares safe renewed b.engine (b.put c pri delay ttr body).2.engine := by
  unfold put
  split
  · next client hc =>
    have hmem := Table.mem_of_lookup hc
    have hmarked : Sound none none
        (b.engine.adjustClient c fun client => { client with producer := true }) :=
      hs.adjustClient c (fun _ => ⟨rfl, rfl, rfl, rfl⟩) fun d hd _ =>
        ⟨hs.posted.used d hd, hs.posted.watching d hd, hs.posted.distinct d hd⟩
    have hsparing : Sparing none safe renewed b.engine
        (b.engine.adjustClient c fun client => { client with producer := true }) :=
      ⟨hmarked, rfl, (Spares.refl b.engine).of_eq rfl rfl⟩
    exact hsparing.put (hs.posted.used client hmem) pri delay ttr body
  · exact .refl b.engine

theorem spares_reserve (hc : b.isConnected c = true) (timeout : Option Millis) :
    Spares safe renewed b.engine (b.reserve c timeout).2.engine := by
  obtain ⟨client, rfl, hclient, hopen⟩ := client?_of_isConnected hc
  obtain ⟨worker, -, hopen, hworker, hasked⟩ := reserve_passage hclient hopen timeout
  have hmarked : Spares safe renewed b.engine (markWorker b.engine client.id) :=
    (Spares.refl b.engine).of_eq rfl rfl
  exact hmarked.asked (sound_markWorker hs client.id) hworker hopen hasked

theorem spares_reserveJob (hc : b.isConnected c = true) (n : UInt32) (body : Option Bytes) :
    Spares safe (fun id => Command.renews id (.reserveJob n)
      (b.perform c (.reserveJob n) body).1 = true) b.engine
        (b.perform c (.reserveJob n) body).2.engine := by
  rcases reserveJob_hands hc n body with heq | ⟨⟨bytes, hreply⟩, hh⟩
  · rw [heq]
    exact .refl b.engine
  · rw [hreply]
    exact hh.spares hs (decide_eq_true rfl) fun job _ hopen ⟨d, due, hst⟩ => by
      simp [isReservable, hst] at hopen

theorem spares_touch (n : UInt32) (body : Option Bytes)
    (hsafe : ∀ job, job.id = n.toNat → job.isHeldBy c = true → ¬safe job) :
    Spares safe (fun id => Command.renews id (.touch n) (b.perform c (.touch n) body).1 = true)
      b.engine (b.perform c (.touch n) body).2.engine := by
  rcases touch_hands b c n body with heq | ⟨hreply, hh⟩
  · rw [heq]
    exact .refl b.engine
  · rw [hreply]
    exact hh.spares hs (decide_eq_true rfl) fun job hid hheld _ => hsafe job hid hheld

variable (hsafe : ∀ job, job.id = id → job.isHeldBy c = true → ¬safe job)

include hsafe

theorem spares_release (pri : Nat) (delay : Millis) :
    Spares safe renewed b.engine (b.onJob id (·.release c · pri delay)).2 := by
  refine onJob_cases (.refl b.engine) (transition_cases (fun _ => .refl b.engine) ?_)
  intro job hj hid hheld
  have hfree : job.IsHeld → ¬safe job := fun _ => hsafe job hid hheld
  subst hid
  split
  · exact ((Sparing.refl hs).back hj (.release rfl hheld pri) hfree).spares
  · exact (Spares.refl b.engine).move hs.listed.jobs hj rfl rfl hfree
      fun hh => absurd hh (Job.not_isHeld rfl)

theorem spares_bury (pri : Nat) :
    Spares safe renewed b.engine (b.onJob id (·.bury c · pri)).2 := by
  refine onJob_cases (.refl b.engine) (transition_cases (fun _ => .refl b.engine) ?_)
  intro job hj hid hheld
  have hfree : job.IsHeld → ¬safe job := fun _ => hsafe job hid hheld
  subst hid
  exact (Spares.refl b.engine).move hs.listed.jobs hj rfl rfl hfree
    fun hh => absurd hh (Job.not_isHeld rfl)

theorem spares_delete :
    Spares safe renewed b.engine (b.delete c id).2.engine := by
  have hact : b.engine.delete c id = b.engine.transition id
      (fun job => job.state ≠ .deleted && job.holder?.all (· = c))
      fun _ => b.engine.move id (·.makeDeleted) := rfl
  rcases onJob_eq (·.delete c) hact with hon | ⟨job, hf, hopen, hon⟩
  · simp only [delete, hon]
    exact .refl b.engine
  · obtain ⟨hj, rfl, -⟩ := find?_eq_some hf
    have hfree : job.IsHeld → ¬safe job := fun ⟨d, due, hst⟩ => by
      refine hsafe job rfl (Job.isHeldBy_iff.2 ⟨due, ?_⟩)
      simpa [Job.holder?, hst] using hopen
    simp only [delete, hon, hf]
    change Spares safe renewed b.engine (b.engine.discard job)
    rw [discard_eq hj]
    have hmove : Spares safe renewed b.engine (b.engine.move job.id
        fun job => { job.makeDeleted with registered := false }) :=
      (Spares.refl b.engine).move hs.listed.jobs hj rfl rfl hfree
        fun hh => absurd hh (Job.not_isHeld rfl)
    exact hmove.of_eq rfl rfl

end Commands

theorem aside_show? (b : Broker) (job : Option Job) : Aside b.engine (b.show? job).2.engine := by
  unfold show?
  split <;> exact .refl b.engine

/-- The commands that deal with no job. -/
theorem aside_perform (b : Broker) (c : ClientId) {command : Command} (h : command.isAside = true)
    (body : Option Bytes) : Aside b.engine (b.perform c command body).2.engine := by
  cases command with
  | watch name => exact aside_watch b.engine c name
  | useTube name => exact aside_useTube b.engine c name
  | ignore name =>
    unfold perform ignore
    dsimp only
    split
    · exact .refl b.engine
    · exact aside_ignore b.engine c name
  | pauseTube name delay =>
    unfold perform pauseTube
    dsimp only
    split
    · exact .adjustTube _ _ _
    · exact .refl b.engine
  | peek | peekReady | peekDelayed | peekBuried => exact aside_show? b _
  | statsJob | statsTube | listTubeUsed | listTubesWatched =>
    unfold perform
    dsimp only
    split <;> exact .refl b.engine
  | stats | listTubes | quit => exact .refl b.engine
  | _ => cases h

/-- A command touches no job that it does not concern. -/
theorem perform_spares (hs : Sound none none b.engine) (hc : b.isConnected c = true)
    (command : Command) (body : Option Bytes) :
    Spares (fun job => (Event.command c command body).concerns b.engine.now job = false)
      (fun id => command.renews id (b.perform c command body).1 = true) b.engine
        (b.perform c command body).2.engine := by
  have hsafe {id : JobId} (hid : command.heldJob? = some id) (job : Job) (hjob : job.id = id)
      (hheld : job.isHeldBy c = true) :
      ¬(Event.command c command body).concerns b.engine.now job = false := by
    simp [Event.concerns, hid, hjob, hheld]
  cases command with
  | put pri delay ttr size =>
    cases body with
    | some body => exact spares_put hs _ _ _ body
    | none => exact .refl b.engine
  | reserve => exact spares_reserve hs hc none
  | reserveWithTimeout timeout => exact spares_reserve hs hc _
  | reserveJob n => exact spares_reserveJob hs hc n body
  | release n pri delay => exact spares_release hs (hsafe rfl) _ _
  | delete n => exact spares_delete hs (hsafe rfl)
  | bury n pri => exact spares_bury hs (hsafe rfl) _
  | touch n => exact spares_touch hs n body (hsafe rfl)
  | kick bound =>
    unfold perform kick
    dsimp only
    split
    · exact ((Sparing.refl hs).kick _ _).spares
    · exact .refl b.engine
  | kickJob n => exact onJob_cases (.refl b.engine) ((Sparing.refl hs).kickJob n.toNat).spares
  | _ => exact .aside (aside_perform b c rfl body)

/-! ## Events -/

theorem renews_iff {event : Event} : b.renews id event = true ↔
    (∃ d ∈ (b.step event).engine.deliveries.drop b.engine.deliveries.length,
      d.outcome = .reserved id) ∨
    ∃ c command body, event = .command c command body ∧ b.isConnected c = true ∧
      command.renews id (b.dispatch c command body).1 = true := by
  unfold renews
  rw [Bool.or_eq_true, List.any_eq_true]
  refine or_congr (by simp only [decide_eq_true_eq]) ?_
  cases event <;> simp

/-- No event touches the jobs that it does not concern, and a job that is held afterwards was held
before, or is renewed. -/
theorem step_spares (hs : Sound none none b.engine) (event : Event) :
    Spares (fun job => event.concerns b.engine.now job = false)
      (fun id => b.renews id event = true) b.engine (b.step event).engine := by
  cases event with
  | connect => exact (Spares.refl b.engine).of_eq rfl rfl
  | command c command body =>
    rw [step]
    split
    · next hc =>
      have hs' : Sound none none (b.record command.verb).engine := by rwa [engine_record]
      have hc' : (b.record command.verb).isConnected c = true := by
        rwa [Broker.isConnected, engine_record]
      have h := perform_spares hs' hc' command body
      rw [engine_record] at h
      exact h.mono fun id hid => renews_iff.2 (Or.inr ⟨c, command, body, rfl, hc, hid⟩)
    · exact .refl b.engine
  | disconnect c =>
    rw [step]
    split
    · next hc =>
      obtain ⟨client, rfl, hclient, -⟩ := client?_of_isConnected hc
      exact spares_close hs hclient fun job hheld => by simp [Event.concerns, hheld]
    · exact .refl b.engine
  | advance span => exact spares_advance hs span
  | delayedSweep => exact (Sparing.refl hs).delayedSweep.spares
  | expirySweep =>
    exact ((Sparing.refl hs).expirySweep fun job hover => by simp [Event.concerns, hover]).spares

/-- A held job keeps its record through the events that do not concern it. -/
theorem Reachable.kept (h : Reachable b) (hf : b.engine.find? id = some job) (hheld : job.IsHeld)
    {event : Event} (hnot : event.concerns b.engine.now job = false) :
    (b.step event).engine.find? id = some job := by
  obtain ⟨hj, hid, hdel⟩ := h.sound.find?_eq_some_iff.1 hf
  exact (h.step event).sound.find?_eq_some_iff.2
    ⟨(step_spares h.sound event).kept job hj hheld hnot, hid, hdel⟩

/-- A job that is held after an event that does not renew it was held before. -/
theorem Reachable.held_before (h : Reachable b) {event : Event} (hnot : b.renews id event = false)
    (hf : (b.step event).engine.find? id = some job) (hheld : job.IsHeld) :
    b.engine.find? id = some job := by
  obtain ⟨hj, rfl, hdel⟩ := (h.step event).sound.find?_eq_some_iff.1 hf
  obtain ⟨fresh, hd, hfresh⟩ := (step_spares h.sound event).answers
  have hnot := Bool.eq_false_iff.1 hnot
  rcases hfresh job hj hheld with hold | ⟨d, hmem, hout⟩ | hrenews
  · exact h.sound.find?_eq_some_iff.2 ⟨hold, rfl, hdel⟩
  · refine absurd (renews_iff.2 (Or.inl ⟨d, ?_, hout⟩)) hnot
    rwa [hd, List.drop_left]
  · exact absurd hrenews hnot

/-- A job that is renewed is reserved for its time to run. -/
theorem Reachable.due_of_renews (h : Reachable b) {event : Event}
    (hr : b.renews id event = true) (hf : (b.step event).engine.find? id = some job) :
    ∃ c, job.state = .reserved c (b.engine.now + job.ttr) := by
  have hnext := (h.step event).sound
  obtain ⟨hj, rfl, -⟩ := hnext.find?_eq_some_iff.1 hf
  rcases renews_iff.1 hr with ⟨d, hmem, hout⟩ | ⟨c, command, body, rfl, hc, hreply⟩
  · obtain ⟨fresh, hd, hfresh⟩ := (h.progress event).answers
    rw [hd, List.drop_left] at hmem
    obtain ⟨q, ha⟩ := hfresh d hmem
    obtain ⟨x, hid, hg, -⟩ := ha.granted job.id hout
    obtain rfl := hnext.listed.job_ext hg.listed hj hid
    exact ⟨q.client, hg.state⟩
  · rw [Broker.step, if_pos hc] at hj
    have hc' : (b.record command.verb).isConnected c = true := by
      rwa [Broker.isConnected, engine_record]
    have hst := due_of_reply hc' hreply hj
    rw [engine_record] at hst
    exact ⟨c, hst⟩

/-! ## Runs -/

theorem after_append (b : Broker) (events : List Event) (event : Event) :
    b.after (events ++ [event]) = (b.after events).step event :=
  List.foldl_append ..

theorem lastRenewal?_append (b : Broker) (events : List Event) (event : Event) :
    b.lastRenewal? id (events ++ [event]) =
      if (b.after events).renews id event then some (b.after events).engine.now
      else b.lastRenewal? id events := by
  induction events generalizing b with
  | nil =>
    change Option.or none _ = if b.renews id event then _ else none
    rw [Option.none_or]
    rfl
  | cons first rest ih =>
    rw [List.cons_append, lastRenewal?, ih, lastRenewal?]
    change Option.or (if ((b.step first).after rest).renews id event then _ else _) _ =
      if ((b.step first).after rest).renews id event then _ else _
    split <;> rfl

/-- The deadline of a job that is held is its time to run after the last renewal. -/
theorem due_eq_lastRenewal (config : Config) (events : List Event)
    (hf : ((start config).after events).engine.find? id = some job)
    (hst : job.state = .reserved c due) :
    ∃ renewed, (start config).lastRenewal? id events = some renewed ∧ due = renewed + job.ttr := by
  induction events using List.reverseRecOn with
  | nil => cases hf
  | append_singleton earlier event ih =>
    have h : Reachable ((start config).after earlier) := (Reachable.start config).after earlier
    rw [after_append] at hf
    rw [lastRenewal?_append]
    -- either the last event is the last renewal, or the job was held before it already
    cases hr : ((start config).after earlier).renews id event with
    | true =>
      obtain ⟨d, hdue⟩ := h.due_of_renews hr hf
      rw [hst] at hdue
      exact ⟨_, rfl, (JobState.reserved.inj hdue).2⟩
    | false => exact ih (h.held_before hr hf ⟨c, due, hst⟩)

/-! ## Exclusive reservations -/

/-- What holds of a job that a client holds until an instant. -/
structure Exclusive (b : Broker) (job : Job) (c : ClientId) : Prop where
  kept : ∀ event, event.concerns b.engine.now job = false →
    (b.step event).engine.find? job.id = some job
  othersRefused : ∀ d, d ≠ c → ∀ command body, command.heldJob? = some job.id →
    b.dispatch d command body = (.now (.notice .notFound), b.record command.verb)
  allRefused : ∀ d command body, command.freeJob? = some job.id →
    b.dispatch d command body = (.now (.notice .notFound), b.record command.verb)

theorem Reachable.exclusive (h : Reachable b) (hf : b.engine.find? id = some job)
    (hst : job.state = .reserved c due) : b.Exclusive job c := by
  obtain ⟨-, rfl, -⟩ := find?_eq_some hf
  have hrecorded (verb : Verb) : (b.record verb).engine.find? job.id = some job := by
    rwa [engine_record]
  exact ⟨fun event => h.kept hf ⟨c, due, hst⟩,
    fun d hne command body hid => perform_heldJob (hrecorded _) hst hne hid body,
    fun d command body hid => perform_freeJob (hrecorded _) hst hid body⟩

/-- In every run, a job that a client holds is the client's alone, until the time to run is up that
was started when the job was last handed out or touched. -/
theorem reservation_exclusive (config : Config) (events : List Event)
    (hf : ((start config).after events).engine.find? id = some job)
    (hst : job.state = .reserved c due) :
    ((start config).after events).Exclusive job c ∧
      (∃ renewed, (start config).lastRenewal? id events = some renewed ∧
        due = renewed + job.ttr) ∧ seconds 1 ≤ job.ttr := by
  have h : Reachable ((start config).after events) := (Reachable.start config).after events
  obtain ⟨hj, -, -⟩ := h.sound.find?_eq_some_iff.1 hf
  exact ⟨h.exclusive hf hst, due_eq_lastRenewal config events hf hst, (h.sound.settled job hj).ttr⟩

/-- A job is put by one client and reserved by another, which touches it after half a second. -/
def touchedJob : List Event :=
  [.connect, .connect, .command 1 (.put 0 0 60 1) (some [120]), .command 2 .reserve none,
    .advance 500, .command 2 (.touch 1) none, .advance 200]

/-- The job of `touchedJob` afterwards. -/
def touched : Job where
  id := 1
  tube := .default
  pri := 0
  delay := 0
  ttr := 60000
  created := 0
  body := [120]
  state := .reserved 2 60500
  counts := { reserves := 1 }

theorem reservation_exclusive_touchedJob :
    ((start {}).after touchedJob).engine.find? 1 = some touched ∧
    ((start {}).after touchedJob).Exclusive touched 2 ∧
    (start {}).lastRenewal? 1 touchedJob = some 500 ∧ 60500 = 500 + touched.ttr := by
  have hf : ((start {}).after touchedJob).engine.find? 1 = some touched := by decide
  obtain ⟨hexclusive, ⟨renewed, hlast, hdue⟩, -⟩ := reservation_exclusive {} touchedJob hf rfl
  have hrenewed : renewed = 500 := Nat.add_right_cancel hdue.symm
  exact ⟨hf, hexclusive, hrenewed ▸ hlast, rfl⟩

end Broker

end WorkQueue

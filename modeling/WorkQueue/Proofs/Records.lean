import WorkQueue.Proofs.Evolution
import WorkQueue.Proofs.Exclusive
import WorkQueue.Proofs.Sweeping

/-!
# What an event makes of a job

`Event.Changes` is the life of a job, one change for each kind of event that has one : by number a
job is released, buried, touched, reserved, kicked or deleted, and a kick, a client that leaves and
the two sweeps bring jobs back to ready. `Broker.Reachable.recorded` shows that an event does this
to the records and nothing else : every job is changed as the event has it, or left as it is if the
event has no change for it that it must make (`Engine.Demands`), and a job that is ready then may
have been handed out. A put adds one job (`Engine.newcomer?`).
-/

namespace WorkQueue

/-- The first place of a job, or the one after a release : ready, or delayed if there is a delay. -/
def Job.placed (job : Job) (now : Instant) (delay : Millis) : Job :=
  if delay = 0 then job.makeReady else job.makeDelayed now delay

theorem Job.placed_frame (job : Job) (now : Instant) (delay : Millis) :
    (job.placed now delay).id = job.id ∧ (job.placed now delay).pri = job.pri ∧
      (job.placed now delay).counts = job.counts ∧ (job.placed now delay).holder? = none := by
  unfold placed
  split <;> exact ⟨rfl, rfl, rfl, rfl⟩

theorem Job.state_placed (job : Job) (now : Instant) {delay : Millis} (h : 0 < delay) :
    (job.placed now delay).state = .delayed (now + delay) := by
  rw [placed, if_neg (Nat.ne_of_gt h)]
  rfl

/-- The record of a job that is deleted for good. -/
def Job.discarded (job : Job) : Job :=
  { job.makeDeleted with registered := false }

/-- The changes that an event has for a job, except that a ready job is handed out. -/
inductive Event.Changes (now : Instant) (job : Job) : Event → Job → Prop
  | release {c : ClientId} {n pri delay : UInt32} {body : Option Bytes} (hid : job.id = n.toNat)
    (hheld : job.isHeldBy c = true) : Changes now job (.command c (.release n pri delay) body)
      ((job.countRelease pri.toNat).placed now (seconds delay.toNat))
  | bury {c : ClientId} {n pri : UInt32} {body : Option Bytes} (hid : job.id = n.toNat)
    (hheld : job.isHeldBy c = true) :
    Changes now job (.command c (.bury n pri) body) (job.makeBuried pri.toNat)
  | touch {c : ClientId} {n : UInt32} {body : Option Bytes} (hid : job.id = n.toNat)
    (hheld : job.isHeldBy c = true) : Changes now job (.command c (.touch n) body) (job.renew now c)
  | take {c : ClientId} {n : UInt32} {body : Option Bytes} (hid : job.id = n.toNat)
    (hopen : Engine.isReservable job = true) :
    Changes now job (.command c (.reserveJob n) body) (job.makeReserved now c)
  | delete {c : ClientId} {n : UInt32} {body : Option Bytes} (hid : job.id = n.toNat)
    (hdel : job.state ≠ .deleted) (hholder : job.holder?.all (· = c) = true) :
    Changes now job (.command c (.delete n) body) job.discarded
  | kickJob {c : ClientId} {n : UInt32} {body : Option Bytes} (hid : job.id = n.toNat)
    (hopen : Engine.isKickable job = true) :
    Changes now job (.command c (.kickJob n) body) job.countKick.makeReady
  | kick {c : ClientId} {bound : UInt32} {body : Option Bytes}
    (hopen : Engine.isKickable job = true) :
    Changes now job (.command c (.kick bound) body) job.countKick.makeReady
  | abandon {c : ClientId} (hheld : job.isHeldBy c = true) :
    Changes now job (.disconnect c) job.makeReady
  | promote (hdue : Engine.isDue now job = true) : Changes now job .delayedSweep job.makeReady
  | expire (hover : Engine.isOverdue now job = true) :
    Changes now job .expirySweep job.countTimeout.makeReady

namespace Event

variable {now : Instant} {job y : Job} {c : ClientId} {n pri delay : UInt32} {body : Option Bytes}

theorem Changes.id {event : Event} (h : event.Changes now job y) : y.id = job.id := by
  cases h with
  | release => exact (Job.placed_frame _ _ _).1
  | _ => rfl

/-- No event has a change for a job that is deleted. -/
theorem Changes.not_deleted {event : Event} (h : event.Changes now job y) :
    job.state ≠ .deleted := by
  cases h with
  | release _ hheld | bury _ hheld | touch _ hheld | abandon hheld =>
    exact Job.not_deleted_of_isHeldBy hheld
  | take _ hopen => exact fun hst => by simp [Engine.isReservable, hst] at hopen
  | delete _ hdel _ => exact hdel
  | kick hopen | kickJob _ hopen => exact fun hst => by simp [Engine.isKickable, hst] at hopen
  | promote hdue => exact fun hst => by simp [Engine.isDue, hst] at hdue
  | expire hover => exact fun hst => by simp [Engine.isOverdue, hst] at hover

theorem changes_release : (command c (.release n pri delay) body).Changes now job y ↔
    job.id = n.toNat ∧ job.isHeldBy c = true ∧
      y = (job.countRelease pri.toNat).placed now (seconds delay.toNat) :=
  ⟨fun | .release hid hheld => ⟨hid, hheld, rfl⟩, fun ⟨hid, hheld, hy⟩ => hy ▸ .release hid hheld⟩

theorem changes_bury : (command c (.bury n pri) body).Changes now job y ↔
    job.id = n.toNat ∧ job.isHeldBy c = true ∧ y = job.makeBuried pri.toNat :=
  ⟨fun | .bury hid hheld => ⟨hid, hheld, rfl⟩, fun ⟨hid, hheld, hy⟩ => hy ▸ .bury hid hheld⟩

theorem changes_touch : (command c (.touch n) body).Changes now job y ↔
    job.id = n.toNat ∧ job.isHeldBy c = true ∧ y = job.renew now c :=
  ⟨fun | .touch hid hheld => ⟨hid, hheld, rfl⟩, fun ⟨hid, hheld, hy⟩ => hy ▸ .touch hid hheld⟩

theorem changes_reserveJob : (command c (.reserveJob n) body).Changes now job y ↔
    job.id = n.toNat ∧ Engine.isReservable job = true ∧ y = job.makeReserved now c :=
  ⟨fun | .take hid hopen => ⟨hid, hopen, rfl⟩, fun ⟨hid, hopen, hy⟩ => hy ▸ .take hid hopen⟩

theorem changes_delete : (command c (.delete n) body).Changes now job y ↔
    job.id = n.toNat ∧ (job.state ≠ .deleted && job.holder?.all (· = c)) = true ∧
      y = job.discarded := by
  rw [Bool.and_eq_true, decide_eq_true_eq]
  exact ⟨fun | .delete hid hdel hholder => ⟨hid, ⟨hdel, hholder⟩, rfl⟩,
    fun ⟨hid, ⟨hdel, hholder⟩, hy⟩ => hy ▸ .delete hid hdel hholder⟩

theorem changes_kickJob : (command c (.kickJob n) body).Changes now job y ↔
    job.id = n.toNat ∧ Engine.isKickable job = true ∧ y = job.countKick.makeReady :=
  ⟨fun | .kickJob hid hopen => ⟨hid, hopen, rfl⟩, fun ⟨hid, hopen, hy⟩ => hy ▸ .kickJob hid hopen⟩

end Event

/-- Whether an event may leave out jobs that it has a change for. -/
def Event.leavesOut : Event → Bool
  | .command _ (.kick _) _ | .delayedSweep => true
  | _ => false

namespace Engine

/-- Whether an event does anything. Those of clients that are not connected do not. -/
def admits (s : Engine) : Event → Bool
  | .command c _ _ | .disconnect c => s.isConnected c
  | _ => true

/-- The job that an event puts. -/
def newcomer? (s : Engine) : Event → Option Job
  | .command c (.put pri delay ttr _) (some body) =>
    if s.isConnected c then
      (s.client? c).map fun client =>
        (s.newJob client.used pri.toNat (seconds delay.toNat) (seconds ttr.toNat) body).placed
          s.now (seconds delay.toNat)
    else none
  | _ => none

theorem newcomer?_put {s : Engine} {client : Client} (hc : s.client? client.id = some client)
    (hcon : s.isConnected client.id = true) (pri delay ttr size : UInt32) (body : Bytes) :
    s.newcomer? (.command client.id (.put pri delay ttr size) (some body)) =
      some ((s.newJob client.used pri.toNat (seconds delay.toNat) (seconds ttr.toNat) body).placed
        s.now (seconds delay.toNat)) := by
  simp only [newcomer?, hcon, hc, if_true, Option.map_some]

theorem newcomer?_eq_some {s : Engine} {event : Event} {job : Job}
    (h : s.newcomer? event = some job) : ∃ c pri delay ttr size body,
      ∃ client : Client, event = .command c (.put pri delay ttr size) (some body) ∧
        s.isConnected c = true ∧ job = (s.newJob client.used pri.toNat (seconds delay.toNat)
          (seconds ttr.toNat) body).placed s.now (seconds delay.toNat) := by
  unfold newcomer? at h
  split at h
  · next c pri delay ttr size body =>
    split at h
    · next hc =>
      obtain ⟨client, -, rfl⟩ := Option.map_eq_some_iff.1 h
      exact ⟨c, pri, delay, ttr, size, body, client, rfl, hc, rfl⟩
    · cases h
  · cases h

/-- An event has a change for a job that it may not leave out. -/
structure Demands (s : Engine) (event : Event) (job : Job) : Prop where
  admits : s.admits event = true
  whole : event.leavesOut = false
  change : ∃ y, event.Changes s.now job y

/-- A job is changed as an event has it, or left as it is. -/
inductive Treats (s : Engine) (event : Event) (job : Job) : Job → Prop
  | changed {y : Job} (hadmits : s.admits event = true) (h : event.Changes s.now job y) :
    Treats s event job y
  | spared (h : ¬s.Demands event job) : Treats s event job job

/-- A job is treated, and may then be handed out. -/
def Becomes (s : Engine) (event : Event) (job x : Job) : Prop :=
  ∃ y, s.Treats event job y ∧ (x = y ∨ y.Goes s.now none x)

theorem Becomes.id {s : Engine} {event : Event} {job x : Job} (h : s.Becomes event job x) :
    x.id = job.id := by
  obtain ⟨y, ht, hgoes⟩ := h
  obtain ⟨hid, -, -⟩ := Job.frame_of_goes hgoes
  cases ht with
  | changed _ h => exact hid.trans h.id
  | spared => exact hid

/-- A job that is deleted stays as it is. -/
theorem Becomes.of_deleted {s : Engine} {event : Event} {job x : Job} (h : s.Becomes event job x)
    (hdel : job.state = .deleted) : x = job := by
  obtain ⟨y, ht, hgoes⟩ := h
  cases ht with
  | changed _ h => exact absurd hdel h.not_deleted
  | spared => exact Job.eq_of_goes hgoes fun hready => nomatch hdel.symm.trans hready

/-- The jobs after an event. -/
structure Recorded (s : Engine) (event : Event) (t : Engine) : Prop where
  keys : t.jobs.keys = s.jobs.keys ++ (s.newcomer? event).toList.map Job.id
  jobs : ∀ x ∈ t.jobs, (∃ job ∈ s.jobs, s.Becomes event job x) ∨
    ∃ job, s.newcomer? event = some job ∧ (x = job ∨ job.Goes s.now none x)

variable {s t u : Engine} {event : Event} {treats : Job → Job → Prop}

/-- A job that was there goes on, and no other job has its number. -/
theorem Recorded.goes_on (h : Recorded s event t) (hs : Sound none none s) {job : Job}
    (hj : job ∈ s.jobs) :
    (∃ x ∈ t.jobs, x.id = job.id) ∧ ∀ x ∈ t.jobs, x.id = job.id → s.Becomes event job x := by
  have hkey : job.id ∈ s.jobs.keys := List.mem_map_of_mem (f := Keyed.key) hj
  constructor
  · have hkept : job.id ∈ t.jobs.keys := by
      rw [h.keys]
      exact List.mem_append_left _ hkey
    exact List.mem_map.1 hkept
  · intro x hx hid
    rcases h.jobs x hx with ⟨old, hold, hb⟩ | ⟨new, hnew, hgoes⟩
    · exact hs.listed.job_ext hold hj (hb.id.symm.trans hid) ▸ hb
    · obtain ⟨c, pri, delay, ttr, size, body, client, -, -, rfl⟩ := newcomer?_eq_some hnew
      have hnext : x.id = s.nextJob :=
        (Job.frame_of_goes hgoes).1.trans (Job.placed_frame _ _ _).1
      exact absurd (hid.symm.trans hnext) (id_ne_nextJob hs.listed.jobs hj)

/-- A job that is put is there afterwards, and may have been handed out. -/
theorem Recorded.arrives (h : Recorded s event t) (hs : Sound none none s) {job : Job}
    (hnew : s.newcomer? event = some job) :
    ∃ x ∈ t.jobs, x.id = job.id ∧ (x = job ∨ job.Goes s.now none x) := by
  have hkey : job.id ∈ t.jobs.keys := by
    rw [h.keys, hnew]
    exact List.mem_append_right _ List.mem_cons_self
  obtain ⟨x, hx, hid⟩ := List.mem_map.1 hkey
  refine ⟨x, hx, hid, ?_⟩
  rcases h.jobs x hx with ⟨old, hold, hb⟩ | ⟨new, hnew', hgoes⟩
  · obtain ⟨c, pri, delay, ttr, size, body, client, -, -, rfl⟩ := newcomer?_eq_some hnew
    have hnext : old.id = s.nextJob := (hb.id.symm.trans hid).trans (Job.placed_frame _ _ _).1
    exact absurd hnext (id_ne_nextJob hs.listed.jobs hold)
  · exact Option.some.inj (hnew'.symm.trans hnew) ▸ hgoes

/-- No job is put, and all jobs are treated. -/
theorem Evolves.recorded {who : Option ClientId} {s₀ : Engine} (h : Evolves treats who s₀ t)
    (hnow : s₀.now = s.now) (hjobs : s₀.jobs = s.jobs) (hnone : s.newcomer? event = none)
    (htreats : ∀ job ∈ s.jobs, ∀ y, treats job y → s.Treats event job y) :
    Recorded s event t := by
  refine ⟨by rw [hnone, h.keys, hjobs]; exact (List.append_nil _).symm, fun x hx => Or.inl ?_⟩
  obtain ⟨job, hj, y, hy, hgoes⟩ := h.jobs x hx
  have hj : job ∈ s.jobs := hjobs ▸ hj
  exact ⟨job, hj, y, htreats job hj y hy, hgoes.imp_right fun ⟨hst, c, _, hx⟩ =>
    ⟨hst, c, nofun, hnow ▸ hx⟩⟩

/-- An event that has no change for any job. -/
theorem recorded_of_jobs (hjobs : t.jobs = s.jobs) (hnone : s.newcomer? event = none)
    (hspared : ∀ job ∈ s.jobs, s.admits event = true → ∀ y, ¬event.Changes s.now job y) :
    Recorded s event t := by
  refine ⟨by rw [hnone, hjobs]; exact (List.append_nil _).symm, fun x hx => Or.inl ?_⟩
  have hx : x ∈ s.jobs := hjobs ▸ hx
  exact ⟨x, hx, x, .spared fun ⟨hadmits, _, y, hchange⟩ => hspared x hx hadmits y hchange,
    Or.inl rfl⟩

theorem Recorded.of_jobs (h : Recorded s event t) (hjobs : u.jobs = t.jobs) :
    Recorded s event u :=
  ⟨hjobs ▸ h.keys, hjobs ▸ h.jobs⟩

/-! ## A new job -/

/-- The new job is placed, and ready jobs may be handed out. -/
theorem jobs_put (hs : Sound none none s) {name : TubeName} (hname : name ∈ s.tubes.keys)
    (pri : Nat) (delay ttr : Millis) (body : Bytes) :
    (s.put name pri delay ttr body).jobs.keys = s.jobs.keys ++ [s.nextJob] ∧
      ∀ x ∈ (s.put name pri delay ttr body).jobs, ∃ y, (y ∈ s.jobs ∨
        y = (s.newJob name pri delay ttr body).placed s.now delay) ∧
          (x = y ∨ y.Goes s.now none x) := by
  have hcourse : Course none none s s := .refl hs.listed.jobs
  obtain ⟨hb, -, -⟩ := makeJob_keeps hs name pri delay ttr body hcourse hname
  have hj := job?_makeJob hs name pri delay ttr body
  have hevolves : Evolves (fun job y => y = if job.id = s.nextJob then job.placed s.now delay
      else job) none (s.makeJob name pri delay ttr body) (s.put name pri delay ttr body) := by
    rw [put_eq hs]
    split
    · next hdelay =>
      have hmove : Evolves _ none _ _ := .once (f := (·.makeReady)) hb.listed.jobs hj rfl rfl
      simp only [Job.placed, if_pos hdelay]
      exact (hmove.drain (sound_makeJob_ready hs name pri delay ttr body hname)
        fun _ _ => Option.some_ne_none _).2
    · next hdelay =>
      simp only [Job.placed, if_neg hdelay]
      exact .once (f := (·.makeDelayed s.now delay)) hb.listed.jobs hj rfl rfl
  refine ⟨hevolves.keys.trans List.map_append, fun x hx => ?_⟩
  obtain ⟨job, hmem, y, rfl, hgoes⟩ := hevolves.jobs x hx
  refine ⟨_, ?_, hgoes⟩
  rcases List.mem_append.1 hmem with hmem | hmem
  · rw [if_neg (id_ne_nextJob hs.listed.jobs hmem)]
    exact Or.inl hmem
  · obtain rfl := List.mem_singleton.1 hmem
    exact Or.inr (if_pos rfl)

theorem recorded_put {client : Client} (hs : Sound none none s)
    (hc : s.client? client.id = some client) (hopen : client.closed = false)
    (pri delay ttr size : UInt32) (body : Bytes) :
    Recorded s (.command client.id (.put pri delay ttr size) (some body))
      ((s.adjustClient client.id fun client => { client with producer := true }).put client.used
        pri.toNat (seconds delay.toNat) (seconds ttr.toNat) body) := by
  obtain ⟨hmem, -⟩ := (client?_eq_some_iff hs.listed.clients).1 hc
  have hmarked : Sound none none
      (s.adjustClient client.id fun client => { client with producer := true }) :=
    hs.adjustClient client.id (fun _ => ⟨rfl, rfl, rfl, rfl⟩) fun d hd _ =>
      ⟨hs.posted.used d hd, hs.posted.watching d hd, hs.posted.distinct d hd⟩
  obtain ⟨hkeys, hjobs⟩ := jobs_put hmarked (hs.posted.used client hmem) pri.toNat
    (seconds delay.toNat) (seconds ttr.toNat) body
  have hcon : s.isConnected client.id = true := by simp [isConnected, hc, hopen]
  have hnew := newcomer?_put hc hcon pri delay ttr size body
  refine ⟨?_, fun x hx => ?_⟩
  · rw [hkeys, hnew, Option.toList_some, List.map_singleton, (Job.placed_frame _ _ _).1]
    rfl
  · obtain ⟨y, hy | rfl, hgoes⟩ := hjobs x hx
    · refine Or.inl ⟨y, hy, y, .spared ?_, hgoes⟩
      rintro ⟨_, _, _, hchange⟩
      cases hchange
    · exact Or.inr ⟨_, hnew, hgoes⟩

end Engine

namespace Broker

open Engine

variable {b : Broker} {c : ClientId} {id : JobId} {event : Event}

/-! ## Commands by number -/

section ByNumber

variable {isOpenTo : Job → Bool} {f : Job → Job}

/-- A transition by number is refused if no job of the number is open to it. -/
theorem onJob_or {go : Job → Engine} (act : Engine → JobId → Bool × Engine)
    (hs : Sound none none b.engine) (hact : act b.engine id = b.engine.transition id isOpenTo go) :
    (b.onJob id act = (false, b.engine) ∧ ∀ job ∈ b.engine.jobs, job.id = id →
        job.state ≠ .deleted → isOpenTo job = false) ∨
      ∃ job, b.engine.find? id = some job ∧ isOpenTo job = true ∧
        b.onJob id act = (true, go job) := by
  rcases onJob_eq act hact with hrefused | hdone
  · refine Or.inl ⟨hrefused, fun job hj hid hdel => Bool.eq_false_iff.2 fun hopen => ?_⟩
    rw [onJob_of_open hact (hs.find?_eq_some_iff.2 ⟨hj, hid, hdel⟩) hopen] at hrefused
    cases hrefused
  · exact Or.inr hdone

variable (hnone : b.engine.newcomer? event = none)
  (hlive : ∀ job, isOpenTo job = true → job.state ≠ .deleted)
  (hchanges : ∀ job y, event.Changes b.engine.now job y ↔
    job.id = id ∧ isOpenTo job = true ∧ y = f job)

include hnone hchanges

omit hlive in
theorem recorded_of_found {job : Job} {t : Engine} (hs : Sound none none b.engine)
    (hadmits : b.engine.admits event = true) (hf : b.engine.find? id = some job)
    (hopen : isOpenTo job = true)
    (h : Evolves (fun old y => y = if old.id = job.id then f old else old) none b.engine t) :
    Recorded b.engine event t := by
  obtain ⟨hj, rfl, -⟩ := hs.find?_eq_some_iff.1 hf
  refine h.recorded rfl rfl hnone fun old hold y hy => ?_
  by_cases hid : old.id = job.id
  · obtain rfl := hs.listed.job_ext hold hj hid
    rw [if_pos rfl] at hy
    exact .changed hadmits ((hchanges old y).2 ⟨rfl, hopen, hy⟩)
  · rw [if_neg hid] at hy
    rw [hy]
    exact .spared fun ⟨_, _, y, hchange⟩ => hid ((hchanges old y).1 hchange).1

include hlive

theorem recorded_of_refused (h : ∀ job ∈ b.engine.jobs, job.id = id → job.state ≠ .deleted →
    isOpenTo job = false) : Recorded b.engine event b.engine := by
  refine recorded_of_jobs rfl hnone fun job hj _ y hchange => ?_
  obtain ⟨hid, hopen, -⟩ := (hchanges job y).1 hchange
  exact Bool.eq_false_iff.1 (h job hj hid (hlive job hopen)) hopen

theorem recorded_onJob {go : Job → Engine} {act : Engine → JobId → Bool × Engine}
    (hs : Sound none none b.engine) (hadmits : b.engine.admits event = true)
    (hact : act b.engine id = b.engine.transition id isOpenTo go)
    (hgo : ∀ job, b.engine.job? job.id = some job → job.id = id → isOpenTo job = true →
      Evolves (fun old y => y = if old.id = job.id then f old else old) none b.engine (go job)) :
    Recorded b.engine event (b.onJob id act).2 := by
  rcases onJob_or act hs hact with ⟨hon, hrefused⟩ | ⟨job, hf, hopen, hon⟩
  · rw [hon]
    exact recorded_of_refused hnone hlive hchanges hrefused
  · obtain ⟨hj, hid, -⟩ := find?_eq_some hf
    rw [hon]
    exact recorded_of_found hnone hchanges hs hadmits hf hopen
      (hgo job (hid.symm ▸ hj) hid hopen)

end ByNumber

section Commands

variable (hs : Sound none none b.engine) (hc : b.isConnected c = true) (n : UInt32)
  (body : Option Bytes)

include hs hc

theorem recorded_release (pri delay : UInt32) :
    Recorded b.engine (.command c (.release n pri delay) body)
      (b.perform c (.release n pri delay) body).2.engine := by
  have hact : b.engine.release c n.toNat pri.toNat (seconds delay.toNat) =
      b.engine.transition n.toNat (·.isHeldBy c) fun job =>
        if seconds delay.toNat = 0 then b.engine.enterReady job (·.countRelease pri.toNat)
        else b.engine.move n.toNat fun job =>
          (job.countRelease pri.toNat).makeDelayed b.engine.now (seconds delay.toNat) := rfl
  refine recorded_onJob rfl (fun _ => Job.not_deleted_of_isHeldBy)
    (fun _ _ => Event.changes_release) hs hc hact fun job hj hid hheld => ?_
  rw [← hid]
  unfold Job.placed
  split
  · exact .enterReady hs hj (.release rfl hheld pri.toNat)
  · exact .once hs.listed.jobs hj rfl rfl

theorem recorded_bury (pri : UInt32) : Recorded b.engine (.command c (.bury n pri) body)
    (b.perform c (.bury n pri) body).2.engine :=
  recorded_onJob rfl (fun _ => Job.not_deleted_of_isHeldBy) (fun _ _ => Event.changes_bury) hs hc
    rfl fun _ hj hid _ => hid ▸ .once hs.listed.jobs hj rfl rfl

theorem recorded_touch : Recorded b.engine (.command c (.touch n) body)
    (b.perform c (.touch n) body).2.engine :=
  recorded_onJob rfl (fun _ => Job.not_deleted_of_isHeldBy) (fun _ _ => Event.changes_touch) hs hc
    rfl fun _ hj hid _ => hid ▸ .once hs.listed.jobs hj rfl rfl

theorem recorded_kickJob : Recorded b.engine (.command c (.kickJob n) body)
    (b.perform c (.kickJob n) body).2.engine := by
  refine recorded_onJob rfl (fun _ hopen hst => ?_) (fun _ _ => Event.changes_kickJob) hs hc rfl
    fun job hj _ hopen => ?_
  · simp [isKickable, hst] at hopen
  · have hr : Return b.engine.now none job (·.countKick) := .kick hopen
    exact .enterReady hs hj hr

theorem recorded_reserveJob : Recorded b.engine (.command c (.reserveJob n) body)
    (b.perform c (.reserveJob n) body).2.engine := by
  have hrecorded : Recorded b.engine (.command c (.reserveJob n) body)
      (b.onJob n.toNat (·.reserveJob c)).2 := by
    refine recorded_onJob rfl (fun _ hopen hst => ?_) (fun _ _ => Event.changes_reserveJob) hs
      hc (reserveJob_of_isConnected hc n.toNat)
      fun job hj hid _ => hid ▸ .once hs.listed.jobs hj rfl rfl
    simp [isReservable, hst] at hopen
  unfold perform reserveJob
  dsimp only
  split
  · refine hrecorded.of_jobs ?_
    rw [watchDeadlines_eq]
    rfl
  · exact hrecorded

theorem recorded_delete : Recorded b.engine (.command c (.delete n) body)
    (b.perform c (.delete n) body).2.engine := by
  have hact : b.engine.delete c n.toNat = b.engine.transition n.toNat
      (fun job => job.state ≠ .deleted && job.holder?.all (· = c))
      fun _ => b.engine.move n.toNat (·.makeDeleted) := rfl
  rcases onJob_or (·.delete c) hs hact with ⟨hon, hrefused⟩ | ⟨job, hf, hopen, hon⟩
  · simp only [perform, delete, hon]
    exact recorded_of_refused rfl (fun _ h => of_decide_eq_true (Bool.and_eq_true_iff.1 h).1)
      (fun _ _ => Event.changes_delete) hrefused
  · obtain ⟨hj, hid, -⟩ := find?_eq_some hf
    simp only [perform, delete, hon, hf]
    refine recorded_of_found rfl (fun _ _ => Event.changes_delete) hs hc hf hopen ?_
    rw [← hid] at hj ⊢
    change Evolves _ _ _ (b.engine.discard job)
    rw [discard_eq hj]
    have honce : Evolves _ none _ _ := .once (f := Job.discarded) hs.listed.jobs hj rfl rfl
    exact honce.aside (.adjustTube _ _ _)

end Commands

/-! ## Events -/

/-- A ready job may be handed out when a client asks for one. -/
theorem recorded_reserve (hs : Sound none none b.engine) (hc : b.isConnected c = true)
    (timeout : Option Millis) (hnone : b.engine.newcomer? event = none)
    (hspared : ∀ job y, ¬event.Changes b.engine.now job y) :
    Recorded b.engine event (b.reserve c timeout).2.engine := by
  obtain ⟨client, rfl, hclient, hopen⟩ := client?_of_isConnected hc
  obtain ⟨worker, -, hopen, hworker, hasked⟩ := reserve_passage hclient hopen timeout
  have hmarked := sound_markWorker hs client.id
  refine (evolves_asked hmarked hworker hopen hasked).recorded rfl rfl hnone fun job _ y hy => ?_
  rw [hy]
  exact .spared fun ⟨_, _, y, hchange⟩ => hspared job y hchange

/-- A command of a connected client changes the records as it should. -/
theorem perform_recorded (hs : Sound none none b.engine) (hc : b.isConnected c = true)
    (command : Command) (body : Option Bytes) :
    Recorded b.engine (.command c command body) (b.perform c command body).2.engine := by
  cases command with
  | put pri delay ttr size =>
    cases body with
    | some body =>
      obtain ⟨client, rfl, hclient, hopen⟩ := client?_of_isConnected hc
      simp only [perform, put, hclient]
      exact recorded_put hs hclient hopen pri delay ttr size body
    | none => exact recorded_of_jobs rfl rfl fun _ _ _ _ h => by cases h
  | reserve => exact recorded_reserve hs hc none rfl fun _ _ h => by cases h
  | reserveWithTimeout timeout => exact recorded_reserve hs hc _ rfl fun _ _ h => by cases h
  | reserveJob n => exact recorded_reserveJob hs hc n body
  | release n pri delay => exact recorded_release hs hc n body pri delay
  | delete n => exact recorded_delete hs hc n body
  | bury n pri => exact recorded_bury hs hc n body pri
  | touch n => exact recorded_touch hs hc n body
  | kickJob n => exact recorded_kickJob hs hc n body
  | kick bound =>
    unfold perform kick
    dsimp only
    split
    · next client _ =>
      refine (evolving_kick hs client.used bound.toNat).evolves.recorded rfl rfl rfl
        fun job _ y hy => ?_
      rcases hy with rfl | ⟨hopen, rfl⟩
      · exact .spared fun hdemands => by cases hdemands.whole
      · exact .changed hc (.kick hopen)
    · next hnone =>
      obtain ⟨client, -, hclient, -⟩ := client?_of_isConnected hc
      cases hnone.symm.trans hclient
  | _ =>
    refine recorded_of_jobs (Aside.jobs (aside_perform b c rfl body)) rfl fun _ _ _ _ h => ?_
    cases h

/-- A client that is closed gives back the jobs that it holds. -/
theorem recorded_close {client : Client} {s : Engine} (hs : Sound none none s)
    (hc : s.client? client.id = some client) (hcon : s.isConnected client.id = true) :
    Recorded s (.disconnect client.id) (s.close client.id) := by
  have hdone := hs.finishAll client.id
  have hfree : ∀ q, (s.finishAll client.id).isOpen q = true → some q.client ≠ some client.id :=
    fun _ => ne_of_isOpen_finishAll
  have hgiven := evolving_giveBackAll hdone hfree
  have hc' : (s.finishAll client.id).client? client.id =
      some { client with tasks := client.tasks.finishAll } :=
    (client?_adjustClient s client.id (fun _ => by rfl) client.id).trans (by simp [hc])
  have hheld := not_held_giveBackAll hc' hdone hfree
  have hevolves := hgiven.complete (fun _ hheld => .giveBack rfl hheld)
    fun x hx => decide_eq_false (hheld x hx)
  obtain ⟨-, haside⟩ := leave_tubes client.watching (hgiven.sound.removeUser client.used)
  have hleft := hevolves.aside ((Aside.adjustTube _ client.used _).trans haside)
  have hrecorded : Recorded s (.disconnect client.id) (client.watching.foldl removeWatcher
      (((s.finishAll client.id).giveBackAll client.id).removeUser client.used)) := by
    refine hleft.recorded rfl rfl rfl fun job _ y hy => ?_
    rw [hy]
    split
    · next hheld => exact .changed hcon (.abandon hheld)
    · next hnot => exact .spared fun ⟨_, _, _, hchange⟩ => by cases hchange; contradiction
  rw [close_eq hc]
  exact hrecorded.of_jobs rfl

/-- An expiry sweep takes all jobs that are overdue. -/
theorem recorded_expirySweep {s : Engine} (hs : s.Whole) :
    Recorded s .expirySweep s.expirySweep.2 := by
  have hswept := evolving_expirySweep hs.sound
  have hevolves := hswept.complete (fun _ hover => .expire hover) fun x hx => by
    refine Bool.eq_false_iff.2 fun hover => ?_
    unfold isOverdue at hover
    split at hover
    · next c due hst =>
      have hlate := unexpired_sweep hs c x hx due hst
      rw [hswept.evolves.now] at hlate
      exact Nat.not_le_of_lt hlate (of_decide_eq_true hover)
    · cases hover
  refine hevolves.recorded rfl rfl rfl fun job _ y hy => ?_
  rw [hy]
  split
  · next hover => exact .changed rfl (.expire hover)
  · next hnot => exact .spared fun ⟨_, _, _, hchange⟩ => by cases hchange; contradiction

/-- An event changes the records in its way, and puts at most one job. -/
theorem Reachable.recorded (h : Reachable b) (event : Event) :
    Recorded b.engine event (b.step event).engine := by
  have hs := h.sound
  cases event with
  | connect => exact recorded_of_jobs rfl rfl fun _ _ _ _ h => by cases h
  | command c command body =>
    rw [Broker.step]
    split
    · next hc =>
      have hs' : Sound none none (b.record command.verb).engine := by rwa [engine_record]
      have hc' : (b.record command.verb).isConnected c = true := by
        rwa [Broker.isConnected, engine_record]
      have h := perform_recorded hs' hc' command body
      rwa [engine_record] at h
    · next hc =>
      refine recorded_of_jobs rfl ?_ fun _ _ hadmits => absurd hadmits hc
      unfold newcomer?
      split
      · next heq =>
        cases heq
        exact if_neg hc
      · rfl
  | disconnect c =>
    rw [Broker.step]
    split
    · next hc =>
      obtain ⟨client, rfl, hclient, -⟩ := client?_of_isConnected hc
      exact recorded_close hs hclient hc
    · next hc => exact recorded_of_jobs rfl rfl fun _ _ hadmits => absurd hadmits hc
  | advance span =>
    obtain ⟨-, hjobs, -⟩ :=
      foldl_fireTimer_frame (b.engine.now + span) b.engine.requests b.engine
    exact recorded_of_jobs hjobs rfl fun _ _ _ _ h => by cases h
  | delayedSweep =>
    refine (evolving_delayedSweep hs).evolves.recorded rfl rfl rfl fun job _ y hy => ?_
    rcases hy with rfl | ⟨hdue, rfl⟩
    · exact .spared fun hdemands => by cases hdemands.whole
    · exact .changed rfl (.promote hdue)
  | expirySweep => exact recorded_expirySweep ⟨hs, h.tended⟩

end Broker

end WorkQueue

import WorkQueue.Proofs.History
import WorkQueue.Proofs.Records

/-!
# What a run tells of a job

Tests of the events of a run : whether the holder of a job is told that it was released, buried or
deleted, whether the job is brought by its number or kicked, or its holder leaves, or its time to
run is up. What a test says is read off the reply (`Broker.releases_iff` and so on), and for a job
that is there, it says that the event has a change for it (`Broker.demands_of_releases` and so on).
A test of a job that is not there fails, so a job is told of only from its put on
(`Broker.history_eq_nil`).

`Broker.given?` is the priority that a job is given by a put, a release or a burial that succeeds,
with the delay that goes with it.
-/

namespace WorkQueue

namespace Reply

def isNotice (notice : Notice) : Reply → Bool
  | .now (.notice other) => other = notice
  | _ => false

/-- Whether a reply tells that a new job has a number. -/
def inserts (id : JobId) : Reply → Bool
  | .now (.inserted n) => n = id
  | _ => false

/-- Whether a reply brings the job of a number. -/
def brings (id : JobId) : Reply → Bool
  | .now (.reserved n _) => n = id
  | _ => false

end Reply

/-- Whether an event is a kick, by number or not. -/
def Event.isKick : Event → Bool
  | .command _ (.kick _) _ | .command _ (.kickJob _) _ => true
  | _ => false

namespace Broker

open Engine

variable {b : Broker} {c : ClientId} {id : JobId} {event : Event} {job x y : Job}

/-! ## Tests -/

/-- Whether there is a job of a number, and it passes a test. -/
def finds (b : Broker) (id : JobId) (test : Job → Bool) : Bool :=
  (b.engine.find? id).any test

def releases (id : JobId) (b : Broker) : Event → Bool
  | .command c (.release n pri delay) body => n.toNat = id && (b.isConnected c &&
      (b.dispatch c (.release n pri delay) body).1.isNotice .released)
  | _ => false

def buries (id : JobId) (b : Broker) : Event → Bool
  | .command c (.bury n pri) body => n.toNat = id && (b.isConnected c &&
      (b.dispatch c (.bury n pri) body).1.isNotice .buried)
  | _ => false

def deletes (id : JobId) (b : Broker) : Event → Bool
  | .command c (.delete n) body => n.toNat = id && (b.isConnected c &&
      (b.dispatch c (.delete n) body).1.isNotice .deleted)
  | _ => false

/-- A job is reserved by its number. -/
def fetches (id : JobId) (b : Broker) : Event → Bool
  | .command c (.reserveJob n) body => n.toNat = id && (b.isConnected c &&
      (b.dispatch c (.reserveJob n) body).1.brings id)
  | _ => false

/-- A kick moves a job. -/
def kicks (id : JobId) (b : Broker) (event : Event) : Bool :=
  event.isKick && (b.finds id isKickable && !(b.step event).finds id isKickable)

/-- The holder of a job leaves. -/
def abandons (id : JobId) (b : Broker) : Event → Bool
  | .disconnect c => b.finds id (·.isHeldBy c)
  | _ => false

/-- The expiry sweep finds a job overdue. -/
def expires (id : JobId) (b : Broker) : Event → Bool
  | .expirySweep => b.finds id (isOverdue b.engine.now)
  | _ => false

/-- The delayed sweep moves a job that is due. -/
def promotes (id : JobId) (b : Broker) : Event → Bool
  | .delayedSweep => b.finds id (isDue b.engine.now) &&
      !(b.step .delayedSweep).finds id (isDue b.engine.now)
  | _ => false

/-- The priority that a job is given by an event that succeeds, and the delay, if it is put or
released. -/
def given? (id : JobId) (b : Broker) : Event → Option (Nat × Option Millis)
  | .command c (.put pri delay ttr size) body =>
    if b.isConnected c && (b.dispatch c (.put pri delay ttr size) body).1.inserts id then
      some (pri.toNat, some (seconds delay.toNat))
    else none
  | .command c (.release n pri delay) body =>
    if releases id b (.command c (.release n pri delay) body) then
      some (pri.toNat, some (seconds delay.toNat))
    else none
  | .command c (.bury n pri) body =>
    if buries id b (.command c (.bury n pri) body) then some (pri.toNat, none) else none
  | _ => none

/-! ## Replies -/

theorem finds_record (b : Broker) (verb : Verb) (id : JobId) (test : Job → Bool) :
    (b.record verb).finds id test = b.finds id test := by
  rw [finds, engine_record]
  rfl

section Replies

variable {isOpenTo : Job → Bool} {go : Job → Engine} {act : Engine → JobId → Bool × Engine}

variable (act) in
/-- A transition by number is carried out if a job is open to it. -/
theorem fst_onJob (hact : act b.engine id = b.engine.transition id isOpenTo go) :
    (b.onJob id act).1 = b.finds id isOpenTo := by
  cases hf : b.engine.find? id with
  | none => simp [onJob, finds, hf]
  | some job =>
    rw [finds, hf, Option.any_some]
    cases hopen : isOpenTo job with
    | true => rw [onJob_of_open hact hf hopen]
    | false => rw [onJob_of_not_open hact hf hopen]

variable (act) in
theorem isNotice_acknowledge {notice : Notice} (hnotice : .notFound ≠ notice)
    (hact : act b.engine id = b.engine.transition id isOpenTo go) :
    (b.acknowledge notice (b.onJob id act)).1.isNotice notice = b.finds id isOpenTo := by
  rw [← fst_onJob act hact]
  simp only [acknowledge, Reply.isNotice]
  cases (b.onJob id act).1 with
  | true => exact decide_eq_true rfl
  | false => exact decide_eq_false hnotice

end Replies

section ByNumber

variable (b c) (n : UInt32) (body : Option Bytes)

theorem isNotice_release (pri delay : UInt32) :
    (b.dispatch c (.release n pri delay) body).1.isNotice .released =
      b.finds n.toNat (·.isHeldBy c) := by
  rw [dispatch, ← finds_record b (Command.release n pri delay).verb]
  exact isNotice_acknowledge (·.release c · _ _) nofun rfl

theorem isNotice_bury (pri : UInt32) :
    (b.dispatch c (.bury n pri) body).1.isNotice .buried = b.finds n.toNat (·.isHeldBy c) := by
  rw [dispatch, ← finds_record b (Command.bury n pri).verb]
  exact isNotice_acknowledge (·.bury c · _) nofun rfl

theorem isNotice_delete : (b.dispatch c (.delete n) body).1.isNotice .deleted =
    b.finds n.toNat fun job => job.state ≠ .deleted && job.holder?.all (· = c) := by
  rw [dispatch, ← finds_record b (Command.delete n).verb]
  set d := b.record (Command.delete n).verb
  have hact : d.engine.delete c n.toNat = d.engine.transition n.toNat
      (fun job => job.state ≠ .deleted && job.holder?.all (· = c))
      fun _ => d.engine.move n.toNat (·.makeDeleted) := rfl
  rw [← fst_onJob (·.delete c) hact]
  rcases onJob_eq (·.delete c) hact with hon | ⟨job, hf, -, hon⟩
  · simp only [perform, delete, hon]
    rfl
  · simp only [perform, delete, hon, hf]
    rfl

theorem brings_reserveJob (hc : b.isConnected c = true) :
    (b.dispatch c (.reserveJob n) body).1.brings n.toNat = b.finds n.toNat isReservable := by
  rw [dispatch, ← finds_record b (Command.reserveJob n).verb]
  have hc : (b.record (Command.reserveJob n).verb).engine.isConnected c = true := by
    rwa [engine_record]
  set d := b.record (Command.reserveJob n).verb
  have hact := reserveJob_of_isConnected hc n.toNat
  rw [← fst_onJob (·.reserveJob c) hact]
  rcases onJob_eq (·.reserveJob c) hact with hon | ⟨job, hf, -, hon⟩
  · simp only [perform, reserveJob, hon]
    rfl
  · simp only [perform, reserveJob, hon, hf]
    exact decide_eq_true rfl

end ByNumber

/-! ## What the tests say -/

theorem releases_iff : b.releases id event = true ↔ ∃ c n pri delay body,
    event = .command c (.release n pri delay) body ∧ b.isConnected c = true ∧ n.toNat = id ∧
      b.finds id (·.isHeldBy c) = true := by
  constructor
  · intro htest
    unfold releases at htest
    split at htest
    · next c n pri delay body =>
      simp only [Bool.and_eq_true, decide_eq_true_eq, isNotice_release] at htest
      obtain ⟨rfl, hc, hheld⟩ := htest
      exact ⟨c, n, pri, delay, body, rfl, hc, rfl, hheld⟩
    · cases htest
  · rintro ⟨c, n, pri, delay, body, rfl, hc, rfl, hheld⟩
    simp [releases, hc, isNotice_release, hheld]

theorem buries_iff : b.buries id event = true ↔ ∃ c n pri body,
    event = .command c (.bury n pri) body ∧ b.isConnected c = true ∧ n.toNat = id ∧
      b.finds id (·.isHeldBy c) = true := by
  constructor
  · intro htest
    unfold buries at htest
    split at htest
    · next c n pri body =>
      simp only [Bool.and_eq_true, decide_eq_true_eq, isNotice_bury] at htest
      obtain ⟨rfl, hc, hheld⟩ := htest
      exact ⟨c, n, pri, body, rfl, hc, rfl, hheld⟩
    · cases htest
  · rintro ⟨c, n, pri, body, rfl, hc, rfl, hheld⟩
    simp [buries, hc, isNotice_bury, hheld]

theorem deletes_iff : b.deletes id event = true ↔ ∃ c n body,
    event = .command c (.delete n) body ∧ b.isConnected c = true ∧ n.toNat = id ∧
      (b.finds id fun job => job.state ≠ .deleted && job.holder?.all (· = c)) = true := by
  constructor
  · intro htest
    unfold deletes at htest
    split at htest
    · next c n body =>
      rw [Bool.and_eq_true, Bool.and_eq_true, decide_eq_true_eq, isNotice_delete] at htest
      obtain ⟨rfl, hc, hopen⟩ := htest
      exact ⟨c, n, body, rfl, hc, rfl, hopen⟩
    · cases htest
  · rintro ⟨c, n, body, rfl, hc, rfl, hopen⟩
    rw [deletes, isNotice_delete, hopen, hc, decide_eq_true rfl]
    rfl

theorem fetches_iff : b.fetches id event = true ↔ ∃ c n body,
    event = .command c (.reserveJob n) body ∧ b.isConnected c = true ∧ n.toNat = id ∧
      b.finds id isReservable = true := by
  constructor
  · intro htest
    unfold fetches at htest
    split at htest
    · next c n body =>
      rw [Bool.and_eq_true, Bool.and_eq_true, decide_eq_true_eq] at htest
      obtain ⟨rfl, hc, hopen⟩ := htest
      rw [brings_reserveJob b c n body hc] at hopen
      exact ⟨c, n, body, rfl, hc, rfl, hopen⟩
    · cases htest
  · rintro ⟨c, n, body, rfl, hc, rfl, hopen⟩
    rw [fetches, brings_reserveJob b c n body hc, hopen, hc, decide_eq_true rfl]
    rfl

/-- A put that is answered with a number has the next one. -/
theorem inserts_put (hc : b.isConnected c = true) (pri delay ttr size : UInt32)
    (body : Option Bytes) : (b.dispatch c (.put pri delay ttr size) body).1.inserts id =
      (body.isSome && decide (b.engine.nextJob = id)) := by
  obtain ⟨client, -, hclient, -⟩ := client?_of_isConnected hc
  cases body with
  | none => rfl
  | some body =>
    simp only [dispatch, perform, put, engine_record, hclient, Reply.inserts]
    rfl

/-- A put gives the next job its priority and its delay. -/
theorem given?_put (hc : b.isConnected c = true) (pri delay ttr size : UInt32) (body : Bytes) :
    b.given? b.engine.nextJob (.command c (.put pri delay ttr size) (some body)) =
      some (pri.toNat, some (seconds delay.toNat)) := by
  refine if_pos ?_
  rw [inserts_put hc, decide_eq_true rfl]
  exact Bool.and_eq_true_iff.2 ⟨hc, rfl⟩

/-- The job of a put that is answered with a number. -/
theorem newcomer?_of_inserts {pri delay ttr size : UInt32} {body : Option Bytes}
    (hc : b.isConnected c = true)
    (hinserts : (b.dispatch c (.put pri delay ttr size) body).1.inserts id = true) :
    ∃ name text, b.engine.newcomer? (.command c (.put pri delay ttr size) body) =
      some ((b.engine.newJob name pri.toNat (seconds delay.toNat) (seconds ttr.toNat) text).placed
        b.engine.now (seconds delay.toNat)) ∧ b.engine.nextJob = id := by
  rw [inserts_put hc, Bool.and_eq_true, decide_eq_true_eq] at hinserts
  obtain ⟨hbody, hid⟩ := hinserts
  obtain ⟨text, rfl⟩ := Option.isSome_iff_exists.1 hbody
  obtain ⟨client, rfl, hclient, -⟩ := client?_of_isConnected hc
  exact ⟨client.used, text, newcomer?_put hclient hc pri delay ttr size text, hid⟩

theorem mem_keys_of_finds {test : Job → Bool} (h : b.finds id test = true) :
    id ∈ b.engine.jobs.keys := by
  obtain ⟨job, hf, -⟩ := (Option.any_eq_true _ _).1 h
  obtain ⟨hj, rfl, -⟩ := find?_eq_some hf
  exact List.mem_map_of_mem (f := Keyed.key) (Table.mem_of_lookup hj)

/-- A job that is there and not deleted is found by its number. -/
theorem finds_eq (hs : Sound none none b.engine) (hj : job ∈ b.engine.jobs) {test : Job → Bool}
    (hlive : test job = true → job.state ≠ .deleted) : b.finds job.id test = test job := by
  by_cases hdel : job.state = .deleted
  · have hnot : test job = false := Bool.eq_false_iff.2 fun htest => hlive htest hdel
    rw [hnot, finds, Option.any_eq_false]
    intro x hx
    obtain ⟨hmem, hid, hlive⟩ := hs.find?_eq_some_iff.1 hx
    exact absurd (hs.listed.job_ext hmem hj hid ▸ hdel) hlive
  · rw [finds, hs.find?_eq_some_iff.2 ⟨hj, rfl, hdel⟩, Option.any_some]

theorem finds_isHeldBy (hs : Sound none none b.engine) (hj : job ∈ b.engine.jobs) (c : ClientId) :
    (b.finds job.id fun job => job.isHeldBy c) = job.isHeldBy c :=
  finds_eq hs hj Job.not_deleted_of_isHeldBy

theorem finds_isOverdue (hs : Sound none none b.engine) (hj : job ∈ b.engine.jobs) :
    b.finds job.id (isOverdue b.engine.now) = isOverdue b.engine.now job :=
  finds_eq hs hj fun hover hst => by simp [isOverdue, hst] at hover

theorem finds_isKickable (hs : Sound none none b.engine) (hj : job ∈ b.engine.jobs) :
    b.finds job.id isKickable = isKickable job :=
  finds_eq hs hj fun hopen hst => by simp [isKickable, hst] at hopen

theorem finds_isDue (hs : Sound none none b.engine) (hj : job ∈ b.engine.jobs) (now : Instant) :
    b.finds job.id (isDue now) = isDue now job :=
  finds_eq hs hj fun hdue hst => by simp [isDue, hst] at hdue

/-! ## A job that is there -/

/-- A job that has come back to ready cannot be kicked. -/
theorem not_kickable_of_goes {now : Instant} {who : Option ClientId} (h : x = y ∨ y.Goes now who x)
    (hst : y.state = .ready) : isKickable x = false := by
  rcases Job.state_of_goes h hst with hst | ⟨_, _, hst⟩ <;> rw [isKickable, hst]

section Changes

variable (hs : Sound none none b.engine) (hj : job ∈ b.engine.jobs)

include hs hj

theorem releases_of_held {n : UInt32} (hc : b.isConnected c = true) (hid : job.id = n.toNat)
    (hheld : job.isHeldBy c = true) (pri delay : UInt32) (body : Option Bytes) :
    b.releases job.id (.command c (.release n pri delay) body) = true :=
  releases_iff.2 ⟨c, n, pri, delay, body, rfl, hc, hid.symm, (finds_isHeldBy hs hj c).trans hheld⟩

theorem demands_of_releases (h : b.releases job.id event = true) :
    b.engine.Demands event job := by
  obtain ⟨c, n, pri, delay, body, rfl, hc, hid, hheld⟩ := releases_iff.1 h
  exact ⟨hc, rfl, _, .release hid.symm ((finds_isHeldBy hs hj c).symm.trans hheld)⟩

theorem buries_of_held {n : UInt32} (hc : b.isConnected c = true) (hid : job.id = n.toNat)
    (hheld : job.isHeldBy c = true) (pri : UInt32) (body : Option Bytes) :
    b.buries job.id (.command c (.bury n pri) body) = true :=
  buries_iff.2 ⟨c, n, pri, body, rfl, hc, hid.symm, (finds_isHeldBy hs hj c).trans hheld⟩

theorem demands_of_buries (h : b.buries job.id event = true) : b.engine.Demands event job := by
  obtain ⟨c, n, pri, body, rfl, hc, hid, hheld⟩ := buries_iff.1 h
  exact ⟨hc, rfl, _, .bury hid.symm ((finds_isHeldBy hs hj c).symm.trans hheld)⟩

theorem deletes_of_open {n : UInt32} (hc : b.isConnected c = true) (hid : job.id = n.toNat)
    (hdel : job.state ≠ .deleted) (hholder : job.holder?.all (· = c) = true)
    (body : Option Bytes) : b.deletes job.id (.command c (.delete n) body) = true := by
  refine deletes_iff.2 ⟨c, n, body, rfl, hc, hid.symm, ?_⟩
  rw [finds_eq hs hj fun _ => hdel, decide_eq_true hdel, hholder]
  rfl

/-- A job that is deleted becomes a discarded one, and an event that deletes it has to. -/
theorem changes_of_deletes (h : b.deletes job.id event = true) : b.engine.Demands event job ∧
    ∀ y, event.Changes b.engine.now job y → y = job.discarded := by
  obtain ⟨c, n, body, rfl, hc, hid, hopen⟩ := deletes_iff.1 h
  rw [finds_eq hs hj fun hopen => of_decide_eq_true (Bool.and_eq_true_iff.1 hopen).1] at hopen
  exact ⟨⟨hc, rfl, _, Event.changes_delete.2 ⟨hid.symm, hopen, rfl⟩⟩,
    fun _ hchange => (Event.changes_delete.1 hchange).2.2⟩

theorem demands_of_abandons (h : b.abandons job.id event = true) :
    b.engine.Demands event job := by
  cases event with
  | disconnect c =>
    have hheld : job.isHeldBy c = true := (finds_isHeldBy hs hj c).symm.trans h
    obtain ⟨due, hst⟩ := Job.isHeldBy_iff.1 hheld
    exact ⟨hs.listed.holders job hj c due hst, rfl, _, .abandon hheld⟩
  | _ => cases h

theorem demands_of_expires (h : b.expires job.id event = true) : b.engine.Demands event job := by
  cases event with
  | expirySweep => exact ⟨rfl, rfl, _, .expire ((finds_isOverdue hs hj).symm.trans h)⟩
  | _ => cases h

/-- A kick moves a job if it can be kicked before and not after. -/
theorem kicks_eq (hs' : Sound none none (b.step event).engine)
    (hx : x ∈ (b.step event).engine.jobs) (hid : x.id = job.id) :
    b.kicks job.id event = (event.isKick && (isKickable job && !isKickable x)) := by
  rw [kicks, finds_isKickable hs hj, ← hid, finds_isKickable hs' hx]

end Changes

/-! ## A job that is not there -/

theorem mem_keys_of_releases (b : Broker) (event : Event) (h : b.releases id event = true) :
    id ∈ b.engine.jobs.keys := by
  obtain ⟨c, n, pri, delay, body, -, -, -, hfinds⟩ := releases_iff.1 h
  exact mem_keys_of_finds hfinds

theorem mem_keys_of_buries (b : Broker) (event : Event) (h : b.buries id event = true) :
    id ∈ b.engine.jobs.keys := by
  obtain ⟨c, n, pri, body, -, -, -, hfinds⟩ := buries_iff.1 h
  exact mem_keys_of_finds hfinds

theorem mem_keys_of_kicks (b : Broker) (event : Event) (h : b.kicks id event = true) :
    id ∈ b.engine.jobs.keys :=
  mem_keys_of_finds (Bool.and_eq_true_iff.1 (Bool.and_eq_true_iff.1 h).2).1

theorem mem_keys_of_abandons (b : Broker) (event : Event) (h : b.abandons id event = true) :
    id ∈ b.engine.jobs.keys := by
  cases event with
  | disconnect c => exact mem_keys_of_finds h
  | _ => cases h

theorem mem_keys_of_expires (b : Broker) (event : Event) (h : b.expires id event = true) :
    id ∈ b.engine.jobs.keys := by
  cases event with
  | expirySweep => exact mem_keys_of_finds h
  | _ => cases h

/-- Jobs stay on record. -/
theorem Reachable.keys_step (h : Reachable b) (event : Event) :
    b.engine.jobs.keys ⊆ (b.step event).engine.jobs.keys := by
  rw [(h.recorded event).keys]
  exact List.subset_append_left _ _

/-- A run tells nothing of a job that is not there in the end. -/
theorem history_eq_nil {α : Type} {tell? : Broker → Event → Option α}
    (htell : ∀ b event, Reachable b → (tell? b event).isSome = true →
      id ∈ (b.step event).engine.jobs.keys) (h : Reachable b) (events : List Event)
    (hid : id ∉ (b.after events).engine.jobs.keys) : b.history tell? events = [] := by
  induction events using List.reverseRecOn with
  | nil => rfl
  | append_singleton earlier event ih =>
    have hearlier := h.after earlier
    rw [after_append] at hid
    have hnone : tell? (b.after earlier) event = none :=
      Option.not_isSome_iff_eq_none.1 fun hsome => hid (htell _ event hearlier hsome)
    rw [history_append, hnone, ih fun hmem => hid (hearlier.keys_step event hmem)]
    rfl

theorem times_eq_zero {test : Broker → Event → Bool}
    (htest : ∀ b event, test b event = true → id ∈ b.engine.jobs.keys) (h : Reachable b)
    (events : List Event) (hid : id ∉ (b.after events).engine.jobs.keys) :
    b.times test events = 0 := by
  refine List.length_eq_zero_iff.2 (history_eq_nil (fun d event hd hsome => ?_) h events hid)
  split at hsome
  · next hpass => exact hd.keys_step event (htest d event hpass)
  · cases hsome

end Broker

end WorkQueue

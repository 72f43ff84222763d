import Mathlib.Logic.Relation
import WorkQueue.Broker.Event
import WorkQueue.Proofs.Move

/-!
# What an event can do

An event is a row of stages. A `Stage` is the least change between two states in which everything
that this theory claims holds : a job comes back to ready and is offered to the queue (`Return`), it
moves to another list (`Shift`), it is put or discarded, a tube resumes, or some record changes that
no list depends on. `Engine.Passage` adds what is not such a row : a reservation, the advance of the
clock and the closing of a client. `Broker.step_passage` shows that this is all an event can do.

A stage is indexed by the client that acts on a job it holds, if one does. Sweeps and kicks act for
nobody, so the jobs that they find reserved and not overdue stay reserved.
-/

namespace WorkQueue

open Relation

/-- The changes of record with which a job comes back to ready. -/
inductive Return (now : Instant) (who : Option ClientId) (job : Job) : (Job → Job) → Prop
  | giveBack {c : ClientId} (hw : who = some c) (h : job.isHeldBy c = true) :
    Return now who job fun job => job
  | release {c : ClientId} (hw : who = some c) (h : job.isHeldBy c = true) (pri : Nat) :
    Return now who job (·.countRelease pri)
  | kick (h : Engine.isKickable job = true) : Return now who job (·.countKick)
  | promote (h : Engine.isDue now job = true) : Return now who job fun job => job
  | expire (h : Engine.isOverdue now job = true) : Return now who job (·.countTimeout)

/-- The changes of record with which a job moves to a list other than that of the ready ones. -/
inductive Shift (s : Engine) (who : Option ClientId) (job : Job) : (Job → Job) → Prop
  | take {c : ClientId} (hw : who = none) (hc : s.isConnected c = true)
    (h : Engine.isReservable job = true) (htended : c ∈ s.expiring) :
    Shift s who job (·.makeReserved s.now c)
  | touch {c : ClientId} (hw : who = some c) (h : job.isHeldBy c = true) :
    Shift s who job (·.renew s.now c)
  | bury {c : ClientId} (hw : who = some c) (h : job.isHeldBy c = true) (pri : Nat) :
    Shift s who job (·.makeBuried pri)
  | postpone {c : ClientId} (hw : who = some c) (h : job.isHeldBy c = true) (pri : Nat)
    (delay : Millis) (hdelay : delay ≠ 0) :
    Shift s who job fun job => (job.countRelease pri).makeDelayed s.now delay

namespace Engine

/-- A job is made in a tube, counted and placed. -/
def put (s : Engine) (name : TubeName) (pri : Nat) (delay ttr : Millis) (body : Bytes) : Engine :=
  (((s.create name pri delay ttr body).adjustTube name fun tube =>
    { tube with totalJobs := tube.totalJobs + 1 }).enqueue s.nextJob).2

/-- A job is deleted, forgotten and counted. -/
def discard (s : Engine) (job : Job) : Engine :=
  ((s.move job.id (·.makeDeleted)).unregister job.id).adjustTube job.tube
    fun tube => { tube with cmdDelete := tube.cmdDelete + 1 }

/-- A client is struck off its tubes and closed. -/
def depart (s : Engine) (client : Client) : Engine :=
  (client.watching.foldl removeWatcher (s.removeUser client.used)).adjustClient client.id
    fun client => { client with closed := true, watching := [] }

inductive Stage (who : Option ClientId) (s : Engine) : Engine → Prop
  | back {job : Job} {f : Job → Job} (hj : s.job? job.id = some job)
    (h : Return s.now who job f) : Stage who s (s.enterReady job f)
  | shift {job : Job} {f : Job → Job} (hj : s.job? job.id = some job)
    (h : Shift s who job f) : Stage who s (s.move job.id f)
  | put (client : Client) (hc : s.client? client.id = some client) (pri : Nat)
    (delay ttr : Millis) (body : Bytes) : Stage who s (s.put client.used pri delay ttr body)
  | discard {job : Job} (hj : s.job? job.id = some job) (hst : job.state ≠ .deleted)
    (hw : ∀ c, job.holder? = some c → who = some c) : Stage who s (s.discard job)
  | resume (name : TubeName) : Stage who s (s.resume name)
  | pause (name : TubeName) (span : Millis) :
    Stage who s (s.adjustTube name (·.startPause s.now span))
  | connect : Stage who s s.openClient
  | use (c : ClientId) (name : TubeName) : Stage who s (s.useTube c name)
  | watch (c : ClientId) (name : TubeName) : Stage who s (s.watch c name)
  | ignore (c : ClientId) (name : TubeName) : Stage who s (s.ignore c name)
  | produce (c : ClientId) :
    Stage who s (s.adjustClient c fun client => { client with producer := true })
  | work (c : ClientId) : Stage who s (Broker.markWorker s c)
  | expect (c : ClientId) : Stage who s (s.watchDeadlines c)
  | dropIdle (c : ClientId) : Stage who s (s.dropIdle c)

/-- Stages in a row. -/
abbrev Stages (who : Option ClientId) : Engine → Engine → Prop :=
  ReflTransGen (Stage who)

/-- What an event can do to the engine. Only one that `asks` for a job makes a request. -/
inductive Passage (asks : Option (ClientId × Option Millis)) (s : Engine) : Engine → Prop
  | stages {t : Engine} (h : Stages none s t) : Passage asks s t
  | act {c : ClientId} {t : Engine} (h : Stage (some c) s t) : Passage asks s t
  | reserve {c : ClientId} {timeout : Option Millis} (hasks : asks = some (c, timeout))
    (hc : s.isConnected c = true) : Passage asks s ((Broker.markWorker s c).reserve c timeout)
  | advance (span : Millis) : Passage asks s (s.advance span)
  | close {c : ClientId} (hc : s.isConnected c = true) : Passage asks s (s.close c)

variable {s : Engine} {who : Option ClientId}

/-! ## Transitions as stages -/

/-- A transition is refused, or carried out on the job of its number. -/
theorem transition_cases {id : JobId} {isOpenTo : Job → Bool} {go : Job → Engine}
    {P : Engine → Prop} (hrefused : (∀ job, s.job? id = some job → isOpenTo job = false) → P s)
    (hgo : ∀ job, s.job? job.id = some job → job.id = id → isOpenTo job = true → P (go job)) :
    P (s.transition id isOpenTo go).2 := by
  unfold transition
  split
  · next job hj =>
    have hid : job.id = id := Table.key_of_lookup hj
    split
    · next ho => exact hgo job (hid.symm ▸ hj) hid ho
    · next ho =>
      refine hrefused fun x hx => ?_
      obtain rfl := Option.some.inj (hj.symm.trans hx)
      exact eq_false_of_ne_true ho
  · next hj => exact hrefused fun x hx => nomatch hj.symm.trans hx

theorem stages_giveBack (c : ClientId) (id : JobId) : Stages (some c) s (s.giveBack c id).2 :=
  transition_cases (fun _ => .refl) fun _ hj _ h => .single (.back hj (.giveBack rfl h))

theorem stages_kickJob (id : JobId) : Stages who s (s.kickJob id).2 :=
  transition_cases (fun _ => .refl) fun _ hj _ h => .single (.back hj (.kick h))

theorem stages_promote (id : JobId) : Stages who s (s.promote id).2 :=
  transition_cases (fun _ => .refl) fun _ hj _ h => .single (.back hj (.promote h))

theorem stages_expire (id : JobId) : Stages who s (s.expire id).2 :=
  transition_cases (fun _ => .refl) fun _ hj _ h => .single (.back hj (.expire h))

/-- What each of some operations keeps together with its count, a row of them keeps with the total.
-/
theorem foldl_counted {α β : Type} {R : Nat → Engine → Prop} (count : β → Nat)
    {go : Engine → α → β × Engine} (hgo : ∀ s a n, R n s → R (n + count (go s a).1) (go s a).2)
    (as : List α) {n : Nat} (h : R n s) :
    R (as.foldl (fun sum a => (sum.1 + count (go sum.2 a).1, (go sum.2 a).2)) (n, s)).1
      (as.foldl (fun sum a => (sum.1 + count (go sum.2 a).1, (go sum.2 a).2)) (n, s)).2 := by
  induction as generalizing n s with
  | nil => exact h
  | cons a rest ih => exact ih (hgo s a n h)

theorem foldl_keeps {α β : Type} {P : Engine → Prop} (count : β → Nat)
    {go : Engine → α → β × Engine} (hgo : ∀ s a, P s → P (go s a).2) (as : List α) (n : Nat)
    (h : P s) : P (as.foldl (fun total a =>
      (total.1 + count (go total.2 a).1, (go total.2 a).2)) (n, s)).2 :=
  foldl_counted (R := fun _ => P) count (fun s a _ h => hgo s a h) as h

theorem transitionEach_keeps {P : Engine → Prop} {go : Engine → JobId → Bool × Engine}
    (hgo : ∀ s id, P s → P (go s id).2) (ids : List JobId) (h : P s) :
    P (transitionEach go s ids).2 :=
  foldl_keeps Bool.toNat hgo ids 0 h

theorem stages_foldl {α β : Type} (count : β → Nat) {go : Engine → α → β × Engine}
    (hgo : ∀ s a, Stages who s (go s a).2) (as : List α) (n : Nat) (s : Engine) :
    Stages who s (as.foldl (fun total a =>
      (total.1 + count (go total.2 a).1, (go total.2 a).2)) (n, s)).2 :=
  foldl_keeps count (fun t a h => h.trans (hgo t a)) as n .refl

theorem stages_transitionEach {go : Engine → JobId → Bool × Engine}
    (hgo : ∀ s id, Stages who s (go s id).2) (ids : List JobId) :
    Stages who s (transitionEach go s ids).2 :=
  transitionEach_keeps (fun t id h => h.trans (hgo t id)) ids .refl

theorem stages_kick (name : TubeName) (bound : Nat) : Stages who s (s.kick name bound).2 := by
  unfold kick
  split
  · exact stages_transitionEach (fun _ id => stages_kickJob id) _
  · exact .refl

/-! ## Sweeps as stages -/

theorem stages_sweepTube (name : TubeName) : Stages who s (s.sweepTube name).2 :=
  (stages_transitionEach (fun _ id => stages_promote id) _).tail (.resume name)

theorem stages_delayedSweep : Stages who s s.delayedSweep.2 :=
  stages_foldl (fun n => n) (fun _ name => stages_sweepTube name) s.tubes.keys 0 s

theorem stages_expireClient (c : ClientId) : Stages who s (s.expireClient c).2 :=
  (stages_transitionEach (fun _ id => stages_expire id) _).tail (.dropIdle c)

theorem stages_expirySweep : Stages who s s.expirySweep.2 :=
  stages_foldl (fun n => n) (fun _ c => stages_expireClient c) s.expiring 0 s

/-! ## Closing a client -/

/-- What giving back one job keeps, giving back all of them keeps. -/
theorem giveBackAll_keeps {c : ClientId} {P : Engine → Prop}
    (hgo : ∀ s id, P s → P (s.giveBack c id).2) (h : P s) : P (s.giveBackAll c) := by
  unfold giveBackAll
  split
  · next client hc =>
    clear hc
    induction client.held generalizing s with
    | nil => exact h
    | cons slot rest ih => exact ih (hgo s slot.job h)
  · exact h

theorem stages_giveBackAll (c : ClientId) : Stages (some c) s (s.giveBackAll c) :=
  giveBackAll_keeps (fun _ id h => h.trans (stages_giveBack c id)) .refl

/-- A client that is closed gives up its requests, gives its jobs back and departs. -/
theorem close_eq {client : Client} (hc : s.client? client.id = some client) :
    s.close client.id = ((s.finishAll client.id).giveBackAll client.id).depart client := by
  simp only [close, hc]
  rfl

end Engine

end WorkQueue

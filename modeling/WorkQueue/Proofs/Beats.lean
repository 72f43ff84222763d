import WorkQueue.Proofs.Reachable

/-!
# Events beat by beat

The stages of an event are made of beats (`Engine.Beat`) : a job becomes ready, a request that waits
gets one, a queue is cut, or something happens that answers nobody. A beat that answers a request
gives it the first ready job of a tube that is not paused (`Engine.Serves`), by priority and then by
number. So a request that waits and is answered with a job gets the one that is first at that very
moment of the event (`Passage.servesWaiting`).
-/

namespace WorkQueue

open Relation

namespace Engine

variable {s t u : Engine} {name : TubeName} {q : Request} {id : JobId} {job : Job} {d : Delivery}
  {who leaving : Option ClientId}

/-! ## The first ready job of a tube -/

/-- A ready job of a tube that no other goes before, by priority and then by number. -/
structure LeastReady (s : Engine) (name : TubeName) (job : Job) : Prop where
  listed : job ∈ s.jobs
  tube : job.tube = name
  state : job.state = .ready
  least : ∀ other ∈ s.jobs, other.tube = name → other.state = .ready →
    job.pri < other.pri ∨ job.pri = other.pri ∧ job.id ≤ other.id

/-- Whether a tube has a ready job and is not paused. -/
def offers (s : Engine) (name : TubeName) : Bool :=
  (s.tube? name).any fun tube => !tube.isPaused s.now && !tube.ready.isEmpty

theorem offers_eq (s : Engine) (name : TubeName) : s.offers name = (s.next? name).isSome := by
  unfold offers next? Tube.next?
  cases s.tube? name with
  | none => rfl
  | some tube =>
    cases hpaused : tube.isPaused s.now <;> cases hready : tube.ready <;> simp [hpaused, hready]

theorem Listed.mem_ready (h : s.Listed) {tube : Tube} (ht : tube ∈ s.tubes) {slot : Slot} :
    slot ∈ tube.ready ↔ ∃ job ∈ s.jobs, job.tube = tube.name ∧ job.state = .ready ∧
      slot = ⟨job.pri, job.id⟩ := by
  rw [← Tube.ready_mem_places, h.places tube ht]
  refine exists_congr fun job => and_congr_right fun _ => and_congr_right fun _ => ?_
  cases hst : job.state <;> simp [Job.place?, hst, eq_comm]

/-- The slot at the head of the ready list is that of the first ready job. -/
theorem Listed.least_of_head? (h : s.Listed) {tube : Tube} (ht : tube ∈ s.tubes) {slot : Slot}
    (hhead : tube.ready.head? = some slot) :
    ∃ job, s.LeastReady tube.name job ∧ slot = ⟨job.pri, job.id⟩ := by
  obtain ⟨rest, hready⟩ := List.head?_eq_some_iff.1 hhead
  obtain ⟨job, hj, htube, hst, rfl⟩ := (h.mem_ready ht).1 (List.mem_of_mem_head? hhead)
  refine ⟨job, ⟨hj, htube, hst, fun other hother hotube host => ?_⟩, rfl⟩
  have hslot := (h.mem_ready ht).2 ⟨other, hother, hotube, host, rfl⟩
  have hsorted := (h.ordered tube ht).ready
  rw [hready] at hslot hsorted
  rcases List.mem_cons.1 hslot with hsame | hrest
  · obtain ⟨hpri, hid⟩ := Slot.mk.inj hsame
    exact Or.inr ⟨hpri.symm, Nat.le_of_eq hid.symm⟩
  · have hbefore := Slot.before_iff.1 ((List.pairwise_cons.1 hsorted).1 _ hrest)
    exact hbefore.imp_right fun ⟨hpri, hid⟩ => ⟨hpri, Nat.le_of_lt hid⟩

theorem LeastReady.unique {other : Job} (hl : s.Listed) (h : s.LeastReady name job)
    (ho : s.LeastReady name other) : job = other := by
  refine hl.job_ext h.listed ho.listed ?_
  have hle := h.least other ho.listed ho.tube ho.state
  have hge := ho.least job h.listed h.tube h.state
  lia

theorem LeastReady.head? {tube : Tube} (hl : s.Listed) (ht : tube ∈ s.tubes)
    (h : s.LeastReady tube.name job) : tube.ready.head? = some ⟨job.pri, job.id⟩ := by
  have hslot := (hl.mem_ready ht).2 ⟨job, h.listed, h.tube, h.state, rfl⟩
  obtain ⟨slot, hhead⟩ := Option.isSome_iff_exists.1
    (List.isSome_head?.2 (List.ne_nil_of_mem hslot))
  obtain ⟨other, hother, rfl⟩ := hl.least_of_head? ht hhead
  rw [hhead, h.unique hl hother]

/-- What a tube hands out next is its first ready job. -/
theorem Listed.least_of_next? (h : s.Listed) (hn : s.next? name = some id) :
    ∃ job, s.job? id = some job ∧ job.id = id ∧ s.LeastReady name job := by
  obtain ⟨tube, ht, -, slot, hhead, rfl⟩ := next?_eq_some_iff.1 hn
  obtain ⟨hmem, rfl⟩ := (tube?_eq_some_iff h.tubes).1 ht
  obtain ⟨job, hleast, rfl⟩ := h.least_of_head? hmem hhead
  exact ⟨job, (job?_eq_some_iff h.jobs).2 ⟨hleast.listed, rfl⟩, rfl, hleast⟩

/-! ## Beats -/

/-- An open request, and the first ready job of a tube that it watches and that is not paused. -/
structure Serves (s : Engine) (q : Request) (job : Job) : Prop where
  asked : q ∈ s.requests
  isOpen : s.isOpen q = true
  connected : s.isConnected q.client = true
  watches : job.tube ∈ q.tubes
  offered : s.offers job.tube = true
  least : s.LeastReady job.tube job

theorem Turn.serves (h : s.Turn name q id) (hc : s.Coherent) :
    ∃ job, job.id = id ∧ s.Serves q job := by
  obtain ⟨job, -, hid, hleast⟩ := hc.listed.least_of_next? h.next
  obtain rfl := hleast.tube
  refine ⟨job, hid, h.mem, h.isOpen, h.connected hc.tracked, h.watches, ?_, hleast⟩
  rw [offers_eq, h.next]
  rfl

/-- The least that happens in an event in which nobody asks for a job. -/
inductive Beat (s : Engine) : Engine → Prop
  /-- A request that waits gets a job. -/
  | serve {q : Request} {job : Job} (h : s.Serves q job) : Beat s (s.grant q job.id)
  /-- Those who have their answer leave a queue. -/
  | cut (name : TubeName) (rest : List RequestId) :
    Beat s (s.adjustTube name fun tube => { tube with waiters := rest })
  /-- A job comes back to ready. -/
  | arrive {who : Option ClientId} {job : Job} {f : Job → Job} (hj : s.job? job.id = some job)
    (h : Return s.now who job f) : Beat s (s.move job.id fun job => (f job).makeReady)
  /-- A job is made. -/
  | make (client : Client) (hc : s.client? client.id = some client) (pri : Nat)
    (delay ttr : Millis) (body : Bytes) : Beat s (s.makeJob client.used pri delay ttr body)
  /-- A new job is ready. -/
  | place {job : Job} (hj : s.job? job.id = some job) (hst : job.state = .new) :
    Beat s (s.move job.id (·.makeReady))
  /-- A pause that has run out is taken off the record. -/
  | unpause {name : TubeName} (h : (s.tube? name).any (·.pauseIsOver s.now) = true) :
    Beat s (s.adjustTube name ({ · with pausedUntil := none }))
  /-- A stage in which nobody is answered. -/
  | still {who : Option ClientId} {t : Engine} (h : Stage who s t)
    (hrequests : t.requests = s.requests) (hanswers : t.deliveries = s.deliveries) : Beat s t
  /-- A client that is being closed gives up its requests. -/
  | giveUp (c : ClientId) : Beat s (s.finishAll c)
  /-- A client is struck off its tubes and closed. -/
  | depart (client : Client) : Beat s (s.depart client)

/-- Beats in a row. -/
abbrev Beats : Engine → Engine → Prop :=
  ReflTransGen Beat

/-- An answer that is given on the way from one state to another : the moment at which it is, with
the request and the job. -/
structure ServedAt (s t : Engine) (d : Delivery) (u : Engine) (q : Request) (job : Job) :
    Prop where
  before : Beats s u
  serves : u.Serves q job
  answer : d = ⟨q.id, .reserved job.id, u.now⟩
  recorded : (u.grant q job.id).deliveries = u.deliveries ++ [d]
  behind : Beats (u.grant q job.id) t

theorem depart_frame (s : Engine) (client : Client) : (s.depart client).requests = s.requests ∧
    (s.depart client).deliveries = s.deliveries := by
  have hwatchers (names : List TubeName) (s : Engine) :
      (names.foldl removeWatcher s).requests = s.requests ∧
        (names.foldl removeWatcher s).deliveries = s.deliveries := by
    induction names generalizing s with
    | nil => exact ⟨rfl, rfl⟩
    | cons name rest ih => exact ih (s.removeWatcher name)
  exact hwatchers client.watching (s.removeUser client.used)

/-- A request that is served has its answer on record. -/
theorem Serves.recorded (h : s.Serves q job) : (s.grant q job.id).requests = s.requests ∧
    (s.grant q job.id).deliveries = s.deliveries ++ [⟨q.id, .reserved job.id, s.now⟩] := by
  obtain ⟨-, hrequests, hdel⟩ := served_frame s q job.id
  rw [grant_eq h.connected]
  exact ⟨hrequests, congrArg (· ++ _) hdel⟩

/-- Nobody asks for a job in a beat, and only one that serves a request answers it. -/
theorem Beat.answers (h : Beat s t) : t.requests = s.requests ∧
    (t.deliveries = s.deliveries ∨ ∃ q job, s.Serves q job ∧ t = s.grant q job.id) := by
  cases h with
  | @serve q job h => exact ⟨h.recorded.1, Or.inr ⟨q, job, h, rfl⟩⟩
  | arrive | place =>
    obtain ⟨-, hrequests, hanswers⟩ := move_frame s _ _
    exact ⟨hrequests, Or.inl hanswers⟩
  | still _ hrequests hanswers => exact ⟨hrequests, Or.inl hanswers⟩
  | depart client => exact (depart_frame s client).imp_right Or.inl
  | cut | make | unpause | giveUp => exact ⟨rfl, Or.inl rfl⟩

theorem Beats.requests (h : Beats s t) : t.requests = s.requests := by
  induction h with
  | refl => rfl
  | tail _ hbeat ih => exact hbeat.answers.1.trans ih

/-- Every answer of a row of beats is that of one of them. -/
theorem Beats.served (h : Beats s t) : ∃ fresh, t.deliveries = s.deliveries ++ fresh ∧
    ∀ d ∈ fresh, ∃ u q job, ServedAt s t d u q job := by
  induction h with
  | refl => exact ⟨[], (List.append_nil _).symm, List.forall_mem_nil _⟩
  | @tail t t' hbeats hbeat ih =>
    obtain ⟨fresh, hfresh, hserved⟩ := ih
    have hold : ∀ d ∈ fresh, ∃ u q job, ServedAt s t' d u q job := fun d hd => by
      obtain ⟨u, q, job, hat⟩ := hserved d hd
      exact ⟨u, q, job, { hat with behind := hat.behind.tail hbeat }⟩
    rcases hbeat.answers.2 with hsame | ⟨q, job, hserves, rfl⟩
    · exact ⟨fresh, hsame.trans hfresh, hold⟩
    · refine ⟨fresh ++ [⟨q.id, .reserved job.id, t.now⟩], ?_, fun d hd => ?_⟩
      · rw [hserves.recorded.2, hfresh, List.append_assoc]
      · rcases List.mem_append.1 hd with hd | hd
        · exact hold d hd
        · rw [List.mem_singleton.1 hd]
          exact ⟨t, q, job, hbeats, hserves, rfl, hserves.recorded.2, .refl⟩

/-! ## Stages as beats -/

theorem beats_drain (h : Sound leaving (some name) s) : Beats s (s.drain name) := by
  refine (h.drain_keeping (R := Beats s) (fun u q id hu hbeats hturn => ?_)
    (fun u rest hbeats => hbeats.tail (.cut name rest)) .refl).2
  obtain ⟨job, rfl, hserves⟩ := hturn.serves hu.toCoherent
  exact hbeats.tail (.serve hserves)

section Stages

variable (hs : Sound leaving none s)

include hs

/-- A job that is put is made and placed, and if it is ready its tube is drained. -/
theorem beats_put {client : Client} (hc : s.client? client.id = some client) (pri : Nat)
    (delay ttr : Millis) (body : Bytes) : Beats s (s.put client.used pri delay ttr body) := by
  have hname := hs.posted.used client (Table.mem_of_lookup hc)
  by_cases hdelay : delay = 0
  · rw [put_eq hs, if_pos hdelay]
    have hmake : Beat s (s.makeJob client.used pri delay ttr body) :=
      .make client hc pri delay ttr body
    have hplace : Beat (s.makeJob client.used pri delay ttr body) _ :=
      .place (job?_makeJob hs client.used pri delay ttr body) rfl
    exact ((ReflTransGen.single hmake).tail hplace).trans
      (beats_drain (sound_makeJob_ready hs client.used pri delay ttr body hname))
  · have hput : s.put client.used pri delay ttr body = _ := put_eq hs ..
    rw [if_neg hdelay] at hput
    obtain ⟨-, hrequests, hanswers⟩ :=
      move_frame (s.makeJob client.used pri delay ttr body) s.nextJob (·.makeDelayed s.now delay)
    have hstage : Stage none s (s.put client.used pri delay ttr body) :=
      .put client hc pri delay ttr body
    exact .single (.still hstage (hput ▸ hrequests) (hput ▸ hanswers))

omit hs in
/-- A stage that is aside of the requests and their answers. -/
theorem beats_aside (h : Stage who s t) (ha : Aside s t) : Beats s t :=
  .single (.still h ha.desk.requests ha.deliveries)

theorem Stage.beats (h : Stage who s t) : Beats s t := by
  have hstage := h
  cases h with
  | @back job f hj hr =>
    have harrive : Beat s (s.move job.id fun job => (f job).makeReady) := .arrive hj hr
    exact .head harrive (beats_drain (hs.comeBack hj hr))
  | put client hc pri delay ttr body => exact beats_put hs hc pri delay ttr body
  | resume name =>
    unfold Engine.resume
    split
    · next hover => exact .head (.unpause hover) (beats_drain (hs.unpause name))
    · exact .refl
  | @shift job f =>
    obtain ⟨-, hrequests, hanswers⟩ := move_frame s job.id f
    exact .single (.still hstage hrequests hanswers)
  | @discard job =>
    obtain ⟨-, hrequests, hanswers⟩ := move_frame s job.id (·.makeDeleted)
    exact .single (.still hstage hrequests hanswers)
  | use c name => exact beats_aside hstage (aside_useTube s c name)
  | watch c name => exact beats_aside hstage (aside_watch s c name)
  | ignore c name => exact beats_aside hstage (aside_ignore s c name)
  | pause | connect | produce | work => exact .single (.still hstage rfl rfl)
  | expect c =>
    rw [watchDeadlines_eq] at hstage ⊢
    exact .single (.still hstage rfl rfl)
  | dropIdle c =>
    have hframe : (s.dropIdle c).requests = s.requests ∧
        (s.dropIdle c).deliveries = s.deliveries := by
      unfold Engine.dropIdle
      split <;> exact ⟨rfl, rfl⟩
    exact .single (.still hstage hframe.1 hframe.2)

theorem Stages.beats (h : Stages who s t)
    (hopen : ∀ q, s.isOpen q = true → some q.client ≠ who) : Beats s t := by
  induction h with
  | refl => exact .refl
  | tail hstages hstage ih =>
    exact ih.trans (hstage.beats (Stages.keeps hstages hs (.refl hs.listed.jobs) hopen).1)

end Stages

/-! ## Answers to those who wait -/

/-- A client is closed beat by beat. -/
theorem beats_close {client : Client} (hs : Sound none none s)
    (hc : s.client? client.id = some client) : Beats s (s.close client.id) := by
  have hgiven := Stages.beats (hs.finishAll client.id) (stages_giveBackAll client.id)
    fun _ => ne_of_isOpen_finishAll
  rw [close_eq hc]
  exact .head (.giveUp client.id) (hgiven.tail (.depart client))

/-- The only answer that comes of asking for a job is that to the new request. -/
theorem Asked.own_answer {client : Client} {timeout : Option Millis} (hs : Sound none none s)
    (hc : s.client? client.id = some client) (hopen : client.closed = false)
    (h : Asked s (s.newRequest client timeout) t) :
    ∃ fresh, t.deliveries = s.deliveries ++ fresh ∧ ∀ d ∈ fresh, d.request = s.nextRequest := by
  cases h with
  | served _ m =>
    refine ⟨_, m.deliveries (coherent_openRequest hs hc hopen timeout), fun d hd => ?_⟩
    rw [List.mem_singleton.1 hd]
    rfl
  | refused =>
    refine ⟨[⟨s.nextRequest, .notFound, s.now⟩], rfl, fun d hd => ?_⟩
    rw [List.mem_singleton.1 hd]
  | waiting =>
    rw [waiting_eq hs hc]
    exact ⟨[], (List.append_nil _).symm, List.forall_mem_nil _⟩

/-- The moments of the answers with a job to those who were waiting. -/
def ServesWaiting (s t : Engine) : Prop :=
  ∃ fresh, t.deliveries = s.deliveries ++ fresh ∧
    ∀ d ∈ fresh, ∀ p ∈ s.requests, d.request = p.id → ∀ id, d.outcome = .reserved id →
      ∃ u job, job.id = id ∧ ServedAt s t d u p job

theorem Beats.servesWaiting (h : Beats s t) (hs : s.Tracked) : ServesWaiting s t := by
  obtain ⟨fresh, hfresh, hserved⟩ := h.served
  refine ⟨fresh, hfresh, fun d hd p hp hrequest id hout => ?_⟩
  obtain ⟨u, q, job, hat⟩ := hserved d hd
  have hq : q ∈ s.requests := hat.before.requests ▸ hat.serves.asked
  have hanswer := hat.answer
  subst hanswer
  obtain rfl := hs.request_ext hp hq hrequest.symm
  exact ⟨u, job, Outcome.reserved.inj hout, hat⟩

/-- Whatever passage it is, a request that was waiting and gets a job is served in a beat of it. -/
theorem Passage.servesWaiting {asks : Option (ClientId × Option Millis)} (h : Passage asks s t)
    (hs : Sound none none s) : ServesWaiting s t := by
  cases h with
  | stages h => exact Beats.servesWaiting (Stages.beats hs h fun _ _ => nofun) hs.tracked
  | act h => exact Beats.servesWaiting (h.beats hs) hs.tracked
  | @reserve c timeout _ hc =>
    obtain ⟨client, rfl, hclient, hopen⟩ := client?_of_isConnected hc
    obtain ⟨worker, -, hopen, hworker, hasked⟩ := reserve_passage hclient hopen timeout
    obtain ⟨fresh, hfresh, hown⟩ := hasked.own_answer (sound_markWorker hs client.id) hworker hopen
    refine ⟨fresh, hfresh, fun d hd p hp hrequest => ?_⟩
    have hnew : p.id = s.nextRequest := hrequest.symm.trans (hown d hd)
    exact absurd (List.mem_map.2 ⟨p, hp, hnew⟩) hs.tracked.numbered.next_not_mem
  | advance span =>
    obtain ⟨fresh, hfresh, htimed⟩ := (advance_keeps hs span).2.answers
    refine ⟨fresh, hfresh, fun d hd p _ _ id hout => ?_⟩
    obtain ⟨q, -, -, -, hnot⟩ := htimed d hd
    exact absurd hout (hnot id)
  | close hc =>
    obtain ⟨client, rfl, hclient, -⟩ := client?_of_isConnected hc
    exact Beats.servesWaiting (beats_close hs hclient) hs.tracked

end Engine

end WorkQueue

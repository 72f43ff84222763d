import WorkQueue.Proofs.Roster
import WorkQueue.Proofs.Timers

/-!
# Warnings about a deadline

A client that is told that a deadline is near has asked with a timeout while it held a job, and the
clock gives the answer at an instant that was fixed then (`Broker.Warned`). What becomes of the job
in between makes no difference to it. So the client is told the truth just if it holds a job by then
whose deadline is no later than the one that set the timer (`Broker.deadlineSoon_traced`), and
it is told so if nothing has befallen that job.
-/

namespace WorkQueue

/-- How far the clock moves on. -/
def Event.span : Event → Millis
  | .advance span => span
  | .connect | .command .. | .disconnect _ | .delayedSweep | .expirySweep => 0

theorem Event.span_of_reservation {event : Event} {asks : ClientId × Option Millis}
    (h : event.reservation? = some asks) : event.span = 0 := by
  cases event with
  | command => rfl
  | _ => cases h

/-- Only if the clock is told to move on does it move. -/
theorem Event.eq_advance {event : Event} (h : 0 < event.span) : event = .advance event.span := by
  cases event with
  | advance => rfl
  | _ => cases h

namespace Engine

variable {s : Engine} {c : ClientId} {i : Instant}

/-- At an instant, a client holds a job whose deadline is at most a second away. -/
def DueSoon (s : Engine) (c : ClientId) (i : Instant) : Prop :=
  ∃ job ∈ s.jobs, ∃ due, job.state = .reserved c due ∧ due ≤ i + safetyMargin

theorem dueSoon_iff : s.DueSoon c i ↔ ∃ due ∈ s.deadlines c, due ≤ i + safetyMargin := by
  simp only [DueSoon, mem_deadlines]
  constructor
  · rintro ⟨job, hj, due, hst, hle⟩
    exact ⟨due, ⟨job, hj, hst⟩, hle⟩
  · rintro ⟨due, ⟨job, hj, hst⟩, hle⟩
    exact ⟨job, hj, due, hst, hle⟩

theorem now_depart (s : Engine) (client : Client) : (s.depart client).now = s.now := by
  have huser : (s.removeUser client.used).now = s.now := rfl
  exact List.foldlRecOn client.watching removeWatcher (motive := fun t => t.now = s.now) huser
    fun t (h : t.now = s.now) _ _ => h

/-- The last answer is a warning only if there is a deadline, and then it comes a second before the
deadline, or at the next instant. -/
theorem soonest_of_lastAnswer {soonest : Option Instant} {timeout : Millis}
    (h : (lastAnswer i soonest timeout).outcome = .deadlineSoon) : ∃ deadline,
      soonest = some deadline ∧
        (lastAnswer i soonest timeout).due = max (i + 1) (deadline - safetyMargin) := by
  unfold lastAnswer at h ⊢
  cases soonest with
  | none => cases h
  | some deadline =>
    refine ⟨deadline, rfl, ?_⟩
    dsimp only at h ⊢
    split at h
    · next hsoon =>
      rw [if_pos hsoon]
      have hmax (now later : Nat) : now + max 1 (later - now) = max (now + 1) later := by omega
      exact hmax i (deadline - safetyMargin)
    · cases h

end Engine

namespace Broker

open Engine

variable {b : Broker} {c : ClientId} {d : Delivery}

theorem now_command_repost (s : Engine) (c : ClientId) (reply : Reply) (command : Command) :
    (command.repost s c reply).now = s.now := by
  cases command with
  | useTube name => exact (aside_useTube s c name).now
  | watch name => exact (aside_watch s c name).now
  | ignore name => exact (aside_ignore s c name).now
  | pauseTube | put | reserveJob =>
    unfold Command.repost
    dsimp only
    split <;> rfl
  | _ => rfl

theorem now_repost (b : Broker) (event : Event) :
    (b.repost event).now = b.engine.now + event.span := by
  cases event with
  | command c command body =>
    rw [repost]
    split
    · exact now_command_repost b.engine c _ command
    · rfl
  | disconnect c =>
    rw [repost]
    split
    · cases b.engine.client? c with
      | none => rfl
      | some client => exact now_depart b.engine client
    · rfl
  | _ => rfl

/-- The clock moves on when it is told to, and at no other event. -/
theorem Reachable.now_step (h : Reachable b) (event : Event) :
    (b.step event).engine.now = b.engine.now + event.span :=
  (h.samePosts event).now.trans (now_repost b event)

/-! ## Where a warning comes from -/

/-- What holds after a row of events and not before comes to hold with one of them. -/
theorem comes_true {P : Broker → Prop} {events : List Event} (hnot : ¬P b)
    (h : P (b.after events)) : ∃ earlier event later, events = earlier ++ event :: later ∧
      ¬P (b.after earlier) ∧ P ((b.after earlier).step event) := by
  induction events generalizing b with
  | nil => exact absurd h hnot
  | cons first rest ih =>
    by_cases hfirst : P (b.step first)
    · exact ⟨[], first, rest, rfl, hnot, hfirst⟩
    · obtain ⟨earlier, event, later, rfl, hbefore, hafter⟩ := ih hfirst h
      exact ⟨first :: earlier, event, later, rfl, hbefore, hafter⟩

section Request

variable {event : Event} {q : Request}

/-- A request comes on record when its client asks. -/
theorem Reachable.made_by (h : Reachable b) (hq : q ∈ (b.step event).engine.requests)
    (hnew : q ∉ b.engine.requests) : event.reservation? = some (q.client, q.timeout) ∧
      b.isConnected q.client = true ∧ q.id = b.engine.nextRequest := by
  rcases (step_passage b event).requests_or_reserve h.sound with hsame | ⟨c, timeout, hasks, hc, -⟩
  · exact absurd (hsame ▸ hq) hnew
  · obtain ⟨client, rfl, hclient, hopen⟩ := client?_of_isConnected hc
    rw [(h.asked_reservation hasks hclient hopen rfl).2] at hq
    obtain rfl := List.mem_singleton.1 ((List.mem_append.1 hq).resolve_left hnew)
    exact ⟨hasks, hc, rfl⟩

theorem Reachable.timer_of_made (h : Reachable b) (hq : q ∈ (b.step event).engine.requests)
    (hnew : q ∉ b.engine.requests) {timeout : Millis} (htimeout : q.timeout = some timeout)
    (hpos : 0 < timeout) : q.timer =
      some (lastAnswer b.engine.now (b.engine.deadlines q.client).min? timeout) := by
  obtain ⟨hasks, hc, hid⟩ := h.made_by hq hnew
  rw [htimeout] at hasks
  obtain ⟨p, hp, hpid, -, -, -, htimer⟩ := h.timer_of_request event hasks hc hpos
  obtain rfl := (h.step event).sound.tracked.request_ext hq hp (hid.trans hpid.symm)
  exact htimer

/-- A warning is what the timer of its request is set to. -/
theorem Reachable.timer_of_warning (h : Reachable b) (hd : d ∈ b.engine.deliveries)
    (hsoon : d.outcome = .deadlineSoon) (hq : q ∈ b.engine.requests) (hid : q.id = d.request)
    {timer : Timer} (htimer : q.timer = some timer) :
    timer.outcome = .deadlineSoon ∧ d.time = timer.due ∧ d.time ≤ b.engine.now := by
  rcases h.punctual.answers d hd q hq hid timer htimer with ⟨⟨id, hjob⟩, -⟩ | ⟨hout, htime, hdue⟩
  · cases hsoon.symm.trans hjob
  · exact ⟨hout.symm.trans hsoon, htime, htime ▸ hdue⟩

/-- The timer of a request that waits is ahead, and only the clock gets to it. -/
theorem Reachable.clock_fires (h : Reachable b) (hp : Punctual 0 b.engine)
    (hq : q ∈ b.engine.requests) (hopen : b.engine.isOpen q = true) {timer : Timer}
    (htimer : q.timer = some timer) (hreached : timer.due ≤ b.engine.now + event.span) :
    b.engine.now < timer.due ∧ event = .advance event.span := by
  have hmade : 1 ≤ q.id := (h.sound.tracked.numbered.mem_keys.1 (List.mem_map_of_mem hq)).1
  have hlate := (hp.ahead q hq timer htimer hopen).2 hmade
  exact ⟨hlate, Event.eq_advance (Nat.lt_of_add_lt_add_left (Nat.lt_of_lt_of_le hlate hreached))⟩

/-- Every answer of a run is given at one of its events, to a request that came on record at that
event or before. -/
theorem answer_traced (config : Config) (events : List Event)
    (hd : d ∈ ((start config).after events).engine.deliveries) :
    ∃ earlier event later before ask rest q,
      let b := (start config).after earlier
      let made := (start config).after before
      events = earlier ++ event :: later ∧ earlier ++ [event] = before ++ ask :: rest ∧
      d ∈ (b.step event).engine.deliveries ∧ Engine.Answer b.engine (b.step event).engine d q ∧
      q ∉ made.engine.requests ∧ q ∈ (made.step ask).engine.requests := by
  obtain ⟨earlier, event, later, hevents, hnew, hd⟩ :=
    @comes_true _ (d ∈ ·.engine.deliveries) _ List.not_mem_nil hd
  have hb := (Reachable.start config).after earlier
  obtain ⟨fresh, hfresh, hanswers⟩ := (hb.progress event).answers
  obtain ⟨q, ha⟩ := hanswers d ((List.mem_append.1 (hfresh ▸ hd)).resolve_left hnew)
  have hasked := ha.asked
  rw [← after_append] at hasked
  obtain ⟨before, ask, rest, hrun, hmade, hq⟩ :=
    @comes_true _ (q ∈ ·.engine.requests) _ List.not_mem_nil hasked
  exact ⟨earlier, event, later, before, ask, rest, q, hevents, hrun, hd, ha, hmade, hq⟩

end Request

/-- A client that holds a job until `deadline`, and none for less long, asks with a timeout. After
the events `between` the clock moves on by `span`, and on the way the client is warned. -/
structure Warned (b : Broker) (ask : Event) (between : List Event) (span : Millis) (d : Delivery)
    (c : ClientId) (deadline : Instant) : Prop where
  asks : ∃ timeout, ask.reservation? = some (c, some timeout)
  connected : b.isConnected c = true
  soonest : (b.engine.deadlines c).min? = some deadline
  request : d.request = b.engine.nextRequest
  time : d.time = max (b.engine.now + 1) (deadline - safetyMargin)
  late : ((b.step ask).after between).engine.now < d.time
  reached : d.time ≤ ((b.step ask).after between).engine.now + span

theorem warned_of_deadlineSoon (config : Config) (events : List Event)
    (hd : d ∈ ((start config).after events).engine.deliveries) (hsoon : d.outcome = .deadlineSoon) :
    ∃ before ask between span later c deadline,
      events = before ++ ask :: between ++ .advance span :: later ∧
        Warned ((start config).after before) ask between span d c deadline := by
  obtain ⟨earlier, clock, later, before, ask, rest, q, rfl, hrun, hd, ha, hmade, hq⟩ :=
    answer_traced config events hd
  have hdue := (Reachable.start config).after earlier
  have hb := (Reachable.start config).after before
  have hadmits := (hdue.step clock).sound.tracked.admitted d hd q ha.asked ha.answers.symm
  rw [hsoon] at hadmits
  obtain ⟨timeout, htimeout, hpos⟩ := hadmits
  obtain ⟨hasks, hc, hid⟩ := hb.made_by hq hmade
  have htimer := hb.timer_of_made hq hmade htimeout hpos
  obtain ⟨hout, htime, hreached⟩ :=
    (hdue.step clock).timer_of_warning hd hsoon ha.asked ha.answers.symm htimer
  obtain ⟨deadline, hsoonest, hlast⟩ := soonest_of_lastAnswer hout
  rw [hdue.now_step, htime] at hreached
  have htime : d.time = max (_ + 1) (deadline - safetyMargin) := htime.trans hlast
  rcases List.eq_nil_or_concat' rest with rfl | ⟨between, last, rfl⟩
  · -- asking takes no time, and no timer is due at once
    obtain ⟨rfl, hask⟩ := List.append_inj' hrun rfl
    obtain rfl := List.head_eq_of_cons_eq hask
    rw [Event.span_of_reservation hasks, hlast] at hreached
    have hlater := Nat.le_trans (Nat.le_max_left _ _) hreached
    exact absurd hlater (Nat.not_succ_le_self _)
  · rw [← List.cons_append, ← List.append_assoc] at hrun
    obtain ⟨rfl, hclock⟩ := List.append_inj' hrun rfl
    obtain rfl := List.head_eq_of_cons_eq hclock
    have hrun : (start config).after (before ++ ask :: between) =
        (((start config).after before).step ask).after between := List.foldl_append ..
    rw [hrun] at hdue hreached ha
    have hwaited := ((hb.step ask).requests_grow between).subset hq
    have hpunctual := (Reachable.start config).punctual_after (Reachable.start config).punctual
      (before ++ ask :: between)
    rw [hrun] at hpunctual
    obtain ⟨hlate, hadvance⟩ :=
      hdue.clock_fires hpunctual hwaited (ha.waited hwaited) htimer hreached
    rw [hadvance]
    exact ⟨before, ask, between, clock.span, later, q.client, deadline, rfl,
      { asks := ⟨timeout, htimeout ▸ hasks⟩
        connected := hc
        soonest := hsoonest
        request := ha.answers.trans hid
        time := htime
        late := htime ▸ hlast ▸ hlate
        reached := htime ▸ hlast ▸ hreached }⟩

/-! ## Whether it is true -/

/-- The time of a warning and the second that it leaves reach to the deadline that set the timer,
and to a second after the first instant of the request. -/
theorem time_add_margin (made deadline : Instant) :
    max (made + 1) (deadline - safetyMargin) + safetyMargin =
      max deadline (made + 1 + safetyMargin) := by
  have hmax (first last margin : Nat) :
      max first (last - margin) + margin = max last (first + margin) := by omega
  exact hmax (made + 1) deadline safetyMargin

/-- A reservation is no event that befalls a job. -/
theorem not_concerns_of_reservation {event : Event} {asks : ClientId × Option Millis}
    (h : event.reservation? = some asks) (now : Instant) (job : Job) :
    event.concerns now job = false := by
  cases event with
  | command c command body =>
    cases command with
    | reserve | reserveWithTimeout => rfl
    | _ => cases h
  | _ => cases h

/-- How many events of a run befall a job that is held. -/
def befalls (job : Job) (b : Broker) (events : List Event) : Nat :=
  b.times (fun b event => event.concerns b.engine.now job) events

theorem Reachable.kept_after (h : Reachable b) {job : Job}
    (hf : b.engine.find? job.id = some job) (hheld : job.IsHeld) {events : List Event}
    (hnone : b.befalls job events = 0) : (b.after events).engine.find? job.id = some job := by
  induction events using List.reverseRecOn with
  | nil => exact hf
  | append_singleton earlier event ih =>
    rw [befalls, times_append, Nat.add_eq_zero_iff] at hnone
    rw [after_append]
    exact (h.after earlier).kept (ih hnone.1) hheld (by simpa using hnone.2)

section Warned

variable {ask : Event} {between : List Event} {span : Millis} {deadline : Instant}

theorem Warned.dueSoon_iff (h : Warned b ask between span d c deadline) (s : Engine) :
    s.DueSoon c d.time ↔
      ∃ due ∈ s.deadlines c, due ≤ max deadline (b.engine.now + 1 + safetyMargin) := by
  rw [Engine.dueSoon_iff, h.time, time_add_margin]

theorem Warned.dueSoon_of_kept (hw : Warned b ask between span d c deadline) (h : Reachable b)
    {job : Job} (hf : b.engine.find? job.id = some job) (hst : job.state = .reserved c deadline)
    (hnone : (b.step ask).befalls job between = 0) :
    ((b.step ask).after between).engine.DueSoon c d.time := by
  obtain ⟨timeout, hasks⟩ := hw.asks
  have hheld : job.IsHeld := ⟨c, deadline, hst⟩
  have hmade := h.kept hf hheld (not_concerns_of_reservation hasks b.engine.now job)
  have hkept := (h.step ask).kept_after hmade hheld hnone
  obtain ⟨hj, -, -⟩ := ((h.step ask).after between).sound.find?_eq_some_iff.1 hkept
  refine ⟨job, hj, deadline, hst, ?_⟩
  rw [hw.time, time_add_margin]
  exact Nat.le_max_left _ _

end Warned

/-- The warning `d` of a run goes back to a request. The client is told the truth just if it holds a
job by then whose deadline is no later than the one that set the timer, or a second after the
request. So it is if nothing befell the job that set the timer. -/
def TracesWarning (config : Config) (events : List Event) (d : Delivery) : Prop :=
  ∃ before ask between span later c deadline,
    events = before ++ ask :: between ++ .advance span :: later ∧
    let b := (start config).after before
    let s := ((b.step ask).after between).engine
    Warned b ask between span d c deadline ∧
    (s.DueSoon c d.time ↔
      ∃ due ∈ s.deadlines c, due ≤ max deadline (b.engine.now + 1 + safetyMargin)) ∧
    ∀ job, b.engine.find? job.id = some job → job.state = .reserved c deadline →
      (b.step ask).befalls job between = 0 → s.DueSoon c d.time

/-- Every warning of a run is traced to its request, and so is its truth. -/
theorem deadlineSoon_traced (config : Config) (events : List Event)
    (hd : d ∈ ((start config).after events).engine.deliveries) (hsoon : d.outcome = .deadlineSoon) :
    TracesWarning config events d := by
  obtain ⟨before, ask, between, span, later, c, deadline, hrun, hw⟩ :=
    warned_of_deadlineSoon config events hd hsoon
  have hb := (Reachable.start config).after before
  exact ⟨before, ask, between, span, later, c, deadline, hrun, hw, hw.dueSoon_iff _,
    fun job hf hst hnone => hw.dueSoon_of_kept hb hf hst hnone⟩

theorem isName_other : TubeName.isName (ascii "other") = true := by decide

/-- A client asks when the time of its job is over, and the job is taken from it right then. -/
def lateSweep : List Event :=
  [.connect, .command 1 (.put 0 0 1 1) (some [120]), .command 1 .reserve none,
    .command 1 (.watch ⟨ascii "other", isName_other⟩) none, .command 1 (.ignore .default) none,
    .advance 1000, .command 1 (.reserveWithTimeout 5) none, .expirySweep]

theorem deadlineSoon_traced_lateSweep :
    ⟨2, .deadlineSoon, 1001⟩ ∈ ((start {}).after (lateSweep ++ [.advance 1])).engine.deliveries ∧
      TracesWarning {} (lateSweep ++ [.advance 1]) ⟨2, .deadlineSoon, 1001⟩ :=
  have hd : ⟨2, .deadlineSoon, 1001⟩ ∈
      ((start {}).after (lateSweep ++ [.advance 1])).engine.deliveries := by decide
  ⟨hd, deadlineSoon_traced {} _ hd rfl⟩

/-- It is warned all the same. -/
theorem deadlineSoon_lateSweep : ¬∀ b, Reachable b → ∀ event,
    ∀ d ∈ (b.step event).engine.deliveries, d ∉ b.engine.deliveries → d.outcome = .deadlineSoon →
      ∀ q ∈ (b.step event).engine.requests, q.id = d.request →
        (b.step event).engine.DueSoon q.client d.time := by
  intro h
  have hsoon := h _ ((Reachable.start {}).after lateSweep) (.advance 1) ⟨2, .deadlineSoon, 1001⟩
    (by decide) (by decide) rfl
  have hasked : ∃ q ∈ (((start {}).after lateSweep).step (.advance 1)).engine.requests,
      q.id = 2 ∧ q.client = 1 := by decide
  obtain ⟨q, hq, hid, hclient⟩ := hasked
  have hholds := Engine.dueSoon_iff.1 (hsoon q hq hid)
  rw [hclient] at hholds
  exact absurd hholds (by decide)

end Broker

end WorkQueue

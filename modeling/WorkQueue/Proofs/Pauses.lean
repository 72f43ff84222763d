import WorkQueue.Proofs.Delays
import WorkQueue.Proofs.HandedOut
import WorkQueue.Proofs.Roster

/-!
# A paused tube keeps its jobs

Until its latest pause is over, no request is answered with a job of a tube, and the ready jobs of
the tube stay as they are, unless they are reserved by their number or deleted
(`Broker.pauses_respected`). When the latest pause ends is read off the run
(`Broker.lastPauseEnd?`), and the tube has it on record until then (`Broker.pause_on_record`).
-/

namespace WorkQueue

namespace Broker

open Engine

variable {b : Broker} {event : Event} {name : TubeName} {job x : Job} {due : Instant}

/-- The end of the pause that an event begins at a tube. -/
def pauseEnd? (name : TubeName) (b : Broker) : Event → Option Instant
  | .command c (.pauseTube other delay) body =>
    if other = name && (b.isConnected c &&
        (b.dispatch c (.pauseTube other delay) body).1.isNotice .paused) then
      some (b.engine.now + max (seconds delay.toNat) (seconds 1))
    else none
  | _ => none

/-- The end of the latest pause of a tube in a run. -/
def lastPauseEnd? (name : TubeName) (b : Broker) (events : List Event) : Option Instant :=
  (b.history (pauseEnd? name) events).getLast?

theorem lastPauseEnd?_append (name : TubeName) (b : Broker) (events : List Event) (event : Event) :
    b.lastPauseEnd? name (events ++ [event]) =
      (pauseEnd? name (b.after events) event).or (b.lastPauseEnd? name events) := by
  rw [lastPauseEnd?, history_append, List.getLast?_append]
  cases pauseEnd? name (b.after events) event <;> rfl

/-! ## The pause on record -/

/-- A pause that begins is put on record. -/
theorem pausedUntil?_of_pauseEnd? (h : b.pauseEnd? name event = some due) :
    (b.step event).engine.pausedUntil? name = some due := by
  unfold pauseEnd? at h
  split at h
  · next c other delay body =>
    obtain ⟨hpaused, hdue⟩ := Option.ite_none_right_eq_some.1 h
    simp only [Bool.and_eq_true, decide_eq_true_eq] at hpaused
    obtain ⟨rfl, hc, hnotice⟩ := hpaused
    rw [step, if_pos hc]
    simp only [dispatch, perform, pauseTube, engine_record] at hnotice ⊢
    split at hnotice
    · next htube =>
      rw [if_pos htube]
      exact (pausedUntil?_startPause htube _).trans hdue
    · cases hnotice
  · cases h

/-- A command that begins no pause at a tube leaves the one on record. -/
theorem pausedUntil?_repost_command {s : Engine} {c : ClientId} {command : Command} {reply : Reply}
    (h : ∀ delay, command = .pauseTube name delay → reply.isNotice .paused = false)
    (hdue : s.pausedUntil? name = some due) :
    (command.repost s c reply).pausedUntil? name = some due := by
  cases command with
  | useTube other => exact SamePauses.useTube s c other name due hdue
  | watch other => exact SamePauses.watch s c other name due hdue
  | ignore other => exact SamePauses.ignore s c other name due hdue
  | pauseTube other delay =>
    unfold Command.repost
    dsimp only
    split
    · next hpaused =>
      have hne : name ≠ other := fun he => by
        rw [h delay (he ▸ rfl)] at hpaused
        cases hpaused
      have hsame := pausedUntil?_adjustTube_of_ne (s := s) hne
        (f := (·.startPause s.now (seconds delay.toNat))) fun _ => rfl
      exact hsame.trans hdue
    · exact hdue
  | put | reserveJob =>
    unfold Command.repost
    dsimp only
    split <;> exact hdue
  | _ => exact hdue

theorem pausedUntil?_repost (h : b.pauseEnd? name event = none)
    (hdue : b.engine.pausedUntil? name = some due) :
    (b.repost event).pausedUntil? name = some due := by
  cases event with
  | connect => exact SamePauses.openClient b.engine name due hdue
  | command c command body =>
    rw [repost]
    split
    · next hc =>
      refine pausedUntil?_repost_command (fun delay hpause => ?_) hdue
      subst hpause
      simpa [pauseEnd?, hc] using h
    · exact hdue
  | disconnect c =>
    rw [repost]
    split
    · cases b.engine.client? c with
      | none => exact hdue
      | some client => exact SamePauses.depart b.engine client name due hdue
    · exact hdue
  | advance | delayedSweep | expirySweep => exact hdue

/-- The latest pause of a tube is over or on record. -/
theorem pause_on_record (config : Config) (events : List Event)
    (h : (start config).lastPauseEnd? name events = some due) :
    due ≤ ((start config).after events).engine.now ∨
      ((start config).after events).engine.pausedUntil? name = some due := by
  induction events using List.reverseRecOn with
  | nil => cases h
  | append_singleton earlier event ih =>
    have hearlier := (Reachable.start config).after earlier
    rw [lastPauseEnd?_append] at h
    rw [after_append]
    cases hpause : pauseEnd? name ((start config).after earlier) event with
    | some due' =>
      rw [hpause] at h
      obtain rfl := Option.some.inj h
      exact Or.inr (pausedUntil?_of_pauseEnd? hpause)
    | none =>
      rw [hpause, Option.none_or] at h
      have hsame := hearlier.samePosts event
      rcases ih h with hover | hdue
      · exact Or.inl (Nat.le_trans hover (hearlier.onward event).now)
      · by_cases hlate : (((start config).after earlier).repost event).now < due
        · refine Or.inr (hsame.pausedUntil?_eq ?_ (pausedUntil?_repost hpause hdue) hlate)
          exact hsame.keys ▸ (hearlier.step event).sound.listed.tubes
        · exact Or.inl (hsame.now ▸ Nat.le_of_not_lt hlate)

/-! ## The ready jobs of a paused tube -/

/-- A ready job of a paused tube stays as it is, unless it is reserved by its number or deleted. -/
theorem kept_of_isPaused (h : Reachable b) (hj : job ∈ b.engine.jobs) (hst : job.state = .ready)
    (hpaused : b.engine.isPaused job.tube = true) (hfetches : b.fetches job.id event = false)
    (hdeletes : b.deletes job.id event = false) : job ∈ (b.step event).engine.jobs := by
  have hs := h.sound
  have hlive : job.state ≠ .deleted := fun hdel => nomatch hst.symm.trans hdel
  have hfree {c : ClientId} : ¬job.isHeldBy c = true := fun hheld => by
    obtain ⟨due, hheld⟩ := Job.isHeldBy_iff.1 hheld
    cases hst.symm.trans hheld
  obtain ⟨⟨x, hx, hid⟩, hbecomes⟩ := (h.recorded event).goes_on hs hj
  obtain ⟨y, ht, hgoes⟩ := hbecomes x hx hid
  suffices hy : y = job by
    subst hy
    rcases hgoes with rfl | hgoes
    · exact hx
    · obtain ⟨d, -, q, -, -, -, hrunning⟩ := h.handed_out hj ht hgoes hx
      obtain ⟨-, c, -, rfl⟩ := hgoes
      cases hpaused.symm.trans hrunning
  cases ht with
  | spared => rfl
  | changed hadmits hchange =>
    cases hchange with
    | release _ hheld | bury _ hheld | touch _ hheld | abandon hheld => exact absurd hheld hfree
    | expire hover => simp [isOverdue, hst] at hover
    | kick hopen | kickJob _ hopen => simp [isKickable, hst] at hopen
    | promote hdue => simp [isDue, hst] at hdue
    | @take c n body hn hopen =>
      have hfinds : b.finds job.id isReservable = true :=
        (finds_eq hs hj fun _ => hlive).trans hopen
      cases hfetches.symm.trans (fetches_iff.2 ⟨c, n, body, rfl, hadmits, hn.symm, hfinds⟩)
    | delete hn hdel hholder =>
      cases hdeletes.symm.trans (deletes_of_open hs hj hadmits hn hdel hholder _)

/-- The latest pause of a tube is not over. -/
def InPause (name : TubeName) (b : Broker) (events : List Event) : Prop :=
  ∃ due, b.lastPauseEnd? name events = some due ∧ (b.after events).engine.now < due

theorem isPaused_of_inPause {config : Config} {events : List Event}
    (h : InPause name (start config) events) :
    ((start config).after events).engine.isPaused name = true := by
  obtain ⟨due, hlast, hlate⟩ := h
  have hrecord := (pause_on_record config events hlast).resolve_left (Nat.not_le_of_lt hlate)
  exact isPaused_iff.2 ⟨due, hrecord, hlate⟩

theorem after_add (b : Broker) (events later : List Event) :
    b.after (events ++ later) = (b.after events).after later :=
  List.foldl_append ..

theorem kept_in_pause {config : Config} {events : List Event}
    (hj : job ∈ ((start config).after events).engine.jobs) (hst : job.state = .ready)
    (later : List Event)
    (hpaused : ∀ front event, front ++ [event] <+: later →
      InPause job.tube (start config) (events ++ front))
    (hfetches : ((start config).after events).times (fetches job.id) later = 0)
    (hdeletes : ((start config).after events).times (deletes job.id) later = 0) :
    job ∈ ((start config).after (events ++ later)).engine.jobs := by
  induction later using List.reverseRecOn with
  | nil => rwa [List.append_nil]
  | append_singleton front event ih =>
    rw [times_append, Nat.add_eq_zero_iff, Bool.toNat_eq_zero, ← after_add] at hfetches hdeletes
    have hfront := ih (fun earlier first hinit =>
      hpaused earlier first (hinit.trans (List.prefix_append ..))) hfetches.1 hdeletes.1
    have hon := isPaused_of_inPause (hpaused front event (List.prefix_refl _))
    rw [← List.append_assoc, after_append]
    exact kept_of_isPaused ((Reachable.start config).after _) hfront hst hon hfetches.2 hdeletes.2

/-! ## Pauses are respected -/

/-- What a run that comes to its next event makes of the pauses. -/
structure PausesRespected (b : Broker) (events : List Event) : Prop where
  withheld : ∀ event, ∀ d ∈ ((b.after events).step event).engine.deliveries.drop
      (b.after events).engine.deliveries.length,
    ∀ job ∈ ((b.after events).step event).engine.jobs, d.outcome = .reserved job.id →
      ∀ due, b.lastPauseEnd? job.tube events = some due → due ≤ d.time
  kept : ∀ job ∈ (b.after events).engine.jobs, job.state = .ready → ∀ later,
    (∀ front event, front ++ [event] <+: later → InPause job.tube b (events ++ front)) →
      (b.after events).times (fetches job.id) later = 0 →
        (b.after events).times (deletes job.id) later = 0 →
          job ∈ (b.after (events ++ later)).engine.jobs

/-- In every run, a tube gives no job to a request before the end of its latest pause, and its ready
jobs stay ready until then, unless they are reserved by their number or deleted. -/
theorem pauses_respected (config : Config) (events : List Event) :
    (start config).PausesRespected events := by
  have h := (Reachable.start config).after events
  refine ⟨fun event d hd job hj hout due hlast => ?_, fun job hj hst later => ?_⟩
  · obtain ⟨htime, -⟩ := reserved_of_answer h hd hout
    obtain ⟨fresh, hfresh, hfrom⟩ := h.withholds event
    rw [hfresh, List.drop_left] at hd
    obtain ⟨x, hx, hid, hrunning⟩ := hfrom d hd job.id hout
    obtain rfl := (h.step event).sound.listed.job_ext hx hj hid
    rw [htime]
    refine Nat.le_of_not_lt fun hlate => ?_
    rw [isPaused_of_inPause ⟨due, hlast, hlate⟩] at hrunning
    cases hrunning
  · exact kept_in_pause hj hst later

/-- A job is put into a paused tube at which a client waits. The tube is paused again for a shorter
time, and sweeps are made just before the end of that pause, and at its end. -/
def pausedTwice : List Event :=
  [.connect, .connect, .command 1 (.pauseTube .default 9) none, .command 2 .reserve none,
    .command 1 (.put 0 0 60 1) (some [120]), .advance 500,
    .command 1 (.pauseTube .default 0) none, .advance 999, .delayedSweep]

example : (start {}).lastPauseEnd? .default pausedTwice = some 1500 ∧
    ((start {}).after pausedTwice).engine.deliveries = [] ∧
    ((start {}).after (pausedTwice ++ [.advance 1, .delayedSweep])).engine.deliveries =
      [⟨1, .reserved 1, 1500⟩] := by decide

end Broker

end WorkQueue

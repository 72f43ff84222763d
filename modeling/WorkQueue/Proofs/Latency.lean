import WorkQueue.Broker.Sweepers
import WorkQueue.Proofs.Sweeping

/-!
# The sweepers keep up

Once the sweeps of an instant have been made, nothing is left that was up by then
(`Engine.Swept`). For the repetition of the delayed sweep ends (`SweepsOut`), its last turn has
found no job due, the expiry sweep has left none overdue, and neither sweep makes anything fall due
at once. What is begun later ends later, so that until the next instant of the sweeps nothing is
late by more than the time between two sweeps (`Broker.Reachable.sweepers_keep_up`).
-/

namespace WorkQueue

namespace Engine

variable {s t : Engine} {i : Instant}

/-- Nothing is up at the present instant, and no tube that is not paused keeps a job from a request.
-/
structure Swept (s : Engine) : Prop where
  promoted : ∀ job ∈ s.jobs, ∀ due, job.state = .delayed due → s.now < due
  expired : ∀ job ∈ s.jobs, ∀ c due, job.state = .reserved c due → s.now < due
  resumed : ∀ tube ∈ s.tubes, ∀ due, tube.pausedUntil = some due → s.now < due
  served : ∀ tube ∈ s.tubes, tube.isPaused s.now = false → s.AtRest tube

/-- No promotion, timeout or end of a pause is late by more than a span. -/
structure OnTime (late : Millis) (s : Engine) : Prop where
  promoted : ∀ job ∈ s.jobs, ∀ due, job.state = .delayed due → s.now ≤ due + late
  expired : ∀ job ∈ s.jobs, ∀ c due, job.state = .reserved c due → s.now ≤ due + late
  resumed : ∀ tube ∈ s.tubes, ∀ due, tube.pausedUntil = some due → s.now ≤ due + late

/-- All that ends, ends after an instant. -/
structure Beyond (i : Instant) (s : Engine) : Prop where
  jobs : ∀ job ∈ s.jobs, ∀ due, job.state.due? = some due → i < due
  pauses : ∀ tube ∈ s.tubes, ∀ due, tube.pausedUntil = some due → i < due

namespace Beyond

theorem of_sweeps (hexpired : ∀ c, Unexpired c s) (hpromoted : ∀ name, Promoted name s)
    (hresumed : ∀ name, s.Resumed name) : Beyond s.now s := by
  refine ⟨fun job hj due hdue => ?_, fun tube ht due hdue => ?_⟩
  · cases hst : job.state with
    | delayed last =>
      rw [hst] at hdue
      obtain rfl : last = due := Option.some.inj hdue
      exact hpromoted job.tube job hj rfl last hst
    | reserved c last =>
      rw [hst] at hdue
      obtain rfl : last = due := Option.some.inj hdue
      exact hexpired c job hj last hst
    | new | ready | buried | deleted => rw [hst] at hdue; cases hdue
  · have hnot := hresumed tube.name tube ht rfl
    rw [Tube.pauseIsOver, hdue, Option.any_some] at hnot
    exact Nat.not_le.1 (of_decide_eq_false hnot)

/-- What is begun later ends later. -/
theorem onward (h : Beyond i s) (ho : Onward s t) (hle : i ≤ s.now) : Beyond i t := by
  refine ⟨fun job hj due hdue => ?_, fun tube ht due hdue => ?_⟩
  · rcases ho.jobs job hj with hold | hnew
    · exact h.jobs job hold due hdue
    · exact Nat.lt_of_le_of_lt hle (hnew due hdue)
  · rcases ho.pauses tube ht due hdue with ⟨old, hold, -, hpause⟩ | hnew
    · exact h.pauses old hold due hpause
    · exact Nat.lt_of_le_of_lt hle hnew

theorem onTime (h : Beyond i s) {late : Millis} (hle : s.now ≤ i + late) : OnTime late s := by
  have hlate {due : Instant} (hlt : i < due) : s.now ≤ due + late :=
    Nat.le_trans hle (Nat.add_le_add_right (Nat.le_of_lt hlt) late)
  exact ⟨fun job hj due hst => hlate (h.jobs job hj due (by rw [hst]; rfl)),
    fun job hj c due hst => hlate (h.jobs job hj due (by rw [hst]; rfl)),
    fun tube ht due hdue => hlate (h.pauses tube ht due hdue)⟩

theorem swept (h : Beyond s.now s) (hs : Sound none none s) : s.Swept := by
  refine ⟨fun job hj due hst => h.jobs job hj due (by rw [hst]; rfl),
    fun job hj c due hst => h.jobs job hj due (by rw [hst]; rfl), h.pauses, fun tube ht hrun => ?_⟩
  refine hs.awake tube ht nofun ?_
  cases hdue : tube.pausedUntil with
  | none => rfl
  | some due => simp [Tube.isPaused, hdue, Nat.not_le.2 (h.pauses tube ht due hdue)] at hrun

end Beyond

end Engine

namespace Broker

open Engine

variable {b t : Broker}

theorem Reachable.whole (h : Reachable b) : b.engine.Whole :=
  ⟨h.sound, h.tended⟩

/-! ## The repetition of the delayed sweep -/

/-- Delayed sweeps are made until one promotes nothing. -/
inductive SweepsOut : Broker → Broker → Prop
  | idle {b : Broker} (h : b.delayedSweep.1 = false) : SweepsOut b b.delayedSweep.2
  | busy {b t : Broker} (h : b.delayedSweep.1 = true) (ht : SweepsOut b.delayedSweep.2 t) :
    SweepsOut b t

/-- With a turn for every job that is due and one more, the repetition comes to its end. -/
theorem sweepsOut_repeatSweep (n : Nat) {b : Broker} (h : Reachable b)
    (hn : b.engine.dueCount < n) : SweepsOut b (repeatSweep n b) := by
  induction n generalizing b with
  | zero => cases hn
  | succ n ih =>
    cases hbusy : b.delayedSweep.1 with
    | false =>
      have heq : repeatSweep (n + 1) b = b.delayedSweep.2 := by simp [repeatSweep, hbusy]
      exact heq ▸ .idle hbusy
    | true =>
      have heq : repeatSweep (n + 1) b = repeatSweep n b.delayedSweep.2 := by
        simp [repeatSweep, hbusy]
      have hcount := dueCount_delayedSweep h.whole
      have hpos : 0 < (b.engine.sweepTubes b.engine.tubes.keys).1 := of_decide_eq_true hbusy
      have hless : b.delayedSweep.2.engine.dueCount < n := by
        change b.engine.delayedSweep.2.dueCount < n
        omega
      exact heq ▸ .busy hbusy (ih (h.step .delayedSweep) hless)

theorem Reachable.sweepsOut (h : Reachable b) : SweepsOut b b.sweepOut :=
  sweepsOut_repeatSweep _ h (Nat.lt_succ_of_le (dueCount_le_delayed h.whole))

theorem SweepsOut.reachable (h : SweepsOut b t) (hb : Reachable b) : Reachable t := by
  induction h with
  | idle => exact hb.step .delayedSweep
  | busy _ _ ih => exact ih (hb.step .delayedSweep)

/-- In the end no job is due and no pause is over. -/
theorem SweepsOut.done (h : SweepsOut b t) (hb : Reachable b) : Later b.engine t.engine ∧
    (∀ name, Promoted name t.engine) ∧ ∀ name, t.engine.Resumed name := by
  induction h with
  | idle hidle =>
    exact ⟨stages_delayedSweep.later hb.whole, promoted_delayedSweep hb.whole hidle,
      resumed_delayedSweep hb.whole⟩
  | busy _ _ ih =>
    obtain ⟨hlater, hdone⟩ := ih (hb.step .delayedSweep)
    have hfirst := stages_delayedSweep.later hb.whole
    exact ⟨hfirst.trans hlater, hdone⟩

/-! ## The sweeps of an instant -/

/-- A reachable state with nothing up by its instant. -/
structure ClearAt (i : Instant) (b : Broker) : Prop where
  reachable : Reachable b
  now : b.engine.now = i
  beyond : Beyond i b.engine

theorem clearAt_sweepOut (h : Reachable b) : ClearAt b.engine.now b.expirySweep.sweepOut := by
  have hexpired : Reachable b.expirySweep := h.step .expirySweep
  have hout := hexpired.sweepsOut
  obtain ⟨hlater, hpromoted, hresumed⟩ := hout.done hexpired
  have hfirst : Later b.engine b.expirySweep.engine := stages_expirySweep.later h.whole
  have hnow : b.expirySweep.sweepOut.engine.now = b.engine.now := hlater.now.trans hfirst.now
  have hunexpired : ∀ c, Unexpired c b.expirySweep.sweepOut.engine := fun c =>
    (unexpired_sweep h.whole c).later hlater
  exact ⟨hout.reachable hexpired, hnow, hnow ▸ .of_sweeps hunexpired hpromoted hresumed⟩

theorem clearAt_sweepInstant (h : Reachable b) (expiryAhead : Bool) :
    ClearAt b.engine.now (sweepInstant expiryAhead b).2 := by
  cases expiryAhead with
  | true => exact clearAt_sweepOut h
  | false =>
    have hdelayed : Reachable b.delayedSweep.2 := h.step .delayedSweep
    have hfirst : Later b.engine b.delayedSweep.2.engine := stages_delayedSweep.later h.whole
    cases hbusy : b.delayedSweep.1 with
    | true =>
      have hout := clearAt_sweepOut hdelayed
      have heq : (sweepInstant false b).2 = b.delayedSweep.2.expirySweep.sweepOut := by
        simp [sweepInstant, hbusy]
      rw [heq, ← hfirst.now]
      exact hout
    | false =>
      have heq : (sweepInstant false b).2 = b.delayedSweep.2.expirySweep := by
        simp [sweepInstant, hbusy]
      have hlater : Later b.delayedSweep.2.engine b.delayedSweep.2.expirySweep.engine :=
        stages_expirySweep.later hdelayed.whole
      have hnow : b.delayedSweep.2.expirySweep.engine.now = b.engine.now :=
        hlater.now.trans hfirst.now
      have hbeyond : Beyond _ b.delayedSweep.2.expirySweep.engine :=
        .of_sweeps (unexpired_sweep hdelayed.whole)
          (fun name => (promoted_delayedSweep h.whole hbusy name).later hlater)
          (fun name => (resumed_delayedSweep h.whole name).later hlater)
      rw [heq]
      exact ⟨hdelayed.step .expirySweep, hnow, hnow ▸ hbeyond⟩

/-! ## Runs of the sweepers -/

/-- Other events happen, and then the sweeps of an instant are made. -/
def interlude (state : Bool × Broker) (events : List Event) : Bool × Broker :=
  sweepInstant state.1 (state.2.after events)

theorem clearAt_interludes (h : Reachable b) (expiryAhead : Bool) (interludes : List (List Event)) :
    ClearAt (interludes.foldl interlude (sweepInstant expiryAhead b)).2.engine.now
      (interludes.foldl interlude (sweepInstant expiryAhead b)).2 := by
  have hinstant {t : Broker} (ht : Reachable t) (ahead : Bool) :
      ClearAt (sweepInstant ahead t).2.engine.now (sweepInstant ahead t).2 :=
    have hclear := clearAt_sweepInstant ht ahead
    hclear.now.symm ▸ hclear
  exact List.foldlRecOn interludes interlude
    (motive := fun state => ClearAt state.2.engine.now state.2) (hinstant h expiryAhead)
    fun state hstate events _ => hinstant (hstate.reachable.after events) state.1

theorem clearAt_sweepIntervals (n : Nat) {i : Instant} {ahead : Bool} (h : ClearAt i b) :
    ClearAt (i + n * sweepInterval) (sweepIntervals n (ahead, b)).2 := by
  induction n generalizing i ahead b with
  | zero => simpa [sweepIntervals] using h
  | succ n ih =>
    have hadvanced : Reachable (b.advance sweepInterval) := h.reachable.step (.advance _)
    have hnow : (b.advance sweepInterval).engine.now = i + sweepInterval :=
      congrArg (· + sweepInterval) h.now
    have hnext := clearAt_sweepInstant hadvanced ahead
    rw [hnow] at hnext
    have hrest : ClearAt _ (sweepIntervals n (sweepInstant ahead (b.advance sweepInterval))).2 :=
      ih hnext
    have hsum : i + (n + 1) * sweepInterval = i + sweepInterval + n * sweepInterval := by
      rw [Nat.succ_mul, Nat.add_comm (n * sweepInterval), ← Nat.add_assoc]
    exact hsum ▸ hrest

/-- What the sweepers keep up with from a state on : alone, and with other events between their
instants. -/
structure KeptUp (b : Broker) (expiryAhead : Bool) : Prop where
  ends : ∀ events, SweepsOut (b.after events) (b.after events).sweepOut
  swept : ∀ interludes,
    (List.foldl interlude (sweepInstant expiryAhead b) interludes).2.engine.Swept
  between : ∀ interludes events,
    ((List.foldl interlude (sweepInstant expiryAhead b) interludes).2.after events).engine.now ≤
      (List.foldl interlude (sweepInstant expiryAhead b) interludes).2.engine.now + sweepInterval →
    ((List.foldl interlude (sweepInstant expiryAhead b) interludes).2.after events).engine.OnTime
      sweepInterval
  intervals : ∀ n, (sweepIntervals n (sweepInstant expiryAhead b)).2.engine.now =
    b.engine.now + n * sweepInterval ∧
      (sweepIntervals n (sweepInstant expiryAhead b)).2.engine.Swept
  run : ∀ span, (b.run span).engine.now = b.engine.now + span ∧
    (b.run span).engine.OnTime sweepInterval

theorem ClearAt.swept {i : Instant} (h : ClearAt i b) : b.engine.Swept :=
  Beyond.swept (h.now ▸ h.beyond) h.reachable.sound

/-- Until the next instant nothing is late. -/
theorem ClearAt.onTime {i : Instant} (h : ClearAt i b) (events : List Event)
    (hle : (b.after events).engine.now ≤ i + sweepInterval) :
    (b.after events).engine.OnTime sweepInterval :=
  (h.beyond.onward (h.reachable.onward_after events) (Nat.le_of_eq h.now.symm)).onTime hle

/-- The sweepers keep up from every state that comes up. -/
theorem Reachable.sweepers_keep_up (h : Reachable b) (expiryAhead : Bool) :
    b.KeptUp expiryAhead := by
  have hclear (ahead : Bool) (n : Nat) : ClearAt (b.engine.now + n * sweepInterval)
      (sweepIntervals n (sweepInstant ahead b)).2 :=
    clearAt_sweepIntervals n (clearAt_sweepInstant h ahead)
  refine
    { ends := fun events => (h.after events).sweepsOut
      swept := fun interludes => (clearAt_interludes h expiryAhead interludes).swept
      between := fun interludes => (clearAt_interludes h expiryAhead interludes).onTime
      intervals := fun n => ⟨(hclear expiryAhead n).now, (hclear expiryAhead n).swept⟩
      run := fun span => ?_ }
  have hlast := hclear false (span / sweepInterval)
  set u := (sweepIntervals (span / sweepInterval) (sweepInstant false b)).2
  have hnow : (b.run span).engine.now = u.engine.now + span % sweepInterval := rfl
  have hless : span % sweepInterval < sweepInterval := Nat.mod_lt _ (by decide)
  constructor
  · rw [hnow, hlast.now, Nat.add_assoc, Nat.mul_comm, Nat.div_add_mod]
  · refine hlast.onTime [.advance (span % sweepInterval)] ?_
    rw [← hlast.now]
    exact Nat.add_le_add_left (Nat.le_of_lt hless) _

/-- One job is delayed, and another is held by a client that has paused its tube. Both are up when
the pause is over, and another client waits. -/
def lateJobs : List Event :=
  [.connect, .connect, .command 1 (.put 0 1 60 1) (some [120]),
    .command 1 (.put 0 0 1 1) (some [121]), .command 1 .reserve none,
    .command 1 (.pauseTube .default 1) none, .command 2 .reserve none, .advance 1050]

theorem sweepers_keep_up_lateJobs :
    ((start {}).after lateJobs).KeptUp false ∧
    ((start {}).after lateJobs).engine.jobs.map (·.state) = [.delayed 1000, .reserved 1 1000] ∧
    ((start {}).after lateJobs).engine.tubes.map (·.pausedUntil) = [some 1000] ∧
    (sweepInstant false ((start {}).after lateJobs)).2.engine.jobs.map (·.state) =
      [.reserved 2 61050, .ready] ∧
    (sweepInstant false ((start {}).after lateJobs)).2.engine.tubes.map (·.pausedUntil) =
      [none] :=
  ⟨((Reachable.start {}).after lateJobs).sweepers_keep_up false, by decide, by decide,
    by decide, by decide⟩

end Broker

end WorkQueue

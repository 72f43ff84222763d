import WorkQueue.Proofs.Dealings

/-!
# Delays are kept

A job that is put or released with a delay stays on the delayed list of its tube, under the instant
at which the delay is over, until it is kicked, reserved by its number, deleted, or promoted by a
delayed sweep that finds it due. And no request is answered with it before that instant, unless it
was kicked or reserved by its number (`Broker.delay_respected`).

The state `delayed` is left in these four ways only (`Broker.ends_of_delayed`), and a request is
answered with a job that has left it. What is shown of a run follows by induction on its last event.
-/

namespace WorkQueue

namespace Broker

open Engine

variable {b : Broker} {id : JobId} {event : Event} {later : List Event} {job x : Job}
  {due : Instant} {c : ClientId} {n pri delay ttr size : UInt32} {body : Option Bytes}

/-- Whether an event takes a job off the delayed list. -/
def endsDelay (id : JobId) (b : Broker) (event : Event) : Bool :=
  b.kicks id event || b.fetches id event || b.deletes id event || b.promotes id event

/-! ## One event -/

/-- What may come of a delayed job. -/
inductive Ends (b : Broker) (event : Event) (job x : Job) (due : Instant) : Prop
  | stays (h : x = job)
  | kicked (h : b.kicks job.id event = true)
  | fetched (h : b.fetches job.id event = true)
  | deleted (h : b.deletes job.id event = true) (hst : x.state = .deleted)
  | promoted (h : b.promotes job.id event = true) (hdue : due ≤ b.engine.now)

theorem ends_of_delayed (h : Reachable b) (hj : job ∈ b.engine.jobs)
    (hst : job.state = .delayed due) (hx : x ∈ (b.step event).engine.jobs)
    (hid : x.id = job.id) : Ends b event job x due := by
  have hs := h.sound
  have hs' := (h.step event).sound
  have hdel : job.state ≠ .deleted := fun hdel => by cases hst.symm.trans hdel
  have hfree {c : ClientId} : ¬job.isHeldBy c = true := fun hheld => by
    obtain ⟨until', hheld⟩ := Job.isHeldBy_iff.1 hheld
    cases hst.symm.trans hheld
  obtain ⟨y, ht, hgoes⟩ := ((h.recorded event).goes_on hs hj).2 x hx hid
  cases ht with
  | spared => exact .stays (Job.eq_of_goes hgoes fun hready => by cases hst.symm.trans hready)
  | changed hadmits hchange =>
    cases hchange with
    | release _ hheld | bury _ hheld | touch _ hheld | abandon hheld => exact absurd hheld hfree
    | expire hover => simp [isOverdue, hst] at hover
    | @take c n body hn hopen =>
      have hfinds : b.finds job.id isReservable = true := (finds_eq hs hj fun _ => hdel).trans hopen
      exact .fetched (fetches_iff.2 ⟨c, n, body, rfl, hadmits, hn.symm, hfinds⟩)
    | delete hn _ hholder =>
      obtain rfl := Job.eq_of_goes hgoes fun hready => by cases hready
      exact .deleted (deletes_of_open hs hj hadmits hn hdel hholder _) rfl
    | kick hopen | kickJob _ hopen =>
      refine .kicked ?_
      rw [kicks_eq hs hj hs' hx hid, hopen, not_kickable_of_goes hgoes rfl]
      rfl
    | promote hdue =>
      have hnot : isDue b.engine.now x = false := by
        rcases Job.state_of_goes hgoes rfl with hst | ⟨_, _, hst⟩ <;> rw [isDue, hst]
      refine .promoted ?_ ?_
      · rw [promotes, finds_isDue hs hj, ← hid, finds_isDue hs' hx, hdue, hnot]
        rfl
      · rw [isDue, hst] at hdue
        exact of_decide_eq_true hdue

/-- A request that is answered with a job leaves it reserved. -/
theorem reserved_of_answer (h : Reachable b) {d : Delivery}
    (hd : d ∈ (b.step event).engine.deliveries.drop b.engine.deliveries.length)
    (hout : d.outcome = .reserved id) : d.time = b.engine.now ∧
      ∃ x ∈ (b.step event).engine.jobs, x.id = id ∧ ∃ c due, x.state = .reserved c due := by
  obtain ⟨fresh, hfresh, hanswers⟩ := (h.progress event).answers
  rw [hfresh, List.drop_left] at hd
  obtain ⟨q, ha⟩ := hanswers d hd
  obtain ⟨x, hid, hg, -⟩ := ha.granted id hout
  exact ⟨hg.time, x, hg.listed, hid, q.client, _, hg.state⟩

/-- A job that is put with a delay is delayed for it. -/
theorem delayed_of_inserts (h : Reachable b) (hc : b.isConnected c = true)
    (hinserts : (b.dispatch c (.put pri delay ttr size) body).1.inserts id = true)
    (hdelay : 0 < seconds delay.toNat) :
    ∃ x ∈ (b.step (.command c (.put pri delay ttr size) body)).engine.jobs, x.id = id ∧
      x.state = .delayed (b.engine.now + seconds delay.toNat) := by
  obtain ⟨name, text, hnew, rfl⟩ := newcomer?_of_inserts hc hinserts
  obtain ⟨x, hx, hid, hgoes⟩ := (h.recorded _).arrives h.sound hnew
  have hst := Job.state_placed (b.engine.newJob name pri.toNat (seconds delay.toNat)
    (seconds ttr.toNat) text) b.engine.now hdelay
  obtain rfl := Job.eq_of_goes hgoes fun hready => nomatch hst.symm.trans hready
  exact ⟨_, hx, (Job.placed_frame _ _ _).1, hst⟩

/-- A job that is released with a delay is delayed for it. -/
theorem delayed_of_releases (h : Reachable b)
    (htest : b.releases id (.command c (.release n pri delay) body) = true)
    (hdelay : 0 < seconds delay.toNat) :
    ∃ x ∈ (b.step (.command c (.release n pri delay) body)).engine.jobs, x.id = id ∧
      x.state = .delayed (b.engine.now + seconds delay.toNat) := by
  obtain ⟨job, hj, rfl⟩ := List.mem_map.1 (mem_keys_of_releases b _ htest)
  have hdemands := demands_of_releases h.sound hj htest
  obtain ⟨⟨x, hx, hid⟩, hbecomes⟩ := (h.recorded _).goes_on h.sound hj
  obtain ⟨y, ht, hgoes⟩ := hbecomes x hx hid
  have hst := Job.state_placed (job.countRelease pri.toNat) b.engine.now hdelay
  cases ht with
  | changed _ hchange =>
    obtain ⟨-, -, rfl⟩ := Event.changes_release.1 hchange
    obtain rfl := Job.eq_of_goes hgoes fun hready => nomatch hst.symm.trans hready
    exact ⟨_, hx, hid, hst⟩
  | spared hspared => exact absurd hdemands hspared

/-- A job that is given a delay is delayed for it. -/
theorem delayed_of_given (h : Reachable b) {pri : Nat} {delay : Millis}
    (hgiven : b.given? id event = some (pri, some delay)) (hdelay : 0 < delay) :
    ∃ x ∈ (b.step event).engine.jobs, x.id = id ∧ x.state = .delayed (b.engine.now + delay) := by
  unfold given? at hgiven
  split at hgiven
  · split at hgiven
    · next hput =>
      cases hgiven
      obtain ⟨hc, hinserts⟩ := Bool.and_eq_true_iff.1 hput
      exact delayed_of_inserts h hc hinserts hdelay
    · cases hgiven
  · split at hgiven
    · next htest =>
      cases hgiven
      exact delayed_of_releases h htest hdelay
    · cases hgiven
  · split at hgiven <;> cases hgiven
  · cases hgiven

/-! ## Runs -/

/-- A delayed job stays delayed until an event takes it off the list. -/
theorem delayed_after (h : Reachable b)
    (hj : ∃ job ∈ b.engine.jobs, job.id = id ∧ job.state = .delayed due) (later : List Event)
    (hends : b.times (endsDelay id) later = 0) :
    ∃ job ∈ (b.after later).engine.jobs, job.id = id ∧ job.state = .delayed due := by
  induction later using List.reverseRecOn with
  | nil => exact hj
  | append_singleton earlier event ih =>
    rw [times_append, Nat.add_eq_zero_iff] at hends
    obtain ⟨job, hjob, rfl, hst⟩ := ih hends.1
    have hearlier := h.after earlier
    have hnot : (b.after earlier).endsDelay job.id event = false := by
      simpa using hends.2
    simp only [endsDelay, Bool.or_eq_false_iff] at hnot
    obtain ⟨⟨⟨hkicks, hfetches⟩, hdeletes⟩, hpromotes⟩ := hnot
    obtain ⟨x, hx, hid⟩ := ((hearlier.recorded event).goes_on hearlier.sound hjob).1
    rw [after_append]
    cases ends_of_delayed hearlier hjob hst hx hid with
    | stays h => exact ⟨x, hx, hid, h ▸ hst⟩
    | kicked h => cases hkicks.symm.trans h
    | fetched h => cases hfetches.symm.trans h
    | deleted h => cases hdeletes.symm.trans h
    | promoted h => cases hpromotes.symm.trans h

/-- The job is still delayed, or it is deleted, or its time has come. -/
def OutOfReach (b : Broker) (id : JobId) (due : Instant) : Prop :=
  (∃ job ∈ b.engine.jobs, job.id = id ∧ (job.state = .delayed due ∨ job.state = .deleted)) ∨
    due ≤ b.engine.now

/-- Unless it is kicked or reserved by its number, the job stays out of reach, and a request is
answered with it when its time has come. -/
theorem OutOfReach.step (h : Reachable b) (hr : b.OutOfReach id due)
    (hkicks : b.kicks id event = false) (hfetches : b.fetches id event = false) :
    (b.step event).OutOfReach id due ∧
      ∀ d ∈ (b.step event).engine.deliveries.drop b.engine.deliveries.length,
        d.outcome = .reserved id → due ≤ d.time := by
  have hnow := (h.onward event).now
  rcases hr with ⟨job, hj, rfl, hst⟩ | hdue
  · obtain ⟨⟨x, hx, hid⟩, hbecomes⟩ := (h.recorded event).goes_on h.sound hj
    have hends : (x.state = .delayed due ∨ x.state = .deleted) ∨ due ≤ b.engine.now := by
      rcases hst with hst | hst
      · cases ends_of_delayed h hj hst hx hid with
        | stays h => exact Or.inl (Or.inl (h ▸ hst))
        | kicked h => cases hkicks.symm.trans h
        | fetched h => cases hfetches.symm.trans h
        | deleted _ hdel => exact Or.inl (Or.inr hdel)
        | promoted _ hdue => exact Or.inr hdue
      · exact Or.inl (Or.inr ((hbecomes x hx hid).of_deleted hst ▸ hst))
    refine ⟨hends.imp (fun hst => ⟨x, hx, hid, hst⟩) (Nat.le_trans · hnow), fun d hd hout => ?_⟩
    obtain ⟨htime, y, hy, hyid, c, due', hreserved⟩ := reserved_of_answer h hd hout
    obtain rfl := (h.step event).sound.listed.job_ext hy hx (hyid.trans hid.symm)
    rw [htime]
    refine hends.resolve_left fun hst => ?_
    rcases hst with hst | hst <;> cases hst.symm.trans hreserved
  · refine ⟨Or.inr (Nat.le_trans hdue hnow), fun d hd hout => ?_⟩
    obtain ⟨htime, -⟩ := reserved_of_answer h hd hout
    exact htime ▸ hdue

/-- So it is for a run : if the answers but for the first `sent` are in time, they remain so. -/
theorem OutOfReach.after (h : Reachable b) (hr : b.OutOfReach id due) {sent : Nat}
    (hsent : ∀ d ∈ b.engine.deliveries.drop sent, d.outcome = .reserved id → due ≤ d.time)
    (later : List Event) (hkicks : b.times (kicks id) later = 0)
    (hfetches : b.times (fetches id) later = 0) : (b.after later).OutOfReach id due ∧
      ∀ d ∈ (b.after later).engine.deliveries.drop sent,
        d.outcome = .reserved id → due ≤ d.time := by
  induction later using List.reverseRecOn with
  | nil => exact ⟨hr, hsent⟩
  | append_singleton earlier event ih =>
    rw [times_append, Nat.add_eq_zero_iff, Bool.toNat_eq_zero] at hkicks hfetches
    obtain ⟨hbefore, hanswers⟩ := ih hkicks.1 hfetches.1
    have hearlier := h.after earlier
    obtain ⟨hnext, hfresh⟩ := hbefore.step hearlier hkicks.2 hfetches.2
    obtain ⟨fresh, hdel, -⟩ := (hearlier.progress event).answers
    rw [hdel, List.drop_left] at hfresh
    rw [after_append]
    refine ⟨hnext, fun d hd => ?_⟩
    rw [hdel, List.drop_append] at hd
    rcases List.mem_append.1 hd with hd | hd
    · exact hanswers d hd
    · exact hfresh d (List.mem_of_mem_drop hd)

/-- What it means for a run that a job has a delay until `due`, which it was given after `sent`
answers. -/
structure Respected (b : Broker) (id : JobId) (due : Instant) (sent : Nat) (later : List Event) :
    Prop where
  listed : b.times (endsDelay id) later = 0 → ∃ job, (b.after later).engine.find? id = some job ∧
    job.state = .delayed due ∧ ∃ tube ∈ (b.after later).engine.tubes, tube.name = job.tube ∧
      ⟨due, id⟩ ∈ tube.delayed
  withheld : b.times (kicks id) later = 0 → b.times (fetches id) later = 0 →
    ∀ d ∈ (b.after later).engine.deliveries.drop sent, d.outcome = .reserved id → due ≤ d.time

/-- In every run, the delay of a put or a release that succeeds is respected, whatever happens
later. -/
theorem delay_respected (h : Reachable b) {pri : Nat} {delay : Millis}
    (hgiven : b.given? id event = some (pri, some delay)) (hdelay : 0 < delay)
    (later : List Event) : (b.step event).Respected id (b.engine.now + delay)
      b.engine.deliveries.length later := by
  have hnext := h.step event
  obtain ⟨x, hx, hid, hst⟩ := delayed_of_given h hgiven hdelay
  have hdelayed : ∃ job ∈ (b.step event).engine.jobs, job.id = id ∧
      job.state = .delayed (b.engine.now + delay) := ⟨x, hx, hid, hst⟩
  refine ⟨fun hends => ?_, fun hkicks hfetches => ?_⟩
  · obtain ⟨job, hj, rfl, hst⟩ := delayed_after hnext hdelayed later hends
    have hs := (hnext.after later).sound
    obtain ⟨tube, ht, hname⟩ := List.mem_map.1 (hs.listed.homes job hj)
    have hname : tube.name = job.tube := hname
    exact ⟨job, hs.find?_eq_some_iff.2 ⟨hj, rfl, fun hdel => nomatch hst.symm.trans hdel⟩, hst,
      tube, ht, hname, (hs.listed.mem_delayed ht).2 ⟨job, hj, hname.symm, rfl, hst⟩⟩
  · have hreach : (b.step event).OutOfReach id (b.engine.now + delay) :=
      Or.inl ⟨x, hx, hid, Or.inl hst⟩
    refine (hreach.after hnext (fun d hd hout => ?_) later hkicks hfetches).2
    -- the event answers no request with the job, which it leaves delayed
    obtain ⟨-, y, hy, hyid, c, until', hreserved⟩ := reserved_of_answer h hd hout
    obtain rfl := hnext.sound.listed.job_ext hy hx (hyid.trans hid.symm)
    cases hst.symm.trans hreserved

/-- A job with a delay of two seconds is put while a client waits. -/
def delayedPut : Event :=
  .command 1 (.put 0 2 60 1) (some [120])

/-- The delayed sweep runs just before the delay of `delayedPut` is over, and just then. -/
def delayedSweeps : List Event :=
  [.advance 1999, .delayedSweep, .advance 1, .delayedSweep]

theorem delay_respected_delayedSweeps :
    let b := (start {}).after [.connect, .connect, .command 2 .reserve none]
    b.given? 1 delayedPut = some (0, some 2000) ∧ 0 < 2000 ∧
    (b.step delayedPut).Respected 1 2000 0 delayedSweeps ∧
    ((b.step delayedPut).after delayedSweeps).engine.deliveries = [⟨1, .reserved 1, 2000⟩] := by
  intro b
  have h : Reachable b :=
    (Reachable.start {}).after [.connect, .connect, .command 2 .reserve none]
  have hgiven : b.given? 1 delayedPut = some (0, some 2000) := by decide
  exact ⟨hgiven, by decide, delay_respected h hgiven (by decide) delayedSweeps, by decide⟩

end Broker

end WorkQueue

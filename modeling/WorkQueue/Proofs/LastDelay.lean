import WorkQueue.Proofs.Reservations

/-!
# The delay that a job is shown with

A put and a release give a job a delay, in seconds (`Broker.delaysGiven`). The record of the job
takes it over on the way to the delayed list, and a release without a delay goes by the ready list
and leaves the record as it is. Nothing else writes it. So `stats-job` shows the last of the delays
that is not zero, which is the last one of all unless that is zero and an earlier one is not
(`Broker.delay_shown`). `Broker.last_delay_not_shown` has a job that is shown with a delay that
its last release took back.
-/

namespace WorkQueue

/-- The last of some delays that is not zero, or zero if there is none. -/
def lastPositive (delays : List Nat) : Nat :=
  (delays.filter (0 < ·)).getLast?.getD 0

theorem lastPositive_concat (delays : List Nat) (delay : Nat) :
    lastPositive (delays ++ [delay]) = if delay = 0 then lastPositive delays else delay := by
  unfold lastPositive
  rw [List.filter_append]
  split
  · next h => rw [h, List.filter_cons_of_neg (by decide), List.filter_nil, List.append_nil]
  · next h =>
    rw [List.filter_cons_of_pos (by exact decide_eq_true (Nat.pos_of_ne_zero h)), List.filter_nil,
      List.getLast?_concat, Option.getD_some]

theorem lastPositive_eq_zero_iff {delays : List Nat} :
    lastPositive delays = 0 ↔ ∀ delay ∈ delays, delay = 0 := by
  induction delays using List.reverseRecOn with
  | nil => exact ⟨fun _ => List.forall_mem_nil _, fun _ => rfl⟩
  | append_singleton delays last ih =>
    rw [lastPositive_concat, List.forall_mem_append, List.forall_mem_singleton]
    split
    · next h => rw [ih, and_iff_left h]
    · next h => exact ⟨fun hlast => absurd hlast h, fun hall => hall.2⟩

/-- A delay of no seconds is forgotten, any other is kept. -/
theorem Job.delay_placed (job : Job) (now : Instant) (n : Nat) :
    (job.placed now (seconds n)).delay = if n = 0 then job.delay else seconds n := by
  by_cases hn : n = 0
  · rw [if_pos hn, hn]
    rfl
  · have hpos : seconds n ≠ 0 := Nat.mul_ne_zero (by decide) hn
    rw [if_neg hn, placed, if_neg hpos]
    rfl

theorem Job.delay_of_goes {now : Instant} {who : Option ClientId} {job x : Job}
    (h : x = job ∨ job.Goes now who x) : x.delay = job.delay := by
  rcases h with rfl | ⟨-, c, -, rfl⟩ <;> rfl

theorem wholeSeconds_seconds (n : Nat) : wholeSeconds (seconds n) = n :=
  Nat.mul_div_cancel_left n (by decide)

namespace Broker

open Engine

variable {b : Broker} {id : JobId} {event : Event} {events : List Event} {job x : Job}

/-- The delay, in seconds, that an event gives a job. -/
def delayGiven? (id : JobId) (b : Broker) (event : Event) : Option Nat :=
  ((b.given? id event).bind (·.2)).map wholeSeconds

/-- The delays, in seconds, that the puts and the releases of a run give a job. -/
def delaysGiven (id : JobId) (b : Broker) (events : List Event) : List Nat :=
  b.history (delayGiven? id) events

/-! ## One event -/

/-- The delay is the one that a job is given, if it is given one that is not zero. -/
theorem delay_of_becomes (hs : Sound none none b.engine) (hj : job ∈ b.engine.jobs)
    (hb : b.engine.Becomes event job x) : x.delay =
      ((b.delayGiven? job.id event).map fun n => if n = 0 then job.delay else seconds n).getD
        job.delay := by
  obtain ⟨y, ht, hgoes⟩ := hb
  rw [Job.delay_of_goes hgoes]
  cases ht with
  | changed hadmits h =>
    cases h with
    | release hid hheld =>
      rw [delayGiven?, given?, if_pos (releases_of_held hs hj hadmits hid hheld _ _ _),
        Job.delay_placed]
      simp only [Option.bind_some, Option.map_some, wholeSeconds_seconds, Option.getD_some]
      rfl
    | bury hid hheld =>
      rw [delayGiven?, given?, if_pos (buries_of_held hs hj hadmits hid hheld _ _)]
      rfl
    | _ => rfl
  | spared h =>
    rw [delayGiven?, given?_eq_none hs hj h]
    rfl

/-- A job that is put is there afterwards. -/
theorem mem_keys_of_inserts (h : Reachable b) {c : ClientId} {pri delay ttr size : UInt32}
    {body : Option Bytes} (hc : b.isConnected c = true)
    (hinserts : (b.dispatch c (.put pri delay ttr size) body).1.inserts id = true) :
    id ∈ (b.step (.command c (.put pri delay ttr size) body)).engine.jobs.keys := by
  obtain ⟨name, text, hnew, rfl⟩ := newcomer?_of_inserts hc hinserts
  obtain ⟨x, hx, hid, -⟩ := (h.recorded _).arrives h.sound hnew
  rw [(Job.placed_frame _ _ _).1] at hid
  exact List.mem_map.2 ⟨x, hx, hid⟩

theorem mem_keys_of_delayGiven? (h : Reachable b)
    (hgiven : (b.delayGiven? id event).isSome = true) :
    id ∈ (b.step event).engine.jobs.keys := by
  have hsome : (b.given? id event).isSome = true := by
    rw [delayGiven?, Option.isSome_map] at hgiven
    exact Option.isSome_of_isSome_bind hgiven
  unfold given? at hsome
  split at hsome
  · split at hsome
    · next hput =>
      obtain ⟨hc, hinserts⟩ := Bool.and_eq_true_iff.1 hput
      exact mem_keys_of_inserts h hc hinserts
    · cases hsome
  · split at hsome
    · next htest => exact h.keys_step _ (mem_keys_of_releases b _ htest)
    · cases hsome
  · split at hsome
    · next htest => exact h.keys_step _ (mem_keys_of_buries b _ htest)
    · cases hsome
  · cases hsome

/-! ## Runs -/

/-- A job has been given delays by a run, and has the last of them that is not zero. -/
structure KeepsDelay (b : Broker) (events : List Event) (job : Job) : Prop where
  given : b.delaysGiven job.id events ≠ []
  delay : job.delay = seconds (lastPositive (b.delaysGiven job.id events))

theorem KeepsDelay.step (h : Reachable (b.after events)) (hk : KeepsDelay b events job)
    (hj : job ∈ (b.after events).engine.jobs)
    (hb : (b.after events).engine.Becomes event job x) : KeepsDelay b (events ++ [event]) x := by
  have hdelay := delay_of_becomes h.sound hj hb
  have hdelays : b.delaysGiven x.id (events ++ [event]) =
      b.delaysGiven job.id events ++ ((b.after events).delayGiven? job.id event).toList := by
    rw [hb.id]
    exact history_append _ _ _ _
  refine ⟨?_, ?_⟩
  · rw [hdelays]
    exact List.append_ne_nil_of_left_ne_nil hk.given _
  · rw [hdelays, hdelay]
    cases (b.after events).delayGiven? job.id event with
    | none =>
      rw [Option.toList_none, List.append_nil]
      exact hk.delay
    | some n =>
      rw [Option.toList_some, lastPositive_concat, Option.map_some, Option.getD_some, hk.delay]
      exact (apply_ite seconds _ _ _).symm

/-- A job that is put has the delay of the put, and none was told of before. -/
theorem KeepsDelay.fresh (h : Reachable b) (events : List Event)
    (hnew : (b.after events).engine.newcomer? event = some job)
    (hx : x = job ∨ job.Goes (b.after events).engine.now none x) :
    KeepsDelay b (events ++ [event]) x := by
  obtain ⟨c, pri, delay, ttr, size, body, client, rfl, hc, hjob⟩ := newcomer?_eq_some hnew
  have hid : x.id = (b.after events).engine.nextJob := by
    rw [(Job.frame_of_goes hx).1, hjob]
    exact (Job.placed_frame _ _ _).1
  have hdelay : x.delay = seconds delay.toNat := by
    rw [Job.delay_of_goes hx, hjob, Job.delay_placed]
    exact ite_self _
  have habsent : x.id ∉ (b.after events).engine.jobs.keys :=
    hid ▸ (h.after events).sound.listed.jobs.next_not_mem
  have hbefore : b.delaysGiven x.id events = [] :=
    history_eq_nil (fun _ _ => mem_keys_of_delayGiven?) h events habsent
  have hdelays : b.delaysGiven x.id
      (events ++ [.command c (.put pri delay ttr size) (some body)]) = [delay.toNat] := by
    have hgiven : (b.after events).delayGiven? x.id
        (.command c (.put pri delay ttr size) (some body)) = some delay.toNat := by
      rw [delayGiven?, hid, given?_put hc]
      exact congrArg some (wholeSeconds_seconds _)
    rw [delaysGiven] at hbefore ⊢
    rw [history_append, hbefore, hgiven]
    rfl
  refine ⟨hdelays ▸ List.cons_ne_nil _ _, ?_⟩
  rw [hdelays, hdelay, ← List.nil_append [delay.toNat], lastPositive_concat]
  split
  · next hzero => rw [hzero]; rfl
  · rfl

theorem keepsDelay (config : Config) (events : List Event) :
    ∀ job ∈ ((start config).after events).engine.jobs,
      KeepsDelay (start config) events job := by
  induction events using List.reverseRecOn with
  | nil => exact List.forall_mem_nil _
  | append_singleton earlier event ih =>
    intro x hx
    rw [after_append] at hx
    have h : Reachable ((start config).after earlier) := (Reachable.start config).after earlier
    rcases (h.recorded event).jobs x hx with ⟨job, hj, hb⟩ | ⟨job, hnew, hgoes⟩
    · exact (ih job hj).step h hj hb
    · exact .fresh (.start config) earlier hnew hgoes

theorem reply_statsJob {n : UInt32} (hjob : b.engine.find? n.toNat = some job) (c : ClientId)
    (body : Option Bytes) : (b.dispatch c (.statsJob n) body).1 =
      .now (.jobStats (job.stats b.engine.now)) := by
  simp only [dispatch, perform, engine_record, hjob]

/-- In every run, a job is shown with the last delay that is not zero of those that it was given.
This is the last one, unless that is zero and an earlier one is not. -/
theorem delay_shown (config : Config) (events : List Event) {n : UInt32} {job : Job}
    (hjob : ((start config).after events).engine.find? n.toNat = some job) (c : ClientId)
    (body : Option Bytes) : ∃ stats earlier last,
      (((start config).after events).dispatch c (.statsJob n) body).1 = .now (.jobStats stats) ∧
      stats.id = n.toNat ∧
      (start config).delaysGiven n.toNat events = earlier ++ [last] ∧
      stats.delay = lastPositive (earlier ++ [last]) ∧
      (stats.delay = last ↔ (last = 0 → ∀ delay ∈ earlier, delay = 0)) := by
  have h : Reachable ((start config).after events) := (Reachable.start config).after events
  obtain ⟨hj, hid, -⟩ := h.sound.find?_eq_some_iff.1 hjob
  obtain ⟨hgiven, hdelay⟩ := keepsDelay config events job hj
  obtain ⟨earlier, last, hdelays⟩ := (List.eq_nil_or_concat' _).resolve_left hgiven
  have hshown : (job.stats ((start config).after events).engine.now).delay =
      lastPositive (earlier ++ [last]) := by
    rw [← hdelays, Job.stats, hdelay]
    exact wholeSeconds_seconds _
  refine ⟨_, earlier, last, reply_statsJob hjob c body, hid, hid ▸ hdelays, hshown, ?_⟩
  rw [hshown, lastPositive_concat]
  split
  · next hzero =>
    rw [hzero, lastPositive_eq_zero_iff]
    exact ⟨fun hall _ => hall, fun hall => hall rfl⟩
  · next hpos => exact ⟨fun _ hzero => absurd hzero hpos, fun _ => rfl⟩

/-- A job with a delay of five seconds is reserved, and released without one. -/
def delayTakenBack : List Event :=
  [.connect, .command 1 (.put 0 5 60 1) (some [120]), .command 1 (.reserveJob 1) none,
    .command 1 (.release 1 1 0) none]

/-- The job of `delayTakenBack` afterwards. -/
def takenBack : Job where
  id := 1
  tube := .default
  pri := 1
  delay := 5000
  ttr := 60000
  created := 0
  body := [120]
  state := .ready
  counts := { reserves := 1, releases := 1 }

theorem delay_shown_takenBack :
    ((start {}).after delayTakenBack).engine.find? (1 : UInt32).toNat = some takenBack ∧
    ∃ stats, (((start {}).after delayTakenBack).dispatch 1 (.statsJob 1) none).1 =
      .now (.jobStats stats) ∧ stats.delay = 5 := by
  have hjob : ((start {}).after delayTakenBack).engine.find? (1 : UInt32).toNat =
      some takenBack := by decide
  obtain ⟨stats, earlier, last, hreply, -, hdelays, hshown, -⟩ :=
    delay_shown {} delayTakenBack hjob 1 none
  refine ⟨hjob, stats, hreply, ?_⟩
  rw [hshown, ← hdelays]
  decide

/-- A job is not always shown with the delay that it was given last. -/
theorem last_delay_not_shown : ¬∀ (config : Config) (events : List Event) (n : UInt32) (job : Job),
    ((start config).after events).engine.find? n.toNat = some job →
    ∀ (c : ClientId) (body : Option Bytes), ∃ stats,
      (((start config).after events).dispatch c (.statsJob n) body).1 = .now (.jobStats stats) ∧
      ((start config).delaysGiven n.toNat events).getLast? = some stats.delay := by
  intro hall
  have hjob : ((start {}).after delayTakenBack).engine.find? (1 : UInt32).toNat =
      some takenBack := by decide
  obtain ⟨stats, hreply, hlast⟩ := hall {} delayTakenBack 1 takenBack hjob 1 none
  rw [reply_statsJob hjob] at hreply
  cases hreply
  exact absurd hlast (by decide)

end Broker

end WorkQueue

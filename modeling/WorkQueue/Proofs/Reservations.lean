import WorkQueue.Proofs.Dealings

/-!
# The end of every reservation

A job counts how often it was reserved, and how often a reservation ended with a timeout, a release
or a burial. What is missing is what the run tells : its holder left, or deleted it, or holds it
still (`Broker.reservations_accounted`). The other counts are those of the run as well, and the
priority is the last that the job was given.

For one event it is enough to look at each change of the life of a job (`Event.Changes`) and at a
ready job that is handed out.
-/

namespace WorkQueue

/-- How many reservations have ended with a count of the job. -/
def JobCounts.ended (counts : JobCounts) : Nat :=
  counts.timeouts + counts.releases + counts.buries

/-- The reservations that have ended so, and the one that goes on. -/
def Job.settledReserves (job : Job) : Nat :=
  job.counts.ended + job.holder?.isSome.toNat

namespace Job

variable {now : Instant} {who : Option ClientId} {job x y : Job}

theorem ended_countRelease (job : Job) (pri : Nat) :
    (job.countRelease pri).counts.ended = job.counts.ended + 1 :=
  Nat.add_right_comm _ 1 _

theorem ended_countTimeout (job : Job) : job.countTimeout.counts.ended = job.counts.ended + 1 := by
  change job.counts.timeouts + 1 + job.counts.releases + job.counts.buries = _
  rw [Nat.add_right_comm _ 1, Nat.add_right_comm _ 1]
  rfl

theorem settledReserves_of_held {c : ClientId} (h : job.isHeldBy c = true) :
    job.settledReserves = job.counts.ended + 1 := by
  rw [settledReserves, of_decide_eq_true h]
  rfl

theorem settledReserves_of_holder?_eq_none (h : job.holder? = none) :
    job.settledReserves = job.counts.ended := by
  rw [settledReserves, h]
  rfl

theorem settledReserves_of_not_held (h : ¬job.IsHeld) :
    job.settledReserves = job.counts.ended := by
  refine settledReserves_of_holder?_eq_none ?_
  unfold holder?
  split
  · next c due hst => exact absurd ⟨c, due, hst⟩ h
  · rfl

/-- A job that is handed out is reserved once more, and held. -/
theorem reserves_of_goes (h : x = y ∨ y.Goes now who x) :
    x.counts.reserves + y.settledReserves = y.counts.reserves + x.settledReserves := by
  rcases h with rfl | ⟨hst, c, -, rfl⟩
  · rfl
  · rw [settledReserves_of_holder?_eq_none (by rw [holder?, hst])]
    exact Nat.add_right_comm _ 1 _

end Job

namespace Broker

open Engine

variable {b : Broker} {id : JobId} {event : Event} {events : List Event} {job x y : Job}

/-- A job is deleted that a client holds. -/
def discards (id : JobId) (b : Broker) (event : Event) : Bool :=
  b.deletes id event && b.finds id (·.holder?.isSome)

/-! ## The counts of one event -/

/-- A count goes up by one if it does with each change, and only if there has to be one. -/
theorem count_of_becomes {count : JobCounts → Nat} {test : Bool}
    (h : b.engine.Becomes event job x)
    (hgoes : ∀ counts n, count { counts with reserves := n } = count counts)
    (hchanged : ∀ y, b.engine.admits event = true → event.Changes b.engine.now job y →
      count y.counts = count job.counts + test.toNat)
    (hdemands : test = true → b.engine.Demands event job) :
    count x.counts = count job.counts + test.toNat := by
  obtain ⟨y, ht, hx⟩ := h
  obtain ⟨-, -, n, hcounts⟩ := Job.frame_of_goes hx
  have hcount : count x.counts = count y.counts := hcounts ▸ hgoes y.counts n
  rw [hcount]
  cases ht with
  | changed hadmits h => exact hchanged y hadmits h
  | spared h =>
    have htest : test = false := Bool.eq_false_iff.2 fun htest => h (hdemands htest)
    rw [htest]
    rfl

section Step

variable (hs : Sound none none b.engine) (hj : job ∈ b.engine.jobs)

include hs hj

/-- A reservation is settled with a count of the job, or by its holder who leaves or deletes it. -/
theorem reserves_of_changes (hadmits : b.engine.admits event = true)
    (h : event.Changes b.engine.now job y) : y.counts.reserves + job.settledReserves =
      job.counts.reserves + y.settledReserves + (b.abandons job.id event).toNat +
        (b.discards job.id event).toNat := by
  cases h with
  | @release c n pri delay body hid hheld =>
    obtain ⟨-, -, hcounts, hfree⟩ := Job.placed_frame (job.countRelease pri.toNat) b.engine.now
      (seconds delay.toNat)
    rw [Job.settledReserves_of_held hheld, Job.settledReserves_of_holder?_eq_none hfree, hcounts,
      Job.ended_countRelease]
    rfl
  | bury _ hheld | touch _ hheld =>
    rw [Job.settledReserves_of_held hheld]
    rfl
  | take _ hopen =>
    have hfree : ¬job.IsHeld := fun ⟨_, _, hst⟩ => by simp [isReservable, hst] at hopen
    rw [Job.settledReserves_of_not_held hfree]
    exact Nat.add_right_comm _ 1 _
  | @delete c n body hid hdel hholder =>
    rw [discards, deletes_of_open hs hj hadmits hid hdel hholder, finds_eq hs hj fun _ => hdel]
    exact (Nat.add_assoc _ _ _).symm
  | kick hopen | kickJob _ hopen =>
    have hfree : ¬job.IsHeld := fun ⟨_, _, hst⟩ => by simp [isKickable, hst] at hopen
    rw [Job.settledReserves_of_not_held hfree]
    rfl
  | abandon hheld =>
    rw [Job.settledReserves_of_held hheld, abandons, finds_isHeldBy hs hj, hheld]
    rfl
  | promote hdue =>
    have hfree : ¬job.IsHeld := fun ⟨_, _, hst⟩ => by simp [isDue, hst] at hdue
    rw [Job.settledReserves_of_not_held hfree]
    rfl
  | expire hover =>
    obtain ⟨c, hheld⟩ : ∃ c, job.isHeldBy c = true := by
      unfold isOverdue at hover
      split at hover
      · next c due hst => exact ⟨c, Job.isHeldBy_iff.2 ⟨due, hst⟩⟩
      · cases hover
    rw [Job.settledReserves_of_held hheld]
    change _ = job.counts.reserves + job.countTimeout.counts.ended
    rw [Job.ended_countTimeout]
    rfl

/-- A job that the event need not change is given nothing. -/
theorem given?_eq_none (h : ¬b.engine.Demands event job) : b.given? job.id event = none := by
  unfold given?
  split
  · next c pri delay ttr size body =>
    refine if_neg fun hput => ?_
    obtain ⟨hc, hinserts⟩ := Bool.and_eq_true_iff.1 hput
    rw [inserts_put hc, Bool.and_eq_true, decide_eq_true_eq] at hinserts
    exact id_ne_nextJob hs.listed.jobs hj hinserts.2.symm
  · exact if_neg fun htest => h (demands_of_releases hs hj htest)
  · exact if_neg fun htest => h (demands_of_buries hs hj htest)
  · rfl

variable (hb : b.engine.Becomes event job x)

include hb

theorem reserves_of_becomes : x.counts.reserves + job.settledReserves =
    job.counts.reserves + x.settledReserves + (b.abandons job.id event).toNat +
      (b.discards job.id event).toNat := by
  obtain ⟨y, ht, hgoes⟩ := hb
  have hgone := Job.reserves_of_goes hgoes
  cases ht with
  | changed hadmits h =>
    have hchanged := reserves_of_changes hs hj hadmits h
    omega
  | spared h =>
    have habandons : b.abandons job.id event = false :=
      Bool.eq_false_iff.2 fun htest => h (demands_of_abandons hs hj htest)
    have hdeletes : b.deletes job.id event = false :=
      Bool.eq_false_iff.2 fun htest => h (changes_of_deletes hs hj htest).1
    rw [habandons, discards, hdeletes]
    exact hgone

theorem timeouts_of_becomes :
    x.counts.timeouts = job.counts.timeouts + (b.expires job.id event).toNat := by
  refine count_of_becomes hb (fun _ _ => rfl) (fun y _ h => ?_) (demands_of_expires hs hj)
  cases h with
  | expire hover =>
    rw [expires, finds_isOverdue hs hj, hover]
    rfl
  | release => rw [(Job.placed_frame _ _ _).2.2.1]; rfl
  | _ => rfl

theorem releases_of_becomes :
    x.counts.releases = job.counts.releases + (b.releases job.id event).toNat := by
  refine count_of_becomes hb (fun _ _ => rfl) (fun y hadmits h => ?_) (demands_of_releases hs hj)
  cases h with
  | release hid hheld =>
    rw [releases_of_held hs hj hadmits hid hheld, (Job.placed_frame _ _ _).2.2.1]
    rfl
  | _ => rfl

theorem buries_of_becomes :
    x.counts.buries = job.counts.buries + (b.buries job.id event).toNat := by
  refine count_of_becomes hb (fun _ _ => rfl) (fun y hadmits h => ?_) (demands_of_buries hs hj)
  cases h with
  | bury hid hheld =>
    rw [buries_of_held hs hj hadmits hid hheld]
    rfl
  | release => rw [(Job.placed_frame _ _ _).2.2.1]; rfl
  | _ => rfl

/-- A kick that moves a job leaves it ready or handed out. -/
theorem kicks_of_becomes (hs' : Sound none none (b.step event).engine)
    (hx : x ∈ (b.step event).engine.jobs) :
    x.counts.kicks = job.counts.kicks + (b.kicks job.id event).toNat := by
  rw [kicks_eq hs hj hs' hx hb.id]
  obtain ⟨y, ht, hgoes⟩ := hb
  obtain ⟨-, -, n, hcounts⟩ := Job.frame_of_goes hgoes
  rw [hcounts]
  cases ht with
  | changed hadmits h =>
    cases h with
    | kick hopen | kickJob _ hopen =>
      rw [hopen, not_kickable_of_goes hgoes rfl]
      rfl
    | release => rw [(Job.placed_frame _ _ _).2.2.1]; rfl
    | _ => rfl
  | spared =>
    -- a job that can be kicked is not handed out, so it is as it was
    have hsame : (isKickable job && !isKickable x) = false := by
      rcases hgoes with rfl | ⟨hst, -⟩
      · exact Bool.and_not_self _
      · simp [isKickable, hst]
    rw [hsame, Bool.and_false]
    rfl

/-- The priority is the one that a job is given, if it is given one. -/
theorem pri_of_becomes :
    x.pri = ((b.given? job.id event).map (·.1)).getD job.pri := by
  obtain ⟨y, ht, hgoes⟩ := hb
  obtain ⟨-, hpri, -⟩ := Job.frame_of_goes hgoes
  rw [hpri]
  cases ht with
  | changed hadmits h =>
    cases h with
    | release hid hheld =>
      rw [given?, if_pos (releases_of_held hs hj hadmits hid hheld _ _ _),
        (Job.placed_frame _ _ _).2.1]
      rfl
    | bury hid hheld =>
      rw [given?, if_pos (buries_of_held hs hj hadmits hid hheld _ _)]
      rfl
    | _ => rfl
  | spared h =>
    rw [given?_eq_none hs hj h]
    rfl

theorem eq_discarded_of_deletes (htest : b.deletes job.id event = true) : x = job.discarded := by
  obtain ⟨hdemands, hchanges⟩ := changes_of_deletes hs hj htest
  obtain ⟨y, ht, hgoes⟩ := hb
  cases ht with
  | changed _ h =>
    obtain rfl := hchanges y h
    exact Job.eq_of_goes hgoes nofun
  | spared h => exact absurd hdemands h

end Step

/-! ## Runs -/

/-- What a run says of a job that it comes to. -/
structure Tally (b : Broker) (events : List Event) (job : Job) : Prop where
  timeouts : job.counts.timeouts = b.times (expires job.id) events
  releases : job.counts.releases = b.times (releases job.id) events
  buries : job.counts.buries = b.times (buries job.id) events
  kicks : job.counts.kicks = b.times (kicks job.id) events
  pri : (b.history (given? job.id) events).getLast?.map (·.1) = some job.pri

/-- The reservations of a job are settled, and it is deleted by a holder at most once. -/
structure Ledger (b : Broker) (events : List Event) (job : Job) : Prop
    extends Tally b events job where
  reserves : job.counts.reserves = job.settledReserves + b.times (abandons job.id) events +
    b.times (discards job.id) events
  discards : b.times (discards job.id) events = 0 ∨
    b.times (discards job.id) events = 1 ∧ job.state = .deleted

theorem Ledger.step (h : Reachable (b.after events)) (hl : Ledger b events job)
    (hj : job ∈ (b.after events).engine.jobs)
    (hx : x ∈ ((b.after events).step event).engine.jobs)
    (hb : (b.after events).engine.Becomes event job x) : Ledger b (events ++ [event]) x := by
  have hs := h.sound
  have hs' := (h.step event).sound
  have hid := hb.id
  refine { timeouts := ?_, releases := ?_, buries := ?_, kicks := ?_, pri := ?_, reserves := ?_,
           discards := ?_ }
  · rw [hid, times_append, ← hl.timeouts, timeouts_of_becomes hs hj hb]
  · rw [hid, times_append, ← hl.releases, releases_of_becomes hs hj hb]
  · rw [hid, times_append, ← hl.buries, buries_of_becomes hs hj hb]
  · rw [hid, times_append, ← hl.kicks, kicks_of_becomes hs hj hb hs' hx]
  · have hpri := pri_of_becomes hs hj hb
    rw [hid, history_append, List.getLast?_append, hpri]
    cases (b.after events).given? job.id event with
    | none => exact hl.pri
    | some given => rfl
  · have hstep := reserves_of_becomes hs hj hb
    have hreserves := hl.reserves
    rw [hid, times_append, times_append]
    omega
  · rw [hid, times_append]
    rcases hl.discards with hnone | ⟨honce, hdel⟩
    · rw [hnone]
      cases htest : (b.after events).discards job.id event with
      | false => exact Or.inl rfl
      | true =>
        obtain rfl := eq_discarded_of_deletes hs hj hb (Bool.and_eq_true_iff.1 htest).1
        exact Or.inr ⟨rfl, rfl⟩
    · obtain rfl := hb.of_deleted hdel
      have hnot : (b.after events).discards x.id event = false := by
        rw [Broker.discards, finds_eq hs hj fun hheld hst => by simp [Job.holder?, hst] at hheld]
        simp [Job.holder?, hdel]
      rw [hnot]
      exact Or.inr ⟨honce, hdel⟩

/-- A job that is put has nothing to its account but its priority. -/
theorem Ledger.fresh (h : Reachable b) (events : List Event)
    (hnew : (b.after events).engine.newcomer? event = some job)
    (hx : x = job ∨ job.Goes (b.after events).engine.now none x) :
    Ledger b (events ++ [event]) x := by
  obtain ⟨c, pri, delay, ttr, size, body, client, rfl, hc, hjob⟩ := newcomer?_eq_some hnew
  obtain ⟨hid, hpri, hcounts, hfree⟩ := Job.placed_frame ((b.after events).engine.newJob client.used
    pri.toNat (seconds delay.toNat) (seconds ttr.toNat) body) (b.after events).engine.now
    (seconds delay.toNat)
  rw [← hjob] at hid hpri hcounts hfree
  obtain ⟨hxid, hxpri, n, hxcounts⟩ := Job.frame_of_goes hx
  have hnext : x.id = (b.after events).engine.nextJob := hxid.trans hid
  have habsent : x.id ∉ (b.after events).engine.jobs.keys :=
    hnext ▸ (h.after events).sound.listed.jobs.next_not_mem
  -- nothing was told of the job before, and the put is no other event
  have hzero (test : Broker → Event → Bool)
      (htest : ∀ b event, test b event = true → x.id ∈ b.engine.jobs.keys)
      (hput : test (b.after events) (.command c (.put pri delay ttr size) (some body)) = false) :
      b.times test (events ++ [.command c (.put pri delay ttr size) (some body)]) = 0 := by
    rw [times_append, times_eq_zero htest h events habsent, hput]
    rfl
  have habandons := hzero (abandons x.id) mem_keys_of_abandons rfl
  have hdiscards := hzero (Broker.discards x.id)
    (fun _ _ htest => mem_keys_of_finds (Bool.and_eq_true_iff.1 htest).2) rfl
  refine { timeouts := ?_, releases := ?_, buries := ?_, kicks := ?_, pri := ?_, reserves := ?_,
           discards := Or.inl hdiscards }
  · rw [hzero (expires x.id) mem_keys_of_expires rfl, hxcounts, hcounts]
  · rw [hzero (Broker.releases x.id) mem_keys_of_releases rfl, hxcounts, hcounts]
  · rw [hzero (Broker.buries x.id) mem_keys_of_buries rfl, hxcounts, hcounts]
  · rw [hzero (Broker.kicks x.id) mem_keys_of_kicks rfl, hxcounts, hcounts]
  · rw [history_append, List.getLast?_append, hnext, given?_put hc, hxpri, hpri]
    rfl
  · rw [habandons, hdiscards]
    rcases hx with rfl | ⟨-, d, -, rfl⟩
    · rw [Job.settledReserves_of_holder?_eq_none hfree, hcounts]
      rfl
    · change job.counts.reserves + 1 = job.counts.ended + 1
      rw [hcounts]
      rfl

theorem ledger (config : Config) (events : List Event) :
    ∀ job ∈ ((start config).after events).engine.jobs, Ledger (start config) events job := by
  induction events using List.reverseRecOn with
  | nil => exact List.forall_mem_nil _
  | append_singleton earlier event ih =>
    intro x hx
    rw [after_append] at hx
    have h : Reachable ((start config).after earlier) := (Reachable.start config).after earlier
    rcases (h.recorded event).jobs x hx with ⟨job, hj, hb⟩ | ⟨job, hnew, hgoes⟩
    · exact (ih job hj).step h hj hx hb
    · exact .fresh (.start config) earlier hnew hgoes

/-- How a run accounts for a job. -/
structure Accounted (b : Broker) (events : List Event) (job : Job) : Prop
    extends Tally b events job where
  reserves : job.counts.reserves = job.counts.timeouts + job.counts.releases + job.counts.buries +
    b.times (abandons job.id) events +
      if job.holder?.isSome ∨ 0 < b.times (discards job.id) events then 1 else 0

/-- In every run, each reservation of a job has ended in one of the ways that are counted, but for
the one that goes on. -/
theorem reservations_accounted (config : Config) (events : List Event) :
    ∀ job ∈ ((start config).after events).engine.jobs, (start config).Accounted events job := by
  intro job hj
  have hl := ledger config events job hj
  refine { hl.toTally with reserves := ?_ }
  have hreserves := hl.reserves
  rw [Job.settledReserves, JobCounts.ended] at hreserves
  rcases hl.discards with hnone | ⟨honce, hdel⟩
  · rw [hnone] at hreserves ⊢
    cases hheld : job.holder?.isSome with
    | true =>
      rw [hheld] at hreserves
      rw [if_pos (Or.inl rfl)]
      change _ = _ + 1 + _ + 0 at hreserves
      omega
    | false =>
      rw [hheld] at hreserves
      rw [if_neg (by simp)]
      exact hreserves
  · have hfree : job.holder? = none := by rw [Job.holder?, hdel]
    rw [hfree, honce] at hreserves
    rw [honce, if_pos (Or.inr Nat.one_pos)]
    exact hreserves

/-- A job is released, reserved again and buried, then kicked, and handed from a client that leaves
to one that waits. -/
def leftJob : List Event :=
  [.connect, .connect, .command 1 (.put 0 0 60 1) (some [120]), .command 2 .reserve none,
    .command 2 (.release 1 5 0) none, .command 2 .reserve none, .command 2 (.bury 1 7) none,
    .command 1 (.kick 10) none, .command 2 .reserve none, .command 1 .reserve none, .disconnect 2]

/-- The job of `leftJob` afterwards. -/
def left : Job where
  id := 1
  tube := .default
  pri := 7
  delay := 0
  ttr := 60000
  created := 0
  body := [120]
  state := .reserved 1 60000
  counts := { reserves := 4, releases := 1, buries := 1, kicks := 1 }

theorem reservations_accounted_leftJob :
    left ∈ ((start {}).after leftJob).engine.jobs ∧ (start {}).Accounted leftJob left ∧
    (start {}).times (abandons 1) leftJob = 1 := by
  have hj : left ∈ ((start {}).after leftJob).engine.jobs := by decide
  have haccounted := reservations_accounted {} leftJob left hj
  have hreserves : 4 = 0 + 1 + 1 + (start {}).times (abandons 1) leftJob + 1 :=
    haccounted.reserves
  exact ⟨hj, haccounted, by omega⟩

end Broker

end WorkQueue

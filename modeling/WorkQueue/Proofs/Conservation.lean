import WorkQueue.Proofs.Books

/-!
# No job is lost in the statistics

The counters of the broker and of its tubes agree with the jobs after every event
(`Broker.step_balanced`) : a put makes a job and counts it in its tube and in the broker, a deletion
is counted by the tube, and the broker counts the timeouts that the expiry sweep reports. Together
with what the lists tell of the jobs, this is `Broker.jobs_conserved`.
-/

namespace WorkQueue

/-- Whether a reply tells the number of a new job. -/
def Reply.isInserted : Reply → Bool
  | .now (.inserted _) => true
  | _ => false

namespace Broker

open Engine

variable {b b' : Broker} {c : ClientId} {n : Nat}

/-- The counters of the broker and of its tubes agree with the jobs. -/
structure Balanced (b : Broker) : Prop extends b.engine.Balanced where
  totalJobs : b.totalJobs = b.engine.jobs.length
  jobTimeouts : b.jobTimeouts = b.engine.timeouts

/-- No counter changes, and no book. -/
structure Unchanged (b b' : Broker) : Prop where
  books : Booked 0 b.engine b'.engine
  totalJobs : b'.totalJobs = b.totalJobs
  jobTimeouts : b'.jobTimeouts = b.jobTimeouts

theorem Balanced.booked (h : b.Balanced) (hs : Sound none none b.engine)
    (hbooks : Booked n b.engine b'.engine) (htotal : b'.totalJobs = b.totalJobs)
    (htimeouts : b'.jobTimeouts = b.jobTimeouts + n) : b'.Balanced where
  toBalanced := hbooks.balanced h.toBalanced hs.listed.homes
  totalJobs := by rw [htotal, h.totalJobs, hbooks.length]
  jobTimeouts := by rw [htimeouts, h.jobTimeouts, hbooks.timeouts]

theorem Balanced.unchanged (h : b.Balanced) (hs : Sound none none b.engine)
    (hu : Unchanged b b') : b'.Balanced :=
  h.booked hs hu.books hu.totalJobs hu.jobTimeouts

namespace Unchanged

theorem refl (b : Broker) : Unchanged b b :=
  ⟨.refl b.engine, rfl, rfl⟩

theorem of_books {s : Engine} (h : Booked 0 b.engine s) : Unchanged b { b with engine := s } :=
  ⟨h, rfl, rfl⟩

theorem show? (b : Broker) (job : Option Job) : Unchanged b (b.show? job).2 := by
  unfold Broker.show?
  split <;> exact .refl b

end Unchanged

/-! ### Commands -/

/-- A transition of a registered job by its holder is refused or carried out. -/
theorem unchanged_act {id : JobId} {go : Job → Engine} {notice : Notice}
    {act : Engine → JobId → Bool × Engine}
    (hact : act b.engine id = b.engine.transition id (·.isHeldBy c) go)
    (hgo : ∀ job, b.engine.job? job.id = some job → job.id = id → job.isHeldBy c = true →
      Booked 0 b.engine (go job)) : Unchanged b (b.acknowledge notice (b.onJob id act)).2 := by
  have hbooks : Booked 0 b.engine (b.engine.transition id (·.isHeldBy c) go).2 :=
    transition_cases (fun _ => .refl b.engine) hgo
  exact .of_books (onJob_cases (.refl b.engine) (hact ▸ hbooks))

section Commands

variable (hs : Sound none none b.engine)

include hs

theorem Balanced.put (h : b.Balanced) (hc : b.isConnected c = true) (pri : Nat)
    (delay ttr : Millis) (body : Bytes) : (b.put c pri delay ttr body).2.Balanced := by
  obtain ⟨client, rfl, hclient, -⟩ := client?_of_isConnected hc
  have hmem := Table.mem_of_lookup hclient
  set s := b.engine.adjustClient client.id fun client => { client with producer := true } with hs'
  have hmarked : Sound none none s :=
    hs.adjustClient client.id (fun _ => ⟨rfl, rfl, rfl, rfl⟩) fun d hd _ =>
      ⟨hs.posted.used d hd, hs.posted.watching d hd, hs.posted.distinct d hd⟩
  have hname : client.used ∈ s.tubes.keys := hs.posted.used client hmem
  have hbalanced : s.Balanced := ⟨h.total, h.deleted⟩
  set made := s.makeJob client.used pri delay ttr body with hmade
  have hmadeBalanced : made.Balanced := hbalanced.makeJob client.used pri delay ttr body
  have hcourse : Course none none s s := .refl hmarked.listed.jobs
  obtain ⟨hsteady, -, -⟩ :=
    makeJob_keeps hmarked client.used pri delay ttr body hcourse hname
  have hj := job?_makeJob hmarked client.used pri delay ttr body
  have hn := hsteady.listed.jobs
  have hplaced : Booked 0 made (s.put client.used pri delay ttr body) := by
    rw [put_eq hmarked]
    split
    · have hmove : Booked 0 made (made.move s.nextJob (·.makeReady)) := .move hn hj rfl rfl rfl
      exact (hmove.drain (sound_makeJob_ready hmarked client.used pri delay ttr body hname)).books
    · exact .move hn hj rfl rfl rfl
  have hput : (b.put client.id pri delay ttr body).2 =
      { b with engine := s.put client.used pri delay ttr body, totalJobs := b.totalJobs + 1 } := by
    simp only [Broker.put, hclient]
    rfl
  have hlength : made.jobs.length = b.engine.jobs.length + 1 := by
    simp [hmade, hs', Engine.makeJob, create, adjustTube, adjustClient]
  have htimeouts : made.timeouts = s.timeouts := by
    simp [hmade, Engine.makeJob, create, Engine.timeouts, adjustTube]
  rw [hput]
  refine ⟨hplaced.balanced hmadeBalanced hsteady.listed.homes, ?_, ?_⟩
  · rw [h.totalJobs, ← hlength, hplaced.length]
  · rw [hplaced.timeouts, htimeouts]
    exact h.jobTimeouts

theorem Balanced.delete (h : b.Balanced) (id : JobId) : (b.delete c id).2.Balanced := by
  have hact : b.engine.delete c id = b.engine.transition id
      (fun job => job.state ≠ .deleted && job.holder?.all (· = c))
      fun _ => b.engine.move id (·.makeDeleted) := rfl
  rcases onJob_eq (·.delete c) hact with hon | ⟨job, hf, hopen, hon⟩
  · simp only [Broker.delete, hon]
    exact h
  · obtain ⟨hj, rfl, -⟩ := find?_eq_some hf
    simp only [Bool.and_eq_true, decide_eq_true_eq] at hopen
    obtain ⟨hbalanced, hlength, htimeouts⟩ :=
      Engine.Balanced.discard hj h.toBalanced hs.listed.jobs hopen.1
    simp only [Broker.delete, hon, hf]
    exact ⟨hbalanced, h.totalJobs.trans hlength.symm, h.jobTimeouts.trans htimeouts.symm⟩

theorem unchanged_reserve (hc : b.isConnected c = true) (timeout : Option Millis) :
    Unchanged b (b.reserve c timeout).2 := by
  obtain ⟨client, rfl, hclient, hopen⟩ := client?_of_isConnected hc
  obtain ⟨worker, -, hopen, hworker, hasked⟩ := reserve_passage hclient hopen timeout
  have hmarked : Booked 0 b.engine (markWorker b.engine client.id) :=
    (Booked.refl b.engine).of_eq rfl rfl
  exact .of_books (hmarked.trans (.asked (sound_markWorker hs client.id) hworker hopen hasked))

theorem unchanged_reserveJob (hc : b.isConnected c = true) (id : JobId) :
    Unchanged b (b.reserveJob c id).2 := by
  have hc : b.engine.isConnected c = true := hc
  rcases onJob_eq (·.reserveJob c) (reserveJob_of_isConnected hc id) with
    hon | ⟨job, hf, hopen, hon⟩
  · simp only [Broker.reserveJob, hon]
    exact .refl b
  · obtain ⟨hj, rfl, hregistered⟩ := find?_eq_some hf
    have hmem := ((job?_eq_some_iff hs.listed.jobs).1 hj).1
    have hentry : (job.makeReserved b.engine.now c).entry = job.entry := by
      simp [Job.entry, Job.makeReserved, (hs.settled job hmem).registered.1 hregistered]
    have hmove : Booked 0 b.engine (b.engine.move job.id (·.makeReserved b.engine.now c)) :=
      .move hs.listed.jobs hj rfl hentry rfl
    simp only [Broker.reserveJob, hon, hf]
    rw [watchDeadlines_eq]
    exact .of_books (hmove.of_eq rfl rfl)

theorem perform_unchanged (hc : b.isConnected c = true) {command : Command}
    (hput : command.verb ≠ .put) (hdelete : command.verb ≠ .delete) (body : Option Bytes) :
    Unchanged b (b.perform c command body).2 := by
  have hbooking : Booking none 0 b.engine b.engine := ⟨hs, .refl b.engine⟩
  have hn := hs.listed.jobs
  cases command with
  | put => exact absurd rfl hput
  | delete => exact absurd rfl hdelete
  | reserve => exact unchanged_reserve hs hc none
  | reserveWithTimeout timeout => exact unchanged_reserve hs hc _
  | reserveJob id => exact unchanged_reserveJob hs hc _
  | release id pri delay =>
    refine unchanged_act rfl fun job hj hid hheld => ?_
    rw [← hid]
    split
    · exact (hbooking.back (m := 0) hj (.release rfl hheld pri.toNat) rfl).books
    · next hdelay => exact .shift hn hj (.postpone rfl hheld pri.toNat _ hdelay)
  | bury id pri =>
    exact unchanged_act rfl fun job hj hid hheld =>
      hid ▸ .shift hn hj (.bury rfl hheld pri.toNat)
  | touch id =>
    exact unchanged_act rfl fun job hj hid hheld => hid ▸ .shift hn hj (.touch rfl hheld)
  | watch name => exact .of_books (.watch b.engine c name)
  | useTube name => exact .of_books (.useTube b.engine c name)
  | ignore name =>
    unfold perform Broker.ignore
    dsimp only
    split
    · exact .refl b
    · exact .of_books (.ignore b.engine c name)
  | pauseTube name delay =>
    unfold perform Broker.pauseTube
    dsimp only
    split
    · exact .of_books ((Booked.refl b.engine).adjustTube name fun _ => ⟨rfl, rfl, rfl⟩)
    · exact .refl b
  | kick bound =>
    unfold perform Broker.kick
    dsimp only
    split
    · exact .of_books (hbooking.kick _ _).books
    · exact .refl b
  | kickJob id => exact .of_books (onJob_cases (.refl b.engine) (hbooking.kickJob id.toNat).books)
  | peek | peekReady | peekDelayed | peekBuried => exact .show? b _
  | statsJob | statsTube | listTubeUsed | listTubesWatched =>
    unfold perform
    dsimp only
    split <;> exact .refl b
  | stats | listTubes | quit => exact .refl b

end Commands

/-! ### Events -/

/-- Whether an event is a put that is answered with the number of its job. -/
def inserts (b : Broker) : Event → Bool
  | .command c command body =>
    b.isConnected c && (command.verb = .put && (b.dispatch c command body).1.isInserted)
  | _ => false

/-- How many puts of a run are answered with the number of their job. -/
def insertions (b : Broker) : List Event → Nat
  | [] => 0
  | event :: rest => (b.inserts event).toNat + (b.step event).insertions rest

/-- The counters go on agreeing, and the puts are counted. -/
theorem perform_balanced (hs : Sound none none b.engine) (h : b.Balanced)
    (hc : b.isConnected c = true) (command : Command) (body : Option Bytes) :
    (b.perform c command body).2.Balanced ∧ (b.perform c command body).2.totalJobs =
      b.totalJobs + (command.verb = .put && (b.perform c command body).1.isInserted).toNat := by
  by_cases hput : command.verb = .put
  · cases command with
    | put pri delay ttr size =>
      cases body with
      | none => exact ⟨h, rfl⟩
      | some body =>
        refine ⟨h.put hs hc _ _ _ body, ?_⟩
        obtain ⟨client, rfl, hclient, -⟩ := client?_of_isConnected hc
        simp only [perform, Broker.put, hclient]
        rfl
    | _ => cases hput
  · rw [decide_eq_false hput]
    by_cases hdelete : command.verb = .delete
    · cases command with
      | delete id =>
        refine ⟨h.delete hs id.toNat, ?_⟩
        simp only [perform, Broker.delete]
        split <;> rfl
      | _ => cases hdelete
    · have hu := perform_unchanged hs hc hput hdelete body
      exact ⟨h.unchanged hs hu, hu.totalJobs⟩

theorem step_balanced (hs : Sound none none b.engine) (h : b.Balanced) (event : Event) :
    (b.step event).Balanced ∧ (b.step event).totalJobs = b.totalJobs + (b.inserts event).toNat := by
  have hrest {n : Nat} (hbooks : Booked n b.engine (b.step event).engine)
      (htotal : (b.step event).totalJobs = b.totalJobs)
      (htimeouts : (b.step event).jobTimeouts = b.jobTimeouts + n) : (b.step event).Balanced :=
    h.booked hs hbooks htotal htimeouts
  cases event with
  | connect =>
    have hbooks : Booked 0 b.engine b.engine.openClient := by
      have hused := (Booked.refl b.engine).adjustTube .default (f := fun tube =>
        { tube with users := tube.users + 1 }) fun _ => ⟨rfl, rfl, rfl⟩
      have hwatched := hused.adjustTube .default (f := fun tube =>
        { tube with watchers := tube.watchers + 1 }) fun _ => ⟨rfl, rfl, rfl⟩
      exact hwatched.of_eq rfl rfl
    exact ⟨hrest hbooks rfl rfl, rfl⟩
  | command c command body =>
    cases hc : b.isConnected c with
    | false => simp [step, inserts, hc, h]
    | true =>
      have hs' : Sound none none (b.record command.verb).engine := by rwa [engine_record]
      have h' : (b.record command.verb).Balanced := ⟨h.toBalanced, h.totalJobs, h.jobTimeouts⟩
      have hc' : (b.record command.verb).isConnected c = true := by
        rwa [Broker.isConnected, engine_record]
      obtain ⟨hbalanced, htotal⟩ := perform_balanced hs' h' hc' command body
      have hrecord : (b.record command.verb).totalJobs = b.totalJobs := rfl
      rw [hrecord] at htotal
      simp only [step, inserts, hc, if_true, Bool.true_and]
      exact ⟨hbalanced, htotal⟩
  | disconnect c =>
    cases hc : b.isConnected c with
    | false => simp [step, inserts, hc, h]
    | true =>
      obtain ⟨client, rfl, hclient, -⟩ := client?_of_isConnected hc
      simp only [step, hc, if_true] at hrest ⊢
      exact ⟨hrest (.close hs hclient) rfl rfl, rfl⟩
  | advance span => exact ⟨hrest (.advance b.engine span) rfl rfl, rfl⟩
  | delayedSweep =>
    have hswept : Booking none 0 b.engine b.engine.delayedSweep.2 :=
      Booking.delayedSweep ⟨hs, .refl b.engine⟩
    exact ⟨hrest hswept.books rfl rfl, rfl⟩
  | expirySweep =>
    have hswept : Booking none (0 + b.engine.expirySweep.1) b.engine b.engine.expirySweep.2 :=
      Booking.expirySweep ⟨hs, .refl b.engine⟩
    exact ⟨hrest (Nat.zero_add b.engine.expirySweep.1 ▸ hswept.books) rfl rfl, rfl⟩

theorem balanced_start (config : Config) : (start config).Balanced where
  total := fun tube ht => by rw [List.mem_singleton.1 ht]; rfl
  deleted := fun tube ht => by rw [List.mem_singleton.1 ht]; rfl
  totalJobs := rfl
  jobTimeouts := rfl

theorem after_balanced (h : Reachable b) (hb : b.Balanced) (events : List Event) :
    (b.after events).Balanced ∧
      (b.after events).totalJobs = b.totalJobs + b.insertions events := by
  induction events generalizing b with
  | nil => exact ⟨hb, rfl⟩
  | cons event rest ih =>
    obtain ⟨hstep, htotal⟩ := step_balanced h.sound hb event
    obtain ⟨hrest, hsum⟩ := ih (h.step event) hstep
    exact ⟨hrest, by rw [insertions, ← Nat.add_assoc, ← htotal]; exact hsum⟩

/-! ## Conservation -/

/-- What the statistics tell of the jobs after some puts. -/
structure Conserved (b : Broker) (puts : Nat) : Prop where
  accounted : ∀ tube ∈ b.engine.tubes, (b.engine.tubeStats tube).totalJobs =
    (b.engine.tubeStats tube).cmdDelete + (b.engine.tubeStats tube).jobs.ready +
      (b.engine.tubeStats tube).jobs.delayed + (b.engine.tubeStats tube).jobs.reserved +
        (b.engine.tubeStats tube).jobs.buried
  registered : ∀ tube ∈ b.engine.tubes,
    (b.engine.tubeStats tube).jobs = b.engine.tally tube.name
  jobs : b.stats.jobs =
    { urgent := (b.engine.tubes.map fun tube => (b.engine.tubeStats tube).jobs.urgent).sum
      ready := (b.engine.tubes.map fun tube => (b.engine.tubeStats tube).jobs.ready).sum
      reserved := (b.engine.tubes.map fun tube => (b.engine.tubeStats tube).jobs.reserved).sum
      delayed := (b.engine.tubes.map fun tube => (b.engine.tubeStats tube).jobs.delayed).sum
      buried := (b.engine.tubes.map fun tube => (b.engine.tubeStats tube).jobs.buried).sum }
  totalJobs : b.stats.totalJobs =
    (b.engine.tubes.map fun tube => (b.engine.tubeStats tube).totalJobs).sum
  inserted : b.stats.totalJobs = puts
  /-- All jobs that were ever put are on record, and count their timeouts. -/
  recorded : b.engine.jobs.keys = List.range' 1 puts
  jobTimeouts : b.stats.jobTimeouts = (b.engine.jobs.map (·.counts.timeouts)).sum

/-- In every run, the statistics account for all jobs. -/
theorem jobs_conserved (config : Config) (events : List Event) :
    ((start config).after events).Conserved ((start config).insertions events) := by
  have hreach : Reachable ((start config).after events) := (Reachable.start config).after events
  obtain ⟨hb, hinserted⟩ := after_balanced (.start config) (balanced_start config) events
  set b := (start config).after events
  have hs := hreach.sound
  have hinserted : b.totalJobs = (start config).insertions events :=
    hinserted.trans (Nat.zero_add _)
  refine
    { accounted := fun tube ht => ?_
      registered := fun tube ht => hs.totals ht
      jobs := b.engine.totals_eq_sum
      totalJobs := ?_
      inserted := hinserted
      recorded := ?_
      jobTimeouts := hb.jobTimeouts }
  · have htotals : (b.engine.tubeStats tube).jobs = b.engine.tally tube.name := hs.totals ht
    rw [htotals]
    have hcount := hs.countP_tube tube.name
    rw [← hb.total tube ht, ← hb.deleted tube ht] at hcount
    exact hcount
  · have hsum := hs.listed.sum_countP fun _ => true
    simp only [Bool.and_true, List.countP_true] at hsum
    refine (hb.totalJobs.trans hsum.symm).trans (congrArg List.sum ?_)
    exact List.map_congr_left fun tube ht => (hb.total tube ht).symm
  · rw [← hinserted, hb.totalJobs]
    exact hs.listed.jobs

end Broker

end WorkQueue

import WorkQueue.Proofs.HandedOut
import WorkQueue.Proofs.Overtaking
import WorkQueue.Proofs.Roster
import WorkQueue.Proofs.Waiters

/-!
# A client that leaves

A client that disconnects leaves no job reserved and no request to be answered. The jobs that it
held come back to ready, each with its counts, and may go to the requests of other clients that wait
at their tubes (`Engine.Inherits`). Nothing else happens to the jobs, and the other clients keep
their jobs, their tubes and their places in the queues (`Broker.Reachable.leaves_nothing`).
-/

namespace WorkQueue

namespace Engine

variable {s t : Engine} {c : ClientId} {leaving : Option ClientId} {job x : Job} {q : Request}

/-- A client holds a job of a tube. -/
def HoldsIn (s : Engine) (c : ClientId) (name : TubeName) : Prop :=
  ∃ job ∈ s.jobs, job.isHeldBy c = true ∧ job.tube = name

/-- A ready job goes to a request that waits in the queue of its tube, and that is not of the client
that leaves. -/
structure Inherits (s t : Engine) (c : ClientId) (q : Request) (job x : Job) : Prop where
  asked : q ∈ s.requests
  isOpen : s.isOpen q = true
  other : q.client ≠ c
  queued : ∃ tube ∈ s.tubes, tube.name = job.tube ∧ q.id ∈ tube.waiters
  record : x = job.makeReserved s.now q.client
  outcome : t.outcome? q.id = some (.reserved job.id)

/-- A client goes on at its post with all its jobs, and gains only jobs that answer requests of its
own. -/
structure GoesOn (s t : Engine) (client later : Client) : Prop where
  post : later.post = client.post
  keeps : client.held ⊆ later.held
  gains : ∀ slot ∈ later.held, slot ∈ client.held ∨ ∃ q ∈ s.requests, q.client = client.id ∧
    s.isOpen q = true ∧ t.outcome? q.id = some (.reserved slot.job)

/-- What becomes of jobs, clients and queues when a client leaves. -/
structure Leaves (s t : Engine) (c : ClientId) : Prop where
  jobs : t.jobs.keys = s.jobs.keys
  own : ∀ job ∈ s.jobs, job.isHeldBy c = true → ∀ x ∈ t.jobs, x.id = job.id →
    x = job.makeReady ∨ ∃ q, Inherits s t c q job.makeReady x
  others : ∀ job ∈ s.jobs, job.isHeldBy c = false → ∀ x ∈ t.jobs, x.id = job.id →
    x = job ∨ s.HoldsIn c job.tube ∧ job.state = .ready ∧ ∃ q, Inherits s t c q job x
  clients : t.clients.keys = s.clients.keys
  roster : ∀ client ∈ s.clients, client.id ≠ c → ∀ later ∈ t.clients, later.id = client.id →
    GoesOn s t client later
  requests : t.requests = s.requests
  unanswered : ∀ q ∈ s.requests, t.isOpen q =
    (s.isOpen q && decide (q.client ≠ c) && (t.outcome? q.id).isNone)
  tubes : t.tubes.keys = s.tubes.keys
  queues : ∀ tube ∈ s.tubes, ∀ later ∈ t.tubes, later.name = tube.name →
    later.waiters.filter t.isPending = tube.waiters.filter t.isPending

/-! ## The tubes of the jobs -/

/-- What is handed out while a client gives its jobs back comes from the tubes of these jobs. -/
theorem answersFrom_giveBackAll (hs : Sound leaving none s)
    (hopen : ∀ q, s.isOpen q = true → some q.client ≠ some c) :
    Sound leaving none (s.giveBackAll c) ∧ AnswersFrom (s.HoldsIn c) s (s.giveBackAll c) := by
  have hboth : Evolving (·.isHeldBy c) (fun job => job) (some c) leaving s (s.giveBackAll c) ∧
      AnswersFrom (s.HoldsIn c) s (s.giveBackAll c) := by
    refine giveBackAll_keeps (P := fun u => Evolving (·.isHeldBy c) (fun job => job) (some c)
      leaving s u ∧ AnswersFrom (s.HoldsIn c) s u) (fun u id ⟨he, ha⟩ => ?_) ⟨.refl hs, .refl s⟩
    refine ⟨he.transition hopen (fun _ hheld => .giveBack rfl hheld) id,
      transition_cases (fun _ => ha) fun job hj _ hheld => ?_⟩
    obtain ⟨hmem, -⟩ := (job?_eq_some_iff he.sound.listed.jobs).1 hj
    have hold : s.HoldsIn c job.tube :=
      ⟨job, he.untouched hmem (.giveBack rfl hheld), hheld, rfl⟩
    have hback : Return u.now (some c) job fun job => job := .giveBack rfl hheld
    have hmove := ha.move (f := (·.makeReady)) he.sound.listed.jobs hj rfl rfl
    exact hmove.drain (he.sound.comeBack hj hback) fun _ => hold
  exact ⟨hboth.1.sound, hboth.2⟩

theorem answersFrom_close {client : Client} (hs : Sound none none s)
    (hc : s.client? client.id = some client) :
    AnswersFrom (s.HoldsIn client.id) s (s.close client.id) := by
  have hdone := hs.finishAll client.id
  have hopen : ∀ q, (s.finishAll client.id).isOpen q = true → some q.client ≠ some client.id :=
    fun _ => ne_of_isOpen_finishAll
  obtain ⟨hsound, hgiven⟩ := answersFrom_giveBackAll hdone hopen
  obtain ⟨-, haside⟩ := leave_tubes client.watching (hsound.removeUser client.used)
  have hgiven : AnswersFrom (s.HoldsIn client.id) s
      ((s.finishAll client.id).giveBackAll client.id) := hgiven
  rw [close_eq hc]
  exact hgiven.of_eq haside.jobs haside.deliveries

/-! ## The rest of the engine -/

theorem keys_removeWatchers (names : List TubeName) (s : Engine) :
    (names.foldl removeWatcher s).tubes.keys = s.tubes.keys :=
  List.foldlRecOn names removeWatcher (motive := fun t => t.tubes.keys = s.tubes.keys) rfl
    fun u hu name _ =>
      (keys_adjustTube u name (f := fun tube => { tube with watchers := tube.watchers - 1 })
        fun _ => rfl).trans hu

theorem keys_depart (s : Engine) (client : Client) :
    (s.depart client).tubes.keys = s.tubes.keys :=
  (keys_removeWatchers client.watching _).trans (keys_adjustTube s client.used
    (f := fun tube => { tube with users := tube.users - 1 }) fun _ => rfl)

/-- Only the client that is closed is not connected any more. -/
theorem isConnected_close {client : Client} (hs : Sound none none s)
    (hc : s.client? client.id = some client) {d : ClientId} (hd : (s.client? d).isSome = true) :
    (s.close client.id).isConnected d = (s.isConnected d && decide (d ≠ client.id)) := by
  obtain ⟨u, -, hcourse, -, heq⟩ := close_course hs hc
  have hclients := (fewer_finishAll s client.id).sameClients.trans hcourse.clients
  rw [heq, isConnected_shut, (hclients d hd).2]

/-- The queues have what is open still in the same order. -/
theorem queues_of_requests (hs : Sound none none s) (ht : Sound none none t)
    (hr : t.requests = s.requests) (hopen : ∀ q ∈ s.requests, t.isOpen q = true → s.isOpen q = true)
    {tube later : Tube} (htube : tube ∈ s.tubes) (hlater : later ∈ t.tubes)
    (hname : later.name = tube.name) :
    later.waiters.filter t.isPending = tube.waiters.filter t.isPending := by
  -- with the queues of before, the requests of now would be queued as well
  have hquiet : Quiet none s { t with tubes := s.tubes } :=
    ⟨⟨[], hr.trans (List.append_nil _).symm, List.forall_mem_nil _⟩, hopen,
      fun tube ht => ⟨tube, ht, .refl none tube⟩⟩
  have hbefore : tube.waiters.filter t.isPending = t.turns tube.name :=
    (hquiet.queued ht.tracked.numbered hs.queued).turns tube htube
  rw [hbefore, ht.queued.turns later hlater, hname]

end Engine

namespace Broker

open Engine

variable {b : Broker} {c : ClientId} {job x y : Job}

/-- A client that leaves makes no request. -/
theorem Reachable.requests_disconnect (h : Reachable b) (c : ClientId) :
    (b.step (.disconnect c)).engine.requests = b.engine.requests := by
  rcases (step_passage b (.disconnect c)).requests_or_reserve h.sound with hr | ⟨_, _, hasks, -⟩
  · exact hr
  · cases hasks

theorem step_disconnect (hc : b.isConnected c = true) :
    (b.step (.disconnect c)).engine = b.engine.close c :=
  congrArg Broker.engine (if_pos hc)

section Leaving

variable (h : Reachable b) (hc : b.isConnected c = true)

include h hc

/-- Whatever becomes of a job, it comes back first if the client holds it. -/
theorem Reachable.disconnects (hj : job ∈ b.engine.jobs)
    (hx : x ∈ (b.step (.disconnect c)).engine.jobs) (hid : x.id = job.id) :
    ∃ y, b.engine.Treats (.disconnect c) job y ∧ (x = y ∨ y.Goes b.engine.now none x) ∧
      y = if job.isHeldBy c then job.makeReady else job := by
  obtain ⟨y, ht, hgoes⟩ := ((h.recorded (.disconnect c)).goes_on h.sound hj).2 x hx hid
  refine ⟨y, ht, hgoes, ?_⟩
  cases ht with
  | changed _ hchange =>
    cases hchange with
    | abandon hheld => exact (if_pos hheld).symm
  | spared hspared =>
    exact (if_neg fun hheld => hspared ⟨hc, rfl, _, .abandon hheld⟩).symm

/-- A job that is handed out then is of the tube of a job that the client held. -/
theorem Reachable.inherits (hj : job ∈ b.engine.jobs)
    (ht : b.engine.Treats (.disconnect c) job y) (hgoes : y.Goes b.engine.now none x)
    (hx : x ∈ (b.step (.disconnect c)).engine.jobs) :
    b.engine.HoldsIn c y.tube ∧
      ∃ q, Inherits b.engine (b.step (.disconnect c)).engine c q y x := by
  have hs' := (h.step (.disconnect c)).sound
  obtain ⟨d, hd, q, hout, ha, hg, -⟩ := h.handed_out hj ht hgoes hx
  obtain ⟨-, d', -, hxy⟩ := hgoes
  have htube : x.tube = y.tube := by rw [hxy]; rfl
  have hq : q ∈ b.engine.requests := h.requests_disconnect c ▸ ha.asked
  have hopen := ha.waited hq
  have hclient : d' = q.client := by
    have hstate := hg.state
    rw [hxy] at hstate
    exact (JobState.reserved.inj hstate).1
  obtain ⟨client, rfl, hclient', -⟩ := client?_of_isConnected hc
  constructor
  · obtain ⟨fresh, hfresh, hfrom⟩ := answersFrom_close h.sound hclient'
    rw [← step_disconnect hc] at hfresh hfrom
    rw [hfresh, List.drop_left] at hd
    obtain ⟨z, hz, hid, hsource⟩ := hfrom d hd x.id hout
    rw [← htube, ← hs'.listed.job_ext hz hx hid]
    exact hsource
  · refine ⟨q, hq, hopen, ?_, ?_, by rw [hxy, hclient], ?_⟩
    · obtain ⟨fresh, hfresh, hnot⟩ := answers_close h.sound hclient'
      rw [← step_disconnect hc] at hfresh hnot
      rw [hfresh, List.drop_left] at hd
      obtain ⟨p, hp, hans, hne⟩ := hnot d hd
      rwa [hs'.tracked.request_ext ha.asked hp (ha.answers.symm.trans hans)]
    · have hwatch := htube ▸ hg.watches
      obtain ⟨tube, htube', hname⟩ := List.mem_map.1 (h.sound.posted.requests q hq hwatch)
      have hname : tube.name = y.tube := hname
      refine ⟨tube, htube', hname, List.mem_of_mem_filter (p := b.engine.isPending) ?_⟩
      rw [h.sound.queued.turns tube htube', hname]
      exact mem_turns_iff.2 ⟨q, hq, hopen, hwatch, rfl⟩
    · have hid : x.id = y.id := by rw [hxy]; rfl
      rw [← ha.answers, hs'.tracked.outcome?_of_mem (List.mem_of_mem_drop hd), hout, hid]

theorem Reachable.own_of_leaves (hj : job ∈ b.engine.jobs) (hheld : job.isHeldBy c = true)
    (hx : x ∈ (b.step (.disconnect c)).engine.jobs) (hid : x.id = job.id) : x = job.makeReady ∨
      ∃ q, Inherits b.engine (b.step (.disconnect c)).engine c q job.makeReady x := by
  obtain ⟨y, ht, hgoes, hy⟩ := h.disconnects hc hj hx hid
  rw [if_pos hheld] at hy
  subst hy
  exact hgoes.imp_right fun hgoes => (h.inherits hc hj ht hgoes hx).2

theorem Reachable.others_of_leaves (hj : job ∈ b.engine.jobs) (hheld : job.isHeldBy c = false)
    (hx : x ∈ (b.step (.disconnect c)).engine.jobs) (hid : x.id = job.id) :
    x = job ∨ b.engine.HoldsIn c job.tube ∧ job.state = .ready ∧
      ∃ q, Inherits b.engine (b.step (.disconnect c)).engine c q job x := by
  obtain ⟨y, ht, hgoes, hy⟩ := h.disconnects hc hj hx hid
  rw [hheld, if_neg Bool.false_ne_true] at hy
  subst hy
  refine hgoes.imp_right fun hgoes => ?_
  obtain ⟨hin, hinherits⟩ := h.inherits hc hj ht hgoes hx
  exact ⟨hin, hgoes.1, hinherits⟩

theorem Reachable.posts_of_leaves : (b.step (.disconnect c)).engine.clients.keys =
      b.engine.clients.keys ∧ ∀ client ∈ b.engine.clients, client.id ≠ c →
        ∀ later ∈ (b.step (.disconnect c)).engine.clients, later.id = client.id →
          later.post = client.post := by
  have hposts := h.posts_step (.disconnect c)
  rw [show b.joins (.disconnect c) = [] from rfl, List.append_nil] at hposts
  have hassigns (post : Post) : (b.assigns (.disconnect c) post).id = post.id ∧
      (post.id ≠ c → b.assigns (.disconnect c) post = post) := by
    unfold assigns
    simp only [hc, Bool.true_and, decide_eq_true_eq]
    split
    · next hid => exact ⟨rfl, fun hne => absurd hid hne⟩
    · exact ⟨rfl, fun _ => rfl⟩
  constructor
  · have hids := congrArg (List.map Post.id) hposts
    simp only [List.map_map] at hids
    refine hids.trans (List.map_congr_left fun client _ => ?_)
    exact (hassigns client.post).1
  · intro client hclient hne later hlater hid
    have hpost : later.post ∈ (b.engine.clients.map Client.post).map (b.assigns (.disconnect c)) :=
      hposts ▸ List.mem_map_of_mem hlater
    obtain ⟨post, hpost, hassigned⟩ := List.mem_map.1 hpost
    obtain ⟨old, hold, rfl⟩ := List.mem_map.1 hpost
    have holdid : old.id = later.id :=
      (hassigns old.post).1.symm.trans (congrArg Post.id hassigned)
    obtain rfl := Table.eq_of_key_eq h.sound.listed.clients.nodup hold hclient (holdid.trans hid)
    rw [← hassigned, (hassigns old.post).2 hne]

/-- The other clients keep their jobs, and gain what answers their requests. -/
theorem Reachable.goesOn_of_leaves {client later : Client} (hclient : client ∈ b.engine.clients)
    (hne : client.id ≠ c) (hlater : later ∈ (b.step (.disconnect c)).engine.clients)
    (hid : later.id = client.id) :
    GoesOn b.engine (b.step (.disconnect c)).engine client later := by
  have hs := h.sound
  have hs' := (h.step (.disconnect c)).sound
  refine ⟨(h.posts_of_leaves hc).2 client hclient hne later hlater hid, fun slot hslot => ?_,
    fun slot hslot => ?_⟩
  · obtain ⟨job, hj, hjob, hst⟩ := (hs.listed.held client hclient slot).1 hslot
    obtain ⟨⟨x, hx, hsame⟩, -⟩ := (h.recorded (.disconnect c)).goes_on hs hj
    have hother : job.isHeldBy c = false := by
      simpa [Job.isHeldBy, Job.holder?, hst] using hne
    rcases h.others_of_leaves hc hj hother hx hsame with rfl | ⟨-, hready, -⟩
    · exact (hs'.listed.held later hlater slot).2 ⟨x, hx, hjob, hid ▸ hst⟩
    · cases hst.symm.trans hready
  · obtain ⟨x, hx, hjob, hst⟩ := (hs'.listed.held later hlater slot).1 hslot
    rw [hid] at hst
    have hkey : x.id ∈ b.engine.jobs.keys := by
      have hkeys := (h.recorded (.disconnect c)).keys
      rw [show b.engine.newcomer? (.disconnect c) = none from rfl] at hkeys
      have hmem : x.id ∈ (b.step (.disconnect c)).engine.jobs.keys :=
        List.mem_map_of_mem (f := Keyed.key) hx
      rwa [hkeys, Option.toList_none, List.map_nil, List.append_nil] at hmem
    obtain ⟨job, hj, hsame⟩ := List.mem_map.1 hkey
    have hsame : x.id = job.id := hsame.symm
    have hgained {y : Job} {q : Request} (hy : y.id = job.id)
        (hq : Inherits b.engine (b.step (.disconnect c)).engine c q y x) :
        ∃ q ∈ b.engine.requests, q.client = client.id ∧ b.engine.isOpen q = true ∧
          (b.step (.disconnect c)).engine.outcome? q.id = some (.reserved slot.job) := by
      have hrecord := hq.record ▸ hst
      have hout := hq.outcome
      rw [hy, ← hsame, hjob] at hout
      exact ⟨q, hq.asked, (JobState.reserved.inj hrecord).1, hq.isOpen, hout⟩
    cases hheld : job.isHeldBy c with
    | true =>
      rcases h.own_of_leaves hc hj hheld hx hsame with rfl | ⟨q, hq⟩
      · cases hst
      · exact Or.inr (hgained (y := job.makeReady) rfl hq)
    | false =>
      rcases h.others_of_leaves hc hj hheld hx hsame with rfl | ⟨-, -, q, hq⟩
      · exact Or.inl ((hs.listed.held client hclient slot).2 ⟨x, hj, hjob, hst⟩)
      · exact Or.inr (hgained rfl hq)

/-- What is open of the other clients stays open until it has an answer. -/
theorem Reachable.unanswered_of_leaves {q : Request} (hq : q ∈ b.engine.requests) :
    (b.step (.disconnect c)).engine.isOpen q = (b.engine.isOpen q && decide (q.client ≠ c) &&
      ((b.step (.disconnect c)).engine.outcome? q.id).isNone) := by
  have hs' := (h.step (.disconnect c)).sound
  have hasked := h.requests_disconnect c ▸ hq
  obtain ⟨owner, howner, -⟩ := h.sound.tracked.asked q hq
  obtain ⟨client, rfl, hclient, -⟩ := client?_of_isConnected hc
  have hcon := isConnected_close h.sound hclient (Option.isSome_of_eq_some howner)
  rw [← step_disconnect hc] at hcon
  rw [hs'.isOpen_eq hasked, hcon]
  cases hopen : b.engine.isOpen q with
  | true => rw [h.sound.tracked.isConnected_of_isOpen hopen]
  | false =>
    have hafter : (b.step (.disconnect client.id)).engine.isOpen q = false :=
      eq_false_of_ne_true fun ho => by
        rw [(h.progress (.disconnect client.id)).isOpen q hq ho] at hopen
        cases hopen
    rw [hs'.isOpen_eq hasked, hcon] at hafter
    rw [hafter, Bool.false_and, Bool.false_and]

theorem Reachable.tubes_of_leaves :
    (b.step (.disconnect c)).engine.tubes.keys = b.engine.tubes.keys := by
  obtain ⟨client, rfl, hclient, -⟩ := client?_of_isConnected hc
  rw [(h.samePosts (.disconnect client.id)).keys, repost, if_pos hc, hclient]
  exact keys_depart b.engine client

end Leaving

/-- A client that has gone does not come back, and holds no job. -/
theorem Reachable.not_held_of_closed (h : Reachable b)
    (hknown : (b.engine.client? c).isSome = true) (hclosed : b.engine.isConnected c = false)
    (events : List Event) : ∀ job ∈ (b.after events).engine.jobs, job.isHeldBy c = false := by
  refine fun job hj => Bool.eq_false_iff.2 fun hheld => ?_
  obtain ⟨due, hst⟩ := Job.isHeldBy_iff.1 hheld
  have hholder := (h.after events).sound.listed.holders job hj c due hst
  rw [h.gone_after hknown hclosed events] at hholder
  cases hholder

/-- A client that disconnects leaves no job and no request, and the others keep what is theirs. -/
theorem Reachable.leaves_nothing (h : Reachable b) (hc : b.isConnected c = true) :
    Leaves b.engine (b.step (.disconnect c)).engine c ∧
      (∀ events, ∀ job ∈ (b.after (.disconnect c :: events)).engine.jobs, job.isHeldBy c = false) ∧
        b.EndsWith c := by
  obtain ⟨client, rfl, hclient, -⟩ := client?_of_isConnected hc
  have hknown := Option.isSome_of_eq_some hclient
  refine ⟨?_, fun events => ?_, h.endsWith hknown⟩
  · obtain ⟨hkeys, -⟩ := h.posts_of_leaves hc
    exact
      { jobs := (h.recorded (.disconnect client.id)).keys.trans (List.append_nil _)
        own := fun _ hj hheld _ hx hid => h.own_of_leaves hc hj hheld hx hid
        others := fun _ hj hheld _ hx hid => h.others_of_leaves hc hj hheld hx hid
        clients := hkeys
        roster := fun _ hmem hne _ hlater hid => h.goesOn_of_leaves hc hmem hne hlater hid
        requests := h.requests_disconnect client.id
        unanswered := fun _ hq => h.unanswered_of_leaves hc hq
        tubes := h.tubes_of_leaves hc
        queues := fun _ htube _ hlater hname =>
          queues_of_requests h.sound (h.step (.disconnect client.id)).sound
            (h.requests_disconnect client.id) (h.progress (.disconnect client.id)).isOpen htube
            hlater hname }
  · have hclosed : (b.step (.disconnect client.id)).engine.isConnected client.id = false := by
      rw [step_disconnect hc, isConnected_close h.sound hclient hknown]
      simp
    exact (h.step (.disconnect client.id)).not_held_of_closed
      ((h.progress (.disconnect client.id)).clients client.id hknown).1 hclosed events

/-- The first client holds two jobs and asks for a third one, before the second client asks. -/
def leavesTwoJobs : List Event :=
  [.connect, .connect, .command 1 (.put 0 0 60 1) (some [120]),
    .command 1 (.put 1 0 60 1) (some [120]), .command 1 .reserve none, .command 1 .reserve none,
    .command 1 .reserve none, .command 2 .reserve none]

theorem leaves_twoJobs :
    (let b := (start {}).after leavesTwoJobs
    b.isConnected 1 = true ∧ (Leaves b.engine (b.step (.disconnect 1)).engine 1 ∧
      (∀ events, ∀ job ∈ (b.after (.disconnect 1 :: events)).engine.jobs,
        job.isHeldBy 1 = false) ∧ b.EndsWith 1) ∧
    b.engine.jobs.map (·.holder?) = [some 1, some 1] ∧
    b.engine.tubes.map (·.waiters) = [[3, 4]] ∧
    (b.step (.disconnect 1)).engine.jobs.map (·.holder?) = [some 2, none] ∧
    (b.step (.disconnect 1)).engine.outcome? 3 = none ∧
    (b.step (.disconnect 1)).engine.outcome? 4 = some (.reserved 1)) :=
  ⟨by decide, Reachable.leaves_nothing ((Reachable.start {}).after leavesTwoJobs) (by decide),
    by decide, by decide, by decide, by decide, by decide⟩

end Broker

end WorkQueue

import WorkQueue.Engine.Report
import WorkQueue.Proofs.Reachable

/-!
# Every request is answered once

`Engine.Accounted` : no request has two outcomes, the request of a connected client is open as long
as it has none, and the outcome is one that its timeout allows. `Engine.Answers` is the part of a
step : a request takes over the tubes that its client watches, one that does not wait is answered in
its own step, and when the answer is a job, the job has just gone to reserved for the client of the
request. A client that is closed is not answered any more. `Broker.Reachable.requests_accounted` has
all three.
-/

namespace WorkQueue

namespace Engine

variable {s t : Engine}

/-- What is true of the requests and their outcomes. -/
structure Accounted (s : Engine) : Prop where
  asked : ∀ d ∈ s.deliveries, d.request ∈ s.requests.keys
  once : ∀ r, (s.deliveries.filter (·.request = r)).length ≤ 1
  pending : ∀ q ∈ s.requests, s.isConnected q.client = true →
    (s.isOpen q = true ↔ s.outcome? q.id = none)
  plain : ∀ q ∈ s.requests, q.timeout = none → ∀ outcome, s.outcome? q.id = some outcome →
    ∃ job, outcome = .reserved job
  atOnce : ∀ q ∈ s.requests, q.timeout = some 0 → ∀ outcome, s.outcome? q.id = some outcome →
    outcome = .notFound ∨ ∃ job, outcome = .reserved job
  timed : ∀ q ∈ s.requests, ∀ span, q.timeout = some span → 0 < span →
    ∀ outcome, s.outcome? q.id = some outcome →
      outcome = .deadlineSoon ∨ outcome = .timedOut ∨ ∃ job, outcome = .reserved job

/-- What a step does to the requests. -/
structure Answers (s t : Engine) : Prop where
  requests : s.requests <+: t.requests
  made : ∀ q ∈ t.requests, q ∉ s.requests → s.isConnected q.client = true ∧
    (s.client? q.client).map (·.watching) = some q.tubes
  atOnce : ∀ q ∈ t.requests, q ∉ s.requests → q.timeout = some 0 → t.outcome? q.id ≠ none
  reserved : ∃ fresh, t.deliveries = s.deliveries ++ fresh ∧
    ∀ d ∈ fresh, ∀ id, d.outcome = .reserved id →
      ∃ q ∈ t.requests, q.id = d.request ∧ ∃ job, t.job? id = some job ∧ job.tube ∈ q.tubes ∧
        d.time = s.now ∧ job.state = .reserved q.client (s.now + job.ttr) ∧
          job.counts.reserves = s.reserves id + 1

/-! ## Outcomes -/

theorem outcome?_eq_none_iff {r : RequestId} : s.outcome? r = none ↔ r ∉ s.answered := by
  simp [outcome?, answered]

theorem delivery_of_outcome? {r : RequestId} {outcome : Outcome}
    (h : s.outcome? r = some outcome) :
    ∃ d ∈ s.deliveries, d.request = r ∧ d.outcome = outcome := by
  obtain ⟨d, hd, rfl⟩ := Option.map_eq_some_iff.1 h
  exact ⟨d, List.mem_of_find?_eq_some hd, by simpa using List.find?_some hd, rfl⟩

/-- The one answer to a request. -/
theorem Tracked.outcome?_of_mem (h : s.Tracked) {d : Delivery} (hd : d ∈ s.deliveries) :
    s.outcome? d.request = some d.outcome := by
  cases ho : s.outcome? d.request with
  | none => exact absurd (List.mem_map_of_mem hd) (outcome?_eq_none_iff.1 ho)
  | some outcome =>
    obtain ⟨other, hother, hsame, rfl⟩ := delivery_of_outcome? ho
    rw [List.inj_on_of_nodup_map h.once hother hd hsame]

/-- The outcome of a request is one that it admits. -/
theorem Tracked.admits (h : s.Tracked) {q : Request} (hq : q ∈ s.requests) {outcome : Outcome}
    (ho : s.outcome? q.id = some outcome) : q.Admits outcome := by
  obtain ⟨d, hd, hid, rfl⟩ := delivery_of_outcome? ho
  exact h.admitted d hd q hq hid.symm

theorem Tracked.once_length (h : s.Tracked) (r : RequestId) :
    (s.deliveries.filter (·.request = r)).length ≤ 1 := by
  have hcount := List.nodup_iff_count_le_one.1 h.once r
  rw [answered, List.count, List.countP_map, List.countP_eq_length_filter] at hcount
  refine Nat.le_trans (Nat.le_of_eq (congrArg List.length (List.filter_congr fun d _ => ?_))) hcount
  simp [beq_eq_decide]

theorem Sound.accounted (h : Sound none none s) : s.Accounted where
  asked := fun d hd => h.tracked.known d.request (List.mem_map_of_mem hd)
  once := h.tracked.once_length
  pending := fun q hq hcon => by
    rw [outcome?_eq_none_iff]
    exact ⟨h.tracked.unanswered q hq, h.attended q hq nofun hcon⟩
  plain := fun q hq htimeout outcome ho => by
    have hadm := h.tracked.admits hq ho
    cases outcome with
    | reserved job => exact ⟨job, rfl⟩
    | notFound | deadlineSoon | timedOut => simp [Request.Admits, htimeout] at hadm
  atOnce := fun q hq htimeout outcome ho => by
    have hadm := h.tracked.admits hq ho
    cases outcome with
    | reserved job => exact Or.inr ⟨job, rfl⟩
    | notFound => exact Or.inl rfl
    | deadlineSoon | timedOut => simp [Request.Admits, htimeout] at hadm
  timed := fun q hq span htimeout hpos outcome ho => by
    have hadm := h.tracked.admits hq ho
    cases outcome with
    | reserved job => exact Or.inr (Or.inr ⟨job, rfl⟩)
    | deadlineSoon => exact Or.inl rfl
    | timedOut => exact Or.inr (Or.inl rfl)
    | notFound =>
      simp only [Request.Admits, htimeout, Option.some.injEq] at hadm
      exact absurd hadm (Nat.ne_of_gt hpos)

/-! ## Steps -/

theorem Progress.answered_steps (h : Progress s t) (ht : Sound none none t) : Answers s t := by
  obtain ⟨late, hlate, hmade⟩ := h.requests
  have hnew {q : Request} (hq : q ∈ t.requests) (hold : q ∉ s.requests) : Made s t q := by
    rw [hlate] at hq
    exact hmade q ((List.mem_append.1 hq).resolve_left hold)
  refine ⟨⟨late, hlate.symm⟩, fun q hq hold => ⟨(hnew hq hold).connected, (hnew hq hold).tubes⟩,
    fun q hq hold htimeout hnone => ?_, ?_⟩
  · exact outcome?_eq_none_iff.1 hnone ((hnew hq hold).atOnce htimeout)
  · obtain ⟨fresh, hd, hfresh⟩ := h.answers
    refine ⟨fresh, hd, fun d hmem id hid => ?_⟩
    obtain ⟨q, ha⟩ := hfresh d hmem
    obtain ⟨job, rfl, hg, -⟩ := ha.granted id hid
    exact ⟨q, hg.asked, hg.answers.symm, job, (job?_eq_some_iff ht.listed.jobs).2 ⟨hg.listed, rfl⟩,
      hg.watches, hg.time, hg.state, hg.reserves⟩

end Engine

namespace Broker

variable {b : Broker}

/-! ## Runs -/

/-- A request stays as it was made. -/
theorem Reachable.requests_grow (h : Reachable b) (events : List Event) :
    b.engine.requests <+: (b.after events).engine.requests := by
  induction events generalizing b with
  | nil => exact List.prefix_refl _
  | cons event rest ih =>
    obtain ⟨late, hlate, -⟩ := (h.progress event).requests
    exact List.IsPrefix.trans ⟨late, hlate.symm⟩ (ih (h.step event))

/-- An answer stays as it was given. -/
theorem Reachable.deliveries_grow (h : Reachable b) (events : List Event) :
    b.engine.deliveries <+: (b.after events).engine.deliveries := by
  induction events generalizing b with
  | nil => exact List.prefix_refl _
  | cons event rest ih =>
    obtain ⟨fresh, hfresh, -⟩ := (h.progress event).answers
    exact List.IsPrefix.trans ⟨fresh, hfresh.symm⟩ (ih (h.step event))

/-- A client that is closed gets no answer, whatever happens afterwards. -/
theorem Reachable.not_answered_of_closed (h : Reachable b) {c : ClientId}
    (hknown : (b.engine.client? c).isSome = true) (hclosed : b.engine.isConnected c = false)
    (events : List Event) : ∃ fresh,
      (b.after events).engine.deliveries = b.engine.deliveries ++ fresh ∧
        ∀ d ∈ fresh, ∀ q ∈ (b.after events).engine.requests, q.id = d.request → q.client ≠ c := by
  induction events generalizing b with
  | nil => exact ⟨[], (List.append_nil _).symm, nofun⟩
  | cons event rest ih =>
    have hp := h.progress event
    obtain ⟨hknown', hclosed'⟩ := h.gone_step hknown hclosed event
    obtain ⟨later, hlater, hquiet⟩ := ih (h.step event) hknown' hclosed'
    obtain ⟨fresh, hd, hfresh⟩ := hp.answers
    change ∃ fresh, ((b.step event).after rest).engine.deliveries = b.engine.deliveries ++ fresh ∧
      ∀ d ∈ fresh, ∀ q ∈ ((b.step event).after rest).engine.requests,
        q.id = d.request → q.client ≠ c
    refine ⟨fresh ++ later, by rw [hlater, hd, List.append_assoc], fun d hmem q hq hid => ?_⟩
    rcases List.mem_append.1 hmem with hmem | hmem
    · obtain ⟨p, ha⟩ := hfresh d hmem
      have hlast := ((h.step event).after rest).sound.tracked
      have hp := ((h.step event).requests_grow rest).subset ha.asked
      obtain rfl := hlast.request_ext hq hp (hid.trans ha.answers)
      rintro rfl
      rw [ha.connected] at hclosed
      cases hclosed
    · exact hquiet d hmem q hq hid

/-- From the moment that a client disconnects, none of its requests is answered. -/
def EndsWith (b : Broker) (c : ClientId) : Prop :=
  ∀ events, ∃ fresh,
    (b.after (.disconnect c :: events)).engine.deliveries = b.engine.deliveries ++ fresh ∧
      ∀ d ∈ fresh, ∀ q ∈ (b.after (.disconnect c :: events)).engine.requests,
        q.id = d.request → q.client ≠ c

theorem Reachable.endsWith (h : Reachable b) {c : ClientId}
    (hknown : (b.engine.client? c).isSome = true) : b.EndsWith c := by
  intro events
  change ∃ fresh, ((b.step (.disconnect c)).after events).engine.deliveries =
    b.engine.deliveries ++ fresh ∧ ∀ d ∈ fresh,
      ∀ q ∈ ((b.step (.disconnect c)).after events).engine.requests, q.id = d.request → q.client ≠ c
  by_cases hcon : b.isConnected c = true
  · obtain ⟨client, rfl, hc, -⟩ := Engine.client?_of_isConnected hcon
    have hstep : b.step (.disconnect client.id) = b.disconnect client.id := if_pos hcon
    have hnext : Reachable (b.disconnect client.id) := hstep ▸ h.step (.disconnect client.id)
    have hclosed : (b.disconnect client.id).engine.isConnected client.id = false := by
      obtain ⟨u, -, -, -, heq⟩ := Engine.close_course h.sound hc
      have heq : (b.disconnect client.id).engine = u.shut client.id := heq
      simp [heq, Engine.isConnected_shut]
    have hknown' : ((b.disconnect client.id).engine.client? client.id).isSome = true := by
      have hp := h.progress (.disconnect client.id)
      rw [hstep] at hp
      exact (hp.clients _ hknown).1
    obtain ⟨fresh, hd, hfresh⟩ := Engine.answers_close h.sound hc
    obtain ⟨later, hlater, hquiet⟩ := hnext.not_answered_of_closed hknown' hclosed events
    have hd : (b.disconnect client.id).engine.deliveries = b.engine.deliveries ++ fresh := hd
    rw [hstep]
    refine ⟨fresh ++ later, by rw [hlater, hd, List.append_assoc], fun d hmem q hq hid => ?_⟩
    rcases List.mem_append.1 hmem with hmem | hmem
    · obtain ⟨p, hp, hans, hne⟩ := hfresh d hmem
      have hp := (hnext.requests_grow events).subset hp
      rwa [(hnext.after events).sound.tracked.request_ext hq hp (hid.trans hans)]
    · exact hquiet d hmem q hq hid
  · have hstep : b.step (.disconnect c) = b := if_neg hcon
    rw [hstep]
    exact h.not_answered_of_closed hknown (eq_false_of_ne_true hcon) events

/-- In every run, every request is answered at most once, in the way that it asked for and while its
client is connected. -/
theorem Reachable.requests_accounted (h : Reachable b) : b.engine.Accounted ∧
    (∀ event, Engine.Answers b.engine (b.step event).engine) ∧
      ∀ c, (b.engine.client? c).isSome = true → b.EndsWith c :=
  ⟨h.sound.accounted, fun event => (h.progress event).answered_steps (h.step event).sound,
    fun _ hknown => h.endsWith hknown⟩

/-- Three clients ask : the first without a timeout, the second without waiting and the third for a
second. The first is served by a put, the second is refused, and the third is closed while it
waits. -/
def threeAsk : List Event :=
  [.connect, .connect, .connect, .command 1 .reserve none,
    .command 2 (.reserveWithTimeout 0) none, .command 3 (.reserveWithTimeout 1) none,
    .command 2 (.put 0 0 60 1) (some [120]), .disconnect 3, .advance 2000]

theorem requests_accounted_threeAsk :
    (((start {}).after threeAsk).engine.Accounted ∧
      (∀ event, Engine.Answers ((start {}).after threeAsk).engine
        (((start {}).after threeAsk).step event).engine) ∧
      ∀ c, (((start {}).after threeAsk).engine.client? c).isSome = true →
        ((start {}).after threeAsk).EndsWith c) ∧
    ((start {}).after threeAsk).engine.deliveries =
      [⟨2, .notFound, 0⟩, ⟨1, .reserved 1, 0⟩] ∧
    ((start {}).after threeAsk).engine.isConnected 3 = false :=
  ⟨Reachable.requests_accounted ((Reachable.start {}).after threeAsk), by decide, by decide⟩

end Broker

end WorkQueue

import WorkQueue.Proofs.Answers
import WorkQueue.Proofs.Onward
import WorkQueue.Proofs.Overtaking

/-!
# Timers

A request with a timeout gets its last answer at a fixed instant : shortly before the soonest
deadline of its client, if that comes first, or else at the timeout (`Engine.lastAnswer`). The clock
never passes the timer of an open request, and a request with a timer is answered with a job before
its timer is due, or by the timer (`Engine.Punctual`). If a timer has to wait for other events of
its instant, a job may still come with one of them, but none comes later. What waits is in the
queues of its tubes, so no request is forgotten (`Engine.RunsOut`). A timer answers and does nothing
else (`Engine.OnlyAnswers`).
-/

namespace WorkQueue

/-- The answer is a job and comes before the timer is due, or it is that of the timer, which is due
by now. -/
def Delivery.Meets (d : Delivery) (timer : Timer) (now : Instant) : Prop :=
  (∃ id, d.outcome = .reserved id) ∧ d.time < timer.due ∨
    d.outcome = timer.outcome ∧ d.time = timer.due ∧ timer.due ≤ now

/-- A request may be without an answer, or get a job, at an instant : its timer is not due before,
and unless it is among the first requests, nor at the instant itself. -/
def Request.Early (q : Request) (first : Nat) (timer : Timer) (i : Instant) : Prop :=
  i ≤ timer.due ∧ (first < q.id → i < timer.due)

/-- The answer is a job and comes early, or it is that of the timer, which is due by now. -/
def Delivery.InTime (d : Delivery) (q : Request) (first : Nat) (timer : Timer) (now : Instant) :
    Prop :=
  (∃ id, d.outcome = .reserved id) ∧ q.Early first timer d.time ∨
    d.outcome = timer.outcome ∧ d.time = timer.due ∧ timer.due ≤ now

namespace Delivery.InTime

variable {d : Delivery} {q : Request} {first : Nat} {timer : Timer} {now : Instant}

theorem later (h : d.InTime q first timer now) {i : Instant} (hle : now ≤ i) :
    d.InTime q first timer i :=
  h.imp_right fun hlast => ⟨hlast.1, hlast.2.1, Nat.le_trans hlast.2.2 hle⟩

theorem mono (h : d.InTime q first timer now) {more : Nat} (hle : first ≤ more) :
    d.InTime q more timer now :=
  h.imp_left fun hjob => ⟨hjob.1, hjob.2.1, fun hlt => hjob.2.2 (Nat.lt_of_le_of_lt hle hlt)⟩

theorem meets (h : d.InTime q first timer now) (hq : first < q.id) : d.Meets timer now :=
  h.imp_left fun hjob => ⟨hjob.1, hjob.2.2 hq⟩

end Delivery.InTime

namespace Engine

variable {s t : Engine} {client : Client} {timeout : Option Millis} {first : Nat}

/-! ## What a timer is set to -/

/-- The deadlines of the jobs that a client holds. -/
def deadlines (s : Engine) (c : ClientId) : List Instant :=
  s.jobs.filterMap fun job =>
    match job.state with
    | .reserved holder due => if holder = c then some due else none
    | _ => none

/-- The answer to a request with a timeout that gets no job before, where `soonest` is the soonest
deadline of its client. -/
def lastAnswer (now : Instant) (soonest : Option Instant) (timeout : Millis) : Timer :=
  match soonest with
  | some deadline =>
    let soon := max 1 (deadline - seconds 1 - now)
    if soon ≤ timeout then ⟨now + soon, .deadlineSoon⟩ else ⟨now + timeout, .timedOut⟩
  | none => ⟨now + timeout, .timedOut⟩

theorem mem_deadlines {c : ClientId} {due : Instant} :
    due ∈ s.deadlines c ↔ ∃ job ∈ s.jobs, job.state = .reserved c due := by
  refine List.mem_filterMap.trans (exists_congr fun job => and_congr_right fun _ => ?_)
  cases job.state with
  | reserved => simp [eq_comm]
  | _ => simp

/-- A client lists its jobs by deadline. -/
theorem Listed.min?_deadlines (h : s.Listed) (hc : client ∈ s.clients) :
    (s.deadlines client.id).min? = client.nearestDeadline? := by
  have hmem (due : Instant) :
      due ∈ s.deadlines client.id ↔ ∃ slot ∈ client.held, slot.rank = due := by
    rw [mem_deadlines]
    constructor
    · rintro ⟨job, hj, hst⟩
      exact ⟨⟨due, job.id⟩, (h.held client hc _).2 ⟨job, hj, rfl, hst⟩, rfl⟩
    · rintro ⟨slot, hslot, rfl⟩
      obtain ⟨job, hj, -, hst⟩ := (h.held client hc slot).1 hslot
      exact ⟨job, hj, hst⟩
  have hsorted := h.heldOrdered client hc
  unfold Client.nearestDeadline?
  cases hheld : client.held with
  | nil =>
    refine List.min?_eq_none_iff.2 (List.eq_nil_iff_forall_not_mem.2 fun due hdue => ?_)
    obtain ⟨slot, hslot, -⟩ := (hmem due).1 hdue
    rw [hheld] at hslot
    cases hslot
  | cons first rest =>
    rw [hheld] at hsorted hmem
    refine List.min?_eq_some_iff.2 ⟨(hmem _).2 ⟨first, List.mem_cons_self, rfl⟩, fun due hdue => ?_⟩
    obtain ⟨slot, hslot, rfl⟩ := (hmem due).1 hdue
    rcases List.mem_cons.1 hslot with rfl | hslot
    · exact Nat.le_refl _
    · have hbefore := Slot.before_iff.1 (List.rel_of_pairwise_cons hsorted hslot)
      lia

theorem timerFor_eq (now : Instant) (soonest : Option Instant) (timeout : Millis) :
    timerFor now soonest timeout =
      if timeout = 0 then none else some (lastAnswer now soonest timeout) := by
  unfold timerFor lastAnswer
  cases soonest with
  | none => rfl
  | some deadline =>
    have hsoon : deadlineWait now deadline = max 1 (deadline - seconds 1 - now) :=
      congrArg (max 1) ((Nat.sub_add_eq ..).trans (Nat.sub_right_comm ..))
    rw [Option.map_some, hsoon, Option.filter_some]
    by_cases hle : max 1 (deadline - seconds 1 - now) ≤ timeout
    · have hne : timeout ≠ 0 := Nat.ne_of_gt (Nat.le_trans (Nat.le_max_left _ _) hle)
      simp [hle, hne]
    · simp [hle]

theorem lastAnswer_due {now : Instant} {timeout : Millis} (h : 0 < timeout)
    (soonest : Option Instant) :
    now < (lastAnswer now soonest timeout).due ∧
      (lastAnswer now soonest timeout).due ≤ now + timeout := by
  have hlater : now < now + timeout := Nat.lt_add_of_pos_right h
  unfold lastAnswer
  cases soonest with
  | none => exact ⟨hlater, Nat.le_refl _⟩
  | some deadline =>
    dsimp only
    split
    · next hle =>
      have hpos : 0 < max 1 (deadline - seconds 1 - now) := Nat.le_max_left _ _
      exact ⟨Nat.lt_add_of_pos_right hpos, Nat.add_le_add_left hle now⟩
    · exact ⟨hlater, Nat.le_refl _⟩

theorem timer_newRequest (s : Engine) (client : Client) {span : Millis}
    (hw : client.watching ≠ []) (hpos : 0 < span) :
    (s.newRequest client (some span)).timer =
      some (lastAnswer s.now client.nearestDeadline? span) := by
  have hwatching : client.watching.isEmpty = false := by simpa using hw
  have hspan : span ≠ 0 := Nat.ne_of_gt hpos
  simp only [Client.request, hwatching, Option.bind_some, timerFor_eq, if_neg hspan]
  rfl

/-- Only a request with a timeout gets a timer, and never one that is due at once. -/
theorem due_newRequest {timer : Timer} (h : (s.newRequest client timeout).timer = some timer) :
    s.now < timer.due ∧ timeout ≠ some 0 := by
  simp only [Client.request] at h
  split at h
  · cases h
  · obtain ⟨span, rfl, htimer⟩ := Option.bind_eq_some_iff.1 h
    rw [timerFor_eq] at htimer
    split at htimer
    · cases htimer
    · next hne =>
      cases htimer
      exact ⟨(lastAnswer_due (Nat.pos_of_ne_zero hne) _).1, fun he => hne (Option.some.inj he)⟩

/-! ## Timers that are kept -/

/-- The answers to requests with a timer, given by an instant. -/
def AnsweredInTime (first : Nat) (s : Engine) (i : Instant) : Prop :=
  ∀ d ∈ s.deliveries, ∀ q ∈ s.requests, q.id = d.request → ∀ timer, q.timer = some timer →
    d.InTime q first timer i

/-- The timer of an open request is not due yet, and requests that have one are answered in time.
The timers of the `first` requests may have had to wait for other events of their instants. -/
structure Punctual (first : Nat) (s : Engine) : Prop where
  ahead : ∀ q ∈ s.requests, ∀ timer, q.timer = some timer → s.isOpen q = true →
    q.Early first timer s.now
  answers : s.AnsweredInTime first s.now

/-- The clock stands still, no request is made or opened, and open ones are answered with jobs. -/
structure Handed (s t : Engine) : Prop where
  now : t.now = s.now
  requests : t.requests = s.requests
  isOpen : ∀ q, t.isOpen q = true → s.isOpen q = true
  answers : ∃ fresh, t.deliveries = s.deliveries ++ fresh ∧ ∀ d ∈ fresh, ∃ q ∈ s.requests,
    d.request = q.id ∧ s.isOpen q = true ∧ (∃ id, d.outcome = .reserved id) ∧ d.time = s.now

theorem Handed.of_fewer (hf : Fewer s t) (hnow : t.now = s.now)
    (hdel : t.deliveries = s.deliveries) : Handed s t :=
  ⟨hnow, hf.requests, fun _ => hf.isOpen, [], hdel.trans (List.append_nil _).symm,
    List.forall_mem_nil _⟩

theorem Course.handed {who leaving : Option ClientId} (h : Course who leaving s t) :
    Handed s t := by
  refine ⟨h.now, h.requests, h.isOpen, ?_⟩
  obtain ⟨fresh, hd, hfresh⟩ := h.answers
  refine ⟨fresh, hd, fun d hmem => ?_⟩
  obtain ⟨q, job, hg, -⟩ := hfresh d hmem
  have hq : q ∈ s.requests := h.requests ▸ hg.asked
  exact ⟨q, hq, hg.answers, hg.waited hq, ⟨_, hg.outcome⟩, hg.time⟩

theorem Match.handed {name : TubeName} {q : Request} {id : JobId} (m : s.Match name q id)
    (hc : s.Coherent) : Handed s (s.grant q id) := by
  have hf := m.fewer hc
  refine ⟨?_, hf.requests, fun _ => hf.isOpen, _, m.deliveries hc, fun d hmem => ?_⟩
  · rw [m.grant_eq hc.tracked]
    exact (served_frame s q id).1
  · rw [List.mem_singleton.1 hmem]
    exact ⟨q, m.mem, rfl, m.isOpen, ⟨id, rfl⟩, rfl⟩

namespace Punctual

theorem mono (h : Punctual first s) {more : Nat} (hle : first ≤ more) : Punctual more s :=
  ⟨fun q hq timer htimer ho => ⟨(h.ahead q hq timer htimer ho).1, fun hlt =>
    (h.ahead q hq timer htimer ho).2 (Nat.lt_of_le_of_lt hle hlt)⟩,
    fun d hd q hq hid timer htimer => (h.answers d hd q hq hid timer htimer).mono hle⟩

/-- A job that is given to an open request comes before its timer is due. -/
theorem handed (h : Punctual first s) (hs : s.Tracked) (hh : Handed s t) : Punctual first t := by
  refine ⟨fun q hq timer htimer ho => ?_, fun d hd q hq hid timer htimer => ?_⟩
  · rw [hh.now]
    exact h.ahead q (hh.requests ▸ hq) timer htimer (hh.isOpen q ho)
  · rw [hh.requests] at hq
    rw [hh.now]
    obtain ⟨fresh, hdel, hfresh⟩ := hh.answers
    rcases List.mem_append.1 (hdel ▸ hd) with hd | hd
    · exact h.answers d hd q hq hid timer htimer
    · obtain ⟨p, hp, hanswers, ho, hjob, htime⟩ := hfresh d hd
      obtain rfl := hs.request_ext hq hp (hid.trans hanswers)
      exact Or.inl ⟨hjob, htime ▸ h.ahead q hq timer htimer ho⟩

/-- A client that is closed gives up its requests, and the jobs that it gives back are handed on. -/
theorem close (h : Punctual first s) (hs : Sound none none s)
    (hc : s.client? client.id = some client) : Punctual first (s.close client.id) := by
  obtain ⟨u, hu, hcourse, -, heq⟩ := close_course hs hc
  have hdone := h.handed hs.tracked (.of_fewer (fewer_finishAll s client.id) rfl rfl)
  have hgiven := hdone.handed (hs.finishAll client.id).tracked hcourse.handed
  have hshut : Handed u (u.shut client.id) :=
    ⟨rfl, rfl, fun q ho => isOpen_shut u client.id q ▸ ho, [], (List.append_nil _).symm,
      List.forall_mem_nil _⟩
  rw [heq]
  exact hgiven.handed hu.tracked hshut

/-! ### A new request -/

section Asked

variable (h : Punctual first s) (hs : Sound none none s) (hc : s.client? client.id = some client)
  (hopen : client.closed = false)

include h hs hc

/-- The timer of a new request is not due at once. -/
theorem openRequest : Punctual first (s.openRequest (s.newRequest client timeout)) := by
  refine ⟨fun q hq timer htimer ho => ?_, fun d hd q hq hid timer htimer => ?_⟩
  · rcases List.mem_append.1 hq with hq | hq
    · rw [isOpen_openRequest_of_mem hs hc timeout hq] at ho
      exact h.ahead q hq timer htimer ho
    · rw [List.mem_singleton.1 hq] at htimer
      have hlater := (due_newRequest htimer).1
      exact ⟨Nat.le_of_lt hlater, fun _ => hlater⟩
  · rcases List.mem_append.1 hq with hq | hq
    · exact h.answers d hd q hq hid timer htimer
    · have hknown := hs.tracked.known _ (List.mem_map_of_mem hd)
      rw [← hid, List.mem_singleton.1 hq] at hknown
      exact absurd hknown hs.tracked.numbered.next_not_mem

include hopen

theorem asked (ha : Asked s (s.newRequest client timeout) t) : Punctual first t := by
  have hcoh := coherent_openRequest hs hc hopen timeout
  have hmade : Punctual first (s.openRequest (s.newRequest client timeout)) := h.openRequest hs hc
  cases ha with
  | served _ m => exact hmade.handed hcoh.tracked (m.handed hcoh)
  | refused htimeout _ =>
    have hf := fewer_finish (s.openRequest (s.newRequest client timeout))
      (s.newRequest client timeout)
    have hdone := hmade.handed hcoh.tracked (.of_fewer hf rfl rfl)
    refine ⟨hdone.ahead, fun d hd q hq hid timer htimer => ?_⟩
    rcases List.mem_append.1 hd with hd | hd
    · exact hdone.answers d hd q hq hid timer htimer
    · -- a request that is refused has no timer
      have hself : s.newRequest client timeout ∈
          (s.openRequest (s.newRequest client timeout)).requests :=
        List.mem_append_right _ (List.mem_singleton.2 rfl)
      rw [List.mem_singleton.1 hd] at hid
      rw [hcoh.tracked.request_ext hq hself hid] at htimer
      exact absurd htimeout (due_newRequest htimer).2
  | waiting _ _ =>
    rw [waiting_eq hs hc]
    exact hmade.handed hcoh.tracked (.of_fewer (.of_sameDesk (.of_eq rfl rfl)) rfl rfl)

end Asked

end Punctual

/-! ### The clock moves on -/

section Timers

variable {target : Instant} {q : Request}

/-- A timer that goes off gives its answer at the instant at which it is due. -/
theorem AnsweredInTime.fireTimer (h : s.AnsweredInTime first target) (hs : s.Tracked)
    (hq : q ∈ s.requests) : (fireTimer target s q).AnsweredInTime first target := by
  unfold Engine.fireTimer
  split
  · next timer htimer =>
    split
    · next hfires =>
      rw [Bool.and_eq_true, decide_eq_true_eq] at hfires
      intro d hd p hp hid other hother
      rcases List.mem_append.1 hd with hd | hd
      · exact h d hd p hp hid other hother
      · rw [List.mem_singleton.1 hd] at hid ⊢
        rw [hs.request_ext hp hq hid, htimer] at hother
        cases hother
        exact Or.inr ⟨rfl, rfl, hfires.1⟩
    · exact h
  · exact h

theorem not_isOpen_fireTimer {timer : Timer} (htimer : q.timer = some timer)
    (hdue : timer.due ≤ target) : (fireTimer target s q).isOpen q = false := by
  rw [fireTimer, htimer]
  dsimp only
  split
  · exact not_isOpen_finish_self s q
  · next hnot => simpa [hdue] using hnot

theorem foldl_fireTimer_inTime (qs : List Request) (hs : Sound none none s)
    (hqs : ∀ q ∈ qs, q ∈ s.requests) (h : s.AnsweredInTime first target) :
    (qs.foldl (fireTimer target) s).AnsweredInTime first target := by
  induction qs generalizing s with
  | nil => exact h
  | cons q rest ih =>
    have hq := hqs q List.mem_cons_self
    obtain ⟨hsound, htimed⟩ := fireTimer_keeps hs target hq
    exact ih hsound (fun p hp => htimed.fewer.requests ▸ hqs p (List.mem_cons_of_mem q hp))
      (h.fireTimer hs.tracked hq)

/-- After the timers have gone off, no request is open whose timer was due. -/
theorem foldl_not_isOpen (qs : List Request) (hs : Sound none none s)
    (hqs : ∀ q ∈ qs, q ∈ s.requests) {timer : Timer} (hq : q ∈ qs) (htimer : q.timer = some timer)
    (hdue : timer.due ≤ target) : (qs.foldl (fireTimer target) s).isOpen q = false := by
  induction qs generalizing s with
  | nil => cases hq
  | cons p rest ih =>
    obtain ⟨hsound, htimed⟩ := fireTimer_keeps hs target (hqs p List.mem_cons_self)
    have hrest : ∀ r ∈ rest, r ∈ (fireTimer target s p).requests := fun r hr =>
      htimed.fewer.requests ▸ hqs r (List.mem_cons_of_mem p hr)
    rcases List.mem_cons.1 hq with rfl | hq
    · have hfewer := (foldl_fireTimer_keeps target rest hsound hrest).2.fewer
      have hshut := not_isOpen_fireTimer (s := s) htimer hdue
      by_contra hopen
      rw [hfewer.isOpen (by simpa using hopen)] at hshut
      cases hshut
    · exact ih hsound hrest hq

end Timers

/-- Whichever timers go off, the clock may come to any instant at which the others are not due. -/
theorem Punctual.tick (h : Punctual first s) (hs : Sound none none s) {i : Instant}
    (hi : s.now ≤ i) {requests : List Request} (hrequests : requests ⊆ s.requests)
    (hearly : ∀ q ∈ s.requests, ∀ timer, q.timer = some timer →
      (s.tick i requests).isOpen q = true → q.Early first timer i) :
    Punctual first (s.tick i requests) := by
  have hin : s.AnsweredInTime first i := fun d hd q hq hid timer htimer =>
    (h.answers d hd q hq hid timer htimer).later hi
  have hanswers := foldl_fireTimer_inTime requests hs (fun _ hq => hrequests hq) hin
  exact ⟨fun q hq => hearly q ((tick_keeps hs i hrequests).2.fewer.requests ▸ hq), hanswers⟩

/-- The clock does not pass a timer without its answer. -/
theorem Punctual.advance (h : Punctual first s) (hs : Sound none none s) (span : Millis) :
    Punctual first (s.advance span) := by
  refine h.tick hs (Nat.le_add_right _ _) (List.Subset.refl _) fun q hq timer htimer ho => ?_
  have hlater : s.now + span < timer.due := by
    by_contra hdue
    have hshut := foldl_not_isOpen s.requests hs (fun _ => id) hq htimer (Nat.le_of_not_lt hdue)
    have ho : (s.requests.foldl (fireTimer (s.now + span)) s).isOpen q = true := ho
    rw [ho] at hshut
    cases hshut
  exact ⟨Nat.le_of_lt hlater, fun _ => hlater⟩

/-- Every event keeps the requests with a timer answered in time. -/
theorem Passage.punctual {asks : Option (ClientId × Option Millis)} (h : Passage asks s t)
    (hs : Sound none none s) (hp : Punctual first s) : Punctual first t := by
  cases h with
  | stages hst =>
    exact hp.handed hs.tracked (hst.keeps hs (.refl hs.listed.jobs) fun _ _ => nofun).2.handed
  | act hst =>
    exact hp.handed hs.tracked
      (hst.keeps hs (.refl hs.listed.jobs) (fun _ h => h.weaken) fun _ _ => nofun).2.handed
  | @reserve c timeout _ hc =>
    obtain ⟨client, rfl, hclient, hopen⟩ := client?_of_isConnected hc
    obtain ⟨worker, -, hopen, hworker, hasked⟩ := reserve_passage hclient hopen timeout
    have haside : Aside s (Broker.markWorker s client.id) :=
      .adjustClient s client.id fun _ => ⟨rfl, rfl, rfl⟩
    have hmarked := hp.handed hs.tracked (.of_fewer (.of_sameDesk haside.desk) rfl rfl)
    exact hmarked.asked (sound_markWorker hs client.id) hworker hopen hasked
  | advance span => exact hp.advance hs span
  | close hc =>
    obtain ⟨client, rfl, hclient, -⟩ := client?_of_isConnected hc
    exact hp.close hs hclient

/-! ## What comes of a request with a timer -/

/-- A request gets a job before its `last` answer is due, or that one, and has its answer by then if
its client is connected. Without an answer it is in the queues of all its tubes. -/
structure RunsOut (s : Engine) (q : Request) (last : Timer) : Prop where
  made : q ∈ s.requests
  answers : ∀ d ∈ s.deliveries, d.request = q.id → d.Meets last s.now
  answered : last.due ≤ s.now → s.isConnected q.client = true → q.id ∈ s.answered
  queued : s.isConnected q.client = true → q.id ∉ s.answered → q.tubes ≠ [] ∧
    ∀ name ∈ q.tubes, ∃ tube, s.tube? name = some tube ∧ q.id ∈ tube.waiters

theorem Punctual.runsOut (h : Punctual first s) (hs : Sound none none s) {q : Request}
    {last : Timer} (hq : q ∈ s.requests) (hfirst : first < q.id) (htimer : q.timer = some last)
    (htubes : q.tubes ≠ []) : RunsOut s q last := by
  have hopen (hcon : s.isConnected q.client = true) (hun : q.id ∉ s.answered) :
      s.isOpen q = true := hs.attended q hq nofun hcon hun
  refine ⟨hq, fun d hd hid => (h.answers d hd q hq hid.symm last htimer).meets hfirst,
    fun hdue hcon => ?_, fun hcon hun => ⟨htubes, fun name hname => ?_⟩⟩
  · by_contra hun
    exact Nat.not_lt_of_le hdue ((h.ahead q hq last htimer (hopen hcon hun)).2 hfirst)
  · obtain ⟨tube, ht, rfl⟩ := List.mem_map.1 (hs.posted.requests q hq hname)
    refine ⟨tube, (tube?_eq_some_iff hs.listed.tubes).2 ⟨ht, rfl⟩, ?_⟩
    have hturn : q.id ∈ s.turns tube.name :=
      mem_turns_iff.2 ⟨q, hq, hopen hcon hun, hname, rfl⟩
    rw [← hs.queued.turns tube ht] at hturn
    exact List.mem_of_mem_filter hturn

/-- Only requests with a timeout are answered, none of them with a job, and no job changes. -/
structure OnlyAnswers (s t : Engine) : Prop where
  jobs : t.jobs = s.jobs
  tubes : t.tubes = s.tubes
  answers : ∃ fresh, t.deliveries = s.deliveries ++ fresh ∧ ∀ d ∈ fresh, ∃ q ∈ s.requests,
    d.request = q.id ∧ q.timeout ≠ none ∧ ∀ id, d.outcome ≠ .reserved id

theorem onlyAnswers_advance (hs : Sound none none s) (span : Millis) :
    OnlyAnswers s (s.advance span) := by
  obtain ⟨-, hjobs, htubes⟩ := foldl_fireTimer_frame (s.now + span) s.requests s
  obtain ⟨ht, htimed⟩ := advance_keeps hs span
  obtain ⟨fresh, hd, hfresh⟩ := htimed.answers
  refine ⟨hjobs, htubes, fresh, hd, fun d hmem => ?_⟩
  obtain ⟨q, hq, hid, -, hout⟩ := hfresh d hmem
  refine ⟨q, hq, hid, fun hplain => ?_, hout⟩
  have hadm := ht.tracked.admitted d (hd ▸ List.mem_append_right _ hmem) q
    (htimed.fewer.requests ▸ hq) hid.symm
  cases hkind : d.outcome with
  | reserved id => exact hout id hkind
  | _ => simp [hkind, Request.Admits, hplain] at hadm

end Engine

namespace Broker

variable {b : Broker}

theorem Reachable.requests_le (h : Reachable b) (event : Event) :
    b.engine.requests.length ≤ (b.step event).engine.requests.length := by
  obtain ⟨late, hlate, -⟩ := (h.progress event).requests
  rw [hlate, List.length_append]
  exact Nat.le_add_right _ _

/-- In every state, a request with a timer that is answered by then has got a job no later than its
timer was due, or the answer of the timer at the instant it was due, and the clock is not past the
timers of those that are open. -/
theorem Reachable.punctual (h : Reachable b) :
    Engine.Punctual b.engine.requests.length b.engine := by
  induction h with
  | start config => exact ⟨List.forall_mem_nil _, List.forall_mem_nil _⟩
  | step event h ih =>
    exact ((step_passage _ event).punctual h.sound ih).mono (h.requests_le event)
  | @tick b i requests hi hdue hrequests h ih =>
    have hfewer := (Engine.tick_keeps h.sound i hrequests).2.fewer
    have hsame : (b.tick i requests).engine.requests.length = b.engine.requests.length :=
      congrArg _ hfewer.requests
    rw [hsame]
    refine ih.tick h.sound hi hrequests fun q hq timer htimer ho => ?_
    exact ⟨hdue q hq timer htimer (hfewer.isOpen ho), fun hlt =>
      absurd (h.sound.tracked.numbered.key_le hq) (Nat.not_le_of_lt hlt)⟩

/-- One client waits for a second at most, and another comes to put a job. -/
def oneWaits : Broker :=
  (start {}).after [.connect, .connect, .command 1 (.reserveWithTimeout 1) none]

/-- At the instant of the timer, the job may come first or the timer. -/
example : oneWaits.NoneDueBefore 1000 ∧
    ((oneWaits.tick 1000 []).step (.command 2 (.put 0 0 60 1) (some [120]))).engine.deliveries =
      [⟨1, .reserved 1, 1000⟩] ∧
    ((oneWaits.tick 1000 oneWaits.engine.requests).step
      (.command 2 (.put 0 0 60 1) (some [120]))).engine.deliveries = [⟨1, .timedOut, 1000⟩] :=
  ⟨by decide, by decide, by decide⟩

/-- In a run, whatever is asked for after the `first` requests stays punctual to the instant. -/
theorem Reachable.punctual_after (h : Reachable b) {first : Nat}
    (hp : Engine.Punctual first b.engine) (events : List Event) :
    Engine.Punctual first (b.after events).engine := by
  induction events generalizing b with
  | nil => exact hp
  | cons event rest ih =>
    exact ih (h.step event) ((step_passage b event).punctual h.sound hp)

/-- The timer of a request with a timeout is set to its last answer. -/
theorem Reachable.timer_of_request (h : Reachable b) (event : Event) {c : ClientId}
    {timeout : Millis} (hasks : event.reservation? = some (c, some timeout))
    (hc : b.isConnected c = true) (hpos : 0 < timeout) :
    ∃ q ∈ (b.step event).engine.requests, q.id = b.engine.nextRequest ∧ q.client = c ∧
      q.timeout = some timeout ∧ q.tubes ≠ [] ∧
      q.timer = some (Engine.lastAnswer b.engine.now (b.engine.deadlines c).min? timeout) := by
  obtain ⟨client, rfl, hclient, hopen⟩ := Engine.client?_of_isConnected hc
  obtain ⟨hmem, -⟩ := (Engine.client?_eq_some_iff h.sound.listed.clients).1 hclient
  have hwatching := h.tended.watches client hmem hopen
  have hsoonest := h.sound.listed.min?_deadlines hmem
  have hmarked := Engine.sound_markWorker h.sound client.id
  have hworker := Engine.client?_markWorker hclient
  have hasked := @Engine.reserve_asked _ { client with worker := true } hworker hopen (some timeout)
  have hfewer :=
    @Engine.Asked.fewer _ _ { client with worker := true } _ hmarked hworker hopen hasked
  rw [step_reservation hasks hc, hfewer.requests]
  refine ⟨_, List.mem_append_right _ (List.mem_singleton.2 rfl), rfl, rfl, rfl, hwatching, ?_⟩
  rw [hsoonest]
  exact Engine.timer_newRequest _ { client with worker := true } hwatching hpos

/-- A request with a timeout that a client makes now runs out at its last answer, by its timeout at
the latest, whatever happens afterwards. -/
def KeepsTime (b : Broker) (c : ClientId) (wait : UInt32) : Prop :=
  ∀ body, ∃ q last, q.id = b.engine.nextRequest ∧ q.client = c ∧
    q.timeout = some (seconds wait.toNat) ∧
    last = Engine.lastAnswer b.engine.now (b.engine.deadlines c).min? (seconds wait.toNat) ∧
    last.due ≤ b.engine.now + seconds wait.toNat ∧
    ∀ events, Engine.RunsOut
      ((b.step (.command c (.reserveWithTimeout wait) body)).after events).engine q last

/-- Requests with a timeout keep time in every state that comes up, and the clock answers no others
and changes no job. -/
theorem Reachable.reservation_timers (h : Reachable b) :
    (∀ c wait, b.isConnected c = true → 0 < wait → b.KeepsTime c wait) ∧
      ∀ span, Engine.OnlyAnswers b.engine (b.advance span).engine := by
  refine ⟨fun c wait hc hwait body => ?_, Engine.onlyAnswers_advance h.sound⟩
  have hpos : 0 < seconds wait.toNat := Nat.mul_pos (by decide) (UInt32.lt_iff_toNat_lt.1 hwait)
  obtain ⟨q, hq, hid, hclient, htimeout, htubes, htimer⟩ :=
    h.timer_of_request (.command c (.reserveWithTimeout wait) body) rfl hc hpos
  refine ⟨q, _, hid, hclient, htimeout, rfl, (Engine.lastAnswer_due hpos _).2, fun events => ?_⟩
  have hmade := h.step (.command c (.reserveWithTimeout wait) body)
  have hpunctual :=
    h.punctual_after h.punctual (.command c (.reserveWithTimeout wait) body :: events)
  exact hpunctual.runsOut (hmade.after events).sound ((hmade.requests_grow events).subset hq)
    (hid ▸ Nat.lt_succ_self _) htimer htubes

/-- One client holds a job until two seconds are over, and another holds none. -/
def twoAskers : List Event :=
  [.connect, .connect, .command 1 (.put 0 0 2 1) (some [120]), .command 1 .reserve none,
    .advance 300]

/-- Both ask for five seconds. -/
theorem reservation_timers_twoAskers :
    ((start {}).after twoAskers).KeepsTime 1 5 ∧ ((start {}).after twoAskers).KeepsTime 2 5 ∧
    Engine.OnlyAnswers ((start {}).after twoAskers).engine
      (((start {}).after twoAskers).advance 700).engine ∧
    (((start {}).after twoAskers).after [.command 1 (.reserveWithTimeout 5) none,
      .command 2 (.reserveWithTimeout 5) none, .advance 699, .advance 1, .advance 9000]
      ).engine.deliveries =
        [⟨1, .reserved 1, 0⟩, ⟨2, .deadlineSoon, 1000⟩, ⟨3, .timedOut, 5300⟩] :=
  have h := Reachable.reservation_timers ((Reachable.start {}).after twoAskers)
  ⟨h.1 1 5 (by decide) (by decide), h.1 2 5 (by decide) (by decide), h.2 700, by decide⟩

end Broker

end WorkQueue

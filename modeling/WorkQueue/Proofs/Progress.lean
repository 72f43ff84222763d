import WorkQueue.Proofs.Asking
import WorkQueue.Proofs.Closing
import WorkQueue.Proofs.Passage

/-!
# What an event does to the requests

`Engine.Progress` sums up what a passage does to the requests and their answers : at most one
request is made, none is opened again, and every new answer is to a request that was open or is new.
An answer with a job grants the job (`Engine.Granted`) and is given in turn, unless the request is
new and the pause of the tube has run out but is still on record (`Engine.Lapsed`). Every kind of
passage makes progress : a row of stages (`Course.progress`), the closing of a client
(`progress_close`), the advance of the clock (`Timed.progress`) and a reservation
(`Asked.progress`).
-/

namespace WorkQueue

namespace Engine

variable {s t u : Engine}

/-- A tube has a pause on record that has run out. -/
def Lapsed (s : Engine) (name : TubeName) : Prop :=
  ∃ tube, s.tube? name = some tube ∧ tube.pauseIsOver s.now = true

/-- Every earlier request that watches the tube of the job and has its client connected still was
answered earlier. -/
def Orderly (t : Engine) (q : Request) (job : Job) : Prop :=
  ∀ p ∈ t.requests, job.tube ∈ p.tubes → p.id < q.id → t.isConnected p.client = true →
    [p.id, q.id].Sublist t.answered

/-- An answer that is given between two states. -/
structure Answer (s t : Engine) (d : Delivery) (q : Request) : Prop where
  asked : q ∈ t.requests
  answers : d.request = q.id
  waited : q ∈ s.requests → s.isOpen q = true
  connected : s.isConnected q.client = true
  granted : ∀ id, d.outcome = .reserved id → ∃ job, job.id = id ∧ Granted s t d q job ∧
    (Orderly t q job ∨ q ∉ s.requests ∧ Lapsed s job.tube)

/-- A request that is made between two states. -/
structure Made (s t : Engine) (q : Request) : Prop where
  connected : s.isConnected q.client = true
  tubes : (s.client? q.client).map (·.watching) = some q.tubes
  atOnce : q.timeout = some 0 → q.id ∈ t.answered

/-- What may happen to the requests between two states. No client is forgotten, and one that is
closed stays so. -/
structure Progress (s t : Engine) : Prop where
  clients : ∀ c, (s.client? c).isSome = true → (t.client? c).isSome = true ∧
    (t.isConnected c = true → s.isConnected c = true)
  requests : ∃ late, t.requests = s.requests ++ late ∧ ∀ q ∈ late, Made s t q
  isOpen : ∀ q ∈ s.requests, t.isOpen q = true → s.isOpen q = true
  answers : ∃ fresh, t.deliveries = s.deliveries ++ fresh ∧ ∀ d ∈ fresh, ∃ q, Answer s t d q

theorem SameClients.clients (h : SameClients s t) : ∀ c, (s.client? c).isSome = true →
    (t.client? c).isSome = true ∧ (t.isConnected c = true → s.isConnected c = true) :=
  fun c hc => ⟨(h c hc).1, fun ht => (h c hc).2 ▸ ht⟩

/-! ## Stages -/

/-- For an engine that goes on where it was sound, what is granted is an answer. -/
theorem Granted.answer {d : Delivery} {q : Request} {job : Job} (h : Granted s t d q job)
    (hs : s.Tracked) (hr : t.requests = s.requests) (ho : Orderly t q job) : Answer s t d q where
  asked := h.asked
  answers := h.answers
  waited := h.waited
  connected := hs.isConnected_of_isOpen (h.waited (hr ▸ h.asked))
  granted := fun id hid => by
    have hjob : job.id = id := by
      rw [h.outcome] at hid
      exact Outcome.reserved.inj hid
    exact ⟨job, hjob, h, Or.inl ho⟩

theorem Course.progress (h : Course none none s t) (hs : s.Tracked) : Progress s t := by
  refine ⟨h.clients.clients, ⟨[], by simp [h.requests], nofun⟩, fun q _ => h.isOpen q, ?_⟩
  obtain ⟨fresh, hd, hfresh⟩ := h.answers
  refine ⟨fresh, hd, fun d hmem => ?_⟩
  obtain ⟨q, job, hg, hturn, -⟩ := hfresh d hmem
  refine ⟨q, hg.answer hs h.requests fun p hp htube hlt hcon => ?_⟩
  obtain ⟨client, hclient, -⟩ := hs.asked p (h.requests ▸ hp)
  exact hturn p hp htube hlt ((h.clients.clients _ (Option.isSome_of_eq_some hclient)).2 hcon) nofun

/-! ## Closing -/

theorem progress_close {client : Client} (hs : Sound none none s)
    (hc : s.client? client.id = some client) : Progress s (s.close client.id) := by
  obtain ⟨u, -, hcourse, -, heq⟩ := close_course hs hc
  have hf := fewer_finishAll s client.id
  have hreq : (u.shut client.id).requests = s.requests := hcourse.requests
  have hclients := (hf.sameClients.trans hcourse.clients).clients
  rw [heq]
  refine ⟨fun c hknown => ?_, ⟨[], by simp [hreq], nofun⟩, fun q _ ho => ?_, ?_⟩
  · rw [client?_shut, Option.isSome_map, isConnected_shut]
    refine ⟨(hclients c hknown).1, fun hcon => (hclients c hknown).2 ?_⟩
    exact (Bool.and_eq_true_iff.1 hcon).1
  · exact hf.isOpen (hcourse.isOpen q (isOpen_shut u client.id q ▸ ho))
  obtain ⟨fresh, hd, hfresh⟩ := hcourse.answers
  refine ⟨fresh, hd, fun d hmem => ?_⟩
  obtain ⟨q, job, hg, hturn, -⟩ := hfresh d hmem
  have hgranted : Granted s (u.shut client.id) d q job :=
    { hg with waited := fun hq => hf.isOpen (hg.waited hq) }
  refine ⟨q, hgranted.answer hs.tracked hreq fun p hp htube hlt hcon => ?_⟩
  rw [isConnected_shut, Bool.and_eq_true, decide_eq_true_eq] at hcon
  have hp : p ∈ u.requests := hp
  obtain ⟨client', hclient, -⟩ := hs.tracked.asked p (hreq ▸ hp)
  refine hturn p hp htube hlt ?_ fun he => hcon.2 (Option.some.inj he)
  rw [hf.isConnected]
  exact (hclients _ (Option.isSome_of_eq_some hclient)).2 hcon.1

/-- The client that is closed gets none of the answers. -/
theorem answers_close {client : Client} (hs : Sound none none s)
    (hc : s.client? client.id = some client) : ∃ fresh,
      (s.close client.id).deliveries = s.deliveries ++ fresh ∧
        ∀ d ∈ fresh, ∃ q ∈ (s.close client.id).requests,
          d.request = q.id ∧ q.client ≠ client.id := by
  obtain ⟨u, -, hcourse, -, heq⟩ := close_course hs hc
  obtain ⟨fresh, hd, hfresh⟩ := hcourse.answers
  rw [heq]
  refine ⟨fresh, hd, fun d hmem => ?_⟩
  obtain ⟨q, job, hg, -, hne⟩ := hfresh d hmem
  exact ⟨q, hg.asked, hg.answers, fun hid => hne (congrArg some hid)⟩

/-! ## Timers -/

/-- What timers do : they answer open requests, without a job. -/
structure Timed (s t : Engine) : Prop where
  fewer : Fewer s t
  answers : ∃ fresh, t.deliveries = s.deliveries ++ fresh ∧ ∀ d ∈ fresh, ∃ q ∈ s.requests,
    d.request = q.id ∧ s.isOpen q = true ∧ ∀ id, d.outcome ≠ .reserved id

theorem Timed.refl (s : Engine) : Timed s s :=
  ⟨.refl s, [], by simp, nofun⟩

theorem Timed.trans (h₁ : Timed s t) (h₂ : Timed t u) : Timed s u := by
  obtain ⟨fresh₁, hd₁, hfresh₁⟩ := h₁.answers
  obtain ⟨fresh₂, hd₂, hfresh₂⟩ := h₂.answers
  refine ⟨h₁.fewer.trans h₂.fewer, fresh₁ ++ fresh₂, by rw [hd₂, hd₁, List.append_assoc],
    fun d hd => ?_⟩
  rcases List.mem_append.1 hd with hd | hd
  · exact hfresh₁ d hd
  · obtain ⟨q, hq, hid, ho, hout⟩ := hfresh₂ d hd
    exact ⟨q, h₁.fewer.requests ▸ hq, hid, h₁.fewer.isOpen ho, hout⟩

theorem fireTimer_keeps (hs : Sound none none s) (target : Instant) {q : Request}
    (hq : q ∈ s.requests) :
    Sound none none (fireTimer target s q) ∧ Timed s (fireTimer target s q) := by
  unfold fireTimer
  split
  · next timer htimer =>
    split
    · next hdue =>
      rw [Bool.and_eq_true] at hdue
      obtain ⟨hadm, hout⟩ := hs.tracked.timers q hq timer htimer
      refine ⟨hs.answer hq hdue.2 hadm timer.due, fewer_answer s q _ _,
        [⟨q.id, timer.outcome, timer.due⟩], rfl, fun d hd => ?_⟩
      rw [List.mem_singleton.1 hd]
      exact ⟨q, hq, rfl, hdue.2, hout⟩
    · exact ⟨hs, .refl s⟩
  · exact ⟨hs, .refl s⟩

theorem foldl_fireTimer_keeps (target : Instant) (qs : List Request) (hs : Sound none none s)
    (hqs : ∀ q ∈ qs, q ∈ s.requests) :
    Sound none none (qs.foldl (fireTimer target) s) ∧ Timed s (qs.foldl (fireTimer target) s) := by
  induction qs generalizing s with
  | nil => exact ⟨hs, .refl s⟩
  | cons q rest ih =>
    obtain ⟨hsound, htimed⟩ := fireTimer_keeps hs target (hqs q List.mem_cons_self)
    have hrest : ∀ p ∈ rest, p ∈ (fireTimer target s q).requests := fun p hp =>
      htimed.fewer.requests ▸ hqs p (List.mem_cons_of_mem q hp)
    exact (ih hsound hrest).imp_right htimed.trans

theorem tick_keeps (hs : Sound none none s) (i : Instant) {requests : List Request}
    (hrequests : requests ⊆ s.requests) :
    Sound none none (s.tick i requests) ∧ Timed s (s.tick i requests) := by
  obtain ⟨hsound, htimed⟩ := foldl_fireTimer_keeps i requests hs fun _ hq => hrequests hq
  exact ⟨hsound.of_eq rfl rfl rfl rfl rfl,
    htimed.fewer.trans (.of_sameDesk (.of_eq rfl rfl)), htimed.answers⟩

theorem advance_keeps (hs : Sound none none s) (span : Millis) :
    Sound none none (s.advance span) ∧ Timed s (s.advance span) :=
  tick_keeps hs _ (List.Subset.refl _)

theorem Timed.progress (h : Timed s t) (hs : s.Tracked) : Progress s t := by
  refine ⟨h.fewer.sameClients.clients, ⟨[], by simp [h.fewer.requests], nofun⟩,
    fun q _ => h.fewer.isOpen, ?_⟩
  obtain ⟨fresh, hd, hfresh⟩ := h.answers
  refine ⟨fresh, hd, fun d hmem => ?_⟩
  obtain ⟨q, hq, hid, ho, hout⟩ := hfresh d hmem
  exact ⟨q, h.fewer.requests ▸ hq, hid, fun _ => ho, hs.isConnected_of_isOpen ho,
    fun id hres => absurd hres (hout id)⟩

/-! ## Asking -/

/-- Nobody waits at a tube that hands out a job and has no pause on record that has run out. -/
theorem not_isOpen_of_next? (hs : Sound none none s) {name : TubeName} {id : JobId}
    (hnext : s.next? name = some id) (hlapsed : ¬Lapsed s name) {p : Request}
    (hp : p ∈ s.requests) (hw : name ∈ p.tubes) : s.isOpen p = false := by
  obtain ⟨tube, ht, hpaused, slot, hhead, -⟩ := next?_eq_some_iff.1 hnext
  obtain ⟨hmem, rfl⟩ := (tube?_eq_some_iff hs.listed.tubes).1 ht
  have hpause : tube.pausedUntil = none := by
    cases hu : tube.pausedUntil with
    | none => rfl
    | some until' =>
      refine absurd ⟨tube, ht, ?_⟩ hlapsed
      simpa [Tube.isPaused, Tube.pauseIsOver, hu] using hpaused
  by_contra ho
  have hturn : p.id ∈ s.turns tube.name :=
    mem_turns_iff.2 ⟨p, hp, by simpa using ho, hw, rfl⟩
  rw [← hs.queued.turns tube hmem] at hturn
  obtain ⟨hwait, hpending⟩ := List.mem_filter.1 hturn
  rcases hs.awake tube hmem (Option.some_ne_none _) hpause with hnil | hidle
  · simp [hnil] at hhead
  · rw [hidle p.id hwait] at hpending
    cases hpending

theorem newRequest_not_mem (hs : Sound none none s) {client : Client} {timeout : Option Millis} :
    s.newRequest client timeout ∉ s.requests := fun hmem =>
  hs.tracked.numbered.next_not_mem (List.mem_map_of_mem (f := Keyed.key) hmem)

section Asked

variable {client : Client} {timeout : Option Millis} (hs : Sound none none s)
  (hc : s.client? client.id = some client) (hopen : client.closed = false)

include hc hopen

theorem made_newRequest (hatOnce : timeout = some 0 → s.nextRequest ∈ t.answered) :
    Made s t (s.newRequest client timeout) where
  connected := by simp [isConnected, Client.request, hc, hopen]
  tubes := by simp [Client.request, hc]
  atOnce := hatOnce

include hs

theorem granted_newRequest {job : Job} (hj : s.job? job.id = some job)
    (hw : job.tube ∈ client.watching)
    (m : (s.openRequest (s.newRequest client timeout)).Match job.tube (s.newRequest client timeout)
      job.id) :
    Granted s ((s.openRequest (s.newRequest client timeout)).grant (s.newRequest client timeout)
      job.id) ⟨s.nextRequest, .reserved job.id, s.now⟩ (s.newRequest client timeout)
      (job.makeReserved s.now client.id) := by
  have hmem := ((job?_eq_some_iff hs.listed.jobs).1 hj).1
  exact m.granted (coherent_openRequest hs hc hopen timeout) hj hw rfl
    (reserves_eq hs.listed.jobs hmem).symm fun hq => absurd hq (newRequest_not_mem hs)

/-- A new request takes its job before the others only at a tube with a pause that has run out. -/
theorem orderly_or_lapsed {name : TubeName} {id : JobId} {job : Job}
    (m : (s.openRequest (s.newRequest client timeout)).Match name (s.newRequest client timeout) id)
    (htube : job.tube = name) :
    Orderly ((s.openRequest (s.newRequest client timeout)).grant (s.newRequest client timeout) id)
        (s.newRequest client timeout) job ∨
      s.newRequest client timeout ∉ s.requests ∧ Lapsed s job.tube := by
  have hcoh := coherent_openRequest hs hc hopen timeout
  subst htube
  by_cases hlapsed : Lapsed s job.tube
  · exact Or.inr ⟨newRequest_not_mem hs, hlapsed⟩
  refine Or.inl fun p hp htube hlt hcon => ?_
  have hf := m.fewer hcoh
  rw [hf.requests] at hp
  rcases List.mem_append.1 hp with hp | hp
  · rw [hf.isConnected, isConnected_openRequest] at hcon
    have hclosed := not_isOpen_of_next? hs m.next hlapsed hp htube
    have hanswered : p.id ∈ s.answered := by
      by_contra hun
      rw [hs.attended p hp nofun hcon hun] at hclosed
      cases hclosed
    exact (m.before_iff hcoh).2 hanswered
  · rw [List.mem_singleton.1 hp] at hlt
    exact absurd hlt (Nat.lt_irrefl _)

/-- A new request is progress, if it is answered at once when it does not wait. -/
theorem progress_newRequest (hf : Fewer (s.openRequest (s.newRequest client timeout)) t)
    (hatOnce : timeout = some 0 → s.nextRequest ∈ t.answered)
    (hanswers : ∃ fresh, t.deliveries = s.deliveries ++ fresh ∧ ∀ d ∈ fresh, ∃ q, Answer s t d q) :
    Progress s t := by
  have hclients : SameClients s (s.openRequest (s.newRequest client timeout)) := fun c hknown =>
    ⟨by rw [client?_openRequest, Option.isSome_map, hknown], isConnected_openRequest _ _ _⟩
  refine ⟨(hclients.trans hf.sameClients).clients,
    ⟨[s.newRequest client timeout], hf.requests, fun q hq => ?_⟩, fun p hp ho => ?_, hanswers⟩
  · rw [List.mem_singleton.1 hq]
    exact made_newRequest hc hopen hatOnce
  · rw [← isOpen_openRequest_of_mem hs hc timeout hp]
    exact hf.isOpen ho

theorem Asked.progress (h : Asked s (s.newRequest client timeout) t) : Progress s t := by
  have hcoh := coherent_openRequest hs hc hopen timeout
  have hf := h.fewer hs hc hopen
  have hcon : s.isConnected client.id = true := by simp [isConnected, hc, hopen]
  cases h with
  | @served name id hfirst m =>
    obtain ⟨job, hj, rfl, rfl, -⟩ := hcoh.listed.ready_of_next? m.next
    have hg := granted_newRequest hs hc hopen hj (List.mem_of_find?_eq_some hfirst) m
    refine progress_newRequest hs hc hopen hf (fun _ => ?_)
      ⟨_, m.deliveries hcoh, fun d hmem => ?_⟩
    · rw [m.answered hcoh]
      exact List.mem_append_right _ (List.mem_singleton.2 rfl)
    · rw [List.mem_singleton.1 hmem]
      refine ⟨_, hg.asked, rfl, hg.waited, hcon, fun id hid => ?_⟩
      exact ⟨job.makeReserved s.now client.id, Outcome.reserved.inj hid, hg,
        orderly_or_lapsed hs hc hopen m rfl⟩
  | refused htimeout _ =>
    refine progress_newRequest hs hc hopen hf (fun _ => ?_)
      ⟨[⟨s.nextRequest, .notFound, s.now⟩], rfl, fun d hmem => ?_⟩
    · simp [answered, deliver, finish, openRequest, adjustClient, Client.request]
    · rw [List.mem_singleton.1 hmem]
      have hself : s.newRequest client timeout ∈
          (s.openRequest (s.newRequest client timeout)).requests :=
        List.mem_append_right _ (List.mem_singleton.2 rfl)
      exact ⟨_, hself, rfl, fun hq => absurd hq (newRequest_not_mem hs), hcon, by simp⟩
  | waiting htimeout hnone =>
    rw [waiting_eq hs hc] at hf ⊢
    exact progress_newRequest hs hc hopen hf (fun he => absurd he htimeout)
      ⟨[], (List.append_nil _).symm, List.forall_mem_nil _⟩

end Asked

end Engine

end WorkQueue

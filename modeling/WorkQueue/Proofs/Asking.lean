import WorkQueue.Proofs.Sound

/-!
# Asking for a job

A new request is served from the first tube that has a job, or refused if it does not wait, or it
waits at every tube (`Engine.Asked`, `reserve_asked`). In all three cases the engine is sound again
(`Asked.sound`) : either the request is closed, which is quiet, or it is last in every queue and no
tube of its has anything to hand out.
-/

namespace WorkQueue

namespace Engine

variable {s t : Engine} {q : Request} {client : Client} {timeout : Option Millis}

/-- The next request that a client makes. -/
abbrev newRequest (s : Engine) (client : Client) (timeout : Option Millis) : Request :=
  client.request s.nextRequest s.now timeout

/-- What becomes of a new request. -/
inductive Asked (s : Engine) (q : Request) : Engine → Prop
  | served {name : TubeName} {id : JobId}
    (hfirst : q.tubes.find? (fun name => (s.next? name).isSome) = some name)
    (m : (s.openRequest q).Match name q id) : Asked s q ((s.openRequest q).grant q id)
  | refused (htimeout : q.timeout = some 0) (hnone : ∀ name ∈ q.tubes, s.next? name = none) :
    Asked s q (((s.openRequest q).finish q).deliver q.id .notFound s.now)
  | waiting (htimeout : q.timeout ≠ some 0) (hnone : ∀ name ∈ q.tubes, s.next? name = none) :
    Asked s q (q.tubes.foldl (fun s name => s.enqueueWaiter q.id name) (s.openRequest q))

theorem reserve_asked (hc : s.client? client.id = some client) (hopen : client.closed = false)
    (timeout : Option Millis) :
    Asked s (s.newRequest client timeout) (s.reserve client.id timeout) := by
  set q := s.newRequest client timeout with hq
  have hcon : (s.openRequest q).isConnected q.client = true := by
    have hclient : q.client = client.id := rfl
    rw [isConnected_openRequest, isConnected, hclient, hc]
    simp [hopen]
  simp only [reserve, hc, ← hq]
  split
  · next t hsome =>
    obtain ⟨before, name, rest, htubes, htake, hbefore⟩ := List.findSome?_eq_some_iff.1 hsome
    obtain ⟨id, hnext, rfl⟩ := Option.map_eq_some_iff.1 htake
    rw [if_pos hcon]
    refine .served ?_ ⟨?_, isOpen_openRequest_self hc _, hnext⟩
    · have hnext : s.next? name = some id := hnext
      refine List.find?_eq_some_iff_append.2 ⟨by simp [hnext], before, rest, htubes, fun x hx => ?_⟩
      have hnone : s.next? x = none := Option.map_eq_none_iff.1 (hbefore x hx)
      simp [hnone]
    · exact List.mem_append_right _ (List.mem_singleton.2 rfl)
  · next hnone =>
    have hnext : ∀ name ∈ q.tubes, s.next? name = none := fun name hname =>
      Option.map_eq_none_iff.1 (List.findSome?_eq_none_iff.1 hnone name hname)
    split
    · next htimeout => exact .refused htimeout hnext
    · next htimeout => exact .waiting htimeout hnext

/-! ## The request itself -/

section Opened

variable (hs : Sound none none s) (hc : s.client? client.id = some client)
  (hopen : client.closed = false)

include hs hc

/-- Older requests stay as they are. -/
theorem isOpen_openRequest_of_mem (timeout : Option Millis) {p : Request} (hp : p ∈ s.requests) :
    (s.openRequest (s.newRequest client timeout)).isOpen p = s.isOpen p :=
  isOpen_openRequest_of_task hc _ (hs.tracked.task_le hc hp)

theorem posted_openRequest (timeout : Option Millis) :
    (s.openRequest (s.newRequest client timeout)).Posted := by
  have hmem := ((client?_eq_some_iff hs.listed.clients).1 hc).1
  have hclients := hs.posted.adjustClient client.id
    (f := fun client => { client with tasks := client.tasks.start.2 }) fun _ => ⟨rfl, rfl⟩
  refine ⟨hclients.default, hclients.used, hclients.watching, hclients.distinct, fun p hp => ?_⟩
  rcases List.mem_append.1 hp with hp | hp
  · exact hs.posted.requests p hp
  · rw [List.mem_singleton.1 hp]
    exact hs.posted.watching client hmem

include hopen

theorem coherent_openRequest (timeout : Option Millis) :
    (s.openRequest (s.newRequest client timeout)).Coherent := by
  have hl : (s.adjustClient client.id fun client =>
      { client with tasks := client.tasks.start.2 }).Listed :=
    hs.listed.adjustClient client.id (fun _ => ⟨rfl, rfl⟩) fun _ _ _ _ _ => rfl
  exact ⟨hl.of_eq rfl rfl rfl, hs.tracked.openRequest hc hopen timeout⟩

end Opened

/-! ## Answered at once -/

/-- A request that is answered in its own step leaves the queues as they were. -/
theorem quiet_openRequest (hs : Sound none none s) (hc : s.client? client.id = some client)
    (hf : Fewer (s.openRequest (s.newRequest client timeout)) t)
    (htubes : ∀ b ∈ t.tubes, ∃ a ∈ s.tubes, Tube.Calm none a b)
    (hclosed : t.isOpen (s.newRequest client timeout) = false) : Quiet none s t where
  requests := ⟨[s.newRequest client timeout], hf.requests, fun p hp => by
    rwa [List.mem_singleton.1 hp]⟩
  isOpen := fun p hp ho => by
    rw [← isOpen_openRequest_of_mem hs hc timeout hp]
    exact hf.isOpen ho
  tubes := htubes

/-! ## Waiting -/

/-- A request joins the queues of some tubes. Those who have their answer leave them. -/
def joinQueues (s : Engine) (r : RequestId) (names : List TubeName) : Engine :=
  { s with tubes := s.tubes.map fun tube =>
      if tube.name ∈ names then { tube with waiters := tube.waiters.filter s.isPending ++ [r] }
      else tube }

theorem foldl_enqueueWaiter_eq (r : RequestId) (names : List TubeName) (hnames : names.Nodup)
    (s : Engine) : names.foldl (fun s name => s.enqueueWaiter r name) s = s.joinQueues r names := by
  induction names generalizing s with
  | nil => simp [joinQueues]
  | cons name rest ih =>
    obtain ⟨hnot, hrest⟩ := List.nodup_cons.1 hnames
    have hpending : (s.enqueueWaiter r name).isPending = s.isPending := rfl
    rw [List.foldl_cons, ih hrest, joinQueues, joinQueues, hpending]
    simp only [enqueueWaiter, adjustTube, Table.adjust, List.map_map]
    refine congrArg (fun tubes => { s with tubes := tubes }) (List.map_congr_left fun tube _ => ?_)
    by_cases hname : tube.name = name
    · simp [Keyed.key, hname, hnot]
    · simp [Keyed.key, hname]

/-- What is listed stays so when the tubes get longer queues. -/
theorem listed_foldl_enqueueWaiter (r : RequestId) (names : List TubeName) (h : s.Listed) :
    (names.foldl (fun s name => s.enqueueWaiter r name) s).Listed := by
  induction names generalizing s with
  | nil => exact h
  | cons name rest ih => exact ih (h.adjustTube name fun _ => ⟨rfl, rfl, rfl, rfl, rfl⟩)

theorem keys_joinQueues (s : Engine) (r : RequestId) (names : List TubeName) :
    (s.joinQueues r names).tubes.keys = s.tubes.keys := by
  refine Table.keys_map s.tubes _ fun tube => ?_
  split <;> rfl

section Waiting

variable (hs : Sound none none s) (hc : s.client? client.id = some client)

include hs hc

/-- A new request that waits joins the queues of all tubes that its client watches. -/
theorem waiting_eq (timeout : Option Millis) :
    (s.newRequest client timeout).tubes.foldl
        (fun t name => t.enqueueWaiter (s.newRequest client timeout).id name)
        (s.openRequest (s.newRequest client timeout)) =
      (s.openRequest (s.newRequest client timeout)).joinQueues s.nextRequest client.watching :=
  foldl_enqueueWaiter_eq s.nextRequest client.watching
    (hs.posted.distinct client ((client?_eq_some_iff hs.listed.clients).1 hc).1) _

/-- To the requests that a queue knows, a new one makes no difference. -/
theorem isPending_openRequest (timeout : Option Millis) {tube : Tube} (hb : tube ∈ s.tubes)
    {r : RequestId} (hr : r ∈ tube.waiters) :
    (s.openRequest (s.newRequest client timeout)).isPending r = s.isPending r := by
  obtain ⟨p, hp, rfl⟩ := List.mem_map.1 (hs.queued.known tube hb r hr)
  have hnumbered : (s.openRequest (s.newRequest client timeout)).requests.Numbered :=
    hs.tracked.numbered.append rfl
  have hpu : p ∈ (s.openRequest (s.newRequest client timeout)).requests :=
    List.mem_append_left _ hp
  show (request? _ p.id).any _ = _
  rw [(request?_eq_some_iff hnumbered).2 ⟨hpu, rfl⟩, Option.any_some,
    isOpen_openRequest_of_mem hs hc timeout hp]
  exact (hs.tracked.isPending_id hp).symm

theorem turns_openRequest (timeout : Option Millis) (name : TubeName) :
    (s.openRequest (s.newRequest client timeout)).turns name =
      s.turns name ++ if name ∈ client.watching then [s.nextRequest] else [] := by
  have hself : (s.openRequest (s.newRequest client timeout)).isOpen (s.newRequest client timeout) =
      true := isOpen_openRequest_self hc _
  have hold : s.requests.filter (fun p =>
      (s.openRequest (s.newRequest client timeout)).isOpen p &&
        decide (name ∈ p.tubes)) =
      s.requests.filter fun p => s.isOpen p && decide (name ∈ p.tubes) :=
    List.filter_congr fun p hp => by rw [isOpen_openRequest_of_mem hs hc timeout hp]
  have hrequests : (s.openRequest (s.newRequest client timeout)).requests =
      s.requests ++ [s.newRequest client timeout] := rfl
  rw [turns, turns, hrequests, List.filter_append, hold, List.map_append, List.filter_singleton,
    hself]
  congr 1
  by_cases hname : name ∈ client.watching <;> simp [Client.request, hname]

/-- A new request is last in the queues that it joins. -/
theorem queued_joinQueues (hopen : client.closed = false) (timeout : Option Millis) :
    ((s.openRequest (s.newRequest client timeout)).joinQueues s.nextRequest
      client.watching).Queued := by
  set q := s.newRequest client timeout with hq
  set u := s.openRequest q with hu
  have hqu : q ∈ u.requests := List.mem_append_right _ (List.mem_singleton.2 rfl)
  have hpending : u.isPending s.nextRequest = true :=
    ((coherent_openRequest hs hc hopen timeout).tracked.isPending_id hqu).trans
      (isOpen_openRequest_self hc _)
  have hfilter {tube : Tube} (hb : tube ∈ s.tubes) :
      tube.waiters.filter u.isPending = s.turns tube.name :=
    (List.filter_congr fun r hr => isPending_openRequest hs hc timeout hb hr).trans
      (hs.queued.turns tube hb)
  refine ⟨fun b hb r hr => ?_, fun b hb => ?_⟩
  · obtain ⟨a, ha, rfl⟩ := List.mem_map.1 hb
    have hold {r : RequestId} (hr : r ∈ a.waiters) : r ∈ u.requests.keys := by
      obtain ⟨p, hp, rfl⟩ := List.mem_map.1 (hs.queued.known a ha r hr)
      exact List.mem_map_of_mem (List.mem_append_left _ hp)
    split at hr
    · rcases List.mem_append.1 hr with hr | hr
      · exact hold (List.mem_of_mem_filter hr)
      · rw [List.mem_singleton.1 hr]
        exact List.mem_map_of_mem (f := Keyed.key) hqu
    · exact hold hr
  · obtain ⟨a, ha, rfl⟩ := List.mem_map.1 hb
    have hturns := turns_openRequest hs hc timeout a.name
    split
    · next hw =>
      rw [if_pos hw] at hturns
      refine Eq.trans ?_ hturns.symm
      show (a.waiters.filter u.isPending ++ [s.nextRequest]).filter u.isPending = _
      rw [← hfilter ha, List.filter_append, List.filter_filter]
      simp only [Bool.and_self, List.filter_singleton, hpending]
      rfl
    · next hw =>
      rw [if_neg hw, List.append_nil] at hturns
      exact (hfilter ha).trans hturns.symm

/-- A tube that is joined has nothing to hand out, so it may have someone waiting. -/
theorem awake_joinQueues (timeout : Option Millis)
    (hnone : ∀ name ∈ client.watching, s.next? name = none) :
    Awake none ((s.openRequest (s.newRequest client timeout)).joinQueues s.nextRequest
      client.watching) := by
  intro b hb _ hpause
  obtain ⟨a, ha, rfl⟩ := List.mem_map.1 hb
  split at hpause
  · next hw =>
    have htube := (tube?_eq_some_iff hs.listed.tubes).2 ⟨ha, rfl⟩
    have hnil : a.ready = [] := ready_eq_nil_of_next? htube hpause (hnone a.name hw)
    rw [if_pos hw]
    exact Or.inl hnil
  · next hw =>
    rw [if_neg hw]
    refine (hs.awake a ha (Option.some_ne_none _) hpause).imp_right fun hidle r hr => ?_
    exact (isPending_openRequest hs hc timeout ha hr).trans (hidle r hr)

/-- A request that waits is last in the queues of its tubes, none of which has anything to hand
out. -/
theorem sound_waiting (hopen : client.closed = false)
    (hnone : ∀ name ∈ client.watching, s.next? name = none) :
    Sound none none ((s.openRequest (s.newRequest client timeout)).joinQueues s.nextRequest
      client.watching) := by
  have hcoh := coherent_openRequest hs hc hopen timeout
  have hlisted := waiting_eq hs hc timeout ▸
    listed_foldl_enqueueWaiter s.nextRequest client.watching hcoh.listed
  have hdesk : SameDesk (s.openRequest (s.newRequest client timeout))
      ((s.openRequest (s.newRequest client timeout)).joinQueues s.nextRequest client.watching) :=
    .of_eq rfl rfl
  exact
    { settled := hs.settled
      listed := hlisted
      tracked := hcoh.tracked.of_fewer (.of_sameDesk hdesk) rfl
      attended := (hs.attended.openRequest hs.tracked hc timeout).of_sameDesk hdesk rfl
      queued := queued_joinQueues hs hc hopen timeout
      awake := awake_joinQueues hs hc timeout hnone
      posted := (posted_openRequest hs hc timeout).of_keys
        (fun _ hk => (keys_joinQueues ..).symm ▸ hk) (fun b hb => ⟨b, hb, rfl, rfl⟩) rfl }

end Waiting

/-- No request is opened besides the new one. -/
theorem Asked.fewer (hs : Sound none none s) (hc : s.client? client.id = some client)
    (hopen : client.closed = false) (h : Asked s (s.newRequest client timeout) t) :
    Fewer (s.openRequest (s.newRequest client timeout)) t := by
  cases h with
  | served _ m => exact m.fewer (coherent_openRequest hs hc hopen timeout)
  | refused => exact fewer_answer _ _ .notFound s.now
  | waiting =>
    rw [waiting_eq hs hc]
    exact .of_sameDesk (.of_eq rfl rfl)

theorem Asked.sound (hs : Sound none none s) (hc : s.client? client.id = some client)
    (hopen : client.closed = false)
    (h : Asked s (s.newRequest client timeout) t) : Sound none none t := by
  have hcoh := coherent_openRequest hs hc hopen timeout
  have hposted := posted_openRequest hs hc timeout
  have hatt : Attended none (s.openRequest (s.newRequest client timeout)) :=
    hs.attended.openRequest hs.tracked hc timeout
  cases h with
  | served _ m =>
    have hclosed := m.isOpen_grant hcoh (s.newRequest client timeout)
    have hquiet := quiet_openRequest hs hc (m.fewer hcoh) (m.quiet hcoh).tubes
      (by simpa using hclosed)
    exact hs.of_quiet hquiet (m.coherent hcoh) (m.attended hcoh hatt) (m.posted hcoh hposted)
      (m.settled hcoh hs.settled)
  | refused htimeout _ =>
    have hq : s.newRequest client timeout ∈
        (s.openRequest (s.newRequest client timeout)).requests :=
      List.mem_append_right _ (List.mem_singleton.2 rfl)
    have ho : (s.openRequest (s.newRequest client timeout)).isOpen (s.newRequest client timeout) =
        true := isOpen_openRequest_self hc _
    have hadm : (s.newRequest client timeout).Admits .notFound := htimeout
    have hquiet := quiet_openRequest hs hc
      (fewer_answer _ (s.newRequest client timeout) .notFound s.now)
      (fun b hb => ⟨b, hb, .refl _ b⟩) (not_isOpen_finish_self _ _)
    exact hs.of_quiet hquiet (hcoh.answer hq ho hadm s.now)
      (hatt.answer hcoh.tracked hq (.refl _) rfl _ _)
      ((hposted.finish _).of_keys (List.Subset.refl _) (fun b hb => ⟨b, hb, rfl, rfl⟩) rfl)
      hs.settled
  | waiting _ hnone =>
    rw [waiting_eq hs hc]
    exact sound_waiting hs hc hopen hnone

end Engine

end WorkQueue

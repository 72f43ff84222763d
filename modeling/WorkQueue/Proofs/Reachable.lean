import WorkQueue.Proofs.Progress

/-!
# The states of a broker

A broker starts sound, and every event is a passage, so all states that come up are sound
(`Broker.Reachable.sound`) and every event makes progress (`Broker.Reachable.progress`).
-/

namespace WorkQueue

open Relation

namespace Engine

variable {s t : Engine}

theorem sound_start : Sound none none {} where
  listed :=
    { tubes := List.nodup_singleton _
      jobs := rfl
      clients := rfl
      homes := List.forall_mem_nil _
      ordered := fun tube ht => by
        rw [List.mem_singleton.1 ht]
        exact ⟨.nil, .nil, .nil, .nil⟩
      places := fun tube ht p => by
        rw [List.mem_singleton.1 ht]
        simp [Tube.places]
      heldOrdered := List.forall_mem_nil _
      held := List.forall_mem_nil _
      holders := List.forall_mem_nil _ }
  tracked :=
    { numbered := rfl
      asked := List.forall_mem_nil _
      distinct := List.forall_mem_nil _
      closed := fun c client hc => absurd (Table.mem_of_lookup hc) List.not_mem_nil
      known := List.forall_mem_nil _
      once := .nil
      unanswered := List.forall_mem_nil _
      admitted := List.forall_mem_nil _
      timers := List.forall_mem_nil _ }
  attended := List.forall_mem_nil _
  queued :=
    { known := fun tube ht => by
        rw [List.mem_singleton.1 ht]
        exact List.forall_mem_nil _
      turns := fun tube ht => by
        rw [List.mem_singleton.1 ht]
        rfl }
  awake := fun tube ht _ _ => by rw [List.mem_singleton.1 ht]; exact Or.inl rfl
  posted :=
    { default := List.mem_cons_self
      used := List.forall_mem_nil _
      watching := List.forall_mem_nil _
      distinct := List.forall_mem_nil _
      requests := List.forall_mem_nil _ }
  settled := List.forall_mem_nil _

/-! ## Passages -/

theorem client?_of_isConnected {c : ClientId} (h : s.isConnected c = true) :
    ∃ client : Client, client.id = c ∧ s.client? c = some client ∧ client.closed = false := by
  rw [isConnected, Option.any_eq_true] at h
  obtain ⟨client, hc, hopen⟩ := h
  exact ⟨client, Table.key_of_lookup hc, hc, by simpa using hopen⟩

theorem sound_markWorker (hs : Sound none none s) (c : ClientId) :
    Sound none none (Broker.markWorker s c) :=
  hs.adjustClient c (fun _ => ⟨rfl, rfl, rfl, rfl⟩) fun d hd _ =>
    ⟨hs.posted.used d hd, hs.posted.watching d hd, hs.posted.distinct d hd⟩

theorem client?_markWorker {client : Client} (hc : s.client? client.id = some client) :
    (Broker.markWorker s client.id).client? client.id = some { client with worker := true } :=
  (client?_adjustClient s client.id (fun _ => by rfl) client.id).trans (by simp [hc])

/-- A reservation is asked for once its client is marked as a worker. -/
theorem reserve_passage {client : Client} (hc : s.client? client.id = some client)
    (hopen : client.closed = false) (timeout : Option Millis) :
    ∃ worker : Client, worker.watching = client.watching ∧ worker.closed = false ∧
      (Broker.markWorker s client.id).client? worker.id = some worker ∧
        Asked (Broker.markWorker s client.id)
          ((Broker.markWorker s client.id).newRequest worker timeout)
          ((Broker.markWorker s client.id).reserve client.id timeout) := by
  have hworker := client?_markWorker hc
  exact ⟨{ client with worker := true }, rfl, hopen, hworker,
    @reserve_asked _ { client with worker := true } hworker hopen timeout⟩

/-- To the requests it makes no difference that a client is marked as a worker. -/
theorem Progress.of_markWorker {c : ClientId} (h : Progress (Broker.markWorker s c) t) :
    Progress s t := by
  have haside : Aside s (Broker.markWorker s c) := .adjustClient s c fun _ => ⟨rfl, rfl, rfl⟩
  have hdesk := haside.desk
  obtain ⟨late, hlate, hmade⟩ := h.requests
  obtain ⟨fresh, hd, hfresh⟩ := h.answers
  refine ⟨fun d hd => ?_, ⟨late, hlate, fun q hq => ?_⟩,
    fun q hq ho => hdesk.isOpen q ▸ h.isOpen q hq ho, fresh, hd, fun d hmem => ?_⟩
  · have hworker := hdesk.sameClients d hd
    exact ⟨(h.clients d hworker.1).1, fun hcon => hworker.2 ▸ (h.clients d hworker.1).2 hcon⟩
  · have hm := hmade q hq
    refine ⟨hdesk.isConnected q.client ▸ hm.connected, ?_, hm.atOnce⟩
    rw [← hm.tubes, Broker.markWorker, client?_adjustClient s c fun _ => by rfl, Option.map_map]
    congr 1
    funext client
    dsimp only [Function.comp_apply]
    split <;> rfl
  · obtain ⟨q, ha⟩ := hfresh d hmem
    refine ⟨q, ha.asked, ha.answers, fun hq => hdesk.isOpen q ▸ ha.waited hq,
      hdesk.isConnected q.client ▸ ha.connected, fun id hid => ?_⟩
    obtain ⟨job, hjob, hg, hturn⟩ := ha.granted id hid
    exact ⟨job, hjob, { hg with waited := fun hq => hdesk.isOpen q ▸ hg.waited hq }, hturn⟩

theorem Passage.keeps {asks : Option (ClientId × Option Millis)} (h : Passage asks s t)
    (hs : Sound none none s) : Sound none none t ∧ Progress s t := by
  cases h with
  | stages hst =>
    obtain ⟨ht, hcourse⟩ := hst.keeps hs (.refl hs.listed.jobs) fun _ _ => nofun
    exact ⟨ht, hcourse.progress hs.tracked⟩
  | act hst =>
    obtain ⟨ht, hcourse⟩ := hst.keeps hs (.refl hs.listed.jobs) (fun _ h => h.weaken)
      fun _ _ => nofun
    exact ⟨ht, hcourse.progress hs.tracked⟩
  | @reserve c timeout _ hc =>
    obtain ⟨client, rfl, hclient, hopen⟩ := client?_of_isConnected hc
    obtain ⟨worker, -, hopen, hworker, hasked⟩ := reserve_passage hclient hopen timeout
    have hs := sound_markWorker hs client.id
    exact ⟨hasked.sound hs hworker hopen, (hasked.progress hs hworker hopen).of_markWorker⟩
  | advance span =>
    obtain ⟨ht, htimed⟩ := advance_keeps hs span
    exact ⟨ht, htimed.progress hs.tracked⟩
  | close hc =>
    obtain ⟨client, rfl, hclient, -⟩ := client?_of_isConnected hc
    exact ⟨hs.close hclient, progress_close hs hclient⟩

end Engine

namespace Broker

variable {b : Broker}

theorem Reachable.sound (h : Reachable b) : Engine.Sound none none b.engine := by
  induction h with
  | start config => exact Engine.sound_start
  | step event _ ih => exact ((step_passage _ event).keeps ih).1
  | tick _ _ hrequests _ ih => exact (Engine.tick_keeps ih _ hrequests).1

theorem Reachable.progress (h : Reachable b) (event : Event) :
    Engine.Progress b.engine (b.step event).engine :=
  ((step_passage b event).keeps h.sound).2

theorem Reachable.gone_step (h : Reachable b) {c : ClientId}
    (hknown : (b.engine.client? c).isSome = true) (hgone : b.engine.isConnected c = false)
    (event : Event) : ((b.step event).engine.client? c).isSome = true ∧
      (b.step event).engine.isConnected c = false := by
  obtain ⟨hknown', hcon⟩ := (h.progress event).clients c hknown
  exact ⟨hknown', eq_false_of_ne_true fun hopen => Bool.false_ne_true (hgone ▸ hcon hopen)⟩

/-- A client that has gone does not come back. -/
theorem Reachable.gone_after (h : Reachable b) {c : ClientId}
    (hknown : (b.engine.client? c).isSome = true) (hgone : b.engine.isConnected c = false)
    (events : List Event) : (b.after events).engine.isConnected c = false := by
  induction events generalizing b with
  | nil => exact hgone
  | cons event rest ih =>
    obtain ⟨hknown, hgone⟩ := h.gone_step hknown hgone event
    exact ih (h.step event) hknown hgone

theorem Reachable.after (h : Reachable b) (events : List Event) : Reachable (b.after events) := by
  induction events generalizing b with
  | nil => exact h
  | cons event rest ih => exact ih (h.step event)

end Broker

end WorkQueue

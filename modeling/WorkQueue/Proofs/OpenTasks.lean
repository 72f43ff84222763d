import WorkQueue.Proofs.Reachable

/-!
# Open tasks

A client has a task open only for a request that it has made (`Engine.Backed`). Nothing but a new
request opens a task, so this is kept by every event. With it, a client that has a task open is one
that waits for the answer to a request, and no task is open that has yet to be begun.
-/

namespace WorkQueue

/-- A task that is begun and closed at once leaves nothing but its number behind. -/
theorem Tasks.finish_start {tasks : Tasks} (h : ∀ k ∈ tasks.pending, k ≤ tasks.begun) :
    (tasks.start.2.finish tasks.start.1).2 = { tasks with begun := tasks.begun + 1 } := by
  have hold : tasks.pending.filter (· ≠ tasks.begun + 1) = tasks.pending :=
    List.filter_eq_self.2 fun k hk => decide_eq_true (Nat.ne_of_lt (Nat.lt_succ_of_le (h k hk)))
  rw [start, finish, List.filter_append, hold, List.filter_singleton]
  simp

namespace Engine

variable {s t : Engine}

/-- Whoever has a task open has made a request with it. The request that is given stands for any
client and task. -/
def Backed (s : Engine) : Prop :=
  ∀ q, s.isOpen q = true → ∃ p ∈ s.requests, p.client = q.client ∧ p.task = q.task

namespace Backed

theorem of_isOpen (h : s.Backed) (hopen : ∀ q, t.isOpen q = true → s.isOpen q = true)
    (hr : s.requests ⊆ t.requests) : t.Backed := fun q ho => by
  obtain ⟨p, hp, hpq⟩ := h q (hopen q ho)
  exact ⟨p, hr hp, hpq⟩

theorem of_course {who leaving : Option ClientId} (h : s.Backed) (hc : Course who leaving s t) :
    t.Backed :=
  h.of_isOpen hc.isOpen (hc.requests ▸ List.Subset.refl _)

theorem of_fewer (h : s.Backed) (hf : Fewer s t) : t.Backed :=
  h.of_isOpen (fun _ ho => hf.isOpen ho) (hf.requests ▸ List.Subset.refl _)

/-- A new request opens one task, which is its own. -/
theorem openRequest (h : s.Backed) {client : Client} (hc : s.client? client.id = some client)
    (timeout : Option Millis) : (s.openRequest (s.newRequest client timeout)).Backed := by
  intro q ho
  rw [isOpen, client?_openRequest] at ho
  by_cases hown : q.client = client.id ∧ q.task = client.tasks.begun + 1
  · exact ⟨_, List.mem_append_right _ (List.mem_singleton.2 rfl), hown.1.symm, hown.2.symm⟩
  · have hold : s.isOpen q = true := by
      rw [isOpen]
      cases hs : s.client? q.client with
      | none => simp [hs] at ho
      | some other =>
        rw [hs, Option.map_some, Option.any_some] at ho
        have hid : other.id = q.client := Table.key_of_lookup hs
        split at ho
        · next hsame =>
          have hqc : q.client = client.id := hid.symm.trans hsame
          rw [hqc, hc] at hs
          obtain rfl := Option.some.inj hs
          have hne : ¬q.task = client.tasks.begun + 1 := fun he => hown ⟨hqc, he⟩
          rw [Tasks.isOpen_start, decide_eq_false hne, Bool.or_false] at ho
          exact ho
        · exact ho
    obtain ⟨p, hp, hpq⟩ := h q hold
    exact ⟨p, List.mem_append_left _ hp, hpq⟩

end Backed

theorem Passage.backed {asks : Option (ClientId × Option Millis)} (hp : Passage asks s t)
    (hs : Sound none none s) (h : s.Backed) : t.Backed := by
  cases hp with
  | stages hst => exact h.of_course (hst.keeps hs (.refl hs.listed.jobs) fun _ _ => nofun).2
  | act hst =>
    exact h.of_course (hst.keeps hs (.refl hs.listed.jobs) (fun _ h => h.weaken) fun _ _ => nofun).2
  | @reserve c timeout _ hc =>
    obtain ⟨client, rfl, hclient, hopen⟩ := client?_of_isConnected hc
    obtain ⟨worker, -, hopen, hworker, hasked⟩ := reserve_passage hclient hopen timeout
    have hmarked : (Broker.markWorker s client.id).Backed :=
      h.of_fewer (Fewer.adjustClient s client.id fun _ => ⟨rfl, rfl, rfl, List.Subset.refl _⟩)
    exact (hmarked.openRequest hworker timeout).of_fewer
      (hasked.fewer (sound_markWorker hs client.id) hworker hopen)
  | advance span => exact h.of_fewer (advance_keeps hs span).2.fewer
  | close hc =>
    obtain ⟨client, rfl, hclient, -⟩ := client?_of_isConnected hc
    obtain ⟨u, -, hcourse, -, heq⟩ := close_course hs hclient
    rw [heq]
    exact ((h.of_fewer (fewer_finishAll s client.id)).of_course hcourse).of_isOpen
      (fun q ho => isOpen_shut u client.id q ▸ ho) (List.Subset.refl _)

/-- A task that is open has been begun. -/
theorem Backed.pending_le (h : s.Backed) (ht : s.Tracked) {client : Client}
    (hc : s.client? client.id = some client) {task : TaskId} (hopen : task ∈ client.tasks.pending) :
    task ≤ client.tasks.begun := by
  have ho : s.isOpen { id := 0, client := client.id, task := task, tubes := [], timeout := none
                       made := 0, timer := none } = true := by
    simpa [isOpen, hc, Tasks.isOpen] using hopen
  obtain ⟨p, hp, hclient, htask⟩ := h _ ho
  have hle := ht.task_le hc hp hclient
  rwa [htask] at hle

/-- A client waits if it has a request that is open. -/
theorem Backed.isWaiting_iff (h : s.Backed) {client : Client}
    (hc : s.client? client.id = some client) :
    client.isWaiting = true ↔ ∃ q ∈ s.requests, q.client = client.id ∧ s.isOpen q = true := by
  rw [Client.isWaiting, decide_eq_true_eq, Tasks.openCount, List.length_pos_iff_exists_mem]
  constructor
  · rintro ⟨task, hopen⟩
    have ho : s.isOpen { id := 0, client := client.id, task := task, tubes := [], timeout := none
                         made := 0, timer := none } = true := by
      simpa [isOpen, hc, Tasks.isOpen] using hopen
    obtain ⟨p, hp, hclient, htask⟩ := h _ ho
    refine ⟨p, hp, hclient, ?_⟩
    rw [isOpen, hclient, hc, Option.any_some, htask]
    exact List.contains_iff_mem.2 hopen
  · rintro ⟨q, -, hclient, ho⟩
    rw [isOpen, hclient, hc, Option.any_some] at ho
    exact ⟨q.task, List.contains_iff_mem.1 ho⟩

end Engine

theorem Broker.Reachable.backed {b : Broker} (h : Reachable b) : b.engine.Backed := by
  induction h with
  | start config => exact fun _ ho => nomatch ho
  | step event h ih => exact (step_passage _ event).backed h.sound ih
  | tick _ _ hrequests h ih => exact ih.of_fewer (Engine.tick_keeps h.sound _ hrequests).2.fewer

end WorkQueue
